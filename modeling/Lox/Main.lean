import Lox.Command
import Std.Time.DateTime.Timestamp

/-!
# The command line

Reads files, the standard input and the time, and leaves the rest to `Lox.Command`.
-/

namespace Lox.Main

open Command

/-- A clock that goes on from now by a microsecond with each reading. -/
def clockFromNow : IO Clock := do
  let time ← Std.Time.Timestamp.now
  return .ticking time.toNanosecondsSinceUnixEpoch.val 1000

/-- The fault that an error of the system stands for. -/
def faultOf : IO.Error → FileFault
  | .inappropriateType _ 21 _ => .isDirectory
  | .inappropriateType .. => .notDirectory
  | .invalidArgument .. => .nameTooLong
  | _ => .missing

/-- Why a file could not be read. A directory can be opened, but not mapped. -/
def obstacleOf (path : String) (e : IO.Error) : Obstacle :=
  match faultOf e with
  | .isDirectory => .mapFile path .noDevice
  | fault => .openFile path fault

/-- Writes what a command leaves behind, and gives back its exit code. -/
def finish (o : Outcome) : IO UInt32 := do
  let out ← IO.getStdout
  out.putStr o.stdout
  out.flush
  let err ← IO.getStderr
  err.putStr o.stderr
  return o.exitCode.toUInt32

/-- Performs a task on the text of a file. -/
def onFile (path : String) (task : String → Outcome) : IO UInt32 := do
  try
    let bytes ← IO.FS.readBinFile path
    match Text.Utf8.decode bytes with
    | .ok source => finish (task source)
    | .error fault => finish (Obstacle.decodeFile path fault).outcome
  catch e => finish (obstacleOf path e).outcome

/-- Answers the lines of the standard input, up to its end. -/
partial def prompt (s : Session) : IO UInt32 := do
  let out ← IO.getStdout
  out.putStr promptMark
  out.flush
  let line ← (← IO.getStdin).getLine
  if line.isEmpty then finish { stdout := "\n" }
  else
    let (s, o) := reply { s with machine.clock := ← clockFromNow } line
    let _ ← finish o
    prompt s

/-- Performs a task. -/
def perform (task : Task) : IO UInt32 := do
  let clock ← clockFromNow
  match task with
  | .run file => onFile file (runSource clock)
  | .tokenize file json => onFile file (tokenizeSource json)
  | .parse file json => onFile file (parseSource json)
  | .prompt =>
    try prompt (session clock)
    catch _ => finish Obstacle.decodeLine.outcome

/-- Performs what the arguments ask for. -/
def run (arguments : List String) : IO UInt32 := do
  match request arguments with
  | .help => finish { stdout := helpText }
  | .version => finish { stdout := versionText }
  | .misuse => finish { exitCode := 64, stderr := helpText }
  | .perform ⟨task, none⟩ => perform task
  | .perform ⟨task, some log⟩ =>
    let created ← try
        IO.FS.writeFile log ""
        pure none
      catch e => pure (some (faultOf e))
    match created with
    | none => perform task
    | some fault => finish (Obstacle.createLog log fault).outcome

end Lox.Main

/-- The program. -/
def main (arguments : List String) : IO UInt32 :=
  Lox.Main.run arguments

import Lox.Command.Arguments
import Lox.Command.Directory
import Lox.Session
import Lox.Text.Quoted
import Lox.Tree.Outline
import Lox.Tree.Serialize

/-!
# Commands

What each task writes and with which code it exits. A task that is done exits with the code of its
diagnostics, a task that could not be started exits with `1`, and a misused command line with `64`.
-/

namespace Lox.Command

/-- What a command leaves behind. -/
structure Outcome where
  /-- The exit code. -/
  exitCode : Nat := 0
  /-- What was written to the standard output. -/
  stdout : String := ""
  /-- What was written to the standard error. -/
  stderr : String := ""
deriving DecidableEq, Repr

/-- Why a task could not be started. -/
inductive Obstacle where
  /-- The file to log to could not be made. -/
  | createLog (path : String) (fault : FileFault)
  /-- A file could not be opened. -/
  | openFile (path : String) (fault : FileFault)
  /-- A file could not be mapped into memory. -/
  | mapFile (path : String) (fault : FileFault)
  /-- A file is no text. -/
  | decodeFile (path : String) (fault : Text.Utf8.Fault)
  /-- A line at the prompt is no text. -/
  | decodeLine
deriving DecidableEq, Repr

namespace Obstacle

/-- What was being done. -/
def context : Obstacle → String
  | .createLog path _ => "Failed to create " ++ Text.quoted path
  | .openFile path _ => "Failed to open file " ++ Text.quoted path
  | .mapFile path _ => "Failed to map file " ++ Text.quoted path
  | .decodeFile path _ => "File " ++ Text.quoted path ++ " is not valid UTF-8"
  | .decodeLine => "Failed to read from stdin"

/-- Why it could not be done. -/
def reason : Obstacle → String
  | .createLog _ fault => fault.message
  | .openFile _ fault => fault.message
  | .mapFile _ fault => fault.message
  | .decodeFile _ fault => fault.message
  | .decodeLine => "stream did not contain valid UTF-8"

/-- What is written about an obstacle. -/
def report (o : Obstacle) : String :=
  "Error: " ++ o.context ++ "\n\nCaused by:\n    " ++ o.reason ++ "\n"

/-- The outcome of a task that could not be started. -/
def outcome (o : Obstacle) : Outcome :=
  { exitCode := 1, stderr := o.report }

end Obstacle

/-- How much evaluation a command allows: more than any run can use up. -/
def budget : Nat :=
  Number.tenPow 18

/-- The outcome of a task with diagnostics. -/
def Outcome.ofDiagnostics (stdout : String) (ds : Diagnostics) : Outcome :=
  { exitCode := (Diagnostics.exitCode? ds).getD 0
    stdout := stdout
    stderr := Diagnostics.report ds }

/-- Texts, each with a line end. -/
def lines (texts : List String) : String :=
  String.join (texts.map (· ++ "\n"))

/-- A session whose output is all taken. -/
def session (clock : Clock) : Session :=
  .start {} clock

/-- The text of bytes, if they are one. -/
def textOf (bytes : ByteArray) : String :=
  (Text.Utf8.decode bytes).toOption.getD ""

/-- Runs a program. -/
def runSource (clock : Clock) (source : String) : Outcome :=
  let (s, ds) := (session clock).run budget source
  .ofDiagnostics (textOf s.drain.2) ds

/-- Lists the tokens of a program. -/
def tokenizeSource (json : Bool) (source : String) : Outcome :=
  let (tokens, ds) := tokenize source
  let listing :=
    if json then (Json.array (tokens.map Token.json)).pretty ++ "\n"
    else lines (tokens.map Token.listing)
  .ofDiagnostics listing ds

/-- Prints the syntax tree of a program. -/
def parseSource (json : Bool) (source : String) : Outcome :=
  let program := Program.ofSource source 0
  let listing :=
    if json then (Json.array (stmtsJson program.statements)).pretty ++ "\n"
    else lines (program.statements.map Stmt.outline)
  .ofDiagnostics listing program.diagnostics

/-- What the prompt shows. -/
def promptMark : String :=
  "> "

/-- What a line at the prompt writes: to the output what the line prints and then its value, and
to the error what is reported about it. -/
def reply (s : Session) (line : String) : Session × Outcome :=
  let (s, outcome) := s.runLine budget line
  let (s, printed) := s.drain
  let shown := (outcome.value.map fun v => s.machine.heap.text v ++ "\n").getD ""
  (s, { stdout := textOf printed ++ shown, stderr := Diagnostics.report outcome.diagnostics })

/-- What the lines at a prompt write, up to the end of the input. -/
def converse (s : Session) : List String → Outcome
  | [] => { stdout := promptMark ++ "\n" }
  | line :: rest =>
    let (s, first) := reply s line
    let later := converse s rest
    { later with
      stdout := promptMark ++ first.stdout ++ later.stdout
      stderr := first.stderr ++ later.stderr }

/-- The lines of a text, each with its line end. -/
def splitLines : List Char → List (List Char)
  | [] => []
  | c :: cs =>
    if c = '\n' then [c] :: splitLines cs
    else
      match splitLines cs with
      | [] => [[c]]
      | line :: rest => (c :: line) :: rest

/-- The text of a file. -/
def readSource (d : Directory) (path : String) : Except Obstacle String :=
  match d.find path with
  | .error fault => .error (.openFile path fault)
  | .ok .directory => .error (.mapFile path .noDevice)
  | .ok (.file bytes) => (Text.Utf8.decode bytes).mapError (.decodeFile path)

/-- Performs a task on the text of a file. -/
def withSource (d : Directory) (path : String) (task : String → Outcome) : Outcome :=
  match readSource d path with
  | .ok source => task source
  | .error obstacle => obstacle.outcome

/-- Performs a task. The standard input can also be read as a file. -/
def perform (d : Directory) (stdin : String) (clock : Clock) (task : Task) : Outcome :=
  let d := d.insert ["/", "dev", "stdin"] stdin.toUTF8
  match task with
  | .run file => withSource d file (runSource clock)
  | .tokenize file json => withSource d file (tokenizeSource json)
  | .parse file json => withSource d file (parseSource json)
  | .prompt => converse (session clock) ((splitLines stdin.toList).map String.ofList)

/-- The version of the program. -/
def versionText : String :=
  "rox 0.1.0\n"

/-- The description of the arguments. -/
def helpText : String :=
  lines ["Rox: a Lox language interpreter", "",
    "Usage: rox [OPTIONS] [SCRIPT]", "       rox <COMMAND>", "",
    "Commands:",
    "  run       Runs a file as a Lox program",
    "  tokenize  Tokenizes a file, printing each token",
    "  parse     Parses a file and prints the syntax tree of every statement",
    "  repl      Starts an interactive session",
    "  help      Print this message or the help of the given subcommand(s)", "",
    "Arguments:",
    "  [SCRIPT]  Script to run; starts the REPL when omitted", "",
    "Options:",
    "      --log                  Enable logging to a file",
    "      --log-file <LOG_FILE>  Log file written when --log is given [default: app.log]",
    "  -h, --help                 Print help",
    "  -V, --version              Print version"]

/-- Runs a command line in a directory, and gives back the directory as the command leaves it. -/
def run (d : Directory) (arguments : List String) (stdin : String) (clock : Clock) :
    Directory × Outcome :=
  match request arguments with
  | .help => (d, { stdout := helpText })
  | .version => (d, { stdout := versionText })
  | .misuse => (d, { exitCode := 64, stderr := helpText })
  | .perform ⟨task, none⟩ => (d, perform d stdin clock task)
  | .perform ⟨task, some log⟩ =>
    match d.create log with
    | .error fault => (d, (Obstacle.createLog log fault).outcome)
    | .ok d => (d, perform d stdin clock task)

end Lox.Command

/-!
# Command-line arguments

The arguments say which task to perform. The first argument may name a task; then its own arguments
follow. Otherwise there is at most one argument besides options, a script to run, and without it a
prompt is opened. The option `--log` and its file may stand anywhere, but once an option stands
before it a task's name is taken for a script. After `--` nothing is an option.
-/

namespace Lox.Command

/-- What there is to do. -/
inductive Task where
  /-- Run a file. -/
  | run (file : String)
  /-- List the tokens of a file. -/
  | tokenize (file : String) (json : Bool)
  /-- Print the syntax tree of a file. -/
  | parse (file : String) (json : Bool)
  /-- Open a prompt. -/
  | prompt
deriving DecidableEq, Repr

/-- A task, and where to log. -/
structure Invocation where
  /-- The task. -/
  task : Task
  /-- The file to log to, if logging is wanted. -/
  logFile : Option String
deriving DecidableEq, Repr

/-- What the arguments ask for. -/
inductive Request where
  /-- A task. -/
  | perform (invocation : Invocation)
  /-- A description of the arguments. -/
  | help
  /-- The version. -/
  | version
  /-- Nothing that is known. -/
  | misuse
deriving DecidableEq, Repr

/-- Whose arguments are being read. -/
inductive Level where
  /-- Those before any task is named. -/
  | top
  /-- Those of running a file. -/
  | run
  /-- Those of listing tokens. -/
  | tokenize
  /-- Those of printing trees. -/
  | parse
  /-- Those of a prompt. -/
  | prompt
deriving DecidableEq, Repr

namespace Level

/-- The task that a name denotes. -/
def named? : String → Option Level
  | "run" => some .run
  | "tokenize" => some .tokenize
  | "parse" => some .parse
  | "repl" => some .prompt
  | _ => none

/-- Whether a file can be given. -/
def takesFile : Level → Bool
  | .prompt => false
  | _ => true

/-- Whether JSON can be asked for. -/
def takesJson : Level → Bool
  | .tokenize | .parse => true
  | _ => false

end Level

/-- What was read so far. -/
structure Reading where
  /-- Whose arguments they are. -/
  level : Level := .top
  /-- The file, once it was given. -/
  file : Option String := none
  /-- Whether logging is wanted. -/
  log : Bool := false
  /-- The file to log to, once it was given. -/
  logFile : Option String := none
  /-- Whether JSON is wanted. -/
  json : Bool := false
  /-- Whether the next argument is the file to log to. -/
  awaiting : Bool := false
  /-- Whether no more options follow. -/
  plain : Bool := false
deriving DecidableEq, Repr

namespace Reading

/-- What the arguments ask for when no more follow. -/
def finish (r : Reading) : Request :=
  let perform (task : Task) : Request :=
    .perform ⟨task, if r.log then some (r.logFile.getD "app.log") else none⟩
  if r.awaiting then .misuse
  else
    match r.level, r.file with
    | .top, none => perform .prompt
    | .prompt, _ => perform .prompt
    | .top, some file => perform (.run file)
    | .run, some file => perform (.run file)
    | .tokenize, some file => perform (.tokenize file r.json)
    | .parse, some file => perform (.parse file r.json)
    | _, none => .misuse

/-- Reads an argument that is no option. There can be only one, and not an empty one. -/
def addFile (r : Reading) (argument : String) : Except Request Reading :=
  if r.file.isSome || !r.level.takesFile || argument.isEmpty then .error .misuse
  else .ok { r with file := some argument }

/-- Reads the file to log to, which can be given only once. -/
def addLogFile (r : Reading) (argument : String) : Except Request Reading :=
  if r.logFile.isSome || argument.isEmpty then .error .misuse
  else .ok { r with logFile := some argument, awaiting := false }

/-- Reads an option with a long name, and a value if one is attached to it. -/
def addLong (r : Reading) (name : String) (value : Option String) : Except Request Reading :=
  match name, value with
  | "log", none => if r.log then .error .misuse else .ok { r with log := true }
  | "log-file", none => .ok { r with awaiting := true }
  | "log-file", some file => r.addLogFile file
  | "json", none =>
    if r.json || !r.level.takesJson then .error .misuse else .ok { r with json := true }
  | "help", none => .error .help
  | "version", none => .error (if r.level = .top then .version else .misuse)
  | _, _ => .error .misuse

/-- Reads an option with a short name. -/
def addShort (r : Reading) (name : Char) : Except Request Reading :=
  match name with
  | 'h' => .error .help
  | 'V' => .error (if r.level = .top then .version else .misuse)
  | _ => .error .misuse

/-- Reads one argument. -/
def add (r : Reading) (argument : String) : Except Request Reading :=
  if r.plain then r.addFile argument
  else
    match argument.toList with
    | ['-', '-'] => if r.awaiting then .error .misuse else .ok { r with plain := true }
    | '-' :: '-' :: option =>
      if r.awaiting then .error .misuse
      else
        let name := option.takeWhile (· != '=')
        let value := match option.dropWhile (· != '=') with
          | _ :: value => some (String.ofList value)
          | [] => none
        r.addLong (String.ofList name) value
    | '-' :: c :: _ => if r.awaiting then .error .misuse else r.addShort c
    | _ => if r.awaiting then r.addLogFile argument else r.addFile argument

end Reading

/-- What is asked for after the word `help`: a description, perhaps of a task that is named. -/
def helpRequest : List String → Request
  | [] => .help
  | [name] => if (Level.named? name).isSome || name == "help" then .help else .misuse
  | _ => .misuse

/-- What arguments ask for, after others were read. -/
def requestFrom (r : Reading) : List String → Request
  | [] => r.finish
  | argument :: rest =>
    match r.add argument with
    | .ok r => requestFrom r rest
    | .error request => request

/-- What a command line asks for. -/
def request (arguments : List String) : Request :=
  -- A task is named by the first argument, since any other argument makes it a file.
  match arguments with
  | "help" :: rest => helpRequest rest
  | first :: rest =>
    match Level.named? first with
    | some level => requestFrom { level := level } rest
    | none => requestFrom {} arguments
  | [] => requestFrom {} []

end Lox.Command

import Lox.Diagnostic
import Lox.Eval
import Lox.Grammar

/-!
# Sessions

A session runs one source after another on one machine: what a source declares, later ones can use.
A source with a static error changes nothing. The distances of a source are dropped after its run,
unless a function or class that it made may need them later. At a prompt, a line that is one
expression is evaluated and its value is shown.
-/

namespace Lox

/-- The tokens of a text, with the diagnostics for what is no token. -/
def tokenize (source : String) : List Token × Diagnostics :=
  let items := Token.scan source
  (items.filterMap Token.Item.token?,
    (items.filterMap Token.Item.fault?).map fun (p, f) => .ofFault p f)

/-- A text that was scanned and parsed. -/
structure Program where
  /-- The statements. -/
  statements : List Stmt
  /-- What is reported about the text. -/
  diagnostics : Diagnostics
  /-- The first number that no reference has. -/
  nextId : Nat

/-- Scans and parses a text, numbering references from `nextId` on. -/
def Program.ofSource (source : String) (nextId : Nat) : Program :=
  let (tokens, faults) := tokenize source
  let parsed := Grammar.parse tokens nextId
  ⟨parsed.statements, faults ++ parsed.complaints.map .ofComplaint, parsed.nextId⟩

namespace Machine

/-- Finds the distances of a program's references, and what violates the scoping rules. -/
def resolve (m : Machine) (program : List Stmt) : Machine × Diagnostics :=
  let (distances, violations) := Scoping.resolve m.distances program
  ({ m with distances := distances }, violations.map .ofViolation)

/-- Finds the distances of an expression's references, and what violates the scoping rules. -/
def resolveExpr (m : Machine) (e : Expr) : Machine × Diagnostics :=
  let (distances, violations) := Scoping.resolveExpr m.distances e
  ({ m with distances := distances }, violations.map .ofViolation)

/-- Drops the distances of references from a number on. -/
def forgetFrom (m : Machine) (id : Nat) : Machine :=
  { m with distances := m.distances.forgetFrom id }

/-- Runs a statement at the top level, and goes on whether or not it fails. -/
def runTop (budget : Nat) (m : Machine) (s : Stmt) : Machine × Diagnostics :=
  match Eval.execute budget s m with
  | .ok _ m => (m, [])
  | .error failure m => ({ m with current := m.globals }, [.ofFailure failure])

/-- Runs the statements of a program in order. -/
def runAll (budget : Nat) (m : Machine) : List Stmt → Machine × Diagnostics
  | [] => (m, [])
  | s :: ss =>
    let (m, first) := m.runTop budget s
    let (m, rest) := m.runAll budget ss
    (m, first ++ rest)

/-- Runs a program and flushes its output. -/
def interpret (budget : Nat) (m : Machine) (program : List Stmt) : Machine × Diagnostics :=
  let (m, ds) := m.runAll budget program
  let (sink, refused) := m.sink.flush
  ({ m with sink := sink }, ds ++ (refused.map .output).toList)

/-- Evaluates an expression. -/
def evaluate (budget : Nat) (m : Machine) (e : Expr) : Machine × Except Diagnostic Value :=
  match Eval.evaluate budget e m with
  | .ok v m => (m, .ok v)
  | .error failure m => (m, .error (.ofFailure failure))

end Machine

/-- A session. -/
structure Session where
  /-- The machine that the sources run on. -/
  machine : Machine
  /-- The first number that no reference has. -/
  nextId : Nat := 0

/-- What a line at the prompt gives. -/
structure LineOutcome where
  /-- The value of the line, if it is an expression that was evaluated. -/
  value : Option Value
  /-- What is reported about the line. -/
  diagnostics : Diagnostics

namespace Session

/-- A session in which nothing has run, with a place for its output and a clock. -/
def start (sink : Sink) (clock : Clock) : Session :=
  { machine := .start sink clock }

/-- Runs a source. -/
def run (budget : Nat) (s : Session) (source : String) : Session × Diagnostics :=
  let program := Program.ofSource source s.nextId
  let parsed : Session := { s with nextId := program.nextId }
  if Diagnostics.hasStatic program.diagnostics then (parsed, program.diagnostics)
  else
    let (m, violations) := s.machine.resolve program.statements
    if Diagnostics.hasStatic violations then
      ({ parsed with machine := m.forgetFrom s.nextId }, violations)
    else
      let (m, failures) := m.interpret budget program.statements
      let m := if stmtsCreateClosure program.statements then m else m.forgetFrom s.nextId
      ({ parsed with machine := m }, failures)

/-- The expression that a line at the prompt is, if it is one, and the first number that is then
free. A line that ends with a semicolon is not tried. -/
def bareExpression? (s : Session) (line : String) : Option Expr × Nat :=
  let trimmed := Text.trimRight line.toList
  match trimmed.getLast? with
  | none => (none, s.nextId)
  | some ';' => (none, s.nextId)
  | some _ =>
    match tokenize (String.ofList trimmed) with
    | (tokens, []) => Grammar.parseExpression? tokens s.nextId
    | _ => (none, s.nextId)

/-- Runs a line at the prompt: evaluates it if it is an expression, and otherwise runs it as a
source. -/
def runLine (budget : Nat) (s : Session) (line : String) : Session × LineOutcome :=
  match s.bareExpression? line with
  | (some e, nextId) =>
    let parsed : Session := { s with nextId := nextId }
    let (m, violations) := s.machine.resolveExpr e
    if Diagnostics.hasStatic violations then
      ({ parsed with machine := m.forgetFrom s.nextId }, ⟨none, violations⟩)
    else
      let (m, result) := m.evaluate budget e
      let m := if e.createsClosure then m else m.forgetFrom s.nextId
      let outcome : LineOutcome := match result with
        | .ok v => ⟨some v, []⟩
        | .error d => ⟨none, [d]⟩
      ({ parsed with machine := m }, outcome)
  | (none, nextId) =>
    let (s, ds) := run budget { s with nextId := nextId } line
    (s, ⟨none, ds⟩)

/-- Collects what the session has written. -/
def drain (s : Session) : Session × ByteArray :=
  let (bytes, sink) := s.machine.sink.drain
  ({ s with machine.sink := sink }, bytes)

end Session

end Lox

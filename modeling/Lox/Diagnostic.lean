import Lox.Grammar.Complaint
import Lox.Machine.Failure
import Lox.Scoping
import Lox.Text.Utf8
import Lox.Token.Scan

/-!
# Diagnostics

What is reported about a program. Diagnostics come from scanning, parsing and scoping, which keep
a program from running, or from its run. The exit code of a program follows from its diagnostics.
-/

namespace Lox

/-- A report about a program. -/
inductive Diagnostic where
  /-- A piece of text that is no token. -/
  | lexical (position : Position) (message : String)
  /-- A token that does not fit the grammar. -/
  | syntactic (token : Token) (message : String)
  /-- A token at which a scoping rule is violated. -/
  | scoping (token : Token) (message : String)
  /-- An error of a running program. -/
  | runtime (line : Nat) (message : String)
  /-- Refused output. -/
  | output (message : String)
  /-- Bytes that are no text. -/
  | encoding (fault : Text.Utf8.Fault)
  /-- The budget for evaluation is used up. -/
  | exhausted
deriving DecidableEq, Repr

namespace Diagnostic

/-- The diagnostic for a piece of text that is no token. -/
def ofFault (p : Position) (f : Token.Fault) : Diagnostic :=
  .lexical p f.message

/-- The diagnostic for a token that does not fit. -/
def ofComplaint (c : Grammar.Complaint) : Diagnostic :=
  .syntactic c.token c.reason.message

/-- The diagnostic for a violated scoping rule. -/
def ofViolation (v : Scoping.Violation) : Diagnostic :=
  .scoping v.token v.rule.message

/-- The diagnostic for a failure of a running program. -/
def ofFailure : Failure → Diagnostic
  | .program line cause => .runtime line cause.message
  | .output reason => .output reason
  | .exhausted => .exhausted

/-- Where a token is, in a message. -/
def place (t : Token) : String :=
  if t.kind = .eof then " at end" else " at '" ++ t.lexeme ++ "'"

/-- The text of a message about a token. -/
def tokenMessage (t : Token) (message : String) : String :=
  "[line " ++ toString t.line ++ "] Error" ++ place t ++ ": " ++ message

/-- The text of a diagnostic. -/
def text : Diagnostic → String
  | .lexical p message =>
    "[line " ++ toString p.line ++ ":" ++ toString p.column ++ "] Error: " ++ message
  | .syntactic t message => tokenMessage t message
  | .scoping t message => tokenMessage t message
  | .runtime line message => message ++ "\n[line " ++ toString line ++ "]"
  | .output message => message
  | .encoding fault => fault.message
  | .exhausted => "Evaluation budget exhausted."

/-- The line that a diagnostic points at, if it has one. -/
def line? : Diagnostic → Option Nat
  | .lexical p _ => some p.line
  | .syntactic t _ => some t.line
  | .scoping t _ => some t.line
  | .runtime line _ => some line
  | .output _ => none
  | .encoding _ => none
  | .exhausted => none

/-- Whether a diagnostic keeps a program from running. -/
def isStatic : Diagnostic → Bool
  | .lexical _ _ | .syntactic _ _ | .scoping _ _ => true
  | _ => false

/-- Whether a diagnostic is an error of a running program. -/
def isRuntime : Diagnostic → Bool
  | .runtime _ _ => true
  | _ => false

end Diagnostic

/-- Reports about a program, in order. -/
abbrev Diagnostics := List Diagnostic

namespace Diagnostics

/-- Whether one of the diagnostics keeps the program from running. -/
def hasStatic (ds : Diagnostics) : Bool :=
  ds.any Diagnostic.isStatic

/-- Whether one of the diagnostics is an error of the running program. -/
def hasRuntime (ds : Diagnostics) : Bool :=
  ds.any Diagnostic.isRuntime

/-- The exit code for diagnostics, if they call for one: a program that did not run comes before
one that went wrong. -/
def exitCode? (ds : Diagnostics) : Option Nat :=
  if hasStatic ds then some 65
  else if hasRuntime ds then some 70
  else none

/-- The texts of diagnostics, each with a line end. -/
def report (ds : Diagnostics) : String :=
  String.join (ds.map fun d => d.text ++ "\n")

end Diagnostics

end Lox

import Lox.Grammar.Productions

/-!
# Parsing

`parse` reads the tokens of a whole program: it gives back the statements that it could read and
the complaints about the others. `parseExpression?` reads the tokens of one expression and accepts
nothing else. References are numbered in the order in which they are read, from a given number on.
-/

namespace Lox.Grammar

/-- The state in which tokens are parsed. Where the tokens have no end token, one is put on the
line of the last token. -/
def State.start (tokens : List Token) (nextId : Nat) : State :=
  let isEnd (t : Token) : Bool := t.kind = .eof
  let line := (tokens.getLast?.map Token.line).getD 1
  { rest := tokens.takeWhile (!isEnd ·)
    last := (tokens.find? isEnd).getD (.endAt ⟨line, 0⟩)
    nextId := nextId
    complaints := [] }

/-- The statements up to the end of the tokens, and the state there. -/
def statements (s : State) : List Stmt × State :=
  if h : s.atEnd then ([], s)
  else
    let found := declaration s (State.size_pos h)
    have := found.shorter
    let (stmts, t) := statements found.state
    (found.stmt.toList ++ stmts, t)
termination_by s.size

/-- What parsing a program finds. -/
structure Parsed where
  /-- The statements. -/
  statements : List Stmt
  /-- The complaints, in the order in which they were made. -/
  complaints : List Complaint
  /-- The first number that no reference has. -/
  nextId : Nat

/-- Parses the tokens of a program, numbering references from `nextId` on. -/
def parse (tokens : List Token) (nextId : Nat) : Parsed :=
  let (stmts, s) := statements (.start tokens nextId)
  ⟨stmts, s.complaints, s.nextId⟩

/-- Parses the tokens of one expression, and gives back the first number that is still free, used
or not. -/
def parseExpression? (tokens : List Token) (nextId : Nat) : Option Expr × Nat :=
  match expression (.start tokens nextId) with
  | .done e s _ => (if s.atEnd && s.complaints.isEmpty then some e else none, s.nextId)
  | .failed _ s _ => (none, s.nextId)

end Lox.Grammar

import Lox.Grammar.Complaint
import Lox.Tree

/-!
# Steps of a parse

A production of the grammar reads tokens from the front of the rest of a program. Its outcome is a
`Step`: it is done with a value, and then it has used up at least one token, or it has failed with
a complaint, and then no token was given back. Since a step says so, the productions can call each
other on what is left and still be seen to end.
-/

namespace Lox.Grammar

/-- The state of a parse. -/
structure State where
  /-- The tokens that are left, without the end token. -/
  rest : List Token
  /-- The end token. -/
  last : Token
  /-- The number that the next reference gets. -/
  nextId : Nat
  /-- The complaints so far. -/
  complaints : List Complaint

namespace State

/-- The number of tokens that are left. -/
def size (s : State) : Nat :=
  s.rest.length

/-- Whether no token is left. -/
def atEnd (s : State) : Bool :=
  s.rest.isEmpty

/-- Where the end is not reached, some token is left. -/
theorem size_pos {s : State} (h : ¬s.atEnd = true) : 0 < s.size := by
  cases hr : s.rest with
  | nil => simp [atEnd, hr] at h
  | cons t ts => simp [size, hr]

/-- The token that comes next. -/
def peek (s : State) : Token :=
  s.rest.headD s.last

/-- The state after a complaint. -/
def record (s : State) (c : Complaint) : State :=
  { s with complaints := s.complaints ++ [c] }

/-- The state after the next number was given to a reference. -/
def used (s : State) : State :=
  { s with nextId := s.nextId + 1 }

/-- A complaint takes no token. -/
@[simp] theorem size_record (s : State) (c : Complaint) : (s.record c).size = s.size := rfl

/-- A number takes no token. -/
@[simp] theorem size_used (s : State) : s.used.size = s.size := rfl

/-- The state after a complaint that is made if a list has too many items already. -/
def limit (s : State) (count : Nat) (reason : Reason) : State :=
  if 255 ≤ count then s.record ⟨s.peek, reason⟩ else s

/-- A list that is too long takes no token. -/
@[simp] theorem size_limit (s : State) (count : Nat) (reason : Reason) :
    (s.limit count reason).size = s.size := by
  unfold limit
  split <;> rfl

end State

/-- Whether the next token is one that is looked for. -/
inductive Next (s : State) where
  /-- It is, and here is the state after it. -/
  | took (token : Token) (state : State) (shorter : state.size < s.size)
  /-- It is not, or no token is left. -/
  | other

/-- The outcome of a production that was started in the state `s`. -/
inductive Step (α : Type) (s : State) where
  /-- The production was found, and at least one token is used up. -/
  | done (value : α) (state : State) (shorter : state.size < s.size)
  /-- The production was not found, for the reason in the complaint. -/
  | failed (complaint : Complaint) (state : State) (notLonger : state.size ≤ s.size)

namespace State

/-- The next token, if its kind is one that is looked for. -/
def next (s : State) (wanted : Token.Kind → Bool) : Next s :=
  match h : s.rest with
  | [] => .other
  | t :: rest =>
    if wanted t.kind then .took t { s with rest := rest } (by simp [size, h])
    else .other

/-- Goes on after a token of the given kind, which has to come next. -/
def expect {β : Type} (t : State) {s : State} (kind : Token.Kind) (reason : Reason)
    (f : (token : Token) → (u : State) → u.size < t.size → Step β s)
    (h : t.size ≤ s.size := by omega) : Step β s :=
  match t.next (· = kind) with
  | .took token u hu => f token u hu
  | .other => .failed ⟨t.peek, reason⟩ t h

end State

namespace Step

variable {α β : Type} {s t : State}

/-- Goes on after a production that was started in a later state. -/
def andThen (x : Step α t) (f : (a : α) → (u : State) → u.size < t.size → Step β s)
    (h : t.size ≤ s.size := by omega) : Step β s :=
  match x with
  | .done a u hu => f a u hu
  | .failed c u hu => .failed c u (Nat.le_trans hu h)

/-- The outcome of a production, seen from an earlier state. -/
def within (x : Step α t) (h : t.size ≤ s.size := by omega) : Step α s :=
  match x with
  | .done a u hu => .done a u (Nat.lt_of_lt_of_le hu h)
  | .failed c u hu => .failed c u (Nat.le_trans hu h)

end Step

/-! ## After a failure

A declaration that fails is given up. Parsing resumes behind the next semicolon, or before the next
word that starts a statement, but always at least one token further. -/

/-- Whether a kind of token starts a statement at which parsing can resume. -/
def startsStatement : Token.Kind → Bool
  | .kwClass | .kwFun | .kwVar | .kwFor | .kwIf | .kwWhile | .kwPrint | .kwReturn => true
  | _ => false

/-- The tokens at which parsing resumes, once the token `last` was given up. -/
def resumeAfter (last : Token) : List Token → List Token
  | [] => []
  | t :: ts =>
    if last.kind = .semicolon || startsStatement t.kind then t :: ts else resumeAfter t ts

/-- No token is added when parsing resumes. -/
theorem length_resumeAfter_le (last : Token) (ts : List Token) :
    (resumeAfter last ts).length ≤ ts.length := by
  induction ts generalizing last with
  | nil => exact Nat.le_refl _
  | cons t ts ih =>
    unfold resumeAfter
    split
    · exact Nat.le_refl _
    · exact Nat.le_succ_of_le (ih t)

/-- The state in which parsing resumes after a failure. -/
def State.resume (s : State) : State :=
  match s.rest with
  | [] => s
  | t :: ts => { s with rest := resumeAfter t ts }

/-- Resuming uses up a token unless none is left. -/
theorem State.size_resume_le (s : State) : s.resume.size ≤ s.size - 1 := by
  unfold State.resume State.size
  split
  · next h => simp [h]
  · next t ts h => simpa [h] using length_resumeAfter_le t ts

/-- A declaration that was parsed or given up; either way some token is used up. -/
structure Recovered (s : State) where
  /-- The statement, unless it was given up. -/
  stmt : Option Stmt
  /-- The state afterwards. -/
  state : State
  /-- Some token is used up. -/
  shorter : state.size < s.size

/-- Gives up a declaration that failed, and notes the complaint. -/
def Step.recover {s : State} (x : Step Stmt s) (h : 0 < s.size) : Recovered s :=
  match x with
  | .done stmt t ht => ⟨some stmt, t, ht⟩
  | .failed c t ht => ⟨none, (t.record c).resume, by
      have := State.size_resume_le (t.record c)
      simp only [State.size_record] at this
      omega⟩

end Lox.Grammar

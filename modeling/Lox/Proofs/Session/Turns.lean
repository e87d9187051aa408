import Lox.Proofs.Eval.Alignment
import Lox.Proofs.Eval.Moments
import Lox.Session

/-!
# Turns of a session

A session goes on in turns: it is given a source, a line at the prompt or the tokens of a program,
or what it has written is taken away. What it is given is first read, which leads to a `Job` or to a
report. A job for which scoping finds no violation is accepted and performed. `Session.give` is all
that happens after the reading, and `Session.turn_eq_give` says that nothing else does.

`Session.turnKeeping` is a turn of a session that never forgets a distance. `Session.Reaches`,
`Session.Visited`, `Session.Made` and `Session.Makes` say what happens in the turns to come: which
moments of a run are reached, which visits were made by scoping for jobs that were accepted, which
frames are made for which constructs, and which functions are made.
-/

namespace Lox

open Scoping Eval

/-- What is performed once an input is accepted. -/
inductive Job where
  /-- The statements of a program. -/
  | program (statements : List Stmt)
  /-- An expression whose value is shown. -/
  | expression (e : Expr)

namespace Job

/-- Whether performing a job can make a function or class. -/
def createsClosure : Job → Bool
  | .program ss => stmtsCreateClosure ss
  | .expression e => e.createsClosure

/-- The piece of a program that a job performs. -/
def piece : Job → Piece
  | .program ss => .stmts ss
  | .expression e => .expr e

/-- The visit with which scoping starts, beside the distances that are known. -/
def visit (j : Job) (known : Distances) : Visit :=
  ⟨{}, j.piece, { distances := known }, []⟩

end Job

namespace Machine

/-- The machine with the distances that scoping finds for a job. -/
def prepare (m : Machine) (j : Job) : Machine :=
  m.withTable (j.visit m.distances).after.distances

/-- Performs a job. -/
def perform (budget : Nat) (m : Machine) : Job → Machine × LineOutcome
  | .program ss =>
    let (m, ds) := m.interpret budget ss
    (m, ⟨none, ds⟩)
  | .expression e =>
    let (m, result) := m.evaluate budget e
    (m, match result with
      | .ok v => ⟨some v, []⟩
      | .error d => ⟨none, [d]⟩)

/-- The moments with which the statements of a program start, one after the other. -/
def starts (budget : Nat) (m : Machine) : List Stmt → List Moment
  | [] => []
  | s :: ss => ⟨.execute budget s, m⟩ :: (m.runTop budget s).1.starts budget ss

/-- The moments with which the parts of a job start. -/
def jobStarts (budget : Nat) (m : Machine) : Job → List Moment
  | .program ss => m.starts budget ss
  | .expression e => [⟨.evaluate budget e, m⟩]

/-- A program starts with its statements. -/
theorem exists_of_mem_starts {b : Nat} {m : Machine} {μ : Moment} {ss : List Stmt}
    (h : μ ∈ m.starts b ss) : ∃ st ∈ ss, μ.task = .execute b st := by
  induction ss generalizing m with
  | nil => contradiction
  | cons s ss ih =>
    obtain rfl | h := List.mem_cons.mp h
    · exact ⟨s, List.mem_cons_self, rfl⟩
    · obtain ⟨st, hst, htask⟩ := ih h
      exact ⟨st, List.mem_cons_of_mem _ hst, htask⟩

end Machine

/-- An input that was read. -/
structure Reading where
  /-- The first number that its references may have. -/
  first : Nat
  /-- The first number that is free then. -/
  next : Nat
  /-- The job, or what is reported about the input. -/
  job : Except Diagnostics Job

/-- What happens to a session. -/
inductive Turn where
  /-- It is given a source. -/
  | source (budget : Nat) (text : String)
  /-- It is given a line at the prompt. -/
  | line (budget : Nat) (text : String)
  /-- The tokens of a program are parsed, scoped and run. -/
  | tokens (budget : Nat) (ts : List Token)
  /-- What it has written is taken away. -/
  | drain

/-- The budget for what is run in a turn. -/
def Turn.budget : Turn → Nat
  | .source budget _ | .line budget _ | .tokens budget _ => budget
  | .drain => 0

/-- A way to forget the distances of references from a number on. -/
abbrev Forgetting := Distances → Nat → Distances

/-- No distance is forgotten. -/
def Forgetting.none : Forgetting :=
  fun d _ => d

/-- Forgets distances of references from a number on. -/
def Machine.forgetBy (forget : Forgetting) (m : Machine) (id : Nat) : Machine :=
  m.withTable (forget m.distances id)

/-- Forgetting nothing changes nothing. -/
theorem Machine.forgetBy_none (m : Machine) (id : Nat) : m.forgetBy .none id = m := rfl

/-- How a turn forgets distances: tokens are run without forgetting. -/
def Turn.forgetting : Turn → Forgetting
  | .source .. | .line .. => Distances.forgetFrom
  | .tokens .. | .drain => .none

namespace Session

/-! ## Turns -/

/-- Runs a source with the given way to forget distances. -/
def runWith (forget : Forgetting) (budget : Nat) (s : Session) (source : String) :
    Session × Diagnostics :=
  let program := Program.ofSource source s.nextId
  let parsed : Session := { s with nextId := program.nextId }
  if Diagnostics.hasStatic program.diagnostics then (parsed, program.diagnostics)
  else
    let (m, violations) := s.machine.resolve program.statements
    if Diagnostics.hasStatic violations then
      ({ parsed with machine := m.forgetBy forget s.nextId }, violations)
    else
      let (m, failures) := m.interpret budget program.statements
      let m := if stmtsCreateClosure program.statements then m else m.forgetBy forget s.nextId
      ({ parsed with machine := m }, failures)

/-- Runs a line at the prompt with the given way to forget distances. -/
def runLineWith (forget : Forgetting) (budget : Nat) (s : Session) (line : String) :
    Session × LineOutcome :=
  match s.bareExpression? line with
  | (some e, nextId) =>
    let parsed : Session := { s with nextId := nextId }
    let (m, violations) := s.machine.resolveExpr e
    if Diagnostics.hasStatic violations then
      ({ parsed with machine := m.forgetBy forget s.nextId }, ⟨none, violations⟩)
    else
      let (m, result) := m.evaluate budget e
      let m := if e.createsClosure then m else m.forgetBy forget s.nextId
      let outcome : LineOutcome := match result with
        | .ok v => ⟨some v, []⟩
        | .error d => ⟨none, [d]⟩
      ({ parsed with machine := m }, outcome)
  | (none, nextId) =>
    let (s, ds) := runWith forget budget { s with nextId := nextId } line
    (s, ⟨none, ds⟩)

/-- The run of a source forgets from its first number on. -/
theorem runWith_forgetFrom : runWith Distances.forgetFrom = run := rfl

/-- The run of a line forgets from its first number on. -/
theorem runLineWith_forgetFrom : runLineWith Distances.forgetFrom = runLine := rfl

/-- Parses, scopes and runs the tokens of a program. -/
def runTokens (budget : Nat) (s : Session) (ts : List Token) : Session × Diagnostics :=
  let parsed := Grammar.parse ts s.nextId
  if parsed.complaints.isEmpty then
    let (m, violations) := s.machine.resolve parsed.statements
    if violations.isEmpty then
      let (m, failures) := m.interpret budget parsed.statements
      (⟨m, parsed.nextId⟩, failures)
    else (⟨m, parsed.nextId⟩, violations)
  else ({ s with nextId := parsed.nextId }, parsed.complaints.map .ofComplaint)

/-- What a turn does to a session, and what it gives. -/
def turn (s : Session) : Turn → Session × LineOutcome
  | .source budget text => let (s, ds) := s.run budget text; (s, ⟨none, ds⟩)
  | .line budget text => s.runLine budget text
  | .tokens budget ts => let (s, ds) := s.runTokens budget ts; (s, ⟨none, ds⟩)
  | .drain => (s.drain.1, ⟨none, []⟩)

/-- What a turn does to a session that never forgets a distance, and what it gives. -/
def turnKeeping (s : Session) : Turn → Session × LineOutcome
  | .source budget text => let (s, ds) := s.runWith .none budget text; (s, ⟨none, ds⟩)
  | .line budget text => s.runLineWith .none budget text
  | .tokens budget ts => let (s, ds) := s.runTokens budget ts; (s, ⟨none, ds⟩)
  | .drain => (s.drain.1, ⟨none, []⟩)

/-- The session after some turns. -/
def after (s : Session) (turns : List Turn) : Session :=
  turns.foldl (fun s t => (s.turn t).1) s

/-- Some turns lead to the session from its start. -/
def Reachable (s : Session) : Prop :=
  ∃ sink clock turns, s = (start sink clock).after turns

/-- The session that never forgets a distance, after some turns. -/
def afterKeeping (s : Session) (turns : List Turn) : Session :=
  turns.foldl (fun s t => (s.turnKeeping t).1) s

/-! ## Readings -/

/-- Reads a source. -/
def readSource (s : Session) (text : String) : Reading :=
  let program := Program.ofSource text s.nextId
  { first := s.nextId
    next := program.nextId
    job :=
      if Diagnostics.hasStatic program.diagnostics then .error program.diagnostics
      else .ok (.program program.statements) }

/-- Reads a line at the prompt. -/
def readLine (s : Session) (text : String) : Reading :=
  match s.bareExpression? text with
  | (some e, nextId) => ⟨s.nextId, nextId, .ok (.expression e)⟩
  | (none, nextId) => readSource { s with nextId := nextId } text

/-- Reads the tokens of a program. -/
def readTokens (s : Session) (ts : List Token) : Reading :=
  let parsed := Grammar.parse ts s.nextId
  { first := s.nextId
    next := parsed.nextId
    job :=
      if parsed.complaints.isEmpty then .ok (.program parsed.statements)
      else .error (parsed.complaints.map .ofComplaint) }

/-- Reads what a session is given in a turn, if it is given something. -/
def read? (s : Session) : Turn → Option Reading
  | .source _ text => s.readSource text
  | .line _ text => s.readLine text
  | .tokens _ ts => s.readTokens ts
  | .drain => none

/-- Goes on with an input that was read. -/
def give (forget : Forgetting) (budget : Nat) (s : Session) (r : Reading) :
    Session × LineOutcome :=
  match r.job with
  | .error ds => ({ s with nextId := r.next }, ⟨none, ds⟩)
  | .ok j =>
    let m := s.machine.prepare j
    let violations := (j.visit s.machine.distances).after.violations
    if violations.isEmpty then
      let (m, outcome) := m.perform budget j
      (⟨if j.createsClosure then m else m.forgetBy forget r.first, r.next⟩, outcome)
    else (⟨m.forgetBy forget r.first, r.next⟩, ⟨none, violations.map .ofViolation⟩)

section Give

variable {forget : Forgetting} {budget : Nat} {s : Session} {r : Reading}

/-- An input with a report is not gone on with. -/
theorem give_error {ds : Diagnostics} (h : r.job = .error ds) :
    s.give forget budget r = ({ s with nextId := r.next }, ⟨none, ds⟩) := by
  unfold give
  rw [h]

/-- A job with a violation is not performed. -/
theorem give_rejected {j : Job} (h : r.job = .ok j)
    (hviolations : (j.visit s.machine.distances).after.violations.isEmpty = false) :
    s.give forget budget r = (⟨(s.machine.prepare j).forgetBy forget r.first, r.next⟩,
      ⟨none, (j.visit s.machine.distances).after.violations.map .ofViolation⟩) := by
  unfold give
  rw [h]
  simp [hviolations]

/-- A job without violations is performed. -/
theorem give_accepted {j : Job} (h : r.job = .ok j)
    (hviolations : (j.visit s.machine.distances).after.violations.isEmpty = true) :
    s.give forget budget r =
      (⟨if j.createsClosure then ((s.machine.prepare j).perform budget j).1
        else ((s.machine.prepare j).perform budget j).1.forgetBy forget r.first, r.next⟩,
        ((s.machine.prepare j).perform budget j).2) := by
  unfold give
  rw [h]
  simp [hviolations]

end Give

/-- Giving a reading takes its numbers. -/
theorem nextId_give (forget : Forgetting) (budget : Nat) (s : Session) (r : Reading) :
    (s.give forget budget r).1.nextId = r.next := by
  unfold give
  split
  · rfl
  · dsimp only
    split <;> rfl

/-- A violation keeps a program from running. -/
theorem hasStatic_violations (violations : List Violation) :
    Diagnostics.hasStatic (violations.map .ofViolation) = !violations.isEmpty := by
  cases violations <;> rfl

/-- To run a source is to read it and to go on with it. -/
theorem runWith_eq_give (forget : Forgetting) (budget : Nat) (s : Session) (source : String) :
    (let (s, ds) := s.runWith forget budget source; (s, (⟨none, ds⟩ : LineOutcome))) =
      s.give forget budget (s.readSource source) := by
  unfold runWith readSource
  dsimp only
  -- A report that keeps a program from running is what the reading gives in place of a job.
  split
  · rw [give_error rfl]
  · have hstatic (ss : List Stmt) : Diagnostics.hasStatic (s.machine.resolve ss).2 =
        !((Job.program ss).visit s.machine.distances).after.violations.isEmpty :=
      hasStatic_violations _
    split
    · next h =>
      rw [hstatic, Bool.not_eq_true'] at h
      rw [give_rejected rfl h]
      rfl
    · next h =>
      rw [hstatic, Bool.not_eq_true', Bool.not_eq_false] at h
      rw [give_accepted rfl h]
      rfl

/-- To run a line is to read it and to go on with it. -/
theorem runLineWith_eq_give (forget : Forgetting) (budget : Nat) (s : Session) (line : String) :
    s.runLineWith forget budget line = s.give forget budget (s.readLine line) := by
  unfold runLineWith readLine
  split
  · next e nextId _ =>
    have hstatic : Diagnostics.hasStatic (s.machine.resolveExpr e).2 =
        !((Job.expression e).visit s.machine.distances).after.violations.isEmpty :=
      hasStatic_violations _
    dsimp only
    split
    · next h =>
      rw [hstatic, Bool.not_eq_true'] at h
      rw [give_rejected rfl h]
      rfl
    · next h =>
      rw [hstatic, Bool.not_eq_true', Bool.not_eq_false] at h
      rw [give_accepted rfl h]
      rfl
  · exact runWith_eq_give forget budget _ line

/-- To run tokens is to read them and to go on with them, and nothing is forgotten. -/
theorem runTokens_eq_give (budget : Nat) (s : Session) (ts : List Token) :
    (let (s, ds) := s.runTokens budget ts; (s, (⟨none, ds⟩ : LineOutcome))) =
      s.give .none budget (s.readTokens ts) := by
  unfold runTokens readTokens
  dsimp only
  split
  · have hempty (ss : List Stmt) : (s.machine.resolve ss).2.isEmpty =
        ((Job.program ss).visit s.machine.distances).after.violations.isEmpty := List.isEmpty_map
    split
    · next h =>
      rw [hempty] at h
      rw [give_accepted rfl h]
      -- Whether or not a closure is made, no distance goes.
      simp only [Machine.forgetBy_none, ite_self]
      rfl
    · next h =>
      rw [hempty, Bool.not_eq_true] at h
      rw [give_rejected rfl h]
      rfl
  · rw [give_error rfl]

section Turn

variable {s : Session} {t : Turn} {r : Reading}

/-- A turn gives its reading. -/
theorem turn_eq_give (h : s.read? t = some r) :
    s.turn t = s.give t.forgetting t.budget r := by
  cases t with
  | source budget text =>
    exact Option.some.inj h ▸ runWith_eq_give Distances.forgetFrom budget s text
  | line budget text =>
    exact Option.some.inj h ▸ runLineWith_eq_give Distances.forgetFrom budget s text
  | tokens budget ts => exact Option.some.inj h ▸ runTokens_eq_give budget s ts
  | drain => contradiction

/-- A turn that keeps all distances gives its reading. -/
theorem turnKeeping_eq_give (h : s.read? t = some r) :
    s.turnKeeping t = s.give .none t.budget r := by
  cases t with
  | source budget text => exact Option.some.inj h ▸ runWith_eq_give .none budget s text
  | line budget text => exact Option.some.inj h ▸ runLineWith_eq_give .none budget s text
  | tokens budget ts => exact Option.some.inj h ▸ runTokens_eq_give budget s ts
  | drain => contradiction

end Turn

/-! ## What happens in turns -/

/-- The job that is performed in a turn, if one is. -/
def accepted? (s : Session) (t : Turn) : Option Job :=
  match s.read? t with
  | some ⟨_, _, .ok j⟩ =>
    if (j.visit s.machine.distances).after.violations.isEmpty then some j else none
  | _ => none

/-- The moments that are reached in a turn. -/
def Executes (s : Session) (t : Turn) (μ : Moment) : Prop :=
  ∃ j ∈ s.accepted? t, ∃ μ₀ ∈ (s.machine.prepare j).jobStarts t.budget j, μ₀.Reaches μ

/-- The moments that are reached in some turns. -/
def Reaches (s : Session) : List Turn → Moment → Prop
  | [], _ => False
  | t :: ts, μ => s.Executes t μ ∨ (s.turn t).1.Reaches ts μ

/-- The visits that scoping makes for the jobs that are performed in some turns. -/
def Visited (s : Session) : List Turn → Visit → Prop
  | [], _ => False
  | t :: ts, v =>
    (∃ j ∈ s.accepted? t, v.Within (j.visit s.machine.distances)) ∨ (s.turn t).1.Visited ts v

/-- The frames that are made in some turns, and for which constructs. -/
def Made (s : Session) (turns : List Turn) (k : FrameId) (c : Construct) : Prop :=
  ∃ μ, s.Reaches turns μ ∧ μ.Creates k c

/-- The functions that are made in some turns. -/
def Makes (s : Session) (turns : List Turn) (f : Lox.Function) : Prop :=
  ∃ μ, s.Reaches turns μ ∧ μ.Makes f

/-- A part of a job starts with a statement or an expression, and to any other moment one leads that
was reached before. -/
theorem Reaches.cases_last {s : Session} {turns : List Turn} {μ : Moment} (h : s.Reaches turns μ) :
    (∃ b st, μ.task = .execute b st) ∨ (∃ b e, μ.task = .evaluate b e) ∨
      ∃ μ', s.Reaches turns μ' ∧ Calls μ' μ := by
  induction turns generalizing s with
  | nil => exact False.elim h
  | cons t turns ih =>
    obtain ⟨j, hj, μ₀, hμ₀, hreach⟩ | h := h
    · obtain rfl | ⟨μ', hreach, hcall⟩ := Relation.ReflTransGen.cases_tail hreach
      · cases j with
        | program ss =>
          obtain ⟨st, _, htask⟩ := Machine.exists_of_mem_starts hμ₀
          exact .inl ⟨_, st, htask⟩
        | expression e =>
          obtain rfl := List.mem_singleton.mp hμ₀
          exact .inr (.inl ⟨_, e, rfl⟩)
      · exact .inr (.inr ⟨μ', .inl ⟨j, hj, μ₀, hμ₀, hreach⟩, hcall⟩)
    · exact (ih h).imp_right (.imp_right fun ⟨μ', hμ', hcall⟩ => ⟨μ', .inr hμ', hcall⟩)

/-- A job is performed if it is what was read and has no violations. -/
theorem accepted?_eq_some_iff {s : Session} {t : Turn} {j : Job} :
    s.accepted? t = some j ↔ ∃ r, s.read? t = some r ∧ r.job = .ok j ∧
      (j.visit s.machine.distances).after.violations.isEmpty := by
  unfold accepted?
  cases s.read? t with
  | none => simp
  | some r =>
    obtain ⟨first, next, ds | j'⟩ := r
    · simp
    · dsimp only
      rw [Option.ite_none_right_eq_some]
      constructor
      · rintro ⟨hclean, hj⟩
        obtain rfl := Option.some.inj hj
        exact ⟨_, rfl, rfl, hclean⟩
      · rintro ⟨r, hr, hjob, hclean⟩
        obtain rfl := Option.some.inj hr
        obtain rfl := Except.ok.inj hjob
        exact ⟨hclean, rfl⟩

end Session

end Lox

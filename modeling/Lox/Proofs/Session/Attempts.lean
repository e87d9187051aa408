import Lox.Proofs.Grammar.Composition
import Lox.Proofs.Scoping.Moving
import Lox.Proofs.Session.Companions
import Lox.Proofs.Session.StaticErrors
import Lox.Proofs.Token.Joining

/-!
# Lines that are no expression

At the prompt a line is first tried as an expression. Where it is none, it is run as a source, and
all that the attempt leaves behind is a gap in the numbers of references. So the references of the
line have larger numbers than they would have had (`Session.readSource_shift`). Nothing depends on
that: scoping finds the same under these numbers, and the line runs as it would have run at once
(`Session.Fit.give_shift`).
-/

namespace Lox

open Scoping Eval Grammar

/-! ## Numbers -/

/-- The number of a reference when numbers from `n` on are larger by `k`. -/
def shiftFrom (n k id : Nat) : Nat :=
  if id < n then id else k + id

/-- Numbers below the first one stay. -/
theorem shiftFrom_of_lt {n id : Nat} (h : id < n) (k : Nat) : shiftFrom n k id = id :=
  if_pos h

/-- Numbers from the first one on are shifted. -/
theorem shiftFrom_of_le {n id : Nat} (h : n ≤ id) (k : Nat) : shiftFrom n k id = k + id :=
  if_neg (Nat.not_lt.mpr h)

/-- Shifting keeps numbers apart. -/
theorem shiftFrom_injective (n k : Nat) (id id' : Nat) (h : shiftFrom n k id = shiftFrom n k id') :
    id = id' := by
  unfold shiftFrom at h
  split at h <;> split at h <;> omega

namespace Scoping.Distances

/-- Only the numbers that occur matter. -/
theorem renumber_congr {number number' : Nat → Nat} {d : Distances}
    (h : ∀ entry ∈ d.entries, number entry.1 = number' entry.1) :
    d.renumber number = d.renumber number' := by
  unfold renumber
  refine congrArg Distances.mk (List.map_congr_left fun entry hentry => ?_)
  rw [h entry hentry]

/-- Numbers below `n` stay as they are. -/
theorem Below.renumber_shiftFrom {d : Distances} {n : Nat} (h : d.Below n) (k : Nat) :
    d.renumber (shiftFrom n k) = d := by
  have hsame : d.renumber (shiftFrom n k) = d.renumber id :=
    renumber_congr fun entry hentry => shiftFrom_of_lt (h entry hentry) k
  rw [hsame, renumber_id]

/-- Renumbering commutes with putting distances side by side. -/
theorem renumber_beside (number : Nat → Nat) (d known : Distances) :
    (d.beside known).renumber number = (d.renumber number).beside (known.renumber number) := by
  simp [renumber, beside]

end Scoping.Distances

/-- The job of a program whose references have larger numbers. -/
def Job.shift (k : Nat) : Job → Job
  | .program ss => .program (recastStmts (.moved id k) [] ss)
  | .expression e => .expression (e.recast (.moved id k) [])

/-- What is read where more numbers were given out before. -/
def Reading.shift (k : Nat) (r : Reading) : Reading :=
  ⟨k + r.first, k + r.next, r.job.map (Job.shift k)⟩

/-! ## Reading -/

/-- A text is parsed as the same program where more numbers were given out before. -/
theorem ofSource_shift (text : String) (k n : Nat) :
    Program.ofSource text (k + n) =
      { Program.ofSource text n with
        statements := recastStmts (.moved id k) [] (Program.ofSource text n).statements
        nextId := k + (Program.ofSource text n).nextId } := by
  unfold Program.ofSource
  dsimp only
  rw [parse_renumbered]
  rfl

namespace Session

/-- A source is read in the same way where more numbers were given out before. -/
theorem readSource_shift (s : Session) (text : String) (k : Nat) :
    ({ s with nextId := k + s.nextId } : Session).readSource text =
      (s.readSource text).shift k := by
  unfold readSource Reading.shift
  dsimp only
  rw [ofSource_shift]
  dsimp only
  split <;> rfl

end Session

/-! ## Scoping -/

namespace Job

/-- Scoping finds the same violations. -/
theorem violations_shift (ss : List Stmt) (k : Nat) (known : Distances) :
    (((Job.program ss).shift k).visit known).after.violations =
      ((Job.program ss).visit known).after.violations := by
  rw [violations_eq _ known {}, violations_eq (.program ss) known {}]
  have hresolve := congrArg Prod.snd (resolve_moved id k [] ss)
  rw [show Violation.moved id = id from rfl, List.map_id] at hresolve
  exact hresolve

/-- Scoping finds the same distances, under the new numbers. -/
theorem distances_shift {ss : List Stmt} {n n' : Nat} {known : Distances} (hknown : known.Below n)
    (htidy : ((Job.program ss).visit {}).Tidy n n') (k : Nat) :
    (((Job.program ss).shift k).visit known).after.distances =
      ((Job.program ss).visit known).after.distances.renumber (shiftFrom n k) := by
  have hresolve : (((Job.program ss).shift k).visit {}).after.distances =
      ((Job.program ss).visit {}).after.distances.renumber (k + ·) :=
    congrArg Prod.fst (resolve_moved id k [] ss)
  -- The distances of the program are noted under numbers from `n` on, the known ones are below.
  obtain ⟨noted, hentries, hnoted⟩ := ((Job.program ss).visit {}).notes_after
  have hnew : ∀ entry ∈ ((Job.program ss).visit {}).after.distances.entries,
      k + entry.1 = shiftFrom n k entry.1 := by
    intro entry hentry
    rw [hentries, show ((Job.program ss).visit {}).walk.distances.entries = [] from rfl,
      List.append_nil] at hentry
    exact (shiftFrom_of_le (htidy.spans.bounds _ (hnoted entry hentry)).1 k).symm
  rw [visit_eq_beside, visit_eq_beside (.program ss), Visit.after_beside, Visit.after_beside]
  show Distances.beside _ known = (Distances.beside _ known).renumber _
  rw [Distances.renumber_beside, hknown.renumber_shiftFrom k, hresolve,
    Distances.renumber_congr hnew]

end Job

/-! ## Running -/

/-- How two programs differ of which one has larger numbers from `n` on. -/
abbrev Scoping.Likeness.shifted (n k : Nat) (table : Distances) : Likeness :=
  .plain Eq (shiftFrom n k) table (fun _ => rfl) (shiftFrom_injective n k)

/-- Reports that correspond are the same if positions are. -/
theorem Eval.Reports.eq_of_shifted {n k : Nat} {table : Distances} {d d' : Diagnostic}
    (h : Reports (.shifted n k table) d d') : d' = d := by
  obtain ⟨_, rfl, rfl⟩ | ⟨p, _, _, rfl, rfl, rfl⟩ := h.cases_plain
  · rfl
  · rfl

namespace Session

variable {s : Session} {d' : Distances} {r : Reading} {ss : List Stmt}

/-- Two turns give the same and leave sessions that are the same but for the numbers of
references. -/
structure SameButNumbers (number : Nat → Nat) (given given' : Session × LineOutcome) : Prop where
  /-- What is given. -/
  outcome : given'.2 = given.2
  /-- The first free number. -/
  nextId : given'.1.nextId = number given.1.nextId
  /-- The table of distances. -/
  distances : given'.1.machine.distances = given.1.machine.distances.renumber number
  /-- The machines. -/
  machines : Similar Eq number 0 given.1.machine given'.1.machine

/-- A session is the same but for numbers that are still free. -/
theorem Fit.similar_self (h : s.Fit .all d') (k : Nat) :
    Similar Eq (shiftFrom s.nextId k) 0 s.machine s.machine :=
  .refl h.inv (fun _ => rfl) (shiftFrom_injective _ _) fun _ _ hv _ id hid =>
    shiftFrom_of_lt (hv.self.ids id hid) k

/-- Where nothing is run, only the first free number differs. -/
theorem Fit.sameButNumbers_refused (h : s.Fit .all d') {n k : Nat} (hn : s.nextId ≤ n)
    (outcome : LineOutcome) :
    SameButNumbers (shiftFrom s.nextId k) (⟨s.machine, n⟩, outcome)
      (⟨s.machine, k + n⟩, outcome) where
  outcome := rfl
  nextId := (shiftFrom_of_le hn k).symm
  distances := (h.below.renumber_shiftFrom k).symm
  machines := h.similar_self k

/-- The references of a program that was read get their new numbers. -/
theorem alike_shift {n n' : Nat} {known table : Distances}
    (htidy : ((Job.program ss).visit known).Tidy n n') (k : Nat) :
    Alike (.shifted n k table) [] (.stmts ss) (.stmts (recastStmts (.moved id k) [] ss)) := by
  have hsuits : Visit.All (Recasting.Suits (.moved id k) (.shifted n k table))
      ((Job.program ss).visit known) :=
    fun v hv => Recasting.suits_of_unmarked (fun _ => rfl) (.refl ·) (.refl ·)
      (fun _ x => .refl x.name) fun id hid =>
        shiftFrom_of_le (htidy.spans.bounds id (Visit.ids_within hv hid)).1 k
  exact Visit.alike_recast (.refl ·) hsuits

/-- A program that is accepted runs in the same way with larger numbers. -/
theorem Fit.give_shift_accepted (h : s.Fit .all d') (hr : r.Proper s.nextId)
    {k : Nat} (hr' : (r.shift k).Proper s.nextId) (hfirst : r.first = s.nextId)
    (hjob : r.job = .ok (.program ss))
    (hclean : ((Job.program ss).visit s.machine.distances).after.violations.isEmpty = true)
    (budget : Nat) :
    SameButNumbers (shiftFrom s.nextId k) (s.give Distances.forgetFrom budget r)
      (s.give Distances.forgetFrom budget (r.shift k)) := by
  have hjob' : (r.shift k).job = .ok ((Job.program ss).shift k) := by
    unfold Reading.shift
    rw [hjob]
    rfl
  have hclean' : (((Job.program ss).shift k).visit s.machine.distances).after.violations.isEmpty =
      true := by
    rwa [Job.violations_shift]
  have htidy := hr.tidy _ hjob
  rw [hfirst] at htidy
  have htable := Job.distances_shift h.below (htidy {}) k
  -- The two machines start with the same heap, each with the table of its own program.
  have hstart : Resembles
      (.shifted s.nextId k ((Job.program ss).visit s.machine.distances).after.distances)
      (fun _ => false) (s.machine.prepare (.program ss))
      (s.machine.prepare ((Job.program ss).shift k)) := by
    unfold Machine.prepare
    rw [htable]
    exact Resembles.refl h.inv (fun _ _ hv _ id hid => shiftFrom_of_lt (hv.self.ids id hid) k)
      s.machine.sink
  obtain ⟨⟨F, hmachines⟩, _, _, hreports⟩ :=
    hstart.interpret budget h.current (fun _ _ => rfl) (alike_shift (htidy {}) k)
  rw [Session.give_accepted hjob hclean, Session.give_accepted hjob' hclean']
  have hsame := hreports.imp fun _ _ hd => (Reports.eq_of_shifted hd).symm
  rw [List.forall₂_eq_eq_eq] at hsame
  have hcloses : ((Job.program ss).shift k).createsClosure = (Job.program ss).createsClosure :=
    stmtsCreateClosure_recast _ _ _
  have hle := hr.le_next
  refine ⟨congrArg (LineOutcome.mk none) hsame.symm, (shiftFrom_of_le hle k).symm, ?_, ?_⟩
  · dsimp only
    rw [hcloses]
    split
    · exact hmachines.distances'.trans (congrArg _ hmachines.distances.symm)
    · -- All that was noted for the program is forgotten on both sides.
      have hgone := h.forgetFrom_after hr hjob
      have hgone' := h.forgetFrom_after hr' hjob'
      have hdistances := (congrArg (·.forgetFrom r.first) hmachines.distances).trans hgone
      have hdistances' := (congrArg (·.forgetFrom (k + r.first))
        (hmachines.distances'.trans htable.symm)).trans hgone'
      refine hdistances'.trans (.trans ?_ (congrArg _ hdistances.symm))
      exact (h.below.renumber_shiftFrom k).symm
  · dsimp only
    rw [hcloses]
    split
    · exact hmachines.similar
    · exact hmachines.similar.withTable _ _

/-- What was read is gone on with in the same way where more numbers were given out before. -/
theorem Fit.give_shift (h : s.Fit .all d') (hr : r.Proper s.nextId) {k : Nat}
    (hr' : (r.shift k).Proper s.nextId) (hfirst : r.first = s.nextId)
    (hprogram : ∀ e, r.job ≠ .ok (.expression e)) (budget : Nat) :
    SameButNumbers (shiftFrom s.nextId k) (s.give Distances.forgetFrom budget r)
      (s.give Distances.forgetFrom budget (r.shift k)) := by
  have hle := hr.le_next
  cases hjob : r.job with
  | error ds =>
    have hjob' : (r.shift k).job = .error ds := by
      unfold Reading.shift
      rw [hjob]
      rfl
    rw [Session.give_error hjob, Session.give_error hjob']
    exact h.sameButNumbers_refused hle _
  | ok j =>
    cases j with
    | expression e => exact absurd hjob (hprogram e)
    | program ss =>
      cases hclean : ((Job.program ss).visit s.machine.distances).after.violations.isEmpty with
      | true => exact h.give_shift_accepted hr hr' hfirst hjob hclean budget
      | false =>
        have hjob' : (r.shift k).job = .ok ((Job.program ss).shift k) := by
          unfold Reading.shift
          rw [hjob]
          rfl
        have hclean' : (((Job.program ss).shift k).visit
            s.machine.distances).after.violations.isEmpty = false := by
          rwa [Job.violations_shift]
        have hgone : (s.machine.prepare (.program ss)).forgetBy Distances.forgetFrom r.first =
            s.machine := congrArg s.machine.withTable (h.forgetFrom_after hr hjob)
        have hgone' : (s.machine.prepare ((Job.program ss).shift k)).forgetBy Distances.forgetFrom
            (r.shift k).first = s.machine :=
          congrArg s.machine.withTable (h.forgetFrom_after hr' hjob')
        rw [Session.give_rejected hjob hclean, Session.give_rejected hjob' hclean', hgone, hgone',
          Job.violations_shift]
        exact h.sameButNumbers_refused hle _

/-- A source is never read as a bare expression. -/
theorem readSource_job_ne_expression (s : Session) (text : String) (e : Expr) :
    (s.readSource text).job ≠ .ok (.expression e) := by
  unfold readSource
  dsimp only
  split <;> simp

/-- A line that is no expression is read as a source, above the numbers that the attempt used up. -/
theorem readLine_of_attempt {line : String} (h : (s.bareExpression? line).1 = none) :
    s.readLine line = (s.readSource line).shift ((s.bareExpression? line).2 - s.nextId) := by
  have hle := s.le_nextId_bareExpression? line
  rw [← readSource_shift, Nat.sub_add_cancel hle]
  unfold readLine
  split
  · next hattempt => simp [hattempt] at h
  · next hattempt => rw [hattempt]

/-- A line that was tried as an expression in vain is run as if it had not been tried, whatever the
clock shows and the output takes. There is no value; what is reported and written is the same; and
globals, heap and distances are the same but for the numbers of the references in the line, which
are larger by as many as the attempt used up. -/
theorem attempt_leaves_no_trace (s : Session) (hs : s.Reachable) (budget : Nat) (line : String)
    (h : (s.bareExpression? line).1 = none) :
    let number := shiftFrom s.nextId ((s.bareExpression? line).2 - s.nextId)
    let ran := s.run budget line
    let done := s.runLine budget line
    done.2.value = none ∧ done.2.diagnostics = ran.2 ∧
      done.1.machine.sink = ran.1.machine.sink ∧
      done.1.nextId = number ran.1.nextId ∧
      done.1.machine.distances = ran.1.machine.distances.renumber number ∧
      Similar Eq number 0 ran.1.machine done.1.machine := by
  intro number ran done
  obtain ⟨d', hfit⟩ := hs.fit
  have hread := readLine_of_attempt h
  have hproper' := s.readLine_proper line
  rw [hread] at hproper'
  have hsame := hfit.give_shift (s.readSource_proper line) hproper' rfl
    (s.readSource_job_ne_expression line) budget
  have hran : (ran.1, ⟨none, ran.2⟩) = s.give Distances.forgetFrom budget (s.readSource line) :=
    runWith_eq_give Distances.forgetFrom budget s line
  have hdone : done = s.give Distances.forgetFrom budget (s.readLine line) :=
    runLineWith_eq_give Distances.forgetFrom budget s line
  rw [hread] at hdone
  rw [← hran, ← hdone] at hsame
  exact ⟨congrArg LineOutcome.value hsame.outcome, congrArg LineOutcome.diagnostics hsame.outcome,
    hsame.machines.sink.symm, hsame.nextId, hsame.distances, hsame.machines⟩

/-- The source `x;{}`: an expression statement and an empty block. -/
def statementsSource : String := "x;\x7b\x7d"

/-- Its tokens, without the end token. -/
def statementTokens : List Token :=
  [⟨.identifier, "x", ⟨1, 1⟩⟩, ⟨.semicolon, ";", ⟨1, 2⟩⟩, ⟨.leftBrace, "\x7b", ⟨1, 3⟩⟩,
    ⟨.rightBrace, "\x7d", ⟨1, 4⟩⟩]

/-- The tokens of the statements. -/
theorem tokenize_statements :
    tokenize statementsSource = (statementTokens ++ [.endAt ⟨1, 5⟩], []) := by
  cbv

/-- Statements that start with an expression are no expression, but the attempt has used up a number
when it fails. -/
theorem bareExpression?_statements :
    (start {} {}).bareExpression? statementsSource = (none, 1) := by
  have hd : Derives .expression [⟨.identifier, "x", ⟨1, 1⟩⟩] 0
      (.reference ⟨0, ⟨.identifier, "x", ⟨1, 1⟩⟩⟩) 1 := .expression_of_call (.bare (.reference rfl))
  have hdone : (expression ⟨statementTokens, .endAt ⟨1, 5⟩, 0, []⟩).Done _ _ :=
    hd.parses statementTokens.tail (.endAt ⟨1, 5⟩) [] (.cons rfl rfl _)
  rw [← State.start_append (by decide) rfl] at hdone
  obtain ⟨_, hdone⟩ := hdone
  rw [bareExpression?_of_tokenize (start {} {}) statementsSource rfl (by decide)
    tokenize_statements]
  show parseExpression? _ 0 = _
  rw [parseExpression?, hdone]
  rfl

/-- The references of such statements have larger numbers than without the attempt, and the same is
reported. -/
theorem statements_after_attempt :
    (start {} {}).bareExpression? statementsSource = (none, 1) ∧
      ((start {} {}).runLine 3 statementsSource).2.diagnostics =
        ((start {} {}).run 3 statementsSource).2 ∧
      ((start {} {}).runLine 3 statementsSource).1.nextId =
        shiftFrom 0 1 ((start {} {}).run 3 statementsSource).1.nextId := by
  have hattempt := bareExpression?_statements
  obtain ⟨_, hdiagnostics, _, hnext, _⟩ := attempt_leaves_no_trace (start {} {}) ⟨{}, {}, [], rfl⟩ 3
    statementsSource (congrArg Prod.fst hattempt)
  rw [hattempt] at hnext
  exact ⟨hattempt, hdiagnostics, hnext⟩

end Session

end Lox

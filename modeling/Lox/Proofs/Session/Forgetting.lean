import Lox.Proofs.Session.StaticErrors

/-!
# Forgetting distances

A session forgets the distances of a source once they cannot be used any more. Nobody can tell: a
session that never forgets gives the same in every turn and writes the same. And the table stays
small: a text that is refused, or that makes no closure, leaves it exactly as it was.
-/

namespace Lox.Session

open Scoping Eval

variable {d' : Distances} {s : Session} {t : Turn} {r : Reading}

/-- A text that is refused or makes no closure leaves the table as it was. -/
theorem Fit.turn_distances (h : s.Fit .all d')
    (ht : t.forgetting = Distances.forgetFrom) (hread : s.read? t = some r)
    (hgone : (s.turn t).2.diagnostics.hasStatic ∨
      ∀ j, r.job = .ok j → j.createsClosure = false) :
    (s.turn t).1.machine.distances = s.machine.distances := by
  cases haccepted : s.accepted? t with
  | none => rw [(h.turn_refused ht hread haccepted).1]
  | some j =>
    have hnot := Diagnostics.not_hasStatic (isDynamic_turn haccepted)
    obtain ⟨r', hread', hjob, hturn⟩ := turn_accepted haccepted
    obtain rfl : r = r' := Option.some.inj (hread.symm.trans hread')
    obtain ⟨_, _, _, hclean⟩ := accepted?_eq_some_iff.mp haccepted
    have hcloses : j.createsClosure = false := hgone.elim (by simp [hnot]) fun h => h j hjob
    have hr := read?_proper hread
    obtain ⟨S, _, _, _, _, _, hdoes, _⟩ :=
      h.start_job hr hjob (List.isEmpty_iff.mp hclean) onRecord_all
    rw [hturn, hcloses, ht]
    exact (congrArg (·.forgetFrom r.first) hdoes.grown.distances).trans (h.forgetFrom_after hr hjob)

/-- Forgetting distances is unobservable. After any turns, the next one gives the same value and
reports and leaves the same output as in a session that never forgets a distance, if both read the
same clock, whatever it shows, and the output takes the same of both. And where a source or a line
at the prompt ends in a static error or makes no closure, the table of distances is exactly the one
before. -/
theorem forgetting_unobservable (sink : Sink) (clock : Clock) (turns : List Turn) :
    let s := (start sink clock).after turns
    let kept := (start sink clock).afterKeeping turns
    (∀ t, (kept.turnKeeping t).2 = (s.turn t).2 ∧
      (kept.turnKeeping t).1.machine.sink = (s.turn t).1.machine.sink) ∧
    (∀ budget text, (s.run budget text).2.hasStatic ∨
        (∀ j, (s.readSource text).job = .ok j → j.createsClosure = false) →
      (s.run budget text).1.machine.distances = s.machine.distances) ∧
    (∀ budget text, (s.runLine budget text).2.diagnostics.hasStatic ∨
        (∀ j, (s.readLine text).job = .ok j → j.createsClosure = false) →
      (s.runLine budget text).1.machine.distances = s.machine.distances) := by
  intro s kept
  obtain ⟨e', hfit, hkept⟩ := fit_after sink clock turns
  refine ⟨fun t => ?_, fun budget text => ?_, fun budget text => ?_⟩
  · obtain ⟨e'', _, hturn⟩ :=
      hfit.turn (t := t) fun _ _ => onRecord_all
    rw [← hkept] at hturn
    constructor <;> rw [show kept.turnKeeping t = _ from hturn]
    rfl
  · exact hfit.turn_distances (t := .source budget text) rfl rfl
  · exact hfit.turn_distances (t := .line budget text) rfl rfl

end Lox.Session

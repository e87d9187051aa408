import Lox.Proofs.Session.Twins

/-!
# Static errors

What is reported about a text comes from reading and scoping it, or from performing it, and never
from both. In the first case the session's machine is exactly as before, although scoping notes
distances in its table while it is still looking for violations: all of them have new numbers, and
they are forgotten. In the second case every report is the failure of a run.
-/

namespace Lox

open Scoping Eval

/-- Whether a diagnostic comes from a run. -/
def Diagnostic.isDynamic : Diagnostic → Bool
  | .runtime .. | .output _ | .exhausted => true
  | _ => false

/-- A failure is reported as a dynamic error. -/
theorem Diagnostic.isDynamic_ofFailure (failure : Failure) : (ofFailure failure).isDynamic := by
  cases failure <;> rfl

/-- A dynamic error is no static one. -/
theorem Diagnostic.not_isStatic {d : Diagnostic} (h : d.isDynamic) : d.isStatic = false := by
  cases d with
  | runtime line message | output message | exhausted => rfl
  | _ => contradiction

/-- Reports that all come from a run do not keep a program from running. -/
theorem Diagnostics.not_hasStatic {ds : Diagnostics} (h : ∀ d ∈ ds, d.isDynamic) :
    ds.hasStatic = false := by
  rw [hasStatic, List.any_eq_false]
  intro d hd
  rw [Diagnostic.not_isStatic (h d hd)]
  exact Bool.false_ne_true

/-- The exit code tells whether a program was kept from running. -/
theorem Diagnostics.exitCode?_eq_some_65 (ds : Diagnostics) :
    ds.exitCode? = some 65 ↔ ds.hasStatic := by
  unfold exitCode?
  split
  · next h => simp [h]
  · next h =>
    split <;> simp [h]

namespace Machine

/-- What is reported about statements comes from their run. -/
theorem isDynamic_runAll (budget : Nat) (m : Machine) (ss : List Stmt) :
    ∀ d ∈ (m.runAll budget ss).2, d.isDynamic := by
  induction ss generalizing m with
  | nil => simp [runAll]
  | cons s ss ih =>
    have hfirst : ∀ d ∈ (m.runTop budget s).2, d.isDynamic := by
      unfold runTop
      split
      · simp
      · simp [Diagnostic.isDynamic_ofFailure]
    simp only [runAll, List.forall_mem_append]
    exact ⟨hfirst, ih _⟩

/-- What is reported about a job comes from its run. -/
theorem isDynamic_perform (budget : Nat) (m : Machine) (j : Job) :
    ∀ d ∈ (m.perform budget j).2.diagnostics, d.isDynamic := by
  cases j with
  | program ss =>
    have hall := m.isDynamic_runAll budget ss
    simp only [perform, interpret, List.forall_mem_append]
    refine ⟨hall, fun d hd => ?_⟩
    rw [Option.mem_toList, Option.map_eq_some_iff] at hd
    obtain ⟨reason, -, rfl⟩ := hd
    rfl
  | expression e =>
    simp only [perform, evaluate]
    cases Eval.evaluate budget e m with
    | ok x m' => simp
    | error failure m' => simp [Diagnostic.isDynamic_ofFailure]

end Machine

namespace Session

variable {R : Record} {d' : Distances} {s : Session} {t : Turn} {r : Reading} {j : Job}

/-- Forgetting what scoping noted for a job gives back the table before. -/
theorem Fit.forgetFrom_after (h : s.Fit R d') (hr : r.Proper s.nextId)
    (hjob : r.job = .ok j) :
    (j.visit s.machine.distances).after.distances.forgetFrom r.first = s.machine.distances :=
  (h.below.mono hr.le_first).forgetFrom_notes
    (fun id hid => ((hr.tidy j hjob _).spans.bounds id hid).1)
    (j.visit s.machine.distances).notes_after

/-- What happens in a turn with a text for which no job is accepted. -/
theorem Fit.turn_refused (h : s.Fit R d') (ht : t.forgetting = Distances.forgetFrom)
    (hread : s.read? t = some r) (haccepted : s.accepted? t = none) :
    (s.turn t).1.machine = s.machine ∧ (s.turn t).2.value = none ∧
      (s.turn t).2.diagnostics.hasStatic ∧ ∀ d ∈ (s.turn t).2.diagnostics, d.isStatic := by
  have hr := read?_proper hread
  rw [turn_eq_give hread]
  cases hjob : r.job with
  | error ds =>
    rw [Session.give_error hjob]
    exact ⟨rfl, rfl, hr.hasStatic ds hjob, hr.isStatic ds hjob⟩
  | ok j =>
    cases hviolations : (j.visit s.machine.distances).after.violations.isEmpty with
    | true =>
      have hsome := accepted?_eq_some_iff.mpr ⟨r, hread, hjob, hviolations⟩
      rw [haccepted] at hsome
      contradiction
    | false =>
      -- Scoping has noted distances before it found the violation; they are new and forgotten
      -- again.
      rw [Session.give_rejected hjob hviolations, ht]
      refine ⟨?_, rfl, ?_, fun d hd => ?_⟩
      · exact congrArg s.machine.withTable (h.forgetFrom_after hr hjob)
      · rw [hasStatic_violations, hviolations]
        rfl
      · obtain ⟨violation, _, rfl⟩ := List.mem_map.mp hd
        rfl

/-- What happens in a turn for which a job is accepted. -/
theorem turn_accepted (haccepted : s.accepted? t = some j) :
    ∃ r, s.read? t = some r ∧ r.job = .ok j ∧ s.turn t =
      (⟨if j.createsClosure then ((s.machine.prepare j).perform t.budget j).1
        else ((s.machine.prepare j).perform t.budget j).1.forgetBy t.forgetting r.first, r.next⟩,
        ((s.machine.prepare j).perform t.budget j).2) := by
  obtain ⟨r, hread, hjob, hviolations⟩ := accepted?_eq_some_iff.mp haccepted
  exact ⟨r, hread, hjob, by rw [turn_eq_give hread, give_accepted hjob hviolations]⟩

/-- What is reported in a turn for which a job is accepted comes from its run. -/
theorem isDynamic_turn (haccepted : s.accepted? t = some j) :
    ∀ d ∈ (s.turn t).2.diagnostics, d.isDynamic := by
  obtain ⟨r, _, _, hturn⟩ := turn_accepted haccepted
  rw [hturn]
  exact Machine.isDynamic_perform _ _ _

/-- Every session that turns lead to is fit, and so is its twin that never forgets. -/
theorem fit_after (sink : Sink) (clock : Clock) (turns : List Turn) :
    ∃ e', ((start sink clock).after turns).Fit .all e' ∧
      (start sink clock).afterKeeping turns = ((start sink clock).after turns).withTable e' :=
  (fit_start _ sink clock).after ⟨fun _ _ => trivial, fun _ _ _ => trivial, fun _ _ => trivial⟩

/-- A reachable session fits one that keeps all distances. -/
theorem Reachable.fit (h : s.Reachable) : ∃ d', s.Fit .all d' := by
  obtain ⟨sink, clock, turns, rfl⟩ := h
  obtain ⟨d', hfit, _⟩ := fit_after sink clock turns
  exact ⟨d', hfit⟩

/-- A turn with a text reports static errors only, and then nothing has happened, or a job is
performed and it reports errors of a run only. -/
theorem Fit.turn_text (h : s.Fit R d') (ht : t.forgetting = Distances.forgetFrom)
    (hread : s.read? t = some r) :
    ((s.turn t).2.diagnostics.hasStatic → (∀ d ∈ (s.turn t).2.diagnostics, d.isStatic) ∧
      (s.turn t).2.value = none ∧ (s.turn t).1.machine = s.machine) ∧
    (¬(s.turn t).2.diagnostics.hasStatic → ∀ d ∈ (s.turn t).2.diagnostics, d.isDynamic) ∧
    ((s.turn t).2.diagnostics.exitCode? = some 65 ↔ s.accepted? t = none) := by
  rw [Diagnostics.exitCode?_eq_some_65]
  cases haccepted : s.accepted? t with
  | none =>
    obtain ⟨hmachine, hvalue, hstatic, hall⟩ := h.turn_refused ht hread haccepted
    exact ⟨fun _ => ⟨hall, hvalue, hmachine⟩, fun hnot => absurd hstatic hnot,
      by simpa using hstatic⟩
  | some j =>
    have hdynamic := isDynamic_turn haccepted
    have hnot := Diagnostics.not_hasStatic hdynamic
    exact ⟨fun hstatic => by simp [hnot] at hstatic, fun _ => hdynamic, by simpa using hnot⟩

/-- Where something is executed, a job was accepted. -/
theorem Executes.accepted?_ne_none {μ : Moment} (h : s.Executes t μ) : s.accepted? t ≠ none := by
  obtain ⟨j, hj, _⟩ := h
  rw [Option.mem_def.mp hj]
  exact Option.some_ne_none j

/-- Static errors are atomic and never mix with errors of a run. Whatever has happened to a session
before, and whatever its clock showed and its output took, a source and a line at the prompt report
static errors only, and then there is no value and the machine with its heap, globals, current
frame, distances and output is the one before; or else they report errors of a run only. The exit
code is 65 just if no job is performed, so it is not where anything was executed. -/
theorem static_errors_atomic (sink : Sink) (clock : Clock) (turns : List Turn) (budget : Nat)
    (text : String) :
    let s := (start sink clock).after turns
    (∀ s' ds, s.run budget text = (s', ds) →
      (ds.hasStatic → (∀ d ∈ ds, d.isStatic) ∧ s'.machine = s.machine) ∧
      (¬ds.hasStatic → ∀ d ∈ ds, d.isDynamic) ∧
      (ds.exitCode? = some 65 ↔ s.accepted? (.source budget text) = none) ∧
      ∀ μ, s.Executes (.source budget text) μ → ds.exitCode? ≠ some 65) ∧
    (∀ s' outcome, s.runLine budget text = (s', outcome) →
      (outcome.diagnostics.hasStatic → (∀ d ∈ outcome.diagnostics, d.isStatic) ∧
        outcome.value = none ∧ s'.machine = s.machine) ∧
      (¬outcome.diagnostics.hasStatic → ∀ d ∈ outcome.diagnostics, d.isDynamic) ∧
      (outcome.diagnostics.exitCode? = some 65 ↔ s.accepted? (.line budget text) = none) ∧
      ∀ μ, s.Executes (.line budget text) μ → outcome.diagnostics.exitCode? ≠ some 65) := by
  intro s
  obtain ⟨e', hfit, _⟩ := fit_after sink clock turns
  refine ⟨fun s' ds hrun => ?_, fun s' outcome hrun => ?_⟩
  · have hturn : s.turn (.source budget text) = (s', ⟨none, ds⟩) := by rw [turn, hrun]
    have htext := hfit.turn_text (t := .source budget text) rfl rfl
    rw [hturn] at htext
    obtain ⟨hstatic, hdynamic, hcode⟩ := htext
    exact ⟨fun h => ⟨(hstatic h).1, (hstatic h).2.2⟩, hdynamic, hcode,
      fun μ hμ h65 => hμ.accepted?_ne_none (hcode.mp h65)⟩
  · have hturn : s.turn (.line budget text) = (s', outcome) := hrun
    have htext := hfit.turn_text (t := .line budget text) rfl rfl
    rw [hturn] at htext
    obtain ⟨hstatic, hdynamic, hcode⟩ := htext
    exact ⟨hstatic, hdynamic, hcode, fun μ hμ h65 => hμ.accepted?_ne_none (hcode.mp h65)⟩

end Session

end Lox

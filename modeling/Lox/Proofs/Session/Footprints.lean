import Lox.Proofs.Eval.Restoring
import Lox.Proofs.Session.Context
import Lox.Proofs.Session.Readings

/-!
# What turns change and what they point at

What is done at the top level has a footprint: frames change only at moments that are reached there,
and an error of a run has the line of a token of such a moment. A statement has it since every task
spans its path; it adds up over the statements of a program and over the turns of a session.
-/

namespace Lox

open Eval

/-- What is done on a machine changes frames at moments of a kind only, and errors of a run point at
tokens of such moments. -/
structure Footprint (W : Moment → Prop) (m : Machine) (done : Machine × Diagnostics) : Prop where
  /-- How the frames change. -/
  evolves : Evolves W m.heap.frames done.1.heap.frames
  /-- Where errors are. -/
  blames : ∀ line message, .runtime line message ∈ done.2 → Blames W line

namespace Footprint

variable {W W' : Moment → Prop} {m m' m'' : Machine} {ds ds' : Diagnostics}

/-- A footprint of some moments is one of more. -/
theorem mono (h : Footprint W m (m', ds)) (hW : ∀ μ, W μ → W' μ) : Footprint W' m (m', ds) where
  evolves := h.evolves.mono hW
  blames line message hd := (h.blames line message hd).mono hW

/-- One thing after another. -/
theorem trans (h : Footprint W m (m', ds)) (h' : Footprint W m' (m'', ds')) :
    Footprint W m (m'', ds ++ ds') where
  evolves := h.evolves.trans h'.evolves
  blames line message hd :=
    (List.mem_append.mp hd).elim (h.blames line message) (h'.blames line message)

/-- Where frames are left alone and no error of a run is reported, there is no trace. -/
theorem of_eq (hframes : m'.heap.frames = m.heap.frames)
    (hds : ∀ line message, Diagnostic.runtime line message ∉ ds) : Footprint W m (m', ds) where
  evolves := hframes ▸ .refl
  blames line message hd := absurd hd (hds line message)

/-- A task that is run at the top level, where its failure is reported. -/
theorem of_failure {μ : Moment} {failure : Failure}
    (h : μ.task.run μ.machine = .error failure m') :
    Footprint μ.Reaches μ.machine (m', [.ofFailure failure]) where
  evolves := by
    have hevolves := μ.evolves
    rwa [Moment.final, h] at hevolves
  blames line message hd := by
    cases failure with
    | program line' cause =>
      obtain ⟨rfl, -⟩ := Diagnostic.runtime.inj (List.mem_singleton.mp hd)
      exact μ.spans.blames line cause m' h
    | output fault => simp [Diagnostic.ofFailure] at hd
    | exhausted => simp [Diagnostic.ofFailure] at hd

/-- A task that ends with a result. -/
theorem of_ok {μ : Moment} {a : μ.task.Result} (h : μ.task.run μ.machine = .ok a m') :
    Footprint μ.Reaches μ.machine (m', []) where
  evolves := by
    have hevolves := μ.evolves
    rwa [Moment.final, h] at hevolves
  blames line message hd := nomatch hd

end Footprint

namespace Machine

variable (b : Nat) (m : Machine)

/-- The footprint of a statement at the top. -/
theorem footprint_runTop (s : Stmt) :
    Footprint (Moment.Reaches ⟨.execute b s, m⟩) m (m.runTop b s) := by
  unfold runTop
  cases hx : Eval.execute b s m with
  | ok flow m' => exact .of_ok (μ := ⟨.execute b s, m⟩) hx
  | error failure m' =>
    have hfailure := Footprint.of_failure (μ := ⟨.execute b s, m⟩) hx
    exact ⟨hfailure.evolves, hfailure.blames⟩

/-- The footprint of statements at the top. -/
theorem footprint_runAll (ss : List Stmt) :
    Footprint (fun μ => ∃ μ₀ ∈ m.starts b ss, μ₀.Reaches μ) m (m.runAll b ss) := by
  induction ss generalizing m with
  | nil => exact .of_eq rfl (by simp)
  | cons s ss ih =>
    have hfirst := m.footprint_runTop b s
    have hrest := ih (m.runTop b s).1
    refine (hfirst.mono fun μ hμ => ?_).trans (hrest.mono fun μ hμ => ?_)
    · exact ⟨_, List.mem_cons_self, hμ⟩
    · obtain ⟨μ₀, hμ₀, hreach⟩ := hμ
      exact ⟨μ₀, List.mem_cons_of_mem _ hμ₀, hreach⟩

/-- The footprint of a job. -/
theorem footprint_perform (j : Job) :
    Footprint (fun μ => ∃ μ₀ ∈ m.jobStarts b j, μ₀.Reaches μ) m
      ((m.perform b j).1, (m.perform b j).2.diagnostics) := by
  cases j with
  | program ss =>
    have hall := m.footprint_runAll b ss
    refine ⟨hall.evolves, fun line message hd => hall.blames line message ?_⟩
    -- What flushing adds is not an error of the run.
    have hflush : Diagnostic.runtime line message ∈ (m.interpret b ss).2 := hd
    simpa [interpret] using hflush
  | expression e =>
    have hmono : ∀ μ, Moment.Reaches ⟨.evaluate b e, m⟩ μ →
        ∃ μ₀ ∈ m.jobStarts b (.expression e), μ₀.Reaches μ :=
      fun μ hμ => ⟨_, List.mem_cons_self, hμ⟩
    cases hx : Eval.evaluate b e m with
    | ok v m' =>
      have hdone : m.perform b (.expression e) = (m', ⟨some v, []⟩) := by
        simp only [perform, evaluate, hx]
      rw [hdone]
      exact (Footprint.of_ok (μ := ⟨.evaluate b e, m⟩) hx).mono hmono
    | error failure m' =>
      have hdone : m.perform b (.expression e) = (m', ⟨none, [.ofFailure failure]⟩) := by
        simp only [perform, evaluate, hx]
      rw [hdone]
      exact (Footprint.of_failure (μ := ⟨.evaluate b e, m⟩) hx).mono hmono

end Machine

namespace Session

variable {s : Session}

/-- A turn changes frames and reports errors of a run at the moments that are reached in it. -/
theorem footprint_turn (s : Session) (t : Turn) :
    Footprint (s.Executes t) s.machine ((s.turn t).1.machine, (s.turn t).2.diagnostics) := by
  have hstatic {ds : Diagnostics} (hds : ∀ d ∈ ds, d.isStatic) (line : Nat) (message : String) :
      Diagnostic.runtime line message ∉ ds := fun hd => nomatch hds _ hd
  cases hread : s.read? t with
  | none =>
    cases t with
    | drain => exact .of_eq rfl (by simp [turn])
    | _ => contradiction
  | some r =>
    rw [turn_eq_give hread]
    cases hjob : r.job with
    | error ds =>
      rw [give_error hjob]
      exact .of_eq rfl (hstatic ((read?_proper hread).isStatic ds hjob))
    | ok j =>
      cases hclean : (j.visit s.machine.distances).after.violations.isEmpty with
      | false =>
        rw [give_rejected hjob hclean]
        refine .of_eq rfl (hstatic fun d hd => ?_)
        obtain ⟨violation, -, rfl⟩ := List.mem_map.mp hd
        rfl
      | true =>
        have hperform := (s.machine.prepare j).footprint_perform t.budget j
        have hj : s.accepted? t = some j :=
          accepted?_eq_some_iff.mpr ⟨r, hread, hjob, hclean⟩
        -- Preparing a job and forgetting distances leave the frames alone.
        have hdone : Footprint (s.Executes t) (s.machine.prepare j) _ :=
          hperform.mono fun μ hμ => ⟨j, hj, hμ⟩
        rw [give_accepted hjob hclean]
        refine ⟨?_, hdone.blames⟩
        have hevolves := hdone.evolves
        dsimp only
        split <;> exact hevolves

/-- Over some turns, frames change at the moments that are reached in them. -/
theorem evolves_after (s : Session) (turns : List Turn) :
    Evolves (s.Reaches turns) s.machine.heap.frames (s.after turns).machine.heap.frames := by
  induction turns generalizing s with
  | nil => exact .refl
  | cons t turns ih =>
    have hfirst : Evolves (s.Reaches (t :: turns)) _ _ :=
      (s.footprint_turn t).evolves.mono fun μ hμ => .inl hμ
    exact hfirst.trans ((ih (s.turn t).1).mono fun μ hμ => .inr hμ)

/-- What is reached in turns after others is reached in them all. -/
theorem Reaches.append {before rest : List Turn} {μ : Moment}
    (h : (s.after before).Reaches rest μ) : s.Reaches (before ++ rest) μ := by
  induction before generalizing s with
  | nil => exact h
  | cons t before ih => exact .inr (ih h)

end Session

end Lox

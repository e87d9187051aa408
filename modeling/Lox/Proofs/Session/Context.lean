import Lox.Proofs.Eval.Restoring
import Lox.Proofs.Session.Turns

/-!
# The context between two steps

A statement at the top level starts in the global frame and, as every task restores the context,
ends there, so that the next one starts there too. The same holds of the turns of a session. What a
moment leaves behind is still there at the end of the turn in which it happens, and of all turns
after it.
-/

namespace Lox

open Eval Scoping

variable {keep : String → Prop} {b : Nat} {m : Machine}

namespace Machine

/-- The context of `m` is restored in `m'`. What names are bound to may have changed. -/
abbrev Resumes (m m' : Machine) : Prop :=
  m.Restores (fun _ => False) m'

/-- At the top level a machine is in the global frame. -/
def AtTop (m : Machine) : Prop :=
  m.current = m.globals

/-- A machine that is restored is at the top if it was. -/
theorem Restores.atTop {m' : Machine} (h : m.Restores keep m') (htop : m.AtTop) : m'.AtTop := by
  unfold AtTop at *
  rw [h.current, h.globals, htop]

/-- Where a statement at the top level ends, up to the current frame. -/
theorem runTop_fst (b : Nat) (m : Machine) (s : Stmt) (h : m.Restores keep (final (execute b s m)))
    (htop : m.AtTop) : (m.runTop b s).1 = final (execute b s m) := by
  have htop' := h.atTop htop
  unfold runTop
  cases hx : execute b s m with
  | ok flow m' => rfl
  | error e m' =>
    rw [hx] at htop'
    -- A failure is left with the current frame set back to the global one, which it is.
    exact congrArg (fun k => ({ m' with current := k } : Machine)) (Eq.symm htop')

/-- What holds of the statements of a program if no kept name is bound in them. -/
theorem restores_runAll (ss : List Stmt) (htop : m.AtTop)
    (havoids : ∀ μ ∈ m.starts b ss, μ.Avoids keep) :
    m.Restores keep (m.runAll b ss).1 ∧
      ∀ μ ∈ m.starts b ss,
        m.Restores keep μ.machine ∧ μ.final.Later keep (m.runAll b ss).1 := by
  induction ss generalizing m with
  | nil => exact ⟨.refl m, by simp [starts]⟩
  | cons s ss ih =>
    rw [starts, List.forall_mem_cons] at havoids ⊢
    have hfirst : m.Restores keep (final (execute b s m)) := havoids.1.restores
    have hend := runTop_fst b m s hfirst htop
    rw [← hend] at hfirst
    obtain ⟨hrest, hmoments⟩ := ih (hfirst.atTop htop) havoids.2
    refine ⟨hfirst.trans hrest, ⟨.refl m, ?_⟩, fun μ hμ => ?_⟩
    · have hfinal : Moment.final ⟨.execute b s, m⟩ = (m.runTop b s).1 := hend.symm
      rw [hfinal]
      exact hrest.toLater
    · exact ⟨hfirst.trans (hmoments μ hμ).1, (hmoments μ hμ).2⟩

/-- Where an expression that is performed ends. -/
theorem perform_expression_fst (b : Nat) (m : Machine) (e : Expr) :
    (m.perform b (.expression e)).1 = Moment.final ⟨.evaluate b e, m⟩ := by
  show (m.evaluate b e).1 = final (Eval.evaluate b e m)
  unfold evaluate
  cases Eval.evaluate b e m <;> rfl

/-- A job that is performed restores the context, and leaves in place what its parts leave. -/
theorem restores_perform (j : Job) (htop : m.AtTop)
    (havoids : ∀ μ ∈ m.jobStarts b j, μ.Avoids keep) :
    m.Restores keep (m.perform b j).1 ∧
      ∀ μ ∈ m.jobStarts b j,
        m.Restores keep μ.machine ∧ μ.final.Later keep (m.perform b j).1 := by
  cases j with
  | program ss =>
    obtain ⟨hrestores, hmoments⟩ := restores_runAll ss htop havoids
    have hflush : (m.runAll b ss).1.Restores keep (m.perform b (.program ss)).1 :=
      .of_beside (.aside _ _ _ (Nat.le_refl _)) rfl
    exact ⟨hrestores.trans hflush, fun μ hμ =>
      ⟨(hmoments μ hμ).1, (hmoments μ hμ).2.trans hflush.toLater⟩⟩
  | expression e =>
    have hrestores := (havoids _ List.mem_cons_self).restores
    rw [perform_expression_fst]
    refine ⟨hrestores, fun μ hμ => ?_⟩
    obtain rfl := List.mem_singleton.mp hμ
    exact ⟨.refl m, .refl _⟩

end Machine

namespace Session

variable {s : Session} {t : Turn}

/-- In a turn a job is performed, or only the table of distances and the output change. -/
theorem turn_cases (s : Session) (t : Turn) :
    (s.accepted? t = none ∧ ∃ d sink,
      (s.turn t).1.machine = { s.machine with distances := d, sink := sink }) ∨
    ∃ j d, s.accepted? t = some j ∧
      (s.turn t).1.machine = ((s.machine.prepare j).perform t.budget j).1.withTable d := by
  cases hread : s.read? t with
  | none =>
    refine .inl ⟨by rw [accepted?, hread], ?_⟩
    cases t with
    | drain => exact ⟨_, _, rfl⟩
    | _ => contradiction
  | some r =>
    -- A job that is read is accepted unless scoping finds a violation.
    have hnone (h : ∀ j, r.job = .ok j →
        (j.visit s.machine.distances).after.violations.isEmpty = false) :
        s.accepted? t = none := by
      refine Option.eq_none_iff_forall_ne_some.mpr fun j hj => ?_
      obtain ⟨r', hread', hjob, hclean⟩ := accepted?_eq_some_iff.mp hj
      obtain rfl := Option.some.inj (hread.symm.trans hread')
      exact absurd hclean (by rw [h j hjob]; exact Bool.false_ne_true)
    rw [turn_eq_give hread]
    cases hjob : r.job with
    | error ds =>
      rw [give_error hjob]
      exact .inl ⟨hnone fun j hj => by simp [hjob] at hj, _, _, rfl⟩
    | ok j =>
      cases hclean : (j.visit s.machine.distances).after.violations.isEmpty with
      | false =>
        rw [give_rejected hjob hclean]
        refine .inl ⟨hnone fun j' hj' => ?_, _, _, rfl⟩
        obtain rfl := Except.ok.inj (hjob.symm.trans hj')
        exact hclean
      | true =>
        rw [give_accepted hjob hclean]
        refine .inr ⟨j, ?_⟩
        split
        · exact ⟨_, accepted?_eq_some_iff.mpr ⟨r, hread, hjob, hclean⟩, rfl⟩
        · exact ⟨_, accepted?_eq_some_iff.mpr ⟨r, hread, hjob, hclean⟩, rfl⟩

/-- A turn starts and ends in the global frame, and so does every statement at the top level. -/
theorem later_turn (htop : s.machine.AtTop) (havoids : ∀ μ, s.Executes t μ → μ.Avoids keep) :
    s.machine.Later keep (s.turn t).1.machine ∧ (s.turn t).1.machine.AtTop ∧
      ∀ μ, s.Executes t μ → μ.final.Later keep (s.turn t).1.machine := by
  obtain ⟨hnone, d, sink, hturn⟩ | ⟨j, d, hsome, hturn⟩ := s.turn_cases t
  · rw [hturn]
    refine ⟨.of_beside (d := d) (.aside _ _ _ (Nat.le_refl _)), htop, ?_⟩
    rintro μ ⟨j, hj, _⟩
    rw [hnone] at hj
    contradiction
  · have hstarts : ∀ μ ∈ (s.machine.prepare j).jobStarts t.budget j, μ.Avoids keep :=
      fun μ hμ => havoids μ ⟨j, hsome, μ, hμ, .refl⟩
    have htop' : (s.machine.prepare j).AtTop := htop
    obtain ⟨hrestores, hmoments⟩ := Machine.restores_perform j htop' hstarts
    have hend := hrestores.atTop htop'
    rw [hturn]
    refine ⟨?_, hend, ?_⟩
    · have hprepare : s.machine.Later keep (s.machine.prepare j) := .withTable _ _
      exact (hprepare.trans hrestores.toLater).trans (.withTable _ _)
    · rintro μ ⟨j', hj', μ₀, hμ₀, hreach⟩
      obtain rfl := Option.some.inj (hsome.symm.trans hj')
      -- What a moment leaves is there when its part of the job ends, then when the job ends, and
      -- distances are all that may change after that.
      have hwithin := (hstarts μ₀ hμ₀).later hreach
      exact (hwithin.trans (hmoments μ₀ hμ₀).2).trans (.withTable _ _)

/-- A session starts and stays in the global frame, and what a moment leaves behind is there at the
end. -/
theorem later_after (turns : List Turn) (htop : s.machine.AtTop)
    (havoids : ∀ μ, s.Reaches turns μ → μ.Avoids keep) :
    s.machine.Later keep (s.after turns).machine ∧ (s.after turns).machine.AtTop ∧
      ∀ μ, s.Reaches turns μ → μ.final.Later keep (s.after turns).machine := by
  induction turns generalizing s with
  | nil => exact ⟨.refl _, htop, fun μ => False.elim⟩
  | cons t turns ih =>
    obtain ⟨hturn, htop', hmoments⟩ := later_turn htop fun μ hμ => havoids μ (.inl hμ)
    obtain ⟨hrest, hend, hmoments'⟩ := ih htop' fun μ hμ => havoids μ (.inr hμ)
    refine ⟨hturn.trans hrest, hend, ?_⟩
    rintro μ (hμ | hμ)
    · exact (hmoments μ hμ).trans hrest
    · exact hmoments' μ hμ

/-- A session that turns lead to is in the global frame. -/
theorem Reachable.atTop (h : s.Reachable) : s.machine.AtTop := by
  obtain ⟨sink, clock, turns, rfl⟩ := h
  exact (later_after (s := start sink clock) turns rfl fun μ _ => μ.avoids_none).2.1

/-- However expressions, statements, blocks and calls end, and from whatever machine, with whatever
clock and output, the context is as it was. So a session is in the global frame whenever a turn or a
statement at the top level starts or ends. -/
theorem context_restored :
    (∀ b e (m : Machine), m.Resumes (final (Eval.evaluate b e m))) ∧
    (∀ b s (m : Machine), m.Resumes (final (Eval.execute b s m))) ∧
    (∀ b ss k (m : Machine),
      m.Resumes (final (Exec.inFrame k (Eval.runAll (Eval.execute b) ss) m))) ∧
    (∀ b callee vs paren (m : Machine),
      m.Resumes (final (Eval.call (Eval.execute b) callee vs paren m))) ∧
    ∀ sink clock turns, ((start sink clock).after turns).machine.globals = 0 ∧
      ((start sink clock).after turns).machine.current = 0 ∧
      ∀ t, ∀ j ∈ ((start sink clock).after turns).accepted? t,
        ∀ μ ∈ (((start sink clock).after turns).machine.prepare j).jobStarts t.budget j,
          μ.machine.globals = 0 ∧ μ.machine.current = 0 := by
  have hcalm (t : Task) (m : Machine) : m.Resumes (final (t.run m)) :=
    (Moment.avoids_none ⟨t, m⟩).restores
  refine ⟨fun b e => hcalm (.evaluate b e), fun b s => hcalm (.execute b s), fun b ss k m => ?_,
    fun b callee vs paren => hcalm (.call b callee vs paren), fun sink clock turns => ?_⟩
  · have hbody := hcalm (.runAll b ss) { m with current := k }
    rw [final_inFrame]
    exact { hbody with current := rfl }
  · obtain ⟨hlater, htop, _⟩ :=
      later_after (s := start sink clock) turns rfl fun μ _ => μ.avoids_none
    have hglobals : ((start sink clock).after turns).machine.globals = 0 := hlater.globals
    have hcurrent : ((start sink clock).after turns).machine.current = 0 := htop.trans hglobals
    refine ⟨hglobals, hcurrent, fun t j _ μ hμ => ?_⟩
    have htop' : (((start sink clock).after turns).machine.prepare j).AtTop := htop
    have hstart := ((Machine.restores_perform j htop' fun μ _ => μ.avoids_none).2 μ hμ).1
    exact ⟨hstart.globals.trans hglobals, hstart.current.trans hcurrent⟩

end Session

end Lox

import Lox.Proofs.Eval.Reached
import Lox.Proofs.Session.Turns

/-!
# Performing a job

At the top level no scope is open and the current frame is the global one, whether or not the
statements before have failed. So every statement of a job that was visited may start, and with any
table of a setting the machine does the same (`Setting.Does`).
-/

namespace Lox.Eval.Setting

open Scoping

variable (S : Setting) {α : Type} {m : Machine} {v : Visit} {b : Nat}

/-- What is done at the top level keeps the invariant, ends with the same current frame, and does
the same with each table of the setting. -/
structure Does (f : Machine → Machine × α) (m : Machine) : Prop where
  /-- The invariant holds afterwards. -/
  inv : S.Inv (f m).1
  /-- The machine has only grown. -/
  grown : m.Extends (f m).1
  /-- The same is done with another table. -/
  lockstep : ∀ d, S.tables d → f (m.withTable d) = ((f m).1.withTable d, (f m).2)

/-- A visited piece may run at the top level. -/
structure AtTop (m : Machine) (v : Visit) : Prop where
  /-- The visit counts. -/
  live : S.live v
  /-- No scope is open. -/
  scopes : v.walk.scopes = []
  /-- No construct is around. -/
  around : v.around = []
  /-- The current frame is the global one. -/
  current : m.current = m.globals

variable {S}

/-- A machine at the top of a visit is at it. -/
theorem AtTop.at (h : S.AtTop m v) : S.At m v := by
  refine ⟨h.live, ?_⟩
  rw [h.scopes, h.around]
  exact h.current

/-- An action does well if its result does. -/
theorem Does.of_eq {f : Machine → Machine × α} {m' : Machine} {a : α} (hf : f m = (m', a))
    (hm' : S.Inv m') (hext : m.Extends m')
    (hlock : ∀ d, S.tables d → f (m.withTable d) = (m'.withTable d, a)) : S.Does f m := by
  refine ⟨?_, ?_, ?_⟩ <;> rw [hf]
  · exact hm'
  · exact hext
  · exact hlock

/-- A statement at the top level may fail: the next one starts from the global frame again. -/
theorem does_runTop {s : Stmt} (hm : S.Inv m) (htop : S.AtTop m v) (hv : v.piece = .stmt s)
    (hrec : S.Records ⟨.execute b s, m⟩) : S.Does (·.runTop b s) m := by
  have hruns := serves (.execute b s) m v hm ⟨hv, htop.at⟩ hrec
  have hlock : ∀ d, S.tables d → execute b s (m.withTable d) = withTable d (execute b s m) :=
    hruns.lockstep
  cases hx : execute b s m with
  | ok flow m' =>
    obtain ⟨hinv, hext, _⟩ := hruns.ok flow m' hx
    have hdone : m.runTop b s = (m', []) := by simp only [Machine.runTop, hx]
    refine .of_eq hdone hinv hext fun d hd => ?_
    simp only [Machine.runTop, hlock d hd, hx, withTable]
  | error e m' =>
    obtain ⟨hinv, hext⟩ := hruns.error e m' hx
    -- A failure leaves the current frame where it was, so going back to the global one changes
    -- nothing.
    have hglobals : m'.globals = m'.current := by rw [hext.globals, hext.current, htop.current]
    have hsame : { m' with current := m'.globals } = m' :=
      congrArg (fun k => ({ m' with current := k } : Machine)) hglobals
    have hdone : m.runTop b s = (m', [.ofFailure e]) := by simp only [Machine.runTop, hx, hsame]
    refine .of_eq hdone hinv hext fun d hd => ?_
    simp only [Machine.runTop, hlock d hd, hx, withTable]
    exact congrArg (fun m => (m.withTable d, [Diagnostic.ofFailure e])) hsame

/-- After the first statement the others may run at the top level. -/
theorem AtTop.rest {s : Stmt} {ss : List Stmt} {m' : Machine} (h : S.AtTop m v)
    (hv : v.piece = .stmts (s :: ss)) (hext : m.Extends m') :
    S.AtTop m (v.onto (.stmt s) v.walk) ∧
      S.AtTop m' (v.onto (.stmts ss) (walkStmt v.ctx s v.walk)) := by
  have hlive := S.live_parts v h.live
  simp only [Visit.parts, hv, List.forall_mem_cons] at hlive
  refine ⟨⟨hlive.1, h.scopes, h.around, h.current⟩, hlive.2.1, ?_, h.around, ?_⟩
  · have hlength := (Visit.scopes_after (v.onto (.stmt s) v.walk)).1.2
    exact List.eq_nil_of_length_eq_zero (hlength.trans (by simp [h.scopes]))
  · rw [hext.current, h.current, hext.globals]

/-- The statements of a program keep the invariant one after the other. -/
theorem does_runAll {ss : List Stmt} (hm : S.Inv m) (htop : S.AtTop m v)
    (hv : v.piece = .stmts ss) (hrec : ∀ μ ∈ m.starts b ss, S.Records μ) :
    S.Does (·.runAll b ss) m := by
  induction ss generalizing m v with
  | nil => exact ⟨hm, .refl m, fun _ _ => rfl⟩
  | cons s ss ih =>
    -- The next statement starts where the first has left the machine, and still at the top level.
    rw [Machine.starts, List.forall_mem_cons] at hrec
    have hfirst := does_runTop hm (htop.rest hv (.refl m)).1 rfl hrec.1
    have hrest := ih hfirst.inv (htop.rest hv hfirst.grown).2 rfl hrec.2
    refine ⟨hrest.inv, hfirst.grown.trans hrest.grown, fun d hd => ?_⟩
    simp only [Machine.runAll, hfirst.lockstep d hd, hrest.lockstep d hd]

/-- The statements of a program start at good moments. -/
theorem good_starts {ss : List Stmt} (hm : S.Inv m) (htop : S.AtTop m v)
    (hv : v.piece = .stmts ss) (hrec : ∀ μ ∈ m.starts b ss, S.Records μ) :
    ∀ μ ∈ m.starts b ss, S.Good μ := by
  induction ss generalizing m v with
  | nil => simp [Machine.starts]
  | cons s ss ih =>
    rw [Machine.starts, List.forall_mem_cons] at hrec ⊢
    have hfirst := does_runTop hm (htop.rest hv (.refl m)).1 rfl hrec.1
    exact ⟨⟨hm, ⟨_, rfl, (htop.rest hv (.refl m)).1.at⟩, hrec.1⟩,
      ih hfirst.inv (htop.rest hv hfirst.grown).2 rfl hrec.2⟩

variable {j : Job}

/-- A job that was visited keeps the invariant. -/
theorem does_perform (hm : S.Inv m) (htop : S.AtTop m v) (hv : v.piece = j.piece)
    (hrec : ∀ μ ∈ m.jobStarts b j, S.Records μ) : S.Does (·.perform b j) m := by
  cases j with
  | program ss =>
    have hall := does_runAll hm htop hv hrec
    -- Flushing changes nothing but the output.
    have hflush : (m.runAll b ss).1.Extends (m.perform b (.program ss)).1 :=
      ⟨.of_frames_eq rfl rfl (Nat.le_refl _), rfl, rfl, rfl⟩
    refine ⟨hall.inv.extend hflush (hall.inv.still hflush), hall.grown.trans hflush, fun d hd => ?_⟩
    simp only [Machine.perform, Machine.interpret, hall.lockstep d hd]
    rfl
  | expression e =>
    have hruns := serves (.evaluate b e) m v hm ⟨hv, htop.at⟩ (hrec _ List.mem_cons_self)
    have hlock : ∀ d, S.tables d → evaluate b e (m.withTable d) = withTable d (evaluate b e m) :=
      hruns.lockstep
    cases hx : evaluate b e m with
    | ok x m' =>
      obtain ⟨hinv, hext, _⟩ := hruns.ok x m' hx
      have hdone : m.perform b (.expression e) = (m', ⟨some x, []⟩) := by
        simp only [Machine.perform, Machine.evaluate, hx]
      refine .of_eq hdone hinv hext fun d hd => ?_
      simp only [Machine.perform, Machine.evaluate, hlock d hd, hx, withTable]
    | error e' m' =>
      obtain ⟨hinv, hext⟩ := hruns.error e' m' hx
      have hdone : m.perform b (.expression e) = (m', ⟨none, [.ofFailure e']⟩) := by
        simp only [Machine.perform, Machine.evaluate, hx]
      refine .of_eq hdone hinv hext fun d hd => ?_
      simp only [Machine.perform, Machine.evaluate, hlock d hd, hx, withTable]

/-- The parts of a job start at good moments. -/
theorem good_jobStarts (hm : S.Inv m) (htop : S.AtTop m v) (hv : v.piece = j.piece)
    (hrec : ∀ μ ∈ m.jobStarts b j, S.Records μ) : ∀ μ ∈ m.jobStarts b j, S.Good μ := by
  cases j with
  | program ss => exact good_starts hm htop hv hrec
  | expression e =>
    intro μ hμ
    have hrec' := hrec μ hμ
    obtain rfl := List.mem_singleton.mp hμ
    exact ⟨hm, ⟨v, hv, htop.at⟩, hrec'⟩

end Lox.Eval.Setting

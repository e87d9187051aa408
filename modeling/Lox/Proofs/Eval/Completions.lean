import Lox.Eval
import Lox.Proofs.Scoping.Recording

/-!
# How statements complete

Scoping objects to `return` outside functions, and to `return` with a value in an initializer. So a
statement that was visited without a violation completes in a way that the function around it allows
(`Body.Allows`): at the top level always normally, and in an initializer normally or with `nil`. The
proof goes by induction on the budget, and follows the visits of the parts of a statement.
-/

namespace Lox

open Scoping

/-- The ways in which statements complete that the function around them allows. -/
def Scoping.Body.Allows : Body → Flow → Prop
  | .none, flow => flow = .normal
  | .initializer, flow => flow = .normal ∨ flow = .result .nil
  | .function, _ => True

/-- A statement may always complete normally. -/
theorem Scoping.Body.allows_normal (body : Body) : body.Allows .normal := by
  cases body with
  | none => exact rfl
  | function => trivial
  | initializer => exact .inl rfl

/-- Wherever it starts, what a step gives satisfies a condition. -/
def Exec.Ends {α : Type} (P : α → Prop) (x : Exec α) : Prop :=
  ∀ m a m', x m = .ok a m' → P a

namespace Exec.Ends

variable {α β : Type} {P : α → Prop} {Q : β → Prop} {x : Exec α} {f : α → Exec β}

/-- A value that is given ends the action. -/
theorem pure {a : α} (h : P a) : Ends P (Pure.pure a) := by
  intro m a' m' ha
  cases ha
  exact h

/-- A failure gives no value. -/
theorem throw (e : Failure) : Ends P (throw e : Exec α) := by
  intro m a m' ha
  contradiction

/-- One action ends after the other. -/
theorem bind (hx : Ends P x) (hf : ∀ a, P a → Ends Q (f a)) : Ends Q (x >>= f) := by
  intro m b m' hb
  cases hm : x m with
  | error e m₁ =>
    rw [bind_of_error hm] at hb
    contradiction
  | ok a m₁ =>
    rw [bind_of_ok hm] at hb
    exact hf a (hx m a m₁ hm) m₁ b m' hb

/-- What a step gives may not matter for what follows. -/
theorem next (hf : ∀ a, Ends Q (f a)) : Ends Q (x >>= f) :=
  bind (P := fun _ => True) (fun _ _ _ _ => trivial) fun a _ => hf a

/-- An action in a frame ends as it does. -/
theorem inFrame (h : Ends P x) (k : FrameId) : Ends P (Exec.inFrame k x) := by
  intro m a m' ha
  unfold Exec.inFrame at ha
  dsimp only at ha
  split at ha
  · next hx =>
    cases ha
    exact h _ _ _ hx
  · contradiction

end Exec.Ends

namespace Eval

open Exec (Ends)

variable {b : Nat} {ctx : Context} {w : Walk} {around : List Construct}

/-- With a budget, statements that are visited without a violation complete as the function around
them allows. -/
def Orderly (b : Nat) : Prop :=
  ∀ ⦃ctx : Context⦄ ⦃s : Stmt⦄ ⦃w : Walk⦄ ⦃around : List Construct⦄,
    (Visit.mk ctx (.stmt s) w around).after.violations = [] → Ends ctx.body.Allows (execute b s)

/-- Statements in order complete as each of them may. -/
theorem ends_runAll (h : Orderly b) {ss : List Stmt}
    (hclean : (Visit.mk ctx (.stmts ss) w around).after.violations = []) :
    Ends ctx.body.Allows (runAll (execute b) ss) := by
  induction ss generalizing w with
  | nil => exact .pure ctx.body.allows_normal
  | cons s ss ih =>
    have hparts := Visit.clean_parts hclean
    simp only [Visit.parts, List.forall_mem_cons] at hparts
    obtain ⟨hs, hss, _⟩ := hparts
    refine .bind (h hs) fun flow hflow => ?_
    cases flow with
    | normal => exact ih hss
    | result x => exact .pure hflow

/-- A `return` with a value stands in a function that is not an initializer. -/
theorem body_of_result {keyword : Token} {e : Expr}
    (hclean : (Visit.mk ctx (.stmt (.result keyword (some e))) w around).after.violations = []) :
    ctx.body = .function := by
  have hpart := Visit.clean_parts hclean _ List.mem_cons_self
  have hnone := List.prefix_nil.mp (hpart ▸ Visit.violations_after _)
  cases h : ctx.body with
  | function => rfl
  | none => simp [h, Walk.violate] at hnone
  | initializer => simp [h, Walk.violate] at hnone

/-- A `return` without a value stands in a function. -/
theorem allows_bareResult {keyword : Token}
    (hclean : (Visit.mk ctx (.stmt (.result keyword none)) w around).after.violations = []) :
    ctx.body.Allows (.result .nil) := by
  cases h : ctx.body with
  | none => simp [Visit.after, walkStmt, h, Walk.violate] at hclean
  | function => trivial
  | initializer => exact .inr rfl

/-- What a loop does with a larger budget. -/
theorem ends_loop (h : Orderly b) {c : Expr} {s : Stmt}
    (hloop : Ends ctx.body.Allows (loop b c s))
    (hclean : (Visit.mk ctx (.stmt (.loop c s)) w around).after.violations = []) :
    Ends ctx.body.Allows (loop (b + 1) c s) := by
  have hparts := Visit.clean_parts hclean
  simp only [Visit.parts, Visit.stmtParts, List.forall_mem_cons] at hparts
  refine .next fun x => ?_
  split
  · refine .bind (h hparts.2.1) fun flow hflow => ?_
    cases flow with
    | normal => exact hloop
    | result y => exact .pure hflow
  · exact .pure ctx.body.allows_normal

/-- What a statement does with a larger budget. -/
theorem Orderly.succ (h : Orderly b)
    (hloop : ∀ ⦃ctx : Context⦄ ⦃c : Expr⦄ ⦃s : Stmt⦄ ⦃w : Walk⦄ ⦃around : List Construct⦄,
      (Visit.mk ctx (.stmt (.loop c s)) w around).after.violations = [] →
        Ends ctx.body.Allows (loop b c s)) : Orderly (b + 1) := by
  intro ctx s w around hclean
  have hparts := Visit.clean_parts hclean
  cases s with
  | expression e => exact .next fun _ => .pure ctx.body.allows_normal
  | print e => exact .next fun _ => .next fun _ => .next fun _ => .pure ctx.body.allows_normal
  | declare ds => exact .next fun _ => .pure ctx.body.allows_normal
  | block ss =>
    simp only [Visit.parts, Visit.stmtParts, List.forall_mem_cons] at hparts
    exact .next fun _ => .next fun k => .inFrame (ends_runAll h hparts.1) k
  | branch c t e =>
    refine .next fun x => ?_
    cases e <;> simp only [Visit.parts, Visit.stmtParts, List.forall_mem_cons] at hparts
    · split
      · exact h hparts.2.1
      · exact .pure ctx.body.allows_normal
    · split
      · exact h hparts.2.1
      · exact h hparts.2.2.1
  | loop c s => exact hloop hclean
  | function f => exact .next fun _ => .next fun _ => .pure ctx.body.allows_normal
  | result keyword e =>
    cases e with
    | none => exact .pure (allows_bareResult hclean)
    | some e =>
      refine .next fun x => .pure ?_
      rw [body_of_result hclean]
      trivial
  | «class» c => exact .next fun _ => .pure ctx.body.allows_normal

/-- Every budget is orderly, and so is every loop within it. -/
theorem orderly_budget (b : Nat) : Orderly b ∧
    ∀ ⦃ctx : Context⦄ ⦃c : Expr⦄ ⦃s : Stmt⦄ ⦃w : Walk⦄ ⦃around : List Construct⦄,
      (Visit.mk ctx (.stmt (.loop c s)) w around).after.violations = [] →
        Ends ctx.body.Allows (loop b c s) := by
  induction b with
  | zero => exact ⟨fun _ _ _ _ _ => .throw _, fun _ _ _ _ _ _ => .throw _⟩
  | succ b ih =>
    obtain ⟨h, hloop⟩ := ih
    exact ⟨h.succ hloop, fun _ _ _ _ _ hclean => ends_loop h (hloop hclean) hclean⟩

/-- A statement that was visited without a violation completes as the function around it allows. -/
theorem ends_execute {s : Stmt} (hclean : (Visit.mk ctx (.stmt s) w around).after.violations = [])
    (b : Nat) : Ends ctx.body.Allows (execute b s) :=
  (orderly_budget b).1 hclean

/-- So does the body of a function. -/
theorem ends_body {f : FunctionDecl}
    (hclean : (Visit.mk ctx (.function f) w around).after.violations = []) (b : Nat) :
    Ends ctx.body.Allows (runAll (execute b) f.body) :=
  ends_runAll (orderly_budget b).1 (Visit.clean_parts hclean _ List.mem_cons_self)

end Eval

end Lox

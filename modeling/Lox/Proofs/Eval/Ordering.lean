import Lox.Proofs.Eval.Growth
import Lox.Proofs.Scoping.Nesting

/-!
# Moments in order

The moments that a moment leads to come one after the other: a moment starts on the machine on which
the one before it has ended (`Calls.ordered`). As frames are never removed, what is made within one
of them is not made within another. So the frame of a block or a call is made at one moment only
(`Moment.Creates.unique`).
-/

namespace Lox.Eval

open Exec Scoping

variable {μ μ' μ₁ μ₂ : Moment} {k : FrameId}

/-- Where a name was bound, the context is as it was. -/
theorem restores_define {name : String} {v : Value} {m m₁ : Machine}
    (h : define name v m = .ok () m₁) : m.Restores (fun _ => False) m₁ := by
  obtain ⟨-, rfl⟩ := EStateM.Result.ok.inj h
  exact ⟨.define _ id v, rfl, rfl, rfl⟩

/-- Every moment within a moment starts with the frames and the distances that were there. -/
theorem Moment.Reaches.keeps (h : μ.Reaches μ') :
    μ.machine.Keeps μ'.machine ∧ μ'.machine.distances = μ.machine.distances := by
  induction h with
  | refl => exact ⟨.of_frames_eq rfl rfl (Nat.le_refl _), rfl⟩
  | tail _ hcall ih =>
    exact ⟨ih.1.trans hcall.keeps.1, hcall.keeps.2.trans ih.2⟩

/-- When a moment has ended there are at most as many frames as when another one starts. -/
def Moment.Precedes (μ μ' : Moment) : Prop :=
  μ.final.heap.frames.size ≤ μ'.machine.heap.frames.size

/-- A moment precedes those that start on a machine that comes after the one on which it ends. -/
theorem Moment.precedes_of_restores {t : Task} {a : t.Result} {keep : String → Prop}
    {m m₁ m₂ : Machine} (h : t.run m = .ok a m₁) (h₁ : m₁.Restores keep m₂) (t₂ : Task) :
    Moment.Precedes ⟨t, m⟩ ⟨t₂, m₂⟩ := by
  unfold Precedes final
  rw [h]
  exact h₁.size

/-- The moments that a moment leads to come one after the other. -/
theorem Calls.ordered (h₁ : Calls μ μ₁) (h₂ : Calls μ μ₂) :
    μ₁ = μ₂ ∨ μ₁.Precedes μ₂ ∨ μ₂.Precedes μ₁ := by
  have heval {b : Nat} {e : Expr} {v : Value} {m m₁ m₂ : Machine} {t : Task}
      (he : evaluate b e m = .ok v m₁) (h : m₁.Restores (fun _ => False) m₂) :
      Moment.Precedes ⟨.evaluate b e, m⟩ ⟨t, m₂⟩ :=
    Moment.precedes_of_restores (t := .evaluate b e) he h t
  cases h₁ <;> cases h₂ <;> try exact .inl rfl
  -- Moments of one kind start on one machine, and most others start where one of them has ended.
  all_goals try (simp_all [Moment.Precedes, Moment.final, Task.run, final]; done)
  -- Between the others there is a third one, or a name is bound.
  case callee.call hes hf =>
    exact .inr (.inl (heval hf (Task.restores (t := .evaluateAll _ _) hes)))
  case call.callee hf hes =>
    exact .inr (.inr (heval hf (Task.restores (t := .evaluateAll _ _) hes)))
  case setIndexObject.setIndexValue hk ho =>
    exact .inr (.inl (heval ho (Task.restores (t := .evaluate _ _) hk)))
  case setIndexValue.setIndexObject ho hk =>
    exact .inr (.inr (heval ho (Task.restores (t := .evaluate _ _) hk)))
  case loopCondition.loopAgain _ hs hc =>
    exact .inr (.inl (heval hc (Task.restores (t := .execute _ _) hs)))
  case loopAgain.loopCondition hc _ hs =>
    exact .inr (.inr (heval hc (Task.restores (t := .execute _ _) hs)))
  case initializer.afterInitializer hd he => exact .inr (.inl (heval he (restores_define hd)))
  case afterInitializer.initializer he hd => exact .inr (.inr (heval he (restores_define hd)))

/-! ## Frames of blocks and calls -/

/-- The frame of a block or a call is made before anything else happens there. -/
theorem Moment.Creates.starts {c : Construct} (h : μ.Creates k c) (hc : c.isInner) :
    k = μ.machine.heap.frames.size ∧ (∃ μ', Calls μ μ') ∧
      ∀ μ', Calls μ μ' → k < μ'.machine.heap.frames.size := by
  cases h with
  | block =>
    refine ⟨rfl, ⟨_, .block rfl⟩, fun μ' hcall => ?_⟩
    cases hcall with
    | block hk =>
      obtain ⟨rfl, rfl⟩ := EStateM.Result.ok.inj hk
      simp
  | call =>
    refine ⟨rfl, ⟨_, .body rfl⟩, fun μ' hcall => ?_⟩
    cases hcall with
    | body hk =>
      obtain ⟨rfl, rfl⟩ := EStateM.Result.ok.inj hk
      simp
  | receiver _ => contradiction
  | inheritance _ _ => contradiction

/-- When the moment has ended, the frame exists. -/
theorem Moment.Creates.lt_final {c : Construct} (h : μ.Creates k c) (hc : c.isInner) :
    k < μ.final.heap.frames.size := by
  obtain ⟨_, ⟨μ', hcall⟩, hlt⟩ := h.starts hc
  calc k < μ'.machine.heap.frames.size := hlt μ' hcall
    _ ≤ μ'.final.heap.frames.size := μ'.avoids_none.restores.size
    _ ≤ μ.final.heap.frames.size := (μ.avoids_none.later (.single hcall)).size

/-- What is made within a moment is not made within one that it precedes. -/
theorem Moment.Precedes.disjoint (h : μ.Precedes μ') {c c' : Construct} {k' : FrameId}
    (h₁ : μ.Reaches μ₁) (hc₁ : μ₁.Creates k c) (hc : c.isInner) (h₂ : μ'.Reaches μ₂)
    (hc₂ : μ₂.Creates k' c') (hc' : c'.isInner) : k < k' := by
  calc k < μ₁.final.heap.frames.size := hc₁.lt_final hc
    _ ≤ μ.final.heap.frames.size := (μ.avoids_none.later h₁).size
    _ ≤ μ'.machine.heap.frames.size := h
    _ ≤ μ₂.machine.heap.frames.size := h₂.keeps.1.size
    _ = k' := (hc₂.starts hc').1.symm

/-- A frame of a block or a call is made at one moment only. -/
theorem Moment.Creates.unique {c₁ c₂ : Construct} (h₁ : μ.Reaches μ₁) (hc₁ : μ₁.Creates k c₁)
    (hinner₁ : c₁.isInner) (h₂ : μ.Reaches μ₂) (hc₂ : μ₂.Creates k c₂) (hinner₂ : c₂.isInner) :
    μ₁ = μ₂ := by
  induction μ using Moment.induction with
  | step μ ih =>
  -- A moment within the one that makes a frame starts when that frame exists.
  have hlater {μ₁ μ₂ χ : Moment} {c₁ c₂ : Construct} (hc₁ : μ₁.Creates k c₁) (hinner₁ : c₁.isInner)
      (hcall : Calls μ₁ χ) (hreach : χ.Reaches μ₂) (hc₂ : μ₂.Creates k c₂) (hinner₂ : c₂.isInner) :
      False := by
    have hlt := (hc₁.starts hinner₁).2.2 χ hcall
    have hle := hreach.keeps.1.size
    rw [← (hc₂.starts hinner₂).1] at hle
    exact absurd hlt (Nat.not_lt.mpr hle)
  obtain rfl | ⟨χ₁, hcall₁, hreach₁⟩ := h₁.cases_head
  · obtain rfl | ⟨χ₂, hcall₂, hreach₂⟩ := h₂.cases_head
    · rfl
    · exact (hlater hc₁ hinner₁ hcall₂ hreach₂ hc₂ hinner₂).elim
  · obtain rfl | ⟨χ₂, hcall₂, hreach₂⟩ := h₂.cases_head
    · exact (hlater hc₂ hinner₂ hcall₁ hreach₁ hc₁ hinner₁).elim
    · obtain rfl | hprecedes | hprecedes := hcall₁.ordered hcall₂
      · exact ih χ₁ hcall₁ hreach₁ hreach₂
      · exact absurd (hprecedes.disjoint hreach₁ hc₁ hinner₁ hreach₂ hc₂ hinner₂) (Nat.lt_irrefl k)
      · exact absurd (hprecedes.disjoint hreach₂ hc₂ hinner₂ hreach₁ hc₁ hinner₁) (Nat.lt_irrefl k)

end Lox.Eval

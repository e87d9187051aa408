import Lox.Proofs.Eval.Restoring

/-!
# How frames grow

A frame that exists gains a name only where that name is declared and the frame is the current one
(`Moment.gains`). The current frame always exists: a task within a task starts in the same frame, or
in one that was just made (`Moment.Reaches.current_lt`).
-/

namespace Lox.Eval

open Exec

variable {μ μ' : Moment} {fs fs' : Frames} {k : FrameId} {name : String}

/-- A change takes no frame away. -/
theorem Moment.Changes.size_le (h : μ.Changes fs fs') : fs.size ≤ fs'.size := by
  cases h <;> simp

/-- Frames that exist gain a name only by a declaration of it. -/
theorem Moment.Changes.gains (h : μ.Changes fs fs') (hk : k < fs.size)
    (hnone : fs.local? k name = none) (hsome : (fs'.local? k name).isSome) :
    μ.Declares name ∧ μ.machine.current = k := by
  have hpush {frame : Frame} (hpushed : ((fs.push frame).local? k name).isSome) : False := by
    rw [Frames.local?_push, if_neg (Nat.ne_of_lt hk), hnone] at hpushed
    contradiction
  have hdefine {k' : FrameId} {name' : String} {value : Value}
      (hdefined : ((fs.define k' name' value).local? k name).isSome) : k = k' ∧ name = name' := by
    rw [Frames.local?_define] at hdefined
    split at hdefined
    · next h => exact ⟨h.1, h.2.2⟩
    · rw [hnone] at hdefined
      contradiction
  cases h with
  | block => exact (hpush hsome).elim
  | call => exact (hpush hsome).elim
  | receiver => exact (hpush hsome).elim
  | inheritance _ _ => exact (hpush hsome).elim
  | declare h value =>
    obtain ⟨rfl, rfl⟩ := hdefine hsome
    exact ⟨h, rfl⟩
  | assign h hbound value =>
    obtain ⟨rfl, rfl⟩ := hdefine hsome
    rw [hnone] at hbound
    contradiction

/-- So do frames that change step by step. -/
theorem Evolves.gains {W : Moment → Prop} (h : Evolves W fs fs') (hk : k < fs.size)
    (hnone : fs.local? k name = none) (hsome : (fs'.local? k name).isSome) :
    ∃ μ, W μ ∧ μ.Declares name ∧ μ.machine.current = k := by
  -- The name is gained in the first step, or else it is still to be gained after it.
  induction h using Relation.ReflTransGen.head_induction_on with
  | refl =>
    rw [hnone] at hsome
    contradiction
  | @head fs₁ fs₂ hstep _ ih =>
    obtain ⟨μ, hμ, hchange⟩ := hstep
    by_cases hfirst : (fs₂.local? k name).isSome
    · exact ⟨μ, hμ, hchange.gains hk hnone hfirst⟩
    · exact ih (Nat.lt_of_lt_of_le hk hchange.size_le) (by simpa using hfirst)

/-- Over a task, a frame that exists gains a name only at a moment that declares it, and the frame
is the current one there. -/
theorem Moment.gains (μ : Moment) (hk : k < μ.machine.heap.frames.size)
    (hnone : μ.machine.heap.frames.local? k name = none)
    (hsome : (μ.final.heap.frames.local? k name).isSome) :
    ∃ μ', μ.Reaches μ' ∧ μ'.Declares name ∧ μ'.machine.current = k :=
  μ.evolves.gains hk hnone hsome

end Lox.Eval

namespace Lox

/-- The current frame still exists where the context is restored. -/
theorem Machine.Restores.current_lt {keep : String → Prop} {m m' : Machine}
    (h : m.Restores keep m') (hm : m.current < m.heap.frames.size) :
    m'.current < m'.heap.frames.size := by
  rw [h.current]
  exact Nat.lt_of_lt_of_le hm h.size

namespace Eval

open Exec

variable {μ μ' : Moment}

/-- A frame that was just made exists. -/
theorem lt_size_of_newFrame {outer k : FrameId} {bindings : Bindings} {m m₁ : Machine}
    (h : newFrame outer bindings m = .ok k m₁) : k < m₁.heap.frames.size := by
  obtain ⟨rfl, rfl⟩ := EStateM.Result.ok.inj h
  simp

/-- If the current frame of a moment exists, so does that of a moment that it leads to. -/
theorem Calls.current_lt (h : Calls μ μ')
    (hμ : μ.machine.current < μ.machine.heap.frames.size) :
    μ'.machine.current < μ'.machine.heap.frames.size := by
  -- What a task ran before it restores the context, so only new frames need a look.
  have heval {b : Nat} {e : Expr} {v : Value} {m m₁ : Machine}
      (he : evaluate b e m = .ok v m₁) := (Task.restores (t := .evaluate b e) he).current_lt
  have hexec {b : Nat} {s : Stmt} {flow : Flow} {m m₁ : Machine}
      (hs : execute b s m = .ok flow m₁) := (Task.restores (t := .execute b s) hs).current_lt
  have hdefine {name : String} {v : Value} {m m₁ : Machine}
      (hd : define name v m = .ok () m₁) (hm : m.current < m.heap.frames.size) :
      m₁.current < m₁.heap.frames.size := by
    obtain ⟨-, rfl⟩ := EStateM.Result.ok.inj hd
    simpa using hm
  cases h with
  | binaryRight hl => exact heval hl hμ
  | logicalRight hl _ => exact heval hl hμ
  | arguments hf => exact heval hf hμ
  | call hf hes =>
    exact (Task.restores (t := .evaluateAll _ _) hes).current_lt (heval hf hμ)
  | getMethod ho _ _ _ => exact heval ho hμ
  | setValue ho => exact heval ho hμ
  | indexKey ho => exact heval ho hμ
  | setIndexKey ho => exact heval ho hμ
  | setIndexValue ho hk => exact heval hk (heval ho hμ)
  | tailExpressions he => exact heval he hμ
  | tailEntries he => exact heval he hμ
  | bindInit _ ho =>
    obtain ⟨-, rfl⟩ := EStateM.Result.ok.inj ho
    exact hμ
  | callInit _ ho hbound =>
    obtain ⟨-, rfl⟩ := EStateM.Result.ok.inj ho
    exact (Task.restores (t := .bind _ _) hbound).current_lt hμ
  | body hframe =>
    have hlt := lt_size_of_newFrame hframe
    exact hlt
  | block hframe =>
    have hlt := lt_size_of_newFrame hframe
    exact hlt
  | thenBranch hc _ => exact heval hc hμ
  | elseBranch hc _ => exact heval hc hμ
  | tailStatements hs => exact hexec hs hμ
  | loopBody hc _ => exact heval hc hμ
  | loopAgain hc _ hs => exact hexec hs (heval hc hμ)
  | afterInitializer he hd => exact hdefine hd (heval he hμ)
  | afterName hd => exact hdefine hd hμ
  | tailClasses hx => exact eq_of_getFrom hx ▸ hμ
  | _ => exact hμ

/-- The current frame exists at every moment within one at which it does. -/
theorem Moment.Reaches.current_lt (h : μ.Reaches μ')
    (hμ : μ.machine.current < μ.machine.heap.frames.size) :
    μ'.machine.current < μ'.machine.heap.frames.size := by
  induction h with
  | refl => exact hμ
  | tail _ hcall ih => exact hcall.current_lt ih

end Eval

end Lox

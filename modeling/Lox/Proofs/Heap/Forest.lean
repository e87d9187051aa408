import Lox.Proofs.Eval.Alignment

/-!
# The forest of frames

Every frame but a root lies within a frame that was made before it. So the frames form a tree, and
every chain of them ends at the root (`Frames.Rooted`). A frame is referred to by the machine, by
the frames within it, and by the functions in the values that the heap stores (`Machine.Refers`).
-/

namespace Lox

namespace Frames

variable {fs fs' : Frames} {root : FrameId}

/-- The frames form a tree: all but the root lie within frames that were made earlier. -/
structure Rooted (fs : Frames) (root : FrameId) : Prop where
  /-- The root exists. -/
  lt_size : root < fs.size
  /-- It lies within no frame. -/
  outermost : fs.enclosing? root = none
  /-- The other frames lie within earlier ones. -/
  linked : ∀ k < fs.size, k ≠ root → ∃ outer < k, fs.enclosing? k = some outer

namespace Rooted

/-- A new frame may lie within any of the frames. -/
theorem push (h : fs.Rooted root) {outer : FrameId} (houter : outer < fs.size)
    (bindings : Bindings) : (fs.push ⟨bindings, some outer⟩).Rooted root where
  lt_size := by
    rw [size_push]
    exact Nat.lt_succ_of_lt h.lt_size
  outermost := by rw [enclosing?_push, if_neg (Nat.ne_of_lt h.lt_size), h.outermost]
  linked k hk hne := by
    rw [size_push] at hk
    rw [enclosing?_push]
    split
    · next hlast => exact ⟨outer, hlast ▸ houter, rfl⟩
    · next hold => exact h.linked k (Nat.lt_of_le_of_ne (Nat.le_of_lt_succ hk) hold) hne

/-- Binding a name keeps the root. -/
theorem define (h : fs.Rooted root) (k : FrameId) (name : String) (value : Value) :
    (fs.define k name value).Rooted root where
  lt_size := by simpa using h.lt_size
  outermost := by simpa using h.outermost
  linked := by simpa using h.linked

/-- The frames that were there before others were made form a tree too. -/
theorem earlier (h : fs'.Rooted root) (hroot : root < fs.size) (hsize : fs.size ≤ fs'.size)
    (henclosing : ∀ k < fs.size, fs'.enclosing? k = fs.enclosing? k) : fs.Rooted root where
  lt_size := hroot
  outermost := (henclosing root hroot).symm.trans h.outermost
  linked k hk hne := by
    rw [← henclosing k hk]
    exact h.linked k (Nat.lt_of_lt_of_le hk hsize) hne

/-- The frame around a frame is older. -/
theorem lt_of_enclosing? (h : fs.Rooted root) {k outer : FrameId}
    (hk : fs.enclosing? k = some outer) : outer < k := by
  have hne : k ≠ root := by
    rintro rfl
    rw [h.outermost] at hk
    contradiction
  obtain ⟨outer', hlt, houter⟩ := h.linked k (lt_size_of_enclosing? _ hk) hne
  obtain rfl := Option.some.inj (hk.symm.trans houter)
  exact hlt

/-- The chain from any frame ends at the root. -/
theorem exists_ancestor? (h : fs.Rooted root) {k : FrameId} (hk : k < fs.size) :
    ∃ n, fs.ancestor? k n = some root := by
  -- By strong induction: a link leads to an earlier frame.
  induction k using Nat.strong_induction_on with
  | _ k ih =>
    by_cases hroot : k = root
    · exact ⟨0, congrArg some hroot⟩
    · obtain ⟨outer, hlt, houter⟩ := h.linked k hk hroot
      obtain ⟨n, hn⟩ := ih outer hlt (Nat.lt_trans hlt hk)
      exact ⟨n + 1, by rw [ancestor?, houter]; exact hn⟩

end Rooted

end Frames

/-- The functions in a value. -/
def Value.functions : Value → List Function
  | .function _ f => [f]
  | .class c => c.functions
  | _ => []

/-- A value is stored in a heap. -/
inductive Heap.Stores (h : Heap) : Value → Prop
  /-- A name is bound to it. -/
  | bound {k : FrameId} {name : String} {v : Value} (hv : h.frames.local? k name = some v) :
      Stores h v
  /-- It is the class of an object. -/
  | class {object : Object} (ho : object ∈ h.objects) : Stores h (.class object.cls)
  /-- It is a field of an object. -/
  | field {object : Object} {name : String} {v : Value} (ho : object ∈ h.objects)
      (hv : object.fields.lookup name = some v) : Stores h v
  /-- It is an element of an array. -/
  | element {elements : Array Value} {v : Value} (he : elements ∈ h.arrays) (hv : v ∈ elements) :
      Stores h v

/-- What holds of all that is in a heap holds of what it stores. -/
theorem Heap.Holds.of_stores {P : Value → Prop} {h : Heap} (hh : h.Holds P) {v : Value}
    (hv : h.Stores v) : P v := by
  cases hv with
  | bound hv => exact hh.bound _ _ _ hv
  | «class» ho => exact hh.classes _ ho
  | field ho hv => exact hh.fields _ ho _ _ hv
  | element he hv => exact hh.elements _ he _ hv

namespace Machine

/-- A machine refers to a frame. -/
inductive Refers (m : Machine) : FrameId → Prop
  /-- It is the current frame. -/
  | current : Refers m m.current
  /-- It is the global frame. -/
  | globals : Refers m m.globals
  /-- A frame lies within it. -/
  | enclosing {k outer : FrameId} (h : m.heap.frames.enclosing? k = some outer) : Refers m outer
  /-- A function in a stored value was made in it. -/
  | closure {v : Value} {f : Function} (hv : m.heap.Stores v) (hf : f ∈ v.functions) :
      Refers m f.frame
  /-- A method of written-out objects was made in it. -/
  | objectClass {f : Function} (hf : f ∈ m.objectClass.functions) : Refers m f.frame

/-- The frames of a machine form a forest with the global frame as its root, and none that is
referred to is missing. -/
structure Forest (m : Machine) : Prop where
  /-- The global frame lies within no frame. -/
  outermost : m.heap.frames.enclosing? m.globals = none
  /-- A frame lies within one that was made strictly earlier. -/
  earlier : ∀ k outer, m.heap.frames.enclosing? k = some outer → outer < k
  /-- Every chain ends at the global frame. -/
  chains : ∀ k < m.heap.frames.size, ∃ n, m.heap.frames.ancestor? k n = some m.globals
  /-- Every frame that is referred to exists. -/
  refers : ∀ k, m.Refers k → k < m.heap.frames.size

end Machine

end Lox

import Lox.Proofs.Eval.Alignment
import Lox.Proofs.Eval.Moments

/-!
# What comes after a machine

A machine that comes after another one still has what the program has made: a frame keeps its place
in its chain and the names it binds, an object keeps its class, and an array its length.
`Machine.Later` says so, and that names of a certain kind keep their values in every frame.
`Machine.Restores` says moreover that the machine is in the same frame as before, and has the same
table of distances and class of written-out objects. `Machine.Beside` is for steps that leave the
frames alone.
-/

namespace Lox

namespace Machine

/-- The machine `m'` comes after `m`. The names in `keep` have the values that they had. -/
structure Later (keep : String → Prop) (m m' : Machine) : Prop extends m.Keeps m' where
  /-- A kept name has the same value, or still none. -/
  kept : ∀ k < m.heap.frames.size, ∀ name, keep name →
    m'.heap.frames.local? k name = m.heap.frames.local? k name
  /-- An object keeps its class. -/
  objects : ∀ (id : ObjectId) (o : Object), m.heap.objects[id]? = some o →
    ∃ o', m'.heap.objects[id]? = some o' ∧ o'.cls = o.cls
  /-- An array keeps its length. -/
  arrays : ∀ (id : ArrayId) (a : Array Value), m.heap.arrays[id]? = some a →
    ∃ a', m'.heap.arrays[id]? = some a' ∧ a'.size = a.size

/-- The machine `m'` comes after `m` and has the same context. -/
structure Restores (keep : String → Prop) (m m' : Machine) : Prop extends m.Later keep m' where
  /-- The current frame is the same. -/
  current : m'.current = m.current
  /-- The distances are the same. -/
  distances : m'.distances = m.distances
  /-- The class of written-out objects is the same. -/
  objectClass : m'.objectClass = m.objectClass

/-- The machine `m'` comes after `m` and has the same frames. -/
structure Beside (m m' : Machine) : Prop where
  /-- The frames are the same. -/
  frames : m'.heap.frames = m.heap.frames
  /-- The global frame is the same. -/
  globals : m'.globals = m.globals
  /-- The distances are the same. -/
  distances : m'.distances = m.distances
  /-- The class of written-out objects is the same. -/
  objectClass : m'.objectClass = m.objectClass
  /-- No identity is given out again. -/
  identity : m.heap.nextIdentity ≤ m'.heap.nextIdentity
  /-- An object keeps its class. -/
  objects : ∀ (id : ObjectId) (o : Object), m.heap.objects[id]? = some o →
    ∃ o', m'.heap.objects[id]? = some o' ∧ o'.cls = o.cls
  /-- An array keeps its length. -/
  arrays : ∀ (id : ArrayId) (a : Array Value), m.heap.arrays[id]? = some a →
    ∃ a', m'.heap.arrays[id]? = some a' ∧ a'.size = a.size

variable {keep : String → Prop} {m m' m'' : Machine}

namespace Beside

/-- The current frame, output, the clock and identities may change. -/
theorem aside (current : FrameId) (sink : Sink) (clock : Clock) {identity : Nat}
    (hidentity : m.heap.nextIdentity ≤ identity) :
    m.Beside { m with
      current := current, sink := sink, clock := clock, heap.nextIdentity := identity } :=
  ⟨rfl, rfl, rfl, rfl, hidentity, fun _ o ho => ⟨o, ho, rfl⟩, fun _ a ha => ⟨a, ha, rfl⟩⟩

/-- An object may be made. -/
theorem newObject (object : Object) :
    m.Beside { m with heap.objects := m.heap.objects.push object } := by
  refine ⟨rfl, rfl, rfl, rfl, Nat.le_refl _, fun id o ho => ?_, fun _ a ha => ⟨a, ha, rfl⟩⟩
  have hid := (Array.getElem?_eq_some_iff.mp ho).1
  refine ⟨o, ?_, rfl⟩
  rw [Array.getElem?_push_lt hid, ← Array.getElem?_eq_getElem hid, ho]

/-- A field may get a value. -/
theorem setField (id : ObjectId) (name : String) (value : Value) :
    m.Beside { m with heap.objects := m.heap.objects.modify id fun object =>
      { object with fields := Bindings.insert name value object.fields } } := by
  refine ⟨rfl, rfl, rfl, rfl, Nat.le_refl _, fun id' o ho => ?_, fun _ a ha => ⟨a, ha, rfl⟩⟩
  rw [Array.getElem?_modify]
  split
  · exact ⟨_, congrArg _ ho, rfl⟩
  · exact ⟨o, ho, rfl⟩

/-- An array may be made. -/
theorem newArray (elements : Array Value) :
    m.Beside { m with heap.arrays := m.heap.arrays.push elements } := by
  refine ⟨rfl, rfl, rfl, rfl, Nat.le_refl _, fun _ o ho => ⟨o, ho, rfl⟩, fun id a ha => ?_⟩
  have hid := (Array.getElem?_eq_some_iff.mp ha).1
  refine ⟨a, ?_, rfl⟩
  rw [Array.getElem?_push_lt hid, ← Array.getElem?_eq_getElem hid, ha]

/-- An element may get a value. -/
theorem setElement (id : ArrayId) (index : Nat) (value : Value) :
    m.Beside { m with
      heap.arrays := m.heap.arrays.modify id (·.setIfInBounds index value) } := by
  refine ⟨rfl, rfl, rfl, rfl, Nat.le_refl _, fun _ o ho => ⟨o, ho, rfl⟩, fun id' a ha => ?_⟩
  rw [Array.getElem?_modify]
  split
  · exact ⟨_, congrArg _ ha, Array.size_setIfInBounds ..⟩
  · exact ⟨a, ha, rfl⟩

end Beside

namespace Later

/-- What comes after a machine that comes after another one comes after that one. -/
theorem trans (h : m.Later keep m') (h' : m'.Later keep m'') : m.Later keep m'' where
  toKeeps := h.toKeeps.trans h'.toKeeps
  kept k hk name hname :=
    (h'.kept k (Nat.lt_of_lt_of_le hk h.size) name hname).trans (h.kept k hk name hname)
  objects id o ho := by
    obtain ⟨o₁, ho₁, hcls₁⟩ := h.objects id o ho
    obtain ⟨o₂, ho₂, hcls₂⟩ := h'.objects id o₁ ho₁
    exact ⟨o₂, ho₂, hcls₂.trans hcls₁⟩
  arrays id a ha := by
    obtain ⟨a₁, ha₁, hsize₁⟩ := h.arrays id a ha
    obtain ⟨a₂, ha₂, hsize₂⟩ := h'.arrays id a₁ ha₁
    exact ⟨a₂, ha₂, hsize₂.trans hsize₁⟩

/-- The table of distances may be another one. -/
theorem of_beside {d : Scoping.Distances} (h : (m.withTable d).Beside m') : m.Later keep m' where
  toKeeps := .of_frames_eq h.frames h.globals h.identity
  kept k _ name _ := congrArg (·.local? k name) h.frames
  objects := h.objects
  arrays := h.arrays

/-- A machine with another table of distances has lost nothing. -/
theorem withTable (m : Machine) (d : Scoping.Distances) : m.Later keep (m.withTable d) :=
  .of_beside (d := d) (.aside _ _ _ (Nat.le_refl _))

/-- A machine comes after itself. -/
theorem refl (m : Machine) : m.Later keep m :=
  .withTable m m.distances

/-- A frame may be made. -/
theorem push (frame : Frame) :
    m.Later keep { m with heap.frames := m.heap.frames.push frame } where
  toKeeps := .push m frame
  kept k hk name _ := by rw [Frames.local?_push, if_neg (Nat.ne_of_lt hk)]
  objects id o ho := ⟨o, ho, rfl⟩
  arrays id a ha := ⟨a, ha, rfl⟩

/-- A name that is not kept may be bound. -/
theorem define (k : FrameId) {name : String} (hname : ¬keep name) (value : Value) :
    m.Later keep { m with heap.frames := m.heap.frames.define k name value } where
  toKeeps := .define m k name value
  kept k' _ name' hname' := by
    have hne : name' ≠ name := fun h => hname (h ▸ hname')
    rw [Frames.local?_define, if_neg fun h => hne h.2.2]
  objects id o ho := ⟨o, ho, rfl⟩
  arrays id a ha := ⟨a, ha, rfl⟩

end Later

namespace Restores

/-- A context that is restored twice is restored. -/
theorem trans (h : m.Restores keep m') (h' : m'.Restores keep m'') : m.Restores keep m'' where
  toLater := h.toLater.trans h'.toLater
  current := h'.current.trans h.current
  distances := h'.distances.trans h.distances
  objectClass := h'.objectClass.trans h.objectClass

/-- A machine has its own context. -/
theorem refl (m : Machine) : m.Restores keep m :=
  ⟨.refl m, rfl, rfl, rfl⟩

/-- What leaves the frames alone restores the context, if the current frame is the same. -/
theorem of_beside (h : m.Beside m') (hcurrent : m'.current = m.current) : m.Restores keep m' :=
  ⟨.of_beside (d := m.distances) h, hcurrent, h.distances, h.objectClass⟩

end Restores

end Machine

namespace Eval

/-- The machine when a step has ended, with a result or with a failure. -/
def final {α : Type} : EStateM.Result Failure Machine α → Machine
  | .ok _ m | .error _ m => m

/-- The machine when the task of a moment has ended. -/
def Moment.final (μ : Moment) : Machine :=
  Eval.final (μ.task.run μ.machine)

/-- At a moment a name is bound in a frame that exists already. -/
inductive Moment.Binds : Moment → String → Prop
  | variable {b : Nat} {d : Declarator} {ds : List Declarator} {m : Machine} :
      Binds ⟨.declareAll b (d :: ds), m⟩ d.name.lexeme
  | function {b : Nat} {f : FunctionDecl} {m : Machine} :
      Binds ⟨.execute (b + 1) (.function f), m⟩ f.displayName
  | class {c : ClassDecl} {m : Machine} : Binds ⟨.declareClass c, m⟩ c.name.lexeme
  | assign {b : Nat} {x : Reference} {e : Expr} {m : Machine} :
      Binds ⟨.evaluate (b + 1) (.assign x e), m⟩ x.name.lexeme

/-- No name that is kept is bound within a moment. -/
def Moment.Avoids (keep : String → Prop) (μ : Moment) : Prop :=
  ∀ μ', μ.Reaches μ' → ∀ name, μ'.Binds name → ¬keep name

namespace Moment

variable {keep : String → Prop} {μ μ' : Moment}

/-- What is avoided within a moment is avoided within those that it calls. -/
theorem Avoids.step (h : μ.Avoids keep) (hcall : Calls μ μ') : μ'.Avoids keep :=
  fun μ'' hreach => h μ'' (.head hcall hreach)

/-- A name that a moment binds itself is not kept. -/
theorem Avoids.binds {name : String} (h : μ.Avoids keep) (hname : μ.Binds name) : ¬keep name :=
  h μ .refl name hname

/-- Nothing has to be avoided where nothing is kept. -/
theorem avoids_none (μ : Moment) : μ.Avoids fun _ => False :=
  fun _ _ _ _ => id

end Moment

end Eval

end Lox

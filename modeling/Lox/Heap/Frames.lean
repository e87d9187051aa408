import Lox.Value

/-!
# Frames

A frame binds names to values. Every frame but the outermost has an enclosing frame, which is made
before it, so that the frames form a forest that only grows. A name can be looked up along the
chain of enclosing frames, or in the one frame at a known distance.
-/

namespace Lox

/-- Names with their values, in the order in which the names were first bound. -/
abbrev Bindings := List (String × Value)

namespace Bindings

/-- Binds a name, in the place of an earlier binding of it. -/
def insert (name : String) (value : Value) : Bindings → Bindings
  | [] => [(name, value)]
  | (other, old) :: rest =>
    if other = name then (name, value) :: rest else (other, old) :: insert name value rest

/-- A name that is bound has its value, and the others keep theirs. -/
theorem lookup_insert (name name' : String) (value : Value) (b : Bindings) :
    (insert name value b).lookup name' =
      if name' = name then some value else b.lookup name' := by
  induction b with
  | nil => by_cases h : name' = name <;> simp [insert, List.lookup_cons, h, beq_false_of_ne]
  | cons entry rest ih =>
    obtain ⟨other, old⟩ := entry
    by_cases ho : other = name
    · by_cases h : name' = name <;> simp [insert, ho, List.lookup_cons, h, beq_false_of_ne]
    · by_cases h : name' = other
      · subst h
        simp [insert, ho]
      · simp [insert, ho, List.lookup_cons, beq_false_of_ne h, ih]

end Bindings

/-- A frame: its bindings, and the frame around it. -/
structure Frame where
  /-- The names it binds. -/
  bindings : Bindings := []
  /-- The frame around it. -/
  enclosing : Option FrameId := none

/-- The default frame is empty and outermost. -/
instance : Inhabited Frame := ⟨{}⟩

/-- All frames, in the order in which they were made. -/
structure Frames where
  /-- The frames. -/
  items : Array Frame := #[]

namespace Frames

/-- Makes a frame. Its place is the number of the frames before it. -/
def push (fs : Frames) (frame : Frame) : Frames :=
  ⟨fs.items.push frame⟩

/-- The number of frames, and so the place of the next one. -/
def size (fs : Frames) : Nat :=
  fs.items.size

/-- The frame around a frame. -/
def enclosing? (fs : Frames) (id : FrameId) : Option FrameId :=
  fs.items[id]?.bind Frame.enclosing

/-- The value that a frame itself binds a name to. -/
def local? (fs : Frames) (id : FrameId) (name : String) : Option Value :=
  fs.items[id]?.bind fun frame => frame.bindings.lookup name

/-- Binds a name in a frame. -/
def define (fs : Frames) (id : FrameId) (name : String) (value : Value) : Frames :=
  ⟨fs.items.modify id fun frame =>
    { frame with bindings := Bindings.insert name value frame.bindings }⟩

/-- The nearest frame that binds a name, on the chain from a frame outwards. A link that does not
lead to an earlier frame ends the chain. -/
def holder? (fs : Frames) (id : FrameId) (name : String) : Option FrameId :=
  if (fs.local? id name).isSome then some id
  else
    match fs.enclosing? id with
    | none => none
    | some outer => if outer < id then fs.holder? outer name else none
termination_by id

/-- The value of a name, from the nearest frame that binds it. -/
def get? (fs : Frames) (id : FrameId) (name : String) : Option Value :=
  (fs.holder? id name).bind fun holder => fs.local? holder name

/-- Gives a name a new value in the nearest frame that binds it. -/
def assign? (fs : Frames) (id : FrameId) (name : String) (value : Value) : Option Frames :=
  (fs.holder? id name).map fun holder => fs.define holder name value

/-- The frame at a distance: that many links outwards. -/
def ancestor? (fs : Frames) (id : FrameId) : Nat → Option FrameId
  | 0 => some id
  | distance + 1 => (fs.enclosing? id).bind fun outer => fs.ancestor? outer distance

/-- The frame at a distance, if it binds a name. -/
def holderAt? (fs : Frames) (id : FrameId) (distance : Nat) (name : String) : Option FrameId :=
  (fs.ancestor? id distance).filter fun frame => (fs.local? frame name).isSome

/-- The value of a name in the frame at a distance. -/
def getAt? (fs : Frames) (id : FrameId) (distance : Nat) (name : String) : Option Value :=
  (fs.holderAt? id distance name).bind fun holder => fs.local? holder name

/-- Gives a name a new value in the frame at a distance, which has to bind it already. -/
def assignAt? (fs : Frames) (id : FrameId) (distance : Nat) (name : String) (value : Value) :
    Option Frames :=
  (fs.holderAt? id distance name).map fun holder => fs.define holder name value

end Frames

end Lox

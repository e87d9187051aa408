import Lox.Heap
import Lox.Machine.Clock
import Lox.Machine.Failure
import Lox.Machine.Sink
import Lox.Scoping.Distances

/-!
# The machine

The state of a running program and the steps that evaluation is made of. The machine has a current
frame, in which names are declared and from which distances count, and a global frame. A step may
fail; what it changed before it failed stays changed.
-/

namespace Lox

/-- The state of a running program. -/
structure Machine where
  /-- What the program has made. -/
  heap : Heap
  /-- The frame in which names are declared. -/
  current : FrameId
  /-- The outermost frame. -/
  globals : FrameId
  /-- The distances of references to local variables. -/
  distances : Scoping.Distances := {}
  /-- The class of objects that are written out. -/
  objectClass : Class
  /-- Where output goes. -/
  sink : Sink
  /-- What tells the time. -/
  clock : Clock

/-- A step of a running program. -/
abbrev Exec := EStateM Failure Machine

namespace Machine

/-- A machine that has run nothing, with a place for its output and a clock. Its global frame binds
the built-in functions and the class of written-out objects. -/
def start (sink : Sink) (clock : Clock) : Machine :=
  let object : Class := ⟨0, "Object", [], []⟩
  let natives := [Native.log, .clock, .len].map fun f => (f.name, Value.native f)
  let frame : Frame := { bindings := natives ++ [(object.name, .class object)] }
  { heap := { frames := ⟨#[frame]⟩, nextIdentity := 1 }
    current := 0
    globals := 0
    objectClass := object
    sink := sink
    clock := clock }

/-- The frame that holds a variable: the one at its distance, or else the globals, if the variable
is bound there. -/
def holder? (m : Machine) (x : Reference) : Option FrameId :=
  match m.distances.find? x.id with
  | some distance => m.heap.frames.holderAt? m.current distance x.name.lexeme
  | none => m.heap.frames.holder? m.globals x.name.lexeme

end Machine

namespace Exec

/-- Fails with a program error on the line of a token. -/
def fail {α : Type} (token : Token) (cause : Cause) : Exec α :=
  throw (.program token.line cause)

/-- The result, or a program error if there is none. -/
def orFail {α : Type} (token : Token) (cause : Cause) : Option α → Exec α
  | some a => pure a
  | none => fail token cause

section Bind

variable {α β : Type} {x : Exec α} {m m' : Machine}

/-- After a step that succeeds, the next one is taken. -/
theorem bind_of_ok {a : α} (h : x m = .ok a m') (f : α → Exec β) : (x >>= f) m = f a m' := by
  show EStateM.bind x f m = _
  unfold EStateM.bind
  rw [h]

/-- After a step that fails, nothing more is done. -/
theorem bind_of_error {e : Failure} (h : x m = .error e m') (f : α → Exec β) :
    (x >>= f) m = .error e m' := by
  show EStateM.bind x f m = _
  unfold EStateM.bind
  rw [h]

end Bind

/-- The text of a value. -/
def textOf (v : Value) : Exec String := do
  return (← get).heap.text v

/-! ## Output and time -/

/-- Writes a line, and says why it was refused, if it was. -/
def tryWriteLine (line : String) : Exec (Option String) :=
  modifyGet fun m =>
    let (sink, refused) := m.sink.writeLine line
    (refused, { m with sink := sink })

/-- Writes a line. -/
def writeLine (line : String) : Exec Unit := do
  match ← tryWriteLine line with
  | none => pure ()
  | some reason => throw (.output reason)

/-- Reads the clock: the seconds since the epoch, unless the time lies before it. -/
def readClock : Exec (Option Float) :=
  modifyGet fun m =>
    let (seconds, clock) := m.clock.read
    (seconds, { m with clock := clock })

/-! ## Frames and variables -/

/-- Makes a frame around which another one lies. -/
def newFrame (enclosing : FrameId) (bindings : Bindings) : Exec FrameId :=
  modifyGet fun m =>
    (m.heap.frames.size,
      { m with heap.frames := m.heap.frames.push ⟨bindings, some enclosing⟩ })

/-- Runs a step with another current frame. However the step ends, the current frame is then the
same as before. -/
def inFrame {α : Type} (frame : FrameId) (step : Exec α) : Exec α := fun m =>
  let saved := m.current
  match step { m with current := frame } with
  | .ok a m => .ok a { m with current := saved }
  | .error e m => .error e { m with current := saved }

/-- Binds a name in a frame. -/
def defineIn (frame : FrameId) (name : String) (value : Value) : Exec Unit :=
  modify fun m => { m with heap.frames := m.heap.frames.define frame name value }

/-- Binds a name in the current frame. -/
def define (name : String) (value : Value) : Exec Unit := do
  defineIn (← get).current name value

/-- The value of a name in the frame that holds it. -/
def getFrom (holder? : Option FrameId) (name : Token) : Exec Value := do
  let m ← get
  orFail name (.undefinedVariable name.lexeme)
    (holder?.bind fun holder => m.heap.frames.local? holder name.lexeme)

/-- Gives a name a new value in the frame that holds it. -/
def assignIn (holder? : Option FrameId) (name : Token) (value : Value) : Exec Unit := do
  let holder ← orFail name (.undefinedVariable name.lexeme) holder?
  defineIn holder name.lexeme value

/-- The value of a name in the frame at a distance from the current one. -/
def getAt (distance : Nat) (name : Token) : Exec Value := do
  let m ← get
  getFrom (m.heap.frames.holderAt? m.current distance name.lexeme) name

/-- The value of a variable. -/
def lookUp (x : Reference) : Exec Value := do
  getFrom ((← get).holder? x) x.name

/-- Gives a variable a new value. -/
def assign (x : Reference) (value : Value) : Exec Unit := do
  assignIn ((← get).holder? x) x.name value

/-- Gives a name a new value in the nearest frame that binds it. -/
def assignNearest (name : Token) (value : Value) : Exec Unit := do
  let m ← get
  assignIn (m.heap.frames.holder? m.current name.lexeme) name value

/-! ## Functions, classes, objects and arrays -/

/-- An identity that nothing has yet. -/
def freshIdentity : Exec Nat :=
  modifyGet fun m =>
    (m.heap.nextIdentity, { m with heap.nextIdentity := m.heap.nextIdentity + 1 })

/-- Makes a function value. -/
def newFunction (f : Function) : Exec Value := do
  return .function (← freshIdentity) f

/-- Makes a function value whose free names refer to the current frame. -/
def closure (decl : FunctionDecl) : Exec Value := do
  newFunction ⟨decl, (← get).current, false⟩

/-- A method whose receiver is bound to `this`, in a frame of its own. -/
def bind (method : Function) (receiver : Value) : Exec Function := do
  return { method with frame := ← newFrame method.frame [("this", receiver)] }

/-- Makes a class. -/
def newClass (name : String) (superclasses : List Class) (methods : List (String × Function)) :
    Exec Class := do
  return ⟨← freshIdentity, name, superclasses, methods⟩

/-- Makes an object. -/
def newObject (object : Object) : Exec Value :=
  modifyGet fun m =>
    (.object m.heap.objects.size, { m with heap.objects := m.heap.objects.push object })

/-- The object that a value is, or nothing. -/
def object? (v : Value) : Exec (Option Object) := do
  match v with
  | .object id => return (← get).heap.objects[id]?
  | _ => return none

/-- Sets a field of an object. -/
def setField (id : ObjectId) (name : String) (value : Value) : Exec Unit :=
  modify fun m => { m with
    heap.objects := m.heap.objects.modify id fun object =>
      { object with fields := Bindings.insert name value object.fields } }

/-- Makes an array. -/
def newArray (elements : List Value) : Exec Value :=
  modifyGet fun m =>
    (.array m.heap.arrays.size, { m with heap.arrays := m.heap.arrays.push elements.toArray })

/-- Sets an element of an array. -/
def setElement (id : ArrayId) (index : Nat) (value : Value) : Exec Unit :=
  modify fun m => { m with
    heap.arrays := m.heap.arrays.modify id fun elements => elements.setIfInBounds index value }

end Exec

end Lox

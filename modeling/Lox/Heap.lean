import Lox.Heap.Frames

/-!
# The heap

What changes while a program runs: the frames, the objects with their fields, and the arrays with
their elements. Nothing is ever removed. `Heap.text` is the text of a value, which for an array
shows its elements; an array inside itself is shown by three dots, so that every value has a
finite text.
-/

namespace Lox

/-- An object: its class and its fields. -/
structure Object where
  /-- The class it was made from. -/
  cls : Class
  /-- Its fields. -/
  fields : Bindings := []

/-- What changes while a program runs. -/
structure Heap where
  /-- The frames. -/
  frames : Frames := {}
  /-- The objects. -/
  objects : Array Object := #[]
  /-- The arrays. -/
  arrays : Array (Array Value) := #[]
  /-- The next identity of a function or class. -/
  nextIdentity : Nat := 0

namespace Heap

/-- The elements of an array. -/
def elements (h : Heap) (id : ArrayId) : Array Value :=
  h.arrays.getD id #[]

/-- The text of a value that is not an array. -/
def simpleText (h : Heap) : Value → String
  | .nil => "nil"
  | .boolean true => "true"
  | .boolean false => "false"
  | .number x => Number.text x
  | .string s => s
  | .function _ f => "<fn " ++ f.decl.displayName ++ ">"
  | .native f => "<native fn " ++ f.name ++ ">"
  | .class c => c.name
  | .object id =>
    match h.objects[id]? with
    | some object => object.cls.name ++ " instance"
    | none => " instance"
  | .array _ => "[...]"

/-- The arrays that are being written out, the innermost first. -/
abbrev Rendering := StateM (List ArrayId)

/-- Writes out an element of an array: a string is shown in quotes. -/
def renderElement (render : Value → Rendering String) : Value → Rendering String
  | .string s => return "\"" ++ s ++ "\""
  | v => render v

/-- Writes out a value. An array is put on the stack of those that are being written out before its
elements, and taken off behind them. The first argument bounds how deep arrays are opened. -/
def render (h : Heap) : Nat → Value → Rendering String
  | depth + 1, .array id => do
    if (← get).contains id then return "[...]"
    modify (id :: ·)
    let items ← (h.elements id).toList.mapM (renderElement (h.render depth))
    modify List.tail
    return "[" ++ String.intercalate ", " items ++ "]"
  | _, v => return h.simpleText v

/-- The text of a value. Each array that is opened within others is a different one, so no more
are opened at once than there are, and the elements of the innermost one need no array opened. -/
def text (h : Heap) (v : Value) : String :=
  ((h.render (h.arrays.size + 1) v).run []).1

end Heap

end Lox

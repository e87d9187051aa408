import Lox.Heap
import Lox.Text.Quoted

/-!
# Inspecting values

A closer look at a value than its text gives: a class is shown with the names of its superclasses
and methods, an object with the names of its fields.
-/

namespace Lox.Heap

/-- Names in quotes, as a list. -/
def nameList (names : List String) : String :=
  "[" ++ String.intercalate ", " (names.map Text.quoted) ++ "]"

/-- A record with a name and fields. -/
def record (name : String) (fields : List (String × String)) : String :=
  let items := fields.map fun (field, value) => field ++ ": " ++ value
  name ++ " \x7b " ++ String.intercalate ", " items ++ " \x7d"

/-- What a function, class or object looks like inside. -/
def inspect? (h : Heap) : Value → Option String
  | .class c =>
    some (record "LoxClass" [("name", Text.quoted c.name),
      ("superclasses", nameList (c.superclasses.map Class.name)),
      ("methods", nameList (c.methods.map Prod.fst).eraseDups)])
  | .object id =>
    h.objects[id]?.map fun object =>
      record "LoxInstance" [("class", Text.quoted object.cls.name),
        ("fields", nameList (object.fields.map Prod.fst))]
  | .function id f => some (h.text (.function id f))
  | .native f => some (h.text (.native f))
  | _ => none

end Lox.Heap

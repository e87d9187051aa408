import Lox.Tree

/-!
# Values

What an expression evaluates to. Numbers, strings and the like are themselves; objects, arrays,
functions and classes have an identity, by which they are compared. Classes and functions never
change once they are made, so their contents are part of the value. The fields of an object and the
elements of an array do change, and a value holds only the place where the heap keeps them.
-/

namespace Lox

/-- A place in the heap's list of frames. -/
abbrev FrameId := Nat

/-- A place in the heap's list of objects. -/
abbrev ObjectId := Nat

/-- A place in the heap's list of arrays. -/
abbrev ArrayId := Nat

/-- A function with the frame that its free names refer to. -/
structure Function where
  /-- What was written. -/
  decl : FunctionDecl
  /-- The frame in which it was made. -/
  frame : FrameId
  /-- Whether it is a method that sets up a new object. -/
  isInitializer : Bool

/-- A function that is built in. -/
inductive Native where
  /-- Prints its arguments on one line. -/
  | log
  /-- Tells the time. -/
  | clock
  /-- Counts the characters of a string or the elements of an array. -/
  | len
deriving DecidableEq, Repr

/-- How many arguments a call takes. -/
inductive Arity where
  /-- This many. -/
  | exactly (count : Nat)
  /-- Any number. -/
  | any
deriving DecidableEq, Repr

/-- Whether a call with this many arguments is accepted. -/
def Arity.accepts : Arity → Nat → Bool
  | .exactly n, count => n == count
  | .any, _ => true

namespace Native

/-- The name of a built-in function. -/
def name : Native → String
  | .log => "log"
  | .clock => "clock"
  | .len => "len"

/-- How many arguments a built-in function takes. -/
def arity : Native → Arity
  | .log => .any
  | .clock => .exactly 0
  | .len => .exactly 1

end Native

/-- A class, with its identity, its superclasses in order and its own methods. The latest of
several methods of one name comes first. -/
structure Class where
  /-- The identity. -/
  id : Nat
  /-- The name. -/
  name : String
  /-- The classes it inherits from. -/
  superclasses : List Class
  /-- Its own methods. -/
  methods : List (String × Function)

mutual

/-- The method that a class has under a name: its own, or else the first one found in its
superclasses. -/
def Class.findMethod (name : String) : Class → Option Function
  | ⟨_, _, superclasses, methods⟩ =>
    match methods.lookup name with
    | some method => some method
    | none => findInherited name superclasses

/-- The first method of a name in a list of classes. -/
def findInherited (name : String) : List Class → Option Function
  | [] => none
  | c :: cs =>
    match c.findMethod name with
    | some method => some method
    | none => findInherited name cs

end

/-- The number of arguments that making an object of a class takes. -/
def Class.arity (c : Class) : Nat :=
  match c.findMethod "init" with
  | some init => init.decl.arity
  | none => 0

/-- A value. -/
inductive Value where
  /-- No value. -/
  | nil
  /-- A truth value. -/
  | boolean (value : Bool)
  /-- A number. -/
  | number (value : Float)
  /-- A string. -/
  | string (value : String)
  /-- A function, with its identity. -/
  | function (id : Nat) (code : Function)
  /-- A built-in function. -/
  | native (code : Native)
  /-- A class. -/
  | class (code : Class)
  /-- An object. -/
  | object (id : ObjectId)
  /-- An array. -/
  | array (id : ArrayId)

/-- The default value is `nil`. -/
instance : Inhabited Value := ⟨.nil⟩

namespace Value

/-- The value of a constant. -/
def ofLiteral : Literal → Value
  | .number x => .number x
  | .string s => .string s
  | .boolean b => .boolean b
  | .nil => .nil

/-- Whether a value counts as true: all do but `nil` and `false`. -/
def isTruthy : Value → Bool
  | .nil => false
  | .boolean b => b
  | _ => true

/-- The name of a value's type. -/
def typeName : Value → String
  | .nil => "nil"
  | .boolean _ => "boolean"
  | .number _ => "number"
  | .string _ => "string"
  | .function _ _ => "function"
  | .native _ => "function"
  | .class _ => "class"
  | .object _ => "instance"
  | .array _ => "array"

/-- Whether two values are equal. Values of different types never are, a number that is none
differs from itself, and what has an identity is equal only to itself. -/
def equal : Value → Value → Bool
  | .nil, .nil => true
  | .boolean a, .boolean b => a == b
  | .number a, .number b => a == b
  | .string a, .string b => a == b
  | .function a _, .function b _ => a == b
  | .native a, .native b => a == b
  | .class a, .class b => a.id == b.id
  | .object a, .object b => a == b
  | .array a, .array b => a == b
  | _, _ => false

/-- How many arguments a call of a value takes, if it can be called. -/
def arity? : Value → Option Arity
  | .function _ f => some (.exactly f.decl.arity)
  | .native f => some f.arity
  | .class c => some (.exactly c.arity)
  | _ => none

end Value

end Lox

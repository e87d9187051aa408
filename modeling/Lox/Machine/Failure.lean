import Lox.Number.Text

/-!
# Failures of a running program

Why a statement or expression could not be completed. A program error has a cause and the line it
is reported on; refused output and an exhausted budget belong to no line.
-/

namespace Lox

/-- What a program did wrong. -/
inductive Cause where
  /-- A variable is not bound. -/
  | undefinedVariable (name : String)
  /-- An object has no such field or method. -/
  | undefinedProperty (name : String)
  /-- A sign needs a number. -/
  | operandKind
  /-- An operator needs numbers. -/
  | operandKinds
  /-- Addition needs numbers or a string. -/
  | addendKinds
  /-- No sign that stands before its operand. -/
  | unaryOperator
  /-- No operator that stands between its operands. -/
  | binaryOperator
  /-- A value cannot be called. -/
  | notCallable
  /-- A call has the wrong number of arguments. -/
  | arity (expected got : Nat)
  /-- A value has no properties. -/
  | noProperties
  /-- A value has no fields. -/
  | noFields
  /-- An index is not a number. -/
  | indexKind
  /-- An index is not an integer. -/
  | indexFraction
  /-- An index is not below the length. -/
  | indexRange (index : Float) (length : Nat)
  /-- A property key is neither a string nor a number. -/
  | keyKind
  /-- A value has no elements. -/
  | notIndexable
  /-- The elements of a value cannot be assigned to. -/
  | notIndexAssignable
  /-- A superclass is not a class. -/
  | superclassKind
  /-- A `super` has no distance. -/
  | superOutside
  /-- A value of this type has no length. -/
  | noLength (typeName : String)
  /-- A line could not be logged, for this reason. -/
  | logRefused (reason : String)
  /-- The time lies before the epoch. -/
  | timeBeforeEpoch
deriving DecidableEq, Repr

/-- The message for a cause. -/
def Cause.message : Cause → String
  | .undefinedVariable name => "Undefined variable '" ++ name ++ "'."
  | .undefinedProperty name => "Undefined property '" ++ name ++ "'."
  | .operandKind => "Operand must be a number."
  | .operandKinds => "Operands must be numbers."
  | .addendKinds => "Operands must be two numbers or two strings."
  | .unaryOperator => "Invalid unary operator."
  | .binaryOperator => "Invalid binary operator."
  | .notCallable => "Can only call functions and classes."
  | .arity expected got =>
    "Expected " ++ toString expected ++ " arguments but got " ++ toString got ++ "."
  | .noProperties => "Only instances have properties."
  | .noFields => "Only instances have fields."
  | .indexKind => "Index must be a number."
  | .indexFraction => "Index must be an integer."
  | .indexRange index length =>
    "Index " ++ Number.text index ++ " out of bounds for length " ++ toString length ++ "."
  | .keyKind => "Property key must be a string or number."
  | .notIndexable => "Only arrays, strings and instances can be indexed."
  | .notIndexAssignable => "Only arrays and instances support index assignment."
  | .superclassKind => "Superclass must be a class."
  | .superOutside => "Can't use 'super' outside of a class."
  | .noLength typeName => "Can't take the length of a " ++ typeName ++ "."
  | .logRefused reason => "log failed: " ++ reason
  | .timeBeforeEpoch => "Clock error: second time provided was later than self"

/-- Why a statement or expression could not be completed. -/
inductive Failure where
  /-- The program did something wrong, on this line. -/
  | program (line : Nat) (cause : Cause)
  /-- Output was refused, for this reason. -/
  | output (reason : String)
  /-- The budget for evaluation is used up. -/
  | exhausted
deriving DecidableEq, Repr

end Lox

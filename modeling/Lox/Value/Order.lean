import Lox.Value
import Lox.Number.Read

/-!
# The order of values

Two values of one type are ordered as usual: numbers by size, strings character by character, and
`false` before `true`. Otherwise both are read as numbers, a truth value as `0` or `1` and a string
as the number it writes. Values that are not numbers and cannot be read as one are not ordered, and
then none of the four comparisons holds. How a string is read as a number is a parameter, which
programs leave at `Number.ofText?`.
-/

namespace Lox

/-- The order of two numbers, if neither of them is undefined. -/
def Number.compare? (a b : Float) : Option Ordering :=
  if a < b then some .lt
  else if a == b then some .eq
  else if b < a then some .gt
  else none

namespace Value

/-- The number that a value is read as. -/
def toNumber? (v : Value) (read : String → Option Float := Number.ofText?) : Option Float :=
  match v with
  | .number x => some x
  | .boolean b => some (if b then 1 else 0)
  | .string s => read s
  | _ => none

/-- The order of two values that are read as numbers. -/
def compareAsNumbers? (a b : Value) (read : String → Option Float := Number.ofText?) :
    Option Ordering :=
  match a.toNumber? read, b.toNumber? read with
  | some x, some y => Number.compare? x y
  | _, _ => none

/-- The order of two values, if they have one. -/
def compare? (a b : Value) (read : String → Option Float := Number.ofText?) : Option Ordering :=
  match a, b with
  | .nil, .nil => some .eq
  | .boolean a, .boolean b => some (compare a b)
  | .number a, .number b => Number.compare? a b
  | .string a, .string b => some (compare a b)
  | a, b => compareAsNumbers? a b read

/-- Whether one value is below another. -/
def less (a b : Value) (read : String → Option Float := Number.ofText?) : Bool :=
  a.compare? b read == some .lt

/-- Whether one value is below another or ranks with it. -/
def lessEqual (a b : Value) (read : String → Option Float := Number.ofText?) : Bool :=
  a.compare? b read == some .lt || a.compare? b read == some .eq

/-- Whether one value is above another. -/
def greater (a b : Value) (read : String → Option Float := Number.ofText?) : Bool :=
  a.compare? b read == some .gt

/-- Whether one value is above another or ranks with it. -/
def greaterEqual (a b : Value) (read : String → Option Float := Number.ofText?) : Bool :=
  a.compare? b read == some .gt || a.compare? b read == some .eq

end Value

end Lox

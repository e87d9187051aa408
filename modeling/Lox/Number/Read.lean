import Lox.Number.Decimal
import Lox.Text.Blank

/-!
# Reading numbers

The double nearest to a number written in digits. `Number.ofDecimal` rounds a digit string with an
exponent, `Number.ofHex?` a sixteen-digit hexadecimal one, and `Number.ofText?` reads a whole text,
as when a string is compared with a number: blanks at its ends do not count, the words `inf`,
`infinity` and `nan` are numbers, and a point may stand at either end of the digits.
-/

namespace Lox.Number

/-- Whether a character is a decimal digit. -/
def isDigit (c : Char) : Bool :=
  '0' ≤ c && c ≤ '9'

/-- Whether a character is a hexadecimal digit, of either case. -/
def isHexDigit (c : Char) : Bool :=
  isDigit c || ('a' ≤ c && c ≤ 'f') || ('A' ≤ c && c ≤ 'F')

/-- The value of a hexadecimal digit. -/
def hexDigit (c : Char) : Nat :=
  if isDigit c then c.toNat - '0'.toNat
  else if 'a' ≤ c then c.toNat - 'a'.toNat + 10
  else c.toNat - 'A'.toNat + 10

/-- The natural number written by hexadecimal digits; decimal digits are read in base ten. -/
def ofDigits (base : Nat) (ds : List Char) : Nat :=
  ds.foldl (fun n c => n * base + hexDigit c) 0

/-- The double nearest to `whole.fraction * 10 ^ exponent`, ties to even. -/
def ofDecimal (whole fraction : List Char) (exponent : Int) : Float :=
  let e := exponent - fraction.length
  Float.ofScientific (ofDigits 10 (whole ++ fraction)) (e < 0) e.natAbs

/-- The double nearest to a hexadecimal number, or nothing when it does not fit in sixty-four
bits. -/
def ofHex? (ds : List Char) : Option Float :=
  let n := ofDigits 16 ds
  if n < twoPow 64 then some (Float.ofScientific n false 0) else none

/-- The exponent at the end of a number, or nothing when the text there is not one. No text at
all is the exponent zero. -/
def exponent? : List Char → Option Int
  | [] => some 0
  | mark :: cs =>
    let (negative, ds) := match cs with
      | '-' :: ds => (true, ds)
      | '+' :: ds => (false, ds)
      | ds => (false, ds)
    if (mark == 'e' || mark == 'E') && !ds.isEmpty && ds.all isDigit then
      some (if negative then -(ofDigits 10 ds : Int) else ofDigits 10 ds)
    else none

/-- The number written by digits with an optional point and exponent. -/
def unsigned? (cs : List Char) : Option Float :=
  let whole := cs.takeWhile isDigit
  let (fraction, rest) := match cs.dropWhile isDigit with
    | '.' :: cs => (cs.takeWhile isDigit, cs.dropWhile isDigit)
    | cs => ([], cs)
  if whole.isEmpty && fraction.isEmpty then none
  else (exponent? rest).map (ofDecimal whole fraction)

/-- A number word in lower case. -/
def word? (cs : List Char) : Option Float :=
  match String.ofList (cs.map Char.toLower) with
  | "inf" | "infinity" => some (1.0 / 0.0)
  | "nan" => some (0.0 / 0.0)
  | _ => none

/-- The number that a whole text writes, blanks at its ends apart. -/
def ofText? (s : String) : Option Float :=
  let magnitude? (cs : List Char) := (word? cs).or (unsigned? cs)
  match Text.trim s.toList with
  | '-' :: cs => (magnitude? cs).map (- ·)
  | '+' :: cs => magnitude? cs
  | cs => magnitude? cs

end Lox.Number

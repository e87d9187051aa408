import Lox.Number.Decimal

/-!
# Number text

A number is written in four ways. `Number.text` is what a program prints: an integer has no
point, and only numbers of at least `10 ^ 21` have an exponent. `Number.printed` is the text in a
printed syntax tree, where an integral number is written out exactly and with one decimal.
`Number.tokenText` belongs to the token listing, and `Number.json` to serialized trees. All but the
exact expansion take their digits from `Number.shortest`.
-/

namespace Lox.Number

/-- The digits of a natural number. -/
def digits (n : Nat) : List Char :=
  Nat.toDigits 10 n

/-- A sign in front of an unsigned text. -/
def signed (negative : Bool) (text : List Char) : String :=
  String.ofList (if negative then '-' :: text else text)

/-- A decimal without an exponent, padded with zeros as needed. An integral one ends after its
last digit. -/
def positional (d : Decimal) : List Char :=
  let ds := digits d.coefficient
  if d.coefficient = 0 then ds
  else if 0 ≤ d.exponent then
    ds ++ List.replicate d.exponent.toNat '0'
  else
    let places := (-d.exponent).toNat
    let padded := List.replicate (places + 1 - ds.length) '0' ++ ds
    let whole := padded.length - places
    padded.take whole ++ '.' :: padded.drop whole

/-- A decimal with one digit before the point and an exponent. The mark stands between the
digits and the exponent when that is not negative. -/
def scientific (mark : List Char) (d : Decimal) : List Char :=
  let ds := digits d.coefficient
  let exponent := d.exponent + (ds.length - 1 : Nat)
  let fraction := ds.drop 1
  ds.take 1 ++ (if fraction.isEmpty then [] else '.' :: fraction) ++
    (if 0 ≤ exponent then mark ++ digits exponent.toNat
     else ['e', '-'] ++ digits (-exponent).toNat)

/-- The fewest digits that read back, without an exponent; a tie goes to the larger decimal. -/
def plain (x : Float) : String :=
  match shape x with
  | .nan => "NaN"
  | .infinite negative => signed negative ['i', 'n', 'f']
  | .finite negative m q => signed negative (positional (shortest .away m q))

/-- The integer that a number of less than `10 ^ 15` stands for, if it stands for one. Below
this bound an integer is shown without going through its shortest digits. -/
def smallInt? (x : Float) : Option Int :=
  (toInt? x).filter fun i => i.natAbs < tenPow 15

/-- The text of an integer. -/
def intText (i : Int) : String :=
  signed (i < 0) (digits i.natAbs)

/-- The text of a number in a program's output, in messages and as a property key. -/
def text (x : Float) : String :=
  match smallInt? x with
  | some i => intText i
  | none =>
    match shape x with
    | .finite negative m q =>
      let d := shortest .away m q
      -- The leading digit counts at least `10 ^ 21`.
      if 21 < d.exponent + (digits d.coefficient).length then
        signed negative (scientific ['e'] d)
      else signed negative (positional d)
    | _ => plain x

/-- The text of a number literal in a printed syntax tree. -/
def printed (x : Float) : String :=
  match toInt? x, shape x with
  | some i, .finite negative _ _ => signed negative (digits i.natAbs ++ ['.', '0'])
  | _, _ => plain x

/-- The value of a number token in a token listing. -/
def tokenText (x : Float) : String :=
  match smallInt? x with
  | some i => intText i ++ ".0"
  | none => plain x

/-- The text of a number in a serialized tree. A number without a JSON form is `null`. A tie goes
to the even digit, and the exponent form is used from `10 ^ 16` on and below `10 ^ (-5)`. -/
def json (x : Float) : String :=
  match shape x with
  | .finite negative m q =>
    let d := shortest .toEven m q
    let point := d.exponent + (digits d.coefficient).length
    if m = 0 ∨ (0 ≤ d.exponent ∧ point ≤ 16) then
      signed negative (positional d ++ ['.', '0'])
    else if -5 < point ∧ point ≤ 16 then signed negative (positional d)
    else signed negative (scientific ['e', '+'] d)
  | _ => "null"

end Lox.Number

/-!
# Decimal digits of a double

A finite double is a natural number times a power of two. `Number.shortest` finds the decimal with
the fewest digits among those that read back as the same double, and the one closest to it among
the decimals of that length. All steps are exact arithmetic on natural numbers: a double is the
nearest one to a real exactly when the real lies between the two midpoints to its neighbours, and
a midpoint itself belongs to the double with the even significand.
-/

namespace Lox.Number

/-- The power `2 ^ n`. -/
def twoPow (n : Nat) : Nat :=
  Nat.pow 2 n

/-- The power `10 ^ n`. -/
def tenPow (n : Nat) : Nat :=
  Nat.pow 10 n

/-- What the bits of a double say: no number, an infinity, or `± significand * 2 ^ exponent`. -/
inductive Shape where
  /-- Not a number. -/
  | nan
  /-- An infinity. -/
  | infinite (negative : Bool)
  /-- A finite number; zero has the significand `0`. -/
  | finite (negative : Bool) (significand : Nat) (exponent : Int)
deriving DecidableEq, Repr

/-- The sign, significand and exponent that the bits of a double encode. -/
def shape (x : Float) : Shape :=
  let bits : Nat := x.toBits.toNat
  let negative := bits / twoPow 63 == 1
  let biased : Nat := bits / twoPow 52 % twoPow 11
  let fraction : Nat := bits % twoPow 52
  if biased = 2047 then
    if fraction = 0 then .infinite negative else .nan
  else if biased = 0 then
    .finite negative fraction (-1074)
  else
    .finite negative (twoPow 52 + fraction) ((biased : Int) - 1075)

/-- The integer that a double stands for, when it stands for one. A negative zero is the
integer `0`. -/
def toInt? (x : Float) : Option Int :=
  match shape x with
  | .finite negative m q =>
    let signed (n : Nat) : Int := if negative then -n else n
    if 0 ≤ q then some (signed (m * twoPow q.toNat))
    else if m % twoPow (-q).toNat = 0 then some (signed (m / twoPow (-q).toNat))
    else none
  | _ => none

/-- The decimal `coefficient * 10 ^ exponent`. -/
structure Decimal where
  /-- The digits, read as a natural number. -/
  coefficient : Nat
  /-- The power of ten that the last digit counts. -/
  exponent : Int
deriving DecidableEq, Repr

/-- Which of two equally close decimals is taken. -/
inductive Tie where
  /-- The larger one. -/
  | away
  /-- The one whose last digit is even. -/
  | toEven
deriving DecidableEq, Repr

/-- The number of decimal digits of `n`; none for zero. -/
def digitCount (n : Nat) : Nat :=
  if n = 0 then 0 else (Nat.toDigits 10 n).length

/-- A decimal of the same value whose coefficient has no zero at its end. The first argument
bounds the zeros that are dropped. -/
def Decimal.normalize : Nat → Decimal → Decimal
  | 0, d => d
  | n + 1, d =>
    if d.coefficient ≠ 0 ∧ d.coefficient % 10 = 0 then
      Decimal.normalize n ⟨d.coefficient / 10, d.exponent + 1⟩
    else d

/-- The power of ten that the leading digit of `m * 2 ^ q` counts, for `0 < m`. -/
def leadingExponent (m : Nat) (q : Int) : Int :=
  if 0 ≤ q then
    (digitCount (m * twoPow q.toNat) : Int) - 1
  else
    let den := twoPow (-q).toNat
    if den ≤ m then (digitCount (m / den) : Int) - 1
    -- Here `10 ^ j` first reaches `den / m` at the length of its ceiling less one.
    else -(digitCount ((den + m - 1) / m - 1) : Int)

/-- `x * 2 ^ q` and `d * 10 ^ k`, multiplied by one number that makes both natural. -/
def aligned (q k : Int) (x d : Nat) : Nat × Nat :=
  (x * twoPow q.toNat * tenPow (-k).toNat, d * tenPow k.toNat * twoPow (-q).toNat)

/-- Whether the decimal `d * 10 ^ k` rounds to the double `m * 2 ^ q`. The lower midpoint is
nearer when `m` is the least significand of its power of two. -/
def readsBack (m : Nat) (q : Int) (d : Nat) (k : Int) : Bool :=
  let below := if m = twoPow 52 ∧ -1074 < q then 1 else 2
  let low := aligned (q - 2) k (4 * m - below) d
  let high := aligned (q - 2) k (4 * m + 2) d
  if m % 2 = 0 then low.1 ≤ low.2 && high.2 ≤ high.1
  else low.1 < low.2 && high.2 < high.1

/-- The closest decimal of the form `d * 10 ^ k` that reads back, if one does: only the two
neighbours of the double on that grid have to be tried. -/
def onGrid (tie : Tie) (m : Nat) (q k : Int) : Option Decimal :=
  let (num, den) := aligned q k m 1
  let d := num / den
  match readsBack m q d k, readsBack m q (d + 1) k with
  | false, false => none
  | true, false => some ⟨d, k⟩
  | false, true => some ⟨d + 1, k⟩
  | true, true =>
    let doubled := 2 * (num % den)
    let up := den < doubled || (doubled == den && (tie == .away || d % 2 == 1))
    some ⟨if up then d + 1 else d, k⟩

/-- The first grid, from `k` downwards and at most `fuel` more, that has a decimal which
reads back. -/
def firstOnGrid (tie : Tie) (m : Nat) (q : Int) : Nat → Int → Decimal
  | 0, k => (onGrid tie m q k).getD ⟨0, k⟩
  | fuel + 1, k => (onGrid tie m q k).getD (firstOnGrid tie m q fuel (k - 1))

/-- The decimal with the fewest digits that reads back as `m * 2 ^ q`. Seventeen digits are
always enough for a double. -/
def shortest (tie : Tie) (m : Nat) (q : Int) : Decimal :=
  if m = 0 then ⟨0, 0⟩
  else (firstOnGrid tie m q 17 (leadingExponent m q)).normalize 17

end Lox.Number

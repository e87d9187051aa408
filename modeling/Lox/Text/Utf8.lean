/-!
# Decoding bytes

Program texts come as bytes in UTF-8. `decode` gives back the text, or the place of the first bytes
that are not part of one: how many bytes were read before them, and how many of them make up the
part that cannot be continued. At the end of the bytes that part may just be incomplete.
-/

namespace Lox.Text.Utf8

/-- Where bytes stop being a text. -/
structure Fault where
  /-- How many bytes were read before. -/
  start : Nat
  /-- How many bytes are wrong; without a number, the bytes end too early. -/
  length : Option Nat
deriving DecidableEq, Repr

/-- The message for a fault. -/
def Fault.message (f : Fault) : String :=
  match f.length with
  | some n =>
    "invalid utf-8 sequence of " ++ toString n ++ " bytes from index " ++ toString f.start
  | none => "incomplete utf-8 byte sequence from index " ++ toString f.start

/-- Whether a byte continues a character. -/
def isContinuation (b : UInt8) : Bool :=
  0x80 ≤ b && b ≤ 0xBF

/-- How many bytes a character has that starts with this byte, and which bytes may come second.
The second bytes are limited where others would give a longer form than needed, a surrogate or a
number beyond the last character. -/
def lead (b : UInt8) : Option (Nat × UInt8 × UInt8) :=
  if b < 0x80 then some (1, 0x80, 0xBF)
  else if 0xC2 ≤ b && b ≤ 0xDF then some (2, 0x80, 0xBF)
  else if b == 0xE0 then some (3, 0xA0, 0xBF)
  else if b == 0xED then some (3, 0x80, 0x9F)
  else if 0xE1 ≤ b && b ≤ 0xEF then some (3, 0x80, 0xBF)
  else if b == 0xF0 then some (4, 0x90, 0xBF)
  else if 0xF1 ≤ b && b ≤ 0xF3 then some (4, 0x80, 0xBF)
  else if b == 0xF4 then some (4, 0x80, 0x8F)
  else none

/-- The number of bytes of the character at the front, or what is wrong with it: the number of
bytes that cannot be continued, or nothing if the bytes end too early. -/
def charLength (b : UInt8) (bs : List UInt8) : Except (Option Nat) Nat :=
  match lead b with
  | none => .error (some 1)
  | some (1, _, _) => .ok 1
  | some (n, low, high) =>
    match bs with
    | [] => .error none
    | second :: rest =>
      if !(low ≤ second && second ≤ high) then .error (some 1)
      else
        let tail := rest.take (n - 2)
        let good := tail.takeWhile isContinuation
        if good.length = n - 2 then .ok n
        else if good.length = tail.length then .error none
        else .error (some (2 + good.length))

/-- The fault in the bytes after the first `start` ones, if there is one. -/
def faultFrom (start : Nat) : List UInt8 → Option Fault
  | [] => none
  | b :: bs =>
    match charLength b bs with
    | .error length => some ⟨start, length⟩
    | .ok n => faultFrom (start + n) (bs.drop (n - 1))
termination_by bs => bs.length
decreasing_by simp only [List.length_drop, List.length_cons]; omega

/-- The text that bytes encode, or the first fault in them. -/
def decode (bytes : ByteArray) : Except Fault String :=
  match String.fromUTF8? bytes with
  | some text => .ok text
  | none => .error ((faultFrom 0 bytes.toList).getD ⟨0, none⟩)

end Lox.Text.Utf8

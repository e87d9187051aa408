/-!
# Output

Where a program's output goes. An output is asked to take texts and to flush what it has taken, and
it answers as it likes: nothing is known about the answers but that they come from what was asked
before. So any request may be refused, for any reason, and a text may be taken in part. Each text is
answered with the texts before it in view, and each flush with the texts and flushes before it; no
two requests of a kind have the same ones, so every sequence of answers can occur.

A line is two texts, its own and the line end, so a line may be written without its end.
-/

namespace Lox

/-- The answer of an output that does not take a whole text. -/
structure Refusal where
  /-- How many bytes of the text it takes nevertheless. -/
  taken : Nat
  /-- Why it does not take the rest. -/
  reason : String
deriving DecidableEq, Repr

/-- Where a program's output goes. If nothing else is said, it takes everything. -/
structure Sink where
  /-- The answer to a text, if it is not taken as a whole, given the texts before it. The latest
  text comes first. -/
  onWrite : List String → String → Option Refusal := fun _ _ => none
  /-- Why a flush is refused, if it is, given the texts before it and the number of flushes. -/
  onFlush : List String → Nat → Option String := fun _ _ => none
  /-- The texts that were to be written, the latest first. -/
  writes : List String := []
  /-- How often it was flushed. -/
  flushes : Nat := 0
  /-- The bytes that were taken since they were last collected. -/
  bytes : ByteArray := .empty

namespace Sink

/-- Writes a text, and says why that was refused, if it was. There is no request for an empty
text. -/
def write (s : Sink) (text : String) : Sink × Option String :=
  if text.isEmpty then (s, none)
  else
    let asked := { s with writes := text :: s.writes }
    match s.onWrite s.writes text with
    | none => ({ asked with bytes := s.bytes ++ text.toUTF8 }, none)
    | some refusal =>
      ({ asked with bytes := s.bytes ++ text.toUTF8.extract 0 refusal.taken }, some refusal.reason)

/-- Writes a text and a line end, and says why one of them was refused, if it was. -/
def writeLine (s : Sink) (line : String) : Sink × Option String :=
  match s.write line with
  | (s, none) => s.write "\n"
  | (s, some reason) => (s, some reason)

/-- Flushes what was written, and says why that was refused, if it was. -/
def flush (s : Sink) : Sink × Option String :=
  ({ s with flushes := s.flushes + 1 }, s.onFlush s.writes s.flushes)

/-- Collects the bytes that were taken. -/
def drain (s : Sink) : ByteArray × Sink :=
  (s.bytes, { s with bytes := .empty })

end Sink

end Lox

/-!
# Blank characters

The blanks that are trimmed from the ends of a text: the twenty-five characters with the Unicode
property `White_Space`. Core's `Char.isWhitespace` knows only the ASCII ones, so trimming by it
would leave a no-break space in place.
-/

namespace Lox.Text

/-- Whether a character has the Unicode property `White_Space`. -/
def isBlank (c : Char) : Bool :=
  let n := c.toNat
  (0x9 ≤ n && n ≤ 0xD) || n == 0x20 || n == 0x85 || n == 0xA0 || n == 0x1680 ||
    (0x2000 ≤ n && n ≤ 0x200A) || n == 0x2028 || n == 0x2029 || n == 0x202F || n == 0x205F ||
    n == 0x3000

/-- A text without the blanks at its end. -/
def trimRight (s : List Char) : List Char :=
  (s.reverse.dropWhile isBlank).reverse

/-- A text without the blanks at its two ends. -/
def trim (s : List Char) : List Char :=
  trimRight (s.dropWhile isBlank)

/-- Trimming the end of a text leaves a beginning of it, cut off after only blanks. -/
theorem trimRight_append_blanks (s : List Char) :
    ∃ blanks : List Char, (∀ c ∈ blanks, isBlank c = true) ∧ trimRight s ++ blanks = s := by
  refine ⟨(s.reverse.takeWhile isBlank).reverse, ?_, ?_⟩
  · intro c hc
    have hall := List.all_takeWhile (p := isBlank) (l := s.reverse)
    exact List.all_eq_true.1 hall c (List.mem_reverse.1 hc)
  · have h := List.takeWhile_append_dropWhile (p := isBlank) (l := s.reverse)
    have h' := congrArg List.reverse h
    rwa [List.reverse_append, List.reverse_reverse] at h'

end Lox.Text

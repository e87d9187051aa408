import Lox.Token.Scan
import Mathlib.Data.List.TakeWhile
import Mathlib.Data.Nat.Digits.Defs

/-!
# String literals

A string can be written in many ways: each of its characters stands for itself, or is written as an
escape, by a letter, by a number or by the character behind a backslash. `Written` lists these ways
for one character and `Encodes` puts them together for a text. Whichever way is chosen for each
character, the literal is scanned as one token that has the string as its value
(`scan_encoded`).
-/

namespace Lox.Token

open Number (isDigit isHexDigit)

/-! ## Ways to write a string -/

/-- A character is a hexadecimal digit, of either case, with a value. -/
def HexValue (d : Char) (n : Nat) : Prop :=
  "0123456789abcdef".toList[n]? = some d ∨ "0123456789ABCDEF".toList[n]? = some d

/-- The letters that stand behind a backslash for a character, each with that character. -/
def shortEscapes : List (Char × Char) :=
  [('n', '\n'), ('t', '\t'), ('r', '\r'), ('b', '\x08'), ('f', '\x0c'), ('\\', '\\'), ('\'', '\''),
    ('"', '"'), ('0', '\x00')]

/-- The letters that announce a number behind a backslash, each with the number of its digits. -/
def hexEscapes : List (Char × Nat) :=
  [('x', 2), ('u', 4)]

/-- A way to write the character `c` in a literal with the given quotes. -/
inductive Written (quote c : Char) : List Char → Prop
  /-- The character stands for itself. -/
  | plain (hescape : c ≠ '\\') (hquote : c ≠ quote) : Written quote c [c]
  /-- A letter stands for the character. -/
  | short {letter : Char} (h : (letter, c) ∈ shortEscapes) : Written quote c ['\\', letter]
  /-- The character is given by its number. -/
  | hex {letter : Char} {ds : List Char} {ns : List Nat} (h : (letter, ds.length) ∈ hexEscapes)
      (hds : List.Forall₂ HexValue ds ns) (hvalue : Nat.ofDigits 16 ns.reverse = c.toNat) :
      Written quote c ('\\' :: letter :: ds)
  /-- The character stands behind a backslash, where it has no meaning of its own. -/
  | escaped (h : c ∉ ['n', 't', 'r', 'b', 'f', '0', 'x', 'u']) : Written quote c ['\\', c]

/-- The text `cs` is written character by character. -/
inductive Encodes (quote : Char) : (cs text : List Char) → Prop
  | nil : Encodes quote [] []
  | cons {c : Char} {cs written text : List Char} (hc : Written quote c written)
      (h : Encodes quote cs text) : Encodes quote (c :: cs) (written ++ text)

/-! ## Escapes -/

section Escapes

/-- Hexadecimal digits are read as what they are. -/
theorem HexValue.reads {d : Char} {n : Nat} (h : HexValue d n) :
    isHexDigit d ∧ Number.hexDigit d = n := by
  -- The value of a digit is its place in the row, so each row is checked digit by digit.
  have hlower : ∀ p ∈ "0123456789abcdef".toList.zipIdx,
      isHexDigit p.1 ∧ Number.hexDigit p.1 = p.2 := by decide
  have hupper : ∀ p ∈ "0123456789ABCDEF".toList.zipIdx,
      isHexDigit p.1 ∧ Number.hexDigit p.1 = p.2 := by decide
  rcases h with h | h
  · exact hlower (d, n) (List.mk_mem_zipIdx_iff_getElem?.mpr h)
  · exact hupper (d, n) (List.mk_mem_zipIdx_iff_getElem?.mpr h)

variable {ds : List Char} {ns : List Nat}

/-- Characters with hexadecimal values are hexadecimal digits. -/
theorem isHexDigit_of_forall₂ (h : List.Forall₂ HexValue ds ns) : ∀ d ∈ ds, isHexDigit d := by
  induction h with
  | nil => simp
  | cons hd _ ih => exact List.forall_mem_cons.mpr ⟨hd.reads.1, ih⟩

/-- The digits of a number are read from the highest one on. -/
theorem ofDigits_of_forall₂ (h : List.Forall₂ HexValue ds ns) :
    Number.ofDigits 16 ds = Nat.ofDigits 16 ns.reverse := by
  -- The digits come from the highest one on, so the induction is for every number read before them.
  have hfold : ∀ m, ds.foldl (fun n c => n * 16 + Number.hexDigit c) m =
      ns.foldl (fun n d => d + 16 * n) m := by
    induction h with
    | nil => exact fun m => rfl
    | cons hd _ ih =>
      intro m
      rw [List.foldl_cons, List.foldl_cons, ih, hd.reads.2, Nat.mul_comm, Nat.add_comm]
  rw [Number.ofDigits, hfold, Nat.ofDigits_eq_foldr, List.foldr_reverse]
  rfl

/-- An escape by number takes its digits and no more, whatever follows them. -/
theorem hexEscape_of_forall₂ {c : Char} (h : List.Forall₂ HexValue ds ns)
    (hvalue : Nat.ofDigits 16 ns.reverse = c.toNat) (rest : List Char) :
    hexEscape ds.length (ds ++ rest) = ⟨1 + ds.length, some c, true⟩ := by
  have htake : ((ds ++ rest).take ds.length).takeWhile isHexDigit = ds := by
    rw [List.take_left, List.takeWhile_eq_self_iff]
    exact isHexDigit_of_forall₂ h
  unfold hexEscape
  dsimp only
  rw [htake, ofDigits_of_forall₂ h, hvalue, if_pos ⟨rfl, c.valid⟩, Char.ofNat_toNat]

/-- A letter that takes no digits is an escape of one character. -/
theorem escapeAt_letter {letter : Char} (hx : letter ≠ 'x') (hu : letter ≠ 'u')
    (rest : List Char) : escapeAt (letter :: rest) = ⟨1, some (shortEscape letter), true⟩ :=
  escapeAt.eq_4 letter rest hx hu

/-- A character without a meaning of its own behind a backslash denotes itself. -/
theorem shortEscape_self {c : Char} (h : c ∉ ['n', 't', 'r', 'b', 'f', '0', 'x', 'u']) :
    shortEscape c = c := by
  unfold shortEscape
  split <;> simp_all

/-- What is written behind a backslash for a character denotes that character. -/
theorem escapeAt_written {quote c : Char} {text : List Char} (h : Written quote c ('\\' :: text))
    (rest : List Char) : escapeAt (text ++ rest) = ⟨text.length, some c, true⟩ := by
  generalize hwritten : '\\' :: text = written at h
  cases h with
  | plain hescape => exact absurd (List.cons.inj hwritten).1.symm hescape
  | short h =>
    obtain ⟨-, rfl⟩ := List.cons.inj hwritten
    -- No letter of a short escape announces a number.
    have hletter : ∀ p ∈ shortEscapes, p.1 ≠ 'x' ∧ p.1 ≠ 'u' ∧ shortEscape p.1 = p.2 := by decide
    obtain ⟨hx, hu, hc⟩ := hletter _ h
    exact (escapeAt_letter hx hu rest).trans (by rw [hc]; rfl)
  | hex h hds hvalue =>
    obtain ⟨-, rfl⟩ := List.cons.inj hwritten
    have hescape := hexEscape_of_forall₂ hds hvalue rest
    obtain ⟨rfl, hlength⟩ | ⟨rfl, hlength⟩ : _ ∧ _ ∨ _ ∧ _ := by simpa [hexEscapes] using h
    · rw [List.cons_append, escapeAt, ← hlength, hescape, List.length_cons, Nat.add_comm]
    · rw [List.cons_append, escapeAt, ← hlength, hescape, List.length_cons, Nat.add_comm]
  | escaped h =>
    obtain ⟨-, rfl⟩ := List.cons.inj hwritten
    have hx : c ≠ 'x' := fun hc => h (by simp [hc])
    have hu : c ≠ 'u' := fun hc => h (by simp [hc])
    exact (escapeAt_letter hx hu rest).trans (by rw [shortEscape_self h]; rfl)

end Escapes

/-! ## Literals -/

section Literals

variable {quote c : Char} {cs written text : List Char}

/-- A character that is not a plain one is written behind a backslash. -/
theorem Written.cases_backslash (h : Written quote c written) :
    (written = [c] ∧ c ≠ '\\' ∧ c ≠ quote) ∨ ∃ text, written = '\\' :: text := by
  cases h with
  | plain hescape hquote => exact .inl ⟨rfl, hescape, hquote⟩
  | short | hex | escaped => exact .inr ⟨_, rfl⟩

/-- What is written for a character is read as that character, whatever follows. -/
theorem quotedAt_written (hquote : quote ≠ '\\') (h : Written quote c written)
    (rest : List Char) :
    quotedAt quote (written ++ rest) =
      { quotedAt quote rest with
        taken := written.length + (quotedAt quote rest).taken
        value := c :: (quotedAt quote rest).value } := by
  obtain ⟨rfl, hescape, hne⟩ | ⟨text, rfl⟩ := h.cases_backslash
  · rw [List.cons_append, quotedAt, if_neg hne, if_neg hescape]
    rfl
  · -- The backslash is no quote, and what follows it is taken as a whole, a quote included.
    rw [List.cons_append, quotedAt, if_neg hquote.symm, if_pos rfl, escapeAt_written h]
    dsimp only
    rw [List.drop_left, List.length_cons, Nat.add_comm 1]
    rfl

/-- A text is read as what it encodes, up to the quote behind it. -/
theorem quotedAt_encoded (hquote : quote ≠ '\\') (h : Encodes quote cs text) :
    quotedAt quote (text ++ [quote]) = ⟨text.length + 1, cs, true, true⟩ := by
  induction h with
  | nil => rw [List.nil_append, quotedAt, if_pos rfl]; rfl
  | cons hc h ih =>
    rw [List.append_assoc, quotedAt_written hquote hc, ih, List.length_append, Nat.add_assoc]

end Literals

/-- A literal, in whichever way its characters are written, is one token that has the string as its
value and the whole literal as its text. -/
theorem scan_encoded (quote : Char) (value text : String) (hquote : quote ∈ ['"', '\''])
    (h : Encodes quote value.toList text.toList) :
    scan (quote.toString ++ text ++ quote.toString) =
      [.token ⟨.string value, quote.toString ++ text ++ quote.toString, ⟨1, 1⟩⟩,
        .token (.endAt
          (({} : Position).advance (quote.toString ++ text ++ quote.toString).toList))] := by
  have hsource : (quote.toString ++ text ++ quote.toString).toList =
      quote :: (text.toList ++ [quote]) := by
    simp [Char.toString_eq_singleton]
  have hlexeme : lexemeAt quote (text.toList ++ [quote]) =
      (.token (.string value), (text.toList ++ [quote]).length) := by
    have hstring : stringLexeme quote (text.toList ++ [quote]) =
        (.token (.string value), (text.toList ++ [quote]).length) := by
      have hescape : quote ≠ '\\' := by
        rintro rfl
        simp at hquote
      unfold stringLexeme
      rw [quotedAt_encoded hescape h]
      simp
    -- Either quote starts a string.
    obtain rfl | rfl : quote = '"' ∨ quote = '\'' := by simpa using hquote
    · exact hstring
    · exact hstring
  rw [scan, hsource, scanFrom, hlexeme]
  dsimp only
  rw [List.take_length, List.drop_length, scanFrom, ← hsource, String.ofList_toList]

/-- A literal with a number that has a digit behind it, an escaped line end, an escaped letter of
two bytes, a quote of the other sort and the character zero. -/
theorem scan_mixed_literal :
    Encodes '"' "B7\né'\x00".toList "\\x427\\\n\\é'\\0".toList ∧
      scan ('"'.toString ++ "\\x427\\\n\\é'\\0" ++ '"'.toString) =
        [.token ⟨.string "B7\né'\x00", '"'.toString ++ "\\x427\\\n\\é'\\0" ++ '"'.toString, ⟨1, 1⟩⟩,
          .token (.endAt (({} : Position).advance
            ('"'.toString ++ "\\x427\\\n\\é'\\0" ++ '"'.toString).toList))] := by
  have hdigits : List.Forall₂ HexValue ['4', '2'] [4, 2] :=
    .cons (.inl rfl) (.cons (.inl rfl) .nil)
  have hencodes : Encodes '"' "B7\né'\x00".toList "\\x427\\\n\\é'\\0".toList :=
    .cons (.hex (by decide) hdigits (by decide)) <| .cons (.plain (by decide) (by decide)) <|
      .cons (.escaped (by decide)) <| .cons (.escaped (by decide)) <|
      .cons (.plain (by decide) (by decide)) <| .cons (.short (by decide)) .nil
  exact ⟨hencodes, scan_encoded '"' _ _ (by decide) hencodes⟩

end Lox.Token

import Lox.Token.Cursor
import Lox.Proofs.Token.Positions
import Mathlib.Data.String.Basic

/-!
# Bytes and pieces of a text

What the bytes at a place tell about the characters there. A place between two characters is given
by the characters before it and those behind it. The byte at such a place decides every question
about the next character that only characters below 128 answer with yes (`Ascii.lead`), and the
bytes that continue a character are told from those that start one (`continues_of_lt`,
`continues_lead`). A piece of the text exists exactly between two such places (`piece_eq_ok_iff`).
-/

namespace Lox.Token

open String (utf8Len utf8EncodeChar)

/-! ## The bytes behind a place -/

/-- The length of an encoded text. -/
theorem length_flatMap_utf8EncodeChar (cs : List Char) :
    (cs.flatMap utf8EncodeChar).length = utf8Len cs := by
  induction cs with
  | nil => rfl
  | cons c cs ih =>
    rw [List.flatMap_cons, List.length_append, ih, String.length_utf8EncodeChar,
      String.utf8Len_cons, Nat.add_comm]

/-- Past the end all bytes are zero. -/
theorem lt_of_byteAt_ne {text : String} {i : Nat} (h : byteAt text i ≠ '\x00') :
    i < text.utf8ByteSize := by
  by_contra hge
  refine h ?_
  have hsize : text.toUTF8.data.size ≤ i := Nat.le_of_not_lt hge
  rw [byteAt, Array.getD_eq_getD_getElem?, Array.getElem?_eq_none hsize]
  rfl

/-- The byte with a given number in the bytes of some characters. -/
def byteOf (rest : List Char) (k : Nat) : Char :=
  .ofUInt8 ((rest.flatMap utf8EncodeChar).getD k 0)

/-- The first byte of some characters. -/
def lead (rest : List Char) : Char :=
  byteOf rest 0

/-- Behind a place are the bytes of the characters behind it. -/
theorem drop_bytes {text : String} {before rest : List Char} (h : text.toList = before ++ rest) :
    text.toUTF8.data.toList.drop (utf8Len before) = rest.flatMap utf8EncodeChar := by
  have hbytes : text.toUTF8.data.toList = (before ++ rest).flatMap utf8EncodeChar := by
    rw [← h, ← Text.bytes_ofList, String.ofList_toList]
    rfl
  rw [hbytes, List.flatMap_append, ← length_flatMap_utf8EncodeChar, List.drop_left]

/-- A line has as many bytes as its characters have. -/
theorem length_takeWhile_bytes (rest : List Char) :
    ((rest.flatMap utf8EncodeChar).takeWhile (· != 10)).length =
      utf8Len (rest.takeWhile (· != '\n')) := by
  induction rest with
  | nil => rfl
  | cons c rest ih =>
    by_cases hc : c = '\n'
    · subst hc
      rfl
    · have hbytes : ∀ b ∈ utf8EncodeChar c, b != 10 := by
        have hcount := Text.count_utf8EncodeChar c
        rw [if_neg hc, List.count_eq_zero] at hcount
        intro b hb
        exact bne_iff_ne.mpr fun heq => hcount (heq ▸ hb)
      rw [List.flatMap_cons, List.takeWhile_append_of_pos hbytes, List.length_append, ih,
        List.takeWhile_cons_of_pos (p := (· != '\n')) (bne_iff_ne.mpr hc), String.utf8Len_cons,
        String.length_utf8EncodeChar, Nat.add_comm]

/-- The bytes of a text behind its first part are those of the rest. -/
theorem byteAt_eq_byteOf {text : String} {before rest : List Char}
    (h : text.toList = before ++ rest) (k : Nat) :
    byteAt text (utf8Len before + k) = byteOf rest k := by
  unfold byteAt byteOf
  rw [Array.getD_eq_getD_getElem?, ← Array.getElem?_toList, ← List.getElem?_drop, drop_bytes h,
    List.getD_eq_getElem?_getD]

/-- The bytes behind a first part are those of the rest. -/
theorem byteOf_append (cs rest : List Char) (k : Nat) :
    byteOf (cs ++ rest) (utf8Len cs + k) = byteOf rest k := by
  have hlength := length_flatMap_utf8EncodeChar cs
  unfold byteOf
  rw [List.getD_eq_getElem?_getD, List.getD_eq_getElem?_getD, List.flatMap_append,
    List.getElem?_append_right (by omega), hlength, Nat.add_sub_cancel_left]

/-- The first bytes are those of the first character. -/
theorem byteOf_cons_of_lt {c : Char} (rest : List Char) {k : Nat} (h : k < c.utf8Size) :
    byteOf (c :: rest) k = .ofUInt8 ((utf8EncodeChar c).getD k 0) := by
  have hlength := String.length_utf8EncodeChar c
  unfold byteOf
  rw [List.getD_eq_getElem?_getD, List.getD_eq_getElem?_getD, List.flatMap_cons,
    List.getElem?_append_left (by omega)]

/-! ## Characters by their first byte -/

/-- An ASCII character is one byte. -/
theorem utf8Size_eq_one {c : Char} (h : c.toNat < 128) : c.utf8Size = 1 :=
  Char.utf8Size_eq_one_iff.mpr (Nat.le_of_lt_succ h : c.val.toNat ≤ 127)

/-- A character below 128 is its own byte. -/
theorem lead_cons {c : Char} (h : c.toNat < 128) (rest : List Char) : lead (c :: rest) = c := by
  have hsize := utf8Size_eq_one h
  rw [lead, byteOf_cons_of_lt rest (by omega), String.utf8EncodeChar_eq_singleton hsize]
  refine Char.ext (UInt32.toNat_inj.mp ?_)
  show (UInt8.ofNat c.val.toNat).toNat = c.val.toNat
  exact Nat.mod_eq_of_lt (Nat.lt_trans h (by decide))

/-- Behind an ASCII character comes the lead of the rest. -/
theorem byteOf_one {c : Char} (h : c.toNat < 128) (rest : List Char) :
    byteOf (c :: rest) 1 = lead rest := by
  have hone : utf8Len [c] + 0 = 1 := by simp [utf8Size_eq_one h]
  rw [← hone]
  exact byteOf_append [c] rest 0

/-- The first byte of a character from 128 on is none that continues a character, and all its other
bytes are. -/
theorem utf8EncodeChar_eq_cons {c : Char} (h : 128 ≤ c.toNat) :
    ∃ b bs, utf8EncodeChar c = b :: bs ∧ 192 ≤ b.toNat ∧
      ∀ b' ∈ bs, 128 ≤ b'.toNat ∧ b'.toNat < 192 := by
  have hc : 128 ≤ c.val.toNat := h
  unfold String.utf8EncodeChar
  dsimp only
  rw [if_neg (by omega)]
  -- One case for each number of bytes from two to four.
  split_ifs
  all_goals
    refine ⟨_, _, rfl, ?_, ?_⟩
    · rw [UInt8.toNat_ofNat']
      omega
    · simp only [List.forall_mem_cons, UInt8.toNat_ofNat', List.not_mem_nil, false_implies,
        implies_true, and_true]
      omega

/-- Other characters start with a byte from 192 on. -/
theorem le_lead {c : Char} (h : 128 ≤ c.toNat) (rest : List Char) :
    192 ≤ (lead (c :: rest)).toNat := by
  obtain ⟨b, bs, hencode, hb, -⟩ := utf8EncodeChar_eq_cons h
  rw [lead, byteOf_cons_of_lt rest c.utf8Size_pos, hencode]
  exact hb

/-- The bytes of a character that follow its first one continue it. -/
theorem continues_of_lt {c : Char} (rest : List Char) {k : Nat} (hk : 0 < k)
    (h : k < c.utf8Size) : continues (byteOf (c :: rest) k) := by
  -- A character below 128 has one byte only.
  have hc : 128 ≤ c.toNat := by
    by_contra hlow
    rw [utf8Size_eq_one (by omega)] at h
    omega
  obtain ⟨b, bs, hencode, -, hbs⟩ := utf8EncodeChar_eq_cons hc
  have hlength := String.length_utf8EncodeChar c
  rw [hencode, List.length_cons] at hlength
  obtain ⟨j, rfl⟩ := Nat.exists_eq_add_one_of_ne_zero (Nat.ne_of_gt hk)
  have hj : j < bs.length := by omega
  rw [byteOf_cons_of_lt rest h, hencode, List.getD_cons_succ, List.getD_eq_getElem?_getD,
    List.getElem?_eq_getElem hj, Option.getD_some]
  obtain ⟨hlo, hhi⟩ := hbs _ (List.getElem_mem hj)
  unfold continues
  rw [Bool.and_eq_true, decide_eq_true_iff, decide_eq_true_iff]
  exact ⟨hlo, Nat.le_of_lt_succ hhi⟩

/-- Bytes that continue a character are not ASCII. -/
theorem le_of_continues {b : Char} (h : continues b) : 128 ≤ b.toNat := by
  obtain ⟨hle, -⟩ := (Bool.and_eq_true ..).mp h
  exact of_decide_eq_true hle

/-- Between two characters no byte continues one. -/
theorem continues_lead (rest : List Char) : continues (lead rest) = false := by
  have hout (c : Char) (h : c.toNat < 128 ∨ 192 ≤ c.toNat) : continues c = false := by
    unfold continues
    rw [Bool.and_eq_false_iff, decide_eq_false_iff_not, decide_eq_false_iff_not]
    refine h.imp (fun hlt hle => ?_) (fun hle hle' => ?_)
    · exact absurd (show 128 ≤ c.toNat from hle) (by omega)
    · exact absurd (show c.toNat ≤ 191 from hle') (by omega)
  cases rest with
  | nil => decide
  | cons c rest =>
    obtain hc | hc := Nat.lt_or_ge c.toNat 128
    · rw [lead_cons hc]
      exact hout c (.inl hc)
    · exact hout _ (.inr (le_lead hc rest))

/-- A class of characters below 128 to which the zero character does not belong. -/
def Ascii (p : Char → Bool) : Prop :=
  ∀ c, p c → 0 < c.toNat ∧ c.toNat < 128

/-- A test of ASCII characters fails for the others. -/
theorem Ascii.eq_false {p : Char → Bool} (hp : Ascii p) {c : Char} (h : 128 ≤ c.toNat) :
    p c = false :=
  Bool.eq_false_iff.mpr fun hc => absurd (hp c hc).2 (Nat.not_lt_of_le h)

/-- Whether the next character is in such a class is decided by its first byte. -/
theorem Ascii.lead {p : Char → Bool} (hp : Ascii p) (rest : List Char) :
    p (lead rest) = rest.head?.any p := by
  cases rest with
  | nil =>
    refine Bool.eq_false_iff.mpr fun h => ?_
    exact absurd (hp _ h).1 (by decide)
  | cons c rest =>
    obtain hc | hc := Nat.lt_or_ge c.toNat 128
    · rw [lead_cons hc]
      rfl
    · have hlead := le_lead hc rest
      rw [hp.eq_false (by omega)]
      exact (hp.eq_false hc).symm

/-- A range of ASCII characters is a test of them. -/
theorem ascii_between {lo hi : Char} (hlo : 0 < lo.toNat) (hhi : hi.toNat < 128) :
    Ascii fun c => lo ≤ c && c ≤ hi := by
  intro c hc
  obtain ⟨h₁, h₂⟩ := (Bool.and_eq_true ..).mp hc
  exact ⟨Nat.lt_of_lt_of_le hlo (of_decide_eq_true h₁),
    Nat.lt_of_le_of_lt (of_decide_eq_true h₂) hhi⟩

/-- Being an ASCII character is a test of them. -/
theorem ascii_eq {d : Char} (h : 0 < d.toNat ∧ d.toNat < 128) : Ascii (· == d) := by
  intro c hc
  exact (beq_iff_eq.mp hc).symm ▸ h

/-- Two tests of ASCII characters make one. -/
theorem Ascii.or {p q : Char → Bool} (hp : Ascii p) (hq : Ascii q) : Ascii fun c => p c || q c :=
  fun c hc => ((Bool.or_eq_true ..).mp hc).elim (hp c) (hq c)

/-- Digits are ASCII. -/
theorem ascii_isDigit : Ascii Number.isDigit :=
  ascii_between (by decide) (by decide)

/-- Hexadecimal digits are ASCII. -/
theorem ascii_isHexDigit : Ascii Number.isHexDigit :=
  (ascii_isDigit.or (ascii_between (by decide) (by decide))).or
    (ascii_between (by decide) (by decide))

/-- Letters are ASCII. -/
theorem ascii_isLetter : Ascii isLetter :=
  ((ascii_between (by decide) (by decide)).or (ascii_between (by decide) (by decide))).or
    (ascii_eq (by decide))

/-- The characters of words are ASCII. -/
theorem ascii_isWordChar : Ascii isWordChar :=
  ascii_isLetter.or ascii_isDigit

/-- Spaces are ASCII. -/
theorem ascii_isSpace : Ascii isSpace :=
  (((ascii_eq (by decide)).or (ascii_eq (by decide))).or (ascii_eq (by decide))).or
    (ascii_eq (by decide))

/-- Whether the next character is a given one below 128 is decided by its first byte. -/
theorem lead_eq_iff {d : Char} (h : 0 < d.toNat ∧ d.toNat < 128) (rest : List Char) :
    lead rest = d ↔ rest.head? = some d := by
  have hany := (ascii_eq h).lead rest
  rw [← beq_iff_eq, hany]
  cases rest <;> simp

/-- The same for some characters at once. -/
theorem lead_mem_iff {ds : List Char} (h : ds.all fun d => 0 < d.toNat && d.toNat < 128) (c : Char)
    (rest : List Char) : lead (c :: rest) ∈ ds ↔ c ∈ ds := by
  have hascii : Ascii (ds.contains ·) := by
    intro c hc
    simpa using List.all_eq_true.mp h c (List.contains_iff_mem.mp hc)
  have hlead := hascii.lead (c :: rest)
  rw [← List.contains_iff_mem, hlead, ← List.contains_iff_mem]
  rfl

/-! ## Pieces -/

/-- The places between two characters, and before and behind all of them. -/
def IsBoundary (text : String) (i : Nat) : Prop :=
  ∃ before behind, text = before ++ behind ∧ before.utf8ByteSize = i

/-- Valid positions are the boundaries between characters. -/
theorem isValid_iff (text : String) (i : Nat) :
    String.Pos.Raw.isValid text ⟨i⟩ ↔ IsBoundary text i := by
  rw [String.Pos.Raw.isValid_eq_true_iff, String.Pos.Raw.isValid_iff_exists_append]
  refine exists_congr fun before => exists_congr fun behind => and_congr_right fun _ => ?_
  rw [String.Pos.Raw.ext_iff]
  exact eq_comm

/-- A piece of a text goes from one place between two characters to a later one. -/
theorem piece_eq_ok_iff (text : String) (lo hi : Nat) :
    (∃ run, piece text lo hi = .ok run) ↔
      lo ≤ hi ∧ hi ≤ text.utf8ByteSize ∧ IsBoundary text lo ∧ IsBoundary text hi := by
  have hbound : IsBoundary text hi → hi ≤ text.utf8ByteSize := by
    rintro ⟨before, behind, rfl, rfl⟩
    rw [String.utf8ByteSize_append]
    exact Nat.le_add_right ..
  rw [← isValid_iff] at hbound
  rw [← isValid_iff, ← isValid_iff]
  unfold piece
  split
  · next h => exact iff_of_true ⟨_, rfl⟩ ⟨h.1, hbound h.2.2, h.2⟩
  · next h => exact iff_of_false (by simp) fun h' => h ⟨h'.1, h'.2.2⟩

/-- A piece between boundaries is the text between them. -/
theorem piece_of_split {text : String} {before run behind : List Char}
    (h : text.toList = before ++ run ++ behind) :
    piece text (utf8Len before) (utf8Len (before ++ run)) = .ok (String.ofList run) := by
  have htext : text = String.ofList (before ++ run ++ behind) := by rw [← h, String.ofList_toList]
  have hlo : IsBoundary text (utf8Len before) :=
    ⟨.ofList before, .ofList (run ++ behind), by rw [htext, ← String.ofList_append]; simp,
      String.utf8ByteSize_ofList before⟩
  have hhi : IsBoundary text (utf8Len (before ++ run)) :=
    ⟨.ofList (before ++ run), .ofList behind, by rw [htext, ← String.ofList_append],
      String.utf8ByteSize_ofList _⟩
  have hle : utf8Len before ≤ utf8Len (before ++ run) := by simp
  rw [← isValid_iff] at hlo hhi
  rw [piece, if_pos ⟨hle, hlo, hhi⟩, String.utf8Len_append, htext, String.extract_of_valid]

end Lox.Token

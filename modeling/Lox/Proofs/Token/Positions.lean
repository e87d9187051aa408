import Lox.Proofs.Token.Lines
import Mathlib.Data.List.DropRight

/-!
# Positions of items

A scan moves its position along with the text. `Position.behind` says what that position should be:
the line ends before a place are counted as bytes of the text, and what is between the last of them
and the place is counted in characters. The two agree for every item, wherever it starts and
whatever was passed over before it (`scan_starts`).
-/

namespace Lox

/-! ## Bytes and characters -/

/-- The bytes of a text. -/
def Text.bytes (text : String) : List UInt8 :=
  text.toUTF8.data.toList

/-- The position behind a text: one line more than it has bytes that end a line, and one column more
than it has characters behind the last of them. -/
def Position.behind (before : String) : Position where
  line := 1 + (Text.bytes before).count 10
  column := 1 + (before.toList.rtakeWhile (· ≠ '\n')).length

/-- A character that takes more than one byte has only high ones. -/
theorem Text.le_of_mem_utf8EncodeChar {c : Char} (hc : 128 ≤ c.val.toNat) :
    ∀ b ∈ String.utf8EncodeChar c, 128 ≤ b.toNat := by
  unfold String.utf8EncodeChar
  dsimp only
  rw [if_neg (by omega)]
  split_ifs
  all_goals
    simp only [List.forall_mem_cons, UInt8.toNat_ofNat', List.not_mem_nil, false_implies,
      implies_true, and_true]
    omega

/-- Only the character that ends a line has a byte that ends a line. -/
theorem Text.count_utf8EncodeChar (c : Char) :
    (String.utf8EncodeChar c).count 10 = if c = '\n' then 1 else 0 := by
  have hchar : c = '\n' ↔ c.val.toNat = 10 := Char.ext_iff.trans UInt32.toNat_inj.symm
  -- Below 128 a character is its own byte, and from there on all its bytes are high.
  by_cases hc : 128 ≤ c.val.toNat
  · have hne : c ≠ '\n' := fun h => by
      rw [hchar.mp h] at hc
      contradiction
    rw [if_neg hne, List.count_eq_zero]
    exact fun hmem => absurd (le_of_mem_utf8EncodeChar hc 10 hmem) (by decide)
  · have hbyte : UInt8.ofNat c.val.toNat = 10 ↔ c.val.toNat % 256 = 10 := UInt8.toNat_inj.symm
    unfold String.utf8EncodeChar
    dsimp only
    rw [if_pos (by omega), List.count_singleton, if_congr hchar rfl rfl]
    refine if_congr ?_ rfl rfl
    rw [beq_iff_eq, hbyte]
    omega

/-- The bytes of a text are those of its characters. -/
theorem Text.bytes_ofList (cs : List Char) :
    Text.bytes (String.ofList cs) = cs.flatMap String.utf8EncodeChar := by
  rw [bytes, String.toUTF8_eq_toByteArray, String.toByteArray_ofList]
  exact List.toList_data_toByteArray

/-- A text has as many bytes that end a line as characters that do. -/
theorem Text.count_bytes (cs : List Char) :
    (Text.bytes (String.ofList cs)).count 10 = cs.count '\n' := by
  rw [bytes_ofList]
  induction cs with
  | nil => rfl
  | cons c cs ih =>
    rw [List.flatMap_cons, List.count_append, ih, count_utf8EncodeChar, List.count_cons,
      Nat.add_comm]
    simp only [beq_iff_eq]

/-- Along a text the column starts anew behind each line end. -/
theorem Position.column_advance (cs : List Char) :
    (({} : Position).advance cs).column = 1 + (cs.rtakeWhile (· ≠ '\n')).length := by
  induction cs using List.reverseRecOn with
  | nil => rfl
  | append_singleton cs c ih =>
    have hnext (p : Position) : p.advance [c] = p.next c := rfl
    rw [advance_append, hnext, next, List.rtakeWhile_concat]
    by_cases hc : c = '\n'
    · rw [if_pos hc, if_neg (by simpa using hc)]
      rfl
    · rw [if_neg hc, if_pos (by simpa using hc), ih, List.length_append]
      rfl

/-- A position that is moved along a text is the position behind it. -/
theorem Position.advance_eq_behind (before : List Char) :
    ({} : Position).advance before = .behind (String.ofList before) := by
  have hline := line_advance {} before
  have hcolumn := column_advance before
  rw [behind, Text.count_bytes, String.toList_ofList, ← hcolumn]
  exact congrArg (Position.mk · _) hline

namespace Token

/-! ## Texts that are cut off before an item -/

section Cuts

variable {text rest : List Char}

/-- What stands at the front of a text stands at the front of the whole. -/
theorem forall_head?_of_append {P : Char → Prop} {more : List Char}
    (h : ∀ c ∈ (rest ++ more).head?, P c) : ∀ c ∈ rest.head?, P c := by
  intro c hc
  rw [Option.mem_def] at hc
  exact h c (by rw [List.head?_append, hc]; rfl)

/-- A blank is one also if the text is cut off further on. -/
theorem Blank.cut {more : List Char} (h : Blank text (rest ++ more)) : Blank text rest :=
  h.imp_right (Or.imp_left fun ⟨cs, htext, hcs, hhead⟩ =>
    ⟨cs, htext, hcs, forall_head?_of_append hhead⟩)

/-- A fault has the same characters also if the text is cut off further on. -/
theorem Fault.Spans.cut {more : List Char} {f : Fault} (h : f.Spans text (rest ++ more)) :
    f.Spans text rest := by
  -- Of what stands behind, only the first character is asked about, or that there is none.
  cases f with
  | unexpected c => exact h
  | unterminatedComment =>
    obtain ⟨cs, htext, hcs, hrest⟩ := h
    exact ⟨cs, htext, hcs, (List.append_eq_nil_iff.mp hrest).1⟩
  | unterminatedString =>
    obtain ⟨quote, hquote, cs, hcs, htext, hrest⟩ := h
    exact ⟨quote, hquote, cs, hcs, htext, (List.append_eq_nil_iff.mp hrest).1⟩
  | badEscape => exact h
  | hexDigitsMissing =>
    obtain ⟨mark, hmark, htext, hhead⟩ := h
    exact ⟨mark, hmark, htext, forall_head?_of_append hhead⟩
  | hexTooLarge lexeme =>
    obtain ⟨mark, hmark, ds, htext, hds, hhead, hlexeme⟩ := h
    exact ⟨mark, hmark, ds, htext, hds, forall_head?_of_append hhead, hlexeme⟩
  | exponentDigitsMissing =>
    obtain ⟨whole, fraction, sign, mark, hmark, htext, hwhole, hfraction, hsign, hhead⟩ := h
    exact ⟨whole, fraction, sign, mark, hmark, htext, hwhole, hfraction, hsign,
      forall_head?_of_append hhead⟩

/-- An item spans its text whatever follows. -/
theorem Item.Spans.cut {more : List Char} {i : Item} (h : i.Spans text (rest ++ more)) :
    i.Spans text rest := by
  cases i with
  | token t => exact h
  | fault p f => exact Fault.Spans.cut h

end Cuts

/-! ## Where items start -/

/-- Items account for a text, and no gap is before the first of them. -/
inductive Flush : List Item → List Char → Prop
  | last {t : Token} (ht : t.kind = .eof) : Flush [.token t] []
  | item {text rest : List Char} {i : Item} {items : List Item} (hne : text ≠ [])
      (hi : i.Spans text rest) (h : Partition items rest) : Flush (i :: items) (text ++ rest)

/-- The end token accounts for nothing. -/
theorem Flush.eq_nil {items : List Item} {cs : List Char} (h : Flush items cs)
    (hlast : items.length = 1) : cs = [] := by
  cases h with
  | last => rfl
  | item hne hi h =>
    obtain rfl := List.eq_nil_of_length_eq_zero (Nat.succ.inj hlast)
    cases h

/-- What a scan does next: it passes over a blank, or it yields an item for some characters and
places it where they start. -/
theorem scanFrom_cons (p : Position) (c : Char) (cs : List Char) :
    ∃ text rest, c :: cs = text ++ rest ∧ text ≠ [] ∧
      ((Blank text rest ∧ scanFrom p (c :: cs) = scanFrom (p.advance text) rest) ∨
        ∃ i, i.Spans text rest ∧ i.position = p ∧
          scanFrom p (c :: cs) = i :: scanFrom (p.advance text) rest) := by
  have hspans := lexemeAt_spans c cs
  rcases hlexeme : lexemeAt c cs with ⟨lexeme, taken⟩
  rw [hlexeme] at hspans
  refine ⟨c :: cs.take taken, cs.drop taken, by simp, by simp, ?_⟩
  rw [scanFrom, hlexeme]
  cases lexeme with
  | gap => exact .inl ⟨hspans, rfl⟩
  | token kind => exact .inr ⟨.token ⟨kind, _, p⟩, ⟨hspans, rfl⟩, rfl, rfl⟩
  | fault f => exact .inr ⟨.fault p f, hspans, rfl, rfl⟩

/-- Wherever a text stands, each of its items is placed behind what is accounted for by the items
before it. -/
theorem scanFrom_starts (before cs : List Char) {n : Nat} {i : Item}
    (h : (scanFrom (({} : Position).advance before) cs)[n]? = some i) :
    ∃ passed rest, cs = passed ++ rest ∧
      Partition ((scanFrom (({} : Position).advance before) cs).take n ++
        [.token (.endAt i.position)]) passed ∧
      Flush ((scanFrom (({} : Position).advance before) cs).drop n) rest ∧
      i.position = ({} : Position).advance (before ++ passed) := by
  cases cs with
  | nil =>
    rw [scanFrom] at h ⊢
    obtain ⟨rfl, rfl⟩ : n = 0 ∧ .token (.endAt _) = i := by simpa [List.getElem?_singleton] using h
    exact ⟨[], [], rfl, .last .nil rfl, .last rfl, by rw [List.append_nil]; rfl⟩
  | cons c cs =>
    obtain ⟨text, rest, hcs, hne, hstep⟩ := scanFrom_cons (({} : Position).advance before) c cs
    have hshorter : rest.length < (c :: cs).length := by
      have hpos := List.length_pos_iff.mpr hne
      rw [hcs, List.length_append]
      omega
    rw [← Position.advance_append] at hstep
    obtain ⟨hblank, hscan⟩ | ⟨first, hfirst, hposition, hscan⟩ := hstep
    · -- The blank goes to what was passed over, and no item is counted.
      rw [hscan] at h ⊢
      obtain ⟨passed, rest, rfl, hearlier, hflush, hi⟩ := scanFrom_starts (before ++ text) rest h
      refine ⟨text ++ passed, rest, ?_, hearlier.blank hblank.cut, hflush, ?_⟩
      · rw [hcs, List.append_assoc]
      · rw [hi, List.append_assoc]
    · rw [hscan] at h ⊢
      cases n with
      | zero =>
        -- This is the item that is looked for, and it is placed where its characters start.
        obtain rfl := Option.some.inj h
        refine ⟨[], text ++ rest, hcs, .last .nil rfl, .item hne hfirst ?_, ?_⟩
        · exact scanFrom_partition _ rest
        · rw [List.append_nil, hposition]
      | succ n =>
        obtain ⟨passed, rest, rfl, hearlier, hflush, hi⟩ := scanFrom_starts (before ++ text) rest h
        refine ⟨text ++ passed, rest, ?_, .item .nil hne hfirst.cut hearlier, hflush, ?_⟩
        · rw [hcs, List.append_assoc]
        · rw [hi, List.append_assoc]
termination_by cs.length

/-- An item stands behind what is accounted for by the items before it. The end token stands behind
the whole text. -/
theorem scan_starts {source : String} {n : Nat} {i : Item} (h : (scan source)[n]? = some i) :
    ∃ before rest : String, source = before ++ rest ∧
      Partition ((scan source).take n ++ [.token (.endAt i.position)]) before.toList ∧
      Flush ((scan source).drop n) rest.toList ∧
      (n + 1 = (scan source).length → before = source) ∧ i.position = .behind before := by
  obtain ⟨before, rest, hsource, hearlier, hflush, hi⟩ := scanFrom_starts [] source.toList h
  have hparts : source = String.ofList before ++ String.ofList rest := by
    rw [← String.ofList_append, ← hsource, String.ofList_toList]
  refine ⟨String.ofList before, String.ofList rest, hparts, ?_, ?_, fun hlast => ?_, ?_⟩
  · rwa [String.toList_ofList]
  · rwa [String.toList_ofList]
  -- From the last place on there is only the end token, which accounts for nothing.
  · have hnil : rest = [] := hflush.eq_nil (by
      rw [List.length_drop]
      exact Nat.sub_eq_of_eq_add' hlast.symm)
    rw [hparts, hnil, String.ofList_nil, String.append_empty]
  · rw [hi, List.nil_append, Position.advance_eq_behind]

end Token

end Lox

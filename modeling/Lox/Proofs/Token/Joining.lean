import Lox.Session
import Lox.Proofs.Token.Partition

/-!
# Texts that are joined

No lexeme goes on over a blank, but for comments and strings, and these end with the line or with a
mark of their own. So what a text begins with stays the same when a blank and another text come
behind it, unless it is a comment that only the line end would end (`Token.lexemeAt_append`). The
tokens of two texts that are joined by a line end are the tokens of the first one and then those of
the second one, some lines further down (`tokenize_append`).
-/

namespace Lox

namespace Token

open Number (isDigit isHexDigit)

section Lists

variable {p : Char → Bool} {b : Char} {cs rest : List Char}

/-- What is taken while a condition holds ends before a character that does not satisfy it. -/
theorem takeWhile_append_cons (hp : p b = false) :
    (cs ++ b :: rest).takeWhile p = cs.takeWhile p := by
  induction cs with
  | nil => simp [hp]
  | cons c cs ih =>
    rw [List.cons_append, List.takeWhile_cons, List.takeWhile_cons, ih]

/-- A run that ends before a character is dropped alone. -/
theorem dropWhile_append_cons (hp : p b = false) :
    (cs ++ b :: rest).dropWhile p = cs.dropWhile p ++ b :: rest := by
  induction cs with
  | nil => simp [hp]
  | cons c cs ih =>
    rw [List.cons_append, List.dropWhile_cons, List.dropWhile_cons, ih]
    split <;> rfl

/-- The same if no more than some number of characters is looked at. -/
theorem takeWhile_take_append_cons (hp : p b = false) (width : Nat) :
    ((cs ++ b :: rest).take width).takeWhile p = (cs.take width).takeWhile p := by
  rw [List.take_append]
  cases width - cs.length with
  | zero => rw [List.take_zero, List.append_nil]
  | succ n => rw [List.take_succ_cons, takeWhile_append_cons hp]

end Lists

/-! ## Blanks -/

section Blanks

variable {b : Char} (hb : Text.isBlank b)
include hb

/-- Blanks are outside of the printable ASCII characters. -/
theorem toNat_of_isBlank : b.toNat ≤ 0x20 ∨ 0x85 ≤ b.toNat := by
  unfold Text.isBlank at hb
  simp only [Bool.or_eq_true, Bool.and_eq_true, decide_eq_true_eq, beq_iff_eq] at hb
  omega

/-- No blank is one of the characters that signs, words and numbers are made of. -/
theorem ne_of_isBlank {d : Char} (hd : 0x20 < d.toNat ∧ d.toNat < 0x85) : b ≠ d := by
  rintro rfl
  have hbounds := toNat_of_isBlank hb
  omega

/-- A blank is in no range of printable ASCII characters. -/
theorem between_of_isBlank {lo hi : Char} (hlo : 0x20 < lo.toNat) (hhi : hi.toNat < 0x85) :
    (decide (lo ≤ b) && decide (b ≤ hi)) = false := by
  have hbounds := toNat_of_isBlank hb
  have hle (c d : Char) : c ≤ d ↔ c.toNat ≤ d.toNat := Iff.rfl
  simp only [Bool.and_eq_false_iff, decide_eq_false_iff_not, hle]
  omega

/-- A blank is no digit. -/
theorem isDigit_of_isBlank : isDigit b = false :=
  between_of_isBlank hb (by decide) (by decide)

/-- A blank is no hexadecimal digit. -/
theorem isHexDigit_of_isBlank : isHexDigit b = false := by
  unfold isHexDigit
  rw [isDigit_of_isBlank hb, between_of_isBlank hb (by decide) (by decide),
    between_of_isBlank hb (by decide) (by decide)]
  rfl

/-- A blank is in no word. -/
theorem isWordChar_of_isBlank : isWordChar b = false := by
  have hunderscore : (b == '_') = false := beq_false_of_ne (ne_of_isBlank hb (by decide))
  unfold isWordChar isLetter
  rw [isDigit_of_isBlank hb, between_of_isBlank hb (by decide) (by decide),
    between_of_isBlank hb (by decide) (by decide), hunderscore]
  rfl

end Blanks

/-! ## What a text begins with -/

section Lexemes

variable {b c quote : Char} {cs rest : List Char}

/-- A comment ends where it did. -/
theorem commentEnd_append {n : Nat} (h : commentEnd cs = some n) :
    commentEnd (cs ++ rest) = some n := by
  fun_induction commentEnd cs generalizing n with
  | case1 cs => exact h
  | case2 c cs hnot ih =>
    obtain ⟨k, hk, rfl⟩ := Option.map_eq_some_iff.mp h
    rw [List.cons_append, commentEnd]
    · rw [ih hk]
      rfl
    · rintro d rfl hd
      -- The comment does not end at once, and it does end, so there is a character behind.
      cases cs with
      | nil => contradiction
      | cons d' cs =>
        obtain ⟨rfl, rfl⟩ := List.cons.inj hd
        exact hnot cs rfl rfl
  | case3 => contradiction

/-- A slash before another character is a sign. -/
theorem slashLexeme_sign (hslash : c ≠ '/') (hstar : c ≠ '*') :
    slashLexeme (c :: cs) = (.token .slash, 0) := by
  rw [slashLexeme] <;> simp [hslash, hstar]

/-- What starts with a slash ends where it did, unless it is a comment that has no line end yet. -/
theorem slashLexeme_append (hb : Text.isBlank b) (h : ∀ f, (slashLexeme cs).1 ≠ .fault f)
    (hgap : b ≠ '\n' → (slashLexeme cs).1 = .gap → (slashLexeme cs).2 < cs.length) :
    slashLexeme (cs ++ b :: rest) = slashLexeme cs := by
  unfold slashLexeme at h
  split at h
  · next cs =>
    rw [List.cons_append, slashLexeme, slashLexeme]
    -- Either the blank is the line end that the comment lacks, or the comment has one already.
    by_cases hline : b = '\n'
    · rw [takeWhile_append_cons (by simp [hline])]
    · have hlt : (cs.takeWhile (· != '\n')).length ≠ cs.length := by
        have htaken := hgap hline rfl
        rw [slashLexeme, List.length_cons] at htaken
        dsimp only at htaken
        omega
      rw [List.takeWhile_append, if_neg hlt]
  · next cs =>
    cases hend : commentEnd cs with
    | none =>
      rw [hend] at h
      exact absurd rfl (h _)
    | some n => rw [List.cons_append, slashLexeme, slashLexeme, commentEnd_append hend, hend]
  · next hslash hstar =>
    cases cs with
    | nil =>
      exact slashLexeme_sign (ne_of_isBlank hb (by decide)) (ne_of_isBlank hb (by decide))
    | cons c cs =>
      have hslash' : c ≠ '/' := fun hc => hslash cs (by rw [hc])
      have hstar' : c ≠ '*' := fun hc => hstar cs (by rw [hc])
      rw [List.cons_append, slashLexeme_sign hslash' hstar', slashLexeme_sign hslash' hstar']

/-- An escape ends where it did if there is something behind the backslash. -/
theorem escapeAt_append (hb : Text.isBlank b) (hcs : cs ≠ []) :
    escapeAt (cs ++ b :: rest) = escapeAt cs := by
  have hhex (width : Nat) (ds : List Char) :
      hexEscape width (ds ++ b :: rest) = hexEscape width ds := by
    unfold hexEscape
    rw [takeWhile_take_append_cons (isHexDigit_of_isBlank hb)]
  cases cs with
  | nil => contradiction
  | cons c cs =>
    by_cases hx : c = 'x'
    · rw [hx, List.cons_append, escapeAt, escapeAt, hhex]
    by_cases hu : c = 'u'
    · rw [hu, List.cons_append, escapeAt, escapeAt, hhex]
    · rw [List.cons_append, escapeAt.eq_4 _ _ hx hu, escapeAt.eq_4 _ _ hx hu]

/-- A string that is closed ends where it did. -/
theorem quotedAt_append (hb : Text.isBlank b) (h : (quotedAt quote cs).closed) :
    quotedAt quote (cs ++ b :: rest) = quotedAt quote cs := by
  fun_induction quotedAt quote cs with
  | case1 => contradiction
  | case2 cs => rw [List.cons_append, quotedAt, if_pos rfl]
  | case3 cs e rest' hne ih =>
    -- The string is closed, so its backslash is not the last character and the escape fits in.
    have hcs : cs ≠ [] := by
      rintro rfl
      simp [rest', quotedAt] at h
    have htaken : e.taken ≤ cs.length := by
      obtain ⟨d, ds, rfl⟩ := List.exists_cons_of_ne_nil hcs
      obtain ⟨digits, tail, rfl, hdigits, -⟩ := escapeAt_taken d ds
      simp only [e, hdigits, List.length_cons, List.length_append]
      omega
    rw [List.cons_append, quotedAt, if_neg hne, if_pos rfl, escapeAt_append hb hcs]
    dsimp only
    rw [List.drop_append_of_le_length htaken, ih h]
  | case4 c cs hne hescape rest' ih =>
    rw [List.cons_append, quotedAt, if_neg hne, if_neg hescape, ih h]

/-- A string that ends before a blank is the same with it. -/
theorem stringLexeme_append (hb : Text.isBlank b) (h : ∀ f, (stringLexeme c cs).1 ≠ .fault f) :
    stringLexeme c (cs ++ b :: rest) = stringLexeme c cs := by
  have hclosed : (quotedAt c cs).closed := by
    by_contra hopen
    unfold stringLexeme at h
    rw [if_pos (by simpa using hopen)] at h
    exact h _ rfl
  unfold stringLexeme
  rw [quotedAt_append hb hclosed]

/-- No fraction starts without a dot. -/
theorem fractionAt_none (hc : c ≠ '.') : fractionAt (c :: cs) = [] := by
  rw [fractionAt]
  simp [hc]

/-- A fraction is the same before a blank. -/
theorem fractionAt_append (hb : Text.isBlank b) : fractionAt (cs ++ b :: rest) = fractionAt cs := by
  cases cs with
  | nil => exact fractionAt_none (ne_of_isBlank hb (by decide))
  | cons c cs =>
    by_cases hc : c = '.'
    · rw [hc, List.cons_append, fractionAt, fractionAt,
        takeWhile_append_cons (isDigit_of_isBlank hb)]
    · rw [List.cons_append, fractionAt_none hc, fractionAt_none hc]

/-- An exponent is the same before a blank. -/
theorem exponentAt_append (hb : Text.isBlank b) : exponentAt (cs ++ b :: rest) = exponentAt cs := by
  have hdigits (cs : List Char) : (cs ++ b :: rest).takeWhile isDigit = cs.takeWhile isDigit :=
    takeWhile_append_cons (isDigit_of_isBlank hb)
  cases cs with
  | nil =>
    have hmark : ¬(b = 'e' ∨ b = 'E') := fun h =>
      h.elim (ne_of_isBlank hb (by decide)) (ne_of_isBlank hb (by decide))
    exact if_neg hmark
  | cons mark cs =>
    -- The blank may stand where a sign would.
    cases cs with
    | nil =>
      have hminus : b ≠ '-' := ne_of_isBlank hb (by decide)
      have hplus : b ≠ '+' := ne_of_isBlank hb (by decide)
      rw [List.cons_append, exponentAt, exponentAt, hdigits []]
      all_goals simp [hminus, hplus]
    | cons sign cs =>
      rw [List.cons_append, List.cons_append]
      by_cases hminus : sign = '-'
      · rw [hminus, exponentAt, exponentAt, hdigits]
      by_cases hplus : sign = '+'
      · rw [hplus, exponentAt, exponentAt, hdigits]
      · rw [exponentAt, exponentAt, ← List.cons_append, hdigits]
        all_goals simp [hminus, hplus]

/-- A decimal number is the same before a blank. -/
theorem decimalLexeme_append (hb : Text.isBlank b) (cs : List Char) :
    decimalLexeme c (cs ++ b :: rest) = decimalLexeme c cs := by
  obtain ⟨fraction, tail, hsplit, hpoint, -⟩ := fractionAt_split (cs.dropWhile isDigit)
  unfold decimalLexeme
  dsimp only
  rw [takeWhile_append_cons (isDigit_of_isBlank hb), dropWhile_append_cons (isDigit_of_isBlank hb),
    fractionAt_append hb, hpoint, hsplit, List.append_assoc, List.drop_left, List.drop_left,
    exponentAt_append hb]

/-- A number is the same before a blank. -/
theorem numberLexeme_append (hb : Text.isBlank b) :
    numberLexeme c (cs ++ b :: rest) = numberLexeme c cs := by
  cases cs with
  | nil =>
    have hmark : ¬(c = '0' ∧ (b = 'x' ∨ b = 'X')) := fun h =>
      h.2.elim (ne_of_isBlank hb (by decide)) (ne_of_isBlank hb (by decide))
    rw [List.nil_append, numberLexeme, numberLexeme, if_neg hmark]
    exact decimalLexeme_append hb []
  | cons x cs =>
    rw [List.cons_append, numberLexeme, numberLexeme]
    split
    · unfold hexLexeme
      rw [takeWhile_append_cons (isHexDigit_of_isBlank hb)]
    · exact decimalLexeme_append hb (x :: cs)

/-- A word is the same before a blank. -/
theorem wordLexeme_append (hb : Text.isBlank b) :
    wordLexeme c (cs ++ b :: rest) = wordLexeme c cs := by
  unfold wordLexeme
  rw [takeWhile_append_cons (isWordChar_of_isBlank hb)]

/-- No sign is continued by a blank. -/
theorem signLexeme_append (hb : Text.isBlank b) :
    signLexeme c (cs ++ b :: rest) = signLexeme c cs := by
  have hpair : pair? c (some b) = pair? c none := by
    have hequal : b ≠ '=' := ne_of_isBlank hb (by decide)
    have hand : b ≠ '&' := ne_of_isBlank hb (by decide)
    have hor : b ≠ '|' := ne_of_isBlank hb (by decide)
    rw [pair?, pair?] <;> simp [hequal, hand, hor]
  unfold signLexeme
  cases cs with
  | nil => rw [List.nil_append, List.head?_cons, List.head?_nil, hpair]
  | cons d cs => rfl

/-- What a text begins with does not depend on what follows a blank behind it, unless it is a
comment that has no line end yet. -/
theorem lexemeAt_append (hb : Text.isBlank b) (h : ∀ f, (lexemeAt c cs).1 ≠ .fault f)
    (hgap : b ≠ '\n' → (lexemeAt c cs).1 = .gap → (lexemeAt c cs).2 < cs.length) :
    lexemeAt c (cs ++ b :: rest) = lexemeAt c cs := by
  unfold lexemeAt at h hgap ⊢
  split
  · rfl
  next hspace =>
  rw [if_neg hspace] at h hgap
  split
  · next hc =>
    rw [if_pos hc] at h hgap
    exact slashLexeme_append hb h hgap
  next hslash =>
  rw [if_neg hslash] at h
  split
  · next hc => exact stringLexeme_append hb (by rwa [if_pos hc] at h)
  split
  · exact numberLexeme_append hb
  split
  · exact wordLexeme_append hb
  · exact signLexeme_append hb

/-! ## How much of a text is taken -/

/-- What starts with a slash takes no more than there is. -/
theorem slashLexeme_le : (slashLexeme cs).2 ≤ cs.length := by
  unfold slashLexeme
  split
  · next cs =>
    have hle := (List.takeWhile_prefix (l := cs) (· != '\n')).length_le
    simp only [List.length_cons]
    omega
  · next cs =>
    split
    · next n hend =>
      obtain ⟨body, rest, rfl, rfl, -⟩ := commentEnd_eq_some hend
      simp only [List.length_cons, List.length_append]
      omega
    · simp only [List.length_cons]
      omega
  · exact Nat.zero_le _

/-- A string takes no more than there is. -/
theorem stringLexeme_le (hc : c ∈ ['"', '\'']) : (stringLexeme c cs).2 ≤ cs.length := by
  have htaken : (stringLexeme c cs).2 = (quotedAt c cs).taken := by
    unfold stringLexeme
    dsimp only
    split
    · rfl
    · split <;> rfl
  rw [htaken]
  cases hclosed : (quotedAt c cs).closed with
  | true =>
    obtain ⟨body, rest, hcs, hlength, -⟩ := (quotedAt_spec hc cs).1 hclosed
    have hsplit : cs.length = _ := (congrArg List.length hcs).trans List.length_append
    omega
  | false => exact ((quotedAt_spec hc cs).2 hclosed).1.le

/-- A decimal number takes no more than there is. -/
theorem decimalLexeme_le : (decimalLexeme c cs).2 ≤ cs.length := by
  obtain ⟨fraction, tail, hsplit, hpoint, -⟩ := fractionAt_split (cs.dropWhile isDigit)
  have hcs : cs.length = (cs.takeWhile isDigit).length + fraction.length + tail.length := by
    conv_lhs => rw [← List.takeWhile_append_dropWhile (p := isDigit) (l := cs), hsplit]
    simp only [List.length_append, Nat.add_assoc]
  unfold decimalLexeme
  dsimp only
  rw [hpoint, hsplit, List.drop_left]
  split
  · omega
  · next e he =>
    obtain ⟨mark, -, sign, -, rest, rfl, htaken, -⟩ := exponentAt_split he
    rw [List.length_append, ← htaken] at hcs
    split <;> (dsimp only; omega)

/-- A number takes no more than there is. -/
theorem numberLexeme_le : (numberLexeme c cs).2 ≤ cs.length := by
  unfold numberLexeme
  split
  · exact decimalLexeme_le
  · next x cs =>
    split
    · have hle := (List.takeWhile_prefix (l := cs) isHexDigit).length_le
      unfold hexLexeme
      dsimp only
      split
      · exact Nat.succ_le_succ (Nat.zero_le _)
      · split <;> (rw [List.length_cons]; omega)
    · exact decimalLexeme_le

/-- A sign takes no more than there is. -/
theorem signLexeme_le : (signLexeme c cs).2 ≤ cs.length := by
  unfold signLexeme
  split
  · next hpair =>
    cases cs with
    | nil =>
      have hnone : pair? c none = none := by rw [pair?] <;> simp
      rw [List.head?_nil, hnone] at hpair
      contradiction
    | cons d cs => exact Nat.succ_le_succ (Nat.zero_le _)
  · split <;> exact Nat.zero_le _

/-- No more is taken than there is. -/
theorem lexemeAt_le (c : Char) (cs : List Char) : (lexemeAt c cs).2 ≤ cs.length := by
  unfold lexemeAt
  split
  · exact Nat.zero_le _
  split
  · exact slashLexeme_le
  split
  · next hc => exact stringLexeme_le (by simpa using hc)
  split
  · exact numberLexeme_le
  split
  · exact (List.takeWhile_prefix _).length_le
  · exact signLexeme_le

end Lexemes

end Token

/-! ## The whole text -/

namespace Position

/-- A position some lines further down. -/
def down (k : Nat) (p : Position) : Position :=
  { p with line := p.line + k }

/-- Positions advance over one text and then the other. -/
theorem advance_append (p : Position) (cs ds : List Char) :
    p.advance (cs ++ ds) = (p.advance cs).advance ds :=
  List.foldl_append

/-- Positions further down advance alike. -/
theorem advance_down (k : Nat) (p : Position) (cs : List Char) :
    (p.down k).advance cs = (p.advance cs).down k := by
  induction cs generalizing p with
  | nil => rfl
  | cons c cs ih =>
    have hnext : (p.down k).next c = (p.next c).down k := by
      unfold next down
      split
      · rw [Nat.add_right_comm]
      · rfl
    exact (congrArg (advance · cs) hnext).trans (ih _)

end Position

namespace Token

/-- A token some lines further down. -/
def down (k : Nat) (t : Token) : Token :=
  { t with position := t.position.down k }

/-- An item some lines further down. -/
def Item.down (k : Nat) : Item → Item
  | .token t => .token (t.down k)
  | .fault p f => .fault (p.down k) f

/-- What a scan yields depends on where the text starts only in the positions. -/
theorem scanFrom_down (k : Nat) (p : Position) (cs : List Char) :
    scanFrom (p.down k) cs = (scanFrom p cs).map (Item.down k) := by
  fun_induction scanFrom p cs with
  | case1 p =>
    rw [scanFrom]
    rfl
  | case2 p c cs taken text rest hlexeme ih =>
    rw [scanFrom, hlexeme]
    dsimp only
    rw [Position.advance_down, ih]
  | case3 p c cs taken text rest kind hlexeme ih =>
    rw [scanFrom, hlexeme]
    dsimp only
    rw [Position.advance_down, ih]
    rfl
  | case4 p c cs taken text rest fault hlexeme ih =>
    rw [scanFrom, hlexeme]
    dsimp only
    rw [Position.advance_down, ih]
    rfl

/-- A scan has an end token. -/
theorem scanFrom_ne_nil (p : Position) (cs : List Char) : scanFrom p cs ≠ [] := by
  have hpartition := scanFrom_partition p cs
  intro hnil
  rw [hnil] at hpartition
  cases hpartition

/-- A text without faults is scanned as before if a line end and another text come behind it. -/
theorem scanFrom_append {p : Position} {cs rest : List Char}
    (h : ∀ i ∈ scanFrom p cs, i.fault? = none) :
    scanFrom p (cs ++ '\n' :: rest) =
      (scanFrom p cs).dropLast ++ scanFrom (p.advance (cs ++ ['\n'])) rest := by
  -- A lexeme takes the same characters as before, so the positions behind it are the same too.
  have hcut {p : Position} {c : Char} {cs : List Char} {taken : Nat} (hle : taken ≤ cs.length) :
      (p.advance (c :: cs.take taken)).advance (cs.drop taken ++ ['\n']) =
        p.advance (c :: cs ++ ['\n']) := by
    rw [← Position.advance_append, List.cons_append, ← List.append_assoc, List.take_append_drop,
      List.cons_append]
  fun_induction scanFrom p cs with
  | case1 p =>
    rw [List.nil_append, scanFrom]
    rfl
  | case2 p c cs taken text tail hlexeme ih =>
    have happend : lexemeAt c (cs ++ '\n' :: rest) = (.gap, taken) := by
      rw [lexemeAt_append (by decide) (by simp [hlexeme]) (absurd rfl), hlexeme]
    have hle : taken ≤ cs.length := by simpa [hlexeme] using lexemeAt_le c cs
    rw [List.cons_append, scanFrom, happend]
    dsimp only
    rw [List.take_append_of_le_length hle, List.drop_append_of_le_length hle, ih h, hcut hle]
  | case3 p c cs taken text tail kind hlexeme ih =>
    have happend : lexemeAt c (cs ++ '\n' :: rest) = (.token kind, taken) := by
      rw [lexemeAt_append (by decide) (by simp [hlexeme]) (absurd rfl), hlexeme]
    have hle : taken ≤ cs.length := by simpa [hlexeme] using lexemeAt_le c cs
    rw [List.cons_append, scanFrom, happend]
    dsimp only
    rw [List.take_append_of_le_length hle, List.drop_append_of_le_length hle,
      ih fun i hi => h i (List.mem_cons_of_mem _ hi), hcut hle,
      List.dropLast_cons_of_ne_nil (scanFrom_ne_nil _ _)]
    rfl
  | case4 p c cs taken text tail fault hlexeme ih =>
    exact absurd (h _ List.mem_cons_self) (by simp [Item.fault?])

end Token

/-! ## Tokens of a text -/

/-- The tokens of a text end with the only end token, which is the last item of the scan. -/
theorem tokenize_ends (source : String) : ∃ ts last, (tokenize source).1 = ts ++ [last] ∧
    (Token.scan source).dropLast.filterMap Token.Item.token? = ts ∧
    last.kind = .eof ∧ ∀ t ∈ ts, t.kind ≠ .eof := by
  obtain ⟨items, last, hitems, hlast, hne⟩ := (Token.scanFrom_partition {} source.toList).ends
  have hscan : Token.scan source = items ++ [.token last] := hitems
  refine ⟨items.filterMap Token.Item.token?, last, ?_, ?_, hlast, fun t ht => ?_⟩
  · unfold tokenize
    dsimp only
    rw [hscan, List.filterMap_append]
    rfl
  · rw [hscan, List.dropLast_concat]
  · obtain ⟨i, hi, hit⟩ := List.mem_filterMap.mp ht
    cases i with
    | token t' => exact Option.some.inj hit ▸ hne t' hi
    | fault p f => contradiction

/-- A text of which nothing is reported has no faults. -/
theorem fault?_eq_none {source : String} (h : (tokenize source).2 = []) :
    ∀ i ∈ Token.scan source, i.fault? = none :=
  List.filterMap_eq_nil_iff.mp (List.map_eq_nil_iff.mp h)

/-- Two texts that are joined by a line end are scanned one after the other. -/
theorem scan_append {first : String} (second : String) (h : (tokenize first).2 = []) :
    ∃ k, Token.scan (first ++ "\n" ++ second) =
      (Token.scan first).dropLast ++ (Token.scan second).map (Token.Item.down k) := by
  have htext : (first ++ "\n" ++ second).toList = first.toList ++ '\n' :: second.toList := by simp
  refine ⟨(({} : Position).advance first.toList).line, ?_⟩
  -- The second text starts in the first column of the next line.
  have hstart : ({} : Position).advance (first.toList ++ ['\n']) =
      ({} : Position).down (({} : Position).advance first.toList).line := by
    rw [Position.advance_append, Position.down, Nat.add_comm]
    rfl
  unfold Token.scan
  rw [htext, Token.scanFrom_append (fault?_eq_none h), hstart, Token.scanFrom_down]

/-- The tokens of two texts that are joined by a line end are those of the first text and then
those of the second one, further down. -/
theorem tokenize_append {first second : String} {ts : List Token} {last : Token}
    (hfirst : tokenize first = (ts ++ [last], [])) (hsecond : (tokenize second).2 = []) :
    ∃ k, tokenize (first ++ "\n" ++ second) =
      (ts ++ (tokenize second).1.map (Token.down k), []) := by
  obtain ⟨k, hscan⟩ := scan_append second (congrArg Prod.snd hfirst)
  obtain ⟨ts', last', htokens, hinit, -, -⟩ := tokenize_ends first
  obtain ⟨rfl, -⟩ : ts = ts' ∧ last = last' := by simpa [hfirst] using htokens
  -- Moving a text down changes neither which items are tokens nor that there are no faults.
  refine ⟨k, Prod.ext ?_ ?_⟩
  · have hdown : ∀ i : Token.Item, (i.down k).token? = i.token?.map (Token.down k) := by
      rintro (t | ⟨p, f⟩) <;> rfl
    unfold tokenize
    dsimp only
    rw [hscan, List.filterMap_append, hinit, List.filterMap_map, List.map_filterMap]
    exact congrArg (ts ++ ·) (List.filterMap_congr fun i _ => hdown i)
  · have hdown : ∀ i ∈ Token.scan second, (i.down k).fault? = none := by
      intro i hi
      have hnone := fault?_eq_none hsecond i hi
      cases i with
      | token t => rfl
      | fault p f => contradiction
    unfold tokenize
    dsimp only
    rw [hscan, List.map_eq_nil_iff, List.filterMap_eq_nil_iff]
    intro i hi
    obtain hi | hi := List.mem_append.mp hi
    · exact fault?_eq_none (congrArg Prod.snd hfirst) i (List.dropLast_subset _ hi)
    · obtain ⟨j, hj, rfl⟩ := List.mem_map.mp hi
      exact hdown j hj

end Lox

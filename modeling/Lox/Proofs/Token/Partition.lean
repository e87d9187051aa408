import Lox.Token.Scan
import Mathlib.Data.List.Infix
import Mathlib.Data.List.TakeWhile

/-!
# The pieces of a text

A text is a gap, and then for each item of its scan the characters of that item and another gap
(`Partition`). Nothing of the text is lost or read twice: a gap holds blanks and comments that end
where they should (`Blank`), a token has its characters as its text, and a fault has exactly the
characters that the fault is about (`Fault.Spans`), so what follows a fault is scanned as if
nothing had happened.
-/

namespace Lox.Token

open Number (isDigit isHexDigit)

/-! ## What a piece of text may be -/

/-- A blank, a comment up to the end of its line, or a comment that is closed; `rest` is the text
behind it. -/
def Blank (text rest : List Char) : Prop :=
  (∃ c ∈ [' ', '\t', '\r', '\n'], text = [c]) ∨
  (∃ cs, text = '/' :: '/' :: cs ∧ '\n' ∉ cs ∧ ∀ c ∈ rest.head?, c = '\n') ∨
  ∃ cs, text = '/' :: '*' :: (cs ++ ['*', '/']) ∧ ¬['*', '/'] <:+: cs

/-- The inside of a string: every quote in it stands behind a backslash. -/
inductive Inside (quote : Char) : List Char → Prop
  | nil : Inside quote []
  | plain {c : Char} {cs : List Char} (hquote : c ≠ quote) (hescape : c ≠ '\\')
      (h : Inside quote cs) : Inside quote (c :: cs)
  | escaped (c : Char) {cs : List Char} (h : Inside quote cs) : Inside quote ('\\' :: c :: cs)

/-- The characters that a fault is about; `rest` is the text behind them. -/
def Fault.Spans (text rest : List Char) : Fault → Prop
  | .unexpected c => text = [c]
  | .unterminatedComment =>
    ∃ cs, text = '/' :: '*' :: cs ∧ ¬['*', '/'] <:+: cs ∧ rest = []
  | .unterminatedString =>
    ∃ quote ∈ ['"', '\''], ∃ cs, Inside quote cs ∧
      (text = quote :: cs ∨ text = quote :: (cs ++ ['\\'])) ∧ rest = []
  | .badEscape => ∃ quote ∈ ['"', '\''], ∃ cs, Inside quote cs ∧ text = quote :: (cs ++ [quote])
  | .hexDigitsMissing => ∃ mark ∈ ['x', 'X'], text = ['0', mark] ∧ ∀ c ∈ rest.head?, ¬isHexDigit c
  | .hexTooLarge lexeme =>
    ∃ mark ∈ ['x', 'X'], ∃ ds, text = '0' :: mark :: ds ∧ (∀ d ∈ ds, isHexDigit d) ∧
      (∀ c ∈ rest.head?, ¬isHexDigit c) ∧ lexeme = String.ofList text
  | .exponentDigitsMissing =>
    ∃ whole fraction sign, ∃ mark ∈ ['e', 'E'], text = whole ++ fraction ++ mark :: sign ∧
      (∀ d ∈ whole, isDigit d) ∧
      (fraction = [] ∨ ∃ ds, fraction = '.' :: ds ∧ ∀ d ∈ ds, isDigit d) ∧
      sign ∈ [[], ['+'], ['-']] ∧ ∀ c ∈ rest.head?, ¬isDigit c

/-- What is asked of a piece of text: that it is as its sort says. -/
def Lexeme.Spans (text rest : List Char) : Lexeme → Prop
  | .gap => Blank text rest
  | .token kind => kind ≠ .eof
  | .fault f => f.Spans text rest

/-! ## Comments -/

section Comments

variable {cs rest : List Char} {n : Nat}

/-- A comment is closed by the first mark that closes one. -/
theorem commentEnd_eq_some (h : commentEnd cs = some n) :
    ∃ body rest, cs = body ++ ['*', '/'] ++ rest ∧ n = (body ++ ['*', '/']).length ∧
      ¬['*', '/'] <:+: body := by
  fun_induction commentEnd cs generalizing n with
  | case1 rest => exact ⟨[], rest, rfl, (Option.some.inj h).symm, by simp⟩
  | case2 c cs hnot ih =>
    obtain ⟨k, hk, rfl⟩ := Option.map_eq_some_iff.mp h
    obtain ⟨body, rest, rfl, rfl, hbody⟩ := ih hk
    refine ⟨c :: body, rest, rfl, rfl, fun hinfix => ?_⟩
    -- A closing mark in the body stands at its front, where the comment would have ended, or
    -- further on.
    obtain hprefix | hinfix := List.infix_cons_iff.mp hinfix
    · obtain ⟨rfl, body', rfl⟩ : c = '*' ∧ ∃ body', body = '/' :: body' := by
        obtain ⟨tail, htail⟩ := hprefix
        obtain ⟨rfl, hbody⟩ := List.cons.inj htail
        exact ⟨rfl, tail, hbody.symm⟩
      exact hnot _ rfl rfl
    · exact hbody hinfix
  | case3 => contradiction

/-- A comment without an end is closed nowhere. -/
theorem commentEnd_eq_none (h : commentEnd cs = none) : ¬['*', '/'] <:+: cs := by
  fun_induction commentEnd cs with
  | case1 rest => contradiction
  | case2 c cs hnot ih =>
    intro hinfix
    obtain ⟨tail, htail⟩ | hinfix := List.infix_cons_iff.mp hinfix
    · obtain ⟨rfl, rfl⟩ := List.cons.inj htail
      exact hnot _ rfl rfl
    · exact ih (Option.map_eq_none_iff.mp h) hinfix
  | case3 => simp

end Comments

/-! ## Runs of characters -/

section Runs

variable {p : Char → Bool} {cs : List Char}

/-- Taking as many as pass takes those. -/
theorem take_length_takeWhile : cs.take (cs.takeWhile p).length = cs.takeWhile p :=
  (List.prefix_iff_eq_take.mp (List.takeWhile_prefix p)).symm

/-- Dropping as many as pass drops those. -/
theorem drop_length_takeWhile : cs.drop (cs.takeWhile p).length = cs.dropWhile p := by
  have h : cs.takeWhile p ++ cs.drop (cs.takeWhile p).length =
      cs.takeWhile p ++ cs.dropWhile p := by
    rw [List.takeWhile_append_dropWhile]
    nth_rewrite 1 [← take_length_takeWhile]
    exact List.take_append_drop _ cs
  exact List.append_cancel_left h

/-- A run ends before a character that does not belong to it. -/
theorem head?_dropWhile_not : ∀ c ∈ (cs.dropWhile p).head?, ¬p c := by
  intro c hc
  have := List.head?_dropWhile_not p cs
  rw [Option.mem_def.mp hc] at this
  simpa using this

/-- A text is taken apart where its first part ends. -/
theorem take_drop_of_eq_append {text rest : List Char} (h : cs = text ++ rest) :
    cs.take text.length = text ∧ cs.drop text.length = rest := by
  subst h
  exact ⟨List.take_left, List.drop_left⟩

end Runs

/-! ## Strings -/

section Strings

variable {quote : Char} {cs : List Char}

/-- Characters that are neither quotes nor backslashes stand for themselves. -/
theorem Inside.plain_append {ds : List Char} (hds : ∀ d ∈ ds, d ≠ quote ∧ d ≠ '\\')
    (h : Inside quote cs) : Inside quote (ds ++ cs) := by
  induction ds with
  | nil => exact h
  | cons d ds ih =>
    have hd := hds d (by simp)
    exact .plain hd.1 hd.2 (ih fun d' hd' => hds d' (by simp [hd']))

/-- A hexadecimal escape takes the letter that announces it and some of the digits behind it. -/
theorem hexEscape_taken (width : Nat) (cs : List Char) :
    ∃ ds rest, cs = ds ++ rest ∧ (hexEscape width cs).taken = ds.length + 1 ∧
      ∀ d ∈ ds, isHexDigit d := by
  obtain ⟨rest, hrest⟩ := (List.takeWhile_prefix isHexDigit).trans (List.take_prefix width cs)
  refine ⟨(cs.take width).takeWhile isHexDigit, rest, hrest.symm, ?_, ?_⟩
  · unfold hexEscape
    dsimp only
    split <;> exact Nat.add_comm ..
  · exact fun d hd => List.mem_takeWhile_imp hd

/-- An escape takes the character behind the backslash and some digits. -/
theorem escapeAt_taken (c : Char) (cs : List Char) :
    ∃ ds rest, cs = ds ++ rest ∧ (escapeAt (c :: cs)).taken = ds.length + 1 ∧
      ∀ d ∈ ds, isHexDigit d := by
  unfold escapeAt
  split
  · contradiction
  · next heq => exact (List.cons.inj heq).2 ▸ hexEscape_taken 2 cs
  · next heq => exact (List.cons.inj heq).2 ▸ hexEscape_taken 4 cs
  · exact ⟨[], cs, rfl, rfl, by simp⟩

/-- A hexadecimal digit is no quote and no backslash. -/
theorem ne_of_isHexDigit {d : Char} (hquote : quote ∈ ['"', '\'']) (hd : isHexDigit d) :
    d ≠ quote ∧ d ≠ '\\' := by
  constructor
  · rintro rfl
    obtain rfl | rfl : d = '"' ∨ d = '\'' := by simpa using hquote
    all_goals exact absurd hd (by decide)
  · rintro rfl
    exact absurd hd (by decide)

/-- A string ends at the first quote that stands behind no backslash, and if there is none it takes
the whole text. -/
theorem quotedAt_spec (hquote : quote ∈ ['"', '\'']) (cs : List Char) :
    ((quotedAt quote cs).closed = true → ∃ body rest, cs = body ++ [quote] ++ rest ∧
      (quotedAt quote cs).taken = (body ++ [quote]).length ∧ Inside quote body) ∧
    ((quotedAt quote cs).closed = false → (quotedAt quote cs).taken = cs.length ∧
      ∃ body, Inside quote body ∧ (cs = body ∨ cs = body ++ ['\\'])) := by
  fun_induction quotedAt quote cs with
  | case1 => exact ⟨nofun, fun _ => ⟨rfl, [], .nil, .inl rfl⟩⟩
  | case2 cs => exact ⟨fun _ => ⟨[], cs, rfl, rfl, .nil⟩, nofun⟩
  | case3 cs e rest hne ih =>
    -- A backslash at the end of the text stands alone; any other takes its escape with it.
    cases cs with
    | nil =>
      obtain hempty : rest = ⟨0, [], false, true⟩ := by
        simp only [rest, List.drop_nil, quotedAt]
      rw [hempty]
      exact ⟨nofun, fun _ => ⟨rfl, [], .nil, .inr rfl⟩⟩
    | cons c cs =>
      obtain ⟨ds, tail, rfl, htaken, hds⟩ := escapeAt_taken c cs
      have hdrop : (c :: (ds ++ tail)).drop e.taken = tail := by
        rw [htaken, List.drop_succ_cons, List.drop_left]
      have hinside {body : List Char} (hbody : Inside quote body) :
          Inside quote ('\\' :: c :: (ds ++ body)) :=
        .escaped c (hbody.plain_append fun d hd => ne_of_isHexDigit hquote (hds d hd))
      rw [hdrop] at ih
      have hrest : rest = quotedAt quote tail := congrArg _ hdrop
      have htaken' : e.taken = ds.length + 1 := htaken
      rw [hrest, htaken']
      refine ⟨fun hclosed => ?_, fun hopen => ?_⟩
      · obtain ⟨body, rest', rfl, hlength, hbody⟩ := ih.1 hclosed
        refine ⟨'\\' :: c :: (ds ++ body), rest', by simp, ?_, hinside hbody⟩
        simp only [hlength, List.length_cons, List.length_append]
        omega
      · obtain ⟨hlength, body, hbody, hcs⟩ := ih.2 hopen
        refine ⟨?_, '\\' :: c :: (ds ++ body), hinside hbody, ?_⟩
        · simp only [hlength, List.length_cons, List.length_append]
          omega
        · exact hcs.imp (fun h => by rw [h]) (fun h => by rw [h]; simp)
  | case4 c cs hne hescape rest ih =>
    have hinside {body : List Char} (hbody : Inside quote body) : Inside quote (c :: body) :=
      .plain hne hescape hbody
    refine ⟨fun hclosed => ?_, fun hopen => ?_⟩
    · obtain ⟨body, rest', rfl, hrest, hbody⟩ := ih.1 hclosed
      exact ⟨c :: body, rest', rfl, (congrArg (1 + ·) hrest).trans (Nat.add_comm ..), hinside hbody⟩
    · obtain ⟨hrest, body, hbody, hcs⟩ := ih.2 hopen
      refine ⟨(congrArg (1 + ·) hrest).trans (Nat.add_comm ..), c :: body, hinside hbody, ?_⟩
      exact hcs.imp (congrArg (c :: ·)) (congrArg (c :: ·))

end Strings

/-! ## Every piece is as its sort says -/

section Lexemes

variable {c : Char} {cs : List Char}

/-- What starts with a slash spans what it takes. -/
theorem slashLexeme_spans :
    (slashLexeme cs).1.Spans ('/' :: cs.take (slashLexeme cs).2) (cs.drop (slashLexeme cs).2) := by
  unfold slashLexeme
  split
  · next cs =>
    refine .inr (.inl ⟨cs.takeWhile (· != '\n'), ?_, fun hmem => ?_, ?_⟩)
    · rw [Nat.add_comm, List.take_succ_cons, take_length_takeWhile]
    · simpa using List.mem_takeWhile_imp hmem
    · rw [Nat.add_comm, List.drop_succ_cons, drop_length_takeWhile]
      intro c hc
      simpa using head?_dropWhile_not c hc
  · next cs =>
    cases hend : commentEnd cs with
    | some n =>
      obtain ⟨body, rest, rfl, rfl, hbody⟩ := commentEnd_eq_some hend
      refine .inr (.inr ⟨body, ?_, hbody⟩)
      dsimp only
      rw [Nat.add_comm, List.take_succ_cons, List.take_left]
    | none =>
      refine ⟨cs, ?_, commentEnd_eq_none hend, ?_⟩
      · rw [Nat.add_comm, List.take_succ_cons, List.take_length]
      · rw [Nat.add_comm, List.drop_succ_cons, List.drop_length]
  · exact nofun

/-- A string spans what it takes. -/
theorem stringLexeme_spans (hc : c ∈ ['"', '\'']) :
    (stringLexeme c cs).1.Spans (c :: cs.take (stringLexeme c cs).2)
      (cs.drop (stringLexeme c cs).2) := by
  have hspec := quotedAt_spec hc cs
  unfold stringLexeme
  dsimp only
  split
  · next hopen =>
    obtain ⟨htaken, body, hbody, hcs⟩ := hspec.2 (by simpa using hopen)
    rw [htaken, List.take_length, List.drop_length]
    exact ⟨c, hc, body, hbody, hcs.imp (congrArg _) (congrArg _), rfl⟩
  next hclosed =>
  obtain ⟨body, rest, rfl, htaken, hbody⟩ := hspec.1 (by simpa using hclosed)
  split
  · refine ⟨c, hc, body, hbody, ?_⟩
    rw [htaken, List.take_left]
  · exact nofun

/-- A hexadecimal number spans what it takes. -/
theorem hexLexeme_spans {mark : Char} (hmark : mark ∈ ['x', 'X']) :
    (hexLexeme mark cs).1.Spans ('0' :: (mark :: cs).take (hexLexeme mark cs).2)
      ((mark :: cs).drop (hexLexeme mark cs).2) := by
  unfold hexLexeme
  dsimp only
  split
  · next hnone =>
    refine ⟨mark, hmark, rfl, ?_⟩
    have hdrop : cs.dropWhile isHexDigit = cs := by
      rw [← drop_length_takeWhile, List.isEmpty_iff.mp hnone]
      rfl
    exact hdrop ▸ head?_dropWhile_not
  · split
    · exact nofun
    · refine ⟨mark, hmark, cs.takeWhile isHexDigit, ?_, fun d hd => List.mem_takeWhile_imp hd, ?_,
          ?_⟩
      · rw [Nat.add_comm, List.take_succ_cons, take_length_takeWhile]
      · rw [Nat.add_comm, List.drop_succ_cons, drop_length_takeWhile]
        exact head?_dropWhile_not
      · rw [Nat.add_comm, List.take_succ_cons, take_length_takeWhile]

/-- The point and digits of a fraction stand at the front of the text. -/
theorem fractionAt_split (cs : List Char) : ∃ fraction rest, cs = fraction ++ rest ∧
    (if (fractionAt cs).isEmpty then 0 else 1 + (fractionAt cs).length) = fraction.length ∧
    (fraction = [] ∨ ∃ ds, fraction = '.' :: ds ∧ ∀ d ∈ ds, isDigit d) := by
  by_cases hnone : (fractionAt cs).isEmpty
  · exact ⟨[], cs, rfl, if_pos hnone, .inl rfl⟩
  · rw [if_neg hnone]
    unfold fractionAt at hnone ⊢
    split at hnone
    · next cs =>
      refine ⟨'.' :: cs.takeWhile isDigit, cs.dropWhile isDigit, ?_, Nat.add_comm ..,
        .inr ⟨_, rfl, ?_⟩⟩
      · rw [List.cons_append, List.takeWhile_append_dropWhile]
      · exact fun d hd => List.mem_takeWhile_imp hd
    · exact absurd rfl hnone

/-- An exponent takes its mark, its sign and all digits behind them. -/
theorem exponentAt_split {e : Exponent} (h : exponentAt cs = some e) :
    ∃ mark ∈ ['e', 'E'], ∃ sign ∈ [[], ['+'], ['-']], ∃ rest,
      cs = mark :: sign ++ e.digits ++ rest ∧ e.taken = (mark :: sign ++ e.digits).length ∧
      ∀ c ∈ rest.head?, ¬isDigit c := by
  unfold exponentAt at h
  split at h
  · contradiction
  · next mark cs =>
    split at h
    · next hmark =>
      refine ⟨mark, by simpa using hmark, ?_⟩
      have htail (sign tail : List Char) :
          mark :: (sign ++ tail) =
            mark :: sign ++ tail.takeWhile isDigit ++ tail.dropWhile isDigit := by
        rw [List.append_assoc, List.takeWhile_append_dropWhile, List.cons_append]
      split at h
      · next cs =>
        obtain rfl := Option.some.inj h
        exact ⟨['-'], by simp, _, htail ['-'] cs, by simp; omega, head?_dropWhile_not⟩
      · next cs =>
        obtain rfl := Option.some.inj h
        exact ⟨['+'], by simp, _, htail ['+'] cs, by simp; omega, head?_dropWhile_not⟩
      · obtain rfl := Option.some.inj h
        exact ⟨[], by simp, _, htail [] cs, by simp [Nat.add_comm], head?_dropWhile_not⟩
    · contradiction

/-- A decimal number spans what it takes. -/
theorem decimalLexeme_spans (hc : isDigit c) :
    (decimalLexeme c cs).1.Spans (c :: cs.take (decimalLexeme c cs).2)
      (cs.drop (decimalLexeme c cs).2) := by
  obtain ⟨fraction, rest, hsplit, hpoint, hfraction⟩ := fractionAt_split (cs.dropWhile isDigit)
  unfold decimalLexeme
  dsimp only
  rw [hpoint, hsplit, List.drop_left]
  split
  · exact nofun
  · next e he =>
    split
    · next hnone =>
      -- The exponent has a mark and maybe a sign, but no digits: the fault takes all up to there.
      obtain ⟨mark, hmark, sign, hsign, rest, rfl, htaken, hrest⟩ := exponentAt_split he
      rw [List.isEmpty_iff.mp hnone, List.append_nil] at htaken hsplit
      have hcs : cs = (cs.takeWhile isDigit ++ fraction ++ mark :: sign) ++ rest := by
        rw [List.append_assoc, List.append_assoc, ← hsplit, List.takeWhile_append_dropWhile]
      have hlength : (cs.takeWhile isDigit).length + fraction.length + e.taken =
          (cs.takeWhile isDigit ++ fraction ++ mark :: sign).length := by
        rw [htaken, List.length_append, List.length_append]
      obtain ⟨htake, hdrop⟩ := take_drop_of_eq_append hcs
      rw [hlength, htake, hdrop]
      refine ⟨c :: cs.takeWhile isDigit, fraction, sign, mark, hmark, rfl, ?_, hfraction, hsign,
        hrest⟩
      exact List.forall_mem_cons.mpr ⟨hc, fun d hd => List.mem_takeWhile_imp hd⟩
    · exact nofun

/-- A number spans what it takes. -/
theorem numberLexeme_spans (hc : isDigit c) :
    (numberLexeme c cs).1.Spans (c :: cs.take (numberLexeme c cs).2)
      (cs.drop (numberLexeme c cs).2) := by
  unfold numberLexeme
  split
  · exact decimalLexeme_spans hc
  · split
    · next hmark =>
      obtain ⟨rfl, hmark⟩ := hmark
      exact hexLexeme_spans (by simpa using hmark)
    · exact decimalLexeme_spans hc

/-- No word is the end token. -/
theorem Kind.ofWord_ne_eof (word : String) : Kind.ofWord word ≠ .eof := by
  unfold Kind.ofWord
  split <;> exact nofun

/-- No pair is the end token. -/
theorem pair?_ne_eof {next : Option Char} : pair? c next ≠ some .eof := by
  unfold pair?
  split <;> exact nofun

/-- No sign is the end token. -/
theorem single?_ne_eof : single? c ≠ some .eof := by
  unfold single?
  split <;> exact nofun

/-- A sign spans what it takes. -/
theorem signLexeme_spans :
    (signLexeme c cs).1.Spans (c :: cs.take (signLexeme c cs).2) (cs.drop (signLexeme c cs).2) := by
  unfold signLexeme
  split
  · next hkind =>
    rintro rfl
    exact pair?_ne_eof hkind
  · split
    · next hkind =>
      rintro rfl
      exact single?_ne_eof hkind
    · rfl

/-- What a text begins with is as its sort says. -/
theorem lexemeAt_spans (c : Char) (cs : List Char) :
    (lexemeAt c cs).1.Spans (c :: cs.take (lexemeAt c cs).2) (cs.drop (lexemeAt c cs).2) := by
  unfold lexemeAt
  split
  · next hspace =>
    refine .inl ⟨c, ?_, rfl⟩
    simp only [isSpace, Bool.or_eq_true, beq_iff_eq] at hspace
    simp only [List.mem_cons, List.not_mem_nil]
    tauto
  split
  · next hc => exact hc ▸ slashLexeme_spans
  split
  · next hc => exact stringLexeme_spans (by simpa using hc)
  split
  · next hc => exact numberLexeme_spans hc
  split
  · exact Kind.ofWord_ne_eof _
  · exact signLexeme_spans

end Lexemes

/-! ## The whole text -/

/-- Blanks and comments, one after the other; `rest` is the text behind them. -/
inductive Gap (rest : List Char) : List Char → Prop
  | nil : Gap rest []
  | blank {text gap : List Char} (htext : Blank text (gap ++ rest)) (hgap : Gap rest gap) :
      Gap rest (text ++ gap)

/-- An item accounts for the characters `text`, which stand before `rest`. -/
def Item.Spans (text rest : List Char) : Item → Prop
  | .token t => t.kind ≠ .eof ∧ t.lexeme = String.ofList text
  | .fault _ f => f.Spans text rest

/-- A text is what its items account for, with gaps around them, and an end token stands for what
is behind the last gap. -/
inductive Partition : List Item → List Char → Prop
  | last {gap : List Char} {t : Token} (hgap : Gap [] gap) (ht : t.kind = .eof) :
      Partition [.token t] gap
  | item {gap text rest : List Char} {i : Item} {items : List Item}
      (hgap : Gap (text ++ rest) gap) (hne : text ≠ []) (hi : i.Spans text rest)
      (h : Partition items rest) : Partition (i :: items) (gap ++ text ++ rest)

namespace Partition

variable {items : List Item} {cs text : List Char}

/-- A blank before a text belongs to its first gap. -/
theorem blank (htext : Blank text cs) (h : Partition items cs) : Partition items (text ++ cs) := by
  cases h with
  | last hgap ht => exact .last (.blank (by rwa [List.append_nil]) hgap) ht
  | item hgap hne hi h =>
    rw [← List.append_assoc, ← List.append_assoc]
    exact .item (.blank (by rwa [← List.append_assoc]) hgap) hne hi h

/-- There is at most one item for each character, and the end token. -/
theorem length_le (h : Partition items cs) : items.length ≤ cs.length + 1 := by
  induction h with
  | last => simp
  | @item gap text rest i items hgap hne hi h ih =>
    have hpos := List.length_pos_iff.mpr hne
    simp only [List.length_cons, List.length_append]
    omega

/-- The end token is the last item and the only one of its kind. -/
theorem eof_iff (h : Partition items cs) (n : Nat) :
    (∃ t, items[n]? = some (.token t) ∧ t.kind = .eof) ↔ n + 1 = items.length := by
  induction h generalizing n with
  | @last gap t hgap ht =>
    cases n with
    | zero => simpa using ht
    | succ n => simp
  | @item gap text rest i items hgap hne hi h ih =>
    cases n with
    | zero =>
      have hitems : items ≠ [] := by cases h <;> exact nofun
      have hpos := List.length_pos_iff.mpr hitems
      simp only [List.getElem?_cons_zero, List.length_cons]
      refine ⟨?_, fun _ => by omega⟩
      rintro ⟨t, ht, heof⟩
      obtain rfl := Option.some.inj ht
      exact absurd heof hi.1
    | succ n => simpa using ih n

/-- The last item is an end token, and there is no other one. -/
theorem ends (h : Partition items cs) : ∃ init last, items = init ++ [.token last] ∧
    last.kind = .eof ∧ ∀ t, .token t ∈ init → t.kind ≠ .eof := by
  induction h with
  | @last gap t hgap ht => exact ⟨[], t, rfl, ht, by simp⟩
  | @item gap text rest i items hgap hne hi h ih =>
    obtain ⟨init, last, rfl, hlast, hinit⟩ := ih
    refine ⟨i :: init, last, rfl, hlast, fun t ht => ?_⟩
    obtain rfl | ht := List.mem_cons.mp ht
    · exact hi.1
    · exact hinit t ht

end Partition

/-- The items of a scan account for all of the text. -/
theorem scanFrom_partition (p : Position) (cs : List Char) : Partition (scanFrom p cs) cs := by
  -- A blank joins the first gap of what follows. Anything else is an item with no gap before it.
  fun_induction scanFrom p cs with
  | case1 p => exact .last .nil rfl
  | case2 p c cs taken text rest hlexeme ih =>
    have hspans := lexemeAt_spans c cs
    rw [hlexeme] at hspans
    simpa using ih.blank hspans
  | case3 p c cs taken text rest kind hlexeme ih =>
    have hspans := lexemeAt_spans c cs
    rw [hlexeme] at hspans
    have hitem : (Item.token ⟨kind, String.ofList text, p⟩).Spans text (cs.drop taken) :=
      ⟨hspans, rfl⟩
    simpa [text] using Partition.item .nil (by simp [text]) hitem ih
  | case4 p c cs taken text rest fault hlexeme ih =>
    have hspans := lexemeAt_spans c cs
    rw [hlexeme] at hspans
    have hitem : (Item.fault p fault).Spans text (cs.drop taken) := hspans
    simpa [text] using Partition.item .nil (by simp [text]) hitem ih

/-- A text has no more characters than bytes. -/
theorem length_le_utf8ByteSize (cs : List Char) : cs.length ≤ (String.ofList cs).utf8ByteSize := by
  induction cs with
  | nil => simp
  | cons c cs ih =>
    have hpos := c.utf8Size_pos
    have hcons : String.ofList (c :: cs) = String.singleton c ++ String.ofList cs := by simp
    rw [hcons, String.utf8ByteSize_append, String.utf8ByteSize_singleton, List.length_cons]
    omega

end Lox.Token

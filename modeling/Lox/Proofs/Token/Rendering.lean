import Lox.Proofs.Token.Joining

/-!
# Rendered tokens

What a text begins with is decided by the characters of that lexeme alone: cut off behind them, the
text begins with the same token (`lexemeAt_take`). So the texts of the tokens that a scan finds can
be put together anew with any blanks between them, and are scanned as the same tokens
(`scan_rendered`).
-/

namespace Lox.Token

open Number (isDigit isHexDigit)

/-! ## Texts that are cut off behind a lexeme -/

section Lists

variable {p : Char → Bool} {cs : List Char} {k : Nat}

/-- What is taken while a condition holds does not depend on what is cut off behind it. -/
theorem takeWhile_take (h : (cs.takeWhile p).length ≤ k) :
    (cs.take k).takeWhile p = cs.takeWhile p := by
  induction cs generalizing k with
  | nil => rw [List.take_nil]
  | cons c cs ih =>
    rw [List.takeWhile_cons] at h ⊢
    split at h
    · next hc =>
      obtain ⟨k, rfl⟩ := Nat.exists_eq_add_of_lt (Nat.lt_of_lt_of_le (Nat.succ_pos _) h)
      rw [Nat.zero_add, List.length_cons, Nat.succ_le_succ_iff] at h
      rw [Nat.zero_add, List.take_succ_cons, List.takeWhile_cons, if_pos hc, if_pos hc, ih h]
    · next hc =>
      cases k with
      | zero => rw [List.take_zero, List.takeWhile_nil, if_neg hc]
      | succ k => rw [List.take_succ_cons, List.takeWhile_cons, if_neg hc, if_neg hc]

/-- Dropping from a first part that has the whole run. -/
theorem dropWhile_take (h : (cs.takeWhile p).length ≤ k) :
    (cs.take k).dropWhile p = (cs.dropWhile p).take (k - (cs.takeWhile p).length) := by
  rw [← drop_length_takeWhile, takeWhile_take h, ← drop_length_takeWhile, List.drop_take]

end Lists

section Lexemes

variable {c quote : Char} {cs : List Char} {k : Nat}

/-- An escape is decided by its own characters. -/
theorem escapeAt_take (h : (escapeAt cs).taken ≤ k) : escapeAt (cs.take k) = escapeAt cs := by
  -- The digits of a number are among the characters that the escape takes.
  have hhex (width : Nat) (ds : List Char) (k : Nat) (h : (hexEscape width ds).taken ≤ k + 1) :
      hexEscape width (ds.take k) = hexEscape width ds := by
    have hlength : ((ds.take width).takeWhile isHexDigit).length ≤ k := by
      unfold hexEscape at h
      dsimp only at h
      split at h <;> (dsimp only at h; omega)
    unfold hexEscape
    rw [List.take_take, Nat.min_comm, ← List.take_take, takeWhile_take hlength]
  cases cs with
  | nil => rw [List.take_nil]
  | cons c cs =>
    obtain ⟨ds, rest, -, htaken, -⟩ := escapeAt_taken c cs
    obtain ⟨k, rfl⟩ : ∃ j, k = j + 1 := ⟨k - 1, by omega⟩
    rw [List.take_succ_cons]
    by_cases hx : c = 'x'
    · subst hx
      exact hhex 2 cs k h
    by_cases hu : c = 'u'
    · subst hu
      exact hhex 4 cs k h
    · rw [escapeAt.eq_4 _ _ hx hu, escapeAt.eq_4 _ _ hx hu]

/-- A string that is closed is decided by its own characters. -/
theorem quotedAt_take (h : (quotedAt quote cs).closed) :
    quotedAt quote (cs.take (quotedAt quote cs).taken) = quotedAt quote cs := by
  fun_induction quotedAt quote cs with
  | case1 => contradiction
  | case2 cs => rw [List.take_succ_cons, List.take_zero, quotedAt, if_pos rfl]
  | case3 cs e rest hne ih =>
    -- The cut is behind the rest of the string, and so behind the escape.
    have hescape : escapeAt (cs.take (e.taken + rest.taken)) = e :=
      escapeAt_take (Nat.le_add_right ..)
    have htaken : 1 + e.taken + rest.taken = e.taken + rest.taken + 1 := by omega
    dsimp only
    rw [htaken, List.take_succ_cons, quotedAt, if_neg hne, if_pos rfl, hescape]
    dsimp only
    rw [List.drop_take, Nat.add_sub_cancel_left, ih h, ← htaken]
  | case4 c cs hne hescape rest ih =>
    rw [Nat.add_comm, List.take_succ_cons, quotedAt, if_neg hne, if_neg hescape, ih h, Nat.add_comm]

/-- A string is read from what it takes. -/
theorem stringLexeme_take {kind : Kind} (h : stringLexeme quote cs = (.token kind, k)) :
    stringLexeme quote (cs.take k) = (.token kind, k) := by
  unfold stringLexeme at h
  dsimp only at h
  split at h
  · simp at h
  next hclosed =>
  split at h
  · simp at h
  next hvalid =>
  obtain ⟨hkind, rfl⟩ := Prod.mk.inj h
  unfold stringLexeme
  rw [quotedAt_take (by simpa using hclosed)]
  dsimp only
  rw [if_neg hclosed, if_neg hvalid, hkind]

/-! ### Numbers -/

/-- A fraction is read from what it takes. -/
theorem fractionAt_take
    (h : (if (fractionAt cs).isEmpty then 0 else 1 + (fractionAt cs).length) ≤ k) :
    fractionAt (cs.take k) = fractionAt cs := by
  cases cs with
  | nil => rw [List.take_nil]
  | cons c cs =>
    cases k with
    | zero =>
      -- The cut is before the point only if there is no fraction.
      have hnone : (fractionAt (c :: cs)).isEmpty := by
        by_contra hsome
        rw [if_neg hsome] at h
        omega
      exact (List.isEmpty_iff.mp hnone).symm
    | succ k =>
      rw [List.take_succ_cons]
      by_cases hc : c = '.'
      · subst hc
        rw [fractionAt] at h
        refine takeWhile_take ?_
        split at h
        · next hnone =>
          rw [List.isEmpty_iff.mp hnone]
          exact Nat.zero_le k
        · omega
      · rw [fractionAt_none hc, fractionAt_none hc]

/-- An exponent is decided by its own characters. -/
theorem exponentAt_take {e : Exponent} (h : exponentAt cs = some e) :
    exponentAt (cs.take e.taken) = some e := by
  unfold exponentAt at h
  split at h
  · contradiction
  next mark cs =>
  split at h
  · next hmark =>
    split at h
    · next ds =>
      obtain rfl := Option.some.inj h
      dsimp only
      rw [Nat.add_comm, List.take_succ_cons, List.take_succ_cons, exponentAt, if_pos hmark,
        takeWhile_take (Nat.le_refl _), Nat.add_comm]
    · next ds =>
      obtain rfl := Option.some.inj h
      dsimp only
      rw [Nat.add_comm, List.take_succ_cons, List.take_succ_cons, exponentAt, if_pos hmark,
        takeWhile_take (Nat.le_refl _), Nat.add_comm]
    · next hminus hplus =>
      obtain rfl := Option.some.inj h
      -- A sign behind the mark would stand there without the cut as well.
      have hhead {d : Char} {ds : List Char} (h : cs.take (cs.takeWhile isDigit).length = d :: ds) :
          ∃ tail, cs = d :: tail :=
        ⟨ds ++ cs.drop _, (List.take_append_drop _ cs).symm.trans (by rw [h]; rfl)⟩
      dsimp only
      rw [Nat.add_comm, List.take_succ_cons, exponentAt, if_pos hmark,
        takeWhile_take (Nat.le_refl _), Nat.add_comm]
      · rintro ds hds
        obtain ⟨tail, htail⟩ := hhead hds
        exact hminus tail htail
      · rintro ds hds
        obtain ⟨tail, htail⟩ := hhead hds
        exact hplus tail htail
  · contradiction

/-- A decimal number is decided by its own characters. -/
theorem decimalLexeme_take {kind : Kind} (h : decimalLexeme c cs = (.token kind, k)) :
    decimalLexeme c (cs.take k) = (.token kind, k) := by
  unfold decimalLexeme at h
  dsimp only at h
  -- The whole number and the fraction are cut off with all their digits, so what is left to be
  -- decided is the exponent.
  split at h
  · next hnone =>
    obtain ⟨hkind, rfl⟩ := Prod.mk.inj h
    unfold decimalLexeme
    dsimp only
    rw [takeWhile_take (Nat.le_add_right ..), dropWhile_take (Nat.le_add_right ..),
      Nat.add_sub_cancel_left, fractionAt_take (Nat.le_refl _), List.drop_take, Nat.sub_self,
      List.take_zero, exponentAt, hkind]
  · next e he =>
    split at h
    · simp at h
    next hdigits =>
    obtain ⟨hkind, rfl⟩ := Prod.mk.inj h
    unfold decimalLexeme
    dsimp only
    rw [Nat.add_assoc, takeWhile_take (Nat.le_add_right ..), dropWhile_take (Nat.le_add_right ..),
      Nat.add_sub_cancel_left, fractionAt_take (Nat.le_add_right ..), List.drop_take,
      Nat.add_sub_cancel_left, exponentAt_take he]
    dsimp only
    rw [if_neg hdigits, hkind, Nat.add_assoc]

/-- A hexadecimal number is read from what it takes. -/
theorem hexLexeme_take {mark : Char} {kind : Kind} (h : hexLexeme mark cs = (.token kind, k)) :
    ∃ n, k = n + 1 ∧ hexLexeme mark (cs.take n) = (.token kind, k) := by
  unfold hexLexeme at h
  dsimp only at h
  split at h
  · simp at h
  next hdigits =>
  split at h
  · next x hx =>
    obtain ⟨hkind, rfl⟩ := Prod.mk.inj h
    refine ⟨_, Nat.add_comm .., ?_⟩
    unfold hexLexeme
    rw [takeWhile_take (Nat.le_refl _)]
    dsimp only
    rw [if_neg hdigits, hx]
    exact congrArg (·, _) hkind
  · simp at h

/-- A number is read from what it takes. -/
theorem numberLexeme_take {kind : Kind} (h : numberLexeme c cs = (.token kind, k)) :
    numberLexeme c (cs.take k) = (.token kind, k) := by
  cases cs with
  | nil => rwa [List.take_nil]
  | cons x cs =>
    rw [numberLexeme] at h
    split at h
    · next hmark =>
      obtain ⟨n, rfl, hhex⟩ := hexLexeme_take h
      rw [List.take_succ_cons, numberLexeme, if_pos hmark, hhex]
    · next hmark =>
      have hdecimal := decimalLexeme_take h
      cases k with
      | zero => exact hdecimal
      | succ n =>
        rw [List.take_succ_cons] at hdecimal ⊢
        rw [numberLexeme, if_neg hmark, hdecimal]

/-! ### Words and signs -/

/-- A word is read from what it takes. -/
theorem wordLexeme_take {kind : Kind} (h : wordLexeme c cs = (.token kind, k)) :
    wordLexeme c (cs.take k) = (.token kind, k) := by
  unfold wordLexeme at h
  obtain ⟨hkind, rfl⟩ := Prod.mk.inj h
  unfold wordLexeme
  dsimp only
  rw [takeWhile_take (Nat.le_refl _), hkind]

/-- There is no pair at the end. -/
theorem pair?_none (c : Char) : pair? c none = none := by
  rw [pair?] <;> simp

/-- A sign is read from what it takes. -/
theorem signLexeme_take {kind : Kind} (h : signLexeme c cs = (.token kind, k)) :
    signLexeme c (cs.take k) = (.token kind, k) := by
  unfold signLexeme at h
  split at h
  · next hpair =>
    obtain ⟨hkind, rfl⟩ := Prod.mk.inj h
    have hhead : (cs.take 1).head? = cs.head? := by cases cs <;> rfl
    unfold signLexeme
    rw [hhead, hpair]
    exact congrArg (·, 1) hkind
  · split at h
    · next hsingle =>
      obtain ⟨hkind, rfl⟩ := Prod.mk.inj h
      -- Without a second character there is no pair, so the sign stays a single one.
      unfold signLexeme
      rw [List.take_zero, List.head?_nil, pair?_none, hsingle]
      exact congrArg (·, 0) hkind
    · simp at h

/-- What starts with a slash is read from what it takes. -/
theorem slashLexeme_take {kind : Kind} (h : slashLexeme cs = (.token kind, k)) :
    slashLexeme (cs.take k) = (.token kind, k) := by
  unfold slashLexeme at h
  split at h
  · simp at h
  · split at h <;> simp at h
  · obtain ⟨hkind, rfl⟩ := Prod.mk.inj h
    rw [List.take_zero, ← hkind]
    rfl

/-- Which token a text begins with is decided by the characters of that token. -/
theorem lexemeAt_take {kind : Kind} (h : lexemeAt c cs = (.token kind, k)) :
    lexemeAt c (cs.take k) = (.token kind, k) := by
  unfold lexemeAt at h ⊢
  split_ifs at h ⊢
  · simp at h
  · exact slashLexeme_take h
  · exact stringLexeme_take h
  · exact numberLexeme_take h
  · exact wordLexeme_take h
  · exact signLexeme_take h

end Lexemes

/-! ## Tokens on their own -/

/-- The text of a token is scanned as that token if nothing else is there. -/
def Alone (t : Token) : Prop :=
  ∃ c cs, t.lexeme.toList = c :: cs ∧ lexemeAt c cs = (.token t.kind, cs.length)

/-- Every token that a scan finds would be found in its own text. -/
theorem alone_of_mem_scanFrom {p : Position} {cs : List Char} {t : Token}
    (h : .token t ∈ scanFrom p cs) (hkind : t.kind ≠ .eof) : t.Alone := by
  fun_induction scanFrom p cs with
  | case1 p =>
    obtain rfl := Item.token.inj (List.mem_singleton.mp h)
    exact absurd rfl hkind
  | case2 p c cs taken text rest hlexeme ih => exact ih h
  | case3 p c cs taken text rest kind hlexeme ih =>
    obtain heq | h := List.mem_cons.mp h
    · obtain rfl := Item.token.inj heq
      have hle : taken ≤ cs.length := by simpa [hlexeme] using lexemeAt_le c cs
      refine ⟨c, cs.take taken, String.toList_ofList, ?_⟩
      rw [lexemeAt_take hlexeme, List.length_take, Nat.min_eq_left hle]
    · exact ih h
  | case4 p c cs taken text rest fault hlexeme ih =>
    exact ih ((List.mem_cons.mp h).resolve_left (by simp))

/-- The text of a token before nothing or before a blank is scanned as that token. -/
theorem Alone.scanFrom {t : Token} (h : t.Alone) (p : Position) {rest : List Char}
    (hrest : ∀ b ∈ rest.head?, Text.isBlank b) :
    scanFrom p (t.lexeme.toList ++ rest) =
      .token { t with position := p } :: Token.scanFrom (p.advance t.lexeme.toList) rest := by
  obtain ⟨c, cs, htext, hlexeme⟩ := h
  have hlexeme' : lexemeAt c (cs ++ rest) = (.token t.kind, cs.length) := by
    cases rest with
    | nil => rw [List.append_nil, hlexeme]
    | cons b rest =>
      rw [lexemeAt_append (hrest b rfl) (by simp [hlexeme]) (by simp [hlexeme]), hlexeme]
  rw [htext, List.cons_append, Token.scanFrom, hlexeme']
  dsimp only
  rw [List.take_left, List.drop_left, ← htext, String.ofList_toList]

/-! ## Rendered tokens -/

/-- A text that separates tokens: blanks, and at least one. -/
def IsSeparator (text : String) : Prop :=
  text ≠ "" ∧ ∀ c ∈ text.toList, c ∈ [' ', '\t', '\r', '\n']

/-- Whether a text is a separator is decidable. -/
instance (text : String) : Decidable (IsSeparator text) :=
  @instDecidableAnd _ _ _ (List.decidableBAll _ _)

/-- The texts of tokens one after the other, with the separators between them. -/
def rendered : (tokens : List Token) → (separators : List String) → String
  | t :: u :: ts, separator :: separators =>
    t.lexeme ++ separator ++ rendered (u :: ts) separators
  | t :: _, _ => t.lexeme
  | [], _ => ""

/-- Two tokens are the same word, with the same value, wherever they stand. -/
def SameWord (t u : Token) : Prop :=
  t.kind = u.kind ∧ t.lexeme = u.lexeme

section Separators

variable {blanks : List Char} (h : ∀ c ∈ blanks, c ∈ [' ', '\t', '\r', '\n'])
include h

/-- Blanks are blank. -/
theorem isBlank_of_mem {c : Char} (hc : c ∈ blanks) : Text.isBlank c := by
  have hall : [' ', '\t', '\r', '\n'].all Text.isBlank := by decide
  exact List.all_eq_true.mp hall c (h c hc)

/-- Blanks are passed over. -/
theorem scanFrom_blanks (p : Position) (rest : List Char) :
    scanFrom p (blanks ++ rest) = scanFrom (p.advance blanks) rest := by
  induction blanks generalizing p with
  | nil => rfl
  | cons c cs ih =>
    have hspace : isSpace c := by
      have hall : [' ', '\t', '\r', '\n'].all isSpace := by decide
      exact List.all_eq_true.mp hall c (h c List.mem_cons_self)
    have hlexeme : lexemeAt c (cs ++ rest) = (.gap, 0) := if_pos hspace
    rw [List.cons_append, scanFrom, hlexeme]
    exact ih (fun d hd => h d (List.mem_cons_of_mem c hd)) _

end Separators

/-- Tokens that stand on their own are found again if separators stand between them. -/
theorem scanFrom_rendered {ts : List Token} (halone : ∀ t ∈ ts, t.Alone) (p : Position)
    {separators : List String} (hlength : separators.length = ts.length - 1)
    (hseparators : ∀ s ∈ separators, IsSeparator s) :
    ∃ us q, scanFrom p (rendered ts separators).toList = (us ++ [.endAt q]).map .token ∧
      List.Forall₂ SameWord ts us := by
  induction ts generalizing p separators with
  | nil => exact ⟨[], p, scanFrom.eq_1 p, .nil⟩
  | cons t ts ih =>
    have ht := halone t List.mem_cons_self
    cases ts with
    | nil =>
      have hnone : ∀ b ∈ ([] : List Char).head?, Text.isBlank b := by simp
      have hscan := ht.scanFrom p hnone
      rw [List.append_nil, scanFrom] at hscan
      exact ⟨[{ t with position := p }], _, hscan, .cons ⟨rfl, rfl⟩ .nil⟩
    | cons u ts =>
      obtain ⟨separator, separators, rfl⟩ := List.exists_cons_of_length_pos
        (Nat.lt_of_lt_of_eq (Nat.succ_pos ts.length) hlength.symm)
      obtain ⟨hne, hblanks⟩ := hseparators separator List.mem_cons_self
      -- The separator is not empty, so the token before it cannot go on.
      have hhead : ∀ b ∈ (separator.toList ++ (rendered (u :: ts) separators).toList).head?,
          Text.isBlank b := by
        intro b hb
        rw [List.head?_append_of_ne_nil _ (by simpa using hne)] at hb
        exact isBlank_of_mem hblanks (List.mem_of_mem_head? hb)
      obtain ⟨us, q, hscan, hsame⟩ := ih (fun v hv => halone v (List.mem_cons_of_mem t hv))
        ((p.advance t.lexeme.toList).advance separator.toList) (Nat.succ.inj hlength)
        (fun s hs => hseparators s (List.mem_cons_of_mem _ hs))
      refine ⟨{ t with position := p } :: us, q, ?_, .cons ⟨rfl, rfl⟩ hsame⟩
      rw [rendered, String.toList_append, String.toList_append, List.append_assoc,
        ht.scanFrom p hhead, scanFrom_blanks hblanks, hscan]
      rfl

/-- The texts of the tokens of a program, put together anew with any blanks between them, are
scanned as the same tokens. -/
theorem scan_rendered (source : String) (ts : List Token) (last : Token) (separators : List String)
    (h : scan source = (ts ++ [last]).map .token) (hlength : separators.length = ts.length - 1)
    (hseparators : ∀ s ∈ separators, IsSeparator s) :
    ∃ us p, scan (rendered ts separators) = (us ++ [.endAt p]).map .token ∧
      List.Forall₂ SameWord ts us := by
  refine scanFrom_rendered (fun t ht => ?_) {} hlength hseparators
  -- The end token is the last item of the scan, so each of the others has characters of its own.
  obtain ⟨items, last', hitems, -, hne⟩ := (scanFrom_partition {} source.toList).ends
  rw [← scan, h, List.map_append] at hitems
  obtain ⟨rfl, -⟩ := List.append_inj' hitems rfl
  have hmem : .token t ∈ scanFrom {} source.toList := by
    rw [← scan, h]
    exact List.mem_map_of_mem (List.mem_append_left _ ht)
  exact alone_of_mem_scanFrom hmem (hne t (List.mem_map_of_mem ht))

/-- The tokens of a program in which no blank separates any two of them. -/
def tightTokens : List Token :=
  [⟨.number (Number.ofDecimal ['1'] [] 0), "1", ⟨1, 1⟩⟩, ⟨.dot, ".", ⟨1, 2⟩⟩,
    ⟨.identifier, "e5", ⟨1, 3⟩⟩, ⟨.lessEqual, "<=", ⟨1, 5⟩⟩, ⟨.string "aB", "'a\\x42'", ⟨1, 7⟩⟩,
    ⟨.slash, "/", ⟨1, 14⟩⟩, ⟨.equal, "=", ⟨1, 15⟩⟩]

/-- The tokens are pulled apart. -/
theorem scan_pulled_apart :
    scan "1.e5<='a\\x42'/=//" = (tightTokens ++ [endAt ⟨1, 18⟩]).map .token ∧
      (∀ s ∈ [" ", "\t", "\r\n", " ", "\n", "  "], IsSeparator s) ∧
      ∃ us p, scan (rendered tightTokens [" ", "\t", "\r\n", " ", "\n", "  "]) =
          (us ++ [.endAt p]).map .token ∧ List.Forall₂ SameWord tightTokens us := by
  have hscan : scan "1.e5<='a\\x42'/=//" = (tightTokens ++ [endAt ⟨1, 18⟩]).map .token := by
    decide +kernel
  have hseparators : ∀ s ∈ [" ", "\t", "\r\n", " ", "\n", "  "], IsSeparator s := by decide
  exact ⟨hscan, hseparators, scan_rendered _ _ _ _ hscan rfl hseparators⟩

end Lox.Token

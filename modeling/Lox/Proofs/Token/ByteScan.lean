import Lox.Proofs.Token.Cursors
import Lox.Proofs.Token.Literals

/-!
# Scanning bytes and scanning characters

The scan of a text's bytes is the scan of its characters (`scanBytes_eq_scan`). A string is read in
runs: its characters are taken over in pieces, each from behind an escape up to the next one, and so
the bytes that are pending at any place belong to whole characters.
-/

namespace Lox.Token

open Number (isHexDigit)
open String (utf8Len)

namespace Tracks

variable {text : String} {began read rest : List Char} {c : Cursor} {d : Char}

/-! ## Strings -/

/-- A run of hexadecimal digits is read. -/
theorem hexRun_eq (width : Nat) (h : Tracks text began read rest c) :
    ∃ rest' c', rest = (rest.take width).takeWhile isHexDigit ++ rest' ∧
      Cursor.hexRun text width c =
        .ok (decide (((rest.take width).takeWhile isHexDigit).length = width), c') ∧
      Tracks text began (read ++ (rest.take width).takeWhile isHexDigit) rest' c' := by
  induction width generalizing read rest c with
  | zero => exact ⟨rest, c, rfl, rfl, by simpa using h⟩
  | succ width ih =>
    rw [Cursor.hexRun, h.peek_eq, ascii_isHexDigit.lead]
    by_cases hdigit : rest.head?.any isHexDigit
    · obtain ⟨x, rest, rfl⟩ : ∃ x tail, rest = x :: tail :=
        List.exists_cons_of_ne_nil (by rintro rfl; contradiction)
      replace hdigit : isHexDigit x := by simpa using hdigit
      obtain ⟨c₁, hadvance, h₁⟩ := h.advance_ascii (ascii_isHexDigit x hdigit).2
        (by rintro rfl; contradiction)
      obtain ⟨rest', c', hrest, hrun, h'⟩ := ih h₁
      rw [List.take_succ_cons, List.takeWhile_cons_of_pos hdigit]
      refine ⟨rest', c', congrArg (x :: ·) hrest, ?_, by simpa using h'⟩
      rw [if_pos (by simpa using hdigit), hadvance, ok_bind, hrun]
      simp
    · have hnone : (rest.take (width + 1)).takeWhile isHexDigit = [] := by
        cases rest with
        | nil => rfl
        | cons x rest =>
          rw [List.take_succ_cons, List.takeWhile_cons_of_neg (by simpa using hdigit)]
      rw [hnone, if_neg hdigit]
      exact ⟨rest, c, rfl, rfl, by simpa using h⟩

/-- An escape by hexadecimal digits is read. -/
theorem hexEscape_eq (width : Nat) (h : Tracks text began read rest c) :
    ∃ run rest' c', rest = run ++ rest' ∧ (hexEscape width rest).taken = 1 + run.length ∧
      c.hexEscape text width =
        .ok ((hexEscape width rest).value, (hexEscape width rest).valid, c') ∧
      Tracks text began (read ++ run) rest' c' := by
  obtain ⟨rest', c', hrest, hrun, h'⟩ := h.hexRun_eq width
  refine ⟨_, rest', c', hrest, ?_, ?_, h'⟩
  · unfold hexEscape
    dsimp only
    split <;> rfl
  · rw [Cursor.hexEscape, hrun, ok_bind]
    unfold hexEscape
    dsimp only
    by_cases hfull : ((rest.take width).takeWhile isHexDigit).length = width
    · rw [if_pos (decide_eq_true hfull), h.piece_eq h', ok_bind, String.toList_ofList]
      by_cases hvalid :
          (Number.ofDigits 16 ((rest.take width).takeWhile isHexDigit)).isValidChar
      · rw [if_pos hvalid, if_pos ⟨hfull, hvalid⟩]
        rfl
      · rw [if_neg hvalid, if_neg fun hboth => hvalid hboth.2]
        rfl
    · rw [if_neg (by simpa using hfull), if_neg fun hboth => hfull hboth.1]
      rfl

/-- A hexadecimal escape, from the letter that announces it on. -/
theorem step_hexEscape (width : Nat) (h : Tracks text began read (d :: rest) c)
    (hd : d.toNat < 128) :
    ∃ run rest' c', d :: rest = run ++ rest' ∧ (hexEscape width rest).taken = run.length ∧
      (do
        let c' ← c.step text
        c'.hexEscape text width) =
        .ok ((hexEscape width rest).value, (hexEscape width rest).valid, c') ∧
      Tracks text began (read ++ run) rest' c' := by
  obtain ⟨c₁, hstep, h₁⟩ := h.step_ascii hd
  obtain ⟨run, rest', c', rfl, htaken, hescape, h'⟩ := h₁.hexEscape_eq width
  refine ⟨d :: run, rest', c', rfl, by rw [htaken, Nat.add_comm]; rfl, ?_, by simpa using h'⟩
  rw [hstep, ok_bind, hescape]

/-- A character without a meaning of its own behind a backslash is taken as a whole. -/
theorem escape_char (h : Tracks text began read (d :: rest) c) (hline : d ≠ '\n') :
    ∃ c', (do
        let c' ← Cursor.skipWhile text continues { c with next := c.next + 1 }
        return ((← piece text c.next c'.next).toList.head?, true, c')) =
        (.ok (some d, true, c') : Except Stop (Option Char × Bool × Cursor)) ∧
      Tracks text began (read ++ [d]) rest c' := by
  have hmove := h.move [d] (by simpa using hline.symm)
  rw [show utf8Len [d] = d.utf8Size by simp] at hmove
  refine ⟨_, ?_, hmove⟩
  rw [h.skipWhile_char, ok_bind, h.piece_eq hmove, ok_bind, String.toList_ofList]
  rfl

/-- Escapes start with ASCII characters. -/
theorem ascii_escapeLetters :
    Cursor.escapeLetters.all fun d => 0 < d.toNat && d.toNat < 128 := by
  decide

/-- An escape is read. -/
theorem escape_eq (h : Tracks text began read rest c) :
    ∃ run rest' c', rest = run ++ rest' ∧ (escapeAt rest).taken = run.length ∧
      c.escape text = .ok ((escapeAt rest).value, (escapeAt rest).valid, c') ∧
      Tracks text began (read ++ run) rest' c' := by
  cases rest with
  | nil =>
    refine ⟨[], [], c, rfl, rfl, ?_, by simpa using h⟩
    rw [Cursor.escape, if_pos (h.atEnd_iff.mpr rfl)]
    rfl
  | cons d rest =>
    rw [Cursor.escape, if_neg (Nat.not_le_of_lt h.lt_utf8ByteSize), h.peek_eq]
    dsimp only
    simp only [lead_eq_iff (d := 'x') (by decide), lead_eq_iff (d := 'u') (by decide),
      List.head?_cons, Option.some.injEq]
    by_cases hx : d = 'x'
    · subst hx
      simpa only [if_pos, escapeAt] using h.step_hexEscape 2 (by decide)
    by_cases hu : d = 'u'
    · subst hu
      simpa only [if_neg hx, if_pos, escapeAt] using h.step_hexEscape 4 (by decide)
    simp only [if_neg hx, if_neg hu, escapeAt_letter hx hu, lead_mem_iff ascii_escapeLetters]
    by_cases hletter : d ∈ Cursor.escapeLetters
    · have hd : d.toNat < 128 := by
        have hall := List.all_eq_true.mp ascii_escapeLetters d hletter
        rw [Bool.and_eq_true] at hall
        exact of_decide_eq_true hall.2
      obtain ⟨c', hstep, h'⟩ := h.step_ascii hd
      refine ⟨[d], rest, c', rfl, rfl, ?_, h'⟩
      rw [hstep, ok_bind, lead_cons hd, if_pos hletter]
      rfl
    · have hline : d ≠ '\n' := by
        rintro rfl
        exact hletter (by decide)
      have hself : shortEscape d = d := by
        refine shortEscape_self ?_
        simp only [Cursor.escapeLetters, List.mem_cons, List.not_mem_nil, or_false, not_or]
          at hletter ⊢
        simp only [hletter, hx, hu, not_false_eq_true, and_true]
      obtain ⟨c', hchar, h'⟩ := h.escape_char hline
      refine ⟨[d], rest, c', rfl, rfl, ?_, h'⟩
      rw [h.step_eq hline, ok_bind, if_neg hletter, hchar, hself]

/-- A string goes on with a byte that is neither quote nor backslash. -/
theorem takesByte_quoted {quote : Char} {run : Nat} {value : String} {valid : Bool}
    (hend : c.next < text.utf8ByteSize) (hquote : c.peek text ≠ quote)
    (hescape : c.peek text ≠ '\\') :
    TakesByte text (Cursor.quoted text quote run value valid) c := by
  rw [TakesByte, Cursor.quoted, if_neg (Nat.not_le_of_lt hend), if_neg hquote, if_neg hescape]

/-- The pending part of a string is what was read of it. -/
theorem piece_pending {before pending : List Char} (h : Tracks text began read rest c)
    (hread : began ++ read = before ++ pending) :
    piece text (utf8Len before) c.next = .ok (String.ofList pending) := by
  rw [h.next_eq, hread]
  exact piece_of_split (hread ▸ h.text_eq)

/-- What a string is, given what its characters before a place denote and whether they are well
formed. -/
def stringFrom (value : String) (valid : Bool) (q : Quoted) : Lexeme × Nat :=
  if !q.closed then (.fault .unterminatedString, q.taken)
  else if !(valid && q.valid) then (.fault .badEscape, q.taken)
  else (.token (.string (value ++ String.ofList q.value)), q.taken)

/-- A string goes on with what comes first. -/
theorem stringFrom_append (value : String) (valid : Bool) (n : Nat) (cs : List Char) (good : Bool)
    (q : Quoted) :
    stringFrom value valid ⟨n + q.taken, cs ++ q.value, q.closed, good && q.valid⟩ =
      ((stringFrom (value ++ String.ofList cs) (valid && good) q).1,
        n + (stringFrom (value ++ String.ofList cs) (valid && good) q).2) := by
  unfold stringFrom
  dsimp only
  rw [← Bool.and_assoc, String.ofList_append, ← String.append_assoc]
  split
  · rfl
  · split <;> rfl

/-- The rest of a string. The characters `pending` are read but not yet in the value. -/
theorem quoted_eq {quote : Char} (hquote : quote ∈ ['"', '\'']) (before pending : List Char)
    (value : String) (valid : Bool) (h : Tracks text began read rest c)
    (hread : began ++ read = before ++ pending) :
    Yields text began read rest
      (stringFrom (value ++ String.ofList pending) valid (quotedAt quote rest))
      (Cursor.quoted text quote (utf8Len before) value valid c) := by
  obtain ⟨hascii, hline⟩ : (0 < quote.toNat ∧ quote.toNat < 128) ∧ quote ≠ '\n' := by
    obtain rfl | rfl : quote = '"' ∨ quote = '\'' := by simpa using hquote
    all_goals decide
  induction rest using quotedAt.induct quote
    generalizing read c before pending value valid with
  | case1 =>
    rw [quotedAt]
    refine .intro [] rfl rfl ?_ (by simpa using h)
    rw [Cursor.quoted, if_pos (h.atEnd_iff.mpr rfl)]
    rfl
  | case2 rest =>
    obtain ⟨c', hadvance, h'⟩ := h.advance_ascii hascii.2 hline
    rw [quotedAt, if_pos rfl, Cursor.quoted, if_neg (Nat.not_le_of_lt h.lt_utf8ByteSize), h.peek_eq,
      lead_cons hascii.2, if_pos rfl, h.piece_pending hread, ok_bind, hadvance, ok_bind]
    cases valid with
    | false => exact .intro [quote] rfl rfl rfl h'
    | true =>
      refine .intro [quote] rfl rfl ?_ h'
      simp [stringFrom]
      rfl
  | case3 rest e hne =>
    rename_i ih
    obtain ⟨c₁, hadvance, h₁⟩ := h.advance_ascii (by decide) (by decide)
    obtain ⟨run, rest', c', hrest, htaken, hescape, h'⟩ := h₁.escape_eq
    have hdrop : rest.drop (escapeAt rest).taken = rest' := by
      rw [htaken]
      exact (take_drop_of_eq_append hrest).2
    rw [List.append_assoc, List.singleton_append] at h'
    -- The value is up to date behind the escape, so nothing is pending there.
    have hfound := ih _ [] (value ++ String.ofList pending ++ String.ofList e.value.toList)
      (valid && e.valid) (hdrop ▸ h') (List.append_nil _).symm
    rw [hdrop, ← h'.next_eq, String.ofList_nil, String.append_empty] at hfound
    rw [quotedAt, if_neg hne, if_pos rfl, Cursor.quoted,
      if_neg (Nat.not_le_of_lt h.lt_utf8ByteSize), h.peek_eq, lead_cons (by decide), if_neg hne,
      if_pos rfl, h.piece_pending hread, ok_bind, hadvance, ok_bind, hescape, ok_bind]
    dsimp only
    rw [h.onward_eq h' (by simp), hdrop, stringFrom_append, htaken, Nat.add_comm 1]
    exact hfound.append ('\\' :: run) (by rw [hrest]; rfl)
  | case4 d rest hne hbackslash ih =>
    have hpeek (x : Char) (hx : 0 < x.toNat ∧ x.toNat < 128) (hd : d ≠ x) : c.peek text ≠ x := by
      rw [h.peek_eq, Ne, lead_eq_iff hx]
      simpa using hd
    -- No byte of a larger character is the quote or the backslash.
    obtain ⟨c', heq, h'⟩ := h.pass
      (fun c hc => takesByte_quoted (lt_of_le_peek hc) (ne_of_le hc hascii.2)
        (ne_of_le hc (by decide)))
      (fun _ => takesByte_quoted h.lt_utf8ByteSize (hpeek quote hascii hne)
        (hpeek '\\' (by decide) hbackslash))
    -- The character is read, but it is not yet in the value.
    have hfound := ih before (pending ++ [d]) value valid h'
      (by simpa using congrArg (· ++ [d]) hread)
    have hstring := stringFrom_append (value ++ String.ofList pending) valid 1 [d] true
      (quotedAt quote rest)
    rw [Bool.true_and, Bool.and_true, String.append_assoc, ← String.ofList_append] at hstring
    rw [heq, quotedAt, if_neg hne, if_neg hbackslash]
    exact hstring ▸ hfound.append [d] rfl

/-- A string is read. -/
theorem string_eq {quote : Char} (hquote : quote ∈ ['"', '\''])
    (h : Tracks text began [quote] rest c) :
    Yields text began [quote] rest (stringLexeme quote rest)
      (Cursor.quoted text quote c.next "" true c) := by
  have hstring : stringLexeme quote rest =
      stringFrom ("" ++ String.ofList []) true (quotedAt quote rest) := by
    rw [String.ofList_nil, String.append_empty]
    unfold stringLexeme stringFrom
    dsimp only
    rw [Bool.true_and, String.empty_append]
  rw [hstring, h.next_eq]
  exact h.quoted_eq hquote _ [] "" true (List.append_nil _).symm

/-! ## The whole text -/

/-- A character from 128 on starts nothing else than a fault. -/
theorem lexemeAt_of_le (h : 128 ≤ d.toNat) (rest : List Char) :
    lexemeAt d rest = (.fault (.unexpected d), 0) := by
  have hquote : ¬(d = '"' ∨ d = '\'') :=
    not_or.mpr ⟨ne_of_le h (by decide), ne_of_le h (by decide)⟩
  rw [lexemeAt, ascii_isSpace.eq_false h, ascii_isDigit.eq_false h, ascii_isLetter.eq_false h,
    if_neg (by decide), if_neg (ne_of_le h (by decide)), if_neg hquote, if_neg (by decide),
    if_neg (by decide), signLexeme, pair?_of_le h, single?_of_le h]

/-- The bytes give the lexeme that the characters give. -/
theorem lexemeFrom_eq (h : Tracks text began [] (d :: rest) c) :
    Yields text began [] (d :: rest) ((lexemeAt d rest).1, (lexemeAt d rest).2 + 1)
      (c.lexemeFrom text) := by
  unfold Cursor.lexemeFrom
  rw [h.peek_eq]
  dsimp only
  obtain hd | hd := Nat.lt_or_ge d.toNat 128
  · obtain ⟨c', hstep, h'⟩ := h.step_ascii hd
    rw [lead_cons hd, hstep, ok_bind]
    refine Yields.cons ?_
    unfold lexemeAt
    split_ifs with hspace hslash hquote hdigit hletter
    · exact .intro [] rfl rfl rfl (by simpa using h')
    · exact h'.slash_eq
    · exact h'.string_eq (by simpa using hquote)
    · exact h'.number_eq
    · exact h'.word_eq
    · exact h'.other_eq
  -- The first byte of a larger character starts nothing, as the character itself does not.
  · have hlead : 128 ≤ (lead (d :: rest)).toNat := Nat.le_trans (by decide) (le_lead hd rest)
    have hquote : ¬(lead (d :: rest) = '"' ∨ lead (d :: rest) = '\'') :=
      not_or.mpr ⟨ne_of_le hlead (by decide), ne_of_le hlead (by decide)⟩
    rw [h.step_eq (ne_of_le hd (by decide)), ok_bind, ascii_isSpace.eq_false hlead,
      ascii_isDigit.eq_false hlead, ascii_isLetter.eq_false hlead, if_neg (by decide),
      if_neg (ne_of_le hlead (by decide)), if_neg hquote, if_neg (by decide), if_neg (by decide),
      lexemeAt_of_le hd]
    exact h.other_of_le hd

/-- What is found next in the characters `rest`, with `before` before them, and where the cursor
stands then: past the end of the text, or between two lexemes further on. -/
inductive Found (text : String) (before rest : List Char) (i : Item) (c : Cursor) : Prop
  | last (hscan : scanFrom (({} : Position).advance before) rest = [i])
      (hc : c.next = text.utf8ByteSize + 1)
  | more {began read rest' : List Char} (h : Tracks text began read rest' c)
      (hshorter : rest'.length < rest.length)
      (hscan : scanFrom (({} : Position).advance before) rest =
        i :: scanFrom (({} : Position).advance (began ++ read)) rest')

/-- A gap is passed over. -/
theorem Found.behind_gap {before rest rest' : List Char} {i : Item}
    (h : Found text (before ++ read) rest' i c) (hshorter : rest'.length < rest.length)
    (hscan : scanFrom (({} : Position).advance before) rest =
      scanFrom (({} : Position).advance (before ++ read)) rest') : Found text before rest i c := by
  cases h with
  | last hlast hc => exact .last (hscan.trans hlast) hc
  | more h hmore hitem => exact .more h (Nat.lt_trans hmore hshorter) (hscan.trans hitem)

/-- From every place between two lexemes on, there is a next item, and it is the one that the
characters are scanned as. -/
theorem nextItem_eq (h : Tracks text began read rest c) :
    ∃ i c', c.nextItem text = .ok (some i, c') ∧ c.next < c'.next ∧
      Found text (began ++ read) rest i c' := by
  -- What is left gets shorter with each gap, but by how much is known only once it is read.
  induction hn : rest.length using Nat.strongRecOn generalizing began read rest c with
  | ind n ih =>
  have hsize := h.utf8ByteSize_eq
  rw [Cursor.nextItem, if_neg (by omega)]
  cases rest with
  | nil =>
    have hend : text.utf8ByteSize = c.next := hsize
    rw [if_pos hend, h.count_eq, ok_bind, h.line_eq]
    refine ⟨_, _, rfl, Nat.lt_succ_self _, .last ?_ (congrArg (· + 1) hend.symm)⟩
    rw [scanFrom]
  | cons d rest =>
    have hlt := h.lt_utf8ByteSize
    obtain ⟨c₀, hbegin, hnext, h₀⟩ := h.begin_eq
    obtain ⟨c', hlexeme, h'⟩ := h₀.lexemeFrom_eq
    have hforward : c.next < c'.next := hnext ▸ h₀.next_lt h' (by simp)
    have hscan : scanFrom (({} : Position).advance (began ++ read)) (d :: rest) = _ :=
      scanFrom.eq_2 ..
    rw [if_neg (Nat.ne_of_gt hlt), hbegin, ok_bind, hlexeme, ok_bind]
    rw [List.take_succ_cons, List.drop_succ_cons, List.nil_append] at h'
    generalize lexemeAt d rest = found at h' hscan ⊢
    obtain ⟨lexeme, taken⟩ := found
    have hshorter : (rest.drop taken).length < (d :: rest).length := by
      rw [List.length_drop, List.length_cons]
      omega
    dsimp only at h' hscan ⊢
    rw [← Position.advance_append] at hscan
    cases lexeme with
    | gap =>
      obtain ⟨i, c'', hitem, hfurther, hfound⟩ := ih _ (hn ▸ hshorter) h' rfl
      have hsize' := h'.utf8ByteSize_eq
      refine ⟨i, c'', ?_, Nat.lt_trans hforward hfurther, hfound.behind_gap hshorter hscan⟩
      dsimp only
      rw [Cursor.onward, dif_pos ⟨hforward, by omega⟩, hitem]
    | token kind =>
      refine ⟨_, c', ?_, hforward, .more h' hshorter hscan⟩
      dsimp only
      rw [h'.lexeme_eq, h'.position_eq]
      rfl
    | fault f =>
      refine ⟨_, c', ?_, hforward, .more h' hshorter hscan⟩
      dsimp only
      rw [h'.position_eq]
      rfl

/-- From every place between two lexemes on, the bytes are scanned as the characters are. -/
theorem items_eq (h : Tracks text began read rest c) :
    c.items text = .ok (scanFrom (({} : Position).advance (began ++ read)) rest) := by
  induction hn : rest.length using Nat.strongRecOn generalizing began read rest c with
  | ind n ih =>
  obtain ⟨i, c', hitem, hforward, hfound⟩ := h.nextItem_eq
  rw [Cursor.items, hitem, ok_bind]
  dsimp only
  cases hfound with
  | last hscan hc =>
    have hpast : c'.items text = .ok [] := by
      rw [Cursor.items, Cursor.nextItem_of_lt (by omega)]
      rfl
    rw [Cursor.onward, dif_pos ⟨hforward, Nat.le_of_eq hc⟩, hpast, hscan]
    rfl
  | more h' hshorter hscan =>
    have hsize := h'.utf8ByteSize_eq
    rw [Cursor.onward, dif_pos ⟨hforward, by omega⟩, ih _ (hn ▸ hshorter) h' rfl, hscan]
    rfl

end Tracks

/-- At first the cursor stands before the whole text. -/
theorem Tracks.start (source : String) : Tracks source [] [] source.toList {} :=
  ⟨rfl, rfl, rfl, rfl, rfl, [], [], rfl, rfl, rfl⟩

/-- The items of a text are the same, whether its bytes are read or its characters. -/
theorem scanBytes_eq (source : String) : scanBytes source = .ok (scan source) :=
  (Tracks.start source).items_eq

/-- Scanning a program's bytes never stops before the end: every text is scanned as a whole, and the
items are those of its characters. Scanning would stop where a piece of the text is cut out that
does not go from one place between two characters up to a later one, and where a byte is taken at
the end. -/
theorem scanBytes_eq_scan (source : String) :
    scanBytes source = .ok (scan source) ∧
    (∀ lo hi, (∃ run, piece source lo hi = .ok run) ↔
      lo ≤ hi ∧ hi ≤ source.utf8ByteSize ∧ IsBoundary source lo ∧ IsBoundary source hi) ∧
    (∀ c : Cursor, (∃ c', c.advance source = .ok c') ↔ c.next < source.utf8ByteSize) := by
  refine ⟨scanBytes_eq source, piece_eq_ok_iff source, fun c => ?_⟩
  unfold Cursor.advance
  split <;> simp_all

end Lox.Token

import Lox.Proofs.Token.Encoding
import Lox.Proofs.Token.Rendering

/-!
# Cursors and characters

A cursor that reads a text byte by byte stays between two characters wherever it matters. `Tracks`
relates it to the characters: those before the current lexeme, those of the lexeme that are read,
and those that are left. Each function of the byte scanner keeps this relation and gives what its
counterpart on characters gives, and it never takes a byte past the end and never cuts a piece that
is none. This module has all lexemes but strings.

Inside a comment or a string the cursor may stand inside a character. There it goes on byte by byte
until it is behind that character, since each byte of such a character is at least 128 and none of
those that end something is.
-/

namespace Lox

/-- Characters that end no line are one column each. -/
theorem Position.advance_of_not_mem (p : Position) {cs : List Char} (h : '\n' ∉ cs) :
    p.advance cs = ⟨p.line, p.column + cs.length⟩ := by
  induction cs generalizing p with
  | nil => rfl
  | cons c cs ih =>
    obtain ⟨hc, hcs⟩ := not_or.mp (List.mem_cons.not.mp h)
    have hnext : p.next c = ⟨p.line, p.column + 1⟩ := if_neg (Ne.symm hc)
    have hcons : p.advance (c :: cs) = (p.next c).advance cs := rfl
    rw [hcons, hnext, ih _ hcs, List.length_cons, Nat.add_assoc, Nat.add_comm 1]

namespace Token

open Number (isDigit isHexDigit)
open String (utf8Len)

/-- A step that succeeds is followed by the next. -/
@[simp] theorem ok_bind {α β : Type} (a : α) (f : α → Except Stop β) : (Except.ok a >>= f) = f a :=
  rfl

/-- A cursor stands behind the characters `began ++ read` of a text, with `rest` behind it. The
current lexeme starts with `read`. -/
structure Tracks (text : String) (began read rest : List Char) (c : Cursor) : Prop where
  /-- The text is made up of the three parts. -/
  text_eq : text.toList = began ++ read ++ rest
  /-- The lexeme starts behind the first part. -/
  start_eq : c.start = utf8Len began
  /-- The position of the lexeme is the one there. -/
  position_eq : c.position = ({} : Position).advance began
  /-- The byte that is read next is behind the second part. -/
  next_eq : c.next = utf8Len (began ++ read)
  /-- The line is the one there. -/
  line_eq : c.line = (({} : Position).advance (began ++ read)).line
  /-- The columns are counted up to some place between two characters, and from there on each
  character is one column more. -/
  column_eq : ∃ counted run, began ++ read = counted ++ run ∧ c.mark = utf8Len counted ∧
    (({} : Position).advance (began ++ read)).column = c.column + run.length

/-- A computation succeeds with a lexeme and takes some characters for it. -/
def Yields (text : String) (began read rest : List Char) (r : Lexeme × Nat)
    (x : Except Stop (Lexeme × Cursor)) : Prop :=
  ∃ c, x = .ok (r.1, c) ∧ Tracks text began (read ++ rest.take r.2) (rest.drop r.2) c

/-- A lexeme is yielded when its run is read. -/
theorem Yields.intro {text : String} {began read rest rest' : List Char} {r : Lexeme × Nat}
    {x : Except Stop (Lexeme × Cursor)} {c : Cursor} (run : List Char) (hrest : rest = run ++ rest')
    (hlength : r.2 = run.length) (hx : x = .ok (r.1, c))
    (h : Tracks text began (read ++ run) rest' c) : Yields text began read rest r x := by
  obtain ⟨htake, hdrop⟩ := take_drop_of_eq_append hrest
  refine ⟨c, hx, ?_⟩
  rwa [hlength, htake, hdrop]

/-- What is left to be taken behind some characters. -/
theorem Yields.append {text : String} {began read rest rest' : List Char} {r : Lexeme × Nat}
    {x : Except Stop (Lexeme × Cursor)} (run : List Char) (hrest : rest = run ++ rest')
    (h : Yields text began (read ++ run) rest' r x) :
    Yields text began read rest (r.1, run.length + r.2) x := by
  obtain ⟨c, hx, htracks⟩ := h
  refine ⟨c, hx, ?_⟩
  rw [hrest, List.take_length_add_append, List.drop_length_add_append, ← List.append_assoc]
  exact htracks

/-- A lexeme is yielded when one more character is read before it. -/
theorem Yields.cons {text : String} {began read rest : List Char} {d : Char} {r : Lexeme × Nat}
    {x : Except Stop (Lexeme × Cursor)} (h : Yields text began (read ++ [d]) rest r x) :
    Yields text began read (d :: rest) (r.1, r.2 + 1) x := by
  rw [Nat.add_comm]
  exact h.append [d] rfl

/-- A loop takes the next byte and goes on. -/
def TakesByte {α : Type} (text : String) (loop : Cursor → Except Stop α) (c : Cursor) : Prop :=
  loop c = (do
    let c' ← c.step text
    c.onward text c' fun _ => loop c')

/-- Past the end there are no more items, and asking for one changes nothing. -/
theorem Cursor.nextItem_of_lt {text : String} {c : Cursor} (h : text.utf8ByteSize < c.next) :
    c.nextItem text = .ok (none, c) := by
  rw [nextItem, if_pos h]
  rfl

/-- No pair starts with a character that is not ASCII. -/
theorem pair?_of_le {c : Char} (h : 128 ≤ c.toNat) (x : Option Char) : pair? c x = none := by
  unfold pair?
  split
  all_goals first | rfl | exact absurd h (by decide)

/-- No pair ends with a character that is not ASCII. -/
theorem pair?_of_le_second {x : Char} (h : 128 ≤ x.toNat) (c : Char) :
    pair? c (some x) = none := by
  unfold pair?
  split
  all_goals first | rfl | (next heq => cases heq; exact absurd h (by decide))

/-- A pair ends with an ASCII character that is no line end. -/
theorem second_of_pair? {c x : Char} {kind : Kind} (h : pair? c (some x) = some kind) :
    x.toNat < 128 ∧ x ≠ '\n' := by
  unfold pair? at h
  split at h
  all_goals first | contradiction | (next heq => cases heq; decide)

/-- No sign is a character that is not ASCII. -/
theorem single?_of_le {c : Char} (h : 128 ≤ c.toNat) : single? c = none := by
  unfold single?
  split
  all_goals first | rfl | exact absurd h (by decide)

namespace Tracks

variable {text : String} {began read rest : List Char} {c : Cursor} {d : Char}

/-! ## Single steps -/

/-- The text ends where what is left ends. -/
theorem utf8ByteSize_eq (h : Tracks text began read rest c) :
    text.utf8ByteSize = c.next + utf8Len rest := by
  rw [h.next_eq, ← String.utf8Len_append, ← h.text_eq, String.utf8Len_toList]

/-- The cursor is at the end if nothing is left. -/
theorem atEnd_iff (h : Tracks text began read rest c) :
    text.utf8ByteSize ≤ c.next ↔ rest = [] := by
  rw [h.utf8ByteSize_eq, ← String.utf8Len_eq_zero]
  omega

/-- The cursor is before the end if something is left. -/
theorem lt_utf8ByteSize (h : Tracks text began read (d :: rest) c) :
    c.next < text.utf8ByteSize := by
  have hend := h.atEnd_iff
  simp only [List.cons_ne_nil, iff_false] at hend
  omega

/-- The bytes from the cursor on are those of what is left. -/
theorem byteAt_eq (h : Tracks text began read rest c) (k : Nat) :
    byteAt text (c.next + k) = byteOf rest k := by
  rw [h.next_eq]
  exact byteAt_eq_byteOf h.text_eq k

/-- The next byte is the lead of what is left. -/
theorem peek_eq (h : Tracks text began read rest c) : c.peek text = lead rest :=
  h.byteAt_eq 0

/-- The lexeme is what was read since it began. -/
theorem lexeme_eq (h : Tracks text began read rest c) :
    c.lexeme text = .ok (String.ofList read) := by
  rw [Cursor.lexeme, h.start_eq, h.next_eq]
  exact piece_of_split h.text_eq

/-- Between two places of one lexeme there is a piece of the text. -/
theorem piece_eq {run rest' : List Char} {c' : Cursor} (h : Tracks text began read rest c)
    (h' : Tracks text began (read ++ run) rest' c') :
    piece text c.next c'.next = .ok (String.ofList run) := by
  have htext : text.toList = began ++ read ++ run ++ rest' := by
    rw [h'.text_eq, List.append_assoc began read]
  rw [h.next_eq, h'.next_eq, ← List.append_assoc]
  exact piece_of_split htext

/-- The cursor moves on behind characters that end no line. -/
theorem move (run : List Char) (h : Tracks text began read (run ++ rest) c) (hrun : '\n' ∉ run) :
    Tracks text began (read ++ run) rest { c with next := c.next + utf8Len run } := by
  obtain ⟨counted, run', hcounted, hmark, hcolumn⟩ := h.column_eq
  have hadvance : ({} : Position).advance (began ++ (read ++ run)) =
      ⟨(({} : Position).advance (began ++ read)).line,
        (({} : Position).advance (began ++ read)).column + run.length⟩ := by
    rw [← List.append_assoc, Position.advance_append, Position.advance_of_not_mem _ hrun]
  -- The columns are not counted on the way: the characters join the run behind the mark.
  refine ⟨?_, h.start_eq, h.position_eq, ?_, ?_, counted, run' ++ run, ?_, hmark, ?_⟩
  · simpa using h.text_eq
  · simp [h.next_eq, Nat.add_assoc]
  · rw [hadvance]
    exact h.line_eq
  · rw [← List.append_assoc, hcounted, List.append_assoc]
  · rw [hadvance, hcolumn, List.length_append, Nat.add_assoc]

/-- Where a character comes next, a byte can be taken. -/
theorem advance_eq (h : Tracks text began read (d :: rest) c) :
    c.advance text = .ok { c with next := c.next + 1 } :=
  if_pos h.lt_utf8ByteSize

/-- A character below 128 is taken with one byte. -/
theorem advance_ascii (h : Tracks text began read (d :: rest) c) (hd : d.toNat < 128)
    (hline : d ≠ '\n') :
    ∃ c', c.advance text = .ok c' ∧ Tracks text began (read ++ [d]) rest c' := by
  refine ⟨_, h.advance_eq, ?_⟩
  have hmove := h.move [d] (by simpa using hline.symm)
  rwa [show utf8Len [d] = 1 by simp [utf8Size_eq_one hd]] at hmove

/-- The same, where the character may end a line. -/
theorem step_ascii (h : Tracks text began read (d :: rest) c) (hd : d.toNat < 128) :
    ∃ c', c.step text = .ok c' ∧ Tracks text began (read ++ [d]) rest c' := by
  unfold Cursor.step
  by_cases hline : d = '\n'
  · subst hline
    rw [h.advance_eq, ok_bind, h.peek_eq, lead_cons hd, if_pos rfl]
    have hadvance : ({} : Position).advance (began ++ (read ++ ['\n'])) =
        ⟨(({} : Position).advance (began ++ read)).line + 1, 1⟩ := by
      rw [← List.append_assoc, Position.advance_append]
      rfl
    have hnext : c.next + 1 = utf8Len (began ++ (read ++ ['\n'])) := by
      rw [← List.append_assoc, String.utf8Len_append _ ['\n'], ← h.next_eq]
      rfl
    -- A line break starts the count anew, so nothing is left between the mark and the cursor.
    refine ⟨_, rfl, ?_, h.start_eq, h.position_eq, hnext, ?_, began ++ (read ++ ['\n']), [], ?_,
      hnext, ?_⟩
    · simpa using h.text_eq
    · rw [hadvance, ← h.line_eq]
    · rw [List.append_nil]
    · rw [hadvance]
      rfl
  · obtain ⟨c', hc', htracks⟩ := h.advance_ascii hd hline
    refine ⟨c', ?_, htracks⟩
    rw [hc', ok_bind, h.peek_eq, lead_cons hd, if_neg hline]
    rfl

/-- A step over a character that ends no line. -/
theorem step_eq (h : Tracks text began read (d :: rest) c) (hline : d ≠ '\n') :
    c.step text = .ok { c with next := c.next + 1 } := by
  have hpeek : c.peek text ≠ '\n' := by
    rw [h.peek_eq, Ne, lead_eq_iff (by decide)]
    simpa using hline
  rw [Cursor.step, h.advance_eq, ok_bind, if_neg hpeek]
  rfl

/-- Columns are counted up to the cursor. -/
theorem count_eq (h : Tracks text began read rest c) :
    c.count text = .ok { c with
      mark := c.next, column := (({} : Position).advance (began ++ read)).column } := by
  obtain ⟨counted, run, hcounted, hmark, hcolumn⟩ := h.column_eq
  have hpiece : piece text c.mark c.next = .ok (String.ofList run) := by
    rw [hmark, h.next_eq, hcounted]
    exact piece_of_split (hcounted ▸ h.text_eq)
  rw [Cursor.count, hpiece, ok_bind, hcolumn, String.length_ofList]
  rfl

/-- Where a lexeme is read, the next one starts. -/
theorem begin_eq (h : Tracks text began read rest c) :
    ∃ c', c.begin text = .ok c' ∧ c'.next = c.next ∧ Tracks text (began ++ read) [] rest c' := by
  have hnil : began ++ read ++ [] = began ++ read := List.append_nil _
  rw [Cursor.begin, h.count_eq, ok_bind]
  -- The lexeme starts where the columns are counted up to.
  refine ⟨_, rfl, rfl, ?_, h.next_eq, ?_, ?_, ?_, began ++ read, [], rfl, h.next_eq, ?_⟩
  · rw [hnil]
    exact h.text_eq
  · rw [h.line_eq]
  · rw [hnil]
    exact h.next_eq
  · rw [hnil]
    exact h.line_eq
  · rw [hnil]
    rfl

/-- A cursor behind some more characters of a lexeme is further on. -/
theorem next_lt {run rest' : List Char} {c' : Cursor} (h : Tracks text began read rest c)
    (h' : Tracks text began (read ++ run) rest' c') (hrun : run ≠ []) : c.next < c'.next := by
  have hpos : utf8Len run ≠ 0 := mt String.utf8Len_eq_zero.mp hrun
  rw [h.next_eq, h'.next_eq, ← List.append_assoc, String.utf8Len_append _ run]
  omega

/-- Behind some more characters of a lexeme the scan goes on. -/
theorem onward_eq {α : Type} {x : Except Stop α} {run rest' : List Char} {c' : Cursor}
    (h : Tracks text began read rest c) (h' : Tracks text began (read ++ run) rest' c')
    (hrun : run ≠ []) : (c.onward text c' fun _ => x) = x := by
  have hsize := h'.utf8ByteSize_eq
  exact dif_pos ⟨h.next_lt h' hrun, by omega⟩

/-! ## Runs of characters -/

/-- Characters of a class below 128 are taken as a whole. -/
theorem skipWhile_eq {p : Char → Bool} (hp : Ascii p) (hline : p '\n' = false)
    (h : Tracks text began read rest c) :
    ∃ c', c.skipWhile text p = .ok c' ∧
      Tracks text began (read ++ rest.takeWhile p) (rest.dropWhile p) c' := by
  -- A class below 128 holds of the next byte if and only if it holds of the next character.
  have hpeek := h.peek_eq ▸ hp.lead rest
  induction rest generalizing read c with
  | nil =>
    refine ⟨c, ?_, by simpa using h⟩
    rw [Cursor.skipWhile, if_neg (by rw [hpeek]; simp)]
    rfl
  | cons d rest ih =>
    rw [List.head?_cons, Option.any_some] at hpeek
    rw [Cursor.skipWhile, hpeek]
    by_cases hd : p d
    · have hne : d ≠ '\n' := fun heq => absurd (heq ▸ hd) (by simp [hline])
      obtain ⟨c₁, hadvance, h₁⟩ := h.advance_ascii (hp d hd).2 hne
      obtain ⟨c', hskip, h'⟩ := ih h₁ (h₁.peek_eq ▸ hp.lead rest)
      refine ⟨c', ?_, ?_⟩
      · rw [if_pos hd, hadvance, ok_bind, h.onward_eq h₁ (by simp), hskip]
      · simpa [List.takeWhile_cons_of_pos hd, List.dropWhile_cons_of_pos hd] using h'
    · refine ⟨c, if_neg hd, ?_⟩
      simpa [List.takeWhile_cons_of_neg hd, List.dropWhile_cons_of_neg hd] using h

/-- The bytes that continue a character are taken as a whole. -/
theorem skipWhile_continues {n : Nat} {c : Cursor}
    (h : ∀ k < n, continues (byteAt text (c.next + k)))
    (hn : continues (byteAt text (c.next + n)) = false) :
    c.skipWhile text continues = .ok { c with next := c.next + n } := by
  induction n generalizing c with
  | zero =>
    rw [Cursor.skipWhile, if_neg (by rw [Cursor.peek]; simpa using hn)]
    rfl
  | succ n ih =>
    have hfirst : continues (c.peek text) := h 0 (Nat.succ_pos n)
    have hlt : c.next < text.utf8ByteSize := lt_of_byteAt_ne fun hzero => by
      rw [Cursor.peek, hzero] at hfirst
      contradiction
    have hadvance : c.advance text = .ok { c with next := c.next + 1 } := if_pos hlt
    have hassoc (k : Nat) : c.next + 1 + k = c.next + (k + 1) := by omega
    rw [Cursor.skipWhile, if_pos hfirst, hadvance, ok_bind, Cursor.onward,
      dif_pos ⟨Nat.lt_succ_self _, Nat.le_succ_of_le hlt⟩, ih ?_ ?_]
    · exact congrArg (fun i => Except.ok { c with next := i }) (hassoc n)
    · intro k hk
      rw [hassoc]
      exact h (k + 1) (Nat.succ_lt_succ hk)
    · rw [hassoc]
      exact hn

/-- Between two characters there is no such byte. -/
theorem skipWhile_continues_eq (h : Tracks text began read rest c) :
    c.skipWhile text continues = .ok c := by
  rw [Cursor.skipWhile, h.peek_eq, continues_lead, if_neg (by decide)]
  rfl

/-- Behind the first byte of a character the others are taken. -/
theorem skipWhile_char (h : Tracks text began read (d :: rest) c) :
    Cursor.skipWhile text continues { c with next := c.next + 1 } =
      .ok { c with next := c.next + d.utf8Size } := by
  have hpos := d.utf8Size_pos
  have hnext : byteAt text (c.next + d.utf8Size) = lead rest := by
    rw [h.byteAt_eq]
    have happend := byteOf_append [d] rest 0
    simpa [lead] using happend
  -- All bytes of the character but the first continue it, and the byte behind it continues none.
  rw [skipWhile_continues (n := d.utf8Size - 1)]
  · have hsum : c.next + 1 + (d.utf8Size - 1) = c.next + d.utf8Size := by omega
    exact congrArg (fun i => Except.ok { c with next := i }) hsum
  · intro k hk
    have hbyte := h.byteAt_eq (k + 1)
    rw [show c.next + 1 + k = c.next + (k + 1) by omega, hbyte]
    exact continues_of_lt rest (Nat.succ_pos k) (by omega)
  · rw [show c.next + 1 + (d.utf8Size - 1) = c.next + d.utf8Size by omega, hnext]
    exact continues_lead rest

/-- A byte that is not ASCII is no ASCII character. -/
theorem ne_of_le {b : Char} (h : 128 ≤ b.toNat) (hd : d.toNat < 128) : b ≠ d := by
  rintro rfl
  omega

/-- Where a byte is not ASCII, the text has not ended. -/
theorem lt_of_le_peek (h : 128 ≤ (c.peek text).toNat) : c.next < text.utf8ByteSize :=
  lt_of_byteAt_ne (ne_of_le h (by decide))

/-- A loop that takes every byte from 128 on passes over a character, if it takes its first byte. -/
theorem pass {α : Type} {loop : Cursor → Except Stop α}
    (h : Tracks text began read (d :: rest) c)
    (hloop : ∀ c, 128 ≤ (c.peek text).toNat → TakesByte text loop c)
    (hfirst : d.toNat < 128 → TakesByte text loop c) :
    ∃ c', loop c = loop c' ∧ Tracks text began (read ++ [d]) rest c' := by
  obtain hd | hd := Nat.lt_or_ge d.toNat 128
  · obtain ⟨c', hstep, h'⟩ := h.step_ascii hd
    refine ⟨c', ?_, h'⟩
    rw [hfirst hd, hstep, ok_bind, h.onward_eq h' (by simp)]
  -- The bytes of a larger character are taken one after the other.
  have hskip (n : Nat) (c : Cursor) (hn : ∀ k < n, 128 ≤ (byteAt text (c.next + k)).toNat) :
      loop c = loop { c with next := c.next + n } := by
    induction n generalizing c with
    | zero => rfl
    | succ n ih =>
      have hpeek : 128 ≤ (c.peek text).toNat := hn 0 (Nat.succ_pos n)
      have hlt := lt_of_le_peek hpeek
      have hne := ne_of_le hpeek (d := '\n') (by decide)
      have hstep : c.step text = .ok { c with next := c.next + 1 } := by
        rw [Cursor.step, Cursor.advance, if_pos hlt, ok_bind, if_neg hne]
        rfl
      have hassoc (k : Nat) : c.next + 1 + k = c.next + (k + 1) := by omega
      rw [hloop c hpeek, hstep, ok_bind, Cursor.onward,
        dif_pos ⟨Nat.lt_succ_self _, Nat.le_succ_of_le hlt⟩, ih]
      · exact congrArg (fun i => loop { c with next := i }) (hassoc n)
      · intro k hk
        rw [hassoc]
        exact hn (k + 1) (Nat.succ_lt_succ hk)
  -- Such a character ends no line.
  have hmove := h.move [d] (by
    rw [List.mem_singleton]
    rintro rfl
    exact absurd hd (by decide))
  refine ⟨_, ?_, hmove⟩
  rw [show utf8Len [d] = d.utf8Size by simp]
  refine hskip _ c fun k hk => ?_
  rw [h.byteAt_eq]
  obtain rfl | hpos := Nat.eq_zero_or_pos k
  · have hlead := le_lead hd rest
    rw [lead] at hlead
    omega
  · exact le_of_continues (continues_of_lt rest hpos hk)

/-! ## Comments, words and signs -/

/-- A line comment is skipped. -/
theorem skipLine_eq (h : Tracks text began read rest c) :
    ∃ c', c.skipLine text = .ok c' ∧
      Tracks text began (read ++ rest.takeWhile (· != '\n')) (rest.dropWhile (· != '\n')) c' := by
  have hmem : '\n' ∉ rest.takeWhile (· != '\n') := fun hmem => by
    simpa using List.mem_takeWhile_imp hmem
  -- No byte of a larger character is a line break, so the bytes end where the characters do.
  have hbytes : text.toUTF8.data.toList.drop c.next = rest.flatMap String.utf8EncodeChar := by
    rw [h.next_eq]
    exact drop_bytes h.text_eq
  have hsize := h.utf8ByteSize_eq
  rw [Cursor.skipLine, hbytes, length_takeWhile_bytes, if_pos (by omega)]
  refine ⟨_, rfl, move _ ?_ hmem⟩
  rwa [List.takeWhile_append_dropWhile]

/-- A block comment goes on with a byte that does not close it. -/
theorem takesByte_blockComment (hend : c.next < text.utf8ByteSize)
    (hclose : c.peek text = '*' → c.peekNext text ≠ '/') :
    TakesByte text (Cursor.blockComment text) c := by
  rw [TakesByte, Cursor.blockComment, if_neg (Nat.not_le_of_lt hend),
    if_neg (not_and.mpr hclose)]

/-- A block comment is read, or the text ends in it. -/
theorem blockComment_eq (h : Tracks text began read rest c) :
    Yields text began read rest
      ((commentEnd rest).elim (.fault .unterminatedComment, rest.length) fun n => (.gap, n))
      (c.blockComment text) := by
  induction rest generalizing read c with
  | nil =>
    refine ⟨c, ?_, by simpa using h⟩
    rw [Cursor.blockComment, if_pos (h.atEnd_iff.mpr rfl)]
    rfl
  | cons d rest ih =>
    have hpeek : c.peek text = '*' ↔ d = '*' := by
      rw [h.peek_eq, lead_eq_iff (by decide)]
      simp
    have hnotEnd : ¬text.utf8ByteSize ≤ c.next := Nat.not_le_of_lt h.lt_utf8ByteSize
    -- The mark that closes a comment is two characters below 128, so two bytes show it.
    by_cases hclose : d = '*' ∧ rest.head? = some '/'
    · obtain ⟨rfl, hslash⟩ := hclose
      obtain ⟨rest, rfl⟩ : ∃ tail, rest = '/' :: tail := List.head?_eq_some_iff.mp hslash
      have hnext : c.peekNext text = '/' := by
        rw [Cursor.peekNext, h.byteAt_eq, byteOf_one (by decide), lead_cons (by decide)]
      have hmove := h.move ['*', '/'] (by decide)
      refine ⟨_, ?_, by simpa [commentEnd] using hmove⟩
      rw [Cursor.blockComment, if_neg hnotEnd, if_pos ⟨hpeek.mpr rfl, hnext⟩]
      rfl
    -- Any other character is passed over.
    · have hnone : commentEnd (d :: rest) = (commentEnd rest).map (· + 1) := by
        rw [commentEnd]
        rintro tail rfl rfl
        exact hclose ⟨rfl, rfl⟩
      obtain ⟨c', heq, h'⟩ := h.pass
        (fun c hc => takesByte_blockComment (lt_of_le_peek hc)
          fun hstar => absurd hstar (ne_of_le hc (by decide)))
        (fun _ => takesByte_blockComment h.lt_utf8ByteSize fun hstar hslash => by
          obtain rfl := hpeek.mp hstar
          rw [Cursor.peekNext, h.byteAt_eq, byteOf_one (by decide),
            lead_eq_iff (by decide)] at hslash
          exact hclose ⟨rfl, hslash⟩)
      rw [heq, hnone]
      have hrest := (ih h').cons
      cases hend : commentEnd rest <;> rw [hend] at hrest <;> exact hrest

/-- What starts with a slash is read. -/
theorem slash_eq (h : Tracks text began read rest c) :
    Yields text began read rest (slashLexeme rest) (c.slash text) := by
  have hpeek (d : Char) (hd : 0 < d.toNat ∧ d.toNat < 128) :
      c.peek text = d ↔ rest.head? = some d := by
    rw [h.peek_eq, lead_eq_iff hd]
  unfold Cursor.slash
  by_cases hline : rest.head? = some '/'
  · obtain ⟨rest, rfl⟩ := List.head?_eq_some_iff.mp hline
    obtain ⟨c', hadvance, h'⟩ := h.advance_ascii (by decide) (by decide)
    obtain ⟨c'', hskip, h''⟩ := h'.skipLine_eq
    rw [if_pos ((hpeek _ (by decide)).mpr hline), hadvance, ok_bind, hskip, ok_bind, slashLexeme,
      Nat.add_comm]
    exact Yields.cons (r := (.gap, _)) (.intro _ List.takeWhile_append_dropWhile.symm rfl rfl h'')
  rw [if_neg (mt (hpeek _ (by decide)).mp hline)]
  by_cases hblock : rest.head? = some '*'
  · obtain ⟨rest, rfl⟩ := List.head?_eq_some_iff.mp hblock
    obtain ⟨c', hadvance, h'⟩ := h.advance_ascii (by decide) (by decide)
    rw [if_pos ((hpeek _ (by decide)).mpr hblock), hadvance, ok_bind, slashLexeme]
    have hrest := h'.blockComment_eq.cons
    cases hend : commentEnd rest <;> rw [hend] at hrest <;> simpa [Nat.add_comm] using hrest
  rw [if_neg (mt (hpeek _ (by decide)).mp hblock)]
  have hsign : slashLexeme rest = (.token .slash, 0) := by
    cases rest with
    | nil => rfl
    | cons d rest => exact slashLexeme_sign (by simpa using hline) (by simpa using hblock)
  rw [hsign]
  exact ⟨c, rfl, by simpa using h⟩

/-- A word is read. -/
theorem word_eq (h : Tracks text began [d] rest c) :
    Yields text began [d] rest (wordLexeme d rest) (c.word text) := by
  obtain ⟨c', hskip, h'⟩ := h.skipWhile_eq ascii_isWordChar (by decide)
  refine .intro _ List.takeWhile_append_dropWhile.symm rfl ?_ h'
  rw [Cursor.word, hskip, ok_bind, h'.lexeme_eq, ok_bind]
  rfl

/-- Whether a sign has two characters is decided by the first byte of the second one. -/
theorem pair?_following (h : Tracks text began read rest c) (first : Char) :
    pair? first (if c.next < text.utf8ByteSize then some (c.peek text) else none) =
      pair? first rest.head? := by
  cases rest with
  | nil => rw [if_neg (Nat.not_lt_of_le (h.atEnd_iff.mpr rfl))]; rfl
  | cons x rest =>
    rw [if_pos h.lt_utf8ByteSize, h.peek_eq, List.head?_cons]
    -- A larger character is the second one of no sign, and neither is its first byte.
    obtain hx | hx := Nat.lt_or_ge x.toNat 128
    · rw [lead_cons hx]
    · have hlead := le_lead hx rest
      rw [pair?_of_le_second hx, pair?_of_le_second (by omega)]

/-- A sign that starts with a character below 128. -/
theorem other_eq (h : Tracks text began [d] rest c) :
    Yields text began [d] rest (signLexeme d rest) (c.other text d) := by
  unfold Cursor.other signLexeme
  dsimp only
  rw [h.pair?_following]
  cases hpair : pair? d rest.head? with
  | some kind =>
    cases rest with
    | nil => rw [List.head?_nil, pair?_none] at hpair; contradiction
    | cons x rest =>
      obtain ⟨hx, hline⟩ := second_of_pair? hpair
      obtain ⟨c', hadvance, h'⟩ := h.advance_ascii hx hline
      refine .intro [x] rfl rfl ?_ h'
      dsimp only
      rw [hadvance, ok_bind]
      rfl
  | none =>
    dsimp only
    cases single? d with
    | some kind => exact .intro [] rfl rfl rfl (by simpa using h)
    | none =>
      refine .intro [] rfl rfl ?_ (by simpa using h)
      dsimp only
      rw [h.skipWhile_continues_eq, ok_bind, h.lexeme_eq, ok_bind, String.toList_ofList]
      rfl

/-- A character from 128 on starts no sign, and is taken as a whole. -/
theorem other_of_le (h : Tracks text began [] (d :: rest) c) (hd : 128 ≤ d.toNat) :
    Yields text began [] (d :: rest) (.fault (.unexpected d), 1)
      (Cursor.other text { c with next := c.next + 1 } (lead (d :: rest))) := by
  have hlead := le_lead hd rest
  have hmove := h.move [d] (by
    rw [List.mem_singleton]
    exact (ne_of_le hd (by decide)).symm)
  rw [show utf8Len [d] = d.utf8Size by simp] at hmove
  refine .intro [d] rfl rfl ?_ hmove
  unfold Cursor.other
  dsimp only
  rw [pair?_of_le (by omega), single?_of_le (by omega)]
  dsimp only
  rw [h.skipWhile_char, ok_bind, hmove.lexeme_eq, ok_bind, String.toList_ofList]
  rfl

/-! ## Numbers -/

/-- A fraction is read. -/
theorem fraction_eq (h : Tracks text began read rest c) :
    ∃ run rest' c', rest = run ++ rest' ∧
      (if (fractionAt rest).isEmpty then 0 else 1 + (fractionAt rest).length) = run.length ∧
      c.fraction text = .ok c' ∧ Tracks text began (read ++ run) rest' c' := by
  have hpeek : c.peek text = '.' ↔ rest.head? = some '.' := by
    rw [h.peek_eq, lead_eq_iff (by decide)]
  have hnone (hfraction : fractionAt rest = [])
      (hnot : ¬(c.peek text = '.' ∧ isDigit (c.peekNext text))) :
      ∃ run rest' c', rest = run ++ rest' ∧
        (if (fractionAt rest).isEmpty then 0 else 1 + (fractionAt rest).length) = run.length ∧
        c.fraction text = .ok c' ∧ Tracks text began (read ++ run) rest' c' := by
    refine ⟨[], rest, c, rfl, by rw [hfraction]; rfl, ?_, by simpa using h⟩
    rw [Cursor.fraction, if_neg hnot]
    rfl
  -- A point belongs to the number only if a digit follows it.
  by_cases hpoint : rest.head? = some '.'
  · obtain ⟨tail, rfl⟩ := List.head?_eq_some_iff.mp hpoint
    have hnext : isDigit (c.peekNext text) = tail.head?.any isDigit := by
      rw [Cursor.peekNext, h.byteAt_eq, byteOf_one (by decide), ascii_isDigit.lead]
    by_cases hdigit : tail.head?.any isDigit
    · obtain ⟨c₁, hadvance, h₁⟩ := h.advance_ascii (by decide) (by decide)
      obtain ⟨c', hskip, h'⟩ := h₁.skipWhile_eq ascii_isDigit (by decide)
      refine ⟨'.' :: tail.takeWhile isDigit, tail.dropWhile isDigit, c', ?_, ?_, ?_, ?_⟩
      · rw [List.cons_append, List.takeWhile_append_dropWhile]
      · have hne : ¬(fractionAt ('.' :: tail)).isEmpty := by
          cases tail with
          | nil => contradiction
          | cons x tail =>
            rw [fractionAt, List.takeWhile_cons_of_pos (by simpa using hdigit)]
            simp
        rw [if_neg hne, fractionAt, List.length_cons, Nat.add_comm]
      · rw [Cursor.fraction, if_pos ⟨hpeek.mpr rfl, hnext.trans hdigit⟩, hadvance, ok_bind, hskip]
      · simpa using h'
    · refine hnone ?_ fun hboth => hdigit (hnext ▸ hboth.2)
      cases tail with
      | nil => rfl
      | cons x tail => rw [fractionAt, List.takeWhile_cons_of_neg (by simpa using hdigit)]
  · refine hnone ?_ fun hboth => hpoint (hpeek.mp hboth.1)
    cases rest with
    | nil => rfl
    | cons x rest => exact fractionAt_none (by simpa using hpoint)

/-- The mark of an exponent may be followed by a sign, and the digits come behind them. -/
theorem plusOrMinus_eq {mark : Char} (hmark : mark = 'e' ∨ mark = 'E')
    (h : Tracks text began read rest c) :
    ∃ e run rest' c', exponentAt (mark :: rest) = some e ∧ e.digits = rest'.takeWhile isDigit ∧
      e.taken = 1 + run.length + e.digits.length ∧ rest = run ++ rest' ∧
      c.plusOrMinus text = .ok c' ∧ Tracks text began (read ++ run) rest' c' := by
  have hpeek (d : Char) (hd : 0 < d.toNat ∧ d.toNat < 128) :
      c.peek text = d ↔ rest.head? = some d := by
    rw [h.peek_eq, lead_eq_iff hd]
  unfold Cursor.plusOrMinus exponentAt
  simp only [if_pos hmark, hpeek '+' (by decide), hpeek '-' (by decide)]
  split
  · next tail =>
    obtain ⟨c', hadvance, h'⟩ := h.advance_ascii (by decide) (by decide)
    exact ⟨_, ['-'], tail, c', rfl, rfl, rfl, rfl, by simpa using hadvance, h'⟩
  · next tail =>
    obtain ⟨c', hadvance, h'⟩ := h.advance_ascii (by decide) (by decide)
    exact ⟨_, ['+'], tail, c', rfl, rfl, rfl, rfl, by simpa using hadvance, h'⟩
  · next tail hminus hplus =>
    refine ⟨_, [], rest, c, rfl, rfl, rfl, rfl, if_neg ?_, by simpa using h⟩
    rintro (hhead | hhead)
    · obtain ⟨tail, rfl⟩ := List.head?_eq_some_iff.mp hhead
      exact hplus tail rfl
    · obtain ⟨tail, rfl⟩ := List.head?_eq_some_iff.mp hhead
      exact hminus tail rfl

/-- The text of a decimal number is read back as that number. -/
theorem decimalValue_eq {run rest' : List Char} {kind : Kind} {n : Nat}
    (h : Tracks text began ([d] ++ run) rest' c) (hrest : rest = run ++ rest')
    (hlexeme : decimalLexeme d rest = (.token kind, n)) (hn : n = run.length) :
    Yields text began [d] rest (decimalLexeme d rest) (c.decimalValue text) := by
  -- The number is read from its own text here, without what stands behind it.
  have htake := decimalLexeme_take hlexeme
  rw [hn, (take_drop_of_eq_append hrest).1] at htake
  rw [hlexeme]
  refine .intro run hrest hn ?_ h
  rw [Cursor.decimalValue, h.lexeme_eq, ok_bind, String.toList_ofList, List.singleton_append]
  dsimp only
  rw [htake]
  rfl

/-- The exponent of a number, and with it the number. -/
theorem exponent_eq {run tail : List Char} {mark : Char} {e : Exponent} {value : Float}
    (h : Tracks text began ([d] ++ run ++ [mark]) tail c) (hmark : mark = 'e' ∨ mark = 'E')
    (hrest : rest = run ++ mark :: tail) (he : exponentAt (mark :: tail) = some e)
    (hlexeme : decimalLexeme d rest = (if e.digits.isEmpty then .fault .exponentDigitsMissing
      else .token (.number value), run.length + e.taken)) :
    Yields text began [d] rest (decimalLexeme d rest) (c.exponent text) := by
  obtain ⟨e', sign, tail', c₁, he', hdigits, htaken, rfl, hsign, h₁⟩ := h.plusOrMinus_eq hmark
  obtain rfl : e = e' := Option.some.inj (he.symm.trans he')
  rw [Cursor.exponent, hsign, ok_bind, h₁.peek_eq, ascii_isDigit.lead]
  by_cases hdigit : tail'.head?.any isDigit
  · obtain ⟨c₂, hskip, h₂⟩ := h₁.skipWhile_eq ascii_isDigit (by decide)
    have hne : ¬e.digits.isEmpty := by
      rw [hdigits]
      cases tail' with
      | nil => contradiction
      | cons x tail' => simp [List.takeWhile_cons_of_pos (by simpa using hdigit)]
    rw [if_neg hne] at hlexeme
    rw [if_pos hdigit, hskip, ok_bind]
    have hread : Tracks text began ([d] ++ (run ++ (mark :: sign ++ e.digits)))
        (tail'.dropWhile isDigit) c₂ := by simpa [hdigits] using h₂
    refine hread.decimalValue_eq ?_ hlexeme ?_
    · rw [hrest, hdigits]
      simp
    · rw [htaken]
      simp only [List.length_append, List.length_cons]
      omega
  -- Without digits the fault takes the mark and the sign.
  · have hempty : e.digits = [] := by
      rw [hdigits]
      cases tail' with
      | nil => rfl
      | cons x tail' => rw [List.takeWhile_cons_of_neg (by simpa using hdigit)]
    rw [if_pos (List.isEmpty_iff.mpr hempty)] at hlexeme
    rw [if_neg hdigit, hlexeme]
    refine .intro (run ++ mark :: sign) ?_ ?_ rfl (by simpa using h₁)
    · rw [hrest]
      simp
    · rw [htaken, hempty]
      simp [Nat.add_comm]

/-- A decimal number, by what comes behind its digits and its fraction. -/
theorem decimalLexeme_of_split (d : Char) {run tail : List Char}
    (hsplit : rest.dropWhile isDigit = run ++ tail)
    (hpoint : (if (fractionAt (rest.dropWhile isDigit)).isEmpty then 0
      else 1 + (fractionAt (rest.dropWhile isDigit)).length) = run.length) :
    ∃ value : Int → Float, decimalLexeme d rest = (exponentAt tail).elim
      (.token (.number (value 0)), (rest.takeWhile isDigit ++ run).length)
      fun e => (if e.digits.isEmpty then .fault .exponentDigitsMissing
        else .token (.number (value e.value)),
          (rest.takeWhile isDigit ++ run).length + e.taken) := by
  refine ⟨Number.ofDecimal (d :: rest.takeWhile isDigit) (fractionAt (rest.dropWhile isDigit)), ?_⟩
  unfold decimalLexeme
  dsimp only
  rw [hpoint, hsplit, List.drop_left, List.length_append]
  cases exponentAt tail with
  | none => rfl
  | some e =>
    dsimp only [Option.elim]
    split <;> rfl

/-- A decimal number is read. -/
theorem decimal_eq (h : Tracks text began [d] rest c) :
    Yields text began [d] rest (decimalLexeme d rest) (c.decimal text) := by
  obtain ⟨c₁, hwhole, h₁⟩ := h.skipWhile_eq ascii_isDigit (by decide)
  obtain ⟨run, tail, c₂, hsplit, hpoint, hfraction, h₂⟩ := h₁.fraction_eq
  have hrest : rest = (rest.takeWhile isDigit ++ run) ++ tail := by
    rw [List.append_assoc, ← hsplit, List.takeWhile_append_dropWhile]
  rw [List.append_assoc] at h₂
  obtain ⟨value, hlexeme⟩ := decimalLexeme_of_split d hsplit hpoint
  have hpeek : (c₂.peek text = 'e' ∨ c₂.peek text = 'E') ↔
      (tail.head? = some 'e' ∨ tail.head? = some 'E') := by
    rw [h₂.peek_eq, lead_eq_iff (by decide), lead_eq_iff (by decide)]
  rw [Cursor.decimal, hwhole, ok_bind, hfraction, ok_bind]
  -- What stands behind the fraction decides whether there is an exponent.
  by_cases hmark : tail.head? = some 'e' ∨ tail.head? = some 'E'
  · obtain ⟨mark, tail, rfl⟩ : ∃ mark more, tail = mark :: more :=
      List.exists_cons_of_ne_nil (by rintro rfl; simp at hmark)
    rw [if_pos (hpeek.mpr hmark)]
    replace hmark : mark = 'e' ∨ mark = 'E' := by simpa using hmark
    obtain ⟨c₃, hadvance, h₃⟩ := h₂.advance_ascii
      (by obtain rfl | rfl := hmark <;> decide) (by obtain rfl | rfl := hmark <;> decide)
    obtain ⟨e, -, -, -, he, -⟩ := h₃.plusOrMinus_eq hmark
    rw [he, Option.elim_some] at hlexeme
    rw [hadvance, ok_bind]
    exact h₃.exponent_eq hmark hrest he hlexeme
  · have hnone : exponentAt tail = none := by
      cases tail with
      | nil => rfl
      | cons mark tail => exact if_neg (by simpa using hmark)
    rw [hnone, Option.elim_none] at hlexeme
    rw [if_neg (mt hpeek.mp hmark)]
    exact h₂.decimalValue_eq hrest hlexeme rfl

/-- A hexadecimal number is read. -/
theorem hexadecimal_eq {mark : Char} (hmark : mark = 'x' ∨ mark = 'X')
    (h : Tracks text began ['0', mark] rest c) :
    Yields text began ['0'] (mark :: rest) (hexLexeme mark rest) (c.hexadecimal text) := by
  unfold Cursor.hexadecimal hexLexeme
  rw [h.peek_eq, ascii_isHexDigit.lead]
  by_cases hdigit : rest.head?.any isHexDigit
  · obtain ⟨c', hskip, h'⟩ := h.skipWhile_eq ascii_isHexDigit (by decide)
    have hne : ¬(rest.takeWhile isHexDigit).isEmpty := by
      cases rest with
      | nil => contradiction
      | cons x rest => simp [List.takeWhile_cons_of_pos (by simpa using hdigit)]
    -- The digits stand two bytes behind the start of the lexeme.
    have hstart : c'.start + 2 = c.next := by
      rw [h'.start_eq, h.next_eq]
      obtain rfl | rfl := hmark <;> simp <;> rfl
    have hpiece := h.piece_eq h'
    dsimp only
    rw [if_pos hdigit, if_neg hne, hskip, ok_bind, hstart, hpiece, ok_bind, String.toList_ofList]
    have hrest : mark :: rest =
        (mark :: rest.takeWhile isHexDigit) ++ rest.dropWhile isHexDigit := by
      rw [List.cons_append, List.takeWhile_append_dropWhile]
    cases Number.ofHex? (rest.takeWhile isHexDigit) with
    | some x => exact .intro _ hrest (Nat.add_comm ..) rfl h'
    | none =>
      refine .intro _ hrest (Nat.add_comm ..) ?_ h'
      dsimp only
      rw [h'.lexeme_eq, ok_bind]
      rfl
  · have hnone : (rest.takeWhile isHexDigit).isEmpty := by
      cases rest with
      | nil => rfl
      | cons x rest => simp [List.takeWhile_cons_of_neg (by simpa using hdigit)]
    dsimp only
    rw [if_neg hdigit, if_pos hnone]
    exact .intro [mark] rfl rfl rfl h

/-- A number is read. -/
theorem number_eq (h : Tracks text began [d] rest c) :
    Yields text began [d] rest (numberLexeme d rest) (c.number text d) := by
  have hpeek (d : Char) (hd : 0 < d.toNat ∧ d.toNat < 128) :
      c.peek text = d ↔ rest.head? = some d := by
    rw [h.peek_eq, lead_eq_iff hd]
  unfold Cursor.number
  simp only [hpeek 'x' (by decide), hpeek 'X' (by decide)]
  cases rest with
  | nil =>
    rw [if_neg (by simp), numberLexeme]
    exact h.decimal_eq
  | cons x rest =>
    simp only [List.head?_cons, Option.some.injEq, numberLexeme]
    split
    · next hhex =>
      obtain ⟨rfl, hmark⟩ := hhex
      obtain ⟨c', hadvance, h'⟩ := h.advance_ascii
        (by obtain rfl | rfl := hmark <;> decide) (by obtain rfl | rfl := hmark <;> decide)
      rw [hadvance, ok_bind]
      exact h'.hexadecimal_eq hmark
    · exact h.decimal_eq

end Tracks

end Token

end Lox

import Lox.Proofs.Token.ByteScan

/-!
# The items of a text

A cursor is asked for one item after the other. Its answers are the items of the text, and once it
has given the end token it has no more, however often it is asked (`Cursor.answers`). The items and
the gaps between them make up the whole text (`scan_partitions`), and each item is placed where its
first character stands, although the cursor counts the columns of a line in pieces, from the place
up to which they were counted before (`scan_positions`).
-/

namespace Lox.Token

/-- What a cursor answers when it is asked for an item several times, and where it stands then. -/
def Cursor.answers (text : String) : Nat → Cursor → Except Stop (List (Option Item) × Cursor)
  | 0, c => return ([], c)
  | n + 1, c => do
    let (item, c) ← c.nextItem text
    let (items, c) ← answers text n c
    return (item :: items, c)

/-- Past the end of the text there is no answer but that nothing is left. -/
theorem Cursor.answers_of_lt {text : String} {c : Cursor} (h : text.utf8ByteSize < c.next)
    (n : Nat) : answers text n c = .ok (List.replicate n none, c) := by
  induction n with
  | zero => rfl
  | succ n ih =>
    rw [answers, nextItem_of_lt h, ok_bind]
    dsimp only
    rw [ih]
    rfl

/-- From every place between two lexemes on, the answers are the items that the characters are
scanned as, one by one, and then nothing. -/
theorem Tracks.answers_eq {text : String} {began read rest : List Char} {c : Cursor}
    (h : Tracks text began read rest c) (n : Nat) :
    ∃ c', Cursor.answers text n c = .ok ((List.range n).map
      fun k => (scanFrom (({} : Position).advance (began ++ read)) rest)[k]?, c') := by
  induction n generalizing began read rest c with
  | zero => exact ⟨c, rfl⟩
  | succ n ih =>
    obtain ⟨i, c₁, hitem, -, hfound⟩ := h.nextItem_eq
    rw [Cursor.answers, hitem, ok_bind, List.range_succ_eq_map, List.map_cons, List.map_map]
    dsimp only
    cases hfound with
    | last hscan hc =>
      -- The end token was given, so the cursor is past the end.
      have hnone : (List.range n).map ((fun k => [i][k]?) ∘ Nat.succ) = List.replicate n none :=
        List.eq_replicate_iff.mpr ⟨by simp, by simp⟩
      rw [Cursor.answers_of_lt (by omega), hscan, hnone]
      exact ⟨c₁, rfl⟩
    | more h₁ _ hscan =>
      obtain ⟨c', hanswers⟩ := ih h₁
      rw [hanswers, hscan]
      exact ⟨c', rfl⟩

/-- A scan yields no more items than the text has bytes, and the end token, which is the last item
and the only one of its kind. However often a cursor is asked for an item, it answers with these in
order, and behind the last of them with none. The text is the concatenation of what the items
account for and of the gaps around them. -/
theorem scan_partitions (source : String) :
    (scan source).length ≤ source.utf8ByteSize + 1 ∧
    (∀ n, (∃ t, (scan source)[n]? = some (.token t) ∧ t.kind = .eof) ↔
      n + 1 = (scan source).length) ∧
    (∀ n, ∃ c, Cursor.answers source n {} = .ok ((List.range n).map ((scan source)[·]?), c)) ∧
    Partition (scan source) source.toList := by
  have hpartition : Partition (scan source) source.toList := scanFrom_partition {} source.toList
  have hbytes : source.toList.length ≤ source.utf8ByteSize := by
    simpa using length_le_utf8ByteSize source.toList
  refine ⟨?_, hpartition.eof_iff, (Tracks.start source).answers_eq, hpartition⟩
  exact hpartition.length_le.trans (Nat.succ_le_succ hbytes)

/-- Every item that is read from the bytes of a text, a token, a fault or the end token, has the
position of its first character: the line is counted by the bytes before it that end a line, and the
column by the characters between the last of these and the item. The end token stands behind the
whole text. -/
theorem scan_positions (source : String) :
    ∃ items, scanBytes source = .ok items ∧ ∀ n i, items[n]? = some i →
      ∃ before rest : String, source = before ++ rest ∧
        Partition (items.take n ++ [.token (.endAt i.position)]) before.toList ∧
        Flush (items.drop n) rest.toList ∧
        (n + 1 = items.length → before = source) ∧ i.position = .behind before :=
  ⟨scan source, scanBytes_eq source, fun _ _ => scan_starts⟩

/-- A text with a comment over two lines, letters of two bytes and a string over two lines that has
a bad escape on its second line. -/
def unevenText : String :=
  "é\n/*\nß*/ 'a\n\\xq' x"

/-- The string with the bad escape is placed where it starts. -/
theorem bad_escape_position :
    ∃ items, scanBytes unevenText = .ok items ∧ items[1]? = some (.fault ⟨3, 5⟩ .badEscape) ∧
      ∃ before rest : String, unevenText = before ++ rest ∧
        Partition (items.take 1 ++ [.token (.endAt ⟨3, 5⟩)]) before.toList ∧
        Flush (items.drop 1) rest.toList ∧
        (1 + 1 = items.length → before = unevenText) ∧ ⟨3, 5⟩ = Position.behind before := by
  obtain ⟨items, hscan, hstarts⟩ := scan_positions unevenText
  obtain rfl := Except.ok.inj (hscan.symm.trans (scanBytes_eq unevenText))
  have hitem : (scan unevenText)[1]? = some (.fault ⟨3, 5⟩ .badEscape) := by decide +kernel
  exact ⟨_, hscan, hitem, hstarts 1 _ hitem⟩

end Lox.Token

import Lox.Proofs.Token.Joining

/-!
# Lines

A scan counts the line ends that it passes. So whatever it finds in a text stands on one of the
lines of the text. A text that is cut off before blanks has no tokens but those of the whole text.
-/

namespace Lox

/-- The number of lines of a text. -/
def Text.lineCount (text : String) : Nat :=
  1 + text.toList.count '\n'

/-- A text is left as many lines further down as it has line ends. -/
theorem Position.line_advance (p : Position) (cs : List Char) :
    (p.advance cs).line = p.line + cs.count '\n' := by
  induction cs generalizing p with
  | nil => rfl
  | cons c cs ih =>
    show ((p.next c).advance cs).line = _
    rw [ih, Position.next]
    by_cases hc : c = '\n'
    · rw [if_pos hc, hc, List.count_cons_self, Nat.add_right_comm, Nat.add_assoc]
    · rw [if_neg hc, List.count_cons_of_ne hc]

namespace Token

/-- Where an item stands. -/
def Item.position : Item → Position
  | .token t => t.position
  | .fault p _ => p

/-- Items stand on the lines over which a text goes. -/
theorem line_of_mem_scanFrom {p : Position} {cs : List Char} {i : Item} (h : i ∈ scanFrom p cs) :
    p.line ≤ i.position.line ∧ i.position.line ≤ p.line + cs.count '\n' := by
  have hhere {p : Position} {cs : List Char} : p.line ≤ p.line ∧ p.line ≤ p.line + cs.count '\n' :=
    ⟨Nat.le_refl _, Nat.le_add_right ..⟩
  -- The lexeme and what is behind it make up the text, and so do their line ends.
  have hbehind {p : Position} {c : Char} {cs : List Char} {taken line : Nat}
      (h : (p.advance (c :: cs.take taken)).line ≤ line ∧
        line ≤ (p.advance (c :: cs.take taken)).line + (cs.drop taken).count '\n') :
      p.line ≤ line ∧ line ≤ p.line + (c :: cs).count '\n' := by
    have hcount : (c :: cs).count '\n' =
        (c :: cs.take taken).count '\n' + (cs.drop taken).count '\n' := by
      rw [← List.count_append, List.cons_append, List.take_append_drop]
    rw [Position.line_advance] at h
    omega
  fun_induction scanFrom p cs with
  | case1 p =>
    obtain rfl := List.mem_singleton.mp h
    exact hhere
  | case2 p c cs taken text rest hlexeme ih => exact hbehind (ih h)
  | case3 p c cs taken text rest kind hlexeme ih =>
    obtain rfl | h := List.mem_cons.mp h
    · exact hhere
    · exact hbehind (ih h)
  | case4 p c cs taken text rest fault hlexeme ih =>
    obtain rfl | h := List.mem_cons.mp h
    · exact hhere
    · exact hbehind (ih h)

/-- A text without faults has its tokens where it did if blanks come behind it. -/
theorem mem_scanFrom_append_blanks {p : Position} {cs blanks : List Char}
    (hblanks : ∀ b ∈ blanks, Text.isBlank b) (hclean : ∀ i ∈ scanFrom p cs, i.fault? = none)
    {t : Token} (ht : .token t ∈ scanFrom p cs) (hkind : t.kind ≠ .eof) :
    .token t ∈ scanFrom p (cs ++ blanks) := by
  cases blanks with
  | nil => rwa [List.append_nil]
  | cons b blanks =>
    have hb := hblanks b List.mem_cons_self
    fun_induction scanFrom p cs with
    | case1 p =>
      obtain rfl := Item.token.inj (List.mem_singleton.mp ht)
      exact absurd rfl hkind
    | case2 p c cs taken text rest hlexeme ih =>
      have hle : taken ≤ cs.length := by simpa [hlexeme] using lexemeAt_le c cs
      by_cases hlt : taken < cs.length
      · have happend : lexemeAt c (cs ++ b :: blanks) = (.gap, taken) := by
          rw [lexemeAt_append hb (by simp [hlexeme]) (fun _ _ => by simpa [hlexeme]), hlexeme]
        rw [List.cons_append, scanFrom, happend]
        dsimp only
        rw [List.take_append_of_le_length hle, List.drop_append_of_le_length hle]
        exact ih hclean ht
      · -- A comment that goes on to the end has no token behind it.
        have hdrop : cs.drop taken = [] := List.drop_eq_nil_iff.mpr (Nat.le_of_not_lt hlt)
        simp only [rest, hdrop] at ht
        rw [scanFrom] at ht
        obtain rfl := Item.token.inj (List.mem_singleton.mp ht)
        exact absurd rfl hkind
    | case3 p c cs taken text rest kind hlexeme ih =>
      have hle : taken ≤ cs.length := by simpa [hlexeme] using lexemeAt_le c cs
      have happend : lexemeAt c (cs ++ b :: blanks) = (.token kind, taken) := by
        rw [lexemeAt_append hb (by simp [hlexeme]) (by simp [hlexeme]), hlexeme]
      rw [List.cons_append, scanFrom, happend]
      dsimp only
      rw [List.take_append_of_le_length hle, List.drop_append_of_le_length hle]
      obtain heq | ht := List.mem_cons.mp ht
      · exact heq ▸ List.mem_cons_self
      · exact List.mem_cons_of_mem _ (ih (fun i hi => hclean i (List.mem_cons_of_mem _ hi)) ht)
    | case4 p c cs taken text rest fault hlexeme ih =>
      exact absurd (hclean _ List.mem_cons_self) (by simp [Item.fault?])

end Token

variable {text : String}

/-- A token stands on a line of its text. -/
theorem line_of_mem_tokenize {t : Token} (h : t ∈ (tokenize text).1) :
    1 ≤ t.line ∧ t.line ≤ Text.lineCount text := by
  obtain ⟨i, hi, hit⟩ := List.mem_filterMap.mp h
  have hline := Token.line_of_mem_scanFrom hi
  cases i with
  | token t' => exact Option.some.inj hit ▸ hline
  | fault p f => contradiction

/-- What is no token stands on a line of its text. -/
theorem line_of_mem_faults {d : Diagnostic} (h : d ∈ (tokenize text).2) :
    ∃ line, d.line? = some line ∧ 1 ≤ line ∧ line ≤ Text.lineCount text := by
  obtain ⟨⟨p, f⟩, hf, rfl⟩ := List.mem_map.mp h
  obtain ⟨i, hi, hif⟩ := List.mem_filterMap.mp hf
  have hline := Token.line_of_mem_scanFrom hi
  cases i with
  | token t => contradiction
  | fault p' f' =>
    obtain ⟨rfl, rfl⟩ := Prod.mk.inj (Option.some.inj hif)
    exact ⟨p'.line, rfl, hline⟩

end Lox

import Lox.Session

/-!
# The spelling of words

The kind of a word is read off its text, so no identifier is spelled like a keyword. This holds of
every token that a scan yields (`Token.spelled_of_tokenize`).
-/

namespace Lox

/-- The names that frames bind for the methods of a class. -/
def Reserved (name : String) : Prop :=
  name = "this" ∨ name = "super"

namespace Token

/-- A word that names something has the kind of its text. -/
def Spelled (t : Token) : Prop :=
  t.kind = .identifier ∨ t.kind = .kwThis ∨ t.kind = .kwSuper → Kind.ofWord t.lexeme = t.kind

/-- Whether a token is spelled is decidable. -/
instance (t : Token) : Decidable t.Spelled :=
  inferInstanceAs (Decidable (_ → _))

namespace Spelled

variable {t : Token}

/-- An identifier that is spelled is no keyword. -/
theorem ofWord_eq (h : t.Spelled) (hkind : t.kind = .identifier) :
    Kind.ofWord t.lexeme = .identifier :=
  (h (.inl hkind)).trans hkind

/-- An identifier is no reserved name. -/
theorem not_reserved (h : t.Spelled) (hkind : t.kind = .identifier) : ¬Reserved t.lexeme := by
  have hword := h.ofWord_eq hkind
  rintro (heq | heq) <;> rw [heq] at hword <;> contradiction

/-- The only word of the kind `kwThis`. -/
theorem eq_this (h : t.Spelled) (hkind : t.kind = .kwThis) : t.lexeme = "this" := by
  have hword := (h (.inr (.inl hkind))).trans hkind
  unfold Kind.ofWord at hword
  split at hword <;> first | assumption | contradiction

/-- The only word of the kind `kwSuper`. -/
theorem eq_super (h : t.Spelled) (hkind : t.kind = .kwSuper) : t.lexeme = "super" := by
  have hword := (h (.inr (.inr hkind))).trans hkind
  unfold Kind.ofWord at hword
  split at hword <;> first | assumption | contradiction

end Spelled

/-- Whether a kind is one of a sign, a number or a string. -/
def Kind.isNoWord : Kind → Bool
  | .identifier | .kwThis | .kwSuper => false
  | _ => true

/-- A token that is no word is spelled. -/
theorem spelled_of_isNoWord {t : Token} (h : t.kind.isNoWord) : t.Spelled := by
  rintro (hkind | hkind | hkind) <;> rw [hkind] at h <;> contradiction

section Lexemes

variable {c : Char} {cs : List Char} {kind : Kind} {taken : Nat}

/-- What starts with a slash is no word. -/
theorem isNoWord_of_slash (h : slashLexeme cs = (.token kind, taken)) : kind.isNoWord := by
  unfold slashLexeme at h
  split at h
  · simp at h
  · split at h <;> simp at h
  · obtain ⟨rfl, rfl⟩ := by simpa using h
    rfl

/-- A string is no word. -/
theorem isNoWord_of_string (h : stringLexeme c cs = (.token kind, taken)) : kind.isNoWord := by
  unfold stringLexeme at h
  dsimp only at h
  split at h
  · simp at h
  · split at h
    · simp at h
    · obtain ⟨rfl, rfl⟩ := by simpa using h
      rfl

/-- A decimal number is no word. -/
theorem isNoWord_of_decimal (h : decimalLexeme c cs = (.token kind, taken)) : kind.isNoWord := by
  unfold decimalLexeme at h
  dsimp only at h
  split at h
  · obtain ⟨rfl, rfl⟩ := by simpa using h
    rfl
  · split at h
    · simp at h
    · obtain ⟨rfl, rfl⟩ := by simpa using h
      rfl

/-- A number is no word. -/
theorem isNoWord_of_number (h : numberLexeme c cs = (.token kind, taken)) : kind.isNoWord := by
  unfold numberLexeme at h
  split at h
  · exact isNoWord_of_decimal h
  · split at h
    · unfold hexLexeme at h
      dsimp only at h
      split at h
      · simp at h
      · split at h
        · obtain ⟨rfl, rfl⟩ := by simpa using h
          rfl
        · simp at h
    · exact isNoWord_of_decimal h

/-- A sign is no word. -/
theorem isNoWord_of_sign (h : signLexeme c cs = (.token kind, taken)) : kind.isNoWord := by
  have hpair : ∀ next kind, pair? c next = some kind → kind.isNoWord := by
    intro next kind hkind
    unfold pair? at hkind
    split at hkind <;> first | contradiction | (cases hkind; rfl)
  have hsingle : ∀ kind, single? c = some kind → kind.isNoWord := by
    intro kind hkind
    unfold single? at hkind
    split at hkind <;> first | contradiction | (cases hkind; rfl)
  unfold signLexeme at h
  split at h
  · next hkind =>
    obtain ⟨rfl, rfl⟩ := by simpa using h
    exact hpair _ _ hkind
  · split at h
    · next hkind =>
      obtain ⟨rfl, rfl⟩ := by simpa using h
      exact hsingle _ hkind
    · simp at h

/-- Only words are read as words, and then all their letters are taken. -/
theorem spelled_of_lexemeAt (h : lexemeAt c cs = (.token kind, taken)) (p : Position) :
    Spelled ⟨kind, String.ofList (c :: cs.take taken), p⟩ := by
  unfold lexemeAt at h
  split at h
  · simp at h
  split at h
  · exact spelled_of_isNoWord (isNoWord_of_slash h)
  split at h
  · exact spelled_of_isNoWord (isNoWord_of_string h)
  split at h
  · exact spelled_of_isNoWord (isNoWord_of_number h)
  split at h
  · obtain ⟨hkind, rfl⟩ := Prod.mk.inj h
    obtain rfl := Lexeme.token.inj hkind
    have htake : cs.take (cs.takeWhile isWordChar).length = cs.takeWhile isWordChar :=
      (List.prefix_iff_eq_take.mp (List.takeWhile_prefix _)).symm
    exact fun _ => congrArg (Kind.ofWord <| String.ofList <| c :: ·) htake
  · exact spelled_of_isNoWord (isNoWord_of_sign h)

end Lexemes

/-- The words of a text are spelled as their kinds say. -/
theorem spelled_of_scanFrom (p : Position) (cs : List Char) :
    ∀ t, .token t ∈ scanFrom p cs → t.Spelled := by
  fun_induction scanFrom p cs with
  | case1 p =>
    intro t ht
    obtain rfl := Item.token.inj (List.mem_singleton.mp ht)
    exact spelled_of_isNoWord rfl
  | case2 p c cs taken text rest hlexeme ih => exact ih
  | case3 p c cs taken text rest kind hlexeme ih =>
    intro t ht
    obtain heq | ht := List.mem_cons.mp ht
    · obtain rfl := Item.token.inj heq
      exact spelled_of_lexemeAt hlexeme p
    · exact ih t ht
  | case4 p c cs taken text rest fault hlexeme ih =>
    exact fun t ht => ih t ((List.mem_cons.mp ht).resolve_left (by simp))

/-- The tokens of a source are spelled. -/
theorem spelled_of_tokenize (source : String) : ∀ t ∈ (tokenize source).1, t.Spelled := by
  intro t ht
  obtain ⟨item, hitem, htoken⟩ := List.mem_filterMap.mp ht
  cases item with
  | token t' =>
    obtain rfl := Option.some.inj htoken
    exact spelled_of_scanFrom _ _ _ hitem
  | fault p f => contradiction

end Token

end Lox

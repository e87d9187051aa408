import Lox.Value.Order
import Mathlib.Data.Prod.Lex

/-!
# Laws of the order of values

A double has a rank, unless it is not a number, and doubles are ordered as their ranks are
(`Number.compare?_eq`). Ranks are compared like words, so that the laws of an order hold of them.
Two values that are not both strings are ordered as the numbers that they are read as, and so are
two truth values; only `nil`, which is no number, ranks with itself besides. So the order is that of
ranks among values of which at most one is a string, and that of strings if all are. Of two strings
and a number, each string may be ordered in both ways, and there the order is not transitive.
Nothing is assumed about how a string is read as a number.
-/

namespace Lox

/-! ## Ranks -/

/-- The order of two things that may be missing. -/
def compareFound? {α : Type} [Ord α] (a b : Option α) : Option Ordering :=
  a.bind fun x => b.map (compare x)

section Found

variable {α : Type} [Ord α]

/-- Swapping the sides swaps the answer. -/
theorem compareFound?_swap [Std.OrientedOrd α] (a b : Option α) :
    compareFound? a b = (compareFound? b a).map Ordering.swap := by
  cases a with
  | none => cases b <;> rfl
  | some x =>
    cases b with
    | none => rfl
    | some y => exact congrArg some Std.OrientedCmp.eq_swap

/-- There is an answer if both sides are there. -/
theorem compareFound?_eq_some_iff {a b : Option α} {o : Ordering} :
    compareFound? a b = some o ↔ ∃ x ∈ a, ∃ y ∈ b, compare x y = o := by
  simp [compareFound?, Option.bind_eq_some_iff]

end Found

namespace Number

open Float.Model (UnpackedFloat)

/-- A place in the order of doubles, compared from the left: below zero, zero or above zero, or at
one of the ends, and then exponent and significand, which count downwards below zero. -/
abbrev Rank := Int ×ₗ Int ×ₗ Int

/-- The rank of a double from its parts. -/
def rankOf : UnpackedFloat → Option Rank
  | .notANumber => none
  | .infinity .negative => some (toLex (-2, toLex (0, 0)))
  | .finite .negative significand exponent _ =>
    some (toLex (-1, toLex (-exponent, -significand)))
  | .zero _ => some (toLex (0, toLex (0, 0)))
  | .finite .positive significand exponent _ => some (toLex (1, toLex (exponent, significand)))
  | .infinity .positive => some (toLex (2, toLex (0, 0)))

/-- The rank of a double, unless it is not a number. -/
def rank? (x : Float) : Option Rank :=
  rankOf x.toModel.unpack

/-- Pairs are compared by their first and then by their second parts. -/
theorem compare_toLex {α β : Type} [Ord α] [Ord β] (a a' : α) (b b' : β) :
    compare (toLex (a, b)) (toLex (a', b')) = (compare a a').then (compare b b') := by
  rw [Prod.Lex.compare_def]
  rfl

/-- Integers count downwards if their signs are changed. -/
theorem compare_neg (a b : Int) : compare (-a) (-b) = (compare a b).swap := by
  rw [← Std.OrientedCmp.eq_swap, Int.compare_eq_ite_lt, Int.compare_eq_ite_lt]
  simp only [Int.neg_lt_neg_iff]

/-- Naturals compare as the integers that they are. -/
theorem compare_cast (m n : Nat) : compare (m : Int) n = compare m n := by
  rw [Int.compare_eq_ite_lt, Nat.compare_eq_ite_lt]
  simp only [Int.ofNat_lt]

/-- Ranks that agree in their first numbers are ordered as the others are. -/
theorem compareFound?_rank (first a a' b b' : Int) :
    compareFound? (some (toLex (first, toLex (a, b)) : Rank))
      (some (toLex (first, toLex (a', b')))) =
      some ((compare a a').then (compare b b')) := by
  simp only [compareFound?, Option.bind_some, Option.map_some, compare_toLex,
    Std.ReflCmp.compare_self, Ordering.eq_then]

/-- Doubles are compared by their parts as their ranks are. Beyond the first number of the ranks
only finite doubles of one sign are compared. -/
theorem compare_unpacked (x y : UnpackedFloat) :
    x.compare y = compareFound? (rankOf x) (rankOf y) := by
  cases x with
  | notANumber => rfl
  | zero s =>
    cases y with
    | infinity s' | finite s' => cases s' <;> rfl
    | _ => rfl
  | infinity s =>
    cases y with
    | infinity s' | finite s' => cases s <;> cases s' <;> rfl
    | _ => cases s <;> rfl
  | finite s m e =>
    cases y with
    | finite s' m' e' =>
      cases s with
      | negative =>
        cases s' with
        | negative =>
          have hranks := compareFound?_rank (-1) (-e) (-e') (-m) (-m')
          rw [compare_neg, compare_neg, compare_cast, ← Ordering.swap_then] at hranks
          exact hranks.symm
        | positive => rfl
      | positive =>
        cases s' with
        | negative => rfl
        | positive =>
          have hranks := compareFound?_rank 1 e e' m m'
          rw [compare_cast] at hranks
          exact hranks.symm
    | infinity s' => cases s <;> cases s' <;> rfl
    | _ => cases s <;> rfl

/-- Numbers are ordered by their ranks. -/
theorem lt_iff_rank (x y : Float) : x < y ↔ compareFound? (rank? x) (rank? y) = some .lt := by
  rw [rank?, rank?, ← compare_unpacked]
  show decide ((x.toModel.unpack.compare y.toModel.unpack == some .lt) = true) = true ↔ _
  rw [decide_eq_true_iff, beq_iff_eq]

/-- Numbers are equal if their ranks are. -/
theorem beq_iff_rank (x y : Float) :
    (x == y) = true ↔ compareFound? (rank? x) (rank? y) = some .eq := by
  rw [rank?, rank?, ← compare_unpacked]
  show (x.toModel.unpack.compare y.toModel.unpack == some .eq) = true ↔ _
  rw [beq_iff_eq]

/-- Doubles are ordered as their ranks are. -/
theorem compare?_eq (x y : Float) : compare? x y = compareFound? (rank? x) (rank? y) := by
  unfold compare?
  -- Two doubles are asked three questions, and the order of their ranks answers them all.
  simp only [lt_iff_rank, beq_iff_rank]
  rw [compareFound?_swap (rank? y)]
  obtain _ | _ | _ | _ := compareFound? (rank? x) (rank? y) <;> rfl

end Number

/-! ## Values -/

namespace Value

variable {read : String → Option Float} {a b c : Value}

/-- The rank of the number that a value is read as. -/
def rank? (v : Value) (read : String → Option Float) : Option Number.Rank :=
  (v.toNumber? read).bind Number.rank?

/-- Values that are read as numbers are ordered as these are. -/
theorem compareAsNumbers?_eq (a b : Value) :
    a.compareAsNumbers? b read = compareFound? (a.rank? read) (b.rank? read) := by
  unfold compareAsNumbers? rank?
  cases a.toNumber? read with
  | none => rfl
  | some x =>
    cases b.toNumber? read with
    | none => exact (compareFound?_swap ((some x).bind Number.rank?) none).symm
    | some y => exact Number.compare?_eq x y

/-- Truth values are ordered as the numbers that they are read as. -/
theorem compare_boolean : ∀ x y : Bool, some (compare x y) =
    Number.compare? (if x then 1 else 0) (if y then 1 else 0) := by
  decide +kernel

/-- Values that are not both strings, and not both `nil`, are ordered as the numbers that they are
read as. -/
theorem compare?_eq_ranks (hstring : ¬(a.typeName = "string" ∧ b.typeName = "string"))
    (hnil : ¬(a = .nil ∧ b = .nil)) :
    a.compare? b read = compareFound? (a.rank? read) (b.rank? read) := by
  rw [← compareAsNumbers?_eq]
  cases a with
  | nil =>
    cases b with
    | nil => exact absurd ⟨rfl, rfl⟩ hnil
    | _ => rfl
  | boolean x =>
    cases b with
    | boolean y => exact compare_boolean x y
    | _ => rfl
  | number x => cases b <;> rfl
  | string s =>
    cases b with
    | string s' => exact absurd ⟨rfl, rfl⟩ hstring
    | _ => rfl
  | _ => rfl

/-- A value of which the type is named `string` is one. -/
theorem exists_eq_string (h : a.typeName = "string") : ∃ s, a = .string s := by
  cases a with
  | string s => exact ⟨s, rfl⟩
  | _ => simp [typeName] at h

/-- The order is reversed when its operands are swapped. -/
theorem compare?_swap (a b : Value) :
    a.compare? b read = (b.compare? a read).map Ordering.swap := by
  by_cases hstring : a.typeName = "string" ∧ b.typeName = "string"
  · obtain ⟨s, rfl⟩ := exists_eq_string hstring.1
    obtain ⟨s', rfl⟩ := exists_eq_string hstring.2
    exact congrArg some Std.OrientedCmp.eq_swap
  by_cases hnil : a = .nil ∧ b = .nil
  · obtain ⟨rfl, rfl⟩ := hnil
    rfl
  rw [compare?_eq_ranks hstring hnil, compareFound?_swap, compare?_eq_ranks]
  · exact fun h => hstring h.symm
  · exact fun h => hnil h.symm

/-! ## Comparisons -/

/-- Less is an answer of the comparison. -/
theorem less_iff : a.less b read = true ↔ a.compare? b read = some .lt :=
  beq_iff_eq

/-- Less or equal is an answer of the comparison. -/
theorem lessEqual_iff : a.lessEqual b read = true ↔ ∃ o, a.compare? b read = some o ∧ o.isLE := by
  unfold lessEqual
  cases a.compare? b read with
  | none => simp
  | some o => cases o <;> simp

/-- Values that are not both strings are below each other as their ranks are. -/
theorem less_iff_ranks (hstring : ¬(a.typeName = "string" ∧ b.typeName = "string")) :
    a.less b read = true ↔ ∃ x ∈ a.rank? read, ∃ y ∈ b.rank? read, compare x y = .lt := by
  rw [less_iff]
  by_cases hnil : a = .nil ∧ b = .nil
  · obtain ⟨rfl, rfl⟩ := hnil
    simp [compare?, rank?, toNumber?]
  · rw [compare?_eq_ranks hstring hnil, compareFound?_eq_some_iff]

/-- Unless two strings meet, values are compared by their ranks. -/
theorem lessEqual_iff_ranks (hstring : ¬(a.typeName = "string" ∧ b.typeName = "string")) :
    a.lessEqual b read = true ↔ (a = .nil ∧ b = .nil) ∨
      ∃ x ∈ a.rank? read, ∃ y ∈ b.rank? read, (compare x y).isLE := by
  rw [lessEqual_iff]
  by_cases hnil : a = .nil ∧ b = .nil
  · obtain ⟨rfl, rfl⟩ := hnil
    simp [compare?]
  · rw [compare?_eq_ranks hstring hnil]
    simp only [compareFound?_eq_some_iff]
    constructor
    · rintro ⟨_, ⟨x, hx, y, hy, rfl⟩, hle⟩
      exact .inr ⟨x, hx, y, hy, hle⟩
    · rintro (h | ⟨x, hx, y, hy, hle⟩)
      · exact absurd h hnil
      · exact ⟨_, ⟨x, hx, y, hy, rfl⟩, hle⟩

/-! ## Transitivity -/

/-- How many of three values are strings. -/
def stringCount (a b c : Value) : Nat :=
  [a, b, c].countP fun v => v.typeName = "string"

/-- Unless exactly two of three values are strings, all are strings, or no two of them. -/
theorem stringCount_cases (h : stringCount a b c ∈ [0, 1, 3]) :
    (∃ s s' s'', a = .string s ∧ b = .string s' ∧ c = .string s'') ∨
      ¬(a.typeName = "string" ∧ b.typeName = "string") ∧
      ¬(b.typeName = "string" ∧ c.typeName = "string") ∧
      ¬(a.typeName = "string" ∧ c.typeName = "string") := by
  unfold stringCount at h
  -- Eight cases. In three of them exactly two values are strings, against the count.
  by_cases ha : a.typeName = "string" <;> by_cases hb : b.typeName = "string" <;>
    by_cases hc : c.typeName = "string" <;>
    simp only [ha, hb, hc, List.countP_cons, List.countP_nil] at h ⊢
  · obtain ⟨s, rfl⟩ := exists_eq_string ha
    obtain ⟨s', rfl⟩ := exists_eq_string hb
    obtain ⟨s'', rfl⟩ := exists_eq_string hc
    exact .inl ⟨s, s', s'', rfl, rfl, rfl⟩
  all_goals simp at h ⊢

/-- Less is transitive unless exactly two of three values are strings. -/
theorem less_trans (hcount : stringCount a b c ∈ [0, 1, 3]) (hab : a.less b read = true)
    (hbc : b.less c read = true) : a.less c read = true := by
  obtain ⟨s, s', s'', rfl, rfl, rfl⟩ | ⟨h, h', h''⟩ := stringCount_cases hcount
  · have hlt : compare s s' = .lt := Option.some.inj (less_iff.mp hab)
    have hlt' : compare s' s'' = .lt := Option.some.inj (less_iff.mp hbc)
    exact less_iff.mpr (congrArg some (Std.TransCmp.lt_trans hlt hlt'))
  · obtain ⟨x, hx, y, hy, hlt⟩ := (less_iff_ranks h).mp hab
    obtain ⟨y', hy', z, hz, hlt'⟩ := (less_iff_ranks h').mp hbc
    obtain rfl : y = y' := Option.some.inj (hy.symm.trans hy')
    exact (less_iff_ranks h'').mpr ⟨x, hx, z, hz, Std.TransCmp.lt_trans hlt hlt'⟩

/-- Less or equal is transitive unless exactly two of three values are strings. -/
theorem lessEqual_trans (hcount : stringCount a b c ∈ [0, 1, 3]) (hab : a.lessEqual b read = true)
    (hbc : b.lessEqual c read = true) : a.lessEqual c read = true := by
  obtain ⟨s, s', s'', rfl, rfl, rfl⟩ | ⟨h, h', h''⟩ := stringCount_cases hcount
  · obtain ⟨_, ⟨⟩, hle⟩ := lessEqual_iff.mp hab
    obtain ⟨_, ⟨⟩, hle'⟩ := lessEqual_iff.mp hbc
    exact lessEqual_iff.mpr ⟨_, rfl, Std.TransCmp.isLE_trans hle hle'⟩
  · -- A value without a rank is `nil` if it is below another one, and so is that one.
    obtain ⟨rfl, rfl⟩ | ⟨x, hx, y, hy, hle⟩ := (lessEqual_iff_ranks h).mp hab
    · exact hbc
    obtain ⟨rfl, rfl⟩ | ⟨y', hy', z, hz, hle'⟩ := (lessEqual_iff_ranks h').mp hbc
    · exact hab
    obtain rfl : y = y' := Option.some.inj (hy.symm.trans hy')
    exact (lessEqual_iff_ranks h'').mpr (.inr ⟨x, hx, z, hz, Std.TransCmp.isLE_trans hle hle'⟩)

/-! ## The laws -/

/-- Two values are of one type, and it is one that has an order of its own. -/
inductive Comparable : Value → Value → Prop
  | nil : Comparable .nil .nil
  | boolean (x y : Bool) : Comparable (.boolean x) (.boolean y)
  | number (x y : Float) : Comparable (.number x) (.number y)
  | string (s s' : String) : Comparable (.string s) (.string s')

/-- Values of one such type rank with each other exactly if they are equal. -/
theorem Comparable.compare?_eq_iff (h : Comparable a b) :
    a.compare? b read = some .eq ↔ a.equal b = true := by
  cases h with
  | nil => exact iff_of_true rfl rfl
  | boolean x y =>
    rw [compare?, equal, Option.some_inj, Std.LawfulEqCmp.compare_eq_iff_eq, beq_iff_eq]
  | number x y => rw [compare?, Number.compare?_eq, equal, Number.beq_iff_rank]
  | string s s' =>
    rw [compare?, equal, Option.some_inj, Std.LawfulEqCmp.compare_eq_iff_eq, beq_iff_eq]

/-- The laws of the order of values, however strings are read as numbers. Swapping two values
reverses their order. None of the four comparisons holds of two values exactly if they have no
order, and otherwise one is at most the other unless it is greater. Being less and being at most are
transitive on three values of which none, one or all are strings. Values of one type that has an
order of its own rank with each other exactly if they are equal. -/
theorem order_laws (read : String → Option Float) (a b c : Value) :
    a.compare? b read = (b.compare? a read).map Ordering.swap ∧
    a.less b read = b.greater a read ∧ a.lessEqual b read = b.greaterEqual a read ∧
    (a.less b read = false ∧ a.lessEqual b read = false ∧ a.greater b read = false ∧
      a.greaterEqual b read = false ↔ a.compare? b read = none) ∧
    (a.compare? b read ≠ none → a.lessEqual b read = !a.greater b read) ∧
    (stringCount a b c ∈ [0, 1, 3] →
      (a.less b read = true → b.less c read = true → a.less c read = true) ∧
      (a.lessEqual b read = true → b.lessEqual c read = true → a.lessEqual c read = true)) ∧
    (Comparable a b → (a.compare? b read = some .eq ↔ a.equal b = true)) := by
  have hswap : a.compare? b read = (b.compare? a read).map Ordering.swap := compare?_swap a b
  refine ⟨hswap, ?_, ?_, ?_, ?_, fun h => ⟨less_trans h, lessEqual_trans h⟩,
    Comparable.compare?_eq_iff⟩
  -- The four comparisons are read off the order, which is missing or one of three.
  · unfold less greater
    rw [hswap]
    obtain _ | _ | _ | _ := b.compare? a read <;> rfl
  · unfold lessEqual greaterEqual
    rw [hswap]
    obtain _ | _ | _ | _ := b.compare? a read <;> rfl
  · unfold less lessEqual greater greaterEqual
    obtain _ | _ | _ | _ := a.compare? b read <;> decide
  · unfold lessEqual greater
    obtain _ | _ | _ | _ := a.compare? b read <;> decide

-- Of two strings and a number, the strings may be ordered as strings where the number is not.
example : stringCount (.string "10") (.string "9") (.number 9.5) = 2 ∧
    (Value.string "10").less (.string "9") = true ∧ (Value.string "9").less (.number 9.5) = true ∧
    (Value.string "10").less (.number 9.5) = false := by
  decide +kernel

/-- A truth value, a number and a string in this order. -/
theorem boolean_below_string :
    stringCount (.boolean false) (.number 0.5) (.string " 1 ") ∈ [0, 1, 3] ∧
      (Value.boolean false).less (.number 0.5) = true ∧
      (Value.number 0.5).less (.string " 1 ") = true ∧
      (Value.boolean false).less (.string " 1 ") = true ∧
      Comparable (.boolean false) (.boolean true) ∧
      (Value.boolean false).compare? (.boolean true) ≠ some .eq := by
  have hcount : stringCount (.boolean false) (.number 0.5) (.string " 1 ") ∈ [0, 1, 3] := by
    decide +kernel
  have hless : (Value.boolean false).less (.number 0.5) = true := by decide +kernel
  have hless' : (Value.number 0.5).less (.string " 1 ") = true := by decide +kernel
  obtain ⟨-, -, -, -, -, htrans, -⟩ :=
    order_laws Number.ofText? (.boolean false) (.number 0.5) (.string " 1 ")
  obtain ⟨-, -, -, -, -, -, hequal⟩ :=
    order_laws Number.ofText? (.boolean false) (.boolean true) .nil
  refine ⟨hcount, hless, hless', (htrans hcount).1 hless hless', .boolean false true, fun h => ?_⟩
  have hsame := (hequal (.boolean false true)).mp h
  contradiction

end Value

end Lox

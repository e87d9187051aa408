import Lox.Proofs.Heap.Contents
import Mathlib.Data.List.Perm.Subperm
import Mathlib.Logic.Relation

/-!
# Texts of arrays

Arrays may contain each other in any way, and themselves. `Heap.Shown` says how arrays are written
out by rules alone, with no bound on how deep they are opened: a derivation is a recursion that
ends. Which arrays are not opened is a parameter. If these are the arrays that stand around the
place, every value has exactly one text, and it is the one that `Heap.text` computes within its
bound. For that the arrays that are open at once are all different, so that there are not more of
them than the heap has. If no array that a value reaches is reached from itself, nothing is left
unopened, and all arrays are written out in full wherever they stand.
-/

namespace Lox.Heap

/-- Which arrays are not opened, given the arrays around the place where they stand. -/
abbrev Cut := List ArrayId → ArrayId → Prop

/-- An array is not opened within itself. -/
def Cut.repeated : Cut :=
  fun around id => id ∈ around

/-- Every array is opened. -/
def Cut.nothing : Cut :=
  fun _ _ => False

/-- Elements of arrays are shown by texts, within the arrays `around`. -/
inductive Shown (h : Heap) (cut : Cut) : List ArrayId → List Value → List String → Prop
  | nil {around : List ArrayId} : Shown h cut around [] []
  | string {around : List ArrayId} {s : String} {vs : List Value} {ts : List String}
      (hvs : Shown h cut around vs ts) :
      Shown h cut around (.string s :: vs) (("\"" ++ s ++ "\"") :: ts)
  | simple {around : List ArrayId} {v : Value} {vs : List Value} {ts : List String}
      (hstring : ∀ s, v ≠ .string s) (harray : ∀ id, v ≠ .array id)
      (hvs : Shown h cut around vs ts) :
      Shown h cut around (v :: vs) (h.simpleText v :: ts)
  | unopened {around : List ArrayId} {id : ArrayId} {vs : List Value} {ts : List String}
      (hid : cut around id) (hvs : Shown h cut around vs ts) :
      Shown h cut around (.array id :: vs) ("[...]" :: ts)
  | opened {around : List ArrayId} {id : ArrayId} {items : List String} {vs : List Value}
      {ts : List String} (hid : ¬cut around id)
      (hitems : Shown h cut (id :: around) (h.elements id).toList items)
      (hvs : Shown h cut around vs ts) :
      Shown h cut around (.array id :: vs) (("[" ++ String.intercalate ", " items ++ "]") :: ts)

/-- A value is shown by a text. A string is itself, without the quotes that it has in an array. -/
def Shows (h : Heap) (cut : Cut) (v : Value) (t : String) : Prop :=
  match v with
  | .string s => t = s
  | _ => h.Shown cut [] [v] [t]

/-- An array is an element of another one. -/
def Contains (h : Heap) (id id' : ArrayId) : Prop :=
  .array id' ∈ (h.elements id).toList

/-- An array is a value, or lies within it. -/
def ReachesArray (h : Heap) (v : Value) (id : ArrayId) : Prop :=
  ∃ root, v = .array root ∧ Relation.ReflTransGen h.Contains root id

variable {h : Heap} {cut : Cut} {around : List ArrayId}

/-- Elements are shown by one list of texts only. -/
theorem Shown.unique {vs : List Value} {ts ts' : List String} (hts : h.Shown cut around vs ts)
    (hts' : h.Shown cut around vs ts') : ts = ts' := by
  induction hts generalizing ts' with
  | nil =>
    cases hts'
    rfl
  | string _ ih =>
    cases hts' with
    | string hvs => rw [ih hvs]
    | simple hstring => exact absurd rfl (hstring _)
  | simple hstring harray _ ih =>
    cases hts' with
    | string => exact absurd rfl (hstring _)
    | simple _ _ hvs => rw [ih hvs]
    | unopened => exact absurd rfl (harray _)
    | opened => exact absurd rfl (harray _)
  | unopened hid _ ih =>
    cases hts' with
    | simple _ harray => exact absurd rfl (harray _)
    | unopened _ hvs => rw [ih hvs]
    | opened hid' => exact absurd hid hid'
  | opened hid _ _ ihitems ih =>
    cases hts' with
    | simple _ harray => exact absurd rfl (harray _)
    | unopened hid' => exact absurd hid' hid
    | opened _ hitems hvs => rw [ihitems hitems, ih hvs]

/-- A value is shown by one text only. -/
theorem Shows.unique {v : Value} {t t' : String} (ht : h.Shows cut v t) (ht' : h.Shows cut v t') :
    t = t' := by
  cases v with
  | string s => exact Eq.trans ht (Eq.symm ht')
  | _ => exact (List.cons.inj (Shown.unique ht ht')).1

/-! ## The bound is never reached -/

/-- Different arrays of a heap are not more than it has. -/
theorem length_le_of_nodup (hnodup : around.Nodup) (hlt : ∀ id ∈ around, id < h.arrays.size) :
    around.length ≤ h.arrays.size := by
  have hsubset : around ⊆ List.range h.arrays.size := fun id hid => List.mem_range.mpr (hlt id hid)
  simpa using (hnodup.subperm hsubset).length_le

/-- An array that has elements is one of the heap. -/
theorem lt_size_of_mem_elements {id : ArrayId} {v : Value} (hv : v ∈ (h.elements id).toList) :
    id < h.arrays.size := by
  by_contra hid
  simp [elements, Array.getD_eq_getD_getElem?, hid] at hv

/-- The text of an array as an element. -/
theorem elementText_array (h : Heap) (depth : Nat) (around : List ArrayId) (id : ArrayId) :
    elementText (h.textWithin (depth + 1) around) (.array id) =
      if id ∈ around then "[...]"
      else "[" ++ String.intercalate ", "
        ((h.elements id).toList.map (elementText (h.textWithin depth (id :: around)))) ++ "]" := by
  simp only [elementText, textWithin, List.contains_iff_mem]

/-- Within different arrays of the heap, and with a bound that leaves room for all others, elements
are shown by the texts that are computed. -/
theorem shown_textWithin (depth : Nat) (hnodup : around.Nodup)
    (hlt : ∀ id ∈ around, id < h.arrays.size) (hdepth : h.arrays.size < depth + around.length)
    (vs : List Value) :
    h.Shown .repeated around vs (vs.map (elementText (h.textWithin depth around))) := by
  induction depth generalizing around vs with
  | zero =>
    -- With no depth left there would be more arrays open than the heap has.
    have hle := length_le_of_nodup hnodup hlt
    omega
  | succ depth ih =>
    induction vs with
    | nil => exact .nil
    | cons v vs ihvs =>
      rw [List.map_cons]
      cases v with
      | string s => exact .string ihvs
      | array id =>
        rw [elementText_array]
        by_cases hid : id ∈ around
        · rw [if_pos hid]
          exact .unopened hid ihvs
        · rw [if_neg hid]
          refine .opened hid ?_ ihvs
          -- An array without elements needs no room, and one with elements is in the heap.
          by_cases hempty : (h.elements id).toList = []
          · rw [hempty]
            exact .nil
          · obtain ⟨v, hv⟩ := List.exists_mem_of_ne_nil _ hempty
            refine ih (List.nodup_cons.mpr ⟨hid, hnodup⟩) ?_ ?_ _
            · exact List.forall_mem_cons.mpr ⟨lt_size_of_mem_elements hv, hlt⟩
            · rw [List.length_cons]
              omega
      | _ => exact .simple (by simp) (by simp) ihvs

/-- Every value is shown by its text. -/
theorem shows_text (h : Heap) (v : Value) : h.Shows .repeated v (h.text v) := by
  have hshown : h.Shown .repeated [] [v] [elementText (h.textWithin (h.arrays.size + 1) []) v] :=
    shown_textWithin (h.arrays.size + 1) .nil (by simp) (by simp) [v]
  rw [text_eq]
  cases v with
  | string s => rfl
  | _ => exact hshown

/-! ## Arrays without cycles -/

/-- Where no array is reached from itself, none is left unopened. The arrays around a place reach
the arrays that stand there. -/
theorem Shown.in_full {vs : List Value} {ts : List String} (hts : h.Shown .repeated around vs ts)
    (haround : ∀ id, .array id ∈ vs → ∀ outer ∈ around, Relation.TransGen h.Contains outer id)
    (hacyclic : ∀ v ∈ vs, ∀ id, h.ReachesArray v id → ¬Relation.TransGen h.Contains id id) :
    h.Shown .nothing around vs ts := by
  induction hts with
  | nil => exact .nil
  | string _ ih =>
    exact .string (ih (fun id hid => haround id (List.mem_cons_of_mem _ hid))
      fun v hv => hacyclic v (List.mem_cons_of_mem _ hv))
  | simple hstring harray _ ih =>
    exact .simple hstring harray (ih (fun id hid => haround id (List.mem_cons_of_mem _ hid))
      fun v hv => hacyclic v (List.mem_cons_of_mem _ hv))
  | @unopened around id vs ts hid _ ih =>
    -- It stands within itself, and so it reaches itself.
    have hcycle := haround id List.mem_cons_self id hid
    exact absurd hcycle (hacyclic _ List.mem_cons_self id ⟨id, rfl, .refl⟩)
  | @opened around id items vs ts hid _ _ ihitems ih =>
    refine .opened not_false
      (ihitems (fun inner hinner outer houter => ?_) fun v hv inner hinner => ?_)
      (ih (fun id hid => haround id (List.mem_cons_of_mem _ hid))
        fun v hv => hacyclic v (List.mem_cons_of_mem _ hv))
    · obtain rfl | houter := List.mem_cons.mp houter
      · exact .single hinner
      · exact (haround id List.mem_cons_self outer houter).tail hinner
    · obtain ⟨root, rfl, hpath⟩ := hinner
      exact hacyclic _ List.mem_cons_self inner ⟨id, rfl, .head hv hpath⟩

/-- Every value has exactly one text in which arrays are written out, but for an array that stands
within itself, and `Heap.text` computes it. If no array that a value reaches is reached from itself,
that is the text in which all arrays are written out. -/
theorem text_writes_out_arrays (h : Heap) (v : Value) :
    (∀ t, h.Shows .repeated v t ↔ t = h.text v) ∧
      ((∀ id, h.ReachesArray v id → ¬Relation.TransGen h.Contains id id) →
        ∀ t, h.Shows .nothing v t ↔ t = h.text v) := by
  have hshows := h.shows_text v
  refine ⟨fun t => ⟨fun ht => ht.unique hshows, fun ht => ht ▸ hshows⟩, fun hacyclic t => ?_⟩
  have hfull : h.Shows .nothing v (h.text v) := by
    cases v with
    | string s => exact hshows
    | _ => exact Shown.in_full hshows (by simp) (by simpa using hacyclic)
  exact ⟨fun ht => ht.unique hfull, fun ht => ht ▸ hfull⟩

example :
    ({ arrays := #[#[.array 1, .nil], #[.array 0]] } : Heap).text (.array 0) =
      "[[[...]], nil]" := by
  decide +kernel

/-- An array that is twice an element of another one. -/
def sharing : Heap :=
  { arrays := #[#[.array 1, .array 1], #[.string "a"]] }

/-- In that heap an array only contains later ones. -/
theorem lt_of_contains_sharing {id id' : ArrayId} (hid : sharing.Contains id id') : id < id' := by
  match id with
  | 0 =>
    have hid' : id' = 1 := by simpa [Contains, elements, sharing] using hid
    rw [hid']
    exact Nat.zero_lt_one
  | 1 => simp [Contains, elements, sharing] at hid
  | id + 2 => simp [Contains, elements, sharing] at hid

/-- The shared array is written out twice. -/
theorem text_of_sharing :
    (∀ id, sharing.ReachesArray (.array 0) id → ¬Relation.TransGen sharing.Contains id id) ∧
      sharing.text (.array 0) = "[[\"a\"], [\"a\"]]" ∧
      sharing.Shows .nothing (.array 0) "[[\"a\"], [\"a\"]]" := by
  have hacyclic : ∀ id, ¬Relation.TransGen sharing.Contains id id := by
    intro id hcycle
    have hlt {id' : ArrayId} (hid' : Relation.TransGen sharing.Contains id id') : id < id' := by
      induction hid' with
      | single hid => exact lt_of_contains_sharing hid
      | tail _ hid ih => exact Nat.lt_trans ih (lt_of_contains_sharing hid)
    exact Nat.lt_irrefl id (hlt hcycle)
  have htext : sharing.text (.array 0) = "[[\"a\"], [\"a\"]]" := by decide +kernel
  exact ⟨fun id _ => hacyclic id, htext,
    ((text_writes_out_arrays sharing (.array 0)).2 (fun id _ => hacyclic id) _).mpr htext.symm⟩

end Lox.Heap

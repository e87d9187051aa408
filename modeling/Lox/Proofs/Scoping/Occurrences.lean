import Lox.Proofs.Scoping.Recording
import Mathlib.Data.List.Pairwise

/-!
# Occurrences

A piece may occur twice in a program, as two equal numbers do. A piece with a reference in it
cannot, if the references have different numbers: there is one visit of it within a visit of the
program (`Visit.eq_of_within`).
-/

namespace Lox.Scoping.Visit

variable {v v' root : Visit}

/-- Which pieces a visit comes to depends on its own piece only. -/
theorem map_piece_parts (h : v'.piece = v.piece) :
    v'.parts.map Visit.piece = v.parts.map Visit.piece := by
  unfold parts
  rw [h]
  cases v.piece with
  | expr e => cases e <;> rfl
  | exprs es => cases es <;> rfl
  | entries es => obtain _ | ⟨⟨key, e⟩, es⟩ := es <;> rfl
  | function f => rfl
  | methods fs => cases fs <;> rfl
  | declarators ds => obtain _ | ⟨⟨name, _ | e⟩, ds⟩ := ds <;> rfl
  | superclasses name xs => cases xs <;> rfl
  | superclass x => rfl
  | «class» c => simp
  | stmt s =>
    cases s with
    | branch c t e => cases e <;> rfl
    | result keyword e => cases e <;> rfl
    | _ => rfl
  | stmts ss => cases ss <;> rfl

/-- The reference that a visit resolves depends on its piece only. -/
theorem own?_congr (h : v'.piece = v.piece) : v'.own? = v.own? := by
  unfold own?
  rw [h]

/-- The numbers in a piece do not depend on when it is visited. -/
theorem ids_congr (h : v'.piece = v.piece) : v'.ids = v.ids := by
  induction v using induction generalizing v' with
  | step v ih =>
  rw [ids_eq, ids_eq v, own?_congr h]
  congr 1
  have hparts := map_piece_parts h
  generalize v.parts = ps at ih hparts
  generalize v'.parts = ps' at hparts
  induction ps generalizing ps' with
  | nil => rw [List.map_eq_nil_iff.mp hparts]
  | cons p ps ihps =>
    obtain ⟨p', ps', rfl, hp, hps⟩ := List.map_eq_cons_iff.mp hparts
    rw [List.forall_mem_cons] at ih
    rw [List.flatMap_cons, List.flatMap_cons, ih.1 hp, ihps ih.2 ps' hps]

/-- What is within a piece is the piece itself or a smaller one. -/
theorem sizeOf_within (h : Within v' v) : v' = v ∨ sizeOf v'.piece < sizeOf v.piece := by
  induction h with
  | refl => exact .inl rfl
  | tail _ hp ih =>
    have hlt := sizeOf_parts _ _ hp
    obtain rfl | ih := ih
    · exact .inr hlt
    · exact .inr (Nat.lt_trans hlt ih)

/-- A piece with a reference in it is visited once, if no reference occurs twice. -/
theorem eq_of_within (hnodup : root.ids.Nodup) (hv : Within v root) (hv' : Within v' root)
    (hpiece : v'.piece = v.piece) (hids : v.ids ≠ []) : v' = v := by
  induction root using induction with
  | step root ih =>
  obtain rfl | ⟨p, hp, hvp⟩ := hv.cases_head
  -- What lies within a piece is smaller, so it is not that piece once more.
  · obtain heq | hlt := sizeOf_within hv'
    · exact heq
    · rw [hpiece] at hlt
      omega
  · obtain rfl | ⟨p', hp', hvp'⟩ := hv'.cases_head
    · obtain heq | hlt := sizeOf_within hv
      · exact heq.symm
      · rw [hpiece] at hlt
        omega
    · rw [ids_eq, List.nodup_append'] at hnodup
      obtain ⟨hparts, hdisjoint⟩ := List.nodup_flatMap.mp hnodup.2.1
      by_cases hsame : p = p'
      · subst hsame
        exact ih p hp (hparts p hp) hvp hvp'
      · -- The number of a reference in the piece would occur in two parts.
        obtain ⟨id, hid⟩ := List.exists_mem_of_ne_nil _ hids
        have : Std.Symm (Function.onFun List.Disjoint ids) := ⟨fun _ _ h _ ha ha' => h ha' ha⟩
        have hboth := hdisjoint.forall hp hp' hsame (ids_within hvp hid)
        exact absurd (ids_within hvp' (ids_congr hpiece ▸ hid)) hboth

end Lox.Scoping.Visit

import Lox.Proofs.Scoping.Visits
import Mathlib.Data.List.Infix
import Mathlib.Data.List.Nodup

/-!
# What a walk records

A walk notes the distance of a reference when it comes to it. `Threads` says how the parts of a
visit follow each other, and `Visit.after_threads` that a visit does nothing else but to resolve its
own reference at the end. From this alone it follows that violations and distances are only added,
and that a walk which ends without violations has recorded every reference as it was found
(`Visit.recorded_after`), if no reference occurs twice.
-/

namespace Lox.Scoping

namespace Distances

/-- The distances `d'` are `d` with distances noted for some of the given references only. -/
def Notes (ids : List Nat) (d d' : Distances) : Prop :=
  ∃ noted, d'.entries = noted ++ d.entries ∧ ∀ entry ∈ noted, entry.1 ∈ ids

namespace Notes

variable {ids ids' : List Nat} {d d' d'' : Distances}

/-- Nothing need be noted. -/
theorem refl (ids : List Nat) (d : Distances) : Notes ids d d :=
  ⟨[], rfl, by simp⟩

/-- Notes are taken one after the other. -/
theorem trans (h : Notes ids d d') (h' : Notes ids d' d'') : Notes ids d d'' := by
  obtain ⟨noted, hd, hnoted⟩ := h
  obtain ⟨noted', hd', hnoted'⟩ := h'
  refine ⟨noted' ++ noted, by rw [hd', hd, List.append_assoc], fun entry hentry => ?_⟩
  exact (List.mem_append.mp hentry).elim (hnoted' entry) (hnoted entry)

/-- Notes for some references are notes for more. -/
theorem mono (h : Notes ids d d') (hids : ids ⊆ ids') : Notes ids' d d' := by
  obtain ⟨noted, hd, hnoted⟩ := h
  exact ⟨noted, hd, fun entry hentry => hids (hnoted entry hentry)⟩

/-- One distance is noted. -/
theorem note (d : Distances) {id : Nat} (hid : id ∈ ids) (distance : Nat) :
    Notes ids d (d.note id distance) :=
  ⟨[(id, distance)], rfl, by simpa using hid⟩

/-- The distances of other references are as before. -/
theorem find?_eq (h : Notes ids d d') {id : Nat} (hid : id ∉ ids) : d'.find? id = d.find? id := by
  obtain ⟨noted, hd, hnoted⟩ := h
  unfold find?
  rw [hd, List.lookup_append]
  have hnone : noted.lookup id = none := by
    refine List.lookup_eq_none_iff.mpr fun entry hentry => ?_
    have hne : id ≠ entry.1 := fun heq => hid (heq ▸ hnoted entry hentry)
    simpa using hne
  rw [hnone, Option.none_or]

end Notes

/-- The distances that are kept are those of references with smaller numbers. -/
theorem find?_forgetFrom (d : Distances) (n id : Nat) :
    (d.forgetFrom n).find? id = if id < n then d.find? id else none := by
  unfold find? forgetFrom
  induction d.entries with
  | nil => simp
  | cons entry entries ih =>
    obtain ⟨id', distance⟩ := entry
    by_cases hid : id = id'
    · subst hid
      by_cases hlt : id < n
      · simp [hlt]
      · rw [List.filter_cons_of_neg (by simpa using hlt), ih]
        simp [hlt]
    · by_cases hlt : id' < n <;> simp_all [List.lookup_cons, beq_false_of_ne hid]

/-- The table holds distances of references below a number only. -/
def Below (d : Distances) (n : Nat) : Prop :=
  ∀ entry ∈ d.entries, entry.1 < n

/-- A bound may be raised. -/
theorem Below.mono {d : Distances} {n n' : Nat} (h : d.Below n) (hn : n ≤ n') : d.Below n' :=
  fun entry hentry => Nat.lt_of_lt_of_le (h entry hentry) hn

/-- Nothing is noted from the bound on. -/
theorem Below.find?_eq_none {d : Distances} {n id : Nat} (h : d.Below n) (hid : n ≤ id) :
    d.find? id = none := by
  refine List.lookup_eq_none_iff.mpr fun entry hentry => ?_
  have hlt := h entry hentry
  simpa using (by omega : id ≠ entry.1)

/-- Notes for references below a bound keep it. -/
theorem Below.notes {d d' : Distances} {ids : List Nat} {n n' : Nat} (h : d.Below n)
    (hn : n ≤ n') (hids : ∀ id ∈ ids, id < n') (hnotes : Notes ids d d') : d'.Below n' := by
  obtain ⟨noted, hd, hnoted⟩ := hnotes
  intro entry hentry
  rw [hd] at hentry
  obtain hentry | hentry := List.mem_append.mp hentry
  · exact hids _ (hnoted entry hentry)
  · exact Nat.lt_of_lt_of_le (h entry hentry) hn

/-- Forgetting what was noted for new references gives back the table before. -/
theorem Below.forgetFrom_notes {d d' : Distances} {ids : List Nat} {n : Nat} (h : d.Below n)
    (hids : ∀ id ∈ ids, n ≤ id) (hnotes : Notes ids d d') : d'.forgetFrom n = d := by
  obtain ⟨noted, hd, hnoted⟩ := hnotes
  unfold forgetFrom
  rw [hd, List.filter_append]
  have hnew : noted.filter (fun entry => decide (entry.1 < n)) = [] := by
    refine List.filter_eq_nil_iff.mpr fun entry hentry => ?_
    have hle := hids _ (hnoted entry hentry)
    simpa using hle
  have hold : d.entries.filter (fun entry => decide (entry.1 < n)) = d.entries := by
    refine List.filter_eq_self.mpr fun entry hentry => ?_
    simpa using h entry hentry
  rw [hnew, hold, List.nil_append]

end Distances

/-- Between two points of a walk no distance is noted, and violations are only added. -/
structure Walk.Leads (w w' : Walk) : Prop where
  /-- The distances are the same. -/
  distances : w'.distances = w.distances
  /-- Violations are only added. -/
  violations : w.violations <+: w'.violations

namespace Walk.Leads

variable {w w' w'' : Walk}

/-- A walk leads to itself. -/
theorem refl (w : Walk) : Leads w w :=
  ⟨rfl, List.prefix_rfl⟩

/-- Leading on is transitive. -/
theorem trans (h : Leads w w') (h' : Leads w' w'') : Leads w w'' :=
  ⟨h'.distances.trans h.distances, h.violations.trans h'.violations⟩

/-- A violation leads on. -/
theorem violate (w : Walk) (t : Token) (rule : Rule) : Leads w (w.violate t rule) :=
  ⟨rfl, List.prefix_append _ _⟩

/-- Entering a scope leads on. -/
theorem enter (w : Walk) (scope : Scope) : Leads w (w.enter scope) :=
  ⟨rfl, List.prefix_rfl⟩

/-- Leaving a scope leads on. -/
theorem leave (w : Walk) : Leads w w.leave :=
  ⟨rfl, List.prefix_rfl⟩

/-- Declaring a name leads on. -/
theorem declare (w : Walk) (name : Token) : Leads w (w.declare name) := by
  unfold Walk.declare
  split
  · exact refl w
  · split
    · exact violate w name .redeclared
    · exact ⟨rfl, List.prefix_rfl⟩

/-- Defining a name leads on. -/
theorem define (w : Walk) (name : Token) : Leads w (w.define name) := by
  unfold Walk.define
  split
  · exact refl w
  · exact ⟨rfl, List.prefix_rfl⟩

/-- Declaring parameters leads on. -/
theorem parameters (w : Walk) (params : List Token) : Leads w (w.parameters params) := by
  induction params generalizing w with
  | nil => exact refl w
  | cons name params ih => exact ((declare w name).trans (define _ name)).trans (ih _)

/-- Declaring and defining a name leads on. -/
theorem named (v : Visit) (name : Token) : Leads v.walk (v.named name) :=
  (declare v.walk name).trans (define _ name)

/-- Checking a superclass against its class leads on. -/
theorem notOwn (v : Visit) (name : Token) (x : Reference) : Leads v.walk (v.notOwn name x) := by
  unfold Visit.notOwn
  split
  · exact violate v.walk x.name .ownSuperclass
  · exact refl v.walk

/-- A walk that ends without violations has none before. -/
theorem clean (h : Leads w w') (hw' : w'.violations = []) : w.violations = [] :=
  List.prefix_nil.mp (hw' ▸ h.violations)

end Walk.Leads

/-- A variable that is read is resolved, after a violation perhaps. -/
theorem Walk.read_resolves (w : Walk) (x : Reference) :
    ∃ w', w.Leads w' ∧ w'.scopes = w.scopes ∧ w.read x = w'.resolve x := by
  refine ⟨_, ?_, ?_, rfl⟩
  · split
    · exact .violate ..
    · exact .refl w
  · split <;> rfl

/-- Between two points of a walk the given visits are made one after the other, and nothing else is
resolved. -/
def Threads : Walk → List Visit → Walk → Prop
  | w, [], w' => w.Leads w'
  | w, p :: ps, w' => w.Leads p.walk ∧ Threads p.after ps w'

namespace Visit

open Walk

/-- What a visit does is what its parts do, and after them it resolves its own reference. It does
not resolve it only if that is a violation. -/
theorem after_threads (v : Visit) :
    match v.own? with
    | none => Threads v.walk v.parts v.after
    | some x => ∃ w, Threads v.walk v.parts w ∧ w.scopes = v.walk.scopes ∧
        (v.after = w.resolve x ∨ w.Leads v.after ∧ v.after.violations ≠ []) := by
  obtain ⟨ctx, piece, w, around⟩ := v
  have hviolate : ∀ (t : Token) (rule : Rule), (w.violate t rule).violations ≠ [] := by
    simp [violate]
  cases piece with
  | expr e =>
    cases e with
    | reference x =>
      obtain ⟨w', hw', hscopes, heq⟩ := w.read_resolves x
      exact ⟨w', hw', hscopes, .inl heq⟩
    | assign x e => exact ⟨_, ⟨.refl w, .refl _⟩, walkExpr_scopes ctx w e, .inl rfl⟩
    | this x =>
      refine ⟨w, .refl w, rfl, ?_⟩
      simp only [after, walkExpr]
      split
      · exact .inr ⟨.violate .., hviolate _ _⟩
      · exact .inl rfl
    | super x method =>
      refine ⟨w, .refl w, rfl, ?_⟩
      simp only [after, walkExpr]
      split
      · exact .inr ⟨.violate .., hviolate _ _⟩
      · exact .inr ⟨.violate .., hviolate _ _⟩
      · exact .inl rfl
    | literal value => exact .refl w
    | binary l op r => exact ⟨.refl w, .refl _, .refl _⟩
    | logical l op r => exact ⟨.refl w, .refl _, .refl _⟩
    | call f paren es => exact ⟨.refl w, .refl _, .refl _⟩
    | set o name e => exact ⟨.refl w, .refl _, .refl _⟩
    | index o bracket k => exact ⟨.refl w, .refl _, .refl _⟩
    | setIndex o bracket k e => exact ⟨.refl w, .refl _, .refl _, .refl _⟩
    | _ => exact ⟨.refl w, .refl _⟩
  | exprs es =>
    cases es with
    | nil => exact .refl w
    | cons e es => exact ⟨.refl w, .refl _, .refl _⟩
  | entries es =>
    obtain _ | ⟨⟨key, e⟩, es⟩ := es
    · exact .refl w
    · exact ⟨.refl w, .refl _, .refl _⟩
  | function f =>
    obtain ⟨name, keyword, params, body⟩ := f
    exact ⟨(Leads.enter w []).trans (.parameters _ params), .leave _⟩
  | methods fs =>
    cases fs with
    | nil => exact .refl w
    | cons f fs => exact ⟨.refl w, .refl _, .refl _⟩
  | declarators ds =>
    obtain _ | ⟨⟨name, _ | e⟩, ds⟩ := ds
    · exact .refl w
    · exact ⟨.named ⟨ctx, .declarators [], w, around⟩ name, .refl _⟩
    · exact ⟨.declare w name, .define _ name, .refl _⟩
  | superclasses name xs =>
    cases xs with
    | nil => exact .refl w
    | cons x xs => exact ⟨.notOwn ⟨ctx, .superclass x, w, around⟩ name x, .refl _, .refl _⟩
  | superclass x =>
    obtain ⟨w', hw', hscopes, heq⟩ := w.read_resolves x
    exact ⟨w', hw', hscopes, .inl heq⟩
  | «class» c =>
    refine ⟨.named ⟨ctx, .class c, w, around⟩ c.name, ?_, ?_⟩
    · unfold toMethods
      split
      · exact .enter _ _
      · exact (Leads.enter _ _).trans (.enter _ _)
    · rw [show (Visit.mk ctx (.class c) w around).after = _ from
        after_class ⟨ctx, .class c, w, around⟩ c]
      split
      · exact .leave _
      · exact (Leads.leave _).trans (.leave _)
  | stmt s =>
    cases s with
    | block ss => exact ⟨.enter w [], .leave _⟩
    | branch c t e =>
      cases e with
      | none => exact ⟨.refl w, .refl _, .refl _⟩
      | some e => exact ⟨.refl w, .refl _, .refl _, .refl _⟩
    | loop c s => exact ⟨.refl w, .refl _, .refl _⟩
    | function f =>
      refine ⟨?_, .refl _⟩
      simp only [toFunction_walk]
      split
      · exact .named ⟨ctx, .stmt (.function f), w, around⟩ _
      · exact .refl w
    | result keyword e =>
      cases e with
      | none =>
        simp only [own?, parts, stmtParts, Threads, after, walkStmt]
        split
        · exact .violate ..
        · exact .refl w
      | some e =>
        refine ⟨?_, .refl _⟩
        simp only [onto_walk]
        split
        · exact .violate ..
        · exact .violate ..
        · exact .refl w
    | _ => exact ⟨.refl w, .refl _⟩
  | stmts ss =>
    cases ss with
    | nil => exact .refl w
    | cons s ss => exact ⟨.refl w, .refl _, .refl _⟩

end Visit

/-- The distance that scoping finds for a reference at a point of a walk. -/
def Walk.distance? (w : Walk) (x : Reference) : Option Nat :=
  w.scopes.findIdx? fun scope => (scope.lookup x.name.lexeme).isSome

/-- Resolving a reference notes the distance that is found for it, if one is. -/
theorem Walk.resolve_distances (w : Walk) (x : Reference) :
    (w.resolve x).distances = (w.distance? x).elim w.distances (w.distances.note x.id) := by
  unfold resolve distance?
  split <;> simp [*]

/-- Resolving a reference notes a distance for it only. -/
theorem Walk.notes_resolve (w : Walk) (x : Reference) :
    w.distances.Notes [x.id] (w.resolve x).distances := by
  rw [resolve_distances]
  cases w.distance? x with
  | none => exact .refl _ _
  | some distance => exact .note _ (List.mem_singleton_self _) distance

/-- Resolving a reference without a distance gives it the distance that is found for it. -/
theorem Walk.find?_resolve (w : Walk) (x : Reference) (hx : w.distances.find? x.id = none) :
    (w.resolve x).distances.find? x.id = w.distance? x := by
  rw [resolve_distances]
  cases w.distance? x with
  | none => exact hx
  | some distance => simp [Distances.find?_note]

namespace Threads

variable {w w' : Walk} {ps : List Visit} {p : Visit}

/-- Violations are only added along visits that only add violations. -/
theorem violations (h : Threads w ps w')
    (hps : ∀ p ∈ ps, p.walk.violations <+: p.after.violations) :
    w.violations <+: w'.violations := by
  induction ps generalizing w with
  | nil => exact h.violations
  | cons p ps ih =>
    rw [List.forall_mem_cons] at hps
    exact (h.1.violations.trans hps.1).trans (ih h.2 hps.2)

/-- If a walk ends without violations, so does each visit on its way. -/
theorem clean (h : Threads w ps w') (hps : ∀ p ∈ ps, p.walk.violations <+: p.after.violations)
    (hw' : w'.violations = []) : ∀ p ∈ ps, p.after.violations = [] := by
  induction ps generalizing w with
  | nil => simp
  | cons p ps ih =>
    rw [List.forall_mem_cons] at hps ⊢
    exact ⟨List.prefix_nil.mp (hw' ▸ h.2.violations hps.2), ih h.2 hps.2⟩

/-- Visits that note distances for their own references only do so together. -/
theorem notes (h : Threads w ps w')
    (hps : ∀ p ∈ ps, p.walk.distances.Notes p.ids p.after.distances) :
    w.distances.Notes (ps.flatMap Visit.ids) w'.distances := by
  induction ps generalizing w with
  | nil => exact h.distances ▸ .refl _ _
  | cons p ps ih =>
    rw [List.forall_mem_cons] at hps
    have hp : w.distances.Notes p.ids p.after.distances := h.1.distances ▸ hps.1
    rw [List.flatMap_cons]
    exact (hp.mono (List.subset_append_left _ _)).trans
      ((ih h.2 hps.2).mono (List.subset_append_right _ _))

/-- A distance that one of the visits finds is still there at the end, if no reference occurs
twice. -/
theorem find?_eq (h : Threads w ps w')
    (hps : ∀ p ∈ ps, p.walk.distances.Notes p.ids p.after.distances)
    (hnodup : (ps.flatMap Visit.ids).Nodup) (hp : p ∈ ps) {id : Nat} (hid : id ∈ p.ids) :
    w'.distances.find? id = p.after.distances.find? id := by
  induction ps generalizing w with
  | nil => contradiction
  | cons q ps ih =>
    rw [List.forall_mem_cons] at hps
    rw [List.flatMap_cons, List.nodup_append'] at hnodup
    -- The visits that follow note distances for other references only.
    obtain rfl | hp := List.mem_cons.mp hp
    · exact (h.2.notes hps.2).find?_eq (hnodup.2.2 hid)
    · exact ih h.2 hps.2 hnodup.2.1 hp

/-- A reference that does not occur before one of the visits has no distance at its start. -/
theorem fresh (h : Threads w ps w')
    (hps : ∀ p ∈ ps, p.walk.distances.Notes p.ids p.after.distances)
    (hnodup : (ps.flatMap Visit.ids).Nodup)
    (hfresh : ∀ id ∈ ps.flatMap Visit.ids, w.distances.find? id = none) (hp : p ∈ ps) :
    ∀ id ∈ p.ids, p.walk.distances.find? id = none := by
  induction ps generalizing w with
  | nil => contradiction
  | cons q ps ih =>
    rw [List.forall_mem_cons] at hps
    rw [List.flatMap_cons, List.nodup_append'] at hnodup
    rw [List.flatMap_cons, List.forall_mem_append] at hfresh
    obtain rfl | hp := List.mem_cons.mp hp
    · exact h.1.distances ▸ hfresh.1
    -- The visits before have noted distances for other references only.
    · refine ih h.2 hps.2 hnodup.2.1 (fun id hid => ?_) hp
      rw [hps.1.find?_eq (fun hq => hnodup.2.2 hq hid), h.1.distances]
      exact hfresh.2 id hid

end Threads

namespace Visit

variable {v v' : Visit}

/-- A visit only adds violations. -/
theorem violations_after (v : Visit) : v.walk.violations <+: v.after.violations := by
  induction v using induction with
  | step v ih =>
  have h := v.after_threads
  split at h
  · exact h.violations ih
  · obtain ⟨w, hw, _, heq | ⟨hleads, _⟩⟩ := h
    -- To resolve a reference is no violation.
    · refine (hw.violations ih).trans ?_
      rw [heq, Walk.resolve]
      split <;> exact List.prefix_rfl
    · exact (hw.violations ih).trans hleads.violations

/-- A visit that ends without violations has only parts that do. -/
theorem clean_parts (hv : v.after.violations = []) : ∀ p ∈ v.parts, p.after.violations = [] := by
  have h := v.after_threads
  split at h
  · exact h.clean (fun p _ => p.violations_after) hv
  · obtain ⟨w, hw, _, heq | ⟨_, hne⟩⟩ := h
    · refine hw.clean (fun p _ => p.violations_after) ?_
      rw [heq, Walk.resolve] at hv
      split at hv <;> exact hv
    · contradiction

/-- A visit notes distances for the references in its piece only. -/
theorem notes_after (v : Visit) : v.walk.distances.Notes v.ids v.after.distances := by
  induction v using induction with
  | step v ih =>
  have h := v.after_threads
  rw [ids_eq]
  split at h
  · next hown =>
    rw [hown]
    exact h.notes ih
  · next x hown =>
    obtain ⟨w, hw, _, heq | ⟨hleads, _⟩⟩ := h
    · rw [hown, heq]
      exact ((hw.notes ih).mono (List.subset_append_right _ _)).trans
        ((w.notes_resolve x).mono (List.subset_append_left _ _))
    · rw [hleads.distances]
      exact (hw.notes ih).mono (List.subset_append_right _ _)

/-- The numbers in a part are numbers in the piece. -/
theorem ids_part {p : Visit} (hp : p ∈ v.parts) : p.ids ⊆ v.ids := by
  intro id hid
  rw [ids_eq]
  exact List.mem_append_right _ (List.mem_flatMap.mpr ⟨p, hp, hid⟩)

/-- The numbers within a visit are numbers in its piece. -/
theorem ids_within (h : Within v' v) : v'.ids ⊆ v.ids := by
  induction h with
  | refl => exact List.Subset.refl _
  | tail _ hp ih => exact List.Subset.trans (ids_part hp) ih

/-- The reference that a visit resolves is one in its piece. -/
theorem own_mem_ids {x : Reference} (h : v.own? = some x) : x.id ∈ v.ids := by
  rw [ids_eq, h]
  simp

/-- The table `d` holds what scoping finds for the reference that a visit resolves. -/
def Recorded (d : Distances) (v : Visit) : Prop :=
  ∀ x, v.own? = some x → d.find? x.id = v.walk.distance? x

/-- A table that agrees on the reference that a visit resolves holds the same for it. -/
theorem Recorded.congr {d d' : Distances} (h : Recorded d v)
    (hd : ∀ id ∈ v.ids, d'.find? id = d.find? id) : Recorded d' v :=
  fun x hx => (hd x.id (own_mem_ids hx)).trans (h x hx)

end Visit

/-- Visits that record their references do so together, if no reference occurs twice. -/
theorem Threads.recorded {w w' : Walk} {ps : List Visit} (h : Threads w ps w')
    (hnodup : (ps.flatMap Visit.ids).Nodup)
    (hps : ∀ p ∈ ps, Visit.All (Visit.Recorded p.after.distances) p) :
    ∀ p ∈ ps, Visit.All (Visit.Recorded w'.distances) p := by
  intro p hp v' hv'
  refine (hps p hp v' hv').congr fun id hid => ?_
  exact h.find?_eq (fun p _ => p.notes_after) hnodup hp (Visit.ids_within hv' hid)

namespace Visit

variable {v : Visit}

/-- The words `this` and `super` stand only where a class gives them a meaning. -/
def AtHome (v : Visit) : Prop :=
  match v.piece with
  | .expr (.this _) => v.ctx.home ≠ .none
  | .expr (.super _ _) => v.ctx.home = .derived
  | _ => True

/-- A visit without violations is at home. -/
theorem atHome_of_clean (hclean : v.after.violations = []) : v.AtHome := by
  obtain ⟨ctx, piece, w, around⟩ := v
  cases piece with
  | expr e =>
    cases e with
    | this x =>
      rintro (hhome : ctx.home = .none)
      simp [after, walkExpr, hhome, Walk.violate] at hclean
    | super x method =>
      show ctx.home = .derived
      cases hhome : ctx.home with
      | derived => rfl
      | none => simp [after, walkExpr, hhome, Walk.violate] at hclean
      | base => simp [after, walkExpr, hhome, Walk.violate] at hclean
    | _ => trivial
  | _ => trivial

/-- A visit that is at home resolves its own reference after its parts. -/
theorem AtHome.after_resolves (h : v.AtHome) {x : Reference} (hown : v.own? = some x) :
    ∃ w, Threads v.walk v.parts w ∧ w.scopes = v.walk.scopes ∧ v.after = w.resolve x := by
  obtain ⟨ctx, piece, w, around⟩ := v
  cases piece with
  | expr e =>
    cases e with
    | reference y =>
      obtain rfl := Option.some.inj hown
      exact w.read_resolves _
    | assign y e =>
      obtain rfl := Option.some.inj hown
      exact ⟨_, ⟨.refl w, .refl _⟩, walkExpr_scopes ctx w e, rfl⟩
    | this y =>
      obtain rfl := Option.some.inj hown
      refine ⟨w, .refl w, rfl, ?_⟩
      simp only [after, walkExpr]
      split
      · next hhome => exact absurd hhome h
      · rfl
    | super y method =>
      obtain rfl := Option.some.inj hown
      refine ⟨w, .refl w, rfl, ?_⟩
      have hhome : ctx.home = .derived := h
      simp only [after, walkExpr, hhome]
    | _ => contradiction
  | superclass y =>
    obtain rfl := Option.some.inj hown
    exact w.read_resolves _
  | _ => contradiction

/-- A walk through pieces that are at home has recorded every reference, provided that no reference
occurs twice in its piece or had a distance before. -/
theorem recorded_of_atHome (hhome : All AtHome v) (hnodup : v.ids.Nodup)
    (hfresh : ∀ id ∈ v.ids, v.walk.distances.find? id = none) :
    All (Recorded v.after.distances) v := by
  induction v using induction with
  | step v ih =>
  have hthreads := v.after_threads
  rw [ids_eq, List.nodup_append'] at hnodup
  rw [ids_eq, List.forall_mem_append] at hfresh
  obtain ⟨_, hnodup, hdisjoint⟩ := hnodup
  -- Along the parts, each one starts where no distance for its references is noted yet.
  have hparts : ∀ {w : Walk}, Threads v.walk v.parts w →
      ∀ p ∈ v.parts, All (Recorded w.distances) p := fun hw =>
    hw.recorded hnodup fun p hp =>
      ih p hp (hhome.part hp) ((List.nodup_flatMap.mp hnodup).1 p hp)
        (hw.fresh (fun p _ => p.notes_after) hnodup hfresh.2 hp)
  cases hown : v.own? with
  | none =>
    rw [hown] at hthreads
    exact .mk (fun x hx => by simp [hown] at hx) (hparts hthreads)
  | some x =>
    rw [hown] at hdisjoint hfresh
    have hx : x.id ∉ v.parts.flatMap ids := hdisjoint (by simp)
    obtain ⟨w, hw, hscopes, heq⟩ := hhome.self.after_resolves hown
    rw [heq]
    refine .mk (fun y hy => ?_) fun p hp v' hv' => (hparts hw p hp v' hv').congr fun id hid => ?_
    · obtain rfl : x = y := Option.some.inj (hown.symm.trans hy)
      have hnone : w.distances.find? x.id = none :=
        ((hw.notes fun p _ => p.notes_after).find?_eq hx).trans (hfresh.1 x.id (by simp))
      rw [w.find?_resolve x hnone, Walk.distance?, Walk.distance?, hscopes]
    · refine (w.notes_resolve x).find?_eq fun hmem => hx ?_
      rw [← List.mem_singleton.mp hmem]
      exact List.mem_flatMap.mpr ⟨p, hp, ids_within hv' hid⟩

/-- A walk that ends without violations is at home everywhere. -/
theorem all_atHome_of_clean (hclean : v.after.violations = []) : All AtHome v :=
  (All.of_closed hclean fun _ => clean_parts).imp fun _ => atHome_of_clean

/-- A walk that ends without violations has recorded every reference, provided that no reference
occurs twice in its piece or had a distance before. -/
theorem recorded_after (hclean : v.after.violations = []) (hnodup : v.ids.Nodup)
    (hfresh : ∀ id ∈ v.ids, v.walk.distances.find? id = none) :
    All (Recorded v.after.distances) v :=
  recorded_of_atHome (all_atHome_of_clean hclean) hnodup hfresh

end Visit

end Lox.Scoping

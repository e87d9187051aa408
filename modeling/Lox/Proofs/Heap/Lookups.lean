import Lox.Machine
import Lox.Proofs.Heap.Contents
import Mathlib.Order.Nat

/-!
# Searching a chain and going a distance

A name is looked up from a frame in two ways: the chain of frames is searched outwards, or a known
number of links is followed and only the frame there is looked at. The two agree if that number is
the least one at which a frame binds the name. An assignment changes one binding in one frame. It
is seen from the frames whose nearest binding of the name is that one, and from no others.
-/

namespace Lox

namespace Frames

/-- Every link leads to a frame that was made earlier. -/
def IsForest (fs : Frames) : Prop :=
  ∀ k outer, fs.enclosing? k = some outer → outer < k

/-- The frame at a distance exists and binds a name itself. -/
def BindsAt (fs : Frames) (k : FrameId) (name : String) (distance : Nat) : Prop :=
  ∃ holder, fs.ancestor? k distance = some holder ∧ (fs.local? holder name).isSome

/-- The number of links after which a name is first bound. -/
abbrev IsDistance (fs : Frames) (k : FrameId) (name : String) (distance : Nat) : Prop :=
  IsLeast {d | fs.BindsAt k name d} distance

/-- A frame is the nearest one that binds a name. -/
def Nearest (fs : Frames) (k : FrameId) (name : String) (holder : FrameId) : Prop :=
  ∃ distance, fs.IsDistance k name distance ∧ fs.ancestor? k distance = some holder

/-- One binding has a new value, and nothing else has changed. -/
structure Reassigned (fs : Frames) (holder : FrameId) (name : String) (value : Value)
    (fs' : Frames) : Prop where
  /-- There are as many frames as before. -/
  size : fs'.size = fs.size
  /-- They have their links. -/
  enclosing : ∀ k, fs'.enclosing? k = fs.enclosing? k
  /-- The binding has its new value. -/
  bound : fs'.local? holder name = some value
  /-- The other bindings are as before. -/
  others : ∀ k name', ¬(k = holder ∧ name' = name) → fs'.local? k name' = fs.local? k name'
  /-- The new value is found where the binding is the nearest one of its name. -/
  seen : ∀ k, fs.Nearest k name holder → fs'.get? k name = some value
  /-- Where another one is the nearest, or none is, the same is found as before. -/
  unseen : ∀ k, ¬fs.Nearest k name holder → fs'.get? k name = fs.get? k name
  /-- The same is found for other names. -/
  otherNames : ∀ k name', name' ≠ name → fs'.get? k name' = fs.get? k name'

variable {fs : Frames} {k holder : FrameId} {name : String} {value : Value} {distance : Nat}

/-! ## Distances -/

/-- A frame binds a name at distance zero if it is bound in it. -/
theorem bindsAt_zero : fs.BindsAt k name 0 ↔ (fs.local? k name).isSome := by
  simp [BindsAt, ancestor?]

/-- A frame binds a name further out if the frame around it does. -/
theorem bindsAt_succ : fs.BindsAt k name (distance + 1) ↔
    ∃ outer, fs.enclosing? k = some outer ∧ fs.BindsAt outer name distance := by
  unfold BindsAt
  rw [ancestor?]
  constructor
  · rintro ⟨holder, hholder, hbound⟩
    obtain ⟨outer, houter, hholder⟩ := Option.bind_eq_some_iff.mp hholder
    exact ⟨outer, houter, holder, hholder, hbound⟩
  · rintro ⟨outer, houter, holder, hholder, hbound⟩
    exact ⟨holder, Option.bind_eq_some_iff.mpr ⟨outer, houter, hholder⟩, hbound⟩

/-- The holder at a distance is the frame there, if it binds the name. -/
theorem holderAt?_eq_some_iff : fs.holderAt? k distance name = some holder ↔
    fs.ancestor? k distance = some holder ∧ (fs.local? holder name).isSome :=
  Option.filter_eq_some_iff

/-- There is no holder at a distance if the name is not bound there. -/
theorem holderAt?_eq_none_iff :
    fs.holderAt? k distance name = none ↔ ¬fs.BindsAt k name distance := by
  rw [← Option.not_isSome_iff_eq_none, Option.isSome_iff_exists]
  exact not_congr (exists_congr fun _ => holderAt?_eq_some_iff)

/-- Nothing is found at a distance where there is no frame that binds the name. -/
theorem getAt?_eq_none_iff :
    fs.getAt? k distance name = none ↔ ¬fs.BindsAt k name distance := by
  rw [← holderAt?_eq_none_iff, getAt?, Option.bind_eq_none_iff]
  refine ⟨fun h => ?_, fun h holder hholder => ?_⟩
  · by_contra hsome
    obtain ⟨holder, hholder⟩ := Option.ne_none_iff_exists'.mp hsome
    have hbound := isSome_of_holderAt? hholder
    rw [h holder hholder] at hbound
    contradiction
  · rw [h] at hholder
    contradiction

/-- Nothing is assigned there either. -/
theorem assignAt?_eq_none_iff :
    fs.assignAt? k distance name value = none ↔ ¬fs.BindsAt k name distance := by
  rw [← holderAt?_eq_none_iff, assignAt?, Option.map_eq_none_iff]

/-! ## The search -/

/-- The search goes the least distance at which the name is bound. By induction on the distance: a
frame that does not bind the name is left by its link. -/
theorem holder?_eq_holderAt? (hforest : fs.IsForest) (h : fs.IsDistance k name distance) :
    fs.holder? k name = fs.holderAt? k distance name := by
  induction distance generalizing k with
  | zero =>
    have hbound := bindsAt_zero.mp h.1
    rw [holder?, if_pos hbound]
    exact (holderAt?_eq_some_iff.mpr ⟨rfl, hbound⟩).symm
  | succ distance ih =>
    obtain ⟨outer, houter, hbinds⟩ := bindsAt_succ.mp h.1
    have hunbound : ¬(fs.local? k name).isSome := fun hbound =>
      absurd (h.2 (bindsAt_zero.mpr hbound)) (Nat.not_succ_le_zero distance)
    have hleast : fs.IsDistance outer name distance := by
      refine ⟨hbinds, fun d hd => ?_⟩
      exact Nat.le_of_succ_le_succ (h.2 (bindsAt_succ.mpr ⟨outer, houter, hd⟩))
    rw [holder?, if_neg hunbound, houter]
    dsimp only
    rw [if_pos (hforest k outer houter), ih hleast, holderAt?, holderAt?, ancestor?, houter]
    rfl

/-- Where the name is bound at no distance, the search finds nothing. -/
theorem holder?_eq_none (h : ∀ d, ¬fs.BindsAt k name d) : fs.holder? k name = none := by
  fun_induction holder? fs k name with
  | case1 k hbound => exact absurd (bindsAt_zero.mpr hbound) (h 0)
  | case2 => rfl
  | case3 k _ outer houter _ ih =>
    exact ih fun d hd => h (d + 1) (bindsAt_succ.mpr ⟨outer, houter, hd⟩)
  | case4 => rfl

/-- The search finds the nearest frame. -/
theorem holder?_eq_some_iff (hforest : fs.IsForest) :
    fs.holder? k name = some holder ↔ fs.Nearest k name holder := by
  constructor
  · intro h
    by_cases hbinds : ∃ d, fs.BindsAt k name d
    · classical
      have hleast : fs.IsDistance k name (Nat.find hbinds) := Nat.isLeast_find hbinds
      rw [holder?_eq_holderAt? hforest hleast, holderAt?_eq_some_iff] at h
      exact ⟨_, hleast, h.1⟩
    · rw [holder?_eq_none (not_exists.mp hbinds)] at h
      contradiction
  · rintro ⟨distance, hleast, hholder⟩
    obtain ⟨holder', hholder', hbound⟩ := hleast.1
    obtain rfl : holder' = holder := Option.some.inj (hholder'.symm.trans hholder)
    rw [holder?_eq_holderAt? hforest hleast]
    exact holderAt?_eq_some_iff.mpr ⟨hholder, hbound⟩

/-! ## Assignments -/

/-- The search depends on which names are bound and on the links, and not on values. -/
theorem holder?_congr {fs' : Frames} (henclosing : ∀ k, fs'.enclosing? k = fs.enclosing? k)
    (hbound : ∀ k, (fs'.local? k name).isSome = (fs.local? k name).isSome) (k : FrameId) :
    fs'.holder? k name = fs.holder? k name := by
  fun_induction holder? fs k name with
  | case1 k h => rw [holder?, hbound, if_pos h]
  | case2 k h hnone => rw [holder?, hbound, if_neg h, henclosing, hnone]
  | case3 k h outer houter hlt ih =>
    rw [holder?, hbound, if_neg h, henclosing, houter]
    dsimp only
    rw [if_pos hlt, ih]
  | case4 k h outer houter hlt =>
    rw [holder?, hbound, if_neg h, henclosing, houter]
    dsimp only
    rw [if_neg hlt]

/-- A frame that binds a name exists. -/
theorem lt_size_of_isSome (h : (fs.local? k name).isSome) : k < fs.size := by
  obtain ⟨value, hvalue⟩ := Option.isSome_iff_exists.mp h
  obtain ⟨frame, hframe, _⟩ := Option.bind_eq_some_iff.mp hvalue
  exact (Array.getElem?_eq_some_iff.mp hframe).1

/-- A name that is bound already is found in the same frames after it was bound again. -/
theorem holder?_define (h : (fs.local? holder name).isSome) (k : FrameId) (name' : String) :
    (fs.define holder name value).holder? k name' = fs.holder? k name' := by
  refine holder?_congr (fun k => enclosing?_define ..) (fun k => ?_) k
  rw [local?_define]
  split
  · next hsame =>
    obtain ⟨rfl, -, rfl⟩ := hsame
    exact h.symm
  · rfl

/-- A name that is bound again has a new value in its frame, and all else is as before. -/
theorem reassigned_define (hforest : fs.IsForest) (h : (fs.local? holder name).isSome) :
    fs.Reassigned holder name value (fs.define holder name value) := by
  have hlt := lt_size_of_isSome h
  have hothers (k : FrameId) (name' : String) (hne : ¬(k = holder ∧ name' = name)) :
      (fs.define holder name value).local? k name' = fs.local? k name' := by
    rw [local?_define, if_neg fun hsame => hne ⟨hsame.1, hsame.2.2⟩]
  have hbound : (fs.define holder name value).local? holder name = some value := by
    rw [local?_define, if_pos ⟨rfl, hlt, rfl⟩]
  refine ⟨size_define .., fun k => enclosing?_define .., hbound, hothers, fun k hk => ?_,
    fun k hk => ?_, fun k name' hne => ?_⟩
  · rw [get?, holder?_define h, (holder?_eq_some_iff hforest).mpr hk]
    exact hbound
  · rw [get?, holder?_define h, get?]
    -- The frame that is found, if there is one, is another one.
    cases hfound : fs.holder? k name with
    | none => rfl
    | some holder' =>
      refine hothers holder' name fun hsame => hk ?_
      exact (holder?_eq_some_iff hforest).mp (hsame.1 ▸ hfound)
  · rw [get?, holder?_define h, get?]
    exact congrArg _ (funext fun holder' => hothers holder' name' fun hsame => hne hsame.2)

end Frames

/-! ## Steps -/

/-- The machine with other frames. -/
def Machine.withFrames (m : Machine) (fs : Frames) : Machine :=
  { m with heap.frames := fs }

namespace Exec

/-- How a step ends that needs a name to be bound: with a result, or with the error that it is not,
and then the machine is as before. -/
def ifBound {α : Type} (t : Token) (m : Machine) :
    Option (α × Machine) → EStateM.Result Failure Machine α
  | some (a, m') => .ok a m'
  | none => .error (.program t.line (.undefinedVariable t.lexeme)) m

variable {m : Machine} {t : Token}

/-- Reading from a holder, as a lookup. -/
theorem getFrom_eq (holder? : Option FrameId) : getFrom holder? t m =
    ifBound t m ((holder?.bind (m.heap.frames.local? · t.lexeme)).map (·, m)) := by
  have hrun : getFrom holder? t m = orFail t (.undefinedVariable t.lexeme)
      (holder?.bind (m.heap.frames.local? · t.lexeme)) m := rfl
  rw [hrun]
  cases holder?.bind (m.heap.frames.local? · t.lexeme) <;> rfl

/-- Assigning in a holder, as an update. -/
theorem assignIn_eq (holder? : Option FrameId) (value : Value) : assignIn holder? t value m =
    ifBound t m ((holder?.map (m.heap.frames.define · t.lexeme value)).map
      fun fs => ((), m.withFrames fs)) := by
  cases holder? <;> rfl

/-- Searching the chain of frames and going a distance agree. If a name is first bound at some
distance, both find its value there, and both assign it there: this one binding is changed and
nothing else, and the new value is seen from those frames alone whose nearest binding of the name it
is. If the name is bound at no distance, the search finds nothing and assigns nothing. What is
looked for at a distance is missing exactly if there is no frame at that distance or if it does not
bind the name. Where something is missing, a step of the machine fails with the error that the
variable is undefined and leaves the machine as it is. -/
theorem search_agrees_with_distance (m : Machine) (hforest : m.heap.frames.IsForest) (k : FrameId)
    (t : Token) :
    let fs := m.heap.frames
    let name := t.lexeme
    (∀ distance, fs.IsDistance k name distance →
      (∃ found, fs.get? k name = some found ∧ fs.getAt? k distance name = some found) ∧
      ∀ value, ∃ fs' holder, fs.assign? k name value = some fs' ∧
        fs.assignAt? k distance name value = some fs' ∧ fs.ancestor? k distance = some holder ∧
        fs.Reassigned holder name value fs') ∧
    ((∀ d, ¬fs.BindsAt k name d) →
      fs.get? k name = none ∧ ∀ value, fs.assign? k name value = none) ∧
    (∀ d, (fs.getAt? k d name = none ↔ ¬fs.BindsAt k name d) ∧
      ∀ value, fs.assignAt? k d name value = none ↔ ¬fs.BindsAt k name d) ∧
    (getFrom (fs.holder? k name) t m = ifBound t m ((fs.get? k name).map (·, m)) ∧
      ∀ value, assignIn (fs.holder? k name) t value m =
        ifBound t m ((fs.assign? k name value).map fun fs' => ((), m.withFrames fs'))) ∧
    ∀ d, getFrom (fs.holderAt? k d name) t m = ifBound t m ((fs.getAt? k d name).map (·, m)) ∧
      ∀ value, assignIn (fs.holderAt? k d name) t value m =
        ifBound t m ((fs.assignAt? k d name value).map fun fs' => ((), m.withFrames fs')) := by
  intro fs name
  refine ⟨fun distance hleast => ?_, fun hnone => ?_,
    fun d => ⟨Frames.getAt?_eq_none_iff, fun value => Frames.assignAt?_eq_none_iff⟩,
    ⟨getFrom_eq _, assignIn_eq _⟩, fun d => ⟨getFrom_eq _, assignIn_eq _⟩⟩
  -- The search stops at the frame that the distance leads to, so both read and define there.
  · obtain ⟨holder, hholder, hbound⟩ := hleast.1
    obtain ⟨found, hfound⟩ := Option.isSome_iff_exists.mp hbound
    have hat : fs.holderAt? k distance name = some holder :=
      Frames.holderAt?_eq_some_iff.mpr ⟨hholder, hbound⟩
    have hsearch : fs.holder? k name = some holder :=
      (Frames.holder?_eq_holderAt? hforest hleast).trans hat
    refine ⟨⟨found, ?_, ?_⟩, fun value => ⟨fs.define holder name value, holder, ?_, ?_, hholder,
      Frames.reassigned_define hforest hbound⟩⟩
    · rw [Frames.get?, hsearch]
      exact hfound
    · rw [Frames.getAt?, hat]
      exact hfound
    · rw [Frames.assign?, hsearch]
      rfl
    · rw [Frames.assignAt?, hat]
      rfl
  · have hsearch : fs.holder? k name = none := Frames.holder?_eq_none hnone
    refine ⟨?_, fun value => ?_⟩
    · rw [Frames.get?, hsearch]
      rfl
    · rw [Frames.assign?, hsearch]
      rfl

/-- A machine with three frames in a chain, of which the outer two bind a name. -/
def shadowing : Machine :=
  { Machine.start {} {} with
    heap.frames := ⟨#[⟨[("a", .boolean true)], none⟩, ⟨[("a", .boolean false)], some 0⟩,
      ⟨[], some 1⟩]⟩ }

/-- The frames of the example are a forest. -/
theorem isForest_shadowing : shadowing.heap.frames.IsForest := by
  intro k outer h
  match k with
  | 0 => contradiction
  | 1 =>
    obtain rfl : 0 = outer := Option.some.inj h
    exact Nat.zero_lt_one
  | 2 =>
    obtain rfl : 1 = outer := Option.some.inj h
    exact Nat.one_lt_two
  | k + 3 => simp [Frames.enclosing?, shadowing] at h

/-- The distance of the name in the example. -/
theorem isDistance_shadowing : shadowing.heap.frames.IsDistance 2 "a" 1 := by
  refine ⟨⟨1, rfl, rfl⟩, fun d hd => ?_⟩
  match d with
  | 0 =>
    have hbound := Frames.bindsAt_zero.mp hd
    contradiction
  | d + 1 => exact Nat.le_add_left 1 d

/-- From the innermost frame the binding in the middle is found and changed, and the outermost frame
does not see that. -/
theorem shadowing_binding_changed :
    shadowing.heap.frames.IsForest ∧ shadowing.heap.frames.IsDistance 2 "a" 1 ∧
      shadowing.heap.frames.get? 2 "a" = shadowing.heap.frames.getAt? 2 1 "a" ∧
      ∃ fs, shadowing.heap.frames.assign? 2 "a" .nil = some fs ∧ fs.get? 2 "a" = some .nil ∧
        fs.get? 0 "a" = shadowing.heap.frames.get? 0 "a" := by
  obtain ⟨hbound, -⟩ :=
    search_agrees_with_distance shadowing isForest_shadowing 2 ⟨.identifier, "a", {}⟩
  obtain ⟨⟨found, hget, hgetAt⟩, hassign⟩ := hbound 1 isDistance_shadowing
  obtain ⟨fs, holder, hassigned, -, hholder, hchanged⟩ := hassign .nil
  obtain rfl : 1 = holder := Option.some.inj hholder
  refine ⟨isForest_shadowing, isDistance_shadowing, hget.trans hgetAt.symm, fs, hassigned,
    hchanged.seen 2 ⟨1, isDistance_shadowing, rfl⟩, hchanged.unseen 0 ?_⟩
  rintro ⟨_ | d, _, hancestor⟩ <;> contradiction

end Exec

end Lox

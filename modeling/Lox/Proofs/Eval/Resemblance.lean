import Lox.Proofs.Eval.Alignment
import Lox.Proofs.Scoping.Likeness
import Mathlib.Data.Option.Basic

/-!
# Machines that resemble each other

When two programs that are alike run, their machines resemble each other. They have the same frames,
with the same links, and so with objects and arrays. A frame is marked if its scope is, and in a
marked frame a variable may have the other name. A function value carries a function that is like
the one of its counterpart, given the marks of the frames around it.

Which frames are marked is not part of a machine: it is given beside it, and it grows with the
machine.
-/

namespace Lox

/-! ## Output -/

namespace Sink

/-- The same output, flushed some more times. -/
def later (s : Sink) (flushes : Nat) : Sink :=
  { s with flushes := s.flushes + flushes }

/-- What is written does not depend on the number of flushes. -/
theorem write_later (s : Sink) (flushes : Nat) (text : String) :
    (s.later flushes).write text = ((s.write text).1.later flushes, (s.write text).2) := by
  unfold write
  split
  · rfl
  · dsimp only [later]
    cases s.onWrite s.writes text <;> rfl

/-- A line is written as before, however often the output was flushed. -/
theorem writeLine_later (s : Sink) (flushes : Nat) (line : String) :
    (s.later flushes).writeLine line =
      ((s.writeLine line).1.later flushes, (s.writeLine line).2) := by
  unfold writeLine
  rw [write_later]
  obtain ⟨written, refused⟩ := s.write line
  cases refused with
  | none => exact write_later written flushes "\n"
  | some reason => rfl

/-- Flushes add up. -/
theorem flush_later (s : Sink) (flushes : Nat) :
    (s.later flushes).flush.1 = s.flush.1.later flushes :=
  congrArg (fun n => ({ s with flushes := n } : Sink)) (Nat.add_right_comm ..)

/-- A text does not change how flushes are answered. -/
theorem onFlush_write (s : Sink) (text : String) : (s.write text).1.onFlush = s.onFlush := by
  unfold write
  split
  · rfl
  · dsimp only
    cases s.onWrite s.writes text <;> rfl

/-- A line does not change how flushes are answered. -/
theorem onFlush_writeLine (s : Sink) (line : String) :
    (s.writeLine line).1.onFlush = s.onFlush := by
  have hline := s.onFlush_write line
  unfold writeLine
  revert hline
  obtain ⟨written, refused⟩ := s.write line
  intro hline
  cases refused with
  | none => exact (written.onFlush_write "\n").trans hline
  | some reason => exact hline

end Sink

namespace Eval

open Scoping

/-! ## Options, arrays and bindings -/

/-- Two options that are related are both there or both missing. -/
theorem rel_cases {α β : Type} {R : α → β → Prop} {a : Option α} {b : Option β}
    (h : Option.Rel R a b) : a = none ∧ b = none ∨ ∃ x y, a = some x ∧ b = some y ∧ R x y := by
  cases h with
  | none => exact .inl ⟨rfl, rfl⟩
  | some h => exact .inr ⟨_, _, rfl, rfl, h⟩

/-- Two arrays have one size and related entries. -/
structure Pointwise {α β : Type} (R : Nat → α → β → Prop) (xs : Array α) (ys : Array β) : Prop where
  /-- The sizes are the same. -/
  size : ys.size = xs.size
  /-- The entries are related. -/
  related : ∀ (i : Nat) (x : α) (y : β), xs[i]? = some x → ys[i]? = some y → R i x y

namespace Pointwise

variable {α β : Type} {R S : Nat → α → β → Prop} {xs : Array α} {ys : Array β}

/-- An array is related to itself if its elements are. -/
theorem refl {R : Nat → α → α → Prop} (h : ∀ (i : Nat) (x : α), xs[i]? = some x → R i x x) :
    Pointwise R xs xs where
  size := rfl
  related i x y hx hy := by
    obtain rfl := Option.some.inj (hx.symm.trans hy)
    exact h i x hx

/-- The relation of the elements may be weakened. -/
theorem imp (h : Pointwise R xs ys) (hRS : ∀ i x y, i < xs.size → R i x y → S i x y) :
    Pointwise S xs ys where
  size := h.size
  related i x y hx hy := by
    have hi := (Array.getElem?_eq_some_iff.mp hx).1
    exact hRS i x y hi (h.related i x y hx hy)

/-- At each place there are two related entries, or none. -/
theorem getElem? (h : Pointwise R xs ys) (i : Nat) : Option.Rel (R i) xs[i]? ys[i]? := by
  by_cases hi : i < xs.size
  · have hi' : i < ys.size := h.size ▸ hi
    have hx := Array.getElem?_eq_getElem hi
    have hy := Array.getElem?_eq_getElem hi'
    rw [hx, hy]
    exact .some (h.related i _ _ hx hy)
  · have hi' : ¬i < ys.size := h.size ▸ hi
    rw [Array.getElem?_eq_none (Nat.le_of_not_lt hi), Array.getElem?_eq_none (Nat.le_of_not_lt hi')]
    exact .none

/-- Related arrays get related elements at the end. -/
theorem push (h : Pointwise R xs ys) {x : α} {y : β} (hxy : R xs.size x y) :
    Pointwise R (xs.push x) (ys.push y) where
  size := by simp [h.size]
  related i a b ha hb := by
    rw [Array.getElem?_push] at ha hb
    rw [h.size] at hb
    by_cases hi : i = xs.size
    · rw [if_pos hi] at ha hb
      obtain rfl := Option.some.inj ha
      obtain rfl := Option.some.inj hb
      exact hi ▸ hxy
    · rw [if_neg hi] at ha hb
      exact h.related i a b ha hb

/-- Related arrays get related elements in a place. -/
theorem modify (h : Pointwise R xs ys) (i : Nat) {f : α → α} {g : β → β}
    (hfg : ∀ x y, R i x y → R i (f x) (g y)) : Pointwise R (xs.modify i f) (ys.modify i g) where
  size := by simp [h.size]
  related j a b ha hb := by
    rw [Array.getElem?_modify] at ha hb
    by_cases hij : i = j
    · subst hij
      rw [if_pos rfl] at ha hb
      obtain ⟨x, hx, rfl⟩ := Option.map_eq_some_iff.mp ha
      obtain ⟨y, hy, rfl⟩ := Option.map_eq_some_iff.mp hb
      exact hfg x y (h.related i x y hx hy)
    · rw [if_neg hij] at ha hb
      exact h.related j a b ha hb

end Pointwise

/-- Corresponding names have related values, or none. -/
def Lookups {α β : Type} (L : Likeness) (mark : Bool) (V : α → β → Prop) (b : List (String × α))
    (b' : List (String × β)) : Prop :=
  ∀ ⦃name name' : String⦄, L.Name mark name name' →
    Option.Rel V (b.lookup name) (b'.lookup name')

namespace Lookups

variable {α β : Type} {L : Likeness} {mark : Bool} {V W : α → β → Prop} {b : List (String × α)}
  {b' : List (String × β)}

/-- The relation of the values may be weakened. -/
theorem imp (h : Lookups L mark V b b') (hVW : ∀ v v', V v v' → W v v') :
    Lookups L mark W b b' := by
  intro name name' hname
  obtain ⟨hv, hv'⟩ | ⟨v, v', hv, hv', hrel⟩ := rel_cases (h hname)
  · rw [hv, hv']
    exact .none
  · rw [hv, hv']
    exact .some (hVW v v' hrel)

/-- Nothing is bound on both sides. -/
theorem nil : Lookups L mark V [] [] :=
  fun _ _ _ => .none

/-- One name is bound to related values. -/
theorem single {name : String} {v : α} {v' : β} (hname : L.Name mark name name) (hv : V v v') :
    Lookups L mark V [(name, v)] [(name, v')] := by
  have hentries : Entries L mark V [(name, v)] [(name, v')] := .cons ⟨hname, hv⟩ .nil
  exact fun _ _ => hentries.lookup

/-- Corresponding names are bound to related values. -/
theorem insert {V : Value → Value → Prop} {b b' : Bindings} {name name' : String} {v v' : Value}
    (h : Lookups L mark V b b') (hname : L.Name mark name name') (hv : V v v') :
    Lookups L mark V (b.insert name v) (b'.insert name' v') := by
  intro other other' hother
  rw [Bindings.lookup_insert, Bindings.lookup_insert]
  have hiff := hother.eq_iff hname
  by_cases heq : other = name
  · rw [if_pos heq, if_pos (hiff.mpr heq)]
    exact .some hv
  · rw [if_neg heq, if_neg (mt hiff.mp heq)]
    exact h hother

end Lookups

/-! ## Marked frames -/

/-- The frames from a frame outwards exist and are marked as given, and those beyond are not
marked. -/
def Marked (F : FrameId → Bool) (fs : Frames) (k : FrameId) (ms : List Bool) : Prop :=
  ∀ distance k', fs.ancestor? k distance = some k' →
    k' < fs.size ∧ F k' = ms.getD distance false

/-- A frame and the frame around it. -/
theorem ancestor?_succ {fs : Frames} {k outer : FrameId} (h : fs.enclosing? k = some outer)
    (distance : Nat) : fs.ancestor? k (distance + 1) = fs.ancestor? outer distance := by
  rw [Frames.ancestor?, h, Option.bind_some]

namespace Marked

variable {F F' : FrameId → Bool} {fs fs' : Frames} {k outer : FrameId} {ms : List Bool}
  {mark : Bool}

/-- A frame with marks exists. -/
theorem lt_size (h : Marked F fs k ms) : k < fs.size :=
  (h 0 k rfl).1

/-- A frame has the first of its marks. -/
theorem head (h : Marked F fs k ms) : F k = ms.headD false := by
  rw [(h 0 k rfl).2]
  cases ms <;> rfl

/-- The frame around it has the others. -/
theorem tail (h : Marked F fs k ms) (houter : fs.enclosing? k = some outer) :
    Marked F fs outer ms.tail := by
  intro distance k' hk'
  have hstep := h (distance + 1) k' ((ancestor?_succ houter distance).trans hk')
  cases ms with
  | nil => exact hstep
  | cons mark ms => exact hstep

/-- More frames do not change the chain. -/
theorem mono (h : Marked F fs k ms) (hsize : fs.size ≤ fs'.size)
    (hlinks : ∀ k < fs.size, fs'.enclosing? k = fs.enclosing? k)
    (hmarks : ∀ k < fs.size, F' k = F k) : Marked F' fs' k ms := by
  intro distance
  induction distance generalizing k ms with
  | zero =>
    rintro k' ⟨⟩
    have hk := h 0 k rfl
    exact ⟨Nat.lt_of_lt_of_le hk.1 hsize, (hmarks k hk.1).trans hk.2⟩
  | succ distance ih =>
    intro k' hk'
    obtain ⟨outer, houter, hk'⟩ := Option.bind_eq_some_iff.mp hk'
    have hlink := (hlinks k h.lt_size).symm.trans houter
    have hstep := ih (h.tail hlink) k' hk'
    cases ms with
    | nil => exact hstep
    | cons mark ms => exact hstep

/-- A new frame comes before the chain around it. -/
theorem push (h : Marked F fs outer ms) (hmarks : ∀ k < fs.size, F' k = F k)
    (hmark : F' fs.size = mark) (bindings : Bindings) :
    Marked F' (fs.push ⟨bindings, some outer⟩) fs.size (mark :: ms) := by
  have hlinks : ∀ k < fs.size, (fs.push ⟨bindings, some outer⟩).enclosing? k = fs.enclosing? k :=
    fun k hk => by rw [Frames.enclosing?_push, if_neg (Nat.ne_of_lt hk)]
  have hchain : Marked F' (fs.push ⟨bindings, some outer⟩) outer ms :=
    h.mono (by simp) hlinks hmarks
  have houter : (fs.push ⟨bindings, some outer⟩).enclosing? fs.size = some outer := by
    rw [Frames.enclosing?_push, if_pos rfl]
  rintro (_ | distance) k' hk'
  · obtain rfl := Option.some.inj hk'
    exact ⟨by simp, hmark⟩
  · rw [ancestor?_succ houter] at hk'
    exact hchain distance k' hk'

end Marked

/-! ## Values -/

section Values

variable (L : Likeness) (P : FrameId → List Bool → Prop)

/-- Two functions with one frame are alike, given the marks of that frame and of those around it,
within further scopes. -/
structure Functions (inner : List Bool) (f f' : Function) : Prop where
  /-- The frame is the same. -/
  frame : f'.frame = f.frame
  /-- Both are initializers or neither is. -/
  isInitializer : f'.isInitializer = f.isInitializer
  /-- What was written is alike. -/
  decl : ∃ ms, P f.frame ms ∧ Alike L (inner ++ ms) (.function f.decl) (.function f'.decl)

/-- Two methods are alike. Their scope has one around it that holds the receiver. -/
abbrev Methods : Function → Function → Prop :=
  Functions L P [false]

/-- Two lists of classes with the same identities and names, whose methods and superclasses are
alike. -/
inductive Classes : List Class → List Class → Prop
  | nil : Classes [] []
  | cons {id : Nat} {name : String} {supers supers' cs cs' : List Class}
      {methods methods' : List (String × Function)} (hsupers : Classes supers supers')
      (hmethods : Entries L false (Methods L P) methods methods') (hcs : Classes cs cs') :
      Classes (⟨id, name, supers, methods⟩ :: cs) (⟨id, name, supers', methods'⟩ :: cs')

/-- Two values that are alike. -/
inductive Values : Value → Value → Prop
  | nil : Values .nil .nil
  | boolean (b : Bool) : Values (.boolean b) (.boolean b)
  | number (x : Float) : Values (.number x) (.number x)
  | string (s : String) : Values (.string s) (.string s)
  | function {id : Nat} {f f' : Function} (h : Functions L P [] f f') :
    Values (.function id f) (.function id f')
  | native (f : Native) : Values (.native f) (.native f)
  | class {c c' : Class} (h : Classes L P [c] [c']) : Values (.class c) (.class c')
  | object (id : ObjectId) : Values (.object id) (.object id)
  | array (id : ArrayId) : Values (.array id) (.array id)

end Values

section Mono

variable {L : Likeness} {P P' : FrameId → List Bool → Prop}

/-- Functions correspond under weaker marks. -/
theorem Functions.mono {inner : List Bool} {f f' : Function} (h : Functions L P inner f f')
    (hP : ∀ k ms, P k ms → P' k ms) : Functions L P' inner f f' := by
  obtain ⟨hframe, hinit, ms, hms, hdecl⟩ := h
  exact ⟨hframe, hinit, ms, hP _ ms hms, hdecl⟩

/-- Classes correspond under weaker marks. -/
theorem Classes.mono {cs cs' : List Class} (h : Classes L P cs cs')
    (hP : ∀ k ms, P k ms → P' k ms) : Classes L P' cs cs' := by
  induction h with
  | nil => exact .nil
  | cons _ hmethods _ ihsupers ihcs =>
    exact .cons ihsupers (hmethods.imp fun _ _ hf => hf.mono hP) ihcs

/-- Values correspond under weaker marks. -/
theorem Values.mono {v v' : Value} (h : Values L P v v') (hP : ∀ k ms, P k ms → P' k ms) :
    Values L P' v v' := by
  cases h with
  | function h => exact .function (h.mono hP)
  | «class» h => exact .class (h.mono hP)
  | nil => exact .nil
  | boolean b => exact .boolean b
  | number x => exact .number x
  | string s => exact .string s
  | native f => exact .native f
  | object id => exact .object id
  | array id => exact .array id

end Mono

section Lookups

variable {L : Likeness} {P : FrameId → List Bool → Prop}

/-- In classes that are alike, methods of one name are. -/
theorem Classes.findInherited {cs cs' : List Class} (h : Classes L P cs cs') (name : String) :
    Option.Rel (Methods L P) (findInherited name cs) (findInherited name cs') := by
  induction h with
  | nil => exact .none
  | cons _ hmethods _ ihsupers ihcs =>
    -- The class's own method comes first, then the superclasses', then the other classes'.
    unfold Lox.findInherited Class.findMethod
    obtain ⟨hown, hown'⟩ | ⟨f, f', hown, hown', hf⟩ :=
      rel_cases (hmethods.lookup (show L.Name false name name from rfl))
    · rw [hown, hown']
      obtain ⟨hfound, hfound'⟩ | ⟨f, f', hfound, hfound', hf⟩ := rel_cases ihsupers
      · rw [hfound, hfound']
        exact ihcs
      · rw [hfound, hfound']
        exact .some hf
    · rw [hown, hown']
      exact .some hf

/-- Corresponding classes have the same name. -/
theorem Classes.name {c c' : Class} (h : Classes L P [c] [c']) : c'.name = c.name := by
  cases h with
  | cons => rfl

/-- Corresponding classes have corresponding methods. -/
theorem Classes.findMethod {c c' : Class} (h : Classes L P [c] [c']) (name : String) :
    Option.Rel (Methods L P) (c.findMethod name) (c'.findMethod name) := by
  have hfound := h.findInherited name
  unfold Lox.findInherited at hfound
  revert hfound
  cases c.findMethod name <;> cases c'.findMethod name <;> exact id

end Lookups

/-! ## Heaps -/

/-- Two heaps have the same frames, objects and arrays, with values that are alike. In a frame that
is marked, a variable may have the other name. -/
structure Heaps (L : Likeness) (F : FrameId → Bool) (P : FrameId → List Bool → Prop)
    (h h' : Heap) : Prop where
  /-- The frames. -/
  frames : Pointwise (fun k frame frame' => frame'.enclosing = frame.enclosing ∧
    Lookups L (F k) (Values L P) frame.bindings frame'.bindings) h.frames.items h'.frames.items
  /-- The objects. -/
  objects : Pointwise (fun _ object object' => Classes L P [object.cls] [object'.cls] ∧
    Lookups L false (Values L P) object.fields object'.fields) h.objects h'.objects
  /-- The arrays. -/
  arrays : Pointwise (fun _ (xs xs' : Array Value) =>
    List.Forall₂ (Values L P) xs.toList xs'.toList) h.arrays h'.arrays
  /-- The next identity. -/
  nextIdentity : h'.nextIdentity = h.nextIdentity

namespace Heaps

variable {L : Likeness} {F F' : FrameId → Bool} {P P' : FrameId → List Bool → Prop} {h h' : Heap}

/-- Heaps correspond under weaker marks. -/
theorem mono (hh : Heaps L F P h h') (hF : ∀ k < h.frames.size, F' k = F k)
    (hP : ∀ k ms, P k ms → P' k ms) : Heaps L F' P' h h' where
  frames := hh.frames.imp fun k _ _ hk hframe =>
    ⟨hframe.1, hF k hk ▸ hframe.2.imp fun _ _ hv => hv.mono hP⟩
  objects := hh.objects.imp fun _ _ _ _ ho =>
    ⟨ho.1.mono hP, ho.2.imp fun _ _ hv => hv.mono hP⟩
  arrays := hh.arrays.imp fun _ _ _ _ hxs => hxs.imp fun _ _ hv => hv.mono hP
  nextIdentity := hh.nextIdentity

/-- Corresponding heaps have as many frames. -/
theorem size_frames (hh : Heaps L F P h h') : h'.frames.size = h.frames.size :=
  hh.frames.size

/-- Corresponding frames are in the same frame. -/
theorem enclosing? (hh : Heaps L F P h h') (k : FrameId) :
    h'.frames.enclosing? k = h.frames.enclosing? k := by
  unfold Frames.enclosing?
  obtain ⟨hframe, hframe'⟩ | ⟨frame, frame', hframe, hframe', hrel⟩ :=
    rel_cases (hh.frames.getElem? k)
  · rw [hframe, hframe']
  · rw [hframe, hframe']
    exact hrel.1

/-- Frames at the same distance are the same. -/
theorem ancestor? (hh : Heaps L F P h h') (k : FrameId) (distance : Nat) :
    h'.frames.ancestor? k distance = h.frames.ancestor? k distance := by
  induction distance generalizing k with
  | zero => rfl
  | succ distance ih =>
    unfold Frames.ancestor?
    rw [hh.enclosing? k]
    simp only [ih]

variable {k : FrameId} {name name' : String}

/-- Corresponding names have values that are alike, or none. -/
theorem local? (hh : Heaps L F P h h') (hname : L.Name (F k) name name') :
    Option.Rel (Values L P) (h.frames.local? k name) (h'.frames.local? k name') := by
  unfold Frames.local?
  obtain ⟨hframe, hframe'⟩ | ⟨frame, frame', hframe, hframe', hrel⟩ :=
    rel_cases (hh.frames.getElem? k)
  · rw [hframe, hframe']
    exact .none
  · rw [hframe, hframe']
    exact hrel.2 hname

/-- A name is bound in a frame if its counterpart is. -/
theorem isSome_local? (hh : Heaps L F P h h') (hname : L.Name (F k) name name') :
    (h'.frames.local? k name').isSome = (h.frames.local? k name).isSome := by
  obtain ⟨hv, hv'⟩ | ⟨v, v', hv, hv', _⟩ := rel_cases (hh.local? hname)
  · rw [hv, hv']
  · rw [hv, hv']
    rfl

/-- The frame that holds a name at a distance is the same. -/
theorem holderAt? (hh : Heaps L F P h h') {distance : Nat}
    (hname : ∀ outer, h.frames.ancestor? k distance = some outer → L.Name (F outer) name name') :
    h'.frames.holderAt? k distance name' = h.frames.holderAt? k distance name := by
  unfold Frames.holderAt?
  rw [hh.ancestor? k distance]
  cases houter : h.frames.ancestor? k distance with
  | none => rfl
  | some outer =>
    have hbound := hh.isSome_local? (hname outer houter)
    simp only [Option.filter_some, hbound]

/-- Heaps stay alike when a frame is made. -/
theorem push (hh : Heaps L F P h h') {bindings bindings' : Bindings} {outer : FrameId}
    (hbindings : Lookups L (F h.frames.size) (Values L P) bindings bindings') :
    Heaps L F P { h with frames := h.frames.push ⟨bindings, some outer⟩ }
      { h' with frames := h'.frames.push ⟨bindings', some outer⟩ } :=
  { hh with frames := hh.frames.push ⟨rfl, hbindings⟩ }

/-- Heaps stay alike when a name is bound. -/
theorem define (hh : Heaps L F P h h') (hname : L.Name (F k) name name') {v v' : Value}
    (hv : Values L P v v') :
    Heaps L F P { h with frames := h.frames.define k name v }
      { h' with frames := h'.frames.define k name' v' } := by
  have hframes := hh.frames.modify k
    (f := fun frame => { frame with bindings := Bindings.insert name v frame.bindings })
    (g := fun frame => { frame with bindings := Bindings.insert name' v' frame.bindings })
    fun _ _ hframe => ⟨hframe.1, hframe.2.insert hname hv⟩
  exact { hh with frames := hframes }

/-- Heaps stay alike when an object is made. -/
theorem newObject (hh : Heaps L F P h h') {object object' : Object}
    (hcls : Classes L P [object.cls] [object'.cls])
    (hfields : Lookups L false (Values L P) object.fields object'.fields) :
    Heaps L F P { h with objects := h.objects.push object }
      { h' with objects := h'.objects.push object' } :=
  { hh with objects := hh.objects.push ⟨hcls, hfields⟩ }

/-- Heaps stay alike when a field is set. -/
theorem setField (hh : Heaps L F P h h') (id : ObjectId) (name : String) {v v' : Value}
    (hv : Values L P v v') :
    Heaps L F P
      { h with objects := h.objects.modify id fun object =>
        { object with fields := Bindings.insert name v object.fields } }
      { h' with objects := h'.objects.modify id fun object =>
        { object with fields := Bindings.insert name v' object.fields } } := by
  have hobjects := hh.objects.modify id
    (f := fun object => { object with fields := Bindings.insert name v object.fields })
    (g := fun object => { object with fields := Bindings.insert name v' object.fields })
    fun _ _ ho => ⟨ho.1, ho.2.insert rfl hv⟩
  exact { hh with objects := hobjects }

/-- Heaps stay alike when an array is made. -/
theorem newArray (hh : Heaps L F P h h') {vs vs' : List Value}
    (hvs : List.Forall₂ (Values L P) vs vs') :
    Heaps L F P { h with arrays := h.arrays.push vs.toArray }
      { h' with arrays := h'.arrays.push vs'.toArray } :=
  { hh with arrays := hh.arrays.push hvs }

/-- Setting one element of related lists. -/
theorem forall₂_set {V : Value → Value → Prop} {vs vs' : List Value} (h : List.Forall₂ V vs vs')
    (i : Nat) {v v' : Value} (hv : V v v') : List.Forall₂ V (vs.set i v) (vs'.set i v') := by
  induction h generalizing i with
  | nil => exact .nil
  | cons hhead htail ih =>
    cases i with
    | zero => exact .cons hv htail
    | succ i => exact .cons hhead (ih i)

/-- Heaps stay alike when an element is set. -/
theorem setElement (hh : Heaps L F P h h') (id : ArrayId) (index : Nat) {v v' : Value}
    (hv : Values L P v v') :
    Heaps L F P
      { h with arrays := h.arrays.modify id fun xs => xs.setIfInBounds index v }
      { h' with arrays := h'.arrays.modify id fun xs => xs.setIfInBounds index v' } := by
  have harrays := hh.arrays.modify id (f := fun xs => xs.setIfInBounds index v)
    (g := fun xs => xs.setIfInBounds index v') fun xs xs' hxs => by
      rw [Array.toList_setIfInBounds, Array.toList_setIfInBounds]
      exact forall₂_set hxs index hv
  exact { hh with arrays := harrays }

/-- Corresponding arrays have corresponding elements. -/
theorem elements (hh : Heaps L F P h h') (id : ArrayId) :
    List.Forall₂ (Values L P) (h.elements id).toList (h'.elements id).toList := by
  unfold Heap.elements
  rw [Array.getD_eq_getD_getElem?, Array.getD_eq_getD_getElem?]
  obtain ⟨hxs, hxs'⟩ | ⟨xs, xs', hxs, hxs', hrel⟩ := rel_cases (hh.arrays.getElem? id)
  · rw [hxs, hxs']
    exact .nil
  · rw [hxs, hxs']
    exact hrel

/-! ## Texts -/

/-- Corresponding values that hold no elements have the same text. -/
theorem simpleText (hh : Heaps L F P h h') {v v' : Value} (hv : Values L P v v') :
    h'.simpleText v' = h.simpleText v := by
  cases hv with
  | function hf =>
    obtain ⟨_, _, ms, _, hdecl⟩ := hf
    unfold Heap.simpleText
    dsimp only
    rw [hdecl.displayName]
  | «class» hc => exact hc.name
  | object id =>
    unfold Heap.simpleText
    dsimp only
    obtain ⟨ho, ho'⟩ | ⟨object, object', ho, ho', hcls, _⟩ :=
      rel_cases (hh.objects.getElem? id)
    · rw [ho, ho']
    · rw [ho, ho']
      dsimp only
      rw [hcls.name]
  | nil => rfl
  | boolean b => cases b <;> rfl
  | number x => rfl
  | string s => rfl
  | native f => rfl
  | array id => rfl

/-- Corresponding heaps look the same. -/
theorem looks (hh : Heaps L F P h h') : Heap.Looks (Values L P) h h' where
  simple _ _ hv := hh.simpleText hv
  array _ _ hv id := by cases hv <;> simp
  string _ _ hv s := by cases hv <;> simp
  elements := hh.elements
  size := hh.arrays.size

/-- Values that are alike have the same text. -/
theorem text (hh : Heaps L F P h h') {v v' : Value} (hv : Values L P v v') :
    h'.text v' = h.text v :=
  hh.looks.text hv

end Heaps

/-! ## Machines -/

/-- Two machines resemble each other, given the frames that are marked. -/
structure Resembles (L : Likeness) (F : FrameId → Bool) (m m' : Machine) : Prop where
  /-- The heaps do. -/
  heap : Heaps L F (Marked F m.heap.frames) m.heap m'.heap
  /-- The current frame is the same. -/
  current : m'.current = m.current
  /-- The global frame is the same. -/
  globals : m'.globals = m.globals
  /-- The first machine has the table of distances. -/
  distances : m.distances = L.table
  /-- The second one has it too, under other numbers. -/
  distances' : m'.distances = L.table'
  /-- The classes of written-out objects are alike. -/
  objectClass : Classes L (Marked F m.heap.frames) [m.objectClass] [m'.objectClass]
  /-- The output is the same, but for the flushes that the first machine is ahead. -/
  sink : m.sink = m'.sink.later L.flushes
  /-- The clock is the same. -/
  clock : m'.clock = m.clock
  /-- The global frame exists and is not marked. -/
  unmarked : Marked F m.heap.frames m.globals []
  /-- The global frame is an outermost one. -/
  outermost : m.heap.frames.enclosing? m.globals = none

/-- A machine has grown, and so have its marks: what was there before is as it was. -/
structure Grows (F : FrameId → Bool) (m : Machine) (F' : FrameId → Bool) (m' : Machine) : Prop
    extends m.Keeps m' where
  /-- A frame keeps its mark. -/
  marks : ∀ k < m.heap.frames.size, F' k = F k
  /-- The current frame is the same. -/
  current : m'.current = m.current
  /-- Flushes are answered as before. -/
  onFlush : m'.sink.onFlush = m.sink.onFlush

namespace Grows

variable {F F' F'' : FrameId → Bool} {m m' m'' : Machine}

/-- A machine whose frames are as before has grown. -/
theorem of_frames_eq (hframes : m'.heap.frames = m.heap.frames) (hglobals : m'.globals = m.globals)
    (hidentity : m.heap.nextIdentity ≤ m'.heap.nextIdentity) (hcurrent : m'.current = m.current)
    (hflush : m'.sink.onFlush = m.sink.onFlush) : Grows F m F m' :=
  ⟨.of_frames_eq hframes hglobals hidentity, fun _ _ => rfl, hcurrent, hflush⟩

/-- A machine grows from itself. -/
theorem refl (F : FrameId → Bool) (m : Machine) : Grows F m F m :=
  .of_frames_eq rfl rfl (Nat.le_refl _) rfl rfl

/-- Growth is transitive. -/
theorem trans (h : Grows F m F' m') (h' : Grows F' m' F'' m'') : Grows F m F'' m'' where
  toKeeps := h.toKeeps.trans h'.toKeeps
  marks k hk := (h'.marks k (Nat.lt_of_lt_of_le hk h.size)).trans (h.marks k hk)
  current := h'.current.trans h.current
  onFlush := h'.onFlush.trans h.onFlush

/-- A machine with one more frame has grown. -/
theorem push (frame : Frame) (hmarks : ∀ k < m.heap.frames.size, F' k = F k) :
    Grows F m F' { m with heap.frames := m.heap.frames.push frame } :=
  ⟨.push m frame, hmarks, rfl, rfl⟩

/-- A machine that binds a name has grown. -/
theorem define (k : FrameId) (name : String) (v : Value) :
    Grows F m F { m with heap.frames := m.heap.frames.define k name v } :=
  ⟨.define m k name v, fun _ _ => rfl, rfl, rfl⟩

/-- The chains are marked as before. -/
theorem marked (h : Grows F m F' m') {k : FrameId} {ms : List Bool}
    (hk : Marked F m.heap.frames k ms) : Marked F' m'.heap.frames k ms :=
  hk.mono h.size h.enclosing h.marks

/-- Values that are alike still are. -/
theorem values {L : Likeness} (h : Grows F m F' m') {v v' : Value}
    (hv : Values L (Marked F m.heap.frames) v v') : Values L (Marked F' m'.heap.frames) v v' :=
  hv.mono fun _ _ hk => h.marked hk

/-- Corresponding classes correspond later on. -/
theorem classes {L : Likeness} (h : Grows F m F' m') {cs cs' : List Class}
    (hcs : Classes L (Marked F m.heap.frames) cs cs') :
    Classes L (Marked F' m'.heap.frames) cs cs' :=
  hcs.mono fun _ _ hk => h.marked hk

/-- The frame in which a step runs may be left. -/
theorem leave {k : FrameId} (h : Grows F { m with current := k } F' m') :
    Grows F m F' { m' with current := m.current } :=
  ⟨⟨h.globals, h.size, h.enclosing, h.bound, h.identity⟩, h.marks, rfl, h.onFlush⟩

/-- The current frame has its marks later on. -/
theorem marked_current (h : Grows F m F' m') {ms : List Bool}
    (hms : Marked F m.heap.frames m.current ms) : Marked F' m'.heap.frames m'.current ms := by
  rw [h.current]
  exact h.marked hms

end Grows

end Eval

end Lox

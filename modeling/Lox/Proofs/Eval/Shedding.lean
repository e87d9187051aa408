import Lox.Proofs.Eval.ReadOnly
import Lox.Proofs.Eval.Resemblance
import Lox.Proofs.Scoping.Copies

/-!
# Machines without some frames

A machine may have frames that bind nothing and that another machine lacks. A `Trim` says which
frames are extra and where the others are placed in the other machine; an extra frame has the place
of the frame around it. A chain of frames matches the scopes around a piece, and without its extra
frames it matches the scopes around a copy of the piece (`Sheds`). So a name is found in
corresponding frames, though at another distance (`Sheds.ancestor`).

Two machines correspond if they have the same frames but for the extra ones, and the same objects
and arrays, with values that correspond (`Trims`). Functions correspond if one was made of a copy of
the other's declaration, in corresponding frames.
-/

namespace Lox.Eval

open Scoping

/-- Which frames of a machine another one lacks, and how distances are found in both. -/
structure Trim where
  /-- Whether a frame is extra. -/
  extra : FrameId → Bool
  /-- The place of a frame in the other machine. An extra frame has that of the frame around it. -/
  place : FrameId → FrameId
  /-- No two frames have one place but for the extra ones. -/
  injective : ∀ j k, extra j = false → extra k = false → place j = place k → j = k
  /-- Every place is that of a frame. -/
  surjective : ∀ k', ∃ k, extra k = false ∧ place k = k'
  /-- The global frame, which is not extra. -/
  globals : FrameId
  /-- The table of distances. -/
  table : Distances
  /-- The table of distances of the other machine. -/
  table' : Distances

/-- Two ways to leave out frames are the same for the first `n` frames. -/
structure Trim.Agrees (τ τ' : Trim) (n : Nat) : Prop where
  /-- The same ones are extra. -/
  extra : ∀ k < n, τ'.extra k = τ.extra k
  /-- The places are the same. -/
  place : ∀ k < n, τ'.place k = τ.place k
  /-- The global frame is the same. -/
  globals : τ'.globals = τ.globals
  /-- The table is the same. -/
  table : τ'.table = τ.table
  /-- The other table is the same. -/
  table' : τ'.table' = τ.table'

namespace Trim.Agrees

variable {τ τ' τ'' : Trim} {n n' : Nat}

/-- A trim agrees with itself. -/
theorem refl (τ : Trim) (n : Nat) : τ.Agrees τ n :=
  ⟨fun _ _ => rfl, fun _ _ => rfl, rfl, rfl, rfl⟩

/-- Trims agree transitively. -/
theorem trans (h : τ.Agrees τ' n) (h' : τ'.Agrees τ'' n') (hn : n ≤ n') : τ.Agrees τ'' n where
  extra k hk := (h'.extra k (Nat.lt_of_lt_of_le hk hn)).trans (h.extra k hk)
  place k hk := (h'.place k (Nat.lt_of_lt_of_le hk hn)).trans (h.place k hk)
  globals := h'.globals.trans h.globals
  table := h'.table.trans h.table
  table' := h'.table'.trans h.table'

end Trim.Agrees

/-- The chain of frames from a frame to the globals matches some scopes, and without its extra
frames it matches other ones. -/
inductive Sheds (τ : Trim) (fs : Frames) : FrameId → List Scope → List Scope → Prop
  | globals : Sheds τ fs τ.globals [] []
  | extra {k outer : FrameId} {scopes scopes' : List Scope} (hextra : τ.extra k = true)
      (houter : fs.enclosing? k = some outer) (h : Sheds τ fs outer scopes scopes') :
      Sheds τ fs k ([] :: scopes) scopes'
  | shared {k outer : FrameId} {scope : Scope} {scopes scopes' : List Scope}
      (hextra : τ.extra k = false) (houter : fs.enclosing? k = some outer)
      (h : Sheds τ fs outer scopes scopes') : Sheds τ fs k (scope :: scopes) (scope :: scopes')

namespace Sheds

variable {τ τ' : Trim} {fs gs : Frames} {k : FrameId} {scopes scopes' : List Scope}

/-- A frame with scopes exists. -/
theorem lt_size (h : Sheds τ fs k scopes scopes') (hglobals : τ.globals < fs.size) :
    k < fs.size := by
  cases h with
  | globals => exact hglobals
  | extra _ houter _ => exact Frames.lt_size_of_enclosing? _ houter
  | shared _ houter _ => exact Frames.lt_size_of_enclosing? _ houter

/-- A chain that matches still does when there are more frames. -/
theorem mono (h : Sheds τ fs k scopes scopes')
    (hlinks : ∀ k < fs.size, gs.enclosing? k = fs.enclosing? k) (hτ : τ.Agrees τ' fs.size) :
    Sheds τ' gs k scopes scopes' := by
  induction h with
  | globals => exact hτ.globals ▸ .globals
  | extra hk houter _ ih =>
    have hlt := Frames.lt_size_of_enclosing? _ houter
    exact .extra ((hτ.extra _ hlt).trans hk) ((hlinks _ hlt).trans houter) ih
  | shared hk houter _ ih =>
    have hlt := Frames.lt_size_of_enclosing? _ houter
    exact .shared ((hτ.extra _ hlt).trans hk) ((hlinks _ hlt).trans houter) ih

/-- Where the first frame is not extra, the innermost scopes may change in the same way. -/
theorem change {w w' w₁ w₁' : Walk} (h : Sheds τ fs k w.scopes w'.scopes)
    (hk : τ.extra k = false) (houter : w.SameOuter w₁) (houter' : w'.SameOuter w₁')
    (hhead : w'.scopes.head? = w.scopes.head? → w₁'.scopes.head? = w₁.scopes.head?) :
    Sheds τ fs k w₁.scopes w₁'.scopes := by
  obtain ⟨htail, hlength⟩ := houter
  obtain ⟨htail', hlength'⟩ := houter'
  generalize w.scopes = scopes at *
  generalize w'.scopes = scopes' at *
  cases h with
  | globals =>
    rw [List.length_eq_zero_iff.mp hlength, List.length_eq_zero_iff.mp hlength']
    exact .globals
  | extra hextra => simp [hk] at hextra
  | shared hextra houter h =>
    obtain ⟨scope, rest, hw⟩ := List.exists_cons_of_length_eq_add_one hlength
    obtain ⟨scope', rest', hw'⟩ := List.exists_cons_of_length_eq_add_one hlength'
    rw [hw, hw'] at hhead
    obtain rfl : scope' = scope := Option.some.inj (hhead rfl)
    rw [hw] at htail ⊢
    rw [hw'] at htail' ⊢
    obtain rfl : rest = _ := htail
    obtain rfl : rest' = _ := htail'
    exact .shared hextra houter h

section Names

variable {w w' : Walk} (h : Sheds τ fs k w.scopes w'.scopes) (hk : τ.extra k = false)

include h hk

/-- Scopes still shed the extra ones when a name is declared. -/
theorem declare (t : Token) : Sheds τ fs k (w.declare t).scopes (w'.declare t).scopes :=
  h.change hk (Walk.sameOuter_declare w t) (Walk.sameOuter_declare w' t) fun hhead => by
    rw [Walk.head?_declare, Walk.head?_declare, hhead]

/-- Scopes still shed the extra ones when a name is defined. -/
theorem define (t : Token) : Sheds τ fs k (w.define t).scopes (w'.define t).scopes :=
  h.change hk (Walk.sameOuter_define w t) (Walk.sameOuter_define w' t) fun hhead => by
    rw [Walk.head?_define, Walk.head?_define, hhead]

/-- Scopes still shed the extra ones when parameters are declared. -/
theorem parameters (params : List Token) :
    Sheds τ fs k (w.parameters params).scopes (w'.parameters params).scopes :=
  h.change hk (Walk.sameOuter_parameters w params) (Walk.sameOuter_parameters w' params)
    fun hhead => Walk.head?_parameters hhead params

end Names

/-- Where the first scopes with two properties are neighbours, they are neighbours without the extra
frames too, if a scope that declares nothing has neither. -/
theorem neighbours (h : Sheds τ fs k scopes scopes') {p q : Scope → Bool} (hp : p [] = false)
    (hq : q [] = false) {i : Nat} (hi : scopes.findIdx? p = some i)
    (hj : scopes.findIdx? q = some (i + 1)) :
    ∃ i', scopes'.findIdx? p = some i' ∧ scopes'.findIdx? q = some (i' + 1) := by
  induction h generalizing i with
  | globals => simp at hi
  | extra _ _ _ ih =>
    rw [List.findIdx?_cons, hp, if_neg Bool.false_ne_true, Option.map_eq_some_iff] at hi
    rw [List.findIdx?_cons, hq, if_neg Bool.false_ne_true, Option.map_eq_some_iff] at hj
    obtain ⟨i, hi, rfl⟩ := hi
    obtain ⟨j, hj, heq⟩ := hj
    exact ih hi (Nat.succ.inj heq ▸ hj)
  | @shared k outer scope scopes scopes' _ _ h ih =>
    rw [List.findIdx?_cons] at hi hj ⊢
    rw [List.findIdx?_cons]
    have hnot : q scope = false := by
      cases hscope : q scope with
      | false => rfl
      | true => simp [hscope] at hj
    rw [hnot, if_neg Bool.false_ne_true, Option.map_eq_some_iff] at hj
    obtain ⟨j, hj, heq⟩ := hj
    obtain rfl := Nat.succ.inj heq
    rw [hnot, if_neg Bool.false_ne_true]
    by_cases hscope : p scope
    · rw [if_pos hscope] at hi ⊢
      obtain rfl := Option.some.inj hi
      -- The next scope declares something, so it is not that of an extra frame.
      cases h with
      | globals => simp at hj
      | extra => simp [List.findIdx?_cons, hq] at hj
      | @shared _ _ next rest rest' =>
        have hnext : q next = true := by
          cases hnext : q next with
          | true => rfl
          | false => simp [List.findIdx?_cons, hnext] at hj
        exact ⟨0, rfl, by simp [List.findIdx?_cons, hnext]⟩
    · rw [if_neg hscope, Option.map_eq_some_iff] at hi
      obtain ⟨i, hi, rfl⟩ := hi
      obtain ⟨i', hi', hj'⟩ := ih hi hj
      exact ⟨i' + 1, by simp [hscope, hi'], by simp [hj']⟩

end Sheds

/-! ## Values -/

/-- The same names are bound, to related values. -/
def Bound {α β : Type} (V : α → β → Prop) (b : List (String × α)) (b' : List (String × β)) : Prop :=
  ∀ name, Option.Rel V (b.lookup name) (b'.lookup name)

namespace Bound

variable {α β : Type} {V W : α → β → Prop} {b : List (String × α)} {b' : List (String × β)}

/-- The relation of the values may be weakened. -/
theorem imp (h : Bound V b b') (hVW : ∀ v v', V v v' → W v v') : Bound W b b' := by
  intro name
  obtain ⟨hv, hv'⟩ | ⟨v, v', hv, hv', hrel⟩ := rel_cases (h name)
  · rw [hv, hv']
    exact .none
  · rw [hv, hv']
    exact .some (hVW v v' hrel)

/-- Lists of the same names in the same order. -/
theorem of_forall₂ (h : List.Forall₂ (fun x x' => x'.1 = x.1 ∧ V x.2 x'.2) b b') :
    Bound V b b' := by
  intro name
  induction h with
  | nil => exact .none
  | @cons x x' b b' hx _ ih =>
    obtain ⟨other, v⟩ := x
    obtain ⟨other', v'⟩ := x'
    obtain ⟨rfl, hv⟩ : other' = other ∧ V v v' := hx
    rw [List.lookup_cons, List.lookup_cons]
    split
    · exact .some hv
    · exact ih

/-- Nothing is bound on both sides. -/
theorem nil : Bound V [] [] :=
  .of_forall₂ .nil

/-- One name is bound to related values. -/
theorem single (name : String) {v : α} {v' : β} (hv : V v v') :
    Bound V [(name, v)] [(name, v')] :=
  .of_forall₂ (.cons ⟨rfl, hv⟩ .nil)

/-- What is looked up in one list is related to itself. -/
theorem refl {V : α → α → Prop} (h : ∀ name v, b.lookup name = some v → V v v) : Bound V b b := by
  intro name
  cases hv : b.lookup name with
  | none => exact .none
  | some v => exact .some (h name v hv)

/-- A name is bound to related values. -/
theorem insert {V : Value → Value → Prop} {b b' : Bindings} (h : Bound V b b') (name : String)
    {v v' : Value} (hv : V v v') : Bound V (b.insert name v) (b'.insert name v') := by
  intro other
  rw [Bindings.lookup_insert, Bindings.lookup_insert]
  split
  · exact .some hv
  · exact h other

end Bound

namespace Trim

/-- Two functions correspond: one was made of a copy of the other's declaration, in the frame that
corresponds to the other's. The scopes around the declarations are those of the frames and, within
them, the scopes `inner`. -/
structure Functions (τ : Trim) (fs : Frames) (inner : List Scope) (f f' : Function) : Prop where
  /-- The frames correspond. -/
  frame : f'.frame = τ.place f.frame
  /-- Both are initializers or neither is. -/
  isInitializer : f'.isInitializer = f.isInitializer
  /-- An initializer that can be called has the frame of its receiver, which is not extra. -/
  receiver : inner = [] → f.isInitializer = true → τ.extra f.frame = false
  /-- One declaration is a copy of the other. -/
  decl : ∃ v v' scopes scopes', Visit.Paired τ.table τ.table' v v' ∧
    v.piece = .function f.decl ∧ v'.piece = .function f'.decl ∧
    v.walk.scopes = inner ++ scopes ∧ v'.walk.scopes = inner ++ scopes' ∧
    Sheds τ fs f.frame scopes scopes'

/-- A relation between functions whose frames lack the given scopes. -/
abbrev Match := List Scope → Function → Function → Prop

/-- Two methods correspond. Around them there is a scope that holds the receiver. -/
abbrev Match.Methods (R : Match) : Function → Function → Prop :=
  R [[("this", true)]]

/-- Two lists of classes with the same identities and names, whose methods and superclasses
correspond. -/
inductive Classes (R : Match) : List Class → List Class → Prop
  | nil : Classes R [] []
  | cons {id : Nat} {name : String} {supers supers' cs cs' : List Class}
      {methods methods' : List (String × Function)} (hsupers : Classes R supers supers')
      (hmethods : Bound R.Methods methods methods') (hcs : Classes R cs cs') :
      Classes R (⟨id, name, supers, methods⟩ :: cs) (⟨id, name, supers', methods'⟩ :: cs')

/-- Two values that correspond. -/
inductive Values (R : Match) : Value → Value → Prop
  | nil : Values R .nil .nil
  | boolean (b : Bool) : Values R (.boolean b) (.boolean b)
  | number (x : Float) : Values R (.number x) (.number x)
  | string (s : String) : Values R (.string s) (.string s)
  | function {id : Nat} {f f' : Function} (h : R [] f f') :
    Values R (.function id f) (.function id f')
  | native (f : Native) : Values R (.native f) (.native f)
  | class {c c' : Class} (h : Classes R [c] [c']) : Values R (.class c) (.class c')
  | object (id : ObjectId) : Values R (.object id) (.object id)
  | array (id : ArrayId) : Values R (.array id) (.array id)

section Match

variable {R R' : Match} (hR : ∀ inner f f', R inner f f' → R' inner f f')

include hR

/-- Classes correspond under a weaker match. -/
theorem Classes.mono {cs cs' : List Class} (h : Classes R cs cs') : Classes R' cs cs' := by
  induction h with
  | nil => exact .nil
  | cons _ hmethods _ ihsupers ihcs => exact .cons ihsupers (hmethods.imp fun _ _ => hR _ _ _) ihcs

/-- Values correspond under a weaker match. -/
theorem Values.mono {v v' : Value} (h : Values R v v') : Values R' v v' := by
  cases h with
  | function h => exact .function (hR _ _ _ h)
  | «class» h => exact .class (h.mono hR)
  | nil => exact .nil
  | boolean b => exact .boolean b
  | number x => exact .number x
  | string s => exact .string s
  | native f => exact .native f
  | object id => exact .object id
  | array id => exact .array id

end Match

section Classes

variable {R : Match} {c c' : Class}

/-- In classes that correspond, methods of one name do. -/
theorem Classes.findInherited {cs cs' : List Class} (h : Classes R cs cs') (name : String) :
    Option.Rel R.Methods (findInherited name cs) (findInherited name cs') := by
  induction h with
  | nil => exact .none
  | cons _ hmethods _ ihsupers ihcs =>
    -- The class's own method comes first, then the superclasses', then the other classes'.
    unfold Lox.findInherited Class.findMethod
    obtain ⟨hown, hown'⟩ | ⟨f, f', hown, hown', hf⟩ := rel_cases (hmethods name)
    · rw [hown, hown']
      obtain ⟨hfound, hfound'⟩ | ⟨f, f', hfound, hfound', hf⟩ := rel_cases ihsupers
      · rw [hfound, hfound']
        exact ihcs
      · rw [hfound, hfound']
        exact .some hf
    · rw [hown, hown']
      exact .some hf

/-- Corresponding classes have corresponding methods. -/
theorem Classes.findMethod (h : Classes R [c] [c']) (name : String) :
    Option.Rel R.Methods (c.findMethod name) (c'.findMethod name) := by
  have hfound := h.findInherited name
  unfold Lox.findInherited at hfound
  revert hfound
  cases c.findMethod name <;> cases c'.findMethod name <;> exact id

/-- Corresponding classes have the same name. -/
theorem Classes.name (h : Classes R [c] [c']) : c'.name = c.name := by
  cases h with
  | cons => rfl

end Classes

/-! ## What is seen of a value -/

namespace Values

variable {R : Match} {v v' : Value}

/-- Operators cannot tell values apart that correspond. -/
theorem similar (h : Values R v v') : v.Similar v' := by
  cases h with
  | function => exact .function ..
  | «class» hc =>
    cases hc with
    | cons => exact .class rfl
  | _ => exact .refl _

/-- A plain value corresponds to itself. -/
theorem of_isPlain (h : v.IsPlain) : Values R v v := by
  cases v with
  | nil => exact .nil
  | boolean b => exact .boolean b
  | number x => exact .number x
  | string s => exact .string s
  | _ => exact h.elim

end Values

namespace Functions

variable {τ τ' : Trim} {fs gs : Frames} {inner : List Scope} {f f' : Function}

/-- A declaration and its copy differ in the numbers of references only. -/
theorem recast (h : Functions τ fs inner f f') :
    ∃ shift ms, f'.decl = f.decl.recast (.moved id shift) ms := by
  obtain ⟨v, v', _, _, hpaired, hpiece, hpiece', _⟩ := h.decl
  obtain ⟨shift, hcopies⟩ := hpaired.copies
  obtain @⟨ctx, piece, w, w', around, around', ms⟩ := hcopies
  obtain rfl : piece = .function f.decl := hpiece
  exact ⟨shift, ms, (Piece.function.inj hpiece').symm⟩

/-- Corresponding functions have the same name. -/
theorem displayName (h : Functions τ fs inner f f') : f'.decl.displayName = f.decl.displayName := by
  obtain ⟨shift, ms, heq⟩ := h.recast
  obtain ⟨⟨name, keyword, params, body⟩, frame, isInitializer⟩ := f
  rw [heq]
  cases name <;> rfl

/-- Corresponding functions take as many arguments. -/
theorem arity (h : Functions τ fs inner f f') : f'.decl.arity = f.decl.arity := by
  obtain ⟨shift, ms, heq⟩ := h.recast
  obtain ⟨⟨name, keyword, params, body⟩, frame, isInitializer⟩ := f
  rw [heq]
  exact List.length_map _

/-- Functions that correspond still do when there are more frames, if those that were there are
placed as before. -/
theorem mono (h : Functions τ fs inner f f')
    (hlinks : ∀ k < fs.size, gs.enclosing? k = fs.enclosing? k) (hlt : τ.globals < fs.size)
    (hτ : τ.Agrees τ' fs.size) : Functions τ' gs inner f f' := by
  obtain ⟨v, v', scopes, scopes', hpaired, hpiece, hpiece', hv, hv', hsheds⟩ := h.decl
  have hlt := hsheds.lt_size hlt
  refine ⟨h.frame.trans (hτ.place _ hlt).symm, h.isInitializer, fun hinner hinit => ?_, ?_⟩
  · rw [hτ.extra _ hlt]
    exact h.receiver hinner hinit
  · rw [hτ.table, hτ.table']
    exact ⟨v, v', scopes, scopes', hpaired, hpiece, hpiece', hv, hv', hsheds.mono hlinks hτ⟩

end Functions

/-- Making objects of classes that correspond takes as many arguments. -/
theorem Classes.arity {τ : Trim} {fs : Frames} {c c' : Class}
    (h : Classes (Functions τ fs) [c] [c']) : c'.arity = c.arity := by
  unfold Class.arity
  obtain ⟨hfound, hfound'⟩ | ⟨f, f', hfound, hfound', hf⟩ := rel_cases (h.findMethod "init")
  · rw [hfound, hfound']
  · rw [hfound, hfound']
    exact hf.arity

/-! ## Frames -/

/-- The frames of one machine are those of the other but for the extra ones, which bind nothing.
Frames that are yet to be made are not extra, and they will follow each other in both. -/
structure Placed (τ : Trim) (V : Value → Value → Prop) (fs fs' : Frames) : Prop where
  /-- A frame that is not extra is in its place, within the corresponding frame. -/
  shared : ∀ k frame, τ.extra k = false → fs.items[k]? = some frame →
    ∃ frame', fs'.items[τ.place k]? = some frame' ∧
      frame'.enclosing = frame.enclosing.map τ.place ∧ Bound V frame.bindings frame'.bindings
  /-- An extra frame binds nothing and has the place of the frame around it. -/
  extra : ∀ k < fs.size, τ.extra k = true →
    ∃ outer, fs.items[k]? = some ⟨[], some outer⟩ ∧ τ.place k = τ.place outer
  /-- Frames that are yet to be made will follow each other. -/
  next : ∀ i, τ.extra (fs.size + i) = false ∧ τ.place (fs.size + i) = fs'.size + i
  /-- A frame is within one that exists. -/
  links : ∀ k outer, fs.enclosing? k = some outer → outer < fs.size

namespace Placed

variable {τ : Trim} {V W : Value → Value → Prop} {fs fs' : Frames} {k : FrameId}

/-- The relation of the values may be weakened. -/
theorem imp (h : Placed τ V fs fs') (hVW : ∀ v v', V v v' → W v v') : Placed τ W fs fs' :=
  { h with
    shared := fun k frame hextra hframe => by
      obtain ⟨frame', hframe', henclosing, hbindings⟩ := h.shared k frame hextra hframe
      exact ⟨frame', hframe', henclosing, hbindings.imp hVW⟩ }

/-- The next frame will be placed next. -/
theorem next_place (h : Placed τ V fs fs') :
    τ.extra fs.size = false ∧ τ.place fs.size = fs'.size :=
  h.next 0

/-- A frame that does not exist has a place where there is none. -/
theorem missing (h : Placed τ V fs fs') (hk : fs.items[k]? = none) :
    fs'.items[τ.place k]? = none := by
  obtain ⟨i, rfl⟩ := Nat.exists_eq_add_of_le (Array.getElem?_eq_none_iff.mp hk)
  rw [show fs.items.size = fs.size from rfl, (h.next i).2]
  exact Array.getElem?_eq_none (Nat.le_add_right _ _)

/-- The frame around a frame that is not extra corresponds. -/
theorem enclosing? (h : Placed τ V fs fs') (hk : τ.extra k = false) :
    fs'.enclosing? (τ.place k) = (fs.enclosing? k).map τ.place := by
  unfold Frames.enclosing?
  cases hframe : fs.items[k]? with
  | none => rw [h.missing hframe]; rfl
  | some frame =>
    obtain ⟨frame', hframe', henclosing, _⟩ := h.shared k frame hk hframe
    rw [hframe']
    exact henclosing

/-- An extra frame has the place of the frame around it. -/
theorem place_extra (h : Placed τ V fs fs') (hk : τ.extra k = true) {outer : FrameId}
    (houter : fs.enclosing? k = some outer) : τ.place k = τ.place outer := by
  obtain ⟨outer', hframe, hplace⟩ := h.extra k (Frames.lt_size_of_enclosing? _ houter) hk
  rw [Frames.enclosing?, hframe] at houter
  rw [hplace, Option.some.inj houter]

/-- Names are bound to related values, or in neither of two corresponding frames. -/
theorem local? (h : Placed τ V fs fs') (hk : τ.extra k = false) (name : String) :
    Option.Rel V (fs.local? k name) (fs'.local? (τ.place k) name) := by
  unfold Frames.local?
  cases hframe : fs.items[k]? with
  | none => rw [h.missing hframe]; exact .none
  | some frame =>
    obtain ⟨frame', hframe', _, hbindings⟩ := h.shared k frame hk hframe
    rw [hframe']
    exact hbindings name

/-- A name is bound in the place of a frame if it is in the frame. -/
theorem isSome_local? (h : Placed τ V fs fs') (hk : τ.extra k = false) (name : String) :
    (fs'.local? (τ.place k) name).isSome = (fs.local? k name).isSome := by
  obtain ⟨hv, hv'⟩ | ⟨v, v', hv, hv', _⟩ := rel_cases (h.local? hk name)
  · rw [hv, hv']
  · rw [hv, hv']
    rfl

/-- A new frame in both. -/
theorem push (h : Placed τ V fs fs') {bindings bindings' : Bindings}
    (hbindings : Bound V bindings bindings') {outer : FrameId} (houter : outer < fs.size) :
    Placed τ V (fs.push ⟨bindings, some outer⟩) (fs'.push ⟨bindings', some (τ.place outer)⟩) := by
  refine ⟨fun k frame hextra hframe => ?_, fun k hk hextra => ?_, fun i => ?_,
    fun k outer' houter' => ?_⟩
  · rw [Frames.getElem?_items_push] at hframe ⊢
    by_cases hlast : k = fs.size
    · rw [if_pos hlast] at hframe
      obtain rfl := Option.some.inj hframe
      rw [hlast, h.next_place.2, if_pos rfl]
      exact ⟨_, rfl, rfl, hbindings⟩
    · rw [if_neg hlast] at hframe
      obtain ⟨frame', hframe', hrest⟩ := h.shared k frame hextra hframe
      have hlt : τ.place k < fs'.size := (Array.getElem?_eq_some_iff.mp hframe').1
      rw [if_neg (Nat.ne_of_lt hlt)]
      exact ⟨frame', hframe', hrest⟩
  · have hne : k ≠ fs.size := by
      rintro rfl
      rw [h.next_place.1] at hextra
      contradiction
    rw [Frames.size_push] at hk
    rw [Frames.getElem?_items_push, if_neg hne]
    exact h.extra k (by omega) hextra
  · have hnext := h.next (i + 1)
    rw [Frames.size_push, Frames.size_push]
    rwa [Nat.add_comm i 1, ← Nat.add_assoc, ← Nat.add_assoc] at hnext
  · rw [Frames.enclosing?_push] at houter'
    rw [Frames.size_push]
    split at houter'
    · obtain rfl := Option.some.inj houter'
      exact Nat.lt_succ_of_lt houter
    · exact Nat.lt_succ_of_lt (h.links k outer' houter')

/-- A name is bound in two corresponding frames. -/
theorem define (h : Placed τ V fs fs') (hk : τ.extra k = false) (name : String) {v v' : Value}
    (hv : V v v') :
    Placed τ V (fs.define k name v) (fs'.define (τ.place k) name v') := by
  refine ⟨fun j frame hextra hframe => ?_, fun j hj hextra => ?_, fun i => ?_,
    fun j outer houter => ?_⟩
  · rw [Frames.getElem?_items_define] at hframe ⊢
    by_cases hjk : j = k
    · subst hjk
      rw [if_pos rfl] at hframe ⊢
      obtain ⟨before, hbefore, rfl⟩ := Option.map_eq_some_iff.mp hframe
      obtain ⟨before', hbefore', henclosing, hbindings⟩ := h.shared j before hextra hbefore
      rw [hbefore']
      exact ⟨_, rfl, henclosing, hbindings.insert name hv⟩
    · rw [if_neg hjk] at hframe
      rw [if_neg fun heq => hjk (τ.injective j k hextra hk heq)]
      exact h.shared j frame hextra hframe
  · have hne : j ≠ k := by
      rintro rfl
      rw [hk] at hextra
      contradiction
    rw [Frames.size_define] at hj
    rw [Frames.getElem?_items_define, if_neg hne]
    exact h.extra j hj hextra
  · rw [Frames.size_define, Frames.size_define]
    exact h.next i
  · rw [Frames.enclosing?_define] at houter
    rw [Frames.size_define]
    exact h.links j outer houter

end Placed

end Trim

/-- A name is found in corresponding frames: where a walk finds it in some scope, the frame of that
scope is not extra, and the walk within fewer scopes finds it in the corresponding frame. -/
theorem Sheds.ancestor {τ : Trim} {V : Value → Value → Prop} {fs fs' : Frames}
    {k : FrameId} {scopes scopes' : List Scope} (h : Sheds τ fs k scopes scopes')
    (hfs : τ.Placed V fs fs') {p : Scope → Bool} (hp : p [] = false) :
    Option.Rel (fun distance distance' => ∃ j, fs.ancestor? k distance = some j ∧
      τ.extra j = false ∧ fs'.ancestor? (τ.place k) distance' = some (τ.place j))
      (scopes.findIdx? p) (scopes'.findIdx? p) := by
  induction h with
  | globals => exact .none
  | extra hextra houter _ ih =>
    rw [List.findIdx?_cons, hp, if_neg Bool.false_ne_true, hfs.place_extra hextra houter]
    obtain ⟨hnone, hnone'⟩ | ⟨i, i', hi, hi', j, hj⟩ := rel_cases ih
    · rw [hnone, hnone']
      exact .none
    · rw [hi, hi']
      exact .some ⟨j, (ancestor?_succ houter i).trans hj.1, hj.2⟩
  | @shared k outer scope scopes scopes' hextra houter _ ih =>
    have houter' : fs'.enclosing? (τ.place k) = some (τ.place outer) := by
      rw [hfs.enclosing? hextra, houter]
      rfl
    rw [List.findIdx?_cons, List.findIdx?_cons]
    split
    · exact .some ⟨k, rfl, hextra, rfl⟩
    · obtain ⟨hnone, hnone'⟩ | ⟨i, i', hi, hi', j, hj⟩ := rel_cases ih
      · rw [hnone, hnone']
        exact .none
      · rw [hi, hi']
        exact .some ⟨j, (ancestor?_succ houter i).trans hj.1, hj.2.1,
          (ancestor?_succ houter' i').trans hj.2.2⟩

namespace Trim

/-! ## Heaps and machines -/

/-- Two heaps have the same frames but for the extra ones, and the same objects and arrays, with
values that correspond. -/
structure Heaps (τ : Trim) (R : Match) (h h' : Heap) : Prop where
  /-- The frames. -/
  frames : Placed τ (Values R) h.frames h'.frames
  /-- The objects. -/
  objects : Pointwise (fun _ object object' => Classes R [object.cls] [object'.cls] ∧
    Bound (Values R) object.fields object'.fields) h.objects h'.objects
  /-- The arrays. -/
  arrays : Pointwise (fun _ (xs xs' : Array Value) =>
    List.Forall₂ (Values R) xs.toList xs'.toList) h.arrays h'.arrays
  /-- The next identity. -/
  nextIdentity : h'.nextIdentity = h.nextIdentity

namespace Heaps

variable {τ : Trim} {R R' : Match} {h h' : Heap}

/-- Heaps correspond under a weaker match. -/
theorem mono (hh : Heaps τ R h h') (hR : ∀ inner f f', R inner f f' → R' inner f f') :
    Heaps τ R' h h' where
  frames := hh.frames.imp fun _ _ => Values.mono hR
  objects := hh.objects.imp fun _ _ _ _ ho => ⟨ho.1.mono hR, ho.2.imp fun _ _ => Values.mono hR⟩
  arrays := hh.arrays.imp fun _ _ _ _ hxs => hxs.imp fun _ _ => Values.mono hR
  nextIdentity := hh.nextIdentity

/-- Heaps stay alike when their frames are put in place. -/
theorem setFrames (hh : Heaps τ R h h') {fs fs' : Frames} (hfs : Placed τ (Values R) fs fs') :
    Heaps τ R { h with frames := fs } { h' with frames := fs' } :=
  { hh with frames := hfs }

/-- Heaps stay alike when an object is made. -/
theorem newObject (hh : Heaps τ R h h') {object object' : Object}
    (hcls : Classes R [object.cls] [object'.cls])
    (hfields : Bound (Values R) object.fields object'.fields) :
    Heaps τ R { h with objects := h.objects.push object }
      { h' with objects := h'.objects.push object' } :=
  { hh with objects := hh.objects.push ⟨hcls, hfields⟩ }

/-- Heaps stay alike when a field is set. -/
theorem setField (hh : Heaps τ R h h') (id : ObjectId) (name : String) {v v' : Value}
    (hv : Values R v v') :
    Heaps τ R
      { h with objects := h.objects.modify id fun object =>
        { object with fields := Bindings.insert name v object.fields } }
      { h' with objects := h'.objects.modify id fun object =>
        { object with fields := Bindings.insert name v' object.fields } } := by
  have hobjects := hh.objects.modify id
    (f := fun object => { object with fields := Bindings.insert name v object.fields })
    (g := fun object => { object with fields := Bindings.insert name v' object.fields })
    fun _ _ ho => ⟨ho.1, ho.2.insert name hv⟩
  exact { hh with objects := hobjects }

/-- Heaps stay alike when an array is made. -/
theorem newArray (hh : Heaps τ R h h') {vs vs' : List Value}
    (hvs : List.Forall₂ (Values R) vs vs') :
    Heaps τ R { h with arrays := h.arrays.push vs.toArray }
      { h' with arrays := h'.arrays.push vs'.toArray } :=
  { hh with arrays := hh.arrays.push hvs }

/-- Heaps stay alike when an element is set. -/
theorem setElement (hh : Heaps τ R h h') (id : ArrayId) (index : Nat) {v v' : Value}
    (hv : Values R v v') :
    Heaps τ R
      { h with arrays := h.arrays.modify id fun xs => xs.setIfInBounds index v }
      { h' with arrays := h'.arrays.modify id fun xs => xs.setIfInBounds index v' } := by
  have harrays := hh.arrays.modify id (f := fun xs => xs.setIfInBounds index v)
    (g := fun xs => xs.setIfInBounds index v') fun xs xs' hxs => by
      rw [Array.toList_setIfInBounds, Array.toList_setIfInBounds]
      exact Eval.Heaps.forall₂_set hxs index hv
  exact { hh with arrays := harrays }

/-- Corresponding arrays have corresponding elements. -/
theorem elements (hh : Heaps τ R h h') (id : ArrayId) :
    List.Forall₂ (Values R) (h.elements id).toList (h'.elements id).toList := by
  unfold Heap.elements
  rw [Array.getD_eq_getD_getElem?, Array.getD_eq_getD_getElem?]
  obtain ⟨hxs, hxs'⟩ | ⟨xs, xs', hxs, hxs', hrel⟩ := rel_cases (hh.arrays.getElem? id)
  · rw [hxs, hxs']
    exact .nil
  · rw [hxs, hxs']
    exact hrel

/-- Heaps that correspond hold values that do. -/
theorem mirrors (hh : Heaps τ R h h') : h.Mirrors (Values R) h' where
  elements := hh.elements
  fields id name := by
    obtain ⟨ho, ho'⟩ | ⟨o, o', ho, ho', _, hfields⟩ := rel_cases (hh.objects.getElem? id)
    · rw [ho, ho']
      exact .none
    · rw [ho, ho']
      exact hfields name

/-- Values that correspond have the same text. -/
theorem text {fs : Frames} (hh : Heaps τ (Functions τ fs) h h') {v v' : Value}
    (hv : Values (Functions τ fs) v v') : h'.text v' = h.text v := by
  have hsimple {v v' : Value} (hv : Values (Functions τ fs) v v') :
      h'.simpleText v' = h.simpleText v := by
    cases hv with
    | function hf => simp only [Heap.simpleText, hf.displayName]
    | «class» hc => exact hc.name
    | object id =>
      unfold Heap.simpleText
      obtain ⟨ho, ho'⟩ | ⟨object, object', ho, ho', hcls, _⟩ := rel_cases (hh.objects.getElem? id)
      · simp only [ho, ho']
      · simp only [ho, ho', hcls.name]
    | boolean b => cases b <;> rfl
    | _ => rfl
  exact Heap.Looks.text
    { simple := fun _ _ => hsimple
      array := fun _ _ hv id => by cases hv <;> simp
      string := fun _ _ hv s => by cases hv <;> simp
      elements := hh.elements
      size := hh.arrays.size } hv

end Heaps

end Trim

/-- The machine `m'` is `m` without its extra frames. -/
structure Trims (τ : Trim) (m m' : Machine) : Prop where
  /-- The heaps correspond. -/
  heap : τ.Heaps (τ.Functions m.heap.frames) m.heap m'.heap
  /-- The current frames correspond. -/
  current : m'.current = τ.place m.current
  /-- The global frame is the outermost one. -/
  globals : m.globals = τ.globals
  /-- The global frames correspond. -/
  globals' : m'.globals = τ.place τ.globals
  /-- The machine has its table of distances. -/
  distances : m.distances = τ.table
  /-- The other machine has its own. -/
  distances' : m'.distances = τ.table'
  /-- The classes of written-out objects correspond. -/
  objectClass : Trim.Classes (τ.Functions m.heap.frames) [m.objectClass] [m'.objectClass]
  /-- The output is the same. -/
  sink : m'.sink = m.sink
  /-- The clock is the same. -/
  clock : m'.clock = m.clock
  /-- The global frame exists. -/
  globals_lt : τ.globals < m.heap.frames.size
  /-- The global frame is not extra. -/
  globals_shared : τ.extra τ.globals = false
  /-- Nothing is around the global frame. -/
  outermost : m.heap.frames.enclosing? τ.globals = none

namespace Trims

variable {τ : Trim} {m m' n : Machine}

/-- What corresponds still does when the machine has grown. -/
theorem mono (h : Trims τ m m') (hm : m.Keeps n) {inner : List Scope} {f f' : Function}
    (hf : τ.Functions m.heap.frames inner f f') : τ.Functions n.heap.frames inner f f' :=
  hf.mono hm.enclosing h.globals_lt (.refl τ _)

/-- Machines still correspond when their heaps have changed alike. -/
theorem setHeap (h : Trims τ m m') {g g' : Heap} (hgrows : m.Keeps { m with heap := g })
    (hheap : τ.Heaps (τ.Functions m.heap.frames) g g') :
    Trims τ { m with heap := g } { m' with heap := g' } :=
  { h with
    heap := hheap.mono fun _ _ _ => h.mono hgrows
    objectClass := h.objectClass.mono fun _ _ _ => h.mono hgrows
    globals_lt := Nat.lt_of_lt_of_le h.globals_lt hgrows.size
    outermost := (hgrows.enclosing _ h.globals_lt).trans h.outermost }

/-- Machines still correspond with other current frames that correspond. -/
theorem moveTo (h : Trims τ m m') (k : FrameId) :
    Trims τ { m with current := k } { m' with current := τ.place k } :=
  { h with current := rfl }

end Trims

end Lox.Eval

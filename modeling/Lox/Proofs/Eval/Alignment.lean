import Lox.Machine
import Lox.Proofs.Heap.Contents
import Lox.Proofs.Scoping.Recording
import Lox.Proofs.Value.Lineage

/-!
# Frames and scopes

When a piece of a program runs, the chain of frames from the current one to the globals matches the
scopes that were open when scoping visited the piece: there are as many frames as scopes, each frame
was made for the construct that opened its scope, and it binds the names that have their initial
value in the scope. `Aligned` says so. It refers to a record of which frame was made for which
construct, and it stays true while the machine grows (`Machine.Keeps`).

A function value carries the frame in which it was made. It is sound if that frame is aligned with
the scopes of some visit of its declaration. A `Setting` fixes which visits count, which tables of
distances hold what was found at these visits, and which frames were made for which constructs.
-/

namespace Lox

open Scoping

namespace Machine

/-- The machine with another table of distances. -/
def withTable (m : Machine) (d : Distances) : Machine :=
  { m with distances := d }

/-- The machine `m'` has the frames of `m` and may have more frames and bindings. -/
structure Keeps (m m' : Machine) : Prop where
  /-- The global frame is the same. -/
  globals : m'.globals = m.globals
  /-- No frame is removed. -/
  size : m.heap.frames.size ≤ m'.heap.frames.size
  /-- A frame stays where it is in its chain. -/
  enclosing : ∀ k < m.heap.frames.size,
    m'.heap.frames.enclosing? k = m.heap.frames.enclosing? k
  /-- A name that is bound stays bound. -/
  bound : ∀ k name, (m.heap.frames.local? k name).isSome → (m'.heap.frames.local? k name).isSome
  /-- No identity is given out again. -/
  identity : m.heap.nextIdentity ≤ m'.heap.nextIdentity

namespace Keeps

variable {m m' m'' : Machine}

/-- What is kept twice is kept. -/
theorem trans (h : m.Keeps m') (h' : m'.Keeps m'') : m.Keeps m'' where
  globals := h'.globals.trans h.globals
  size := Nat.le_trans h.size h'.size
  enclosing k hk := (h'.enclosing k (Nat.lt_of_lt_of_le hk h.size)).trans (h.enclosing k hk)
  bound k name hbound := h'.bound k name (h.bound k name hbound)
  identity := Nat.le_trans h.identity h'.identity

/-- A machine keeps the frames of one that differs in other things only. -/
theorem of_frames_eq (hframes : m'.heap.frames = m.heap.frames)
    (hglobals : m'.globals = m.globals) (hidentity : m.heap.nextIdentity ≤ m'.heap.nextIdentity) :
    m.Keeps m' where
  globals := hglobals
  size := hframes ▸ Nat.le_refl _
  enclosing _ _ := by rw [hframes]
  bound _ _ hbound := by rwa [hframes]
  identity := hidentity

/-- A new frame leaves the others as they are. -/
theorem push (m : Machine) (frame : Frame) :
    m.Keeps { m with heap.frames := m.heap.frames.push frame } where
  globals := rfl
  size := by simp
  enclosing k hk := by rw [Frames.enclosing?_push, if_neg (Nat.ne_of_lt hk)]
  bound k name hbound := by
    rw [Frames.local?_push]
    split
    · next hk =>
      -- The place of the new frame held no frame before, so nothing was bound there.
      subst hk
      simp [Frames.local?, Frames.size] at hbound
    · exact hbound
  identity := Nat.le_refl _

/-- A new binding leaves the others in place. -/
theorem define (m : Machine) (k : FrameId) (name : String) (value : Value) :
    m.Keeps { m with heap.frames := m.heap.frames.define k name value } where
  globals := rfl
  size := by simp
  enclosing k hk := by simp
  bound k name hbound := by
    rw [Frames.local?_define]
    split
    · rfl
    · exact hbound
  identity := Nat.le_refl _

end Keeps

/-- The machine `m'` comes from `m` by steps that end with the same current frame. -/
structure Extends (m m' : Machine) : Prop extends m.Keeps m' where
  /-- The current frame is the same. -/
  current : m'.current = m.current
  /-- The distances are the same. -/
  distances : m'.distances = m.distances
  /-- The class of written-out objects is the same. -/
  objectClass : m'.objectClass = m.objectClass

namespace Extends

variable {m m' m'' : Machine}

/-- A machine extends itself. -/
theorem refl (m : Machine) : m.Extends m :=
  ⟨.of_frames_eq rfl rfl (Nat.le_refl _), rfl, rfl, rfl⟩

/-- Extension is transitive. -/
theorem trans (h : m.Extends m') (h' : m'.Extends m'') : m.Extends m'' :=
  ⟨h.toKeeps.trans h'.toKeeps, h'.current.trans h.current, h'.distances.trans h.distances,
    h'.objectClass.trans h.objectClass⟩

/-- After steps in another frame, the current frame is what it was before. -/
theorem leave {k : FrameId} (h : Machine.Extends { m with current := k } m') :
    m.Extends { m' with current := m.current } :=
  ⟨⟨h.globals, h.size, h.enclosing, h.bound, h.identity⟩, rfl, h.distances, h.objectClass⟩

end Extends

end Machine

namespace Scoping.Walk

/-- No name has its initial value because it is declared. -/
theorem declare_scopes {w : Walk} {scope : Scope} {outer : List Scope}
    (h : w.scopes = scope :: outer) (name : Token) :
    ∃ scope', (w.declare name).scopes = scope' :: outer ∧
      ∀ n, scope'.lookup n = some true → scope.lookup n = some true := by
  unfold declare
  rw [h]
  dsimp only
  split
  · exact ⟨scope, h, fun _ hn => hn⟩
  · refine ⟨_, rfl, fun n hn => ?_⟩
    by_cases hname : n = name.lexeme
    · simp [hname] at hn
    · simpa [List.lookup_cons, beq_false_of_ne hname] using hn

/-- Defining puts a name into the top scope. -/
theorem define_scopes {w : Walk} {scope : Scope} {outer : List Scope}
    (h : w.scopes = scope :: outer) (name : Token) :
    (w.define name).scopes = ((name.lexeme, true) :: scope) :: outer := by
  unfold define
  rw [h]

/-- Where no scope is open, declarations open none. -/
theorem declare_define_nil {w : Walk} (h : w.scopes = []) (name : Token) :
    ((w.declare name).define name).scopes = [] := by
  have hdeclare : w.declare name = w := by simp [declare, h]
  rw [hdeclare]
  simp [define, h]

/-- The names that have their initial value once parameters are declared are those that had it and
the parameters. -/
theorem parameters_scopes (params : List Token) {w : Walk} {scope : Scope} {outer : List Scope}
    (h : w.scopes = scope :: outer) :
    ∃ scope', (w.parameters params).scopes = scope' :: outer ∧
      ∀ n, scope'.lookup n = some true → scope.lookup n = some true ∨
        ∃ t ∈ params, t.lexeme = n := by
  induction params generalizing w scope with
  | nil => exact ⟨scope, h, fun _ hn => .inl hn⟩
  | cons name params ih =>
    -- The scope changes with each parameter, so the induction is over any innermost scope.
    obtain ⟨scope₁, h₁, hscope₁⟩ := declare_scopes h name
    obtain ⟨scope₂, h₂, hscope₂⟩ := ih (define_scopes h₁ name)
    refine ⟨scope₂, h₂, fun n hn => ?_⟩
    obtain hn | ⟨t, ht, rfl⟩ := hscope₂ n hn
    · by_cases hname : n = name.lexeme
      · exact .inr ⟨name, List.mem_cons_self, hname.symm⟩
      · rw [List.lookup_cons, beq_false_of_ne hname] at hn
        exact .inl (hscope₁ n hn)
    · exact .inr ⟨t, List.mem_cons_of_mem _ ht, rfl⟩

/-- A scope without a name has the other names as before. -/
theorem lookup_filter_ne (scope : Scope) (name n : String) :
    (scope.filter fun entry => entry.1 ≠ name).lookup n =
      if n = name then none else scope.lookup n := by
  induction scope with
  | nil => simp
  | cons entry scope ih =>
    obtain ⟨name', marked⟩ := entry
    by_cases hname : name' = name
    · rw [List.filter_cons_of_neg (by simpa using hname), ih]
      split
      · rfl
      · next hn => rw [List.lookup_cons, hname, beq_false_of_ne hn]
    · rw [List.filter_cons_of_pos (by simpa using hname), List.lookup_cons, List.lookup_cons, ih]
      by_cases hn : n = name'
      · subst hn
        simp [hname]
      · simp [beq_false_of_ne hn]

/-- The open scopes, without a name in the innermost one. -/
def scopesBut (w : Walk) (name : Token) : List Scope :=
  match w.scopes with
  | [] => []
  | scope :: outer => scope.filter (fun entry => entry.1 ≠ name.lexeme) :: outer

end Scoping.Walk

namespace Eval

/-- The chain of frames from `k` to the globals matches scopes and the constructs that opened them,
given the record `made` of which frame was made for which construct. -/
def Aligned (made : FrameId → Construct → Prop) (m : Machine) :
    FrameId → List Scope → List Construct → Prop
  | k, [], [] => k = m.globals
  | k, scope :: scopes, c :: cs =>
    k ≠ m.globals ∧ made k c ∧
      (∀ name, scope.lookup name = some true → (m.heap.frames.local? k name).isSome) ∧
      ∃ outer, m.heap.frames.enclosing? k = some outer ∧ Aligned made m outer scopes cs
  | _, _, _ => False

namespace Aligned

variable {made : FrameId → Construct → Prop} {m m' : Machine} {k : FrameId}
  {scope scope' : Scope} {scopes scopes' : List Scope} {cs : List Construct}

/-- A chain that matches still does when the machine has grown. -/
theorem mono (h : Aligned made m k scopes cs) (hm : m.Keeps m') :
    Aligned made m' k scopes cs := by
  induction scopes generalizing k cs with
  | nil =>
    cases cs with
    | nil => exact h.trans hm.globals.symm
    | cons c cs => exact h
  | cons scope scopes ih =>
    cases cs with
    | nil => exact h
    | cons c cs =>
      -- A frame that has an enclosing one exists already, so it keeps its place in the chain.
      obtain ⟨hk, hmade, hbound, outer, houter, h⟩ := h
      have hlt := Frames.lt_size_of_enclosing? _ houter
      refine ⟨hm.globals ▸ hk, hmade, fun name hname => hm.bound k name (hbound name hname), outer,
        ?_, ih h⟩
      rw [hm.enclosing k hlt, houter]

/-- The innermost scope may be another one whose names are bound. -/
theorem change (h : Aligned made m k (scope :: scopes) cs)
    (hscope : ∀ name, scope'.lookup name = some true → scope.lookup name = some true ∨
      (m.heap.frames.local? k name).isSome) : Aligned made m k (scope' :: scopes) cs := by
  cases cs with
  | nil => exact h
  | cons c cs =>
    obtain ⟨hk, hmade, hbound, houter⟩ := h
    exact ⟨hk, hmade, fun name hname => (hscope name hname).elim (hbound name) id, houter⟩

end Aligned

namespace Aligned

variable {made : FrameId → Construct → Prop} {m : Machine} {k : FrameId} {w : Walk}
  {cs : List Construct}

/-- A chain that matches still does after a name was declared. -/
theorem declare (h : Aligned made m k w.scopes cs) (name : Token) :
    Aligned made m k (w.declare name).scopes cs := by
  cases hw : w.scopes with
  | nil => simpa [Walk.declare, hw] using h
  | cons scope outer =>
    obtain ⟨scope', hscope', hnames⟩ := Walk.declare_scopes hw name
    rw [hscope']
    rw [hw] at h
    exact h.change fun n hn => .inl (hnames n hn)

/-- A chain that matches still does after a name was defined that its first frame binds. -/
theorem define (h : Aligned made m k w.scopes cs) (name : Token)
    (hname : (m.heap.frames.local? k name.lexeme).isSome) :
    Aligned made m k (w.define name).scopes cs := by
  cases hw : w.scopes with
  | nil => simpa [Walk.define, hw] using h
  | cons scope outer =>
    rw [Walk.define_scopes hw]
    rw [hw] at h
    refine h.change fun n hn => ?_
    by_cases hn' : n = name.lexeme
    · exact .inr (hn' ▸ hname)
    · rw [List.lookup_cons, beq_false_of_ne hn'] at hn
      exact .inl hn

/-- While a class is looked for in its own declaration, its name need not be bound yet. -/
theorem scopesBut (h : Aligned made m k w.scopes cs) (name : Token) :
    Aligned made m k (((w.declare name).define name).scopesBut name) cs := by
  cases hw : w.scopes with
  | nil =>
    rw [Walk.scopesBut, Walk.declare_define_nil hw]
    rwa [hw] at h
  | cons scope outer =>
    obtain ⟨scope', hscope', hnames⟩ := Walk.declare_scopes hw name
    rw [Walk.scopesBut, Walk.define_scopes hscope']
    rw [hw] at h
    refine h.change fun n hn => .inl (hnames n ?_)
    rw [Walk.lookup_filter_ne] at hn
    split at hn
    · contradiction
    · next hne => rwa [List.lookup_cons, beq_false_of_ne hne] at hn

end Aligned

/-- What a run is compared with: the visits that count, the tables that hold what was found at them,
and the record of which frame was made for which construct and which functions were made. -/
structure Setting where
  /-- The tables of distances that a run may have. -/
  tables : Distances → Prop
  /-- The visits of the pieces that may run. -/
  live : Visit → Prop
  /-- Which frame was made for which construct. -/
  made : FrameId → Construct → Prop
  /-- The functions that were made. -/
  known : Lox.Function → Prop
  /-- With a piece, its parts may run. -/
  live_parts : ∀ v, live v → ∀ p ∈ v.parts, live p
  /-- The pieces have the shape that evaluation relies on. -/
  shapely : ∀ v, live v → v.Shapely
  /-- The tables hold what was found. -/
  recorded : ∀ v, live v → ∀ d, tables d → v.Recorded d

namespace Setting

variable (S : Setting) {m m' : Machine} {v p : Visit}

/-- A visited piece may run on a machine. -/
structure At (m : Machine) (v : Visit) : Prop where
  /-- The visit counts. -/
  live : S.live v
  /-- The frames match the scopes at the visit. -/
  aligned : Aligned S.made m m.current v.walk.scopes v.around

/-- A function was made, and its frame matches the scopes at a visit of its declaration. -/
def Function (m : Machine) (f : Function) : Prop :=
  S.known f ∧
    ∃ v, S.live v ∧ v.piece = .function f.decl ∧ Aligned S.made m f.frame v.walk.scopes v.around

/-- The frame of a method matches the scopes at a visit of its declaration but for the one that
holds `this`, which has its frame once the method is bound. An initializer has its name. -/
def Method (m : Machine) (f : Lox.Function) : Prop :=
  f.isInitializer = (f.decl.displayName == "init") ∧
  ∃ v c outer around, S.live v ∧ v.piece = .function f.decl ∧ f.decl ∈ c.methods ∧
    v.walk.scopes = [("this", true)] :: outer ∧ v.around = .receiver c :: around ∧
    Aligned S.made m f.frame outer around

/-- The functions in a value match the scopes at visits of their declarations, and a class was made
after its superclasses. -/
def Sound (m : Machine) : Value → Prop
  | .function _ f => S.Function m f
  | .class c => (∀ f ∈ c.functions, S.Method m f) ∧ c.FoundedBefore m.heap.nextIdentity
  | _ => True

/-- What holds of a machine between two tasks. -/
structure Inv (m : Machine) : Prop where
  /-- All values are sound. -/
  holds : m.heap.Holds (S.Sound m)
  /-- The class of written-out objects is sound. -/
  objectClass : S.Sound m (.class m.objectClass)
  /-- The global frame exists. -/
  globals : m.globals < m.heap.frames.size
  /-- The global frame is an outermost one. -/
  outermost : m.heap.frames.enclosing? m.globals = none
  /-- The table of distances is one that the run may have. -/
  table : S.tables m.distances

variable {S}

/-- A function stays sound. -/
theorem Function.mono {f : Lox.Function} (h : S.Function m f) (hm : m.Keeps m') :
    S.Function m' f := by
  obtain ⟨hknown, v, hlive, hpiece, haligned⟩ := h
  exact ⟨hknown, v, hlive, hpiece, haligned.mono hm⟩

/-- A method stays sound. -/
theorem Method.mono {f : Lox.Function} (h : S.Method m f) (hm : m.Keeps m') : S.Method m' f := by
  obtain ⟨hinit, v, c, outer, around, hlive, hpiece, hmem, hscopes, haround, haligned⟩ := h
  exact ⟨hinit, v, c, outer, around, hlive, hpiece, hmem, hscopes, haround, haligned.mono hm⟩

/-- A sound value stays sound while the machine grows. -/
theorem Sound.mono {x : Value} (h : S.Sound m x) (hm : m.Keeps m') : S.Sound m' x := by
  cases x with
  | function id f => exact Function.mono h hm
  | «class» c => exact ⟨fun f hf => (h.1 f hf).mono hm, h.2.mono hm.identity⟩
  | _ => trivial

/-- A machine that extends one at a visit is at it. -/
theorem At.mono (h : S.At m v) (hm : m.Extends m') : S.At m' v :=
  ⟨h.live, hm.current ▸ h.aligned.mono hm.toKeeps⟩

/-- A part of a piece within the same scopes may run with it. -/
theorem At.part (h : S.At m v) (hp : p ∈ v.parts) (hscopes : p.walk.scopes = v.walk.scopes)
    (haround : p.around = v.around) : S.At m p :=
  ⟨S.live_parts v h.live p hp, hscopes ▸ haround ▸ h.aligned⟩

/-- The visit of a method in a class that was found is one of its methods. -/
theorem Sound.method {c : Class} {name : String} {f : Lox.Function} (h : S.Sound m (.class c))
    (hf : c.findMethod name = some f) : S.Method m f :=
  h.1 f (c.mem_functions_of_findMethod hf)

/-- All visits within a piece that may run have the right shape. -/
theorem all_shapely (h : S.live v) : Visit.All Visit.Shapely v :=
  (Visit.All.of_closed h S.live_parts).imp S.shapely

end Setting

end Eval

end Lox

import Lox.Eval
import Lox.Proofs.Eval.Alignment
import Lox.Proofs.Eval.ReadOnly

/-!
# Runs of steps

`Setting.Runs x m R` says of a step `x` that starts on the machine `m` what the proofs about
evaluation need: however it ends, the machine has only grown and is as it has to be between two
tasks; if it succeeds, its result and the machine then are related by `R`; and on the machine with
another of the setting's tables it does the same. The lemmas of this file prove it for the steps
that evaluation is made of, and for what is put together from them.
-/

namespace Lox.Eval

open Scoping Exec

/-- The outcome of a step, on a machine with another table. -/
def withTable {α : Type} (d : Distances) :
    EStateM.Result Failure Machine α → EStateM.Result Failure Machine α
  | .ok a m => .ok a (m.withTable d)
  | .error e m => .error e (m.withTable d)

namespace Setting

variable (S : Setting) {α β : Type} {m : Machine}

/-- A step keeps the invariant, gives a result that `R` relates to the machine at its end, and does
the same with each table of the setting. -/
structure Runs (x : Exec α) (m : Machine) (R : α → Machine → Prop) : Prop where
  /-- What holds if the step succeeds. -/
  ok : ∀ a m', x m = .ok a m' → S.Inv m' ∧ m.Extends m' ∧ R a m'
  /-- What holds if the step fails. -/
  error : ∀ e m', x m = .error e m' → S.Inv m' ∧ m.Extends m'
  /-- The step does the same with another table. -/
  lockstep : ∀ d, S.tables d → x (m.withTable d) = withTable d (x m)

variable {S} {x : Exec α} {f : α → Exec β} {R R' : α → Machine → Prop} {Q : β → Machine → Prop}

/-- A plain value is sound. -/
theorem Sound.of_isPlain {v : Value} (h : v.IsPlain) : S.Sound m v := by
  cases v with
  | function id f => exact h.elim
  | «class» c => exact h.elim
  | _ => trivial

namespace Runs

/-- What holds after a run may be weakened. -/
theorem imp (h : S.Runs x m R)
    (hR : ∀ a m', x m = .ok a m' → S.Inv m' → m.Extends m' → R a m' → R' a m') :
    S.Runs x m R' where
  ok a m' ha := by
    obtain ⟨hinv, hext, hr⟩ := h.ok a m' ha
    exact ⟨hinv, hext, hR a m' ha hinv hext hr⟩
  error := h.error
  lockstep := h.lockstep

/-- One step after another. -/
theorem bind (hx : S.Runs x m R)
    (hf : ∀ a m', x m = .ok a m' → S.Inv m' → m.Extends m' → R a m' → S.Runs (f a) m' Q) :
    S.Runs (x >>= f) m Q := by
  cases hxm : x m with
  | ok a m' =>
    obtain ⟨hinv, hext, hr⟩ := hx.ok a m' hxm
    have hfa := hf a m' hxm hinv hext hr
    have heq := bind_of_ok hxm f
    refine ⟨fun b m'' hb => ?_, fun e m'' he => ?_, fun d hd => ?_⟩
    · obtain ⟨hinv', hext', hq⟩ := hfa.ok b m'' (heq ▸ hb)
      exact ⟨hinv', hext.trans hext', hq⟩
    · obtain ⟨hinv', hext'⟩ := hfa.error e m'' (heq ▸ he)
      exact ⟨hinv', hext.trans hext'⟩
    · have hstep : x (m.withTable d) = .ok a (m'.withTable d) := by
        rw [hx.lockstep d hd, hxm]
        rfl
      rw [heq, bind_of_ok hstep]
      exact hfa.lockstep d hd
  | error e m' =>
    have heq := bind_of_error hxm f
    refine ⟨fun b m'' hb => ?_, fun e' m'' he => ?_, fun d hd => ?_⟩
    · rw [heq] at hb
      contradiction
    · rw [heq] at he
      obtain ⟨rfl, rfl⟩ := EStateM.Result.error.inj he
      exact hx.error e m' hxm
    · have hstep : x (m.withTable d) = .error e (m'.withTable d) := by
        rw [hx.lockstep d hd, hxm]
        rfl
      rw [heq, bind_of_error hstep]
      rfl

/-- Giving a value runs. -/
theorem pure (hm : S.Inv m) {a : α} (ha : R a m) : S.Runs (pure a) m R where
  ok b m' hb := by
    obtain ⟨rfl, rfl⟩ := EStateM.Result.ok.inj hb
    exact ⟨hm, .refl m, ha⟩
  error e m' he := by contradiction
  lockstep d _ := rfl

/-- Failing runs. -/
theorem throw (hm : S.Inv m) (e : Failure) : S.Runs (throw e) m R where
  ok b m' hb := by contradiction
  error e' m' he := by
    obtain ⟨rfl, rfl⟩ := EStateM.Result.error.inj he
    exact ⟨hm, .refl m⟩
  lockstep d _ := rfl

/-- An error of the program runs. -/
theorem fail (hm : S.Inv m) (token : Token) (cause : Cause) : S.Runs (fail token cause) m R :=
  throw hm _

/-- A step that looks at the machine, but at nothing in which the tables differ. -/
theorem get {f : Machine → Exec β} (hf : ∀ d, S.tables d → f (m.withTable d) = f m)
    (h : S.Runs (f m) m Q) : S.Runs (get >>= f) m Q where
  ok := h.ok
  error := h.error
  lockstep d hd := by
    show f (m.withTable d) (m.withTable d) = _
    rw [hf d hd]
    exact h.lockstep d hd

/-- A step that changes the machine, but does not look at its table. -/
theorem modifyGet {f : Machine → α × Machine}
    (hf : ∀ d, f (m.withTable d) = ((f m).1, (f m).2.withTable d)) (hinv : S.Inv (f m).2)
    (hext : m.Extends (f m).2) (hR : R (f m).1 (f m).2) : S.Runs (modifyGet f) m R where
  ok a m' ha := by
    obtain ⟨rfl, rfl⟩ := EStateM.Result.ok.inj ha
    exact ⟨hinv, hext, hR⟩
  error e m' he := by contradiction
  lockstep d _ := by
    show EStateM.Result.ok (f (m.withTable d)).1 (f (m.withTable d)).2 = _
    rw [hf]
    rfl

end Runs

/-! ## The invariant -/

variable {m' : Machine}

/-- The invariant holds of a machine that has grown, if the values in its heap are sound. -/
theorem Inv.extend (hm : S.Inv m) (hext : m.Extends m') (hholds : m'.heap.Holds (S.Sound m')) :
    S.Inv m' where
  holds := hholds
  objectClass := hext.objectClass ▸ hm.objectClass.mono hext.toKeeps
  globals := hext.globals ▸ Nat.lt_of_lt_of_le hm.globals hext.size
  outermost := by rw [hext.globals, hext.enclosing _ hm.globals, hm.outermost]
  table := hext.distances ▸ hm.table

/-- The values that are in the heap stay sound. -/
theorem Inv.still (hm : S.Inv m) (hext : m.Extends m') : m.heap.Holds (S.Sound m') :=
  hm.holds.imp fun _ hv => hv.mono hext.toKeeps

/-- The invariant does not depend on the current frame. -/
theorem Inv.moveTo (hm : S.Inv m) (k : FrameId) : S.Inv { m with current := k } where
  holds := hm.holds.imp fun _ hv => hv.mono (.of_frames_eq rfl rfl (Nat.le_refl _))
  objectClass := Sound.mono hm.objectClass (.of_frames_eq rfl rfl (Nat.le_refl _))
  globals := hm.globals
  outermost := hm.outermost
  table := hm.table

/-- A frame from which a chain starts exists. -/
theorem Inv.lt_size (hm : S.Inv m) {k : FrameId} {scopes : List Scope} {cs : List Construct}
    (h : Aligned S.made m k scopes cs) : k < m.heap.frames.size := by
  cases scopes with
  | nil =>
    cases cs with
    | nil => exact (show k = m.globals from h) ▸ hm.globals
    | cons c cs => exact absurd h id
  | cons scope scopes =>
    cases cs with
    | nil => exact absurd h id
    | cons c cs =>
      obtain ⟨_, _, _, outer, houter, _⟩ := h
      exact Frames.lt_size_of_enclosing? _ houter

namespace Runs

/-! ## Output and time -/

/-- Making a text runs. -/
theorem textOf (hm : S.Inv m) (v : Value) : S.Runs (textOf v) m fun _ _ => True :=
  get (fun _ _ => rfl) (pure hm trivial)

/-- Trying to write a line runs. -/
theorem tryWriteLine (hm : S.Inv m) (line : String) :
    S.Runs (tryWriteLine line) m fun _ _ => True := by
  have hext : m.Extends { m with sink := (m.sink.writeLine line).1 } :=
    ⟨.of_frames_eq rfl rfl (Nat.le_refl _), rfl, rfl, rfl⟩
  exact modifyGet (fun _ => rfl) (hm.extend hext (hm.still hext)) hext trivial

/-- Writing a line runs. -/
theorem writeLine (hm : S.Inv m) (line : String) : S.Runs (writeLine line) m fun _ _ => True := by
  refine bind (tryWriteLine hm line) fun refused m' _ hm' _ _ => ?_
  cases refused with
  | none => exact pure hm' trivial
  | some reason => exact throw hm' _

/-- Reading the clock runs. -/
theorem readClock (hm : S.Inv m) : S.Runs readClock m fun _ _ => True := by
  have hext : m.Extends { m with clock := m.clock.read.2 } :=
    ⟨.of_frames_eq rfl rfl (Nat.le_refl _), rfl, rfl, rfl⟩
  exact modifyGet (fun _ => rfl) (hm.extend hext (hm.still hext)) hext trivial

/-! ## Frames and variables -/

/-- The bindings of a new frame have to be sound. -/
theorem newFrame (hm : S.Inv m) (outer : FrameId) (bindings : Bindings)
    (hbindings : ∀ name v, bindings.lookup name = some v → S.Sound m v) :
    S.Runs (newFrame outer bindings) m fun k m' => k = m.heap.frames.size ∧
      m' = { m with heap.frames := m.heap.frames.push ⟨bindings, some outer⟩ } := by
  have hext : m.Extends { m with heap.frames := m.heap.frames.push ⟨bindings, some outer⟩ } :=
    ⟨.push m _, rfl, rfl, rfl⟩
  refine modifyGet (fun _ => rfl) (hm.extend hext ?_) hext ⟨rfl, rfl⟩
  exact (hm.still hext).push _ fun name v hv => (hbindings name v hv).mono hext.toKeeps

/-- A step may run with another current frame; the machine is then back in the one before. -/
theorem inFrame {k : FrameId} (h : S.Runs x { m with current := k } R) :
    S.Runs (inFrame k x) m fun a m' => R a { m' with current := k } := by
  have hinFrame : ∀ m : Machine, Exec.inFrame k x m = match x { m with current := k } with
      | .ok a m' => .ok a { m' with current := m.current }
      | .error e m' => .error e { m' with current := m.current } := fun _ => rfl
  have hext : ∀ m', Machine.Extends { m with current := k } m' →
      m.Extends { m' with current := m.current } := fun m' he =>
    ⟨⟨he.globals, he.size, he.enclosing, he.bound, he.identity⟩, rfl, he.distances,
      he.objectClass⟩
  refine ⟨fun a m' ha => ?_, fun e m' he => ?_, fun d hd => ?_⟩
  · rw [hinFrame] at ha
    split at ha
    · next b m₁ hb =>
      obtain ⟨rfl, rfl⟩ := EStateM.Result.ok.inj ha
      obtain ⟨hinv, hx, hr⟩ := h.ok b m₁ hb
      refine ⟨hinv.moveTo _, hext m₁ hx, ?_⟩
      have hback : ({ m₁ with current := k } : Machine) = m₁ := by
        rw [← show m₁.current = k from hx.current]
      rwa [hback]
    · contradiction
  · rw [hinFrame] at he
    split at he
    · contradiction
    · next e' m₁ he' =>
      obtain ⟨rfl, rfl⟩ := EStateM.Result.error.inj he
      obtain ⟨hinv, hx⟩ := h.error e' m₁ he'
      exact ⟨hinv.moveTo _, hext m₁ hx⟩
  · rw [hinFrame, hinFrame, show ({ m.withTable d with current := k } : Machine) =
      ({ m with current := k } : Machine).withTable d from rfl, h.lockstep d hd]
    cases x { m with current := k } <;> rfl

/-- A sound value may be bound in any frame. -/
theorem defineIn (hm : S.Inv m) (k : FrameId) (name : String) {value : Value}
    (hvalue : S.Sound m value) :
    S.Runs (defineIn k name value) m fun _ m' =>
      m' = { m with heap.frames := m.heap.frames.define k name value } := by
  have hext : m.Extends { m with heap.frames := m.heap.frames.define k name value } :=
    ⟨.define m k name value, rfl, rfl, rfl⟩
  refine modifyGet (fun _ => rfl) (hm.extend hext ?_) hext rfl
  exact (hm.still hext).define k name (hvalue.mono hext.toKeeps)

/-- Binding a name to a sound value runs. -/
theorem define (hm : S.Inv m) (name : String) {value : Value} (hvalue : S.Sound m value) :
    S.Runs (define name value) m fun _ m' =>
      m' = { m with heap.frames := m.heap.frames.define m.current name value } :=
  get (fun _ _ => rfl) (defineIn hm m.current name hvalue)

/-- A value that there is runs, and its lack fails. -/
theorem orFail {y : Option α} (hm : S.Inv m) (token : Token) (cause : Cause)
    (hy : ∀ a, y = some a → R a m) : S.Runs (orFail token cause y) m R := by
  cases y with
  | none => exact fail hm token cause
  | some a => exact pure hm (hy a rfl)

/-- A value that a frame binds a name to is sound. -/
theorem getFrom (hm : S.Inv m) (holder : Option FrameId) (name : Token) :
    S.Runs (getFrom holder name) m fun v m' => S.Sound m' v := by
  refine get (fun _ _ => rfl) (orFail hm _ _ fun v hv => ?_)
  obtain ⟨k, _, hk⟩ := Option.bind_eq_some_iff.mp hv
  exact hm.holds.bound k _ v hk

/-- Reading at a distance gives a sound value. -/
theorem getAt (hm : S.Inv m) (distance : Nat) (name : Token) :
    S.Runs (getAt distance name) m fun v m' => S.Sound m' v :=
  get (fun _ _ => rfl) (getFrom hm _ name)

/-- All tables of the setting have the same distance for a reference that is visited. -/
theorem find?_eq (hm : S.Inv m) {v : Visit} {y : Reference} (hv : S.live v) (hy : v.own? = some y)
    {d : Distances} (hd : S.tables d) : d.find? y.id = m.distances.find? y.id :=
  (S.recorded v hv d hd y hy).trans (S.recorded v hv _ hm.table y hy).symm

/-- Looking up a reference gives a sound value. -/
theorem lookUp (hm : S.Inv m) {v : Visit} {y : Reference} (hv : S.live v) (hy : v.own? = some y) :
    S.Runs (lookUp y) m fun a m' => S.Sound m' a := by
  refine get (fun d hd => ?_) (getFrom hm _ _)
  rw [Machine.holder?, Machine.holder?, show (m.withTable d).distances = d from rfl,
    find?_eq hm hv hy hd]
  rfl

/-- Assigning a sound value in a frame runs. -/
theorem assignIn (hm : S.Inv m) (holder : Option FrameId) (name : Token) {value : Value}
    (hvalue : S.Sound m value) : S.Runs (assignIn holder name value) m fun _ _ => True := by
  refine bind (orFail (R := fun _ _ => True) hm _ _ fun _ _ => trivial) ?_
  intro k m' hk hm' hext _
  exact (defineIn hm' k _ (hvalue.mono hext.toKeeps)).imp fun _ _ _ _ _ _ => trivial

/-- Assigning a sound value to a reference runs. -/
theorem assign (hm : S.Inv m) {v : Visit} {y : Reference} (hv : S.live v) (hy : v.own? = some y)
    {value : Value} (hvalue : S.Sound m value) :
    S.Runs (assign y value) m fun _ _ => True := by
  refine get (fun d hd => ?_) (assignIn hm _ _ hvalue)
  rw [Machine.holder?, Machine.holder?, show (m.withTable d).distances = d from rfl,
    find?_eq hm hv hy hd]
  rfl

/-- Assigning a sound value in the nearest frame runs. -/
theorem assignNearest (hm : S.Inv m) (name : Token) {value : Value} (hvalue : S.Sound m value) :
    S.Runs (assignNearest name value) m fun _ _ => True :=
  get (fun _ _ => rfl) (assignIn hm _ _ hvalue)

/-! ## Functions, classes, objects and arrays -/

/-- An identity is the next one, and is not given out again. -/
theorem freshIdentity (hm : S.Inv m) :
    S.Runs freshIdentity m fun id m' => id = m.heap.nextIdentity ∧
      m'.heap.nextIdentity = m.heap.nextIdentity + 1 ∧ m'.heap.frames = m.heap.frames := by
  have hext : m.Extends { m with heap.nextIdentity := m.heap.nextIdentity + 1 } :=
    ⟨.of_frames_eq rfl rfl (Nat.le_succ _), rfl, rfl, rfl⟩
  exact modifyGet (fun _ => rfl) (hm.extend hext { hm.still hext with }) hext ⟨rfl, rfl, rfl⟩

/-- A function value is sound if its function is. -/
theorem newFunction (hm : S.Inv m) {f : Lox.Function} (hf : S.Function m f) :
    S.Runs (newFunction f) m fun v m' => S.Sound m' v :=
  bind (freshIdentity hm) fun _ _ _ hm' hext _ => pure hm' (Function.mono hf hext.toKeeps)

/-- A class is sound if its superclasses and its own methods are: it is made after them. -/
theorem newClass (hm : S.Inv m) (name : String) {superclasses : List Class}
    (hsuperclasses : ∀ c ∈ superclasses, S.Sound m (.class c))
    {methods : List (String × Lox.Function)} (hmethods : ∀ f ∈ methods.map Prod.snd, S.Method m f) :
    S.Runs (newClass name superclasses methods) m fun c m' =>
      S.Sound m' (.class c) ∧ m'.heap.frames = m.heap.frames := by
  refine bind (freshIdentity hm) fun id m' _ hm' hext hid => ?_
  obtain ⟨rfl, hnext, hframes⟩ := hid
  refine pure hm' ⟨⟨fun f hf => Method.mono (m := m) ?_ hext.toKeeps, .mk ?_ fun c hc => ?_⟩,
    hframes⟩
  · rw [Class.functions] at hf
    obtain hf | hf := List.mem_append.mp hf
    · exact hmethods f hf
    · obtain ⟨c, hc, hf⟩ := exists_of_mem_classFunctions hf
      exact (hsuperclasses c hc).1 f hf
  · rw [hnext]
    exact Nat.lt_succ_self _
  · exact (hsuperclasses c hc).2

/-- A new object with sound parts is sound. -/
theorem newObject (hm : S.Inv m) (object : Object) (hclass : S.Sound m (.class object.cls))
    (hfields : ∀ name v, object.fields.lookup name = some v → S.Sound m v) :
    S.Runs (newObject object) m fun v m' => S.Sound m' v := by
  have hext : m.Extends { m with heap.objects := m.heap.objects.push object } :=
    ⟨.of_frames_eq rfl rfl (Nat.le_refl _), rfl, rfl, rfl⟩
  refine modifyGet (fun _ => rfl) (hm.extend hext ?_) hext trivial
  exact (hm.still hext).newObject object (Sound.mono hclass hext.toKeeps)
    fun name v hv => (hfields name v hv).mono hext.toKeeps

/-- The class and the fields of an object are sound. -/
theorem object? (hm : S.Inv m) (v : Value) :
    S.Runs (object? v) m fun object m' => m' = m ∧ ∀ o ∈ object, o ∈ m.heap.objects := by
  cases v with
  | object id =>
    refine get (fun _ _ => rfl) (pure hm ⟨rfl, fun o ho => ?_⟩)
    exact Array.mem_of_getElem? ho
  | _ => exact pure hm ⟨rfl, by simp⟩

/-- Setting a field to a sound value runs. -/
theorem setField (hm : S.Inv m) (id : ObjectId) (name : String) {value : Value}
    (hvalue : S.Sound m value) : S.Runs (setField id name value) m fun _ _ => True := by
  have hext : m.Extends { m with heap.objects := m.heap.objects.modify id fun object =>
      { object with fields := Bindings.insert name value object.fields } } :=
    ⟨.of_frames_eq rfl rfl (Nat.le_refl _), rfl, rfl, rfl⟩
  refine modifyGet (fun _ => rfl) (hm.extend hext ?_) hext trivial
  exact (hm.still hext).setField id name (hvalue.mono hext.toKeeps)

/-- A new array of sound values is sound. -/
theorem newArray (hm : S.Inv m) (elements : List Value) (helements : ∀ v ∈ elements, S.Sound m v) :
    S.Runs (newArray elements) m fun v m' => S.Sound m' v := by
  have hext : m.Extends { m with heap.arrays := m.heap.arrays.push elements.toArray } :=
    ⟨.of_frames_eq rfl rfl (Nat.le_refl _), rfl, rfl, rfl⟩
  refine modifyGet (fun _ => rfl) (hm.extend hext ?_) hext trivial
  exact (hm.still hext).newArray elements fun v hv => (helements v hv).mono hext.toKeeps

/-- Setting an element to a sound value runs. -/
theorem setElement (hm : S.Inv m) (id : ArrayId) (index : Nat) {value : Value}
    (hvalue : S.Sound m value) : S.Runs (setElement id index value) m fun _ _ => True := by
  have hext : m.Extends { m with
      heap.arrays := m.heap.arrays.modify id (·.setIfInBounds index value) } :=
    ⟨.of_frames_eq rfl rfl (Nat.le_refl _), rfl, rfl, rfl⟩
  refine modifyGet (fun _ => rfl) (hm.extend hext ?_) hext trivial
  exact (hm.still hext).setElement id index (hvalue.mono hext.toKeeps)

/-! ## Operators and elements -/

/-- A step that only reads does the same with every table. -/
theorem readOnly (hm : S.Inv m) {Q : α → α → Prop} {t : Token}
    (hx : ReadOnly m.heap m.heap t t Q x x) : S.Runs x m fun a m' => m' = m ∧ Q a a := by
  obtain ⟨a, hQ, hok⟩ | ⟨cause, herror⟩ := hx.self
  · refine ⟨fun b m' hb => ?_, fun e m' he => ?_, fun d _ => ?_⟩
    · rw [hok m rfl] at hb
      obtain ⟨rfl, rfl⟩ := EStateM.Result.ok.inj hb
      exact ⟨hm, .refl m, rfl, hQ⟩
    · rw [hok m rfl] at he
      contradiction
    · rw [hok m rfl, hok (m.withTable d) rfl]
      rfl
  · refine ⟨fun b m' hb => ?_, fun e m' he => ?_, fun d _ => ?_⟩
    · rw [herror m rfl] at hb
      contradiction
    · rw [herror m rfl] at he
      obtain ⟨rfl, rfl⟩ := EStateM.Result.error.inj he
      exact ⟨hm, .refl m⟩
    · rw [herror m rfl, herror (m.withTable d) rfl]
      rfl

/-- A value that is found by reading is sound if it is plain or the heap holds it. -/
theorem readValue (hm : S.Inv m) {t : Token} {x : Exec Value}
    (hx : ReadOnly m.heap m.heap t t (fun a _ => S.Sound m a) x x) :
    S.Runs x m fun a m' => S.Sound m' a := by
  refine (readOnly hm hx).imp fun a m' _ _ _ ha => ?_
  obtain ⟨rfl, ha⟩ := ha
  exact ha

/-- A unary operator gives a sound value. -/
theorem applyUnary (hm : S.Inv m) (operator : Token) (v : Value) :
    S.Runs (applyUnary operator v) m fun a m' => S.Sound m' a :=
  readValue hm (.applyUnary (fun _ => .of_isPlain) rfl (.refl v))

/-- A binary operator gives a sound value. -/
theorem applyBinary (hm : S.Inv m) (operator : Token) (a b : Value) :
    S.Runs (applyBinary operator a b) m fun v m' => S.Sound m' v :=
  readValue hm (.applyBinary (fun _ => .of_isPlain) rfl (.refl a) (.refl b) rfl rfl)

/-- Reading an element gives a sound value. -/
theorem getElement (hm : S.Inv m) (bracket : Token) (v key : Value) :
    S.Runs (getElement bracket v key) m fun a m' => S.Sound m' a :=
  readValue hm (.getElement (fun _ => .of_isPlain) (.of_holds hm.holds) (.refl v) (.refl key))

/-- Assigning a sound value to an element runs. -/
theorem assignElement (hm : S.Inv m) (bracket : Token) (v key : Value) {value : Value}
    (hvalue : S.Sound m value) : S.Runs (assignElement bracket v key value) m fun _ _ => True := by
  cases v with
  | array id =>
    refine get (fun _ _ => rfl)
      (bind (readOnly hm (.position (.refl key) _)) fun i m' _ hm' hext _ => ?_)
    exact setElement hm' id i (hvalue.mono hext.toKeeps)
  | object id =>
    refine bind (readOnly hm (.keyName (.refl key))) fun name m' _ hm' hext _ => ?_
    exact setField hm' id name (hvalue.mono hext.toKeeps)
  | _ => exact fail hm _ _

/-- A native function gives a sound value. -/
theorem callNative (hm : S.Inv m) (f : Native) (arguments : List Value) (paren : Token) :
    S.Runs (callNative f arguments paren) m fun v m' => S.Sound m' v := by
  cases f with
  | log =>
    have htexts (vs : List Value) :
        List.Forall₂ (fun v v' => m.heap.text v' = m.heap.text v) vs vs :=
      List.forall₂_same.mpr fun _ _ => rfl
    refine bind (readOnly hm (t := paren) (.lineText (htexts _))) fun line m₁ _ hm₁ _ _ => ?_
    refine bind (tryWriteLine hm₁ line) fun refused m₂ _ hm₂ _ _ => ?_
    cases refused with
    | none => exact pure hm₂ trivial
    | some reason => exact fail hm₂ _ _
  | clock =>
    refine bind (readClock hm) fun seconds m₁ _ hm₁ _ _ => ?_
    cases seconds with
    | some seconds => exact pure hm₁ trivial
    | none => exact fail hm₁ _ _
  | len =>
    exact readValue hm (.len (fun _ => .of_isPlain) (.of_holds hm.holds)
      (Value.Similar.all_refl _))

end Runs

end Setting

end Lox.Eval

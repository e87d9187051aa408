import Lox.Proofs.Eval.Effects
import Lox.Proofs.Eval.ReadOnly
import Lox.Proofs.Grammar.Provenance

/-!
# What happens at a moment

Frames change in a few ways only: one is made for a block, a call, a receiver or the superclasses of
a class, a name is declared in the current frame, or a name that a frame binds gets another value.
`Moment.Changes` says at which moments each of these happens. Besides, a moment may change what is
beside the frames, and lead to other tasks. `Moment.Path` is a sequence of such moves. A step spans
a path if it takes the machine along it and ends in the frame in which it started, if an error of
the program has the line of a token of a moment that is reached, and if the tasks that are counted
lie on the path. This module shows it for the steps that start no task, and how to put steps
together.
-/

namespace Lox

/-- The frame that holds a variable binds it. -/
theorem Machine.isSome_of_holder? {m : Machine} {x : Reference} {k : FrameId}
    (h : m.holder? x = some k) : (m.heap.frames.local? k x.name.lexeme).isSome := by
  unfold Machine.holder? at h
  split at h
  · exact Frames.isSome_of_holderAt? h
  · exact Frames.isSome_of_holder? h

namespace Eval

open Exec

/-- At a moment a name is declared in the current frame. -/
inductive Moment.Declares : Moment → String → Prop
  | variable {b : Nat} {d : Declarator} {ds : List Declarator} {m : Machine} :
      Declares ⟨.declareAll b (d :: ds), m⟩ d.name.lexeme
  | function {b : Nat} {f : FunctionDecl} {m : Machine} :
      Declares ⟨.execute (b + 1) (.function f), m⟩ f.displayName
  | class {c : ClassDecl} {m : Machine} : Declares ⟨.declareClass c, m⟩ c.name.lexeme

/-- A name that is declared is bound. -/
theorem Moment.Declares.binds {μ : Moment} {name : String} (h : μ.Declares name) :
    μ.Binds name := by
  cases h with
  | «variable» => exact .variable
  | function => exact .function
  | «class» => exact .class

/-- What happens to the frames at a moment. -/
inductive Moment.Changes : Moment → Frames → Frames → Prop
  | block {b : Nat} {ss : List Stmt} {m : Machine} :
      Changes ⟨.execute (b + 1) (.block ss), m⟩ m.heap.frames
        (m.heap.frames.push ⟨[], some m.current⟩)
  | call {b : Nat} {f : Function} {vs : List Value} {m : Machine} :
      Changes ⟨.callFunction b f vs, m⟩ m.heap.frames
        (m.heap.frames.push ⟨bindParameters f.decl.params vs, some f.frame⟩)
  | receiver {method : Function} {receiver : Value} {m : Machine} :
      Changes ⟨.bind method receiver, m⟩ m.heap.frames
        (m.heap.frames.push ⟨[("this", receiver)], some method.frame⟩)
  | inheritance {c : ClassDecl} {cs : List Class} {m m₁ : Machine}
      (hcs : lookUpClasses c.superclasses m = .ok cs m₁) (hne : cs ≠ []) :
      Changes ⟨.declareClass c, m⟩ (m₁.heap.frames.define m₁.current c.name.lexeme .nil)
        ((m₁.heap.frames.define m₁.current c.name.lexeme .nil).push
          ⟨[("super", .class ⟨m₁.heap.nextIdentity, c.name.lexeme, cs, []⟩)], some m₁.current⟩)
  | declare {μ : Moment} {name : String} {fs : Frames} (h : μ.Declares name) (value : Value) :
      Changes μ fs (fs.define μ.machine.current name value)
  | assign {μ : Moment} {name : String} {fs : Frames} {k : FrameId} (h : μ.Binds name)
      (hbound : (fs.local? k name).isSome) (value : Value) :
      Changes μ fs (fs.define k name value)

/-- The tokens that a task may point at when it fails. -/
def Task.tokens : Task → List Token
  | .evaluate _ e => e.tokens
  | .call _ _ _ paren => [paren]
  | .callFunction _ f _ => f.decl.tokens
  | .declareClass c => c.tokens
  | .lookUpClasses xs => xs.map Reference.name
  | _ => []

/-- A line has a token that a moment of a kind may point at. -/
def Blames (W : Moment → Prop) (line : Nat) : Prop :=
  ∃ μ, W μ ∧ ∃ t ∈ μ.task.tokens, t.line = line

/-- Frames change step by step, at moments of a kind. -/
def Evolves (W : Moment → Prop) : Frames → Frames → Prop :=
  Relation.ReflTransGen fun fs fs' => ∃ μ, W μ ∧ μ.Changes fs fs'

/-- There is as much to point at where there are more moments. -/
theorem Blames.mono {W W' : Moment → Prop} {line : Nat} (h : Blames W line)
    (hW : ∀ μ, W μ → W' μ) : Blames W' line := by
  obtain ⟨μ, hμ, t, ht⟩ := h
  exact ⟨μ, hW μ hμ, t, ht⟩

/-- Frames change as well at moments of a wider kind. -/
theorem Evolves.mono {W W' : Moment → Prop} {fs fs' : Frames} (h : Evolves W fs fs')
    (hW : ∀ μ, W μ → W' μ) : Evolves W' fs fs' :=
  Relation.ReflTransGen.mono (fun _ _ ⟨μ, hμ, hchange⟩ => ⟨μ, hW μ hμ, hchange⟩) _ _ h

/-- What each change keeps is kept by all of them. -/
theorem Evolves.invariant {W : Moment → Prop} {P : Frames → Prop} {fs fs' : Frames}
    (h : Evolves W fs fs') (hstart : P fs)
    (hstep : ∀ μ fs fs', W μ → μ.Changes fs fs' → P fs → P fs') : P fs' := by
  induction h with
  | refl => exact hstart
  | tail _ hchange ih =>
    obtain ⟨μ, hμ, hchange⟩ := hchange
    exact hstep μ _ _ hμ hchange ih

/-- What may happen at a moment. -/
inductive Moment.Moves (μ : Moment) : Machine → Machine → Prop
  /-- Something beside the frames changes. -/
  | aside {m m' : Machine} (h : m.Beside m') : Moves μ m m'
  /-- The frames change. -/
  | change {m : Machine} {fs : Frames} (h : μ.Changes m.heap.frames fs) :
      Moves μ m { m with heap.frames := fs }
  /-- A task is run. -/
  | call {μ' : Moment} (h : Calls μ μ') : Moves μ μ'.machine μ'.final

/-- What happens at a moment, from one machine to another. -/
def Moment.Path (μ : Moment) : Machine → Machine → Prop :=
  Relation.ReflTransGen μ.Moves

/-- A step takes the machine along a path of a moment, on which the moments in `N` lie. -/
structure Spans {α : Type} (μ : Moment) (x : Exec α) (m : Machine) (N : Moment → Prop) :
    Prop where
  /-- The path goes from the start to the end. -/
  path : μ.Path m (final (x m))
  /-- The current frame is the same at the end. -/
  current : (final (x m)).current = m.current
  /-- An error of the program points at a token of a moment that is reached. -/
  blames : ∀ line cause m', x m = .error (.program line cause) m' → Blames μ.Reaches line
  /-- The path leads to each of the moments, and on from where it ends. -/
  passes : ∀ μ', N μ' → μ.Path m μ'.machine ∧ μ.Path μ'.final (final (x m))

/-- A step that starts no task. -/
abbrev Quiet {α : Type} (μ : Moment) (x : Exec α) (m : Machine) : Prop :=
  Spans μ x m fun _ => False

/-- A moment spans a path on which all moments lie that it calls. -/
abbrev Whole (μ : Moment) : Prop :=
  Spans μ μ.task.run μ.machine (Calls μ)

/-- Where a step ends that runs in another frame. -/
theorem final_inFrame {α : Type} (k : FrameId) (x : Exec α) (m : Machine) :
    final (Exec.inFrame k x m) =
      { final (x { m with current := k }) with current := m.current } := by
  unfold Exec.inFrame
  dsimp only
  cases x { m with current := k } <;> rfl

/-- A step that runs in another frame fails as it does there. -/
theorem error_of_inFrame {α : Type} {k : FrameId} {x : Exec α} {m m' : Machine} {e : Failure}
    (h : Exec.inFrame k x m = .error e m') : ∃ m₁, x { m with current := k } = .error e m₁ := by
  unfold Exec.inFrame at h
  dsimp only at h
  cases hx : x { m with current := k } with
  | ok a m₁ =>
    rw [hx] at h
    contradiction
  | error e' m₁ =>
    rw [hx] at h
    obtain ⟨rfl, -⟩ := EStateM.Result.error.inj h
    exact ⟨m₁, rfl⟩

namespace Spans

variable {α β : Type} {μ : Moment} {x : Exec α} {f : α → Exec β} {m : Machine} {N : Moment → Prop}

/-- Fewer moments may be counted. -/
theorem mono {N' : Moment → Prop} (h : Spans μ x m N) (hN : ∀ μ', N' μ' → N μ') :
    Spans μ x m N' :=
  { h with passes := fun μ' hμ' => h.passes μ' (hN μ' hμ') }

/-- One step after another: what was there after the first is there after the second. -/
theorem bind {Q : α → Machine → Moment → Prop} (hx : Spans μ x m N)
    (hf : ∀ a m', x m = .ok a m' → Spans μ (f a) m' (Q a m')) :
    Spans μ (x >>= f) m fun μ' => N μ' ∨ ∃ a m', x m = .ok a m' ∧ Q a m' μ' := by
  obtain ⟨hpath, hcurrent, hblames, hpasses⟩ := hx
  cases hxm : x m with
  | ok a m' =>
    obtain ⟨hpath', hcurrent', hblames', hpasses'⟩ := hf a m' hxm
    rw [hxm] at hpath hcurrent hpasses
    constructor <;> rw [bind_of_ok hxm f]
    · exact hpath.trans hpath'
    · exact hcurrent'.trans hcurrent
    · exact hblames'
    · rintro μ' (hμ' | ⟨a', m'', ha', hμ'⟩)
      · exact ⟨(hpasses μ' hμ').1, (hpasses μ' hμ').2.trans hpath'⟩
      · obtain ⟨rfl, rfl⟩ := EStateM.Result.ok.inj ha'
        exact ⟨hpath.trans (hpasses' μ' hμ').1, (hpasses' μ' hμ').2⟩
  | error e m' =>
    rw [hxm] at hpath hcurrent hpasses
    constructor <;> rw [bind_of_error hxm f]
    · exact hpath
    · exact hcurrent
    · intro line cause m'' he
      obtain ⟨rfl, rfl⟩ := EStateM.Result.error.inj he
      exact hblames line cause m' hxm
    · rintro μ' (hμ' | ⟨a', m'', ha', _⟩)
      · exact hpasses μ' hμ'
      · contradiction

/-- One quiet step after another. -/
theorem seq (hx : Quiet μ x m) (hf : ∀ a m', x m = .ok a m' → Quiet μ (f a) m') :
    Quiet μ (x >>= f) m :=
  (bind hx hf).mono fun _ => False.elim

/-- A task within a task. -/
theorem called (ih : ∀ μ', Calls μ μ' → Whole μ') {t : Task} (h : Calls μ ⟨t, m⟩) :
    Spans μ t.run m (· = ⟨t, m⟩) where
  path := .single (.call h)
  current := (ih _ h).current
  blames line cause m' he :=
    ((ih _ h).blames line cause m' he).mono fun _ hreach => .head h hreach
  passes := by
    rintro _ rfl
    exact ⟨.refl, .refl⟩

/-- A moment may point at its own tokens. -/
theorem own {t : Token} (h : t ∈ μ.task.tokens) : Blames μ.Reaches t.line :=
  ⟨μ, .refl, t, h, rfl⟩

/-- A result is given back. -/
theorem pure (a : α) : Quiet μ (pure a) m :=
  ⟨.refl, rfl, (fun _ _ _ he => nomatch he), fun _ => False.elim⟩

/-- The budget is used up. -/
theorem exhausted : Quiet μ (throw .exhausted : Exec α) m :=
  ⟨.refl, rfl, (fun _ _ _ he => nomatch he), fun _ => False.elim⟩

/-- The output is refused. -/
theorem output (reason : String) : Quiet μ (throw (.output reason) : Exec α) m :=
  ⟨.refl, rfl, (fun _ _ _ he => nomatch he), fun _ => False.elim⟩

/-- The program fails at a token. -/
theorem fail {token : Token} (h : Blames μ.Reaches token.line) (cause : Cause) :
    Quiet μ (fail token cause : Exec α) m := by
  refine ⟨.refl, rfl, fun line cause' m' he => ?_, fun _ => False.elim⟩
  obtain ⟨hfailure, -⟩ := EStateM.Result.error.inj he
  obtain ⟨rfl, -⟩ := Failure.program.inj hfailure
  exact h

/-- A step may look at the machine. -/
theorem get {f : Machine → Exec β} (h : Spans μ (f m) m N) : Spans μ (get >>= f) m N :=
  ⟨h.path, h.current, h.blames, h.passes⟩

/-- A step is one move. -/
theorem move {f : Machine → α × Machine} (h : μ.Moves m (f m).2)
    (hcurrent : (f m).2.current = m.current) : Quiet μ (modifyGet f) m :=
  ⟨.single h, hcurrent, (fun _ _ _ he => nomatch he), fun _ => False.elim⟩

/-- A step may run in another frame; the machine is back in the one before however it ends. -/
theorem inFrame {k : FrameId} (h : Spans μ x { m with current := k } N) :
    Spans μ (inFrame k x) m N := by
  have henter : μ.Moves m { m with current := k } := .aside (.aside k _ _ (Nat.le_refl _))
  have hleave (m' : Machine) : μ.Moves m' { m' with current := m.current } :=
    .aside (.aside m.current _ _ (Nat.le_refl _))
  constructor
  · rw [final_inFrame]
    exact (h.path.head henter).tail (hleave _)
  · rw [final_inFrame]
  · intro line cause m' he
    obtain ⟨m₁, hx⟩ := error_of_inFrame he
    exact h.blames line cause m₁ hx
  · intro μ' hμ'
    rw [final_inFrame]
    exact ⟨(h.passes μ' hμ').1.head henter, (h.passes μ' hμ').2.tail (hleave _)⟩

/-! ## Steps of the machine -/

/-- A line is written if the output takes it. -/
theorem tryWriteLine (line : String) : Quiet μ (tryWriteLine line) m :=
  move (.aside (.aside _ _ _ (Nat.le_refl _))) rfl

/-- A line is written, or the run ends. -/
theorem writeLine (line : String) : Quiet μ (writeLine line) m := by
  refine seq (tryWriteLine line) fun refused m' _ => ?_
  cases refused with
  | none => exact pure ()
  | some reason => exact output _

/-- A frame is made where the moment makes one. -/
theorem newFrame {outer : FrameId} {bindings : Bindings}
    (h : μ.Changes m.heap.frames (m.heap.frames.push ⟨bindings, some outer⟩)) :
    Quiet μ (newFrame outer bindings) m :=
  move (.change h) rfl

/-- A name is declared in the frame in which the declaration starts. -/
theorem define {name : String} (h : μ.Declares name) (hcurrent : m.current = μ.machine.current)
    (value : Value) : Quiet μ (define name value) m := by
  have hchange : μ.Changes m.heap.frames (m.heap.frames.define m.current name value) :=
    hcurrent ▸ .declare h value
  exact get (move (.change hchange) rfl)

/-- What is missing is reported at a token. -/
theorem orFail {token : Token} (h : Blames μ.Reaches token.line) (cause : Cause) (y : Option α) :
    Quiet μ (orFail token cause y) m := by
  cases y with
  | none => exact fail h cause
  | some a => exact pure a

/-- A name is read from a frame. -/
theorem getFrom {name : Token} (h : Blames μ.Reaches name.line) (holder : Option FrameId) :
    Quiet μ (getFrom holder name) m :=
  get (orFail h ..)

/-- A variable is looked up. -/
theorem lookUp {y : Reference} (h : Blames μ.Reaches y.name.line) : Quiet μ (lookUp y) m :=
  get (getFrom h _)

/-- A name gets another value in a frame that binds it. -/
theorem assignIn {holder : Option FrameId} {name : Token} (h : μ.Binds name.lexeme)
    (hname : name ∈ μ.task.tokens)
    (hholder : ∀ k ∈ holder, (m.heap.frames.local? k name.lexeme).isSome) (value : Value) :
    Quiet μ (assignIn holder name value) m := by
  cases holder with
  | none => exact seq (fail (own hname) _) fun _ _ hfail => nomatch hfail
  | some k =>
    refine seq (pure k) fun k' m' hk => ?_
    obtain ⟨rfl, rfl⟩ := EStateM.Result.ok.inj hk
    exact move (.change (.assign h (hholder k rfl) value)) rfl

/-- An identity is given out. -/
theorem freshIdentity : Quiet μ freshIdentity m :=
  move (.aside (.aside _ _ _ (Nat.le_succ _))) rfl

/-- A function value is made. -/
theorem newFunction (g : Function) : Quiet μ (newFunction g) m :=
  seq freshIdentity fun _ _ _ => pure _

/-- A class is made. -/
theorem newClass (name : String) (superclasses : List Class)
    (methods : List (String × Function)) : Quiet μ (newClass name superclasses methods) m :=
  seq freshIdentity fun _ _ _ => pure _

/-- An object is made. -/
theorem newObject (object : Object) : Quiet μ (newObject object) m :=
  move (.aside (.newObject object)) rfl

/-- A field gets a value. -/
theorem setField (id : ObjectId) (name : String) (value : Value) :
    Quiet μ (setField id name value) m :=
  move (.aside (.setField id name value)) rfl

/-- The object that a value refers to is looked at. -/
theorem object? (v : Value) : Quiet μ (object? v) m := by
  cases v with
  | object id => exact get (pure _)
  | _ => exact pure _

/-! ## Operators and elements -/

section Operators

variable {token : Token} (h : Blames μ.Reaches token.line)
include h

/-- A step that only reads fails at its token. -/
theorem readOnly {Q : α → α → Prop} (hx : ReadOnly m.heap m.heap token token Q x x) :
    Quiet μ x m := by
  obtain ⟨a, _, hok⟩ | ⟨cause, herror⟩ := hx.self
  · constructor <;> rw [hok m rfl]
    · exact .refl
    · rfl
    · exact fun _ _ _ he => nomatch he
    · exact fun _ => False.elim
  · constructor <;> rw [herror m rfl]
    · exact .refl
    · rfl
    · exact (fail h cause).blames
    · exact fun _ => False.elim

/-- An operator with one operand is applied. -/
theorem applyUnary (v : Value) : Quiet μ (applyUnary token v) m :=
  readOnly h (.applyUnary (V := fun _ _ => True) (fun _ _ => trivial) rfl (.refl v))

/-- An operator with two operands is applied. -/
theorem applyBinary (a b : Value) : Quiet μ (applyBinary token a b) m :=
  readOnly h (.applyBinary (V := fun _ _ => True) (fun _ _ => trivial) rfl (.refl a) (.refl b)
    rfl rfl)

/-- An element is read. -/
theorem getElement (v key : Value) : Quiet μ (getElement token v key) m :=
  readOnly h (.getElement (fun _ _ => trivial) (.refl m.heap) (.refl v) (.refl key))

/-- An element gets a value. -/
theorem assignElement (v key value : Value) : Quiet μ (assignElement token v key value) m := by
  cases v with
  | array id =>
    refine get (seq (readOnly h (.position (.refl key) _)) fun i _ _ => ?_)
    exact move (.aside (.setElement id i value)) rfl
  | object id =>
    exact seq (readOnly h (.keyName (.refl key))) fun name _ _ => setField id name value
  | _ => exact fail h _

/-- A built-in function is called. -/
theorem callNative (g : Native) (arguments : List Value) :
    Quiet μ (callNative g arguments token) m := by
  cases g with
  | log =>
    refine get (seq (tryWriteLine _) fun refused _ _ => ?_)
    cases refused with
    | none => exact pure _
    | some reason => exact fail h _
  | clock =>
    refine seq (move (.aside (.aside _ _ _ (Nat.le_refl _))) rfl) fun seconds _ _ => ?_
    cases seconds with
    | some seconds => exact pure _
    | none => exact fail h _
  | len =>
    exact readOnly h (.len (fun _ _ => trivial) (.refl m.heap) (Value.Similar.all_refl _))

/-- A call is made only with the right number of arguments. -/
theorem arity {expected got : Nat} (hx : expected = got → Spans μ x m N) :
    Spans μ (if expected ≠ got then do
        Exec.fail token (.arity expected got)
        x
      else x) m fun μ' => expected = got ∧ N μ' := by
  split
  · next hne =>
    refine (bind (Q := fun _ _ _ => False) (fail h _) fun _ _ hfail => nomatch hfail).mono ?_
    exact fun _ hμ => absurd hμ.1 hne
  · next heq => exact (hx (not_not.mp heq)).mono fun _ hμ => hμ.2

end Operators

end Spans

end Eval

end Lox

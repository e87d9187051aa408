import Lox.Proofs.Eval.ReadOnly
import Lox.Proofs.Eval.Resemblance

/-!
# Steps that go together

Two steps on machines that resemble each other are in step if they end alike: both succeed, with
results that are related and on machines that resemble each other again, or both fail for reasons
that correspond. `InStep` says so. The marks of the frames may have grown, but frames that were
there keep theirs. The lemmas of this file are about the steps that evaluation is made of.
-/

namespace Lox.Eval

open Scoping Exec

/-- Two failures that correspond: they have one cause, or they are about a variable that has two
names. -/
inductive Fails (L : Likeness) : Failure → Failure → Prop
  | program {line line' : Nat} (cause : Cause) (h : L.lines line line') :
    Fails L (.program line cause) (.program line' cause)
  | renamed {x : Reference} {line' : Nat} (hx : L.renamed x) (hname : x.name.lexeme = L.old)
      (h : L.lines x.name.line line') :
    Fails L (.program x.name.line (.undefinedVariable L.old))
      (.program line' (.undefinedVariable L.new))
  | output (reason : String) : Fails L (.output reason) (.output reason)
  | exhausted : Fails L .exhausted .exhausted

/-- References to a variable that is not bound fail alike. -/
theorem Fails.undefined {L : Likeness} {ms : List Bool} {x x' : Reference}
    (h : L.Refers ms x x') :
    Fails L (.program x.name.line (.undefinedVariable x.name.lexeme))
      (.program x'.name.line (.undefinedVariable x'.name.lexeme)) := by
  by_cases heq : x'.name.lexeme = x.name.lexeme
  · rw [heq]
    exact .program _ h.line
  · obtain hsame | ⟨hold, hnew⟩ := h.name.cases
    · exact absurd hsame heq
    · rw [hold, hnew]
      exact .renamed (h.renamed heq) hold h.line

section InStep

variable {α β γ δ : Type}

/-- How two steps end, from a machine with marks: on machines that resemble each other and have
grown, with related results or with failures that correspond. -/
inductive Ends (L : Likeness) (F : FrameId → Bool) (m : Machine)
    (Q : (FrameId → List Bool → Prop) → α → β → Prop) :
    EStateM.Result Failure Machine α → EStateM.Result Failure Machine β → Prop
  | ok {F' : FrameId → Bool} {n n' : Machine} {a : α} {b : β} (hgrows : Grows F m F' n)
      (h : Resembles L F' n n') (hab : Q (Marked F' n.heap.frames) a b) :
    Ends L F m Q (.ok a n) (.ok b n')
  | error {F' : FrameId → Bool} {n n' : Machine} {e e' : Failure} (hgrows : Grows F m F' n)
      (h : Resembles L F' n n') (he : Fails L e e') :
    Ends L F m Q (.error e n) (.error e' n')

/-- Two steps end alike. What relates their results may depend on how frames are marked then. -/
def InStep (L : Likeness) (F : FrameId → Bool) (m m' : Machine) (x : Exec α) (x' : Exec β)
    (Q : (FrameId → List Bool → Prop) → α → β → Prop) : Prop :=
  Ends L F m Q (x m) (x' m')

variable {L : Likeness} {F F₁ : FrameId → Bool} {m m' n : Machine} {x : Exec α} {x' : Exec β}
  {f : α → Exec γ} {f' : β → Exec δ} {Q : (FrameId → List Bool → Prop) → α → β → Prop}
  {S : (FrameId → List Bool → Prop) → γ → δ → Prop}

/-- The results of two steps that are in step are those of a grown machine. -/
theorem Ends.later {r : EStateM.Result Failure Machine α} {r' : EStateM.Result Failure Machine β}
    (h : Ends L F₁ n Q r r') (hgrows : Grows F m F₁ n) : Ends L F m Q r r' := by
  cases h with
  | ok hg h hab => exact .ok (hgrows.trans hg) h hab
  | error hg h he => exact .error (hgrows.trans hg) h he

namespace InStep

/-- One step after another. -/
theorem bind (hx : InStep L F m m' x x' Q)
    (hf : ∀ F₁ n n' a b, Grows F m F₁ n → Resembles L F₁ n n' → Q (Marked F₁ n.heap.frames) a b →
      InStep L F₁ n n' (f a) (f' b) S) :
    InStep L F m m' (x >>= f) (x' >>= f') S := by
  show Ends L F m S (EStateM.bind x f m) (EStateM.bind x' f' m')
  unfold EStateM.bind
  unfold InStep at hx
  revert hx
  generalize x m = r
  generalize x' m' = r'
  intro hx
  cases hx with
  | ok hg h hab => exact (hf _ _ _ _ _ hg h hab).later hg
  | error hg h he => exact .error hg h he

/-- Giving corresponding values stays in step. -/
theorem pure (h : Resembles L F m m') {a : α} {b : β} (hab : Q (Marked F m.heap.frames) a b) :
    InStep L F m m' (pure a) (pure b) Q :=
  .ok (.refl F m) h hab

/-- Corresponding failures stay in step. -/
theorem throw (h : Resembles L F m m') {e e' : Failure} (he : Fails L e e') :
    InStep L F m m' (throw e : Exec α) (throw e' : Exec β) Q :=
  .error (.refl F m) h he

/-- Errors of the program on related lines stay in step. -/
theorem fail (h : Resembles L F m m') {t t' : Token} (hline : L.lines t.line t'.line)
    (cause : Cause) :
    InStep L F m m' (Exec.fail t cause : Exec α) (Exec.fail t' cause : Exec β) Q :=
  throw h (.program cause hline)

/-- Two steps that look at their machines. -/
theorem get {f : Machine → Exec γ} {f' : Machine → Exec δ} (h : InStep L F m m' (f m) (f' m') S) :
    InStep L F m m' (get >>= f) (get >>= f') S :=
  h

/-- Two results, or failures of one cause if there are none. -/
theorem orFail (h : Resembles L F m m') {t t' : Token} {cause cause' : Cause}
    (he : Fails L (.program t.line cause) (.program t'.line cause')) {y : Option α} {y' : Option β}
    (hy : Option.Rel (Q (Marked F m.heap.frames)) y y') :
    InStep L F m m' (Exec.orFail t cause y) (Exec.orFail t' cause' y') Q := by
  cases hy with
  | none => exact throw h he
  | some hab => exact pure h hab

/-- Two steps that only read. -/
theorem readOnly (h : Resembles L F m m') {t t' : Token} (hline : L.lines t.line t'.line)
    (hx : ReadOnly m.heap m'.heap t t' (Q (Marked F m.heap.frames)) x x') :
    InStep L F m m' x x' Q := by
  unfold InStep
  cases hx with
  | ok hab hx hx' =>
    rw [hx m rfl, hx' m' rfl]
    exact .ok (.refl F m) h hab
  | error cause hx hx' =>
    rw [hx m rfl, hx' m' rfl]
    exact .error (.refl F m) h (.program cause hline)

end InStep

end InStep

/-! ## Changes of machines -/

namespace Resembles

variable {L : Likeness} {F F' : FrameId → Bool} {m m' : Machine}

/-- Machines still resemble each other when their heaps have grown alike. -/
theorem setHeap (h : Resembles L F m m') {g g' : Heap} (hgrows : Grows F m F' { m with heap := g })
    (hheap : Heaps L F' (Marked F m.heap.frames) g g') :
    Resembles L F' { m with heap := g } { m' with heap := g' } where
  heap := hheap.mono (fun _ _ => rfl) fun _ _ hk => hgrows.marked hk
  current := h.current
  globals := h.globals
  distances := h.distances
  distances' := h.distances'
  objectClass := hgrows.classes h.objectClass
  sink := h.sink
  clock := h.clock
  unmarked := hgrows.marked h.unmarked
  outermost := (hgrows.enclosing _ h.unmarked.lt_size).trans h.outermost

/-- Machines still resemble each other with another current frame. -/
theorem moveTo (h : Resembles L F m m') (k : FrameId) :
    Resembles L F { m with current := k } { m' with current := k } :=
  { h with current := rfl }

/-- A reference finds its variable in the same frame, where its text names the variable. -/
theorem holder? (h : Resembles L F m m') {ms : List Bool} {x x' : Reference}
    (hms : Marked F m.heap.frames m.current ms) (hx : L.Refers ms x x') :
    m'.holder? x' = m.holder? x ∧
      ∀ k ∈ m.holder? x, L.Name (F k) x.name.lexeme x'.name.lexeme := by
  have hname := hx.name
  unfold Likeness.markOf at hname
  unfold Machine.holder?
  rw [h.distances, h.distances', hx.distance]
  cases hfind : L.table.find? x.id with
  | some distance =>
    rw [hfind] at hname
    have hat : ∀ k, m.heap.frames.ancestor? m.current distance = some k →
        L.Name (F k) x.name.lexeme x'.name.lexeme := fun k hk => by
      rwa [(hms distance k hk).2]
    refine ⟨?_, fun k hk => hat k (Option.filter_eq_some_iff.mp hk).1⟩
    dsimp only
    rw [h.current, h.heap.holderAt? hat]
  | none =>
    rw [hfind] at hname
    have hglobal : F m.globals = false := h.unmarked.head
    have hname' : L.Name (F m.globals) x.name.lexeme x'.name.lexeme := hglobal ▸ hname
    -- The global frame is the only one that is looked at.
    have hholder (fs : Frames) (name : String) (hfs : fs.enclosing? m.globals = none) :
        fs.holder? m.globals name =
          if (fs.local? m.globals name).isSome then some m.globals else none := by
      rw [Frames.holder?, hfs]
    dsimp only
    rw [h.globals, hholder _ _ ((h.heap.enclosing? _).trans h.outermost), hholder _ _ h.outermost,
      h.heap.isSome_local? hname']
    refine ⟨rfl, fun k hk => ?_⟩
    obtain ⟨_, heq⟩ := Option.ite_none_right_eq_some.mp hk
    obtain rfl := Option.some.inj heq
    exact hname'

end Resembles

namespace InStep

variable {L : Likeness} {F : FrameId → Bool} {m m' : Machine} {ms : List Bool}

/-! ## Output and time -/

/-- Corresponding values give the same text. -/
theorem textOf (h : Resembles L F m m') {v v' : Value}
    (hv : Values L (Marked F m.heap.frames) v v') :
    InStep L F m m' (textOf v) (textOf v') fun _ s s' => s' = s :=
  get (pure h (h.heap.text hv))

/-- Both try to write the same line, with the same answer. -/
theorem tryWriteLine (h : Resembles L F m m') (line : String) :
    InStep L F m m' (tryWriteLine line) (tryWriteLine line) fun _ b b' => b' = b := by
  have hwritten : Resembles L F { m with sink := (m.sink.writeLine line).1 }
      { m' with sink := (m'.sink.writeLine line).1 } :=
    { h with sink := by rw [h.sink, Sink.writeLine_later] }
  have hanswer : (m'.sink.writeLine line).2 = (m.sink.writeLine line).2 := by
    rw [h.sink, Sink.writeLine_later]
  exact .ok (.of_frames_eq rfl rfl (Nat.le_refl _) rfl (m.sink.onFlush_writeLine line)) hwritten
    hanswer

/-- Both write the same line. -/
theorem writeLine (h : Resembles L F m m') (line : String) :
    InStep L F m m' (writeLine line) (writeLine line) fun _ _ _ => True := by
  refine bind (tryWriteLine h line) fun F₁ n n' refused refused' _ hn heq => ?_
  subst heq
  cases refused' with
  | none => exact pure hn trivial
  | some reason => exact throw hn (.output reason)

/-- Both read the same time. -/
theorem readClock (h : Resembles L F m m') :
    InStep L F m m' readClock readClock fun _ x x' => x' = x := by
  have hlater : Resembles L F { m with clock := m.clock.read.2 }
      { m' with clock := m'.clock.read.2 } := { h with clock := by rw [h.clock] }
  exact .ok (.of_frames_eq rfl rfl (Nat.le_refl _) rfl rfl) hlater (by rw [h.clock])

/-! ## Frames and variables -/

/-- A new frame may have a mark. -/
theorem newFrame (h : Resembles L F m m') {outer : FrameId} (mark : Bool)
    {bindings bindings' : Bindings} (houter : Marked F m.heap.frames outer ms)
    (hbindings : Lookups L mark (Values L (Marked F m.heap.frames)) bindings bindings') :
    InStep L F m m' (newFrame outer bindings) (newFrame outer bindings') fun P k k' =>
      k' = k ∧ P k (mark :: ms) := by
  let F' : FrameId → Bool := fun k => if k = m.heap.frames.size then mark else F k
  have hold : ∀ k < m.heap.frames.size, F' k = F k := fun k hk => if_neg (Nat.ne_of_lt hk)
  have hnew : F' m.heap.frames.size = mark := if_pos rfl
  have hgrows : Grows F m F'
      { m with heap.frames := m.heap.frames.push ⟨bindings, some outer⟩ } := .push _ hold
  have hheap : Heaps L F' (Marked F m.heap.frames)
      { m.heap with frames := m.heap.frames.push ⟨bindings, some outer⟩ }
      { m'.heap with frames := m'.heap.frames.push ⟨bindings', some outer⟩ } :=
    (h.heap.mono hold fun _ _ => id).push (by rwa [hnew])
  exact .ok hgrows (h.setHeap hgrows hheap) ⟨h.heap.size_frames, houter.push hold hnew bindings⟩

/-- Both stay in step in a frame. -/
theorem inFrame {α β : Type} {x : Exec α} {x' : Exec β} (h : Resembles L F m m')
    {Q : (FrameId → List Bool → Prop) → α → β → Prop} {k : FrameId}
    (hx : InStep L F { m with current := k } { m' with current := k } x x' Q) :
    InStep L F m m' (inFrame k x) (inFrame k x') Q := by
  unfold InStep at hx
  show Ends L F m Q (Exec.inFrame k x m) (Exec.inFrame k x' m')
  unfold Exec.inFrame
  dsimp only
  rw [h.current]
  revert hx
  generalize x { m with current := k } = r
  generalize x' { m' with current := k } = r'
  intro hx
  -- Whichever way the steps end, the machines go back to the frame before.
  cases hx with
  | ok hg hn hab => exact .ok hg.leave (hn.moveTo _) hab
  | error hg hn he => exact .error hg.leave (hn.moveTo _) he

/-- Both bind corresponding names in a frame. -/
theorem defineIn (h : Resembles L F m m') {k : FrameId} {name name' : String} {v v' : Value}
    (hname : L.Name (F k) name name') (hv : Values L (Marked F m.heap.frames) v v') :
    InStep L F m m' (defineIn k name v) (defineIn k name' v') fun _ _ _ => True := by
  have hgrows := Grows.define (F := F) (m := m) k name v
  exact .ok hgrows (h.setHeap hgrows (h.heap.define hname hv)) trivial

/-- Both bind corresponding names in the current frame. -/
theorem define (h : Resembles L F m m') {name name' : String} {v v' : Value}
    (hname : L.Name (F m.current) name name') (hv : Values L (Marked F m.heap.frames) v v') :
    InStep L F m m' (define name v) (define name' v') fun _ _ _ => True := by
  refine get ?_
  rw [h.current]
  exact defineIn h hname hv

/-- After a name is bound in the current frame, it is bound there. -/
theorem define_bind {α β : Type} {f : Unit → Exec α} {f' : Unit → Exec β}
    {Q : (FrameId → List Bool → Prop) → α → β → Prop} (h : Resembles L F m m')
    {name name' : String} {v v' : Value} (hname : L.Name (F m.current) name name')
    (hv : Values L (Marked F m.heap.frames) v v') (hcurrent : m.current < m.heap.frames.size)
    (hf : ∀ n n', Grows F m F n → Resembles L F n n' →
      (n.heap.frames.local? n.current name).isSome → InStep L F n n' (f ()) (f' ()) Q) :
    InStep L F m m' (Exec.define name v >>= f) (Exec.define name' v' >>= f') Q := by
  have hgrows := Grows.define (F := F) (m := m) m.current name v
  have hn := h.setHeap hgrows (h.heap.define hname hv)
  have hbound : ((m.heap.frames.define m.current name v).local? m.current name).isSome := by
    rw [Frames.local?_define, if_pos ⟨rfl, hcurrent, rfl⟩]
    rfl
  rw [← h.current] at hn
  exact (hf _ _ hgrows (h.current ▸ hn) hbound).later hgrows

/-- The values that corresponding names have in one frame. -/
theorem getFrom (h : Resembles L F m m') {holder : Option FrameId} {t t' : Token}
    (hname : ∀ k ∈ holder, L.Name (F k) t.lexeme t'.lexeme)
    (he : Fails L (.program t.line (.undefinedVariable t.lexeme))
      (.program t'.line (.undefinedVariable t'.lexeme))) :
    InStep L F m m' (getFrom holder t) (getFrom holder t') (Values L) := by
  refine get (orFail h he ?_)
  cases holder with
  | none => exact .none
  | some k => exact h.heap.local? (hname k rfl)

/-- Both find corresponding values. -/
theorem lookUp (h : Resembles L F m m') (hms : Marked F m.heap.frames m.current ms)
    {x x' : Reference} (hx : L.Refers ms x x') :
    InStep L F m m' (lookUp x) (lookUp x') (Values L) := by
  obtain ⟨hholder, hname⟩ := h.holder? hms hx
  refine get ?_
  rw [hholder]
  exact getFrom h hname (.undefined hx)

/-- Both assign in a frame. -/
theorem assignIn (h : Resembles L F m m') {holder : Option FrameId} {t t' : Token} {v v' : Value}
    (hname : ∀ k ∈ holder, L.Name (F k) t.lexeme t'.lexeme)
    (he : Fails L (.program t.line (.undefinedVariable t.lexeme))
      (.program t'.line (.undefinedVariable t'.lexeme)))
    (hv : Values L (Marked F m.heap.frames) v v') :
    InStep L F m m' (assignIn holder t v) (assignIn holder t' v') fun _ _ _ => True := by
  cases holder with
  | none => exact throw h he
  | some k => exact defineIn h (hname k rfl) hv

/-- Both assign to corresponding references. -/
theorem assign (h : Resembles L F m m') (hms : Marked F m.heap.frames m.current ms)
    {x x' : Reference} (hx : L.Refers ms x x') {v v' : Value}
    (hv : Values L (Marked F m.heap.frames) v v') :
    InStep L F m m' (assign x v) (assign x' v') fun _ _ _ => True := by
  obtain ⟨hholder, hname⟩ := h.holder? hms hx
  refine get ?_
  rw [hholder]
  exact assignIn h hname (.undefined hx) hv

/-- A name that the current frame binds is given its value there. -/
theorem assignNearest (h : Resembles L F m m') {t t' : Token} (ht : L.Tokens t t')
    (hname : L.Name (F m.current) t.lexeme t.lexeme)
    (hbound : (m.heap.frames.local? m.current t.lexeme).isSome) {v v' : Value}
    (hv : Values L (Marked F m.heap.frames) v v') :
    InStep L F m m' (assignNearest t v) (assignNearest t' v') fun _ _ _ => True := by
  refine get ?_
  have hbound' := (h.heap.isSome_local? hname).trans hbound
  rw [h.current, ht.lexeme, Frames.holder?, if_pos hbound, Frames.holder?, if_pos hbound']
  refine assignIn h (fun k hk => ?_) ?_ hv
  · obtain rfl := Option.some.inj hk
    rwa [ht.lexeme]
  · rw [ht.lexeme]
    exact .program _ ht.line

/-- The values of corresponding names in the frame at a distance. -/
theorem getAt (h : Resembles L F m m') (distance : Nat) {t t' : Token}
    (hname : ∀ k, m.heap.frames.ancestor? m.current distance = some k →
      L.Name (F k) t.lexeme t'.lexeme)
    (he : Fails L (.program t.line (.undefinedVariable t.lexeme))
      (.program t'.line (.undefinedVariable t'.lexeme))) :
    InStep L F m m' (getAt distance t) (getAt distance t') (Values L) := by
  refine get ?_
  rw [h.current, h.heap.holderAt? hname]
  exact getFrom h (fun k hk => hname k (Option.filter_eq_some_iff.mp hk).1) he

/-! ## Functions, classes, objects and arrays -/

/-- Both give out the same identity. -/
theorem freshIdentity (h : Resembles L F m m') :
    InStep L F m m' freshIdentity freshIdentity fun P id id' => id' = id ∧
      P = Marked F m.heap.frames := by
  have hgrows : Grows F m F { m with heap.nextIdentity := m.heap.nextIdentity + 1 } :=
    .of_frames_eq rfl rfl (Nat.le_succ _) rfl rfl
  have hheap : Heaps L F (Marked F m.heap.frames)
      { m.heap with nextIdentity := m.heap.nextIdentity + 1 }
      { m'.heap with nextIdentity := m'.heap.nextIdentity + 1 } :=
    { h.heap with nextIdentity := by rw [h.heap.nextIdentity] }
  exact .ok hgrows (h.setHeap hgrows hheap) ⟨h.heap.nextIdentity, rfl⟩

/-- Both make corresponding functions. -/
theorem newFunction (h : Resembles L F m m') {f f' : Function}
    (hf : Functions L (Marked F m.heap.frames) [] f f') :
    InStep L F m m' (newFunction f) (newFunction f') (Values L) := by
  refine bind (freshIdentity h) ?_
  rintro F₁ n n' id _ hgrows hn ⟨rfl, _⟩
  exact pure hn (.function (hf.mono fun _ _ hk => hgrows.marked hk))

/-- Both make corresponding closures. -/
theorem closure (h : Resembles L F m m') (hms : Marked F m.heap.frames m.current ms)
    {f f' : FunctionDecl} (hf : Alike L ms (.function f) (.function f')) :
    InStep L F m m' (closure f) (closure f') (Values L) :=
  get (newFunction h ⟨h.current, rfl, ms, hms, hf⟩)

/-- Binding a receiver puts a frame around a method that is not marked. -/
theorem bindMethod (h : Resembles L F m m') {f f' : Function}
    (hf : Methods L (Marked F m.heap.frames) f f') {v v' : Value}
    (hv : Values L (Marked F m.heap.frames) v v') :
    InStep L F m m' (Exec.bind f v) (Exec.bind f' v') fun P g g' => Functions L P [] g g' := by
  obtain ⟨hframe, hinit, ms, hms, hdecl⟩ := hf
  unfold Exec.bind
  rw [hframe]
  have hthis : L.Name false "this" "this" := rfl
  refine bind (newFrame h false hms (.single hthis hv)) ?_
  rintro F₁ n n' k _ hgrows hn ⟨rfl, hk⟩
  exact pure hn ⟨rfl, hinit, false :: ms, hk, hdecl⟩

/-- Both make corresponding classes. -/
theorem newClass (h : Resembles L F m m') (name : String) {supers supers' : List Class}
    {methods methods' : List (String × Function)}
    (hsupers : Classes L (Marked F m.heap.frames) supers supers')
    (hmethods : Entries L false (Methods L (Marked F m.heap.frames)) methods methods') :
    InStep L F m m' (newClass name supers methods) (newClass name supers' methods')
      fun P c c' => Classes L P [c] [c'] := by
  refine bind (freshIdentity h) ?_
  rintro F₁ n n' id _ hgrows hn ⟨rfl, _⟩
  have hmethods := hmethods.imp fun _ _ hf => hf.mono fun _ _ hk => hgrows.marked hk
  exact pure hn (.cons (hgrows.classes hsupers) hmethods .nil)

/-- Both make corresponding objects. -/
theorem newObject (h : Resembles L F m m') {object object' : Object}
    (hcls : Classes L (Marked F m.heap.frames) [object.cls] [object'.cls])
    (hfields : Lookups L false (Values L (Marked F m.heap.frames)) object.fields object'.fields) :
    InStep L F m m' (newObject object) (newObject object') (Values L) := by
  have hgrows : Grows F m F { m with heap.objects := m.heap.objects.push object } :=
    .of_frames_eq rfl rfl (Nat.le_refl _) rfl rfl
  refine .ok hgrows (h.setHeap hgrows (h.heap.newObject hcls hfields)) ?_
  rw [h.heap.objects.size]
  exact .object _

/-- The objects that values are. -/
theorem object? (h : Resembles L F m m') {v v' : Value}
    (hv : Values L (Marked F m.heap.frames) v v') :
    InStep L F m m' (object? v) (object? v') fun P => Option.Rel fun o o' =>
      Classes L P [o.cls] [o'.cls] ∧ Lookups L false (Values L P) o.fields o'.fields := by
  cases hv with
  | object id => exact get (pure h (h.heap.objects.getElem? id))
  | _ => exact pure h .none

/-- Both set a field. -/
theorem setField (h : Resembles L F m m') (id : ObjectId) (name : String) {v v' : Value}
    (hv : Values L (Marked F m.heap.frames) v v') :
    InStep L F m m' (setField id name v) (setField id name v') fun _ _ _ => True := by
  refine .ok ?_ (h.setHeap ?_ (h.heap.setField id name hv)) trivial <;>
    exact .of_frames_eq rfl rfl (Nat.le_refl _) rfl rfl

/-- Both make corresponding arrays. -/
theorem newArray (h : Resembles L F m m') {vs vs' : List Value}
    (hvs : List.Forall₂ (Values L (Marked F m.heap.frames)) vs vs') :
    InStep L F m m' (newArray vs) (newArray vs') (Values L) := by
  have hgrows : Grows F m F { m with heap.arrays := m.heap.arrays.push vs.toArray } :=
    .of_frames_eq rfl rfl (Nat.le_refl _) rfl rfl
  refine .ok hgrows (h.setHeap hgrows (h.heap.newArray hvs)) ?_
  rw [h.heap.arrays.size]
  exact .array _

/-- Both set an element. -/
theorem setElement (h : Resembles L F m m') (id : ArrayId) (index : Nat) {v v' : Value}
    (hv : Values L (Marked F m.heap.frames) v v') :
    InStep L F m m' (setElement id index v) (setElement id index v') fun _ _ _ => True := by
  refine .ok ?_ (h.setHeap ?_ (h.heap.setElement id index hv)) trivial <;>
    exact .of_frames_eq rfl rfl (Nat.le_refl _) rfl rfl

end InStep

end Lox.Eval

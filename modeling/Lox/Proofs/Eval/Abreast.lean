import Lox.Eval
import Lox.Proofs.Eval.Shedding

/-!
# Steps that go abreast

Two steps on machines of which one lacks the extra frames of the other go abreast if they end alike:
both succeed, with results that are related and on machines that correspond again, or both fail in
the same way. They may have different budgets, and nothing is said if the one with the smaller
budget uses it up. `Abreast` says so. The lemmas of this file are about the steps that evaluation is
made of.
-/

namespace Lox.Eval

open Scoping Exec

/-- Which of two runs may use up its budget before the other one ends. -/
inductive Side where
  /-- The first. -/
  | first
  /-- The second. -/
  | second

/-- The run that may use up its budget has the smaller one. If that is the second, the first has
some budget to spare. -/
def Side.Allows : Side → Nat → Nat → Nat → Prop
  | .first, _, b, b' => b ≤ b'
  | .second, spare, b, b' => b' + spare ≤ b

namespace Side.Allows

variable {side : Side} {spare b b' : Nat}

/-- The two budgets of runs that have some budget left can be made smaller by one. -/
theorem cases (h : side.Allows spare b b') :
    side = .first ∧ b = 0 ∨ side = .second ∧ b' = 0 ∨
      ∃ c c', b = c + 1 ∧ b' = c' + 1 ∧ side.Allows spare c c' := by
  cases side with
  | first =>
    obtain _ | c := b
    · exact .inl ⟨rfl, rfl⟩
    · obtain ⟨c', rfl⟩ := Nat.exists_eq_add_one_of_ne_zero (Nat.ne_zero_of_lt h)
      exact .inr (.inr ⟨c, c', rfl, rfl, Nat.le_of_succ_le_succ h⟩)
  | second =>
    have hle : b' + spare ≤ b := h
    obtain _ | c' := b'
    · exact .inr (.inl ⟨rfl, rfl⟩)
    · obtain ⟨c, rfl⟩ : ∃ c, b = c + 1 := Nat.exists_eq_add_one_of_ne_zero (by omega)
      refine .inr (.inr ⟨c, c', rfl, rfl, ?_⟩)
      show c' + spare ≤ c
      omega

/-- What is to spare may be used. -/
theorem spend (h : side.Allows (spare + 1) b b') :
    side = .first ∧ b = 0 ∨ ∃ c, b = c + 1 ∧ side.Allows spare c b' := by
  cases side with
  | first =>
    have hle : b ≤ b' := h
    obtain _ | c := b
    · exact .inl ⟨rfl, rfl⟩
    · exact .inr ⟨c, rfl, Nat.le_of_succ_le hle⟩
  | second =>
    have hle : b' + (spare + 1) ≤ b := h
    obtain ⟨c, rfl⟩ : ∃ c, b = c + 1 := Nat.exists_eq_add_one_of_ne_zero (by omega)
    refine .inr ⟨c, rfl, ?_⟩
    show b' + spare ≤ c
    omega

/-- What is to spare need not be used. -/
theorem save (h : side.Allows spare b b') {rest : Nat} (hrest : rest ≤ spare) :
    side.Allows rest b b' := by
  cases side with
  | first => exact h
  | second => exact Nat.le_trans (Nat.add_le_add_left hrest b') h

end Side.Allows

namespace Trim

/-- Two values correspond when there are the given frames. -/
abbrev Same (τ : Trim) (fs : Frames) : Value → Value → Prop :=
  Values (τ.Functions fs)

section Abreast

variable {α β γ δ : Type}

/-- How two steps end, from a machine: on machines that correspond, with related results or with one
failure, unless one has used up its budget. -/
inductive Ends (side : Side) (τ : Trim) (m : Machine) (Q : Frames → α → β → Prop) :
    EStateM.Result Failure Machine α → EStateM.Result Failure Machine β → Prop
  | ok {n n' : Machine} {a : α} {b : β} (hext : m.Extends n) (h : Trims τ n n')
      (hab : Q n.heap.frames a b) : Ends side τ m Q (.ok a n) (.ok b n')
  | error {n n' : Machine} {e : Failure} (hext : m.Extends n) (h : Trims τ n n') :
    Ends side τ m Q (.error e n) (.error e n')
  | firstSpent {n : Machine} {r' : EStateM.Result Failure Machine β} (hside : side = .first) :
    Ends side τ m Q (.error .exhausted n) r'
  | secondSpent {r : EStateM.Result Failure Machine α} {n' : Machine} (hside : side = .second) :
    Ends side τ m Q r (.error .exhausted n')

/-- Two steps end alike. What relates their results may depend on the frames at the end. -/
def Abreast (side : Side) (τ : Trim) (m m' : Machine) (x : Exec α) (x' : Exec β)
    (Q : Frames → α → β → Prop) : Prop :=
  Ends side τ m Q (x m) (x' m')

variable {side : Side} {τ : Trim} {m m' n : Machine} {x : Exec α} {x' : Exec β} {f : α → Exec γ}
  {f' : β → Exec δ} {Q : Frames → α → β → Prop} {S : Frames → γ → δ → Prop}

/-- What ends alike from a later machine does so from an earlier one. -/
theorem Ends.later {r : EStateM.Result Failure Machine α} {r' : EStateM.Result Failure Machine β}
    (h : Ends side τ n Q r r') (hext : m.Extends n) : Ends side τ m Q r r' := by
  cases h with
  | ok hext' h hab => exact .ok (hext.trans hext') h hab
  | error hext' h => exact .error (hext.trans hext') h
  | firstSpent hside => exact .firstSpent hside
  | secondSpent hside => exact .secondSpent hside

namespace Abreast

/-- One step after another. -/
theorem bind (hx : Abreast side τ m m' x x' Q)
    (hf : ∀ n n' a b, m.Extends n → Trims τ n n' → Q n.heap.frames a b →
      Abreast side τ n n' (f a) (f' b) S) :
    Abreast side τ m m' (x >>= f) (x' >>= f') S := by
  unfold Abreast at hx ⊢
  generalize hr : x m = r at hx
  generalize hr' : x' m' = r' at hx
  cases hx with
  | ok hext h hab =>
    rw [bind_of_ok hr, bind_of_ok hr']
    exact (hf _ _ _ _ hext h hab).later hext
  | error hext h =>
    rw [bind_of_error hr, bind_of_error hr']
    exact .error hext h
  | firstSpent hside =>
    rw [bind_of_error hr]
    exact .firstSpent hside
  | secondSpent hside =>
    rw [bind_of_error hr']
    exact .secondSpent hside

/-- Giving corresponding values stays abreast. -/
theorem pure (h : Trims τ m m') {a : α} {b : β} (hab : Q m.heap.frames a b) :
    Abreast side τ m m' (pure a) (pure b) Q :=
  .ok (.refl m) h hab

/-- The same failure stays abreast. -/
theorem throw (h : Trims τ m m') (e : Failure) :
    Abreast side τ m m' (throw e : Exec α) (throw e : Exec β) Q :=
  .error (.refl m) h

/-- The same error of the program stays abreast. -/
theorem fail (h : Trims τ m m') (t : Token) (cause : Cause) :
    Abreast side τ m m' (Exec.fail t cause : Exec α) (Exec.fail t cause : Exec β) Q :=
  throw h _

/-- Two steps that look at their machines. -/
theorem get {f : Machine → Exec γ} {f' : Machine → Exec δ}
    (h : Abreast side τ m m' (f m) (f' m') S) :
    Abreast side τ m m' (get >>= f) (get >>= f') S :=
  h

/-- Two results, or one failure if there are none. -/
theorem orFail (h : Trims τ m m') (t : Token) (cause : Cause) {y : Option α} {y' : Option β}
    (hy : Option.Rel (Q m.heap.frames) y y') :
    Abreast side τ m m' (Exec.orFail t cause y) (Exec.orFail t cause y') Q := by
  cases hy with
  | none => exact fail h t cause
  | some hab => exact pure h hab

/-- Two steps that only read. -/
theorem readOnly (h : Trims τ m m') {t : Token}
    (hx : ReadOnly m.heap m'.heap t t (Q m.heap.frames) x x') : Abreast side τ m m' x x' Q := by
  unfold Abreast
  cases hx with
  | ok hab hx hx' =>
    rw [hx m rfl, hx' m' rfl]
    exact .ok (.refl m) h hab
  | error cause hx hx' =>
    rw [hx m rfl, hx' m' rfl]
    exact .error (.refl m) h

end Abreast

end Abreast

end Trim

/-! ## Changes of machines -/

namespace Trims

variable {τ : Trim} {m m' n : Machine}

/-- What corresponds still does later on. -/
theorem same (h : Trims τ m m') (hext : m.Extends n) {v v' : Value}
    (hv : τ.Same m.heap.frames v v') : τ.Same n.heap.frames v v' :=
  hv.mono fun _ _ _ => h.mono hext.toKeeps

/-- Corresponding values correspond later on. -/
theorem sames (h : Trims τ m m') (hext : m.Extends n) {vs vs' : List Value}
    (hvs : List.Forall₂ (τ.Same m.heap.frames) vs vs') :
    List.Forall₂ (τ.Same n.heap.frames) vs vs' :=
  hvs.imp fun _ _ => h.same hext

/-- Corresponding bindings correspond later on. -/
theorem bound (h : Trims τ m m') (hext : m.Extends n) {b b' : Bindings}
    (hb : Bound (τ.Same m.heap.frames) b b') : Bound (τ.Same n.heap.frames) b b' :=
  hb.imp fun _ _ => h.same hext

/-- Corresponding classes correspond later on. -/
theorem classes (h : Trims τ m m') (hext : m.Extends n) {cs cs' : List Class}
    (hcs : Trim.Classes (τ.Functions m.heap.frames) cs cs') :
    Trim.Classes (τ.Functions n.heap.frames) cs cs' :=
  hcs.mono fun _ _ _ => h.mono hext.toKeeps

end Trims

/-- Two visits stand beside each other: the second is of a copy of the first one's piece, and the
frames from a frame on match the scopes around both. -/
structure Beside (τ : Trim) (fs : Frames) (k : FrameId) (v v' : Visit) : Prop where
  /-- The second visit is of a copy. -/
  paired : Visit.Paired τ.table τ.table' v v'
  /-- The frames match the scopes. -/
  sheds : Sheds τ fs k v.walk.scopes v'.walk.scopes

namespace Beside

variable {τ : Trim} {fs : Frames} {k : FrameId} {v v' : Visit} {m m' n : Machine}

/-- What stands beside each other still does later on. -/
theorem later (h : Beside τ m.heap.frames m.current v v') (hext : m.Extends n) :
    Beside τ n.heap.frames n.current v v' := by
  rw [hext.current]
  exact ⟨h.paired, h.sheds.mono hext.enclosing (.refl τ _)⟩

/-- A name is found in corresponding frames that are not extra. -/
theorem ancestor {V : Value → Value → Prop} {fs' : Frames} (h : Beside τ fs k v v')
    (hfs : τ.Placed V fs fs') (name : String) :
    Option.Rel (fun distance distance' => ∃ j, fs.ancestor? k distance = some j ∧
      τ.extra j = false ∧ fs'.ancestor? (τ.place k) distance' = some (τ.place j))
      (depth? v.walk.scopes name) (depth? v'.walk.scopes name) :=
  h.sheds.ancestor hfs rfl

end Beside

namespace Trims

variable {τ : Trim} {m m' : Machine} {v v' : Visit} {x x' : Reference}

/-- A frame at a distance binds a name if the corresponding frame does. -/
theorem holderAt? (h : Trims τ m m') {k j : FrameId} {distance distance' : Nat}
    (hj : m.heap.frames.ancestor? k distance = some j) (hextra : τ.extra j = false)
    (hj' : m'.heap.frames.ancestor? (τ.place k) distance' = some (τ.place j)) (name : String) :
    m'.heap.frames.holderAt? (τ.place k) distance' name =
        (m.heap.frames.holderAt? k distance name).map τ.place ∧
      ∀ holder ∈ m.heap.frames.holderAt? k distance name, τ.extra holder = false := by
  have hsome := h.heap.frames.isSome_local? hextra name
  unfold Frames.holderAt?
  rw [hj, hj', Option.filter_some, Option.filter_some, hsome]
  split
  · refine ⟨rfl, fun holder hholder => ?_⟩
    obtain rfl := Option.some.inj hholder
    exact hextra
  · exact ⟨rfl, fun holder hholder => by simp at hholder⟩

/-- A reference and its copy are to variables of corresponding frames. -/
theorem holder? (h : Trims τ m m') (hv : Beside τ m.heap.frames m.current v v')
    (hx : v.own? = some x) (hx' : v'.own? = some x') :
    m'.holder? x' = (m.holder? x).map τ.place ∧ (∀ k ∈ m.holder? x, τ.extra k = false) ∧
      x'.name = x.name := by
  obtain ⟨shift, hcopies⟩ := hv.paired.copies
  have hown := hcopies.own?
  rw [hx, hx'] at hown
  obtain rfl := Option.some.inj hown
  have hfound : τ.table.find? x.id = depth? v.walk.scopes x.name.lexeme :=
    hv.paired.recorded.self x hx
  have hfound' : τ.table'.find? (movedReference id shift x).id =
      depth? v'.walk.scopes x.name.lexeme := hv.paired.recorded'.self _ hx'
  rw [← and_assoc]
  refine ⟨?_, rfl⟩
  have hname : (movedReference id shift x).name.lexeme = x.name.lexeme := rfl
  unfold Machine.holder?
  rw [h.distances, h.distances', hfound, hfound', hname]
  obtain ⟨hnone, hnone'⟩ | ⟨i, i', hi, hi', j, hj, hextra, hj'⟩ :=
    rel_cases (hv.ancestor h.heap.frames x.name.lexeme)
  · rw [hnone, hnone']
    -- The global frame is the only one that is looked at.
    have hholder (fs : Frames) (k : FrameId) (name : String) (hfs : fs.enclosing? k = none) :
        fs.holder? k name = if (fs.local? k name).isSome then some k else none := by
      rw [Frames.holder?, hfs]
    have houter' : m'.heap.frames.enclosing? (τ.place τ.globals) = none := by
      rw [h.heap.frames.enclosing? h.globals_shared, h.outermost]
      rfl
    dsimp only
    rw [h.globals, h.globals', hholder _ _ _ h.outermost, hholder _ _ _ houter',
      h.heap.frames.isSome_local? h.globals_shared]
    split
    · refine ⟨rfl, fun k hk => ?_⟩
      obtain rfl := Option.some.inj hk
      exact h.globals_shared
    · exact ⟨rfl, fun k hk => by simp at hk⟩
  · rw [hi, hi']
    dsimp only
    rw [h.current]
    exact h.holderAt? hj hextra hj' _

end Trims

namespace Trim.Abreast

variable {side : Side} {τ : Trim} {m m' : Machine} {v v' : Visit}

/-! ## Output and time -/

/-- Corresponding values give the same text. -/
theorem textOf (h : Trims τ m m') {a a' : Value} (ha : τ.Same m.heap.frames a a') :
    Abreast side τ m m' (textOf a) (textOf a') fun _ s s' => s' = s :=
  get (pure h (h.heap.text ha))

/-- Both try to write the same line, with the same answer. -/
theorem tryWriteLine (h : Trims τ m m') (line : String) :
    Abreast side τ m m' (tryWriteLine line) (tryWriteLine line) fun _ b b' => b' = b := by
  have hwritten : Trims τ { m with sink := (m.sink.writeLine line).1 }
      { m' with sink := (m'.sink.writeLine line).1 } := { h with sink := by rw [h.sink] }
  exact .ok ⟨.of_frames_eq rfl rfl (Nat.le_refl _), rfl, rfl, rfl⟩ hwritten (by rw [h.sink])

/-- Both write the same line. -/
theorem writeLine (h : Trims τ m m') (line : String) :
    Abreast side τ m m' (writeLine line) (writeLine line) fun _ _ _ => True := by
  refine bind (tryWriteLine h line) fun n n' refused refused' _ hn heq => ?_
  subst heq
  cases refused' with
  | none => exact pure hn trivial
  | some reason => exact throw hn _

/-- Both read the same time. -/
theorem readClock (h : Trims τ m m') :
    Abreast side τ m m' readClock readClock fun _ x x' => x' = x := by
  have hlater : Trims τ { m with clock := m.clock.read.2 } { m' with clock := m'.clock.read.2 } :=
    { h with clock := by rw [h.clock] }
  exact .ok ⟨.of_frames_eq rfl rfl (Nat.le_refl _), rfl, rfl, rfl⟩ hlater (by rw [h.clock])

/-! ## Frames and variables -/

/-- A new frame in both machines. -/
theorem newFrame (h : Trims τ m m') {outer : FrameId} {scopes scopes' : List Scope}
    (houter : Sheds τ m.heap.frames outer scopes scopes') {bindings bindings' : Bindings}
    (hbindings : Bound (τ.Same m.heap.frames) bindings bindings') :
    Abreast side τ m m' (newFrame outer bindings) (newFrame (τ.place outer) bindings')
      fun fs k k' => k' = τ.place k ∧ τ.extra k = false ∧
        ∀ scope, Sheds τ fs k (scope :: scopes) (scope :: scopes') := by
  have hkeeps := Machine.Keeps.push m ⟨bindings, some outer⟩
  have hnext := h.heap.frames.next_place
  have hframes := h.heap.frames.push hbindings (houter.lt_size h.globals_lt)
  refine .ok ⟨hkeeps, rfl, rfl, rfl⟩ (h.setHeap hkeeps (h.heap.setFrames hframes)) ?_
  have henclosing : (m.heap.frames.push ⟨bindings, some outer⟩).enclosing? m.heap.frames.size =
      some outer := (Frames.enclosing?_push ..).trans (if_pos rfl)
  refine ⟨hnext.2.symm, hnext.1, fun scope => .shared hnext.1 henclosing ?_⟩
  exact houter.mono hkeeps.enclosing (.refl τ _)

/-- Both stay abreast in a frame and its place. -/
theorem inFrame {α β : Type} {x : Exec α} {x' : Exec β} {Q : Frames → α → β → Prop}
    (h : Trims τ m m') {k : FrameId}
    (hx : Abreast side τ { m with current := k } { m' with current := τ.place k } x x' Q) :
    Abreast side τ m m' (inFrame k x) (inFrame (τ.place k) x') Q := by
  unfold Abreast at hx ⊢
  unfold Exec.inFrame
  dsimp only
  rw [h.current]
  generalize x { m with current := k } = r at hx
  generalize x' { m' with current := τ.place k } = r' at hx
  -- Whichever way the steps end, the machines go back to the frames before.
  cases hx with
  | ok hext hn hab => exact .ok hext.leave (hn.moveTo _) hab
  | error hext hn => exact .error hext.leave (hn.moveTo _)
  | firstSpent hside => exact .firstSpent hside
  | secondSpent hside =>
    dsimp only
    exact .secondSpent hside

/-- Both bind a name in a frame and its place. -/
theorem defineIn (h : Trims τ m m') {k : FrameId} (hk : τ.extra k = false) (name : String)
    {a a' : Value} (ha : τ.Same m.heap.frames a a') :
    Abreast side τ m m' (defineIn k name a) (defineIn (τ.place k) name a') fun _ _ _ => True := by
  have hkeeps := Machine.Keeps.define m k name a
  have hframes := h.heap.frames.define hk name ha
  exact .ok ⟨hkeeps, rfl, rfl, rfl⟩ (h.setHeap hkeeps (h.heap.setFrames hframes)) trivial

/-- Both bind a name in their current frames. -/
theorem define (h : Trims τ m m') (hcurrent : τ.extra m.current = false) (name : String)
    {a a' : Value} (ha : τ.Same m.heap.frames a a') :
    Abreast side τ m m' (define name a) (define name a') fun _ _ _ => True := by
  refine get ?_
  rw [h.current]
  exact defineIn h hcurrent name ha

/-- After a name is bound in the current frame, it is bound there. -/
theorem define_bind {α β : Type} {f : Unit → Exec α} {f' : Unit → Exec β}
    {Q : Frames → α → β → Prop} (h : Trims τ m m') (hcurrent : τ.extra m.current = false)
    (hlt : m.current < m.heap.frames.size) (name : String) {a a' : Value}
    (ha : τ.Same m.heap.frames a a')
    (hf : ∀ n n', m.Extends n → Trims τ n n' → (n.heap.frames.local? n.current name).isSome →
      Abreast side τ n n' (f ()) (f' ()) Q) :
    Abreast side τ m m' (Exec.define name a >>= f) (Exec.define name a' >>= f') Q := by
  have hext : m.Extends { m with heap.frames := m.heap.frames.define m.current name a } :=
    ⟨.define m m.current name a, rfl, rfl, rfl⟩
  have hframes := h.heap.frames.define hcurrent name ha
  have hn := h.setHeap hext.toKeeps (h.heap.setFrames hframes)
  rw [← h.current] at hn
  have hbound : ((m.heap.frames.define m.current name a).local? m.current name).isSome := by
    rw [Frames.local?_define, if_pos ⟨rfl, hlt, rfl⟩]
    rfl
  exact (hf _ _ hext hn hbound).later hext

/-- The values that a name has in corresponding frames. -/
theorem getFrom (h : Trims τ m m') {holder : Option FrameId}
    (hholder : ∀ k ∈ holder, τ.extra k = false) (t : Token) :
    Abreast side τ m m' (getFrom holder t) (getFrom (holder.map τ.place) t) τ.Same := by
  refine get (orFail h _ _ ?_)
  cases holder with
  | none => exact .none
  | some k => exact h.heap.frames.local? (hholder k rfl) _

/-- Both find corresponding values. -/
theorem lookUp (h : Trims τ m m') (hv : Beside τ m.heap.frames m.current v v') {x x' : Reference}
    (hx : v.own? = some x) (hx' : v'.own? = some x') :
    Abreast side τ m m' (lookUp x) (lookUp x') τ.Same := by
  obtain ⟨hholder, hextra, hname⟩ := h.holder? hv hx hx'
  refine get ?_
  rw [hholder, hname]
  exact getFrom h hextra _

/-- Both assign in a frame and its place. -/
theorem assignIn (h : Trims τ m m') {holder : Option FrameId}
    (hholder : ∀ k ∈ holder, τ.extra k = false) (t : Token) {a a' : Value}
    (ha : τ.Same m.heap.frames a a') :
    Abreast side τ m m' (assignIn holder t a) (assignIn (holder.map τ.place) t a')
      fun _ _ _ => True := by
  cases holder with
  | none => exact fail h _ _
  | some k => exact defineIn h (hholder k rfl) _ ha

/-- Both assign to a reference. -/
theorem assign (h : Trims τ m m') (hv : Beside τ m.heap.frames m.current v v') {x x' : Reference}
    (hx : v.own? = some x) (hx' : v'.own? = some x') {a a' : Value}
    (ha : τ.Same m.heap.frames a a') :
    Abreast side τ m m' (assign x a) (assign x' a') fun _ _ _ => True := by
  obtain ⟨hholder, hextra, hname⟩ := h.holder? hv hx hx'
  refine get ?_
  rw [hholder, hname]
  exact assignIn h hextra _ ha

/-- A name that the current frame binds is given its value there. -/
theorem assignNearest (h : Trims τ m m') (hcurrent : τ.extra m.current = false) {t : Token}
    (hbound : (m.heap.frames.local? m.current t.lexeme).isSome) {a a' : Value}
    (ha : τ.Same m.heap.frames a a') :
    Abreast side τ m m' (assignNearest t a) (assignNearest t a') fun _ _ _ => True := by
  refine get ?_
  have hbound' := (h.heap.frames.isSome_local? hcurrent t.lexeme).trans hbound
  rw [h.current, Frames.holder?, if_pos hbound, Frames.holder?, if_pos hbound']
  have hholder : ∀ k ∈ some m.current, τ.extra k = false :=
    fun k hk => Option.some.inj hk ▸ hcurrent
  exact assignIn h hholder t ha

/-- The values of a name in corresponding frames at some distances. -/
theorem getAt (h : Trims τ m m') {j : FrameId} {distance distance' : Nat}
    (hj : m.heap.frames.ancestor? m.current distance = some j) (hextra : τ.extra j = false)
    (hj' : m'.heap.frames.ancestor? (τ.place m.current) distance' = some (τ.place j)) (t : Token) :
    Abreast side τ m m' (getAt distance t) (getAt distance' t) τ.Same := by
  obtain ⟨hholder, hextra⟩ := h.holderAt? hj hextra hj' t.lexeme
  refine get ?_
  rw [h.current, hholder]
  exact getFrom h hextra t

/-! ## Functions, classes, objects and arrays -/

/-- Both give out the same identity. -/
theorem freshIdentity (h : Trims τ m m') :
    Abreast side τ m m' freshIdentity freshIdentity fun _ id id' => id' = id := by
  have hext : m.Extends { m with heap.nextIdentity := m.heap.nextIdentity + 1 } :=
    ⟨.of_frames_eq rfl rfl (Nat.le_succ _), rfl, rfl, rfl⟩
  have hheap : τ.Heaps (τ.Functions m.heap.frames)
      { m.heap with nextIdentity := m.heap.nextIdentity + 1 }
      { m'.heap with nextIdentity := m'.heap.nextIdentity + 1 } :=
    { h.heap with nextIdentity := by rw [h.heap.nextIdentity] }
  exact .ok hext (h.setHeap hext.toKeeps hheap) h.heap.nextIdentity

/-- Both make corresponding functions. -/
theorem newFunction (h : Trims τ m m') {f f' : Function}
    (hf : τ.Functions m.heap.frames [] f f') :
    Abreast side τ m m' (newFunction f) (newFunction f') τ.Same := by
  refine bind (freshIdentity h) ?_
  rintro n n' id _ hext hn rfl
  exact pure hn (.function (h.mono hext.toKeeps hf))

/-- Both make corresponding closures. -/
theorem closure (h : Trims τ m m') (hv : Beside τ m.heap.frames m.current v v')
    {f f' : FunctionDecl} (hf : v.piece = .function f) (hf' : v'.piece = .function f') :
    Abreast side τ m m' (closure f) (closure f') τ.Same := by
  refine get (newFunction h ⟨h.current, rfl, fun _ hinit => by simp at hinit, ?_⟩)
  exact ⟨v, v', _, _, hv.paired, hf, hf', rfl, rfl, hv.sheds⟩

/-- Binding a receiver puts a frame around a method that is not extra. -/
theorem bindMethod (h : Trims τ m m') {f f' : Function}
    (hf : Match.Methods (τ.Functions m.heap.frames) f f') {a a' : Value}
    (ha : τ.Same m.heap.frames a a') :
    Abreast side τ m m' (Exec.bind f a) (Exec.bind f' a') fun fs => τ.Functions fs [] := by
  obtain ⟨hframe, hinit, _, v, v', scopes, scopes', hpaired, hpiece, hpiece', hv, hv', hsheds⟩ := hf
  unfold Exec.bind
  rw [hframe]
  refine bind (newFrame h hsheds (.single _ ha)) ?_
  rintro n n' k _ hext hn ⟨rfl, hk, hchain⟩
  exact pure hn ⟨rfl, hinit, fun _ _ => hk, v, v', _, _, hpaired, hpiece, hpiece', hv, hv',
    hchain _⟩

/-- Both make corresponding classes. -/
theorem newClass (h : Trims τ m m') (name : String) {supers supers' : List Class}
    {methods methods' : List (String × Function)}
    (hsupers : Classes (τ.Functions m.heap.frames) supers supers')
    (hmethods : Bound (Match.Methods (τ.Functions m.heap.frames)) methods methods') :
    Abreast side τ m m' (newClass name supers methods) (newClass name supers' methods')
      fun fs c c' => Classes (τ.Functions fs) [c] [c'] := by
  refine bind (freshIdentity h) ?_
  rintro n n' id _ hext hn rfl
  exact pure hn (.cons (h.classes hext hsupers)
    (hmethods.imp fun _ _ => h.mono hext.toKeeps) .nil)

/-- Both make corresponding objects. -/
theorem newObject (h : Trims τ m m') {object object' : Object}
    (hcls : Classes (τ.Functions m.heap.frames) [object.cls] [object'.cls])
    (hfields : Bound (τ.Same m.heap.frames) object.fields object'.fields) :
    Abreast side τ m m' (newObject object) (newObject object') τ.Same := by
  have hext : m.Extends { m with heap.objects := m.heap.objects.push object } :=
    ⟨.of_frames_eq rfl rfl (Nat.le_refl _), rfl, rfl, rfl⟩
  refine .ok hext (h.setHeap hext.toKeeps (h.heap.newObject hcls hfields)) ?_
  rw [h.heap.objects.size]
  exact .object _

/-- The objects that values are. -/
theorem object? (h : Trims τ m m') {a a' : Value} (ha : τ.Same m.heap.frames a a') :
    Abreast side τ m m' (object? a) (object? a') fun fs => Option.Rel fun o o' =>
      Classes (τ.Functions fs) [o.cls] [o'.cls] ∧ Bound (τ.Same fs) o.fields o'.fields := by
  cases ha with
  | object id => exact get (pure h (h.heap.objects.getElem? id))
  | _ => exact pure h .none

/-- Both set a field. -/
theorem setField (h : Trims τ m m') (id : ObjectId) (name : String) {a a' : Value}
    (ha : τ.Same m.heap.frames a a') :
    Abreast side τ m m' (setField id name a) (setField id name a') fun _ _ _ => True := by
  refine .ok ?_ (h.setHeap ?_ (h.heap.setField id name ha)) trivial
  · exact ⟨.of_frames_eq rfl rfl (Nat.le_refl _), rfl, rfl, rfl⟩
  · exact .of_frames_eq rfl rfl (Nat.le_refl _)

/-- Both make corresponding arrays. -/
theorem newArray (h : Trims τ m m') {vs vs' : List Value}
    (hvs : List.Forall₂ (τ.Same m.heap.frames) vs vs') :
    Abreast side τ m m' (newArray vs) (newArray vs') τ.Same := by
  have hext : m.Extends { m with heap.arrays := m.heap.arrays.push vs.toArray } :=
    ⟨.of_frames_eq rfl rfl (Nat.le_refl _), rfl, rfl, rfl⟩
  refine .ok hext (h.setHeap hext.toKeeps (h.heap.newArray hvs)) ?_
  rw [h.heap.arrays.size]
  exact .array _

/-- Both set an element. -/
theorem setElement (h : Trims τ m m') (id : ArrayId) (index : Nat) {a a' : Value}
    (ha : τ.Same m.heap.frames a a') :
    Abreast side τ m m' (setElement id index a) (setElement id index a') fun _ _ _ => True := by
  refine .ok ?_ (h.setHeap ?_ (h.heap.setElement id index ha)) trivial
  · exact ⟨.of_frames_eq rfl rfl (Nat.le_refl _), rfl, rfl, rfl⟩
  · exact .of_frames_eq rfl rfl (Nat.le_refl _)

end Trim.Abreast

end Lox.Eval

import Lox.Proofs.Eval.Growth
import Lox.Proofs.Heap.Forest
import Lox.Proofs.Scoping.Declarations
import Lox.Proofs.Session.Footprints
import Lox.Proofs.Session.Receivers
import Lox.Proofs.Session.StaticErrors

/-!
# The frames of a session

In every state that a session passes, its frames form a forest that only grows. A frame is made
within one that exists, since the frames from which a task starts match the scopes of a visit. So
the links at the end of all turns lead to earlier frames, and the states before have the same links
for the frames that they have.

The frames of `this` and `super` keep their bindings. No variable has a reserved name, so nothing is
assigned in such a frame; and nothing is declared in it, since it never is the current one.
-/

namespace Lox

open Scoping Eval

namespace Session

/-- A session passes a machine in some turns: between two of them, or where a moment starts or
ends. -/
inductive Passes (s : Session) (turns : List Turn) : Machine → Prop
  | between {before : List Turn} (h : before <+: turns) : Passes s turns (s.after before).machine
  | starts {μ : Moment} (h : s.Reaches turns μ) : Passes s turns μ.machine
  | ends {μ : Moment} (h : s.Reaches turns μ) : Passes s turns μ.final

end Session

/-- The functions in the values that a task is given. -/
def Eval.Task.functions : Task → List Function
  | .call _ callee vs _ => callee.functions ++ vs.flatMap Value.functions
  | .instantiate _ c vs => c.functions ++ vs.flatMap Value.functions
  | .callFunction _ f vs => f :: vs.flatMap Value.functions
  | .bind method receiver => method :: receiver.functions
  | _ => []

/-- A frame has these bindings and no others. -/
def Frames.Has (fs : Frames) (k : FrameId) (bindings : Bindings) : Prop :=
  ∀ name, fs.local? k name = bindings.lookup name

namespace Frames.Has

variable {fs : Frames} {k : FrameId} {bindings : Bindings}

/-- A new frame may be the one in question, and others do not matter. -/
theorem push {frame : Frame} (h : k ≠ fs.size → fs.Has k bindings)
    (hlast : k = fs.size → frame.bindings = bindings) : (fs.push frame).Has k bindings := by
  intro name
  rw [Frames.local?_push]
  split
  · next hk => rw [hlast hk]
  · next hne => exact h hne name

/-- A name that is bound in another frame does not matter. -/
theorem define (h : fs.Has k bindings) {k' : FrameId} (hne : k ≠ k') (name : String)
    (value : Value) : (fs.define k' name value).Has k bindings := by
  intro name'
  rw [Frames.local?_define, if_neg fun h => hne h.1]
  exact h name'

end Frames.Has

/-! ## References -/

namespace Eval.Setting

variable {S : Setting} {m : Machine} {μ : Moment}

/-- The frames of the functions in a sound value exist. -/
theorem Inv.frame_lt (hm : S.Inv m) {v : Value} (hv : S.Sound m v) {f : Lox.Function}
    (hf : f ∈ v.functions) : f.frame < m.heap.frames.size := by
  cases v with
  | function id g =>
    obtain rfl := List.mem_singleton.mp hf
    obtain ⟨_, _, _, _, haligned⟩ := hv
    exact hm.lt_size haligned
  | «class» c =>
    obtain ⟨_, _, _, _, _, _, _, _, _, _, haligned⟩ := hv.1 f hf
    exact hm.lt_size haligned
  | _ => exact nomatch hf

/-- The frames that a machine refers to exist, if the current one does and links lead to earlier
frames. -/
theorem Inv.refers_lt (hm : S.Inv m) (hcurrent : m.current < m.heap.frames.size)
    (hearlier : ∀ k outer, m.heap.frames.enclosing? k = some outer → outer < k) {k : FrameId}
    (hk : m.Refers k) : k < m.heap.frames.size := by
  cases hk with
  | current => exact hcurrent
  | globals => exact hm.globals
  | enclosing h => exact Nat.lt_trans (hearlier _ _ h) (Frames.lt_size_of_enclosing? _ h)
  | closure hv hf => exact hm.frame_lt (hm.holds.of_stores hv) hf
  | objectClass hf => exact hm.frame_lt hm.objectClass hf

/-- So do the frames of the functions that a task is given. -/
theorem Good.frame_lt (h : S.Good μ) {f : Lox.Function} (hf : f ∈ μ.task.functions) :
    f.frame < μ.machine.heap.frames.size := by
  obtain ⟨hm, ⟨v, hready⟩, _⟩ := h
  obtain ⟨t, m⟩ := μ
  have hvalues {vs : List Value} (hvs : ∀ x ∈ vs, S.Sound m x)
      (hf : f ∈ vs.flatMap Value.functions) : f.frame < m.heap.frames.size := by
    obtain ⟨x, hx, hf⟩ := List.mem_flatMap.mp hf
    exact hm.frame_lt (hvs x hx) hf
  cases t with
  | call b callee vs paren =>
    exact (List.mem_append.mp hf).elim (hm.frame_lt hready.1) (hvalues hready.2)
  | instantiate b c vs =>
    exact (List.mem_append.mp hf).elim (hm.frame_lt hready.1) (hvalues hready.2.1)
  | callFunction b g vs =>
    obtain ⟨⟨_, _, _, _, haligned⟩, hvs, _⟩ := hready
    obtain rfl | hf := List.mem_cons.mp hf
    · exact hm.lt_size haligned
    · exact hvalues hvs hf
  | bind method receiver =>
    obtain ⟨⟨_, _, _, _, _, _, _, _, _, _, haligned⟩, hreceiver⟩ := hready
    obtain rfl | hf := List.mem_cons.mp hf
    · exact hm.lt_size haligned
    · exact hm.frame_lt hreceiver hf
  | _ => exact nomatch hf

/-- The invariant holds when a good moment has ended. -/
theorem Good.inv_final (h : S.Good μ) : S.Inv μ.final := by
  obtain ⟨hm, ⟨v, hready⟩, hrecords⟩ := h
  have hruns := serves μ.task μ.machine v hm hready hrecords
  unfold Moment.final
  cases hx : μ.task.run μ.machine with
  | ok a m' => exact (hruns.ok a m' hx).1
  | error e m' => exact (hruns.error e m' hx).1

end Eval.Setting

namespace Session

variable {s : Session} {sink : Sink} {clock : Clock} {turns : List Turn} {μ : Moment} {m : Machine}
  {fs fs' : Frames} {k : FrameId}

/-! ## States -/

/-- The current frame exists at every moment. -/
theorem Reaches.current_lt (htop : s.machine.AtTop)
    (hglobals : s.machine.globals < s.machine.heap.frames.size) (h : s.Reaches turns μ) :
    μ.machine.current < μ.machine.heap.frames.size := by
  induction turns generalizing s with
  | nil => exact False.elim h
  | cons t turns ih =>
    obtain ⟨j, _, μ₀, hμ₀, hreach⟩ | h := h
    · have htop' : (s.machine.prepare j).AtTop := htop
      have hstart := ((Machine.restores_perform j htop' fun μ _ => μ.avoids_none).2 μ₀ hμ₀).1
      refine hreach.current_lt (hstart.current_lt ?_)
      exact htop ▸ hglobals
    · obtain ⟨hlater, htop', _⟩ := later_turn (t := t) htop fun μ _ => μ.avoids_none
      exact ih htop' (hlater.globals ▸ Nat.lt_of_lt_of_le hglobals hlater.size) h

namespace Passes

/-- What a state has is there at the end of all turns. -/
theorem later {keep : String → Prop}
    (havoids : ∀ μ, (start sink clock).Reaches turns μ → μ.Avoids keep)
    (h : (start sink clock).Passes turns m) :
    m.Later keep ((start sink clock).after turns).machine := by
  have hmoments := (later_after (s := start sink clock) turns rfl havoids).2.2
  cases h with
  | @between before hprefix =>
    obtain ⟨rest, rfl⟩ := hprefix
    have htop : ((start sink clock).after before).machine.AtTop :=
      Reachable.atTop ⟨sink, clock, before, rfl⟩
    have hrest := later_after rest htop fun μ hμ => havoids μ hμ.append
    have happend : (start sink clock).after (before ++ rest) =
        ((start sink clock).after before).after rest :=
      List.foldl_append
    rw [happend]
    exact hrest.1
  | @starts μ hμ => exact (havoids μ hμ).restores.toLater.trans (hmoments μ hμ)
  | @ends μ hμ => exact hmoments μ hμ

/-- What a machine on the way has is kept to the end. -/
theorem keeps (h : (start sink clock).Passes turns m) :
    m.Keeps ((start sink clock).after turns).machine :=
  (h.later fun μ _ => μ.avoids_none).toKeeps

/-- A machine on the way is sound. -/
theorem inv (h : (start sink clock).Passes turns m) : ∃ S : Setting, S.Inv m := by
  cases h with
  | @between before _ =>
    obtain ⟨_, hfit, _⟩ := fit_after sink clock before
    exact ⟨_, hfit.inv⟩
  | starts hμ =>
    obtain ⟨S, _, _, _, hgood⟩ := hμ.good
    exact ⟨S, hgood.inv⟩
  | ends hμ =>
    obtain ⟨S, _, _, _, hgood⟩ := hμ.good
    exact ⟨S, hgood.inv_final⟩

/-- The current frame of a machine on the way exists. -/
theorem current_lt (h : (start sink clock).Passes turns m) : m.current < m.heap.frames.size := by
  have hreached {μ : Moment} (hμ : (start sink clock).Reaches turns μ) :=
    hμ.current_lt (s := start sink clock) rfl Nat.zero_lt_one
  cases h with
  | @between before _ =>
    obtain ⟨_, hfit, _⟩ := fit_after sink clock before
    exact hfit.current ▸ hfit.inv.globals
  | starts hμ => exact hreached hμ
  | @ends μ hμ => exact μ.avoids_none.restores.current_lt (hreached hμ)

end Passes

/-! ## Links -/

/-- A frame is made within one that exists. -/
theorem rooted_of_changes (hμ : (start sink clock).Reaches turns μ) (h : μ.Changes fs fs')
    (hfs : fs.Rooted 0) : fs'.Rooted 0 := by
  obtain ⟨S, _, _, _, hgood⟩ := hμ.good
  have hm := hgood.inv
  -- The frame around the new one matches a scope of the visit for which the moment is good.
  cases h with
  | block =>
    obtain ⟨v, _, hat⟩ := hgood.ready
    exact hfs.push (hm.lt_size hat.aligned) _
  | call =>
    obtain ⟨_, ⟨_, v, _, _, haligned⟩, _⟩ := hgood.ready
    exact hfs.push (hm.lt_size haligned) _
  | receiver =>
    obtain ⟨_, ⟨_, v, _, _, _, _, _, _, _, _, haligned⟩, _⟩ := hgood.ready
    exact hfs.push (hm.lt_size haligned) _
  | @inheritance c cs m m₁ hcs _ =>
    obtain ⟨v, _, hat⟩ := hgood.ready
    have hrestores := Task.restores (t := .lookUpClasses c.superclasses) hcs
    refine hfs.push ?_ _
    rw [Frames.size_define]
    exact hrestores.current_lt (hm.lt_size hat.aligned)
  | declare _ value => exact hfs.define _ _ _
  | assign _ _ value => exact hfs.define _ _ _

/-- At the end of all turns the frames form a tree. -/
theorem rooted_after (sink : Sink) (clock : Clock) (turns : List Turn) :
    ((start sink clock).after turns).machine.heap.frames.Rooted 0 := by
  have hstart : (start sink clock).machine.heap.frames.Rooted 0 := by
    refine ⟨Nat.zero_lt_one, rfl, fun k hk hne => absurd ?_ hne⟩
    exact Nat.lt_one_iff.mp hk
  exact ((start sink clock).evolves_after turns).invariant hstart
    fun _ _ _ hμ => rooted_of_changes hμ

/-- In every state the frames form a forest. -/
theorem Passes.forest (h : (start sink clock).Passes turns m) : m.Forest := by
  obtain ⟨S, hm⟩ := h.inv
  have hkeeps := h.keeps
  have hglobals : m.globals = 0 :=
    hkeeps.globals.symm.trans (later_after (s := start sink clock) turns rfl
      fun μ _ => μ.avoids_none).1.globals
  have hrooted : m.heap.frames.Rooted m.globals := by
    refine (hglobals ▸ rooted_after sink clock turns).earlier hm.globals hkeeps.size
      hkeeps.enclosing
  have hearlier : ∀ k outer, m.heap.frames.enclosing? k = some outer → outer < k :=
    fun _ _ => hrooted.lt_of_enclosing?
  exact ⟨hrooted.outermost, hearlier, fun _ => hrooted.exists_ancestor?,
    fun _ => hm.refers_lt h.current_lt hearlier⟩

/-! ## The frames of `this` and `super` -/

/-- Where a name is declared, the frames match the scopes at a visit of the declaration, and those
lie within each other as around a statement. -/
theorem declaring_visit (hturns : ∀ t ∈ turns, t.Spelled) (hμ : (start sink clock).Reaches turns μ)
    {name : String} (h : μ.Declares name) :
    ∃ (S : Setting) (v : Visit), S.made = (start sink clock).Made turns ∧
      (start sink clock).Visited turns v ∧
      S.At μ.machine v ∧ Nest v.ctx.home v.around v.walk.scopes ∧ v.piece.declared ≠ [] := by
  obtain ⟨S, hmade, _, hseen, hgood⟩ := hμ.good
  cases h with
  | «variable» =>
    obtain ⟨v, hpiece, hat⟩ := hgood.ready
    have hnested := nested_of_visited hturns (hseen v hat.live)
    rw [Visit.Nested, hpiece] at hnested
    exact ⟨S, v, hmade, hseen v hat.live, hat, hnested, by simp [hpiece, Piece.declared]⟩
  | function =>
    obtain ⟨v, hpiece, hat⟩ := hgood.ready
    have hnested := nested_of_visited hturns (hseen v hat.live)
    have hshapely := S.shapely v hat.live
    rw [Visit.Nested, hpiece] at hnested
    rw [Visit.Shapely, hpiece] at hshapely
    obtain ⟨t, ht⟩ := Option.isSome_iff_exists.mp hshapely
    exact ⟨S, v, hmade, hseen v hat.live, hat, hnested,
      by simp [hpiece, Piece.declared, Stmt.declared, ht]⟩
  | «class» =>
    obtain ⟨v, hpiece, hat⟩ := hgood.ready
    have hnested := nested_of_visited hturns (hseen v hat.live)
    rw [Visit.Nested, hpiece] at hnested
    exact ⟨S, v, hmade, hseen v hat.live, hat, hnested, by simp [hpiece, Piece.declared]⟩

/-- A frame in which a name is declared binds no reserved name. -/
theorem local?_declaring_eq_none (hturns : ∀ t ∈ turns, t.Spelled)
    (hμ : (start sink clock).Reaches turns μ) {name : String} (hdeclares : μ.Declares name)
    {r : String} (hr : Reserved r) :
    ((start sink clock).after turns).machine.heap.frames.local? μ.machine.current r = none := by
  obtain ⟨S, v, hmade, _, hat, hnest, _⟩ := declaring_visit hturns hμ hdeclares
  exact local?_current_eq_none hturns hmade hμ hat hnest hr

/-- A single binding is the one that is found. -/
theorem singleton_of_lookup {name name' : String} {value value' : Value}
    (h : [(name, value)].lookup name' = some value') : [(name, value)] = [(name', value')] := by
  by_cases hname : name' = name
  · subst hname
    rw [List.lookup_cons_self] at h
    rw [Option.some.inj h]
  · simp [List.lookup_cons, beq_false_of_ne hname] at h

/-- A frame that binds a reserved name is made with this binding alone, and gets no other. -/
theorem has_of_changes (hturns : ∀ t ∈ turns, t.Spelled) (hμ : (start sink clock).Reaches turns μ)
    (h : μ.Changes fs fs') {outer : FrameId} {r : String} (hr : Reserved r) {value : Value}
    (hend : ((start sink clock).after turns).machine.HasFrame k outer [(r, value)])
    (hfs : k < fs.size → fs.Has k [(r, value)]) : k < fs'.size → fs'.Has k [(r, value)] := by
  -- What is known at the end of all turns says which of the new frames can be the one in question.
  have hbound : ((start sink clock).after turns).machine.heap.frames.local? k r = some value :=
    (hend.reserved r hr).trans List.lookup_cons_self
  have hpush {frame : Frame} (hlast : k = fs.size → frame.bindings = [(r, value)])
      (hk : k < (fs.push frame).size) : (fs.push frame).Has k [(r, value)] := by
    rw [Frames.size_push] at hk
    exact .push (fun hne => hfs (Nat.lt_of_le_of_ne (Nat.le_of_lt_succ hk) hne)) hlast
  have hdefine {k' : FrameId} {name : String} {value' : Value} (hne : k < fs.size → k ≠ k')
      (hk : k < (fs.define k' name value').size) :
      (fs.define k' name value').Has k [(r, value)] := by
    rw [Frames.size_define] at hk
    exact (hfs hk).define (hne hk) name value'
  cases h with
  | block =>
    refine hpush fun hk => ?_
    subst hk
    rw [(hasFrame_block hturns hμ).reserved r hr] at hbound
    contradiction
  | call =>
    refine hpush fun hk => ?_
    subst hk
    rw [(hasFrame_call hturns hμ).reserved r hr] at hbound
    contradiction
  | receiver =>
    refine hpush fun hk => ?_
    subst hk
    rw [(hasFrame_bind hturns hμ).reserved r hr] at hbound
    exact singleton_of_lookup hbound
  | inheritance hcs hne =>
    refine hpush fun hk => ?_
    rw [Frames.size_define] at hk
    subst hk
    rw [(hasFrame_inheritance hturns hμ hcs hne).reserved r hr] at hbound
    exact singleton_of_lookup hbound
  | declare hdeclares value' =>
    refine hdefine fun _ hk => ?_
    rw [hk, local?_declaring_eq_none hturns hμ hdeclares hr] at hbound
    contradiction
  | @assign μ name fs k' hbinds hsome value' =>
    refine hdefine fun hk heq => (avoids_reserved hturns hμ).binds hbinds ?_
    rw [← heq, hfs hk name] at hsome
    obtain ⟨value'', hvalue⟩ := Option.isSome_iff_exists.mp hsome
    have hsame := singleton_of_lookup hvalue
    simp only [List.cons.injEq, Prod.mk.injEq, and_true] at hsame
    exact hsame.1 ▸ hr

/-- Whenever a frame with a reserved name exists, it has the bindings with which it was made. -/
theorem Passes.has (hturns : ∀ t ∈ turns, t.Spelled) (h : (start sink clock).Passes turns m)
    {outer : FrameId} {r : String} (hr : Reserved r) {value : Value}
    (hend : ((start sink clock).after turns).machine.HasFrame k outer [(r, value)])
    (hk : k < m.heap.frames.size) : m.heap.frames.Has k [(r, value)] := by
  have hlater := h.later fun μ hμ => avoids_reserved hturns hμ
  have hlt : k < ((start sink clock).after turns).machine.heap.frames.size :=
    Nat.lt_of_lt_of_le hk hlater.size
  -- At the start there is only the global frame, and it is not within another one.
  have hlast : ((start sink clock).after turns).machine.heap.frames.Has k [(r, value)] := by
    have hne : k ≠ 0 := by
      rintro rfl
      have hnone := (rooted_after sink clock turns).outermost
      rw [hend.enclosing] at hnone
      contradiction
    refine ((start sink clock).evolves_after turns).invariant
      (P := fun fs => k < fs.size → fs.Has k [(r, value)]) (fun hstart => ?_)
      (fun _ _ _ hμ hchange => has_of_changes hturns hμ hchange hr hend) hlt
    exact absurd (Nat.lt_one_iff.mp hstart) hne
  intro name
  by_cases hname : Reserved name
  · rw [← hlater.kept k hk name hname, hlast name]
  · have hother : [(r, value)].lookup name = none := by
      have hne : name ≠ r := by
        rintro rfl
        exact hname hr
      rw [List.lookup_cons, beq_false_of_ne hne]
      rfl
    rw [hother]
    -- A name that were bound now would still be bound at the end.
    by_contra hsome
    have hbound := hlater.bound k name (Option.isSome_iff_ne_none.mpr hsome)
    rw [hlast name, hother] at hbound
    contradiction

/-! ## The forest -/

/-- Frames form a forest that only grows, whatever the clock shows and the output takes. In every
state that a session passes, a frame lies within one that was made strictly earlier, every chain of
frames ends at the global one, and every frame that is referred to exists. Its links and names are
there at the end of all turns. The functions that a task is given and those in the value of an
expression have frames that exist. Over any task, on whatever machine it starts and however it ends,
no name is unbound, and a frame that was there gains a name only where that name is declared and the
frame is the current one. The frames that are made for `this` and `super` have the bindings with
which they are made for as long as the session goes on. -/
theorem frames_form_forest (sink : Sink) (clock : Clock) (turns : List Turn) :
    let s := start sink clock
    (∀ m, s.Passes turns m → m.Forest ∧ m.Keeps (s.after turns).machine) ∧
    (∀ μ, s.Reaches turns μ →
      (∀ f ∈ μ.task.functions, f.frame < μ.machine.heap.frames.size) ∧
      ∀ b e v m', μ.task = .evaluate b e → evaluate b e μ.machine = .ok v m' →
        ∀ f ∈ v.functions, f.frame < m'.heap.frames.size) ∧
    (∀ μ : Moment, μ.machine.Keeps μ.final ∧
      ∀ k < μ.machine.heap.frames.size, ∀ name, μ.machine.heap.frames.local? k name = none →
        (μ.final.heap.frames.local? k name).isSome →
        ∃ μ', μ.Reaches μ' ∧ μ'.Declares name ∧ μ'.machine.current = k) ∧
    ((∀ t ∈ turns, t.Spelled) → ∀ m, s.Passes turns m →
      (∀ method receiver m₀, s.Reaches turns ⟨.bind method receiver, m₀⟩ →
        m₀.heap.frames.size < m.heap.frames.size →
        m.heap.frames.Has m₀.heap.frames.size [("this", receiver)]) ∧
      ∀ c cs m₀ m₁, s.Reaches turns ⟨.declareClass c, m₀⟩ →
        lookUpClasses c.superclasses m₀ = .ok cs m₁ → cs ≠ [] →
        m₁.heap.frames.size < m.heap.frames.size →
        m.heap.frames.Has m₁.heap.frames.size
          [("super", .class ⟨m₁.heap.nextIdentity, c.name.lexeme, cs, []⟩)]) := by
  refine ⟨fun m hm => ⟨hm.forest, hm.keeps⟩, fun μ hμ => ?_, fun μ => ?_, fun hturns m hm => ?_⟩
  · obtain ⟨S, _, _, _, hgood⟩ :=
      (fit_start _ sink clock).good_of_reaches (recorded_record _ turns) hμ
    refine ⟨fun f hf => hgood.frame_lt hf, ?_⟩
    obtain ⟨task, m⟩ := μ
    rintro b e v m' rfl hrun f hf
    obtain ⟨visit, hpiece, hat⟩ := hgood.ready
    obtain ⟨hm', _, hsound⟩ := Setting.after_evaluate hgood.inv hat hpiece hgood.records hrun
    exact hm'.frame_lt hsound hf
  · exact ⟨μ.avoids_none.restores.toKeeps, fun k hk name => μ.gains hk⟩
  · refine ⟨fun method receiver m₀ hμ => ?_, fun c cs m₀ m₁ hμ hcs hne => ?_⟩
    · exact hm.has hturns (.inl rfl) (hasFrame_bind hturns hμ)
    · exact hm.has hturns (.inr rfl) (hasFrame_inheritance hturns hμ hcs hne)

open Grammar (mark)

section Run

-- Global names are found along the chain of frames, and that search is evaluated here.
attribute [local semireducible] Frames.holder?

/-- The use of the class binds the method. -/
theorem reaches_bind : ∃ method,
    Moment.Reaches ⟨.execute 9 inheritorUse, inheritorMachine⟩
      ⟨.bind method (.object 0),
        { inheritorMachine with heap.objects := #[{ cls := inheritorClass }] }⟩ := by
  have hget : Moment.Reaches ⟨.execute 9 inheritorUse, inheritorMachine⟩ _ :=
    (Relation.ReflTransGen.single .expression).tail .callee
  exact ⟨_, hget.tail (.getMethod rfl rfl rfl rfl)⟩

end Run

/-- In a function within a method the frame of the receiver is as it was made. -/
theorem receiver_frame_in_inner_function :
    (∀ t ∈ [Turn.tokens 9 (inheritorTokens ++ [mark .eof])], t.Spelled) ∧
      (start {} {}).Passes [.tokens 9 (inheritorTokens ++ [mark .eof])] innerMachine ∧
      innerMachine.heap.frames.Has 2 [("this", .object 0)] := by
  have hspelled : ∀ t ∈ [Turn.tokens 9 (inheritorTokens ++ [mark .eof])], t.Spelled := by
    simp only [List.mem_singleton, forall_eq, Turn.Spelled]
    decide
  have hpasses := Passes.starts reaches_super_in_inner_function
  obtain ⟨method, hbind⟩ := reaches_bind
  obtain ⟨-, -, -, hkept⟩ := frames_form_forest {} {} [.tokens 9 (inheritorTokens ++ [mark .eof])]
  refine ⟨hspelled, hpasses, ?_⟩
  exact (hkept hspelled _ hpasses).1 method _ _ (reaches_inheritorUse.trans hbind) (by decide)

end Session

end Lox

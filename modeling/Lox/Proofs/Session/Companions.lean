import Lox.Proofs.Eval.Lockstep
import Lox.Proofs.Scoping.Counterparts
import Lox.Proofs.Session.Performing

/-!
# Programs that are alike, at the top level

A machine that satisfies the invariant resembles itself, with no frame marked, if the references of
its functions keep their numbers: a function that a value may call is like itself, and so are
classes, heaps and machines (`Resembles.refl`). Programs that are alike and start on machines that
resemble each other fail at the same statements, for reasons that correspond, and leave machines
that resemble each other again (`Resembles.interpret`).
-/

namespace Lox

/-! ## Flushing -/

/-- An output whose flushes all succeed. -/
def Sink.Flushable (s : Sink) : Prop :=
  ∀ texts flushes, s.onFlush texts flushes = none

/-- The same machine with another output. -/
def Machine.withSink (m : Machine) (sink : Sink) : Machine :=
  { m with sink := sink }

/-- The same machine, with its output flushed some more times. -/
def Machine.later (m : Machine) (flushes : Nat) : Machine :=
  m.withSink (m.sink.later flushes)

/-- If flushing succeeds, a program is run as its statements are, and the output is flushed once
more. -/
theorem Machine.interpret_of_flushable {budget : Nat} {m : Machine} {ss : List Stmt}
    (h : (m.runAll budget ss).1.sink.Flushable) :
    m.interpret budget ss = ((m.runAll budget ss).1.later 1, (m.runAll budget ss).2) := by
  have hrefused : (m.runAll budget ss).1.sink.flush.2 = none := h _ _
  simp only [interpret, hrefused, Option.map_none, Option.toList_none, List.append_nil]
  rfl

namespace Eval

open Scoping

/-! ## A machine resembles itself -/

/-- In a chain that matches scopes all frames exist, and none is marked if no frame is. -/
theorem Aligned.marked {made : FrameId → Construct → Prop} {m : Machine} {k : FrameId}
    {scopes : List Scope} {cs : List Construct} (h : Aligned made m k scopes cs)
    (hglobals : m.globals < m.heap.frames.size)
    (houtermost : m.heap.frames.enclosing? m.globals = none) :
    Marked (fun _ => false) m.heap.frames k [] := by
  -- No frame is marked, so only that the frames exist has to be shown.
  suffices hlt : ∀ distance k', m.heap.frames.ancestor? k distance = some k' →
      k' < m.heap.frames.size from fun distance k' hk' => ⟨hlt distance k' hk', rfl⟩
  induction scopes generalizing k cs with
  | nil =>
    cases cs with
    | cons c cs => contradiction
    | nil =>
      obtain rfl : k = m.globals := h
      rintro (_ | distance) k' hk'
      · exact Option.some.inj hk' ▸ hglobals
      · rw [Frames.ancestor?, houtermost] at hk'
        contradiction
  | cons scope scopes ih =>
    cases cs with
    | nil => contradiction
    | cons c cs =>
      obtain ⟨_, _, _, outer, houter, h⟩ := h
      rintro (_ | distance) k' hk'
      · exact Option.some.inj hk' ▸ Frames.lt_size_of_enclosing? _ houter
      · rw [ancestor?_succ houter] at hk'
        exact ih h distance k' hk'

section Refl

variable {L : Likeness} {P : FrameId → List Bool → Prop}

mutual

/-- A class is like itself if its methods are. -/
theorem Classes.refl_cons : (c : Class) → {cs : List Class} →
    (∀ f ∈ c.functions, Methods L P f f) → Classes L P cs cs → Classes L P (c :: cs) (c :: cs)
  | ⟨id, name, supers, methods⟩, cs, h, hcs => by
    rw [Class.functions, List.forall_mem_append] at h
    have hmethods : Entries L false (Methods L P) methods methods := by
      refine List.forall₂_same.mpr fun p hp => ⟨rfl, ?_⟩
      exact h.1 p.2 (List.mem_map_of_mem hp)
    exact .cons (Classes.refl supers h.2) hmethods hcs

/-- Classes are like themselves if their methods are. -/
theorem Classes.refl : (cs : List Class) → (∀ f ∈ classFunctions cs, Methods L P f f) →
    Classes L P cs cs
  | [], _ => .nil
  | c :: cs, h => by
    rw [classFunctions, List.forall_mem_append] at h
    exact Classes.refl_cons c h.1 (Classes.refl cs h.2)

end

/-- What is looked up in one list is related to itself. -/
theorem Lookups.refl {α : Type} {V : α → α → Prop} {b : List (String × α)}
    (h : ∀ name v, b.lookup name = some v → V v v) : Lookups L false V b b := by
  intro name name' hname
  obtain rfl := Likeness.Name.of_unmarked hname
  cases hv : b.lookup name' with
  | none => exact .none
  | some v => exact .some (h name' v hv)

/-- A heap resembles itself if all its values are like themselves. -/
theorem Heaps.refl {h : Heap} (hh : h.Holds fun v => Values L P v v) :
    Heaps L (fun _ => false) P h h where
  frames := by
    refine .refl fun k frame hframe => ⟨rfl, .refl fun name v hv => ?_⟩
    have hlocal : h.frames.local? k name = some v := by
      unfold Frames.local?
      rw [hframe]
      exact hv
    exact hh.bound k name v hlocal
  objects := by
    refine .refl fun id object hobject => ?_
    have hmem := Array.mem_of_getElem? hobject
    have hcls := hh.classes object hmem
    refine ⟨?_, .refl (hh.fields object hmem)⟩
    cases hcls with
    | «class» hcls => exact hcls
  arrays := by
    refine .refl fun id xs hxs => List.forall₂_same.mpr fun v hv => ?_
    exact hh.elements xs (Array.mem_of_getElem? hxs) v (Array.mem_toList_iff.mp hv)
  nextIdentity := rfl

end Refl

section Sound

variable {L : Likeness} {S : Setting} {m : Machine}

/-- A sound value is like itself. -/
theorem Values.refl_of_sound (hm : S.Inv m)
    (hids : ∀ v f, S.live v → v.piece = .function f → ∀ id ∈ v.ids, L.number id = id)
    {v : Value} (hv : S.Sound m v) : Values L (Marked (fun _ => false) m.heap.frames) v v := by
  -- A declaration is like itself wherever no scope around it is marked.
  have hdecl {u : Visit} {f : FunctionDecl} (hu : S.live u) (hpiece : u.piece = .function f)
      {ms : List Bool} (hms : ∀ mark ∈ ms, mark = false) :
      Alike L ms (.function f) (.function f) :=
    hpiece ▸ Alike.refl u (hids u f hu hpiece) hms
  cases v with
  | function id f =>
    obtain ⟨_, u, hu, hpiece, haligned⟩ := hv
    have hmarked := haligned.marked hm.globals hm.outermost
    exact .function ⟨rfl, rfl, [], hmarked, hdecl hu hpiece (by simp)⟩
  | «class» c =>
    refine .class (Classes.refl_cons c (fun f hf => ?_) .nil)
    obtain ⟨_, u, c', outer, around, hu, hpiece, _, _, _, haligned⟩ := hv.1 f hf
    have hmarked := haligned.marked hm.globals hm.outermost
    exact ⟨rfl, rfl, [], hmarked, hdecl hu hpiece (by simp)⟩
  | nil => exact .nil
  | boolean b => exact .boolean b
  | number x => exact .number x
  | string s => exact .string s
  | native f => exact .native f
  | object id => exact .object id
  | array id => exact .array id

/-- A machine that satisfies the invariant resembles itself, each time with the table of its
program, and with an output that was flushed some more times the first time. -/
theorem Resembles.refl (hm : S.Inv m)
    (hids : ∀ v f, S.live v → v.piece = .function f → ∀ id ∈ v.ids, L.number id = id)
    (sink : Sink) :
    Resembles L (fun _ => false) ((m.withTable L.table).withSink (sink.later L.flushes))
      ((m.withTable L.table').withSink sink) where
  heap := .refl (hm.holds.imp fun _ hv => .refl_of_sound hm hids hv)
  current := rfl
  globals := rfl
  distances := rfl
  distances' := rfl
  objectClass := by
    have hcls := Values.refl_of_sound (L := L) hm hids hm.objectClass
    cases hcls with
    | «class» hcls => exact hcls
  sink := rfl
  clock := rfl
  unmarked := by
    have haligned : Aligned S.made m m.globals [] [] := rfl
    exact haligned.marked hm.globals hm.outermost
  outermost := hm.outermost

end Sound

/-! ## Running alike -/

/-- Two diagnostics that report failures that correspond. -/
def Reports (L : Likeness) (d d' : Diagnostic) : Prop :=
  ∃ e e', Fails L e e' ∧ d = .ofFailure e ∧ d' = .ofFailure e'

/-- Reports that correspond are the same but for their lines, if no name differs. -/
theorem Reports.cases_plain {places : Position → Position → Prop} {number : Nat → Nat}
    {table : Distances} {hrefl : ∀ p, places p p}
    {hinjective : ∀ id id', number id = number id' → id = id'} {flushes : Nat} {d d' : Diagnostic}
    (h : Reports (.plain places number table hrefl hinjective flushes) d d') :
    (∃ e, d = .ofFailure e ∧ d' = .ofFailure e) ∨ ∃ p p' message, places p p' ∧
      d = .runtime p.line message ∧ d' = .runtime p'.line message := by
  obtain ⟨e, e', hfails, rfl, rfl⟩ := h
  cases hfails with
  | program cause hlines =>
    obtain ⟨p, p', hplaces, rfl, rfl⟩ := hlines
    exact .inr ⟨p, p', cause.message, hplaces, rfl, rfl⟩
  | renamed hx => exact absurd hx id
  | output reason => exact .inl ⟨.output reason, rfl, rfl⟩
  | exhausted => exact .inl ⟨.exhausted, rfl, rfl⟩

/-- Two ends of what was done at the top level, from the machine `m` on: on machines that resemble
each other, in the global frame, with diagnostics that correspond. -/
structure Corresponds (L : Likeness) (m : Machine) (done done' : Machine × Diagnostics) : Prop where
  /-- The machines resemble each other. -/
  machines : ∃ F, Resembles L F done.1 done'.1
  /-- The current frame is the global one. -/
  current : done.1.current = done.1.globals
  /-- Flushes are answered as before. -/
  onFlush : done.1.sink.onFlush = m.sink.onFlush
  /-- The diagnostics correspond. -/
  diagnostics : List.Forall₂ (Reports L) done.2 done'.2

namespace Resembles

variable {L : Likeness} {F : FrameId → Bool} {m m' : Machine}

/-- The current frame is not marked if it is the global one. -/
theorem marked_current (h : Resembles L F m m') (hcurrent : m.current = m.globals) :
    Marked F m.heap.frames m.current [] := by
  rw [hcurrent]
  exact h.unmarked

/-- A statement may fail: the next one starts from the global frame again. -/
theorem runTop (budget : Nat) (h : Resembles L F m m') (hcurrent : m.current = m.globals)
    {s s' : Stmt} (hs : Alike L [] (.stmt s) (.stmt s')) :
    Corresponds L m (m.runTop budget s) (m'.runTop budget s') := by
  have hstep := (InStep.lockstep budget).2 h (h.marked_current hcurrent) hs
  unfold InStep at hstep
  unfold Machine.runTop
  revert hstep
  generalize execute budget s m = r
  generalize execute budget s' m' = r'
  intro hstep
  cases hstep with
  | ok hgrows hn _ =>
    exact ⟨⟨_, hn⟩, hgrows.current.trans (hcurrent.trans hgrows.globals.symm), hgrows.onFlush, .nil⟩
  | @error F₁ n n' e e' hgrows hn he =>
    -- Both machines go back to their global frames, which correspond.
    have hmoved :
        Resembles L F₁ { n with current := n.globals } { n' with current := n'.globals } :=
      { hn with current := hn.globals }
    exact ⟨⟨F₁, hmoved⟩, rfl, hgrows.onFlush, .cons ⟨e, e', he, rfl, rfl⟩ .nil⟩

/-- Statements that are alike run alike, one after the other. -/
theorem runAll (budget : Nat) (h : Resembles L F m m') (hcurrent : m.current = m.globals)
    {ss ss' : List Stmt} (hss : Alike L [] (.stmts ss) (.stmts ss')) :
    Corresponds L m (m.runAll budget ss) (m'.runAll budget ss') := by
  induction ss generalizing F m m' ss' with
  | nil =>
    cases hss with
    | noStmts => exact ⟨⟨F, h⟩, hcurrent, rfl, .nil⟩
  | cons s ss ih =>
    cases hss with
    | moreStmts hs hss =>
      obtain ⟨⟨F₁, hfirst⟩, hglobal, hflush, hds⟩ := h.runTop budget hcurrent hs
      obtain ⟨hmachines, hglobal', hflush', hds'⟩ := ih hfirst hglobal hss
      exact ⟨hmachines, hglobal', hflush'.trans hflush, List.rel_append hds hds'⟩

/-- Programs that are alike run alike, and their output is flushed with the same success, if the
answers to flushes do not tell how often the first output was flushed more. -/
theorem interpret (budget : Nat) (h : Resembles L F m m') (hcurrent : m.current = m.globals)
    (hanswers : ∀ texts n, m.sink.onFlush texts (n + L.flushes) = m.sink.onFlush texts n)
    {ss ss' : List Stmt} (hss : Alike L [] (.stmts ss) (.stmts ss')) :
    Corresponds L m (m.interpret budget ss) (m'.interpret budget ss') := by
  have hrun := h.runAll budget hcurrent hss
  unfold Machine.interpret
  revert hrun
  generalize m.runAll budget ss = done
  generalize m'.runAll budget ss' = done'
  obtain ⟨n, ds⟩ := done
  obtain ⟨n', ds'⟩ := done'
  rintro ⟨⟨F₁, (hmachines : Resembles L F₁ n n')⟩, hglobal, (hkept : n.sink.onFlush = _), hds⟩
  have hsink := hmachines.sink
  have hflushed : n.sink.flush.1 = n'.sink.flush.1.later L.flushes := by
    rw [hsink, Sink.flush_later]
  have hrefused : n.sink.flush.2 = n'.sink.flush.2 := by
    have hsame : n'.sink.onFlush = m.sink.onFlush := by
      rw [← hkept, hsink]
      rfl
    rw [hsink]
    show n'.sink.onFlush n'.sink.writes (n'.sink.flushes + L.flushes) = n'.sink.flush.2
    rw [hsame, hanswers, ← hsame]
    rfl
  refine ⟨⟨F₁, { hmachines with sink := hflushed }⟩, hglobal, hkept, ?_⟩
  show List.Forall₂ (Reports L) (ds ++ (n.sink.flush.2.map Diagnostic.output).toList)
    (ds' ++ (n'.sink.flush.2.map Diagnostic.output).toList)
  rw [hrefused]
  refine List.rel_append hds (List.forall₂_same.mpr fun d hd => ?_)
  rw [Option.mem_toList, Option.map_eq_some_iff] at hd
  obtain ⟨reason, -, rfl⟩ := hd
  exact ⟨.output reason, .output reason, .output reason, rfl, rfl⟩

end Resembles

/-- How flushes are answered does not change while a job is performed. -/
theorem Setting.Inv.onFlush_perform {S : Setting} {m : Machine} (hm : S.Inv m)
    (hcurrent : m.current = m.globals) (budget : Nat) (j : Job) :
    (m.perform budget j).1.sink.onFlush = m.sink.onFlush := by
  let L : Likeness := .plain Eq id m.distances (fun _ => rfl) fun _ _ => id
  -- What is kept of the output is known of two machines in step, so the machine is put beside
  -- itself.
  have hself : Resembles L (fun _ => false) m (m.withTable L.table') :=
    .refl hm (fun _ _ _ _ _ _ => rfl) m.sink
  have hpiece : Alike L [] j.piece j.piece := Alike.refl (j.visit {}) (fun _ _ => rfl) (by simp)
  cases j with
  | program ss => exact (hself.interpret budget hcurrent (fun _ _ => rfl) hpiece).onFlush
  | expression e =>
    have hstep := (InStep.lockstep budget).1 hself (hself.marked_current hcurrent) hpiece
    unfold InStep at hstep
    show (m.evaluate budget e).1.sink.onFlush = _
    unfold Machine.evaluate
    revert hstep
    generalize evaluate budget e m = r
    generalize evaluate budget e (m.withTable L.table') = r'
    intro hstep
    cases hstep with
    | ok hgrows => exact hgrows.onFlush
    | error hgrows => exact hgrows.onFlush

/-! ## Machines that are the same but for positions and numbers -/

/-- Two machines are the same, but for the positions of tokens and the numbers of references in the
functions that they hold, for their tables of distances, and for some flushes more of the output of
the first. -/
def Similar (places : Position → Position → Prop) (number : Nat → Nat) (flushes : Nat)
    (m m' : Machine) : Prop :=
  ∃ (table : Distances) (places_refl : ∀ p, places p p)
    (injective : ∀ id id', number id = number id' → id = id') (F : FrameId → Bool),
    Resembles (.plain places number table places_refl injective flushes) F (m.withTable table)
      (m'.withTable (table.renumber number))

section Similar

variable {places : Position → Position → Prop} {number : Nat → Nat} {flushes : Nat}
  {m m' : Machine}

/-- Similar machines have written the same. -/
theorem Similar.sink (h : Similar places number flushes m m') : m.sink = m'.sink.later flushes := by
  obtain ⟨_, _, _, _, h⟩ := h
  exact h.sink

/-- Similar machines stay so whatever their tables are. -/
theorem Similar.withTable (h : Similar places number flushes m m') (d d' : Distances) :
    Similar places number flushes (m.withTable d) (m'.withTable d') := h

/-- A likeness without marks lets machines be similar. -/
theorem Resembles.similar {table : Distances} {places_refl : ∀ p, places p p}
    {injective : ∀ id id', number id = number id' → id = id'} {F : FrameId → Bool}
    (h : Resembles (.plain places number table places_refl injective flushes) F m m') :
    Similar places number flushes m m' := by
  refine ⟨table, places_refl, injective, F, ?_⟩
  have hm : m.withTable table = m := congrArg m.withTable h.distances.symm
  have hm' : m'.withTable (table.renumber number) = m' := congrArg m'.withTable h.distances'.symm
  rwa [hm, hm']

/-- A machine that satisfies the invariant is similar to itself. -/
theorem Similar.refl {S : Setting} (hm : S.Inv m) (places_refl : ∀ p, places p p)
    (injective : ∀ id id', number id = number id' → id = id')
    (hids : ∀ v f, S.live v → v.piece = .function f → ∀ id ∈ v.ids, number id = id) :
    Similar places number 0 m m :=
  ⟨m.distances, places_refl, injective, fun _ => false, Resembles.refl hm hids m.sink⟩

end Similar

end Eval

end Lox

import Lox.Proofs.Eval.LoopCopies
import Lox.Proofs.Session.BlockFrames

/-!
# Counting loops in a session

Wherever a session comes to execute a counting loop, the statement that the loop is parsed as ends
like the loop as it is written. The loop as it is written is run on a copy whose references have
numbers that are not given out, scoped within the scopes around the loop. At first the two machines
are the same but for what is known about the copy (`Trims.refl`), and from there the runs go abreast
(`CountingLoop.Twins.run`).

The frame of the block around a round binds nothing as long as the session goes on, since neither
the body of a loop nor its step declares a name.
-/

namespace Lox

open Scoping Eval

namespace Eval

/-! ## A machine corresponds to itself -/

namespace Trim

/-- No frame is left out. -/
def whole (globals : FrameId) (d d' : Distances) : Trim where
  extra _ := false
  place k := k
  injective _ _ _ _ h := h
  surjective k := ⟨k, rfl, rfl⟩
  globals := globals
  table := d
  table' := d'

section Refl

variable {R : Match}

mutual

/-- A class corresponds to itself if its methods do. -/
theorem Classes.refl_cons : (c : Class) → {cs : List Class} →
    (∀ f ∈ c.functions, R.Methods f f) → Classes R cs cs → Classes R (c :: cs) (c :: cs)
  | ⟨id, name, supers, methods⟩, cs, h, hcs => by
    rw [Class.functions, List.forall_mem_append] at h
    have hmethods : Bound R.Methods methods methods :=
      .of_forall₂ (List.forall₂_same.mpr fun p hp => ⟨rfl, h.1 p.2 (List.mem_map_of_mem hp)⟩)
    exact .cons (Classes.refl supers h.2) hmethods hcs

/-- Classes correspond to themselves if their methods do. -/
theorem Classes.refl : (cs : List Class) → (∀ f ∈ classFunctions cs, R.Methods f f) →
    Classes R cs cs
  | [], _ => .nil
  | c :: cs, h => by
    rw [classFunctions, List.forall_mem_append] at h
    exact Classes.refl_cons c h.1 (Classes.refl cs h.2)

end

/-- A heap corresponds to itself if all its values do and links lead to frames that exist. -/
theorem Heaps.refl {h : Heap} {globals : FrameId} {d d' : Distances}
    (hh : h.Holds fun v => Values R v v)
    (hlinks : ∀ k outer, h.frames.enclosing? k = some outer → outer < h.frames.size) :
    Heaps (whole globals d d') R h h where
  frames := by
    refine ⟨fun k frame _ hframe => ⟨frame, hframe, Option.map_id'.symm, ?_⟩, ?_,
      fun i => ⟨rfl, rfl⟩, hlinks⟩
    -- No frame is extra, so all that is bound in a frame has to correspond to itself.
    · refine .refl fun name v hv => hh.bound k name v ?_
      unfold Frames.local?
      rw [hframe]
      exact hv
    · exact fun k _ hextra => absurd hextra Bool.false_ne_true
  objects := by
    refine .refl fun id object hobject => ?_
    have hmem := Array.mem_of_getElem? hobject
    have hcls := hh.classes object hmem
    refine ⟨?_, .refl (hh.fields object hmem)⟩
    cases hcls with
    | «class» hcls => exact hcls
  arrays := by
    refine .refl fun id xs hxs => List.forall₂_same.mpr fun v hv => ?_
    exact hh.elements xs (Array.mem_of_getElem? hxs) v (Array.mem_toList_iff.mp hv)
  nextIdentity := rfl

end Refl

end Trim

variable {S : Setting} {m : Machine} {d' : Distances}

/-- Frames that match some scopes match them without extra frames, if there are none. -/
theorem Aligned.sheds {made : FrameId → Construct → Prop} {k : FrameId} {scopes : List Scope}
    {cs : List Construct} (h : Aligned made m k scopes cs) :
    Sheds (.whole m.globals m.distances d') m.heap.frames k scopes scopes := by
  induction scopes generalizing k cs with
  | nil =>
    cases cs with
    | nil =>
      obtain rfl : k = m.globals := h
      exact .globals
    | cons c cs => contradiction
  | cons scope scopes ih =>
    cases cs with
    | nil => contradiction
    | cons c cs =>
      obtain ⟨_, _, _, outer, houter, h⟩ := h
      exact .shared rfl houter (ih h)

/-- A sound value corresponds to itself. -/
theorem Trim.Values.refl_of_sound
    (hpaired : ∀ u, S.live u → Visit.Paired m.distances d' u u) {v : Value} (hv : S.Sound m v) :
    Trim.Same (.whole m.globals m.distances d') m.heap.frames v v := by
  cases v with
  | function id f =>
    obtain ⟨_, u, hu, hpiece, haligned⟩ := hv
    exact .function ⟨rfl, rfl, fun _ _ => rfl,
      u, u, _, _, hpaired u hu, hpiece, hpiece, rfl, rfl, haligned.sheds⟩
  | «class» c =>
    refine .class (Classes.refl_cons c (fun f hf => ?_) .nil)
    obtain ⟨_, u, c', outer, around, hu, hpiece, _, hscopes, _, haligned⟩ := hv.1 f hf
    exact ⟨rfl, rfl, fun _ _ => rfl,
      u, u, _, _, hpaired u hu, hpiece, hpiece, hscopes, hscopes, haligned.sheds⟩
  | nil => exact .nil
  | boolean b => exact .boolean b
  | number x => exact .number x
  | string s => exact .string s
  | native f => exact .native f
  | object id => exact .object id
  | array id => exact .array id

/-- A machine that satisfies the invariant corresponds to itself with another table, if that table
holds what was found at the visits that count. -/
theorem Trims.refl (hm : S.Inv m) (hpaired : ∀ u, S.live u → Visit.Paired m.distances d' u u)
    (hlinks : ∀ k outer, m.heap.frames.enclosing? k = some outer → outer < m.heap.frames.size) :
    Trims (.whole m.globals m.distances d') m (m.withTable d') where
  heap := .refl (hm.holds.imp fun _ hv => .refl_of_sound hpaired hv) hlinks
  current := rfl
  globals := rfl
  globals' := rfl
  distances := rfl
  distances' := rfl
  objectClass := by
    have hcls := Trim.Values.refl_of_sound hpaired hm.objectClass
    cases hcls with
    | «class» hcls => exact hcls
  sink := rfl
  clock := rfl
  globals_lt := hm.globals
  globals_shared := rfl
  outermost := hm.outermost

/-- Two runs of statements from a machine end alike. Both complete normally or with results that
correspond, or both fail in the same way. The machines that they leave have the same output, objects
and arrays, and the same frames but for some of the first that bind nothing and were not there
before. -/
inductive EndsAlike (m : Machine) :
    EStateM.Result Failure Machine Flow → EStateM.Result Failure Machine Flow → Prop
  | ok {τ : Trim} {n n' : Machine} {flow flow' : Flow}
      (hτ : ∀ k < m.heap.frames.size, τ.extra k = false ∧ τ.place k = k) (h : Trims τ n n')
      (hflow : τ.Flows n.heap.frames flow flow') : EndsAlike m (.ok flow n) (.ok flow' n')
  | error {τ : Trim} {n n' : Machine} {e : Failure}
      (hτ : ∀ k < m.heap.frames.size, τ.extra k = false ∧ τ.place k = k) (h : Trims τ n n') :
      EndsAlike m (.error e n) (.error e n')

/-- Runs that go abreast end alike, unless the one that may use up its budget does so. -/
theorem Trim.Loosely.endsAlike {side : Side} {globals : FrameId} {d : Distances} {m' : Machine}
    {x x' : Exec Flow} (h : Loosely side (.whole globals d d') m m' x x' Trim.Flows)
    (hfirst : side = .first → ∀ n, x m ≠ .error .exhausted n)
    (hsecond : side = .second → ∀ n, x' m' ≠ .error .exhausted n) :
    EndsAlike m (x m) (x' m') := by
  obtain ⟨τ, hτ, hends⟩ := h
  have hold : ∀ k < m.heap.frames.size, τ.extra k = false ∧ τ.place k = k :=
    fun k hk => ⟨hτ.extra k hk, hτ.place k hk⟩
  generalize x m = r at hends hfirst ⊢
  generalize x' m' = r' at hends hsecond ⊢
  cases hends with
  | ok _ h hflow => exact .ok hold h hflow
  | error _ h => exact .error hold h
  | firstSpent hside => exact absurd rfl (hfirst hside _)
  | secondSpent hside => exact absurd rfl (hsecond hside _)

end Eval

/-! ## Loops that are accepted -/

namespace CountingLoop

/-- The clauses of the loop are phrases that may stand in a counting loop, and its body is a
statement. -/
def Accepted (l : CountingLoop) : Prop :=
  ∃ (ts us vs ws : List Token) (n n₁ n₂ n₃ n₄ : Nat) (dangling : Bool),
    Grammar.Derives .start ts n l.start n₁ ∧ Grammar.Derives .optional us n₁ l.condition n₂ ∧
      Grammar.Derives .optional vs n₂ l.step n₃ ∧
      Grammar.Derives (.statement dangling) ws n₃ l.body n₄

/-- The body of an accepted loop declares nothing. -/
theorem Accepted.plain {l : CountingLoop} (h : l.Accepted) : l.body.isPlain := by
  obtain ⟨_, _, _, _, _, _, _, _, _, _, _, _, _, hbody⟩ := h
  exact hbody.tidy.1

/-- The block around a round declares no name. -/
theorem declared_padded {l : CountingLoop} (hplain : l.body.isPlain) (e : Expr) :
    [l.body, .expression e].flatMap Stmt.declared = [] := by
  rw [List.flatMap_cons, Visit.declared_plain hplain]
  rfl

end CountingLoop

/-- The machine with the distances that scoping finds for a counting loop as it is written, within
the scopes at a visit. -/
def Machine.prepareLoop (m : Machine) (l : CountingLoop) (v : Visit) : Machine :=
  m.withTable (l.walk v.ctx { v.walk with distances := m.distances }).distances

/-- The parts of a piece whose references have different numbers are such pieces. -/
theorem Scoping.Visit.nodup_parts {v : Visit} (h : v.ids.Nodup) : ∀ p ∈ v.parts, p.ids.Nodup := by
  rw [Visit.ids_eq, List.nodup_append'] at h
  exact (List.nodup_flatMap.mp h.2.1).1

namespace Session

variable {s : Session} {sink : Sink} {clock : Clock} {turns : List Turn} {v : Visit} {μ : Moment}

/-! ## Numbers -/

/-- Turns take no number back. -/
theorem nextId_le_after (s : Session) (turns : List Turn) : s.nextId ≤ (s.after turns).nextId := by
  induction turns generalizing s with
  | nil => exact Nat.le_refl _
  | cons t turns ih => exact Nat.le_trans (s.nextId_le_turn t) (ih (s.turn t).1)

/-- The numbers in a visited piece are given out. -/
theorem lt_nextId_of_visited (h : s.Visited turns v) :
    ∀ id ∈ v.ids, id < (s.after turns).nextId := by
  induction turns generalizing s with
  | nil => exact False.elim h
  | cons t turns ih =>
    intro id hid
    obtain ⟨j, hj, hv⟩ | h := h
    · exact Nat.lt_of_lt_of_le (bounds_of_accepted hj hv hid).2 (nextId_le_after _ turns)
    · exact ih h id hid

/-- The references in a visited piece have different numbers. -/
theorem nodup_of_visited (h : s.Visited turns v) : v.ids.Nodup :=
  h.of_jobs (P := fun v => v.ids.Nodup) fun _ _ _ _ hj =>
    .of_closed (tidy_of_accepted hj _).spans.nodup fun _ => Visit.nodup_parts

/-- Whenever something runs, only numbers that are given out have distances. -/
theorem Fit.below_of_reaches {R : Record} {d' : Distances} (h : s.Fit R d')
    (hrecord : Recorded R s turns) (hμ : s.Reaches turns μ) :
    μ.machine.distances.Below (s.after turns).nextId := by
  induction turns generalizing s d' with
  | nil => exact False.elim hμ
  | cons t turns ih =>
    obtain ⟨j, hj, μ₀, hμ₀, hreach⟩ | hμ := hμ
    · have htop : (s.machine.prepare j).AtTop := h.current
      have hstart := ((Machine.restores_perform j htop fun μ _ => μ.avoids_none).2 μ₀ hμ₀).1
      -- Within a turn the table stays as scoping has left it.
      rw [hreach.keeps.2, hstart.distances]
      exact (j.below_after (tidy_of_accepted hj _) h.below).mono (nextId_le_after _ turns)
    · obtain ⟨e', hfit, _⟩ := h.turn hrecord.head
      exact ih hfit hrecord.tail hμ

/-! ## Loops as they are written -/

/-- What is known of the visits that count at a moment of a session. -/
theorem apt_of_live (hturns : ∀ t ∈ turns, t.Spelled) {S : Setting}
    (hseen : ∀ v, S.live v → (start sink clock).Visited turns v) {d : Distances} (hd : S.tables d)
    (hv : S.live v) : Visit.All (Visit.Apt d) v := by
  refine (Visit.All.of_closed hv S.live_parts).imp fun u hu => ?_
  have hvisited := hseen u hu
  have hhome := Visit.atHome_of_clean (clean_of_visited hvisited)
  exact ⟨S.recorded u hu d hd, S.shapely u hu, Visit.inherits_of_nested
    (nested_of_visited hturns hvisited) hhome (names_of_visited hturns hvisited), hhome⟩

/-- A visit that counts is paired with itself, for a table that keeps the distances of the numbers
that are given out. -/
theorem paired_of_live (hturns : ∀ t ∈ turns, t.Spelled) {S : Setting}
    (hseen : ∀ v, S.live v → (start sink clock).Visited turns v) {d d' : Distances}
    (hd : S.tables d)
    (hd' : ∀ id < ((start sink clock).after turns).nextId, d'.find? id = d.find? id)
    (hv : S.live v) :
    Visit.Paired d d' v v := by
  have hapt := apt_of_live hturns hseen hd hv
  have hrecorded := hapt.imp fun _ => Visit.Apt.recorded
  refine .refl hrecorded (fun u hu => ?_) (S.all_shapely hv) (hapt.imp fun _ => Visit.Apt.inherits)
  -- The numbers in the piece are given out, so both tables have the same distances for them.
  refine (hrecorded u hu).congr fun id hid => hd' id ?_
  exact lt_nextId_of_visited (hseen v hv) id (Visit.ids_within hu hid)

/-- A counting loop means what is written. Take any moment of a session at which the statement is
executed that an accepted loop is parsed as. Run, on the same machine, with the same clock and
output, a copy of the loop as it is written: the start once, in a new frame that all rounds share,
and without a start in no new frame; then rounds of the condition, the body and the step. The copy
has numbers that are not given out and is scoped within the scopes around the loop. If one of the
two runs ends within its budget, the other one ends alike with a budget that is large enough. And
the frame of the block around a round binds nothing in any state of the session. -/
theorem counting_loop_runs_as_written (sink : Sink) (clock : Clock) (turns : List Turn)
    (hturns : ∀ t ∈ turns, t.Spelled) (l : CountingLoop) (hl : l.Accepted) (b : Nat) (m : Machine)
    (hμ : (start sink clock).Reaches turns ⟨.execute b l.desugared, m⟩) (shift : Nat)
    (hshift : ((start sink clock).after turns).nextId ≤ shift) :
    (∃ v, (start sink clock).Visited turns v ∧ v.piece = .stmt l.desugared ∧
      Aligned ((start sink clock).Made turns) m m.current v.walk.scopes v.around ∧
      let copy := l.renumber shift
      let m' := m.prepareLoop copy v
      (∀ c c', c ≤ c' → (∀ n, execute c l.desugared m ≠ .error .exhausted n) →
        EndsAlike m (execute c l.desugared m) (copy.run c' m')) ∧
      ∀ c c', c' + 4 ≤ c → (∀ n, copy.run c' m' ≠ .error .exhausted n) →
        EndsAlike m (execute c l.desugared m) (copy.run c' m')) ∧
    ∀ e ∈ l.step, ∀ c m₀,
      (start sink clock).Reaches turns ⟨.execute (c + 1) (.block [l.body, .expression e]), m₀⟩ →
      ∀ n, (start sink clock).Passes turns n → n.heap.frames.Has m₀.heap.frames.size [] := by
  obtain ⟨S, (hmade : S.made = (start sink clock).Made turns), _, hseen, hgood⟩ :=
    (fit_start _ sink clock).good_of_reaches (recorded_record _ turns) hμ
  obtain ⟨⟨ctx, _, w, around⟩, rfl, hat⟩ := hgood.ready
  have hm := hgood.inv
  refine ⟨⟨_, hseen _ hat.live, rfl, hmade ▸ hat.aligned, ?_⟩, fun e _ c m₀ hround n hn =>
    hn.has_nil hturns hround (CountingLoop.declared_padded hl.plain e)⟩
  intro copy m'
  -- The copy is scoped beside all that is known, which stays as it is.
  have hbelow : m.distances.Below shift :=
    ((fit_start _ sink clock).below_of_reaches (recorded_record _ turns) hμ).mono hshift
  have hkept : ∀ id < ((start sink clock).after turns).nextId,
      m'.distances.find? id = m.distances.find? id :=
    fun id hid => CountingLoop.find?_walk_renumber (Nat.lt_of_lt_of_le hid hshift)
  have hnodup : l.ids.Nodup := by
    rw [← CountingLoop.ids_desugared, ← Visit.ids_piece ⟨ctx, .stmt l.desugared, w, around⟩]
    exact nodup_of_visited (hseen _ hat.live)
  have htwins : CountingLoop.Twins m.distances m'.distances w.scopes w.scopes l copy :=
    CountingLoop.twins_renumber hl.plain (apt_of_live hturns hseen hm.table hat.live) hnodup hbelow
  -- At first the machines are the same but for their tables.
  have hlinks (k outer : FrameId) (hk : m.heap.frames.enclosing? k = some outer) :
      outer < m.heap.frames.size :=
    Nat.lt_trans ((Passes.starts hμ).forest.earlier k outer hk) (Frames.lt_size_of_enclosing? _ hk)
  have hpaired (u : Visit) (hu : S.live u) : Visit.Paired m.distances m'.distances u u :=
    paired_of_live hturns hseen hm.table hkept hu
  have hpoised : Poised m.distances m'.distances w.scopes w.scopes
      (.whole m.globals m.distances m'.distances) m m' :=
    ⟨.refl hm hpaired hlinks, rfl, rfl, hat.aligned.sheds⟩
  refine ⟨fun c c' hc hends => ?_, fun c c' hc hends => ?_⟩
  · have hside : Side.first.Allows 4 c c' := hc
    exact (htwins.run hpoised hside).endsAlike (fun _ => hends) (by simp)
  · have hside : Side.second.Allows 4 c c' := hc
    exact (htwins.run hpoised hside).endsAlike (by simp) fun _ => hends

open Grammar (mark word)

/-- The tokens of `var a = true;`. -/
def onceStart : List Token :=
  [mark .kwVar, word "a", mark .equal, mark .kwTrue, mark .semicolon]

/-- The tokens of `a = false`. -/
def onceStep : List Token :=
  [word "a", mark .equal, mark .kwFalse]

/-- The tokens of a block in which a function reads `a`, and then the function is called. -/
def onceBody : List Token :=
  [mark .leftBrace, mark .kwFun, word "f", mark .leftParen, mark .rightParen, mark .leftBrace,
    word "a", mark .semicolon, mark .rightBrace, word "f", mark .leftParen, mark .rightParen,
    mark .semicolon, mark .rightBrace]

/-- A loop with these clauses and the condition `a`, which goes round once. -/
def onceTokens : List Token :=
  mark .kwFor :: mark .leftParen :: onceStart ++ [word "a"] ++ mark .semicolon :: onceStep ++
    mark .rightParen :: onceBody

/-- The loop whose tokens are `onceTokens`. -/
def onceLoop : CountingLoop where
  start := some (.declare [⟨word "a", some (.literal (.boolean true))⟩])
  condition := some (.reference ⟨0, word "a"⟩)
  step := some (.assign ⟨2, word "a"⟩ (.literal (.boolean false)))
  body := .block [
    .function ⟨some (word "f"), word "f", [], [.expression (.reference ⟨3, word "a"⟩)]⟩,
    .expression (.call (.reference ⟨4, word "f"⟩) (mark .rightParen) [])]

/-- A session that is given the loop. -/
def onceTurns : List Turn :=
  [.tokens 9 (onceTokens ++ [mark .eof])]

/-- The clauses of the loop are derived. -/
theorem derives_onceClauses :
    Grammar.Derives .start onceStart 0 onceLoop.start 0 ∧
      Grammar.Derives .optional [word "a"] 0 onceLoop.condition 1 ∧
      Grammar.Derives .optional onceStep 1 onceLoop.step 3 ∧
      Grammar.Derives (.statement false) onceBody 3 onceLoop.body 5 := by
  have hconstant {t : Token} {v : Literal} {n : Nat} (ht : Grammar.constant? t.kind = some v) :
      Grammar.Derives .expression [t] n (.literal v) n := .expression_of_call (.bare (.constant ht))
  have hread : Grammar.Derives .block
      (mark .leftBrace :: [word "a", mark .semicolon] ++ [mark .rightBrace]) 3 _ 4 :=
    .block rfl (.moreDeclarations (.statement (.expression_of_word "a" 3)) .noDeclarations) rfl
  have hfunction : Grammar.Derives .declaration (mark .kwFun :: (word "f" :: mark .leftParen ::
      [] ++ mark .rightParen :: (mark .leftBrace :: [word "a", mark .semicolon] ++
        [mark .rightBrace]))) 3 _ 4 :=
    .functionDeclaration rfl (.function rfl rfl .noParameters rfl hread)
  have hcall : Grammar.Derives .declaration
      ([word "f"] ++ mark .leftParen :: [] ++ [mark .rightParen] ++ [mark .semicolon]) 4 _ 5 :=
    .statement (.expression (.terminated (.expression_of_call
      (.call (.bare (.reference rfl)) rfl .noArguments rfl)) rfl) (by simp [word]))
  have hstart : Grammar.Derives .start
      (mark .kwVar :: [word "a", mark .equal, mark .kwTrue] ++ [mark .semicolon]) 0 _ 0 :=
    .variableStart rfl (.lastDeclarator (.initialized rfl rfl (hconstant rfl))) rfl
  refine ⟨hstart, .present (.expression_of_call (.bare (.reference rfl))), ?_, ?_⟩
  · exact .present (.assign rfl rfl (hconstant rfl))
  · exact .blockStatement (.block rfl (.moreDeclarations hfunction
      (.moreDeclarations hcall .noDeclarations)) rfl)

/-- The loop is accepted. -/
theorem accepted_onceLoop : onceLoop.Accepted :=
  ⟨_, _, _, _, _, _, _, _, _, _, derives_onceClauses⟩

/-- The tokens are read as the desugared loop. -/
theorem readTokens_onceTokens : (start {} {}).readTokens (onceTokens ++ [mark .eof]) =
    ⟨0, 5, .ok (.program [onceLoop.desugared])⟩ := by
  obtain ⟨hstart, hcondition, hstep, hbody⟩ := derives_onceClauses
  have hloop : Grammar.Derives (.statement false) onceTokens 0 onceLoop.desugared 5 :=
    .forLoop rfl rfl hstart hcondition rfl hstep rfl hbody (.started .stepped)
  have hall : Grammar.Derives .declarations (onceTokens ++ []) 0 [onceLoop.desugared] 5 :=
    .moreDeclarations (.statement hloop) .noDeclarations
  rw [List.append_nil] at hall
  have hparse : Grammar.parse (onceTokens ++ [mark .eof]) 0 = _ := hall.parse_eq (by decide) rfl
  simp [readTokens, start, hparse]

/-- The machine on which the loop starts. -/
def onceMachine : Machine :=
  (Machine.start {} {}).prepare (.program [onceLoop.desugared])

/-- The session reaches the loop. -/
theorem reaches_onceLoop :
    (start {} {}).Reaches onceTurns ⟨.execute 9 onceLoop.desugared, onceMachine⟩ := by
  have haccepted : (start {} {}).accepted? (.tokens 9 (onceTokens ++ [mark .eof])) =
      some (.program [onceLoop.desugared]) :=
    accepted?_eq_some_iff.mpr ⟨_, congrArg some readTokens_onceTokens, rfl, by decide⟩
  exact .inl ⟨_, haccepted, _, List.mem_cons_self, .refl⟩

/-- In the round a frame is made for the block around it, after that of the start. -/
theorem reaches_onceRound : ∃ e ∈ onceLoop.step, ∃ m₀, m₀.heap.frames.size = 2 ∧
    (start {} {}).Reaches onceTurns ⟨.execute 6 (.block [onceLoop.body, .expression e]), m₀⟩ := by
  have hblock : Moment.Reaches ⟨.execute 9 onceLoop.desugared, onceMachine⟩ _ :=
    .head (.block rfl) (.head (.tailStatements rfl) (.single .headStatement))
  have hloop : Moment.Reaches _ _ := hblock.tail .loop
  have hround := hloop.tail (.loopBody rfl rfl)
  exact ⟨_, rfl, _, rfl, reaches_onceLoop.trans hround⟩

/-- The loop does not use up its budget. -/
theorem execute_onceLoop (n : Machine) :
    execute 9 onceLoop.desugared onceMachine ≠ .error .exhausted n := by
  have hrun : (onceMachine.runTop 9 onceLoop.desugared).2 = [] := by decide +kernel
  intro hx
  unfold Machine.runTop at hrun
  rw [hx] at hrun
  contradiction

/-- A loop with all clauses, in whose body a function reads the variable of the start, ends like the
loop as it is written, and the second frame that it makes binds nothing. -/
theorem closure_in_loop_runs_as_written :
    (∀ t ∈ onceTurns, t.Spelled) ∧ onceLoop.Accepted ∧
    (start {} {}).Reaches onceTurns ⟨.execute 9 onceLoop.desugared, onceMachine⟩ ∧
    ((start {} {}).after onceTurns).nextId ≤ 5 ∧
    (∀ n, execute 9 onceLoop.desugared onceMachine ≠ .error .exhausted n) ∧
    (∃ v, (start {} {}).Visited onceTurns v ∧ v.piece = .stmt onceLoop.desugared ∧
      EndsAlike onceMachine (execute 9 onceLoop.desugared onceMachine)
        ((onceLoop.renumber 5).run 9 (onceMachine.prepareLoop (onceLoop.renumber 5) v))) ∧
    ((start {} {}).after onceTurns).machine.heap.frames.Has 2 [] := by
  have hspelled : ∀ t ∈ onceTurns, t.Spelled := by
    simp only [onceTurns, List.mem_singleton, forall_eq, Turn.Spelled]
    decide
  have hread : (start {} {}).read? (.tokens 9 (onceTokens ++ [mark .eof])) = some _ :=
    congrArg some readTokens_onceTokens
  have hnext : ((start {} {}).after onceTurns).nextId = 5 := nextId_turn hread
  obtain ⟨⟨v, hvisited, hpiece, _, hends, _⟩, hrounds⟩ :=
    counting_loop_runs_as_written {} {} onceTurns hspelled
      onceLoop accepted_onceLoop 9 onceMachine reaches_onceLoop 5 (Nat.le_of_eq hnext)
  obtain ⟨e, he, m₀, hm₀, hround⟩ := reaches_onceRound
  have hend : (start {} {}).Passes onceTurns ((start {} {}).after onceTurns).machine :=
    .between List.prefix_rfl
  have hhas := hrounds e he 5 m₀ hround _ hend
  rw [hm₀] at hhas
  have halike := hends 9 9 (Nat.le_refl 9) execute_onceLoop
  exact ⟨hspelled, accepted_onceLoop, reaches_onceLoop, Nat.le_of_eq hnext, execute_onceLoop,
    ⟨v, hvisited, hpiece, halike⟩, hhas⟩

end Session

end Lox

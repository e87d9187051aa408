import Lox.Proofs.Scoping.Occurrences
import Lox.Proofs.Session.Twins

/-!
# Distances and frames

Whenever an expression is evaluated, be it in a closure that some later source calls, the chain of
frames from the current one to the globals matches the scopes that were open when scoping visited
the expression. So the distance that was found for a reference leads to a frame that exists and is
not the global one, and the name is bound there unless the scope has it without its initial value.
-/

namespace Lox.Eval

open Scoping Exec

/-- At a distance that was found for a name there is a frame within the globals. It binds the name
unless the scope at that distance has the name without its initial value. -/
structure Denotes (m : Machine) (w : Walk) (distance : Nat) (name : String) (k : FrameId) :
    Prop where
  /-- The frame is at the distance from the current one. -/
  ancestor : m.heap.frames.ancestor? m.current distance = some k
  /-- The frame exists. -/
  lt_size : k < m.heap.frames.size
  /-- The frame is not the global one. -/
  ne_globals : k ≠ m.globals
  /-- Where the name is not bound, it has not got its initial value. -/
  unbound : m.heap.frames.local? k name = none →
    ∃ scope, w.scopes[distance]? = some scope ∧ scope.lookup name = some false

/-- In a chain that matches there is a frame for every scope. -/
theorem Aligned.ancestor {made : FrameId → Construct → Prop} {m : Machine} {k : FrameId}
    {scopes : List Scope} {cs : List Construct} (h : Aligned made m k scopes cs) {distance : Nat}
    {scope : Scope} (hscope : scopes[distance]? = some scope) :
    ∃ k', m.heap.frames.ancestor? k distance = some k' ∧ k' < m.heap.frames.size ∧
      k' ≠ m.globals ∧
      ∀ name, scope.lookup name = some true → (m.heap.frames.local? k' name).isSome := by
  induction scopes generalizing k cs distance with
  | nil => simp at hscope
  | cons scope' scopes ih =>
    cases cs with
    | nil => exact absurd h id
    | cons c cs =>
      -- One scope further out is one frame further out.
      obtain ⟨hk, _, hbound, outer, houter, h⟩ := h
      cases distance with
      | zero =>
        obtain rfl := Option.some.inj hscope
        exact ⟨k, rfl, Frames.lt_size_of_enclosing? _ houter, hk, hbound⟩
      | succ distance =>
        obtain ⟨k', hk', hrest⟩ := ih h hscope
        exact ⟨k', by simp [Frames.ancestor?, houter, hk'], hrest⟩

/-- Where the frames match scopes in which a name is marked at least as in the open ones, the
distance that is found for the name leads to its frame. -/
theorem Aligned.denotes_of_marked {made : FrameId → Construct → Prop} {m : Machine} {w : Walk}
    {scopes : List Scope} {cs : List Construct} (h : Aligned made m m.current scopes cs)
    {x : Reference} {distance : Nat} (hx : w.distance? x = some distance)
    (hmarked : ∀ (i : Nat) (scope : Scope), w.scopes[i]? = some scope →
      ∃ scope', scopes[i]? = some scope' ∧
        (scope.lookup x.name.lexeme = some true → scope'.lookup x.name.lexeme = some true)) :
    ∃ k, Denotes m w distance x.name.lexeme k := by
  obtain ⟨hlt, hfound, _⟩ := List.findIdx?_eq_some_iff_getElem.mp hx
  have hscope := List.getElem?_eq_getElem hlt
  obtain ⟨scope', hscope', htrue⟩ := hmarked distance _ hscope
  obtain ⟨k, hk, hsize, hglobals, hbound⟩ := h.ancestor hscope'
  refine ⟨k, hk, hsize, hglobals, fun hnone => ⟨_, hscope, ?_⟩⟩
  obtain ⟨marked, hlookup⟩ := Option.isSome_iff_exists.mp hfound
  cases marked with
  | false => exact hlookup
  | true =>
    have hsome := hbound _ (htrue hlookup)
    rw [hnone] at hsome
    contradiction

/-- Where the frames match the open scopes, the distance that is found for a reference leads to its
frame. -/
theorem Aligned.denotes {made : FrameId → Construct → Prop} {m : Machine} {w : Walk}
    {cs : List Construct} (h : Aligned made m m.current w.scopes cs) {x : Reference}
    {distance : Nat} (hx : w.distance? x = some distance) :
    ∃ k, Denotes m w distance x.name.lexeme k :=
  h.denotes_of_marked hx fun _ scope hscope => ⟨scope, hscope, id⟩

/-- A name of another class is marked as before when the name of a class is left out. -/
theorem Aligned.denotes_superclass {made : FrameId → Construct → Prop} {m : Machine} {w : Walk}
    {cs : List Construct} {name : Token} (h : Aligned made m m.current (w.scopesBut name) cs)
    {x : Reference} (hne : x.name.lexeme ≠ name.lexeme) {distance : Nat}
    (hx : w.distance? x = some distance) : ∃ k, Denotes m w distance x.name.lexeme k := by
  refine h.denotes_of_marked hx fun i scope hscope => ?_
  unfold Walk.scopesBut
  cases hw : w.scopes with
  | nil => simp [hw] at hscope
  | cons first outer =>
    rw [hw] at hscope
    -- Only the innermost scope is another one.
    cases i with
    | succ i => exact ⟨scope, hscope, id⟩
    | zero =>
      obtain rfl := Option.some.inj hscope
      exact ⟨_, rfl, fun htrue => by rwa [Walk.lookup_filter_ne, if_neg hne]⟩

/-- A variable with a distance is held by the frame there, if it is bound in it. -/
theorem holder?_at {m : Machine} {x : Reference} {distance : Nat} {k : FrameId}
    (hx : m.distances.find? x.id = some distance)
    (hk : m.heap.frames.ancestor? m.current distance = some k) :
    m.holder? x = if (m.heap.frames.local? k x.name.lexeme).isSome then some k else none := by
  rw [Machine.holder?, hx]
  show Option.filter _ (m.heap.frames.ancestor? m.current distance) = _
  rw [hk]
  rfl

/-- A variable is read in the frame at its distance. -/
theorem lookUp_at {m : Machine} {x : Reference} {distance : Nat} {k : FrameId}
    (hx : m.distances.find? x.id = some distance)
    (hk : m.heap.frames.ancestor? m.current distance = some k) :
    lookUp x m = match m.heap.frames.local? k x.name.lexeme with
      | some y => .ok y m
      | none => .error (.program x.name.line (.undefinedVariable x.name.lexeme)) m := by
  show getFrom (m.holder? x) x.name m = _
  rw [holder?_at hx hk]
  cases hy : m.heap.frames.local? k x.name.lexeme with
  | none => rfl
  | some y =>
    show orFail x.name _ (m.heap.frames.local? k x.name.lexeme) m = _
    rw [hy]
    rfl

/-- A variable is written in the frame at its distance. -/
theorem assign_at {m : Machine} {x : Reference} {distance : Nat} {k : FrameId}
    (hx : m.distances.find? x.id = some distance)
    (hk : m.heap.frames.ancestor? m.current distance = some k) (y : Value) :
    assign x y m = match m.heap.frames.local? k x.name.lexeme with
      | some _ => .ok () { m with heap.frames := m.heap.frames.define k x.name.lexeme y }
      | none => .error (.program x.name.line (.undefinedVariable x.name.lexeme)) m := by
  show assignIn (m.holder? x) x.name y m = _
  rw [holder?_at hx hk]
  cases m.heap.frames.local? k x.name.lexeme <;> rfl

namespace Setting

variable {S : Setting} {m m₁ : Machine} {b distance : Nat} {x : Reference} {e : Expr} {y : Value}

/-- A variable with a distance is read in its frame. -/
theorem Good.reference (h : S.Good ⟨.evaluate (b + 1) (.reference x), m⟩)
    (hx : m.distances.find? x.id = some distance) :
    ∃ v k, S.live v ∧ v.piece = .expr (.reference x) ∧
      Denotes m v.walk distance x.name.lexeme k ∧
      evaluate (b + 1) (.reference x) m = match m.heap.frames.local? k x.name.lexeme with
        | some y => .ok y m
        | none => .error (.program x.name.line (.undefinedVariable x.name.lexeme)) m := by
  obtain ⟨hm, ⟨⟨ctx, _, w, around⟩, rfl, hat⟩, _⟩ := h
  have hdistance := (S.recorded _ hat.live _ hm.table x rfl).symm.trans hx
  obtain ⟨k, hk⟩ := hat.aligned.denotes hdistance
  exact ⟨_, k, hat.live, rfl, hk, lookUp_at hx hk.ancestor⟩

/-- A variable with a distance is written in its frame, once its new value is evaluated. -/
theorem Good.assign (h : S.Good ⟨.evaluate (b + 1) (.assign x e), m⟩)
    (hx : m.distances.find? x.id = some distance) (he : evaluate b e m = .ok y m₁) :
    ∃ v k, S.live v ∧ v.piece = .expr (.assign x e) ∧
      Denotes m₁ v.walk distance x.name.lexeme k ∧
      evaluate (b + 1) (.assign x e) m = match m₁.heap.frames.local? k x.name.lexeme with
        | some _ => .ok y { m₁ with heap.frames := m₁.heap.frames.define k x.name.lexeme y }
        | none => .error (.program x.name.line (.undefinedVariable x.name.lexeme)) m₁ := by
  obtain ⟨hm, ⟨⟨ctx, _, w, around⟩, rfl, hat⟩, hrec⟩ := h
  have hdistance := (S.recorded _ hat.live _ hm.table x rfl).symm.trans hx
  obtain ⟨_, hext, _⟩ := after_evaluate hm (hat.first rfl rfl rfl) rfl (hrec.step .assign) he
  obtain ⟨k, hk⟩ := (hat.mono hext).aligned.denotes hdistance
  refine ⟨_, k, hat.live, rfl, hk, ?_⟩
  have hassign := assign_at (hext.distances ▸ hx) hk.ancestor y
  show EStateM.bind (evaluate b e) (fun v => EStateM.bind (Exec.assign x v) fun _ => pure v) m = _
  unfold EStateM.bind
  rw [he]
  dsimp only
  rw [hassign]
  cases m₁.heap.frames.local? k x.name.lexeme <;> rfl

end Setting

end Lox.Eval

namespace Lox.Session

open Scoping Eval

variable {R : Record} {d' : Distances} {s : Session} {turns : List Turn} {t : Turn} {v v' : Visit}

/-- A turn takes the numbers of its reading. -/
theorem nextId_turn {r : Reading} (hread : s.read? t = some r) :
    (s.turn t).1.nextId = r.next := by
  rw [turn_eq_give hread]
  exact nextId_give _ _ _ _

/-- Numbers are only given out. -/
theorem nextId_le_turn (s : Session) (t : Turn) : s.nextId ≤ (s.turn t).1.nextId := by
  cases hread : s.read? t with
  | none =>
    cases t with
    | drain => exact Nat.le_refl _
    | _ => contradiction
  | some r =>
    have hr := read?_proper hread
    rw [nextId_turn hread]
    exact hr.le_next

/-- The references of a job have numbers that are given out in its turn. -/
theorem tidy_of_accepted {j : Job} (hj : s.accepted? t = some j) (d : Distances) :
    (j.visit d).Tidy s.nextId (s.turn t).1.nextId := by
  obtain ⟨r, hread, hjob, _⟩ := accepted?_eq_some_iff.mp hj
  have hr := read?_proper hread
  have htidy := hr.tidy j hjob d
  rw [nextId_turn hread]
  exact ⟨htidy.spans.mono hr.le_first (Nat.le_refl _), htidy.shapely⟩

/-- So have the references of each of its pieces. -/
theorem bounds_of_accepted {j : Job} (hj : s.accepted? t = some j)
    (hv : v.Within (j.visit s.machine.distances)) {id : Nat} (hid : id ∈ v.ids) :
    s.nextId ≤ id ∧ id < (s.turn t).1.nextId :=
  (tidy_of_accepted hj _).spans.bounds id (Visit.ids_within hv hid)

/-- The references in a visit have numbers that were free. -/
theorem nextId_le_of_visited (h : s.Visited turns v) : ∀ id ∈ v.ids, s.nextId ≤ id := by
  induction turns generalizing s with
  | nil => exact False.elim h
  | cons t turns ih =>
    intro id hid
    obtain ⟨j, hj, hv⟩ | h := h
    · exact (bounds_of_accepted hj hv hid).1
    · exact Nat.le_trans (s.nextId_le_turn t) (ih h id hid)

/-- Along all turns, a piece with a reference in it is visited once. -/
theorem eq_of_visited (h : s.Visited turns v) (h' : s.Visited turns v')
    (hpiece : v'.piece = v.piece) (hids : v.ids ≠ []) : v' = v := by
  obtain ⟨id, hid⟩ := List.exists_mem_of_ne_nil _ hids
  have hid' : id ∈ v'.ids := Visit.ids_congr hpiece ▸ hid
  induction turns generalizing s with
  | nil => exact False.elim h
  | cons t turns ih =>
    -- Each turn gives out numbers of its own, so both visits are of one turn, and there a piece
    -- with a reference in it is visited once.
    obtain ⟨j, hj, hv⟩ | h := h <;> obtain ⟨j', hj', hv'⟩ | h' := h'
    · obtain rfl : j = j' := Option.some.inj ((Option.mem_def.mp hj).symm.trans hj')
      exact Visit.eq_of_within (tidy_of_accepted hj _).spans.nodup hv hv' hpiece hids
    · have hlt := (bounds_of_accepted hj hv hid).2
      have hle := nextId_le_of_visited h' id hid'
      omega
    · have hlt := (bounds_of_accepted hj' hv' hid').2
      have hle := nextId_le_of_visited h id hid
      omega
    · exact ih h h'

/-- Every moment that turns lead to is good, with visits, frames and functions of these turns. -/
theorem Fit.good_of_reaches (h : s.Fit R d') (hrecord : Recorded R s turns) {μ : Moment}
    (hμ : s.Reaches turns μ) :
    ∃ S : Setting, S.made = R.made ∧ S.known = R.known ∧ (∀ v, S.live v → R.seen v) ∧
      S.Good μ := by
  induction turns generalizing s d' with
  | nil => exact False.elim hμ
  | cons t turns ih =>
    obtain ⟨j, hj, μ₀, hμ₀, hreach⟩ | hμ := hμ
    · obtain ⟨r, hread, hjob, hclean⟩ := accepted?_eq_some_iff.mp hj
      obtain ⟨S, hmade, hknown, _, hlive, _, _, hgood⟩ := h.start_job (read?_proper hread) hjob
        (List.isEmpty_iff.mp hclean) (hrecord.head j hj)
      refine ⟨S, hmade, hknown, fun v hv => ?_, (hgood μ₀ hμ₀).reaches hreach⟩
      exact ((hlive v).mp hv).elim (·.self.seen) ((hrecord.head j hj).visits v)
    · obtain ⟨e', hfit, _⟩ := h.turn hrecord.head
      exact ih hfit hrecord.tail hμ

/-- Every moment that a session reaches from its start is good, with what the session makes. -/
theorem Reaches.good {sink : Sink} {clock : Clock} {μ : Moment}
    (hμ : (start sink clock).Reaches turns μ) :
    ∃ S : Setting, S.made = (start sink clock).Made turns ∧
      S.known = (start sink clock).Makes turns ∧
      (∀ v, S.live v → (start sink clock).Visited turns v) ∧ S.Good μ :=
  (fit_start _ sink clock).good_of_reaches (recorded_record _ turns) hμ

/-- What holds of all visits of the jobs that are performed. -/
theorem Visited.of_jobs {P : Visit → Prop} (h : s.Visited turns v)
    (hP : ∀ (s : Session) (t : Turn) (j : Job), t ∈ turns → s.accepted? t = some j →
      Visit.All P (j.visit s.machine.distances)) : P v := by
  induction turns generalizing s with
  | nil => exact False.elim h
  | cons t turns ih =>
    obtain ⟨j, hj, hv⟩ | h := h
    · exact hP s t j List.mem_cons_self hj v hv
    · exact ih h fun s t' j ht' => hP s t' j (List.mem_cons_of_mem _ ht')

/-- A visited piece has no violation. -/
theorem clean_of_visited (h : s.Visited turns v) : v.after.violations = [] := by
  refine h.of_jobs (P := fun v => v.after.violations = []) fun s t j _ hj => ?_
  obtain ⟨_, _, _, hclean⟩ := accepted?_eq_some_iff.mp hj
  exact .of_closed (List.isEmpty_iff.mp hclean) fun _ => Visit.clean_parts

/-- A superclass that was visited without a violation is not the class itself. -/
theorem superclass_ne_of_visited (h : s.Visited turns v) {name : Token} {x : Reference}
    {xs : List Reference} (hpiece : v.piece = .superclasses name (x :: xs)) :
    x.name.lexeme ≠ name.lexeme := by
  have hclean := clean_of_visited h
  obtain ⟨ctx, _, w, around⟩ := v
  subst hpiece
  have hhead := Visit.clean_parts hclean _ List.mem_cons_self
  have hnone := List.prefix_nil.mp (hhead ▸ Visit.violations_after _)
  intro heq
  -- Otherwise the visit would have noted a violation.
  simp [Visit.notOwn, heq, Walk.violate] at hnone

/-- Distances agree with frames, whatever the clock shows and the output takes. Whenever an
expression is evaluated, the frames from the current one to the globals match the scopes that were
open when scoping visited the expression: there are as many of them, each was made for the construct
that opened its scope, and it binds the names that have their initial value there. While the
superclasses of a class are looked up, the name of the class itself is an exception. So a variable
with a distance is read and written in a frame that exists and is not the global one, and it is
undefined only if its scope has it without its initial value. -/
theorem frames_agree_with_scopes (sink : Sink) (clock : Clock) (turns : List Turn) (μ : Moment)
    (hμ : (start sink clock).Reaches turns μ) :
    let visited := (start sink clock).Visited turns
    let made := (start sink clock).Made turns
    let m := μ.machine
    (∀ b e, μ.task = .evaluate b e → ∃ v, visited v ∧ v.piece = .expr e ∧
      (v.ids ≠ [] → ∀ v', visited v' → v'.piece = .expr e → v' = v) ∧
      Aligned made m m.current v.walk.scopes v.around) ∧
    (∀ xs, μ.task = .lookUpClasses xs → ∃ v name, visited v ∧ v.piece = .superclasses name xs ∧
      Aligned made m m.current (v.walk.scopesBut name) v.around ∧
      ∀ x rest distance, xs = x :: rest → m.distances.find? x.id = some distance →
        ∃ k, Denotes m v.walk distance x.name.lexeme k) ∧
    (∀ b x distance, μ.task = .evaluate (b + 1) (.reference x) →
      m.distances.find? x.id = some distance →
      ∃ v k, visited v ∧ v.piece = .expr (.reference x) ∧
        Denotes m v.walk distance x.name.lexeme k ∧
        evaluate (b + 1) (.reference x) m = match m.heap.frames.local? k x.name.lexeme with
          | some y => .ok y m
          | none => .error (.program x.name.line (.undefinedVariable x.name.lexeme)) m) ∧
    (∀ b x e distance y m₁, μ.task = .evaluate (b + 1) (.assign x e) →
      m.distances.find? x.id = some distance → evaluate b e m = .ok y m₁ →
      ∃ v k, visited v ∧ v.piece = .expr (.assign x e) ∧
        Denotes m₁ v.walk distance x.name.lexeme k ∧
        evaluate (b + 1) (.assign x e) m = match m₁.heap.frames.local? k x.name.lexeme with
          | some _ => .ok y { m₁ with heap.frames := m₁.heap.frames.define k x.name.lexeme y }
          | none => .error (.program x.name.line (.undefinedVariable x.name.lexeme)) m₁) := by
  obtain ⟨S, (hmade : S.made = (start sink clock).Made turns), _, hseen, hgood⟩ :=
    (fit_start _ sink clock).good_of_reaches (recorded_record _ turns) hμ
  obtain ⟨task, m⟩ := μ
  refine ⟨?_, ?_, ?_, ?_⟩
  · rintro b e rfl
    obtain ⟨v, hpiece, hat⟩ := hgood.ready
    refine ⟨v, hseen v hat.live, hpiece, fun hids v' hv' hpiece' => ?_, hmade ▸ hat.aligned⟩
    exact eq_of_visited (hseen v hat.live) hv' (hpiece'.trans hpiece.symm) hids
  · rintro xs rfl
    obtain ⟨⟨ctx, _, w, around⟩, name, rfl, hlive, haligned⟩ := hgood.ready
    refine ⟨_, name, hseen _ hlive, rfl, hmade ▸ haligned, ?_⟩
    rintro x rest distance rfl hx
    have hhead := S.live_parts _ hlive _ List.mem_cons_self
    have hdistance := (S.recorded _ hhead _ hgood.inv.table x rfl).symm.trans hx
    refine haligned.denotes_superclass (superclass_ne_of_visited (hseen _ hlive) rfl) ?_
    simpa [Walk.distance?] using hdistance
  · rintro b x distance rfl hx
    obtain ⟨v, k, hlive, hrest⟩ := hgood.reference hx
    exact ⟨v, k, hseen v hlive, hrest⟩
  · rintro b x e distance y m₁ rfl hx he
    obtain ⟨v, k, hlive, hrest⟩ := hgood.assign hx he
    exact ⟨v, k, hseen v hlive, hrest⟩

open Grammar (mark word)

/-- The tokens of `{ var a; fun f() { a; } f(); }`. -/
def closureTokens : List Token :=
  [mark .leftBrace, mark .kwVar, word "a", mark .semicolon, mark .kwFun, word "f", mark .leftParen,
    mark .rightParen, mark .leftBrace, word "a", mark .semicolon, mark .rightBrace, word "f",
    mark .leftParen, mark .rightParen, mark .semicolon, mark .rightBrace]

/-- The statement that is parsed from `closureTokens`. -/
def closureBlock : Stmt :=
  .block [.declare [⟨word "a", none⟩],
    .function ⟨some (word "f"), word "f", [], [.expression (.reference ⟨0, word "a"⟩)]⟩,
    .expression (.call (.reference ⟨1, word "f"⟩) (mark .rightParen) [])]

/-- The tokens of the closure are derived. -/
theorem derives_closureTokens :
    Grammar.Derives .declarations closureTokens 0 [closureBlock] 2 := by
  have hdeclare : Grammar.Derives .declaration (mark .kwVar :: [word "a"] ++ [mark .semicolon]) 0
      _ 0 :=
    .variableDeclaration rfl (.lastDeclarator (.uninitialized rfl)) rfl
  have hbody : Grammar.Derives .block
      (mark .leftBrace :: [word "a", mark .semicolon] ++ [mark .rightBrace]) 0 _ 1 :=
    .block rfl (.moreDeclarations (.statement (.expression_of_word "a" 0)) .noDeclarations) rfl
  have hfunction : Grammar.Derives .declaration (mark .kwFun :: (word "f" :: mark .leftParen ::
      [] ++ mark .rightParen :: (mark .leftBrace :: [word "a", mark .semicolon] ++
        [mark .rightBrace]))) 0 _ 1 :=
    .functionDeclaration rfl (.function rfl rfl .noParameters rfl hbody)
  have hcall : Grammar.Derives .declaration
      ([word "f"] ++ mark .leftParen :: [] ++ [mark .rightParen] ++ [mark .semicolon]) 1 _ 2 :=
    .statement (.expression (.terminated (.expression_of_call
      (.call (.bare (.reference rfl)) rfl .noArguments rfl)) rfl) (by simp [word]))
  exact .moreDeclarations (.statement (.blockStatement (.block rfl (.moreDeclarations hdeclare
    (.moreDeclarations hfunction (.moreDeclarations hcall .noDeclarations))) rfl))) .noDeclarations

/-- The body of the closure is reached in the call, with a frame of its own within the block's. -/
theorem reaches_closure : ∃ m,
    (start {} {}).Reaches [.tokens 9 (closureTokens ++ [mark .eof])]
      ⟨.evaluate 5 (.reference ⟨0, word "a"⟩), m⟩ ∧ m.distances.find? 0 = some 1 := by
  have hread : (start {} {}).readTokens (closureTokens ++ [mark .eof]) =
      ⟨0, 2, .ok (.program [closureBlock])⟩ := by
    have hparse : Grammar.parse (closureTokens ++ [mark .eof]) 0 = _ :=
      derives_closureTokens.parse_eq (by decide) rfl
    simp [readTokens, start, hparse]
  have haccepted : (start {} {}).accepted? (.tokens 9 (closureTokens ++ [mark .eof])) =
      some (.program [closureBlock]) :=
    accepted?_eq_some_iff.mpr ⟨_, congrArg some hread, rfl, by decide⟩
  have hstatement : Moment.Reaches ⟨.execute 9 closureBlock,
      (Machine.start {} {}).prepare (.program [closureBlock])⟩ _ :=
    .head (.block rfl) (.head (.tailStatements rfl) (.head (.tailStatements rfl)
      (.single .headStatement)))
  have hcall : Moment.Reaches _ _ := (hstatement.tail .expression).tail (.call rfl rfl)
  have hbody : Moment.Reaches _ _ := (hcall.tail (.callFunction rfl)).tail (.body rfl)
  have hreads := (hbody.tail .headStatement).tail .expression
  exact ⟨_, .inl ⟨_, haccepted, _, List.mem_cons_self, hreads⟩, rfl⟩

/-- The closure reads the variable of the block, one frame up from its own. -/
theorem closure_reads_enclosing_block : ∃ m,
    (start {} {}).Reaches [.tokens 9 (closureTokens ++ [mark .eof])]
      ⟨.evaluate 5 (.reference ⟨0, word "a"⟩), m⟩ ∧
    ∃ v k, (start {} {}).Visited [.tokens 9 (closureTokens ++ [mark .eof])] v ∧
      v.piece = .expr (.reference ⟨0, word "a"⟩) ∧ Denotes m v.walk 1 "a" k := by
  obtain ⟨m, hreaches, hdistance⟩ := reaches_closure
  obtain ⟨_, _, hreference, _⟩ := frames_agree_with_scopes {} {} _ _ hreaches
  obtain ⟨v, k, hv, hpiece, hk, _⟩ := hreference 4 _ 1 rfl hdistance
  exact ⟨m, hreaches, v, k, hv, hpiece, hk⟩

end Lox.Session

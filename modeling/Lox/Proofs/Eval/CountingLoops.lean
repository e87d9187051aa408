import Lox.Grammar.Productions
import Lox.Proofs.Eval.SideBySide

/-!
# Counting loops

A counting loop is parsed as a statement of another form: its start is put into a block around a
loop, and its step into a block around each round (`Grammar.forLoop`). `CountingLoop.run` runs the
loop as it is written. The start runs in a new frame, which all rounds share, and a round has no
frame of its own.

The two run abreast. The frame of the block around a round is extra: it is left out of the machine
on which the loop runs as it is written, and nothing is bound in it. There is one more such frame
after each round, and so what relates the two machines grows from round to round (`Loosely`).
-/

namespace Lox

open Eval Exec Scoping

/-- A counting loop as it is written. -/
structure CountingLoop where
  /-- What runs first, once. -/
  start : Option Stmt
  /-- What has to hold for another round. -/
  condition : Option Expr
  /-- What is evaluated after each round. -/
  step : Option Expr
  /-- What a round does. -/
  body : Stmt

namespace CountingLoop

/-- The statement that the loop is parsed as. -/
def desugared (l : CountingLoop) : Stmt :=
  Grammar.forLoop l.start l.condition l.step l.body

/-- Whether there is another round. A missing condition always holds. -/
def holds (l : CountingLoop) (budget : Nat) : Exec Bool :=
  match l.condition with
  | none => pure true
  | some c => do return (← evaluate budget c).isTruthy

/-- Evaluates the step, if there is one. -/
def advance (l : CountingLoop) (budget : Nat) : Exec Unit :=
  match l.step with
  | none => pure ()
  | some e => do let _ ← evaluate budget e

/-- Runs the body and then, unless it completes with a result, the step. -/
def round (l : CountingLoop) (budget : Nat) : Exec Flow := do
  match ← execute budget l.body with
  | .normal =>
    l.advance budget
    return .normal
  | .result v => return .result v

/-- Goes round until the condition does not hold or a round completes with a result. -/
def rounds (l : CountingLoop) : Nat → Exec Flow
  | 0 => throw .exhausted
  | budget + 1 => do
    if ← l.holds budget then
      match ← l.round budget with
      | .normal => l.rounds budget
      | .result v => return .result v
    else return .normal

/-- Runs the loop as it is written: the start in a new frame, which all rounds share. Without a
start there is no new frame. -/
def run (l : CountingLoop) (budget : Nat) : Exec Flow :=
  match l.start with
  | none => l.rounds budget
  | some s => do
    let frame ← newFrame (← get).current []
    inFrame frame do
      match ← execute budget s with
      | .normal => l.rounds budget
      | .result v => return .result v

end CountingLoop

namespace Eval

/-! ## One more extra frame -/

namespace Trim

/-- The place of a frame among the others, when the frame `p` is left out. -/
def skip (p k : Nat) : Nat :=
  if k < p then k else k - 1

/-- Numbers below the gap stay. -/
theorem skip_of_lt {p k : Nat} (h : k < p) : skip p k = k :=
  if_pos h

/-- Numbers above the gap come down by one. -/
theorem skip_succ (p i : Nat) : skip p (p + 1 + i) = p + i := by
  unfold skip
  rw [if_neg (by omega)]
  omega

/-- Numbers beside the gap are kept apart. -/
theorem skip_injective {p j k : Nat} (hj : j ≠ p) (hk : k ≠ p) (h : skip p j = skip p k) :
    j = k := by
  unfold skip at h
  split at h <;> split at h <;> omega

/-- Every number comes from one beside the gap. -/
theorem exists_skip_eq (p k : Nat) : ∃ j, j ≠ p ∧ skip p j = k := by
  by_cases hk : k < p
  · exact ⟨k, Nat.ne_of_lt hk, skip_of_lt hk⟩
  · refine ⟨k + 1, by omega, ?_⟩
    unfold skip
    rw [if_neg (by omega)]
    rfl

section Insert

variable (τ : Trim) (p outer : FrameId)

/-- Whether a frame is extra, if the frame `p` is too. -/
def insertExtra (k : FrameId) : Bool :=
  if k = p then true else τ.extra (skip p k)

/-- The place of a frame, if the frame `p` is extra and lies within the frame `outer`. -/
def insertPlace (k : FrameId) : FrameId :=
  if k = p then τ.place outer else τ.place (skip p k)

variable {τ p}

/-- A frame that is not extra is not the inserted one. -/
theorem ne_of_insertExtra {k : FrameId} (h : τ.insertExtra p k = false) :
    k ≠ p ∧ τ.extra (skip p k) = false := by
  unfold insertExtra at h
  split at h
  · contradiction
  · next hne => exact ⟨hne, h⟩

/-- The other frames have their places. -/
theorem insertPlace_of_ne {k : FrameId} (h : k ≠ p) :
    τ.insertPlace p outer k = τ.place (skip p k) :=
  if_neg h

/-- The places of frames that are not extra differ. -/
theorem insert_injective (j k : FrameId) (hj : τ.insertExtra p j = false)
    (hk : τ.insertExtra p k = false) (h : τ.insertPlace p outer j = τ.insertPlace p outer k) :
    j = k := by
  obtain ⟨hj, hextra⟩ := ne_of_insertExtra hj
  obtain ⟨hk, hextra'⟩ := ne_of_insertExtra hk
  rw [insertPlace_of_ne outer hj, insertPlace_of_ne outer hk] at h
  exact skip_injective hj hk (τ.injective _ _ hextra hextra' h)

/-- Every place is that of a frame. -/
theorem insert_surjective (k' : FrameId) :
    ∃ k, τ.insertExtra p k = false ∧ τ.insertPlace p outer k = k' := by
  obtain ⟨k, hextra, rfl⟩ := τ.surjective k'
  obtain ⟨j, hj, rfl⟩ := exists_skip_eq p k
  exact ⟨j, (if_neg hj).trans hextra, insertPlace_of_ne outer hj⟩

variable (τ p)

/-- One more extra frame, within the frame `outer`. The frames after it come one place earlier. -/
def insert : Trim where
  extra := τ.insertExtra p
  place := τ.insertPlace p outer
  injective := insert_injective outer
  surjective := insert_surjective outer
  globals := τ.globals
  table := τ.table
  table' := τ.table'

/-- The inserted frame is extra. -/
theorem extra_insert : (τ.insert p outer).extra p = true :=
  if_pos rfl

/-- The inserted frame has the place of the frame around it. -/
theorem place_insert : (τ.insert p outer).place p = τ.place outer :=
  if_pos rfl

/-- The frames before it are as they were. -/
theorem agrees_insert : τ.Agrees (τ.insert p outer) p where
  extra k hk := (if_neg (Nat.ne_of_lt hk)).trans (by rw [skip_of_lt hk])
  place k hk := (if_neg (Nat.ne_of_lt hk)).trans (by rw [skip_of_lt hk])
  globals := rfl
  table := rfl
  table' := rfl

end Insert

/-- A frame that binds nothing may be made in one machine only, as an extra one. -/
theorem Placed.pad {τ : Trim} {V : Value → Value → Prop} {fs fs' : Frames} (h : Placed τ V fs fs')
    {outer : FrameId} (houter : outer < fs.size) :
    Placed (τ.insert fs.size outer) V (fs.push ⟨[], some outer⟩) fs' := by
  have hτ := τ.agrees_insert fs.size outer
  refine ⟨fun k frame hextra hframe => ?_, fun k hk hextra => ?_, fun i => ?_,
    fun k outer' houter' => ?_⟩
  · obtain ⟨hne, _⟩ := ne_of_insertExtra hextra
    rw [Frames.getElem?_items_push, if_neg hne] at hframe
    have hlt : k < fs.size := (Array.getElem?_eq_some_iff.mp hframe).1
    rw [hτ.extra k hlt] at hextra
    obtain ⟨frame', hframe', henclosing, hbindings⟩ := h.shared k frame hextra hframe
    refine ⟨frame', hτ.place k hlt ▸ hframe', ?_, hbindings⟩
    rw [henclosing]
    -- The frame around it exists, so that its place is the same.
    cases hlink : frame.enclosing with
    | none => rfl
    | some around =>
      have hlt : around < fs.size :=
        h.links k around (by rw [Frames.enclosing?, hframe]; exact hlink)
      exact congrArg some (hτ.place around hlt).symm
  · rw [Frames.getElem?_items_push]
    by_cases hlast : k = fs.size
    · rw [if_pos hlast, hlast, place_insert, ← hτ.place outer houter]
      exact ⟨outer, rfl, rfl⟩
    · rw [Frames.size_push] at hk
      have hlt : k < fs.size := Nat.lt_of_le_of_ne (Nat.le_of_lt_succ hk) hlast
      rw [hτ.extra k hlt] at hextra
      obtain ⟨around, hframe, hplace⟩ := h.extra k hlt hextra
      have haround : around < fs.size := h.links k around (by rw [Frames.enclosing?, hframe]; rfl)
      rw [if_neg hlast, hτ.place k hlt]
      exact ⟨around, hframe, hplace.trans (hτ.place around haround).symm⟩
  · have hne : fs.size + 1 + i ≠ fs.size := by omega
    rw [Frames.size_push]
    refine ⟨(if_neg hne).trans ?_, (insertPlace_of_ne outer hne).trans ?_⟩
    · rw [skip_succ]
      exact (h.next i).1
    · rw [skip_succ]
      exact (h.next i).2
  · rw [Frames.enclosing?_push] at houter'
    rw [Frames.size_push]
    split at houter'
    · obtain rfl := Option.some.inj houter'
      exact Nat.lt_succ_of_lt houter
    · exact Nat.lt_succ_of_lt (h.links k outer' houter')

end Trim

namespace Trims

variable {τ : Trim} {m m' : Machine}

/-- A frame that binds nothing may be made in one machine only, as an extra one that is current. -/
theorem pad (h : Trims τ m m') (hcurrent : m.current < m.heap.frames.size) :
    Trims (τ.insert m.heap.frames.size m.current)
      { m with
        heap.frames := m.heap.frames.push ⟨[], some m.current⟩
        current := m.heap.frames.size } m' := by
  have hkeeps := Machine.Keeps.push m ⟨[], some m.current⟩
  have hτ := τ.agrees_insert m.heap.frames.size m.current
  have hmono : ∀ inner f f', τ.Functions m.heap.frames inner f f' →
      (τ.insert m.heap.frames.size m.current).Functions
        (m.heap.frames.push ⟨[], some m.current⟩) inner f f' :=
    fun _ _ _ hf => hf.mono hkeeps.enclosing h.globals_lt hτ
  exact
    { h with
      heap :=
        { frames := (h.heap.frames.pad hcurrent).imp fun _ _ => Trim.Values.mono hmono
          objects := h.heap.objects.imp fun _ _ _ _ ho =>
            ⟨ho.1.mono hmono, ho.2.imp fun _ _ => Trim.Values.mono hmono⟩
          arrays := h.heap.arrays.imp fun _ _ _ _ hxs => hxs.imp fun _ _ => Trim.Values.mono hmono
          nextIdentity := h.heap.nextIdentity }
      current := h.current.trans (τ.place_insert _ _).symm
      globals' := h.globals'.trans (hτ.place _ h.globals_lt).symm
      objectClass := h.objectClass.mono hmono
      globals_lt := Nat.lt_of_lt_of_le h.globals_lt hkeeps.size
      globals_shared := (hτ.extra _ h.globals_lt).trans h.globals_shared
      outermost := (hkeeps.enclosing _ h.globals_lt).trans h.outermost }

/-- An extra frame and the frame around it have one place. -/
theorem leave (h : Trims τ m m') (hextra : τ.extra m.current = true) {outer : FrameId}
    (houter : m.heap.frames.enclosing? m.current = some outer) :
    Trims τ { m with current := outer } m' :=
  { h with current := h.current.trans (h.heap.frames.place_extra hextra houter) }

end Trims

/-! ## Steps that go abreast with more extra frames -/

namespace Trim

section Loosely

variable {α β γ δ : Type}

/-- Two steps end alike, though the first may make extra frames on its way. What relates their
results may depend on which frames are extra at the end. -/
def Loosely (side : Side) (τ : Trim) (m m' : Machine) (x : Exec α) (x' : Exec β)
    (Q : Trim → Frames → α → β → Prop) : Prop :=
  ∃ τ' : Trim, τ.Agrees τ' m.heap.frames.size ∧ Ends side τ' m (Q τ') (x m) (x' m')

variable {side : Side} {τ : Trim} {m m' : Machine} {x : Exec α} {x' : Exec β} {f : α → Exec γ}
  {f' : β → Exec δ} {Q : Trim → Frames → α → β → Prop} {S : Trim → Frames → γ → δ → Prop}

/-- Steps that stay abreast do so loosely. -/
theorem Abreast.loosely (h : Abreast side τ m m' x x' (Q τ)) : Loosely side τ m m' x x' Q :=
  ⟨τ, .refl τ _, h⟩

namespace Loosely

/-- One step after another. -/
theorem bind (hx : Loosely side τ m m' x x' Q)
    (hf : ∀ τ' n n' a b, τ.Agrees τ' m.heap.frames.size → m.Extends n → Trims τ' n n' →
      Q τ' n.heap.frames a b → Loosely side τ' n n' (f a) (f' b) S) :
    Loosely side τ m m' (x >>= f) (x' >>= f') S := by
  obtain ⟨τ', hτ, hx⟩ := hx
  unfold Loosely
  generalize hr : x m = r at hx
  generalize hr' : x' m' = r' at hx
  cases hx with
  | ok hext h hab =>
    -- The second step may make more frames extra than the first.
    obtain ⟨τ'', hτ', hends⟩ := hf τ' _ _ _ _ hτ hext h hab
    rw [bind_of_ok hr, bind_of_ok hr']
    exact ⟨τ'', hτ.trans hτ' hext.size, hends.later hext⟩
  | error hext h =>
    rw [bind_of_error hr, bind_of_error hr']
    exact ⟨τ', hτ, .error hext h⟩
  | firstSpent hside =>
    rw [bind_of_error hr]
    exact ⟨τ', hτ, .firstSpent hside⟩
  | secondSpent hside =>
    rw [bind_of_error hr']
    exact ⟨τ', hτ, .secondSpent hside⟩

/-- Two steps within a new frame in both machines. -/
theorem inFrame (h : Trims τ m m') {k : FrameId}
    (hcurrent : m.current < m.heap.frames.size)
    (hx : Loosely side τ { m with current := k } { m' with current := τ.place k } x x' Q) :
    Loosely side τ m m' (Exec.inFrame k x) (Exec.inFrame (τ.place k) x') Q := by
  obtain ⟨τ', hτ, hx⟩ := hx
  refine ⟨τ', hτ, ?_⟩
  unfold Exec.inFrame
  dsimp only
  -- The frame to go back to existed before, so the new extra frames leave its place as it is.
  rw [h.current, ← hτ.place _ hcurrent]
  generalize x { m with current := k } = r at hx
  generalize x' { m' with current := τ.place k } = r' at hx
  cases hx with
  | ok hext hn hab => exact .ok hext.leave (hn.moveTo _) hab
  | error hext hn => exact .error hext.leave (hn.moveTo _)
  | firstSpent hside => exact .firstSpent hside
  | secondSpent hside =>
    dsimp only
    exact .secondSpent hside

/-- A step in a new frame goes abreast with one that makes none, if it does so where the new frame
is extra. -/
theorem pad (h : Trims τ m m') (hcurrent : m.current < m.heap.frames.size)
    (hx : ∀ τ' n, τ.Agrees τ' m.heap.frames.size → Trims τ' n m' → τ'.extra n.current = true →
      (∀ scopes scopes', Sheds τ m.heap.frames m.current scopes scopes' →
        Sheds τ' n.heap.frames n.current ([] :: scopes) scopes') →
      Loosely side τ' n m' x x' Q) :
    Loosely side τ m m' (do Exec.inFrame (← newFrame (← get).current []) x) x' Q := by
  have hτ := τ.agrees_insert m.heap.frames.size m.current
  have hextra := τ.extra_insert m.heap.frames.size m.current
  have hkeeps := Machine.Keeps.push m ⟨[], some m.current⟩
  have houter : (m.heap.frames.push ⟨[], some m.current⟩).enclosing? m.heap.frames.size =
      some m.current := (Frames.enclosing?_push ..).trans (if_pos rfl)
  have hlt : m.heap.frames.size < (m.heap.frames.push ⟨[], some m.current⟩).size :=
    Frames.lt_size_of_enclosing? _ houter
  obtain ⟨τ', hτ', hends⟩ := hx _ _ hτ (h.pad hcurrent) hextra fun _ _ hsheds =>
    .extra hextra houter (hsheds.mono hkeeps.enclosing hτ)
  refine ⟨τ', hτ.trans hτ' hkeeps.size, ?_⟩
  have hrun : ((do Exec.inFrame (← newFrame (← get).current []) x) : Exec α) m =
      Exec.inFrame m.heap.frames.size x
        { m with heap.frames := m.heap.frames.push ⟨[], some m.current⟩ } := rfl
  have hextends : m.Extends { m with heap.frames := m.heap.frames.push ⟨[], some m.current⟩ } :=
    ⟨hkeeps, rfl, rfl, rfl⟩
  -- The frame before is the one around the extra one, so that the other machine need not go back.
  have hback {n n' : Machine} (hn : Trims τ' n n') (hk : n.current = m.heap.frames.size)
      (hlink : n.heap.frames.enclosing? m.heap.frames.size = some m.current) :
      Trims τ' { n with current := m.current } n' := by
    refine hn.leave ?_ (hk ▸ hlink)
    rw [hk, hτ'.extra _ hlt]
    exact hextra
  rw [hrun]
  unfold Exec.inFrame
  dsimp only
  generalize x _ = r at hends
  generalize x' m' = r' at hends
  cases hends with
  | ok hext hn hab =>
    exact .ok (hextends.trans hext.leave)
      (hback hn hext.current ((hext.enclosing _ hlt).trans houter)) hab
  | error hext hn =>
    exact .error (hextends.trans hext.leave)
      (hback hn hext.current ((hext.enclosing _ hlt).trans houter))
  | firstSpent hside => exact .firstSpent hside
  | secondSpent hside => exact .secondSpent hside

/-- Two steps that look at their machines. -/
theorem get {f : Machine → Exec γ} {f' : Machine → Exec δ}
    (h : Loosely side τ m m' (f m) (f' m') S) :
    Loosely side τ m m' (get >>= f) (get >>= f') S :=
  h

end Loosely

end Loosely

end Trim

/-! ## Clauses -/

/-- A piece and a copy of it, within some scopes each. -/
def Twin (d d' : Distances) (scopes scopes' : List Scope) (piece piece' : Piece) : Prop :=
  ∃ v v' : Visit, Visit.Paired d d' v v' ∧ v.piece = piece ∧ v'.piece = piece' ∧
    v.walk.scopes = scopes ∧ v'.walk.scopes = scopes'

/-- Two machines that correspond and have some tables of distances, and whose current frames match
some scopes. -/
structure Poised (d d' : Distances) (scopes scopes' : List Scope) (τ : Trim) (m m' : Machine) :
    Prop where
  /-- The machines correspond. -/
  trims : Trims τ m m'
  /-- The table of the first. -/
  table : τ.table = d
  /-- The table of the second. -/
  table' : τ.table' = d'
  /-- The frames match the scopes. -/
  sheds : Sheds τ m.heap.frames m.current scopes scopes'

namespace Poised

variable {d d' : Distances} {scopes scopes' : List Scope} {τ τ' : Trim} {m m' n n' : Machine}

/-- Machines that are poised are so later on. -/
theorem later (h : Poised d d' scopes scopes' τ m m') (hτ : τ.Agrees τ' m.heap.frames.size)
    (hext : m.Extends n) (hn : Trims τ' n n') : Poised d d' scopes scopes' τ' n n' where
  trims := hn
  table := hτ.table.trans h.table
  table' := hτ.table'.trans h.table'
  sheds := hext.current ▸ h.sheds.mono hext.enclosing hτ

/-- The current frame exists. -/
theorem current_lt (h : Poised d d' scopes scopes' τ m m') : m.current < m.heap.frames.size :=
  h.sheds.lt_size h.trims.globals_lt

end Poised

namespace Twin

variable {side : Side} {d d' : Distances} {scopes scopes' : List Scope} {τ : Trim}
  {m m' : Machine} {b b' : Nat}

/-- Twin expressions are evaluated abreast. -/
theorem evaluate {e e' : Expr} (h : Twin d d' scopes scopes' (.expr e) (.expr e'))
    (hm : Poised d d' scopes scopes' τ m m') (hside : side.Allows 0 b b') :
    Trim.Abreast side τ m m' (evaluate b e) (evaluate b' e') τ.Same := by
  obtain ⟨v, v', hpaired, hpiece, hpiece', rfl, rfl⟩ := h
  obtain ⟨htrims, rfl, rfl, hsheds⟩ := hm
  exact (Trim.Abreast.lockstep hside).1 htrims ⟨hpaired, hsheds⟩ hpiece hpiece'

/-- Twin statements are executed abreast. -/
theorem execute {s s' : Stmt} (h : Twin d d' scopes scopes' (.stmt s) (.stmt s'))
    (hm : Poised d d' scopes scopes' τ m m') (hplain : s.isPlain) (hside : side.Allows 0 b b') :
    Trim.Abreast side τ m m' (execute b s) (execute b' s') τ.Flows := by
  obtain ⟨v, v', hpaired, hpiece, hpiece', rfl, rfl⟩ := h
  obtain ⟨htrims, rfl, rfl, hsheds⟩ := hm
  exact (Trim.Abreast.lockstep hside).2 htrims ⟨hpaired, hsheds⟩ hpiece hpiece' fun _ => hplain

end Twin

end Eval

namespace CountingLoop

/-- The condition of the loop that is parsed. -/
def test (l : CountingLoop) : Expr :=
  l.condition.getD (.literal (.boolean true))

/-- The body of the loop that is parsed. The step is put into a block with the body. -/
def padded (l : CountingLoop) : Stmt :=
  match l.step with
  | none => l.body
  | some e => .block [l.body, .expression e]

/-- The desugared loop, by whether it has a start. -/
theorem desugared_eq (l : CountingLoop) : l.desugared =
    match l.start with
    | none => .loop l.test l.padded
    | some s => .block [s, .loop l.test l.padded] :=
  rfl

/-- The scopes around the body of the loop that is parsed, within the scopes around the loop. -/
def scopesOfBody (l : CountingLoop) (scopes : List Scope) : List Scope :=
  match l.step with
  | none => scopes
  | some _ => [] :: scopes

/-- The clauses after the start of two loops are copies of each other. In the first loop the body
and the step have a scope of their own if there is a step, and in the second one they have none. -/
structure Clauses (d d' : Distances) (scopes scopes' : List Scope) (l l' : CountingLoop) :
    Prop where
  /-- The conditions. -/
  condition : Option.Rel (fun c c' => Twin d d' scopes scopes' (.expr c) (.expr c'))
    l.condition l'.condition
  /-- The bodies. -/
  body : Twin d d' (l.scopesOfBody scopes) scopes' (.stmt l.body) (.stmt l'.body)
  /-- The steps. -/
  step : Option.Rel (fun e e' => Twin d d' ([] :: scopes) scopes' (.expr e) (.expr e'))
    l.step l'.step
  /-- A body is a statement that declares no name. -/
  plain : l.body.isPlain

/-- Two loops are copies of each other, but for the scopes of a round. -/
inductive Twins (d d' : Distances) (scopes scopes' : List Scope) (l l' : CountingLoop) : Prop
  | bare (hstart : l.start = none) (hstart' : l'.start = none)
      (h : Clauses d d' scopes scopes' l l')
  | started {v v' : Visit} {s s' : Stmt} (hstart : l.start = some s) (hstart' : l'.start = some s')
      (hpaired : Visit.Paired d d' v v') (hpiece : v.piece = .stmt s)
      (hpiece' : v'.piece = .stmt s')
      (hscopes : v.walk.scopes = [] :: scopes) (hscopes' : v'.walk.scopes = [] :: scopes')
      (h : Clauses d d' v.after.scopes v'.after.scopes l l')

namespace Clauses

variable {side : Side} {d d' : Distances} {scopes scopes' : List Scope} {τ : Trim}
  {m m' : Machine} {b b' : Nat} {l l' : CountingLoop}

/-- The tests of both loops agree. -/
theorem holds (h : Clauses d d' scopes scopes' l l') (hm : Poised d d' scopes scopes' τ m m')
    (hside : side.Allows 1 b b') :
    Trim.Abreast side τ m m' (evaluate b l.test) (l'.holds b') fun _ a t => t = a.isTruthy := by
  have hcondition := h.condition
  unfold test CountingLoop.holds
  obtain ⟨hc, hc'⟩ | ⟨c, c', hc, hc', htwin⟩ := rel_cases hcondition
  · rw [hc, hc']
    -- A literal is evaluated where there was no condition, which needs some budget.
    obtain ⟨rfl, rfl⟩ | ⟨b, rfl, _⟩ := hside.spend
    · exact .firstSpent rfl
    · exact Trim.Abreast.pure hm.trims rfl
  · rw [hc, hc', ← bind_pure (evaluate b _)]
    have hevaluate := htwin.evaluate hm (hside.save (Nat.zero_le _))
    refine Trim.Abreast.bind hevaluate fun n n' a a' _ hn ha => ?_
    exact Trim.Abreast.pure hn ha.similar.isTruthy

/-- The steps of both loops stay abreast. -/
theorem advance (h : Clauses d d' scopes scopes' l l') {e : Expr} (he : l.step = some e)
    (hm : Poised d d' ([] :: scopes) scopes' τ m m') (hside : side.Allows 1 b b') :
    Trim.Abreast side τ m m' (execute b (.expression e)) (l'.advance b')
      fun _ flow _ => flow = .normal := by
  have hstep := h.step
  rw [he] at hstep
  unfold CountingLoop.advance
  obtain ⟨h, _⟩ | ⟨e, e', h, he', htwin⟩ := rel_cases hstep
  · contradiction
  obtain rfl := Option.some.inj h
  rw [he']
  obtain ⟨rfl, rfl⟩ | ⟨b, rfl, hless⟩ := hside.spend
  · exact .firstSpent rfl
  · refine Trim.Abreast.bind (htwin.evaluate hm hless) fun n n' _ _ _ hn _ => ?_
    exact Trim.Abreast.pure hn rfl

/-- A round ends like one without a frame of its own. -/
theorem round (h : Clauses d d' scopes scopes' l l') (hm : Poised d d' scopes scopes' τ m m')
    (hside : side.Allows 2 b b') :
    Trim.Loosely side τ m m' (execute b l.padded) (l'.round b') Trim.Flows := by
  have hbody := h.body
  unfold padded CountingLoop.round
  obtain ⟨he, he'⟩ | ⟨e, e', he, he', _⟩ := rel_cases h.step
  · have hscopes : l.scopesOfBody scopes = scopes := by rw [scopesOfBody, he]
    rw [hscopes] at hbody
    rw [he, ← bind_pure (execute b _)]
    have hexecute := hbody.execute hm h.plain (hside.save (Nat.zero_le _))
    refine Trim.Abreast.loosely (Trim.Abreast.bind hexecute ?_)
    intro n n' flow flow' _ hn hflow
    cases hflow with
    | normal =>
      unfold CountingLoop.advance
      rw [he']
      exact Trim.Abreast.pure hn .normal
    | result ha => exact Trim.Abreast.pure hn (.result ha)
  · have hscopes : l.scopesOfBody scopes = [] :: scopes := by rw [scopesOfBody, he]
    rw [hscopes] at hbody
    rw [he]
    obtain ⟨rfl, rfl⟩ | ⟨b, rfl, hless⟩ := hside.spend
    · exact Trim.Abreast.loosely (.firstSpent rfl)
    -- The frame of the block is extra, and in it run the body, which is plain, and the step.
    refine Trim.Loosely.pad hm.trims hm.current_lt fun τ' n hτ hn _ hpad => ?_
    have hinner : Poised d d' ([] :: scopes) scopes' τ' n m' :=
      ⟨hn, hτ.table.trans hm.table, hτ.table'.trans hm.table', hpad _ _ hm.sheds⟩
    have hexecute := hbody.execute hinner h.plain (hless.save (Nat.zero_le _))
    refine Trim.Abreast.loosely (Trim.Abreast.bind hexecute ?_)
    intro o o' flow flow' hext ho hflow
    cases hflow with
    | normal =>
      have hafter := hinner.later (.refl τ' _) hext ho
      refine Trim.Abreast.bind (h.advance he hafter hless) fun p p' flow _ _ hp hflow => ?_
      subst hflow
      exact Trim.Abreast.pure hp .normal
    | result ha => exact Trim.Abreast.pure ho (.result ha)

/-- The rounds end like rounds without frames of their own. -/
theorem rounds (h : Clauses d d' scopes scopes' l l') (hm : Poised d d' scopes scopes' τ m m')
    (hside : side.Allows 2 b b') :
    Trim.Loosely side τ m m' (loop b l.test l.padded) (l'.rounds b') Trim.Flows := by
  -- The induction is on the budget; each round may have made one more frame extra.
  induction b generalizing τ m m' b' with
  | zero =>
    obtain ⟨rfl, _⟩ | ⟨rfl, rfl⟩ | ⟨b, b', hb, _⟩ := hside.cases
    · exact Trim.Abreast.loosely (.firstSpent rfl)
    · exact Trim.Abreast.loosely (.secondSpent rfl)
    · contradiction
  | succ b ih =>
    obtain ⟨_, hb⟩ | ⟨rfl, rfl⟩ | ⟨_, b', hb, rfl, hside⟩ := hside.cases
    · contradiction
    · exact Trim.Abreast.loosely (.secondSpent rfl)
    obtain rfl := Nat.succ.inj hb
    refine Trim.Loosely.bind (Q := fun _ _ a t => t = a.isTruthy)
      (Trim.Abreast.loosely (h.holds hm (hside.save (Nat.le_succ 1)))) ?_
    intro τ₁ n n' a t hτ₁ hext₁ hn heq
    subst heq
    have hmiddle := hm.later hτ₁ hext₁ hn
    split
    · refine (h.round hmiddle hside).bind fun τ₂ o o' flow flow' hτ₂ hext₂ ho hflow => ?_
      cases hflow with
      | normal => exact ih (hmiddle.later hτ₂ hext₂ ho) hside
      | result ha => exact Trim.Abreast.loosely (Trim.Abreast.pure ho (.result ha))
    · exact Trim.Abreast.loosely (Trim.Abreast.pure hn .normal)

end Clauses

/-- Running one statement of a list of one. -/
theorem runAll_singleton (run : Runner) (s : Stmt) : runAll run [s] = run s := by
  refine Eq.trans (congrArg (run s >>= ·) (funext fun flow => ?_)) (bind_pure (run s))
  cases flow <;> rfl

/-- The statement that a loop is parsed as ends like a copy of the loop as it is written. -/
theorem Twins.run {side : Side} {d d' : Distances} {scopes scopes' : List Scope} {τ : Trim}
    {m m' : Machine} {b b' : Nat} {l l' : CountingLoop} (h : Twins d d' scopes scopes' l l')
    (hm : Poised d d' scopes scopes' τ m m') (hside : side.Allows 4 b b') :
    Trim.Loosely side τ m m' (execute b l.desugared) (l'.run b') Trim.Flows := by
  rw [desugared_eq]
  unfold CountingLoop.run
  obtain ⟨rfl, rfl⟩ | ⟨b, rfl, hless⟩ := hside.spend
  · exact Trim.Abreast.loosely (.firstSpent rfl)
  cases h with
  | bare hstart hstart' h =>
    rw [hstart, hstart']
    exact h.rounds hm (hless.save (Nat.le_succ 2))
  | @started v v' s s' hstart hstart' hpaired hpiece hpiece' hscopes hscopes' h =>
    rw [hstart, hstart']
    refine Trim.Loosely.get ?_
    rw [hm.trims.current]
    refine Trim.Loosely.bind (Q := fun τ fs k k' => k' = τ.place k ∧ τ.extra k = false ∧
      ∀ scope, Sheds τ fs k (scope :: scopes) (scope :: scopes'))
      (Trim.Abreast.loosely (Trim.Abreast.newFrame hm.trims hm.sheds .nil)) ?_
    -- The frame of the start is made in both machines, and its rounds run within it.
    rintro τ₁ n n' k _ hτ₁ hext₁ hn ⟨rfl, hk, hchain⟩
    have hlater := hm.later hτ₁ hext₁ hn
    obtain rfl := hlater.table
    obtain rfl := hlater.table'
    have hs : Beside τ₁ n.heap.frames k v v' := ⟨hpaired, hscopes ▸ hscopes' ▸ hchain []⟩
    have hplain : τ₁.extra k = true → s.isPlain := fun hextra => by simp [hk] at hextra
    refine Trim.Loosely.inFrame hn hlater.current_lt ?_
    have hexecute := (Trim.Abreast.lockstep (hless.save (Nat.zero_le _))).2 (hn.moveTo k) hs hpiece
      hpiece' hplain
    refine Trim.Loosely.bind (Q := Trim.Flows) (Trim.Abreast.loosely hexecute) ?_
    intro τ₂ o o' flow flow' hτ₂ hext₂ ho hflow
    cases hflow with
    | normal =>
      rw [runAll_singleton]
      obtain ⟨rfl, rfl⟩ | ⟨b, rfl, hleast⟩ := hless.spend
      · exact Trim.Abreast.loosely (.firstSpent rfl)
      have hafter := hs.sheds_after hpiece hplain
      have hstarted : Poised τ₁.table τ₁.table' v.after.scopes v'.after.scopes τ₁
          { n with current := k } { n' with current := τ₁.place k } :=
        ⟨hn.moveTo k, rfl, rfl, hafter⟩
      exact h.rounds (hstarted.later hτ₂ hext₂ ho) hleast
    | result ha => exact Trim.Abreast.loosely (Trim.Abreast.pure ho (.result ha))

end CountingLoop

end Lox

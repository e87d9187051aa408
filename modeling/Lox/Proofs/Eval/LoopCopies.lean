import Lox.Proofs.Eval.CountingLoops
import Lox.Proofs.Scoping.Occurrences

/-!
# Copies of counting loops

The references of a counting loop have distances that count the frame of the block around a round.
To run the loop as it is written, its references are numbered anew (`CountingLoop.renumber`) and
scoped where they are written, the condition, the body and the step within the same scopes
(`CountingLoop.walk`). What was noted for other references is not changed by that.

For scoping, the loop as it is written is a list of statements, and so all that is known about
visits holds of it. The clauses of the copy are paired with those of the loop that is parsed
(`CountingLoop.twins_renumber`).
-/

namespace Lox

open Scoping Eval

/-! ## Numbers -/

namespace Scoping

/-- The numbers of the references in a piece, wherever it is visited. -/
def Piece.ids (p : Piece) : List Nat :=
  Visit.ids ⟨{}, p, {}, []⟩

/-- The numbers of a visit are those in its piece. -/
theorem Visit.ids_piece (v : Visit) : v.ids = v.piece.ids :=
  ids_congr rfl

namespace Piece

/-- A piece that is no reference has the numbers in its parts. -/
theorem ids_eq_flatMap {v : Visit} (hown : v.own? = none) :
    v.piece.ids = (v.parts.map Visit.piece).flatMap ids := by
  rw [← v.ids_piece, Visit.ids_eq, hown, List.flatMap_map]
  exact congrArg (fun f => v.parts.flatMap f) (funext Visit.ids_piece)

/-- No statements have no numbers. -/
theorem ids_stmts_nil : (stmts []).ids = [] :=
  ids_eq_flatMap (v := ⟨{}, .stmts [], {}, []⟩) rfl

/-- The numbers in statements are those in the first and in the others. -/
theorem ids_stmts_cons (s : Stmt) (ss : List Stmt) :
    (stmts (s :: ss)).ids = (stmt s).ids ++ (stmts ss).ids :=
  (ids_eq_flatMap (v := ⟨{}, .stmts (s :: ss), {}, []⟩) rfl).trans
    (congrArg (_ ++ ·) (List.append_nil _))

/-- The numbers in a loop are those in its condition and its body. -/
theorem ids_loop (c : Expr) (s : Stmt) : (stmt (.loop c s)).ids = (expr c).ids ++ (stmt s).ids :=
  (ids_eq_flatMap (v := ⟨{}, .stmt (.loop c s), {}, []⟩) rfl).trans
    (congrArg (_ ++ ·) (List.append_nil _))

/-- The numbers in a block are those in its statements. -/
theorem ids_block (ss : List Stmt) : (stmt (.block ss)).ids = (stmts ss).ids :=
  (ids_eq_flatMap (v := ⟨{}, .stmt (.block ss), {}, []⟩) rfl).trans (List.append_nil _)

/-- The numbers in an expression statement are those in its expression. -/
theorem ids_expression (e : Expr) : (stmt (.expression e)).ids = (expr e).ids :=
  (ids_eq_flatMap (v := ⟨{}, .stmt (.expression e), {}, []⟩) rfl).trans (List.append_nil _)

/-- The numbers in a renumbered piece are shifted. -/
theorem ids_recast (p : Piece) (shift : Nat) :
    (p.recast (.moved id shift) []).ids = p.ids.map (shift + ·) :=
  Visit.Copies.ids (.mk [])

end Piece

/-- What is known of the visits of a program that runs with a table of distances. -/
structure Visit.Apt (d : Distances) (v : Visit) : Prop where
  /-- The table holds what is found at the visit. -/
  recorded : v.Recorded d
  /-- The piece has the shape that evaluation relies on. -/
  shapely : v.Shapely
  /-- Where `super` stands there is a receiver. -/
  inherits : v.Inherits
  /-- The words `this` and `super` stand where they have a meaning. -/
  atHome : v.AtHome

/-- A visit is paired with the visit of a copy, once this is recorded. -/
theorem Visit.Copies.paired {shift : Nat} {d d' : Distances} {v v' : Visit} (h : Copies shift v v')
    (hv : All (Apt d) v) (hv' : All (Recorded d') v') : Paired d d' v v' where
  copies := ⟨shift, h⟩
  recorded := hv.imp fun _ => Apt.recorded
  recorded' := hv'
  shapely := hv.imp fun _ => Apt.shapely
  inherits := hv.imp fun _ => Apt.inherits

end Scoping

namespace CountingLoop

/-- A copy of the loop, in which the references have greater numbers. -/
def renumber (shift : Nat) (l : CountingLoop) : CountingLoop where
  start := l.start.map (·.recast (.moved id shift) [])
  condition := l.condition.map (·.recast (.moved id shift) [])
  step := l.step.map (·.recast (.moved id shift) [])
  body := l.body.recast (.moved id shift) []

/-- The walk through the clauses after the start, all of them within the same scopes. -/
def walkRounds (ctx : Context) (l : CountingLoop) (w : Walk) : Walk :=
  let tested := match l.condition with
    | none => w
    | some c => walkExpr ctx c w
  match l.step with
  | none => walkStmt ctx l.body tested
  | some e => walkExpr ctx e (walkStmt ctx l.body tested)

/-- The walk through the loop as it is written. A start opens a scope for the whole loop. -/
def walk (ctx : Context) (l : CountingLoop) (w : Walk) : Walk :=
  match l.start with
  | none => l.walkRounds ctx w
  | some s => (l.walkRounds ctx (walkStmt ctx s (w.enter []))).leave

/-- The clauses after the start, as statements. -/
def rest (l : CountingLoop) : List Stmt :=
  .loop l.test l.body :: (l.step.map .expression).toList

/-- The visit of the clauses as statements in order. -/
def visit (ctx : Context) (l : CountingLoop) (w : Walk) : Visit :=
  match l.start with
  | none => ⟨ctx, .stmts l.rest, w, []⟩
  | some s => ⟨ctx, .stmts (s :: l.rest), w.enter [], []⟩

/-- The visit of a loop starts with the distances known before. -/
theorem visit_distances (ctx : Context) (l : CountingLoop) (w : Walk) :
    (l.visit ctx w).walk.distances = w.distances := by
  unfold visit
  split <;> rfl

/-- The walk over a loop ends with the distances of its visit. -/
theorem distances_walk (ctx : Context) (l : CountingLoop) (w : Walk) :
    (l.walk ctx w).distances = (l.visit ctx w).after.distances := by
  obtain ⟨start, condition, step, body⟩ := l
  cases start <;> cases condition <;> cases step <;> rfl

variable {ctx : Context} {w w' : Walk} {around : List Construct} {l : CountingLoop} {shift : Nat}

/-- The test of a renumbered loop is the renumbered test. -/
theorem test_renumber : (l.renumber shift).test = l.test.recast (.moved id shift) [] := by
  obtain ⟨start, _ | c, step, body⟩ := l <;> rfl

/-- The numbers in the clauses of a loop. -/
def ids (l : CountingLoop) : List Nat :=
  (l.start.elim [] fun s => (Piece.stmt s).ids) ++ (Piece.expr l.test).ids ++
    (Piece.stmt l.body).ids ++ l.step.elim [] fun e => (Piece.expr e).ids

/-- The loop that is parsed has no other numbers. -/
theorem ids_desugared : (Piece.stmt l.desugared).ids = l.ids := by
  rw [desugared_eq]
  obtain ⟨start, condition, step, body⟩ := l
  cases start <;> cases step <;>
    simp [ids, padded, Piece.ids_block, Piece.ids_stmts_cons, Piece.ids_stmts_nil, Piece.ids_loop,
      Piece.ids_expression]

/-- The numbers of the visit of a loop are its numbers. -/
theorem ids_visit : (l.visit ctx w).ids = l.ids := by
  rw [Visit.ids_piece]
  obtain ⟨start, condition, step, body⟩ := l
  cases start <;> cases step <;>
    simp [ids, visit, rest, Piece.ids_stmts_cons, Piece.ids_stmts_nil, Piece.ids_loop,
      Piece.ids_expression]

/-- The numbers in a copy are those in the loop, but greater. -/
theorem ids_renumber : (l.renumber shift).ids = l.ids.map (shift + ·) := by
  have hstmt (s : Stmt) := Piece.ids_recast (.stmt s) shift
  have hexpr (e : Expr) := Piece.ids_recast (.expr e) shift
  simp only [Piece.recast] at hstmt hexpr
  unfold ids
  rw [test_renumber]
  obtain ⟨start, condition, step, body⟩ := l
  cases start <;> cases step <;> simp [renumber, hstmt, hexpr]

/-- A walk through a copy notes nothing for smaller numbers. -/
theorem find?_walk_renumber {id : Nat} (hid : id < shift) :
    ((l.renumber shift).walk ctx w).distances.find? id = w.distances.find? id := by
  rw [distances_walk]
  have hnotes := Visit.notes_after ((l.renumber shift).visit ctx w)
  rw [visit_distances, ids_visit, ids_renumber] at hnotes
  -- The walk notes numbers of the copy only, and these are not below the shift.
  refine hnotes.find?_eq fun hmem => ?_
  obtain ⟨id', _, rfl⟩ := List.mem_map.mp hmem
  exact absurd hid (Nat.not_lt.mpr (Nat.le_add_right _ _))

/-! ## Clauses -/

section All

open Visit (All AtHome)

variable {P : Visit → Prop}

/-- Where the clauses of the loop that is parsed are visited. -/
theorem all_looped (h : All P ⟨ctx, .stmt (.loop l.test l.padded), w, around⟩) :
    All P ⟨ctx, .expr l.test, w, around⟩ ∧
      ∃ w₁ around₁, w₁.scopes = l.scopesOfBody w.scopes ∧ All P ⟨ctx, .stmt l.body, w₁, around₁⟩ ∧
        ∀ e ∈ l.step, All P ⟨ctx, .expr e, walkStmt ctx l.body w₁, around₁⟩ := by
  have htest := h.part List.mem_cons_self
  have hpadded := h.part (List.mem_cons_of_mem _ List.mem_cons_self)
  refine ⟨htest, ?_⟩
  -- With a step the body is in a block of its own, which opens a scope; without one it is not.
  unfold padded at hpadded
  unfold scopesOfBody
  cases hstep : l.step with
  | none =>
    rw [hstep] at hpadded
    exact ⟨_, _, walkExpr_scopes .., hpadded, by simp⟩
  | some e =>
    rw [hstep] at hpadded
    have hround := hpadded.part List.mem_cons_self
    have hafter := hround.part (List.mem_cons_of_mem _ List.mem_cons_self)
    refine ⟨_, _, ?_, hround.part List.mem_cons_self, ?_⟩
    · exact congrArg ([] :: ·) (walkExpr_scopes ..)
    · rintro _ ⟨⟩
      exact (hafter.part List.mem_cons_self).part List.mem_cons_self

/-- Where the clauses of the loop as it is written are visited. -/
theorem all_rest (h : All P ⟨ctx, .stmts l.rest, w, around⟩) :
    All P ⟨ctx, .expr l.test, w, around⟩ ∧
      All P ⟨ctx, .stmt l.body, walkExpr ctx l.test w, around⟩ ∧
      ∀ e ∈ l.step, All P ⟨ctx, .expr e, walkStmt ctx l.body (walkExpr ctx l.test w), around⟩ := by
  have hloop := h.part List.mem_cons_self
  have hafter := h.part (List.mem_cons_of_mem _ List.mem_cons_self)
  refine ⟨hloop.part List.mem_cons_self,
    hloop.part (List.mem_cons_of_mem _ List.mem_cons_self), fun e he => ?_⟩
  rw [Option.mem_def.mp he] at hafter
  exact (hafter.part List.mem_cons_self).part List.mem_cons_self

/-- The clauses are at home in the loop as it is written if they are where they are visited. -/
theorem all_atHome_rest (htest : All AtHome ⟨ctx, .expr l.test, w, around⟩)
    (hbody : All AtHome ⟨ctx, .stmt l.body, walkExpr ctx l.test w, around⟩)
    (hstep : ∀ e ∈ l.step,
      All AtHome ⟨ctx, .expr e, walkStmt ctx l.body (walkExpr ctx l.test w), around⟩) :
    All AtHome ⟨ctx, .stmts l.rest, w, around⟩ := by
  have hnil (w : Walk) : All AtHome ⟨ctx, .stmts [], w, around⟩ :=
    .mk trivial (by simp [Visit.parts])
  have hcons {s : Stmt} {ss : List Stmt} {w : Walk} (hs : All AtHome ⟨ctx, .stmt s, w, around⟩)
      (hss : All AtHome ⟨ctx, .stmts ss, walkStmt ctx s w, around⟩) :
      All AtHome ⟨ctx, .stmts (s :: ss), w, around⟩ :=
    .mk trivial (List.forall_mem_cons.mpr ⟨hs, List.forall_mem_singleton.mpr hss⟩)
  have hloop : All AtHome ⟨ctx, .stmt (.loop l.test l.body), w, around⟩ :=
    .mk trivial (List.forall_mem_cons.mpr ⟨htest, List.forall_mem_singleton.mpr hbody⟩)
  refine hcons hloop ?_
  cases he : l.step with
  | none => exact hnil _
  | some e =>
    exact hcons (.mk trivial (List.forall_mem_singleton.mpr (hstep e he))) (hnil _)

end All

section Renumber

open Visit (All AtHome Apt Recorded Copies)

variable {d d' : Distances}

/-- The copies of the clauses are at home. -/
theorem all_atHome_renumber (h : All (Apt d) ⟨ctx, .stmt l.desugared, w, around⟩) :
    All AtHome ((l.renumber shift).visit ctx w') := by
  have hcopy {p : Piece} {w w' : Walk} {around around' : List Construct}
      (hp : All (Apt d) ⟨ctx, p, w, around⟩) :
      All AtHome ⟨ctx, p.recast (.moved id shift) [], w', around'⟩ :=
    Copies.all (fun _ _ => Copies.atHome) (.mk []) (hp.imp fun _ => Apt.atHome)
  have hrest {w w' : Walk} {around : List Construct}
      (h : All (Apt d) ⟨ctx, .stmt (.loop l.test l.padded), w, around⟩) :
      All AtHome ⟨ctx, .stmts (l.renumber shift).rest, w', []⟩ := by
    obtain ⟨htest, w₁, around₁, _, hbody, hstep⟩ := all_looped h
    refine all_atHome_rest (test_renumber ▸ hcopy htest) (hcopy hbody) fun e' he' => ?_
    obtain ⟨e, he, rfl⟩ := Option.map_eq_some_iff.mp he'
    exact hcopy (hstep e he)
  rw [desugared_eq] at h
  unfold visit
  cases hstart : l.start with
  | none =>
    rw [hstart] at h
    have hstart' : (l.renumber shift).start = none :=
      congrArg (Option.map _) hstart
    rw [hstart']
    exact hrest h
  | some s =>
    rw [hstart] at h
    have hstart' : (l.renumber shift).start = some (s.recast (.moved id shift) []) :=
      congrArg (Option.map _) hstart
    rw [hstart']
    have hinner := h.part List.mem_cons_self
    have hlooped := hinner.part (List.mem_cons_of_mem _ List.mem_cons_self)
    refine .mk trivial (List.forall_mem_cons.mpr ⟨hcopy (hinner.part List.mem_cons_self),
      List.forall_mem_singleton.mpr ?_⟩)
    exact hrest (hlooped.part List.mem_cons_self)

/-- The clauses after the start of a copy are paired with those of the loop that is parsed. -/
theorem clauses_renumber {around' : List Construct} (hplain : l.body.isPlain)
    (h : All (Apt d) ⟨ctx, .stmt (.loop l.test l.padded), w, around⟩)
    (h' : All (Recorded d') ⟨ctx, .stmts (l.renumber shift).rest, w', around'⟩) :
    Clauses d d' w.scopes w'.scopes l (l.renumber shift) := by
  obtain ⟨htest, w₁, around₁, hscopes, hbody, hstep⟩ := all_looped h
  obtain ⟨htest', hbody', hstep'⟩ := all_rest h'
  have hbodies := Copies.paired (.mk []) hbody hbody'
  -- A body that declares no name leaves the scopes as they are for the step.
  have hafter : (walkStmt ctx l.body w₁).scopes = w₁.scopes :=
    Visit.scopes_after_plain _ hbodies.shapely _ rfl hplain
  have hplain' : (l.renumber shift).body.isPlain := (Copies.isPlain l.body []).trans hplain
  have hafter' : (walkStmt ctx (l.renumber shift).body _).scopes = _ :=
    Visit.scopes_after_plain _ hbodies.shapely' _ rfl hplain'
  refine ⟨?_, ⟨_, _, hbodies, rfl, rfl, hscopes, walkExpr_scopes ..⟩, ?_, hplain⟩
  -- A condition that is left out is left out of the copy too.
  · rw [test_renumber] at htest'
    unfold test at htest htest'
    unfold renumber
    cases hcondition : l.condition with
    | none => exact .none
    | some c =>
      rw [hcondition] at htest htest'
      exact .some ⟨_, _, Copies.paired (.mk []) htest htest', rfl, rfl, rfl, rfl⟩
  · cases he : l.step with
    | none =>
      have he' : (l.renumber shift).step = none := congrArg (Option.map _) he
      rw [he']
      exact .none
    | some e =>
      have he' : (l.renumber shift).step = some (e.recast (.moved id shift) []) :=
        congrArg (Option.map _) he
      rw [he']
      have hscopes₁ : w₁.scopes = [] :: w.scopes := by rw [hscopes, scopesOfBody, he]
      refine .some ⟨_, _, Copies.paired (.mk []) (hstep e he) (hstep' _ he'), rfl, rfl,
        hafter.trans hscopes₁, ?_⟩
      exact hafter'.trans (walkExpr_scopes ..)

/-- A copy of a loop, scoped as it is written, is paired with the loop that is parsed. -/
theorem twins_renumber (hplain : l.body.isPlain)
    (h : All (Apt d) ⟨ctx, .stmt l.desugared, w, around⟩) (hnodup : l.ids.Nodup)
    (hbelow : w'.distances.Below shift) :
    Twins d ((l.renumber shift).walk ctx w').distances w.scopes w'.scopes l (l.renumber shift) := by
  -- The numbers of the copy are new to the table, so each reference finds what its own visit noted.
  have hrecorded : All (Recorded ((l.renumber shift).walk ctx w').distances)
      ((l.renumber shift).visit ctx w') := by
    rw [distances_walk]
    refine Visit.recorded_of_atHome (all_atHome_renumber h) ?_ ?_
    · rw [ids_visit, ids_renumber]
      exact hnodup.map fun _ _ => Nat.add_left_cancel
    · rw [ids_visit, ids_renumber, visit_distances]
      intro id hid
      obtain ⟨id', _, rfl⟩ := List.mem_map.mp hid
      exact hbelow.find?_eq_none (Nat.le_add_right _ _)
  generalize ((l.renumber shift).walk ctx w').distances = d' at hrecorded ⊢
  rw [desugared_eq] at h
  unfold visit at hrecorded
  cases hstart : l.start with
  | none =>
    have hstart' : (l.renumber shift).start = none :=
      congrArg (Option.map _) hstart
    rw [hstart] at h
    rw [hstart'] at hrecorded
    exact .bare hstart hstart' (clauses_renumber hplain h hrecorded)
  | some s =>
    have hstart' : (l.renumber shift).start = some (s.recast (.moved id shift) []) :=
      congrArg (Option.map _) hstart
    rw [hstart] at h
    rw [hstart'] at hrecorded
    have hinner := h.part List.mem_cons_self
    have hlooped := hinner.part (List.mem_cons_of_mem _ List.mem_cons_self)
    have hs := Copies.paired (.mk []) (hinner.part List.mem_cons_self)
      (hrecorded.part List.mem_cons_self)
    exact .started hstart hstart' hs rfl rfl rfl rfl (clauses_renumber hplain
      (hlooped.part List.mem_cons_self)
      (hrecorded.part (List.mem_cons_of_mem _ List.mem_cons_self)))

end Renumber

end CountingLoop

end Lox

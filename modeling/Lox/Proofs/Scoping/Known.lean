import Lox.Proofs.Scoping.Recording

/-!
# Walks beside known distances

A walk never looks at the distances that it notes. So it finds the same scopes and violations beside
any table of known distances, and it notes the same (`Visit.after_beside`, `Visit.parts_beside`).
-/

namespace Lox.Scoping

/-- The distances in `d`, and beside them those in `known`. -/
def Distances.beside (d known : Distances) : Distances :=
  ⟨d.entries ++ known.entries⟩

namespace Walk

/-- The walk beside known distances. -/
def beside (w : Walk) (known : Distances) : Walk :=
  { w with distances := w.distances.beside known }

variable (w : Walk) (d : Distances)

/-- Known distances leave the scopes alone. -/
@[simp] theorem beside_scopes : (w.beside d).scopes = w.scopes := rfl

/-- Known distances leave the violations alone. -/
@[simp] theorem beside_violations : (w.beside d).violations = w.violations := rfl

/-- A violation is the same beside known distances. -/
@[simp] theorem violate_beside (t : Token) (rule : Rule) :
    (w.beside d).violate t rule = (w.violate t rule).beside d := rfl

/-- Entering a scope is the same beside known distances. -/
@[simp] theorem enter_beside (scope : Scope) :
    (w.beside d).enter scope = (w.enter scope).beside d := rfl

/-- Leaving a scope is the same beside known distances. -/
@[simp] theorem leave_beside : (w.beside d).leave = w.leave.beside d := rfl

/-- Declaring a name is the same beside known distances. -/
@[simp] theorem declare_beside (name : Token) :
    (w.beside d).declare name = (w.declare name).beside d := by
  unfold declare
  rw [beside_scopes]
  split
  · rfl
  · split <;> rfl

/-- Defining a name is the same beside known distances. -/
@[simp] theorem define_beside (name : Token) :
    (w.beside d).define name = (w.define name).beside d := by
  unfold define
  rw [beside_scopes]
  split <;> rfl

/-- Resolving a reference is the same beside known distances. -/
@[simp] theorem resolve_beside (x : Reference) :
    (w.beside d).resolve x = (w.resolve x).beside d := by
  unfold resolve
  rw [beside_scopes]
  split <;> rfl

/-- Reading a variable is the same beside known distances. -/
@[simp] theorem read_beside (x : Reference) : (w.beside d).read x = (w.read x).beside d := by
  unfold read
  dsimp only
  rw [beside_scopes, ← resolve_beside]
  split <;> rfl

/-- Declaring parameters is the same beside known distances. -/
@[simp] theorem parameters_beside (params : List Token) :
    (w.beside d).parameters params = (w.parameters params).beside d := by
  unfold parameters
  induction params generalizing w with
  | nil => rfl
  | cons name params ih => simp only [List.foldl_cons, declare_beside, define_beside, ih]

/-- Resolving superclasses is the same beside known distances. -/
@[simp] theorem superclasses_beside (name : Token) (xs : List Reference) :
    (w.beside d).superclasses name xs = (w.superclasses name xs).beside d := by
  unfold superclasses
  induction xs generalizing w with
  | nil => rfl
  | cons x xs ih =>
    rw [List.foldl_cons, List.foldl_cons, ← ih, ← read_beside]
    split <;> rfl

end Walk

mutual

/-- The walk over an expression is the same beside known distances. -/
@[simp] theorem walkExpr_beside (ctx : Context) (e : Expr) (w : Walk) (d : Distances) :
    walkExpr ctx e (w.beside d) = (walkExpr ctx e w).beside d := by
  cases e <;> simp only [walkExpr, walkExpr_beside, walkExprs_beside, walkEntries_beside,
    walkFunction_beside, Walk.read_beside, Walk.resolve_beside, Walk.violate_beside]
  all_goals split <;> rfl

/-- The walk over expressions is the same beside known distances. -/
@[simp] theorem walkExprs_beside (ctx : Context) (es : List Expr) (w : Walk) (d : Distances) :
    walkExprs ctx es (w.beside d) = (walkExprs ctx es w).beside d := by
  cases es <;> simp only [walkExprs, walkExpr_beside, walkExprs_beside]

/-- The walk over entries is the same beside known distances. -/
@[simp] theorem walkEntries_beside (ctx : Context) (es : List Entry) (w : Walk) (d : Distances) :
    walkEntries ctx es (w.beside d) = (walkEntries ctx es w).beside d := by
  obtain _ | ⟨⟨key, e⟩, es⟩ := es <;> simp only [walkEntries, walkExpr_beside, walkEntries_beside]

/-- The walk over a function is the same beside known distances. -/
@[simp] theorem walkFunction_beside (ctx : Context) (f : FunctionDecl) (w : Walk) (d : Distances) :
    walkFunction ctx f (w.beside d) = (walkFunction ctx f w).beside d := by
  obtain ⟨name, keyword, params, body⟩ := f
  simp only [walkFunction, walkStmts_beside, Walk.enter_beside, Walk.parameters_beside,
    Walk.leave_beside]

/-- The walk over methods is the same beside known distances. -/
@[simp] theorem walkMethods_beside (ctx : Context) (fs : List FunctionDecl) (w : Walk)
    (d : Distances) : walkMethods ctx fs (w.beside d) = (walkMethods ctx fs w).beside d := by
  cases fs <;> simp only [walkMethods, walkFunction_beside, walkMethods_beside]

/-- The walk over declarators is the same beside known distances. -/
@[simp] theorem walkDeclarators_beside (ctx : Context) (ds : List Declarator) (w : Walk)
    (d : Distances) :
    walkDeclarators ctx ds (w.beside d) = (walkDeclarators ctx ds w).beside d := by
  obtain _ | ⟨⟨name, _ | e⟩, ds⟩ := ds <;> simp only [walkDeclarators, walkDeclarators_beside,
    walkExpr_beside, Walk.declare_beside, Walk.define_beside]

/-- The walk over a class is the same beside known distances. -/
@[simp] theorem walkClass_beside (ctx : Context) (c : ClassDecl) (w : Walk) (d : Distances) :
    walkClass ctx c (w.beside d) = (walkClass ctx c w).beside d := by
  obtain ⟨name, supers, methods⟩ := c
  simp only [walkClass, walkMethods_beside, Walk.declare_beside, Walk.define_beside,
    Walk.superclasses_beside, Walk.enter_beside, Walk.leave_beside]
  split <;> rfl

/-- The walk over a statement is the same beside known distances. -/
@[simp] theorem walkStmt_beside (ctx : Context) (s : Stmt) (w : Walk) (d : Distances) :
    walkStmt ctx s (w.beside d) = (walkStmt ctx s w).beside d := by
  cases s with
  | branch c t e => cases e <;> simp only [walkStmt, walkExpr_beside, walkStmt_beside]
  | function f =>
    simp only [walkStmt, ← walkFunction_beside]
    congr 1
    split <;> simp
  | result keyword e =>
    cases e with
    | none =>
      simp only [walkStmt]
      split <;> rfl
    | some e =>
      simp only [walkStmt, ← walkExpr_beside]
      congr 1
      split <;> rfl
  | _ => simp only [walkStmt, walkExpr_beside, walkStmt_beside, walkStmts_beside,
      walkDeclarators_beside, walkClass_beside, Walk.enter_beside, Walk.leave_beside]

/-- The walk over statements is the same beside known distances. -/
@[simp] theorem walkStmts_beside (ctx : Context) (ss : List Stmt) (w : Walk) (d : Distances) :
    walkStmts ctx ss (w.beside d) = (walkStmts ctx ss w).beside d := by
  cases ss <;> simp only [walkStmts, walkStmt_beside, walkStmts_beside]

end

namespace Visit

/-- The visit beside known distances. -/
def beside (v : Visit) (known : Distances) : Visit :=
  { v with walk := v.walk.beside known }

variable (v : Visit) (d : Distances)

/-- A visit beside known distances has the same context. -/
@[simp] theorem beside_ctx : (v.beside d).ctx = v.ctx := rfl

/-- A visit beside known distances is to the same piece. -/
@[simp] theorem beside_piece : (v.beside d).piece = v.piece := rfl

/-- A visit beside known distances has its walk beside them. -/
@[simp] theorem beside_walk : (v.beside d).walk = v.walk.beside d := rfl

/-- A visit beside known distances has the same surroundings. -/
@[simp] theorem beside_around : (v.beside d).around = v.around := rfl

/-- Going on to a part is the same beside known distances. -/
@[simp] theorem onto_beside (piece : Piece) (w : Walk) :
    (v.beside d).onto piece (w.beside d) = (v.onto piece w).beside d := rfl

/-- Going on to a function is the same beside known distances. -/
@[simp] theorem toFunction_beside (body : Body) (f : FunctionDecl) (w : Walk) :
    (v.beside d).toFunction body f (w.beside d) = (v.toFunction body f w).beside d := rfl

/-- A visit does the same beside any known distances. -/
theorem after_beside : (v.beside d).after = v.after.beside d := by
  obtain ⟨ctx, piece, w, around⟩ := v
  cases piece <;> simp [beside, after]

/-- Declaring and defining a name is the same beside known distances. -/
@[simp] theorem named_beside (name : Token) :
    (v.beside d).named name = (v.named name).beside d := by
  simp [named, beside]

/-- Checking a superclass against its class is the same beside known distances. -/
@[simp] theorem notOwn_beside (name : Token) (x : Reference) :
    (v.beside d).notOwn name x = (v.notOwn name x).beside d := by
  unfold notOwn
  split <;> rfl

/-- Going on to the methods is the same beside known distances. -/
@[simp] theorem toMethods_beside (c : ClassDecl) :
    (v.beside d).toMethods c = (v.toMethods c).beside d := by
  unfold toMethods
  rw [named_beside, Walk.superclasses_beside]
  split <;> rfl

/-- A visit makes the same visits beside any known distances. -/
theorem parts_beside : (v.beside d).parts = v.parts.map (·.beside d) := by
  unfold parts
  rw [beside_piece]
  cases v.piece with
  | expr e => cases e <;> simp [exprParts]
  | exprs es => cases es <;> simp
  | entries es => obtain _ | ⟨⟨key, e⟩, es⟩ := es <;> simp
  | function f => simp [beside]
  | methods fs => cases fs <;> simp
  | declarators ds => obtain _ | ⟨⟨name, _ | e⟩, ds⟩ := ds <;> simp
  | superclasses name xs => cases xs <;> simp
  | superclass x => rfl
  | «class» c => simp
  | stmt s =>
    cases s with
    | block ss => simp [stmtParts, beside]
    | branch c t e => cases e <;> simp [stmtParts]
    | function f => cases hname : f.name <;> simp [stmtParts, hname]
    | result keyword e =>
      cases e with
      | none => rfl
      | some e => cases hbody : v.ctx.body <;> simp [stmtParts, hbody]
    | _ => simp [stmtParts]
  | stmts ss => cases ss <;> simp

variable {v d} {v' : Visit}

/-- The visits within a visit beside known distances are those within the visit. -/
theorem within_beside : Within v' (v.beside d) ↔ ∃ v₀, Within v₀ v ∧ v' = v₀.beside d := by
  constructor
  · intro h
    induction h with
    | refl => exact ⟨v, .refl, rfl⟩
    | tail _ hp ih =>
      obtain ⟨v₀, hv₀, rfl⟩ := ih
      rw [parts_beside, List.mem_map] at hp
      obtain ⟨p, hp, rfl⟩ := hp
      exact ⟨p, hv₀.tail hp, rfl⟩
  · rintro ⟨v₀, hv₀, rfl⟩
    induction hv₀ with
    | refl => exact .refl
    | tail _ hp ih =>
      refine ih.tail ?_
      rw [parts_beside]
      exact List.mem_map_of_mem hp

/-- What does not depend on known distances holds of all visits beside any. -/
theorem all_beside {P : Visit → Prop} (hP : ∀ v, P (v.beside d) ↔ P v) :
    All P (v.beside d) ↔ All P v := by
  constructor
  · exact fun h v₀ hv₀ => (hP v₀).mp (h _ (within_beside.mpr ⟨v₀, hv₀, rfl⟩))
  · intro h v' hv'
    obtain ⟨v₀, hv₀, rfl⟩ := within_beside.mp hv'
    exact (hP v₀).mpr (h v₀ hv₀)

/-- What is recorded for a visit does not depend on distances known before. -/
theorem recorded_beside (d' : Distances) : Recorded d' (v.beside d) ↔ Recorded d' v := .rfl

end Visit

end Lox.Scoping

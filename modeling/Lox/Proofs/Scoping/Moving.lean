import Lox.Proofs.Scoping.Counterparts
import Lox.Proofs.Scoping.Known

/-!
# Walks through programs that stand elsewhere

Scoping never looks at the positions of tokens or at the numbers of references: it compares texts
only. So if tokens stand elsewhere and the numbers of references grow, a walk finds the same scopes,
distances and violations, with the new numbers and positions (`walkStmts_moved`).
-/

namespace Lox.Scoping

variable (move : Position → Position) (k : Nat)

/-- A violation at a token that stands elsewhere. -/
def Violation.moved (v : Violation) : Violation :=
  { v with token := v.token.moved move }

/-- The walk through a program whose tokens stand elsewhere and whose references have other
numbers. -/
def Walk.moved (w : Walk) : Walk where
  scopes := w.scopes
  distances := w.distances.renumber (k + ·)
  violations := w.violations.map (Violation.moved move)

/-- A reference whose token stands elsewhere and that has another number. -/
def movedReference (x : Reference) : Reference :=
  ⟨k + x.id, x.name.moved move⟩

/-- Moving recasts plain tokens by moving them. -/
@[simp] theorem moved_plain : (Recasting.moved move k).plain = Token.moved move := rfl

/-- Moving recasts declared names by moving them. -/
@[simp] theorem moved_declared (mark : Bool) :
    (Recasting.moved move k).declared mark = Token.moved move := rfl

/-- Moving recasts references by moving them. -/
@[simp] theorem moved_reference (ms : List Bool) :
    (Recasting.moved move k).reference ms = movedReference move k := rfl

/-- Moving recasts keywords by moving them. -/
@[simp] theorem moved_keyword : (Recasting.moved move k).keyword = movedReference move k := rfl

namespace Walk

variable (w : Walk) (t : Token) (x : Reference)

/-- A violation at a moved token is the moved violation. -/
@[simp] theorem violate_moved (rule : Rule) :
    (w.moved move k).violate (t.moved move) rule = (w.violate t rule).moved move k := by
  simp [violate, moved, Violation.moved]

/-- A violation at a moved reference is the moved violation. -/
@[simp] theorem violate_movedReference (rule : Rule) :
    (w.moved move k).violate (movedReference move k x).name rule =
      (w.violate x.name rule).moved move k :=
  violate_moved move k w x.name rule

/-- Moving commutes with entering a scope. -/
@[simp] theorem enter_moved (scope : Scope) :
    (w.moved move k).enter scope = (w.enter scope).moved move k := rfl

/-- Moving commutes with leaving a scope. -/
@[simp] theorem leave_moved : (w.moved move k).leave = w.leave.moved move k := rfl

/-- Moving commutes with declaring a name. -/
@[simp] theorem declare_moved :
    (w.moved move k).declare (t.moved move) = (w.declare t).moved move k := by
  have hscopes : (w.moved move k).scopes = w.scopes := rfl
  have hlexeme : (t.moved move).lexeme = t.lexeme := rfl
  unfold declare
  rw [hscopes]
  split
  · rfl
  · rw [violate_moved, hlexeme]
    split <;> rfl

/-- Moving commutes with defining a name. -/
@[simp] theorem define_moved :
    (w.moved move k).define (t.moved move) = (w.define t).moved move k := by
  have hscopes : (w.moved move k).scopes = w.scopes := rfl
  unfold define
  rw [hscopes]
  split <;> rfl

/-- Moving commutes with resolving a reference. -/
@[simp] theorem resolve_moved :
    (w.moved move k).resolve (movedReference move k x) = (w.resolve x).moved move k := by
  have hscopes : (w.moved move k).scopes = w.scopes := rfl
  have hlexeme : (movedReference move k x).name.lexeme = x.name.lexeme := rfl
  unfold resolve
  rw [hscopes, hlexeme]
  split <;> rfl

/-- Moving commutes with reading a variable. -/
@[simp] theorem read_moved :
    (w.moved move k).read (movedReference move k x) = (w.read x).moved move k := by
  have hscopes : (w.moved move k).scopes = w.scopes := rfl
  have hlexeme : (movedReference move k x).name.lexeme = x.name.lexeme := rfl
  unfold read
  dsimp only
  rw [hscopes, hlexeme, ← resolve_moved, violate_movedReference]
  split <;> rfl

/-- Moving commutes with declaring the parameters. -/
@[simp] theorem parameters_moved (params : List Token) :
    (w.moved move k).parameters (params.map (Token.moved move)) =
      (w.parameters params).moved move k := by
  unfold parameters
  induction params generalizing w with
  | nil => rfl
  | cons name params ih =>
    simp only [List.map_cons, List.foldl_cons, declare_moved, define_moved, ih]

/-- Moving commutes with resolving the superclasses. -/
@[simp] theorem superclasses_moved (name : Token) (xs : List Reference) :
    (w.moved move k).superclasses (name.moved move) (xs.map (movedReference move k)) =
      (w.superclasses name xs).moved move k := by
  have hlexeme (x : Reference) : (movedReference move k x).name.lexeme = x.name.lexeme := rfl
  have hname : (name.moved move).lexeme = name.lexeme := rfl
  unfold superclasses
  induction xs generalizing w with
  | nil => rfl
  | cons x xs ih =>
    rw [List.map_cons, List.foldl_cons, List.foldl_cons, ← ih, ← read_moved, hlexeme, hname,
      violate_movedReference]
    split <;> rfl

end Walk

/-- A moved function has the moved name. -/
theorem name_moved (ms : List Bool) (f : FunctionDecl) :
    (f.recast (.moved move k) ms).name = f.name.map (Token.moved move) := by
  cases f
  rfl

/-- Methods keep their names. -/
theorem ofMethod_moved (ms : List Bool) (f : FunctionDecl) :
    Body.ofMethod (f.recast (.moved move k) ms) = Body.ofMethod f := by
  obtain ⟨name, keyword, params, body⟩ := f
  cases name <;> rfl

mutual

/-- The walk over a moved expression is the moved walk. -/
@[simp] theorem walkExpr_moved (ctx : Context) (ms : List Bool) (e : Expr) (w : Walk) :
    walkExpr ctx (e.recast (.moved move k) ms) (w.moved move k) =
      (walkExpr ctx e w).moved move k := by
  cases e <;> simp only [Expr.recast, walkExpr, walkExpr_moved, walkExprs_moved, walkEntries_moved,
    walkFunction_moved, moved_reference, moved_keyword, Walk.read_moved, Walk.resolve_moved,
    Walk.violate_movedReference]
  all_goals split <;> rfl

/-- The walk over moved expressions is the moved walk. -/
@[simp] theorem walkExprs_moved (ctx : Context) (ms : List Bool) (es : List Expr) (w : Walk) :
    walkExprs ctx (recastExprs (.moved move k) ms es) (w.moved move k) =
      (walkExprs ctx es w).moved move k := by
  cases es <;> simp only [recastExprs, walkExprs, walkExpr_moved, walkExprs_moved]

/-- The walk over moved entries is the moved walk. -/
@[simp] theorem walkEntries_moved (ctx : Context) (ms : List Bool) (es : List Entry) (w : Walk) :
    walkEntries ctx (recastEntries (.moved move k) ms es) (w.moved move k) =
      (walkEntries ctx es w).moved move k := by
  obtain _ | ⟨⟨key, e⟩, es⟩ := es <;>
    simp only [recastEntries, walkEntries, walkExpr_moved, walkEntries_moved]

/-- The walk over a moved function is the moved walk. -/
@[simp] theorem walkFunction_moved (ctx : Context) (ms : List Bool) (f : FunctionDecl) (w : Walk) :
    walkFunction ctx (f.recast (.moved move k) ms) (w.moved move k) =
      (walkFunction ctx f w).moved move k := by
  obtain ⟨name, keyword, params, body⟩ := f
  simp only [FunctionDecl.recast, walkFunction, moved_declared, Walk.enter_moved,
    Walk.parameters_moved, walkStmts_moved, Walk.leave_moved]

/-- The walk over moved methods is the moved walk. -/
@[simp] theorem walkMethods_moved (ctx : Context) (ms : List Bool) (fs : List FunctionDecl)
    (w : Walk) : walkMethods ctx (recastMethods (.moved move k) ms fs) (w.moved move k) =
      (walkMethods ctx fs w).moved move k := by
  cases fs <;> simp only [recastMethods, walkMethods, ofMethod_moved, walkFunction_moved,
    walkMethods_moved]

/-- The walk over moved declarators is the moved walk. -/
@[simp] theorem walkDeclarators_moved (ctx : Context) (ms : List Bool) (ds : List Declarator)
    (w : Walk) : walkDeclarators ctx (recastDeclarators (.moved move k) ms ds) (w.moved move k) =
      (walkDeclarators ctx ds w).moved move k := by
  obtain _ | ⟨⟨name, _ | e⟩, ds⟩ := ds <;> simp only [recastDeclarators, walkDeclarators,
    moved_declared, Walk.declare_moved, walkExpr_moved, Walk.define_moved, walkDeclarators_moved]

/-- The walk over a moved class is the moved walk. -/
@[simp] theorem walkClass_moved (ctx : Context) (ms : List Bool) (c : ClassDecl) (w : Walk) :
    walkClass ctx (c.recast (.moved move k) ms) (w.moved move k) =
      (walkClass ctx c w).moved move k := by
  obtain ⟨name, supers, methods⟩ := c
  simp only [ClassDecl.recast, walkClass, moved_plain, moved_reference, Walk.declare_moved,
    Walk.define_moved, Walk.superclasses_moved, Walk.enter_moved, walkMethods_moved,
    Walk.leave_moved, List.isEmpty_map]
  split <;> rfl

/-- The walk over a moved statement is the moved walk. -/
@[simp] theorem walkStmt_moved (ctx : Context) (ms : List Bool) (s : Stmt) (w : Walk) :
    walkStmt ctx (s.recast (.moved move k) ms) (w.moved move k) =
      (walkStmt ctx s w).moved move k := by
  cases s with
  | branch c t e => cases e <;> simp only [Stmt.recast, walkStmt, walkExpr_moved, walkStmt_moved]
  | function f =>
    simp only [Stmt.recast, walkStmt, name_moved]
    cases f.name with
    | none => exact walkFunction_moved _ ms f w
    | some name =>
      simp only [Option.map_some, Walk.declare_moved, Walk.define_moved]
      exact walkFunction_moved _ ms f _
  | result keyword e =>
    cases e with
    | none =>
      simp only [Stmt.recast, walkStmt, moved_plain, Walk.violate_moved]
      split <;> rfl
    | some e =>
      simp only [Stmt.recast, walkStmt, moved_plain, Walk.violate_moved]
      split <;> exact walkExpr_moved ctx ms e _
  | _ => simp only [Stmt.recast, walkStmt, walkExpr_moved, walkStmt_moved, walkStmts_moved,
      walkDeclarators_moved, walkClass_moved, Walk.enter_moved, Walk.leave_moved]

/-- The walk over moved statements is the moved walk. -/
@[simp] theorem walkStmts_moved (ctx : Context) (ms : List Bool) (ss : List Stmt) (w : Walk) :
    walkStmts ctx (recastStmts (.moved move k) ms ss) (w.moved move k) =
      (walkStmts ctx ss w).moved move k := by
  cases ss <;> simp only [recastStmts, walkStmts, walkStmt_moved, walkStmts_moved]

end

/-- Scoping finds the same in a program whose tokens stand elsewhere and whose references have other
numbers. -/
theorem resolve_moved (ms : List Bool) (ss : List Stmt) :
    resolve {} (recastStmts (.moved move k) ms ss) =
      ((resolve {} ss).1.renumber (k + ·), (resolve {} ss).2.map (Violation.moved move)) := by
  unfold resolve
  have hwalk := walkStmts_moved move k {} ms ss {}
  rw [show Walk.moved move k {} = {} from rfl] at hwalk
  rw [hwalk]
  rfl

end Lox.Scoping

namespace Lox

/-! ## Closures

Whether a program can make a function or class does not change when it is recast. -/

variable (A : Recasting) (ms : List Bool)

mutual

/-- A recast expression creates a closure if the expression does. -/
theorem Expr.createsClosure_recast (e : Expr) :
    (e.recast A ms).createsClosure = e.createsClosure := by
  cases e <;> simp only [Expr.recast, Expr.createsClosure, Expr.createsClosure_recast,
    exprsCreateClosure_recast, entriesCreateClosure_recast]

/-- Recast expressions create a closure if the expressions do. -/
theorem exprsCreateClosure_recast (es : List Expr) :
    exprsCreateClosure (recastExprs A ms es) = exprsCreateClosure es := by
  cases es <;> simp only [recastExprs, exprsCreateClosure, Expr.createsClosure_recast,
    exprsCreateClosure_recast]

/-- Recast entries create a closure if the entries do. -/
theorem entriesCreateClosure_recast (es : List Entry) :
    entriesCreateClosure (recastEntries A ms es) = entriesCreateClosure es := by
  obtain _ | ⟨⟨key, e⟩, es⟩ := es <;> simp only [recastEntries, entriesCreateClosure,
    Expr.createsClosure_recast, entriesCreateClosure_recast]

end

/-- Recast declarators create a closure if the declarators do. -/
theorem any_createsClosure_recastDeclarators (ds : List Declarator) :
    (recastDeclarators A ms ds).any Declarator.createsClosure =
      ds.any Declarator.createsClosure := by
  induction ds with
  | nil => rfl
  | cons d ds ih =>
    obtain ⟨name, _ | e⟩ := d
    · simpa [recastDeclarators, Declarator.createsClosure] using ih
    · simp [recastDeclarators, Declarator.createsClosure, Expr.createsClosure_recast, ih]

mutual

/-- A recast statement creates a closure if the statement does. -/
theorem Stmt.createsClosure_recast (ms : List Bool) (s : Stmt) :
    (s.recast A ms).createsClosure = s.createsClosure := by
  cases s with
  | branch c t e => cases e <;> simp only [Stmt.recast, Stmt.createsClosure,
      Expr.createsClosure_recast, Stmt.createsClosure_recast]
  | result keyword e => cases e <;> simp [Stmt.recast, Stmt.createsClosure,
      Expr.createsClosure_recast]
  | _ => simp only [Stmt.recast, Stmt.createsClosure, Expr.createsClosure_recast,
      Stmt.createsClosure_recast, stmtsCreateClosure_recast, any_createsClosure_recastDeclarators]

/-- Recast statements create a closure if the statements do. -/
theorem stmtsCreateClosure_recast (ms : List Bool) (ss : List Stmt) :
    stmtsCreateClosure (recastStmts A ms ss) = stmtsCreateClosure ss := by
  cases ss <;> simp only [recastStmts, stmtsCreateClosure, Stmt.createsClosure_recast,
    stmtsCreateClosure_recast]

end

end Lox

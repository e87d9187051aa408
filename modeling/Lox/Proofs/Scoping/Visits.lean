import Lox.Scoping
import Mathlib.Logic.Relation

/-!
# Visits

The walk of `Lox.Scoping` goes through a program piece by piece. A `Visit` is one moment of it: a
piece, what surrounds it, how far the walk has come, and the constructs that opened the scopes that
are open. `Visit.parts` lists the visits that a visit makes in turn, and `Visit.after` is the walk
at its end. What is proved here of all visits goes by induction on the parts: a visit leaves the
scopes around the innermost one alone, and it notes distances for its own references only.
-/

namespace Lox.Scoping

/-- What opens a scope, and makes a frame when the program runs. -/
inductive Construct where
  /-- A block. -/
  | block (body : List Stmt)
  /-- The call of a function. -/
  | call (f : FunctionDecl)
  /-- The binding of `this` for a method of a class. -/
  | receiver (c : ClassDecl)
  /-- The declaration of a class that inherits. -/
  | inheritance (c : ClassDecl)

/-- A piece of a program. -/
inductive Piece where
  /-- An expression. -/
  | expr (e : Expr)
  /-- Expressions in order. -/
  | exprs (es : List Expr)
  /-- Entries of an object expression in order. -/
  | entries (es : List Entry)
  /-- A function. -/
  | function (f : FunctionDecl)
  /-- Methods in order. -/
  | methods (fs : List FunctionDecl)
  /-- Declared variables in order. -/
  | declarators (ds : List Declarator)
  /-- The superclasses of a class of some name. -/
  | superclasses (name : Token) (xs : List Reference)
  /-- One superclass. -/
  | superclass (x : Reference)
  /-- A class. -/
  | class (c : ClassDecl)
  /-- A statement. -/
  | stmt (s : Stmt)
  /-- Statements in order. -/
  | stmts (ss : List Stmt)

/-- A moment of the walk: a piece that it comes to. -/
structure Visit where
  /-- What surrounds the piece. -/
  ctx : Context
  /-- The piece. -/
  piece : Piece
  /-- How far the walk has come. -/
  walk : Walk
  /-- What opened the open scopes, the innermost first. -/
  around : List Construct

namespace Visit

/-- The walk at the end of a visit. -/
def after (v : Visit) : Walk :=
  match v.piece with
  | .expr e => walkExpr v.ctx e v.walk
  | .exprs es => walkExprs v.ctx es v.walk
  | .entries es => walkEntries v.ctx es v.walk
  | .function f => walkFunction v.ctx f v.walk
  | .methods fs => walkMethods v.ctx fs v.walk
  | .declarators ds => walkDeclarators v.ctx ds v.walk
  | .superclasses name xs => v.walk.superclasses name xs
  | .superclass x => v.walk.read x
  | .class c => walkClass v.ctx c v.walk
  | .stmt s => walkStmt v.ctx s v.walk
  | .stmts ss => walkStmts v.ctx ss v.walk

/-- The visit of another piece, with what surrounds it unchanged. -/
def onto (v : Visit) (piece : Piece) (walk : Walk) : Visit :=
  { v with piece := piece, walk := walk }

/-- The visit of a function, whose kind is given. -/
def toFunction (v : Visit) (body : Body) (f : FunctionDecl) (walk : Walk) : Visit :=
  { v with ctx.body := body, piece := .function f, walk := walk }

/-- The walk after the name of a declaration was declared and defined. -/
def named (v : Visit) (name : Token) : Walk :=
  (v.walk.declare name).define name

/-- The walk after a class was found to inherit from itself, if it does. -/
def notOwn (v : Visit) (name : Token) (x : Reference) : Walk :=
  if x.name.lexeme = name.lexeme then v.walk.violate x.name .ownSuperclass else v.walk

/-- The visits that the visit of an expression makes. -/
def exprParts (v : Visit) : Expr → List Visit
  | .literal _ | .reference _ | .this _ | .super _ _ => []
  | .grouping e | .unary _ e | .assign _ e | .get e _ => [v.onto (.expr e) v.walk]
  | .binary l _ r | .logical l _ r | .index l _ r =>
    [v.onto (.expr l) v.walk, v.onto (.expr r) (walkExpr v.ctx l v.walk)]
  | .call f _ es => [v.onto (.expr f) v.walk, v.onto (.exprs es) (walkExpr v.ctx f v.walk)]
  | .set o _ e => [v.onto (.expr e) v.walk, v.onto (.expr o) (walkExpr v.ctx e v.walk)]
  | .setIndex o _ k e =>
    [v.onto (.expr o) v.walk, v.onto (.expr k) (walkExpr v.ctx o v.walk),
      v.onto (.expr e) (walkExpr v.ctx k (walkExpr v.ctx o v.walk))]
  | .function f => [v.toFunction .function f v.walk]
  | .array _ es => [v.onto (.exprs es) v.walk]
  | .object _ es => [v.onto (.entries es) v.walk]

/-- The visit of the methods of a class, within the scopes of the class. -/
def toMethods (v : Visit) (c : ClassDecl) : Visit :=
  let w := (v.named c.name).superclasses c.name c.superclasses
  if c.superclasses.isEmpty then
    { ctx := { v.ctx with home := .base }
      piece := .methods c.methods
      walk := w.enter [("this", true)]
      around := .receiver c :: v.around }
  else
    { ctx := { v.ctx with home := .derived }
      piece := .methods c.methods
      walk := (w.enter [("super", true)]).enter [("this", true)]
      around := .receiver c :: .inheritance c :: v.around }

/-- The visits that the visit of a statement makes. -/
def stmtParts (v : Visit) : Stmt → List Visit
  | .expression e | .print e => [v.onto (.expr e) v.walk]
  | .declare ds => [v.onto (.declarators ds) v.walk]
  | .block ss => [{ v with
      piece := .stmts ss, walk := v.walk.enter [], around := .block ss :: v.around }]
  | .branch c t none => [v.onto (.expr c) v.walk, v.onto (.stmt t) (walkExpr v.ctx c v.walk)]
  | .branch c t (some e) =>
    [v.onto (.expr c) v.walk, v.onto (.stmt t) (walkExpr v.ctx c v.walk),
      v.onto (.stmt e) (walkStmt v.ctx t (walkExpr v.ctx c v.walk))]
  | .loop c s => [v.onto (.expr c) v.walk, v.onto (.stmt s) (walkExpr v.ctx c v.walk)]
  | .function f => [v.toFunction .function f (match f.name with
      | some name => v.named name
      | none => v.walk)]
  | .result _ none => []
  | .result keyword (some e) => [v.onto (.expr e) (match v.ctx.body with
      | .none => v.walk.violate keyword .resultAtTop
      | .initializer => v.walk.violate keyword .resultOfInitializer
      | .function => v.walk)]
  | .class c => [v.onto (.class c) v.walk]

/-- The visits that a visit makes, in order. -/
def parts (v : Visit) : List Visit :=
  match v.piece with
  | .expr e => v.exprParts e
  | .exprs [] => []
  | .exprs (e :: es) => [v.onto (.expr e) v.walk, v.onto (.exprs es) (walkExpr v.ctx e v.walk)]
  | .entries [] => []
  | .entries (⟨_, e⟩ :: es) =>
    [v.onto (.expr e) v.walk, v.onto (.entries es) (walkExpr v.ctx e v.walk)]
  | .function f => [{ v with
      piece := .stmts f.body
      walk := (v.walk.enter []).parameters f.params
      around := .call f :: v.around }]
  | .methods [] => []
  | .methods (f :: fs) =>
    [v.toFunction (.ofMethod f) f v.walk,
      v.onto (.methods fs) (walkFunction { v.ctx with body := .ofMethod f } f v.walk)]
  | .declarators [] => []
  | .declarators (⟨name, none⟩ :: ds) => [v.onto (.declarators ds) (v.named name)]
  | .declarators (⟨name, some e⟩ :: ds) =>
    [v.onto (.expr e) (v.walk.declare name),
      v.onto (.declarators ds) ((walkExpr v.ctx e (v.walk.declare name)).define name)]
  | .superclasses _ [] => []
  | .superclasses name (x :: xs) =>
    [v.onto (.superclass x) (v.notOwn name x),
      v.onto (.superclasses name xs) ((v.notOwn name x).read x)]
  | .superclass _ => []
  | .class c => [v.onto (.superclasses c.name c.superclasses) (v.named c.name), v.toMethods c]
  | .stmt s => v.stmtParts s
  | .stmts [] => []
  | .stmts (s :: ss) => [v.onto (.stmt s) v.walk, v.onto (.stmts ss) (walkStmt v.ctx s v.walk)]

/-- The reference that a visit itself resolves, after its parts. -/
def own? (v : Visit) : Option Reference :=
  match v.piece with
  | .expr (.reference x) | .expr (.assign x _) | .expr (.this x) | .expr (.super x _) => some x
  | .superclass x => some x
  | _ => none

/-- The part that is visited next. -/
@[simp] theorem onto_piece (v : Visit) (piece : Piece) (w : Walk) :
    (v.onto piece w).piece = piece := rfl
/-- The walk that goes on with a part. -/
@[simp] theorem onto_walk (v : Visit) (piece : Piece) (w : Walk) : (v.onto piece w).walk = w := rfl
/-- A part is visited in the same context. -/
@[simp] theorem onto_ctx (v : Visit) (piece : Piece) (w : Walk) :
    (v.onto piece w).ctx = v.ctx := rfl
/-- A part has the same surroundings. -/
@[simp] theorem onto_around (v : Visit) (piece : Piece) (w : Walk) :
    (v.onto piece w).around = v.around := rfl

/-- The function that is visited next. -/
@[simp] theorem toFunction_piece (v : Visit) (body : Body) (f : FunctionDecl) (w : Walk) :
    (v.toFunction body f w).piece = .function f := rfl
/-- The walk that goes on with a function. -/
@[simp] theorem toFunction_walk (v : Visit) (body : Body) (f : FunctionDecl) (w : Walk) :
    (v.toFunction body f w).walk = w := rfl

/-- The methods that are visited next. -/
@[simp] theorem toMethods_piece (v : Visit) (c : ClassDecl) :
    (v.toMethods c).piece = .methods c.methods := by
  unfold toMethods
  split <;> rfl

/-- The parts of a visit are visits of smaller pieces. -/
theorem sizeOf_parts (v : Visit) : ∀ p ∈ v.parts, sizeOf p.piece < sizeOf v.piece := by
  obtain ⟨ctx, piece, w, around⟩ := v
  cases piece with
  | expr e => cases e <;> simp [parts, exprParts] <;> omega
  | exprs es =>
    cases es with
    | nil => simp [parts]
    | cons e es =>
      simp [parts]
      omega
  | entries es =>
    obtain _ | ⟨⟨key, e⟩, es⟩ := es
    · simp [parts]
    · simp [parts]
      omega
  | function f =>
    obtain ⟨name, keyword, params, body⟩ := f
    simp only [parts, List.forall_mem_singleton]
    simp only [Piece.stmts.sizeOf_spec, Piece.function.sizeOf_spec, FunctionDecl.mk.sizeOf_spec]
    omega
  | methods fs =>
    cases fs with
    | nil => simp [parts]
    | cons f fs =>
      simp [parts]
      omega
  | declarators ds =>
    obtain _ | ⟨⟨name, _ | e⟩, ds⟩ := ds
    · simp [parts]
    · simp only [parts, List.forall_mem_singleton]
      simp only [onto, Piece.declarators.sizeOf_spec, List.cons.sizeOf_spec]
      omega
    · simp [parts]
      omega
  | superclasses name xs =>
    cases xs with
    | nil => simp [parts]
    | cons x xs =>
      simp [parts]
      omega
  | superclass x => simp [parts]
  | «class» c =>
    obtain ⟨name, supers, methods⟩ := c
    simp [parts]
    omega
  | stmt s =>
    cases s with
    | branch c t e => cases e <;> simp [parts, stmtParts] <;> omega
    | result keyword e =>
      cases e with
      | none => simp [parts, stmtParts]
      | some e =>
        simp [parts, stmtParts]
        omega
    | _ => simp [parts, stmtParts] <;> omega
  | stmts ss =>
    cases ss with
    | nil => simp [parts]
    | cons s ss =>
      simp [parts]
      omega

/-- What holds of a visit if it holds of its parts holds of every visit. -/
theorem induction {P : Visit → Prop} (step : ∀ v, (∀ p ∈ v.parts, P p) → P v) (v : Visit) : P v :=
  step v fun p _ => induction step p
termination_by sizeOf v.piece
decreasing_by exact v.sizeOf_parts p ‹_›

/-- The numbers of the references in a piece. -/
def ids (v : Visit) : List Nat :=
  (v.own?.map Reference.id).toList ++ v.parts.attach.flatMap fun p => ids p.1
termination_by sizeOf v.piece
decreasing_by exact v.sizeOf_parts p.1 p.2

/-- The numbers in a piece are its own one and those in its parts. -/
theorem ids_eq (v : Visit) :
    v.ids = (v.own?.map Reference.id).toList ++ v.parts.flatMap ids := by
  rw [ids, List.flatMap_subtype (g := ids) (by intros; rfl), List.unattach_attach]

/-- Whether a visit is made within another one, or is that one. -/
def Within (v' v : Visit) : Prop :=
  Relation.ReflTransGen (fun a b => b ∈ a.parts) v v'

/-! ## Scopes -/

end Visit

/-- The scopes around the innermost one are the same. -/
def Walk.SameOuter (w w' : Walk) : Prop :=
  w'.scopes.tail = w.scopes.tail ∧ w'.scopes.length = w.scopes.length

namespace Walk

variable {w w' w'' : Walk}

/-- Keeping the outer scopes is transitive. -/
theorem SameOuter.trans (h : SameOuter w w') (h' : SameOuter w' w'') : SameOuter w w'' :=
  ⟨h'.1.trans h.1, h'.2.trans h.2⟩

/-- What keeps all scopes keeps the outer ones. -/
theorem SameOuter.of_eq (h : w'.scopes = w.scopes) : SameOuter w w' :=
  ⟨congrArg _ h, congrArg _ h⟩

/-- A violation changes no scope. -/
@[simp] theorem violate_scopes (w : Walk) (t : Token) (rule : Rule) :
    (w.violate t rule).scopes = w.scopes := rfl

/-- Entering puts a scope on top. -/
@[simp] theorem enter_scopes (w : Walk) (scope : Scope) :
    (w.enter scope).scopes = scope :: w.scopes := rfl

/-- Leaving takes the top scope off. -/
@[simp] theorem leave_scopes (w : Walk) : w.leave.scopes = w.scopes.tail := rfl

/-- Resolving changes no scope. -/
@[simp] theorem resolve_scopes (w : Walk) (x : Reference) : (w.resolve x).scopes = w.scopes := by
  unfold resolve
  split <;> rfl

/-- Resolving violates no rule. -/
theorem resolve_violations (w : Walk) (x : Reference) :
    (w.resolve x).violations = w.violations := by
  unfold resolve
  split <;> rfl

/-- Reading changes no scope. -/
@[simp] theorem read_scopes (w : Walk) (x : Reference) : (w.read x).scopes = w.scopes := by
  unfold read
  dsimp only
  rw [resolve_scopes]
  split <;> rfl

/-- Declaring changes the top scope only. -/
theorem sameOuter_declare (w : Walk) (name : Token) : SameOuter w (w.declare name) := by
  unfold declare
  split
  · exact .of_eq rfl
  · next hscopes =>
    split
    · exact .of_eq rfl
    · simp [SameOuter, hscopes]

/-- Defining changes the top scope only. -/
theorem sameOuter_define (w : Walk) (name : Token) : SameOuter w (w.define name) := by
  unfold define
  split
  · exact .of_eq rfl
  · next hscopes => simp [SameOuter, hscopes]

/-- Declaring parameters changes the top scope only. -/
theorem sameOuter_parameters (w : Walk) (params : List Token) :
    SameOuter w (w.parameters params) := by
  induction params generalizing w with
  | nil => exact .of_eq rfl
  | cons name params ih =>
    exact ((sameOuter_declare w name).trans (sameOuter_define _ name)).trans (ih _)

/-- A scope that is opened is closed again. -/
theorem leave_scopes_of_sameOuter {scope : Scope} (h : SameOuter (w.enter scope) w') :
    w'.leave.scopes = w.scopes :=
  h.1

end Walk

/-- Whether a piece declares no name in the scope around it. -/
def Piece.keepsScopes : Piece → Bool
  | .declarators _ | .class _ | .stmt _ | .stmts _ => false
  | _ => true

namespace Visit

open Walk

/-- Declaring and defining a name changes the top scope only. -/
theorem sameOuter_named (v : Visit) (name : Token) : SameOuter v.walk (v.named name) :=
  (sameOuter_declare _ name).trans (sameOuter_define _ name)

/-- Checking a superclass against its class changes no scope. -/
@[simp] theorem notOwn_scopes (v : Visit) (name : Token) (x : Reference) :
    (v.notOwn name x).scopes = v.walk.scopes := by
  unfold notOwn
  split <;> rfl

/-- The scopes that a class opens for its methods are closed at its end. -/
theorem after_class (v : Visit) (c : ClassDecl) :
    (v.onto (.class c) v.walk).after =
      if c.superclasses.isEmpty then (v.toMethods c).after.leave
      else (v.toMethods c).after.leave.leave := by
  obtain ⟨name, supers, methods⟩ := c
  cases supers <;> rfl

/-- The scopes around the methods of a class. -/
theorem toMethods_scopes (v : Visit) (c : ClassDecl) :
    (v.toMethods c).walk.scopes =
      if c.superclasses.isEmpty then
        [("this", true)] :: ((v.named c.name).superclasses c.name c.superclasses).scopes
      else
        [("this", true)] :: [("super", true)] ::
          ((v.named c.name).superclasses c.name c.superclasses).scopes := by
  unfold toMethods
  split <;> rfl

/-- A visit leaves the scopes around the innermost one alone, and that one too unless its piece
declares a name. -/
theorem scopes_after (v : Visit) :
    SameOuter v.walk v.after ∧ (v.piece.keepsScopes → v.after.scopes = v.walk.scopes) := by
  induction v using induction with
  | step v ih =>
  -- For each piece one of the two is shown: that all scopes are kept, or that the outer ones are.
  suffices h : if v.piece.keepsScopes then v.after.scopes = v.walk.scopes
      else SameOuter v.walk v.after by
    split at h
    · exact ⟨.of_eq h, fun _ => h⟩
    · next hkeeps => exact ⟨h, fun hk => absurd hk hkeeps⟩
  obtain ⟨ctx, piece, w, around⟩ := v
  cases piece with
  | expr e =>
    cases e <;> simp_all [parts, exprParts, after, walkExpr, Piece.keepsScopes, onto, toFunction]
    all_goals split <;> simp
  | exprs es => cases es <;> simp_all [parts, after, walkExprs, Piece.keepsScopes]
  | entries es =>
    obtain _ | ⟨⟨key, e⟩, es⟩ := es <;> simp_all [parts, after, walkEntries, Piece.keepsScopes]
  | function f =>
    obtain ⟨name, keyword, params, body⟩ := f
    simp only [parts, List.forall_mem_cons] at ih
    -- The scope of the parameters and the body is closed at the end.
    exact leave_scopes_of_sameOuter ((sameOuter_parameters (w.enter []) params).trans ih.1.1)
  | methods fs => cases fs <;> simp_all [parts, after, walkMethods, Piece.keepsScopes, toFunction]
  | declarators ds =>
    obtain _ | ⟨⟨name, _ | e⟩, ds⟩ := ds <;> simp only [parts, List.forall_mem_cons] at ih
    · exact .of_eq rfl
    · exact (sameOuter_named _ name).trans ih.1.1
    · obtain ⟨⟨he, _⟩, ⟨hds, _⟩, _⟩ := ih
      exact ((sameOuter_declare w name).trans he).trans ((sameOuter_define _ name).trans hds)
  | superclasses name xs =>
    obtain _ | ⟨x, xs⟩ := xs <;> simp only [parts, List.forall_mem_cons] at ih
    · rfl
    · exact (ih.2.1.2 rfl).trans (by simp)
  | superclass x => exact read_scopes w x
  | «class» c =>
    simp only [parts, List.forall_mem_cons] at ih
    obtain ⟨⟨hsupers, _⟩, ⟨_, hmethods⟩, _⟩ := ih
    -- The scopes around the methods are closed again, so only the name of the class is new.
    refine (sameOuter_named _ c.name).trans (hsupers.trans (.of_eq ?_))
    have hscopes := (hmethods (by simp [Piece.keepsScopes])).trans (toMethods_scopes _ c)
    refine (congrArg Walk.scopes (after_class ⟨ctx, .class c, w, around⟩ c)).trans ?_
    split <;> simp_all [after]
  | stmt s =>
    cases s with
    | block ss =>
      simp only [parts, stmtParts, List.forall_mem_cons] at ih
      exact .of_eq (leave_scopes_of_sameOuter ih.1.1)
    | branch c t e =>
      cases e <;> simp only [parts, stmtParts, List.forall_mem_cons] at ih
      · exact ih.1.1.trans ih.2.1.1
      · exact ih.1.1.trans (ih.2.1.1.trans ih.2.2.1.1)
    | loop c s =>
      simp only [parts, stmtParts, List.forall_mem_cons] at ih
      exact ih.1.1.trans ih.2.1.1
    | function f =>
      simp only [parts, stmtParts, List.forall_mem_cons] at ih
      refine SameOuter.trans ?_ ih.1.1
      simp only [toFunction_walk]
      split
      · exact sameOuter_named _ _
      · exact .of_eq rfl
    | result keyword e =>
      cases e <;> simp only [parts, stmtParts, List.forall_mem_cons] at ih
      · refine .of_eq ?_
        simp only [after, walkStmt]
        split <;> rfl
      · refine SameOuter.trans (.of_eq ?_) ih.1.1
        simp only [onto_walk]
        split <;> rfl
    | _ =>
      simp only [parts, stmtParts, List.forall_mem_cons] at ih
      exact ih.1.1
  | stmts ss =>
    obtain _ | ⟨s, ss⟩ := ss <;> simp only [parts, List.forall_mem_cons] at ih
    · exact .of_eq rfl
    · exact ih.1.1.trans ih.2.1.1

end Visit

section Scopes

variable (ctx : Context) (w : Walk)

/-- An expression leaves the scopes as they were. -/
@[simp] theorem walkExpr_scopes (e : Expr) : (walkExpr ctx e w).scopes = w.scopes :=
  (Visit.scopes_after ⟨ctx, .expr e, w, []⟩).2 rfl

/-- Expressions leave the scopes as they were. -/
@[simp] theorem walkExprs_scopes (es : List Expr) : (walkExprs ctx es w).scopes = w.scopes :=
  (Visit.scopes_after ⟨ctx, .exprs es, w, []⟩).2 rfl

/-- Entries leave the scopes as they were. -/
@[simp] theorem walkEntries_scopes (es : List Entry) : (walkEntries ctx es w).scopes = w.scopes :=
  (Visit.scopes_after ⟨ctx, .entries es, w, []⟩).2 rfl

/-- A function leaves the scopes as they were. -/
@[simp] theorem walkFunction_scopes (f : FunctionDecl) :
    (walkFunction ctx f w).scopes = w.scopes :=
  (Visit.scopes_after ⟨ctx, .function f, w, []⟩).2 rfl

/-- Superclasses leave the scopes as they were. -/
@[simp] theorem superclasses_scopes (name : Token) (xs : List Reference) :
    (w.superclasses name xs).scopes = w.scopes :=
  (Visit.scopes_after ⟨{}, .superclasses name xs, w, []⟩).2 rfl

end Scopes

/-- A class declares its name in the scope around it and nothing else. -/
theorem Visit.scopes_after_class (v : Visit) (c : ClassDecl) :
    (v.onto (.class c) v.walk).after.scopes = (v.named c.name).scopes := by
  have hmethods := ((v.toMethods c).scopes_after.2 (by simp [Piece.keepsScopes])).trans
    (v.toMethods_scopes c)
  rw [v.after_class c]
  split <;> simp_all

/-- The methods of a class are visited within the scopes of the class. -/
theorem Visit.exists_method {P : Visit → Prop} (hP : ∀ v, P v → ∀ p ∈ v.parts, P p) {v : Visit}
    (hv : P v) {fs : List FunctionDecl} (hpiece : v.piece = .methods fs) {f : FunctionDecl}
    (hf : f ∈ fs) :
    ∃ p, P p ∧ p.piece = .function f ∧ p.walk.scopes = v.walk.scopes ∧ p.around = v.around := by
  obtain ⟨ctx, piece, w, around⟩ := v
  obtain rfl : piece = .methods fs := hpiece
  induction fs generalizing w with
  | nil => contradiction
  | cons g fs ih =>
    obtain rfl | hf := List.mem_cons.mp hf
    · exact ⟨_, hP _ hv _ List.mem_cons_self, rfl, rfl, rfl⟩
    · have hrest := hP _ hv _ (List.mem_cons_of_mem _ List.mem_cons_self)
      obtain ⟨p, hp, hpiece, hscopes, haround⟩ := ih hf _ hrest
      exact ⟨p, hp, hpiece, hscopes.trans (walkFunction_scopes ..), haround⟩

end Lox.Scoping

namespace Lox

/-- Whether a statement declares no name in the scope around it. -/
def Stmt.isPlain : Stmt → Bool
  | .declare _ | .function _ | .class _ => false
  | _ => true

end Lox

namespace Lox.Scoping.Visit

/-- A property holds of a visit and of all visits within it. -/
def All (P : Visit → Prop) (v : Visit) : Prop :=
  ∀ v', Within v' v → P v'

section All

variable {P Q : Visit → Prop} {v p : Visit}

/-- What holds at all visits holds at the first. -/
theorem All.self (h : All P v) : P v :=
  h v .refl

/-- What holds at all visits holds at all visits of a part. -/
theorem All.part (h : All P v) (hp : p ∈ v.parts) : All P p :=
  fun v' hv' => h v' (.head hp hv')

/-- What holds at a visit and at all visits of its parts holds at all visits. -/
theorem All.mk (h : P v) (hparts : ∀ p ∈ v.parts, All P p) : All P v := by
  intro v' hv'
  obtain rfl | ⟨p, hp, hv'⟩ := hv'.cases_head
  · exact h
  · exact hparts p hp v' hv'

/-- What holds at all visits may be weakened. -/
theorem All.imp (h : All P v) (hPQ : ∀ v, P v → Q v) : All Q v :=
  fun v' hv' => hPQ v' (h v' hv')

/-- A property that goes from a visit to its parts holds of all visits within it. -/
theorem All.of_closed (h : P v) (hclosed : ∀ v, P v → ∀ p ∈ v.parts, P p) : All P v := by
  intro v' hv'
  induction hv' with
  | refl => exact h
  | tail _ hp ih => exact hclosed _ ih _ hp

end All

/-- The body of a loop and the branches of a choice declare no names, and a function that is
declared has a name. -/
def Shapely (v : Visit) : Prop :=
  match v.piece with
  | .stmt (.branch _ t e) => t.isPlain ∧ ∀ s ∈ e, s.isPlain
  | .stmt (.loop _ s) => s.isPlain
  | .stmt (.function f) => f.name.isSome
  | _ => True

/-- A statement that declares no name leaves the scopes as they are. -/
theorem scopes_after_plain (v : Visit) (hv : All Shapely v) (s : Stmt) (hs : v.piece = .stmt s)
    (hplain : s.isPlain) : v.after.scopes = v.walk.scopes := by
  induction v using induction generalizing s with
  | step v ih =>
  obtain ⟨ctx, piece, w, around⟩ := v
  obtain rfl : piece = .stmt s := hs
  have hparts := fun p hp => ih p hp (hv.part hp)
  have hself := hv.self
  cases s with
  | expression e => exact walkExpr_scopes ctx w e
  | print e => exact walkExpr_scopes ctx w e
  | block ss =>
    have hinner := scopes_after ⟨ctx, .stmts ss, w.enter [], .block ss :: around⟩
    exact Walk.leave_scopes_of_sameOuter hinner.1
  -- Branches and bodies of loops have no scope of their own, so they must not declare names.
  | branch c t e =>
    cases e with
    | none =>
      simp only [parts, stmtParts, List.forall_mem_cons] at hparts
      exact (hparts.2.1 t rfl hself.1).trans (walkExpr_scopes ctx w c)
    | some e =>
      simp only [parts, stmtParts, List.forall_mem_cons] at hparts
      have ht := (hparts.2.1 t rfl hself.1).trans (walkExpr_scopes ctx w c)
      exact (hparts.2.2.1 e rfl (hself.2 e rfl)).trans ht
  | loop c s =>
    simp only [parts, stmtParts, List.forall_mem_cons] at hparts
    exact (hparts.2.1 s rfl hself).trans (walkExpr_scopes ctx w c)
  | result keyword e =>
    cases e with
    | none =>
      simp only [after, walkStmt]
      split <;> rfl
    | some e =>
      refine (walkExpr_scopes ctx _ e).trans ?_
      cases ctx.body <;> rfl
  | declare ds => contradiction
  | function f => contradiction
  | «class» c => contradiction

end Lox.Scoping.Visit

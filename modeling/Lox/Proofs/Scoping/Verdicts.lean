import Lox.Proofs.Scoping.Rules
import Lox.Proofs.Scoping.Visits
import Lox.Proofs.Session.Readings
import Mathlib.Data.List.Perm.Basic

/-!
# Scoping finds what violates the rules

The walk through a program keeps scopes and a context, and it comes upon violations in some order.
Up to that order it finds what violates the rules of `Lox.Proofs.Scoping.Rules`, each of them once,
and nothing else. `Walk.Finds` says so of a stretch of the walk that declares nothing: what it finds
beside the violations of its piece are reads of a variable that has no initial value yet.
`Walk.Adds` says so of one that declares names in the innermost scope: their violations depend on
the names before.
-/

namespace Lox

open Scoping

/-! ## What is around a place -/

namespace Surrounding

/-- The context of a place, given what is around it. -/
def context (around : List Surrounding) : Context where
  body := match nearestFunction? around with
    | none => .none
    | some (.method f) => .ofMethod f
    | some _ => .function
  home := match nearestClass? around with
    | none => .none
    | some c => if c.superclasses.isEmpty then .base else .derived

/-- Within a class the context has its home. -/
theorem context_class (around : List Surrounding) (c : ClassDecl) : context (.class c :: around) =
    { context around with home := if c.superclasses.isEmpty then .base else .derived } := rfl

end Surrounding

namespace Scoping

/-! ## Names before -/

/-- Only which names come before matters, not their order. -/
theorem scopeViolations_congr {before before' : List String}
    (h : ∀ name, name ∈ before' ↔ name ∈ before) (ds : List Declarator) :
    scopeViolations before' ds = scopeViolations before ds := by
  induction ds generalizing before before' with
  | nil => rfl
  | cons d ds ih =>
    have hnext : ∀ name, name ∈ d.name.lexeme :: before' ↔ name ∈ d.name.lexeme :: before := by
      simp [h]
    simp only [scopeViolations, h, ih hnext]

/-- The violations of more names are those of the first ones, and those of the others behind them.
-/
theorem scopeViolations_append (before : List String) (ds ds' : List Declarator) :
    scopeViolations before (ds ++ ds') = scopeViolations before ds ++
      scopeViolations ((ds.map fun d => d.name.lexeme) ++ before) ds' := by
  induction ds generalizing before with
  | nil => rfl
  | cons d ds ih =>
    have hcongr :
        scopeViolations (d.name.lexeme :: (ds.map (fun d => d.name.lexeme) ++ before)) ds' =
        scopeViolations (ds.map (fun d => d.name.lexeme) ++ d.name.lexeme :: before) ds' :=
      scopeViolations_congr (fun name => by simp [or_left_comm]) ds'
    simp only [List.cons_append, List.map_cons, scopeViolations, ih, List.append_assoc, hcongr]

/-- All variables of a scope have their initial values. -/
def Scope.Ready (scope : Scope) : Prop :=
  ∀ name, scope.lookup name ≠ some false

/-- A scope is ready after a name is defined. -/
theorem Scope.Ready.define {scope : Scope} (h : scope.Ready) (name : String) :
    Scope.Ready ((name, true) :: scope) := by
  intro other
  by_cases heq : other = name
  · simp [heq]
  · simpa [List.lookup_cons, beq_false_of_ne heq] using h other

namespace Walk

/-- Whether a variable is declared in the innermost scope and has no initial value yet. -/
def unready (w : Walk) (t : Token) : Bool :=
  w.scopes.head?.any fun scope => scope.lookup t.lexeme == some false

/-- The violations of reading variables that have no initial value yet. -/
def unreadyReads (w : Walk) (ts : List Token) : List Violation :=
  (ts.filter w.unready).map fun t => ⟨t, .ownInitializer⟩

/-- The violations of names that are declared in the innermost scope, if one is open. -/
def scopeViolations (w : Walk) (ds : List Declarator) : List Violation :=
  match w.scopes with
  | [] => []
  | scope :: _ => Scoping.scopeViolations (scope.map Prod.fst) ds

/-- All variables of the innermost scope have their initial values. -/
def Ready (w : Walk) : Prop :=
  ∀ scope ∈ w.scopes.head?, scope.Ready

/-- Violations that are found in two stretches of a walk, each with a part for the piece and a part
for the scope around it. -/
theorem perm_append {start first second found found' inside inside' : List Violation}
    (h : first.Perm (start ++ (found ++ inside)))
    (h' : second.Perm (first ++ (found' ++ inside'))) :
    second.Perm (start ++ ((found ++ found') ++ (inside ++ inside'))) := by
  -- Both sides put the same lists together, so every violation counts the same in them.
  refine h'.trans ((h.append_right _).trans (List.perm_iff_count.mpr fun v => ?_))
  simp only [List.count_append]
  omega

/-- Reads of more variables are found one after the other. -/
theorem unreadyReads_append (w : Walk) (ts ts' : List Token) :
    w.unreadyReads (ts ++ ts') = w.unreadyReads ts ++ w.unreadyReads ts' := by
  simp [unreadyReads]

/-- What is read too early depends on the scopes only. -/
theorem unreadyReads_congr {w w' : Walk} (h : w'.scopes = w.scopes) (ts : List Token) :
    w'.unreadyReads ts = w.unreadyReads ts := by
  have hunready : w'.unready = w.unready := by
    unfold unready
    rw [h]
  unfold unreadyReads
  rw [hunready]

/-- Where all variables have their initial values, reading one is no violation. -/
theorem Ready.unreadyReads {w : Walk} (h : w.Ready) (ts : List Token) : w.unreadyReads ts = [] := by
  have hnone : ∀ t ∈ ts, ¬w.unready t := by
    intro t _
    unfold unready
    cases hhead : w.scopes.head? with
    | none => simp
    | some scope => simpa using h scope hhead t.lexeme
  unfold Walk.unreadyReads
  rw [List.filter_eq_nil_iff.mpr hnone]
  rfl

/-! ## Stretches that declare nothing -/

/-- Between two points of a walk nothing is declared, the given violations are found, and beside
them the given variables are read. -/
structure Finds (found : List Violation) (ts : List Token) (w w' : Walk) : Prop where
  /-- The scopes are the same. -/
  scopes : w'.scopes = w.scopes
  /-- What is found. -/
  violations : w'.violations.Perm (w.violations ++ (found ++ w.unreadyReads ts))

namespace Finds

variable {found found' : List Violation} {ts ts' : List Token} {w w' w'' : Walk}

/-- Nothing is found while scopes and violations stay. -/
theorem of_eq (hscopes : w'.scopes = w.scopes) (hviolations : w'.violations = w.violations) :
    Finds [] [] w w' :=
  ⟨hscopes, by rw [hviolations]; simp [unreadyReads]⟩

/-- Nothing is found in no stretch. -/
theorem refl (w : Walk) : Finds [] [] w w :=
  of_eq rfl rfl

/-- What two stretches find is put together. -/
theorem trans (h : Finds found ts w w') (h' : Finds found' ts' w' w'') :
    Finds (found ++ found') (ts ++ ts') w w'' where
  scopes := h'.scopes.trans h.scopes
  violations := by
    have hsecond := h'.violations
    rw [unreadyReads_congr h.scopes] at hsecond
    rw [unreadyReads_append]
    exact perm_append h.violations hsecond

/-- It does not matter which of two pieces comes first. -/
theorem swap (h : Finds (found ++ found') (ts ++ ts') w w') :
    Finds (found' ++ found) (ts' ++ ts) w w' where
  scopes := h.scopes
  violations := by
    refine h.violations.trans (List.Perm.append_left _ (.append List.perm_append_comm ?_))
    rw [unreadyReads_append, unreadyReads_append]
    exact List.perm_append_comm

/-- A violation is found where it is noted. -/
theorem violate (w : Walk) (t : Token) (rule : Rule) : Finds [⟨t, rule⟩] [] w (w.violate t rule) :=
  ⟨rfl, by simp [Walk.violate, unreadyReads]⟩

/-- Resolving finds nothing. -/
theorem resolve (w : Walk) (x : Reference) : Finds [] [] w (w.resolve x) :=
  of_eq (resolve_scopes w x) (resolve_violations w x)

/-- Reading a variable that has no initial value yet is a violation. -/
theorem read (w : Walk) (x : Reference) : Finds [] [x.name] w (w.read x) where
  scopes := read_scopes w x
  violations := by
    unfold Walk.read
    rw [resolve_violations]
    show (if w.unready x.name then w.violate x.name .ownInitializer else w).violations.Perm _
    cases hunready : w.unready x.name with
    | true => simp [Walk.violate, unreadyReads, hunready]
    | false => simp [unreadyReads, hunready]

/-- A stretch within a scope that is opened before and closed behind it. -/
theorem within {scope : Scope} (h : Finds found [] (w.enter scope) w') :
    Finds found [] w w'.leave where
  scopes := by rw [leave_scopes, h.scopes]; rfl
  violations := h.violations

end Finds

/-! ## Stretches that declare names -/

/-- Between two points of a walk the given names are declared in the innermost scope, if one is
open. -/
structure Grows (ds : List Declarator) (w w' : Walk) : Prop where
  /-- At the top level nothing is declared. -/
  top : w.scopes = [] → w'.scopes = []
  /-- The innermost scope gets the names. -/
  inner : ∀ scope outer, w.scopes = scope :: outer → ∃ scope', w'.scopes = scope' :: outer ∧
    (∀ name, name ∈ scope'.map Prod.fst ↔
      name ∈ ds.map (fun d => d.name.lexeme) ∨ name ∈ scope.map Prod.fst) ∧
    (scope.Ready → scope'.Ready)

/-- Between two points of a walk the given names are declared, and the given violations are found
beside those of the names. -/
structure Adds (found : List Violation) (ds : List Declarator) (w w' : Walk) : Prop where
  /-- The names. -/
  grows : w.Grows ds w'
  /-- What is found. -/
  violations : w.Ready → w'.violations.Perm (w.violations ++ (found ++ w.scopeViolations ds))

namespace Grows

variable {ds ds' : List Declarator} {w w' w'' : Walk}

/-- No names are added while the scopes stay. -/
theorem of_eq (h : w'.scopes = w.scopes) : Grows [] w w' where
  top hscopes := h.trans hscopes
  inner scope outer hscopes := ⟨scope, h.trans hscopes, by simp, id⟩

/-- What two stretches add is put together. -/
theorem trans (h : Grows ds w w') (h' : Grows ds' w' w'') : Grows (ds ++ ds') w w'' where
  top hscopes := h'.top (h.top hscopes)
  inner scope outer hscopes := by
    obtain ⟨scope', hscopes', hnames, hready⟩ := h.inner scope outer hscopes
    obtain ⟨scope'', hscopes'', hnames', hready'⟩ := h'.inner scope' outer hscopes'
    refine ⟨scope'', hscopes'', fun name => ?_, hready' ∘ hready⟩
    rw [hnames', hnames, List.map_append, List.mem_append, or_left_comm, or_assoc]

/-- Names that are added are ready. -/
theorem ready (h : Grows ds w w') (hw : w.Ready) : w'.Ready := by
  cases hscopes : w.scopes with
  | nil => simp [Ready, h.top hscopes]
  | cons scope outer =>
    obtain ⟨scope', hscopes', _, hready⟩ := h.inner scope outer hscopes
    have hscope : scope.Ready := hw scope (by rw [hscopes]; rfl)
    simpa [Ready, hscopes'] using hready hscope

/-- The violations of more names are those of the first ones, and those of the others behind them.
-/
theorem scopeViolations_append (h : Grows ds w w') (ds' : List Declarator) :
    w.scopeViolations (ds ++ ds') = w.scopeViolations ds ++ w'.scopeViolations ds' := by
  unfold Walk.scopeViolations
  cases hscopes : w.scopes with
  | nil => rw [h.top hscopes]; rfl
  | cons scope outer =>
    obtain ⟨scope', hscopes', hnames, _⟩ := h.inner scope outer hscopes
    rw [hscopes']
    dsimp only
    rw [Scoping.scopeViolations_append]
    refine congrArg _ (scopeViolations_congr (fun name => ?_) ds').symm
    rw [hnames, List.mem_append]

end Grows

namespace Adds

variable {found found' : List Violation} {ds ds' : List Declarator} {ts : List Token}
  {w w' w'' : Walk}

/-- A stretch that declares nothing adds no names. -/
theorem of_finds (h : Finds found ts w w') : Adds found [] w w' where
  grows := .of_eq h.scopes
  violations hready := by
    have hnone : w.scopeViolations [] = [] := by
      unfold Walk.scopeViolations
      split <;> rfl
    rw [hnone, ← hready.unreadyReads ts]
    exact h.violations

/-- What two stretches add and find is put together. -/
theorem trans (h : Adds found ds w w') (h' : Adds found' ds' w' w'') :
    Adds (found ++ found') (ds ++ ds') w w'' where
  grows := h.grows.trans h'.grows
  violations hready := by
    rw [h.grows.scopeViolations_append]
    exact perm_append (h.violations hready) (h'.violations (h.grows.ready hready))

/-- The body of a block or function is within a scope of its own. -/
theorem within (h : Adds found ds (w.enter []) w') :
    Finds (Scoping.scopeViolations [] ds ++ found) [] w w'.leave where
  scopes := by
    obtain ⟨scope', hscopes, _⟩ := h.grows.inner [] w.scopes rfl
    rw [leave_scopes, hscopes, List.tail_cons]
  violations := by
    have hready : (w.enter []).Ready := by simp [Ready, Scope.Ready]
    have hfound := h.violations hready
    refine hfound.trans (List.Perm.append_left _ ?_)
    show (found ++ Scoping.scopeViolations [] ds).Perm
      (Scoping.scopeViolations [] ds ++ found ++ [])
    rw [List.append_nil]
    exact List.perm_append_comm

/-- The innermost scope gets one name. -/
theorem grows_single {d : Declarator} {scope scope' : Scope} {outer : List Scope}
    (hscopes : w.scopes = scope :: outer) (hscopes' : w'.scopes = scope' :: outer)
    (hnames : ∀ name, name ∈ scope'.map Prod.fst ↔ name = d.name.lexeme ∨ name ∈ scope.map Prod.fst)
    (hready : scope.Ready → scope'.Ready) : Grows [d] w w' where
  top hnil := by simp [hscopes] at hnil
  inner scope₀ outer₀ hscopes₀ := by
    obtain ⟨rfl, rfl⟩ := List.cons.inj (hscopes.symm.trans hscopes₀)
    exact ⟨scope', hscopes', by simpa using hnames, hready⟩

/-- A name that is declared again stays as it was, and that is a violation. -/
theorem redeclare {d : Declarator} {scope : Scope} {outer : List Scope}
    (hscopes : w.scopes = scope :: outer) (hold : d.name.lexeme ∈ scope.map Prod.fst)
    (h : Finds found ts (w.violate d.name .redeclared) w') :
    Adds found [d] w (w'.define d.name) := by
  have hscopes' : w'.scopes = scope :: outer := h.scopes.trans hscopes
  have hdefine : w'.define d.name =
      { w' with scopes := ((d.name.lexeme, true) :: scope) :: outer } := by simp [define, hscopes']
  rw [hdefine]
  refine ⟨grows_single hscopes rfl (by simp) fun hready => hready.define _, fun hready => ?_⟩
  have hsame : w.scopeViolations [d] = [⟨d.name, .redeclared⟩] := by
    simp only [Walk.scopeViolations, hscopes, Scoping.scopeViolations, if_pos hold, List.append_nil]
  -- The name kept its entry, so nothing is read too early in the initial value.
  have hready' : (w.violate d.name .redeclared).Ready := hready
  have hviolations := h.violations
  rw [hready'.unreadyReads, List.append_nil] at hviolations
  rw [hsame]
  refine hviolations.trans ?_
  show (w.violations ++ [_] ++ found).Perm _
  rw [List.append_assoc]
  exact List.Perm.append_left _ List.perm_append_comm

/-- While the initial value of a variable is walked through, the variable itself is the one that has
none yet. -/
theorem unreadyReads_declare {d : Declarator} {scope : Scope} {outer : List Scope}
    (hready : scope.Ready) (hscopes : w.scopes = ((d.name.lexeme, false) :: scope) :: outer) :
    w.unreadyReads d.reads = ownReads d := by
  have hunready : ∀ t ∈ d.reads, w.unready t = decide (t.lexeme = d.name.lexeme) := by
    intro t _
    by_cases heq : t.lexeme = d.name.lexeme
    · simp [unready, hscopes, heq]
    · simpa [unready, hscopes, heq, List.lookup_cons, beq_false_of_ne heq] using hready t.lexeme
  unfold Walk.unreadyReads ownReads
  rw [List.filter_congr hunready]

/-- A new name is declared, its initial value is walked through, and the name is defined. -/
theorem declare {d : Declarator} {scope : Scope} {outer : List Scope}
    (hscopes : w.scopes = scope :: outer) (hnew : d.name.lexeme ∉ scope.map Prod.fst)
    (h : Finds found d.reads
      { w with scopes := ((d.name.lexeme, false) :: scope) :: outer } w') :
    Adds found [d] w (w'.define d.name) := by
  have hscopes' : w'.scopes = ((d.name.lexeme, false) :: scope) :: outer := h.scopes
  have hdefine : w'.define d.name =
      { w' with scopes := ((d.name.lexeme, true) :: (d.name.lexeme, false) :: scope) :: outer }
        := by
    simp [define, hscopes']
  rw [hdefine]
  refine ⟨grows_single hscopes rfl (by simp) fun hready name => ?_, fun hready => ?_⟩
  -- The new entry hides the one without a value.
  · by_cases heq : name = d.name.lexeme
    · simp [heq]
    · simpa [List.lookup_cons, beq_false_of_ne heq] using hready name
  · have hscope : scope.Ready := hready scope (by rw [hscopes]; rfl)
    have hown : w.scopeViolations [d] = ownReads d := by
      simp only [Walk.scopeViolations, hscopes, Scoping.scopeViolations, if_neg hnew,
        List.append_nil]
    have hreads : Walk.unreadyReads { w with scopes := ((d.name.lexeme, false) :: scope) :: outer }
        d.reads = ownReads d := unreadyReads_declare hscope rfl
    rw [hown, ← hreads]
    exact h.violations

/-- A name is declared, its initial value is walked through, and the name is defined. -/
theorem declarator (d : Declarator) (h : Finds found d.reads (w.declare d.name) w') :
    Adds found [d] w (w'.define d.name) := by
  cases hscopes : w.scopes with
  -- At the top level declaring and defining do nothing.
  | nil =>
    have hdeclare : w.declare d.name = w := by simp [Walk.declare, hscopes]
    rw [hdeclare] at h
    have hdefine : w'.define d.name = w' := by simp [define, h.scopes, hscopes]
    rw [hdefine]
    refine ⟨⟨fun _ => h.scopes.trans hscopes, by simp [hscopes]⟩, fun hready => ?_⟩
    have hnone : w.scopeViolations [d] = [] := by simp [Walk.scopeViolations, hscopes]
    rw [hnone, ← hready.unreadyReads d.reads]
    exact h.violations
  | cons scope outer =>
    by_cases hold : d.name.lexeme ∈ scope.map Prod.fst
    · have hdeclare : w.declare d.name = w.violate d.name .redeclared := by
        simp only [Walk.declare, hscopes]
        exact if_pos (by simpa using hold)
      exact redeclare hscopes hold (hdeclare ▸ h)
    · have hdeclare : w.declare d.name =
          { w with scopes := ((d.name.lexeme, false) :: scope) :: outer } := by
        simp only [Walk.declare, hscopes]
        exact if_neg (by simpa using hold)
      exact declare hscopes hold (hdeclare ▸ h)

/-- A name that has no initial value. -/
theorem named (w : Walk) (name : Token) : Adds [] [⟨name, none⟩] w ((w.declare name).define name) :=
  declarator ⟨name, none⟩ (.refl _)

/-- Parameters are added, each a name without an initial value. -/
theorem parameters (w : Walk) (params : List Token) :
    Adds [] (params.map fun name => ⟨name, none⟩) w (w.parameters params) := by
  induction params generalizing w with
  | nil => exact of_finds (.refl w)
  | cons name params ih => exact (named w name).trans (ih _)

end Adds

end Walk

/-! ## Visits -/

/-- What violates the rules in a piece, but for the names that it declares in the scope around it.
-/
def Piece.violations (around : List Surrounding) : Piece → List Violation
  | .expr e => e.violations around
  | .exprs es => violationsOfExprs around es
  | .entries es => violationsOfEntries around es
  | .function f => f.violations around
  | .methods fs => violationsOfMethods around fs
  | .declarators ds => violationsOfDeclarators around ds
  | .superclasses name xs => superclassViolations name xs
  | .superclass _ => []
  | .class c => c.violations around
  | .stmt s => s.violations around
  | .stmts ss => violationsOfStmts around ss

/-- The variables that a piece which declares nothing reads. -/
def Piece.reads : Piece → List Token
  | .expr e => e.reads
  | .exprs es => readsOfExprs es
  | .entries es => readsOfEntries es
  | .superclasses _ xs => xs.map Reference.name
  | .superclass x => [x.name]
  | _ => []

/-- The names that a piece declares in the scope around it. -/
def Piece.newNames : Piece → List Declarator
  | .declarators ds => ds
  | .class c => [⟨c.name, none⟩]
  | .stmt s => s.declarators
  | .stmts ss => ss.flatMap Stmt.declarators
  | _ => []

namespace Visit

/-- A visit finds what violates the rules in its piece. -/
def Judged (around : List Surrounding) (v : Visit) : Prop :=
  match v.piece.keepsScopes with
  | true => v.walk.Finds (v.piece.violations around) v.piece.reads v.after
  | false => v.walk.Adds (v.piece.violations around) v.piece.newNames v.after

/-- The parts of a visit are judged, whatever is around them. -/
def JudgedParts (v : Visit) : Prop :=
  ∀ p ∈ v.parts, ∀ around, p.ctx = Surrounding.context around → p.Judged around

variable {v : Visit} {around : List Surrounding}

open Walk Surrounding

/-- What is found at `this`. -/
theorem finds_this (w : Walk) (x : Reference) :
    w.Finds (thisViolations around x.name) [] (walkExpr (context around) (.this x) w) := by
  cases hclass : nearestClass? around with
  | none =>
    simpa [walkExpr, context, thisViolations, hclass] using Finds.violate w x.name .thisOutside
  | some c =>
    by_cases hsupers : c.superclasses.isEmpty <;>
      simpa [walkExpr, context, thisViolations, hclass, hsupers] using Finds.resolve w x

/-- What is found at `super`. -/
theorem finds_super (w : Walk) (x : Reference) (name : Token) :
    w.Finds (superViolations around x.name) [] (walkExpr (context around) (.super x name) w) := by
  cases hclass : nearestClass? around with
  | none =>
    simpa [walkExpr, context, superViolations, hclass] using Finds.violate w x.name .superOutside
  | some c =>
    by_cases hsupers : c.superclasses.isEmpty
    · simpa [walkExpr, context, superViolations, hclass, hsupers] using
        Finds.violate w x.name .superAlone
    · simpa [walkExpr, context, superViolations, hclass, hsupers] using Finds.resolve w x

/-- The verdict on an expression follows from those on its parts. -/
theorem judged_expr {e : Expr} (hpiece : v.piece = .expr e) (hctx : v.ctx = context around)
    (ih : v.JudgedParts) : v.Judged around := by
  obtain ⟨ctx, piece, w, outer⟩ := v
  obtain rfl : piece = .expr e := hpiece
  obtain rfl : ctx = context around := hctx
  unfold JudgedParts at ih
  simp only [Visit.parts] at ih
  show w.Finds (e.violations around) e.reads (walkExpr (context around) e w)
  cases e with
  | literal => exact .refl w
  | reference x => exact .read w x
  | grouping e =>
    have he := ih _ List.mem_cons_self around rfl
    exact he
  | unary op e =>
    have he := ih _ List.mem_cons_self around rfl
    exact he
  | get o name =>
    have ho := ih _ List.mem_cons_self around rfl
    exact ho
  | assign x e =>
    have he : w.Finds (e.violations around) e.reads (walkExpr (context around) e w) :=
      ih _ List.mem_cons_self around rfl
    have hassign := he.trans (.resolve (walkExpr (context around) e w) x)
    rwa [List.append_nil, List.append_nil] at hassign
  | binary l op r =>
    have hl := ih _ List.mem_cons_self around rfl
    have hr := ih _ (List.mem_cons_of_mem _ List.mem_cons_self) around rfl
    exact Finds.trans hl hr
  | logical l op r =>
    have hl := ih _ List.mem_cons_self around rfl
    have hr := ih _ (List.mem_cons_of_mem _ List.mem_cons_self) around rfl
    exact Finds.trans hl hr
  | index o bracket k =>
    have ho := ih _ List.mem_cons_self around rfl
    have hk := ih _ (List.mem_cons_of_mem _ List.mem_cons_self) around rfl
    exact Finds.trans ho hk
  | call f paren es =>
    have hf := ih _ List.mem_cons_self around rfl
    have hes := ih _ (List.mem_cons_of_mem _ List.mem_cons_self) around rfl
    exact Finds.trans hf hes
  | set o name e =>
    -- The value is walked through before the object.
    have he := ih _ List.mem_cons_self around rfl
    have ho := ih _ (List.mem_cons_of_mem _ List.mem_cons_self) around rfl
    exact (Finds.trans he ho).swap
  | setIndex o bracket k e =>
    simp only [exprParts, List.forall_mem_cons] at ih
    have ho := ih.1 around rfl
    have hk := ih.2.1 around rfl
    have he := ih.2.2.1 around rfl
    exact (Finds.trans ho hk).trans he
  | this x => exact finds_this w x
  | super x name => exact finds_super w x name
  | function f =>
    have hf := ih _ List.mem_cons_self (.function f :: around) rfl
    exact hf
  | array bracket es =>
    have hes := ih _ List.mem_cons_self around rfl
    exact hes
  | object brace es =>
    have hes := ih _ List.mem_cons_self around rfl
    exact hes

/-- The body of a function, with the parameters before it. -/
theorem judged_function {f : FunctionDecl} (hpiece : v.piece = .function f)
    (hctx : v.ctx = context around) (ih : v.JudgedParts) : v.Judged around := by
  obtain ⟨ctx, piece, w, outer⟩ := v
  obtain rfl : piece = .function f := hpiece
  obtain rfl : ctx = context around := hctx
  have hbody := ih _ List.mem_cons_self around rfl
  obtain ⟨name, keyword, params, body⟩ := f
  exact ((Adds.parameters (w.enter []) params).trans hbody).within

/-- What a walk finds at the superclasses of a class. -/
theorem finds_superclasses (w : Walk) (name : Token) (xs : List Reference) :
    w.Finds (superclassViolations name xs) (xs.map Reference.name) (w.superclasses name xs) := by
  induction xs generalizing w with
  | nil => exact .refl w
  | cons x xs ih =>
    have hown : w.Finds (superclassViolations name [x]) []
        (if x.name.lexeme = name.lexeme then w.violate x.name .ownSuperclass else w) := by
      by_cases heq : x.name.lexeme = name.lexeme
      · simpa [superclassViolations, heq] using Finds.violate w x.name .ownSuperclass
      · simpa [superclassViolations, heq] using Finds.refl w
    have hsplit : superclassViolations name (x :: xs) =
        (superclassViolations name [x] ++ []) ++ superclassViolations name xs := by
      unfold superclassViolations
      rw [List.append_nil, ← List.map_append, ← List.filter_append, List.singleton_append]
    rw [hsplit]
    exact (hown.trans (.read _ x)).trans (ih _)

/-- Methods are visited in the context of their class. -/
theorem toMethods_ctx (hctx : v.ctx = context around) (c : ClassDecl) :
    (v.toMethods c).ctx = context (.class c :: around) := by
  rw [context_class, ← hctx]
  unfold toMethods
  split <;> rfl

/-- The methods of a class are within the scopes of the class. -/
theorem finds_methods (hctx : v.ctx = context around) {c : ClassDecl}
    (ih : ∀ around, (v.toMethods c).ctx = context around → (v.toMethods c).Judged around) :
    ((v.named c.name).superclasses c.name c.superclasses).Finds
      (violationsOfMethods (.class c :: around) c.methods) [] (v.onto (.class c) v.walk).after := by
  have hmethods : (v.toMethods c).walk.Finds (violationsOfMethods (.class c :: around) c.methods) []
      (v.toMethods c).after := by
    have hjudged := ih _ (toMethods_ctx hctx c)
    unfold Judged at hjudged
    rw [toMethods_piece] at hjudged
    exact hjudged
  rw [after_class]
  by_cases hsupers : c.superclasses.isEmpty
  · rw [if_pos hsupers]
    have hwalk : (v.toMethods c).walk =
        ((v.named c.name).superclasses c.name c.superclasses).enter [("this", true)] := by
      simp only [toMethods, if_pos hsupers]
    rw [hwalk] at hmethods
    exact hmethods.within
  -- A class that inherits has a second scope, which is closed after the first.
  · rw [if_neg hsupers]
    have hwalk : (v.toMethods c).walk = (((v.named c.name).superclasses c.name
        c.superclasses).enter [("super", true)]).enter [("this", true)] := by
      simp only [toMethods, if_neg hsupers]
    rw [hwalk] at hmethods
    exact hmethods.within.within

/-- The verdict on a class follows from those on its parts. -/
theorem judged_class {c : ClassDecl} (hpiece : v.piece = .class c) (hctx : v.ctx = context around)
    (ih : v.JudgedParts) : v.Judged around := by
  obtain ⟨ctx, piece, w, outer⟩ := v
  obtain rfl : piece = .class c := hpiece
  have hmethods := finds_methods hctx (ih _ (List.mem_cons_of_mem _ List.mem_cons_self))
  obtain ⟨name, supers, methods⟩ := c
  have hsupers := finds_superclasses ((w.declare name).define name) name supers
  exact (Adds.named w name).trans ((Adds.of_finds hsupers).trans (.of_finds hmethods))

/-- The body of a loop or a branch of a choice. -/
theorem Judged.of_plain {ctx : Context} {s : Stmt} {w : Walk} {outer : List Construct}
    (h : Judged around ⟨ctx, .stmt s, w, outer⟩) (hs : s.isPlain) :
    w.Adds (s.violations around) [] (walkStmt ctx s w) := by
  have hnone : s.declarators = [] := by
    cases s with
    | declare ds | function f | «class» c => contradiction
    | _ => rfl
  rw [← hnone]
  exact h

/-- What a walk finds at a `return`, before its value. -/
theorem finds_result (w : Walk) (keyword : Token) :
    w.Finds (resultViolations around keyword true) [] (match (context around).body with
      | .none => w.violate keyword .resultAtTop
      | .initializer => w.violate keyword .resultOfInitializer
      | .function => w) := by
  unfold resultViolations context
  cases nearestFunction? around with
  | none => exact .violate w keyword .resultAtTop
  | some place =>
    cases place with
    | method f =>
      by_cases hinit : f.displayName = "init"
      · simpa [Body.ofMethod, hinit] using Finds.violate w keyword .resultOfInitializer
      · simpa [Body.ofMethod, hinit] using Finds.refl w
    | function f => exact .refl w
    | «class» c => exact .refl w

/-- What is found at a `return` without a value. -/
theorem finds_bareResult (w : Walk) (keyword : Token) :
    w.Finds (resultViolations around keyword false) []
      (if (context around).body = .none then w.violate keyword .resultAtTop else w) := by
  unfold resultViolations context
  cases nearestFunction? around with
  | none => exact .violate w keyword .resultAtTop
  | some place =>
    cases place with
    -- Without a value a `return` may be in an initializer too.
    | method f =>
      have hbody : Body.ofMethod f ≠ .none := by
        unfold Body.ofMethod
        split <;> decide
      simpa [hbody] using Finds.refl w
    | function f => exact .refl w
    | «class» c => exact .refl w

/-- The verdict on a statement follows from those on its parts. -/
theorem judged_stmt {s : Stmt} (hpiece : v.piece = .stmt s) (hshape : v.Shapely)
    (hctx : v.ctx = context around) (ih : v.JudgedParts) : v.Judged around := by
  obtain ⟨ctx, piece, w, outer⟩ := v
  obtain rfl : piece = .stmt s := hpiece
  obtain rfl : ctx = context around := hctx
  unfold JudgedParts at ih
  simp only [Visit.parts] at ih
  show w.Adds (s.violations around) s.declarators (walkStmt (context around) s w)
  cases s with
  | expression e =>
    have he := ih _ List.mem_cons_self around rfl
    exact .of_finds he
  | print e =>
    have he := ih _ List.mem_cons_self around rfl
    exact .of_finds he
  | declare ds =>
    have hds := ih _ List.mem_cons_self around rfl
    exact hds
  | block ss =>
    -- The names of the block are judged here, and the scope around it gets none of them.
    have hss := ih _ List.mem_cons_self around rfl
    exact .of_finds (Adds.within hss)
  | branch c t e =>
    obtain ⟨ht, he⟩ := hshape
    cases e with
    | none =>
      simp only [stmtParts, List.forall_mem_cons] at ih
      have hc := ih.1 around rfl
      have ht' := ih.2.1 around rfl
      exact (Adds.of_finds hc).trans (ht'.of_plain ht)
    | some e =>
      simp only [stmtParts, List.forall_mem_cons] at ih
      have hc := ih.1 around rfl
      have ht' := ih.2.1 around rfl
      have he' := ih.2.2.1 around rfl
      exact ((Adds.of_finds hc).trans (ht'.of_plain ht)).trans (he'.of_plain (he e rfl))
  | loop c s =>
    have hc := ih _ List.mem_cons_self around rfl
    have hs := ih _ (List.mem_cons_of_mem _ List.mem_cons_self) around rfl
    exact (Adds.of_finds hc).trans (hs.of_plain hshape)
  | function f =>
    have hf := ih _ List.mem_cons_self (.function f :: around) rfl
    obtain ⟨_ | name, keyword, params, body⟩ := f
    · contradiction
    · exact (Adds.named w name).trans (.of_finds hf)
  | result keyword e =>
    cases e with
    | none => exact .of_finds (finds_bareResult w keyword)
    | some e =>
      have he := ih _ List.mem_cons_self around rfl
      exact .of_finds ((finds_result w keyword).trans he)
  | «class» c =>
    have hc := ih _ List.mem_cons_self around rfl
    exact hc

/-- Every visit finds what violates the rules in its piece, and nothing else. -/
theorem judged (v : Visit) (hshape : All Shapely v) (hctx : v.ctx = context around) :
    v.Judged around := by
  -- What is around a part is chosen where the part is used, so the parts are judged for all of it.
  induction v using Visit.induction generalizing around with
  | step v ih =>
  replace ih : v.JudgedParts := fun p hp _ hctx => ih p hp (hshape.part hp) hctx
  obtain ⟨ctx, piece, w, outer⟩ := v
  cases piece with
  | expr e => exact judged_expr rfl hctx ih
  | function f => exact judged_function rfl hctx ih
  | «class» c => exact judged_class rfl hctx ih
  | stmt s => exact judged_stmt rfl hshape.self hctx ih
  | superclasses name xs => exact finds_superclasses w name xs
  | superclass x => exact .read w x
  | exprs es =>
    obtain rfl : ctx = context around := hctx
    cases es with
    | nil => exact .refl w
    | cons e es =>
      have he := ih _ List.mem_cons_self around rfl
      have hes := ih _ (List.mem_cons_of_mem _ List.mem_cons_self) around rfl
      exact Finds.trans he hes
  | entries es =>
    obtain rfl : ctx = context around := hctx
    obtain _ | ⟨⟨key, e⟩, es⟩ := es
    · exact .refl w
    · have he := ih _ List.mem_cons_self around rfl
      have hes := ih _ (List.mem_cons_of_mem _ List.mem_cons_self) around rfl
      exact Finds.trans he hes
  | methods fs =>
    obtain rfl : ctx = context around := hctx
    cases fs with
    | nil => exact .refl w
    | cons f fs =>
      have hf := ih _ List.mem_cons_self (.method f :: around) rfl
      have hfs := ih _ (List.mem_cons_of_mem _ List.mem_cons_self) around rfl
      exact Finds.trans hf hfs
  | declarators ds =>
    obtain rfl : ctx = context around := hctx
    obtain _ | ⟨⟨name, _ | e⟩, ds⟩ := ds
    · exact .of_finds (.refl w)
    · have hds := ih _ List.mem_cons_self around rfl
      exact (Adds.named w name).trans hds
    · have he := ih _ List.mem_cons_self around rfl
      have hds := ih _ (List.mem_cons_of_mem _ List.mem_cons_self) around rfl
      exact (Adds.declarator ⟨name, some e⟩ he).trans hds
  | stmts ss =>
    obtain rfl : ctx = context around := hctx
    cases ss with
    | nil => exact .of_finds (.refl w)
    | cons s ss =>
      have hs := ih _ List.mem_cons_self around rfl
      have hss := ih _ (List.mem_cons_of_mem _ List.mem_cons_self) around rfl
      exact Adds.trans hs hss

end Visit

/-! ## Programs -/

/-- At the top level no scope is open, so the names that a program declares there violate nothing.
-/
theorem perm_programViolations (known : Distances) {program : List Stmt}
    (hshape : Visit.All Visit.Shapely ⟨{}, .stmts program, { distances := known }, []⟩) :
    (resolve known program).2.Perm (programViolations program) := by
  have hjudged : Walk.Adds (violationsOfStmts [] program) (program.flatMap Stmt.declarators)
      { distances := known } (walkStmts {} program { distances := known }) :=
    Visit.judged ⟨{}, .stmts program, { distances := known }, []⟩ hshape
      (rfl : _ = Surrounding.context [])
  have hready : Walk.Ready { distances := known } := by simp [Walk.Ready]
  have hfound := hjudged.violations hready
  have htop : Walk.scopeViolations { distances := known } (program.flatMap Stmt.declarators) = [] :=
    rfl
  rw [htop, List.append_nil, List.nil_append] at hfound
  exact hfound

end Scoping

/-- Of a program that is parsed without a complaint, scoping reports exactly what violates the
rules, each violation once and with the message of its rule, whatever else is reported and whatever
distances are known before. -/
theorem resolve_reports_rules (ts : List Token) (n : Nat)
    (h : (Grammar.parse ts n).complaints = []) (known : Distances) (m : Machine) :
    (Scoping.resolve known (Grammar.parse ts n).statements).2.Perm
        (programViolations (Grammar.parse ts n).statements) ∧
      (m.resolve (Grammar.parse ts n).statements).2.Perm
        ((programViolations (Grammar.parse ts n).statements).map Diagnostic.ofViolation) := by
  have htidy := Grammar.parse_tidy h
  refine ⟨perm_programViolations known (htidy _ _ _).shapely, ?_⟩
  exact (perm_programViolations m.distances (htidy _ _ _).shapely).map Diagnostic.ofViolation

open Grammar in
/-- The tokens of `class a < a { init() { return this; } } { var a = a; var a = this; return; }`. -/
def unrulyProgram : List Token :=
  [mark .kwClass, word "a", mark .less, word "a", mark .leftBrace, word "init", mark .leftParen,
    mark .rightParen, mark .leftBrace, mark .kwReturn, mark .kwThis, mark .semicolon,
    mark .rightBrace, mark .rightBrace, mark .leftBrace, mark .kwVar, word "a", mark .equal,
    word "a", mark .semicolon, mark .kwVar, word "a", mark .equal, mark .kwThis, mark .semicolon,
    mark .kwReturn, mark .semicolon, mark .rightBrace]

open Grammar in
/-- Six rules are violated, and each of them is reported. -/
theorem resolve_unrulyProgram :
    (parse (unrulyProgram ++ [mark .eof]) 0).complaints = [] ∧
      (Scoping.resolve {} (parse (unrulyProgram ++ [mark .eof]) 0).statements).2.Perm
        [⟨word "a", .ownSuperclass⟩, ⟨mark .kwReturn, .resultOfInitializer⟩,
          ⟨word "a", .ownInitializer⟩, ⟨word "a", .redeclared⟩, ⟨mark .kwThis, .thisOutside⟩,
          ⟨mark .kwReturn, .resultAtTop⟩] := by
  have hthis (n : Nat) : Derives .expression [mark .kwThis] n (.this ⟨n, mark .kwThis⟩) (n + 1) :=
    .expression_of_call (.bare (.this rfl))
  have ha : Derives .expression [word "a"] 2 (.reference ⟨2, word "a"⟩) 3 :=
    .expression_of_call (.bare (.reference rfl))
  have hreturn : Derives .declaration [mark .kwReturn, mark .kwThis, mark .semicolon] 1 _ 2 :=
    .statement (.result rfl (.present (hthis 1)) rfl)
  have hinit : Derives .function (word "init" :: mark .leftParen :: [] ++ mark .rightParen ::
      (mark .leftBrace :: ([mark .kwReturn, mark .kwThis, mark .semicolon] ++ []) ++
        [mark .rightBrace])) 1 _ 2 :=
    .function rfl rfl .noParameters rfl (.block rfl (.moreDeclarations hreturn .noDeclarations) rfl)
  have hsupers : Derives .superclasses [mark .less, word "a"] 0 _ 1 :=
    .someSuperclasses rfl (.lastReference rfl)
  have hclass : Derives .declaration (mark .kwClass :: word "a" :: [mark .less, word "a"] ++
      mark .leftBrace :: (_ ++ []) ++ [mark .rightBrace]) 0 _ 2 :=
    .classDeclaration rfl rfl hsupers rfl (.moreMethods hinit .noMethods) rfl
  have hfirst : Derives .declaration (mark .kwVar :: [word "a", mark .equal, word "a"] ++
      [mark .semicolon]) 2 _ 3 :=
    .variableDeclaration rfl (.lastDeclarator (.initialized rfl rfl ha)) rfl
  have hsecond : Derives .declaration (mark .kwVar :: [word "a", mark .equal, mark .kwThis] ++
      [mark .semicolon]) 3 _ 4 :=
    .variableDeclaration rfl (.lastDeclarator (.initialized rfl rfl (hthis 3))) rfl
  have hlast : Derives .declaration (mark .kwReturn :: [] ++ [mark .semicolon]) 4 _ 4 :=
    .statement (.result rfl .absent rfl)
  have hblock : Derives .declaration (mark .leftBrace :: (_ ++ (_ ++ (_ ++ []))) ++
      [mark .rightBrace]) 2 _ 4 :=
    .statement (.blockStatement (.block rfl (.moreDeclarations hfirst
      (.moreDeclarations hsecond (.moreDeclarations hlast .noDeclarations))) rfl))
  have hprogram : Derives .declarations unrulyProgram 0 _ 4 :=
    .moreDeclarations hclass (.moreDeclarations hblock .noDeclarations)
  have hparse : parse (unrulyProgram ++ [mark .eof]) 0 = ⟨_, [], 4⟩ :=
    hprogram.parse_eq (by decide) rfl
  have hclean : (parse (unrulyProgram ++ [mark .eof]) 0).complaints = [] := by rw [hparse]
  have hreports :=
    (resolve_reports_rules (unrulyProgram ++ [mark .eof]) 0 hclean {} (.start {} {})).1
  refine ⟨hclean, ?_⟩
  rw [hparse] at hreports ⊢
  exact hreports

end Lox

import Lox.Proofs.Scoping.Recording
import Mathlib.Data.List.Nodup

/-!
# The names of a scope

Where scoping finds no violation, the names that are declared in one scope all differ, whether they
name variables, functions or classes. `Declares` says so of a stretch of the walk: the names that it
declares in the innermost scope are new there and differ from each other.
-/

namespace Lox

/-- The names that a statement declares in the scope around it, each with whether it is that of a
variable. -/
def Stmt.declared : Stmt → List (Bool × Token)
  | .declare ds => ds.map fun d => (true, d.name)
  | .function f => f.name.toList.map fun name => (false, name)
  | .class c => [(false, c.name)]
  | _ => []

/-- The names that a function declares in its scope. -/
def FunctionDecl.declared (f : FunctionDecl) : List (Bool × Token) :=
  f.params.map (fun name => (true, name)) ++ f.body.flatMap Stmt.declared

namespace Scoping

/-- The names that a piece declares in the scope around it. -/
def Piece.declared : Piece → List (Bool × Token)
  | .declarators ds => ds.map fun d => (true, d.name)
  | .class c => [(false, c.name)]
  | .stmt s => s.declared
  | .stmts ss => ss.flatMap Stmt.declared
  | _ => []

/-- The texts of declared names. -/
def texts (names : List (Bool × Token)) : List String :=
  names.map fun name => name.2.lexeme

/-- A scope gets names that it did not have and that differ from each other. -/
structure Scope.Gains (names : List String) (scope scope' : Scope) : Prop where
  /-- No two names are the same. -/
  nodup : names.Nodup
  /-- The names are new. -/
  fresh : ∀ name ∈ names, scope.lookup name = none
  /-- The scope then has them beside those that it had. -/
  lookup : ∀ name, (scope'.lookup name).isSome ↔ name ∈ names ∨ (scope.lookup name).isSome

namespace Scope.Gains

variable {names names' : List String} {scope scope' scope'' : Scope}

/-- A scope gains nothing in no stretch. -/
theorem refl (scope : Scope) : Gains [] scope scope where
  nodup := List.nodup_nil
  fresh _ hname := absurd hname List.not_mem_nil
  lookup name := by simp

/-- What a scope gains in two stretches is put together. -/
theorem trans (h : Gains names scope scope') (h' : Gains names' scope' scope'') :
    Gains (names ++ names') scope scope'' where
  nodup := by
    refine List.nodup_append'.mpr ⟨h.nodup, h'.nodup, ?_⟩
    -- A name of the first ones is in the scope when the second ones are declared.
    intro name hname hname'
    have hnew := h'.fresh name hname'
    have hthere := (h.lookup name).mpr (.inl hname)
    rw [hnew] at hthere
    contradiction
  fresh name hname := by
    obtain hname | hname := List.mem_append.mp hname
    · exact h.fresh name hname
    · have hnew := h'.fresh name hname
      by_contra hold
      have hthere := (h.lookup name).mpr (.inr (Option.isSome_iff_ne_none.mpr hold))
      rw [hnew] at hthere
      contradiction
  lookup name := by
    rw [h'.lookup, h.lookup, List.mem_append, or_assoc, or_left_comm]

/-- A name is declared and then defined. -/
theorem single {name : String} (h : scope.lookup name = none) :
    Gains [name] scope ((name, true) :: (name, false) :: scope) where
  nodup := List.nodup_singleton name
  fresh _ hother := by rwa [List.mem_singleton.mp hother]
  lookup other := by
    by_cases heq : other = name
    · simp [heq]
    · simp [List.lookup_cons, heq, beq_false_of_ne heq]

end Scope.Gains

/-- Between two points of a walk the given names are declared in the innermost scope, if one is
open. -/
def Declares (names : List String) (w w' : Walk) : Prop :=
  ∀ scope outer, w.scopes = scope :: outer →
    ∃ scope', w'.scopes = scope' :: outer ∧ Scope.Gains names scope scope'

namespace Declares

variable {names names' : List String} {w w' w'' : Walk}

/-- Nothing is declared while the scopes stay as they are. -/
theorem of_eq (h : w'.scopes = w.scopes) : Declares [] w w' :=
  fun scope _ hscopes => ⟨scope, h.trans hscopes, .refl scope⟩

/-- What two stretches declare is put together. -/
theorem trans (h : Declares names w w') (h' : Declares names' w' w'') :
    Declares (names ++ names') w w'' := by
  intro scope outer hscopes
  obtain ⟨scope', hscopes', hgains⟩ := h scope outer hscopes
  obtain ⟨scope'', hscopes'', hgains'⟩ := h' scope' outer hscopes'
  exact ⟨scope'', hscopes'', hgains.trans hgains'⟩

/-- A name is declared, something that leaves the scopes alone happens, and the name is defined. -/
theorem declare_define {t : Token} (hclean : (w.declare t).violations = [])
    (h : w'.scopes = (w.declare t).scopes) : Declares [t.lexeme] w (w'.define t) := by
  intro scope outer hscopes
  unfold Walk.declare at hclean h
  rw [hscopes] at hclean h
  cases hlookup : scope.lookup t.lexeme with
  | some defined => simp [hlookup, Walk.violate] at hclean
  | none =>
    simp only [hlookup, Option.isSome_none, Bool.false_eq_true, if_false] at h
    unfold Walk.define
    rw [h]
    exact ⟨_, rfl, .single hlookup⟩

/-- Parameters are declared. -/
theorem parameters {params : List Token} (hclean : (w.parameters params).violations = []) :
    Declares (params.map Token.lexeme) w (w.parameters params) := by
  induction params generalizing w with
  | nil => exact of_eq rfl
  | cons t params ih =>
    have hnamed := (Walk.Leads.parameters ((w.declare t).define t) params).clean hclean
    have hdeclare := (Walk.Leads.define (w.declare t) t).clean hnamed
    exact (declare_define hdeclare rfl).trans (ih hclean)

end Declares

namespace Visit

variable {v : Visit}

/-- A visit without violations starts without any. -/
theorem clean_walk (hclean : v.after.violations = []) : v.walk.violations = [] :=
  List.prefix_nil.mp (hclean ▸ v.violations_after)

/-- A declaration that is defined at once is declared. -/
theorem declares_named {name : Token} (hclean : (v.named name).violations = []) :
    Declares [name.lexeme] v.walk (v.named name) :=
  .declare_define ((Walk.Leads.define (v.walk.declare name) name).clean hclean) rfl

/-- The names of declarators are declared. -/
theorem declares_declarators {ds : List Declarator} (hpiece : v.piece = .declarators ds)
    (hclean : v.after.violations = []) :
    Declares (ds.map fun d => d.name.lexeme) v.walk v.after := by
  obtain ⟨ctx, piece, w, around⟩ := v
  obtain rfl : piece = .declarators ds := hpiece
  induction ds generalizing w with
  | nil => exact .of_eq rfl
  | cons d ds ih =>
    have hparts := clean_parts hclean
    obtain ⟨name, _ | e⟩ := d
    · have hnamed := clean_walk (hparts _ List.mem_cons_self)
      have hrest := ih _ (hparts _ List.mem_cons_self)
      exact (declares_named hnamed).trans hrest
    · have hdeclare := clean_walk (hparts _ List.mem_cons_self)
      have hrest := ih _ (hparts _ (List.mem_cons_of_mem _ List.mem_cons_self))
      exact (Declares.declare_define hdeclare (walkExpr_scopes ..)).trans hrest

/-- A statement declares its names. -/
theorem declares_stmt {s : Stmt} (hpiece : v.piece = .stmt s) (hshape : All Shapely v)
    (hclean : v.after.violations = []) : Declares (texts s.declared) v.walk v.after := by
  have hplain := v.scopes_after_plain hshape s hpiece
  have hself := hshape.self
  have hparts := clean_parts hclean
  obtain ⟨ctx, piece, w, around⟩ := v
  obtain rfl : piece = .stmt s := hpiece
  cases s with
  | declare ds =>
    have hds := declares_declarators rfl (hparts _ List.mem_cons_self)
    unfold texts Stmt.declared
    rw [List.map_map]
    exact hds
  | function f =>
    have hnamed := clean_walk (hparts _ List.mem_cons_self)
    obtain ⟨_ | name, keyword, params, body⟩ := f
    · contradiction
    · exact (declares_named hnamed).trans (.of_eq (walkFunction_scopes ..))
  | «class» c =>
    have hclass := hparts _ List.mem_cons_self
    have hnamed := clean_walk (clean_parts hclass _ List.mem_cons_self)
    have hafter := scopes_after_class ⟨ctx, .stmt (.class c), w, around⟩ c
    exact (declares_named hnamed).trans (.of_eq hafter)
  | _ => exact .of_eq (hplain rfl)

/-- Statements declare names that differ from each other and from those that the scope has. -/
theorem declares_stmts {ss : List Stmt} (hpiece : v.piece = .stmts ss) (hshape : All Shapely v)
    (hclean : v.after.violations = []) :
    Declares (texts (ss.flatMap Stmt.declared)) v.walk v.after := by
  obtain ⟨ctx, piece, w, around⟩ := v
  obtain rfl : piece = .stmts ss := hpiece
  induction ss generalizing w with
  | nil => exact .of_eq rfl
  | cons s ss ih =>
    have hparts := clean_parts hclean
    have hhead := List.mem_cons_self (a := (⟨ctx, .stmt s, w, around⟩ : Visit))
      (l := [⟨ctx, .stmts ss, walkStmt ctx s w, around⟩])
    have htail := List.mem_cons_of_mem (⟨ctx, .stmt s, w, around⟩ : Visit)
      (List.mem_singleton_self ⟨ctx, .stmts ss, walkStmt ctx s w, around⟩)
    have hs := declares_stmt rfl (hshape.part hhead) (hparts _ hhead)
    have hss := ih _ (hshape.part htail) (hparts _ htail)
    unfold texts
    rw [List.flatMap_cons, List.map_append]
    exact hs.trans hss

/-- The names that the body of a block declares differ. -/
theorem nodup_block {ss : List Stmt} {w : Walk} (hshape : All Shapely v)
    (hclean : v.after.violations = []) (hpiece : v.piece = .stmts ss)
    (hwalk : v.walk = w.enter []) : (texts (ss.flatMap Stmt.declared)).Nodup := by
  have hbody := declares_stmts hpiece hshape hclean
  rw [hwalk] at hbody
  obtain ⟨_, _, hgains⟩ := hbody [] w.scopes rfl
  exact hgains.nodup

/-- The parameters of a function and the names that its body declares differ. -/
theorem nodup_function {f : FunctionDecl} {w : Walk} (hshape : All Shapely v)
    (hclean : v.after.violations = []) (hpiece : v.piece = .stmts f.body)
    (hwalk : v.walk = (w.enter []).parameters f.params) : (texts f.declared).Nodup := by
  have hbody := declares_stmts hpiece hshape hclean
  have hparams := Declares.parameters (hwalk ▸ clean_walk hclean)
  rw [hwalk] at hbody
  obtain ⟨_, _, hgains⟩ := (hparams.trans hbody) [] w.scopes rfl
  have htexts : texts f.declared =
      f.params.map Token.lexeme ++ texts (f.body.flatMap Stmt.declared) := by
    unfold texts FunctionDecl.declared
    rw [List.map_append, List.map_map]
    rfl
  rw [htexts]
  exact hgains.nodup

end Visit

/-- The names that are declared in the scope of a construct. -/
def Construct.declared : Construct → List (Bool × Token)
  | .block body => body.flatMap Stmt.declared
  | .call f => f.declared
  | .receiver _ | .inheritance _ => []

/-- The names of each scope around a visit differ, and those that its piece declares are among the
names of the innermost one. -/
structure Visit.Distinct (v : Visit) : Prop where
  /-- The names of a scope differ. -/
  nodup : ∀ c ∈ v.around, (texts c.declared).Nodup
  /-- The names that the piece declares are names of its scope. -/
  subset : ∀ c ∈ v.around.head?, v.piece.declared ⊆ c.declared

namespace Visit

variable {v : Visit}

/-- A piece that declares some of the names. -/
theorem Distinct.of_subset (h : v.Distinct) {p : Visit} (haround : p.around = v.around)
    (hpiece : p.piece.declared ⊆ v.piece.declared) : p.Distinct :=
  ⟨haround ▸ h.nodup, fun c hc => List.Subset.trans hpiece (h.subset c (haround ▸ hc))⟩

/-- The body of a construct. -/
theorem Distinct.enter {p : Visit} {c : Construct} (h : v.Distinct)
    (haround : p.around = c :: v.around) (hnodup : (texts c.declared).Nodup)
    (hpiece : p.piece.declared ⊆ c.declared) : p.Distinct := by
  constructor
  · rw [haround]
    exact List.forall_mem_cons.mpr ⟨hnodup, h.nodup⟩
  · rw [haround]
    rintro _ ⟨⟩
    exact hpiece

/-- A plain statement declares nothing. -/
theorem declared_plain {s : Stmt} (h : s.isPlain) : s.declared = [] := by
  cases s with
  | declare ds | function f | «class» c => contradiction
  | _ => rfl

/-- A part of a visit is in the same scope, or it is the body of a block or function, or the methods
of a class. -/
theorem parts_scope (hshape : v.Shapely) : ∀ p ∈ v.parts,
    (p.around = v.around ∧ p.piece.declared ⊆ v.piece.declared) ∨
    (∃ ss, p.piece = .stmts ss ∧ p.around = .block ss :: v.around ∧ p.walk = v.walk.enter []) ∨
    (∃ f, p.piece = .stmts f.body ∧ p.around = .call f :: v.around ∧
      p.walk = (v.walk.enter []).parameters f.params) ∨
    ∃ c, p = v.toMethods c := by
  obtain ⟨ctx, piece, w, around⟩ := v
  cases piece with
  | expr e => cases e <;> simp [parts, exprParts, toFunction, Piece.declared]
  | exprs es => cases es <;> simp [parts, Piece.declared]
  | entries es => obtain _ | ⟨⟨key, e⟩, es⟩ := es <;> simp [parts, Piece.declared]
  | function f =>
    refine List.forall_mem_singleton.mpr (.inr (.inr (.inl ?_)))
    exact ⟨f, rfl, rfl, rfl⟩
  | methods fs => cases fs <;> simp [parts, toFunction, Piece.declared]
  | declarators ds => obtain _ | ⟨⟨name, _ | e⟩, ds⟩ := ds <;> simp [parts, Piece.declared]
  | superclasses name xs => cases xs <;> simp [parts, Piece.declared]
  | superclass x => simp [parts]
  | «class» c =>
    simp only [parts, List.forall_mem_cons]
    refine ⟨.inl ⟨rfl, ?_⟩, .inr (.inr (.inr ⟨c, rfl⟩)), by simp⟩
    simp [Piece.declared]
  | stmt s =>
    cases s with
    | block ss =>
      refine List.forall_mem_singleton.mpr (.inr (.inl ?_))
      exact ⟨ss, rfl, rfl, rfl⟩
    | branch c t e =>
      obtain ⟨ht, he⟩ := hshape
      cases e with
      | none => simp [parts, stmtParts, Piece.declared, declared_plain ht]
      | some e =>
        simp [parts, stmtParts, Piece.declared, declared_plain ht, declared_plain (he e rfl)]
    | loop c s => simp [parts, stmtParts, Piece.declared, declared_plain (s := s) hshape]
    | result keyword e => cases e <;> simp [parts, stmtParts, Piece.declared]
    | _ => simp [parts, stmtParts, toFunction, Piece.declared, Stmt.declared]
  | stmts ss => cases ss <;> simp [parts, Piece.declared]

/-- The parts of a visit with distinct names have distinct names. -/
theorem distinct_parts (hshape : All Shapely v) (hclean : v.after.violations = [])
    (h : v.Distinct) : ∀ p ∈ v.parts, p.Distinct := by
  intro p hp
  have hcleanPart := clean_parts hclean p hp
  have hshapePart := hshape.part hp
  obtain ⟨haround, hsubset⟩ | ⟨ss, hpiece, haround, hwalk⟩ | ⟨f, hpiece, haround, hwalk⟩ |
    ⟨c, rfl⟩ := parts_scope hshape.self p hp
  · exact h.of_subset haround hsubset
  · have hnodup := nodup_block hshapePart hcleanPart hpiece hwalk
    exact h.enter haround hnodup (by rw [hpiece]; exact List.Subset.refl _)
  · have hnodup := nodup_function hshapePart hcleanPart hpiece hwalk
    exact h.enter haround hnodup (by rw [hpiece]; exact List.subset_append_right _ _)
  · -- The scopes of a class declare nothing, and neither do its methods.
    unfold toMethods
    split
    · exact h.enter rfl (by simp [texts, Construct.declared]) (by simp [Piece.declared])
    · have hinner : Distinct ⟨v.ctx, .methods c.methods, v.walk, .inheritance c :: v.around⟩ :=
        h.enter rfl (by simp [texts, Construct.declared]) (by simp [Piece.declared])
      exact hinner.enter rfl (by simp [texts, Construct.declared]) (by simp [Piece.declared])

/-- In a program without violations the names of each scope differ. -/
theorem all_distinct (hshape : All Shapely v) (hclean : v.after.violations = [])
    (h : v.Distinct) : All Distinct v := by
  -- The three conditions are handed down to the parts together.
  have hall : All (fun v => All Shapely v ∧ v.after.violations = [] ∧ v.Distinct) v := by
    refine .of_closed ⟨hshape, hclean, h⟩ ?_
    rintro v ⟨hshape, hclean, h⟩ p hp
    exact ⟨hshape.part hp, clean_parts hclean p hp, distinct_parts hshape hclean h p hp⟩
  exact hall.imp fun _ hv => hv.2.2

end Visit

end Scoping

end Lox

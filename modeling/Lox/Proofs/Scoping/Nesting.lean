import Lox.Proofs.Grammar.Naming
import Lox.Proofs.Token.Spelling

/-!
# What surrounds a method

The names `this` and `super` are in the scopes that classes open, and in no others, as no variable
is spelled like them. So whatever blocks and functions lie in between, `this` leads out to the scope
around the nearest method, and `super` to the one around that (`Nest.nearest`). `Nest` says how
constructs and their scopes lie within each other where a statement or an expression is visited.
-/

namespace Lox.Scoping

open Visit

namespace Walk

variable {w w' w'' : Walk} {name : String}

/-- Between two points of a walk a name is not declared in an open scope. -/
def Spares (name : String) (w w' : Walk) : Prop :=
  w'.scopes.map (·.lookup name) = w.scopes.map (·.lookup name)

namespace Spares

/-- A name is spared while the scopes stay. -/
theorem of_eq (h : w'.scopes = w.scopes) : Spares name w w' :=
  congrArg _ h

/-- A name is spared in two stretches. -/
theorem trans (h : Spares name w w') (h' : Spares name w' w'') : Spares name w w'' :=
  Eq.trans h' h

/-- Declaring another name spares it. -/
theorem declare (w : Walk) {t : Token} (ht : t.lexeme ≠ name) : Spares name w (w.declare t) := by
  unfold Walk.declare
  split
  · exact .of_eq rfl
  · next scope outer hscopes =>
    split
    · exact .of_eq rfl
    · unfold Spares
      rw [hscopes]
      simp [List.lookup_cons, beq_false_of_ne ht.symm]

/-- Defining another name spares it. -/
theorem define (w : Walk) {t : Token} (ht : t.lexeme ≠ name) : Spares name w (w.define t) := by
  unfold Walk.define
  split
  · exact .of_eq rfl
  · next scope outer hscopes =>
    unfold Spares
    rw [hscopes]
    simp [List.lookup_cons, beq_false_of_ne ht.symm]

/-- Declaring and defining another name spares it. -/
theorem named (v : Visit) {t : Token} (ht : t.lexeme ≠ name) :
    Spares name v.walk (v.named t) :=
  (declare v.walk ht).trans (define _ ht)

/-- Declaring other parameters spares it. -/
theorem parameters (w : Walk) {params : List Token} (h : ∀ t ∈ params, t.lexeme ≠ name) :
    Spares name w (w.parameters params) := by
  induction params generalizing w with
  | nil => exact .of_eq rfl
  | cons t params ih =>
    rw [List.forall_mem_cons] at h
    exact ((declare w h.1).trans (define _ h.1)).trans (ih _ h.2)

end Spares

end Walk

section Names

variable {name : String} {v : Visit}

/-- A declared name is no reserved one. -/
theorem Visit.Names.ne (h : v.Names Token.Spelled) (hname : Reserved name) {t : Token}
    (ht : (.identifier, t) ∈ v.piece.words) : t.lexeme ≠ name := by
  intro heq
  exact (h _ ht).2.not_reserved (h _ ht).1 (heq ▸ hname)

open Walk in
/-- No visit declares a reserved name. -/
theorem Visit.spares_after (v : Visit) (hv : All (Names Token.Spelled) v)
    (hname : Reserved name) : Spares name v.walk v.after := by
  induction v using Visit.induction with
  | step v ih =>
  have hparts := fun p hp => ih p hp (hv.part hp)
  have hself := hv.self
  -- Only a declaration adds names, and a class and the statements that have declarations in them.
  by_cases hkeeps : v.piece.keepsScopes
  · exact .of_eq (v.scopes_after.2 hkeeps)
  obtain ⟨ctx, piece, w, around⟩ := v
  cases piece with
  | declarators ds =>
    obtain _ | ⟨⟨t, _ | e⟩, ds⟩ := ds <;> simp only [parts, List.forall_mem_cons] at hparts
    · exact .of_eq rfl
    · exact (Spares.named _ (hself.ne hname List.mem_cons_self)).trans hparts.1
    · have ht := hself.ne hname List.mem_cons_self
      exact ((Spares.declare w ht).trans hparts.1).trans ((Spares.define _ ht).trans hparts.2.1)
  | «class» c =>
    have hscopes := scopes_after_class ⟨ctx, .class c, w, around⟩ c
    exact Eq.trans (congrArg _ hscopes) (Spares.named _ (hself.ne hname List.mem_cons_self))
  | stmt s =>
    cases s with
    | block ss =>
      exact .of_eq (leave_scopes_of_sameOuter
        (scopes_after ⟨ctx, .stmts ss, w.enter [], .block ss :: around⟩).1)
    | branch c t e =>
      cases e <;> simp only [parts, stmtParts, List.forall_mem_cons] at hparts
      · exact hparts.1.trans hparts.2.1
      · exact hparts.1.trans (hparts.2.1.trans hparts.2.2.1)
    | loop c s =>
      simp only [parts, stmtParts, List.forall_mem_cons] at hparts
      exact hparts.1.trans hparts.2.1
    | function f =>
      simp only [parts, stmtParts, List.forall_mem_cons] at hparts
      refine Spares.trans ?_ hparts.1
      simp only [toFunction_walk]
      split
      · next t ht =>
        refine Spares.named _ (hself.ne hname ?_)
        simp [Piece.words, ht]
      · exact .of_eq rfl
    | result keyword e =>
      refine .of_eq ?_
      cases e with
      | none =>
        simp only [after, walkStmt]
        split <;> rfl
      | some e =>
        refine (walkExpr_scopes ctx _ e).trans ?_
        cases ctx.body <;> rfl
    | _ =>
      simp only [parts, stmtParts, List.forall_mem_cons] at hparts
      exact hparts.1
  | stmts ss =>
    obtain _ | ⟨s, ss⟩ := ss <;> simp only [parts, List.forall_mem_cons] at hparts
    · exact .of_eq rfl
    · exact hparts.1.trans hparts.2.1
  | _ => exact absurd rfl hkeeps

end Names

/-- A scope has no reserved names. -/
def Scope.Plain (scope : Scope) : Prop :=
  ∀ name, Reserved name → scope.lookup name = none

/-- How constructs and their scopes lie within each other around a statement or an expression, the
innermost first, and what the nearest class is. -/
inductive Nest : Home → List Construct → List Scope → Prop
  | top : Nest .none [] []
  | block {home : Home} {body : List Stmt} {cs : List Construct} {scope : Scope}
      {scopes : List Scope} (h : Nest home cs scopes) (hscope : scope.Plain) :
      Nest home (.block body :: cs) (scope :: scopes)
  | closure {home : Home} {f : FunctionDecl} {cs : List Construct} {scope : Scope}
      {scopes : List Scope} (h : Nest home cs scopes) (hscope : scope.Plain) :
      Nest home (.call f :: cs) (scope :: scopes)
  | method {home : Home} {c : ClassDecl} {f : FunctionDecl} {cs : List Construct} {scope : Scope}
      {scopes : List Scope} (h : Nest home cs scopes) (hf : f ∈ c.methods) (hscope : scope.Plain) :
      Nest .base (.call f :: .receiver c :: cs) (scope :: [("this", true)] :: scopes)
  | inheritor {home : Home} {c : ClassDecl} {f : FunctionDecl} {cs : List Construct}
      {scope : Scope} {scopes : List Scope} (h : Nest home cs scopes) (hf : f ∈ c.methods)
      (hscope : scope.Plain) :
      Nest .derived (.call f :: .receiver c :: .inheritance c :: cs)
        (scope :: [("this", true)] :: [("super", true)] :: scopes)

/-- How constructs and their scopes lie within each other around the methods of a class. -/
inductive ClassNest (c : ClassDecl) : Home → List Construct → List Scope → Prop
  | base {home : Home} {cs : List Construct} {scopes : List Scope} (h : Nest home cs scopes) :
      ClassNest c .base (.receiver c :: cs) ([("this", true)] :: scopes)
  | derived {home : Home} {cs : List Construct} {scopes : List Scope} (h : Nest home cs scopes) :
      ClassNest c .derived (.receiver c :: .inheritance c :: cs)
        ([("this", true)] :: [("super", true)] :: scopes)

namespace Nest

variable {home : Home} {cs : List Construct} {scopes : List Scope}

/-- A method has its scope within those of its class. -/
theorem of_class {c : ClassDecl} (h : ClassNest c home cs scopes) {f : FunctionDecl}
    (hf : f ∈ c.methods) {scope : Scope} (hscope : scope.Plain) :
    Nest home (.call f :: cs) (scope :: scopes) := by
  cases h with
  | base h => exact h.method hf hscope
  | derived h => exact h.inheritor hf hscope

/-- Only the innermost scope changes, and it has no reserved names before and after. -/
theorem change {w w' : Walk} (h : Nest home cs w.scopes) (houter : w.SameOuter w')
    (hspares : ∀ name, Reserved name → Walk.Spares name w w') : Nest home cs w'.scopes := by
  obtain ⟨scopes, distances, violations⟩ := w
  obtain ⟨scopes', distances', violations'⟩ := w'
  obtain ⟨htail, hlength⟩ := houter
  dsimp only at h htail hlength ⊢
  -- The innermost scope gives way to another one, which has no reserved names either.
  have hplain {scope : Scope} {outer : List Scope} (hscopes : scopes = scope :: outer)
      (hscope : scope.Plain) : ∃ scope', scopes' = scope' :: outer ∧ scope'.Plain := by
    subst hscopes
    cases scopes' with
    | nil => simp at hlength
    | cons scope' outer' =>
      obtain rfl : outer' = outer := htail
      refine ⟨scope', rfl, fun name hname => ?_⟩
      have hhead := List.head_eq_of_cons_eq (hspares name hname)
      exact hhead.trans (hscope name hname)
  cases h with
  | top =>
    obtain rfl := List.length_eq_zero_iff.mp hlength
    exact .top
  | block h hscope =>
    obtain ⟨scope', rfl, hscope'⟩ := hplain rfl hscope
    exact .block h hscope'
  | closure h hscope =>
    obtain ⟨scope', rfl, hscope'⟩ := hplain rfl hscope
    exact .closure h hscope'
  | method h hf hscope =>
    obtain ⟨scope', rfl, hscope'⟩ := hplain rfl hscope
    exact .method h hf hscope'
  | inheritor h hf hscope =>
    obtain ⟨scope', rfl, hscope'⟩ := hplain rfl hscope
    exact .inheritor h hf hscope'

end Nest

/-- Whether a construct is a block or the call of a function. -/
def Construct.isInner : Construct → Bool
  | .block _ | .call _ => true
  | .receiver _ | .inheritance _ => false

/-- The number of open scopes inside the innermost one that has a name. -/
def depth? (scopes : List Scope) (name : String) : Option Nat :=
  scopes.findIdx? fun scope => (scope.lookup name).isSome

/-- The nearest method around a piece is the method `f` of the class `c`, and the constructs between
them are `inner`. The name `this` is found in the scope around the method, and in a class that
inherits `super` is found in the next one. -/
structure Nearest (home : Home) (cs : List Construct) (scopes : List Scope)
    (inner : List Construct) (f : FunctionDecl) (c : ClassDecl) : Prop where
  /-- The method is one of the class. -/
  mem : f ∈ c.methods
  /-- Only blocks and functions lie in between. -/
  isInner : ∀ k ∈ inner, k.isInner
  /-- The constructs around the piece. -/
  around : inner ++ [.call f, .receiver c] <+: cs
  /-- The scope around the method. -/
  receiver : scopes[inner.length + 1]? = some [("this", true)]
  /-- Where `this` is found. -/
  this : depth? scopes "this" = some (inner.length + 1)
  /-- Where `super` is found. -/
  super : home = .derived → cs[inner.length + 2]? = some (.inheritance c) ∧
    scopes[inner.length + 2]? = some [("super", true)] ∧
    depth? scopes "super" = some (inner.length + 2)

/-- A plain scope puts a reserved name one scope further out. -/
theorem depth?_plain {scope : Scope} (hscope : scope.Plain) {name : String}
    (hname : Reserved name) (scopes : List Scope) :
    depth? (scope :: scopes) name = (depth? scopes name).map (· + 1) := by
  simp [depth?, List.findIdx?_cons, hscope name hname]

section Nearest

variable {home : Home} {cs inner : List Construct} {scopes : List Scope} {f : FunctionDecl}
  {c : ClassDecl}

/-- With one more block or function in between, everything is found one scope further out. -/
theorem Nearest.within (h : Nearest home cs scopes inner f c) {k : Construct} (hk : k.isInner)
    {scope : Scope} (hscope : scope.Plain) :
    Nearest home (k :: cs) (scope :: scopes) (k :: inner) f c where
  mem := h.mem
  isInner := List.forall_mem_cons.mpr ⟨hk, h.isInner⟩
  around := (List.prefix_cons_inj k).mpr h.around
  receiver := h.receiver
  this := by rw [depth?_plain hscope (.inl rfl), h.this]; rfl
  super hhome := by
    obtain ⟨hconstruct, hscope', hdepth⟩ := h.super hhome
    refine ⟨hconstruct, hscope', ?_⟩
    rw [depth?_plain hscope (.inr rfl), hdepth]
    rfl

/-- Within a class there is a nearest method. -/
theorem Nest.nearest (h : Nest home cs scopes) (hhome : home ≠ .none) :
    ∃ inner f c, Nearest home cs scopes inner f c := by
  induction h with
  | top => exact absurd rfl hhome
  | block h hscope ih =>
    obtain ⟨inner, f, c, hnearest⟩ := ih hhome
    exact ⟨_, f, c, hnearest.within rfl hscope⟩
  | closure h hscope ih =>
    obtain ⟨inner, f, c, hnearest⟩ := ih hhome
    exact ⟨_, f, c, hnearest.within rfl hscope⟩
  | @method home c f cs scope scopes h hf hscope =>
    refine ⟨[], f, c, hf, by simp, ?_, rfl, ?_, by simp⟩
    · exact ⟨cs, rfl⟩
    · rw [depth?_plain hscope (.inl rfl)]
      rfl
  | @inheritor home c f cs scope scopes h hf hscope =>
    refine ⟨[], f, c, hf, by simp, ?_, rfl, ?_, fun _ => ⟨rfl, rfl, ?_⟩⟩
    · exact ⟨.inheritance c :: cs, rfl⟩
    · rw [depth?_plain hscope (.inl rfl)]
      rfl
    · rw [depth?_plain hscope (.inr rfl)]
      rfl

end Nearest

namespace Visit

/-- What surrounds a visited piece is in order. -/
def Nested (v : Visit) : Prop :=
  match v.piece with
  | .methods fs => ∃ c, (∀ f ∈ fs, f ∈ c.methods) ∧ ClassNest c v.ctx.home v.around v.walk.scopes
  | .function f => Nest v.ctx.home v.around v.walk.scopes ∨
      ∃ c, f ∈ c.methods ∧ ClassNest c v.ctx.home v.around v.walk.scopes
  | _ => Nest v.ctx.home v.around v.walk.scopes

variable {v : Visit}

/-- The scope of a function has its parameters and no reserved names. -/
theorem plain_parameters (hv : v.Names Token.Spelled) {f : FunctionDecl}
    (hpiece : v.piece = .function f) :
    ∃ scope, ((v.walk.enter []).parameters f.params).scopes = scope :: v.walk.scopes ∧
      scope.Plain := by
  have hne {name : String} (hname : Reserved name) : ∀ t ∈ f.params, t.lexeme ≠ name :=
    fun t ht => hv.ne hname (by rw [hpiece]; exact List.mem_map_of_mem ht)
  have houter := Walk.sameOuter_parameters (v.walk.enter []) f.params
  have hspares {name : String} (hname : Reserved name) :=
    Walk.Spares.parameters (v.walk.enter []) (hne hname)
  cases hscopes : ((v.walk.enter []).parameters f.params).scopes with
  | nil => simp [Walk.SameOuter, hscopes] at houter
  | cons scope outer =>
    obtain rfl : outer = v.walk.scopes := by simpa [Walk.SameOuter, hscopes] using houter.1
    refine ⟨scope, rfl, fun name hname => ?_⟩
    have hmap := hspares hname
    rw [Walk.Spares, hscopes] at hmap
    exact List.head_eq_of_cons_eq hmap

/-- What surrounds the parts of a piece is in order if what surrounds the piece is. -/
theorem nested_parts (hnames : All (Names Token.Spelled) v) (hv : v.Nested) :
    ∀ p ∈ v.parts, p.Nested := by
  obtain ⟨ctx, piece, w, around⟩ := v
  have hself := hnames.self
  cases piece with
  | expr e =>
    cases e <;> simp_all [parts, exprParts, Nested, onto, toFunction]
  | exprs es => cases es <;> simp_all [parts, Nested, onto]
  | entries es => obtain _ | ⟨⟨key, e⟩, es⟩ := es <;> simp_all [parts, Nested, onto]
  | function f =>
    obtain ⟨scope, hscopes, hscope⟩ := plain_parameters hself rfl
    simp only [parts, List.forall_mem_singleton, Nested]
    rw [hscopes]
    obtain hv | ⟨c, hf, hv⟩ := hv
    · exact .closure hv hscope
    · exact .of_class hv hf hscope
  | methods fs =>
    cases fs with
    | nil => simp [parts]
    | cons f fs =>
      obtain ⟨c, hfs, hv⟩ := hv
      rw [List.forall_mem_cons] at hfs
      have hrest : ClassNest c ctx.home around
          (walkFunction { ctx with body := .ofMethod f } f w).scopes := by
        rwa [walkFunction_scopes]
      exact List.forall_mem_cons.mpr ⟨.inr ⟨c, hfs.1, hv⟩,
        List.forall_mem_singleton.mpr ⟨c, hfs.2, hrest⟩⟩
  | declarators ds =>
    -- A name is declared before its initial value and the other variables are visited.
    have hdeclare {t : Token} (ht : (.identifier, t) ∈ (Piece.declarators ds).words) :
        Nest ctx.home around (w.declare t).scopes :=
      Nest.change hv (Walk.sameOuter_declare w t) fun _ hname => .declare w (hself.ne hname ht)
    have hdefine {t : Token} (ht : (.identifier, t) ∈ (Piece.declarators ds).words) {w : Walk}
        (h : Nest ctx.home around w.scopes) : Nest ctx.home around (w.define t).scopes :=
      h.change (Walk.sameOuter_define w t) fun _ hname => .define w (hself.ne hname ht)
    obtain _ | ⟨⟨t, _ | e⟩, ds⟩ := ds
    · simp [parts]
    · exact List.forall_mem_singleton.mpr
        (hdefine List.mem_cons_self (hdeclare List.mem_cons_self))
    · have hvalue := hdeclare (t := t) List.mem_cons_self
      refine List.forall_mem_cons.mpr ⟨hvalue, List.forall_mem_singleton.mpr ?_⟩
      refine hdefine (t := t) List.mem_cons_self ?_
      rwa [walkExpr_scopes]
  | superclasses name xs => cases xs <;> simp_all [parts, Nested, onto]
  | superclass x => simp [parts]
  | «class» c =>
    have hname : Nest ctx.home around ((w.declare c.name).define c.name).scopes :=
      Nest.change hv (sameOuter_named ⟨ctx, .class c, w, around⟩ c.name) fun _ hname =>
        Walk.Spares.named ⟨ctx, .class c, w, around⟩ (hself.ne hname List.mem_cons_self)
    refine List.forall_mem_cons.mpr ⟨hname, List.forall_mem_singleton.mpr ?_⟩
    unfold Nested
    rw [toMethods_piece]
    refine ⟨c, fun _ hf => hf, ?_⟩
    have hmethods : Nest ctx.home around
        (((w.declare c.name).define c.name).superclasses c.name c.superclasses).scopes := by
      rwa [superclasses_scopes]
    unfold toMethods
    split
    · exact .base hmethods
    · exact .derived hmethods
  | stmt s =>
    -- After a part, the innermost scope may have more names.
    have hafter {p : Visit} (hp : p ∈ (Visit.mk ctx (.stmt s) w around).parts)
        (h : Nest ctx.home around p.walk.scopes) : Nest ctx.home around p.after.scopes :=
      h.change p.scopes_after.1 fun _ hname => p.spares_after (hnames.part hp) hname
    cases s with
    | block ss => exact List.forall_mem_singleton.mpr (.block hv fun _ _ => rfl)
    | branch c t e =>
      have hthen : Nest ctx.home around (walkExpr ctx c w).scopes := by rwa [walkExpr_scopes]
      cases e with
      | none =>
        exact List.forall_mem_cons.mpr ⟨hv, List.forall_mem_singleton.mpr hthen⟩
      | some e =>
        have helse := hafter (List.mem_cons_of_mem _ List.mem_cons_self) hthen
        exact List.forall_mem_cons.mpr
          ⟨hv, List.forall_mem_cons.mpr ⟨hthen, List.forall_mem_singleton.mpr helse⟩⟩
    | loop c s =>
      have hbody : Nest ctx.home around (walkExpr ctx c w).scopes := by rwa [walkExpr_scopes]
      exact List.forall_mem_cons.mpr ⟨hv, List.forall_mem_singleton.mpr hbody⟩
    | function f =>
      refine List.forall_mem_singleton.mpr (.inl ?_)
      obtain ⟨_ | t, keyword, params, body⟩ := f
      · exact hv
      · have hword : (.identifier, t) ∈
            (Piece.stmt (.function ⟨some t, keyword, params, body⟩)).words := by
          simp [Piece.words]
        exact Nest.change hv (sameOuter_named ⟨ctx, .stmt (.function _), w, around⟩ t)
          fun _ hname => Walk.Spares.named ⟨ctx, .stmt (.function _), w, around⟩
            (hself.ne hname hword)
    | result keyword e =>
      cases e with
      | none => simp [parts, stmtParts]
      | some e =>
        refine List.forall_mem_singleton.mpr ?_
        cases ctx with
        | mk body home => cases body <;> exact hv
    | _ => exact List.forall_mem_singleton.mpr hv
  | stmts ss =>
    cases ss with
    | nil => simp [parts]
    | cons s ss =>
      have hstmt : Nest ctx.home around w.scopes := hv
      have hrest := hstmt.change (scopes_after ⟨ctx, .stmt s, w, around⟩).1 fun _ hname =>
        spares_after ⟨ctx, .stmt s, w, around⟩ (hnames.part List.mem_cons_self) hname
      exact List.forall_mem_cons.mpr ⟨hv, List.forall_mem_singleton.mpr hrest⟩

end Visit

end Lox.Scoping

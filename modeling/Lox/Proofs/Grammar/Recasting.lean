import Lox.Proofs.Grammar.Derivation
import Mathlib.Data.List.Forall2

/-!
# Recasting

A program is recast when its tokens are replaced by others of the same kinds, the numbers of its
references all grow by as much, and its shape stays as it is. How a token is replaced may depend on
what it stands for: a local variable that is declared, a reference, or anything else. To this end
the scopes of a program carry marks, which say of a scope whether some variable in it is to have
another name. The marks of the scopes around a piece are given innermost first, as the scopes
themselves are in scoping.

A recast tree is the tree of a recast phrase: `Derives.recast`.
-/

namespace Lox

/-- The variables that a statement declares in the scope around it. -/
def Stmt.variables : Stmt → List Token
  | .declare ds => ds.map Declarator.name
  | _ => []

/-- A token that stands elsewhere. -/
def Token.moved (move : Position → Position) (t : Token) : Token :=
  { t with position := move t.position }

/-- How the tokens of a program are replaced. -/
structure Recasting where
  /-- The token in the place of one that names no variable. -/
  plain : Token → Token
  /-- The token in the place of one that declares a variable, given the mark of its scope. -/
  declared : Bool → Token → Token
  /-- The token in the place of a reference's, given the marks of the scopes around it. -/
  used : List Bool → Reference → Token
  /-- Whether a scope is marked, given the variables that are declared in it. -/
  marks : List Token → Bool
  /-- By how much the numbers of references grow. -/
  shift : Nat

namespace Recasting

variable (A : Recasting) (marks : List Bool)

/-- A reference to a variable, recast. -/
def reference (x : Reference) : Reference :=
  ⟨A.shift + x.id, A.used marks x⟩

/-- The word `this` or `super`, recast. -/
def keyword (x : Reference) : Reference :=
  ⟨A.shift + x.id, A.plain x.name⟩

/-- The mark of the scope of a block. -/
def blockMark (body : List Stmt) : Bool :=
  A.marks (body.flatMap Stmt.variables)

/-- The mark of the scope of a function. -/
def functionMark (params : List Token) (body : List Stmt) : Bool :=
  A.marks (params ++ body.flatMap Stmt.variables)

end Recasting

/-- Tokens stand elsewhere and the numbers of references grow. No scope is marked. -/
def Recasting.moved (move : Position → Position) (shift : Nat) : Recasting where
  plain := Token.moved move
  declared _ := Token.moved move
  used _ x := x.name.moved move
  marks _ := false
  shift := shift

/-- The marks of the scopes around the methods of a class: the scopes of the class have none. -/
def methodMarks (marks : List Bool) (superclasses : List Reference) : List Bool :=
  if superclasses.isEmpty then false :: marks else false :: false :: marks

mutual

/-- An expression, recast. -/
def Expr.recast (A : Recasting) (marks : List Bool) : Expr → Expr
  | .literal v => .literal v
  | .grouping e => .grouping (e.recast A marks)
  | .unary op r => .unary (A.plain op) (r.recast A marks)
  | .binary l op r => .binary (l.recast A marks) (A.plain op) (r.recast A marks)
  | .logical l op r => .logical (l.recast A marks) (A.plain op) (r.recast A marks)
  | .reference x => .reference (A.reference marks x)
  | .assign x e => .assign (A.reference marks x) (e.recast A marks)
  | .call f paren es => .call (f.recast A marks) (A.plain paren) (recastExprs A marks es)
  | .get o name => .get (o.recast A marks) (A.plain name)
  | .set o name e => .set (o.recast A marks) (A.plain name) (e.recast A marks)
  | .index o bracket k => .index (o.recast A marks) (A.plain bracket) (k.recast A marks)
  | .setIndex o bracket k e =>
    .setIndex (o.recast A marks) (A.plain bracket) (k.recast A marks) (e.recast A marks)
  | .this x => .this (A.keyword x)
  | .super x name => .super (A.keyword x) (A.plain name)
  | .function f => .function (f.recast A marks)
  | .array bracket es => .array (A.plain bracket) (recastExprs A marks es)
  | .object brace es => .object (A.plain brace) (recastEntries A marks es)

/-- Expressions, recast. -/
def recastExprs (A : Recasting) (marks : List Bool) : List Expr → List Expr
  | [] => []
  | e :: es => e.recast A marks :: recastExprs A marks es

/-- Entries of an object expression, recast. -/
def recastEntries (A : Recasting) (marks : List Bool) : List Entry → List Entry
  | [] => []
  | ⟨key, e⟩ :: es => ⟨A.plain key, e.recast A marks⟩ :: recastEntries A marks es

/-- A function, recast. -/
def FunctionDecl.recast (A : Recasting) (marks : List Bool) : FunctionDecl → FunctionDecl
  | ⟨name, keyword, params, body⟩ =>
    let mark := A.functionMark params body
    ⟨name.map A.plain, A.plain keyword, params.map (A.declared mark),
      recastStmts A (mark :: marks) body⟩

/-- Functions, recast. -/
def recastMethods (A : Recasting) (marks : List Bool) : List FunctionDecl → List FunctionDecl
  | [] => []
  | f :: fs => f.recast A marks :: recastMethods A marks fs

/-- Declared variables, recast. -/
def recastDeclarators (A : Recasting) (marks : List Bool) : List Declarator → List Declarator
  | [] => []
  | ⟨name, none⟩ :: ds =>
    ⟨A.declared (marks.headD false) name, none⟩ :: recastDeclarators A marks ds
  | ⟨name, some e⟩ :: ds =>
    ⟨A.declared (marks.headD false) name, some (e.recast A marks)⟩ :: recastDeclarators A marks ds

/-- A class, recast. -/
def ClassDecl.recast (A : Recasting) (marks : List Bool) : ClassDecl → ClassDecl
  | ⟨name, superclasses, methods⟩ =>
    ⟨A.plain name, superclasses.map (A.reference marks),
      recastMethods A (methodMarks marks superclasses) methods⟩

/-- A statement, recast. -/
def Stmt.recast (A : Recasting) (marks : List Bool) : Stmt → Stmt
  | .expression e => .expression (e.recast A marks)
  | .print e => .print (e.recast A marks)
  | .declare ds => .declare (recastDeclarators A marks ds)
  | .block ss => .block (recastStmts A (A.blockMark ss :: marks) ss)
  | .branch c t none => .branch (c.recast A marks) (t.recast A marks) none
  | .branch c t (some e) =>
    .branch (c.recast A marks) (t.recast A marks) (some (e.recast A marks))
  | .loop c s => .loop (c.recast A marks) (s.recast A marks)
  | .function f => .function (f.recast A marks)
  | .result keyword none => .result (A.plain keyword) none
  | .result keyword (some e) => .result (A.plain keyword) (some (e.recast A marks))
  | .class c => .class (c.recast A marks)

/-- Statements, recast. -/
def recastStmts (A : Recasting) (marks : List Bool) : List Stmt → List Stmt
  | [] => []
  | s :: ss => s.recast A marks :: recastStmts A marks ss

end

namespace Recasting

/-- A recasting that replaces tokens by tokens of the same kinds. -/
structure KeepsKinds (A : Recasting) : Prop where
  /-- So it does with tokens that name no variable. -/
  plain : ∀ t, (A.plain t).kind = t.kind
  /-- So it does with tokens that declare one. -/
  declared : ∀ mark t, (A.declared mark t).kind = t.kind
  /-- So it does with tokens of references. -/
  used : ∀ marks x, (A.used marks x).kind = x.name.kind

/-- A token may be replaced by another one. -/
inductive Casts (A : Recasting) : Token → Token → Prop
  | plain (t : Token) : Casts A t (A.plain t)
  | declared (mark : Bool) (t : Token) (ht : t.kind = .identifier) : Casts A t (A.declared mark t)
  | used (marks : List Bool) (x : Reference) (hx : x.name.kind = .identifier) :
    Casts A x.name (A.used marks x)

/-- A recast token has the same kind. -/
theorem Casts.kind {A : Recasting} (hA : A.KeepsKinds) {t t' : Token} (h : A.Casts t t') :
    t'.kind = t.kind := by
  cases h with
  | plain => exact hA.plain t
  | declared mark => exact hA.declared mark t
  | used marks x => exact hA.used marks x

end Recasting

/-- As many expressions are recast as there are. -/
theorem length_recastExprs (A : Recasting) (marks : List Bool) (es : List Expr) :
    (recastExprs A marks es).length = es.length := by
  induction es with
  | nil => rfl
  | cons e es ih => simpa [recastExprs] using ih

namespace Grammar

/-- The tree of a category, recast. -/
def Category.recast (A : Recasting) (marks : List Bool) : (c : Category) → c.Tree → c.Tree
  | .expression, e | .tier _, e | .operand _, e | .unary, e | .call, e | .primary, e
  | .terminated, e => e.recast A marks
  | .optional, e => e.map (Expr.recast A marks)
  | .expressions, es | .arguments, es | .elements, es => recastExprs A marks es
  | .pairs, es | .entries, es => recastEntries A marks es
  | .names, ts | .parameters, ts => ts.map (A.declared (marks.headD false))
  | .references, xs | .superclasses, xs => xs.map (A.reference marks)
  | .declarator, d => ⟨A.declared (marks.headD false) d.name, d.initializer.map (·.recast A marks)⟩
  | .declarators, ds => recastDeclarators A marks ds
  | .declarations, ss | .block, ss => recastStmts A marks ss
  | .function, f => f.recast A marks
  | .methods, fs => recastMethods A marks fs
  | .start, s => s.map (Stmt.recast A marks)
  | .declaration, s | .statement _, s => s.recast A marks

/-- The tokens `ts`, replaced one by one, are a phrase whose tree is the recast one. -/
def Recasts (A : Recasting) (marks : List Bool) (c : Category) (ts : List Token) (n : Nat)
    (a : c.Tree) (n' : Nat) : Prop :=
  ∃ ts', List.Forall₂ A.Casts ts ts' ∧
    Derives c ts' (A.shift + n) (c.recast A marks a) (A.shift + n')

section Recast

variable {A : Recasting} {c : Category} {ts : List Token} {n n' : Nat} {a : c.Tree}

/-- The tree of a declarator in a list, recast. -/
theorem recastDeclarators_cons (A : Recasting) (marks : List Bool) (d : Declarator)
    (ds : List Declarator) :
    recastDeclarators A marks (d :: ds) =
      Category.recast A marks .declarator d :: recastDeclarators A marks ds := by
  obtain ⟨name, _ | e⟩ := d <;> rfl

/-- The scopes of a counting loop: one around all of it if there is a start, and one around each
round if there is a step. -/
theorem recast_forLoop (A : Recasting) (marks : List Bool) (start : Option Stmt)
    (condition step : Option Expr) (body : Stmt) :
    ∃ outer inner, (forLoop start condition step body).recast A marks =
      forLoop (start.map (Stmt.recast A outer)) (condition.map (Expr.recast A outer))
        (step.map (Expr.recast A inner)) (body.recast A inner) := by
  have hcondition (ms : List Bool) : (condition.getD (.literal (.boolean true))).recast A ms =
      (condition.map (Expr.recast A ms)).getD (.literal (.boolean true)) := by
    cases condition <;> rfl
  -- The scopes within the loop, given those around it.
  have hloop (ms : List Bool) : ∃ inner, (forLoop none condition step body).recast A ms =
      forLoop none (condition.map (Expr.recast A ms)) (step.map (Expr.recast A inner))
        (body.recast A inner) := by
    cases step with
    | none => exact ⟨ms, by simp [forLoop, Stmt.recast, hcondition]⟩
    | some e =>
      refine ⟨A.blockMark [body, .expression e] :: ms, ?_⟩
      simp [forLoop, Stmt.recast, recastStmts, hcondition]
  cases start with
  | none =>
    obtain ⟨inner, hinner⟩ := hloop marks
    exact ⟨marks, inner, hinner⟩
  | some s =>
    let outer := A.blockMark [s, forLoop none condition step body] :: marks
    obtain ⟨inner, hinner⟩ := hloop outer
    refine ⟨outer, inner, ?_⟩
    calc (forLoop (some s) condition step body).recast A marks
        = .block [s.recast A outer, (forLoop none condition step body).recast A outer] := rfl
      _ = _ := by rw [hinner]; rfl

/-- The first token of a recast phrase has the same kind. -/
theorem kind_head_of_casts (hA : A.KeepsKinds) {ts' : List Token}
    (h : List.Forall₂ A.Casts ts ts') {kind : Token.Kind} (hts : ∀ t ∈ ts.head?, t.kind ≠ kind) :
    ∀ t ∈ ts'.head?, t.kind ≠ kind := by
  cases h with
  | nil => exact hts
  | cons ht _ =>
    rintro _ ⟨⟩
    rw [ht.kind hA]
    exact hts _ rfl

open List in
/-- A recast phrase has the recast tree. -/
theorem Derives.recast (hA : A.KeepsKinds) (h : Derives c ts n a n') (marks : List Bool) :
    Recasts A marks c ts n a n' := by
  -- Each token is replaced on its own, and by one of the same kind.
  have hkind {t : Token} {kind : Token.Kind} (ht : t.kind = kind) : (A.plain t).kind = kind :=
    (hA.plain t).trans ht
  have hcasts (t : Token) : Forall₂ A.Casts [t] [A.plain t] := .cons (.plain t) .nil
  induction h generalizing marks with
  | disjunction _ ih =>
    obtain ⟨ts', hts, h⟩ := ih marks
    exact ⟨ts', hts, .disjunction h⟩
  | assign hname hequals _ ih =>
    obtain ⟨us', hus, h⟩ := ih marks
    exact ⟨_, .cons (.used marks ⟨_, _⟩ hname) (.cons (.plain _) hus),
      .assign ((hA.used marks ⟨_, _⟩).trans hname) (hkind hequals) h⟩
  | set _ hdot hname hequals _ iho ih =>
    obtain ⟨ts', hts, ho⟩ := iho marks
    obtain ⟨us', hus, h⟩ := ih marks
    exact ⟨_, rel_append hts (.cons (.plain _) (.cons (.plain _) (.cons (.plain _) hus))),
      .set ho (hkind hdot) (hkind hname) (hkind hequals) h⟩
  | setIndex _ hleft _ hright hequals _ iho ihk ih =>
    obtain ⟨ts', hts, ho⟩ := iho marks
    obtain ⟨us', hus, hk⟩ := ihk marks
    obtain ⟨vs', hvs, h⟩ := ih marks
    exact ⟨_, rel_append (rel_append hts (.cons (.plain _) hus))
      (.cons (.plain _) (.cons (.plain _) hvs)),
      .setIndex ho (hkind hleft) hk (hkind hright) (hkind hequals) h⟩
  | single _ ih =>
    obtain ⟨ts', hts, h⟩ := ih marks
    exact ⟨ts', hts, .single h⟩
  | @operator _ _ _ _ _ level _ _ _ _ _ hop _ iha ihb =>
    obtain ⟨ts', hts, ha⟩ := iha marks
    obtain ⟨us', hus, hb⟩ := ihb marks
    have hnode := Derives.operator ha ((hA.plain _).symm ▸ hop) hb
    refine ⟨_, rel_append hts (.cons (.plain _) hus), ?_⟩
    obtain ⟨-, rfl⟩ := operator_iff.mp hop
    cases level <;> exact hnode
  | tighter hnext _ ih =>
    obtain ⟨ts', hts, h⟩ := ih marks
    exact ⟨ts', hts, .tighter hnext h⟩
  | tightest _ ih =>
    obtain ⟨ts', hts, h⟩ := ih marks
    exact ⟨ts', hts, .tightest h⟩
  | sign hop _ ih =>
    obtain ⟨ts', hts, h⟩ := ih marks
    exact ⟨_, .cons (.plain _) hts, .sign ((hA.plain _).symm ▸ hop) h⟩
  | unsigned _ ih =>
    obtain ⟨ts', hts, h⟩ := ih marks
    exact ⟨ts', hts, .unsigned h⟩
  | bare _ ih =>
    obtain ⟨ts', hts, h⟩ := ih marks
    exact ⟨ts', hts, .bare h⟩
  | call _ hleft _ hright ihf ihes =>
    obtain ⟨ts', hts, hf⟩ := ihf marks
    obtain ⟨us', hus, hes⟩ := ihes marks
    exact ⟨_, rel_append (rel_append hts (.cons (.plain _) hus)) (hcasts _),
      .call hf (hkind hleft) hes (hkind hright)⟩
  | get _ hdot hname ih =>
    obtain ⟨ts', hts, ho⟩ := ih marks
    exact ⟨_, rel_append hts (.cons (.plain _) (hcasts _)), .get ho (hkind hdot) (hkind hname)⟩
  | index _ hleft _ hright iho ihk =>
    obtain ⟨ts', hts, ho⟩ := iho marks
    obtain ⟨us', hus, hk⟩ := ihk marks
    exact ⟨_, rel_append (rel_append hts (.cons (.plain _) hus)) (hcasts _),
      .index ho (hkind hleft) hk (hkind hright)⟩
  | constant ht => exact ⟨_, hcasts _, .constant ((congrArg constant? (hA.plain _)).trans ht)⟩
  | reference ht =>
    exact ⟨_, .cons (.used marks ⟨_, _⟩ ht) .nil, .reference ((hA.used marks ⟨_, _⟩).trans ht)⟩
  | this ht => exact ⟨_, hcasts _, .this (hkind ht)⟩
  | super ht hdot hname =>
    exact ⟨_, .cons (.plain _) (.cons (.plain _) (hcasts _)),
      .super (hkind ht) (hkind hdot) (hkind hname)⟩
  | grouping hleft _ hright ih =>
    obtain ⟨ts', hts, h⟩ := ih marks
    exact ⟨_, rel_append (.cons (.plain _) hts) (hcasts _),
      .grouping (hkind hleft) h (hkind hright)⟩
  | @lambda _ _ _ _ _ _ _ _ params body hword hleft _ hright _ ihparams ihbody =>
    -- The parameters and the body are in the scope of the function.
    obtain ⟨ts', hts, hparams⟩ := ihparams (A.functionMark params body :: marks)
    obtain ⟨us', hus, hbody⟩ := ihbody (A.functionMark params body :: marks)
    exact ⟨_, rel_append (.cons (.plain _) (.cons (.plain _) hts)) (.cons (.plain _) hus),
      .lambda (hkind hword) (hkind hleft) hparams (hkind hright) hbody⟩
  | array hleft _ hright ih =>
    obtain ⟨ts', hts, h⟩ := ih marks
    exact ⟨_, rel_append (.cons (.plain _) hts) (hcasts _), .array (hkind hleft) h (hkind hright)⟩
  | object hleft _ hright ih =>
    obtain ⟨ts', hts, h⟩ := ih marks
    exact ⟨_, rel_append (.cons (.plain _) hts) (hcasts _), .object (hkind hleft) h (hkind hright)⟩
  | absent => exact ⟨[], .nil, .absent⟩
  | present _ ih =>
    obtain ⟨ts', hts, h⟩ := ih marks
    exact ⟨ts', hts, .present h⟩
  | terminated _ hstop ih =>
    obtain ⟨ts', hts, h⟩ := ih marks
    exact ⟨_, rel_append hts (hcasts _), .terminated h (hkind hstop)⟩
  | lastExpression _ ih =>
    obtain ⟨ts', hts, h⟩ := ih marks
    exact ⟨ts', hts, .lastExpression h⟩
  | moreExpressions _ hcomma _ ih ihes =>
    obtain ⟨ts', hts, h⟩ := ih marks
    obtain ⟨us', hus, hes⟩ := ihes marks
    exact ⟨_, rel_append hts (.cons (.plain _) hus), .moreExpressions h (hkind hcomma) hes⟩
  | noArguments => exact ⟨[], .nil, .noArguments⟩
  | someArguments _ hlength ih =>
    obtain ⟨ts', hts, h⟩ := ih marks
    exact ⟨ts', hts, .someArguments h (Nat.le_trans (Nat.le_of_eq (length_recastExprs ..)) hlength)⟩
  | noElements => exact ⟨[], .nil, .noElements⟩
  | someElements _ ih =>
    obtain ⟨ts', hts, h⟩ := ih marks
    exact ⟨ts', hts, .someElements h⟩
  | commaElements _ hcomma ih =>
    obtain ⟨ts', hts, h⟩ := ih marks
    exact ⟨_, rel_append hts (hcasts _), .commaElements h (hkind hcomma)⟩
  | lastPair hkey hcolon _ ih =>
    obtain ⟨ts', hts, h⟩ := ih marks
    exact ⟨_, .cons (.plain _) (.cons (.plain _) hts),
      .lastPair ((hA.plain _).symm ▸ hkey) (hkind hcolon) h⟩
  | morePairs hkey hcolon _ hcomma _ ih ihes =>
    obtain ⟨ts', hts, h⟩ := ih marks
    obtain ⟨us', hus, hes⟩ := ihes marks
    exact ⟨_, rel_append (.cons (.plain _) (.cons (.plain _) hts)) (.cons (.plain _) hus),
      .morePairs ((hA.plain _).symm ▸ hkey) (hkind hcolon) h (hkind hcomma) hes⟩
  | noEntries => exact ⟨[], .nil, .noEntries⟩
  | someEntries _ ih =>
    obtain ⟨ts', hts, h⟩ := ih marks
    exact ⟨ts', hts, .someEntries h⟩
  | commaEntries _ hcomma ih =>
    obtain ⟨ts', hts, h⟩ := ih marks
    exact ⟨_, rel_append hts (hcasts _), .commaEntries h (hkind hcomma)⟩
  | lastName ht =>
    exact ⟨_, .cons (.declared (marks.headD false) _ ht) .nil,
      .lastName ((hA.declared _ _).trans ht)⟩
  | moreNames ht hcomma _ ih =>
    obtain ⟨ts', hts, h⟩ := ih marks
    exact ⟨_, .cons (.declared (marks.headD false) _ ht) (.cons (.plain _) hts),
      .moreNames ((hA.declared _ _).trans ht) (hkind hcomma) h⟩
  | noParameters => exact ⟨[], .nil, .noParameters⟩
  | someParameters _ hlength ih =>
    obtain ⟨ts', hts, h⟩ := ih marks
    exact ⟨ts', hts, .someParameters h (Nat.le_trans (Nat.le_of_eq (List.length_map _)) hlength)⟩
  | lastReference ht =>
    exact ⟨_, .cons (.used marks ⟨_, _⟩ ht) .nil, .lastReference ((hA.used marks ⟨_, _⟩).trans ht)⟩
  | moreReferences ht hcomma _ ih =>
    obtain ⟨ts', hts, h⟩ := ih marks
    exact ⟨_, .cons (.used marks ⟨_, _⟩ ht) (.cons (.plain _) hts),
      .moreReferences ((hA.used marks ⟨_, _⟩).trans ht) (hkind hcomma) h⟩
  | noSuperclasses => exact ⟨[], .nil, .noSuperclasses⟩
  | someSuperclasses hless _ ih =>
    obtain ⟨ts', hts, h⟩ := ih marks
    exact ⟨_, .cons (.plain _) hts, .someSuperclasses (hkind hless) h⟩
  | @function _ _ _ _ _ _ _ _ params body hname hleft _ hright _ ihparams ihbody =>
    -- As for a function without a name, there is one scope for the parameters and the body.
    obtain ⟨ts', hts, hparams⟩ := ihparams (A.functionMark params body :: marks)
    obtain ⟨us', hus, hbody⟩ := ihbody (A.functionMark params body :: marks)
    exact ⟨_, rel_append (.cons (.plain _) (.cons (.plain _) hts)) (.cons (.plain _) hus),
      .function (hkind hname) (hkind hleft) hparams (hkind hright) hbody⟩
  | noMethods => exact ⟨[], .nil, .noMethods⟩
  | moreMethods _ _ ih ihfs =>
    obtain ⟨ts', hts, h⟩ := ih marks
    obtain ⟨us', hus, hfs⟩ := ihfs marks
    exact ⟨_, rel_append hts hus, .moreMethods h hfs⟩
  | uninitialized hname =>
    exact ⟨_, .cons (.declared (marks.headD false) _ hname) .nil,
      .uninitialized ((hA.declared _ _).trans hname)⟩
  | initialized hname hequals _ ih =>
    obtain ⟨ts', hts, h⟩ := ih marks
    exact ⟨_, .cons (.declared (marks.headD false) _ hname) (.cons (.plain _) hts),
      .initialized ((hA.declared _ _).trans hname) (hkind hequals) h⟩
  | lastDeclarator _ ih =>
    obtain ⟨ts', hts, h⟩ := ih marks
    refine ⟨ts', hts, ?_⟩
    show Derives .declarators ts' _ (recastDeclarators A marks [_]) _
    rw [recastDeclarators_cons]
    exact .lastDeclarator h
  | moreDeclarators _ hcomma _ ih ihds =>
    obtain ⟨ts', hts, h⟩ := ih marks
    obtain ⟨us', hus, hds⟩ := ihds marks
    refine ⟨_, rel_append hts (.cons (.plain _) hus), ?_⟩
    show Derives .declarators _ _ (recastDeclarators A marks (_ :: _)) _
    rw [recastDeclarators_cons]
    exact .moreDeclarators h (hkind hcomma) hds
  | noDeclarations => exact ⟨[], .nil, .noDeclarations⟩
  | moreDeclarations _ _ ih ihss =>
    obtain ⟨ts', hts, h⟩ := ih marks
    obtain ⟨us', hus, hss⟩ := ihss marks
    exact ⟨_, rel_append hts hus, .moreDeclarations h hss⟩
  | block hleft _ hright ih =>
    obtain ⟨ts', hts, h⟩ := ih marks
    exact ⟨_, rel_append (.cons (.plain _) hts) (hcasts _), .block (hkind hleft) h (hkind hright)⟩
  | @classDeclaration _ _ _ _ _ _ _ _ _ xs _ hword hname _ hleft _ hright ihxs ihfs =>
    -- The superclasses are outside the scopes of the class, the methods within them.
    obtain ⟨ts', hts, hxs⟩ := ihxs marks
    obtain ⟨us', hus, hfs⟩ := ihfs (methodMarks marks xs)
    exact ⟨_, rel_append (rel_append (.cons (.plain _) (.cons (.plain _) hts))
      (.cons (.plain _) hus)) (hcasts _),
      .classDeclaration (hkind hword) (hkind hname) hxs (hkind hleft) hfs (hkind hright)⟩
  | functionDeclaration hword _ ih =>
    obtain ⟨ts', hts, h⟩ := ih marks
    exact ⟨_, .cons (.plain _) hts, .functionDeclaration (hkind hword) h⟩
  | variableDeclaration hword _ hstop ih =>
    obtain ⟨ts', hts, h⟩ := ih marks
    exact ⟨_, rel_append (.cons (.plain _) hts) (hcasts _),
      .variableDeclaration (hkind hword) h (hkind hstop)⟩
  | statement _ ih =>
    obtain ⟨ts', hts, h⟩ := ih marks
    exact ⟨ts', hts, .statement h⟩
  | expression _ hbrace ih =>
    obtain ⟨ts', hts, h⟩ := ih marks
    exact ⟨ts', hts, .expression h (kind_head_of_casts hA hts hbrace)⟩
  | print hword _ ih =>
    obtain ⟨ts', hts, h⟩ := ih marks
    exact ⟨_, .cons (.plain _) hts, .print (hkind hword) h⟩
  | @result _ _ _ _ _ e hword _ hstop ih =>
    obtain ⟨ts', hts, h⟩ := ih marks
    have hresult := Derives.result (hkind hword) h (hkind hstop)
    refine ⟨_, rel_append (.cons (.plain _) hts) (hcasts _), ?_⟩
    cases e <;> exact hresult
  | @blockStatement _ _ _ ss _ ih =>
    obtain ⟨ts', hts, h⟩ := ih (A.blockMark ss :: marks)
    exact ⟨ts', hts, .blockStatement h⟩
  | loop hword hleft _ hright _ ihe ihs =>
    obtain ⟨ts', hts, he⟩ := ihe marks
    obtain ⟨us', hus, hs⟩ := ihs marks
    exact ⟨_, rel_append (.cons (.plain _) (.cons (.plain _) hts)) (.cons (.plain _) hus),
      .loop (hkind hword) (hkind hleft) he (hkind hright) hs⟩
  | branch hword hleft _ hright _ ihe ihs =>
    obtain ⟨ts', hts, he⟩ := ihe marks
    obtain ⟨us', hus, hs⟩ := ihs marks
    exact ⟨_, rel_append (.cons (.plain _) (.cons (.plain _) hts)) (.cons (.plain _) hus),
      .branch (hkind hword) (hkind hleft) he (hkind hright) hs⟩
  | branchElse hword hleft _ hright _ hother _ ihe ihs ihs' =>
    obtain ⟨ts', hts, he⟩ := ihe marks
    obtain ⟨us', hus, hs⟩ := ihs marks
    obtain ⟨vs', hvs, hs'⟩ := ihs' marks
    exact ⟨_, rel_append (rel_append (.cons (.plain _) (.cons (.plain _) hts))
      (.cons (.plain _) hus)) (.cons (.plain _) hvs),
      .branchElse (hkind hword) (hkind hleft) he (hkind hright) hs (hkind hother) hs'⟩
  | noStart hstop => exact ⟨_, hcasts _, .noStart (hkind hstop)⟩
  | variableStart hword _ hstop ih =>
    obtain ⟨ts', hts, h⟩ := ih marks
    exact ⟨_, rel_append (.cons (.plain _) hts) (hcasts _),
      .variableStart (hkind hword) h (hkind hstop)⟩
  | expressionStart _ ih =>
    obtain ⟨ts', hts, h⟩ := ih marks
    exact ⟨ts', hts, .expressionStart h⟩
  | @forLoop _ _ _ _ _ _ _ _ _ _ _ _ _ _ start condition step s _ hword hleft _ _ hstop _ hright _
      htree ihstart ihcondition ihstep ihs =>
    obtain rfl := counting_iff.mp htree
    -- The step is read before the body and is in the same scope as the body.
    obtain ⟨outer, inner, hrecast⟩ := recast_forLoop A marks start condition step s
    obtain ⟨ts', hts, hstart⟩ := ihstart outer
    obtain ⟨us', hus, hcondition⟩ := ihcondition outer
    obtain ⟨vs', hvs, hstep⟩ := ihstep inner
    obtain ⟨ws', hws, hs⟩ := ihs inner
    refine ⟨_, rel_append (rel_append (rel_append (.cons (.plain _) (.cons (.plain _) hts)) hus)
      (.cons (.plain _) hvs)) (.cons (.plain _) hws), ?_⟩
    show Derives (.statement _) _ _ ((Grammar.forLoop start condition step s).recast A marks) _
    rw [hrecast]
    exact .forLoop (hkind hword) (hkind hleft) hstart hcondition (hkind hstop) hstep (hkind hright)
      hs (counting_iff.mpr rfl)

end Recast

/-- Where tokens stand elsewhere and more numbers were given out before, the tree is the moved one.
-/
theorem Derives.moved {c : Category} {ts : List Token} {n n' : Nat} {a : c.Tree}
    (h : Derives c ts n a n') (move : Position → Position) (k : Nat) :
    Derives c (ts.map (Token.moved move)) (k + n) (c.recast (.moved move k) [] a) (k + n') := by
  have hkeeps : (Recasting.moved move k).KeepsKinds :=
    ⟨fun _ => rfl, fun _ _ => rfl, fun _ _ => rfl⟩
  obtain ⟨ts', hcasts, hderives⟩ := h.recast hkeeps []
  have hcast : ∀ t t', (Recasting.moved move k).Casts t t' → t' = t.moved move := by
    rintro _ _ (_ | _ | _) <;> rfl
  have hts' : ts' = ts.map (Token.moved move) := by
    clear h hderives
    induction hcasts with
    | nil => rfl
    | cons ht _ ih => rw [List.map_cons, hcast _ _ ht, ih]
  exact hts' ▸ hderives

end Grammar

end Lox

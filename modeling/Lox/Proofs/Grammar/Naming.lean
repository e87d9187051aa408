import Lox.Proofs.Grammar.Language
import Lox.Proofs.Scoping.Visits

/-!
# The names of parsed trees

What a parsed tree declares and refers to is spelled by tokens of the program: variables, functions
and classes by identifiers, `this` and `super` by their keywords. So whatever holds of all tokens of
a program holds of its names (`Derives.names`). This is read off a derivation, rule by rule.
-/

namespace Lox.Scoping

/-- The tokens by which a piece itself names something, each with the kind that it has to have. -/
def Piece.words : Piece → List (Token.Kind × Token)
  | .expr (.reference x) | .expr (.assign x _) | .superclass x => [(.identifier, x.name)]
  | .expr (.this x) => [(.kwThis, x.name)]
  | .expr (.super x _) => [(.kwSuper, x.name)]
  | .function f => f.params.map (.identifier, ·)
  | .declarators (d :: _) => [(.identifier, d.name)]
  | .stmt (.function f) => f.name.toList.map (.identifier, ·)
  | .class c => [(.identifier, c.name)]
  | _ => []

/-- The names of a visited piece are of the right kinds, and they have a property. -/
def Visit.Names (P : Token → Prop) (v : Visit) : Prop :=
  ∀ word ∈ v.piece.words, word.2.kind = word.1 ∧ P word.2

/-- The names in a piece are of the right kinds and have a property, wherever it is visited. -/
def Piece.Names (P : Token → Prop) (p : Piece) : Prop :=
  ∀ ctx w around, Visit.All (Visit.Names P) ⟨ctx, p, w, around⟩

namespace Visit.All

variable {Q : Visit → Prop} {v p q r : Visit}

/-- A piece without parts. -/
theorem leaf (h : Q v) (hparts : v.parts = []) : All Q v :=
  .mk h (by simp [hparts])

/-- A piece with one part. -/
theorem one (h : Q v) (hparts : v.parts = [p]) (hp : All Q p) : All Q v :=
  .mk h (by simpa [hparts] using hp)

/-- A piece with two parts. -/
theorem two (h : Q v) (hparts : v.parts = [p, q]) (hp : All Q p) (hq : All Q q) : All Q v :=
  .mk h (by simpa [hparts] using ⟨hp, hq⟩)

/-- A piece with three parts. -/
theorem three (h : Q v) (hparts : v.parts = [p, q, r]) (hp : All Q p) (hq : All Q q)
    (hr : All Q r) : All Q v :=
  .mk h (by simpa [hparts] using ⟨hp, hq, hr⟩)

end Visit.All

namespace Piece

open Visit

variable {P : Token → Prop} {p : Piece}

/-- A piece that names nothing itself. -/
theorem names_nil {v : Visit} (h : v.piece.words = []) : v.Names P := by
  simp [Visit.Names, h]

/-- A piece that names one thing itself. -/
theorem names_single {v : Visit} {kind : Token.Kind} {t : Token}
    (h : v.piece.words = [(kind, t)]) (hkind : t.kind = kind) (ht : P t) : v.Names P := by
  simpa [Visit.Names, h] using ⟨hkind, ht⟩

/-- The names in a function are those of its parameters and in its body. -/
theorem names_function {name : Option Token} {keyword : Token} {params : List Token}
    {body : List Stmt} (hparams : ∀ t ∈ params, t.kind = .identifier ∧ P t)
    (hbody : (Piece.stmts body).Names P) :
    (Piece.function ⟨name, keyword, params, body⟩).Names P := by
  refine fun _ _ _ => .one (fun word hword => ?_) rfl (hbody _ _ _)
  obtain ⟨t, ht, rfl⟩ := List.mem_map.mp hword
  exact hparams t ht

/-- The names in declarations of variables. -/
theorem names_declarators {d : Declarator} {ds : List Declarator}
    (hname : d.name.kind = .identifier ∧ P d.name)
    (h : ∀ e ∈ d.initializer, (Piece.expr e).Names P) (hds : (Piece.declarators ds).Names P) :
    (Piece.declarators (d :: ds)).Names P := by
  intro ctx w around
  obtain ⟨name, _ | e⟩ := d
  · exact .one (names_single rfl hname.1 hname.2) rfl (hds _ _ _)
  · exact .two (names_single rfl hname.1 hname.2) rfl (h e rfl _ _ _) (hds _ _ _)

/-- The names of superclasses. -/
theorem names_superclasses {name : Token} {x : Reference} {xs : List Reference}
    (hx : x.name.kind = .identifier ∧ P x.name) (hxs : (Piece.superclasses name xs).Names P) :
    (Piece.superclasses name (x :: xs)).Names P := fun _ _ _ =>
  .two (names_nil rfl) rfl (.leaf (names_single rfl hx.1 hx.2) rfl) (hxs _ _ _)

/-- The names in a class. -/
theorem names_class {name : Token} {xs : List Reference} {fs : List FunctionDecl}
    (hname : name.kind = .identifier ∧ P name) (hxs : (Piece.superclasses name xs).Names P)
    (hfs : (Piece.methods fs).Names P) : (Piece.class ⟨name, xs, fs⟩).Names P := by
  intro ctx w around
  have hmethods : All (Visit.Names P)
      ((Visit.mk ctx (.class ⟨name, xs, fs⟩) w around).toMethods ⟨name, xs, fs⟩) := by
    unfold toMethods
    split <;> exact hfs _ _ _
  exact .two (names_single rfl hname.1 hname.2) rfl (hxs _ _ _) hmethods

/-- The names in a loop. -/
theorem names_loop {c : Expr} {s : Stmt} (hc : (Piece.expr c).Names P)
    (hs : (Piece.stmt s).Names P) : (Piece.stmt (.loop c s)).Names P := fun _ _ _ =>
  .two (names_nil rfl) rfl (hc _ _ _) (hs _ _ _)

/-- The names in a block of two statements. -/
theorem names_block_pair {s s' : Stmt} (h : (Piece.stmt s).Names P)
    (h' : (Piece.stmt s').Names P) : (Piece.stmt (.block [s, s'])).Names P := by
  have hnil : (Piece.stmts []).Names P := fun _ _ _ => .leaf (names_nil rfl) rfl
  have hlast : (Piece.stmts [s']).Names P := fun _ _ _ =>
    .two (names_nil rfl) rfl (h' _ _ _) (hnil _ _ _)
  have hboth : (Piece.stmts [s, s']).Names P := fun _ _ _ =>
    .two (names_nil rfl) rfl (h _ _ _) (hlast _ _ _)
  exact fun _ _ _ => .one (names_nil rfl) rfl (hboth _ _ _)

end Piece

end Lox.Scoping

namespace Lox.Grammar

open Scoping

/-- The names in the trees of a category are of the right kinds and have a property. -/
def Category.Names (P : Token → Prop) : (c : Category) → c.Tree → Prop
  | .expression, e | .tier _, e | .operand _, e | .unary, e | .call, e | .primary, e
  | .terminated, e => (Piece.expr e).Names P
  | .optional, e => ∀ e' ∈ e, (Piece.expr e').Names P
  | .expressions, es | .arguments, es | .elements, es => (Piece.exprs es).Names P
  | .pairs, es | .entries, es => (Piece.entries es).Names P
  | .names, ts | .parameters, ts => ∀ t ∈ ts, t.kind = .identifier ∧ P t
  | .references, xs | .superclasses, xs => ∀ name, (Piece.superclasses name xs).Names P
  | .declarator, d =>
    (d.name.kind = .identifier ∧ P d.name) ∧ ∀ e ∈ d.initializer, (Piece.expr e).Names P
  | .declarators, ds => (Piece.declarators ds).Names P
  | .declarations, ss | .block, ss => (Piece.stmts ss).Names P
  | .function, f =>
    (∀ t ∈ f.name, t.kind = .identifier ∧ P t) ∧ (Piece.function f).Names P
  | .methods, fs => (Piece.methods fs).Names P
  | .start, s => ∀ s' ∈ s, (Piece.stmt s').Names P
  | .declaration, s | .statement _, s => (Piece.stmt s).Names P

variable {P : Token → Prop}

/-- The names in a counting loop are those in its parts. -/
theorem names_forLoop {start : Option Stmt} {condition step : Option Expr} {s : Stmt}
    (hstart : Category.start.Names P start) (hcondition : Category.optional.Names P condition)
    (hstep : Category.optional.Names P step) (hs : (Piece.stmt s).Names P) :
    (Piece.stmt (forLoop start condition step s)).Names P := by
  have hc : (Piece.expr (condition.getD (.literal (.boolean true)))).Names P := by
    cases condition with
    | none => exact fun _ _ _ => .leaf (Piece.names_nil rfl) rfl
    | some c => exact hcondition c rfl
  have hloop : (Piece.stmt (forLoop none condition step s)).Names P := by
    cases step with
    | none => exact Piece.names_loop hc hs
    | some e =>
      have hexpr : (Piece.stmt (.expression e)).Names P := fun _ _ _ =>
        .one (Piece.names_nil rfl) rfl (hstep e rfl _ _ _)
      exact Piece.names_loop hc (Piece.names_block_pair hs hexpr)
  cases start with
  | none => exact hloop
  | some s' => exact Piece.names_block_pair (hstart s' rfl) hloop

open Piece in
/-- What holds of all tokens of a phrase holds of the names in its tree, and these are of the right
kinds. -/
theorem Derives.names {c : Category} {ts : List Token} {n n' : Nat} {a : c.Tree}
    (h : Derives c ts n a n') (hts : ∀ t ∈ ts, P t) : c.Names P a := by
  induction h with
  | disjunction _ ih | single _ ih | tighter _ _ ih | tightest _ ih | unsigned _ ih | bare _ ih
  | someArguments _ _ ih | someElements _ ih | someEntries _ ih | someParameters _ _ ih
  | statement _ ih => exact ih hts
  | terminated _ _ ih | commaElements _ _ ih | commaEntries _ _ ih | someSuperclasses _ _ ih
  | block _ _ _ ih => exact ih fun t ht => hts t (by simp [ht])
  | assign hname _ _ ih =>
    exact fun _ _ _ => .one (names_single rfl hname (hts _ (by simp))) rfl
      (ih (fun t ht => hts t (by simp [ht])) _ _ _)
  | set _ _ _ _ _ iho ih =>
    exact fun _ _ _ => .two (names_nil rfl) rfl (ih (fun t ht => hts t (by simp [ht])) _ _ _)
      (iho (fun t ht => hts t (by simp [ht])) _ _ _)
  | setIndex _ _ _ _ _ _ iho ihk ih =>
    exact fun _ _ _ => .three (names_nil rfl) rfl (iho (fun t ht => hts t (by simp [ht])) _ _ _)
      (ihk (fun t ht => hts t (by simp [ht])) _ _ _) (ih (fun t ht => hts t (by simp [ht])) _ _ _)
  | @operator _ _ _ _ _ level op a b _ _ hop _ iha ihb =>
    obtain ⟨-, rfl⟩ := operator_iff.mp hop
    have ha := iha fun t ht => hts t (by simp [ht])
    have hb := ihb fun t ht => hts t (by simp [ht])
    cases level <;> exact fun _ _ _ => .two (names_nil rfl) rfl (ha _ _ _) (hb _ _ _)
  | sign _ _ ih | get _ _ _ ih | grouping _ _ _ ih | array _ _ _ ih | object _ _ _ ih =>
    exact fun _ _ _ => .one (names_nil rfl) rfl (ih (fun t ht => hts t (by simp [ht])) _ _ _)
  | call _ _ _ _ ih ih' | index _ _ _ _ ih ih' =>
    exact fun _ _ _ => .two (names_nil rfl) rfl (ih (fun t ht => hts t (by simp [ht])) _ _ _)
      (ih' (fun t ht => hts t (by simp [ht])) _ _ _)
  | constant _ => exact fun _ _ _ => .leaf (names_nil rfl) rfl
  | reference ht | this ht | super ht _ _ =>
    exact fun _ _ _ => .leaf (names_single rfl ht (hts _ (by simp))) rfl
  | lambda _ _ _ _ _ ihparams ihbody =>
    have hparams := ihparams fun t ht => hts t (by simp [ht])
    have hbody := ihbody fun t ht => hts t (by simp [ht])
    exact fun _ _ _ => .one (names_nil rfl) rfl (names_function hparams hbody _ _ _)
  | absent | noStart _ => simp [Category.Names]
  | present _ ih =>
    rintro _ ⟨⟩
    exact ih hts
  | lastExpression _ ih =>
    exact fun _ _ _ => .two (names_nil rfl) rfl (ih hts _ _ _) (.leaf (names_nil rfl) rfl)
  | lastPair _ _ _ ih =>
    exact fun _ _ _ => .two (names_nil rfl) rfl (ih (fun t ht => hts t (by simp [ht])) _ _ _)
      (.leaf (names_nil rfl) rfl)
  | moreExpressions _ _ _ ih ihs | morePairs _ _ _ _ _ ih ihs | moreDeclarations _ _ ih ihs =>
    exact fun _ _ _ => .two (names_nil rfl) rfl (ih (fun t ht => hts t (by simp [ht])) _ _ _)
      (ihs (fun t ht => hts t (by simp [ht])) _ _ _)
  | noArguments | noElements | noEntries | noMethods | noDeclarations =>
    exact fun _ _ _ => .leaf (names_nil rfl) rfl
  | lastName ht => simpa [Category.Names] using ⟨ht, hts _ (by simp)⟩
  | moreNames ht _ _ ih =>
    exact List.forall_mem_cons.mpr ⟨⟨ht, hts _ (by simp)⟩, ih fun t ht => hts t (by simp [ht])⟩
  | noParameters => simp [Category.Names]
  | lastReference ht =>
    exact fun _ => names_superclasses ⟨ht, hts _ (by simp)⟩ fun _ _ _ => .leaf (names_nil rfl) rfl
  | moreReferences ht _ _ ih =>
    exact fun name => names_superclasses ⟨ht, hts _ (by simp)⟩
      (ih (fun t ht => hts t (by simp [ht])) name)
  | noSuperclasses => exact fun _ _ _ _ => .leaf (names_nil rfl) rfl
  | function hname _ _ _ _ ihparams ihbody =>
    refine ⟨?_, names_function (ihparams fun t ht => hts t (by simp [ht]))
      (ihbody fun t ht => hts t (by simp [ht]))⟩
    rintro _ ⟨⟩
    exact ⟨hname, hts _ (by simp)⟩
  | moreMethods _ _ ih ihs =>
    exact fun _ _ _ => .two (names_nil rfl) rfl ((ih fun t ht => hts t (by simp [ht])).2 _ _ _)
      (ihs (fun t ht => hts t (by simp [ht])) _ _ _)
  | uninitialized hname => exact ⟨⟨hname, hts _ (by simp)⟩, by simp⟩
  | initialized hname _ _ ih =>
    refine ⟨⟨hname, hts _ (by simp)⟩, ?_⟩
    rintro _ ⟨⟩
    exact ih fun t ht => hts t (by simp [ht])
  | lastDeclarator _ ih =>
    obtain ⟨hname, hvalue⟩ := ih hts
    exact names_declarators hname hvalue fun _ _ _ => .leaf (names_nil rfl) rfl
  | moreDeclarators _ _ _ ih ihs =>
    obtain ⟨hname, hvalue⟩ := ih fun t ht => hts t (by simp [ht])
    exact names_declarators hname hvalue (ihs fun t ht => hts t (by simp [ht]))
  | classDeclaration _ hname _ _ _ _ ihxs ihfs =>
    have hxs := ihxs fun t ht => hts t (by simp [ht])
    have hfs := ihfs fun t ht => hts t (by simp [ht])
    exact fun _ _ _ => .one (names_nil rfl) rfl
      (names_class ⟨hname, hts _ (by simp)⟩ (hxs _) hfs _ _ _)
  | functionDeclaration _ _ ih =>
    obtain ⟨hname, hf⟩ := ih fun t ht => hts t (by simp [ht])
    refine fun _ _ _ => .one (fun word hword => ?_) rfl (hf _ _ _)
    obtain ⟨t, ht, rfl⟩ := List.mem_map.mp hword
    exact hname t (Option.mem_toList.mp ht)
  | variableDeclaration _ _ _ ih =>
    exact fun _ _ _ => .one (names_nil rfl) rfl (ih (fun t ht => hts t (by simp [ht])) _ _ _)
  | expression _ _ ih | blockStatement _ ih =>
    exact fun _ _ _ => .one (names_nil rfl) rfl (ih hts _ _ _)
  | print _ _ ih =>
    exact fun _ _ _ => .one (names_nil rfl) rfl (ih (fun t ht => hts t (by simp [ht])) _ _ _)
  | @result _ _ _ _ _ e _ _ _ ih =>
    have he := ih fun t ht => hts t (by simp [ht])
    cases e with
    | none => exact fun _ _ _ => .leaf (names_nil rfl) rfl
    | some e => exact fun _ _ _ => .one (names_nil rfl) rfl (he e rfl _ _ _)
  | loop _ _ _ _ _ ih ihs =>
    exact names_loop (ih fun t ht => hts t (by simp [ht])) (ihs fun t ht => hts t (by simp [ht]))
  | branch _ _ _ _ _ ih ihs =>
    exact fun _ _ _ => .two (names_nil rfl) rfl (ih (fun t ht => hts t (by simp [ht])) _ _ _)
      (ihs (fun t ht => hts t (by simp [ht])) _ _ _)
  | branchElse _ _ _ _ _ _ _ ih ihs ihs' =>
    exact fun _ _ _ => .three (names_nil rfl) rfl (ih (fun t ht => hts t (by simp [ht])) _ _ _)
      (ihs (fun t ht => hts t (by simp [ht])) _ _ _) (ihs' (fun t ht => hts t (by simp [ht])) _ _ _)
  | variableStart _ _ _ ih =>
    rintro _ ⟨⟩
    exact fun _ _ _ => .one (names_nil rfl) rfl (ih (fun t ht => hts t (by simp [ht])) _ _ _)
  | expressionStart _ ih =>
    rintro _ ⟨⟩
    exact fun _ _ _ => .one (names_nil rfl) rfl (ih hts _ _ _)
  | forLoop _ _ _ _ _ _ _ _ htree ihstart ihcondition ihstep ihs =>
    obtain rfl := counting_iff.mp htree
    exact names_forLoop (ihstart fun t ht => hts t (by simp [ht]))
      (ihcondition fun t ht => hts t (by simp [ht])) (ihstep fun t ht => hts t (by simp [ht]))
      (ihs fun t ht => hts t (by simp [ht]))

/-- The tokens that are parsed are those before the end. -/
theorem mem_of_mem_start_rest {ts : List Token} {n : Nat} {t : Token}
    (ht : t ∈ (State.start ts n).rest) : t ∈ ts :=
  List.takeWhile_subset _ ht

/-- What holds of all tokens of a program that is parsed without a complaint holds of its names. -/
theorem parse_names {ts : List Token} {n : Nat} (h : (parse ts n).complaints = [])
    (hts : ∀ t ∈ ts, P t) : (Piece.stmts (parse ts n).statements).Names P :=
  ((statements_reads (.start ts n)).2 h).2.names fun t ht => hts t (mem_of_mem_start_rest ht)

/-- What holds of all tokens of an expression that is parsed holds of its names. -/
theorem parseExpression?_names {ts : List Token} {n n' : Nat} {e : Expr}
    (h : parseExpression? ts n = (some e, n')) (hts : ∀ t ∈ ts, P t) :
    (Piece.expr e).Names P := by
  obtain ⟨t, hdone, _, hclean, rfl⟩ := (parseExpression?_eq_some_iff ts n e n').mp h
  obtain ⟨us, hus, hd⟩ := ((expression_reads _).of_done hdone).2 hclean
  have hmem (t : Token) (ht : t ∈ us) : t ∈ (State.start ts n).rest :=
    hus ▸ List.mem_append_left _ ht
  exact hd.names fun t ht => hts t (mem_of_mem_start_rest (hmem t ht))

end Lox.Grammar

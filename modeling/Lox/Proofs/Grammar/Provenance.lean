import Lox.Proofs.Grammar.Composition
import Lox.Proofs.Scoping.Moving

/-!
# Where tokens and positions come from

The tokens in a parsed tree are tokens of the program (`Derives.tokens_subset`), and the walk of
scoping goes down to parts of a tree that have no other tokens. Complaints and violations may be
made at other tokens than those in the tree, but they stand where a token of the program stands
(`position_of_mem_complaints`, `position_of_mem_violations`). For this no production and no piece
has to be looked at again: if the tokens of a program are moved then all that is found is moved with
them, so what did not stand at one of them would move while they stay.
-/

namespace Lox

/-! ## The tokens in a tree -/

mutual

/-- The tokens in an expression. -/
def Expr.tokens : Expr → List Token
  | .literal _ => []
  | .grouping e => e.tokens
  | .unary op e => op :: e.tokens
  | .binary l op r | .logical l op r => l.tokens ++ op :: r.tokens
  | .reference x | .this x => [x.name]
  | .assign x e => x.name :: e.tokens
  | .call f paren es => f.tokens ++ tokensOfExprs es ++ [paren]
  | .get o name => o.tokens ++ [name]
  | .set o name e => o.tokens ++ name :: e.tokens
  | .index o bracket k => o.tokens ++ bracket :: k.tokens
  | .setIndex o bracket k e => o.tokens ++ bracket :: k.tokens ++ e.tokens
  | .super x method => [x.name, method]
  | .function f => f.tokens
  | .array bracket es => bracket :: tokensOfExprs es
  | .object brace es => brace :: tokensOfEntries es

/-- The tokens in several expressions. -/
def tokensOfExprs : List Expr → List Token
  | [] => []
  | e :: es => e.tokens ++ tokensOfExprs es

/-- The tokens in the entries of an object expression. -/
def tokensOfEntries : List Entry → List Token
  | [] => []
  | ⟨key, e⟩ :: es => key :: e.tokens ++ tokensOfEntries es

/-- The tokens in a function. -/
def FunctionDecl.tokens : FunctionDecl → List Token
  | ⟨name, keyword, params, body⟩ => name.toList ++ keyword :: params ++ tokensOfStmts body

/-- The tokens in methods. -/
def tokensOfMethods : List FunctionDecl → List Token
  | [] => []
  | f :: fs => f.tokens ++ tokensOfMethods fs

/-- The tokens in declared variables. -/
def tokensOfDeclarators : List Declarator → List Token
  | [] => []
  | ⟨name, none⟩ :: ds => name :: tokensOfDeclarators ds
  | ⟨name, some e⟩ :: ds => name :: e.tokens ++ tokensOfDeclarators ds

/-- The tokens in a class. -/
def ClassDecl.tokens : ClassDecl → List Token
  | ⟨name, supers, methods⟩ => name :: supers.map Reference.name ++ tokensOfMethods methods

/-- The tokens in a statement. -/
def Stmt.tokens : Stmt → List Token
  | .expression e | .print e => e.tokens
  | .declare ds => tokensOfDeclarators ds
  | .block ss => tokensOfStmts ss
  | .branch c t none => c.tokens ++ t.tokens
  | .branch c t (some e) => c.tokens ++ t.tokens ++ e.tokens
  | .loop c s => c.tokens ++ s.tokens
  | .function f => f.tokens
  | .result keyword none => [keyword]
  | .result keyword (some e) => keyword :: e.tokens
  | .class c => c.tokens

/-- The tokens in several statements. -/
def tokensOfStmts : List Stmt → List Token
  | [] => []
  | s :: ss => s.tokens ++ tokensOfStmts ss

end

namespace Grammar

open Scoping

/-- The tokens in the trees of a category. -/
def Category.tokens : (c : Category) → c.Tree → List Token
  | .expression, e | .tier _, e | .operand _, e | .unary, e | .call, e | .primary, e
  | .terminated, e => e.tokens
  | .optional, e => e.elim [] Expr.tokens
  | .expressions, es | .arguments, es | .elements, es => tokensOfExprs es
  | .pairs, es | .entries, es => tokensOfEntries es
  | .names, ts | .parameters, ts => ts
  | .references, xs | .superclasses, xs => xs.map Reference.name
  | .declarator, d => tokensOfDeclarators [d]
  | .declarators, ds => tokensOfDeclarators ds
  | .declarations, ss | .block, ss => tokensOfStmts ss
  | .function, f => f.tokens
  | .methods, fs => tokensOfMethods fs
  | .start, s => s.elim [] Stmt.tokens
  | .declaration, s | .statement _, s => s.tokens

section Derivations

attribute [local simp] Category.tokens Expr.tokens tokensOfExprs tokensOfEntries
  FunctionDecl.tokens tokensOfMethods tokensOfDeclarators ClassDecl.tokens Stmt.tokens tokensOfStmts

/-- A counting loop has the tokens of its parts. -/
theorem tokens_forLoop {start : Option Stmt} {condition step : Option Expr} {s : Stmt} {t : Token}
    (h : t ∈ (forLoop start condition step s).tokens) :
    t ∈ Category.start.tokens start ∨ t ∈ Category.optional.tokens condition ∨
      t ∈ s.tokens ∨ t ∈ Category.optional.tokens step := by
  cases start <;> cases condition <;> cases step <;> simp_all [forLoop]

/-- The tokens in the tree of a phrase are tokens of the phrase. -/
theorem Derives.tokens_subset {c : Category} {ts : List Token} {n n' : Nat} {a : c.Tree}
    (h : Derives c ts n a n') : ∀ t ∈ c.tokens a, t ∈ ts := by
  induction h with
  | @operator _ _ _ _ _ level _ _ _ _ _ hop _ iha ihb =>
    obtain ⟨-, rfl⟩ := operator_iff.mp hop
    cases level <;> simp_all [Tier.node] <;> grind
  | @result _ _ _ _ _ e _ _ _ ih =>
    cases e with
    | none => simp
    | some e => simp_all
  | @moreDeclarators _ _ _ _ _ _ d _ _ _ _ ih ihs =>
    obtain ⟨name, _ | e⟩ := d
    · simp_all
    · simp_all
      grind
  | forLoop _ _ _ _ _ _ _ _ htree ihstart ihcondition ihstep ihs =>
    obtain rfl := counting_iff.mp htree
    intro t ht
    obtain ht | ht | ht | ht := tokens_forLoop ht
    · simp [ihstart t ht]
    · simp [ihcondition t ht]
    · simp [ihs t ht]
    · simp [ihstep t ht]
  | _ => simp_all <;> grind

end Derivations

/-- The tokens in a program that is parsed without a complaint are tokens of it. -/
theorem parse_tokens {ts : List Token} {n : Nat} (h : (parse ts n).complaints = []) :
    ∀ t ∈ tokensOfStmts (parse ts n).statements, t ∈ ts := fun t ht =>
  List.takeWhile_subset _ (((statements_reads (.start ts n)).2 h).2.tokens_subset t ht)

/-! ## Tokens that stand elsewhere -/

/-- What is found in a program whose tokens stand elsewhere. -/
def Parsed.moved (move : Position → Position) (p : Parsed) : Parsed :=
  ⟨recastStmts (.moved move 0) [] p.statements, p.complaints.map (Complaint.moved move), p.nextId⟩

/-- The state in which a program is parsed whose tokens stand elsewhere. -/
theorem State.start_moved {ts : List Token} (hend : ∃ t ∈ ts, t.kind = .eof)
    (move : Position → Position) (n : Nat) :
    State.start (ts.map (Token.moved move)) n =
      ⟨(State.start ts n).rest.map (Token.moved move), (State.start ts n).last.moved move, n,
        []⟩ := by
  have hsome : (ts.find? (fun t => decide (t.kind = .eof))).isSome := by
    simpa using hend
  obtain ⟨last, hlast⟩ := Option.isSome_iff_exists.mp hsome
  have hkind : (fun t => !decide (t.kind = .eof)) ∘ Token.moved move =
      fun t => !decide (t.kind = .eof) := rfl
  have hkind' : (fun t => decide (t.kind = .eof)) ∘ Token.moved move =
      fun t => decide (t.kind = .eof) := rfl
  unfold State.start
  dsimp only
  rw [List.takeWhile_map, List.find?_map, hkind, hkind', hlast]
  rfl

/-- A program is parsed alike wherever its tokens stand. -/
theorem parse_moved {ts : List Token} (hend : ∃ t ∈ ts, t.kind = .eof)
    (move : Position → Position) (n : Nat) :
    parse (ts.map (Token.moved move)) n = (parse ts n).moved move := by
  let E : Surroundings := ⟨move, 0, [], none, (State.start ts n).last.moved move, by simp⟩
  have hstate : E.state (State.start ts n) = State.start (ts.map (Token.moved move)) n := by
    rw [State.start_moved hend]
    simp [E, Surroundings.state, Surroundings.tokens, State.start]
  have hparsed := statements_whole E rfl (s := State.start ts n) rfl
  rw [parse_eq_parsed, State.parsed, ← hstate, hparsed]
  simp [E, Surroundings.state, Surroundings.recasting, Parsed.moved, parse_eq_parsed, State.parsed]

/-- A position that stays whenever the positions of some tokens stay is the position of one. -/
theorem exists_position {ts : List Token} {p : Position}
    (h : ∀ move : Position → Position, ts.map (Token.moved move) = ts → move p = p) :
    ∃ t ∈ ts, t.position = p := by
  by_contra hnot
  have hne : ∀ t ∈ ts, t.position ≠ p := fun t ht hp => hnot ⟨t, ht, hp⟩
  let move (q : Position) : Position := if q = p then ⟨p.line + 1, p.column⟩ else q
  have hstay : ts.map (Token.moved move) = ts := by
    refine (List.map_congr_left fun t ht => ?_).trans (List.map_id ts)
    simp [Token.moved, move, hne t ht]
  have hmove := congrArg Position.line (h move hstay)
  simp [move] at hmove

section Positions

variable {ts : List Token} {n : Nat}

/-- Where a list stays the same when its elements are mapped, each of them stays the same. -/
theorem eq_of_map_eq_self {α : Type} {f : α → α} {xs : List α} (h : xs.map f = xs) {x : α}
    (hx : x ∈ xs) : f x = x :=
  List.map_inj_left.mp (h.trans (List.map_id xs).symm) x hx

/-- A complaint stands where a token of the program stands. -/
theorem position_of_mem_complaints (hend : ∃ t ∈ ts, t.kind = .eof) {c : Complaint}
    (hc : c ∈ (parse ts n).complaints) : ∃ t ∈ ts, t.position = c.token.position := by
  refine exists_position fun move hstay => ?_
  have hmoved := congrArg Parsed.complaints (parse_moved hend move n)
  rw [hstay] at hmoved
  exact congrArg (fun c => c.token.position) (eq_of_map_eq_self hmoved.symm hc)

/-- A violation in a program stands where a token of the program stands. -/
theorem position_of_mem_violations (hend : ∃ t ∈ ts, t.kind = .eof) {v : Violation}
    (hv : v ∈ (resolve {} (parse ts n).statements).2) :
    ∃ t ∈ ts, t.position = v.token.position := by
  refine exists_position fun move hstay => ?_
  have hparsed := congrArg Parsed.statements (parse_moved hend move n)
  rw [hstay] at hparsed
  have hmoved := congrArg Prod.snd (resolve_moved move 0 [] (parse ts n).statements)
  rw [← show _ = recastStmts (.moved move 0) [] (parse ts n).statements from hparsed] at hmoved
  exact congrArg (fun v => v.token.position) (eq_of_map_eq_self hmoved.symm hv)

/-- Tokens are an expression with one tree at most. -/
theorem Derives.expression_unique {e e' : Expr} {n₁ n₂ : Nat} (h : Derives .expression ts n e n₁)
    (h' : Derives .expression ts n e' n₂) : e = e' := by
  obtain ⟨_, hdone⟩ := h.parses [] (.endAt {}) [] .nil
  obtain ⟨_, hdone'⟩ := h'.parses [] (.endAt {}) [] .nil
  exact (Step.done.inj (hdone.symm.trans hdone')).1

/-- A violation in an expression stands where a token of the expression stands. -/
theorem position_of_mem_resolveExpr {e : Expr} {n' : Nat} (h : Derives .expression ts n e n')
    {v : Violation} (hv : v ∈ (resolveExpr {} e).2) : ∃ t ∈ ts, t.position = v.token.position := by
  refine exists_position fun move hstay => ?_
  have hderives : Derives .expression (ts.map (Token.moved move)) (0 + n)
      (e.recast (.moved move 0) []) (0 + n') := h.moved move 0
  rw [hstay, Nat.zero_add] at hderives
  have hwalk := congrArg Walk.violations (walkExpr_moved move 0 {} [] e {})
  rw [hderives.expression_unique h] at hwalk
  exact congrArg (fun v => v.token.position) (eq_of_map_eq_self hwalk.symm hv)

end Positions

end Grammar

/-! ## The tokens in visited pieces -/

namespace Scoping

/-- The tokens in a piece. -/
def Piece.tokens : Piece → List Token
  | .expr e => e.tokens
  | .exprs es => tokensOfExprs es
  | .entries es => tokensOfEntries es
  | .function f => f.tokens
  | .methods fs => tokensOfMethods fs
  | .declarators ds => tokensOfDeclarators ds
  | .superclasses _ xs => xs.map Reference.name
  | .superclass x => [x.name]
  | .class c => c.tokens
  | .stmt s => s.tokens
  | .stmts ss => tokensOfStmts ss

namespace Visit

variable {v v' p : Visit}

/-- The tokens in a part are tokens in the piece. -/
theorem tokens_part (hp : p ∈ v.parts) : ∀ t ∈ p.piece.tokens, t ∈ v.piece.tokens := by
  obtain ⟨ctx, piece, w, around⟩ := v
  revert p
  cases piece with
  | expr e =>
    cases e <;> simp_all [parts, exprParts, Piece.tokens, Expr.tokens, onto, toFunction]
  | exprs es => cases es <;> simp_all [parts, Piece.tokens, tokensOfExprs]
  | entries es =>
    obtain _ | ⟨⟨key, e⟩, es⟩ := es <;> simp_all [parts, Piece.tokens, tokensOfEntries]
  | function f =>
    obtain ⟨name, keyword, params, body⟩ := f
    simp_all [parts, Piece.tokens, FunctionDecl.tokens]
  | methods fs => cases fs <;> simp_all [parts, Piece.tokens, tokensOfMethods]
  | declarators ds =>
    obtain _ | ⟨⟨name, _ | e⟩, ds⟩ := ds <;> simp_all [parts, Piece.tokens, tokensOfDeclarators]
  | superclasses name xs => cases xs <;> simp_all [parts, Piece.tokens]
  | superclass x => simp_all [parts]
  | «class» c =>
    obtain ⟨name, supers, methods⟩ := c
    simp_all [parts, Piece.tokens, ClassDecl.tokens]
  | stmt s =>
    cases s with
    | branch c t e => cases e <;> simp_all [parts, stmtParts, Piece.tokens, Stmt.tokens]
    | result keyword e => cases e <;> simp_all [parts, stmtParts, Piece.tokens, Stmt.tokens]
    | _ => simp_all [parts, stmtParts, Piece.tokens, Stmt.tokens]
  | stmts ss => cases ss <;> simp_all [parts, Piece.tokens, tokensOfStmts]

/-- The tokens in a visited piece are tokens in each piece around it. -/
theorem tokens_within (h : Within v' v) : ∀ t ∈ v'.piece.tokens, t ∈ v.piece.tokens := by
  induction h with
  | refl => exact fun _ => id
  | tail _ hp ih => exact fun t ht => ih t (tokens_part hp t ht)

end Visit

end Scoping

end Lox

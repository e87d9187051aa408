import Lox.Proofs.Grammar.Derivation
import Lox.Proofs.Scoping.Visits
import Mathlib.Data.List.Nodup

/-!
# Numbers and shapes of parsed trees

The references of a parsed tree have different numbers, all of them given out while the tree was
read, and the tree has the shape that evaluation relies on: what stands under a choice or a loop
declares no name around it, and a function that is declared has a name. Both are read off a
derivation, rule by rule.
-/

namespace Lox.Scoping

/-- The numbers are different from each other and lie between two bounds. -/
structure Spans (ids : List Nat) (n n' : Nat) : Prop where
  /-- The bounds are in order. -/
  le : n ≤ n'
  /-- No number occurs twice. -/
  nodup : ids.Nodup
  /-- Every number lies between the bounds. -/
  bounds : ∀ id ∈ ids, n ≤ id ∧ id < n'

namespace Spans

variable {ids ids' : List Nat} {n n₁ n₂ n' : Nat}

/-- No numbers fit anywhere. -/
theorem nil (h : n ≤ n') : Spans [] n n' :=
  ⟨h, List.nodup_nil, by simp⟩

/-- One number fits before the next one. -/
theorem single (n : Nat) : Spans [n] n (n + 1) :=
  ⟨Nat.le_succ n, List.nodup_singleton n, by simp⟩

/-- Numbers fit behind numbers. -/
theorem append (h : Spans ids n n₁) (h' : Spans ids' n₁ n') : Spans (ids ++ ids') n n' := by
  refine ⟨Nat.le_trans h.le h'.le, ?_, fun id hid => ?_⟩
  · refine List.nodup_append'.mpr ⟨h.nodup, h'.nodup, fun id hid hid' => ?_⟩
    have hlt := (h.bounds id hid).2
    have hle := (h'.bounds id hid').1
    omega
  · have hle := h.le
    have hle' := h'.le
    obtain hid | hid := List.mem_append.mp hid
    · have hbounds := h.bounds id hid
      omega
    · have hbounds := h'.bounds id hid
      omega

/-- The order of the numbers does not matter. -/
theorem perm (h : Spans ids n n') (hids : ids.Perm ids') : Spans ids' n n' :=
  ⟨h.le, hids.nodup h.nodup, fun id hid => h.bounds id (hids.mem_iff.mpr hid)⟩

/-- Numbers fit into a wider range. -/
theorem mono {m m' : Nat} (h : Spans ids n n') (hm : m ≤ n) (hm' : n' ≤ m') : Spans ids m m' := by
  refine ⟨Nat.le_trans hm (Nat.le_trans h.le hm'), h.nodup, fun id hid => ?_⟩
  have hbounds := h.bounds id hid
  omega

end Spans

namespace Visit

/-- The references of a piece take different numbers between two bounds, and the piece has the shape
that evaluation relies on. -/
structure Tidy (v : Visit) (n n' : Nat) : Prop where
  /-- The numbers of the references. -/
  spans : Spans v.ids n n'
  /-- The shape. -/
  shapely : All Shapely v

/-- Visits take their numbers one after the other. -/
def Chained : List Visit → Nat → Nat → Prop
  | [], n, n' => n ≤ n'
  | p :: ps, n, n' => ∃ n₁, p.Tidy n n₁ ∧ Chained ps n₁ n'

variable {v : Visit} {ps : List Visit} {t : Token} {n n' : Nat}

/-- The numbers of chained pieces are different. -/
theorem Chained.spans (h : Chained ps n n') : Spans (ps.flatMap ids) n n' := by
  induction ps generalizing n with
  | nil => exact .nil h
  | cons p ps ih =>
    obtain ⟨n₁, hp, hps⟩ := h
    rw [List.flatMap_cons]
    exact hp.spans.append (ih hps)

/-- Chained pieces have the right shape. -/
theorem Chained.shapely (h : Chained ps n n') : ∀ p ∈ ps, All Shapely p := by
  induction ps generalizing n with
  | nil => simp
  | cons p ps ih =>
    obtain ⟨n₁, hp, hps⟩ := h
    rw [List.forall_mem_cons]
    exact ⟨hp.shapely, ih hps⟩

/-- A piece whose parts are tidy, in whichever order they took their numbers, is tidy itself. -/
theorem Chained.tidy (h : Chained ps n n') (hps : ps.Perm v.parts) (hown : v.own? = none)
    (hv : v.Shapely) : v.Tidy n n' := by
  refine ⟨?_, .mk hv fun p hp => h.shapely p (hps.mem_iff.mpr hp)⟩
  rw [ids_eq, hown]
  exact h.spans.perm (hps.flatMap_right ids)

/-- A piece without a number is tidy if its parts are chained. -/
theorem tidy_of_parts (h : Chained v.parts n n') (hown : v.own? = none) (hv : v.Shapely) :
    v.Tidy n n' :=
  h.tidy (.refl _) hown hv

/-- A piece that resolves a reference after its parts has its number as the last one. -/
theorem tidy_of_own (h : Chained v.parts n n') (hown : v.own? = some ⟨n', t⟩) (hv : v.Shapely) :
    v.Tidy n (n' + 1) := by
  refine ⟨?_, .mk hv h.shapely⟩
  rw [ids_eq, hown]
  exact (h.spans.append (.single n')).perm List.perm_append_comm

/-- A tidy piece is tidy in a wider range. -/
theorem Tidy.mono {m m' : Nat} (h : v.Tidy n n') (hm : m ≤ n) (hm' : n' ≤ m') : v.Tidy m m' :=
  ⟨h.spans.mono hm hm', h.shapely⟩

end Visit

/-- A piece is tidy wherever it is visited. -/
def Piece.Tidy (p : Piece) (n n' : Nat) : Prop :=
  ∀ ctx w around, (Visit.mk ctx p w around).Tidy n n'

namespace Piece

open Visit

variable {n n₁ n₂ n' : Nat}

/-- A declared variable takes the numbers of its initial value. -/
theorem tidy_declarators {d : Declarator} {ds : List Declarator}
    (h : d.initializer.elim (n ≤ n₁) fun e => (Piece.expr e).Tidy n n₁)
    (hds : (Piece.declarators ds).Tidy n₁ n') : (Piece.declarators (d :: ds)).Tidy n n' := by
  intro ctx w around
  obtain ⟨name, _ | e⟩ := d
  · exact tidy_of_parts ⟨_, (hds _ _ _).mono h (Nat.le_refl _), Nat.le_refl _⟩ rfl trivial
  · exact tidy_of_parts ⟨_, h _ _ _, _, hds _ _ _, Nat.le_refl _⟩ rfl trivial

/-- A function is tidy if its body is. -/
theorem tidy_function {name : Option Token} {keyword : Token} {params : List Token}
    {body : List Stmt} (hn : n ≤ n₁) (hbody : (Piece.stmts body).Tidy n₁ n') :
    (Piece.function ⟨name, keyword, params, body⟩).Tidy n n' := fun _ _ _ =>
  tidy_of_parts ⟨_, (hbody _ _ _).mono hn (Nat.le_refl _), Nat.le_refl _⟩ rfl trivial

/-- A class is tidy if its superclasses and then its methods are. -/
theorem tidy_class {name : Token} {xs : List Reference} {fs : List FunctionDecl}
    (hxs : (Piece.superclasses name xs).Tidy n n₁) (hfs : (Piece.methods fs).Tidy n₁ n') :
    (Piece.class ⟨name, xs, fs⟩).Tidy n n' := by
  intro ctx w around
  have hpart : ((Visit.mk ctx (.class ⟨name, xs, fs⟩) w around).toMethods ⟨name, xs, fs⟩).Tidy
      n₁ n' := by
    unfold toMethods
    split <;> exact hfs _ _ _
  exact tidy_of_parts ⟨_, hxs _ _ _, _, hpart, Nat.le_refl _⟩ rfl trivial

/-- A loop is tidy if its condition and then its body are. -/
theorem tidy_loop {c : Expr} {s : Stmt} (hc : (Piece.expr c).Tidy n n₁)
    (hs : (Piece.stmt s).Tidy n₁ n') (hplain : s.isPlain) : (Piece.stmt (.loop c s)).Tidy n n' :=
  fun _ _ _ => tidy_of_parts ⟨_, hc _ _ _, _, hs _ _ _, Nat.le_refl _⟩ rfl hplain

/-- Two statements in a block; the second one may have been read first. -/
theorem tidy_block_pair {s s' : Stmt} (h : (Piece.stmt s).Tidy n n₁)
    (h' : (Piece.stmt s').Tidy n₁ n') : (Piece.stmt (.block [s, s'])).Tidy n n' := by
  intro ctx w around
  have hnil : (Piece.stmts []).Tidy n' n' := fun _ _ _ => tidy_of_parts (Nat.le_refl _) rfl trivial
  have hlast : (Piece.stmts [s']).Tidy n₁ n' := fun _ _ _ =>
    tidy_of_parts ⟨_, h' _ _ _, _, hnil _ _ _, Nat.le_refl _⟩ rfl trivial
  have hboth : (Piece.stmts [s, s']).Tidy n n' := fun _ _ _ =>
    tidy_of_parts ⟨_, h _ _ _, _, hlast _ _ _, Nat.le_refl _⟩ rfl trivial
  exact tidy_of_parts ⟨_, hboth _ _ _, Nat.le_refl _⟩ rfl trivial

/-- Two statements in a block are tidy if the second took its numbers first. -/
theorem tidy_block_swap {s s' : Stmt} (h : (Piece.stmt s).Tidy n₁ n')
    (h' : (Piece.stmt s').Tidy n n₁) : (Piece.stmt (.block [s, s'])).Tidy n n' := by
  intro ctx w around
  have hnil : (Piece.stmts []).Tidy n₁ n₁ := fun _ _ _ => tidy_of_parts (Nat.le_refl _) rfl trivial
  have hlast : (Piece.stmts [s']).Tidy n n₁ := fun _ _ _ =>
    tidy_of_parts ⟨_, h' _ _ _, _, hnil _ _ _, Nat.le_refl _⟩ rfl trivial
  have hboth : (Piece.stmts [s, s']).Tidy n n' := fun _ _ _ =>
    Chained.tidy (show Chained [_, _] _ _ from ⟨_, hlast _ _ _, _, h _ _ _, Nat.le_refl _⟩)
      (.swap ..) rfl trivial
  exact tidy_of_parts ⟨_, hboth _ _ _, Nat.le_refl _⟩ rfl trivial

end Piece

end Lox.Scoping

namespace Lox.Grammar

open Scoping

/-- The trees of a category are tidy, and a statement declares no name. -/
def Category.Tidy : (c : Category) → c.Tree → Nat → Nat → Prop
  | .expression, e, n, n' | .tier _, e, n, n' | .operand _, e, n, n' | .unary, e, n, n'
  | .call, e, n, n' | .primary, e, n, n' | .terminated, e, n, n' => (Piece.expr e).Tidy n n'
  | .optional, e, n, n' => e.elim (n ≤ n') fun e => (Piece.expr e).Tidy n n'
  | .expressions, es, n, n' | .arguments, es, n, n' | .elements, es, n, n' =>
    (Piece.exprs es).Tidy n n'
  | .pairs, es, n, n' | .entries, es, n, n' => (Piece.entries es).Tidy n n'
  | .names, _, n, n' | .parameters, _, n, n' => n ≤ n'
  | .references, xs, n, n' | .superclasses, xs, n, n' =>
    ∀ name, (Piece.superclasses name xs).Tidy n n'
  | .declarator, d, n, n' => d.initializer.elim (n ≤ n') fun e => (Piece.expr e).Tidy n n'
  | .declarators, ds, n, n' => (Piece.declarators ds).Tidy n n'
  | .declarations, ss, n, n' | .block, ss, n, n' => (Piece.stmts ss).Tidy n n'
  | .function, f, n, n' => f.name.isSome ∧ (Piece.function f).Tidy n n'
  | .methods, fs, n, n' => (Piece.methods fs).Tidy n n'
  | .start, s, n, n' => s.elim (n ≤ n') fun s => (Piece.stmt s).Tidy n n'
  | .declaration, s, n, n' => (Piece.stmt s).Tidy n n'
  | .statement _, s, n, n' => s.isPlain ∧ (Piece.stmt s).Tidy n n'

/-- Nodes of a tier have two operands. -/
theorem tidy_node {level : Tier} {a b : Expr} {op : Token} {n n₁ n₂ : Nat}
    (ha : (Piece.expr a).Tidy n n₁) (hb : (Piece.expr b).Tidy n₁ n₂) :
    (Piece.expr (level.node a op b)).Tidy n n₂ := by
  intro ctx w around
  have hparts : Visit.Chained [⟨ctx, .expr a, w, around⟩, ⟨ctx, .expr b, walkExpr ctx a w, around⟩]
      n n₂ := ⟨n₁, ha _ _ _, n₂, hb _ _ _, Nat.le_refl _⟩
  cases level <;> exact hparts.tidy (.refl _) rfl trivial

/-- A counting loop is a loop within at most two blocks. The step is read before the body, which
comes first when the loop runs. -/
theorem tidy_forLoop {start : Option Stmt} {condition step : Option Expr} {s : Stmt}
    {n n₁ n₂ n₃ n₄ : Nat} (hstart : Category.start.Tidy start n n₁)
    (hcondition : Category.optional.Tidy condition n₁ n₂)
    (hstep : Category.optional.Tidy step n₂ n₃)
    (hs : (Category.statement false).Tidy s n₃ n₄) :
    (Category.statement false).Tidy (forLoop start condition step s) n n₄ := by
  obtain ⟨hplain, hs⟩ := hs
  -- The condition, which is `true` if none is given.
  have hc : (Piece.expr (condition.getD (.literal (.boolean true)))).Tidy n₁ n₂ := by
    cases condition with
    | none => exact fun _ _ _ => Visit.tidy_of_parts hcondition rfl trivial
    | some c => exact hcondition
  have hloop : Category.start.Tidy (some (forLoop none condition step s)) n₁ n₄ := by
    cases step with
    | none =>
      exact Piece.tidy_loop hc (fun _ _ _ => (hs _ _ _).mono hstep (Nat.le_refl _)) hplain
    | some e =>
      have hexpr : (Piece.stmt (.expression e)).Tidy n₂ n₃ := fun _ _ _ =>
        Visit.tidy_of_parts ⟨_, hstep _ _ _, Nat.le_refl _⟩ rfl trivial
      exact Piece.tidy_loop hc (Piece.tidy_block_swap hs hexpr) rfl
  cases start with
  | none => exact ⟨rfl, fun _ _ _ => (hloop _ _ _).mono hstart (Nat.le_refl _)⟩
  | some s' => exact ⟨rfl, Piece.tidy_block_pair hstart hloop⟩

open Visit in
/-- The trees that the grammar derives are tidy. -/
theorem Derives.tidy {c : Category} {ts : List Token} {n n' : Nat} {a : c.Tree}
    (h : Derives c ts n a n') : c.Tidy a n n' := by
  induction h with
  | disjunction _ h => exact h
  | assign _ _ _ h =>
    exact fun _ _ _ => tidy_of_own ⟨_, (h _ _ _).mono (Nat.le_succ _) (Nat.le_refl _),
      Nat.le_refl _⟩ rfl trivial
  | set _ _ _ _ _ ho h =>
    exact fun _ _ _ => Chained.tidy
      (show Chained [_, _] _ _ from ⟨_, ho _ _ _, _, h _ _ _, Nat.le_refl _⟩) (.swap ..) rfl trivial
  | setIndex _ _ _ _ _ _ ho hk h =>
    exact fun _ _ _ => tidy_of_parts ⟨_, ho _ _ _, _, hk _ _ _, _, h _ _ _, Nat.le_refl _⟩
      rfl trivial
  | single _ h => exact h
  | operator _ hop _ ha hb =>
    obtain ⟨-, rfl⟩ := operator_iff.mp hop
    exact tidy_node ha hb
  | tighter _ _ h => exact h
  | tightest _ h => exact h
  | sign _ _ h => exact fun _ _ _ => tidy_of_parts ⟨_, h _ _ _, Nat.le_refl _⟩ rfl trivial
  | unsigned _ h => exact h
  | bare _ h => exact h
  | call _ _ _ _ hf hes =>
    exact fun _ _ _ => tidy_of_parts ⟨_, hf _ _ _, _, hes _ _ _, Nat.le_refl _⟩ rfl trivial
  | get _ _ _ ho => exact fun _ _ _ => tidy_of_parts ⟨_, ho _ _ _, Nat.le_refl _⟩ rfl trivial
  | index _ _ _ _ ho hk =>
    exact fun _ _ _ => tidy_of_parts ⟨_, ho _ _ _, _, hk _ _ _, Nat.le_refl _⟩ rfl trivial
  | constant _ => exact fun _ _ _ => tidy_of_parts (Nat.le_refl _) rfl trivial
  | reference _ => exact fun _ _ _ => tidy_of_own (Nat.le_refl _) rfl trivial
  | this _ => exact fun _ _ _ => tidy_of_own (Nat.le_refl _) rfl trivial
  | super _ _ _ => exact fun _ _ _ => tidy_of_own (Nat.le_refl _) rfl trivial
  | grouping _ _ _ h => exact fun _ _ _ => tidy_of_parts ⟨_, h _ _ _, Nat.le_refl _⟩ rfl trivial
  | lambda _ _ _ _ _ hparams hbody =>
    exact fun _ _ _ => tidy_of_parts ⟨_, Piece.tidy_function hparams hbody _ _ _, Nat.le_refl _⟩
      rfl trivial
  | array _ _ _ h => exact fun _ _ _ => tidy_of_parts ⟨_, h _ _ _, Nat.le_refl _⟩ rfl trivial
  | object _ _ _ h => exact fun _ _ _ => tidy_of_parts ⟨_, h _ _ _, Nat.le_refl _⟩ rfl trivial
  | absent => exact Nat.le_refl _
  | present _ h => exact h
  | terminated _ _ h => exact h
  | lastExpression _ h =>
    exact fun _ _ _ => tidy_of_parts ⟨_, h _ _ _, _, tidy_of_parts (Nat.le_refl _) rfl trivial,
      Nat.le_refl _⟩ rfl trivial
  | moreExpressions _ _ _ h hes =>
    exact fun _ _ _ => tidy_of_parts ⟨_, h _ _ _, _, hes _ _ _, Nat.le_refl _⟩ rfl trivial
  | noArguments => exact fun _ _ _ => tidy_of_parts (Nat.le_refl _) rfl trivial
  | someArguments _ _ h => exact h
  | noElements => exact fun _ _ _ => tidy_of_parts (Nat.le_refl _) rfl trivial
  | someElements _ h => exact h
  | commaElements _ _ h => exact h
  | lastPair _ _ _ h =>
    exact fun _ _ _ => tidy_of_parts ⟨_, h _ _ _, _, tidy_of_parts (Nat.le_refl _) rfl trivial,
      Nat.le_refl _⟩ rfl trivial
  | morePairs _ _ _ _ _ h hes =>
    exact fun _ _ _ => tidy_of_parts ⟨_, h _ _ _, _, hes _ _ _, Nat.le_refl _⟩ rfl trivial
  | noEntries => exact fun _ _ _ => tidy_of_parts (Nat.le_refl _) rfl trivial
  | someEntries _ h => exact h
  | commaEntries _ _ h => exact h
  | lastName _ => exact Nat.le_refl _
  | moreNames _ _ _ h => exact h
  | noParameters => exact Nat.le_refl _
  | someParameters _ _ h => exact h
  | lastReference _ =>
    exact fun _ _ _ _ => tidy_of_parts ⟨_, tidy_of_own (Nat.le_refl _) rfl trivial, _,
      tidy_of_parts (Nat.le_refl _) rfl trivial, Nat.le_refl _⟩ rfl trivial
  | moreReferences _ _ _ h =>
    exact fun name _ _ _ => tidy_of_parts ⟨_, tidy_of_own (Nat.le_refl _) rfl trivial, _,
      h name _ _ _, Nat.le_refl _⟩ rfl trivial
  | noSuperclasses => exact fun _ _ _ _ => tidy_of_parts (Nat.le_refl _) rfl trivial
  | someSuperclasses _ _ h => exact h
  | function _ _ _ _ _ hparams hbody => exact ⟨rfl, Piece.tidy_function hparams hbody⟩
  | noMethods => exact fun _ _ _ => tidy_of_parts (Nat.le_refl _) rfl trivial
  | moreMethods _ _ h hfs =>
    exact fun _ _ _ => tidy_of_parts ⟨_, h.2 _ _ _, _, hfs _ _ _, Nat.le_refl _⟩ rfl trivial
  | uninitialized _ => exact Nat.le_refl _
  | initialized _ _ _ h => exact h
  | lastDeclarator _ h =>
    exact Piece.tidy_declarators h fun _ _ _ => tidy_of_parts (Nat.le_refl _) rfl trivial
  | moreDeclarators _ _ _ h hds => exact Piece.tidy_declarators h hds
  | noDeclarations => exact fun _ _ _ => tidy_of_parts (Nat.le_refl _) rfl trivial
  | moreDeclarations _ _ h hss =>
    exact fun _ _ _ => tidy_of_parts ⟨_, h _ _ _, _, hss _ _ _, Nat.le_refl _⟩ rfl trivial
  | block _ _ _ h => exact h
  | classDeclaration _ _ _ _ _ _ hxs hfs =>
    exact fun _ _ _ => tidy_of_parts ⟨_, Piece.tidy_class (hxs _) hfs _ _ _, Nat.le_refl _⟩ rfl
      trivial
  | functionDeclaration _ _ h =>
    exact fun _ _ _ => tidy_of_parts ⟨_, h.2 _ _ _, Nat.le_refl _⟩ rfl h.1
  | variableDeclaration _ _ _ h =>
    exact fun _ _ _ => tidy_of_parts ⟨_, h _ _ _, Nat.le_refl _⟩ rfl trivial
  | statement _ h => exact h.2
  | expression _ _ h =>
    exact ⟨rfl, fun _ _ _ => tidy_of_parts ⟨_, h _ _ _, Nat.le_refl _⟩ rfl trivial⟩
  | print _ _ h => exact ⟨rfl, fun _ _ _ => tidy_of_parts ⟨_, h _ _ _, Nat.le_refl _⟩ rfl trivial⟩
  | @result _ _ _ _ _ e _ _ _ h =>
    refine ⟨rfl, fun _ _ _ => ?_⟩
    cases e with
    | none => exact tidy_of_parts h rfl trivial
    | some e => exact tidy_of_parts ⟨_, h _ _ _, Nat.le_refl _⟩ rfl trivial
  | blockStatement _ h =>
    exact ⟨rfl, fun _ _ _ => tidy_of_parts ⟨_, h _ _ _, Nat.le_refl _⟩ rfl trivial⟩
  | loop _ _ _ _ _ he hs => exact ⟨rfl, Piece.tidy_loop he hs.2 hs.1⟩
  | branch _ _ _ _ _ he hs =>
    refine ⟨rfl, fun _ _ _ => tidy_of_parts ⟨_, he _ _ _, _, hs.2 _ _ _, Nat.le_refl _⟩ rfl ?_⟩
    exact ⟨hs.1, by simp⟩
  | branchElse _ _ _ _ _ _ _ he hs hs' =>
    refine ⟨rfl, fun _ _ _ =>
      tidy_of_parts ⟨_, he _ _ _, _, hs.2 _ _ _, _, hs'.2 _ _ _, Nat.le_refl _⟩ rfl ?_⟩
    exact ⟨hs.1, by simpa using hs'.1⟩
  | noStart _ => exact Nat.le_refl _
  | variableStart _ _ _ h =>
    exact fun _ _ _ => tidy_of_parts ⟨_, h _ _ _, Nat.le_refl _⟩ rfl trivial
  | expressionStart _ h =>
    exact fun _ _ _ => tidy_of_parts ⟨_, h _ _ _, Nat.le_refl _⟩ rfl trivial
  | forLoop _ _ _ _ _ _ _ _ htree hstart hcondition hstep hs =>
    obtain rfl := counting_iff.mp htree
    exact tidy_forLoop hstart hcondition hstep hs

end Lox.Grammar

import Lox.Grammar.Step

/-!
# The productions of the grammar

One function for each production, from the whole expression down to the constants and from the
declaration down to the simple statements. A binary operator binds to the left, and the operators
are ordered in tiers; assignment binds to the right and more loosely than all of them. A list of
items is read together with the mark that closes it.

The measure of a call is the number of tokens left, and for calls that use up no token the rank of
the production.
-/

namespace Lox.Grammar

/-- The tiers of binary operators, from the loosest to the tightest. -/
inductive Tier where
  | disjunction | conjunction | equality | comparison | term | factor
deriving DecidableEq, Repr

namespace Tier

/-- The tier that binds next more tightly, if there is one. -/
def tighter : Tier → Option Tier
  | .disjunction => some .conjunction
  | .conjunction => some .equality
  | .equality => some .comparison
  | .comparison => some .term
  | .term => some .factor
  | .factor => none

/-- How many tiers bind at most as loosely. -/
def rank : Tier → Nat
  | .disjunction => 6
  | .conjunction => 5
  | .equality => 4
  | .comparison => 3
  | .term => 2
  | .factor => 1

/-- A tighter tier has a lower rank. -/
theorem rank_tighter {a b : Tier} (h : a.tighter = some b) : b.rank < a.rank := by
  cases a <;> simp [tighter] at h <;> subst h <;> decide

/-- A tier has a rank of at least one. -/
theorem rank_pos (a : Tier) : 0 < a.rank := by
  cases a <;> decide

/-- A tier has a rank of at most six. -/
theorem rank_le (a : Tier) : a.rank ≤ 6 := by
  cases a <;> decide

/-- Whether a kind of token is an operator of a tier. -/
def has : Tier → Token.Kind → Bool
  | .disjunction, .kwOr => true
  | .conjunction, .kwAnd => true
  | .equality, .bangEqual | .equality, .equalEqual => true
  | .comparison, .greater | .comparison, .greaterEqual => true
  | .comparison, .less | .comparison, .lessEqual => true
  | .term, .minus | .term, .plus => true
  | .factor, .star | .factor, .slash => true
  | _, _ => false

/-- The expression that an operator of a tier makes of its operands. -/
def node : Tier → Expr → Token → Expr → Expr
  | .disjunction, l, op, r | .conjunction, l, op, r => .logical l op r
  | _, l, op, r => .binary l op r

end Tier

/-- Whether a kind of token is a sign that stands before its operand. -/
def isSign : Token.Kind → Bool
  | .bang | .minus => true
  | _ => false

/-- Whether a kind of token goes on with a call, a property or an element. -/
def isSuffix : Token.Kind → Bool
  | .leftParen | .dot | .leftBracket => true
  | _ => false

/-- Whether a kind of token can be the key of an entry. -/
def isKey : Token.Kind → Bool
  | .identifier | .string _ | .number _ => true
  | _ => false

/-- The statement that a counting loop stands for: the start once, in a scope around the loop, and
the step after each round, in a scope around the round. A missing condition always holds. -/
def forLoop (start : Option Stmt) (condition step : Option Expr) (body : Stmt) : Stmt :=
  let round := match step with
    | none => body
    | some e => .block [body, .expression e]
  let loop : Stmt := .loop (condition.getD (.literal (.boolean true))) round
  match start with
  | none => loop
  | some s => .block [s, loop]

/-! ## Lists of names -/

/-- A parameter after the first `count` ones. -/
def parameter (count : Nat) (s : State) : Step Token s :=
  (s.limit count .tooManyParameters).expect .identifier .parameterName
    (fun name t ht => .done name t (s.size_limit count .tooManyParameters ▸ ht))
    (Nat.le_of_eq (s.size_limit count .tooManyParameters))

/-- Parameters after the first `count` ones, up to the closing parenthesis. -/
def moreParameters (count : Nat) (s : State) : Step (List Token) s :=
  (parameter count s).andThen
    (fun name t ht =>
      match t.next (· = .comma) with
      | .took _ u hu =>
        have hu : u.size < s.size := Nat.lt_trans hu ht
        (moreParameters (count + 1) u).andThen
          (fun names v hv => .done (name :: names) v (Nat.lt_trans hv hu)) (Nat.le_of_lt hu)
      | .other =>
        t.expect .rightParen .parametersEnd
          (fun _ u hu => .done [name] u (Nat.lt_trans hu ht)) (Nat.le_of_lt ht))
    (Nat.le_refl _)
termination_by s.size

/-- The parameters after an opening parenthesis, up to the closing one. -/
def parameters (s : State) : Step (List Token) s :=
  match s.next (· = .rightParen) with
  | .took _ t ht => .done [] t ht
  | .other => moreParameters 0 s

/-- The names of superclasses. -/
def superclasses (s : State) : Step (List Reference) s :=
  s.expect .identifier .superclassName fun name t _ =>
  let x : Reference := ⟨t.nextId, name⟩
  match t.used.next (· = .comma) with
  | .took _ u hu =>
    have hu : u.size < t.size := hu
    (superclasses u).andThen fun xs v _ => .done (x :: xs) v (by omega)
  | .other => .done [x] t.used (show t.size < s.size by omega)
termination_by s.size

/-! ## Expressions and statements -/

mutual

/-- An expression: an assignment, or else a disjunction. Parsing goes on after a target that
cannot be assigned to. -/
def expression (s : State) : Step Expr s :=
  (tier .disjunction s).andThen fun target t _ =>
  match t.next (· = .equal) with
  | .other => .done target t (by omega)
  | .took equals u _ =>
    (expression u).andThen fun value v _ =>
    match target with
    | .reference x =>
      .done (.assign ⟨v.nextId, x.name⟩ value) v.used (show v.size < s.size by omega)
    | .get o name => .done (.set o name value) v (by omega)
    | .index o bracket k => .done (.setIndex o bracket k value) v (by omega)
    | _ => .done target (v.record ⟨equals, .assignmentTarget⟩) (show v.size < s.size by omega)
termination_by 32 * s.size + 14
decreasing_by
  · have := Tier.disjunction.rank_le
    omega
  · omega

/-- The operands of a tier: expressions of the next tier. -/
def operand (level : Tier) (s : State) : Step Expr s :=
  match _h : level.tighter with
  | some tighter => tier tighter s
  | none => unary s
termination_by 32 * s.size + 2 * level.rank
decreasing_by
  · have := Tier.rank_tighter _h
    omega
  · have := level.rank_pos
    omega

/-- An expression of a tier. -/
def tier (level : Tier) (s : State) : Step Expr s :=
  (operand level s).andThen fun left t _ => chain level s left t (by omega)
termination_by 32 * s.size + 2 * level.rank + 1
decreasing_by
  · omega
  · omega

/-- What follows the operand `left` in a tier, when the expression began in the state `s`. -/
def chain (level : Tier) (s : State) (left : Expr) (t : State) (h : t.size < s.size) :
    Step Expr s :=
  match t.next level.has with
  | .other => .done left t h
  | .took op u _ =>
    (operand level u).andThen fun right v _ =>
      chain level s (level.node left op right) v (by omega)
termination_by 32 * t.size
decreasing_by
  · have := level.rank_le
    omega
  · omega

/-- An operand with the signs before it. -/
def unary (s : State) : Step Expr s :=
  match s.next isSign with
  | .took op t _ => (unary t).andThen fun right u _ => .done (.unary op right) u (by omega)
  | .other => (primary s).andThen fun e t _ => suffixes s e t (by omega)
termination_by 32 * s.size + 1
decreasing_by all_goals omega

/-- What follows the operand `e`, when it began in the state `s`: calls, properties and
elements. -/
def suffixes (s : State) (e : Expr) (t : State) (h : t.size < s.size) : Step Expr s :=
  match t.next isSuffix with
  | .other => .done e t h
  | .took mark u _ =>
    match mark.kind with
    | .leftParen =>
      (arguments u).andThen fun found v _ => suffixes s (.call e found.2 found.1) v (by omega)
    | .dot =>
      u.expect .identifier .propertyName fun name v _ => suffixes s (.get e name) v (by omega)
    | _ =>
      (expression u).andThen fun key v _ =>
      v.expect .rightBracket .indexEnd fun _ w _ => suffixes s (.index e mark key) w (by omega)
termination_by 32 * t.size
decreasing_by all_goals omega

/-- The arguments after an opening parenthesis, and the closing one. -/
def arguments (s : State) : Step (List Expr × Token) s :=
  match s.next (· = .rightParen) with
  | .took paren t ht => .done ([], paren) t ht
  | .other => moreArguments 0 s
termination_by 32 * s.size + 16
decreasing_by all_goals omega

/-- Arguments after the first `count` ones, and the closing parenthesis. -/
def moreArguments (count : Nat) (s : State) : Step (List Expr × Token) s :=
  let t := s.limit count .tooManyArguments
  have ht : t.size = s.size := State.size_limit _ _ _
  (expression t).andThen fun e u _ =>
  match u.next (· = .comma) with
  | .took _ v _ =>
    (moreArguments (count + 1) v).andThen fun found w _ =>
      .done (e :: found.1, found.2) w (by omega)
  | .other => u.expect .rightParen .argumentsEnd fun paren v _ => .done ([e], paren) v (by omega)
termination_by 32 * s.size + 15

/-- An operand without signs or suffixes. -/
def primary (s : State) : Step Expr s :=
  match s.next (fun _ => true) with
  | .other => .failed ⟨s.peek, .expression⟩ s (by omega)
  | .took token t ht =>
    match token.kind with
    | .kwFalse => .done (.literal (.boolean false)) t ht
    | .kwTrue => .done (.literal (.boolean true)) t ht
    | .kwNil => .done (.literal .nil) t ht
    | .number x => .done (.literal (.number x)) t ht
    | .string x => .done (.literal (.string x)) t ht
    | .kwThis => .done (.this ⟨t.nextId, token⟩) t.used ht
    | .kwSuper =>
      t.expect .dot .superDot fun _ u _ =>
      u.expect .identifier .superMethod fun method v _ =>
      .done (.super ⟨v.nextId, token⟩ method) v.used (show v.size < s.size by omega)
    | .identifier => .done (.reference ⟨t.nextId, token⟩) t.used ht
    | .kwFun =>
      t.expect .leftParen .lambdaStart fun _ u _ =>
      (parameters u).andThen fun params v _ =>
      v.expect .leftBrace (.bodyStart .function) fun _ w _ =>
      (block w).andThen fun body x _ => .done (.function ⟨none, token, params, body⟩) x (by omega)
    | .leftParen =>
      (expression t).andThen fun e u _ =>
      u.expect .rightParen .groupingEnd fun _ v _ => .done (.grouping e) v (by omega)
    | .leftBracket =>
      (elements t).andThen fun es u _ => .done (.array token es) u (by omega)
    | .leftBrace =>
      (entries t).andThen fun es u _ => .done (.object token es) u (by omega)
    | _ => .failed ⟨token, .expression⟩ s (by omega)
termination_by 32 * s.size
decreasing_by all_goals omega

/-- The elements of an array, up to the closing bracket. A comma may stand after the last one. -/
def elements (s : State) : Step (List Expr) s :=
  match s.next (· = .rightBracket) with
  | .took _ t ht => .done [] t ht
  | .other =>
    if s.atEnd then .failed ⟨s.peek, .elementsEnd⟩ s (by omega)
    else
      (expression s).andThen fun e t _ =>
      match t.next (· = .comma) with
      | .took _ u _ => (elements u).andThen fun es v _ => .done (e :: es) v (by omega)
      | .other => t.expect .rightBracket .elementsEnd fun _ u _ => .done [e] u (by omega)
termination_by 32 * s.size + 15
decreasing_by all_goals omega

/-- The entries of an object, up to the closing brace. A comma may stand after the last one. -/
def entries (s : State) : Step (List Entry) s :=
  match s.next (· = .rightBrace) with
  | .took _ t ht => .done [] t ht
  | .other =>
    if s.atEnd then .failed ⟨s.peek, .entriesEnd⟩ s (by omega)
    else
      match s.next isKey with
      | .other => .failed ⟨s.peek, .propertyKey⟩ s (by omega)
      | .took key t _ =>
        t.expect .colon .propertyColon fun _ u _ =>
        (expression u).andThen fun e v _ =>
        match v.next (· = .comma) with
        | .took _ w _ => (entries w).andThen fun es x _ => .done (⟨key, e⟩ :: es) x (by omega)
        | .other => v.expect .rightBrace .entriesEnd fun _ w _ => .done [⟨key, e⟩] w (by omega)
termination_by 32 * s.size + 15
decreasing_by all_goals omega

/-- The statements of a block, up to the closing brace. A statement that fails is left out. -/
def block (s : State) : Step (List Stmt) s :=
  match s.next (· = .rightBrace) with
  | .took _ t ht => .done [] t ht
  | .other =>
    if h : s.atEnd then .failed ⟨s.peek, .blockEnd⟩ s (by omega)
    else
      let found := declaration s (State.size_pos h)
      have := found.shorter
      (block found.state).andThen fun body t _ => .done (found.stmt.toList ++ body) t (by omega)
termination_by 32 * s.size + 20

/-- A declaration or statement; one that fails is given up. -/
def declaration (s : State) (h : 0 < s.size) : Recovered s :=
  (declarationStep s).recover h
termination_by 32 * s.size + 19
decreasing_by all_goals omega

/-- A declaration or statement. The word `fun` starts a declaration only before a name. -/
def declarationStep (s : State) : Step Stmt s :=
  match s.next (fun _ => true) with
  | .other => statement s
  | .took first t _ =>
    match first.kind with
    | .kwClass =>
      t.expect .identifier .className fun name u _ =>
      match u.next (· = .less) with
      | .took _ v _ =>
        (superclasses v).andThen fun supers w _ => (classBody name supers w).within
      | .other => (classBody name [] u).within
    | .kwVar => (declarators t).andThen fun ds u _ => .done (.declare ds) u (by omega)
    | .kwFun =>
      match t.next (· = .identifier) with
      | .took _ _ _ => (callable .function t).andThen fun f u _ => .done (.function f) u (by omega)
      | .other => statement s
    | _ => statement s
termination_by 32 * s.size + 18
decreasing_by all_goals omega

/-- The body of a class. -/
def classBody (name : Token) (supers : List Reference) (s : State) : Step Stmt s :=
  s.expect .leftBrace .classStart fun _ t _ =>
  (methods t).andThen fun ms u _ => .done (.class ⟨name, supers, ms⟩) u (by omega)
termination_by 32 * s.size
decreasing_by all_goals omega

/-- The methods of a class, up to the closing brace. -/
def methods (s : State) : Step (List FunctionDecl) s :=
  match s.next (· = .rightBrace) with
  | .took _ t ht => .done [] t ht
  | .other =>
    if s.atEnd then .failed ⟨s.peek, .classEnd⟩ s (by omega)
    else
      (callable .method s).andThen fun m t _ =>
      (methods t).andThen fun ms u _ => .done (m :: ms) u (by omega)
termination_by 32 * s.size + 1
decreasing_by all_goals omega

/-- A named function, from its name on. -/
def callable (sort : Callable) (s : State) : Step FunctionDecl s :=
  s.expect .identifier (.callableName sort) fun name t _ =>
  t.expect .leftParen (.parametersStart sort) fun _ u _ =>
  (parameters u).andThen fun params v _ =>
  v.expect .leftBrace (.bodyStart sort) fun _ w _ =>
  (block w).andThen fun body x _ => .done ⟨some name, name, params, body⟩ x (by omega)
termination_by 32 * s.size
decreasing_by all_goals omega

/-- The variables of a declaration, up to the semicolon. -/
def declarators (s : State) : Step (List Declarator) s :=
  s.expect .identifier .variableName fun name t _ =>
  match t.next (· = .equal) with
  | .took _ u _ =>
    (expression u).andThen fun e v _ => (moreDeclarators ⟨name, some e⟩ v).within
  | .other => (moreDeclarators ⟨name, none⟩ t).within
termination_by 32 * s.size
decreasing_by all_goals omega

/-- The variables after the first one, up to the semicolon. -/
def moreDeclarators (first : Declarator) (s : State) : Step (List Declarator) s :=
  match s.next (· = .comma) with
  | .took _ t _ => (declarators t).andThen fun ds u _ => .done (first :: ds) u (by omega)
  | .other => s.expect .semicolon .declarationEnd fun _ t ht => .done [first] t ht
termination_by 32 * s.size
decreasing_by all_goals omega

/-- An expression with the semicolon after it. -/
def terminated (reason : Reason) (s : State) : Step Expr s :=
  (expression s).andThen fun e t _ =>
  t.expect .semicolon reason fun _ u _ => .done e u (by omega)
termination_by 32 * s.size + 15
decreasing_by all_goals omega

/-- A condition in parentheses. -/
def condition (start stop : Reason) (s : State) : Step Expr s :=
  s.expect .leftParen start fun _ t _ =>
  (expression t).andThen fun e u _ =>
  u.expect .rightParen stop fun _ v _ => .done e v (by omega)
termination_by 32 * s.size
decreasing_by all_goals omega

/-- A statement that declares nothing. -/
def statement (s : State) : Step Stmt s :=
  match s.next (fun _ => true) with
  | .other => (terminated .expressionEnd s).andThen fun e t ht => .done (.expression e) t ht
  | .took first t _ =>
    match first.kind with
    | .kwFor => (forStatement t).within
    | .kwIf =>
      (condition .ifStart .ifEnd t).andThen fun c u _ =>
      (statement u).andThen fun thenBranch v _ =>
      match v.next (· = .kwElse) with
      | .took _ w _ =>
        (statement w).andThen fun elseBranch x _ =>
          .done (.branch c thenBranch (some elseBranch)) x (by omega)
      | .other => .done (.branch c thenBranch none) v (by omega)
    | .kwWhile =>
      (condition .whileStart .whileEnd t).andThen fun c u _ =>
      (statement u).andThen fun body v _ => .done (.loop c body) v (by omega)
    | .kwReturn =>
      match t.next (· = .semicolon) with
      | .took _ u _ => .done (.result first none) u (by omega)
      | .other =>
        (terminated .resultEnd t).andThen fun e u _ => .done (.result first (some e)) u (by omega)
    | .leftBrace => (block t).andThen fun body u _ => .done (.block body) u (by omega)
    | .kwPrint => (terminated .printEnd t).andThen fun e u _ => .done (.print e) u (by omega)
    | _ => (terminated .expressionEnd s).andThen fun e t ht => .done (.expression e) t ht
termination_by 32 * s.size + 17
decreasing_by all_goals omega

/-- A counting loop after its keyword. -/
def forStatement (s : State) : Step Stmt s :=
  s.expect .leftParen .forStart fun _ t _ =>
  match t.next (· = .semicolon) with
  | .took _ u _ => (forCondition none u).within
  | .other =>
    match t.next (· = .kwVar) with
    | .took _ u _ =>
      (declarators u).andThen fun ds v _ => (forCondition (some (.declare ds)) v).within
    | .other =>
      (terminated .expressionEnd t).andThen fun e u _ =>
        (forCondition (some (.expression e)) u).within
termination_by 32 * s.size
decreasing_by all_goals omega

/-- A counting loop from its condition on. -/
def forCondition (start : Option Stmt) (s : State) : Step Stmt s :=
  match s.next (· = .semicolon) with
  | .took _ t _ => (forStep start none t).within
  | .other =>
    (terminated .forConditionEnd s).andThen fun c t _ => (forStep start (some c) t).within
termination_by 32 * s.size + 16
decreasing_by all_goals omega

/-- A counting loop from its step on. -/
def forStep (start : Option Stmt) (c : Option Expr) (s : State) : Step Stmt s :=
  match s.next (· = .rightParen) with
  | .took _ t _ =>
    (statement t).andThen fun body u _ => .done (forLoop start c none body) u (by omega)
  | .other =>
    (expression s).andThen fun e t _ =>
    t.expect .rightParen .forEnd fun _ u _ =>
    (statement u).andThen fun body v _ => .done (forLoop start c (some e) body) v (by omega)
termination_by 32 * s.size + 16
decreasing_by all_goals omega

end

end Lox.Grammar

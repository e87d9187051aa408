import Lox.Proofs.Grammar.Soundness

/-!
# Every phrase is parsed

For each category, `Category.Parses` says what its production does on a phrase of the category with
more tokens behind it: it takes the phrase, if the next token is not one that would make the phrase
longer. Which tokens would do that is said by `Stops` for operators and suffixes. A chain of
operators is a phrase that grows to the left while its production goes on to the right, so there the
statement is that the production comes to the point behind the phrase with its tree as the operand
read so far.
-/

namespace Lox.Grammar

/-! ## How phrases start -/

/-- Whether a kind of token starts an operand without signs. -/
def startsOperand : Token.Kind → Bool
  | .kwFalse | .kwTrue | .kwNil | .number _ | .string _ | .identifier | .kwThis | .kwSuper
  | .kwFun | .leftParen | .leftBracket | .leftBrace => true
  | _ => false

/-- The tokens start with one whose kind has a property, and if that is the word `fun`, then a
parenthesis follows. -/
def Starts (p : Token.Kind → Bool) (ts : List Token) : Prop :=
  ∃ t us, ts = t :: us ∧ p t.kind ∧
    (t.kind = .kwFun → ∃ u vs, us = u :: vs ∧ u.kind = .leftParen)

/-- More tokens behind do not change how a phrase starts. -/
theorem Starts.append {p : Token.Kind → Bool} {ts : List Token} (h : Starts p ts)
    (us : List Token) : Starts p (ts ++ us) := by
  obtain ⟨t, vs, rfl, ht, hfun⟩ := h
  refine ⟨t, vs ++ us, rfl, ht, fun hkind => ?_⟩
  obtain ⟨u, ws, rfl, hu⟩ := hfun hkind
  exact ⟨u, ws ++ us, rfl, hu⟩

/-- A wider property of kinds may be asked for. -/
theorem Starts.imp {p q : Token.Kind → Bool} {ts : List Token} (h : Starts p ts)
    (hpq : ∀ k, p k → q k) : Starts q ts := by
  obtain ⟨t, us, rfl, ht, hfun⟩ := h
  exact ⟨t, us, rfl, hpq _ ht, hfun⟩

/-- A token that is not the word `fun` starts whatever it stands before. -/
theorem Starts.cons {p : Token.Kind → Bool} {t : Token} {kind : Token.Kind} (ht : t.kind = kind)
    (hp : p kind) (hfun : kind ≠ .kwFun) (us : List Token) : Starts p (t :: us) :=
  ⟨t, us, rfl, ht ▸ hp, fun h => absurd (ht ▸ h) hfun⟩

/-- Whether a kind of token starts an expression. -/
def startsExpression (k : Token.Kind) : Bool :=
  isSign k || startsOperand k

/-- Whether a kind of token starts a statement that declares nothing. -/
def startsPlain : Token.Kind → Bool
  | .kwFor | .kwIf | .kwWhile | .kwPrint | .kwReturn => true
  | k => startsExpression k

/-- Whether a kind of token starts a statement or declaration. -/
def startsDeclaration : Token.Kind → Bool
  | .kwClass | .kwVar => true
  | k => startsPlain k

/-- How the phrases of a category start. -/
def Category.Started : Category → List Token → Prop
  | .expression, ts | .tier _, ts | .operand _, ts | .unary, ts | .terminated, ts
  | .expressions, ts => Starts startsExpression ts
  | .call, ts | .primary, ts => Starts startsOperand ts
  | .declaration, ts => ∃ t ∈ ts.head?, startsDeclaration t.kind
  | .statement _, ts => Starts startsPlain ts
  | .declarations, ts => ∀ t ∈ ts.head?, startsDeclaration t.kind
  | .pairs, ts => ∃ t ∈ ts.head?, isKey t.kind
  | .names, ts | .function, ts => ∃ t ∈ ts.head?, t.kind = .identifier
  | .block, ts => ∃ t ∈ ts.head?, t.kind = .leftBrace
  | _, _ => True

/-- An operand starts an expression. -/
theorem startsExpression_of_operand (k : Token.Kind) (h : startsOperand k) :
    startsExpression k := by
  simp [startsExpression, h]

/-- A token that denotes a constant starts an operand and is not the word `fun`. -/
theorem Starts.constant {t : Token} {v : Literal} (ht : constant? t.kind = some v) :
    Starts startsOperand [t] := by
  refine ⟨t, [], rfl, ?_, fun h => ?_⟩
  · unfold constant? at ht
    split at ht <;> simp_all [startsOperand]
  · rw [h] at ht
    simp [constant?] at ht

/-- An expression starts a plain statement. -/
theorem startsPlain_of_expression (k : Token.Kind) (h : startsExpression k) : startsPlain k := by
  cases k with
  | kwFor | kwIf | kwWhile | kwPrint | kwReturn => rfl
  | _ => exact h

/-- A plain statement starts a declaration. -/
theorem startsDeclaration_of_plain (k : Token.Kind) (h : startsPlain k) : startsDeclaration k := by
  cases k with
  | kwClass | kwVar => rfl
  | _ => exact h

/-- Every phrase starts as its category says. -/
theorem Derives.started {c : Category} {ts : List Token} {n n' : Nat} {a : c.Tree}
    (h : Derives c ts n a n') : c.Started ts := by
  induction h with
  | disjunction _ ih | single _ ih | tighter _ _ ih | tightest _ ih => exact ih
  | lastExpression _ ih => exact ih
  | assign hname => exact .cons hname rfl (by simp) _
  | set _ _ _ _ _ ih => exact (ih.imp startsExpression_of_operand).append _
  | setIndex _ _ _ _ _ _ ih =>
    rw [List.append_assoc]
    exact (ih.imp startsExpression_of_operand).append _
  | operator _ _ _ ih => exact ih.append _
  | @sign _ _ _ op _ hop =>
    refine ⟨op, _, rfl, by simp [startsExpression, sign_iff.mp hop], fun h => ?_⟩
    rw [h] at hop
    cases hop
  | unsigned _ ih => exact ih.imp startsExpression_of_operand
  | bare _ ih => exact ih
  | call _ _ _ _ ih | index _ _ _ _ ih =>
    rw [List.append_assoc]
    exact ih.append _
  | get _ _ _ ih => exact ih.append _
  | constant ht => exact .constant ht
  | reference ht => exact .cons ht rfl (by simp) _
  | this ht => exact .cons ht rfl (by simp) _
  | super ht => exact .cons ht rfl (by simp) _
  | grouping hleft | array hleft | object hleft => exact .cons hleft rfl (by simp) _
  | @lambda _ _ _ _ _ word left _ _ _ hword hleft =>
    exact ⟨word, _, rfl, by rw [hword]; rfl, fun _ => ⟨left, _, rfl, hleft⟩⟩
  | terminated _ _ ih => exact ih.append _
  | moreExpressions _ _ _ ih => exact ih.append _
  | @lastPair _ _ _ key _ _ hkey => exact ⟨key, rfl, key_iff.mp hkey⟩
  | @morePairs _ _ _ _ _ key _ _ _ _ hkey => exact ⟨key, rfl, key_iff.mp hkey⟩
  | @lastName _ t ht => exact ⟨t, rfl, ht⟩
  | @moreNames _ _ t _ _ ht => exact ⟨t, rfl, ht⟩
  | @function _ _ _ _ _ name _ _ _ _ hname => exact ⟨name, rfl, hname⟩
  | noDeclarations => exact fun t ht => absurd ht (by simp)
  | moreDeclarations _ _ ih =>
    obtain ⟨t, ht, hkind⟩ := ih
    obtain ⟨vs, rfl⟩ := List.head?_eq_some_iff.mp ht
    exact fun u hu => Option.some.inj hu ▸ hkind
  | @block _ _ _ left _ _ hleft => exact ⟨left, rfl, hleft⟩
  | @classDeclaration _ _ _ _ _ word _ _ _ _ _ hword => exact ⟨word, rfl, by rw [hword]; rfl⟩
  | @functionDeclaration _ _ _ word _ hword => exact ⟨word, rfl, by rw [hword]; rfl⟩
  | @variableDeclaration _ _ _ word _ _ hword => exact ⟨word, rfl, by rw [hword]; rfl⟩
  | statement _ ih =>
    obtain ⟨t, us, rfl, ht, -⟩ := ih
    exact ⟨t, rfl, startsDeclaration_of_plain _ ht⟩
  | expression _ _ ih => exact ih.imp startsPlain_of_expression
  | blockStatement _ ih =>
    obtain ⟨t, ht, hkind⟩ := ih
    obtain ⟨vs, rfl⟩ := List.head?_eq_some_iff.mp ht
    exact .cons hkind rfl (by simp) _
  | print hword | result hword | loop hword | branch hword | branchElse hword | forLoop hword =>
    exact .cons hword rfl (by simp) _
  | _ => trivial

/-! ## What a production does on a phrase -/

/-- The next token is neither a suffix nor an operator of a tier of at most this rank. -/
def Stops (rank : Nat) (rest : List Token) : Prop :=
  ∀ t ∈ rest.head?, isSuffix t.kind = false ∧ ∀ level : Tier, level.rank ≤ rank →
    level.has t.kind = false

/-- The next token does not make an expression longer. -/
def Ends (rest : List Token) : Prop :=
  Stops 6 rest ∧ ∀ t ∈ rest.head?, t.kind ≠ .equal

/-- What stops loose operators stops tight ones. -/
theorem Stops.mono {rank rank' : Nat} {rest : List Token} (h : Stops rank rest)
    (hle : rank' ≤ rank) : Stops rank' rest :=
  fun t ht => ⟨(h t ht).1, fun level hlevel => (h t ht).2 level (Nat.le_trans hlevel hle)⟩

/-- A token that is neither a suffix nor an operator stops every tier. -/
theorem Stops.cons {t : Token} {kind : Token.Kind} (ht : t.kind = kind) (rest : List Token)
    (hsuffix : isSuffix kind = false) (hops : ∀ level : Tier, level.has kind = false) :
    Stops 6 (t :: rest) := by
  intro u hu
  obtain rfl : t = u := Option.some.inj hu
  rw [ht]
  exact ⟨hsuffix, fun level _ => hops level⟩

/-- The marks that close a list or a statement. -/
def isClosing : Token.Kind → Bool
  | .rightParen | .rightBracket | .rightBrace | .comma | .semicolon => true
  | _ => false

/-- A closing mark is neither an operator, a suffix nor the sign of an assignment, so it ends an
expression. -/
theorem Ends.cons {t : Token} {kind : Token.Kind} (ht : t.kind = kind) (hkind : isClosing kind)
    (rest : List Token) : Ends (t :: rest) := by
  have hends : isSuffix kind = false ∧ (∀ level : Tier, level.has kind = false) ∧
      kind ≠ .equal := by
    unfold isClosing at hkind
    split at hkind
    all_goals first
      | contradiction
      | exact ⟨rfl, fun level => by cases level <;> rfl, by simp⟩
  obtain ⟨hsuffix, hops, hequal⟩ := hends
  refine ⟨.cons ht rest hsuffix hops, fun u hu => ?_⟩
  obtain rfl : t = u := Option.some.inj hu
  rwa [ht]

/-- The end of the tokens ends an expression. -/
theorem Ends.nil : Ends [] :=
  ⟨fun _ h => absurd h (by simp), fun _ h => absurd h (by simp)⟩

/-- An operator of a tier is not one of a tighter tier. -/
theorem Stops.of_has {level : Tier} {op : Token} (hop : level.has op.kind) (rest : List Token) :
    Stops (level.rank - 1) (op :: rest) := by
  intro u hu
  obtain rfl : op = u := Option.some.inj hu
  -- No kind of token is an operator of two tiers.
  cases hkind : op.kind <;> rw [hkind] at hop <;> cases level <;>
    first
    | exact absurd hop Bool.false_ne_true
    | exact ⟨rfl, fun level hlevel => by
        cases level <;> first | rfl | exact absurd hlevel (by decide)⟩

/-- What the production for expressions does on one. -/
def ParsesExpression (ts : List Token) (n : Nat) (e : Expr) (n' : Nat) : Prop :=
  ∀ rest last cs, Ends rest →
    (expression ⟨ts ++ rest, last, n, cs⟩).Done e ⟨rest, last, n', cs⟩

/-- What the production for superclasses does on their names. -/
def ParsesReferences (ts : List Token) (n : Nat) (xs : List Reference) (n' : Nat) : Prop :=
  ∀ rest last cs, (∀ t ∈ rest.head?, t.kind ≠ .comma) →
    (superclasses ⟨ts ++ rest, last, n, cs⟩).Done xs ⟨rest, last, n', cs⟩

/-- What the production of a category does on a phrase of it, whatever comes behind. -/
def Parses : (c : Category) → List Token → Nat → c.Tree → Nat → Prop
  | .expression, ts, n, e, n' => ParsesExpression ts n e n'
  | .tier level, ts, n, e, n' => ∀ rest last cs, Stops (level.rank - 1) rest →
    ∀ e' t, (∀ s h, (chain level s e ⟨rest, last, n', cs⟩ h).Done e' t) →
      (tier level ⟨ts ++ rest, last, n, cs⟩).Done e' t
  | .operand level, ts, n, e, n' => ∀ rest last cs, Stops (level.rank - 1) rest →
    (operand level ⟨ts ++ rest, last, n, cs⟩).Done e ⟨rest, last, n', cs⟩
  | .unary, ts, n, e, n' => ∀ rest last cs, Stops 0 rest →
    (unary ⟨ts ++ rest, last, n, cs⟩).Done e ⟨rest, last, n', cs⟩
  | .call, ts, n, e, n' => ∀ rest last cs e' t,
    (∀ s h, (suffixes s e ⟨rest, last, n', cs⟩ h).Done e' t) →
      (unary ⟨ts ++ rest, last, n, cs⟩).Done e' t
  | .primary, ts, n, e, n' => ∀ rest last cs,
    (primary ⟨ts ++ rest, last, n, cs⟩).Done e ⟨rest, last, n', cs⟩
  | .optional, ts, n, e, n' => (ts = [] ∧ e = none ∧ n' = n) ∨
    ∃ e', e = some e' ∧ ParsesExpression ts n e' n' ∧ Starts startsExpression ts
  | .terminated, ts, n, e, n' => ∀ reason rest last cs,
    (terminated reason ⟨ts ++ rest, last, n, cs⟩).Done e ⟨rest, last, n', cs⟩
  | .expressions, ts, n, es, n' => ∀ rest last cs,
    (∀ right count, right.kind = .rightParen → count + es.length ≤ maxItems →
      (moreArguments count ⟨ts ++ right :: rest, last, n, cs⟩).Done (es, right)
        ⟨rest, last, n', cs⟩) ∧
    (∀ right, right.kind = .rightBracket →
      (elements ⟨ts ++ right :: rest, last, n, cs⟩).Done es ⟨rest, last, n', cs⟩) ∧
    (∀ comma right, comma.kind = .comma → right.kind = .rightBracket →
      (elements ⟨ts ++ comma :: right :: rest, last, n, cs⟩).Done es ⟨rest, last, n', cs⟩)
  | .arguments, ts, n, es, n' => ∀ right rest last cs, right.kind = .rightParen →
    (arguments ⟨ts ++ right :: rest, last, n, cs⟩).Done (es, right) ⟨rest, last, n', cs⟩
  | .elements, ts, n, es, n' => ∀ right rest last cs, right.kind = .rightBracket →
    (elements ⟨ts ++ right :: rest, last, n, cs⟩).Done es ⟨rest, last, n', cs⟩
  | .pairs, ts, n, es, n' => ∀ rest last cs,
    (∀ right, right.kind = .rightBrace →
      (entries ⟨ts ++ right :: rest, last, n, cs⟩).Done es ⟨rest, last, n', cs⟩) ∧
    (∀ comma right, comma.kind = .comma → right.kind = .rightBrace →
      (entries ⟨ts ++ comma :: right :: rest, last, n, cs⟩).Done es ⟨rest, last, n', cs⟩)
  | .entries, ts, n, es, n' => ∀ right rest last cs, right.kind = .rightBrace →
    (entries ⟨ts ++ right :: rest, last, n, cs⟩).Done es ⟨rest, last, n', cs⟩
  | .names, ts, n, names, n' => ∀ right count rest last cs, right.kind = .rightParen →
    count + names.length ≤ maxItems →
    (moreParameters count ⟨ts ++ right :: rest, last, n, cs⟩).Done names ⟨rest, last, n', cs⟩
  | .parameters, ts, n, names, n' => ∀ right rest last cs, right.kind = .rightParen →
    (parameters ⟨ts ++ right :: rest, last, n, cs⟩).Done names ⟨rest, last, n', cs⟩
  | .references, ts, n, xs, n' => ParsesReferences ts n xs n'
  | .superclasses, ts, n, xs, n' => (ts = [] ∧ xs = [] ∧ n' = n) ∨
    ∃ less us, ts = less :: us ∧ less.kind = .less ∧ ParsesReferences us n xs n'
  | .declarator, ts, n, d, n' => ∀ rest last cs, Ends rest →
    ∀ ds t, (moreDeclarators d ⟨rest, last, n', cs⟩).Done ds t →
      (declarators ⟨ts ++ rest, last, n, cs⟩).Done ds t
  | .declarators, ts, n, ds, n' => ∀ stop rest last cs, stop.kind = .semicolon →
    (declarators ⟨ts ++ stop :: rest, last, n, cs⟩).Done ds ⟨rest, last, n', cs⟩
  | .declarations, ts, n, ss, n' => ∀ last cs,
    (∀ right rest, right.kind = .rightBrace →
      (block ⟨ts ++ right :: rest, last, n, cs⟩).Done ss ⟨rest, last, n', cs⟩) ∧
    statements ⟨ts, last, n, cs⟩ = (ss, ⟨[], last, n', cs⟩)
  | .declaration, ts, n, s, n' => ∀ rest last cs, (∀ t ∈ rest.head?, t.kind ≠ .kwElse) →
    (declarationStep ⟨ts ++ rest, last, n, cs⟩).Done s ⟨rest, last, n', cs⟩
  | .function, ts, n, f, n' => ∀ sort rest last cs,
    (callable sort ⟨ts ++ rest, last, n, cs⟩).Done f ⟨rest, last, n', cs⟩
  | .methods, ts, n, fs, n' => ∀ right rest last cs, right.kind = .rightBrace →
    (methods ⟨ts ++ right :: rest, last, n, cs⟩).Done fs ⟨rest, last, n', cs⟩
  | .block, ts, n, ss, n' => ∃ left us, ts = left :: us ∧ left.kind = .leftBrace ∧
    ∀ rest last cs, (block ⟨us ++ rest, last, n, cs⟩).Done ss ⟨rest, last, n', cs⟩
  | .start, ts, n, start, n' => ∀ left rest last cs, left.kind = .leftParen →
    ∀ a t, (forCondition start ⟨rest, last, n', cs⟩).Done a t →
      (forStatement ⟨left :: ts ++ rest, last, n, cs⟩).Done a t
  | .statement dangling, ts, n, s, n' => ∀ rest last cs,
    (dangling = true → ∀ t ∈ rest.head?, t.kind ≠ .kwElse) →
    (statement ⟨ts ++ rest, last, n, cs⟩).Done s ⟨rest, last, n', cs⟩

section

variable {ts us vs ws : List Token} {n n₁ n₂ n₃ n₄ : Nat}

/-! ## Expressions -/

/-- A phrase of a tier is taken if no operator of the tier follows. -/
theorem tier_done {level : Tier} {e : Expr} (h : Parses (.tier level) ts n e n₁) {rest : List Token}
    (hstops : Stops level.rank rest) (last : Token) (cs : List Complaint) :
    (tier level ⟨ts ++ rest, last, n, cs⟩).Done e ⟨rest, last, n₁, cs⟩ := by
  refine h rest last cs (hstops.mono (Nat.sub_le _ _)) e _ fun s hs => ?_
  rw [chain, State.next_other fun t ht => (hstops t ht).2 level (Nat.le_refl _)]
  exact .mk e _ hs

/-- An expression without an assignment is a disjunction, behind which no `=` comes. -/
theorem parses_disjunction {e : Expr} (h : Parses (.tier .disjunction) ts n e n₁) :
    Parses .expression ts n e n₁ := by
  intro rest last cs hends
  rw [expression]
  refine (tier_done h hends.1 last cs).andThen fun ht => ?_
  rw [State.next_other fun t ht => decide_eq_false (hends.2 t ht)]
  exact .mk e _ _

/-- A chain starts with its first operand. -/
theorem parses_single {level : Tier} {e : Expr} (h : Parses (.operand level) ts n e n₁) :
    Parses (.tier level) ts n e n₁ := by
  intro rest last cs hstops e' t hchain
  rw [tier]
  exact (h rest last cs hstops).andThen fun ht => hchain _ ht

/-- A chain goes on with an operator and an operand, which are read after what came before. -/
theorem parses_operator {level : Tier} {op : Token} {a b : Expr}
    (ha : Parses (.tier level) ts n a n₁) (hop : level.has op.kind)
    (hb : Parses (.operand level) us n₁ b n₂) :
    Parses (.tier level) (ts ++ op :: us) n (level.node a op b) n₂ := by
  intro rest last cs hstops e' t hchain
  rw [List.append_assoc, List.cons_append]
  refine ha _ last cs (.of_has hop _) e' t fun s hs => ?_
  obtain ⟨hu, hnext⟩ := State.next_took level.has op (us ++ rest) last n₁ cs hop
  rw [chain, hnext]
  exact (hb rest last cs hstops).andThen fun hv => hchain s _

/-- Operands of a tier are chains of the next tighter one. -/
theorem parses_tighter {level next : Tier} {e : Expr} (hnext : level.tighter = some next)
    (h : Parses (.tier next) ts n e n₁) : Parses (.operand level) ts n e n₁ := by
  intro rest last cs hstops
  have hrank := Tier.rank_tighter hnext
  rw [operand_of_some hnext]
  exact tier_done h (hstops.mono (by omega)) last cs

/-- Operands of the tightest tier have signs. -/
theorem parses_tightest {level : Tier} {e : Expr} (hnone : level.tighter = none)
    (h : Parses .unary ts n e n₁) : Parses (.operand level) ts n e n₁ := by
  intro rest last cs hstops
  rw [operand_of_none hnone]
  exact h rest last cs (hstops.mono (Nat.zero_le _))

/-- A sign is taken before its operand. -/
theorem parses_sign {op : Token} {e : Expr} (hop : isSign op.kind) (h : Parses .unary ts n e n₁) :
    Parses .unary (op :: ts) n (.unary op e) n₁ := by
  intro rest last cs hstops
  obtain ⟨hu, hnext⟩ := State.next_took isSign op (ts ++ rest) last n cs hop
  rw [List.cons_append, unary, hnext]
  exact (h rest last cs hstops).andThen fun hv => .mk _ _ _

/-- An operand without a sign is read with its suffixes. -/
theorem parses_unsigned {e : Expr} (h : Parses .call ts n e n₁) : Parses .unary ts n e n₁ := by
  intro rest last cs hstops
  refine h rest last cs e _ fun s hs => ?_
  rw [suffixes, State.next_other fun t ht => (hstops t ht).1]
  exact .mk e _ hs

/-- No sign starts an operand. -/
theorem not_isSign_of_startsOperand {k : Token.Kind} (h : startsOperand k) : isSign k = false := by
  cases k with
  | bang | minus => contradiction
  | _ => rfl

/-- An operand is read, and then its suffixes. -/
theorem parses_bare {e : Expr} (h : Parses .primary ts n e n₁) (hstarts : Starts startsOperand ts) :
    Parses .call ts n e n₁ := by
  intro rest last cs e' t hsuffixes
  obtain ⟨t₀, us, rfl, ht₀, -⟩ := hstarts
  have hsign : ∀ u ∈ (t₀ :: us ++ rest).head?, isSign u.kind = false := by
    intro u hu
    obtain rfl : t₀ = u := Option.some.inj hu
    exact not_isSign_of_startsOperand ht₀
  rw [unary, State.next_other hsign]
  exact (h rest last cs).andThen fun hu => hsuffixes _ hu

/-- A call takes its arguments and goes on with more suffixes. -/
theorem parses_call {left right : Token} {f : Expr} {es : List Expr} (hf : Parses .call ts n f n₁)
    (hleft : left.kind = .leftParen) (hes : Parses .arguments us n₁ es n₂)
    (hright : right.kind = .rightParen) :
    Parses .call (ts ++ left :: us ++ [right]) n (.call f right es) n₂ := by
  intro rest last cs e' t hsuffixes
  rw [List.append_assoc, List.append_assoc, List.cons_append]
  refine hf _ last cs e' t fun s hs => ?_
  obtain ⟨hu, hnext⟩ := State.next_took isSuffix left (us ++ ([right] ++ rest)) last n₁ cs
    (by rw [hleft]; rfl)
  rw [suffixes, hnext]
  simp only [hleft]
  exact (hes right rest last cs hright).andThen fun hv => hsuffixes s _

/-- A property takes its name and goes on with more suffixes. -/
theorem parses_get {dot name : Token} {o : Expr} (ho : Parses .call ts n o n₁)
    (hdot : dot.kind = .dot) (hname : name.kind = .identifier) :
    Parses .call (ts ++ [dot, name]) n (.get o name) n₁ := by
  intro rest last cs e' t hsuffixes
  rw [List.append_assoc, List.cons_append]
  refine ho _ last cs e' t fun s hs => ?_
  obtain ⟨hu, hnext⟩ := State.next_took isSuffix dot ([name] ++ rest) last n₁ cs
    (by rw [hdot]; rfl)
  rw [suffixes, hnext]
  simp only [hdot]
  exact .expect rfl hname fun hv => hsuffixes s _

/-- An index takes its key and goes on with more suffixes. -/
theorem parses_index {left right : Token} {o k : Expr} (ho : Parses .call ts n o n₁)
    (hleft : left.kind = .leftBracket) (hk : Parses .expression us n₁ k n₂)
    (hright : right.kind = .rightBracket) :
    Parses .call (ts ++ left :: us ++ [right]) n (.index o left k) n₂ := by
  intro rest last cs e' t hsuffixes
  rw [List.append_assoc, List.append_assoc, List.cons_append]
  refine ho _ last cs e' t fun s hs => ?_
  obtain ⟨hu, hnext⟩ := State.next_took isSuffix left (us ++ ([right] ++ rest)) last n₁ cs
    (by rw [hleft]; rfl)
  rw [suffixes, hnext]
  simp only [hleft]
  refine (hk ([right] ++ rest) last cs (.cons hright rfl _)).andThen fun hv => ?_
  exact .expect rfl hright fun hw => hsuffixes s _

/-- An operand with its suffixes is a phrase of every tier. -/
theorem parses_tier_of_call {e : Expr} (h : Parses .call ts n e n₁) :
    Parses (.tier .disjunction) ts n e n₁ := by
  have hfactor : Parses (.tier .factor) ts n e n₁ :=
    parses_single (parses_tightest rfl (parses_unsigned h))
  have hterm : Parses (.tier .term) ts n e n₁ := parses_single (parses_tighter rfl hfactor)
  have hcomparison : Parses (.tier .comparison) ts n e n₁ :=
    parses_single (parses_tighter rfl hterm)
  have hequality : Parses (.tier .equality) ts n e n₁ :=
    parses_single (parses_tighter rfl hcomparison)
  have hconjunction : Parses (.tier .conjunction) ts n e n₁ :=
    parses_single (parses_tighter rfl hequality)
  exact parses_single (parses_tighter rfl hconjunction)

/-- An operand before the sign of an assignment is read as the target. -/
theorem target_done {e : Expr} (h : Parses .call ts n e n₁) {equals : Token}
    (hequals : equals.kind = .equal) (rest : List Token) (last : Token) (cs : List Complaint) :
    (tier .disjunction ⟨ts ++ equals :: rest, last, n, cs⟩).Done e
      ⟨equals :: rest, last, n₁, cs⟩ :=
  tier_done (parses_tier_of_call h)
    (.cons hequals rest rfl fun level => by cases level <;> rfl) last cs

/-- A name before `=` is the target of an assignment. -/
theorem parses_assign {name equals : Token} {e : Expr} (hname : name.kind = .identifier)
    (hequals : equals.kind = .equal) (h : Parses .expression us (n + 1) e n₁)
    (hprimary : Parses .primary [name] n (.reference ⟨n, name⟩) (n + 1)) :
    Parses .expression (name :: equals :: us) n (.assign ⟨n₁, name⟩ e) (n₁ + 1) := by
  intro rest last cs hends
  have htarget :=
    target_done (parses_bare hprimary (.cons hname rfl (by simp) _)) hequals (us ++ rest) last cs
  obtain ⟨hu, hnext⟩ := State.next_same hequals (us ++ rest) last (n + 1) cs
  rw [expression]
  refine htarget.andThen fun ht => ?_
  rw [hnext]
  exact (h rest last cs hends).andThen fun hv => .mk _ _ _

/-- A property before `=` is the target of an assignment. -/
theorem parses_set {dot name equals : Token} {o e : Expr} (ho : Parses .call ts n o n₁)
    (hdot : dot.kind = .dot) (hname : name.kind = .identifier) (hequals : equals.kind = .equal)
    (h : Parses .expression us n₁ e n₂) :
    Parses .expression (ts ++ dot :: name :: equals :: us) n (.set o name e) n₂ := by
  intro rest last cs hends
  have htarget := target_done (parses_get ho hdot hname) hequals (us ++ rest) last cs
  obtain ⟨hu, hnext⟩ := State.next_same hequals (us ++ rest) last n₁ cs
  have heq : ts ++ dot :: name :: equals :: us ++ rest =
      ts ++ [dot, name] ++ equals :: (us ++ rest) := by simp
  rw [heq, expression]
  refine htarget.andThen fun ht => ?_
  rw [hnext]
  exact (h rest last cs hends).andThen fun hv => .mk _ _ _

/-- An element before `=` is the target of an assignment. -/
theorem parses_setIndex {left right equals : Token} {o k e : Expr} (ho : Parses .call ts n o n₁)
    (hleft : left.kind = .leftBracket) (hk : Parses .expression us n₁ k n₂)
    (hright : right.kind = .rightBracket) (hequals : equals.kind = .equal)
    (h : Parses .expression vs n₂ e n₃) :
    Parses .expression (ts ++ left :: us ++ right :: equals :: vs) n (.setIndex o left k e) n₃ := by
  intro rest last cs hends
  have htarget := target_done (parses_index ho hleft hk hright) hequals (vs ++ rest) last cs
  obtain ⟨hu, hnext⟩ := State.next_same hequals (vs ++ rest) last n₂ cs
  have heq : ts ++ left :: us ++ right :: equals :: vs ++ rest =
      ts ++ left :: us ++ [right] ++ equals :: (vs ++ rest) := by simp
  rw [heq, expression]
  refine htarget.andThen fun ht => ?_
  rw [hnext]
  exact (h rest last cs hends).andThen fun hv => .mk _ _ _

/-! ## Operands -/

/-- The next token of a state in which some token is left. -/
theorem State.next_any (token : Token) (rest : List Token) (last : Token) (n : Nat)
    (cs : List Complaint) : ∃ hs, (⟨token :: rest, last, n, cs⟩ : State).next (fun _ => true) =
      .took token ⟨rest, last, n, cs⟩ hs :=
  State.next_took _ token rest last n cs rfl

/-- A constant is one token. -/
theorem parses_constant {t : Token} {v : Literal} (ht : constant? t.kind = some v) :
    Parses .primary [t] n (.literal v) n := by
  intro rest last cs
  obtain ⟨hu, hnext⟩ := State.next_any t rest last n cs
  rw [List.singleton_append, primary, hnext]
  cases hkind : t.kind with
  | kwTrue | kwFalse | kwNil | number x | string s =>
    rw [hkind] at ht
    obtain rfl := Option.some.inj ht
    simp only [hkind]
    exact .mk _ _ hu
  | _ =>
    rw [hkind] at ht
    contradiction

/-- A variable is one token and takes a number. -/
theorem parses_reference {t : Token} (ht : t.kind = .identifier) :
    Parses .primary [t] n (.reference ⟨n, t⟩) (n + 1) := by
  intro rest last cs
  obtain ⟨hu, hnext⟩ := State.next_any t rest last n cs
  rw [List.singleton_append, primary, hnext]
  simp only [ht]
  exact ⟨hu, rfl⟩

/-- The word `this` takes a number. -/
theorem parses_this {t : Token} (ht : t.kind = .kwThis) :
    Parses .primary [t] n (.this ⟨n, t⟩) (n + 1) := by
  intro rest last cs
  obtain ⟨hu, hnext⟩ := State.next_any t rest last n cs
  rw [List.singleton_append, primary, hnext]
  simp only [ht]
  exact ⟨hu, rfl⟩

/-- The word `super` takes a number, and a name behind a dot follows it. -/
theorem parses_super {t dot name : Token} (ht : t.kind = .kwSuper) (hdot : dot.kind = .dot)
    (hname : name.kind = .identifier) :
    Parses .primary [t, dot, name] n (.super ⟨n, t⟩ name) (n + 1) := by
  intro rest last cs
  obtain ⟨hu, hnext⟩ := State.next_any t (dot :: name :: rest) last n cs
  rw [show [t, dot, name] ++ rest = t :: dot :: name :: rest from rfl, primary, hnext]
  simp only [ht]
  exact .expect rfl hdot fun hv => .expect rfl hname fun hw => .mk _ _ _

/-- Parentheses are taken around an expression. -/
theorem parses_grouping {left right : Token} {e : Expr} (hleft : left.kind = .leftParen)
    (h : Parses .expression ts n e n₁) (hright : right.kind = .rightParen) :
    Parses .primary (left :: ts ++ [right]) n (.grouping e) n₁ := by
  intro rest last cs
  obtain ⟨hu, hnext⟩ := State.next_any left (ts ++ ([right] ++ rest)) last n cs
  rw [List.append_assoc, List.cons_append, primary, hnext]
  simp only [hleft]
  refine (h _ last cs (.cons hright rfl rest)).andThen fun hv => ?_
  exact .expect rfl hright fun hw => .mk _ _ _

/-- A function without a name is read from its word to the end of its block. -/
theorem parses_lambda {word left right : Token} {params : List Token} {body : List Stmt}
    (hword : word.kind = .kwFun) (hleft : left.kind = .leftParen)
    (hparams : Parses .parameters ts n params n₁) (hright : right.kind = .rightParen)
    (hbody : Parses .block us n₁ body n₂) :
    Parses .primary (word :: left :: ts ++ right :: us) n
      (.function ⟨none, word, params, body⟩) n₂ := by
  intro rest last cs
  obtain ⟨brace, vs, rfl, hbrace, hblock⟩ := hbody
  obtain ⟨hu, hnext⟩ :=
    State.next_any word (left :: (ts ++ right :: (brace :: (vs ++ rest)))) last n cs
  have heq : word :: left :: ts ++ right :: brace :: vs ++ rest =
      word :: left :: (ts ++ right :: (brace :: (vs ++ rest))) := by simp
  rw [heq, primary, hnext]
  simp only [hword]
  refine .expect rfl hleft fun hv => ?_
  refine (hparams right _ last cs hright).andThen fun hw => ?_
  refine .expect rfl hbrace fun hx => ?_
  exact (hblock rest last cs).andThen fun hy => .mk _ _ _

/-- Brackets are taken around the elements of an array. -/
theorem parses_array {left right : Token} {es : List Expr} (hleft : left.kind = .leftBracket)
    (h : Parses .elements ts n es n₁) (hright : right.kind = .rightBracket) :
    Parses .primary (left :: ts ++ [right]) n (.array left es) n₁ := by
  intro rest last cs
  obtain ⟨hu, hnext⟩ := State.next_any left (ts ++ ([right] ++ rest)) last n cs
  rw [List.append_assoc, List.cons_append, primary, hnext]
  simp only [hleft]
  exact (h right rest last cs hright).andThen fun hv => .mk _ _ _

/-- Braces are taken around the entries of an object. -/
theorem parses_object {left right : Token} {es : List Entry} (hleft : left.kind = .leftBrace)
    (h : Parses .entries ts n es n₁) (hright : right.kind = .rightBrace) :
    Parses .primary (left :: ts ++ [right]) n (.object left es) n₁ := by
  intro rest last cs
  obtain ⟨hu, hnext⟩ := State.next_any left (ts ++ ([right] ++ rest)) last n cs
  rw [List.append_assoc, List.cons_append, primary, hnext]
  simp only [hleft]
  exact (h right rest last cs hright).andThen fun hv => .mk _ _ _

/-! ## Lists -/

/-- A semicolon is taken behind an expression. -/
theorem parses_terminated {stop : Token} {e : Expr} (h : Parses .expression ts n e n₁)
    (hstop : stop.kind = .semicolon) : Parses .terminated (ts ++ [stop]) n e n₁ := by
  intro reason rest last cs
  rw [List.append_assoc, terminated]
  refine (h _ last cs (.cons hstop rfl rest)).andThen fun ht => ?_
  exact .expect rfl hstop fun hu => .mk _ _ _

/-- No list is too long for one more item if it will not be too long with it. -/
theorem State.limit_of_lt {s : State} {count : Nat} {reason : Reason} (h : count < maxItems) :
    s.limit count reason = s :=
  if_neg (Nat.not_le_of_lt h)

/-- A phrase that starts an expression does not start with a mark that closes a list. -/
theorem Starts.next_other {ts : List Token} (h : Starts startsExpression ts) {kind : Token.Kind}
    (hkind : startsExpression kind = false) (rest : List Token) (last : Token) (n : Nat)
    (cs : List Complaint) : (⟨ts ++ rest, last, n, cs⟩ : State).next (· = kind) = .other := by
  obtain ⟨t, us, rfl, ht, -⟩ := h
  refine State.next_other fun u hu => decide_eq_false ?_
  obtain rfl : t = u := Option.some.inj hu
  rintro rfl
  rw [hkind] at ht
  contradiction

/-- A phrase that starts an expression is not empty. -/
theorem Starts.not_atEnd {p : Token.Kind → Bool} {ts : List Token} (h : Starts p ts)
    (rest : List Token) (last : Token) (n : Nat) (cs : List Complaint) :
    (⟨ts ++ rest, last, n, cs⟩ : State).atEnd = false := by
  obtain ⟨t, us, rfl, -, -⟩ := h
  rfl

/-- One expression is a list of arguments or elements. -/
theorem parses_lastExpression {e : Expr} (h : Parses .expression ts n e n₁)
    (hstarts : Starts startsExpression ts) : Parses .expressions ts n [e] n₁ := by
  intro rest last cs
  refine ⟨fun right count hright hlength => ?_, fun right hright => ?_,
    fun comma right hcomma hright => ?_⟩
  -- Arguments.
  · have hlimit : (⟨ts ++ right :: rest, last, n, cs⟩ : State).limit count .tooManyArguments =
      ⟨ts ++ right :: rest, last, n, cs⟩ := State.limit_of_lt hlength
    rw [moreArguments]
    refine Step.Done.andThen (a := e) (u := ⟨right :: rest, last, n₁, cs⟩) ?_ fun hu => ?_
    · rw [hlimit]
      exact h _ last cs (.cons hright rfl rest)
    · rw [State.next_differs .comma hright (by simp)]
      exact .expect rfl hright fun hv => .mk _ _ _
  -- Elements.
  · rw [elements, hstarts.next_other rfl, hstarts.not_atEnd, if_neg Bool.false_ne_true]
    refine (h _ last cs (.cons hright rfl rest)).andThen fun ht => ?_
    rw [State.next_differs .comma hright (by simp)]
    exact .expect rfl hright fun hu => .mk _ _ _
  -- Elements with a comma behind the last one.
  · rw [elements, hstarts.next_other rfl, hstarts.not_atEnd, if_neg Bool.false_ne_true]
    refine (h _ last cs (.cons hcomma rfl _)).andThen fun ht => ?_
    obtain ⟨hu, hnext⟩ := State.next_same hcomma (right :: rest) last n₁ cs
    rw [hnext]
    obtain ⟨hv, hclose⟩ := State.next_same hright rest last n₁ cs
    refine Step.Done.andThen (a := []) (u := ⟨rest, last, n₁, cs⟩) ?_ fun hw => .mk _ _ _
    rw [elements, hclose]
    exact .mk _ _ hv

/-- A comma is taken between expressions. -/
theorem parses_moreExpressions {comma : Token} {e : Expr} {es : List Expr}
    (h : Parses .expression ts n e n₁) (hstarts : Starts startsExpression ts)
    (hcomma : comma.kind = .comma) (hes : Parses .expressions us n₁ es n₂) :
    Parses .expressions (ts ++ comma :: us) n (e :: es) n₂ := by
  intro rest last cs
  obtain ⟨harguments, helements, htrailing⟩ := hes rest last cs
  -- In all three cases the comma is taken and the rest of the list is read behind it.
  refine ⟨fun right count hright hlength => ?_, fun right hright => ?_,
    fun comma' right hcomma' hright => ?_⟩ <;> rw [List.append_assoc, List.cons_append]
  · rw [List.length_cons] at hlength
    have hlimit : (⟨ts ++ comma :: (us ++ right :: rest), last, n, cs⟩ : State).limit count
        .tooManyArguments = ⟨ts ++ comma :: (us ++ right :: rest), last, n, cs⟩ :=
      State.limit_of_lt (by omega)
    obtain ⟨hu, hnext⟩ := State.next_same hcomma (us ++ right :: rest) last n₁ cs
    rw [moreArguments]
    refine Step.Done.andThen (a := e) (u := ⟨comma :: (us ++ right :: rest), last, n₁, cs⟩) ?_
      fun hv => ?_
    · rw [hlimit]
      exact h _ last cs (.cons hcomma rfl _)
    · rw [hnext]
      exact (harguments right (count + 1) hright (by omega)).andThen fun hw => .mk _ _ _
  · obtain ⟨hu, hnext⟩ := State.next_same hcomma (us ++ right :: rest) last n₁ cs
    rw [elements, hstarts.next_other rfl, hstarts.not_atEnd, if_neg Bool.false_ne_true]
    refine (h _ last cs (.cons hcomma rfl _)).andThen fun ht => ?_
    rw [hnext]
    exact (helements right hright).andThen fun hw => .mk _ _ _
  · obtain ⟨hu, hnext⟩ := State.next_same hcomma (us ++ comma' :: right :: rest) last n₁ cs
    rw [elements, hstarts.next_other rfl, hstarts.not_atEnd, if_neg Bool.false_ne_true]
    refine (h _ last cs (.cons hcomma rfl _)).andThen fun ht => ?_
    rw [hnext]
    exact (htrailing comma' right hcomma' hright).andThen fun hw => .mk _ _ _

/-- There may be no arguments. -/
theorem parses_noArguments : Parses .arguments [] n [] n := by
  intro right rest last cs hright
  obtain ⟨hu, hnext⟩ := State.next_same hright rest last n cs
  rw [List.nil_append, arguments, hnext]
  exact .mk _ _ hu

/-- There may be as many arguments as are allowed. -/
theorem parses_someArguments {es : List Expr} (h : Parses .expressions ts n es n₁)
    (hstarts : Starts startsExpression ts) (hlength : es.length ≤ maxItems) :
    Parses .arguments ts n es n₁ := by
  intro right rest last cs hright
  rw [arguments, hstarts.next_other rfl]
  exact (h rest last cs).1 right 0 hright (by omega)

/-- There may be no elements. -/
theorem parses_noElements : Parses .elements [] n [] n := by
  intro right rest last cs hright
  obtain ⟨hu, hnext⟩ := State.next_same hright rest last n cs
  rw [List.nil_append, elements, hnext]
  exact .mk _ _ hu

/-- A comma may stand behind the last element. -/
theorem parses_commaElements {comma : Token} {es : List Expr} (h : Parses .expressions ts n es n₁)
    (hcomma : comma.kind = .comma) : Parses .elements (ts ++ [comma]) n es n₁ := by
  intro right rest last cs hright
  rw [List.append_assoc]
  exact (h rest last cs).2.2 comma right hcomma hright

/-- A key does not close an object. -/
theorem isKey_differs {key : Token} (hkey : isKey key.kind) : key.kind ≠ .rightBrace := by
  intro h
  rw [h] at hkey
  contradiction

/-- The entries of an object from a key on: its value, and then what follows it. -/
theorem entries_done {key colon : Token} {e : Expr} (hkey : isKey key.kind)
    (hcolon : colon.kind = .colon) (h : Parses .expression ts n e n₁) {rest : List Token}
    (hends : Ends rest) (last : Token) (cs : List Complaint) {es : List Entry} {t : State}
    (hrest : (∃ comma rest', rest = comma :: rest' ∧ comma.kind = .comma ∧
        ∃ es', es = ⟨key, e⟩ :: es' ∧ (entries ⟨rest', last, n₁, cs⟩).Done es' t) ∨
      (∃ right rest', rest = right :: rest' ∧ right.kind = .rightBrace ∧ es = [⟨key, e⟩] ∧
        t = ⟨rest', last, n₁, cs⟩)) :
    (entries ⟨key :: colon :: ts ++ rest, last, n, cs⟩).Done es t := by
  obtain ⟨hu, hnext⟩ := State.next_took isKey key (colon :: (ts ++ rest)) last n cs hkey
  have heq : key :: colon :: ts ++ rest = key :: colon :: (ts ++ rest) := rfl
  have hend : (⟨key :: colon :: (ts ++ rest), last, n, cs⟩ : State).atEnd = false := rfl
  rw [heq, entries, State.next_other fun t ht => decide_eq_false (by
    obtain rfl : key = t := Option.some.inj ht
    exact isKey_differs hkey), hend, if_neg Bool.false_ne_true, hnext]
  refine .expect rfl hcolon fun hv => ?_
  refine (h rest last cs hends).andThen fun hw => ?_
  rcases hrest with ⟨comma, rest', rfl, hcomma, es', rfl, hes⟩ |
    ⟨right, rest', rfl, hright, rfl, rfl⟩
  · obtain ⟨hx, hnext'⟩ := State.next_same hcomma rest' last n₁ cs
    rw [hnext']
    exact hes.andThen fun hy => .mk _ _ _
  · rw [State.next_differs .comma hright (by simp)]
    exact .expect rfl hright fun hx => .mk _ _ _

/-- There may be no entries. -/
theorem parses_noEntries : Parses .entries [] n [] n := by
  intro right rest last cs hright
  obtain ⟨hu, hnext⟩ := State.next_same hright rest last n cs
  rw [List.nil_append, entries, hnext]
  exact .mk _ _ hu

/-- The last entry of an object is closed by the brace. -/
theorem parses_lastPair {key colon : Token} {e : Expr} (hkey : isKey key.kind)
    (hcolon : colon.kind = .colon) (h : Parses .expression ts n e n₁) :
    Parses .pairs (key :: colon :: ts) n [⟨key, e⟩] n₁ := by
  intro rest last cs
  refine ⟨fun right hright => ?_, fun comma right hcomma hright => ?_⟩
  · exact entries_done hkey hcolon h (.cons hright rfl rest) last cs
      (.inr ⟨right, rest, rfl, hright, rfl, rfl⟩)
  · refine entries_done hkey hcolon h (.cons hcomma rfl _) last cs
      (.inl ⟨comma, right :: rest, rfl, hcomma, [], rfl, ?_⟩)
    exact parses_noEntries right rest last cs hright

/-- A comma is taken between entries. -/
theorem parses_morePairs {key colon comma : Token} {e : Expr} {es : List Entry}
    (hkey : isKey key.kind) (hcolon : colon.kind = .colon) (h : Parses .expression ts n e n₁)
    (hcomma : comma.kind = .comma) (hes : Parses .pairs us n₁ es n₂) :
    Parses .pairs (key :: colon :: ts ++ comma :: us) n (⟨key, e⟩ :: es) n₂ := by
  intro rest last cs
  obtain ⟨hclosed, htrailing⟩ := hes rest last cs
  refine ⟨fun right hright => ?_, fun comma' right hcomma' hright => ?_⟩ <;>
    rw [List.append_assoc] <;>
    refine entries_done hkey hcolon h (.cons hcomma rfl _) last cs
      (.inl ⟨comma, _, rfl, hcomma, es, rfl, ?_⟩)
  · exact hclosed right hright
  · exact htrailing comma' right hcomma' hright

/-- A comma may stand behind the last entry. -/
theorem parses_commaEntries {comma : Token} {es : List Entry} (h : Parses .pairs ts n es n₁)
    (hcomma : comma.kind = .comma) : Parses .entries (ts ++ [comma]) n es n₁ := by
  intro right rest last cs hright
  rw [List.append_assoc]
  exact (h rest last cs).2 comma right hcomma hright

/-- A parameter is taken if the list is not too long. -/
theorem parameter_done {name : Token} (hname : name.kind = .identifier) {count : Nat}
    (hcount : count < maxItems) (rest : List Token) (last : Token) (cs : List Complaint) :
    (parameter count ⟨name :: rest, last, n, cs⟩).Done name ⟨rest, last, n, cs⟩ := by
  have hlimit : (⟨name :: rest, last, n, cs⟩ : State).limit count .tooManyParameters =
    ⟨name :: rest, last, n, cs⟩ := State.limit_of_lt hcount
  have hrest : ((⟨name :: rest, last, n, cs⟩ : State).limit count .tooManyParameters).rest =
    name :: rest := by rw [hlimit]
  unfold parameter
  refine .expect hrest hname fun hu => ?_
  refine ⟨by simp [State.size], ?_⟩
  simp [hlimit]

/-- The last parameter is closed by the parenthesis. -/
theorem parses_lastName {t : Token} (ht : t.kind = .identifier) : Parses .names [t] n [t] n := by
  intro right count rest last cs hright hlength
  rw [List.singleton_append, moreParameters]
  refine (parameter_done ht hlength _ last cs).andThen fun hu => ?_
  rw [State.next_differs .comma hright (by simp)]
  exact .expect rfl hright fun hv => .mk _ _ _

/-- A comma is taken between parameters. -/
theorem parses_moreNames {t comma : Token} {names : List Token} (ht : t.kind = .identifier)
    (hcomma : comma.kind = .comma) (h : Parses .names ts n names n) :
    Parses .names (t :: comma :: ts) n (t :: names) n := by
  intro right count rest last cs hright hlength
  rw [List.length_cons] at hlength
  obtain ⟨hu, hnext⟩ := State.next_same hcomma (ts ++ right :: rest) last n cs
  rw [List.cons_append, List.cons_append, moreParameters]
  refine (parameter_done ht (by omega) _ last cs).andThen fun hv => ?_
  rw [hnext]
  exact (h right (count + 1) rest last cs hright (by omega)).andThen fun hw => .mk _ _ _

/-- There may be no parameters. -/
theorem parses_noParameters : Parses .parameters [] n [] n := by
  intro right rest last cs hright
  obtain ⟨hu, hnext⟩ := State.next_same hright rest last n cs
  rw [List.nil_append, parameters, hnext]
  exact .mk _ _ hu

/-- There may be as many parameters as are allowed. -/
theorem parses_someParameters {names : List Token} (h : Parses .names ts n names n)
    (hstarts : ∃ t ∈ ts.head?, t.kind = .identifier) (hlength : names.length ≤ maxItems) :
    Parses .parameters ts n names n := by
  intro right rest last cs hright
  obtain ⟨t, ht, hkind⟩ := hstarts
  obtain ⟨us, rfl⟩ := List.head?_eq_some_iff.mp ht
  rw [parameters, List.cons_append, State.next_differs .rightParen hkind (by simp)]
  exact h right 0 rest last cs hright (by omega)

/-! ## Declarations -/

/-- The last superclass takes a number. -/
theorem parses_lastReference {t : Token} (ht : t.kind = .identifier) :
    Parses .references [t] n [⟨n, t⟩] (n + 1) := by
  intro rest last cs hcomma
  rw [superclasses]
  refine .expect rfl ht fun hu => ?_
  rw [State.next_other fun t ht => decide_eq_false (hcomma t ht)]
  exact ⟨hu, rfl⟩

/-- A comma is taken between superclasses, and each takes a number. -/
theorem parses_moreReferences {t comma : Token} {xs : List Reference} (ht : t.kind = .identifier)
    (hcomma : comma.kind = .comma) (h : Parses .references ts (n + 1) xs n₁) :
    Parses .references (t :: comma :: ts) n (⟨n, t⟩ :: xs) n₁ := by
  intro rest last cs hrest
  obtain ⟨hu, hnext⟩ : ∃ hu, (⟨comma :: (ts ++ rest), last, n, cs⟩ : State).used.next
      (· = .comma) = .took comma ⟨ts ++ rest, last, n + 1, cs⟩ hu :=
    State.next_same hcomma (ts ++ rest) last (n + 1) cs
  rw [List.cons_append, List.cons_append, superclasses]
  refine .expect rfl ht fun hv => ?_
  dsimp only
  rw [hnext]
  exact (h rest last cs hrest).andThen fun hw => .mk _ _ _

/-- A function with a name is read from the name to the end of its block. -/
theorem parses_function {name left right : Token} {params : List Token} {body : List Stmt}
    (hname : name.kind = .identifier) (hleft : left.kind = .leftParen)
    (hparams : Parses .parameters ts n params n₁) (hright : right.kind = .rightParen)
    (hbody : Parses .block us n₁ body n₂) :
    Parses .function (name :: left :: ts ++ right :: us) n ⟨some name, name, params, body⟩ n₂ := by
  intro sort rest last cs
  obtain ⟨brace, vs, rfl, hbrace, hblock⟩ := hbody
  have heq : name :: left :: ts ++ right :: brace :: vs ++ rest =
      name :: left :: (ts ++ right :: (brace :: (vs ++ rest))) := by simp
  rw [heq, callable]
  refine .expect rfl hname fun hu => .expect rfl hleft fun hv => ?_
  refine (hparams right _ last cs hright).andThen fun hw => ?_
  refine .expect rfl hbrace fun hx => ?_
  exact (hblock rest last cs).andThen fun hy => .mk _ _ _

/-- There may be no methods. -/
theorem parses_noMethods : Parses .methods [] n [] n := by
  intro right rest last cs hright
  obtain ⟨hu, hnext⟩ := State.next_same hright rest last n cs
  rw [List.nil_append, methods, hnext]
  exact .mk _ _ hu

/-- Methods are read one after the other. -/
theorem parses_moreMethods {f : FunctionDecl} {fs : List FunctionDecl}
    (h : Parses .function ts n f n₁) (hstarts : ∃ t ∈ ts.head?, t.kind = .identifier)
    (hfs : Parses .methods us n₁ fs n₂) : Parses .methods (ts ++ us) n (f :: fs) n₂ := by
  intro right rest last cs hright
  have hf := h .method (us ++ right :: rest) last cs
  obtain ⟨t, ht, hkind⟩ := hstarts
  obtain ⟨vs, rfl⟩ := List.head?_eq_some_iff.mp ht
  have hend : (⟨t :: (vs ++ (us ++ right :: rest)), last, n, cs⟩ : State).atEnd = false := rfl
  rw [List.append_assoc, List.cons_append, methods,
    State.next_differs .rightBrace hkind (by simp), hend, if_neg Bool.false_ne_true]
  refine hf.andThen fun hu => ?_
  exact (hfs right rest last cs hright).andThen fun hv => .mk _ _ _

/-- A variable may have no initial value. -/
theorem parses_uninitialized {name : Token} (hname : name.kind = .identifier) :
    Parses .declarator [name] n ⟨name, none⟩ n := by
  intro rest last cs hends ds t hmore
  rw [declarators]
  refine .expect rfl hname fun hu => ?_
  rw [State.next_other fun t ht => decide_eq_false (hends.2 t ht)]
  exact hmore.within

/-- A variable may have an initial value. -/
theorem parses_initialized {name equals : Token} {e : Expr} (hname : name.kind = .identifier)
    (hequals : equals.kind = .equal) (h : Parses .expression ts n e n₁) :
    Parses .declarator (name :: equals :: ts) n ⟨name, some e⟩ n₁ := by
  intro rest last cs hends ds t hmore
  obtain ⟨hu, hnext⟩ := State.next_same hequals (ts ++ rest) last n cs
  rw [List.cons_append, List.cons_append, declarators]
  refine .expect rfl hname fun hv => ?_
  rw [hnext]
  exact (h rest last cs hends).andThen fun hw => hmore.within

/-- A semicolon is taken behind the last variable. -/
theorem parses_lastDeclarator {d : Declarator} (h : Parses .declarator ts n d n₁) :
    Parses .declarators ts n [d] n₁ := by
  intro stop rest last cs hstop
  refine h _ last cs (.cons hstop rfl rest) [d] _ ?_
  rw [moreDeclarators, State.next_differs .comma hstop (by simp)]
  exact .expect rfl hstop fun hu => .mk _ _ _

/-- A comma is taken between variables. -/
theorem parses_moreDeclarators {comma : Token} {d : Declarator} {ds : List Declarator}
    (h : Parses .declarator ts n d n₁) (hcomma : comma.kind = .comma)
    (hds : Parses .declarators us n₁ ds n₂) :
    Parses .declarators (ts ++ comma :: us) n (d :: ds) n₂ := by
  intro stop rest last cs hstop
  obtain ⟨hu, hnext⟩ := State.next_same hcomma (us ++ stop :: rest) last n₁ cs
  rw [List.append_assoc, List.cons_append]
  refine h _ last cs (.cons hcomma rfl _) (d :: ds) _ ?_
  rw [moreDeclarators, hnext]
  exact (hds stop rest last cs hstop).andThen fun hv => .mk _ _ _

/-- A block or program may be empty. -/
theorem parses_noDeclarations : Parses .declarations [] n [] n := by
  intro last cs
  refine ⟨fun right rest hright => ?_, ?_⟩
  · obtain ⟨hu, hnext⟩ := State.next_same hright rest last n cs
    rw [List.nil_append, block, hnext]
    exact .mk _ _ hu
  · rw [statements]
    rfl

/-- A declaration that is found is not given up. -/
theorem declaration_done {s : State} {a : Stmt} {t : State} (h : (declarationStep s).Done a t)
    (hs : 0 < s.size) : (declaration s hs).stmt = some a ∧ (declaration s hs).state = t := by
  obtain ⟨ht, hstep⟩ := h
  rw [declaration, hstep]
  exact ⟨rfl, rfl⟩

/-- A token that starts a declaration is neither an `else` nor a closing brace. -/
theorem startsDeclaration_differs {k : Token.Kind} (h : startsDeclaration k) :
    k ≠ .kwElse ∧ k ≠ .rightBrace := by
  constructor <;> rintro rfl <;> exact absurd h Bool.false_ne_true

/-- Declarations are read one after the other, in a block and at the top level. -/
theorem parses_moreDeclarations {s : Stmt} {ss : List Stmt} (h : Parses .declaration ts n s n₁)
    (hstarts : ∃ t ∈ ts.head?, startsDeclaration t.kind) (hss : Parses .declarations us n₁ ss n₂)
    (hnext : ∀ t ∈ us.head?, startsDeclaration t.kind) :
    Parses .declarations (ts ++ us) n (s :: ss) n₂ := by
  intro last cs
  obtain ⟨hblock, hstatements⟩ := hss last cs
  obtain ⟨t, ht, hkind⟩ := hstarts
  obtain ⟨vs, rfl⟩ := List.head?_eq_some_iff.mp ht
  refine ⟨fun right rest hright => ?_, ?_⟩
  -- In a block, the brace or another declaration follows, and neither is an `else`.
  · have hfollows : ∀ u ∈ (us ++ right :: rest).head?, u.kind ≠ .kwElse := by
      intro u hu
      cases us with
      | nil =>
        obtain rfl : right = u := Option.some.inj hu
        rw [hright]
        decide
      | cons => exact (startsDeclaration_differs (hnext u hu)).1
    have hdone := h (us ++ right :: rest) last cs hfollows
    have hsize : 0 < (⟨t :: vs ++ (us ++ right :: rest), last, n, cs⟩ : State).size := by
      simp [State.size]
    obtain ⟨hstmt, hstate⟩ := declaration_done hdone hsize
    rw [List.append_assoc, block, State.next_other fun u hu => decide_eq_false (by
      obtain rfl : t = u := Option.some.inj hu
      exact (startsDeclaration_differs hkind).2)]
    have hend : ¬(⟨t :: vs ++ (us ++ right :: rest), last, n, cs⟩ : State).atEnd = true :=
      Bool.false_ne_true
    rw [dif_neg hend]
    refine Step.Done.andThen (a := ss) (u := ⟨rest, last, n₂, cs⟩) ?_ fun hu => ⟨?_, ?_⟩
    · rw [hstate]
      exact hblock right rest hright
    · exact Nat.lt_trans hu (declaration _ hsize).shorter
    · rw [hstmt]
      rfl
  -- At the top level, another declaration or nothing follows.
  · have hdone := h us last cs fun u hu => (startsDeclaration_differs (hnext u hu)).1
    have hsize : 0 < (⟨t :: vs ++ us, last, n, cs⟩ : State).size := by simp [State.size]
    obtain ⟨hstmt, hstate⟩ := declaration_done hdone hsize
    have hend : ¬(⟨t :: vs ++ us, last, n, cs⟩ : State).atEnd = true := Bool.false_ne_true
    rw [statements, dif_neg hend]
    dsimp only
    rw [hstate, hstatements, hstmt]
    rfl

/-- Braces are taken around a block. -/
theorem parses_block {left right : Token} {ss : List Stmt} (hleft : left.kind = .leftBrace)
    (h : Parses .declarations ts n ss n₁) (hright : right.kind = .rightBrace) :
    Parses .block (left :: ts ++ [right]) n ss n₁ := by
  refine ⟨left, ts ++ [right], rfl, hleft, fun rest last cs => ?_⟩
  rw [List.append_assoc]
  exact (h last cs).1 right rest hright

/-- The body of a class. -/
theorem classBody_done {left right : Token} {fs : List FunctionDecl}
    (hleft : left.kind = .leftBrace) (h : Parses .methods us n₁ fs n₂)
    (hright : right.kind = .rightBrace) (name : Token) (xs : List Reference) (rest : List Token)
    (last : Token) (cs : List Complaint) :
    (classBody name xs ⟨left :: (us ++ right :: rest), last, n₁, cs⟩).Done (.class ⟨name, xs, fs⟩)
      ⟨rest, last, n₂, cs⟩ := by
  rw [classBody]
  refine .expect rfl hleft fun hu => ?_
  exact (h right rest last cs hright).andThen fun hv => .mk _ _ _

/-- A class is read from its word to the brace behind its methods. -/
theorem parses_classDeclaration {word name left right : Token} {xs : List Reference}
    {fs : List FunctionDecl} (hword : word.kind = .kwClass) (hname : name.kind = .identifier)
    (hxs : Parses .superclasses ts n xs n₁) (hleft : left.kind = .leftBrace)
    (hfs : Parses .methods us n₁ fs n₂) (hright : right.kind = .rightBrace) :
    Parses .declaration (word :: name :: ts ++ left :: us ++ [right]) n
      (.class ⟨name, xs, fs⟩) n₂ := by
  intro rest last cs hfollows
  have hbody := classBody_done hleft hfs hright name xs rest last cs
  -- Without superclasses the body follows the name.
  rcases hxs with ⟨rfl, rfl, rfl⟩ | ⟨less, vs, rfl, hless, hxs⟩
  · obtain ⟨hu, hnext⟩ := State.next_any word (name :: left :: (us ++ right :: rest)) last n₁ cs
    have heq : word :: name :: [] ++ left :: us ++ [right] ++ rest =
        word :: name :: left :: (us ++ right :: rest) := by simp
    rw [heq, declarationStep, hnext]
    simp only [hword]
    refine .expect rfl hname fun hv => ?_
    rw [State.next_differs .less hleft (by simp)]
    exact hbody.within
  · obtain ⟨hu, hnext⟩ := State.next_any word
      (name :: less :: (vs ++ left :: (us ++ right :: rest))) last n cs
    have heq : word :: name :: less :: vs ++ left :: us ++ [right] ++ rest =
        word :: name :: less :: (vs ++ left :: (us ++ right :: rest)) := by simp
    obtain ⟨hw, hnext'⟩ := State.next_same hless (vs ++ left :: (us ++ right :: rest)) last n cs
    rw [heq, declarationStep, hnext]
    simp only [hword]
    refine .expect rfl hname fun hv => ?_
    rw [hnext']
    refine (hxs _ last cs fun t ht => ?_).andThen fun hx => hbody.within
    obtain rfl : left = t := Option.some.inj ht
    rw [hleft]
    decide

/-- A function is declared where a name follows the word `fun`. -/
theorem parses_functionDeclaration {word : Token} {f : FunctionDecl} (hword : word.kind = .kwFun)
    (h : Parses .function ts n f n₁) (hstarts : ∃ t ∈ ts.head?, t.kind = .identifier) :
    Parses .declaration (word :: ts) n (.function f) n₁ := by
  intro rest last cs hfollows
  have hf := h .function rest last cs
  obtain ⟨t, ht, hkind⟩ := hstarts
  obtain ⟨vs, rfl⟩ := List.head?_eq_some_iff.mp ht
  obtain ⟨hu, hnext⟩ := State.next_any word (t :: (vs ++ rest)) last n cs
  obtain ⟨hv, hnext'⟩ := State.next_same hkind (vs ++ rest) last n cs
  rw [List.cons_append] at hf
  rw [List.cons_append, List.cons_append, declarationStep, hnext]
  simp only [hword]
  rw [hnext']
  exact hf.andThen fun hw => .mk _ _ _

/-- Variables are declared behind the word `var`. -/
theorem parses_variableDeclaration {word stop : Token} {ds : List Declarator}
    (hword : word.kind = .kwVar) (h : Parses .declarators ts n ds n₁)
    (hstop : stop.kind = .semicolon) :
    Parses .declaration (word :: ts ++ [stop]) n (.declare ds) n₁ := by
  intro rest last cs hfollows
  obtain ⟨hu, hnext⟩ := State.next_any word (ts ++ ([stop] ++ rest)) last n cs
  rw [List.append_assoc, List.cons_append, declarationStep, hnext]
  simp only [hword]
  exact (h stop rest last cs hstop).andThen fun hv => .mk _ _ _

/-! ## Statements -/

/-- A statement that declares nothing is found where a declaration is looked for. -/
theorem parses_statement {dangling : Bool} {s : Stmt} (h : Parses (.statement dangling) ts n s n₁)
    (hstarts : Starts startsPlain ts) : Parses .declaration ts n s n₁ := by
  intro rest last cs hfollows
  have hdone := h rest last cs fun _ => hfollows
  obtain ⟨t, us, rfl, ht, hfun⟩ := hstarts
  obtain ⟨hu, hnext⟩ := State.next_any t (us ++ rest) last n cs
  rw [List.cons_append] at hdone ⊢
  rw [declarationStep, hnext]
  dsimp only
  split
  -- A class or variables start with another word, and a function has its name behind the word.
  · next hkind =>
    rw [hkind] at ht
    exact absurd ht Bool.false_ne_true
  · next hkind =>
    rw [hkind] at ht
    exact absurd ht Bool.false_ne_true
  · next hkind =>
    obtain ⟨u, vs, rfl, hparen⟩ := hfun hkind
    have hother : (⟨u :: vs ++ rest, last, n, cs⟩ : State).next (· = .identifier) = .other :=
      State.next_differs .identifier hparen (by simp) (vs ++ rest) last n cs
    rw [hother]
    exact hdone
  · exact hdone

/-- An expression may be a statement if it does not start with a brace. -/
theorem parses_expression {e : Expr} (h : Parses .terminated ts n e n₁)
    (hstarts : Starts startsExpression ts) (hbrace : ∀ t ∈ ts.head?, t.kind ≠ .leftBrace) :
    Parses (.statement false) ts n (.expression e) n₁ := by
  intro rest last cs hfollows
  have hdone := h .expressionEnd rest last cs
  obtain ⟨t, us, rfl, ht, -⟩ := hstarts
  obtain ⟨hu, hnext⟩ := State.next_any t (us ++ rest) last n cs
  have hkind := hbrace t rfl
  rw [List.cons_append] at hdone ⊢
  rw [statement, hnext]
  -- None of the words that start another statement starts an expression.
  dsimp only
  split
  case h_5 hword => exact absurd hword hkind
  case h_7 => exact hdone.andThen fun hv => .mk _ _ _
  all_goals
    next hword =>
    rw [hword] at ht
    exact absurd ht Bool.false_ne_true

/-- A value is printed behind the word `print`. -/
theorem parses_print {word : Token} {e : Expr} (hword : word.kind = .kwPrint)
    (h : Parses .terminated ts n e n₁) :
    Parses (.statement false) (word :: ts) n (.print e) n₁ := by
  intro rest last cs hfollows
  obtain ⟨hu, hnext⟩ := State.next_any word (ts ++ rest) last n cs
  rw [List.cons_append, statement, hnext]
  simp only [hword]
  exact (h _ rest last cs).andThen fun hv => .mk _ _ _

/-- A result may have a value, behind the word `return`. -/
theorem parses_result {word stop : Token} {e : Option Expr} (hword : word.kind = .kwReturn)
    (h : Parses .optional ts n e n₁) (hstop : stop.kind = .semicolon) :
    Parses (.statement false) (word :: ts ++ [stop]) n (.result word e) n₁ := by
  intro rest last cs hfollows
  obtain ⟨hu, hnext⟩ := State.next_any word (ts ++ ([stop] ++ rest)) last n cs
  rw [List.append_assoc, List.cons_append, statement, hnext]
  simp only [hword]
  rcases h with ⟨rfl, rfl, rfl⟩ | ⟨e, rfl, he, hstarts⟩
  · obtain ⟨hv, hnext'⟩ : ∃ hv, (⟨[] ++ ([stop] ++ rest), last, n₁, cs⟩ : State).next
        (· = .semicolon) = .took stop ⟨rest, last, n₁, cs⟩ hv :=
      State.next_same hstop rest last n₁ cs
    rw [hnext']
    exact .mk _ _ _
  · rw [hstarts.next_other rfl]
    have hdone : Parses .terminated (ts ++ [stop]) n e n₁ := parses_terminated he hstop
    refine Step.Done.andThen (a := e) (u := ⟨rest, last, n₁, cs⟩) ?_ fun hv => .mk _ _ _
    have hresult := hdone .resultEnd rest last cs
    rwa [List.append_assoc] at hresult

/-- A block is a statement. -/
theorem parses_blockStatement {ss : List Stmt} (h : Parses .block ts n ss n₁) :
    Parses (.statement false) ts n (.block ss) n₁ := by
  intro rest last cs hfollows
  obtain ⟨left, us, rfl, hleft, hblock⟩ := h
  obtain ⟨hu, hnext⟩ := State.next_any left (us ++ rest) last n cs
  rw [List.cons_append, statement, hnext]
  simp only [hleft]
  exact (hblock rest last cs).andThen fun hv => .mk _ _ _

/-- A condition in parentheses is taken. -/
theorem condition_done {left right : Token} {e : Expr} (hleft : left.kind = .leftParen)
    (h : Parses .expression ts n e n₁) (hright : right.kind = .rightParen) (start stop : Reason)
    (rest : List Token) (last : Token) (cs : List Complaint) :
    (condition start stop ⟨left :: (ts ++ right :: rest), last, n, cs⟩).Done e
      ⟨rest, last, n₁, cs⟩ := by
  rw [condition]
  refine .expect rfl hleft fun hu => ?_
  refine (h _ last cs (.cons hright rfl rest)).andThen fun hv => ?_
  exact .expect rfl hright fun hw => .mk _ _ _

/-- A loop takes its condition and its body. -/
theorem parses_loop {dangling : Bool} {word left right : Token} {e : Expr} {s : Stmt}
    (hword : word.kind = .kwWhile) (hleft : left.kind = .leftParen)
    (he : Parses .expression ts n e n₁) (hright : right.kind = .rightParen)
    (hs : Parses (.statement dangling) us n₁ s n₂) :
    Parses (.statement dangling) (word :: left :: ts ++ right :: us) n (.loop e s) n₂ := by
  intro rest last cs hfollows
  obtain ⟨hu, hnext⟩ := State.next_any word (left :: (ts ++ right :: (us ++ rest))) last n cs
  have heq : word :: left :: ts ++ right :: us ++ rest =
      word :: left :: (ts ++ right :: (us ++ rest)) := by simp
  rw [heq, statement, hnext]
  simp only [hword]
  refine (condition_done hleft he hright _ _ _ last cs).andThen fun hv => ?_
  exact (hs rest last cs hfollows).andThen fun hw => .mk _ _ _

/-- A branch takes its condition and its statement, and no `else` comes behind. -/
theorem parses_branch {dangling : Bool} {word left right : Token} {e : Expr} {s : Stmt}
    (hword : word.kind = .kwIf) (hleft : left.kind = .leftParen)
    (he : Parses .expression ts n e n₁) (hright : right.kind = .rightParen)
    (hs : Parses (.statement dangling) us n₁ s n₂) :
    Parses (.statement true) (word :: left :: ts ++ right :: us) n (.branch e s none) n₂ := by
  intro rest last cs hfollows
  obtain ⟨hu, hnext⟩ := State.next_any word (left :: (ts ++ right :: (us ++ rest))) last n cs
  have heq : word :: left :: ts ++ right :: us ++ rest =
      word :: left :: (ts ++ right :: (us ++ rest)) := by simp
  rw [heq, statement, hnext]
  simp only [hword]
  refine (condition_done hleft he hright _ _ _ last cs).andThen fun hv => ?_
  refine (hs rest last cs fun _ => hfollows rfl).andThen fun hw => ?_
  rw [State.next_other fun t ht => decide_eq_false (hfollows rfl t ht)]
  exact .mk _ _ _

/-- A branch with an `else` takes both of its statements. -/
theorem parses_branchElse {dangling : Bool} {word left right other : Token} {e : Expr}
    {s s' : Stmt} (hword : word.kind = .kwIf) (hleft : left.kind = .leftParen)
    (he : Parses .expression ts n e n₁) (hright : right.kind = .rightParen)
    (hs : Parses (.statement false) us n₁ s n₂) (hother : other.kind = .kwElse)
    (hs' : Parses (.statement dangling) vs n₂ s' n₃) :
    Parses (.statement dangling) (word :: left :: ts ++ right :: us ++ other :: vs) n
      (.branch e s (some s')) n₃ := by
  intro rest last cs hfollows
  obtain ⟨hu, hnext⟩ :=
    State.next_any word (left :: (ts ++ right :: (us ++ other :: (vs ++ rest)))) last n cs
  have heq : word :: left :: ts ++ right :: us ++ other :: vs ++ rest =
      word :: left :: (ts ++ right :: (us ++ other :: (vs ++ rest))) := by simp
  obtain ⟨hx, hnext'⟩ := State.next_same hother (vs ++ rest) last n₂ cs
  rw [heq, statement, hnext]
  simp only [hword]
  refine (condition_done hleft he hright _ _ _ last cs).andThen fun hv => ?_
  refine (hs _ last cs fun h => absurd h Bool.false_ne_true).andThen fun hw => ?_
  rw [hnext']
  exact (hs' rest last cs hfollows).andThen fun hy => .mk _ _ _

/-- A counting loop from its step on. -/
theorem forStep_done {dangling : Bool} {right : Token} {step : Option Expr} {s : Stmt}
    (hstep : Parses .optional vs n₂ step n₃) (hright : right.kind = .rightParen)
    (hs : Parses (.statement dangling) ws n₃ s n₄) {rest : List Token}
    (hfollows : dangling = true → ∀ t ∈ rest.head?, t.kind ≠ .kwElse) (start : Option Stmt)
    (condition : Option Expr) (last : Token) (cs : List Complaint) :
    (forStep start condition ⟨vs ++ right :: (ws ++ rest), last, n₂, cs⟩).Done
      (forLoop start condition step s) ⟨rest, last, n₄, cs⟩ := by
  have hbody := hs rest last cs hfollows
  rcases hstep with ⟨rfl, rfl, rfl⟩ | ⟨e, rfl, he, hstarts⟩
  · obtain ⟨hu, hnext⟩ := State.next_same hright (ws ++ rest) last n₃ cs
    rw [List.nil_append, forStep, hnext]
    exact hbody.andThen fun hv => .mk _ _ _
  · rw [forStep, hstarts.next_other rfl]
    refine (he _ last cs (.cons hright rfl _)).andThen fun hu => ?_
    refine .expect rfl hright fun hv => ?_
    exact hbody.andThen fun hw => .mk _ _ _

/-- A counting loop from its condition on. -/
theorem forCondition_done {stop : Token} {condition : Option Expr}
    (hcondition : Parses .optional us n₁ condition n₂) (hstop : stop.kind = .semicolon)
    {rest : List Token} {start : Option Stmt} {last : Token} {cs : List Complaint} {a : Stmt}
    {t : State} (h : (forStep start condition ⟨rest, last, n₂, cs⟩).Done a t) :
    (forCondition start ⟨us ++ stop :: rest, last, n₁, cs⟩).Done a t := by
  rcases hcondition with ⟨rfl, rfl, rfl⟩ | ⟨e, rfl, he, hstarts⟩
  · obtain ⟨hu, hnext⟩ := State.next_same hstop rest last n₂ cs
    rw [List.nil_append, forCondition, hnext]
    exact h.within
  · have hdone : Parses .terminated (us ++ [stop]) n₁ e n₂ := parses_terminated he hstop
    have hcondition := hdone .forConditionEnd rest last cs
    rw [List.append_assoc] at hcondition
    rw [forCondition, hstarts.next_other rfl]
    exact hcondition.andThen fun hu => h.within

/-- A counting loop may start with nothing. -/
theorem parses_noStart {stop : Token} (hstop : stop.kind = .semicolon) :
    Parses .start [stop] n none n := by
  intro left rest last cs hleft a t h
  obtain ⟨hu, hnext⟩ := State.next_same hstop rest last n cs
  rw [List.cons_append, List.singleton_append, forStatement]
  refine .expect rfl hleft fun hv => ?_
  rw [hnext]
  exact h.within

/-- A counting loop may start with variables. -/
theorem parses_variableStart {word stop : Token} {ds : List Declarator} (hword : word.kind = .kwVar)
    (h : Parses .declarators ts n ds n₁) (hstop : stop.kind = .semicolon) :
    Parses .start (word :: ts ++ [stop]) n (some (.declare ds)) n₁ := by
  intro left rest last cs hleft a t hcondition
  obtain ⟨hu, hnext⟩ := State.next_same hword (ts ++ ([stop] ++ rest)) last n cs
  have heq : left :: (word :: ts ++ [stop]) ++ rest = left :: word :: (ts ++ ([stop] ++ rest)) := by
    simp
  rw [heq, forStatement]
  refine .expect rfl hleft fun hv => ?_
  rw [State.next_differs .semicolon hword (by simp), hnext]
  exact (h stop rest last cs hstop).andThen fun hw => hcondition.within

/-- A counting loop may start with an expression. -/
theorem parses_expressionStart {e : Expr} (h : Parses .terminated ts n e n₁)
    (hstarts : Starts startsExpression ts) : Parses .start ts n (some (.expression e)) n₁ := by
  intro left rest last cs hleft a t hcondition
  rw [List.cons_append, forStatement]
  refine .expect rfl hleft fun hv => ?_
  rw [hstarts.next_other rfl, hstarts.next_other rfl]
  exact (h _ rest last cs).andThen fun hw => hcondition.within

/-- A counting loop takes its start, condition, step and body. -/
theorem parses_forLoop {dangling : Bool} {word left stop right : Token} {start : Option Stmt}
    {condition step : Option Expr} {s : Stmt} (hword : word.kind = .kwFor)
    (hleft : left.kind = .leftParen) (hstart : Parses .start ts n start n₁)
    (hcondition : Parses .optional us n₁ condition n₂) (hstop : stop.kind = .semicolon)
    (hstep : Parses .optional vs n₂ step n₃) (hright : right.kind = .rightParen)
    (hs : Parses (.statement dangling) ws n₃ s n₄) :
    Parses (.statement dangling) (word :: left :: ts ++ us ++ stop :: vs ++ right :: ws) n
      (forLoop start condition step s) n₄ := by
  intro rest last cs hfollows
  obtain ⟨hu, hnext⟩ := State.next_any word
    (left :: ts ++ (us ++ stop :: (vs ++ right :: (ws ++ rest)))) last n cs
  have heq : word :: left :: ts ++ us ++ stop :: vs ++ right :: ws ++ rest =
      word :: (left :: ts ++ (us ++ stop :: (vs ++ right :: (ws ++ rest)))) := by simp
  rw [heq, statement, hnext]
  simp only [hword]
  have hbody := forStep_done hstep hright hs hfollows start condition last cs
  exact (hstart left _ last cs hleft _ _ (forCondition_done hcondition hstop hbody)).within

end

/-! ## The whole grammar -/

/-- Every phrase is parsed as its category says. -/
theorem Derives.parses {c : Category} {ts : List Token} {n n' : Nat} {a : c.Tree}
    (h : Derives c ts n a n') : Parses c ts n a n' := by
  induction h with
  | disjunction _ ih => exact parses_disjunction ih
  | assign hname hequals _ ih => exact parses_assign hname hequals ih (parses_reference hname)
  | set _ hdot hname hequals _ iho ih => exact parses_set iho hdot hname hequals ih
  | setIndex _ hleft _ hright hequals _ iho ihk ih =>
    exact parses_setIndex iho hleft ihk hright hequals ih
  | single _ ih => exact parses_single ih
  | operator _ hop _ iha ihb =>
    obtain ⟨hhas, rfl⟩ := operator_iff.mp hop
    exact parses_operator iha hhas ihb
  | tighter hnext _ ih => exact parses_tighter (looser_iff.mp hnext) ih
  | tightest _ ih => exact parses_tightest rfl ih
  | sign hop _ ih => exact parses_sign (sign_iff.mp hop) ih
  | unsigned _ ih => exact parses_unsigned ih
  | bare h ih => exact parses_bare ih h.started
  | call _ hleft _ hright ihf ihes => exact parses_call ihf hleft ihes hright
  | get _ hdot hname ih => exact parses_get ih hdot hname
  | index _ hleft _ hright iho ihk => exact parses_index iho hleft ihk hright
  | constant ht => exact parses_constant ht
  | reference ht => exact parses_reference ht
  | this ht => exact parses_this ht
  | super ht hdot hname => exact parses_super ht hdot hname
  | grouping hleft _ hright ih => exact parses_grouping hleft ih hright
  | lambda hword hleft _ hright _ ihp ihb => exact parses_lambda hword hleft ihp hright ihb
  | array hleft _ hright ih => exact parses_array hleft ih hright
  | object hleft _ hright ih => exact parses_object hleft ih hright
  | absent => exact .inl ⟨rfl, rfl, rfl⟩
  | present h ih => exact .inr ⟨_, rfl, ih, h.started⟩
  | terminated _ hstop ih => exact parses_terminated ih hstop
  | lastExpression h ih => exact parses_lastExpression ih h.started
  | moreExpressions h hcomma _ ih ihes => exact parses_moreExpressions ih h.started hcomma ihes
  | noArguments => exact parses_noArguments
  | someArguments h hlength ih => exact parses_someArguments ih h.started hlength
  | noElements => exact parses_noElements
  | someElements _ ih => exact fun right rest last cs => (ih rest last cs).2.1 right
  | commaElements _ hcomma ih => exact parses_commaElements ih hcomma
  | lastPair hkey hcolon _ ih => exact parses_lastPair (key_iff.mp hkey) hcolon ih
  | morePairs hkey hcolon _ hcomma _ ih ihes =>
    exact parses_morePairs (key_iff.mp hkey) hcolon ih hcomma ihes
  | noEntries => exact parses_noEntries
  | someEntries _ ih => exact fun right rest last cs => (ih rest last cs).1 right
  | commaEntries _ hcomma ih => exact parses_commaEntries ih hcomma
  | lastName ht => exact parses_lastName ht
  | moreNames ht hcomma _ ih => exact parses_moreNames ht hcomma ih
  | noParameters => exact parses_noParameters
  | someParameters h hlength ih => exact parses_someParameters ih h.started hlength
  | lastReference ht => exact parses_lastReference ht
  | moreReferences ht hcomma _ ih => exact parses_moreReferences ht hcomma ih
  | noSuperclasses => exact .inl ⟨rfl, rfl, rfl⟩
  | someSuperclasses hless _ ih => exact .inr ⟨_, _, rfl, hless, ih⟩
  | function hname hleft _ hright _ ihp ihb => exact parses_function hname hleft ihp hright ihb
  | noMethods => exact parses_noMethods
  | moreMethods h _ ih ihfs => exact parses_moreMethods ih h.started ihfs
  | uninitialized hname => exact parses_uninitialized hname
  | initialized hname hequals _ ih => exact parses_initialized hname hequals ih
  | lastDeclarator _ ih => exact parses_lastDeclarator ih
  | moreDeclarators _ hcomma _ ih ihds => exact parses_moreDeclarators ih hcomma ihds
  | noDeclarations => exact parses_noDeclarations
  | moreDeclarations h hss ih ihss => exact parses_moreDeclarations ih h.started ihss hss.started
  | block hleft _ hright ih => exact parses_block hleft ih hright
  | classDeclaration hword hname _ hleft _ hright ihxs ihfs =>
    exact parses_classDeclaration hword hname ihxs hleft ihfs hright
  | functionDeclaration hword h ih => exact parses_functionDeclaration hword ih h.started
  | variableDeclaration hword _ hstop ih => exact parses_variableDeclaration hword ih hstop
  | statement h ih => exact parses_statement ih h.started
  | expression h hbrace ih => exact parses_expression ih h.started hbrace
  | print hword _ ih => exact parses_print hword ih
  | result hword _ hstop ih => exact parses_result hword ih hstop
  | blockStatement _ ih => exact parses_blockStatement ih
  | loop hword hleft _ hright _ ihe ihs => exact parses_loop hword hleft ihe hright ihs
  | branch hword hleft _ hright _ ihe ihs => exact parses_branch hword hleft ihe hright ihs
  | branchElse hword hleft _ hright _ hother _ ihe ihs ihs' =>
    exact parses_branchElse hword hleft ihe hright ihs hother ihs'
  | noStart hstop => exact parses_noStart hstop
  | variableStart hword _ hstop ih => exact parses_variableStart hword ih hstop
  | expressionStart h ih => exact parses_expressionStart ih h.started
  | forLoop hword hleft _ _ hstop _ hright _ htree ihstart ihc ihstep ihs =>
    obtain rfl := counting_iff.mp htree
    exact parses_forLoop hword hleft ihstart ihc hstop ihstep hright ihs

end Lox.Grammar

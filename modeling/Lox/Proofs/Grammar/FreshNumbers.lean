import Lox.Proofs.Grammar.Language
import Lox.Proofs.Grammar.Numbering

/-!
# Every reference has a number of its own

Whatever tokens are parsed, the references in the trees that come out have different numbers, all of
them given out during that parse (`spans_parse`, `spans_parseExpression?`). Nothing is asked of the
tokens: complaints may have been made, targets of assignments may have been built anew, clauses of
loops may stand in another order than they were read in, and statements may have been given up.
Since a parse goes on with the numbers where the one before it stopped, no two references of a
series of parses share a number (`Parse.spans_inTurn`).

For each production, `Step.Numbers` says which numbers the references of its value take. The proofs
follow the productions, and the induction is theirs.
-/

namespace Lox

/-! ## The numbers in a tree -/

mutual

/-- The numbers of the references in an expression. -/
def Expr.ids : Expr → List Nat
  | .literal _ => []
  | .grouping e => e.ids
  | .unary _ e => e.ids
  | .binary l _ r | .logical l _ r => l.ids ++ r.ids
  | .reference x | .this x | .super x _ => [x.id]
  | .assign x e => e.ids ++ [x.id]
  | .call f _ es => f.ids ++ idsOfExprs es
  | .get o _ => o.ids
  | .set o _ e => o.ids ++ e.ids
  | .index o _ k => o.ids ++ k.ids
  | .setIndex o _ k e => o.ids ++ k.ids ++ e.ids
  | .function f => f.ids
  | .array _ es => idsOfExprs es
  | .object _ es => idsOfEntries es

/-- The numbers of the references in several expressions. -/
def idsOfExprs : List Expr → List Nat
  | [] => []
  | e :: es => e.ids ++ idsOfExprs es

/-- The numbers of the references in the entries of an object expression. -/
def idsOfEntries : List Entry → List Nat
  | [] => []
  | ⟨_, e⟩ :: es => e.ids ++ idsOfEntries es

/-- The numbers of the references in a function. -/
def FunctionDecl.ids : FunctionDecl → List Nat
  | ⟨_, _, _, body⟩ => idsOfStmts body

/-- The numbers of the references in methods. -/
def idsOfMethods : List FunctionDecl → List Nat
  | [] => []
  | f :: fs => f.ids ++ idsOfMethods fs

/-- The numbers of the references in declared variables. -/
def idsOfDeclarators : List Declarator → List Nat
  | [] => []
  | ⟨_, none⟩ :: ds => idsOfDeclarators ds
  | ⟨_, some e⟩ :: ds => e.ids ++ idsOfDeclarators ds

/-- The numbers of the references in a class, those to its superclasses first. -/
def ClassDecl.ids : ClassDecl → List Nat
  | ⟨_, supers, methods⟩ => supers.map Reference.id ++ idsOfMethods methods

/-- The numbers of the references in a statement. -/
def Stmt.ids : Stmt → List Nat
  | .expression e | .print e => e.ids
  | .declare ds => idsOfDeclarators ds
  | .block ss => idsOfStmts ss
  | .branch c t none => c.ids ++ t.ids
  | .branch c t (some e) => c.ids ++ t.ids ++ e.ids
  | .loop c s => c.ids ++ s.ids
  | .function f => f.ids
  | .result _ none => []
  | .result _ (some e) => e.ids
  | .class c => c.ids

/-- The numbers of the references in several statements. -/
def idsOfStmts : List Stmt → List Nat
  | [] => []
  | s :: ss => s.ids ++ idsOfStmts ss

end

attribute [simp] Expr.ids idsOfExprs idsOfEntries FunctionDecl.ids idsOfMethods idsOfDeclarators
  ClassDecl.ids Stmt.ids idsOfStmts

/-- The numbers of statements are listed one after the other. -/
@[simp] theorem idsOfStmts_append (ss ss' : List Stmt) :
    idsOfStmts (ss ++ ss') = idsOfStmts ss ++ idsOfStmts ss' := by
  induction ss with
  | nil => rfl
  | cons s ss ih => simp [ih]

/-- The first of several declared variables has its references before those of the others. -/
theorem idsOfDeclarators_cons (d : Declarator) (ds : List Declarator) :
    idsOfDeclarators (d :: ds) = d.initializer.elim [] Expr.ids ++ idsOfDeclarators ds := by
  obtain ⟨name, _ | e⟩ := d <;> simp

namespace Grammar

open Scoping

/-- An operator keeps the references of its operands. -/
@[simp] theorem Tier.ids_node (level : Tier) (l : Expr) (op : Token) (r : Expr) :
    (level.node l op r).ids = l.ids ++ r.ids := by
  cases level <;> simp [Tier.node]

/-- A counting loop has the references of its clauses and of its body, those of the step last. -/
theorem ids_forLoop (start : Option Stmt) (condition step : Option Expr) (body : Stmt) :
    (forLoop start condition step body).ids =
      start.elim [] Stmt.ids ++ condition.elim [] Expr.ids ++ body.ids ++
        step.elim [] Expr.ids := by
  cases start <;> cases condition <;> cases step <;> simp [forLoop]

/-! ## What a production gives out -/

/-- Taking a token gives out no number. -/
theorem State.nextId_of_next {s u : State} {wanted : Token.Kind → Bool} {token : Token}
    {hu : u.size < s.size} (h : s.next wanted = .took token u hu) : u.nextId = s.nextId := by
  obtain ⟨rest, -, rfl⟩ := State.of_next h
  rfl

/-- A list that is too long takes no number. -/
@[simp] theorem State.nextId_limit (s : State) (count : Nat) (reason : Reason) :
    (s.limit count reason).nextId = s.nextId := by
  unfold State.limit
  split <;> rfl

/-- A failure takes no number. -/
@[simp] theorem State.nextId_resume (s : State) : s.resume.nextId = s.nextId := by
  unfold State.resume
  split <;> rfl

namespace Step

variable {α β : Type} {s t : State} {n m : Nat}

/-- The references of the value take different numbers from `n` on, all of them given out by the
time the production is done. A production that fails has at most given out numbers. -/
def Numbers (x : Step α s) (ids : α → List Nat) (n : Nat) : Prop :=
  x.All (fun a t => Spans (ids a) n t.nextId) (fun t => n ≤ t.nextId)

/-- A production that is done has given out the numbers of its value. -/
@[simp] theorem numbers_done {a : α} {ht : t.size < s.size} {ids : α → List Nat} :
    (Step.done a t ht).Numbers ids n ↔ Spans (ids a) n t.nextId := Iff.rfl

/-- A production that has failed may have given out numbers. -/
@[simp] theorem numbers_failed {c : Complaint} {ht : t.size ≤ s.size} {ids : α → List Nat} :
    (Step.failed c t ht : Step α s).Numbers ids n ↔ n ≤ t.nextId := Iff.rfl

/-- The numbers of a production that goes on after another one, which took numbers later on. -/
theorem Numbers.andThen {x : Step α t} {f : (a : α) → (u : State) → u.size < t.size → Step β s}
    {hts : t.size ≤ s.size} {ids : α → List Nat} {ids' : β → List Nat} (h : x.Numbers ids m)
    (hn : n ≤ m) (hf : ∀ a u hu, Spans (ids a) m u.nextId → (f a u hu).Numbers ids' n) :
    (x.andThen f hts).Numbers ids' n :=
  All.andThen h hf fun _ hu => Nat.le_trans hn hu

/-- The numbers of a production that goes on after an expected token. -/
theorem Numbers.expect {kind : Token.Kind} {reason : Reason}
    {f : (token : Token) → (u : State) → u.size < t.size → Step β s} {hts : t.size ≤ s.size}
    {ids : β → List Nat} (hn : n ≤ t.nextId)
    (hf : ∀ token u hu, u.nextId = t.nextId → (f token u hu).Numbers ids n) :
    (t.expect kind reason f hts).Numbers ids n :=
  All.expect (fun token _ hu _ _ => hf token _ hu rfl) hn

/-- The numbers of a production do not depend on the state from which it is seen. -/
theorem Numbers.within {x : Step α t} {hts : t.size ≤ s.size} {ids : α → List Nat}
    (h : x.Numbers ids n) : (x.within hts).Numbers ids n :=
  All.within h

end Step

/-! ## Lists of names -/

/-- Parameters are not references. -/
theorem moreParameters_numbers (count : Nat) {n : Nat} (s : State) (hs : s.nextId = n) :
    (moreParameters count s).Numbers (fun _ => []) n := by
  rw [moreParameters]
  have hname : (parameter count s).Numbers (fun _ => []) n := by
    unfold parameter
    refine .expect (by simp [hs]) fun name t ht hn => ?_
    exact .nil (by simp [hn, hs])
  refine hname.andThen (Nat.le_refl n) fun name t ht hn => ?_
  rcases hnext : t.next (· = .comma) with ⟨comma, u, hu⟩ | _
  · have hn' := State.nextId_of_next hnext
    have hsmaller : u.size < s.size := Nat.lt_trans hu ht
    refine (moreParameters_numbers (count + 1) u hn').andThen hn.le fun names v hv hnames => ?_
    exact .nil (Nat.le_trans hn.le hnames.le)
  · refine .expect hn.le fun paren u hu hn' => ?_
    exact .nil (hn' ▸ hn.le)
termination_by s.size

/-- Parameters take no numbers. -/
theorem parameters_numbers {n : Nat} (s : State) (hs : s.nextId = n) :
    (parameters s).Numbers (fun _ => []) n := by
  unfold parameters
  rcases hnext : s.next (· = .rightParen) with ⟨paren, t, ht⟩ | _
  · exact .nil (by rw [State.nextId_of_next hnext, hs])
  · exact moreParameters_numbers 0 s hs

/-- Each superclass takes a number. -/
theorem superclasses_numbers {n : Nat} (s : State) (hs : s.nextId = n) :
    (superclasses s).Numbers (List.map Reference.id) n := by
  rw [superclasses]
  refine .expect hs.ge fun name t ht hn => ?_
  obtain rfl : t.nextId = n := hn.trans hs
  rcases hnext : t.used.next (· = .comma) with ⟨comma, u, hu⟩ | _
  · have hn' := State.nextId_of_next hnext
    have hsmaller : u.size < s.size := Nat.lt_trans hu ht
    refine (superclasses_numbers u hn').andThen (Nat.le_succ _) fun xs v hv hxs => ?_
    exact (Spans.single t.nextId).append hxs
  · exact .single t.nextId
termination_by s.size

/-! ## Expressions and statements -/

mutual

/-- An assignment takes its number after its value. -/
theorem expression_numbers {n : Nat} (s : State) (hs : s.nextId = n) :
    (expression s).Numbers Expr.ids n := by
  rw [expression]
  refine (tier_numbers .disjunction s hs).andThen (Nat.le_refl n) fun target t ht htarget => ?_
  rcases hnext : t.next (· = .equal) with ⟨equals, u, hu⟩ | _
  · have hn := State.nextId_of_next hnext
    refine (expression_numbers u hn).andThen htarget.le fun value v hv hvalue => ?_
    split
    · -- The number of the variable that was read as the target is never used.
      exact (hvalue.append (.single v.nextId)).mono htarget.le (Nat.le_refl _)
    · exact Spans.append (by simpa using htarget) hvalue
    · exact Spans.append (by simpa using htarget) hvalue
    · exact htarget.mono (Nat.le_refl n) hvalue.le
  · exact htarget
termination_by 32 * s.size + 14
decreasing_by
  · have := Tier.disjunction.rank_le
    omega
  · omega

/-- An operand takes the numbers of a tighter tier. -/
theorem operand_numbers (level : Tier) {n : Nat} (s : State) (hs : s.nextId = n) :
    (operand level s).Numbers Expr.ids n := by
  rw [operand]
  split
  · next tighter _ => exact tier_numbers tighter s hs
  · exact unary_numbers s hs
termination_by 32 * s.size + 2 * level.rank
decreasing_by
  · have := Tier.rank_tighter ‹level.tighter = some _›
    omega
  · have := level.rank_pos
    omega

/-- A tier takes the numbers of its chain. -/
theorem tier_numbers (level : Tier) {n : Nat} (s : State) (hs : s.nextId = n) :
    (tier level s).Numbers Expr.ids n := by
  rw [tier]
  refine (operand_numbers level s hs).andThen (Nat.le_refl n) fun left t ht hleft => ?_
  exact chain_numbers level s left t ht hleft
termination_by 32 * s.size + 2 * level.rank + 1
decreasing_by all_goals omega

/-- A chain takes numbers from left to right. -/
theorem chain_numbers (level : Tier) {n : Nat} (s : State) (left : Expr) (t : State)
    (h : t.size < s.size) (hleft : Spans left.ids n t.nextId) :
    (chain level s left t h).Numbers Expr.ids n := by
  rw [chain]
  rcases hnext : t.next level.has with ⟨op, u, hu⟩ | _
  · have hn := State.nextId_of_next hnext
    refine (operand_numbers level u hn).andThen hleft.le fun right v hv hright => ?_
    refine chain_numbers level s _ v _ ?_
    rw [Tier.ids_node]
    exact hleft.append hright
  · exact hleft
termination_by 32 * t.size
decreasing_by
  · have := level.rank_le
    omega
  · omega

/-- Signs take no numbers. -/
theorem unary_numbers {n : Nat} (s : State) (hs : s.nextId = n) :
    (unary s).Numbers Expr.ids n := by
  rw [unary]
  rcases hnext : s.next isSign with ⟨op, t, ht⟩ | _
  · have hn := (State.nextId_of_next hnext).trans hs
    refine (unary_numbers t hn).andThen (Nat.le_refl n) fun right u hu hright => ?_
    simpa using hright
  · refine (primary_numbers s hs).andThen (Nat.le_refl n) fun e t ht he => ?_
    exact suffixes_numbers s e t ht he
termination_by 32 * s.size + 1
decreasing_by all_goals omega

/-- Suffixes take numbers after their operand. -/
theorem suffixes_numbers {n : Nat} (s : State) (e : Expr) (t : State) (h : t.size < s.size)
    (he : Spans e.ids n t.nextId) : (suffixes s e t h).Numbers Expr.ids n := by
  rw [suffixes]
  rcases hnext : t.next isSuffix with ⟨mark, u, hu⟩ | _
  · have hn := State.nextId_of_next hnext
    dsimp only
    split
    · refine (arguments_numbers u hn).andThen he.le fun found v hv hfound => ?_
      exact suffixes_numbers s _ v _ (by simpa using he.append hfound)
    · refine .expect (hn ▸ he.le) fun name v hv hn' => ?_
      exact suffixes_numbers s _ v _ (by simpa [hn', hn] using he)
    · refine (expression_numbers u hn).andThen he.le fun key v hv hkey => ?_
      refine .expect (Nat.le_trans he.le hkey.le) fun bracket w hw hn' => ?_
      exact suffixes_numbers s _ w _ (by simpa [hn'] using he.append hkey)
  · exact he
termination_by 32 * t.size
decreasing_by all_goals omega

/-- All arguments take numbers. -/
theorem arguments_numbers {n : Nat} (s : State) (hs : s.nextId = n) :
    (arguments s).Numbers (fun found => idsOfExprs found.1) n := by
  rw [arguments]
  rcases hnext : s.next (· = .rightParen) with ⟨paren, t, ht⟩ | _
  · have hn := State.nextId_of_next hnext
    exact .nil (by rw [hn, hs])
  · exact moreArguments_numbers 0 s hs
termination_by 32 * s.size + 16
decreasing_by all_goals omega

/-- Arguments take numbers from left to right. -/
theorem moreArguments_numbers (count : Nat) {n : Nat} (s : State) (hs : s.nextId = n) :
    (moreArguments count s).Numbers (fun found => idsOfExprs found.1) n := by
  rw [moreArguments]
  have hsize : (s.limit count .tooManyArguments).size = s.size := State.size_limit _ _ _
  refine (expression_numbers (s.limit count .tooManyArguments) (by simp [hs])).andThen
    (Nat.le_refl n) fun e u hu he => ?_
  rcases hnext : u.next (· = .comma) with ⟨comma, v, hv⟩ | _
  · have hn := State.nextId_of_next hnext
    refine (moreArguments_numbers (count + 1) v hn).andThen he.le fun found w hw hfound => ?_
    simpa using he.append hfound
  · refine .expect he.le fun paren v hv hn => ?_
    simpa [hn] using he
termination_by 32 * s.size + 15
decreasing_by all_goals omega

/-- Names, `this` and `super` take one number each. -/
theorem primary_numbers {n : Nat} (s : State) (hs : s.nextId = n) :
    (primary s).Numbers Expr.ids n := by
  rw [primary]
  rcases hnext : s.next (fun _ => true) with ⟨token, t, ht⟩ | _
  · obtain rfl : t.nextId = n := (State.nextId_of_next hnext).trans hs
    have hnone : Spans [] t.nextId t.nextId := .nil (Nat.le_refl _)
    have hone : Spans [t.nextId] t.nextId t.used.nextId := .single _
    -- Constants take no number, a variable or word takes one, and all else takes those of its
    -- parts.
    dsimp only
    split
    · simpa using hnone
    · simpa using hnone
    · simpa using hnone
    · simpa using hnone
    · simpa using hnone
    · exact hone
    · refine .expect (Nat.le_refl _) fun dot u hu hn => ?_
      refine .expect hn.ge fun method v hv hn' => ?_
      obtain hn'' : v.nextId = t.nextId := hn'.trans hn
      simpa [State.used, hn''] using hone
    · exact hone
    · refine .expect (Nat.le_refl _) fun paren u hu hn => ?_
      refine (parameters_numbers u hn).andThen (Nat.le_refl _) fun params v hv hparams => ?_
      refine .expect hparams.le fun brace w hw hn' => ?_
      refine (block_numbers w hn').andThen hparams.le fun body x hx hbody => ?_
      simpa using hbody.mono hparams.le (Nat.le_refl _)
    · refine (expression_numbers t rfl).andThen (Nat.le_refl _) fun e u hu he => ?_
      refine .expect he.le fun paren v hv hn => ?_
      simpa [hn] using he
    · refine (elements_numbers t rfl).andThen (Nat.le_refl _) fun es u hu hes => ?_
      simpa using hes
    · refine (entries_numbers t rfl).andThen (Nat.le_refl _) fun es u hu hes => ?_
      simpa using hes
    · exact hs.ge
  · exact hs.ge
termination_by 32 * s.size
decreasing_by all_goals omega

/-- Elements take numbers from left to right. -/
theorem elements_numbers {n : Nat} (s : State) (hs : s.nextId = n) :
    (elements s).Numbers idsOfExprs n := by
  rw [elements]
  rcases hnext : s.next (· = .rightBracket) with ⟨bracket, t, ht⟩ | _
  · have hn := State.nextId_of_next hnext
    exact .nil (by rw [hn, hs])
  · dsimp only
    split
    · exact hs.ge
    refine (expression_numbers s hs).andThen (Nat.le_refl n) fun e t ht he => ?_
    rcases hnext' : t.next (· = .comma) with ⟨comma, u, hu⟩ | _
    · have hn := State.nextId_of_next hnext'
      refine (elements_numbers u hn).andThen he.le fun es v hv hes => ?_
      simpa using he.append hes
    · refine .expect he.le fun bracket u hu hn => ?_
      simpa [hn] using he
termination_by 32 * s.size + 15
decreasing_by all_goals omega

/-- Entries take numbers from left to right. -/
theorem entries_numbers {n : Nat} (s : State) (hs : s.nextId = n) :
    (entries s).Numbers idsOfEntries n := by
  rw [entries]
  rcases hnext : s.next (· = .rightBrace) with ⟨brace, t, ht⟩ | _
  · have hn := State.nextId_of_next hnext
    exact .nil (by rw [hn, hs])
  · dsimp only
    split
    · exact hs.ge
    rcases hnext' : s.next isKey with ⟨key, t, ht⟩ | _
    · have hn := (State.nextId_of_next hnext').trans hs
      refine .expect hn.ge fun colon u hu hn' => ?_
      refine (expression_numbers u (hn'.trans hn)).andThen (Nat.le_refl n) fun e v hv he => ?_
      rcases hnext'' : v.next (· = .comma) with ⟨comma, w, hw⟩ | _
      · have hn'' := State.nextId_of_next hnext''
        refine (entries_numbers w hn'').andThen he.le fun es x hx hes => ?_
        simpa using he.append hes
      · refine .expect he.le fun brace w hw hn'' => ?_
        simpa [hn''] using he
    · exact hs.ge
termination_by 32 * s.size + 15
decreasing_by all_goals omega

/-- A block takes numbers from one declaration to the next. -/
theorem block_numbers {n : Nat} (s : State) (hs : s.nextId = n) :
    (block s).Numbers idsOfStmts n := by
  rw [block]
  rcases hnext : s.next (· = .rightBrace) with ⟨brace, t, ht⟩ | _
  · have hn := State.nextId_of_next hnext
    exact .nil (by rw [hn, hs])
  · dsimp only
    split
    · exact hs.ge
    next h =>
    have hfound := declaration_numbers s (State.size_pos h) hs
    have hshorter := (declaration s (State.size_pos h)).shorter
    refine (block_numbers _ rfl).andThen hfound.le fun body t ht hbody => ?_
    simpa using hfound.append hbody
termination_by 32 * s.size + 20
decreasing_by all_goals omega

/-- A declaration that is given up leaves a gap. -/
theorem declaration_numbers {n : Nat} (s : State) (h : 0 < s.size) (hs : s.nextId = n) :
    Spans (idsOfStmts (declaration s h).stmt.toList) n (declaration s h).state.nextId := by
  have hstep := declarationStep_numbers s hs
  rw [declaration]
  cases hx : declarationStep s with
  | done stmt t ht =>
    rw [hx] at hstep
    simpa [Step.recover] using hstep
  | failed c t ht =>
    -- The statement is given up, and its numbers with it.
    rw [hx] at hstep
    exact .nil (by simpa [Step.recover, State.record] using hstep)
termination_by 32 * s.size + 19
decreasing_by all_goals omega

/-- Every declaration takes numbers in the order of its parts. -/
theorem declarationStep_numbers {n : Nat} (s : State) (hs : s.nextId = n) :
    (declarationStep s).Numbers Stmt.ids n := by
  have hstatement := statement_numbers s hs
  rw [declarationStep]
  rcases hnext : s.next (fun _ => true) with ⟨word, t, ht⟩ | _
  · have hn := (State.nextId_of_next hnext).trans hs
    dsimp only
    split
    · refine .expect hn.ge fun name u hu hn' => ?_
      have hu' : u.nextId = n := hn'.trans hn
      rcases hnext' : u.next (· = .less) with ⟨less, v, hv⟩ | _
      · have hn'' := (State.nextId_of_next hnext').trans hu'
        refine (superclasses_numbers v hn'').andThen (Nat.le_refl n) fun supers w hw hsupers => ?_
        exact (classBody_numbers name supers w hsupers).within
      · exact (classBody_numbers name [] u (.nil hu'.ge)).within
    · refine (declarators_numbers t hn).andThen (Nat.le_refl n) fun ds u hu hds => ?_
      simpa using hds
    · split
      · refine (callable_numbers .function t hn).andThen (Nat.le_refl n) fun f u hu hf => ?_
        simpa using hf
      · exact hstatement
    · exact hstatement
  · exact hstatement
termination_by 32 * s.size + 18
decreasing_by all_goals omega

/-- Methods take numbers after the superclasses. -/
theorem classBody_numbers (name : Token) (supers : List Reference) {n : Nat} (s : State)
    (hsupers : Spans (supers.map Reference.id) n s.nextId) :
    (classBody name supers s).Numbers Stmt.ids n := by
  rw [classBody]
  refine .expect hsupers.le fun brace t ht hn => ?_
  refine (methods_numbers t hn).andThen hsupers.le fun ms u hu hms => ?_
  simpa using hsupers.append hms
termination_by 32 * s.size
decreasing_by all_goals omega

/-- Methods take numbers one after the other. -/
theorem methods_numbers {n : Nat} (s : State) (hs : s.nextId = n) :
    (methods s).Numbers idsOfMethods n := by
  rw [methods]
  rcases hnext : s.next (· = .rightBrace) with ⟨brace, t, ht⟩ | _
  · have hn := State.nextId_of_next hnext
    exact .nil (by rw [hn, hs])
  · dsimp only
    split
    · exact hs.ge
    refine (callable_numbers .method s hs).andThen (Nat.le_refl n) fun m t ht hm => ?_
    refine (methods_numbers t rfl).andThen hm.le fun ms u hu hms => ?_
    simpa using hm.append hms
termination_by 32 * s.size + 1
decreasing_by all_goals omega

/-- A function takes the numbers of its block. -/
theorem callable_numbers (sort : Callable) {n : Nat} (s : State) (hs : s.nextId = n) :
    (callable sort s).Numbers FunctionDecl.ids n := by
  rw [callable]
  refine .expect hs.ge fun name t ht hn => ?_
  have ht' : t.nextId = n := hn.trans hs
  refine .expect ht'.ge fun paren u hu hn' => ?_
  refine (parameters_numbers u (hn'.trans ht')).andThen (Nat.le_refl n)
    fun params v hv hparams => ?_
  refine .expect hparams.le fun brace w hw hn'' => ?_
  refine (block_numbers w hn'').andThen hparams.le fun body x hx hbody => ?_
  simpa using hbody.mono hparams.le (Nat.le_refl _)
termination_by 32 * s.size
decreasing_by all_goals omega

/-- Variables take the numbers of their initial values. -/
theorem declarators_numbers {n : Nat} (s : State) (hs : s.nextId = n) :
    (declarators s).Numbers idsOfDeclarators n := by
  rw [declarators]
  refine .expect hs.ge fun name t ht hn => ?_
  have ht' : t.nextId = n := hn.trans hs
  rcases hnext : t.next (· = .equal) with ⟨equals, u, hu⟩ | _
  · have hn' := (State.nextId_of_next hnext).trans ht'
    refine (expression_numbers u hn').andThen (Nat.le_refl n) fun e v hv he => ?_
    exact (moreDeclarators_numbers ⟨name, some e⟩ v he).within
  · exact (moreDeclarators_numbers ⟨name, none⟩ t (.nil ht'.ge)).within
termination_by 32 * s.size
decreasing_by all_goals omega

/-- Variables take numbers from left to right. -/
theorem moreDeclarators_numbers (first : Declarator) {n : Nat} (s : State)
    (hfirst : Spans (first.initializer.elim [] Expr.ids) n s.nextId) :
    (moreDeclarators first s).Numbers idsOfDeclarators n := by
  rw [moreDeclarators]
  rcases hnext : s.next (· = .comma) with ⟨comma, t, ht⟩ | _
  · have hn := State.nextId_of_next hnext
    refine (declarators_numbers t hn).andThen hfirst.le fun ds u hu hds => ?_
    simpa [idsOfDeclarators_cons] using hfirst.append hds
  · refine .expect hfirst.le fun stop t ht hn => ?_
    simpa [idsOfDeclarators_cons, hn] using hfirst
termination_by 32 * s.size
decreasing_by all_goals omega

/-- A semicolon takes no number. -/
theorem terminated_numbers (reason : Reason) {n : Nat} (s : State) (hs : s.nextId = n) :
    (terminated reason s).Numbers Expr.ids n := by
  rw [terminated]
  refine (expression_numbers s hs).andThen (Nat.le_refl n) fun e t ht he => ?_
  refine .expect he.le fun stop u hu hn => ?_
  simpa [hn] using he
termination_by 32 * s.size + 15
decreasing_by all_goals omega

/-- A condition takes the numbers of its expression. -/
theorem condition_numbers (start stop : Reason) {n : Nat} (s : State) (hs : s.nextId = n) :
    (condition start stop s).Numbers Expr.ids n := by
  rw [condition]
  refine .expect hs.ge fun paren t ht hn => ?_
  refine (expression_numbers t (hn.trans hs)).andThen (Nat.le_refl n) fun e u hu he => ?_
  refine .expect he.le fun paren v hv hn' => ?_
  simpa [hn'] using he
termination_by 32 * s.size
decreasing_by all_goals omega

/-- Every statement takes numbers in the order of its parts. -/
theorem statement_numbers {n : Nat} (s : State) (hs : s.nextId = n) :
    (statement s).Numbers Stmt.ids n := by
  have hexpression : ((terminated .expressionEnd s).andThen
      fun e t ht => Step.done (Stmt.expression e) t ht).Numbers Stmt.ids n := by
    refine (terminated_numbers .expressionEnd s hs).andThen (Nat.le_refl n) fun e t ht he => ?_
    simpa using he
  rw [statement]
  rcases hnext : s.next (fun _ => true) with ⟨word, t, ht⟩ | _
  · have hn := (State.nextId_of_next hnext).trans hs
    dsimp only
    split
    · exact (forStatement_numbers t hn).within
    · refine (condition_numbers _ _ t hn).andThen (Nat.le_refl n) fun c u hu hc => ?_
      refine (statement_numbers u rfl).andThen hc.le fun body v hv hbody => ?_
      have hthen := hc.append hbody
      rcases hnext' : v.next (· = .kwElse) with ⟨word', w, hw⟩ | _
      · have hn' := State.nextId_of_next hnext'
        refine (statement_numbers w hn').andThen hthen.le fun other x hx hother => ?_
        simpa using hthen.append hother
      · simpa using hthen
    · refine (condition_numbers _ _ t hn).andThen (Nat.le_refl n) fun c u hu hc => ?_
      refine (statement_numbers u rfl).andThen hc.le fun body v hv hbody => ?_
      simpa using hc.append hbody
    · rcases hnext' : t.next (· = .semicolon) with ⟨stop, u, hu⟩ | _
      · have hn' := (State.nextId_of_next hnext').trans hn
        have hnone : Spans [] n u.nextId := .nil hn'.ge
        simpa using hnone
      · refine (terminated_numbers _ t hn).andThen (Nat.le_refl n) fun e u hu he => ?_
        simpa using he
    · refine (block_numbers t hn).andThen (Nat.le_refl n) fun body u hu hbody => ?_
      simpa using hbody
    · refine (terminated_numbers _ t hn).andThen (Nat.le_refl n) fun e u hu he => ?_
      simpa using he
    · exact hexpression
  · exact hexpression
termination_by 32 * s.size + 17
decreasing_by all_goals omega

/-- A counting loop takes the numbers of its start first. -/
theorem forStatement_numbers {n : Nat} (s : State) (hs : s.nextId = n) :
    (forStatement s).Numbers Stmt.ids n := by
  rw [forStatement]
  refine .expect hs.ge fun paren t ht hn => ?_
  have ht' : t.nextId = n := hn.trans hs
  rcases hnext : t.next (· = .semicolon) with ⟨stop, u, hu⟩ | _
  · have hn' := (State.nextId_of_next hnext).trans ht'
    exact (forCondition_numbers none u (.nil hn'.ge)).within
  · rcases hnext' : t.next (· = .kwVar) with ⟨word, u, hu⟩ | _
    · have hn' := (State.nextId_of_next hnext').trans ht'
      refine (declarators_numbers u hn').andThen (Nat.le_refl n) fun ds v hv hds => ?_
      exact (forCondition_numbers (some (.declare ds)) v (by simpa using hds)).within
    · refine (terminated_numbers _ t ht').andThen (Nat.le_refl n) fun e u hu he => ?_
      exact (forCondition_numbers (some (.expression e)) u (by simpa using he)).within
termination_by 32 * s.size
decreasing_by all_goals omega

/-- Then it takes those of its condition. -/
theorem forCondition_numbers (start : Option Stmt) {n : Nat} (s : State)
    (hstart : Spans (start.elim [] Stmt.ids) n s.nextId) :
    (forCondition start s).Numbers Stmt.ids n := by
  rw [forCondition]
  rcases hnext : s.next (· = .semicolon) with ⟨stop, t, ht⟩ | _
  · have hn := State.nextId_of_next hnext
    exact (forStep_numbers start none t (by simpa [hn] using hstart)).within
  · refine (terminated_numbers _ s rfl).andThen hstart.le fun c t ht hc => ?_
    exact (forStep_numbers start (some c) t (hstart.append hc)).within
termination_by 32 * s.size + 16
decreasing_by all_goals omega

/-- Then it takes those of its step and of its body. -/
theorem forStep_numbers (start : Option Stmt) (c : Option Expr) {n : Nat} (s : State)
    (hhead : Spans (start.elim [] Stmt.ids ++ c.elim [] Expr.ids) n s.nextId) :
    (forStep start c s).Numbers Stmt.ids n := by
  rw [forStep]
  rcases hnext : s.next (· = .rightParen) with ⟨paren, t, ht⟩ | _
  · have hn := State.nextId_of_next hnext
    refine (statement_numbers t hn).andThen hhead.le fun body u hu hbody => ?_
    simpa [ids_forLoop] using hhead.append hbody
  · refine (expression_numbers s rfl).andThen hhead.le fun e t ht he => ?_
    refine .expect (Nat.le_trans hhead.le he.le) fun paren u hu hn => ?_
    refine (statement_numbers u hn).andThen (Nat.le_trans hhead.le he.le) fun body v hv hbody => ?_
    -- The step is read before the body and stands after it.
    have hparts := hhead.append (he.append hbody)
    simp only [Step.numbers_done, ids_forLoop, Option.elim_some, List.append_assoc] at hparts ⊢
    exact hparts.perm ((List.perm_append_comm.append_left _).append_left _)
termination_by 32 * s.size + 16
decreasing_by all_goals omega

end

/-! ## Whole parses -/

/-- The references in the statements that are found take different numbers. -/
theorem statements_numbers (s : State) :
    Spans (idsOfStmts (statements s).1) s.nextId (statements s).2.nextId := by
  rw [statements]
  split
  · exact .nil (Nat.le_refl _)
  next h =>
    have hfound := declaration_numbers s (State.size_pos h) rfl
    have hshorter := (declaration s (State.size_pos h)).shorter
    have hrest := statements_numbers (declaration s (State.size_pos h)).state
    simpa using hfound.append hrest
termination_by s.size

/-- The references in a program take different numbers, all of them given out by its parse. -/
theorem spans_parse (tokens : List Token) (n : Nat) :
    Spans (idsOfStmts (parse tokens n).statements) n (parse tokens n).nextId :=
  statements_numbers (.start tokens n)

/-- The references in an expression that is parsed on its own take different numbers, all of them
given out by its parse. One that is not accepted has at most given out numbers. -/
theorem spans_parseExpression? (tokens : List Token) (n : Nat) :
    Spans ((parseExpression? tokens n).1.elim [] Expr.ids) n (parseExpression? tokens n).2 := by
  have hexpression := expression_numbers (.start tokens n) rfl
  unfold parseExpression?
  cases hx : expression (.start tokens n) with
  | done e s hs =>
    rw [hx, Step.numbers_done] at hexpression
    dsimp only
    split
    · exact hexpression
    · exact .nil hexpression.le
  | failed c s hs =>
    rw [hx, Step.numbers_failed] at hexpression
    exact .nil hexpression

/-- One parse: which tokens are read, and as what. -/
inductive Parse where
  /-- The tokens are read as a program. -/
  | program (tokens : List Token)
  /-- The tokens are read as one expression. -/
  | expression (tokens : List Token)

namespace Parse

/-- The numbers of the references in what a parse finds, and the number after all that it gave
out. -/
def numbers : Parse → Nat → List Nat × Nat
  | .program tokens, n => (idsOfStmts (parse tokens n).statements, (parse tokens n).nextId)
  | .expression tokens, n =>
    ((parseExpression? tokens n).1.elim [] Expr.ids, (parseExpression? tokens n).2)

/-- The numbers of the references in what each of several parses finds, and the number after all
that they gave out. Each parse goes on with the numbers where the one before it stopped. -/
def inTurn : List Parse → Nat → List (List Nat) × Nat
  | [], n => ([], n)
  | p :: ps, n =>
    let (ids, n₁) := p.numbers n
    let (idss, n') := inTurn ps n₁
    (ids :: idss, n')

/-- A parse takes numbers from the first one that is free. -/
theorem spans_numbers (p : Parse) (n : Nat) : Spans (p.numbers n).1 n (p.numbers n).2 := by
  cases p with
  | program tokens => exact spans_parse tokens n
  | expression tokens => exact spans_parseExpression? tokens n

/-- The references that several parses find take different numbers. -/
theorem spans_inTurn (ps : List Parse) (n : Nat) :
    Spans (inTurn ps n).1.flatten n (inTurn ps n).2 := by
  induction ps generalizing n with
  | nil => exact .nil (Nat.le_refl n)
  | cons p ps ih => exact (spans_numbers p n).append (ih (p.numbers n).2)

/-- Every reference has a number of its own. Whatever tokens are parsed, as a program or as an
expression, the references in the result have different numbers, none of them below the first one
that was free before and all of them below the first one that is free afterwards. In a series of
parses no two of them give the same number. Numbers are natural numbers, so they never run out; a
counter in a machine word gives out these very numbers as long as the first one that is free
afterwards fits into the word, and then starts again from zero. -/
theorem no_number_is_shared :
    (∀ tokens n,
      let parsed := parse tokens n
      (idsOfStmts parsed.statements).Nodup ∧
        ∀ id ∈ idsOfStmts parsed.statements, n ≤ id ∧ id < parsed.nextId) ∧
    (∀ tokens n e n', parseExpression? tokens n = (some e, n') →
      e.ids.Nodup ∧ ∀ id ∈ e.ids, n ≤ id ∧ id < n') ∧
    ∀ ps n, (inTurn ps n).1.Pairwise List.Disjoint ∧
      ∀ ids ∈ (inTurn ps n).1, ids.Nodup ∧ ∀ id ∈ ids, n ≤ id ∧ id < (inTurn ps n).2 := by
  refine ⟨fun tokens n => ?_, fun tokens n e n' hparse => ?_, fun ps n => ?_⟩
  · exact ⟨(spans_parse tokens n).nodup, (spans_parse tokens n).bounds⟩
  · have hspans := spans_parseExpression? tokens n
    rw [hparse] at hspans
    exact ⟨hspans.nodup, hspans.bounds⟩
  · have hspans := spans_inTurn ps n
    obtain ⟨hnodup, hdisjoint⟩ := List.nodup_flatten.mp hspans.nodup
    refine ⟨hdisjoint, fun ids hids => ⟨hnodup ids hids, fun id hid => hspans.bounds id ?_⟩⟩
    exact List.mem_flatten_of_mem hids hid

/-- The tokens of `a = b`. -/
def assignmentTokens : List Token :=
  [word "a", mark .equal, word "b"]

/-- The tokens of `for (a = b; c; d) e; f = ; g.h = i;`, where a value is missing. -/
def brokenTokens : List Token :=
  [mark .kwFor, mark .leftParen] ++ assignmentTokens ++ [mark .semicolon, word "c", mark .semicolon,
    word "d", mark .rightParen, word "e", mark .semicolon] ++
  [word "f", mark .equal, mark .semicolon] ++
  [word "g", mark .dot, word "h", mark .equal, word "i", mark .semicolon]

/-- The target of an assignment to a variable and the statement that is given up leave gaps in the
numbers, and the step of a loop has a lower number than its body. -/
theorem numbers_of_broken_program :
    inTurn [.program brokenTokens, .expression assignmentTokens] 0 =
        ([[1, 2, 3, 5, 4, 7, 8], [10, 11]], 12) ∧
      parseExpression? assignmentTokens 9 =
        (some (.assign ⟨11, word "a"⟩ (.reference ⟨10, word "b"⟩)), 12) ∧
      [[1, 2, 3, 5, 4, 7, 8], [10, 11]].Pairwise List.Disjoint ∧
      [10, 11].Nodup ∧ 9 ≤ 10 ∧ 11 < 12 := by
  have hprogram : numbers (.program brokenTokens) 0 = ([1, 2, 3, 5, 4, 7, 8], 9) := by cbv
  have hparse : parseExpression? assignmentTokens 9 =
      (some (.assign ⟨11, word "a"⟩ (.reference ⟨10, word "b"⟩)), 12) := by cbv
  have hassignment : numbers (.expression assignmentTokens) 9 = ([10, 11], 12) := by
    rw [numbers, hparse]
    rfl
  have hturns : inTurn [.program brokenTokens, .expression assignmentTokens] 0 =
      ([[1, 2, 3, 5, 4, 7, 8], [10, 11]], 12) := by
    simp only [inTurn, hprogram, hassignment]
  obtain ⟨-, hexpression, hseries⟩ := no_number_is_shared
  have hdisjoint := (hseries [.program brokenTokens, .expression assignmentTokens] 0).1
  rw [hturns] at hdisjoint
  obtain ⟨hnodup, hbounds⟩ := hexpression _ _ _ _ hparse
  exact ⟨hturns, hparse, hdisjoint, hnodup, (hbounds 10 (by simp)).1, (hbounds 11 (by simp)).2⟩

end Parse

end Grammar

end Lox

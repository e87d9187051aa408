import Lox.Proofs.Grammar.Surroundings

/-!
# Calls of productions

A parse is a tree of calls: a production is called in a state, calls other productions on what is
left, and ends in a state. `Call.calls` lists the calls that a production makes, in the order in
which it makes them. `Call.linked` says how they hang together: each of them starts where the one
before it ended or further on, the last one ends where the production ends or before, and each comes
below the call that made it, since a token was taken in between or the production ranks lower.
Whatever holds of a whole parse follows from that.
-/

namespace Lox.Grammar

/-! ## The order of states -/

/-- The state `t` comes after `s` in a parse, up to the same end token. -/
structure Onward (s t : State) : Prop extends Later s t where
  /-- The end token stays. -/
  last : t.last = s.last

namespace Onward

variable {s t u : State}

/-- A state comes after itself. -/
theorem refl (s : State) : Onward s s :=
  ⟨.refl s, rfl⟩

/-- The order of states is transitive. -/
theorem trans (h : Onward s t) (h' : Onward t u) : Onward s u :=
  ⟨h.toLater.trans h'.toLater, h'.last.trans h.last⟩

/-- A state in which a number was given out comes later. -/
theorem used (s : State) : Onward s s.used :=
  ⟨.used s, rfl⟩

/-- A state in which a complaint was made comes later. -/
theorem record (s : State) (c : Complaint) : Onward s (s.record c) :=
  ⟨.record s c, rfl⟩

/-- A state in which a list was found too long comes later. -/
theorem limit (s : State) (count : Nat) (reason : Reason) : Onward s (s.limit count reason) := by
  unfold State.limit
  split
  · exact .record s _
  · exact .refl s

/-- Parsing resumes further on. -/
theorem resume (s : State) : Onward s s.resume := by
  refine ⟨.resume s, ?_⟩
  unfold State.resume
  split <;> rfl

/-- The state after a token that is taken. -/
theorem next {wanted : Token.Kind → Bool} {token : Token} {hu : u.size < s.size}
    (h : s.next wanted = .took token u hu) : Onward s u := by
  obtain ⟨rest, hrest, rfl⟩ := State.of_next h
  exact ⟨.take hrest, rfl⟩

end Onward

/-- The state in which a production ends. -/
def Step.final {α : Type} {s : State} (x : Step α s) : State :=
  match x with
  | .done _ t _ => t
  | .failed _ t _ => t

/-- Fewer tokens are left after three steps. -/
theorem State.size_lt₃ {s t u v : State} (ht : t.size < s.size) (hu : u.size < t.size)
    (hv : v.size < u.size) : v.size < s.size := by
  omega

/-- Fewer tokens are left after four steps. -/
theorem State.size_lt₄ {s t u v w : State} (ht : t.size < s.size) (hu : u.size < t.size)
    (hv : v.size < u.size) (hw : w.size < v.size) : w.size < s.size := by
  omega

/-! ## Calls -/

/-- A call of a production. -/
inductive Call where
  | parameter (count : Nat) (s : State)
  | moreParameters (count : Nat) (s : State)
  | parameters (s : State)
  | superclasses (s : State)
  | expression (s : State)
  | operand (level : Tier) (s : State)
  | tier (level : Tier) (s : State)
  /-- What follows an operand is looked for in the state `t`. -/
  | chain (level : Tier) (s : State) (left : Expr) (t : State) (h : t.size < s.size)
  | unary (s : State)
  /-- What follows an operand is looked for in the state `t`. -/
  | suffixes (s : State) (e : Expr) (t : State) (h : t.size < s.size)
  | arguments (s : State)
  | moreArguments (count : Nat) (s : State)
  | primary (s : State)
  | elements (s : State)
  | entries (s : State)
  | block (s : State)
  /-- A declaration is only looked for where a token is left. -/
  | declaration (s : State) (h : 0 < s.size)
  | declarationStep (s : State)
  | classBody (name : Token) (supers : List Reference) (s : State)
  | methods (s : State)
  | callable (sort : Callable) (s : State)
  | declarators (s : State)
  | moreDeclarators (first : Declarator) (s : State)
  | terminated (reason : Reason) (s : State)
  | condition (start stop : Reason) (s : State)
  | statement (s : State)
  | forStatement (s : State)
  | forCondition (start : Option Stmt) (s : State)
  | forStep (start : Option Stmt) (c : Option Expr) (s : State)
  | statements (s : State)

/-- The calls that follow a production, if it is found. -/
def Step.thenCalls {α : Type} {s : State} (x : Step α s)
    (f : (a : α) → (t : State) → t.size < s.size → List Call) : List Call :=
  match x with
  | .done a t ht => f a t ht
  | .failed _ _ _ => []

/-- The calls that follow a token of the given kind, if it comes next. -/
def State.expectCalls (t : State) (kind : Token.Kind)
    (f : (token : Token) → (u : State) → u.size < t.size → List Call) : List Call :=
  match t.next (· = kind) with
  | .took token u hu => f token u hu
  | .other => []

namespace Call

/-- The state in which the production starts. -/
@[simp] def state : Call → State
  | .parameter _ s | .moreParameters _ s | .parameters s | .superclasses s | .expression s
  | .operand _ s | .tier _ s | .chain _ _ _ s _ | .unary s | .suffixes _ _ s _ | .arguments s
  | .moreArguments _ s | .primary s | .elements s | .entries s | .block s | .declaration s _
  | .declarationStep s | .classBody _ _ s | .methods s | .callable _ s | .declarators s
  | .moreDeclarators _ s | .terminated _ s | .condition _ _ s | .statement s | .forStatement s
  | .forCondition _ s | .forStep _ _ s | .statements s => s

/-- The state in which the production ends, whether it is found or not. -/
@[simp] def final : Call → State
  | .parameter count s => (Grammar.parameter count s).final
  | .moreParameters count s => (Grammar.moreParameters count s).final
  | .parameters s => (Grammar.parameters s).final
  | .superclasses s => (Grammar.superclasses s).final
  | .expression s => (Grammar.expression s).final
  | .operand level s => (Grammar.operand level s).final
  | .tier level s => (Grammar.tier level s).final
  | .chain level s left t h => (Grammar.chain level s left t h).final
  | .unary s => (Grammar.unary s).final
  | .suffixes s e t h => (Grammar.suffixes s e t h).final
  | .arguments s => (Grammar.arguments s).final
  | .moreArguments count s => (Grammar.moreArguments count s).final
  | .primary s => (Grammar.primary s).final
  | .elements s => (Grammar.elements s).final
  | .entries s => (Grammar.entries s).final
  | .block s => (Grammar.block s).final
  | .declaration s h => (Grammar.declaration s h).state
  | .declarationStep s => (Grammar.declarationStep s).final
  | .classBody name supers s => (Grammar.classBody name supers s).final
  | .methods s => (Grammar.methods s).final
  | .callable sort s => (Grammar.callable sort s).final
  | .declarators s => (Grammar.declarators s).final
  | .moreDeclarators first s => (Grammar.moreDeclarators first s).final
  | .terminated reason s => (Grammar.terminated reason s).final
  | .condition start stop s => (Grammar.condition start stop s).final
  | .statement s => (Grammar.statement s).final
  | .forStatement s => (Grammar.forStatement s).final
  | .forCondition start s => (Grammar.forCondition start s).final
  | .forStep start c s => (Grammar.forStep start c s).final
  | .statements s => (Grammar.statements s).2

/-- The rank of the production. One that is called before a token was taken ranks lower. -/
@[simp] def rank : Call → Nat
  | .chain _ _ _ _ _ | .suffixes _ _ _ _ | .primary _ | .classBody _ _ _ | .callable _ _
  | .declarators _ | .moreDeclarators _ _ | .condition _ _ _ | .forStatement _ | .parameter _ _
  | .superclasses _ => 0
  | .unary _ | .methods _ | .moreParameters _ _ => 1
  | .parameters _ => 2
  | .operand level _ => 2 * level.rank
  | .tier level _ => 2 * level.rank + 1
  | .expression _ => 14
  | .moreArguments _ _ | .elements _ | .entries _ | .terminated _ _ => 15
  | .arguments _ | .forCondition _ _ | .forStep _ _ _ => 16
  | .statement _ => 17
  | .declarationStep _ => 18
  | .declaration _ _ => 19
  | .block _ | .statements _ => 20

/-- The calls that the production makes, in order. -/
@[simp] def calls : Call → List Call
  | .parameter _ _ => []
  | .moreParameters count s =>
    .parameter count s :: (Grammar.parameter count s).thenCalls fun _ t _ =>
    match t.next (· = .comma) with
    | .took _ u _ => [.moreParameters (count + 1) u]
    | .other => []
  | .parameters s =>
    match s.next (· = .rightParen) with
    | .took _ _ _ => []
    | .other => [.moreParameters 0 s]
  | .superclasses s =>
    s.expectCalls .identifier fun _ t _ =>
    match t.used.next (· = .comma) with
    | .took _ u _ => [.superclasses u]
    | .other => []
  | .expression s =>
    .tier .disjunction s :: (Grammar.tier .disjunction s).thenCalls fun _ t _ =>
    match t.next (· = .equal) with
    | .other => []
    | .took _ u _ => [.expression u]
  | .operand level s =>
    match level.tighter with
    | some tighter => [.tier tighter s]
    | none => [.unary s]
  | .tier level s =>
    .operand level s :: (Grammar.operand level s).thenCalls fun left t ht =>
      [.chain level s left t ht]
  | .chain level s left t h =>
    match t.next level.has with
    | .other => []
    | .took op u hu =>
      .operand level u :: (Grammar.operand level u).thenCalls fun right v hv =>
        [.chain level s (level.node left op right) v (State.size_lt₃ h hu hv)]
  | .unary s =>
    match s.next isSign with
    | .took _ t _ => [.unary t]
    | .other => .primary s :: (Grammar.primary s).thenCalls fun e t ht => [.suffixes s e t ht]
  | .suffixes s e t h =>
    match t.next isSuffix with
    | .other => []
    | .took mark u hu =>
      match mark.kind with
      | .leftParen =>
        .arguments u :: (Grammar.arguments u).thenCalls fun found v hv =>
          [.suffixes s (.call e found.2 found.1) v (State.size_lt₃ h hu hv)]
      | .dot =>
        u.expectCalls .identifier fun name v hv =>
          [.suffixes s (.get e name) v (State.size_lt₃ h hu hv)]
      | _ =>
        .expression u :: (Grammar.expression u).thenCalls fun key v hv =>
        v.expectCalls .rightBracket fun _ w hw =>
          [.suffixes s (.index e mark key) w (State.size_lt₄ h hu hv hw)]
  | .arguments s =>
    match s.next (· = .rightParen) with
    | .took _ _ _ => []
    | .other => [.moreArguments 0 s]
  | .moreArguments count s =>
    .expression (s.limit count .tooManyArguments) ::
      (Grammar.expression (s.limit count .tooManyArguments)).thenCalls fun _ u _ =>
    match u.next (· = .comma) with
    | .took _ v _ => [.moreArguments (count + 1) v]
    | .other => []
  | .primary s =>
    match s.next (fun _ => true) with
    | .other => []
    | .took token t _ =>
      match token.kind with
      | .kwFun =>
        t.expectCalls .leftParen fun _ u _ =>
        .parameters u :: (Grammar.parameters u).thenCalls fun _ v _ =>
        v.expectCalls .leftBrace fun _ w _ => [.block w]
      | .leftParen => [.expression t]
      | .leftBracket => [.elements t]
      | .leftBrace => [.entries t]
      | _ => []
  | .elements s =>
    match s.next (· = .rightBracket) with
    | .took _ _ _ => []
    | .other =>
      if s.atEnd then []
      else
        .expression s :: (Grammar.expression s).thenCalls fun _ t _ =>
        match t.next (· = .comma) with
        | .took _ u _ => [.elements u]
        | .other => []
  | .entries s =>
    match s.next (· = .rightBrace) with
    | .took _ _ _ => []
    | .other =>
      if s.atEnd then []
      else
        match s.next isKey with
        | .other => []
        | .took _ t _ =>
          t.expectCalls .colon fun _ u _ =>
          .expression u :: (Grammar.expression u).thenCalls fun _ v _ =>
          match v.next (· = .comma) with
          | .took _ w _ => [.entries w]
          | .other => []
  | .block s =>
    match s.next (· = .rightBrace) with
    | .took _ _ _ => []
    | .other =>
      if h : s.atEnd then []
      else
        [.declaration s (State.size_pos h),
          .block (Grammar.declaration s (State.size_pos h)).state]
  | .declaration s _ => [.declarationStep s]
  | .declarationStep s =>
    match s.next (fun _ => true) with
    | .other => [.statement s]
    | .took first t _ =>
      match first.kind with
      | .kwClass =>
        t.expectCalls .identifier fun name u _ =>
        match u.next (· = .less) with
        | .took _ v _ =>
          .superclasses v :: (Grammar.superclasses v).thenCalls fun supers w _ =>
            [.classBody name supers w]
        | .other => [.classBody name [] u]
      | .kwVar => [.declarators t]
      | .kwFun =>
        match t.next (· = .identifier) with
        | .took _ _ _ => [.callable .function t]
        | .other => [.statement s]
      | _ => [.statement s]
  | .classBody _ _ s => s.expectCalls .leftBrace fun _ t _ => [.methods t]
  | .methods s =>
    match s.next (· = .rightBrace) with
    | .took _ _ _ => []
    | .other =>
      if s.atEnd then []
      else
        .callable .method s :: (Grammar.callable .method s).thenCalls fun _ t _ => [.methods t]
  | .callable _ s =>
    s.expectCalls .identifier fun _ t _ =>
    t.expectCalls .leftParen fun _ u _ =>
    .parameters u :: (Grammar.parameters u).thenCalls fun _ v _ =>
    v.expectCalls .leftBrace fun _ w _ => [.block w]
  | .declarators s =>
    s.expectCalls .identifier fun name t _ =>
    match t.next (· = .equal) with
    | .took _ u _ =>
      .expression u :: (Grammar.expression u).thenCalls fun e v _ =>
        [.moreDeclarators ⟨name, some e⟩ v]
    | .other => [.moreDeclarators ⟨name, none⟩ t]
  | .moreDeclarators _ s =>
    match s.next (· = .comma) with
    | .took _ t _ => [.declarators t]
    | .other => []
  | .terminated _ s => [.expression s]
  | .condition _ _ s => s.expectCalls .leftParen fun _ t _ => [.expression t]
  | .statement s =>
    match s.next (fun _ => true) with
    | .other => [.terminated .expressionEnd s]
    | .took first t _ =>
      match first.kind with
      | .kwFor => [.forStatement t]
      | .kwIf =>
        .condition .ifStart .ifEnd t ::
          (Grammar.condition .ifStart .ifEnd t).thenCalls fun _ u _ =>
        .statement u :: (Grammar.statement u).thenCalls fun _ v _ =>
        match v.next (· = .kwElse) with
        | .took _ w _ => [.statement w]
        | .other => []
      | .kwWhile =>
        .condition .whileStart .whileEnd t ::
          (Grammar.condition .whileStart .whileEnd t).thenCalls fun _ u _ => [.statement u]
      | .kwReturn =>
        match t.next (· = .semicolon) with
        | .took _ _ _ => []
        | .other => [.terminated .resultEnd t]
      | .leftBrace => [.block t]
      | .kwPrint => [.terminated .printEnd t]
      | _ => [.terminated .expressionEnd s]
  | .forStatement s =>
    s.expectCalls .leftParen fun _ t _ =>
    match t.next (· = .semicolon) with
    | .took _ u _ => [.forCondition none u]
    | .other =>
      match t.next (· = .kwVar) with
      | .took _ u _ =>
        .declarators u :: (Grammar.declarators u).thenCalls fun ds v _ =>
          [.forCondition (some (.declare ds)) v]
      | .other =>
        .terminated .expressionEnd t ::
          (Grammar.terminated .expressionEnd t).thenCalls fun e u _ =>
            [.forCondition (some (.expression e)) u]
  | .forCondition start s =>
    match s.next (· = .semicolon) with
    | .took _ t _ => [.forStep start none t]
    | .other =>
      .terminated .forConditionEnd s ::
        (Grammar.terminated .forConditionEnd s).thenCalls fun c t _ => [.forStep start (some c) t]
  | .forStep _ _ s =>
    match s.next (· = .rightParen) with
    | .took _ t _ => [.statement t]
    | .other =>
      .expression s :: (Grammar.expression s).thenCalls fun _ t _ =>
      t.expectCalls .rightParen fun _ u _ => [.statement u]
  | .statements s =>
    if h : s.atEnd then []
    else
      [.declaration s (State.size_pos h),
        .statements (Grammar.declaration s (State.size_pos h)).state]

/-- The call `c` comes below `c₀`: a token was taken in between, or the production ranks lower. -/
def Below (c c₀ : Call) : Prop :=
  c.state.size < c₀.state.size ∨ c.state.size = c₀.state.size ∧ c.rank < c₀.rank

end Call

/-! ## How the calls of a production hang together -/

/-- Calls that are made one after the other by `c₀`, on the way from the state `s` to `t`. -/
inductive Linked (c₀ : Call) : State → List Call → State → Prop
  | nil {s t : State} (h : Onward s t) : Linked c₀ s [] t
  | cons {s t : State} {c : Call} {cs : List Call} (h : Onward s c.state) (hc : c.Below c₀)
      (hcs : Linked c₀ c.final cs t) : Linked c₀ s (c :: cs) t

namespace Onward

variable {α β : Type} {s t : State}

/-- A production goes on after an expected token. -/
theorem expect {kind : Token.Kind} {reason : Reason}
    {f : (token : Token) → (u : State) → u.size < t.size → Step β s} {hts : t.size ≤ s.size}
    (hf : ∀ token u hu, Onward u (f token u hu).final) :
    Onward t (t.expect kind reason f hts).final := by
  unfold State.expect
  rcases hnext : t.next (· = kind) with ⟨token, u, hu⟩ | _
  · exact (next hnext).trans (hf token u hu)
  · exact .refl t

end Onward

namespace Linked

variable {α β : Type} {c₀ c : Call} {s t u : State}

/-- Calls may start further on. -/
theorem of_onward {cs : List Call} (h : Onward s t) (hcs : Linked c₀ t cs u) :
    Linked c₀ s cs u := by
  cases hcs with
  | nil h' => exact .nil (h.trans h')
  | cons h' hc hcs => exact .cons (h.trans h') hc hcs

/-- A production ends as the only one that it calls. -/
theorem single (h : Onward s c.state) (hc : c.Below c₀) : Linked c₀ s [c] c.final :=
  .cons h hc (.nil (.refl _))

/-- A production goes on after another one, with calls that depend on what that one found. -/
theorem andThen {x : Step α t} {f : (a : α) → (u : State) → u.size < t.size → Step β s}
    {hts : t.size ≤ s.size} {g : (a : α) → (u : State) → u.size < t.size → List Call}
    (h : Onward u c.state) (hfinal : c.final = x.final) (hc : c.Below c₀)
    (hf : ∀ a v hv, Linked c₀ v (g a v hv) (f a v hv).final) :
    Linked c₀ u (c :: x.thenCalls g) (x.andThen f hts).final := by
  refine .cons h hc ?_
  rw [hfinal]
  cases x with
  | done a v hv => exact hf a v hv
  | failed complaint v hv => exact .nil (.refl v)

/-- A production goes on after another one, without further calls. -/
theorem andThen_nil {x : Step α t} {f : (a : α) → (u : State) → u.size < t.size → Step β s}
    {hts : t.size ≤ s.size} (h : Onward u c.state) (hfinal : c.final = x.final) (hc : c.Below c₀)
    (hf : ∀ a v hv, Onward v (f a v hv).final) :
    Linked c₀ u [c] (x.andThen f hts).final := by
  refine .cons h hc (.nil ?_)
  rw [hfinal]
  cases x with
  | done a v hv => exact hf a v hv
  | failed complaint v hv => exact .refl v

/-- A production ends as another one that is seen from an earlier state. -/
theorem within {x : Step α t} {hts : t.size ≤ s.size} (h : Onward u c.state)
    (hfinal : c.final = x.final) (hc : c.Below c₀) : Linked c₀ u [c] (x.within hts).final := by
  refine .cons h hc (.nil ?_)
  rw [hfinal]
  cases x with
  | done a v hv => exact .refl v
  | failed complaint v hv => exact .refl v

/-- A production goes on after an expected token. -/
theorem expect {kind : Token.Kind} {reason : Reason}
    {f : (token : Token) → (u : State) → u.size < t.size → Step β s} {hts : t.size ≤ s.size}
    {g : (token : Token) → (u : State) → u.size < t.size → List Call}
    (hf : ∀ token u hu, Linked c₀ u (g token u hu) (f token u hu).final) :
    Linked c₀ t (t.expectCalls kind g) (t.expect kind reason f hts).final := by
  unfold State.expectCalls State.expect
  rcases hnext : t.next (· = kind) with ⟨token, u, hu⟩ | _
  · exact .of_onward (.next hnext) (hf token u hu)
  · exact .nil (.refl t)

end Linked

/-- The calls of a production lead from the state in which it starts to the one in which it ends. -/
def Call.IsLinked (c : Call) : Prop :=
  Linked c c.state c.calls c.final

/-! ### Lists of names -/

/-- A parameter calls nothing. -/
theorem parameter_linked (count : Nat) (s : State) : (Call.parameter count s).IsLinked := by
  rw [Call.IsLinked, Call.calls, Call.final, parameter]
  exact .of_onward (.limit s count .tooManyParameters) (.nil (.expect fun name t ht => .refl t))

/-- Parameters call one parameter and then the others. -/
theorem moreParameters_linked (count : Nat) (s : State) :
    (Call.moreParameters count s).IsLinked := by
  rw [Call.IsLinked, Call.calls, Call.final, moreParameters]
  refine .andThen (.refl s) rfl (.inr ⟨rfl, by simp⟩) fun name t ht => ?_
  rcases hnext : t.next (· = .comma) with ⟨comma, u, hu⟩ | _
  · exact .andThen_nil (.next hnext) rfl (.inl (Nat.lt_trans hu ht)) fun names v hv => .refl v
  · exact .nil (.expect fun right u hu => .refl u)

/-- Parameters call all of them, unless there is none. -/
theorem parameters_linked (s : State) : (Call.parameters s).IsLinked := by
  rw [Call.IsLinked, Call.calls, Call.final, parameters]
  rcases hnext : s.next (· = .rightParen) with ⟨right, t, ht⟩ | _
  · exact .nil (.next hnext)
  · exact .single (.refl s) (.inr ⟨rfl, by simp⟩)

/-- Superclasses call those behind the first one. -/
theorem superclasses_linked (s : State) : (Call.superclasses s).IsLinked := by
  rw [Call.IsLinked, Call.calls, Call.final, superclasses]
  refine .expect fun name t ht => .of_onward (.used t) ?_
  rcases hnext : t.used.next (· = .comma) with ⟨comma, u, hu⟩ | _
  · exact .andThen_nil (.next hnext) rfl (.inl (Nat.lt_trans hu ht)) fun xs v hv => .refl v
  · exact .nil (.refl _)

/-! ### Expressions -/

/-- An expression calls the target and then the value. -/
theorem expression_linked (s : State) : (Call.expression s).IsLinked := by
  rw [Call.IsLinked, Call.calls, Call.final, expression]
  refine .andThen (.refl s) rfl (.inr ⟨rfl, by simp [Tier.rank]⟩) fun target t ht => ?_
  rcases hnext : t.next (· = .equal) with ⟨equals, u, hu⟩ | _
  · refine .andThen_nil (.next hnext) rfl (.inl (Nat.lt_trans hu ht)) fun value v hv => ?_
    split
    · exact .used v
    · exact .refl v
    · exact .refl v
    · exact .record v _
  · exact .nil (.refl t)

/-- An operand calls a tighter tier. -/
theorem operand_linked (level : Tier) (s : State) : (Call.operand level s).IsLinked := by
  rw [Call.IsLinked, Call.calls, Call.final]
  cases hlevel : level.tighter with
  | some tighter =>
    rw [operand_of_some hlevel]
    have hrank := Tier.rank_tighter hlevel
    exact .single (.refl s) (.inr ⟨rfl, by simp only [Call.rank]; omega⟩)
  | none =>
    rw [operand_of_none hlevel]
    have hrank := level.rank_pos
    exact .single (.refl s) (.inr ⟨rfl, by simp only [Call.rank]; omega⟩)

/-- A tier calls its first operand and then the chain. -/
theorem tier_linked (level : Tier) (s : State) : (Call.tier level s).IsLinked := by
  rw [Call.IsLinked, Call.calls, Call.final, tier]
  exact .andThen (.refl s) rfl (.inr ⟨rfl, Nat.lt_succ_self _⟩) fun left t ht =>
    .single (.refl t) (.inl ht)

/-- A chain calls the next operand and then the chain. -/
theorem chain_linked (level : Tier) (s : State) (left : Expr) (t : State) (h : t.size < s.size) :
    (Call.chain level s left t h).IsLinked := by
  rw [Call.IsLinked, Call.calls, Call.final, chain]
  rcases hnext : t.next level.has with ⟨op, u, hu⟩ | _
  · exact .andThen (.next hnext) rfl (.inl hu) fun right v hv =>
      .single (.refl v) (.inl (Nat.lt_trans hv hu))
  · exact .nil (.refl t)

/-- A sign calls its operand, and an operand its suffixes. -/
theorem unary_linked (s : State) : (Call.unary s).IsLinked := by
  rw [Call.IsLinked, Call.calls, Call.final, unary]
  rcases hnext : s.next isSign with ⟨op, t, ht⟩ | _
  · exact .andThen_nil (.next hnext) rfl (.inl ht) fun right u hu => .refl u
  · exact .andThen (.refl s) rfl (.inr ⟨rfl, by simp⟩) fun e t ht =>
      .single (.refl t) (.inl ht)

/-- Suffixes call arguments or a key, and then suffixes. -/
theorem suffixes_linked (s : State) (e : Expr) (t : State) (h : t.size < s.size) :
    (Call.suffixes s e t h).IsLinked := by
  rw [Call.IsLinked, Call.calls, Call.final, suffixes]
  rcases hnext : t.next isSuffix with ⟨mark, u, hu⟩ | _
  · refine .of_onward (.next hnext) ?_
    dsimp only
    cases mark.kind with
    | leftParen =>
      exact .andThen (.refl u) rfl (.inl hu) fun found v hv =>
        .single (.refl v) (.inl (Nat.lt_trans hv hu))
    | dot => exact .expect fun name v hv => .single (.refl v) (.inl (Nat.lt_trans hv hu))
    | _ =>
      exact .andThen (.refl u) rfl (.inl hu) fun key v hv => .expect fun right w hw =>
        .single (.refl w) (.inl (State.size_lt₃ hu hv hw))
  · exact .nil (.refl t)

/-- Arguments call all of them, unless there is none. -/
theorem arguments_linked (s : State) : (Call.arguments s).IsLinked := by
  rw [Call.IsLinked, Call.calls, Call.final, arguments]
  rcases hnext : s.next (· = .rightParen) with ⟨right, t, ht⟩ | _
  · exact .nil (.next hnext)
  · exact .single (.refl s) (.inr ⟨rfl, by simp⟩)

/-- Arguments call an expression and then the others. -/
theorem moreArguments_linked (count : Nat) (s : State) :
    (Call.moreArguments count s).IsLinked := by
  rw [Call.IsLinked, Call.calls, Call.final, moreArguments]
  have hlimit := s.size_limit count .tooManyArguments
  -- A complaint about too many arguments takes no token.
  refine .andThen (.limit s count .tooManyArguments) rfl (.inr ⟨hlimit, by simp⟩)
    fun e u hu => ?_
  rw [hlimit] at hu
  rcases hnext : u.next (· = .comma) with ⟨comma, v, hv⟩ | _
  · exact .andThen_nil (.next hnext) rfl (.inl (Nat.lt_trans hv hu)) fun found w hw => .refl w
  · exact .nil (.expect fun right v hv => .refl v)

/-- An operand calls what stands in it. -/
theorem primary_linked (s : State) : (Call.primary s).IsLinked := by
  rw [Call.IsLinked, Call.calls, Call.final, primary]
  rcases hnext : s.next (fun _ => true) with ⟨token, t, ht⟩ | _
  · have hst : Onward s t := .next hnext
    dsimp only
    cases token.kind with
    | kwFalse | kwTrue | kwNil | number | string => exact .nil hst
    | kwThis | identifier => exact .nil (hst.trans (.used t))
    | kwSuper =>
      exact .nil (hst.trans (.expect fun dot u hu => .expect fun method v hv => .used v))
    | kwFun =>
      -- The body is a block, in which declarations are given up on their own.
      refine .of_onward hst (.expect fun left u hu => ?_)
      refine .andThen (.refl u) rfl (.inl (Nat.lt_trans hu ht)) fun params v hv => ?_
      refine .expect fun brace w hw => ?_
      have hws : w.size < s.size := State.size_lt₄ ht hu hv hw
      exact .andThen_nil (.refl w) rfl (.inl hws) fun body x hx => .refl x
    | leftParen =>
      exact .andThen_nil hst rfl (.inl ht) fun e u hu => .expect fun right v hv => .refl v
    | leftBracket => exact .andThen_nil hst rfl (.inl ht) fun es u hu => .refl u
    | leftBrace => exact .andThen_nil hst rfl (.inl ht) fun es u hu => .refl u
    -- A token that starts no operand is not taken.
    | _ => exact .nil (.refl s)
  · exact .nil (.refl s)

/-- Elements call an expression and then the others. -/
theorem elements_linked (s : State) : (Call.elements s).IsLinked := by
  rw [Call.IsLinked, Call.calls, Call.final, elements]
  rcases hnext : s.next (· = .rightBracket) with ⟨right, t, ht⟩ | _
  · exact .nil (.next hnext)
  · dsimp only
    by_cases hend : s.atEnd
    · rw [if_pos hend, if_pos hend]
      exact .nil (.refl s)
    · rw [if_neg hend, if_neg hend]
      refine .andThen (.refl s) rfl (.inr ⟨rfl, by simp⟩) fun e t ht => ?_
      rcases hnext : t.next (· = .comma) with ⟨comma, u, hu⟩ | _
      · exact .andThen_nil (.next hnext) rfl (.inl (Nat.lt_trans hu ht)) fun es v hv => .refl v
      · exact .nil (.expect fun right u hu => .refl u)

/-- Entries call an expression and then the others. -/
theorem entries_linked (s : State) : (Call.entries s).IsLinked := by
  rw [Call.IsLinked, Call.calls, Call.final, entries]
  rcases hnext : s.next (· = .rightBrace) with ⟨right, t, ht⟩ | _
  · exact .nil (.next hnext)
  · dsimp only
    by_cases hend : s.atEnd
    · rw [if_pos hend, if_pos hend]
      exact .nil (.refl s)
    · rw [if_neg hend, if_neg hend]
      rcases hkey : s.next isKey with ⟨key, t, ht⟩ | _
      · refine .of_onward (.next hkey) (.expect fun colon u hu => ?_)
        refine .andThen (.refl u) rfl (.inl (Nat.lt_trans hu ht)) fun e v hv => ?_
        rcases hcomma : v.next (· = .comma) with ⟨comma, w, hw⟩ | _
        · have hws : w.size < s.size := State.size_lt₄ ht hu hv hw
          exact .andThen_nil (.next hcomma) rfl (.inl hws) fun es x hx => .refl x
        · exact .nil (.expect fun right w hw => .refl w)
      · exact .nil (.refl s)

/-! ### Declarations and statements -/

/-- A block calls a declaration and then the rest of it. -/
theorem block_linked (s : State) : (Call.block s).IsLinked := by
  rw [Call.IsLinked, Call.calls, Call.final, block]
  rcases hnext : s.next (· = .rightBrace) with ⟨right, t, ht⟩ | _
  · exact .nil (.next hnext)
  · dsimp only
    by_cases hend : s.atEnd
    · rw [dif_pos hend, dif_pos hend]
      exact .nil (.refl s)
    · rw [dif_neg hend, dif_neg hend]
      -- The rest of the block is below the block since the declaration took a token, found or not.
      have hshorter := (declaration s (State.size_pos hend)).shorter
      refine .cons (.refl s) (.inr ⟨rfl, by simp⟩) ?_
      exact .andThen_nil (.refl _) rfl (.inl hshorter) fun body t ht => .refl t

/-- A declaration calls what may fail in it. -/
theorem declaration_linked (s : State) (h : 0 < s.size) : (Call.declaration s h).IsLinked := by
  rw [Call.IsLinked, Call.calls, Call.final, declaration]
  refine .cons (.refl s) (.inr ⟨rfl, by simp⟩) (.nil ?_)
  rw [Call.final]
  cases declarationStep s with
  | done stmt t ht => exact .refl t
  | failed c t ht => exact (Onward.record t c).trans (.resume _)

/-- A declaration calls what its first word says. -/
theorem declarationStep_linked (s : State) : (Call.declarationStep s).IsLinked := by
  rw [Call.IsLinked, Call.calls, Call.final, declarationStep]
  have hstatement : Linked (.declarationStep s) s [.statement s] (statement s).final :=
    .single (.refl s) (.inr ⟨rfl, by simp⟩)
  rcases hnext : s.next (fun _ => true) with ⟨first, t, ht⟩ | _
  · have hst : Onward s t := .next hnext
    dsimp only
    cases first.kind with
    | kwClass =>
      refine .of_onward hst (.expect fun name u hu => ?_)
      rcases hless : u.next (· = .less) with ⟨less, v, hv⟩ | _
      · have hvs : v.size < s.size := State.size_lt₃ ht hu hv
        exact .andThen (.next hless) rfl (.inl hvs) fun supers w hw =>
          .within (.refl w) rfl (.inl (Nat.lt_trans hw hvs))
      · exact .within (.refl u) rfl (.inl (Nat.lt_trans hu ht))
    | kwVar => exact .andThen_nil hst rfl (.inl ht) fun ds u hu => .refl u
    | kwFun =>
      rcases hname : t.next (· = .identifier) with ⟨name, u, hu⟩ | _
      · exact .andThen_nil hst rfl (.inl ht) fun f u hu => .refl u
      · -- Without a name behind it, the word `fun` is not taken here.
        exact hstatement
    | _ => exact hstatement
  · exact hstatement

/-- The body of a class calls its methods. -/
theorem classBody_linked (name : Token) (supers : List Reference) (s : State) :
    (Call.classBody name supers s).IsLinked := by
  rw [Call.IsLinked, Call.calls, Call.final, classBody]
  exact .expect fun left t ht => .andThen_nil (.refl t) rfl (.inl ht) fun ms u hu => .refl u

/-- Methods call a function and then the others. -/
theorem methods_linked (s : State) : (Call.methods s).IsLinked := by
  rw [Call.IsLinked, Call.calls, Call.final, methods]
  rcases hnext : s.next (· = .rightBrace) with ⟨right, t, ht⟩ | _
  · exact .nil (.next hnext)
  · dsimp only
    by_cases hend : s.atEnd
    · rw [if_pos hend, if_pos hend]
      exact .nil (.refl s)
    · rw [if_neg hend, if_neg hend]
      exact .andThen (.refl s) rfl (.inr ⟨rfl, by simp⟩) fun m t ht =>
        .andThen_nil (.refl t) rfl (.inl ht) fun ms u hu => .refl u

/-- A function calls its parameters and its block. -/
theorem callable_linked (sort : Callable) (s : State) : (Call.callable sort s).IsLinked := by
  rw [Call.IsLinked, Call.calls, Call.final, callable]
  refine .expect fun name t ht => .expect fun left u hu => ?_
  refine .andThen (.refl u) rfl (.inl (Nat.lt_trans hu ht)) fun params v hv => ?_
  refine .expect fun brace w hw => ?_
  have hws : w.size < s.size := State.size_lt₄ ht hu hv hw
  exact .andThen_nil (.refl w) rfl (.inl hws) fun body x hx => .refl x

/-- Variables call the first initial value and then the others. -/
theorem declarators_linked (s : State) : (Call.declarators s).IsLinked := by
  rw [Call.IsLinked, Call.calls, Call.final, declarators]
  refine .expect fun name t ht => ?_
  rcases hnext : t.next (· = .equal) with ⟨equals, u, hu⟩ | _
  · have hus : u.size < s.size := Nat.lt_trans hu ht
    exact .andThen (.next hnext) rfl (.inl hus) fun e v hv =>
      .within (.refl v) rfl (.inl (Nat.lt_trans hv hus))
  · exact .within (.refl t) rfl (.inl ht)

/-- Variables from the second on call themselves. -/
theorem moreDeclarators_linked (first : Declarator) (s : State) :
    (Call.moreDeclarators first s).IsLinked := by
  rw [Call.IsLinked, Call.calls, Call.final, moreDeclarators]
  rcases hnext : s.next (· = .comma) with ⟨comma, t, ht⟩ | _
  · exact .andThen_nil (.next hnext) rfl (.inl ht) fun ds u hu => .refl u
  · exact .nil (.expect fun semicolon t ht => .refl t)

/-- An expression with a semicolon calls the expression. -/
theorem terminated_linked (reason : Reason) (s : State) :
    (Call.terminated reason s).IsLinked := by
  rw [Call.IsLinked, Call.calls, Call.final, terminated]
  exact .andThen_nil (.refl s) rfl (.inr ⟨rfl, by simp⟩) fun e t ht =>
    .expect fun semicolon u hu => .refl u

/-- A condition calls its expression. -/
theorem condition_linked (start stop : Reason) (s : State) :
    (Call.condition start stop s).IsLinked := by
  rw [Call.IsLinked, Call.calls, Call.final, condition]
  exact .expect fun left t ht => .andThen_nil (.refl t) rfl (.inl ht) fun e u hu =>
    .expect fun right v hv => .refl v

/-- A statement calls what its first word says. -/
theorem statement_linked (s : State) : (Call.statement s).IsLinked := by
  rw [Call.IsLinked, Call.calls, Call.final, statement]
  have hexpression : Linked (.statement s) s [.terminated .expressionEnd s]
      ((terminated .expressionEnd s).andThen
        fun e t ht => .done (Stmt.expression e) t ht : Step Stmt s).final :=
    .andThen_nil (.refl s) rfl (.inr ⟨rfl, by simp⟩) fun e t ht => .refl t
  rcases hnext : s.next (fun _ => true) with ⟨first, t, ht⟩ | _
  · have hst : Onward s t := .next hnext
    dsimp only
    cases first.kind with
    | kwFor => exact .within hst rfl (.inl ht)
    | kwIf =>
      refine .andThen hst rfl (.inl ht) fun c u hu => ?_
      refine .andThen (.refl u) rfl (.inl (Nat.lt_trans hu ht)) fun thenBranch v hv => ?_
      rcases helse : v.next (· = .kwElse) with ⟨word, w, hw⟩ | _
      · have hws : w.size < s.size := State.size_lt₄ ht hu hv hw
        exact .andThen_nil (.next helse) rfl (.inl hws) fun elseBranch x hx => .refl x
      · exact .nil (.refl v)
    | kwWhile =>
      exact .andThen hst rfl (.inl ht) fun c u hu =>
        .andThen_nil (.refl u) rfl (.inl (Nat.lt_trans hu ht)) fun body v hv => .refl v
    | kwReturn =>
      rcases hstop : t.next (· = .semicolon) with ⟨semicolon, u, hu⟩ | _
      · exact .nil (hst.trans (.next hstop))
      · exact .andThen_nil hst rfl (.inl ht) fun e u hu => .refl u
    | leftBrace => exact .andThen_nil hst rfl (.inl ht) fun body u hu => .refl u
    | kwPrint => exact .andThen_nil hst rfl (.inl ht) fun e u hu => .refl u
    | _ => exact hexpression
  · exact hexpression

/-- A counting loop calls its start and then its condition. -/
theorem forStatement_linked (s : State) : (Call.forStatement s).IsLinked := by
  rw [Call.IsLinked, Call.calls, Call.final, forStatement]
  refine .expect fun left t ht => ?_
  rcases hstop : t.next (· = .semicolon) with ⟨semicolon, u, hu⟩ | _
  · exact .within (.next hstop) rfl (.inl (Nat.lt_trans hu ht))
  · dsimp only
    rcases hvar : t.next (· = .kwVar) with ⟨var, u, hu⟩ | _
    · have hus : u.size < s.size := Nat.lt_trans hu ht
      exact .andThen (.next hvar) rfl (.inl hus) fun ds v hv =>
        .within (.refl v) rfl (.inl (Nat.lt_trans hv hus))
    · exact .andThen (.refl t) rfl (.inl ht) fun e u hu =>
        .within (.refl u) rfl (.inl (Nat.lt_trans hu ht))

/-- The condition of a counting loop comes before its step. -/
theorem forCondition_linked (start : Option Stmt) (s : State) :
    (Call.forCondition start s).IsLinked := by
  rw [Call.IsLinked, Call.calls, Call.final, forCondition]
  rcases hstop : s.next (· = .semicolon) with ⟨semicolon, t, ht⟩ | _
  · exact .within (.next hstop) rfl (.inl ht)
  · exact .andThen (.refl s) rfl (.inr ⟨rfl, by simp⟩) fun c t ht =>
      .within (.refl t) rfl (.inl ht)

/-- The step of a counting loop comes before its body. -/
theorem forStep_linked (start : Option Stmt) (c : Option Expr) (s : State) :
    (Call.forStep start c s).IsLinked := by
  rw [Call.IsLinked, Call.calls, Call.final, forStep]
  rcases hright : s.next (· = .rightParen) with ⟨right, t, ht⟩ | _
  · exact .andThen_nil (.next hright) rfl (.inl ht) fun body u hu => .refl u
  · refine .andThen (.refl s) rfl (.inr ⟨rfl, by simp⟩) fun e t ht => ?_
    exact .expect fun right u hu =>
      .andThen_nil (.refl u) rfl (.inl (Nat.lt_trans hu ht)) fun body v hv => .refl v

/-- Statements call a declaration and then the others. -/
theorem statements_linked (s : State) : (Call.statements s).IsLinked := by
  rw [Call.IsLinked, Call.calls, Call.final, statements]
  by_cases hend : s.atEnd
  · rw [dif_pos hend, dif_pos hend]
    exact .nil (.refl s)
  · rw [dif_neg hend, dif_neg hend]
    have hshorter := (declaration s (State.size_pos hend)).shorter
    refine .cons (.refl s) (.inr ⟨rfl, by simp⟩) ?_
    exact .single (.refl _) (.inl hshorter)

/-- The calls of every production hang together. -/
theorem Call.linked (c : Call) : c.IsLinked := by
  cases c with
  | parameter count s => exact parameter_linked count s
  | moreParameters count s => exact moreParameters_linked count s
  | parameters s => exact parameters_linked s
  | superclasses s => exact superclasses_linked s
  | expression s => exact expression_linked s
  | operand level s => exact operand_linked level s
  | tier level s => exact tier_linked level s
  | chain level s left t h => exact chain_linked level s left t h
  | unary s => exact unary_linked s
  | suffixes s e t h => exact suffixes_linked s e t h
  | arguments s => exact arguments_linked s
  | moreArguments count s => exact moreArguments_linked count s
  | primary s => exact primary_linked s
  | elements s => exact elements_linked s
  | entries s => exact entries_linked s
  | block s => exact block_linked s
  | declaration s h => exact declaration_linked s h
  | declarationStep s => exact declarationStep_linked s
  | classBody name supers s => exact classBody_linked name supers s
  | methods s => exact methods_linked s
  | callable sort s => exact callable_linked sort s
  | declarators s => exact declarators_linked s
  | moreDeclarators first s => exact moreDeclarators_linked first s
  | terminated reason s => exact terminated_linked reason s
  | condition start stop s => exact condition_linked start stop s
  | statement s => exact statement_linked s
  | forStatement s => exact forStatement_linked s
  | forCondition start s => exact forCondition_linked start s
  | forStep start c s => exact forStep_linked start c s
  | statements s => exact statements_linked s

end Lox.Grammar

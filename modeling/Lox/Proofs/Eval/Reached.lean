import Lox.Proofs.Eval.Statements

/-!
# What happens within a moment

A moment is good if its task may start on its machine. A good moment leads to good moments only, one
lemma for each kind of task, and so everything that happens within a good moment is good.
-/

namespace Lox.Eval

open Scoping Exec

namespace Setting

variable {S : Setting} {m m₁ : Machine} {v : Visit} {b : Nat} {μ μ' : Moment}

variable (S) in
/-- At a moment all is as it has to be. -/
structure Good (μ : Moment) : Prop where
  /-- The machine satisfies the invariant. -/
  inv : S.Inv μ.machine
  /-- The task may start on it. -/
  ready : ∃ v, S.Ready μ.machine μ.task v
  /-- All frames that are made within the moment are on record. -/
  records : S.Records μ

/-- What holds after an expression was evaluated. -/
theorem after_evaluate {e : Expr} {x : Value} (hm : S.Inv m) (hat : S.At m v)
    (hpiece : v.piece = .expr e) (hrec : S.Records ⟨.evaluate b e, m⟩)
    (hx : evaluate b e m = .ok x m₁) : S.Inv m₁ ∧ m.Extends m₁ ∧ S.Sound m₁ x :=
  (serves (.evaluate b e) m v hm ⟨hpiece, hat⟩ hrec).ok x m₁ hx

/-- What an expression calls is good. -/
theorem Good.step_evaluate {e : Expr} (h : S.Good ⟨.evaluate b e, m⟩)
    (hcall : Calls ⟨.evaluate b e, m⟩ μ') : S.Good μ' := by
  obtain ⟨hm, ⟨⟨ctx, _, w, around⟩, rfl, hat⟩, hrec⟩ := h
  have hrec' := hrec.step hcall
  -- Each premise of a rule says how an earlier operand ended; evaluation of that operand keeps the
  -- invariant and the frames, so the next operand may start where it ended.
  cases hcall with
  | grouping => exact ⟨hm, ⟨_, rfl, hat.first rfl rfl rfl⟩, hrec'⟩
  | unary => exact ⟨hm, ⟨_, rfl, hat.first rfl rfl rfl⟩, hrec'⟩
  | binaryLeft => exact ⟨hm, ⟨_, rfl, hat.first rfl rfl rfl⟩, hrec'⟩
  | binaryRight hl =>
    obtain ⟨hm₁, hext₁, _⟩ :=
      after_evaluate hm (hat.first rfl rfl rfl) rfl (hrec.step .binaryLeft) hl
    exact ⟨hm₁, ⟨_, rfl, (hat.mono hext₁).second rfl (by simp) rfl⟩, hrec'⟩
  | logicalLeft => exact ⟨hm, ⟨_, rfl, hat.first rfl rfl rfl⟩, hrec'⟩
  | logicalRight hl hv =>
    obtain ⟨hm₁, hext₁, _⟩ :=
      after_evaluate hm (hat.first rfl rfl rfl) rfl (hrec.step .logicalLeft) hl
    exact ⟨hm₁, ⟨_, rfl, (hat.mono hext₁).second rfl (by simp) rfl⟩, hrec'⟩
  | assign => exact ⟨hm, ⟨_, rfl, hat.first rfl rfl rfl⟩, hrec'⟩
  | callee => exact ⟨hm, ⟨_, rfl, hat.first rfl rfl rfl⟩, hrec'⟩
  | arguments hf =>
    obtain ⟨hm₁, hext₁, _⟩ := after_evaluate hm (hat.first rfl rfl rfl) rfl (hrec.step .callee) hf
    exact ⟨hm₁, ⟨_, rfl, (hat.mono hext₁).second rfl (by simp) rfl⟩, hrec'⟩
  | call hf hes =>
    obtain ⟨hm₁, hext₁, hsound⟩ :=
      after_evaluate hm (hat.first rfl rfl rfl) rfl (hrec.step .callee) hf
    obtain ⟨hm₂, hext₂, hsounds⟩ := (serves (.evaluateAll _ _) _ _ hm₁
      ⟨rfl, (hat.mono hext₁).second rfl (by simp) rfl⟩ (hrec.step (.arguments hf))).ok _ _ hes
    exact ⟨hm₂, ⟨⟨ctx, .exprs [], w, around⟩, hsound.mono hext₂.toKeeps, hsounds⟩, hrec'⟩
  | getObject => exact ⟨hm, ⟨_, rfl, hat.first rfl rfl rfl⟩, hrec'⟩
  | getMethod ho hobject hfield hmethod =>
    obtain ⟨hm₁, _, hsound⟩ :=
      after_evaluate hm (hat.first rfl rfl rfl) rfl (hrec.step .getObject) ho
    obtain ⟨_, _, _, hmem⟩ := (Runs.object? hm₁ _).ok _ _ hobject
    have hclass : S.Sound _ (.class _) := hm₁.holds.classes _ (hmem _ rfl)
    exact ⟨hm₁, ⟨⟨ctx, .exprs [], w, around⟩, hclass.method hmethod, hsound⟩, hrec'⟩
  | setObject => exact ⟨hm, ⟨_, rfl, hat.second rfl (by simp) rfl⟩, hrec'⟩
  | setValue ho =>
    obtain ⟨hm₁, hext₁, _⟩ :=
      after_evaluate hm (hat.second rfl (by simp) rfl) rfl (hrec.step .setObject) ho
    exact ⟨hm₁, ⟨_, rfl, (hat.mono hext₁).first rfl rfl rfl⟩, hrec'⟩
  | indexObject => exact ⟨hm, ⟨_, rfl, hat.first rfl rfl rfl⟩, hrec'⟩
  | indexKey ho =>
    obtain ⟨hm₁, hext₁, _⟩ :=
      after_evaluate hm (hat.first rfl rfl rfl) rfl (hrec.step .indexObject) ho
    exact ⟨hm₁, ⟨_, rfl, (hat.mono hext₁).second rfl (by simp) rfl⟩, hrec'⟩
  | setIndexObject => exact ⟨hm, ⟨_, rfl, hat.first rfl rfl rfl⟩, hrec'⟩
  | setIndexKey ho =>
    obtain ⟨hm₁, hext₁, _⟩ :=
      after_evaluate hm (hat.first rfl rfl rfl) rfl (hrec.step .setIndexObject) ho
    exact ⟨hm₁, ⟨_, rfl, (hat.mono hext₁).second rfl (by simp) rfl⟩, hrec'⟩
  | setIndexValue ho hk =>
    obtain ⟨hm₁, hext₁, _⟩ :=
      after_evaluate hm (hat.first rfl rfl rfl) rfl (hrec.step .setIndexObject) ho
    obtain ⟨hm₂, hext₂, _⟩ := after_evaluate hm₁ ((hat.mono hext₁).second rfl (by simp) rfl) rfl
      (hrec.step (.setIndexKey ho)) hk
    exact ⟨hm₂, ⟨_, rfl, (hat.mono (hext₁.trans hext₂)).third rfl (by simp) rfl⟩, hrec'⟩
  | superMethod hx hview hreceiver hmethod =>
    obtain ⟨_, _, hclass⟩ := (Runs.getAt hm _ _).ok _ _ hview
    obtain ⟨_, _, hsound⟩ := (Runs.getAt hm _ _).ok _ _ hreceiver
    have hmem := Class.mem_functions_of_findInherited _ hmethod
    exact ⟨hm, ⟨⟨ctx, .exprs [], w, around⟩, hclass.1 _ hmem, hsound⟩, hrec'⟩
  | array => exact ⟨hm, ⟨_, rfl, hat.first rfl rfl rfl⟩, hrec'⟩
  | object => exact ⟨hm, ⟨_, rfl, hat.first rfl rfl rfl, by simp⟩, hrec'⟩

/-- What a list of expressions calls is good. -/
theorem Good.step_evaluateAll {es : List Expr} (h : S.Good ⟨.evaluateAll b es, m⟩)
    (hcall : Calls ⟨.evaluateAll b es, m⟩ μ') : S.Good μ' := by
  obtain ⟨hm, ⟨⟨ctx, _, w, around⟩, rfl, hat⟩, hrec⟩ := h
  have hrec' := hrec.step hcall
  cases hcall with
  | headExpression => exact ⟨hm, ⟨_, rfl, hat.first rfl rfl rfl⟩, hrec'⟩
  | tailExpressions he =>
    obtain ⟨hm₁, hext₁, _⟩ :=
      after_evaluate hm (hat.first rfl rfl rfl) rfl (hrec.step .headExpression) he
    exact ⟨hm₁, ⟨_, rfl, (hat.mono hext₁).second rfl (by simp) rfl⟩, hrec'⟩

/-- What entries call is good. -/
theorem Good.step_evaluateEntries {es : List Entry} {fields : Bindings}
    (h : S.Good ⟨.evaluateEntries b es fields, m⟩)
    (hcall : Calls ⟨.evaluateEntries b es fields, m⟩ μ') : S.Good μ' := by
  obtain ⟨hm, ⟨⟨ctx, _, w, around⟩, rfl, hat, hfields⟩, hrec⟩ := h
  have hrec' := hrec.step hcall
  cases hcall with
  | @headEntry b entry es fields m =>
    obtain ⟨key, e⟩ := entry
    exact ⟨hm, ⟨_, rfl, hat.first rfl rfl rfl⟩, hrec'⟩
  | @tailEntries b entry es fields x m m₁ he =>
    obtain ⟨key, e⟩ := entry
    obtain ⟨hm₁, hext₁, hsound⟩ :=
      after_evaluate hm (hat.first rfl rfl rfl) rfl (hrec.step .headEntry) he
    refine ⟨hm₁, ⟨_, rfl, (hat.mono hext₁).second rfl (by simp) rfl, fun name y hy => ?_⟩, hrec'⟩
    -- The fields found so far stay sound on the grown machine, and the new one is sound on it.
    exact sound_insert (fun name y hy => (hfields name y hy).mono hext₁.toKeeps) hsound hy

/-- A call leads to a sound function, which is given the right number of arguments. -/
theorem Good.step_call {callee : Value} {vs : List Value} {paren : Token}
    (h : S.Good ⟨.call b callee vs paren, m⟩) (hcall : Calls ⟨.call b callee vs paren, m⟩ μ') :
    S.Good μ' := by
  obtain ⟨hm, ⟨v, hcallee, hvs⟩, hrec⟩ := h
  have hrec' := hrec.step hcall
  cases hcall with
  | callFunction harity => exact ⟨hm, ⟨v, hcallee, hvs, harity⟩, hrec'⟩
  | callClass harity => exact ⟨hm, ⟨v, hcallee, hvs, harity⟩, hrec'⟩

/-- What the making of an instance calls is good. -/
theorem Good.step_instantiate {c : Class} {vs : List Value} (h : S.Good ⟨.instantiate b c vs, m⟩)
    (hcall : Calls ⟨.instantiate b c vs, m⟩ μ') : S.Good μ' := by
  obtain ⟨hm, ⟨v, hclass, hvs, harity⟩, hrec⟩ := h
  have hrec' := hrec.step hcall
  cases hcall with
  | bindInit hinit hobject =>
    obtain ⟨hm₁, hext₁, hsound⟩ := (Runs.newObject hm { cls := c } hclass (by simp)).ok _ _ hobject
    exact ⟨hm₁, ⟨v, (hclass.method hinit).mono hext₁.toKeeps, hsound⟩, hrec'⟩
  | callInit hinit hobject hbound =>
    obtain ⟨hm₁, hext₁, hsound⟩ := (Runs.newObject hm { cls := c } hclass (by simp)).ok _ _ hobject
    obtain ⟨hm₂, hext₂, hfunction, hdecl⟩ := (serves (.bind _ _) _ v hm₁
      ⟨(hclass.method hinit).mono hext₁.toKeeps, hsound⟩ (hrec.step (.bindInit hinit hobject))).ok
      _ _ hbound
    refine ⟨hm₂, ⟨v, hfunction, fun x hx => (hvs x hx).mono (hext₁.trans hext₂).toKeeps, ?_⟩, hrec'⟩
    rw [← harity, Class.arity, hinit, hdecl]

/-- What a function calls is good. -/
theorem Good.step_callFunction {f : Lox.Function} {vs : List Value}
    (h : S.Good ⟨.callFunction b f vs, m⟩) (hcall : Calls ⟨.callFunction b f vs, m⟩ μ') :
    S.Good μ' := by
  obtain ⟨hm, ⟨v, hf, hvs, harity⟩, hrec⟩ := h
  have hrec' := hrec.step hcall
  cases hcall with
  | body hframe =>
    -- The new frame is on record as made for this call, so it is aligned with the scope of the
    -- parameters.
    obtain ⟨hm₁, _, rfl, rfl⟩ := (runs_newFrame_call hm f hvs).ok _ _ hframe
    exact ⟨hm₁.moveTo _, hf.body hm harity (hrec.creates .call), hrec'⟩

/-- What a statement calls is good. -/
theorem Good.step_execute {s : Stmt} (h : S.Good ⟨.execute b s, m⟩)
    (hcall : Calls ⟨.execute b s, m⟩ μ') : S.Good μ' := by
  obtain ⟨hm, ⟨⟨ctx, _, w, around⟩, rfl, hat⟩, hrec⟩ := h
  have hrec' := hrec.step hcall
  cases hcall with
  | expression => exact ⟨hm, ⟨_, rfl, hat.first rfl rfl rfl⟩, hrec'⟩
  | print => exact ⟨hm, ⟨_, rfl, hat.first rfl rfl rfl⟩, hrec'⟩
  | declare => exact ⟨hm, ⟨_, rfl, hat.first rfl rfl rfl⟩, hrec'⟩
  | block hframe =>
    obtain ⟨hm₁, _, rfl, rfl⟩ := (Runs.newFrame hm m.current [] (by simp)).ok _ _ hframe
    exact ⟨hm₁.moveTo _, ⟨_, rfl, hat.block hm (hrec.creates .block)⟩, hrec'⟩
  | condition => exact ⟨hm, ⟨_, rfl, hat.condition⟩, hrec'⟩
  | thenBranch hc hv =>
    obtain ⟨hm₁, hext₁, _⟩ := after_evaluate hm hat.condition rfl (hrec.step .condition) hc
    exact ⟨hm₁, ⟨_, rfl, hat.thenBranch.mono hext₁⟩, hrec'⟩
  | elseBranch hc hv =>
    obtain ⟨hm₁, hext₁, _⟩ := after_evaluate hm hat.condition rfl (hrec.step .condition) hc
    exact ⟨hm₁, ⟨_, rfl, hat.elseBranch.mono hext₁⟩, hrec'⟩
  | loop => exact ⟨hm, ⟨_, rfl, hat⟩, hrec'⟩
  | result => exact ⟨hm, hat.resultValue, hrec'⟩
  | declareClass => exact ⟨hm, ⟨_, rfl, hat.first rfl rfl rfl⟩, hrec'⟩

/-- What a list of statements calls is good. -/
theorem Good.step_runAll {ss : List Stmt} (h : S.Good ⟨.runAll b ss, m⟩)
    (hcall : Calls ⟨.runAll b ss, m⟩ μ') : S.Good μ' := by
  obtain ⟨hm, ⟨⟨ctx, _, w, around⟩, rfl, hat⟩, hrec⟩ := h
  have hrec' := hrec.step hcall
  cases hcall with
  | headStatement => exact ⟨hm, ⟨_, rfl, hat.first rfl rfl rfl⟩, hrec'⟩
  | tailStatements hs =>
    obtain ⟨hm₁, _, hgives⟩ := (serves (.execute _ _) _ _ hm ⟨rfl, hat.first rfl rfl rfl⟩
      (hrec.step .headStatement)).ok _ _ hs
    have hlive := S.live_parts _ hat.live _ (List.mem_cons_of_mem _ List.mem_cons_self)
    exact ⟨hm₁, ⟨_, rfl, hlive, hgives⟩, hrec'⟩

/-- What a loop calls is good. -/
theorem Good.step_loop {c : Expr} {s : Stmt} (h : S.Good ⟨.loop b c s, m⟩)
    (hcall : Calls ⟨.loop b c s, m⟩ μ') : S.Good μ' := by
  obtain ⟨hm, ⟨⟨ctx, _, w, around⟩, rfl, hat⟩, hrec⟩ := h
  have hrec' := hrec.step hcall
  cases hcall with
  | loopCondition => exact ⟨hm, ⟨_, rfl, hat.first rfl rfl rfl⟩, hrec'⟩
  | loopBody hc hv =>
    obtain ⟨hm₁, hext₁, _⟩ :=
      after_evaluate hm (hat.first rfl rfl rfl) rfl (hrec.step .loopCondition) hc
    exact ⟨hm₁, ⟨_, rfl, (hat.mono hext₁).second rfl (by simp) rfl⟩, hrec'⟩
  | loopAgain hc hv hs =>
    obtain ⟨hm₁, hext₁, _⟩ :=
      after_evaluate hm (hat.first rfl rfl rfl) rfl (hrec.step .loopCondition) hc
    obtain ⟨hm₂, hext₂, _⟩ := (serves (.execute _ _) _ _ hm₁
      ⟨rfl, (hat.mono hext₁).second rfl (by simp) rfl⟩ (hrec.step (.loopBody hc hv))).ok _ _ hs
    exact ⟨hm₂, ⟨_, rfl, hat.mono (hext₁.trans hext₂)⟩, hrec'⟩

/-- What declarations of variables call is good. -/
theorem Good.step_declareAll {ds : List Declarator} (h : S.Good ⟨.declareAll b ds, m⟩)
    (hcall : Calls ⟨.declareAll b ds, m⟩ μ') : S.Good μ' := by
  obtain ⟨hm, ⟨⟨ctx, _, w, around⟩, rfl, hat⟩, hrec⟩ := h
  have hrec' := hrec.step hcall
  -- While its initializer runs a name is declared and not yet bound; `Aligned` asks for the names
  -- that have their initial value only.
  have hdeclared := hat.aligned.declare
  cases hcall with
  | @initializer b name e ds m =>
    have hlive := S.live_parts _ hat.live _ List.mem_cons_self
    exact ⟨hm, ⟨_, rfl, hlive, hdeclared name⟩, hrec'⟩
  | @afterInitializer b name e ds x m m₁ m₂ he hdefine =>
    have hlive := S.live_parts _ hat.live _ List.mem_cons_self
    have hlive' := S.live_parts _ hat.live _ (List.mem_cons_of_mem _ List.mem_cons_self)
    obtain ⟨hm₁, hext₁, hsound⟩ :=
      after_evaluate hm ⟨hlive, hdeclared name⟩ rfl (hrec.step .initializer) he
    have haligned :
        Aligned S.made m₁ m₁.current (walkExpr ctx e (w.declare name)).scopes around := by
      rw [walkExpr_scopes, hext₁.current]
      exact (hdeclared name).mono hext₁.toKeeps
    obtain ⟨hm₂, _, haligned'⟩ := define_ok hm₁ hsound haligned hdefine
    exact ⟨hm₂, ⟨_, rfl, hlive', haligned'⟩, hrec'⟩
  | @afterName b name ds m m₁ hdefine =>
    have hlive := S.live_parts _ hat.live _ List.mem_cons_self
    obtain ⟨hm₁, _, haligned⟩ := define_ok (x := .nil) hm trivial (hdeclared name) hdefine
    exact ⟨hm₁, ⟨_, rfl, hlive, haligned⟩, hrec'⟩

/-- What the lookup of superclasses calls is good. -/
theorem Good.step_classes {xs : List Reference} (h : S.Good ⟨.lookUpClasses xs, m⟩)
    (hcall : Calls ⟨.lookUpClasses xs, m⟩ μ') : S.Good μ' := by
  obtain ⟨hm, ⟨⟨ctx, _, w, around⟩, name, rfl, hlive, haligned⟩, hrec⟩ := h
  have hrec' := hrec.step hcall
  cases hcall with
  | tailClasses hx =>
    have hhead := S.live_parts _ hlive _ List.mem_cons_self
    have htail := S.live_parts _ hlive _ (List.mem_cons_of_mem _ List.mem_cons_self)
    obtain ⟨hm₁, hext₁, _⟩ := (Runs.lookUp hm hhead rfl).ok _ _ hx
    refine ⟨hm₁, ⟨_, name, rfl, htail, ?_⟩, hrec'⟩
    -- Looking up one superclass changes no frame, and the name of the class itself stays left out.
    rw [hext₁.current]
    simpa [Walk.scopesBut] using haligned.mono hext₁.toKeeps

/-- What a good moment leads to directly is a good moment. -/
theorem Good.step (h : S.Good μ) (hcall : Calls μ μ') : S.Good μ' := by
  obtain ⟨t, m⟩ := μ
  cases t with
  | evaluate b e => exact h.step_evaluate hcall
  | evaluateAll b es => exact h.step_evaluateAll hcall
  | evaluateEntries b es fields => exact h.step_evaluateEntries hcall
  | call b callee vs paren => exact h.step_call hcall
  | instantiate b c vs => exact h.step_instantiate hcall
  | callFunction b f vs => exact h.step_callFunction hcall
  | bind method receiver => cases hcall
  | execute b s => exact h.step_execute hcall
  | runAll b ss => exact h.step_runAll hcall
  | loop b c s => exact h.step_loop hcall
  | declareAll b ds => exact h.step_declareAll hcall
  | declareClass c =>
    obtain ⟨hm, ⟨⟨ctx, _, w, around⟩, rfl, hat⟩, hrec⟩ := h
    have hrec' := hrec.step hcall
    cases hcall with
    | superclasses =>
      have hlive := S.live_parts _ hat.live _ List.mem_cons_self
      exact ⟨hm, ⟨_, c.name, rfl, hlive, hat.aligned.scopesBut c.name⟩, hrec'⟩
  | lookUpClasses xs => exact h.step_classes hcall

/-- All that happens within a good moment are good moments. -/
theorem Good.reaches (h : S.Good μ) (hreach : μ.Reaches μ') : S.Good μ' := by
  induction hreach with
  | refl => exact h
  | tail _ hcall ih => exact ih.step hcall

end Setting

end Lox.Eval

import Lox.Proofs.Eval.Traces

/-!
# Every task spans its path

What a task does to the machine is a path of its moment, on which all the moments lie that it calls
(`Moment.spans`). The proof is an induction over a run: a task spans its path if the tasks that it
calls do, and there is no infinite descent from task to task (`Moment.induction`). Each lemma below
goes through one kind of task, and through the moments that `Calls` lists for it.
-/

namespace Lox.Eval

open Exec

/-! ## Induction over a run -/

/-- How far a task is from the end of all descent: its budget, then its kind, then how much is left
of its list. -/
def Task.depth : Task → Nat × Nat × Nat
  | .evaluate b _ | .execute b _ | .loop b _ _ => (b, 0, 0)
  | .evaluateAll b es => (b, 1, es.length)
  | .evaluateEntries b es _ => (b, 1, es.length)
  | .declareAll b ds => (b, 1, ds.length)
  | .runAll b ss => (b, 1, ss.length)
  | .callFunction b _ _ => (b, 2, 0)
  | .instantiate b _ _ => (b, 3, 0)
  | .call b _ _ _ => (b, 4, 0)
  | .bind _ _ => (0, 0, 0)
  | .lookUpClasses xs => (0, 1, xs.length)
  | .declareClass _ => (0, 2, 0)

/-- A task within a task is nearer to the end. -/
theorem Calls.depth_lt {μ μ' : Moment} (h : Calls μ μ') :
    Prod.Lex (· < ·) (Prod.Lex (· < ·) (· < ·)) μ'.task.depth μ.task.depth := by
  cases h with
  | bindInit _ _ =>
    simp only [Task.depth, Prod.lex_def]
    omega
  | _ => simp [Task.depth, Prod.lex_def]

/-- What holds of a moment if it holds of the moments that it leads to holds of every moment. -/
theorem Moment.induction {P : Moment → Prop} (step : ∀ μ, (∀ μ', Calls μ μ' → P μ') → P μ)
    (μ : Moment) : P μ :=
  step μ fun μ' _ => induction step μ'
termination_by μ.task.depth
decreasing_by exact Calls.depth_lt ‹_›

namespace Spans

variable {b : Nat} {m : Machine} {μ : Moment}

/-! ## Lists -/

/-- Expressions are evaluated one after the other. -/
theorem run_evaluateAll {es : List Expr}
    (ih : ∀ μ', Calls ⟨.evaluateAll b es, m⟩ μ' → Whole μ') : Whole ⟨.evaluateAll b es, m⟩ := by
  cases es with
  | nil => exact (pure []).mono fun _ hcall => nomatch hcall
  | cons e es =>
    refine (bind (called ih .headExpression) fun v m₁ hv =>
      bind (called ih (.tailExpressions hv)) fun vs _ _ => pure (v :: vs)).mono fun μ' hcall => ?_
    cases hcall with
    | headExpression => exact .inl rfl
    | tailExpressions he => exact .inr ⟨_, _, he, .inl rfl⟩

/-- Entries are evaluated one after the other. -/
theorem run_evaluateEntries {es : List Entry} {fields : Bindings}
    (ih : ∀ μ', Calls ⟨.evaluateEntries b es fields, m⟩ μ' → Whole μ') :
    Whole ⟨.evaluateEntries b es fields, m⟩ := by
  cases es with
  | nil => exact (pure fields).mono fun _ hcall => nomatch hcall
  | cons entry es =>
    refine (bind (called ih .headEntry) fun v m₁ hv =>
      called ih (t := .evaluateEntries b es (fields.insert entry.key.keyName v))
        (.tailEntries hv)).mono fun μ' hcall => ?_
    cases hcall with
    | headEntry => exact .inl rfl
    | tailEntries he => exact .inr ⟨_, _, he, rfl⟩

/-- Statements are executed until one gives a result. -/
theorem run_runAll {ss : List Stmt} (ih : ∀ μ', Calls ⟨.runAll b ss, m⟩ μ' → Whole μ') :
    Whole ⟨.runAll b ss, m⟩ := by
  cases ss with
  | nil => exact (pure Flow.normal).mono fun _ hcall => nomatch hcall
  | cons s ss =>
    -- Whether the rest is run depends on how the statement completes.
    refine (bind (Q := fun flow m₁ μ' => flow = .normal ∧ μ' = ⟨.runAll b ss, m₁⟩)
      (called ih .headStatement) fun flow m₁ hs => ?_).mono fun μ' hcall => ?_
    · cases flow with
      | normal => exact (called ih (.tailStatements hs)).mono fun _ hμ => hμ.2
      | result v => exact (pure (Flow.result v)).mono fun _ hμ => nomatch hμ.1
    · cases hcall with
      | headStatement => exact .inl rfl
      | tailStatements hs => exact .inr ⟨_, _, hs, rfl, rfl⟩

/-! ## Calls -/

/-- A method is bound in a frame of its own. -/
theorem run_bind (method : Function) (receiver : Value) : Whole ⟨.bind method receiver, m⟩ :=
  (seq (newFrame .receiver) fun _ _ _ => pure _).mono fun _ hcall => nomatch hcall

/-- The body of a function is run in a frame of its own. -/
theorem run_callFunction {f : Function} {vs : List Value}
    (ih : ∀ μ', Calls ⟨.callFunction b f vs, m⟩ μ' → Whole μ') :
    Whole ⟨.callFunction b f vs, m⟩ := by
  -- An initializer looks up its receiver with a token that is made from the function's keyword.
  have hthis : Blames (Moment.Reaches ⟨.callFunction b f vs, m⟩)
      ({ f.decl.keyword with lexeme := "this" } : Token).line :=
    own (t := f.decl.keyword) (by
      obtain ⟨⟨name, keyword, params, body⟩, _, _⟩ := f
      simp [Task.tokens, FunctionDecl.tokens])
  refine (bind (newFrame .call) fun k m₁ hk => bind (Q := fun _ _ _ => False)
    (inFrame (called ih (.body hk))) fun flow m₂ _ => ?_).mono fun μ' hcall => ?_
  · split
    · exact get (getFrom hthis _)
    · cases flow <;> exact pure _
  · cases hcall with
    | body hframe => exact .inr ⟨_, _, hframe, .inl rfl⟩

/-- An object is made, and set up if its class has an initializer. -/
theorem run_instantiate {c : Class} {vs : List Value}
    (ih : ∀ μ', Calls ⟨.instantiate b c vs, m⟩ μ' → Whole μ') :
    Whole ⟨.instantiate b c vs, m⟩ := by
  refine (bind (newObject _) fun object m₁ ho => Spans.mono (N := fun μ' =>
    ∃ init, c.findMethod "init" = some init ∧ (μ' = ⟨.bind init object, m₁⟩ ∨
      ∃ bound m₂, Exec.bind init object m₁ = .ok bound m₂ ∧
        μ' = ⟨.callFunction b bound vs, m₂⟩)) ?_ fun _ => id).mono fun μ' hcall => ?_
  · cases hinit : c.findMethod "init" with
    | none => exact (pure object).mono (by simp)
    | some init =>
      refine (bind (called ih (.bindInit hinit ho)) fun bound m₂ hbound =>
        bind (called ih (.callInit hinit ho hbound)) fun _ _ _ => pure object).mono ?_
      rintro μ' ⟨init', hinit', hμ⟩
      obtain rfl := Option.some.inj hinit'
      obtain hμ | ⟨bound, m₂, hbound, hμ⟩ := hμ
      · exact .inl hμ
      · exact .inr ⟨bound, m₂, hbound, .inl hμ⟩
  · cases hcall with
    | bindInit hinit ho => exact .inr ⟨_, _, ho, _, hinit, .inl rfl⟩
    | callInit hinit ho hbound => exact .inr ⟨_, _, ho, _, hinit, .inr ⟨_, _, hbound, rfl⟩⟩

/-- Functions, classes and built-in functions are called. -/
theorem run_call {callee : Value} {vs : List Value} {paren : Token}
    (ih : ∀ μ', Calls ⟨.call b callee vs paren, m⟩ μ' → Whole μ') :
    Whole ⟨.call b callee vs paren, m⟩ := by
  have hparen : Blames (Moment.Reaches ⟨.call b callee vs paren, m⟩) paren.line :=
    own List.mem_cons_self
  cases callee with
  | function id f =>
    refine (arity hparen fun harity => called ih (.callFunction harity)).mono fun μ' hcall => ?_
    cases hcall with
    | callFunction harity => exact ⟨harity, rfl⟩
  | native f =>
    refine Spans.mono (N := fun _ => False) ?_ fun μ' hcall => nomatch hcall
    cases f with
    | log => exact callNative hparen .log vs
    | clock => exact (arity hparen fun _ => callNative hparen .clock vs).mono (by simp)
    | len => exact (arity hparen fun _ => callNative hparen .len vs).mono (by simp)
  | «class» c =>
    refine (arity hparen fun harity => called ih (.callClass harity)).mono fun μ' hcall => ?_
    cases hcall with
    | callClass harity => exact ⟨harity, rfl⟩
  | _ =>
    exact (seq (fail hparen _) fun _ _ hfail => nomatch hfail).mono fun _ hcall => nomatch hcall

/-! ## Properties -/

/-- A property is a field, or else a method that is bound. -/
theorem run_getProperty {v : Value} {name : Token} (hname : Blames μ.Reaches name.line)
    (hbind : ∀ object method, Exec.object? v m = .ok (some object) m →
      object.fields.lookup name.lexeme = none → object.cls.findMethod name.lexeme = some method →
      Spans μ (Exec.bind method v) m (· = ⟨.bind method v, m⟩)) :
    Spans μ (getProperty v name) m fun μ' => ∃ object method,
      Exec.object? v m = .ok (some object) m ∧ object.fields.lookup name.lexeme = none ∧
        object.cls.findMethod name.lexeme = some method ∧ μ' = ⟨.bind method v, m⟩ := by
  refine (bind (Q := fun object m₁ μ' => ∃ o method, object = some o ∧
    o.fields.lookup name.lexeme = none ∧ o.cls.findMethod name.lexeme = some method ∧
      μ' = ⟨.bind method v, m₁⟩) (object? v) fun object m₁ hobject => ?_).mono ?_
  · obtain rfl := eq_of_object? hobject
    cases object with
    | none => exact (fail hname _).mono (by simp)
    | some o =>
      dsimp only
      split
      · next y hy =>
        refine (pure y).mono ?_
        rintro μ' ⟨o', _, ho, hfield, _⟩
        obtain rfl := Option.some.inj ho
        exact absurd (hy.symm.trans hfield) (by simp)
      · next hfield =>
        split
        · next method hmethod =>
          refine (bind (hbind o method hobject hfield hmethod) fun g _ _ => newFunction g).mono ?_
          rintro μ' ⟨o', method', ho, _, hmethod', hμ⟩
          obtain rfl := Option.some.inj ho
          obtain rfl := Option.some.inj (hmethod.symm.trans hmethod')
          exact .inl hμ
        · next hnone => exact (fail hname _).mono (by simp [hnone])
  · rintro μ' ⟨object, method, hobject, hfield, hmethod, hμ⟩
    exact .inr ⟨_, _, hobject, object, method, rfl, hfield, hmethod, hμ⟩

/-- An inherited method is bound to the receiver. -/
theorem run_getInherited {x : Reference} {name : Token}
    (ih : ∀ μ', Calls ⟨.evaluate (b + 1) (.super x name), m⟩ μ' → Whole μ') :
    Whole ⟨.evaluate (b + 1) (.super x name), m⟩ := by
  have hx : Blames (Moment.Reaches ⟨.evaluate (b + 1) (.super x name), m⟩) x.name.line :=
    own List.mem_cons_self
  have hname : Blames (Moment.Reaches ⟨.evaluate (b + 1) (.super x name), m⟩) name.line :=
    own (List.mem_cons_of_mem _ List.mem_cons_self)
  -- The token with which `this` is looked up is made from the one for `super`, on its line.
  have hthis : Blames (Moment.Reaches ⟨.evaluate (b + 1) (.super x name), m⟩)
      ({ x.name with lexeme := "this" } : Token).line := hx
  show Spans _ (getInherited x name) m _
  refine get ?_
  cases hdistance : m.distances.find? x.id with
  | none =>
    refine (fail hx _).mono fun μ' hcall => ?_
    cases hcall with
    | superMethod hx => exact absurd (hdistance.symm.trans hx) (by simp)
  | some distance =>
    refine (bind (Q := fun view m₁ μ' => ∃ c receiver method, view = .class c ∧
      getAt (distance - 1) { x.name with lexeme := "this" } m₁ = .ok receiver m₁ ∧
      findInherited name.lexeme c.superclasses = some method ∧ μ' = ⟨.bind method receiver, m₁⟩)
      (get (getFrom hx _)) fun view m₁ hview => ?_).mono fun μ' hcall => ?_
    · obtain rfl := eq_of_getFrom hview
      cases view with
      | «class» c =>
        refine (bind (Q := fun receiver m₂ μ' => ∃ method,
          findInherited name.lexeme c.superclasses = some method ∧ μ' = ⟨.bind method receiver, m₂⟩)
          (get (getFrom hthis _)) fun receiver m₂ hreceiver => ?_).mono ?_
        · obtain rfl := eq_of_getFrom hreceiver
          cases hmethod : findInherited name.lexeme c.superclasses with
          | none => exact (fail hname _).mono (by simp)
          | some method =>
            refine (bind (called ih (.superMethod hdistance hview hreceiver hmethod))
              fun g _ _ => newFunction g).mono ?_
            rintro μ' ⟨method', hmethod', hμ⟩
            obtain rfl := Option.some.inj hmethod'
            exact .inl hμ
        · rintro μ' ⟨c', receiver, method, hview, hreceiver, hmethod, hμ⟩
          obtain rfl := Value.class.inj hview
          exact .inr ⟨_, _, hreceiver, method, hmethod, hμ⟩
      | _ => exact (fail hx _).mono (by simp)
    · cases hcall with
      | superMethod hx hview hreceiver hmethod =>
        obtain rfl := Option.some.inj (hdistance.symm.trans hx)
        exact .inr ⟨_, _, hview, _, _, _, rfl, hreceiver, hmethod, rfl⟩

/-! ## Expressions -/

/-- Every expression spans its path. -/
theorem run_evaluate {e : Expr} (ih : ∀ μ', Calls ⟨.evaluate (b + 1) e, m⟩ μ' → Whole μ') :
    Whole ⟨.evaluate (b + 1) e, m⟩ := by
  have own {t : Token} (h : t ∈ e.tokens) :
      Blames (Moment.Reaches ⟨.evaluate (b + 1) e, m⟩) t.line := own h
  cases e with
  | literal value => exact (pure _).mono fun _ hcall => nomatch hcall
  | grouping e =>
    refine (called ih (t := .evaluate b e) .grouping).mono fun μ' hcall => ?_
    cases hcall with
    | grouping => rfl
  | unary op r =>
    refine (bind (called ih .unary) fun x _ _ =>
      applyUnary (own (by simp [Expr.tokens])) x).mono fun μ' hcall => ?_
    cases hcall with
    | unary => exact .inl rfl
  | binary l op r =>
    refine (bind (called ih .binaryLeft) fun x m₁ hx =>
      bind (called ih (.binaryRight hx)) fun y _ _ =>
        applyBinary (own (by simp [Expr.tokens])) x y).mono fun μ' hcall => ?_
    cases hcall with
    | binaryLeft => exact .inl rfl
    | binaryRight hl => exact .inr ⟨_, _, hl, .inl rfl⟩
  | logical l op r =>
    refine (bind (Q := fun x m₁ μ' => decides op x = false ∧ μ' = ⟨.evaluate b r, m₁⟩)
      (called ih .logicalLeft) fun x m₁ hx => ?_).mono fun μ' hcall => ?_
    · split
      · next hdecides => exact (pure x).mono fun _ hμ => absurd hdecides (by simp [hμ.1])
      · next hdecides =>
        have hdecides : decides op x = false := Bool.not_eq_true _ ▸ hdecides
        exact (called ih (.logicalRight hx hdecides)).mono fun _ hμ => hμ.2
    · cases hcall with
      | logicalLeft => exact .inl rfl
      | logicalRight hl hdecides => exact .inr ⟨_, _, hl, hdecides, rfl⟩
  | reference x =>
    exact (lookUp (own (by simp [Expr.tokens]))).mono fun _ hcall => nomatch hcall
  | assign x e =>
    -- What the value did to the frames does not matter: the holder is looked up afterwards.
    refine (bind (called ih .assign) fun v m₁ _ => seq (get (assignIn .assign
      (by simp [Task.tokens, Expr.tokens]) (fun k hk => Machine.isSome_of_holder? hk) v))
        fun _ _ _ => pure v).mono fun μ' hcall => ?_
    cases hcall with
    | assign => exact .inl rfl
  | call f paren es =>
    refine (bind (called ih .callee) fun callee m₁ hf =>
      bind (Q := fun vs m₂ μ' => μ' = ⟨.call b callee vs paren, m₂⟩)
        (called ih (.arguments hf)) fun vs m₂ hes =>
          called ih (.call hf hes)).mono fun μ' hcall => ?_
    cases hcall with
    | callee => exact .inl rfl
    | arguments hf => exact .inr ⟨_, _, hf, .inl rfl⟩
    | call hf hes => exact .inr ⟨_, _, hf, .inr ⟨_, _, hes, rfl⟩⟩
  | get o name =>
    refine (bind (called ih .getObject) fun x m₁ ho =>
      run_getProperty (own (by simp [Expr.tokens])) fun _ _ hobject hfield hmethod =>
        called ih (.getMethod ho hobject hfield hmethod)).mono fun μ' hcall => ?_
    cases hcall with
    | getObject => exact .inl rfl
    | getMethod ho hobject hfield hmethod =>
      exact .inr ⟨_, _, ho, _, _, hobject, hfield, hmethod, rfl⟩
  | set o name e =>
    refine (bind (Q := fun x m₁ μ' => (∃ id, x = .object id) ∧ μ' = ⟨.evaluate b e, m₁⟩)
      (called ih .setObject) fun x m₁ hx => ?_).mono fun μ' hcall => ?_
    · cases x with
      | object id =>
        exact (bind (called ih (.setValue hx)) fun v _ _ =>
          seq (setField id name.lexeme v) fun _ _ _ => pure v).mono fun _ hμ => .inl hμ.2
      | _ => exact (fail (own (by simp [Expr.tokens])) _).mono (by simp)
    · cases hcall with
      | setObject => exact .inl rfl
      | setValue ho => exact .inr ⟨_, _, ho, ⟨_, rfl⟩, rfl⟩
  | index o bracket k =>
    refine (bind (called ih .indexObject) fun x m₁ hx =>
      bind (called ih (.indexKey hx)) fun key _ _ =>
        getElement (own (by simp [Expr.tokens])) x key).mono fun μ' hcall => ?_
    cases hcall with
    | indexObject => exact .inl rfl
    | indexKey ho => exact .inr ⟨_, _, ho, .inl rfl⟩
  | setIndex o bracket k e =>
    refine (bind (called ih .setIndexObject) fun x m₁ hx =>
      bind (called ih (.setIndexKey hx)) fun key m₂ hk =>
        bind (called ih (.setIndexValue hx hk)) fun v _ _ =>
          seq (assignElement (own (by simp [Expr.tokens])) x key v) fun _ _ _ => pure v).mono
            fun μ' hcall => ?_
    cases hcall with
    | setIndexObject => exact .inl rfl
    | setIndexKey ho => exact .inr ⟨_, _, ho, .inl rfl⟩
    | setIndexValue ho hk => exact .inr ⟨_, _, ho, .inr ⟨_, _, hk, .inl rfl⟩⟩
  | this x => exact (lookUp (own (by simp [Expr.tokens]))).mono fun _ hcall => nomatch hcall
  | super x name => exact run_getInherited ih
  | function f => exact (get (newFunction _)).mono fun _ hcall => nomatch hcall
  | array bracket es =>
    refine (bind (called ih .array) fun vs _ _ =>
      move (.aside (.newArray vs.toArray)) rfl).mono fun μ' hcall => ?_
    cases hcall with
    | array => exact .inl rfl
  | object brace es =>
    refine (bind (called ih .object) fun fields m₁ _ => get (newObject _)).mono fun μ' hcall => ?_
    cases hcall with
    | object => exact .inl rfl

/-! ## Statements -/

/-- Variables are declared one after the other. -/
theorem run_declareAll {ds : List Declarator}
    (ih : ∀ μ', Calls ⟨.declareAll b ds, m⟩ μ' → Whole μ') : Whole ⟨.declareAll b ds, m⟩ := by
  cases ds with
  | nil => exact (pure ()).mono fun _ hcall => nomatch hcall
  | cons d ds =>
    obtain ⟨name, _ | e⟩ := d
    · refine (bind (define .variable rfl .nil) fun _ m₁ hd =>
        called ih (.afterName hd)).mono fun μ' hcall => ?_
      cases hcall with
      | afterName hd => exact .inr ⟨_, _, hd, rfl⟩
    · have hvalue := called ih .initializer
      have hcurrent {v : Value} {m₁ : Machine} (hv : evaluate b e m = .ok v m₁) :
          m₁.current = m.current := by
        rw [← hvalue.current, show (Task.evaluate b e).run m = .ok v m₁ from hv]
        rfl
      refine (bind hvalue fun v m₁ hv => bind (define .variable (hcurrent hv) v) fun _ m₂ hd =>
        called ih (.afterInitializer hv hd)).mono fun μ' hcall => ?_
      cases hcall with
      | initializer => exact .inl rfl
      | afterInitializer hv hd => exact .inr ⟨_, _, hv, .inr ⟨_, _, hd, rfl⟩⟩

/-- Superclasses are looked up one after the other. -/
theorem run_lookUpClasses {xs : List Reference}
    (ih : ∀ μ', Calls ⟨.lookUpClasses xs, m⟩ μ' → Whole μ') : Whole ⟨.lookUpClasses xs, m⟩ := by
  cases xs with
  | nil => exact (pure []).mono fun _ hcall => nomatch hcall
  | cons x xs =>
    have hx : Blames (Moment.Reaches ⟨.lookUpClasses (x :: xs), m⟩) x.name.line :=
      own List.mem_cons_self
    refine (bind (Q := fun v m₁ μ' => (∃ c, v = .class c) ∧ μ' = ⟨.lookUpClasses xs, m₁⟩)
      (lookUp hx) fun v m₁ hv => ?_).mono fun μ' hcall => ?_
    · cases v with
      | «class» c =>
        exact (bind (called ih (.tailClasses hv)) fun cs _ _ => pure (c :: cs)).mono
          fun _ hμ => .inl hμ.2
      | _ => exact (fail hx _).mono (by simp)
    · cases hcall with
      | tailClasses hx => exact .inr ⟨_, _, hx, ⟨_, rfl⟩, rfl⟩

/-- A class is made with methods in a given frame, and its name gets it as its value. -/
theorem makeClass {c : ClassDecl} {m₀ : Machine} (cs : List Class) (k : FrameId) :
    Quiet ⟨.declareClass c, m₀⟩ (do
      let made ← Exec.newClass c.name.lexeme cs (methodTable k c.methods)
      assignNearest c.name (.class made)) m := by
  have hname : c.name ∈ c.tokens := by
    obtain ⟨name, superclasses, methods⟩ := c
    simp [ClassDecl.tokens]
  refine seq (newClass ..) fun made m₁ _ => get ?_
  exact assignIn .class hname (fun k hk => Frames.isSome_of_holder? hk) _

/-- A class is declared once its superclasses are known. -/
theorem run_declareClass {c : ClassDecl}
    (ih : ∀ μ', Calls ⟨.declareClass c, m⟩ μ' → Whole μ') : Whole ⟨.declareClass c, m⟩ := by
  have hlookups := called ih .superclasses
  refine (bind (Q := fun _ _ _ => False) hlookups fun cs m₁ hcs => ?_).mono fun μ' hcall => ?_
  · have hcurrent := hlookups.current
    rw [hcs] at hcurrent
    refine seq (define .class hcurrent .nil) fun _ m₂ hd => get ?_
    obtain ⟨-, rfl⟩ := EStateM.Result.ok.inj hd
    -- Only a class with superclasses has a frame for `super`, in which its methods are made.
    cases cs with
    | nil => exact makeClass [] _
    | cons c' cs =>
      refine seq (newClass ..) fun view m₃ hview => ?_
      obtain ⟨rfl, rfl⟩ := EStateM.Result.ok.inj hview
      have hchange := Moment.Changes.inheritance hcs (List.cons_ne_nil c' cs)
      exact seq (newFrame hchange) fun k _ _ => makeClass (c' :: cs) k
  · cases hcall with
    | superclasses => exact .inl rfl

/-- A loop goes round again if its condition holds and its body completes normally. -/
theorem run_loop {c : Expr} {s : Stmt} (ih : ∀ μ', Calls ⟨.loop (b + 1) c s, m⟩ μ' → Whole μ') :
    Whole ⟨.loop (b + 1) c s, m⟩ := by
  refine (bind (Q := fun v m₁ μ' => v.isTruthy = true ∧ (μ' = ⟨.execute b s, m₁⟩ ∨ ∃ flow m₂,
    Eval.execute b s m₁ = .ok flow m₂ ∧ flow = .normal ∧ μ' = ⟨.loop b c s, m₂⟩))
    (called ih .loopCondition) fun v m₁ hv => ?_).mono fun μ' hcall => ?_
  · split
    · next htruthy =>
      refine (bind (Q := fun flow m₂ μ' => flow = Flow.normal ∧ μ' = ⟨.loop b c s, m₂⟩)
        (called ih (.loopBody hv htruthy)) fun flow m₂ hflow => ?_).mono fun _ hμ => hμ.2
      cases flow with
      | normal => exact (called ih (.loopAgain hv htruthy hflow)).mono fun _ hμ => hμ.2
      | result x => exact (pure (Flow.result x)).mono fun _ hμ => nomatch hμ.1
    · next hfalsy => exact (pure Flow.normal).mono fun _ hμ => absurd hμ.1 hfalsy
  · cases hcall with
    | loopCondition => exact .inl rfl
    | loopBody hc hv => exact .inr ⟨_, _, hc, hv, .inl rfl⟩
    | loopAgain hc hv hs => exact .inr ⟨_, _, hc, hv, .inr ⟨_, _, hs, rfl, rfl⟩⟩

/-- Every statement spans its path. -/
theorem run_execute {s : Stmt} (ih : ∀ μ', Calls ⟨.execute (b + 1) s, m⟩ μ' → Whole μ') :
    Whole ⟨.execute (b + 1) s, m⟩ := by
  cases s with
  | expression e =>
    refine (bind (called ih .expression) fun _ _ _ => pure Flow.normal).mono fun μ' hcall => ?_
    cases hcall with
    | expression => exact .inl rfl
  | print e =>
    refine (bind (called ih .print) fun v _ _ =>
      get (seq (writeLine _) fun _ _ _ => pure Flow.normal)).mono fun μ' hcall => ?_
    cases hcall with
    | print => exact .inl rfl
  | declare ds =>
    refine (bind (called ih .declare) fun _ _ _ => pure Flow.normal).mono fun μ' hcall => ?_
    cases hcall with
    | declare => exact .inl rfl
  | block ss =>
    refine get ((bind (newFrame .block) fun k m₁ hk =>
      inFrame (called ih (.block hk))).mono fun μ' hcall => ?_)
    cases hcall with
    | block hframe => exact .inr ⟨_, _, hframe, rfl⟩
  | branch c t e =>
    refine (bind (Q := fun v m₁ μ' => (v.isTruthy = true ∧ μ' = ⟨.execute b t, m₁⟩) ∨
      (v.isTruthy = false ∧ ∃ e', e = some e' ∧ μ' = ⟨.execute b e', m₁⟩))
      (called ih .condition) fun v m₁ hv => ?_).mono fun μ' hcall => ?_
    · split
      · next htruthy =>
        refine (called ih (.thenBranch hv htruthy)).mono ?_
        rintro μ' (hμ | hμ)
        · exact hμ.2
        · exact absurd htruthy (by simp [hμ.1])
      · next hfalsy =>
        have hfalsy : v.isTruthy = false := Bool.not_eq_true _ ▸ hfalsy
        cases e with
        | none => exact (pure Flow.normal).mono (by simp [hfalsy])
        | some e =>
          refine (called ih (.elseBranch hv hfalsy)).mono ?_
          rintro μ' (hμ | ⟨_, e', he', hμ⟩)
          · exact absurd hμ.1 (by simp [hfalsy])
          · exact Option.some.inj he' ▸ hμ
    · cases hcall with
      | condition => exact .inl rfl
      | thenBranch hc hv => exact .inr ⟨_, _, hc, .inl ⟨hv, rfl⟩⟩
      | elseBranch hc hv => exact .inr ⟨_, _, hc, .inr ⟨hv, _, rfl, rfl⟩⟩
  | loop c s =>
    refine (called ih (t := .loop b c s) .loop).mono fun μ' hcall => ?_
    cases hcall with
    | loop => rfl
  | function f =>
    refine Spans.mono (N := fun _ => False) ?_ fun μ' hcall => nomatch hcall
    refine seq (get (newFunction _)) fun v m₁ hv => ?_
    have hcurrent : m₁.current = m.current := by
      obtain ⟨-, rfl⟩ := EStateM.Result.ok.inj hv
      rfl
    exact seq (define .function hcurrent v) fun _ _ _ => pure Flow.normal
  | result keyword e =>
    cases e with
    | none => exact (pure (Flow.result .nil)).mono fun _ hcall => nomatch hcall
    | some e =>
      refine (bind (called ih .result) fun v _ _ => pure (Flow.result v)).mono fun μ' hcall => ?_
      cases hcall with
      | result => exact .inl rfl
  | «class» c =>
    refine (bind (called ih .declareClass) fun _ _ _ => pure Flow.normal).mono fun μ' hcall => ?_
    cases hcall with
    | declareClass => exact .inl rfl

end Spans

/-! ## All tasks -/

/-- Every moment spans its path. -/
theorem Moment.spans (μ : Moment) : Whole μ := by
  induction μ using Moment.induction with
  | step μ ih =>
    obtain ⟨t, m⟩ := μ
    cases t with
    | evaluate b e =>
      cases b with
      | zero => exact Spans.exhausted.mono fun _ hcall => nomatch hcall
      | succ b => exact Spans.run_evaluate ih
    | evaluateAll b es => exact Spans.run_evaluateAll ih
    | evaluateEntries b es fields => exact Spans.run_evaluateEntries ih
    | call b callee vs paren => exact Spans.run_call ih
    | instantiate b c vs => exact Spans.run_instantiate ih
    | callFunction b f vs => exact Spans.run_callFunction ih
    | bind method receiver => exact Spans.run_bind method receiver
    | execute b s =>
      cases b with
      | zero => exact Spans.exhausted.mono fun _ hcall => nomatch hcall
      | succ b => exact Spans.run_execute ih
    | runAll b ss => exact Spans.run_runAll ih
    | loop b c s =>
      cases b with
      | zero => exact Spans.exhausted.mono fun _ hcall => nomatch hcall
      | succ b => exact Spans.run_loop ih
    | declareAll b ds => exact Spans.run_declareAll ih
    | declareClass c => exact Spans.run_declareClass ih
    | lookUpClasses xs => exact Spans.run_lookUpClasses ih

end Lox.Eval

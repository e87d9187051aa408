import Lox.Proofs.Eval.Moments
import Lox.Proofs.Eval.Runs

/-!
# What evaluating an expression does

`Setting.Ready` says when a task may start: the piece of the program that it runs was visited by
scoping, and the frames match the scopes at that visit. `Setting.Gives` says what a task leaves
behind. A task serves if it keeps the invariant and gives what it has to wherever it may start
(`Setting.Serves`). Here this is shown for expressions, calls and properties, given that smaller
tasks serve.
-/

namespace Lox.Eval

open Scoping Exec

/-- A frame that is made around a chain matches a scope whose names it binds. -/
theorem Aligned.push {made : FrameId → Construct → Prop} {m : Machine} {outer : FrameId}
    {scopes : List Scope} {cs : List Construct} (h : Aligned made m outer scopes cs)
    (hglobals : m.globals < m.heap.frames.size) {c : Construct}
    (hmade : made m.heap.frames.size c) {scope : Scope} {bindings : Bindings}
    (hbound : ∀ name, scope.lookup name = some true → (bindings.lookup name).isSome) :
    Aligned made { m with heap.frames := m.heap.frames.push ⟨bindings, some outer⟩ }
      m.heap.frames.size (scope :: scopes) (c :: cs) := by
  refine ⟨Nat.ne_of_gt hglobals, hmade, fun name hname => ?_, outer, ?_, h.mono (.push m _)⟩
  · rw [Frames.local?_push, if_pos rfl]
    exact hbound name hname
  · rw [Frames.enclosing?_push, if_pos rfl]

/-! ## Parameters -/

/-- Binding names one after the other: what is found is bound by the last one, or was there
before. -/
theorem lookup_foldl_insert (ps : List (Token × Value)) (bindings : Bindings) (name : String)
    {x : Value}
    (h : (ps.foldl (fun b p => b.insert p.1.lexeme p.2) bindings).lookup name = some x) :
    bindings.lookup name = some x ∨ ∃ p ∈ ps, p.2 = x := by
  induction ps generalizing bindings with
  | nil => exact .inl h
  | cons p ps ih =>
    obtain h | ⟨q, hq, rfl⟩ := ih _ h
    · rw [Bindings.lookup_insert] at h
      split at h
      · exact .inr ⟨p, List.mem_cons_self, Option.some.inj h⟩
      · exact .inl h
    · exact .inr ⟨q, List.mem_cons_of_mem _ hq, rfl⟩

/-- Binding names one after the other: they are all bound, and those that were stay so. -/
theorem isSome_lookup_foldl_insert (ps : List (Token × Value)) (bindings : Bindings)
    (name : String) (h : (bindings.lookup name).isSome ∨ ∃ p ∈ ps, p.1.lexeme = name) :
    ((ps.foldl (fun b p => b.insert p.1.lexeme p.2) bindings).lookup name).isSome := by
  induction ps generalizing bindings with
  | nil => simpa using h
  | cons p ps ih =>
    refine ih _ ?_
    rw [Bindings.lookup_insert]
    split
    · exact .inl rfl
    · next hne =>
      obtain h | ⟨q, hq, hname⟩ := h
      · exact .inl h
      · obtain rfl | hq := List.mem_cons.mp hq
        · exact absurd hname.symm hne
        · exact .inr ⟨q, hq, hname⟩

/-- Parameters are bound to arguments. -/
theorem mem_of_lookup_bindParameters {params : List Token} {vs : List Value} {name : String}
    {x : Value} (h : (bindParameters params vs).lookup name = some x) : x ∈ vs := by
  obtain h | ⟨p, hp, rfl⟩ := lookup_foldl_insert _ _ _ h
  · contradiction
  · exact (List.of_mem_zip hp).2

/-- With enough arguments, every parameter is bound. -/
theorem isSome_lookup_bindParameters {params : List Token} {vs : List Value}
    (hlength : params.length = vs.length) {t : Token} (ht : t ∈ params) :
    ((bindParameters params vs).lookup t.lexeme).isSome := by
  refine isSome_lookup_foldl_insert _ _ _ (.inr ?_)
  obtain ⟨i, hi, rfl⟩ := List.getElem_of_mem ht
  refine ⟨(params[i], vs[i]), ?_, rfl⟩
  rw [← List.getElem_zip (h := by simp [← hlength, hi])]
  exact List.getElem_mem _

namespace Setting

variable (S : Setting) {m m' : Machine} {v p q r : Visit} {ps : List Visit} {b : Nat}

/-- All frames and functions that are made within a moment are on record. -/
def Records (μ : Moment) : Prop :=
  ∀ μ', μ.Reaches μ' → (∀ k c, μ'.Creates k c → S.made k c) ∧ ∀ f, μ'.Makes f → S.known f

/-- A task may start on a machine: the piece that it runs was visited, with scopes that match the
frames, and the values that it is given are sound. -/
def Ready (m : Machine) : Task → Visit → Prop
  | .evaluate _ e, v => v.piece = .expr e ∧ S.At m v
  | .evaluateAll _ es, v => v.piece = .exprs es ∧ S.At m v
  | .evaluateEntries _ es fields, v =>
    v.piece = .entries es ∧ S.At m v ∧ ∀ name x, fields.lookup name = some x → S.Sound m x
  | .call _ callee arguments _, _ => S.Sound m callee ∧ ∀ x ∈ arguments, S.Sound m x
  | .instantiate _ c arguments, _ =>
    S.Sound m (.class c) ∧ (∀ x ∈ arguments, S.Sound m x) ∧ c.arity = arguments.length
  | .callFunction _ f arguments, _ =>
    S.Function m f ∧ (∀ x ∈ arguments, S.Sound m x) ∧ f.decl.arity = arguments.length
  | .bind method receiver, _ => S.Method m method ∧ S.Sound m receiver
  | .execute _ s, v => v.piece = .stmt s ∧ S.At m v
  | .runAll _ ss, v => v.piece = .stmts ss ∧ S.At m v
  | .loop _ c s, v => v.piece = .stmt (.loop c s) ∧ S.At m v
  | .declareAll _ ds, v => v.piece = .declarators ds ∧ S.At m v
  | .declareClass c, v => v.piece = .class c ∧ S.At m v
  | .lookUpClasses xs, v => ∃ name, v.piece = .superclasses name xs ∧ S.live v ∧
      Aligned S.made m m.current (v.walk.scopesBut name) v.around

/-- What a statement leaves behind: a sound result, or frames that match the scopes after the visit
if it completes normally. -/
def Completes (m : Machine) (v : Visit) : Flow → Prop
  | .normal => Aligned S.made m m.current v.after.scopes v.around
  | .result x => S.Sound m x

/-- What a task leaves behind: sound values, and frames that match the scopes after the visit if a
statement completes normally. -/
def Gives (m : Machine) (v : Visit) : (t : Task) → t.Result → Prop
  | .evaluate .., x | .call .., x | .instantiate .., x | .callFunction .., x => S.Sound m x
  | .evaluateAll .., xs => ∀ x ∈ xs, S.Sound m x
  | .evaluateEntries .., fields => ∀ name x, fields.lookup name = some x → S.Sound m x
  | .bind method _, f => S.Function m f ∧ f.decl = method.decl
  | .execute .., flow | .runAll .., flow | .loop .., flow => S.Completes m v flow
  | .declareAll .., _ | .declareClass .., _ => Aligned S.made m m.current v.after.scopes v.around
  | .lookUpClasses xs, cs => cs.length = xs.length ∧ ∀ c ∈ cs, S.Sound m (.class c)

/-- A task does what it has to wherever it may start. -/
def Serves (t : Task) : Prop :=
  ∀ m v, S.Inv m → S.Ready m t v → S.Records ⟨t, m⟩ →
    S.Runs t.run m fun a m' => S.Gives m' v t a

variable {S}

/-- Moments that are called have what they make recorded. -/
theorem Records.step {μ μ' : Moment} (h : S.Records μ) (hcall : Calls μ μ') : S.Records μ' :=
  fun μ'' hreach => h μ'' (.head hcall hreach)

/-- A frame that is created is recorded. -/
theorem Records.creates {μ : Moment} (h : S.Records μ) {k : FrameId} {c : Construct}
    (hc : μ.Creates k c) : S.made k c :=
  (h μ .refl).1 k c hc

/-- A function that is made is recorded. -/
theorem Records.makes {μ : Moment} (h : S.Records μ) {f : Lox.Function} (hf : μ.Makes f) :
    S.known f :=
  (h μ .refl).2 f hf

/-- The first part of a piece, if it lies within the same scopes. -/
theorem At.first (h : S.At m v) (hparts : v.parts = p :: ps)
    (hscopes : p.walk.scopes = v.walk.scopes) (haround : p.around = v.around) : S.At m p :=
  h.part (hparts ▸ List.mem_cons_self) hscopes haround

/-- The second part of a piece, if it lies within the same scopes. -/
theorem At.second (h : S.At m v) (hparts : v.parts = q :: p :: ps)
    (hscopes : p.walk.scopes = v.walk.scopes) (haround : p.around = v.around) : S.At m p :=
  h.part (hparts ▸ List.mem_cons_of_mem _ List.mem_cons_self) hscopes haround

/-- The third part of a piece, if it lies within the same scopes. -/
theorem At.third (h : S.At m v) (hparts : v.parts = r :: q :: p :: ps)
    (hscopes : p.walk.scopes = v.walk.scopes) (haround : p.around = v.around) : S.At m p :=
  h.part (hparts ▸ List.mem_cons_of_mem _ (List.mem_cons_of_mem _ List.mem_cons_self))
    hscopes haround

open Runs

/-! ## Lists -/

/-- Lists of expressions are served. -/
theorem serves_evaluateAll (h : ∀ e, S.Serves (.evaluate b e)) (es : List Expr) :
    S.Serves (.evaluateAll b es) := by
  induction es with
  | nil => exact fun m v hm _ _ => pure hm (by simp [Gives])
  | cons e es ih =>
    rintro m ⟨ctx, _, w, around⟩ hm ⟨rfl, hat⟩ hrec
    refine bind (h e m ⟨ctx, .expr e, w, around⟩ hm ⟨rfl, hat.first rfl rfl rfl⟩
      (hrec.step .headExpression)) ?_
    intro x m₁ hx hm₁ hext₁ hsound
    refine bind (ih m₁ ⟨ctx, .exprs es, walkExpr ctx e w, around⟩ hm₁
      ⟨rfl, (hat.mono hext₁).second rfl (by simp) rfl⟩ (hrec.step (.tailExpressions hx))) ?_
    intro xs m₂ _ hm₂ hext₂ hsounds
    refine pure hm₂ ?_
    show ∀ y ∈ x :: xs, S.Sound m₂ y
    rw [List.forall_mem_cons]
    exact ⟨Sound.mono hsound hext₂.toKeeps, hsounds⟩

/-- Sound bindings stay so with a sound value. -/
theorem sound_insert {fields : Bindings} (hfields : ∀ name x, fields.lookup name = some x →
    S.Sound m x) {key name : String} {x y : Value} (hx : S.Sound m x)
    (hy : (fields.insert key x).lookup name = some y) : S.Sound m y := by
  rw [Bindings.lookup_insert] at hy
  split at hy
  · exact Option.some.inj hy ▸ hx
  · exact hfields name y hy

/-- Entries are served. -/
theorem serves_evaluateEntries (h : ∀ e, S.Serves (.evaluate b e)) (es : List Entry)
    (fields : Bindings) : S.Serves (.evaluateEntries b es fields) := by
  induction es generalizing fields with
  | nil => exact fun m v hm hready _ => pure hm hready.2.2
  | cons entry es ih =>
    obtain ⟨key, e⟩ := entry
    rintro m ⟨ctx, _, w, around⟩ hm ⟨rfl, hat, hfields⟩ hrec
    refine bind (h e m ⟨ctx, .expr e, w, around⟩ hm ⟨rfl, hat.first rfl rfl rfl⟩
      (hrec.step .headEntry)) ?_
    intro x m₁ hx hm₁ hext₁ hsound
    refine (ih _ m₁ ⟨ctx, .entries es, walkExpr ctx e w, around⟩ hm₁
      ⟨rfl, (hat.mono hext₁).second rfl (by simp) rfl, fun name y hy => ?_⟩
      (hrec.step (.tailEntries hx))).imp ?_
    · exact sound_insert (fun name y hy => (hfields name y hy).mono hext₁.toKeeps) hsound hy
    · exact fun _ _ _ _ _ hgives => hgives

/-! ## Calls -/

/-- A frame with one binding matches a scope with one name. -/
theorem isSome_lookup_single {name name' : String} {x : Value}
    (h : List.lookup name' [(name, true)] = some true) :
    (List.lookup name' [(name, x)]).isSome := by
  rw [List.lookup_cons] at h ⊢
  split at h
  · simp [*]
  · contradiction

/-- A single name is bound to its value. -/
theorem eq_of_lookup_single {name name' : String} {x y : Value}
    (h : List.lookup name' [(name, x)] = some y) : y = x := by
  rw [List.lookup_cons] at h
  split at h
  · exact (Option.some.inj h).symm
  · contradiction

/-- Binding a method is served. -/
theorem serves_bind (method : Lox.Function) (receiver : Value) :
    S.Serves (.bind method receiver) := by
  rintro m v hm ⟨hmethod, hreceiver⟩ hrec
  have hbindings : ∀ name x, List.lookup name [("this", receiver)] = some x → S.Sound m x := by
    intro name x hx
    exact eq_of_lookup_single hx ▸ hreceiver
  refine bind (newFrame hm _ _ hbindings) fun k m₁ hk hm₁ _ hframe => pure hm₁ ?_
  obtain ⟨rfl, rfl⟩ := hframe
  obtain ⟨_, v, c, outer, around, hlive, hpiece, hmem, hscopes, haround, haligned⟩ := hmethod
  refine ⟨⟨hrec.makes .bound, v, hlive, hpiece, ?_⟩, rfl⟩
  rw [hscopes, haround]
  exact haligned.push hm.globals (hrec.creates (.receiver hmem)) fun _ => isSome_lookup_single

/-- The body of a function may run in a frame that binds its parameters. -/
theorem Function.body {f : Lox.Function} {vs : List Value} (hm : S.Inv m) (hf : S.Function m f)
    (harity : f.decl.arity = vs.length) (hmade : S.made m.heap.frames.size (.call f.decl)) :
    ∃ v, v.piece = .stmts f.decl.body ∧ S.At { m with
      heap.frames := m.heap.frames.push ⟨bindParameters f.decl.params vs, some f.frame⟩
      current := m.heap.frames.size } v := by
  obtain ⟨_, ⟨ctx, _, w, around⟩, hlive, rfl, haligned⟩ := hf
  obtain ⟨scope, hscopes, hparams⟩ := Walk.parameters_scopes f.decl.params (w := w.enter []) rfl
  refine ⟨_, rfl, S.live_parts _ hlive _ List.mem_cons_self, ?_⟩
  dsimp only
  rw [hscopes]
  refine (haligned.push hm.globals hmade fun name hname => ?_).mono
    (.of_frames_eq rfl rfl (Nat.le_refl _))
  obtain hnil | ⟨t, ht, rfl⟩ := hparams name hname
  · contradiction
  · exact isSome_lookup_bindParameters harity ht

/-- The frame of a call binds the parameters to the arguments. -/
theorem runs_newFrame_call (hm : S.Inv m) (f : Lox.Function) {vs : List Value}
    (hvs : ∀ x ∈ vs, S.Sound m x) :
    S.Runs (Exec.newFrame f.frame (bindParameters f.decl.params vs)) m fun k m' =>
      k = m.heap.frames.size ∧ m' = { m with
        heap.frames := m.heap.frames.push ⟨bindParameters f.decl.params vs, some f.frame⟩ } :=
  newFrame hm _ _ fun _ x hx => hvs x (mem_of_lookup_bindParameters hx)

/-- Calling a function is served. -/
theorem serves_callFunction (h : ∀ ss, S.Serves (.runAll b ss)) (f : Lox.Function)
    (arguments : List Value) : S.Serves (.callFunction b f arguments) := by
  rintro m v hm ⟨hf, harguments, harity⟩ hrec
  refine bind (runs_newFrame_call hm f harguments) ?_
  rintro k m₁ hk hm₁ hext₁ ⟨rfl, rfl⟩
  -- The frame of the call binds the parameters, as the scope of the body has them defined.
  obtain ⟨body, hbody⟩ := hf.body hm harity (hrec.creates .call)
  refine bind (inFrame (h f.decl.body _ body (hm₁.moveTo _) hbody (hrec.step (.body hk)))) ?_
  intro flow m₂ _ hm₂ _ hflow
  split
  · exact get (fun _ _ => rfl) (getFrom hm₂ _ _)
  · cases flow with
    | result x => exact pure hm₂ (Sound.mono hflow (.of_frames_eq rfl rfl (Nat.le_refl _)))
    | normal => exact pure hm₂ trivial

/-- Making an instance is served. -/
theorem serves_instantiate (h : ∀ f vs, S.Serves (.callFunction b f vs)) (c : Class)
    (arguments : List Value) : S.Serves (.instantiate b c arguments) := by
  rintro m v hm ⟨hclass, harguments, harity⟩ hrec
  refine bind (newObject hm { cls := c } hclass (by simp)) fun object m₁ ho hm₁ hext₁ hobject => ?_
  cases hinit : c.findMethod "init" with
  | none => exact pure hm₁ hobject
  | some init =>
    -- The initializer is bound to the new object, and it takes as many arguments as the class.
    have hmethod := (hclass.method hinit).mono hext₁.toKeeps
    refine bind (serves_bind init object m₁ v hm₁ ⟨hmethod, hobject⟩
      (hrec.step (.bindInit hinit ho))) ?_
    intro bound m₂ hbound hm₂ hext₂ hgives
    obtain ⟨hfunction, hdecl⟩ := hgives
    have harity' : bound.decl.arity = arguments.length := by
      rw [← harity, Class.arity, hinit, hdecl]
    refine bind (h bound arguments m₂ v hm₂ ⟨hfunction, fun x hx => ?_, harity'⟩
      (hrec.step (.callInit hinit ho hbound))) ?_
    · exact (harguments x hx).mono (hext₁.trans hext₂).toKeeps
    · intro _ m₃ _ hm₃ hext₃ _
      exact pure hm₃ (Sound.mono hobject (hext₂.trans hext₃).toKeeps)

/-- A call is made only with the right number of arguments. -/
theorem runs_arity (hm : S.Inv m) {α : Type} {expected got : Nat} {paren : Token} {x : Exec α}
    {R : α → Machine → Prop} (hx : expected = got → S.Runs x m R) :
    S.Runs (if expected ≠ got then do
        Exec.fail paren (.arity expected got)
        x
      else x) m R := by
  split
  · exact bind (R := fun _ _ => False) (fail hm _ _) fun _ _ _ _ _ hfalse => hfalse.elim
  · next hne => exact hx (not_not.mp hne)

/-- A call is served. -/
theorem serves_call (h : ∀ f vs, S.Serves (.callFunction b f vs)) (callee : Value)
    (arguments : List Value) (paren : Token) : S.Serves (.call b callee arguments paren) := by
  rintro m v hm ⟨hcallee, harguments⟩ hrec
  cases callee with
  | function id f =>
    exact runs_arity hm fun harity =>
      h f arguments m v hm ⟨hcallee, harguments, harity⟩ (hrec.step (.callFunction harity))
  | native f =>
    cases f with
    | log => exact Runs.callNative hm .log arguments paren
    | clock => exact runs_arity hm fun _ => Runs.callNative hm .clock arguments paren
    | len => exact runs_arity hm fun _ => Runs.callNative hm .len arguments paren
  | «class» c =>
    exact runs_arity hm fun harity =>
      serves_instantiate h c arguments m v hm ⟨hcallee, harguments, harity⟩
        (hrec.step (.callClass harity))
  | _ => exact bind (R := fun _ _ => False) (fail hm _ _) fun _ _ _ _ _ hfalse => hfalse.elim

/-! ## Properties -/

/-- A property is a field, or else a method that is bound. -/
theorem runs_getProperty (hm : S.Inv m) {x : Value} (hx : S.Sound m x) (name : Token)
    (hrec : ∀ object method, Exec.object? x m = .ok (some object) m →
      object.fields.lookup name.lexeme = none → object.cls.findMethod name.lexeme = some method →
      S.Records ⟨.bind method x, m⟩) :
    S.Runs (getProperty x name) m fun y m' => S.Sound m' y := by
  refine bind (object? hm x) fun object m₁ ho hm₁ _ hobject => ?_
  obtain ⟨rfl, hmem⟩ := hobject
  cases object with
  | none => exact fail hm₁ _ _
  | some o =>
    dsimp only
    split
    · next y hy => exact pure hm₁ (hm₁.holds.fields o (hmem o rfl) _ y hy)
    · next hnone =>
      split
      · next method hmethod =>
        have hsound : S.Sound m₁ (.class o.cls) := hm₁.holds.classes o (hmem o rfl)
        refine bind (serves_bind method x m₁ ⟨{}, .stmts [], {}, []⟩ hm₁
          ⟨hsound.method hmethod, hx⟩ (hrec o method ho hnone hmethod)) ?_
        exact fun bound m₂ _ hm₂ _ hgives => newFunction hm₂ hgives.1
      · exact fail hm₁ _ _

/-- An inherited method is bound to the receiver. -/
theorem runs_getInherited (hm : S.Inv m) {v : Visit} {x : Reference} (hv : S.live v)
    (hx : v.own? = some x) (name : Token)
    (hrec : ∀ distance view receiver method, m.distances.find? x.id = some distance →
      Exec.getAt distance x.name m = .ok (.class view) m →
      Exec.getAt (distance - 1) { x.name with lexeme := "this" } m = .ok receiver m →
      findInherited name.lexeme view.superclasses = some method →
      S.Records ⟨.bind method receiver, m⟩) :
    S.Runs (getInherited x name) m fun y m' => S.Sound m' y := by
  refine get (fun d hd => ?_) ?_
  · rw [show (m.withTable d).distances = d from rfl, find?_eq hm hv hx hd]
  cases hdistance : m.distances.find? x.id with
  | none => exact fail hm _ _
  | some distance =>
    -- Neither look-up changes the machine, so the method is bound at the moment at which the task
    -- starts.
    refine bind (getAt hm distance x.name) fun view m₁ hview hm₁ _ hsound => ?_
    obtain rfl := eq_of_getFrom hview
    cases view with
    | «class» view =>
      refine bind (getAt hm₁ _ _) fun receiver m₂ hreceiver hm₂ _ hsound' => ?_
      obtain rfl := eq_of_getFrom hreceiver
      split
      · next method hmethod =>
        have hmem := view.mem_functions_of_findInherited hmethod
        refine bind (serves_bind method receiver m₂ v hm₂ ⟨hsound.1 method hmem, hsound'⟩
          (hrec distance view receiver method hdistance hview hreceiver hmethod)) ?_
        exact fun bound m₃ _ hm₃ _ hgives => newFunction hm₃ hgives.1
      · exact fail hm₂ _ _
    | _ => exact fail hm₁ _ _

/-! ## Expressions -/

/-- An expression is served with one more unit of budget. -/
theorem serves_evaluate (h : ∀ e, S.Serves (.evaluate b e))
    (hcall : ∀ callee vs paren, S.Serves (.call b callee vs paren)) (e : Expr) :
    S.Serves (.evaluate (b + 1) e) := by
  rintro m ⟨ctx, _, w, around⟩ hm ⟨rfl, hat⟩ hrec
  -- The operands are the parts of the visit, and no expression opens a scope for them.
  cases e with
  | literal value => cases value <;> exact pure hm trivial
  | grouping e =>
    exact h e m ⟨ctx, .expr e, w, around⟩ hm ⟨rfl, hat.first rfl rfl rfl⟩ (hrec.step .grouping)
  | unary op r =>
    refine bind (h r m ⟨ctx, .expr r, w, around⟩ hm ⟨rfl, hat.first rfl rfl rfl⟩
      (hrec.step .unary)) ?_
    exact fun x m₁ _ hm₁ _ _ => Runs.applyUnary hm₁ op x
  | binary l op r =>
    refine bind (h l m ⟨ctx, .expr l, w, around⟩ hm ⟨rfl, hat.first rfl rfl rfl⟩
      (hrec.step .binaryLeft)) ?_
    intro x m₁ hx hm₁ hext₁ _
    refine bind (h r m₁ ⟨ctx, .expr r, walkExpr ctx l w, around⟩ hm₁
      ⟨rfl, (hat.mono hext₁).second rfl (by simp) rfl⟩ (hrec.step (.binaryRight hx))) ?_
    exact fun y m₂ _ hm₂ _ _ => Runs.applyBinary hm₂ op x y
  | logical l op r =>
    refine bind (h l m ⟨ctx, .expr l, w, around⟩ hm ⟨rfl, hat.first rfl rfl rfl⟩
      (hrec.step .logicalLeft)) ?_
    intro x m₁ hx hm₁ hext₁ hsound
    split
    · exact pure hm₁ hsound
    · next hdecides =>
      exact h r m₁ ⟨ctx, .expr r, walkExpr ctx l w, around⟩ hm₁
        ⟨rfl, (hat.mono hext₁).second rfl (by simp) rfl⟩
        (hrec.step (.logicalRight hx (Bool.not_eq_true _ ▸ hdecides)))
  | reference x => exact lookUp hm hat.live rfl
  | assign x e =>
    refine bind (h e m ⟨ctx, .expr e, w, around⟩ hm ⟨rfl, hat.first rfl rfl rfl⟩
      (hrec.step .assign)) ?_
    intro y m₁ _ hm₁ _ hsound
    refine bind (assign hm₁ hat.live rfl hsound) fun _ m₂ _ hm₂ hext₂ _ => ?_
    exact pure hm₂ (Sound.mono hsound hext₂.toKeeps)
  | call f paren es =>
    refine bind (h f m ⟨ctx, .expr f, w, around⟩ hm ⟨rfl, hat.first rfl rfl rfl⟩
      (hrec.step .callee)) ?_
    intro callee m₁ hf hm₁ hext₁ hsound
    refine bind (serves_evaluateAll h es m₁ ⟨ctx, .exprs es, walkExpr ctx f w, around⟩ hm₁
      ⟨rfl, (hat.mono hext₁).second rfl (by simp) rfl⟩ (hrec.step (.arguments hf))) ?_
    intro vs m₂ hes hm₂ hext₂ hsounds
    exact hcall callee vs paren m₂ ⟨ctx, .expr f, w, around⟩ hm₂
      ⟨Sound.mono hsound hext₂.toKeeps, hsounds⟩ (hrec.step (.call hf hes))
  | get o name =>
    refine bind (h o m ⟨ctx, .expr o, w, around⟩ hm ⟨rfl, hat.first rfl rfl rfl⟩
      (hrec.step .getObject)) ?_
    intro x m₁ hx hm₁ _ hsound
    exact runs_getProperty hm₁ hsound name fun object method hobject hfield hmethod =>
      hrec.step (.getMethod hx hobject hfield hmethod)
  | set o name e =>
    -- Scoping visits the value first, but the object is evaluated first.
    refine bind (h o m ⟨ctx, .expr o, walkExpr ctx e w, around⟩ hm
      ⟨rfl, hat.second rfl (by simp) rfl⟩ (hrec.step .setObject)) ?_
    intro x m₁ hx hm₁ hext₁ _
    cases x with
    | object id =>
      refine bind (h e m₁ ⟨ctx, .expr e, w, around⟩ hm₁
        ⟨rfl, (hat.mono hext₁).first rfl rfl rfl⟩ (hrec.step (.setValue hx))) ?_
      intro y m₂ _ hm₂ _ hsound
      refine bind (setField hm₂ id name.lexeme hsound) fun _ m₃ _ hm₃ hext₃ _ => ?_
      exact pure hm₃ (Sound.mono hsound hext₃.toKeeps)
    | _ => exact fail hm₁ _ _
  | index o bracket k =>
    refine bind (h o m ⟨ctx, .expr o, w, around⟩ hm ⟨rfl, hat.first rfl rfl rfl⟩
      (hrec.step .indexObject)) ?_
    intro x m₁ hx hm₁ hext₁ _
    refine bind (h k m₁ ⟨ctx, .expr k, walkExpr ctx o w, around⟩ hm₁
      ⟨rfl, (hat.mono hext₁).second rfl (by simp) rfl⟩ (hrec.step (.indexKey hx))) ?_
    exact fun y m₂ _ hm₂ _ _ => Runs.getElement hm₂ bracket x y
  | setIndex o bracket k e =>
    refine bind (h o m ⟨ctx, .expr o, w, around⟩ hm ⟨rfl, hat.first rfl rfl rfl⟩
      (hrec.step .setIndexObject)) ?_
    intro x m₁ hx hm₁ hext₁ _
    refine bind (h k m₁ ⟨ctx, .expr k, walkExpr ctx o w, around⟩ hm₁
      ⟨rfl, (hat.mono hext₁).second rfl (by simp) rfl⟩ (hrec.step (.setIndexKey hx))) ?_
    intro key m₂ hk hm₂ hext₂ _
    refine bind (h e m₂ ⟨ctx, .expr e, walkExpr ctx k (walkExpr ctx o w), around⟩ hm₂
      ⟨rfl, (hat.mono (hext₁.trans hext₂)).third rfl (by simp) rfl⟩
      (hrec.step (.setIndexValue hx hk))) ?_
    intro y m₃ _ hm₃ _ hsound
    refine bind (Runs.assignElement hm₃ bracket x key hsound) fun _ m₄ _ hm₄ hext₄ _ => ?_
    exact pure hm₄ (Sound.mono hsound hext₄.toKeeps)
  | this x => exact lookUp hm hat.live rfl
  | super x name =>
    exact runs_getInherited hm hat.live rfl name fun distance view receiver method hx hview
      hreceiver hmethod => hrec.step (.superMethod hx hview hreceiver hmethod)
  | function f =>
    have hlive := S.live_parts _ hat.live _ (List.mem_cons_self (l := []))
    have hfunction : S.Function m ⟨f, m.current, false⟩ :=
      ⟨hrec.makes .closure, _, hlive, rfl, hat.aligned⟩
    exact get (fun _ _ => rfl) (newFunction hm hfunction)
  | array bracket es =>
    refine bind (serves_evaluateAll h es m ⟨ctx, .exprs es, w, around⟩ hm
      ⟨rfl, hat.first rfl rfl rfl⟩ (hrec.step .array)) ?_
    exact fun vs m₁ _ hm₁ _ hsounds => newArray hm₁ vs hsounds
  | object brace es =>
    refine bind (serves_evaluateEntries h es [] m ⟨ctx, .entries es, w, around⟩ hm
      ⟨rfl, hat.first rfl rfl rfl, by simp⟩ (hrec.step .object)) ?_
    intro fields m₁ _ hm₁ _ hfields
    exact get (fun _ _ => rfl) (newObject hm₁ _ hm₁.objectClass hfields)

end Setting

end Lox.Eval

import Lox.Proofs.Eval.Abreast

/-!
# Copies run like what they are copies of

On machines of which one lacks the extra frames of the other, a piece and a copy of it run abreast,
if the frames match the scopes around both. The parts of evaluation that are given a runner or an
evaluator do so if these do, and so the induction is on the budgets alone. An extra frame is never
given a binding, as only statements that declare no names run in it.
-/

namespace Lox.Eval

open Scoping

namespace Beside

variable {τ : Trim} {fs : Frames} {k : FrameId} {v v' : Visit}

/-- The parts of a piece and of its copy stand beside each other if no scope is opened for them. -/
theorem parts (h : Beside τ fs k v v') (hflat : v.piece.isFlat) :
    List.Forall₂ (Beside τ fs k) v.parts v'.parts := by
  obtain ⟨shift, hcopies⟩ := h.paired.copies
  have hparts := forall₂_and_mem h.paired.parts (Visit.scopes_flat hflat h.paired.shapely)
    (Visit.scopes_flat (hcopies.isFlat.trans hflat) h.paired.shapely')
  refine hparts.imp ?_
  rintro p p' ⟨hp, hscopes, hscopes'⟩
  exact ⟨hp, hscopes ▸ hscopes' ▸ h.sheds⟩

/-- After a statement the frames still match the scopes, if no name is declared in an extra one. -/
theorem sheds_after (h : Beside τ fs k v v') {s : Stmt} (hs : v.piece = .stmt s)
    (hplain : τ.extra k = true → s.isPlain) : Sheds τ fs k v.after.scopes v'.after.scopes := by
  obtain ⟨shift, hcopies⟩ := h.paired.copies
  cases hk : τ.extra k with
  | false =>
    exact h.sheds.change hk v.scopes_after.1 v'.scopes_after.1 hcopies.head_after
  | true =>
    have hscopes := v.scopes_after_plain h.paired.shapely s hs (hplain hk)
    have hscopes' : v'.after.scopes = v'.walk.scopes := by
      have hshapely' := h.paired.shapely'
      obtain @⟨ctx, piece, w, w', around, around', ms⟩ := hcopies
      obtain rfl : piece = .stmt s := hs
      exact Visit.scopes_after_plain _ hshapely' _ rfl
        ((Visit.Copies.isPlain s ms).trans (hplain hk))
    rw [hscopes, hscopes']
    exact h.sheds

end Beside

namespace Trim

variable {side : Side} {τ : Trim} {m m' : Machine} {v v' : Visit}

namespace Abreast

/-! ## Operators -/

/-- A unary operator stays abreast. -/
theorem applyUnary (h : Trims τ m m') (op : Token) {a a' : Value}
    (ha : τ.Same m.heap.frames a a') :
    Abreast side τ m m' (applyUnary op a) (applyUnary op a') τ.Same :=
  readOnly h (.applyUnary (fun _ => .of_isPlain) rfl ha.similar)

/-- A binary operator stays abreast. -/
theorem applyBinary (h : Trims τ m m') (op : Token) {a a' b b' : Value}
    (ha : τ.Same m.heap.frames a a') (hb : τ.Same m.heap.frames b b') :
    Abreast side τ m m' (applyBinary op a b) (applyBinary op a' b') τ.Same :=
  readOnly h (.applyBinary (fun _ => .of_isPlain) rfl ha.similar hb.similar (h.heap.text ha)
    (h.heap.text hb))

/-! ## Properties and elements -/

/-- A method bound to its receiver is a value. -/
theorem bindValue (h : Trims τ m m') {f f' : Function}
    (hf : Match.Methods (τ.Functions m.heap.frames) f f') {a a' : Value}
    (ha : τ.Same m.heap.frames a a') :
    Abreast side τ m m' (do Exec.newFunction (← Exec.bind f a))
      (do Exec.newFunction (← Exec.bind f' a')) τ.Same :=
  bind (bindMethod h hf ha) fun _ _ _ _ _ hn hg => newFunction hn hg

/-- Reading a property stays abreast. -/
theorem getProperty (h : Trims τ m m') {a a' : Value} (ha : τ.Same m.heap.frames a a')
    (name : Token) : Abreast side τ m m' (getProperty a name) (getProperty a' name) τ.Same := by
  refine bind (object? h ha) fun n n' o o' hext hn ho => ?_
  cases ho with
  | none => exact fail hn name _
  | @some o o' ho =>
    dsimp only
    -- A field comes before a method.
    obtain ⟨hfield, hfield'⟩ | ⟨x, x', hfield, hfield', hx⟩ := rel_cases (ho.2 name.lexeme)
    · rw [hfield, hfield']
      dsimp only
      obtain ⟨hfound, hfound'⟩ | ⟨f, f', hfound, hfound', hf⟩ :=
        rel_cases (ho.1.findMethod name.lexeme)
      · rw [hfound, hfound']
        exact fail hn name _
      · rw [hfound, hfound']
        exact bindValue hn hf (h.same hext ha)
    · rw [hfield, hfield']
      exact pure hn hx

/-- Reading an element stays abreast. -/
theorem getElement (h : Trims τ m m') (bracket : Token) {a a' key key' : Value}
    (ha : τ.Same m.heap.frames a a') (hkey : τ.Same m.heap.frames key key') :
    Abreast side τ m m' (getElement bracket a key) (getElement bracket a' key') τ.Same :=
  readOnly h (.getElement (fun _ => .of_isPlain) h.heap.mirrors ha.similar hkey.similar)

/-- Assigning an element stays abreast. -/
theorem assignElement (h : Trims τ m m') (bracket : Token) {a a' key key' x x' : Value}
    (ha : τ.Same m.heap.frames a a') (hkey : τ.Same m.heap.frames key key')
    (hx : τ.Same m.heap.frames x x') :
    Abreast side τ m m' (assignElement bracket a key x) (assignElement bracket a' key' x')
      fun _ _ _ => True := by
  unfold Eval.assignElement
  cases ha with
  | array id =>
    refine get ?_
    rw [h.heap.mirrors.size_elements id]
    refine bind (readOnly (Q := fun _ i j => j = i) h (.position hkey.similar _)) ?_
    rintro n n' _ i hext hn rfl
    exact setElement hn id _ (h.same hext hx)
  | object id =>
    refine bind (readOnly (Q := fun _ s u => u = s) h (.keyName hkey.similar)) ?_
    rintro n n' _ name hext hn rfl
    exact setField hn id _ (h.same hext hx)
  | _ => exact fail h bracket _

/-- Reading an inherited method stays abreast. -/
theorem getInherited (h : Trims τ m m') (hv : Beside τ m.heap.frames m.current v v')
    {x x' : Reference} {method method' : Token} (hpiece : v.piece = .expr (.super x method))
    (hpiece' : v'.piece = .expr (.super x' method')) :
    Abreast side τ m m' (getInherited x method) (getInherited x' method') τ.Same := by
  obtain ⟨shift, hcopies⟩ := hv.paired.copies
  obtain @⟨ctx, piece, w, w', around, around', ms⟩ := hcopies
  obtain rfl : piece = .expr (.super x method) := hpiece
  obtain ⟨rfl, rfl⟩ : movedReference id shift x = x' ∧ method = method' :=
    Expr.super.inj (Piece.expr.inj hpiece')
  obtain ⟨i, hthis, hsuper⟩ := hv.paired.inherits.self
  obtain ⟨i', hthis', hsuper'⟩ := hv.sheds.neighbours rfl rfl hthis hsuper
  have hfind : τ.table.find? x.id = some (i + 1) := (hv.paired.recorded.self x rfl).trans hsuper
  have hfind' : τ.table'.find? (movedReference id shift x).id = some (i' + 1) :=
    (hv.paired.recorded'.self _ rfl).trans hsuper'
  -- The frames that hold the two names correspond, in whatever machine.
  have hframe {n n' : Machine} (hext : m.Extends n) (hn : Trims τ n n') (name : String) {i i' : Nat}
      (hi : depth? w.scopes name = some i) (hi' : depth? w'.scopes name = some i') :
      ∃ j, n.heap.frames.ancestor? n.current i = some j ∧ τ.extra j = false ∧
        n'.heap.frames.ancestor? (τ.place n.current) i' = some (τ.place j) := by
    have hrel := (hv.later hext).ancestor hn.heap.frames name
    rw [hi, hi'] at hrel
    cases hrel with
    | some hj => exact hj
  refine get ?_
  rw [h.distances, h.distances', hfind, hfind']
  obtain ⟨j, hj, hextra, hj'⟩ := hframe (.refl m) h x.name.lexeme hsuper hsuper'
  refine bind (getAt h hj hextra hj' _) fun n n' a a' hext hn ha => ?_
  cases ha with
  | «class» hc =>
    obtain ⟨j, hj, hextra, hj'⟩ := hframe hext hn "this" hthis hthis'
    refine bind (getAt hn hj hextra hj' _) fun o o' receiver receiver' hext' ho hreceiver => ?_
    have hc := hn.classes hext' hc
    cases hc with
    | cons hsupers =>
      dsimp only
      obtain ⟨hfound, hfound'⟩ | ⟨f, f', hfound, hfound', hf⟩ :=
        rel_cases (hsupers.findInherited method.lexeme)
      · rw [hfound, hfound']
        exact fail ho method _
      · rw [hfound, hfound']
        exact bindValue ho hf hreceiver
  | _ => exact fail hn x.name _

end Abreast

/-! ## Calls -/

/-- Two completions of statements that correspond. -/
inductive Flows (τ : Trim) (fs : Frames) : Flow → Flow → Prop
  | normal : Flows τ fs .normal .normal
  | result {a a' : Value} (h : τ.Same fs a a') : Flows τ fs (.result a) (.result a')

/-- Two evaluators run expressions and their copies abreast. -/
def Evaluates (side : Side) (τ : Trim) (eval eval' : Evaluator) : Prop :=
  ∀ ⦃m m' : Machine⦄ ⦃v v' : Visit⦄ ⦃e e' : Expr⦄, Trims τ m m' →
    Beside τ m.heap.frames m.current v v' → v.piece = .expr e → v'.piece = .expr e' →
    Abreast side τ m m' (eval e) (eval' e') τ.Same

/-- Two runners run statements and their copies abreast. In an extra frame they run only statements
that declare no names. -/
def Executes (side : Side) (τ : Trim) (run run' : Runner) : Prop :=
  ∀ ⦃m m' : Machine⦄ ⦃v v' : Visit⦄ ⦃s s' : Stmt⦄, Trims τ m m' →
    Beside τ m.heap.frames m.current v v' → v.piece = .stmt s → v'.piece = .stmt s' →
    (τ.extra m.current = true → s.isPlain) → Abreast side τ m m' (run s) (run' s') τ.Flows

namespace Abreast

variable {eval eval' : Evaluator} {run run' : Runner}

/-- Statements stay abreast, one after the other. -/
theorem runAll (hrun : Executes side τ run run') (h : Trims τ m m')
    (hcurrent : τ.extra m.current = false) (hv : Beside τ m.heap.frames m.current v v')
    {ss ss' : List Stmt} (hss : v.piece = .stmts ss) (hss' : v'.piece = .stmts ss') :
    Abreast side τ m m' (runAll run ss) (runAll run' ss') τ.Flows := by
  induction ss generalizing m m' v v' ss' with
  | nil =>
    obtain ⟨shift, hcopies⟩ := hv.paired.copies
    obtain @⟨ctx, piece, w, w', around, around', ms⟩ := hcopies
    obtain rfl : piece = .stmts [] := hss
    obtain rfl := Piece.stmts.inj hss'
    exact pure h .normal
  | cons s ss ih =>
    obtain ⟨shift, hcopies⟩ := hv.paired.copies
    obtain @⟨ctx, piece, w, w', around, around', ms⟩ := hcopies
    obtain rfl : piece = .stmts (s :: ss) := hss
    obtain rfl := Piece.stmts.inj hss'
    have hparts := hv.paired.parts
    -- The rest of the statements is walked through behind the first one, so its scopes are those
    -- after it.
    obtain _ | ⟨hs, _ | ⟨hrest, _⟩⟩ := hparts
    have hfirst := Beside.mk hs hv.sheds
    have hplain : τ.extra m.current = true → s.isPlain := fun hextra => by simp [hcurrent] at hextra
    refine bind (hrun h hfirst rfl rfl hplain) fun n n' flow flow' hext hn hflow => ?_
    cases hflow with
    | normal =>
      have hafter := Beside.mk hrest (hfirst.sheds_after rfl hplain)
      exact ih hn (hext.current ▸ hcurrent) (hafter.later hext) rfl rfl
    | result ha => exact pure hn (.result ha)

/-- Expressions stay abreast, one after the other. -/
theorem evaluateAll (heval : Evaluates side τ eval eval') (h : Trims τ m m')
    (hv : Beside τ m.heap.frames m.current v v') {es es' : List Expr} (hes : v.piece = .exprs es)
    (hes' : v'.piece = .exprs es') :
    Abreast side τ m m' (evaluateAll eval es) (evaluateAll eval' es')
      fun fs => List.Forall₂ (τ.Same fs) := by
  induction es generalizing m m' v v' es' with
  | nil =>
    obtain ⟨shift, hcopies⟩ := hv.paired.copies
    obtain @⟨ctx, piece, w, w', around, around', ms⟩ := hcopies
    obtain rfl : piece = .exprs [] := hes
    obtain rfl := Piece.exprs.inj hes'
    exact pure h .nil
  | cons e es ih =>
    obtain ⟨shift, hcopies⟩ := hv.paired.copies
    obtain @⟨ctx, piece, w, w', around, around', ms⟩ := hcopies
    obtain rfl : piece = .exprs (e :: es) := hes
    obtain rfl := Piece.exprs.inj hes'
    have hparts := hv.parts rfl
    obtain _ | ⟨he, _ | ⟨hrest, _⟩⟩ := hparts
    refine bind (heval h he rfl rfl) fun n n' a a' hext hn ha => ?_
    refine bind (ih hn (hrest.later hext) rfl rfl) fun o o' as as' hext' ho has => ?_
    exact pure ho (.cons (hn.same hext' ha) has)

/-- Parameters are bound to values that correspond. -/
theorem bound_bindParameters {fs : Frames} (params : List Token) {vs vs' : List Value}
    (hvs : List.Forall₂ (τ.Same fs) vs vs') :
    Bound (τ.Same fs) (bindParameters params vs) (bindParameters params vs') := by
  have hinsert : ∀ b b' : Bindings, Bound (τ.Same fs) b b' →
      Bound (τ.Same fs) ((params.zip vs).foldl (fun b p => Bindings.insert p.1.lexeme p.2 b) b)
        ((params.zip vs').foldl (fun b p => Bindings.insert p.1.lexeme p.2 b) b') := by
    induction params generalizing vs vs' with
    | nil => exact fun _ _ => id
    | cons t params ih =>
      intro b b' hb
      cases hvs with
      | nil => exact hb
      | cons hv hvs => exact ih hvs _ _ (hb.insert t.lexeme hv)
  exact hinsert [] [] .nil

/-- Calling a function stays abreast. -/
theorem callFunction (hrun : Executes side τ run run') (h : Trims τ m m') {f f' : Function}
    (hf : τ.Functions m.heap.frames [] f f') {vs vs' : List Value}
    (hvs : List.Forall₂ (τ.Same m.heap.frames) vs vs') :
    Abreast side τ m m' (callFunction run f vs) (callFunction run' f' vs') τ.Same := by
  obtain ⟨hframe, hinit, hreceiver, v, v', scopes, scopes', hpaired, hpiece, hpiece', hv, hv',
    hsheds⟩ := hf
  obtain ⟨⟨name, keyword, params, body⟩, frame, isInitializer⟩ := f
  obtain ⟨decl', frame', isInitializer'⟩ := f'
  obtain rfl : frame' = τ.place frame := hframe
  obtain rfl : isInitializer' = isInitializer := hinit
  obtain ⟨shift, hcopies⟩ := hpaired.copies
  obtain @⟨ctx, piece, w, w', around, around', ms⟩ := hcopies
  obtain rfl : piece = .function ⟨name, keyword, params, body⟩ := hpiece
  obtain rfl := Piece.function.inj hpiece'
  obtain rfl : w.scopes = scopes := hv
  obtain rfl : w'.scopes = scopes' := hv'
  have hparts := hpaired.parts
  obtain _ | ⟨hbody, _⟩ := hparts
  have hparams : params.map (Token.moved id) = params := List.map_id params
  have hbindings : Bound (τ.Same m.heap.frames) (bindParameters params vs)
      (bindParameters (params.map (Token.moved id)) vs') := by
    rw [hparams]
    exact bound_bindParameters params hvs
  -- The frame of the call is never an extra one, and neither is that of the receiver.
  refine bind (newFrame h hsheds hbindings) ?_
  rintro n n' k _ hext hn ⟨rfl, hk, hchain⟩
  have hscopes : Sheds τ n.heap.frames k ((w.enter []).parameters params).scopes
      ((w'.enter []).parameters (params.map (Token.moved id))).scopes := by
    rw [hparams]
    have hentered : Sheds τ n.heap.frames k (w.enter []).scopes (w'.enter []).scopes := hchain []
    exact hentered.parameters hk params
  -- The scopes of the body are those of the call with the parameters declared in it.
  refine bind (inFrame hn (runAll hrun (hn.moveTo k) hk ⟨hbody, hscopes⟩ rfl rfl))
    fun o o' flow flow' hext' ho hflow => ?_
  cases isInitializer' with
  | true =>
    have hself (fs : Frames) (k : FrameId) : fs.ancestor? k 0 = some k := rfl
    obtain ⟨hholder, hextra⟩ := ho.holderAt? (hself _ frame) (hreceiver rfl rfl) (hself _ _) "this"
    refine get ?_
    dsimp only
    rw [hholder]
    exact getFrom ho hextra _
  | false =>
    cases hflow with
    | normal => exact pure ho .nil
    | result ha => exact pure ho ha

/-- Making an instance stays abreast. -/
theorem instantiate (hrun : Executes side τ run run') (h : Trims τ m m') {c c' : Class}
    (hc : Classes (τ.Functions m.heap.frames) [c] [c']) {vs vs' : List Value}
    (hvs : List.Forall₂ (τ.Same m.heap.frames) vs vs') :
    Abreast side τ m m' (instantiate run c vs) (instantiate run' c' vs') τ.Same := by
  refine bind (newObject h hc .nil) fun n n' a a' hext hn ha => ?_
  have hc := h.classes hext hc
  have hvs := h.sames hext hvs
  obtain ⟨hfound, hfound'⟩ | ⟨f, f', hfound, hfound', hf⟩ := rel_cases (hc.findMethod "init")
  · rw [hfound, hfound']
    exact pure hn ha
  · rw [hfound, hfound']
    refine bind (bindMethod hn hf ha) fun o o' f f' hext' ho hf => ?_
    refine bind (callFunction hrun ho hf (hn.sames hext' hvs)) fun p p' _ _ hext'' hp _ => ?_
    exact pure hp (hn.same (hext'.trans hext'') ha)

/-- Calling a native function stays abreast. -/
theorem callNative (h : Trims τ m m') (f : Native) {vs vs' : List Value}
    (hvs : List.Forall₂ (τ.Same m.heap.frames) vs vs') (paren : Token) :
    Abreast side τ m m' (callNative f vs paren) (callNative f vs' paren) τ.Same := by
  cases f with
  | log =>
    have htexts := hvs.imp fun _ _ ha => h.heap.text ha
    refine bind (readOnly (Q := fun _ s u => u = s) h (t := paren) (.lineText htexts)) ?_
    rintro n n' _ s' _ hn rfl
    refine bind (tryWriteLine hn s') fun o o' refused refused' _ ho heq => ?_
    subst heq
    cases refused' with
    | none => exact pure ho .nil
    | some reason => exact fail ho paren _
  | clock =>
    refine bind (readClock h) fun n n' seconds seconds' _ hn heq => ?_
    subst heq
    cases seconds' with
    | some seconds => exact pure hn (.number _)
    | none => exact fail hn paren _
  | len =>
    exact readOnly h (.len (fun _ => .of_isPlain) h.heap.mirrors
      (hvs.imp fun _ _ ha => ha.similar))

/-- A call is made only with the right number of arguments. -/
theorem arity {α β : Type} {x : Exec α} {x' : Exec β} {Q : Frames → α → β → Prop}
    (h : Trims τ m m') {expected expected' got got' : Nat} (hexpected : expected' = expected)
    (hgot : got' = got) (paren : Token) (hx : Abreast side τ m m' x x' Q) :
    Abreast side τ m m'
      (if expected ≠ got then do
        Exec.fail paren (.arity expected got)
        x
      else x)
      (if expected' ≠ got' then do
        Exec.fail paren (.arity expected' got')
        x'
      else x') Q := by
  rw [hexpected, hgot]
  by_cases hne : expected ≠ got
  · rw [if_pos hne, if_pos hne]
    exact fail h paren _
  · rw [if_neg hne, if_neg hne]
    exact hx

/-- A call stays abreast. -/
theorem call (hrun : Executes side τ run run') (h : Trims τ m m') {a a' : Value}
    (ha : τ.Same m.heap.frames a a') {vs vs' : List Value}
    (hvs : List.Forall₂ (τ.Same m.heap.frames) vs vs') (paren : Token) :
    Abreast side τ m m' (call run a vs paren) (call run' a' vs' paren) τ.Same := by
  have hlength := hvs.length_eq.symm
  cases ha with
  | function hf => exact arity h hf.arity hlength paren (callFunction hrun h hf hvs)
  | native f =>
    have hcall : Abreast side τ m m' _ _ τ.Same := callNative h f hvs paren
    cases f with
    | log => exact hcall
    | clock => exact arity h rfl hlength paren hcall
    | len => exact arity h rfl hlength paren hcall
  | «class» hc => exact arity h hc.arity hlength paren (instantiate hrun h hc hvs)
  | _ => exact fail h paren _

/-! ## Declarations -/

/-- Declarations of variables stay abreast. -/
theorem declareAll (heval : Evaluates side τ eval eval') (h : Trims τ m m')
    (hcurrent : τ.extra m.current = false) (hv : Beside τ m.heap.frames m.current v v')
    {ds ds' : List Declarator} (hds : v.piece = .declarators ds)
    (hds' : v'.piece = .declarators ds') :
    Abreast side τ m m' (declareAll eval ds) (declareAll eval' ds') fun _ _ _ => True := by
  induction ds generalizing m m' v v' ds' with
  | nil =>
    obtain ⟨shift, hcopies⟩ := hv.paired.copies
    obtain @⟨ctx, piece, w, w', around, around', ms⟩ := hcopies
    obtain rfl : piece = .declarators [] := hds
    obtain rfl := Piece.declarators.inj hds'
    exact pure h trivial
  | cons d ds ih =>
    obtain ⟨shift, hcopies⟩ := hv.paired.copies
    obtain @⟨ctx, piece, w, w', around, around', ms⟩ := hcopies
    obtain rfl : piece = .declarators (d :: ds) := hds
    obtain rfl := Piece.declarators.inj hds'
    have hparts := hv.paired.parts
    obtain ⟨t, _ | e⟩ := d
    · obtain _ | ⟨hrest, _⟩ := hparts
      -- The scopes behind a name have it declared and defined, with its value or without.
      have hafter := Beside.mk hrest ((hv.sheds.declare hcurrent t).define hcurrent t)
      refine bind (Q := τ.Same) (pure h .nil) fun n n' a a' hext hn ha => ?_
      refine bind (define hn (hext.current ▸ hcurrent) t.lexeme ha) fun o o' _ _ hext' ho _ => ?_
      have hext := hext.trans hext'
      exact ih ho (hext.current ▸ hcurrent) (hafter.later hext) rfl rfl
    · obtain _ | ⟨he, _ | ⟨hrest, _⟩⟩ := hparts
      have hdeclared := hv.sheds.declare hcurrent t
      have hdefined : Sheds τ m.heap.frames m.current
          ((walkExpr ctx e (w.declare t)).define t).scopes
          ((walkExpr ctx (e.recast (.moved id shift) ms) (w'.declare t)).define t).scopes := by
        refine Sheds.define ?_ hcurrent t
        rw [walkExpr_scopes, walkExpr_scopes]
        exact hdeclared
      have hafter := Beside.mk hrest hdefined
      refine bind (heval h ⟨he, hdeclared⟩ rfl rfl) fun n n' a a' hext hn ha => ?_
      refine bind (define hn (hext.current ▸ hcurrent) t.lexeme ha) fun o o' _ _ hext' ho _ => ?_
      have hext := hext.trans hext'
      exact ih ho (hext.current ▸ hcurrent) (hafter.later hext) rfl rfl

/-- Entries stay abreast, one after the other. -/
theorem evaluateEntries (heval : Evaluates side τ eval eval') (h : Trims τ m m')
    (hv : Beside τ m.heap.frames m.current v v') {es es' : List Entry} (hes : v.piece = .entries es)
    (hes' : v'.piece = .entries es') {fields fields' : Bindings}
    (hfields : Bound (τ.Same m.heap.frames) fields fields') :
    Abreast side τ m m' (evaluateEntries eval es fields) (evaluateEntries eval' es' fields')
      fun fs => Bound (τ.Same fs) := by
  induction es generalizing m m' v v' es' fields fields' with
  | nil =>
    obtain ⟨shift, hcopies⟩ := hv.paired.copies
    obtain @⟨ctx, piece, w, w', around, around', ms⟩ := hcopies
    obtain rfl : piece = .entries [] := hes
    obtain rfl := Piece.entries.inj hes'
    exact pure h hfields
  | cons entry es ih =>
    obtain ⟨shift, hcopies⟩ := hv.paired.copies
    obtain @⟨ctx, piece, w, w', around, around', ms⟩ := hcopies
    obtain rfl : piece = .entries (entry :: es) := hes
    obtain rfl := Piece.entries.inj hes'
    obtain ⟨key, e⟩ := entry
    have hparts := hv.parts rfl
    obtain _ | ⟨he, _ | ⟨hrest, _⟩⟩ := hparts
    refine bind (heval h he rfl rfl) fun n n' a a' hext hn ha => ?_
    exact ih hn (hrest.later hext) rfl rfl ((h.bound hext hfields).insert key.keyName ha)

/-- The superclasses correspond, and there are some if some are written. -/
theorem lookUpClasses (h : Trims τ m m') (hv : Beside τ m.heap.frames m.current v v')
    {name name' : Token} {xs xs' : List Reference} (hxs : v.piece = .superclasses name xs)
    (hxs' : v'.piece = .superclasses name' xs') :
    Abreast side τ m m' (lookUpClasses xs) (lookUpClasses xs') fun fs cs cs' =>
      Classes (τ.Functions fs) cs cs' ∧ cs.isEmpty = xs.isEmpty := by
  induction xs generalizing m m' v v' xs' with
  | nil =>
    obtain ⟨shift, hcopies⟩ := hv.paired.copies
    obtain @⟨ctx, piece, w, w', around, around', ms⟩ := hcopies
    obtain rfl : piece = .superclasses name [] := hxs
    obtain ⟨_, rfl⟩ := Piece.superclasses.inj hxs'
    exact pure h ⟨.nil, rfl⟩
  | cons x xs ih =>
    obtain ⟨shift, hcopies⟩ := hv.paired.copies
    obtain @⟨ctx, piece, w, w', around, around', ms⟩ := hcopies
    obtain rfl : piece = .superclasses name (x :: xs) := hxs
    obtain ⟨rfl, rfl⟩ := Piece.superclasses.inj hxs'
    have hparts := hv.parts rfl
    obtain _ | ⟨hx, _ | ⟨hrest, _⟩⟩ := hparts
    refine bind (lookUp h hx rfl rfl) fun n n' a a' hext hn ha => ?_
    cases ha with
    | «class» hc =>
      refine bind (ih hn (hrest.later hext) rfl rfl) fun o o' cs cs' hext' ho hcs => ?_
      have hc := hn.classes hext' hc
      cases hc with
      | cons hsupers hmethods => exact pure ho ⟨.cons hsupers hmethods hcs.1, rfl⟩
    | _ => exact fail hn x.name _

/-- The methods of a class and of its copy correspond. -/
theorem bound_methodTable {fs : Frames} {k : FrameId} {scopes scopes' : List Scope}
    (hk : Sheds τ fs k scopes scopes') (hv : Visit.Paired τ.table τ.table' v v')
    {decls decls' : List FunctionDecl} (hdecls : v.piece = .methods decls)
    (hdecls' : v'.piece = .methods decls') (hscopes : v.walk.scopes = [("this", true)] :: scopes)
    (hscopes' : v'.walk.scopes = [("this", true)] :: scopes') :
    Bound (Match.Methods (τ.Functions fs)) (methodTable k decls)
      (methodTable (τ.place k) decls') := by
  refine .of_forall₂ (List.rel_reverse ?_)
  induction decls generalizing v v' decls' with
  | nil =>
    obtain ⟨shift, hcopies⟩ := hv.copies
    obtain @⟨ctx, piece, w, w', around, around', ms⟩ := hcopies
    obtain rfl : piece = .methods [] := hdecls
    obtain rfl := Piece.methods.inj hdecls'
    exact .nil
  | cons f decls ih =>
    obtain ⟨shift, hcopies⟩ := hv.copies
    obtain @⟨ctx, piece, w, w', around, around', ms⟩ := hcopies
    obtain rfl : piece = .methods (f :: decls) := hdecls
    obtain rfl := Piece.methods.inj hdecls'
    have hparts := hv.parts
    obtain _ | ⟨hf, _ | ⟨hrest, _⟩⟩ := hparts
    have hname : (f.recast (.moved id shift) ms).displayName = f.displayName := by
      obtain ⟨name, keyword, params, body⟩ := f
      cases name <;> rfl
    refine .cons ⟨hname, ⟨rfl, ?_, by simp, _, _, scopes, scopes', hf, rfl, rfl, hscopes, hscopes',
      hk⟩⟩ (ih hrest rfl rfl ?_ ?_)
    · show (_ == "init") = (_ == "init")
      rw [hname]
    · exact (walkFunction_scopes ..).trans hscopes
    · exact (walkFunction_scopes ..).trans hscopes'

/-- A class is made with its methods, and its name, which is bound already, gets it as its value. -/
theorem makeClass (h : Trims τ m m') (hcurrent : τ.extra m.current = false) {name : Token}
    (hbound : (m.heap.frames.local? m.current name.lexeme).isSome) {cs cs' : List Class}
    (hcs : Classes (τ.Functions m.heap.frames) cs cs') {methods methods' : List (String × Function)}
    (hmethods : Bound (Match.Methods (τ.Functions m.heap.frames)) methods methods') :
    Abreast side τ m m'
      (do Exec.assignNearest name (.class (← Exec.newClass name.lexeme cs methods)))
      (do Exec.assignNearest name (.class (← Exec.newClass name.lexeme cs' methods')))
      fun _ _ _ => True := by
  refine bind (newClass h _ hcs hmethods) fun n n' c c' hext hn hc => ?_
  refine assignNearest hn (hext.current ▸ hcurrent) ?_ (.class hc)
  rw [hext.current]
  exact hext.bound _ _ hbound

/-- Declaring a class stays abreast. -/
theorem declareClass (h : Trims τ m m') (hcurrent : τ.extra m.current = false)
    (hv : Beside τ m.heap.frames m.current v v') {c c' : ClassDecl} (hc : v.piece = .class c)
    (hc' : v'.piece = .class c') :
    Abreast side τ m m' (declareClass c) (declareClass c') fun _ _ _ => True := by
  obtain ⟨shift, hcopies⟩ := hv.paired.copies
  obtain @⟨ctx, piece, w, w', around, around', ms⟩ := hcopies
  obtain rfl : piece = .class c := hc
  obtain rfl := Piece.class.inj hc'
  obtain ⟨name, supers, decls⟩ := c
  have hparts := hv.paired.parts
  obtain _ | ⟨hsupers, _ | ⟨hmethods, _⟩⟩ := hparts
  have hnamed := (hv.sheds.declare hcurrent name).define hcurrent name
  have hscopes := Visit.toMethods_scopes ⟨ctx, .class ⟨name, supers, decls⟩, w, around⟩
    ⟨name, supers, decls⟩
  have hscopes' := Visit.toMethods_scopes
    ⟨ctx, .class (ClassDecl.recast (.moved id shift) ms ⟨name, supers, decls⟩), w', around'⟩
    (ClassDecl.recast (.moved id shift) ms ⟨name, supers, decls⟩)
  rw [superclasses_scopes] at hscopes hscopes'
  refine bind (lookUpClasses h ⟨hsupers, hnamed⟩ rfl rfl) ?_
  rintro n n' cs cs' hext hn ⟨hcs, hempty⟩
  have hcurrent' : τ.extra n.current = false := hext.current ▸ hcurrent
  have hnamed' := hnamed.mono hext.enclosing (.refl τ _)
  rw [← hext.current] at hnamed'
  have hlt := hnamed'.lt_size hn.globals_lt
  refine define_bind hn hcurrent' hlt name.lexeme .nil fun o o' hext' ho hbound => ?_
  have hcurrent'' : τ.extra o.current = false := hext'.current ▸ hcurrent'
  have hcs' := hn.classes hext' hcs
  have hnamed'' := hnamed'.mono hext'.enclosing (.refl τ _)
  rw [← hext'.current] at hnamed''
  refine get ?_
  rw [ho.current]
  dsimp only
  cases hcs with
  | nil =>
    obtain rfl : supers = [] := by simpa using hempty
    exact makeClass ho hcurrent'' hbound hcs'
      (bound_methodTable hnamed'' hmethods rfl rfl hscopes hscopes')
  | cons =>
    -- A class that inherits has a frame of its own around its methods, which is not extra.
    obtain ⟨x, xs, rfl⟩ : ∃ x xs, supers = x :: xs := by
      cases supers with
      | nil => simp at hempty
      | cons x xs => exact ⟨x, xs, rfl⟩
    refine bind (newClass ho _ hcs' .nil) fun p p' c c' hext₁ hp hc => ?_
    have houter := hnamed''.mono hext₁.enclosing (.refl τ _)
    refine bind (newFrame hp houter (.single _ (.class hc))) ?_
    rintro q q' k _ hext₂ hq ⟨rfl, hk, hchain⟩
    have hext := hext₁.trans hext₂
    have hbound := hext.bound _ _ hbound
    rw [← hext.current] at hbound
    exact makeClass hq (hext.current ▸ hcurrent'') hbound (ho.classes hext hcs')
      (bound_methodTable (hchain [("super", true)]) hmethods rfl rfl hscopes hscopes')

/-! ## Expressions and statements -/

variable {b b' : Nat}

/-- Expressions stay abreast with one more unit of budget. -/
theorem evaluates_succ (heval : Evaluates side τ (evaluate b) (evaluate b'))
    (hrun : Executes side τ (execute b) (execute b')) :
    Evaluates side τ (evaluate (b + 1)) (evaluate (b' + 1)) := by
  intro m m' v v' e e' h hv he he'
  obtain ⟨shift, hcopies⟩ := hv.paired.copies
  obtain @⟨ctx, piece, w, w', around, around', ms⟩ := hcopies
  obtain rfl : piece = .expr e := he
  obtain rfl := Piece.expr.inj he'
  have hparts := hv.parts rfl
  cases e with
  | literal x => exact pure h (.of_isPlain (Value.isPlain_ofLiteral x))
  | grouping e =>
    obtain _ | ⟨he, _⟩ := hparts
    exact heval h he rfl rfl
  | unary op r =>
    obtain _ | ⟨hr, _⟩ := hparts
    refine bind (heval h hr rfl rfl) fun n n' a a' _ hn ha => ?_
    exact applyUnary hn op ha
  | binary l op r =>
    obtain _ | ⟨hl, _ | ⟨hr, _⟩⟩ := hparts
    refine bind (heval h hl rfl rfl) fun n n' a a' hext hn ha => ?_
    refine bind (heval hn (hr.later hext) rfl rfl) fun o o' c c' hext' ho hc => ?_
    exact applyBinary ho op (hn.same hext' ha) hc
  | logical l op r =>
    obtain _ | ⟨hl, _ | ⟨hr, _⟩⟩ := hparts
    refine bind (heval h hl rfl rfl) fun n n' a a' hext hn ha => ?_
    have hdecides : decides ((Recasting.moved id shift).plain op) a' = decides op a := by
      unfold decides
      rw [ha.similar.isTruthy]
      rfl
    rw [hdecides]
    split
    · exact pure hn ha
    · exact heval hn (hr.later hext) rfl rfl
  | reference x => exact lookUp h hv rfl rfl
  | assign x e =>
    obtain _ | ⟨he, _⟩ := hparts
    refine bind (heval h he rfl rfl) fun n n' a a' hext hn ha => ?_
    refine bind (assign hn (hv.later hext) rfl rfl ha) fun o o' _ _ hext' ho _ => ?_
    exact pure ho (hn.same hext' ha)
  | call f paren es =>
    obtain _ | ⟨hf, _ | ⟨hes, _⟩⟩ := hparts
    refine bind (heval h hf rfl rfl) fun n n' a a' hext hn ha => ?_
    refine bind (evaluateAll heval hn (hes.later hext) rfl rfl) fun o o' as as' hext' ho has => ?_
    exact call hrun ho (hn.same hext' ha) has paren
  | get o name =>
    obtain _ | ⟨ho, _⟩ := hparts
    refine bind (heval h ho rfl rfl) fun n n' a a' _ hn ha => ?_
    exact getProperty hn ha name
  | set o name e =>
    obtain _ | ⟨he, _ | ⟨ho, _⟩⟩ := hparts
    refine bind (heval h ho rfl rfl) fun n n' a a' hext hn ha => ?_
    cases ha with
    | object id =>
      refine bind (heval hn (he.later hext) rfl rfl) fun o o' c c' hext' ho hc => ?_
      refine bind (setField ho id _ hc) fun p p' _ _ hext'' hp _ => ?_
      exact pure hp (ho.same hext'' hc)
    | _ => exact fail hn name _
  | index o bracket k =>
    obtain _ | ⟨ho, _ | ⟨hk, _⟩⟩ := hparts
    refine bind (heval h ho rfl rfl) fun n n' a a' hext hn ha => ?_
    refine bind (heval hn (hk.later hext) rfl rfl) fun o o' key key' hext' ho hkey => ?_
    exact getElement ho bracket (hn.same hext' ha) hkey
  | setIndex o bracket k e =>
    obtain _ | ⟨ho, _ | ⟨hk, _ | ⟨he, _⟩⟩⟩ := hparts
    refine bind (heval h ho rfl rfl) fun n n' a a' hext hn ha => ?_
    refine bind (heval hn (hk.later hext) rfl rfl) fun o o' key key' hext₁ ho hkey => ?_
    refine bind (heval ho (he.later (hext.trans hext₁)) rfl rfl) fun p p' c c' hext₂ hp hc => ?_
    have ha := hn.same (hext₁.trans hext₂) ha
    have hkey := ho.same hext₂ hkey
    refine bind (assignElement hp bracket ha hkey hc) fun q q' _ _ hext₃ hq _ => ?_
    exact pure hq (hp.same hext₃ hc)
  | this x => exact lookUp h hv rfl rfl
  | super x method => exact getInherited h hv rfl rfl
  | function f =>
    obtain _ | ⟨hf, _⟩ := hparts
    exact closure h hf rfl rfl
  | array bracket es =>
    obtain _ | ⟨hes, _⟩ := hparts
    refine bind (evaluateAll heval h hes rfl rfl) fun n n' as as' _ hn has => ?_
    exact newArray hn has
  | object brace es =>
    obtain _ | ⟨hes, _⟩ := hparts
    have hentries := evaluateEntries heval h hes rfl rfl .nil
    refine bind hentries fun n n' fields fields' _ hn hfields => ?_
    exact get (newObject hn hn.objectClass hfields)

/-- A condition and a body go round like their copies, if they run abreast with any smaller
budgets. -/
theorem loop (hside : side.Allows 0 b b') (hbudget : ∀ c c', c < b → side.Allows 0 c c' →
      Evaluates side τ (evaluate c) (evaluate c') ∧ Executes side τ (execute c) (execute c'))
    {p p' q q' : Visit} (h : Trims τ m m') (hp : Beside τ m.heap.frames m.current p p')
    (hq : Beside τ m.heap.frames m.current q q') {c c' : Expr} {s s' : Stmt}
    (hc : p.piece = .expr c) (hc' : p'.piece = .expr c') (hs : q.piece = .stmt s)
    (hs' : q'.piece = .stmt s') (hplain : s.isPlain) :
    Abreast side τ m m' (loop b c s) (loop b' c' s') τ.Flows := by
  induction b generalizing m m' b' with
  | zero =>
    -- A run ends here if either budget is spent.
    obtain ⟨rfl, _⟩ | ⟨rfl, rfl⟩ | ⟨c, c', hb, _⟩ := hside.cases
    · exact .firstSpent rfl
    · exact .secondSpent rfl
    · contradiction
  | succ b ih =>
    obtain ⟨_, hb⟩ | ⟨rfl, rfl⟩ | ⟨_, b', hb, rfl, hside⟩ := hside.cases
    · contradiction
    · exact .secondSpent rfl
    obtain rfl := Nat.succ.inj hb
    obtain ⟨heval, hrun⟩ := hbudget b b' (Nat.lt_succ_self _) hside
    refine bind (heval h hp hc hc') fun n n' a a' hext hn ha => ?_
    rw [ha.similar.isTruthy]
    split
    · refine bind (hrun hn (hq.later hext) hs hs' fun _ => hplain)
        fun o o' flow flow' hext' ho hflow => ?_
      have hext := hext.trans hext'
      cases hflow with
      | normal =>
        exact ih hside (fun c c' hlt => hbudget c c' (Nat.lt_succ_of_lt hlt)) ho (hp.later hext)
          (hq.later hext)
      | result ha => exact pure ho (.result ha)
    · exact pure hn .normal

/-- Statements stay abreast with one more unit of budget. -/
theorem executes_succ (hside : side.Allows 0 b b')
    (hbudget : ∀ c c', c < b + 1 → side.Allows 0 c c' →
      Evaluates side τ (evaluate c) (evaluate c') ∧ Executes side τ (execute c) (execute c')) :
    Executes side τ (execute (b + 1)) (execute (b' + 1)) := by
  obtain ⟨heval, hrun⟩ := hbudget b b' (Nat.lt_succ_self _) hside
  intro m m' v v' s s' h hv hs hs' hplain
  obtain ⟨shift, hcopies⟩ := hv.paired.copies
  obtain @⟨ctx, piece, w, w', around, around', ms⟩ := hcopies
  obtain rfl : piece = .stmt s := hs
  obtain rfl := Piece.stmt.inj hs'
  -- A statement that declares a name does not run in an extra frame.
  have hcurrent (hs : s.isPlain = false) : τ.extra m.current = false := by
    cases hextra : τ.extra m.current with
    | false => rfl
    | true => simp [hplain hextra] at hs
  cases s with
  | expression e =>
    obtain _ | ⟨he, _⟩ := hv.parts rfl
    refine bind (heval h he rfl rfl) fun n n' _ _ _ hn _ => ?_
    exact pure hn .normal
  | print e =>
    obtain _ | ⟨he, _⟩ := hv.parts rfl
    refine bind (heval h he rfl rfl) fun n n' a a' _ hn ha => ?_
    refine bind (textOf hn ha) fun o o' line line' _ ho heq => ?_
    subst heq
    refine bind (writeLine ho _) fun p p' _ _ _ hp _ => ?_
    exact pure hp .normal
  | declare ds =>
    obtain _ | ⟨hds, _⟩ := hv.parts rfl
    refine bind (declareAll heval h (hcurrent rfl) hds rfl rfl) fun n n' _ _ _ hn _ => ?_
    exact pure hn .normal
  | block ss =>
    have hparts := hv.paired.parts
    obtain _ | ⟨hss, _⟩ := hparts
    refine get ?_
    rw [h.current]
    refine bind (newFrame h hv.sheds .nil) ?_
    rintro n n' k _ hext hn ⟨rfl, hk, hchain⟩
    exact inFrame hn (runAll hrun (hn.moveTo k) hk ⟨hss, hchain []⟩ rfl rfl)
  | branch c t e =>
    have hshapely := hv.paired.shapely.self
    cases e with
    | none =>
      obtain _ | ⟨hc, _ | ⟨ht, _⟩⟩ := hv.parts rfl
      refine bind (heval h hc rfl rfl) fun n n' a a' hext hn ha => ?_
      rw [ha.similar.isTruthy]
      split
      · exact hrun hn (ht.later hext) rfl rfl fun _ => hshapely.1
      · exact pure hn .normal
    | some e =>
      obtain _ | ⟨hc, _ | ⟨ht, _ | ⟨he, _⟩⟩⟩ := hv.parts rfl
      refine bind (heval h hc rfl rfl) fun n n' a a' hext hn ha => ?_
      rw [ha.similar.isTruthy]
      split
      · exact hrun hn (ht.later hext) rfl rfl fun _ => hshapely.1
      · exact hrun hn (he.later hext) rfl rfl fun _ => hshapely.2 e rfl
  | loop c s =>
    obtain _ | ⟨hc, _ | ⟨hs, _⟩⟩ := hv.parts rfl
    exact loop hside (fun c c' hlt => hbudget c c' (Nat.lt_succ_of_lt hlt)) h hc hs rfl rfl rfl rfl
      hv.paired.shapely.self
  | function f =>
    obtain ⟨_ | t, keyword, params, body⟩ := f
    · have hshapely := hv.paired.shapely.self
      contradiction
    · have hparts := hv.paired.parts
      obtain _ | ⟨hf, _⟩ := hparts
      have hnamed := (hv.sheds.declare (hcurrent rfl) t).define (hcurrent rfl) t
      refine bind (closure h ⟨hf, hnamed⟩ rfl rfl) fun n n' a a' hext hn ha => ?_
      refine bind (define hn (hext.current ▸ hcurrent rfl) t.lexeme ha) fun o o' _ _ _ ho _ => ?_
      exact pure ho .normal
  | result keyword e =>
    cases e with
    | none => exact pure h (.result .nil)
    | some e =>
      obtain _ | ⟨he, _⟩ := hv.parts rfl
      refine bind (heval h he rfl rfl) fun n n' a a' _ hn ha => ?_
      exact pure hn (.result ha)
  | «class» c =>
    obtain _ | ⟨hc, _⟩ := hv.parts rfl
    refine bind (declareClass h (hcurrent rfl) hc rfl rfl) fun n n' _ _ _ hn _ => ?_
    exact pure hn .normal

/-- A piece and a copy of it run abreast with any budgets. -/
theorem lockstep (hside : side.Allows 0 b b') :
    Evaluates side τ (evaluate b) (evaluate b') ∧ Executes side τ (execute b) (execute b') := by
  induction b using Nat.strong_induction_on generalizing b' with
  | _ b ih =>
    obtain ⟨rfl, rfl⟩ | ⟨rfl, rfl⟩ | ⟨b, b', rfl, rfl, hsmaller⟩ := hside.cases
    · exact ⟨fun _ _ _ _ _ _ _ _ _ _ => .firstSpent rfl,
        fun _ _ _ _ _ _ _ _ _ _ _ => .firstSpent rfl⟩
    · exact ⟨fun _ _ _ _ _ _ _ _ _ _ => .secondSpent rfl,
        fun _ _ _ _ _ _ _ _ _ _ _ => .secondSpent rfl⟩
    · obtain ⟨heval, hrun⟩ := ih b (Nat.lt_succ_self _) hsmaller
      exact ⟨evaluates_succ heval hrun, executes_succ hsmaller fun c _ hlt => ih c hlt⟩

end Abreast

end Trim

end Lox.Eval

import Lox.Proofs.Eval.InStep

/-!
# Programs that are alike run alike

On machines that resemble each other, pieces that are alike are in step, whatever the budget. The
parts of evaluation that are given a runner or an evaluator are in step if these are, and so the
induction is on the budget alone.
-/

namespace Lox.Eval

open Scoping

variable {L : Likeness} {F : FrameId → Bool} {m m' : Machine} {ms : List Bool}

/-! ## What is seen of a value -/

namespace Values

variable {P : FrameId → List Bool → Prop} {v v' : Value}

/-- Operators cannot tell values apart that are alike. -/
theorem similar (h : Values L P v v') : v.Similar v' := by
  cases h with
  | function => exact .function ..
  | «class» hc =>
    cases hc with
    | cons => exact .class rfl
  | _ => exact .refl _

/-- A plain value corresponds to itself. -/
theorem of_isPlain (h : v.IsPlain) : Values L P v v := by
  cases v with
  | nil => exact .nil
  | boolean b => exact .boolean b
  | number x => exact .number x
  | string s => exact .string s
  | _ => exact h.elim

end Values

/-- Heaps that are alike hold values that are alike. -/
theorem Heaps.mirrors {P : FrameId → List Bool → Prop} {h h' : Heap} (hh : Heaps L F P h h') :
    h.Mirrors (Values L P) h' where
  elements := hh.elements
  fields id name := by
    obtain ⟨ho, ho'⟩ | ⟨o, o', ho, ho', _, hfields⟩ := rel_cases (hh.objects.getElem? id)
    · rw [ho, ho']
      exact .none
    · rw [ho, ho']
      exact hfields rfl

/-- Making objects of classes that are alike takes as many arguments. -/
theorem Classes.arity {P : FrameId → List Bool → Prop} {c c' : Class} (h : Classes L P [c] [c']) :
    c'.arity = c.arity := by
  unfold Class.arity
  obtain ⟨hfound, hfound'⟩ | ⟨f, f', hfound, hfound', hf⟩ := rel_cases (h.findMethod "init")
  · rw [hfound, hfound']
  · rw [hfound, hfound']
    obtain ⟨_, _, ms, _, hdecl⟩ := hf
    exact hdecl.arity

namespace InStep

/-! ## Operators -/

/-- A unary operator stays in step. -/
theorem applyUnary (h : Resembles L F m m') {op op' : Token} (hop : L.Tokens op op') {v v' : Value}
    (hv : Values L (Marked F m.heap.frames) v v') :
    InStep L F m m' (applyUnary op v) (applyUnary op' v') (Values L) :=
  readOnly h hop.line (.applyUnary (fun _ => .of_isPlain) hop.kind hv.similar)

/-- A binary operator stays in step. -/
theorem applyBinary (h : Resembles L F m m') {op op' : Token} (hop : L.Tokens op op')
    {v v' w w' : Value} (hv : Values L (Marked F m.heap.frames) v v')
    (hw : Values L (Marked F m.heap.frames) w w') :
    InStep L F m m' (applyBinary op v w) (applyBinary op' v' w') (Values L) :=
  readOnly h hop.line (.applyBinary (fun _ => .of_isPlain) hop.kind hv.similar hw.similar
    (h.heap.text hv) (h.heap.text hw))

/-! ## Properties and elements -/

/-- A method bound to its receiver is a value. -/
theorem bindValue (h : Resembles L F m m') {f f' : Function}
    (hf : Methods L (Marked F m.heap.frames) f f') {v v' : Value}
    (hv : Values L (Marked F m.heap.frames) v v') :
    InStep L F m m' (do Exec.newFunction (← Exec.bind f v))
      (do Exec.newFunction (← Exec.bind f' v')) (Values L) :=
  bind (bindMethod h hf hv) fun _ _ _ _ _ _ hn hg => newFunction hn hg

/-- Reading a property stays in step. -/
theorem getProperty (h : Resembles L F m m') {v v' : Value}
    (hv : Values L (Marked F m.heap.frames) v v') {name name' : Token}
    (hname : L.Tokens name name') :
    InStep L F m m' (getProperty v name) (getProperty v' name') (Values L) := by
  refine bind (object? h hv) fun F₁ n n' o o' hg hn ho => ?_
  have hv := hg.values hv
  rw [hname.lexeme]
  cases ho with
  | none => exact fail hn hname.line _
  | @some o o' ho =>
    dsimp only
    -- A field comes before a method.
    obtain ⟨hfield, hfield'⟩ | ⟨x, x', hfield, hfield', hx⟩ :=
      rel_cases (ho.2 (show L.Name false name.lexeme name.lexeme from rfl))
    · rw [hfield, hfield']
      dsimp only
      obtain ⟨hfound, hfound'⟩ | ⟨f, f', hfound, hfound', hf⟩ :=
        rel_cases (ho.1.findMethod name.lexeme)
      · rw [hfound, hfound']
        exact fail hn hname.line _
      · rw [hfound, hfound']
        exact bindValue hn hf hv
    · rw [hfield, hfield']
      exact pure hn hx

/-- Reading an element stays in step. -/
theorem getElement (h : Resembles L F m m') {bracket bracket' : Token}
    (hbracket : L.Tokens bracket bracket') {v v' key key' : Value}
    (hv : Values L (Marked F m.heap.frames) v v')
    (hkey : Values L (Marked F m.heap.frames) key key') :
    InStep L F m m' (getElement bracket v key) (getElement bracket' v' key') (Values L) :=
  readOnly h hbracket.line
    (.getElement (fun _ => .of_isPlain) h.heap.mirrors hv.similar hkey.similar)

/-- Assigning an element stays in step. -/
theorem assignElement (h : Resembles L F m m') {bracket bracket' : Token}
    (hbracket : L.Tokens bracket bracket') {v v' key key' x x' : Value}
    (hv : Values L (Marked F m.heap.frames) v v')
    (hkey : Values L (Marked F m.heap.frames) key key')
    (hx : Values L (Marked F m.heap.frames) x x') :
    InStep L F m m' (assignElement bracket v key x) (assignElement bracket' v' key' x')
      fun _ _ _ => True := by
  unfold Eval.assignElement
  cases hv with
  | array id =>
    refine get ?_
    rw [h.heap.mirrors.size_elements id]
    refine bind (readOnly (Q := fun _ i j => j = i) h hbracket.line (.position hkey.similar _)) ?_
    rintro F₁ n n' _ i hg hn rfl
    exact setElement hn id _ (hg.values hx)
  | object id =>
    refine bind (readOnly (Q := fun _ s u => u = s) h hbracket.line (.keyName hkey.similar)) ?_
    rintro F₁ n n' _ name hg hn rfl
    exact setField hn id _ (hg.values hx)
  | _ => exact fail h hbracket.line _

/-- The name of the receiver is the same in all frames. -/
theorem name_this (mark : Bool) : L.Name mark "this" "this" :=
  .of_reserved (.inl rfl)

/-- Reading an inherited method stays in step. -/
theorem getInherited (h : Resembles L F m m') (hms : Marked F m.heap.frames m.current ms)
    {x x' : Reference} (hx : L.Refers ms x x') {method method' : Token}
    (hmethod : L.Tokens method method') :
    InStep L F m m' (getInherited x method) (getInherited x' method') (Values L) := by
  have hname := hx.name
  unfold Likeness.markOf at hname
  refine get ?_
  rw [h.distances, h.distances', hx.distance]
  cases hfind : L.table.find? x.id with
  | none => exact fail h hx.line _
  | some distance =>
    rw [hfind] at hname
    have hat : ∀ k, m.heap.frames.ancestor? m.current distance = some k →
        L.Name (F k) x.name.lexeme x'.name.lexeme := fun k hk => by
      rwa [(hms distance k hk).2]
    refine bind (getAt h distance hat (.undefined hx)) fun F₁ n n' v v' hg hn hv => ?_
    cases hv with
    | «class» hc =>
      -- The receiver is one frame further in than the class.
      refine bind (getAt hn (distance - 1) (fun _ _ => name_this _) (.program _ hx.line))
        fun F₂ o o' receiver receiver' hg₂ ho hreceiver => ?_
      have hc := hg₂.classes hc
      cases hc with
      | cons hsupers =>
        dsimp only
        rw [hmethod.lexeme]
        obtain ⟨hfound, hfound'⟩ | ⟨f, f', hfound, hfound', hf⟩ :=
          rel_cases (hsupers.findInherited method.lexeme)
        · rw [hfound, hfound']
          exact fail ho hmethod.line _
        · rw [hfound, hfound']
          exact bindValue ho hf hreceiver
    | _ => exact fail hn hx.line _

end InStep

/-! ## Calls -/

/-- Two completions of statements that are alike. -/
inductive Flows (L : Likeness) (P : FrameId → List Bool → Prop) : Flow → Flow → Prop
  | normal : Flows L P .normal .normal
  | result {v v' : Value} (h : Values L P v v') : Flows L P (.result v) (.result v')

/-- Two evaluators are in step on expressions that are alike. -/
def Evaluates (L : Likeness) (eval eval' : Evaluator) : Prop :=
  ∀ ⦃F : FrameId → Bool⦄ ⦃m m' : Machine⦄ ⦃ms : List Bool⦄ ⦃e e' : Expr⦄, Resembles L F m m' →
    Marked F m.heap.frames m.current ms → Alike L ms (.expr e) (.expr e') →
    InStep L F m m' (eval e) (eval' e') (Values L)

/-- Two runners are in step on statements that are alike. -/
def Executes (L : Likeness) (run run' : Runner) : Prop :=
  ∀ ⦃F : FrameId → Bool⦄ ⦃m m' : Machine⦄ ⦃ms : List Bool⦄ ⦃s s' : Stmt⦄, Resembles L F m m' →
    Marked F m.heap.frames m.current ms → Alike L ms (.stmt s) (.stmt s') →
    InStep L F m m' (run s) (run' s') (Flows L)

namespace InStep

variable {eval eval' : Evaluator} {run run' : Runner}

/-- Statements stay in step, one after the other. -/
theorem runAll (hrun : Executes L run run') (h : Resembles L F m m')
    (hms : Marked F m.heap.frames m.current ms) {ss ss' : List Stmt}
    (hss : Alike L ms (.stmts ss) (.stmts ss')) :
    InStep L F m m' (runAll run ss) (runAll run' ss') (Flows L) := by
  induction ss generalizing F m m' ss' with
  | nil =>
    cases hss with
    | noStmts => exact pure h .normal
  | cons s ss ih =>
    cases hss with
    | moreStmts hs hss =>
      refine bind (hrun h hms hs) fun F₁ n n' flow flow' hg hn hflow => ?_
      cases hflow with
      | normal => exact ih hn (hg.marked_current hms) hss
      | result hv => exact pure hn (.result hv)

/-- Expressions stay in step, one after the other. -/
theorem evaluateAll (heval : Evaluates L eval eval') (h : Resembles L F m m')
    (hms : Marked F m.heap.frames m.current ms) {es es' : List Expr}
    (hes : Alike L ms (.exprs es) (.exprs es')) :
    InStep L F m m' (evaluateAll eval es) (evaluateAll eval' es')
      fun P => List.Forall₂ (Values L P) := by
  induction es generalizing F m m' es' with
  | nil =>
    cases hes with
    | noExprs => exact pure h .nil
  | cons e es ih =>
    cases hes with
    | moreExprs he hes =>
      refine bind (heval h hms he) fun F₁ n n' v v' hg hn hv => ?_
      refine bind (ih hn (hg.marked_current hms) hes) fun F₂ o o' vs vs' hg₂ ho hvs => ?_
      exact pure ho (.cons (hg₂.values hv) hvs)

/-- Parameters that correspond are bound to values that are alike. -/
theorem lookups_bindParameters {P : FrameId → List Bool → Prop} {mark : Bool}
    {params params' : List Token} (hparams : List.Forall₂ (L.Declares mark) params params')
    {vs vs' : List Value} (hvs : List.Forall₂ (Values L P) vs vs') :
    Lookups L mark (Values L P) (bindParameters params vs) (bindParameters params' vs') := by
  have hinsert : ∀ b b' : Bindings, Lookups L mark (Values L P) b b' →
      Lookups L mark (Values L P)
        ((params.zip vs).foldl (fun b p => Bindings.insert p.1.lexeme p.2 b) b)
        ((params'.zip vs').foldl (fun b p => Bindings.insert p.1.lexeme p.2 b) b') := by
    -- The induction is on the parameters, whatever is bound already.
    induction hparams generalizing vs vs' with
    | nil => exact fun _ _ => id
    | cons hp _ ih =>
      intro b b' hb
      cases hvs with
      | nil => exact hb
      | cons hv hvs => exact ih hvs _ _ (hb.insert hp.name hv)
  exact hinsert [] [] .nil

/-- Calling a function stays in step. -/
theorem callFunction (hrun : Executes L run run') (h : Resembles L F m m') {f f' : Function}
    (hf : Functions L (Marked F m.heap.frames) [] f f') {vs vs' : List Value}
    (hvs : List.Forall₂ (Values L (Marked F m.heap.frames)) vs vs') :
    InStep L F m m' (callFunction run f vs) (callFunction run' f' vs') (Values L) := by
  obtain ⟨⟨name, keyword, params, body⟩, frame, isInitializer⟩ := f
  obtain ⟨⟨name', keyword', params', body'⟩, frame', isInitializer'⟩ := f'
  obtain ⟨rfl, rfl, ms, hms, hdecl⟩ := hf
  cases hdecl with
  | @function _ mark _ _ _ _ _ _ _ _ _ hkeyword hparams hbody =>
    -- The frame of the call has the mark that the scope of the function has.
    refine bind (newFrame h mark hms (lookups_bindParameters hparams hvs)) ?_
    rintro F₁ n n' k _ hg hn ⟨rfl, hk⟩
    refine bind (inFrame hn (runAll hrun (hn.moveTo _) hk hbody))
      fun F₂ o o' flow flow' hg₂ ho hflow => ?_
    cases isInitializer' with
    | true =>
      refine get ?_
      dsimp only
      rw [ho.heap.holderAt? fun _ _ => name_this _]
      exact getFrom ho (fun _ _ => name_this _) (.program _ hkeyword.line)
    | false =>
      cases hflow with
      | normal => exact pure ho .nil
      | result hv => exact pure ho hv

/-- Making an instance stays in step. -/
theorem instantiate (hrun : Executes L run run') (h : Resembles L F m m') {c c' : Class}
    (hc : Classes L (Marked F m.heap.frames) [c] [c']) {vs vs' : List Value}
    (hvs : List.Forall₂ (Values L (Marked F m.heap.frames)) vs vs') :
    InStep L F m m' (instantiate run c vs) (instantiate run' c' vs') (Values L) := by
  refine bind (newObject h hc .nil) fun F₁ n n' v v' hg hn hv => ?_
  have hc := hg.classes hc
  have hvs := hvs.imp fun _ _ => hg.values
  obtain ⟨hfound, hfound'⟩ | ⟨f, f', hfound, hfound', hf⟩ := rel_cases (hc.findMethod "init")
  · rw [hfound, hfound']
    exact pure hn hv
  · rw [hfound, hfound']
    refine bind (bindMethod hn hf hv) fun F₂ o o' f f' hg₂ ho hf => ?_
    have hvs := hvs.imp fun _ _ => hg₂.values
    -- An initializer runs for what it does to the object, and its value is dropped.
    refine bind (callFunction hrun ho hf hvs) fun F₃ p p' _ _ hg₃ hp _ => ?_
    exact pure hp ((hg₂.trans hg₃).values hv)

/-- Calling a native function stays in step. -/
theorem callNative (h : Resembles L F m m') (f : Native) {vs vs' : List Value}
    (hvs : List.Forall₂ (Values L (Marked F m.heap.frames)) vs vs') {paren paren' : Token}
    (hparen : L.Tokens paren paren') :
    InStep L F m m' (callNative f vs paren) (callNative f vs' paren') (Values L) := by
  cases f with
  | log =>
    have htexts := hvs.imp fun _ _ hv => h.heap.text hv
    refine bind (readOnly (Q := fun _ s u => u = s) h hparen.line (.lineText htexts)) ?_
    rintro F₁ n n' _ s' hg hn rfl
    refine bind (tryWriteLine hn s') fun F₂ o o' refused refused' _ ho heq => ?_
    subst heq
    cases refused' with
    | none => exact pure ho .nil
    | some reason => exact fail ho hparen.line _
  | clock =>
    refine bind (readClock h) fun F₁ n n' seconds seconds' _ hn heq => ?_
    subst heq
    cases seconds' with
    | some seconds => exact pure hn (.number _)
    | none => exact fail hn hparen.line _
  | len =>
    exact readOnly h hparen.line (.len (fun _ => .of_isPlain) h.heap.mirrors
      (hvs.imp fun _ _ hv => hv.similar))

/-- A call is made only with the right number of arguments. -/
theorem arity {α β : Type} {x : Exec α} {x' : Exec β}
    {Q : (FrameId → List Bool → Prop) → α → β → Prop} (h : Resembles L F m m')
    {expected expected' got got' : Nat} (hexpected : expected' = expected) (hgot : got' = got)
    {paren paren' : Token} (hparen : L.Tokens paren paren') (hx : InStep L F m m' x x' Q) :
    InStep L F m m'
      (if expected ≠ got then do
        Exec.fail paren (.arity expected got)
        x
      else x)
      (if expected' ≠ got' then do
        Exec.fail paren' (.arity expected' got')
        x'
      else x') Q := by
  rw [hexpected, hgot]
  by_cases hne : expected ≠ got
  · rw [if_pos hne, if_pos hne]
    exact fail h hparen.line _
  · rw [if_neg hne, if_neg hne]
    exact hx

/-- A call stays in step. -/
theorem call (hrun : Executes L run run') (h : Resembles L F m m') {v v' : Value}
    (hv : Values L (Marked F m.heap.frames) v v') {vs vs' : List Value}
    (hvs : List.Forall₂ (Values L (Marked F m.heap.frames)) vs vs') {paren paren' : Token}
    (hparen : L.Tokens paren paren') :
    InStep L F m m' (call run v vs paren) (call run' v' vs' paren') (Values L) := by
  have hlength := hvs.length_eq.symm
  cases hv with
  | function hf =>
    obtain ⟨_, _, ms, _, hdecl⟩ := id hf
    exact arity h hdecl.arity hlength hparen (callFunction hrun h hf hvs)
  | native f =>
    have hcall := callNative h f hvs hparen
    cases f with
    | log => exact hcall
    | clock => exact arity h rfl hlength hparen hcall
    | len => exact arity h rfl hlength hparen hcall
  | «class» hc => exact arity h hc.arity hlength hparen (instantiate hrun h hc hvs)
  | _ => exact fail h hparen.line _

/-! ## Declarations -/

/-- Declarations of variables stay in step. -/
theorem declareAll (heval : Evaluates L eval eval') (h : Resembles L F m m')
    (hms : Marked F m.heap.frames m.current ms) {ds ds' : List Declarator}
    (hds : Alike L ms (.declarators ds) (.declarators ds')) :
    InStep L F m m' (declareAll eval ds) (declareAll eval' ds') fun _ _ _ => True := by
  induction ds generalizing F m m' ds' with
  | nil =>
    cases hds with
    | noDeclarators => exact pure h trivial
  | cons d ds ih =>
    cases hds with
    | uninitialized hname hds =>
      refine bind (Q := Values L) (pure h .nil) fun F₁ n n' v v' hg hn hv => ?_
      have hms := hg.marked_current hms
      rw [← hms.head] at hname
      refine bind (define hn hname.name hv) fun F₂ o o' _ _ hg₂ ho _ => ?_
      exact ih ho (hg₂.marked_current hms) hds
    | initialized hname he hds =>
      refine bind (heval h hms he) fun F₁ n n' v v' hg hn hv => ?_
      have hms := hg.marked_current hms
      rw [← hms.head] at hname
      refine bind (define hn hname.name hv) fun F₂ o o' _ _ hg₂ ho _ => ?_
      exact ih ho (hg₂.marked_current hms) hds

/-- Entries stay in step, one after the other. -/
theorem evaluateEntries (heval : Evaluates L eval eval') (h : Resembles L F m m')
    (hms : Marked F m.heap.frames m.current ms) {es es' : List Entry}
    (hes : Alike L ms (.entries es) (.entries es')) {fields fields' : Bindings}
    (hfields : Lookups L false (Values L (Marked F m.heap.frames)) fields fields') :
    InStep L F m m' (evaluateEntries eval es fields) (evaluateEntries eval' es' fields')
      fun P => Lookups L false (Values L P) := by
  induction es generalizing F m m' es' fields fields' with
  | nil =>
    cases hes with
    | noEntries => exact pure h hfields
  | cons entry es ih =>
    cases hes with
    | @moreEntries _ key key' _ _ _ _ hkey he hes =>
      refine bind (heval h hms he) fun F₁ n n' v v' hg hn hv => ?_
      have hfields := hfields.imp fun _ _ => hg.values
      have hkeyName : key'.keyName = key.keyName := by
        unfold Token.keyName
        rw [hkey.kind, hkey.lexeme]
      exact ih hn (hg.marked_current hms) hes (hfields.insert hkeyName hv)

/-- The superclasses are alike, and there are some if some are written. -/
theorem lookUpClasses (h : Resembles L F m m') (hms : Marked F m.heap.frames m.current ms)
    {xs xs' : List Reference} (hxs : List.Forall₂ (L.Refers ms) xs xs') :
    InStep L F m m' (lookUpClasses xs) (lookUpClasses xs') fun P cs cs' =>
      Classes L P cs cs' ∧ cs.isEmpty = xs.isEmpty := by
  induction hxs generalizing F m m' with
  | nil => exact pure h ⟨.nil, rfl⟩
  | cons hx _ ih =>
    refine bind (lookUp h hms hx) fun F₁ n n' v v' hg hn hv => ?_
    cases hv with
    | «class» hc =>
      refine bind (ih hn (hg.marked_current hms)) fun F₂ o o' cs cs' hg₂ ho hcs => ?_
      have hc := hg₂.classes hc
      cases hc with
      | cons hsupers hmethods => exact pure ho ⟨.cons hsupers hmethods hcs.1, rfl⟩
    | _ => exact fail hn hx.line _

/-- The methods of classes that are alike. -/
theorem entries_methodTable {P : FrameId → List Bool → Prop} {k : FrameId} (hk : P k ms)
    {fs fs' : List FunctionDecl} (hfs : Alike L (false :: ms) (.methods fs) (.methods fs')) :
    Entries L false (Methods L P) (methodTable k fs) (methodTable k fs') := by
  refine List.rel_reverse ?_
  induction fs generalizing fs' with
  | nil =>
    cases hfs with
    | noMethods => exact .nil
  | cons f fs ih =>
    cases hfs with
    | @moreMethods _ _ f' _ _ hf hfs =>
      have hname := hf.displayName
      have hinit : (f'.displayName == "init") = (f.displayName == "init") := by rw [hname]
      exact .cons ⟨hname, rfl, hinit, ms, hk, hf⟩ (ih hfs)

/-- A class is made with its methods, and its name, which is bound already, gets it as its value. -/
theorem makeClass (h : Resembles L F m m') {k : FrameId} (hk : Marked F m.heap.frames k ms)
    {name name' : Token} (hname : L.Tokens name name') (hcurrent : m.current < m.heap.frames.size)
    (hdeclares : L.Name (F m.current) name.lexeme name.lexeme)
    (hbound : (m.heap.frames.local? m.current name.lexeme).isSome) {cs cs' : List Class}
    (hcs : Classes L (Marked F m.heap.frames) cs cs') {fs fs' : List FunctionDecl}
    (hfs : Alike L (false :: ms) (.methods fs) (.methods fs')) :
    InStep L F m m'
      (do Exec.assignNearest name (.class (← Exec.newClass name.lexeme cs (methodTable k fs))))
      (do Exec.assignNearest name' (.class (← Exec.newClass name'.lexeme cs' (methodTable k fs'))))
      fun _ _ _ => True := by
  rw [hname.lexeme]
  refine bind (newClass h _ hcs (entries_methodTable hk hfs)) fun F₁ n n' c c' hg hn hc => ?_
  refine assignNearest hn hname ?_ ?_ (.class hc)
  · rw [hg.current, hg.marks _ hcurrent]
    exact hdeclares
  · rw [hg.current]
    exact hg.bound _ _ hbound

/-- Declaring a class stays in step. -/
theorem declareClass (h : Resembles L F m m') (hms : Marked F m.heap.frames m.current ms)
    {c c' : ClassDecl} (hc : Alike L ms (.class c) (.class c')) :
    InStep L F m m' (declareClass c) (declareClass c') fun _ _ _ => True := by
  cases hc with
  | @«class» _ name name' xs xs' fs fs' hname hdeclares hxs hfs =>
    refine bind (lookUpClasses h hms hxs) ?_
    rintro F₁ n n' cs cs' hg hn ⟨hcs, hempty⟩
    have hms := hg.marked_current hms
    rw [← hms.head] at hdeclares
    have hdeclares' : L.Name (F₁ n.current) name.lexeme name'.lexeme := by rwa [hname.lexeme]
    refine define_bind hn hdeclares' .nil hms.lt_size fun o o' hg₂ ho hbound => ?_
    have hms := hg₂.marked_current hms
    rw [← hg₂.current] at hdeclares
    have hcs' := hg₂.classes hcs
    refine get ?_
    rw [ho.current]
    dsimp only
    unfold methodMarks at hfs
    rw [← hempty] at hfs
    cases hcs with
    | nil => exact makeClass ho hms hname hms.lt_size hdeclares hbound hcs' hfs
    | cons =>
      -- A class that inherits has a frame of its own around its methods, which is not marked.
      simp only [List.isEmpty_cons, Bool.false_eq_true, if_false, hname.lexeme]
      refine bind (newClass ho _ hcs' .nil) fun F₂ p p' c c' hg₃ hp hc => ?_
      have hsuper : L.Name false "super" "super" := rfl
      refine bind (newFrame hp false (hg₃.marked hms) (.single hsuper (.class hc))) ?_
      rintro F₃ q q' k _ hg₄ hq ⟨rfl, hk⟩
      have hg := hg₃.trans hg₄
      rw [← hg.marks _ hms.lt_size, ← hg.current] at hdeclares
      have hbound := hg.bound _ _ hbound
      rw [← hg.current] at hbound
      have hmade := makeClass hq hk hname (hg.marked_current hms).lt_size hdeclares hbound
        (hg.classes hcs') hfs
      rwa [hname.lexeme] at hmade

/-! ## Expressions and statements -/

variable {budget : Nat}

/-- Expressions stay in step with one more unit of budget. -/
theorem evaluates_succ (heval : Evaluates L (evaluate budget) (evaluate budget))
    (hrun : Executes L (execute budget) (execute budget)) :
    Evaluates L (evaluate (budget + 1)) (evaluate (budget + 1)) := by
  intro F m m' ms e e' h hms he
  cases he with
  | literal => exact pure h (.of_isPlain (Value.isPlain_ofLiteral _))
  | grouping he => exact heval h hms he
  | unary hop hr =>
    refine bind (heval h hms hr) fun F₁ n n' v v' _ hn hv => ?_
    exact applyUnary hn hop hv
  | binary hl hop hr =>
    refine bind (heval h hms hl) fun F₁ n n' v v' hg hn hv => ?_
    refine bind (heval hn (hg.marked_current hms) hr) fun F₂ o o' w w' hg₂ ho hw => ?_
    exact applyBinary ho hop (hg₂.values hv) hw
  | @logical _ _ _ _ _ op op' hl hop hr =>
    refine bind (heval h hms hl) fun F₁ n n' v v' hg hn hv => ?_
    have hdecides : decides op' v' = decides op v := by
      unfold decides
      rw [hop.kind, hv.similar.isTruthy]
    rw [hdecides]
    split
    · exact pure hn hv
    · exact heval hn (hg.marked_current hms) hr
  | reference hx => exact lookUp h hms hx
  | assign hx he =>
    refine bind (heval h hms he) fun F₁ n n' v v' hg hn hv => ?_
    refine bind (assign hn (hg.marked_current hms) hx hv) fun F₂ o o' _ _ hg₂ ho _ => ?_
    exact pure ho (hg₂.values hv)
  | call hf hparen hes =>
    refine bind (heval h hms hf) fun F₁ n n' v v' hg hn hv => ?_
    refine bind (evaluateAll heval hn (hg.marked_current hms) hes)
      fun F₂ o o' vs vs' hg₂ ho hvs => ?_
    exact call hrun ho (hg₂.values hv) hvs hparen
  | get ho hname =>
    refine bind (heval h hms ho) fun F₁ n n' v v' _ hn hv => ?_
    exact getProperty hn hv hname
  | set ho hname he =>
    refine bind (heval h hms ho) fun F₁ n n' v v' hg hn hv => ?_
    rw [hname.lexeme]
    cases hv with
    | object id =>
      refine bind (heval hn (hg.marked_current hms) he) fun F₂ o o' w w' hg₂ ho hw => ?_
      refine bind (setField ho id _ hw) fun F₃ p p' _ _ hg₃ hp _ => ?_
      exact pure hp (hg₃.values hw)
    | _ => exact fail hn hname.line _
  | index ho hbracket hk =>
    refine bind (heval h hms ho) fun F₁ n n' v v' hg hn hv => ?_
    refine bind (heval hn (hg.marked_current hms) hk) fun F₂ o o' key key' hg₂ ho hkey => ?_
    exact getElement ho hbracket (hg₂.values hv) hkey
  | setIndex ho hbracket hk he =>
    refine bind (heval h hms ho) fun F₁ n n' v v' hg hn hv => ?_
    have hms := hg.marked_current hms
    refine bind (heval hn hms hk) fun F₂ o o' key key' hg₂ ho hkey => ?_
    have hms := hg₂.marked_current hms
    refine bind (heval ho hms he) fun F₃ p p' w w' hg₃ hp hw => ?_
    have hv := (hg₂.trans hg₃).values hv
    have hkey := hg₃.values hkey
    refine bind (assignElement hp hbracket hv hkey hw) fun F₄ q q' _ _ hg₄ hq _ => ?_
    exact pure hq (hg₄.values hw)
  | this hx => exact lookUp h hms hx
  | super hx hname => exact getInherited h hms hx hname
  | lambda hf => exact closure h hms hf
  | array _ hes =>
    refine bind (evaluateAll heval h hms hes) fun F₁ n n' vs vs' _ hn hvs => ?_
    exact newArray hn hvs
  | object _ hes =>
    refine bind (evaluateEntries heval h hms hes .nil) fun F₁ n n' fields fields' _ hn hfields => ?_
    exact get (newObject hn hn.objectClass hfields)

/-- Conditions and bodies that are alike go round alike, if they are in step with any smaller
budget. -/
theorem loop (h : Resembles L F m m') (hms : Marked F m.heap.frames m.current ms)
    (hbudget : ∀ b < budget, Evaluates L (evaluate b) (evaluate b) ∧
      Executes L (execute b) (execute b)) {c c' : Expr} {s s' : Stmt}
    (hc : Alike L ms (.expr c) (.expr c')) (hs : Alike L ms (.stmt s) (.stmt s')) :
    InStep L F m m' (loop budget c s) (loop budget c' s') (Flows L) := by
  induction budget generalizing F m m' with
  | zero => exact throw h .exhausted
  | succ budget ih =>
    -- Each round has one budget less, for the condition as for the body.
    obtain ⟨heval, hrun⟩ := hbudget budget (Nat.lt_succ_self _)
    refine bind (heval h hms hc) fun F₁ n n' v v' hg hn hv => ?_
    have hms := hg.marked_current hms
    rw [hv.similar.isTruthy]
    split
    · refine bind (hrun hn hms hs) fun F₂ o o' flow flow' hg₂ ho hflow => ?_
      cases hflow with
      | normal =>
        exact ih ho (hg₂.marked_current hms) fun b hb => hbudget b (Nat.lt_succ_of_lt hb)
      | result hv => exact pure ho (.result hv)
    · exact pure hn .normal

/-- Statements stay in step with one more unit of budget. -/
theorem executes_succ (hbudget : ∀ b < budget + 1, Evaluates L (evaluate b) (evaluate b) ∧
      Executes L (execute b) (execute b)) :
    Executes L (execute (budget + 1)) (execute (budget + 1)) := by
  obtain ⟨heval, hrun⟩ := hbudget budget (Nat.lt_succ_self _)
  intro F m m' ms s s' h hms hs
  cases hs with
  | expression he =>
    refine bind (heval h hms he) fun F₁ n n' _ _ _ hn _ => ?_
    exact pure hn .normal
  | print he =>
    refine bind (heval h hms he) fun F₁ n n' v v' _ hn hv => ?_
    refine bind (textOf hn hv) fun F₂ o o' line line' _ ho heq => ?_
    subst heq
    refine bind (writeLine ho _) fun F₃ p p' _ _ _ hp _ => ?_
    exact pure hp .normal
  | declare hds =>
    refine bind (declareAll heval h hms hds) fun F₁ n n' _ _ _ hn _ => ?_
    exact pure hn .normal
  | @block _ mark _ _ hss =>
    refine get ?_
    rw [h.current]
    -- The frame of the block has the mark that its scope has.
    refine bind (newFrame h mark hms .nil) ?_
    rintro F₁ n n' k _ hg hn ⟨rfl, hk⟩
    exact inFrame hn (runAll hrun (hn.moveTo _) hk hss)
  | branch hc ht =>
    refine bind (heval h hms hc) fun F₁ n n' v v' hg hn hv => ?_
    rw [hv.similar.isTruthy]
    split
    · exact hrun hn (hg.marked_current hms) ht
    · exact pure hn .normal
  | branchElse hc ht he =>
    refine bind (heval h hms hc) fun F₁ n n' v v' hg hn hv => ?_
    rw [hv.similar.isTruthy]
    split
    · exact hrun hn (hg.marked_current hms) ht
    · exact hrun hn (hg.marked_current hms) he
  | loop hc hs =>
    exact loop h hms (fun b hb => hbudget b (Nat.lt_succ_of_lt hb)) hc hs
  | declareFunction hf hname =>
    refine bind (closure h hms hf) fun F₁ n n' v v' hg hn hv => ?_
    have hms := hg.marked_current hms
    rw [← hms.head] at hname
    rw [hf.displayName]
    refine bind (define hn hname hv) fun F₂ o o' _ _ _ ho _ => ?_
    exact pure ho .normal
  | result _ => exact pure h (.result .nil)
  | resultOf _ he =>
    refine bind (heval h hms he) fun F₁ n n' v v' _ hn hv => ?_
    exact pure hn (.result hv)
  | declareClass hc =>
    refine bind (declareClass h hms hc) fun F₁ n n' _ _ _ hn _ => ?_
    exact pure hn .normal

/-- Programs that are alike run alike with any budget. -/
theorem lockstep (budget : Nat) :
    Evaluates L (evaluate budget) (evaluate budget) ∧
      Executes L (execute budget) (execute budget) := by
  -- The rounds of a loop run with any smaller budget, so the one before is not enough.
  induction budget using Nat.strong_induction_on with
  | _ budget ih =>
    cases budget with
    | zero =>
      constructor
      · exact fun F m m' ms e e' h _ _ => throw h .exhausted
      · exact fun F m m' ms s s' h _ _ => throw h .exhausted
    | succ budget =>
      obtain ⟨heval, hrun⟩ := ih budget (Nat.lt_succ_self _)
      exact ⟨evaluates_succ heval hrun, executes_succ ih⟩

end InStep

end Lox.Eval

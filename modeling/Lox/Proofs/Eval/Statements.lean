import Lox.Proofs.Eval.Expressions

/-!
# What executing a statement does

Statements that declare a name leave frames behind that match the scopes after them; all others
leave the scopes as they were. With the expressions, this closes the induction on the budget: every
task serves (`Setting.serves`).
-/

namespace Lox.Eval

open Scoping Exec

namespace Setting

variable {S : Setting} {m m' : Machine} {v p : Visit} {b : Nat}

open Runs

/-! ## Declarations -/

/-- Lists of statements are served. -/
theorem serves_runAll (h : ∀ s, S.Serves (.execute b s)) (ss : List Stmt) :
    S.Serves (.runAll b ss) := by
  induction ss with
  | nil =>
    rintro m ⟨ctx, _, w, around⟩ hm ⟨rfl, hat⟩ _
    exact pure hm hat.aligned
  | cons s ss ih =>
    rintro m ⟨ctx, _, w, around⟩ hm ⟨rfl, hat⟩ hrec
    refine bind (h s m ⟨ctx, .stmt s, w, around⟩ hm ⟨rfl, hat.first rfl rfl rfl⟩
      (hrec.step .headStatement)) ?_
    intro flow m₁ hs hm₁ _ hflow
    cases flow with
    | normal =>
      -- The rest is visited behind the first statement, in the scopes that this one leaves.
      have hlive := S.live_parts _ hat.live _ (List.mem_cons_of_mem _ List.mem_cons_self)
      refine (ih m₁ ⟨ctx, .stmts ss, walkStmt ctx s w, around⟩ hm₁ ⟨rfl, hlive, hflow⟩
        (hrec.step (.tailStatements hs))).imp fun flow m₂ _ _ _ hgives => ?_
      cases flow <;> exact hgives
    | result x => exact pure hm₁ hflow

/-- The current frame binds a name that was just defined in it. -/
theorem isSome_local?_define (hm : S.Inv m) {k : FrameId} {scopes : List Scope}
    {cs : List Construct} (h : Aligned S.made m k scopes cs) (name : String) (x : Value) :
    ((m.heap.frames.define k name x).local? k name).isSome := by
  rw [Frames.local?_define, if_pos ⟨rfl, hm.lt_size h, rfl⟩]
  rfl

/-- Once a name is bound in the current frame, the frames match the scopes in which it is
defined. -/
theorem define_ok (hm : S.Inv m) {x : Value} (hx : S.Sound m x) {name : Token} {w : Walk}
    {around : List Construct} (h : Aligned S.made m m.current w.scopes around)
    (hd : Exec.define name.lexeme x m = .ok () m') :
    S.Inv m' ∧ m.Extends m' ∧ Aligned S.made m' m'.current (w.define name).scopes around := by
  obtain ⟨hm', hext, rfl⟩ := (define hm name.lexeme hx).ok () m' hd
  exact ⟨hm', hext, (h.mono hext.toKeeps).define name (isSome_local?_define hm h _ _)⟩

/-- A variable is bound, and the declarations after it follow. -/
theorem runs_define_declareAll {ds : List Declarator} (h : S.Serves (.declareAll b ds))
    (hm : S.Inv m) {x : Value} (hx : S.Sound m x) (name : Token) {ctx : Context} {w : Walk}
    {around : List Construct} (hlive : S.live ⟨ctx, .declarators ds, w.define name, around⟩)
    (haligned : Aligned S.made m m.current w.scopes around)
    (hrec : ∀ m', Exec.define name.lexeme x m = .ok () m' → S.Records ⟨.declareAll b ds, m'⟩) :
    S.Runs (do Exec.define name.lexeme x; declareAll (evaluate b) ds) m fun _ m' =>
      Aligned S.made m' m'.current (walkDeclarators ctx ds (w.define name)).scopes around := by
  refine bind (define hm name.lexeme hx) fun _ m₁ hd hm₁ _ _ => ?_
  exact h m₁ ⟨ctx, .declarators ds, w.define name, around⟩ hm₁
    ⟨rfl, hlive, (define_ok hm hx haligned hd).2.2⟩ (hrec m₁ hd)

/-- Declarations of variables are served. -/
theorem serves_declareAll (h : ∀ e, S.Serves (.evaluate b e)) (ds : List Declarator) :
    S.Serves (.declareAll b ds) := by
  induction ds with
  | nil =>
    rintro m ⟨ctx, _, w, around⟩ hm ⟨rfl, hat⟩ _
    exact pure hm hat.aligned
  | cons d ds ih =>
    obtain ⟨name, _ | e⟩ := d
    · rintro m ⟨ctx, _, w, around⟩ hm ⟨rfl, hat⟩ hrec
      have hlive := S.live_parts _ hat.live _ List.mem_cons_self
      refine bind (R := fun x m' => x = .nil ∧ m' = m) (pure hm ⟨rfl, rfl⟩) ?_
      rintro x m₁ _ hm₁ _ ⟨rfl, rfl⟩
      exact runs_define_declareAll (x := .nil) ih hm₁ trivial name hlive (hat.aligned.declare name)
        fun m' hd => hrec.step (.afterName hd)
    · rintro m ⟨ctx, _, w, around⟩ hm ⟨rfl, hat⟩ hrec
      have hlive := S.live_parts _ hat.live _ List.mem_cons_self
      have hlive' := S.live_parts _ hat.live _ (List.mem_cons_of_mem _ List.mem_cons_self)
      -- The initial value is evaluated while the name is declared but not yet defined.
      have haligned := hat.aligned.declare name
      refine bind (h e m ⟨ctx, .expr e, w.declare name, around⟩ hm ⟨rfl, hlive, haligned⟩
        (hrec.step .initializer)) ?_
      intro x m₁ hx hm₁ hext₁ hsound
      refine runs_define_declareAll ih hm₁ hsound name hlive' ?_ fun m' hd =>
        hrec.step (.afterInitializer hx hd)
      rw [walkExpr_scopes, hext₁.current]
      exact haligned.mono hext₁.toKeeps

/-- Looking up superclasses is served. -/
theorem serves_lookUpClasses (xs : List Reference) : S.Serves (.lookUpClasses xs) := by
  induction xs with
  | nil => exact fun m v hm _ _ => pure hm ⟨rfl, by simp⟩
  | cons x xs ih =>
    rintro m ⟨ctx, _, w, around⟩ hm ⟨name, rfl, hlive, haligned⟩ hrec
    have hhead := S.live_parts _ hlive _ List.mem_cons_self
    have htail := S.live_parts _ hlive _ (List.mem_cons_of_mem _ List.mem_cons_self)
    refine bind (lookUp hm hhead rfl) fun y m₁ hy hm₁ hext₁ hsound => ?_
    cases y with
    | «class» c =>
      refine bind (ih m₁ _ hm₁ ⟨name, rfl, htail, ?_⟩ (hrec.step (.tailClasses hy))) ?_
      · rw [hext₁.current]
        simpa [Walk.scopesBut] using haligned.mono hext₁.toKeeps
      · intro cs m₂ _ hm₂ hext₂ hgives
        refine pure hm₂ ⟨by simp [hgives.1], ?_⟩
        rw [List.forall_mem_cons]
        exact ⟨Sound.mono hsound hext₂.toKeeps, hgives.2⟩
    | _ => exact fail hm₁ _ _

/-- The methods of a class, made in the frame that holds `super` or in the current one. -/
theorem sound_methodTable {v : Visit} {c : ClassDecl} {frame : FrameId}
    (hlive : S.live (v.toMethods c)) {outer : List Scope} {around : List Construct}
    (hscopes : (v.toMethods c).walk.scopes = [("this", true)] :: outer)
    (haround : (v.toMethods c).around = .receiver c :: around)
    (haligned : Aligned S.made m frame outer around) :
    ∀ f ∈ (methodTable frame c.methods).map Prod.snd, S.Method m f := by
  intro f hf
  obtain ⟨decl, hdecl, rfl⟩ : ∃ decl ∈ c.methods,
      f = ⟨decl, frame, decl.displayName == "init"⟩ := by
    simpa [methodTable, eq_comm] using hf
  obtain ⟨p, hp, hpiece, hpscopes, hparound⟩ :=
    Visit.exists_method S.live_parts hlive (by simp) hdecl
  exact ⟨rfl, p, c, outer, around, hp, hpiece, hdecl, hpscopes.trans hscopes,
    hparound.trans haround, haligned⟩

/-- The class is made with methods in a given frame, and its name gets it as its value. -/
theorem runs_makeClass (hm : S.Inv m) {c : ClassDecl} {frame : FrameId} {cs : List Class}
    (hcs : ∀ c ∈ cs, S.Sound m (.class c))
    (hmethods : ∀ f ∈ (methodTable frame c.methods).map Prod.snd, S.Method m f) :
    S.Runs (do
      let made ← Exec.newClass c.name.lexeme cs (methodTable frame c.methods)
      Exec.assignNearest c.name (.class made)) m fun _ _ => True :=
  bind (newClass hm _ hcs hmethods) fun _ _ _ hm₁ _ hmade => assignNearest hm₁ _ hmade.1

/-- Once its name is bound, a class is made: its methods refer to the current frame, or to a frame
around which it lies and which holds `super`. -/
theorem runs_declareMethods (hm : S.Inv m) {v : Visit} {c : ClassDecl} {cs : List Class}
    (hlive : S.live (v.toMethods c)) (hlength : cs.length = c.superclasses.length)
    (hcs : ∀ c ∈ cs, S.Sound m (.class c))
    (hmade : cs ≠ [] → S.made m.heap.frames.size (.inheritance c))
    (haligned : Aligned S.made m m.current (v.named c.name).scopes v.around) :
    S.Runs (do
      let here := (← get).current
      let frame ←
        if cs.isEmpty then Pure.pure here
        else do
          let view ← Exec.newClass c.name.lexeme cs []
          Exec.newFrame here [("super", .class view)]
      let made ← Exec.newClass c.name.lexeme cs (methodTable frame c.methods)
      Exec.assignNearest c.name (.class made)) m fun _ _ => True := by
  refine Runs.get (fun _ _ => rfl) ?_
  have hscopes := v.toMethods_scopes c
  rw [superclasses_scopes] at hscopes
  -- Only a class with superclasses has a frame of its own around its methods.
  cases cs with
  | nil =>
    have hnone : c.superclasses = [] := List.length_eq_zero_iff.mp hlength.symm
    rw [hnone, List.isEmpty_nil, if_pos rfl] at hscopes
    have haround : (v.toMethods c).around = .receiver c :: v.around := by
      simp [Visit.toMethods, hnone]
    refine bind (R := fun k m' => k = m.current ∧ m' = m) (pure hm ⟨rfl, rfl⟩) ?_
    rintro _ _ _ _ _ ⟨rfl, rfl⟩
    exact runs_makeClass hm hcs (sound_methodTable hlive hscopes haround haligned)
  | cons c' cs =>
    have hsome : c.superclasses.isEmpty = false := by
      cases hsupers : c.superclasses with
      | nil => simp [hsupers] at hlength
      | cons => rfl
    rw [hsome, if_neg Bool.false_ne_true] at hscopes
    have haround : (v.toMethods c).around = .receiver c :: .inheritance c :: v.around := by
      simp [Visit.toMethods, hsome]
    refine bind (newClass hm _ hcs fun f hf => absurd hf List.not_mem_nil) ?_
    rintro view m₁ _ hm₁ hext₁ ⟨hview, hframes⟩
    refine bind (newFrame hm₁ _ _ fun name x hx => ?_) ?_
    · obtain rfl := eq_of_lookup_single hx
      exact hview
    · rintro _ m₂ _ hm₂ hext₂ ⟨rfl, rfl⟩
      have hmade' : S.made m₁.heap.frames.size (.inheritance c) := by
        rw [hframes]
        exact hmade (by simp)
      refine runs_makeClass hm₂ (fun c hc => Sound.mono (hcs c hc) (hext₁.trans hext₂).toKeeps)
        (sound_methodTable hlive hscopes haround ?_)
      exact (haligned.mono hext₁.toKeeps).push hm₁.globals hmade' fun _ => isSome_lookup_single

/-- Declaring a class is served. -/
theorem serves_declareClass (c : ClassDecl) : S.Serves (.declareClass c) := by
  rintro m ⟨ctx, _, w, around⟩ hm ⟨rfl, hat⟩ hrec
  have hsupers := S.live_parts _ hat.live _ List.mem_cons_self
  have hmethods := S.live_parts _ hat.live _ (List.mem_cons_of_mem _ List.mem_cons_self)
  refine bind (serves_lookUpClasses c.superclasses m _ hm
    ⟨c.name, rfl, hsupers, hat.aligned.scopesBut c.name⟩ (hrec.step .superclasses)) ?_
  intro cs m₁ hcs hm₁ hext₁ hgives
  obtain ⟨hlength, hsound⟩ := hgives
  refine bind (define hm₁ c.name.lexeme (show S.Sound m₁ .nil from trivial)) ?_
  intro _ m₂ _ hm₂ hext₂ heq
  -- From here on the name of the class is bound in the current frame.
  have hbound : (m₂.heap.frames.local? m₂.current c.name.lexeme).isSome := by
    rw [heq]
    exact isSome_local?_define hm₁ (hat.mono hext₁).aligned _ _
  have haligned : Aligned S.made m₂ m₂.current
      ((w.declare c.name).define c.name).scopes around :=
    ((hat.mono (hext₁.trans hext₂)).aligned.declare c.name).define c.name hbound
  refine (runs_declareMethods hm₂ hmethods hlength
    (fun c hc => Sound.mono (hsound c hc) hext₂.toKeeps) (fun hne => ?_) haligned).imp ?_
  · have hsize : m₂.heap.frames.size = m₁.heap.frames.size := by
      rw [heq]
      exact Frames.size_define ..
    rw [hsize]
    exact hrec.creates (.inheritance hcs hne)
  · intro _ m₃ _ _ hext₃ _
    have haligned' := haligned.mono hext₃.toKeeps
    rw [← hext₃.current] at haligned'
    have hscopes : (Visit.mk ctx (.class c) w around).after.scopes =
        ((w.declare c.name).define c.name).scopes :=
      Visit.scopes_after_class ⟨ctx, .class c, w, around⟩ c
    show Aligned S.made m₃ m₃.current (Visit.mk ctx (.class c) w around).after.scopes around
    rwa [hscopes]

/-- After a statement that declares no name, the frames match the scopes as before. -/
theorem At.after_plain (h : S.At m v) {s : Stmt} (hpiece : v.piece = .stmt s)
    (hplain : s.isPlain) : Aligned S.made m m.current v.after.scopes v.around := by
  rw [v.scopes_after_plain (S.all_shapely h.live) s hpiece hplain]
  exact h.aligned

/-- A statement that declares no name leaves behind what one of its parts does. -/
theorem At.completes_plain (h : S.At m v) (hext : m.Extends m') {s : Stmt}
    (hpiece : v.piece = .stmt s) (hplain : s.isPlain) {flow : Flow}
    (hflow : S.Completes m' p flow) : S.Completes m' v flow := by
  cases flow with
  | normal => exact (h.mono hext).after_plain hpiece hplain
  | result x => exact hflow

/-- A function that is declared is made before its name is bound, but nothing happens in between. -/
theorem runs_declareFunction (hm : S.Inv m) {ctx : Context} {w : Walk}
    {around : List Construct} {f : FunctionDecl} {name : Token} (hname : f.name = some name)
    (hlive : S.live ⟨ctx, .function f, (w.declare name).define name, around⟩)
    (hknown : S.known ⟨f, m.current, false⟩)
    (haligned : Aligned S.made m m.current w.scopes around) :
    S.Runs (do
      Exec.define f.displayName (← Exec.closure f)
      return Flow.normal) m fun flow m' => flow = .normal ∧
        Aligned S.made m' m'.current ((w.declare name).define name).scopes around := by
  have hdisplay : f.displayName = name.lexeme := by simp [FunctionDecl.displayName, hname]
  rw [hdisplay]
  let value : Value := .function m.heap.nextIdentity ⟨f, m.current, false⟩
  let m' : Machine := { m with
    heap.nextIdentity := m.heap.nextIdentity + 1
    heap.frames := m.heap.frames.define m.current name.lexeme value }
  have hext : m.Extends m' :=
    ⟨(Machine.Keeps.define m m.current name.lexeme value).trans
      (.of_frames_eq rfl rfl (Nat.le_succ _)), rfl, rfl, rfl⟩
  have haligned' : Aligned S.made m' m'.current ((w.declare name).define name).scopes around :=
    ((haligned.mono hext.toKeeps).declare name).define name (isSome_local?_define hm haligned _ _)
  have hvalue : S.Sound m' value := ⟨hknown, _, hlive, rfl, haligned'⟩
  have hholds := (hm.still hext).define m.current name.lexeme hvalue
  exact modifyGet (f := fun m => (Flow.normal, { m with
      heap.nextIdentity := m.heap.nextIdentity + 1
      heap.frames := m.heap.frames.define m.current name.lexeme
        (.function m.heap.nextIdentity ⟨f, m.current, false⟩) }))
    (fun _ => rfl) (hm.extend hext { hholds with }) hext ⟨rfl, haligned'⟩

/-- The statements of a block may run in a frame of their own. -/
theorem At.block {ctx : Context} {ss : List Stmt} {w : Walk} {around : List Construct}
    (h : S.At m ⟨ctx, .stmt (.block ss), w, around⟩) (hm : S.Inv m)
    (hmade : S.made m.heap.frames.size (.block ss)) :
    S.At { m with heap.frames := m.heap.frames.push ⟨[], some m.current⟩
                  current := m.heap.frames.size }
      ⟨ctx, .stmts ss, w.enter [], .block ss :: around⟩ :=
  ⟨S.live_parts _ h.live _ List.mem_cons_self,
    Aligned.mono (h.aligned.push hm.globals hmade fun name hname => absurd hname (by simp))
      (.of_frames_eq rfl rfl (Nat.le_refl _))⟩

section Branches

variable {ctx : Context} {c : Expr} {t e : Stmt} {o : Option Stmt} {w : Walk}
  {around : List Construct}

/-- The machine is at the condition of a branch. -/
theorem At.condition (h : S.At m ⟨ctx, .stmt (.branch c t o), w, around⟩) :
    S.At m ⟨ctx, .expr c, w, around⟩ := by
  cases o <;> exact h.first rfl rfl rfl

/-- The machine is at the first branch. -/
theorem At.thenBranch (h : S.At m ⟨ctx, .stmt (.branch c t o), w, around⟩) :
    S.At m ⟨ctx, .stmt t, walkExpr ctx c w, around⟩ := by
  cases o <;> exact h.second rfl (by simp) rfl

/-- The machine is at the other branch. -/
theorem At.elseBranch (h : S.At m ⟨ctx, .stmt (.branch c t (some e)), w, around⟩) :
    S.At m ⟨ctx, .stmt e, walkStmt ctx t (walkExpr ctx c w), around⟩ := by
  have hplain : t.isPlain := (S.shapely _ h.live).1
  have hscopes := Visit.scopes_after_plain _ (S.all_shapely h.thenBranch.live) t rfl hplain
  exact h.third rfl (hscopes.trans (walkExpr_scopes ctx w c)) rfl

end Branches

/-- The value of a `return` may be evaluated; the statement is not one that scoping objects to. -/
theorem At.resultValue {ctx : Context} {keyword : Token} {e : Expr} {w : Walk}
    {around : List Construct} (h : S.At m ⟨ctx, .stmt (.result keyword (some e)), w, around⟩) :
    ∃ v, v.piece = .expr e ∧ S.At m v := by
  refine ⟨_, rfl, h.first rfl ?_ rfl⟩
  cases ctx with
  | mk body home => cases body <;> rfl

/-- A loop is served with one more unit of budget. -/
theorem serves_loop (h : ∀ e, S.Serves (.evaluate b e)) (hs : ∀ s, S.Serves (.execute b s))
    (hloop : ∀ c s, S.Serves (.loop b c s)) (c : Expr) (s : Stmt) :
    S.Serves (.loop (b + 1) c s) := by
  rintro m ⟨ctx, _, w, around⟩ hm ⟨rfl, hat⟩ hrec
  refine bind (h c m ⟨ctx, .expr c, w, around⟩ hm ⟨rfl, hat.first rfl rfl rfl⟩
    (hrec.step .loopCondition)) ?_
  intro x m₁ hx hm₁ hext₁ _
  split
  · next htruthy =>
    refine bind (hs s m₁ ⟨ctx, .stmt s, walkExpr ctx c w, around⟩ hm₁
      ⟨rfl, (hat.mono hext₁).second rfl (by simp) rfl⟩ (hrec.step (.loopBody hx htruthy))) ?_
    intro flow m₂ hflow hm₂ hext₂ hgives
    cases flow with
    | normal =>
      exact hloop c s m₂ ⟨ctx, .stmt (.loop c s), w, around⟩ hm₂
        ⟨rfl, hat.mono (hext₁.trans hext₂)⟩ (hrec.step (.loopAgain hx htruthy hflow))
    | result y => exact pure hm₂ hgives
  · exact pure hm₁ ((hat.mono hext₁).after_plain rfl rfl)

/-- A statement is served with one more unit of budget. -/
theorem serves_execute (h : ∀ e, S.Serves (.evaluate b e)) (hs : ∀ s, S.Serves (.execute b s))
    (hloop : ∀ c s, S.Serves (.loop b c s)) (s : Stmt) : S.Serves (.execute (b + 1) s) := by
  rintro m ⟨ctx, _, w, around⟩ hm ⟨rfl, hat⟩ hrec
  -- A statement that declares no name leaves the scopes as they were, so the machine may have grown
  -- in any way.
  cases s with
  | expression e =>
    refine bind (h e m ⟨ctx, .expr e, w, around⟩ hm ⟨rfl, hat.first rfl rfl rfl⟩
      (hrec.step .expression)) ?_
    exact fun _ m₁ _ hm₁ hext₁ _ => pure hm₁ ((hat.mono hext₁).after_plain rfl rfl)
  | print e =>
    refine bind (h e m ⟨ctx, .expr e, w, around⟩ hm ⟨rfl, hat.first rfl rfl rfl⟩
      (hrec.step .print)) ?_
    intro x m₁ _ hm₁ hext₁ _
    refine bind (textOf hm₁ x) fun text m₂ _ hm₂ hext₂ _ => ?_
    refine bind (writeLine hm₂ text) fun _ m₃ _ hm₃ hext₃ _ => ?_
    exact pure hm₃ ((hat.mono ((hext₁.trans hext₂).trans hext₃)).after_plain rfl rfl)
  | declare ds =>
    refine bind (serves_declareAll h ds m ⟨ctx, .declarators ds, w, around⟩ hm
      ⟨rfl, hat.first rfl rfl rfl⟩ (hrec.step .declare)) ?_
    exact fun _ m₁ _ hm₁ _ hgives => pure hm₁ hgives
  | block ss =>
    refine get (fun _ _ => rfl) (bind (newFrame hm m.current [] (by simp)) ?_)
    rintro _ m₁ hk hm₁ hext₁ ⟨rfl, rfl⟩
    refine (inFrame (serves_runAll hs ss _ _ (hm₁.moveTo _)
      ⟨rfl, hat.block hm (hrec.creates .block)⟩ (hrec.step (.block hk)))).imp ?_
    intro flow m₂ _ _ hext₂ hgives
    cases flow with
    | normal => exact (hat.mono (hext₁.trans hext₂)).after_plain rfl rfl
    | result x => exact Sound.mono hgives (.of_frames_eq rfl rfl (Nat.le_refl _))
  | branch c t e =>
    refine bind (h c m _ hm ⟨rfl, hat.condition⟩ (hrec.step .condition)) ?_
    intro x m₁ hx hm₁ hext₁ _
    split
    · next htruthy =>
      refine (hs t m₁ _ hm₁ ⟨rfl, hat.thenBranch.mono hext₁⟩
        (hrec.step (.thenBranch hx htruthy))).imp ?_
      exact fun flow m₂ _ _ hext₂ hgives => hat.completes_plain (hext₁.trans hext₂) rfl rfl hgives
    · next hfalsy =>
      cases e with
      | none => exact pure hm₁ ((hat.mono hext₁).after_plain rfl rfl)
      | some e =>
        refine (hs e m₁ _ hm₁ ⟨rfl, hat.elseBranch.mono hext₁⟩
          (hrec.step (.elseBranch hx (Bool.not_eq_true _ ▸ hfalsy)))).imp ?_
        exact fun flow m₂ _ _ hext₂ hgives =>
          hat.completes_plain (hext₁.trans hext₂) rfl rfl hgives
  | loop c s =>
    exact hloop c s m ⟨ctx, .stmt (.loop c s), w, around⟩ hm ⟨rfl, hat⟩ (hrec.step .loop)
  | function f =>
    obtain ⟨name, hname⟩ := Option.isSome_iff_exists.mp (S.shapely _ hat.live)
    obtain ⟨_, keyword, params, body⟩ := f
    obtain rfl := hname
    have hlive := S.live_parts _ hat.live _ List.mem_cons_self
    refine (runs_declareFunction hm rfl hlive (hrec.makes .declared) hat.aligned).imp ?_
    rintro flow m₁ _ _ _ ⟨rfl, haligned⟩
    show Aligned S.made m₁ m₁.current (walkFunction _ _ ((w.declare name).define name)).scopes
      around
    rwa [walkFunction_scopes]
  | result keyword e =>
    cases e with
    | none => exact pure hm (show S.Sound m .nil from trivial)
    | some e =>
      obtain ⟨v, hv⟩ := hat.resultValue
      refine bind (h e m v hm hv (hrec.step .result)) ?_
      exact fun x m₁ _ hm₁ _ hsound => pure hm₁ hsound
  | «class» c =>
    refine bind (serves_declareClass c m ⟨ctx, .class c, w, around⟩ hm
      ⟨rfl, hat.first rfl rfl rfl⟩ (hrec.step .declareClass)) ?_
    exact fun _ m₁ _ hm₁ _ hgives => pure hm₁ hgives

/-- With every budget, expressions, statements and loops do what they have to. -/
theorem serves_budget (b : Nat) :
    (∀ e, S.Serves (.evaluate b e)) ∧ (∀ s, S.Serves (.execute b s)) ∧
      ∀ c s, S.Serves (.loop b c s) := by
  -- A task with some budget starts only tasks with less, or tasks that recur on their own
  -- arguments.
  induction b with
  | zero =>
    exact ⟨fun _ _ _ hm _ _ => throw hm _, fun _ _ _ hm _ _ => throw hm _,
      fun _ _ _ _ hm _ _ => throw hm _⟩
  | succ b ih =>
    obtain ⟨h, hs, hloop⟩ := ih
    have hcall := serves_call (serves_callFunction (serves_runAll hs))
    exact ⟨serves_evaluate h hcall, serves_execute h hs hloop, serves_loop h hs hloop⟩

/-- Every task does what it has to wherever it may start. -/
theorem serves (t : Task) : S.Serves t := by
  have h := fun b => (serves_budget (S := S) b).1
  have hs := fun b => (serves_budget (S := S) b).2.1
  have hcalls := fun b => serves_callFunction (serves_runAll (hs b))
  cases t with
  | evaluate b e => exact h b e
  | evaluateAll b es => exact serves_evaluateAll (h b) es
  | evaluateEntries b es fields => exact serves_evaluateEntries (h b) es fields
  | call b callee vs paren => exact serves_call (hcalls b) callee vs paren
  | instantiate b c vs => exact serves_instantiate (hcalls b) c vs
  | callFunction b f vs => exact hcalls b f vs
  | bind method receiver => exact serves_bind method receiver
  | execute b s => exact hs b s
  | runAll b ss => exact serves_runAll (hs b) ss
  | loop b c s => exact (serves_budget b).2.2 c s
  | declareAll b ds => exact serves_declareAll (h b) ds
  | declareClass c => exact serves_declareClass c
  | lookUpClasses xs => exact serves_lookUpClasses xs

end Setting

end Lox.Eval

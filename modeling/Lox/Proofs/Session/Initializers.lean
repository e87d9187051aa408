import Lox.Proofs.Eval.Completions
import Lox.Proofs.Session.FrameForest

/-!
# Results and initializers

A `return` ends the call around it and nothing else: a statement of a program that is performed
completes normally or fails. An initializer gives back the object to which it was bound. Its body
was visited as that of an initializer, since only methods with the name `init` are made as such, and
a function in whose frame `this` is bound was visited within a class. So its body completes normally
or with `nil`, and the frame of its receiver still holds the object then. A class that is called
makes an object, and gives it back.
-/

namespace Lox

open Scoping Eval

/-- The frames around a frame are not later ones. -/
theorem Frames.le_of_ancestor? {fs : Frames}
    (hearlier : ∀ k outer, fs.enclosing? k = some outer → outer < k) {k k' : FrameId} {n : Nat}
    (h : fs.ancestor? k n = some k') : k' ≤ k := by
  induction n generalizing k with
  | zero => exact Nat.le_of_eq (Option.some.inj h).symm
  | succ n ih =>
    obtain ⟨outer, houter, h⟩ := Option.bind_eq_some_iff.mp h
    exact Nat.le_trans (ih h) (Nat.le_of_lt (hearlier k outer houter))

namespace Scoping

/-- Around a statement or an expression, the innermost construct is not the binding of `this`. -/
theorem Nest.ne_receiver {home : Home} {cs around : List Construct} {scopes : List Scope}
    (h : Nest home cs scopes) (c : ClassDecl) : cs ≠ .receiver c :: around := by
  cases h <;> simp

/-- Around a method, the innermost construct is the binding of `this`. -/
theorem ClassNest.eq_receiver {c : ClassDecl} {home : Home} {cs : List Construct}
    {scopes : List Scope} (h : ClassNest c home cs scopes) :
    ∃ around, cs = .receiver c :: around := by
  cases h <;> exact ⟨_, rfl⟩

namespace Visit

/-- A method is visited as what its name says. -/
def Bodied (v : Visit) : Prop :=
  match v.piece with
  | .function f => ∀ c around, v.around = .receiver c :: around → v.ctx.body = .ofMethod f
  | _ => True

/-- The parts of a visit that is in order are visited as what they are. -/
theorem bodied_parts {v : Visit} (hv : v.Nested) : ∀ p ∈ v.parts, p.Bodied := by
  obtain ⟨ctx, piece, w, around⟩ := v
  cases piece with
  | expr e =>
    have hnest : Nest ctx.home around w.scopes := hv
    cases e with
    | function f => simp [parts, exprParts, toFunction, Bodied, hnest.ne_receiver]
    | _ => simp [parts, exprParts, Bodied]
  | stmt s =>
    have hnest : Nest ctx.home around w.scopes := hv
    cases s with
    | function f => simp [parts, stmtParts, toFunction, Bodied, hnest.ne_receiver]
    | branch c t e => cases e <;> simp [parts, stmtParts, Bodied]
    | result keyword e => cases e <;> simp [parts, stmtParts, Bodied]
    | _ => simp [parts, stmtParts, Bodied]
  | methods fs =>
    -- The kind of the body is chosen where a method is visited.
    cases fs <;> simp [parts, toFunction, Bodied]
  | exprs es => cases es <;> simp [parts, Bodied]
  | entries es => obtain _ | ⟨⟨key, e⟩, es⟩ := es <;> simp [parts, Bodied]
  | declarators ds => obtain _ | ⟨⟨name, _ | e⟩, ds⟩ := ds <;> simp [parts, Bodied]
  | superclasses name xs => cases xs <;> simp [parts, Bodied]
  | stmts ss => cases ss <;> simp [parts, Bodied]
  | _ => simp [parts, Bodied]

end Visit

end Scoping

namespace Session

variable {s : Session} {sink : Sink} {clock : Clock} {turns : List Turn} {v : Visit}
  {m : Machine} {b : Nat}

/-- A visited method is visited as what its name says. -/
theorem bodied_of_visited (hturns : ∀ t ∈ turns, t.Spelled) (h : s.Visited turns v) : v.Bodied := by
  refine h.of_jobs fun s t j ht hj v hv => ?_
  obtain rfl | ⟨v', hv', hpart⟩ := hv.cases_tail
  · cases j <;> trivial
  · have hvisited : s.Visited [t] v' := .inl ⟨j, hj, hv'⟩
    refine Visit.bodied_parts (nested_of_visited ?_ hvisited) v hpart
    simpa using hturns t ht

/-! ## Results -/

/-- The moments with which the parts of jobs start that are performed in some turns. -/
def Starts (s : Session) : List Turn → Moment → Prop
  | [], _ => False
  | t :: ts, μ =>
    (∃ j ∈ s.accepted? t, μ ∈ (s.machine.prepare j).jobStarts t.budget j) ∨
      (s.turn t).1.Starts ts μ

/-- Statements in order that are visited without a violation complete normally at the top level. -/
theorem ends_normally {st : Stmt} {ss : List Stmt} (hst : st ∈ ss) {w : Walk}
    (hclean : (Visit.mk {} (.stmts ss) w []).after.violations = []) :
    Exec.Ends (· = .normal) (execute b st) := by
  induction ss generalizing w with
  | nil => contradiction
  | cons s ss ih =>
    have hparts := Visit.clean_parts hclean
    simp only [Visit.parts, List.forall_mem_cons] at hparts
    obtain rfl | hst := List.mem_cons.mp hst
    · exact ends_execute hparts.1 b
    · exact ih hst hparts.2.1

/-- A statement of a program that is performed completes normally or fails. -/
theorem Starts.ends_normally {st : Stmt} (h : s.Starts turns ⟨.execute b st, m⟩) :
    Exec.Ends (· = .normal) (execute b st) := by
  induction turns generalizing s with
  | nil => exact False.elim h
  | cons t turns ih =>
    obtain ⟨j, hj, hstart⟩ | h := h
    · obtain ⟨_, _, _, hclean⟩ := accepted?_eq_some_iff.mp hj
      cases j with
      | program ss =>
        obtain ⟨_, hst, htask⟩ := Machine.exists_of_mem_starts hstart
        cases htask
        exact Session.ends_normally hst (List.isEmpty_iff.mp hclean)
      | expression e => simp [Machine.jobStarts] at hstart
    · exact ih h

/-! ## Initializers -/

/-- The body of an initializer completes normally or with `nil`. -/
theorem ends_initializer (hturns : ∀ t ∈ turns, t.Spelled) {f : Lox.Function} {vs : List Value}
    (hμ : (start sink clock).Reaches turns ⟨.callFunction b f vs, m⟩)
    (hinit : f.isInitializer = true) :
    Exec.Ends Body.initializer.Allows (runAll (execute b) f.decl.body) := by
  obtain ⟨S, hmade, hknown, hseen, hgood⟩ := hμ.good
  obtain ⟨_, ⟨hf, ⟨ctx, _, w, around⟩, hlive, rfl, haligned⟩, _⟩ := hgood.ready
  obtain ⟨method, receiver, m₀, m₀', hμ₀, hbind, hdecl, hhas⟩ :=
    bound_of_makes hturns (hknown ▸ hf) (.inl hinit)
  -- The function lies within the frame of its receiver, so it was visited as a method.
  have hvisited := hseen _ hlive
  obtain hnest | ⟨c, _, hclass⟩ := nested_of_visited hturns hvisited
  · have hnone := local?_aligned_eq_none hturns hμ (hmade ▸ haligned) hnest (.inl rfl)
    rw [hhas.reserved "this" (.inl rfl)] at hnone
    contradiction
  have hbody : ctx.body = .ofMethod f.decl := by
    have hbodied := bodied_of_visited hturns hvisited
    obtain ⟨outer, haround⟩ := hclass.eq_receiver
    exact hbodied c outer haround
  -- A method that is an initializer has its name.
  obtain ⟨S₀, _, _, _, hgood₀⟩ := hμ₀.good
  obtain ⟨_, ⟨hflag, _⟩, _⟩ := hgood₀.ready
  have hsame : f.isInitializer = method.isInitializer := by
    cases hbind
    rfl
  have hname : f.decl.displayName = "init" := by
    rw [← hsame, hinit, hdecl] at hflag
    exact (beq_iff_eq.mp hflag.symm)
  have hends := ends_body (clean_of_visited hvisited) b
  rwa [hbody, Body.ofMethod, if_pos hname] at hends

/-- The frame of a bound method is the one that is made for its receiver, and a call of it comes
later. -/
theorem frame_lt_of_call {method bound : Lox.Function} {receiver : Value} {m₀ m₀' : Machine}
    (hbind : Exec.bind method receiver m₀ = .ok bound m₀') {vs : List Value}
    (hμ : (start sink clock).Reaches turns ⟨.callFunction b bound vs, m⟩) :
    m₀.heap.frames.size < m.heap.frames.size := by
  obtain ⟨S, _, _, _, hgood⟩ := hμ.good
  obtain ⟨_, ⟨_, _, _, _, haligned⟩, _⟩ := hgood.ready
  have hframe : bound.frame = m₀.heap.frames.size := by
    cases hbind
    rfl
  exact hframe ▸ hgood.inv.lt_size haligned

/-- What an inherited method is bound to, the method around it was bound to before. -/
theorem receives_of_superMethod (hturns : ∀ t ∈ turns, t.Spelled) {x : Reference} {name : Token}
    {distance : Nat} {view : Class} {receiver : Value} {method : Lox.Function}
    (hμ : (start sink clock).Reaches turns ⟨.evaluate (b + 1) (.super x name), m⟩)
    (hx : m.distances.find? x.id = some distance)
    (hview : Exec.getAt distance x.name m = .ok (.class view) m)
    (hreceiver : Exec.getAt (distance - 1) { x.name with lexeme := "this" } m = .ok receiver m)
    (hmethod : findInherited name.lexeme view.superclasses = some method) :
    ∃ v c around, (start sink clock).Receives turns v m c around receiver := by
  obtain ⟨v, c, around, receiver', cs, m₀, m₁, _, _, hreceives, _, _, _, heval⟩ :=
    evaluate_super hturns hμ
  refine ⟨v, c, around, ?_⟩
  have hrun : evaluate (b + 1) (.super x name) m = _ := getInherited_eq hx hview hreceiver
  rw [heval, hmethod] at hrun
  cases hinherited : findInherited name.lexeme cs with
  | none =>
    rw [hinherited] at hrun
    contradiction
  | some inherited =>
    rw [hinherited] at hrun
    -- The frames that are made last bind `this` to one and the same value.
    have hframes := congrArg (fun r => (final r).heap.frames.local? m.heap.frames.size "this") hrun
    simp only [final, Frames.local?_push, if_true, List.lookup_cons_self, Option.some.injEq]
      at hframes
    exact hframes ▸ hreceives

/-- Methods are bound to objects. By induction on the frames that exist: the receiver of an
inherited method is that of the method around it, whose frame is an earlier one. -/
theorem object_of_bind (hturns : ∀ t ∈ turns, t.Spelled) {method : Lox.Function} {receiver : Value}
    (hμ : (start sink clock).Reaches turns ⟨.bind method receiver, m⟩) :
    ∃ id, receiver = .object id := by
  induction hsize : m.heap.frames.size using Nat.strong_induction_on generalizing m method with
  | _ size ih =>
  -- A method is bound where a property is read, where an inherited method is, or where an object is
  -- made.
  obtain ⟨_, _, htask⟩ | ⟨_, _, htask⟩ | ⟨μ, hreached, hcall⟩ := hμ.cases_last
  · contradiction
  · contradiction
  cases hcall with
  | @getMethod _ _ _ v object _ _ _ _ hobject _ _ =>
    cases receiver with
    | object id => exact ⟨id, rfl⟩
    | _ => cases hobject
  | superMethod hx hview hreceiver hmethod =>
    obtain ⟨v, c, around, hreceives⟩ :=
      receives_of_superMethod hturns hreached hx hview hreceiver hmethod
    obtain ⟨inner, _, _, bound, m₀, m₀', _, _, m₁, hμ₀, hbind, hcalled, hancestor⟩ := hreceives.call
    have hpasses : (start sink clock).Passes turns m := .starts hμ
    have hlt : m₁.heap.frames.size < m.heap.frames.size :=
      Nat.lt_of_le_of_lt (Frames.le_of_ancestor? hpasses.forest.earlier hancestor)
        hpasses.current_lt
    exact ih _ (hsize ▸ Nat.lt_trans (frame_lt_of_call hbind hcalled) hlt) hμ₀ rfl
  | bindInit _ hobject =>
    cases hobject
    exact ⟨_, rfl⟩

/-- An object is made, and set up by the initializer of its class. -/
theorem newObject_of_instantiate {c : Class} {vs : List Value} {x : Value} {m' : Machine}
    (h : instantiate (execute b) c vs m = .ok x m') :
    ∃ m₁, Exec.newObject { cls := c } m = .ok x m₁ ∧
      ∀ init, c.findMethod "init" = some init → ∃ bound m₂ y,
        Exec.bind init x m₁ = .ok bound m₂ ∧ callFunction (execute b) bound vs m₂ = .ok y m' := by
  obtain ⟨object, m₁, hobject⟩ : ∃ object m₁, Exec.newObject { cls := c } m = .ok object m₁ :=
    ⟨_, _, rfl⟩
  unfold instantiate at h
  rw [Exec.bind_of_ok hobject] at h
  cases hinit : c.findMethod "init" with
  | none =>
    rw [hinit] at h
    cases h
    exact ⟨_, hobject, by simp⟩
  | some init =>
    rw [hinit] at h
    obtain ⟨bound, m₂, hbound⟩ : ∃ bound m₂, Exec.bind init object m₁ = .ok bound m₂ :=
      ⟨_, _, rfl⟩
    dsimp only at h
    rw [Exec.bind_of_ok hbound] at h
    cases hcall : callFunction (execute b) bound vs m₂ with
    | error failure m₃ =>
      rw [Exec.bind_of_error hcall] at h
      contradiction
    | ok y m₃ =>
      rw [Exec.bind_of_ok hcall] at h
      cases h
      refine ⟨m₁, hobject, fun init' hinit' => ⟨bound, m₂, y, ?_, hcall⟩⟩
      exact Option.some.inj hinit' ▸ hbound

/-- A class is called with the right number of arguments, and then makes an object. -/
theorem instantiate_of_call {c : Class} {vs : List Value} {paren : Token} {x : Value} {m' : Machine}
    (h : call (execute b) (.class c) vs paren m = .ok x m') :
    instantiate (execute b) c vs m = .ok x m' := by
  have hcall : (if c.arity ≠ vs.length then do
      Exec.fail paren (.arity c.arity vs.length)
      instantiate (execute b) c vs
    else instantiate (execute b) c vs) m = .ok x m' := h
  split at hcall
  · have hfail : (Exec.fail paren (.arity c.arity vs.length) : Exec PUnit) m =
        .error (.program paren.line (.arity c.arity vs.length)) m := rfl
    rw [Exec.bind_of_error hfail] at hcall
    contradiction
  · exact hcall

/-- A `return` ends a call and nothing else, and initializers give their objects, whatever the clock
shows and the output takes. A statement of a program that is performed completes normally or fails.
The body of an initializer that is called completes normally, with `nil`, or fails. If it does not
fail, the receiver is found in its frame, and the call gives the object to which the initializer was
bound. A class that is called gives the object that it makes, whatever the initializer does with it.
-/
theorem results_end_calls (sink : Sink) (clock : Clock) (turns : List Turn)
    (hturns : ∀ t ∈ turns, t.Spelled) :
    let reached := (start sink clock).Reaches turns
    (∀ b st m, (start sink clock).Starts turns ⟨.execute b st, m⟩ →
      ∀ flow m', execute b st m = .ok flow m' → flow = .normal) ∧
    (∀ b f vs m, reached ⟨.callFunction b f vs, m⟩ → f.isInitializer = true →
      ∃ method id m₀ m₀', reached ⟨.bind method (.object id), m₀⟩ ∧
        Exec.bind method (.object id) m₀ = .ok f m₀' ∧
        match (do
            let frame ← Exec.newFrame f.frame (bindParameters f.decl.params vs)
            Exec.inFrame frame (runAll (execute b) f.decl.body)) m with
        | .ok flow m' =>
          (flow = .normal ∨ flow = .result .nil) ∧
            Exec.getFrom (m'.heap.frames.holderAt? f.frame 0 "this")
              { f.decl.keyword with lexeme := "this" } m' = .ok (.object id) m' ∧
            callFunction (execute b) f vs m = .ok (.object id) m'
        | .error failure m' => callFunction (execute b) f vs m = .error failure m') ∧
    (∀ b c vs paren m x m', call (execute b) (.class c) vs paren m = .ok x m' →
      ∃ m₁, Exec.newObject { cls := c } m = .ok x m₁ ∧
        ∀ init, c.findMethod "init" = some init → ∃ bound m₂ y,
          Exec.bind init x m₁ = .ok bound m₂ ∧
          callFunction (execute b) bound vs m₂ = .ok y m') := by
  refine ⟨fun b st m h flow m' => h.ends_normally m flow m', fun b f vs m hμ hinit => ?_,
    fun b c vs paren m x m' h => newObject_of_instantiate (instantiate_of_call h)⟩
  obtain ⟨method, receiver, m₀, m₀', hμ₀, hbind, hcall⟩ :=
    callFunction_initializer hturns hμ hinit
  obtain ⟨id, rfl⟩ := object_of_bind hturns hμ₀
  refine ⟨method, id, m₀, m₀', hμ₀, hbind, ?_⟩
  have hends := Exec.Ends.next (x := Exec.newFrame f.frame (bindParameters f.decl.params vs))
    fun k => (ends_initializer hturns hμ hinit).inFrame k
  have hlookup := callFunction_eq_getFrom (b := b) (m := m) hinit vs
  split
  · next flow m' hbody =>
    rw [hbody] at hcall hlookup
    exact ⟨hends m flow m' hbody, hlookup.symm.trans hcall, hcall⟩
  · next failure m' hbody =>
    rw [hbody] at hcall
    exact hcall

open Grammar (mark word)

/-- The tokens of `class A { init() { return; } } A();`. -/
def setterTokens : List Token :=
  [mark .kwClass, word "A", mark .leftBrace, word "init", mark .leftParen, mark .rightParen,
    mark .leftBrace, mark .kwReturn, mark .semicolon, mark .rightBrace, mark .rightBrace, word "A",
    mark .leftParen, mark .rightParen, mark .semicolon]

/-- The statement that declares the class. -/
def setterClass : Stmt :=
  .class ⟨word "A", [], [⟨some (word "init"), word "init", [], [.result (mark .kwReturn) none]⟩]⟩

/-- The statement that makes an object. -/
def setterUse : Stmt :=
  .expression (.call (.reference ⟨0, word "A"⟩) (mark .rightParen) [])

/-- The statements that are parsed from `setterTokens`. -/
def setterProgram : List Stmt :=
  [setterClass, setterUse]

/-- The tokens of the setter are derived. -/
theorem derives_setterTokens : Grammar.Derives .declarations setterTokens 0 setterProgram 1 := by
  have hresult : Grammar.Derives .declaration (mark .kwReturn :: [] ++ [mark .semicolon]) 0 _ 0 :=
    .statement (.result rfl .absent rfl)
  have hbody : Grammar.Derives .block (mark .leftBrace :: (_ ++ []) ++ [mark .rightBrace]) 0 _ 0 :=
    .block rfl (.moreDeclarations hresult .noDeclarations) rfl
  have hinit : Grammar.Derives .function
      (word "init" :: mark .leftParen :: [] ++ mark .rightParen :: _) 0 _ 0 :=
    .function rfl rfl .noParameters rfl hbody
  have hclass : Grammar.Derives .declaration (mark .kwClass :: word "A" :: [] ++ mark .leftBrace ::
      (_ ++ []) ++ [mark .rightBrace]) 0 _ 0 :=
    .classDeclaration rfl rfl .noSuperclasses rfl (.moreMethods hinit .noMethods) rfl
  have huse : Grammar.Derives .declaration
      ([word "A"] ++ mark .leftParen :: [] ++ [mark .rightParen] ++ [mark .semicolon]) 0 _ 1 :=
    .statement (.expression (.terminated (.expression_of_call
      (.call (.bare (.reference rfl)) rfl .noArguments rfl)) rfl) (by simp [word]))
  have hall : Grammar.Derives .declarations _ 0 _ 1 :=
    .moreDeclarations hclass (.moreDeclarations huse .noDeclarations)
  exact hall

section Run

-- Global names are found along the chain of frames, and that search is evaluated here.
attribute [local semireducible] Frames.holder?

/-- The initializer is called, and its body completes with `nil`. -/
theorem reaches_setter : ∃ m f m₁ m₂,
    (start {} {}).Starts [.tokens 9 (setterTokens ++ [mark .eof])] ⟨.execute 9 setterUse, m⟩ ∧
    (start {} {}).Reaches [.tokens 9 (setterTokens ++ [mark .eof])] ⟨.callFunction 7 f [], m₁⟩ ∧
    f.isInitializer = true ∧
    (do
      let frame ← Exec.newFrame f.frame (bindParameters f.decl.params [])
      Exec.inFrame frame (runAll (execute 7) f.decl.body)) m₁ = .ok (.result .nil) m₂ := by
  have hread : (start {} {}).readTokens (setterTokens ++ [mark .eof]) =
      ⟨0, 1, .ok (.program setterProgram)⟩ := by
    have hparse : Grammar.parse (setterTokens ++ [mark .eof]) 0 = _ :=
      derives_setterTokens.parse_eq (by decide) rfl
    simp [readTokens, start, hparse]
  have haccepted : (start {} {}).accepted? (.tokens 9 (setterTokens ++ [mark .eof])) =
      some (.program setterProgram) :=
    accepted?_eq_some_iff.mpr ⟨_, congrArg some hread, rfl, by decide⟩
  have hmake : Moment.Reaches ⟨.execute 9 setterUse,
      (((Machine.start {} {}).prepare (.program setterProgram)).runTop 9 setterClass).1⟩ _ :=
    ((Relation.ReflTransGen.single .expression).tail (.call rfl rfl)).tail (.callClass rfl)
  have hcall : Moment.Reaches _ _ := hmake.tail (.callInit rfl rfl rfl)
  have hstart : _ ∈ ((Machine.start {} {}).prepare (.program setterProgram)).jobStarts 9
      (.program setterProgram) := List.mem_cons_of_mem _ List.mem_cons_self
  exact ⟨_, _, _, _, .inl ⟨_, haccepted, hstart⟩, .inl ⟨_, haccepted, _, hstart, hcall⟩, rfl, rfl⟩

end Run

/-- An initializer that returns early gives its object. -/
theorem early_return_in_initializer : ∃ m f m₁,
    (∀ t ∈ [Turn.tokens 9 (setterTokens ++ [mark .eof])], t.Spelled) ∧
    (start {} {}).Starts [.tokens 9 (setterTokens ++ [mark .eof])] ⟨.execute 9 setterUse, m⟩ ∧
    (∀ flow m', execute 9 setterUse m = .ok flow m' → flow = .normal) ∧
    (start {} {}).Reaches [.tokens 9 (setterTokens ++ [mark .eof])] ⟨.callFunction 7 f [], m₁⟩ ∧
    f.isInitializer = true ∧ ∃ id m', callFunction (execute 7) f [] m₁ = .ok (.object id) m' := by
  have hspelled : ∀ t ∈ [Turn.tokens 9 (setterTokens ++ [mark .eof])], t.Spelled := by
    simp only [List.mem_singleton, forall_eq, Turn.Spelled]
    decide
  obtain ⟨hnormal, hinitializers, -⟩ := results_end_calls {} {} _ hspelled
  obtain ⟨m, f, m₁, m₂, hstarts, hreaches, hinit, hbody⟩ := reaches_setter
  refine ⟨m, f, m₁, hspelled, hstarts, hnormal 9 _ m hstarts, hreaches, hinit, ?_⟩
  obtain ⟨_, id, _, _, _, _, hcall⟩ := hinitializers 7 f [] m₁ hreaches hinit
  rw [hbody] at hcall
  exact ⟨id, m₂, hcall.2.2⟩

end Session

end Lox

import Lox.Eval
import Lox.Proofs.Scoping.Visits

/-!
# Moments of a run

A run of a program is made of tasks: an expression is evaluated, a statement is executed, a function
is called, and so on. A `Moment` is a task together with the machine on which it starts. `Calls`
says which moments a moment leads to directly, one rule for each place where the evaluator goes on
to a smaller task; its premises say how the tasks before that place ended. `Reaches` is the closure
of `Calls`: all that happens within a moment. `Creates` names the frame that is made at a moment and
the construct it is made for.
-/

namespace Lox.Eval

open Exec Scoping

/-- A task of the evaluator. -/
inductive Task where
  /-- An expression is evaluated. -/
  | evaluate (budget : Nat) (e : Expr)
  /-- Expressions are evaluated in order. -/
  | evaluateAll (budget : Nat) (es : List Expr)
  /-- Entries are evaluated in order, after those that gave the fields. -/
  | evaluateEntries (budget : Nat) (es : List Entry) (fields : Bindings)
  /-- A value is called. -/
  | call (budget : Nat) (callee : Value) (arguments : List Value) (paren : Token)
  /-- An object is made and set up. -/
  | instantiate (budget : Nat) (c : Class) (arguments : List Value)
  /-- A function is called. -/
  | callFunction (budget : Nat) (f : Function) (arguments : List Value)
  /-- A method is bound to its receiver. -/
  | bind (method : Function) (receiver : Value)
  /-- A statement is executed. -/
  | execute (budget : Nat) (s : Stmt)
  /-- Statements are executed in order. -/
  | runAll (budget : Nat) (ss : List Stmt)
  /-- A loop is run from its condition on. -/
  | loop (budget : Nat) (c : Expr) (s : Stmt)
  /-- Variables are declared in order. -/
  | declareAll (budget : Nat) (ds : List Declarator)
  /-- A class is declared. -/
  | declareClass (c : ClassDecl)
  /-- The superclasses of a class are looked up in order. -/
  | lookUpClasses (xs : List Reference)

/-- What a task gives back. -/
@[reducible] def Task.Result : Task → Type
  | .evaluate .. | .call .. | .instantiate .. | .callFunction .. => Value
  | .evaluateAll .. => List Value
  | .evaluateEntries .. => Bindings
  | .bind .. => Function
  | .execute .. | .runAll .. | .loop .. => Flow
  | .declareAll .. | .declareClass .. => Unit
  | .lookUpClasses .. => List Class

/-- How a task is run. -/
def Task.run : (t : Task) → Exec t.Result
  | .evaluate b e => Eval.evaluate b e
  | .evaluateAll b es => Eval.evaluateAll (Eval.evaluate b) es
  | .evaluateEntries b es fields => Eval.evaluateEntries (Eval.evaluate b) es fields
  | .call b callee arguments paren => Eval.call (Eval.execute b) callee arguments paren
  | .instantiate b c arguments => Eval.instantiate (Eval.execute b) c arguments
  | .callFunction b f arguments => Eval.callFunction (Eval.execute b) f arguments
  | .bind method receiver => Exec.bind method receiver
  | .execute b s => Eval.execute b s
  | .runAll b ss => Eval.runAll (Eval.execute b) ss
  | .loop b c s => Eval.loop b c s
  | .declareAll b ds => Eval.declareAll (Eval.evaluate b) ds
  | .declareClass c => Eval.declareClass c
  | .lookUpClasses xs => Eval.lookUpClasses xs

/-- A moment of a run: a task that starts on a machine. -/
structure Moment where
  /-- The task. -/
  task : Task
  /-- The machine on which it starts. -/
  machine : Machine

/-- A moment leads directly to another one. -/
inductive Calls : Moment → Moment → Prop
  -- Expressions.
  | grouping {b : Nat} {e : Expr} {m : Machine} :
      Calls ⟨.evaluate (b + 1) (.grouping e), m⟩ ⟨.evaluate b e, m⟩
  | unary {b : Nat} {op : Token} {r : Expr} {m : Machine} :
      Calls ⟨.evaluate (b + 1) (.unary op r), m⟩ ⟨.evaluate b r, m⟩
  | binaryLeft {b : Nat} {l r : Expr} {op : Token} {m : Machine} :
      Calls ⟨.evaluate (b + 1) (.binary l op r), m⟩ ⟨.evaluate b l, m⟩
  | binaryRight {b : Nat} {l r : Expr} {op : Token} {v : Value} {m m₁ : Machine}
      (hl : evaluate b l m = .ok v m₁) :
      Calls ⟨.evaluate (b + 1) (.binary l op r), m⟩ ⟨.evaluate b r, m₁⟩
  | logicalLeft {b : Nat} {l r : Expr} {op : Token} {m : Machine} :
      Calls ⟨.evaluate (b + 1) (.logical l op r), m⟩ ⟨.evaluate b l, m⟩
  | logicalRight {b : Nat} {l r : Expr} {op : Token} {v : Value} {m m₁ : Machine}
      (hl : evaluate b l m = .ok v m₁) (hv : decides op v = false) :
      Calls ⟨.evaluate (b + 1) (.logical l op r), m⟩ ⟨.evaluate b r, m₁⟩
  | assign {b : Nat} {x : Reference} {e : Expr} {m : Machine} :
      Calls ⟨.evaluate (b + 1) (.assign x e), m⟩ ⟨.evaluate b e, m⟩
  | callee {b : Nat} {f : Expr} {paren : Token} {es : List Expr} {m : Machine} :
      Calls ⟨.evaluate (b + 1) (.call f paren es), m⟩ ⟨.evaluate b f, m⟩
  | arguments {b : Nat} {f : Expr} {paren : Token} {es : List Expr} {v : Value} {m m₁ : Machine}
      (hf : evaluate b f m = .ok v m₁) :
      Calls ⟨.evaluate (b + 1) (.call f paren es), m⟩ ⟨.evaluateAll b es, m₁⟩
  | call {b : Nat} {f : Expr} {paren : Token} {es : List Expr} {v : Value} {vs : List Value}
      {m m₁ m₂ : Machine} (hf : evaluate b f m = .ok v m₁)
      (hes : evaluateAll (evaluate b) es m₁ = .ok vs m₂) :
      Calls ⟨.evaluate (b + 1) (.call f paren es), m⟩ ⟨.call b v vs paren, m₂⟩
  | getObject {b : Nat} {o : Expr} {name : Token} {m : Machine} :
      Calls ⟨.evaluate (b + 1) (.get o name), m⟩ ⟨.evaluate b o, m⟩
  | getMethod {b : Nat} {o : Expr} {name : Token} {v : Value} {object : Object}
      {method : Function} {m m₁ : Machine} (ho : evaluate b o m = .ok v m₁)
      (hobject : object? v m₁ = .ok (some object) m₁)
      (hfield : object.fields.lookup name.lexeme = none)
      (hmethod : object.cls.findMethod name.lexeme = some method) :
      Calls ⟨.evaluate (b + 1) (.get o name), m⟩ ⟨.bind method v, m₁⟩
  | setObject {b : Nat} {o e : Expr} {name : Token} {m : Machine} :
      Calls ⟨.evaluate (b + 1) (.set o name e), m⟩ ⟨.evaluate b o, m⟩
  | setValue {b : Nat} {o e : Expr} {name : Token} {id : ObjectId} {m m₁ : Machine}
      (ho : evaluate b o m = .ok (.object id) m₁) :
      Calls ⟨.evaluate (b + 1) (.set o name e), m⟩ ⟨.evaluate b e, m₁⟩
  | indexObject {b : Nat} {o k : Expr} {bracket : Token} {m : Machine} :
      Calls ⟨.evaluate (b + 1) (.index o bracket k), m⟩ ⟨.evaluate b o, m⟩
  | indexKey {b : Nat} {o k : Expr} {bracket : Token} {v : Value} {m m₁ : Machine}
      (ho : evaluate b o m = .ok v m₁) :
      Calls ⟨.evaluate (b + 1) (.index o bracket k), m⟩ ⟨.evaluate b k, m₁⟩
  | setIndexObject {b : Nat} {o k e : Expr} {bracket : Token} {m : Machine} :
      Calls ⟨.evaluate (b + 1) (.setIndex o bracket k e), m⟩ ⟨.evaluate b o, m⟩
  | setIndexKey {b : Nat} {o k e : Expr} {bracket : Token} {v : Value} {m m₁ : Machine}
      (ho : evaluate b o m = .ok v m₁) :
      Calls ⟨.evaluate (b + 1) (.setIndex o bracket k e), m⟩ ⟨.evaluate b k, m₁⟩
  | setIndexValue {b : Nat} {o k e : Expr} {bracket : Token} {v key : Value} {m m₁ m₂ : Machine}
      (ho : evaluate b o m = .ok v m₁) (hk : evaluate b k m₁ = .ok key m₂) :
      Calls ⟨.evaluate (b + 1) (.setIndex o bracket k e), m⟩ ⟨.evaluate b e, m₂⟩
  | superMethod {b : Nat} {x : Reference} {name : Token} {distance : Nat} {view : Class}
      {receiver : Value} {method : Function} {m : Machine}
      (hx : m.distances.find? x.id = some distance)
      (hview : getAt distance x.name m = .ok (.class view) m)
      (hreceiver : getAt (distance - 1) { x.name with lexeme := "this" } m = .ok receiver m)
      (hmethod : findInherited name.lexeme view.superclasses = some method) :
      Calls ⟨.evaluate (b + 1) (.super x name), m⟩ ⟨.bind method receiver, m⟩
  | array {b : Nat} {bracket : Token} {es : List Expr} {m : Machine} :
      Calls ⟨.evaluate (b + 1) (.array bracket es), m⟩ ⟨.evaluateAll b es, m⟩
  | object {b : Nat} {brace : Token} {es : List Entry} {m : Machine} :
      Calls ⟨.evaluate (b + 1) (.object brace es), m⟩ ⟨.evaluateEntries b es [], m⟩
  -- Lists of expressions and entries.
  | headExpression {b : Nat} {e : Expr} {es : List Expr} {m : Machine} :
      Calls ⟨.evaluateAll b (e :: es), m⟩ ⟨.evaluate b e, m⟩
  | tailExpressions {b : Nat} {e : Expr} {es : List Expr} {v : Value} {m m₁ : Machine}
      (he : evaluate b e m = .ok v m₁) :
      Calls ⟨.evaluateAll b (e :: es), m⟩ ⟨.evaluateAll b es, m₁⟩
  | headEntry {b : Nat} {entry : Entry} {es : List Entry} {fields : Bindings} {m : Machine} :
      Calls ⟨.evaluateEntries b (entry :: es) fields, m⟩ ⟨.evaluate b entry.value, m⟩
  | tailEntries {b : Nat} {entry : Entry} {es : List Entry} {fields : Bindings} {v : Value}
      {m m₁ : Machine} (he : evaluate b entry.value m = .ok v m₁) :
      Calls ⟨.evaluateEntries b (entry :: es) fields, m⟩
        ⟨.evaluateEntries b es (fields.insert entry.key.keyName v), m₁⟩
  -- Calls.
  | callFunction {b : Nat} {id : Nat} {f : Function} {vs : List Value} {paren : Token}
      {m : Machine} (harity : f.decl.arity = vs.length) :
      Calls ⟨.call b (.function id f) vs paren, m⟩ ⟨.callFunction b f vs, m⟩
  | callClass {b : Nat} {c : Class} {vs : List Value} {paren : Token} {m : Machine}
      (harity : c.arity = vs.length) :
      Calls ⟨.call b (.class c) vs paren, m⟩ ⟨.instantiate b c vs, m⟩
  | bindInit {b : Nat} {c : Class} {vs : List Value} {init : Function} {object : Value}
      {m m₁ : Machine} (hinit : c.findMethod "init" = some init)
      (hobject : newObject { cls := c } m = .ok object m₁) :
      Calls ⟨.instantiate b c vs, m⟩ ⟨.bind init object, m₁⟩
  | callInit {b : Nat} {c : Class} {vs : List Value} {init bound : Function} {object : Value}
      {m m₁ m₂ : Machine} (hinit : c.findMethod "init" = some init)
      (hobject : newObject { cls := c } m = .ok object m₁)
      (hbound : Exec.bind init object m₁ = .ok bound m₂) :
      Calls ⟨.instantiate b c vs, m⟩ ⟨.callFunction b bound vs, m₂⟩
  | body {b : Nat} {f : Function} {vs : List Value} {frame : FrameId} {m m₁ : Machine}
      (hframe : newFrame f.frame (bindParameters f.decl.params vs) m = .ok frame m₁) :
      Calls ⟨.callFunction b f vs, m⟩ ⟨.runAll b f.decl.body, { m₁ with current := frame }⟩
  -- Statements.
  | expression {b : Nat} {e : Expr} {m : Machine} :
      Calls ⟨.execute (b + 1) (.expression e), m⟩ ⟨.evaluate b e, m⟩
  | print {b : Nat} {e : Expr} {m : Machine} :
      Calls ⟨.execute (b + 1) (.print e), m⟩ ⟨.evaluate b e, m⟩
  | declare {b : Nat} {ds : List Declarator} {m : Machine} :
      Calls ⟨.execute (b + 1) (.declare ds), m⟩ ⟨.declareAll b ds, m⟩
  | block {b : Nat} {ss : List Stmt} {frame : FrameId} {m m₁ : Machine}
      (hframe : newFrame m.current [] m = .ok frame m₁) :
      Calls ⟨.execute (b + 1) (.block ss), m⟩ ⟨.runAll b ss, { m₁ with current := frame }⟩
  | condition {b : Nat} {c : Expr} {t : Stmt} {e : Option Stmt} {m : Machine} :
      Calls ⟨.execute (b + 1) (.branch c t e), m⟩ ⟨.evaluate b c, m⟩
  | thenBranch {b : Nat} {c : Expr} {t : Stmt} {e : Option Stmt} {v : Value} {m m₁ : Machine}
      (hc : evaluate b c m = .ok v m₁) (hv : v.isTruthy = true) :
      Calls ⟨.execute (b + 1) (.branch c t e), m⟩ ⟨.execute b t, m₁⟩
  | elseBranch {b : Nat} {c : Expr} {t e : Stmt} {v : Value} {m m₁ : Machine}
      (hc : evaluate b c m = .ok v m₁) (hv : v.isTruthy = false) :
      Calls ⟨.execute (b + 1) (.branch c t (some e)), m⟩ ⟨.execute b e, m₁⟩
  | loop {b : Nat} {c : Expr} {s : Stmt} {m : Machine} :
      Calls ⟨.execute (b + 1) (.loop c s), m⟩ ⟨.loop b c s, m⟩
  | result {b : Nat} {keyword : Token} {e : Expr} {m : Machine} :
      Calls ⟨.execute (b + 1) (.result keyword (some e)), m⟩ ⟨.evaluate b e, m⟩
  | declareClass {b : Nat} {c : ClassDecl} {m : Machine} :
      Calls ⟨.execute (b + 1) (.class c), m⟩ ⟨.declareClass c, m⟩
  | headStatement {b : Nat} {s : Stmt} {ss : List Stmt} {m : Machine} :
      Calls ⟨.runAll b (s :: ss), m⟩ ⟨.execute b s, m⟩
  | tailStatements {b : Nat} {s : Stmt} {ss : List Stmt} {m m₁ : Machine}
      (hs : execute b s m = .ok .normal m₁) :
      Calls ⟨.runAll b (s :: ss), m⟩ ⟨.runAll b ss, m₁⟩
  -- Loops.
  | loopCondition {b : Nat} {c : Expr} {s : Stmt} {m : Machine} :
      Calls ⟨.loop (b + 1) c s, m⟩ ⟨.evaluate b c, m⟩
  | loopBody {b : Nat} {c : Expr} {s : Stmt} {v : Value} {m m₁ : Machine}
      (hc : evaluate b c m = .ok v m₁) (hv : v.isTruthy = true) :
      Calls ⟨.loop (b + 1) c s, m⟩ ⟨.execute b s, m₁⟩
  | loopAgain {b : Nat} {c : Expr} {s : Stmt} {v : Value} {m m₁ m₂ : Machine}
      (hc : evaluate b c m = .ok v m₁) (hv : v.isTruthy = true)
      (hs : execute b s m₁ = .ok .normal m₂) :
      Calls ⟨.loop (b + 1) c s, m⟩ ⟨.loop b c s, m₂⟩
  -- Declarations.
  | initializer {b : Nat} {name : Token} {e : Expr} {ds : List Declarator} {m : Machine} :
      Calls ⟨.declareAll b (⟨name, some e⟩ :: ds), m⟩ ⟨.evaluate b e, m⟩
  | afterInitializer {b : Nat} {name : Token} {e : Expr} {ds : List Declarator} {v : Value}
      {m m₁ m₂ : Machine} (he : evaluate b e m = .ok v m₁)
      (hdefine : define name.lexeme v m₁ = .ok () m₂) :
      Calls ⟨.declareAll b (⟨name, some e⟩ :: ds), m⟩ ⟨.declareAll b ds, m₂⟩
  | afterName {b : Nat} {name : Token} {ds : List Declarator} {m m₁ : Machine}
      (hdefine : define name.lexeme .nil m = .ok () m₁) :
      Calls ⟨.declareAll b (⟨name, none⟩ :: ds), m⟩ ⟨.declareAll b ds, m₁⟩
  | superclasses {c : ClassDecl} {m : Machine} :
      Calls ⟨.declareClass c, m⟩ ⟨.lookUpClasses c.superclasses, m⟩
  | tailClasses {x : Reference} {xs : List Reference} {c : Class} {m m₁ : Machine}
      (hx : lookUp x m = .ok (.class c) m₁) :
      Calls ⟨.lookUpClasses (x :: xs), m⟩ ⟨.lookUpClasses xs, m₁⟩

/-- A moment happens within another one, or is that one. -/
def Moment.Reaches (μ μ' : Moment) : Prop :=
  Relation.ReflTransGen Calls μ μ'

/-- At a moment a frame is made for a construct. A frame has the first place that is free. -/
inductive Moment.Creates : Moment → FrameId → Construct → Prop
  | block {b : Nat} {ss : List Stmt} {m : Machine} :
      Creates ⟨.execute (b + 1) (.block ss), m⟩ m.heap.frames.size (.block ss)
  | call {b : Nat} {f : Function} {vs : List Value} {m : Machine} :
      Creates ⟨.callFunction b f vs, m⟩ m.heap.frames.size (.call f.decl)
  | receiver {method : Function} {receiver : Value} {c : ClassDecl} {m : Machine}
      (hmethod : method.decl ∈ c.methods) :
      Creates ⟨.bind method receiver, m⟩ m.heap.frames.size (.receiver c)
  | inheritance {c : ClassDecl} {cs : List Class} {m m₁ : Machine}
      (hcs : lookUpClasses c.superclasses m = .ok cs m₁) (hne : cs ≠ []) :
      Creates ⟨.declareClass c, m⟩ m₁.heap.frames.size (.inheritance c)

/-- At a moment a function is made that can be called: a closure in the current frame, or a method
that is bound and has the new frame of its receiver. -/
inductive Moment.Makes : Moment → Function → Prop
  | closure {b : Nat} {f : FunctionDecl} {m : Machine} :
      Makes ⟨.evaluate (b + 1) (.function f), m⟩ ⟨f, m.current, false⟩
  | declared {b : Nat} {f : FunctionDecl} {m : Machine} :
      Makes ⟨.execute (b + 1) (.function f), m⟩ ⟨f, m.current, false⟩
  | bound {method : Function} {receiver : Value} {m : Machine} :
      Makes ⟨.bind method receiver, m⟩ { method with frame := m.heap.frames.size }

end Lox.Eval

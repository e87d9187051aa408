import Lox.Machine
import Lox.Value.Order

/-!
# Evaluation

What expressions and statements do. Both are run with a budget, which bounds how deep evaluation
goes and how often a loop goes round, so that every run ends; a run that ends before its budget is
used up does the same with any larger one. A statement completes normally or with a result, which
ends the call around it.
-/

namespace Lox

/-- How a statement completes. -/
inductive Flow where
  /-- The next statement follows. -/
  | normal
  /-- The call around it ends with this value. -/
  | result (value : Value)

namespace Eval

open Exec

/-! ## Operators -/

/-- Applies a sign to its operand. -/
def applyUnary (operator : Token) (v : Value) : Exec Value :=
  match operator.kind with
  | .minus =>
    match v with
    | .number x => pure (.number (-x))
    | _ => fail operator .operandKind
  | .bang => pure (.boolean !v.isTruthy)
  | _ => fail operator .unaryOperator

/-- Adds two numbers, or joins the texts of two values of which one is a string. -/
def add (operator : Token) (a b : Value) : Exec Value :=
  match a, b with
  | .number x, .number y => pure (.number (x + y))
  | .string _, _ | _, .string _ => do return .string ((← textOf a) ++ (← textOf b))
  | _, _ => fail operator .addendKinds

/-- Applies an operation on numbers. -/
def arithmetic (operator : Token) (op : Float → Float → Float) (a b : Value) : Exec Value :=
  match a, b with
  | .number x, .number y => pure (.number (op x y))
  | _, _ => fail operator .operandKinds

/-- Applies an operator to its operands. -/
def applyBinary (operator : Token) (a b : Value) : Exec Value :=
  match operator.kind with
  | .plus => add operator a b
  | .minus => arithmetic operator (· - ·) a b
  | .star => arithmetic operator (· * ·) a b
  | .slash => arithmetic operator (· / ·) a b
  | .equalEqual => pure (.boolean (a.equal b))
  | .bangEqual => pure (.boolean !(a.equal b))
  | .less => pure (.boolean (a.less b))
  | .lessEqual => pure (.boolean (a.lessEqual b))
  | .greater => pure (.boolean (a.greater b))
  | .greaterEqual => pure (.boolean (a.greaterEqual b))
  | _ => fail operator .binaryOperator

/-- Whether the left operand of a conjunction or disjunction decides it. -/
def decides (operator : Token) (left : Value) : Bool :=
  if operator.kind = .kwOr then left.isTruthy else !left.isTruthy

/-! ## Properties and elements -/

/-- A property of a value: a field of an object, or else a method bound to it. -/
def getProperty (v : Value) (name : Token) : Exec Value := do
  match ← object? v with
  | none => fail name .noProperties
  | some object =>
    match object.fields.lookup name.lexeme with
    | some value => pure value
    | none =>
      match object.cls.findMethod name.lexeme with
      | some method => newFunction (← bind method v)
      | none => fail name (.undefinedProperty name.lexeme)

/-- The place that an index denotes in a list of a length. -/
def position (bracket : Token) (index : Value) (length : Nat) : Exec Nat :=
  match index with
  | .number x =>
    match Number.toInt? x with
    | none => fail bracket .indexFraction
    | some i =>
      if 0 ≤ i ∧ i < length then pure i.toNat else fail bracket (.indexRange x length)
  | _ => fail bracket .indexKind

/-- The property name that a key denotes. -/
def keyName (bracket : Token) : Value → Exec String
  | .string s => pure s
  | .number x => pure (Number.text x)
  | _ => fail bracket .keyKind

/-- An element of an array, a character of a string or a field of an object. -/
def getElement (bracket : Token) (v key : Value) : Exec Value := do
  match v with
  | .array id =>
    let elements := (← get).heap.elements id
    let i ← position bracket key elements.size
    return elements.getD i .nil
  | .string s =>
    let i ← position bracket key s.length
    return (s.toList[i]?).elim .nil fun c => .string c.toString
  | .object _ =>
    let name ← keyName bracket key
    let fields := ((← object? v).map Object.fields).getD []
    orFail bracket (.undefinedProperty name) (fields.lookup name)
  | _ => fail bracket .notIndexable

/-- Sets an element of an array or a field of an object. -/
def assignElement (bracket : Token) (v key value : Value) : Exec Unit := do
  match v with
  | .array id =>
    let i ← position bracket key ((← get).heap.elements id).size
    setElement id i value
  | .object id => setField id (← keyName bracket key) value
  | _ => fail bracket .notIndexAssignable

/-- A method of the superclasses of the class in which `super` stands, bound to the receiver. The
frame that holds `this` lies just inside the one that holds `super`. -/
def getInherited (keyword : Reference) (method : Token) : Exec Value := do
  match (← get).distances.find? keyword.id with
  | none => fail keyword.name .superOutside
  | some distance =>
    match ← getAt distance keyword.name with
    | .class view =>
      let receiver ← getAt (distance - 1) { keyword.name with lexeme := "this" }
      match findInherited method.lexeme view.superclasses with
      | some found => newFunction (← bind found receiver)
      | none => fail method (.undefinedProperty method.lexeme)
    | _ => fail keyword.name .superclassKind

/-! ## Calls -/

/-- How statements are run. -/
abbrev Runner := Stmt → Exec Flow

/-- How expressions are evaluated. -/
abbrev Evaluator := Expr → Exec Value

/-- Runs statements in order, up to one that completes with a result. -/
def runAll (run : Runner) : List Stmt → Exec Flow
  | [] => pure .normal
  | s :: ss => do
    match ← run s with
    | .normal => runAll run ss
    | .result v => pure (.result v)

/-- Evaluates expressions in order. -/
def evaluateAll (eval : Evaluator) : List Expr → Exec (List Value)
  | [] => pure []
  | e :: es => do
    let v ← eval e
    let vs ← evaluateAll eval es
    return v :: vs

/-- The bindings of parameters to arguments; of two parameters with one name the later counts. -/
def bindParameters (params : List Token) (arguments : List Value) : Bindings :=
  (params.zip arguments).foldl (fun b p => b.insert p.1.lexeme p.2) []

/-- Calls a function: its body runs in a frame of its own. An initializer gives back its
receiver, whatever its result. -/
def callFunction (run : Runner) (f : Function) (arguments : List Value) : Exec Value := do
  let frame ← newFrame f.frame (bindParameters f.decl.params arguments)
  let flow ← inFrame frame (runAll run f.decl.body)
  if f.isInitializer then
    let this : Token := { f.decl.keyword with lexeme := "this" }
    getFrom ((← get).heap.frames.holderAt? f.frame 0 "this") this
  else
    match flow with
    | .result v => pure v
    | .normal => pure .nil

/-- Makes an object of a class and sets it up. -/
def instantiate (run : Runner) (c : Class) (arguments : List Value) : Exec Value := do
  let object ← newObject { cls := c }
  match c.findMethod "init" with
  | some init => let _ ← callFunction run (← bind init object) arguments
  | none => pure ()
  return object

/-- The text of a line with several values on it. -/
def lineText (values : List Value) : Exec String := do
  let m ← get
  return String.intercalate " " (values.map m.heap.text)

/-- Calls a built-in function. -/
def callNative (f : Native) (arguments : List Value) (paren : Token) : Exec Value := do
  match f with
  | .log =>
    let line ← lineText arguments
    match ← tryWriteLine line with
    | none => return .nil
    | some reason => fail paren (.logRefused reason)
  | .clock =>
    match ← readClock with
    | some seconds => return .number seconds
    | none => fail paren .timeBeforeEpoch
  | .len =>
    match arguments with
    | [.string s] => return .number (Float.ofNat s.length)
    | [.array id] => return .number (Float.ofNat ((← get).heap.elements id).size)
    | v :: _ => fail paren (.noLength v.typeName)
    | [] => fail paren (.arity 1 0)

/-- Calls a value. -/
def call (run : Runner) (callee : Value) (arguments : List Value) (paren : Token) :
    Exec Value := do
  match callee.arity? with
  | none => fail paren .notCallable
  | some .any => pure ()
  | some (.exactly n) =>
    if n ≠ arguments.length then fail paren (.arity n arguments.length)
  match callee with
  | .function _ f => callFunction run f arguments
  | .native f => callNative f arguments paren
  | .class c => instantiate run c arguments
  | _ => fail paren .notCallable

/-! ## Declarations -/

/-- Declares variables in order. -/
def declareAll (eval : Evaluator) : List Declarator → Exec Unit
  | [] => pure ()
  | d :: ds => do
    let v ← match d.initializer with
      | some e => eval e
      | none => pure .nil
    define d.name.lexeme v
    declareAll eval ds

/-- The fields of a written-out object, in order. -/
def evaluateEntries (eval : Evaluator) : List Entry → Bindings → Exec Bindings
  | [], fields => pure fields
  | entry :: entries, fields => do
    let v ← eval entry.value
    evaluateEntries eval entries (fields.insert entry.key.keyName v)

/-- The superclasses that references denote. -/
def lookUpClasses : List Reference → Exec (List Class)
  | [] => pure []
  | x :: xs => do
    match ← lookUp x with
    | .class c =>
      let cs ← lookUpClasses xs
      return c :: cs
    | _ => fail x.name .superclassKind

/-- The methods of a class, the latest first. -/
def methodTable (frame : FrameId) (methods : List FunctionDecl) : List (String × Function) :=
  (methods.map fun decl =>
    (decl.displayName, ⟨decl, frame, decl.displayName == "init"⟩)).reverse

/-- Declares a class. Its name is bound before its methods are made, and a class that inherits has
a frame around its methods that holds its superclasses under the name `super`. -/
def declareClass (c : ClassDecl) : Exec Unit := do
  let superclasses ← lookUpClasses c.superclasses
  define c.name.lexeme .nil
  let here := (← get).current
  let frame ←
    if superclasses.isEmpty then pure here
    else do
      let view ← newClass c.name.lexeme superclasses []
      newFrame here [("super", .class view)]
  let made ← newClass c.name.lexeme superclasses (methodTable frame c.methods)
  assignNearest c.name (.class made)

/-! ## Expressions and statements -/

mutual

/-- Evaluates an expression. -/
def evaluate : Nat → Expr → Exec Value
  | 0, _ => throw .exhausted
  | budget + 1, e =>
    match e with
    | .literal v => pure (.ofLiteral v)
    | .grouping e => evaluate budget e
    | .unary op r => do applyUnary op (← evaluate budget r)
    | .binary l op r => do
      let a ← evaluate budget l
      let b ← evaluate budget r
      applyBinary op a b
    | .logical l op r => do
      let a ← evaluate budget l
      if decides op a then pure a else evaluate budget r
    | .reference x => lookUp x
    | .assign x e => do
      let v ← evaluate budget e
      assign x v
      return v
    | .call f paren es => do
      let callee ← evaluate budget f
      let arguments ← evaluateAll (evaluate budget) es
      call (execute budget) callee arguments paren
    | .get o name => do getProperty (← evaluate budget o) name
    | .set o name e => do
      match ← evaluate budget o with
      | .object id =>
        let v ← evaluate budget e
        setField id name.lexeme v
        return v
      | _ => fail name .noFields
    | .index o bracket k => do
      let v ← evaluate budget o
      let key ← evaluate budget k
      getElement bracket v key
    | .setIndex o bracket k e => do
      let v ← evaluate budget o
      let key ← evaluate budget k
      let value ← evaluate budget e
      assignElement bracket v key value
      return value
    | .this x => lookUp x
    | .super x method => getInherited x method
    | .function f => closure f
    | .array _ es => do newArray (← evaluateAll (evaluate budget) es)
    | .object _ es => do
      let fields ← evaluateEntries (evaluate budget) es []
      newObject { cls := (← get).objectClass, fields := fields }

/-- Runs a statement. -/
def execute : Nat → Stmt → Exec Flow
  | 0, _ => throw .exhausted
  | budget + 1, s =>
    match s with
    | .expression e => do
      let _ ← evaluate budget e
      return .normal
    | .print e => do
      writeLine (← textOf (← evaluate budget e))
      return .normal
    | .declare ds => do
      declareAll (evaluate budget) ds
      return .normal
    | .block ss => do
      let frame ← newFrame (← get).current []
      inFrame frame (runAll (execute budget) ss)
    | .branch c t e => do
      if (← evaluate budget c).isTruthy then execute budget t
      else
        match e with
        | some e => execute budget e
        | none => return .normal
    | .loop c s => loop budget c s
    | .function f => do
      define f.displayName (← closure f)
      return .normal
    | .result _ e => do
      match e with
      | some e => return .result (← evaluate budget e)
      | none => return .result .nil
    | .class c => do
      declareClass c
      return .normal

/-- Runs a loop. -/
def loop : Nat → Expr → Stmt → Exec Flow
  | 0, _, _ => throw .exhausted
  | budget + 1, c, s => do
    if (← evaluate budget c).isTruthy then
      match ← execute budget s with
      | .normal => loop budget c s
      | .result v => return .result v
    else return .normal

end

end Eval

end Lox

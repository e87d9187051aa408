import Lox.Token

/-!
# Syntax trees

A program is a list of statements. Every use of a name in an expression is a `Reference` with a
number of its own: scoping is decided per use, and what it decides is kept under that number.
Tokens stay in the tree where a message may have to point at them.
-/

namespace Lox

/-- A constant in a program. -/
inductive Literal where
  /-- A number. -/
  | number (value : Float)
  /-- A string. -/
  | string (value : String)
  /-- The word `true` or `false`. -/
  | boolean (value : Bool)
  /-- The word `nil`. -/
  | nil
deriving DecidableEq, Repr

/-- A use of a name: the number of the use and the token that spells the name. -/
structure Reference where
  /-- The number of this use. -/
  id : Nat
  /-- The token that spells the name. -/
  name : Token
deriving DecidableEq, Repr

mutual

/-- An expression. -/
inductive Expr where
  /-- A constant. -/
  | literal (value : Literal)
  /-- An expression in parentheses. -/
  | grouping (inner : Expr)
  /-- A sign before its operand. -/
  | unary (operator : Token) (right : Expr)
  /-- A sign between its operands. -/
  | binary (left : Expr) (operator : Token) (right : Expr)
  /-- A conjunction or disjunction, which may leave its right operand unevaluated. -/
  | logical (left : Expr) (operator : Token) (right : Expr)
  /-- A variable. -/
  | reference (target : Reference)
  /-- An assignment to a variable. -/
  | assign (target : Reference) (value : Expr)
  /-- A call, with its closing parenthesis. -/
  | call (callee : Expr) (paren : Token) (arguments : List Expr)
  /-- A property of an object. -/
  | get (object : Expr) (name : Token)
  /-- An assignment to a property. -/
  | set (object : Expr) (name : Token) (value : Expr)
  /-- An element of an array, string or object, with its opening bracket. -/
  | index (object : Expr) (bracket : Token) (key : Expr)
  /-- An assignment to an element. -/
  | setIndex (object : Expr) (bracket : Token) (key : Expr) (value : Expr)
  /-- The receiver of the enclosing method. -/
  | this (keyword : Reference)
  /-- A method that the enclosing class inherits. -/
  | super (keyword : Reference) (method : Token)
  /-- A function without a name. -/
  | function (decl : FunctionDecl)
  /-- An array, with its opening bracket. -/
  | array (bracket : Token) (elements : List Expr)
  /-- An object, with its opening brace. -/
  | object (brace : Token) (entries : List Entry)

/-- A key of an object expression and its value. -/
structure Entry where
  /-- The key. -/
  key : Token
  /-- Its value. -/
  value : Expr

/-- A function or method. -/
structure FunctionDecl where
  /-- The name, if it has one. -/
  name : Option Token
  /-- The token that messages about the function point at. -/
  keyword : Token
  /-- The parameters. -/
  params : List Token
  /-- The statements of the body. -/
  body : List Stmt

/-- A variable that is declared, with its initial value. -/
structure Declarator where
  /-- The name. -/
  name : Token
  /-- The initial value; without one it is `nil`. -/
  initializer : Option Expr

/-- A class. -/
structure ClassDecl where
  /-- The name. -/
  name : Token
  /-- The classes it inherits from, in order. -/
  superclasses : List Reference
  /-- The methods, in order. -/
  methods : List FunctionDecl

/-- A statement. -/
inductive Stmt where
  /-- An expression whose value is dropped. -/
  | expression (value : Expr)
  /-- An expression whose value is printed. -/
  | print (value : Expr)
  /-- A declaration of variables. -/
  | declare (declarators : List Declarator)
  /-- Statements with a scope of their own. -/
  | block (body : List Stmt)
  /-- A choice. -/
  | branch (condition : Expr) (thenBranch : Stmt) (elseBranch : Option Stmt)
  /-- A loop. -/
  | loop (condition : Expr) (body : Stmt)
  /-- A declaration of a function. -/
  | function (decl : FunctionDecl)
  /-- The end of a call, with its value. -/
  | result (keyword : Token) (value : Option Expr)
  /-- A declaration of a class. -/
  | class (decl : ClassDecl)

end

/-- The default expression is the literal `nil`. -/
instance : Inhabited Expr := ⟨.literal .nil⟩
/-- The default statement is an empty block. -/
instance : Inhabited Stmt := ⟨.block []⟩

namespace FunctionDecl

/-- The number of parameters. -/
def arity (f : FunctionDecl) : Nat :=
  f.params.length

/-- The name by which a function is shown. -/
def displayName (f : FunctionDecl) : String :=
  match f.name with
  | some name => name.lexeme
  | none => "lambda"

end FunctionDecl

/-! ## Closures

Whether running a piece of a program can make a function value. If it cannot, nothing of the
piece is needed once it has run. -/

mutual

/-- Whether evaluating an expression can make a function value. -/
def Expr.createsClosure : Expr → Bool
  | .literal _ | .reference _ | .this _ | .super _ _ => false
  | .grouping e => e.createsClosure
  | .unary _ r => r.createsClosure
  | .binary l _ r | .logical l _ r => l.createsClosure || r.createsClosure
  | .assign _ e => e.createsClosure
  | .call f _ es => f.createsClosure || exprsCreateClosure es
  | .get o _ => o.createsClosure
  | .set o _ e => o.createsClosure || e.createsClosure
  | .index o _ k => o.createsClosure || k.createsClosure
  | .setIndex o _ k e => o.createsClosure || k.createsClosure || e.createsClosure
  | .function _ => true
  | .array _ es => exprsCreateClosure es
  | .object _ es => entriesCreateClosure es

/-- Whether evaluating one of the expressions can make a function value. -/
def exprsCreateClosure : List Expr → Bool
  | [] => false
  | e :: es => e.createsClosure || exprsCreateClosure es

/-- Whether evaluating one of the entries can make a function value. -/
def entriesCreateClosure : List Entry → Bool
  | [] => false
  | ⟨_, e⟩ :: es => e.createsClosure || entriesCreateClosure es

end

/-- Whether one of the initial values can make a function value. -/
def Declarator.createsClosure (d : Declarator) : Bool :=
  d.initializer.any Expr.createsClosure

mutual

/-- Whether running a statement can make a function or class. -/
def Stmt.createsClosure : Stmt → Bool
  | .expression e | .print e => e.createsClosure
  | .declare ds => ds.any Declarator.createsClosure
  | .block ss => stmtsCreateClosure ss
  | .branch c t none => c.createsClosure || t.createsClosure
  | .branch c t (some e) => c.createsClosure || t.createsClosure || e.createsClosure
  | .loop c s => c.createsClosure || s.createsClosure
  | .result _ e => e.any Expr.createsClosure
  | .function _ | .class _ => true

/-- Whether running one of the statements can make a function or class. -/
def stmtsCreateClosure : List Stmt → Bool
  | [] => false
  | s :: ss => s.createsClosure || stmtsCreateClosure ss

end

end Lox

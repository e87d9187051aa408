import Lox.Scoping.Distances
import Lox.Tree

/-!
# Scoping

Before a program runs, a walk through it finds the distance of every reference to a local variable
and the violations of the scoping rules. The walk keeps the scopes that are open at each point: one
for a block, one for a function's parameters and body together, and around the methods of a class
one that holds `this` and, if the class inherits, one around it that holds `super`. At the top level
no scope is open, and names there are globals.
-/

namespace Lox.Scoping

/-- Which rule is violated. -/
inductive Rule where
  /-- A `return` outside of any function. -/
  | resultAtTop
  /-- A `return` with a value in an initializer. -/
  | resultOfInitializer
  /-- A `this` outside of any class. -/
  | thisOutside
  /-- A `super` outside of any class. -/
  | superOutside
  /-- A `super` in a class that inherits from none. -/
  | superAlone
  /-- A second declaration of a name in one scope. -/
  | redeclared
  /-- A variable that is read in its own initial value. -/
  | ownInitializer
  /-- A class that inherits from itself. -/
  | ownSuperclass
deriving DecidableEq, Repr

/-- The message for a violated rule. -/
def Rule.message : Rule → String
  | .resultAtTop => "Can't return from top-level code."
  | .resultOfInitializer => "Can't return a value from an initializer."
  | .thisOutside => "Can't use 'this' outside of a class."
  | .superOutside => "Can't use 'super' outside of a class."
  | .superAlone => "Can't use 'super' in a class with no superclass."
  | .redeclared => "Already a variable with this name in this scope."
  | .ownInitializer => "Can't read local variable in its own initializer."
  | .ownSuperclass => "A class can't inherit from itself."

/-- A token at which a rule is violated. -/
structure Violation where
  /-- The token. -/
  token : Token
  /-- The rule. -/
  rule : Rule
deriving DecidableEq, Repr

/-- The function around a piece of a program. -/
inductive Body where
  /-- None. -/
  | none
  /-- A function or method that may return any value. -/
  | function
  /-- An initializer, which returns its object. -/
  | initializer
deriving DecidableEq, Repr

/-- The class around a piece of a program. -/
inductive Home where
  /-- None. -/
  | none
  /-- A class that inherits from none. -/
  | base
  /-- A class that inherits. -/
  | derived
deriving DecidableEq, Repr

/-- What surrounds a piece of a program. -/
structure Context where
  /-- The nearest function. -/
  body : Body := .none
  /-- The nearest class. -/
  home : Home := .none
deriving DecidableEq, Repr

/-- The names that were declared in a scope, and whether each has its initial value. -/
abbrev Scope := List (String × Bool)

/-- How far a walk has come. -/
structure Walk where
  /-- The open scopes, the innermost first. -/
  scopes : List Scope := []
  /-- The distances found so far. -/
  distances : Distances := {}
  /-- The violations found so far, in order. -/
  violations : List Violation := []
deriving DecidableEq, Repr

namespace Walk

/-- Notes a violation. -/
def violate (w : Walk) (token : Token) (rule : Rule) : Walk :=
  { w with violations := w.violations ++ [⟨token, rule⟩] }

/-- Opens a scope. -/
def enter (w : Walk) (scope : Scope) : Walk :=
  { w with scopes := scope :: w.scopes }

/-- Closes the innermost scope. -/
def leave (w : Walk) : Walk :=
  { w with scopes := w.scopes.tail }

/-- Declares a name in the innermost scope, without its initial value. -/
def declare (w : Walk) (name : Token) : Walk :=
  match w.scopes with
  | [] => w
  | scope :: outer =>
    if (scope.lookup name.lexeme).isSome then w.violate name .redeclared
    else { w with scopes := ((name.lexeme, false) :: scope) :: outer }

/-- Notes that a name of the innermost scope has its initial value. -/
def define (w : Walk) (name : Token) : Walk :=
  match w.scopes with
  | [] => w
  | scope :: outer => { w with scopes := ((name.lexeme, true) :: scope) :: outer }

/-- Notes the distance of a reference: the number of open scopes inside the innermost one that
declares its name. -/
def resolve (w : Walk) (x : Reference) : Walk :=
  match w.scopes.findIdx? fun scope => (scope.lookup x.name.lexeme).isSome with
  | some distance => { w with distances := w.distances.note x.id distance }
  | none => w

/-- A variable that is read. -/
def read (w : Walk) (x : Reference) : Walk :=
  let unready := w.scopes.head?.any fun scope => scope.lookup x.name.lexeme == some false
  (if unready then w.violate x.name .ownInitializer else w).resolve x

/-- The names of parameters. -/
def parameters (w : Walk) (params : List Token) : Walk :=
  params.foldl (fun w name => (w.declare name).define name) w

/-- The superclasses of a class. -/
def superclasses (w : Walk) (name : Token) (supers : List Reference) : Walk :=
  supers.foldl (fun w x =>
    (if x.name.lexeme = name.lexeme then w.violate x.name .ownSuperclass else w).read x) w

end Walk

/-- The function that a method is. -/
def Body.ofMethod (method : FunctionDecl) : Body :=
  if method.displayName = "init" then .initializer else .function

mutual

/-- Walks through an expression. -/
def walkExpr (ctx : Context) : Expr → Walk → Walk
  | .literal _, w => w
  | .grouping e, w => walkExpr ctx e w
  | .unary _ r, w => walkExpr ctx r w
  | .binary l _ r, w => walkExpr ctx r (walkExpr ctx l w)
  | .logical l _ r, w => walkExpr ctx r (walkExpr ctx l w)
  | .reference x, w => w.read x
  | .assign x e, w => (walkExpr ctx e w).resolve x
  | .call f _ es, w => walkExprs ctx es (walkExpr ctx f w)
  | .get o _, w => walkExpr ctx o w
  | .set o _ e, w => walkExpr ctx o (walkExpr ctx e w)
  | .index o _ k, w => walkExpr ctx k (walkExpr ctx o w)
  | .setIndex o _ k e, w => walkExpr ctx e (walkExpr ctx k (walkExpr ctx o w))
  | .this x, w =>
    match ctx.home with
    | .none => w.violate x.name .thisOutside
    | _ => w.resolve x
  | .super x _, w =>
    match ctx.home with
    | .none => w.violate x.name .superOutside
    | .base => w.violate x.name .superAlone
    | .derived => w.resolve x
  | .function f, w => walkFunction { ctx with body := .function } f w
  | .array _ es, w => walkExprs ctx es w
  | .object _ es, w => walkEntries ctx es w

/-- Walks through expressions in order. -/
def walkExprs (ctx : Context) : List Expr → Walk → Walk
  | [], w => w
  | e :: es, w => walkExprs ctx es (walkExpr ctx e w)

/-- Walks through the entries of an object expression in order. -/
def walkEntries (ctx : Context) : List Entry → Walk → Walk
  | [], w => w
  | ⟨_, e⟩ :: es, w => walkEntries ctx es (walkExpr ctx e w)

/-- Walks through a function; the context is that of its body. -/
def walkFunction (ctx : Context) : FunctionDecl → Walk → Walk
  | ⟨_, _, params, body⟩, w => (walkStmts ctx body ((w.enter []).parameters params)).leave

/-- Walks through methods in order. -/
def walkMethods (ctx : Context) : List FunctionDecl → Walk → Walk
  | [], w => w
  | f :: fs, w => walkMethods ctx fs (walkFunction { ctx with body := .ofMethod f } f w)

/-- Walks through declared variables in order. A name is declared before its initial value is
looked at and defined after it. -/
def walkDeclarators (ctx : Context) : List Declarator → Walk → Walk
  | [], w => w
  | ⟨name, none⟩ :: ds, w => walkDeclarators ctx ds ((w.declare name).define name)
  | ⟨name, some e⟩ :: ds, w =>
    walkDeclarators ctx ds ((walkExpr ctx e (w.declare name)).define name)

/-- Walks through a class. -/
def walkClass (ctx : Context) : ClassDecl → Walk → Walk
  | ⟨name, supers, methods⟩, w =>
    let w := ((w.declare name).define name).superclasses name supers
    if supers.isEmpty then
      (walkMethods { ctx with home := .base } methods (w.enter [("this", true)])).leave
    else
      let inner := (w.enter [("super", true)]).enter [("this", true)]
      (walkMethods { ctx with home := .derived } methods inner).leave.leave

/-- Walks through a statement. -/
def walkStmt (ctx : Context) : Stmt → Walk → Walk
  | .expression e, w => walkExpr ctx e w
  | .print e, w => walkExpr ctx e w
  | .declare ds, w => walkDeclarators ctx ds w
  | .block ss, w => (walkStmts ctx ss (w.enter [])).leave
  | .branch c t none, w => walkStmt ctx t (walkExpr ctx c w)
  | .branch c t (some e), w => walkStmt ctx e (walkStmt ctx t (walkExpr ctx c w))
  | .loop c s, w => walkStmt ctx s (walkExpr ctx c w)
  | .function f, w =>
    let w := match f.name with
      | some name => (w.declare name).define name
      | none => w
    walkFunction { ctx with body := .function } f w
  | .result keyword none, w =>
    if ctx.body = .none then w.violate keyword .resultAtTop else w
  | .result keyword (some e), w =>
    walkExpr ctx e (match ctx.body with
      | .none => w.violate keyword .resultAtTop
      | .initializer => w.violate keyword .resultOfInitializer
      | .function => w)
  | .class c, w => walkClass ctx c w

/-- Walks through statements in order. -/
def walkStmts (ctx : Context) : List Stmt → Walk → Walk
  | [], w => w
  | s :: ss, w => walkStmts ctx ss (walkStmt ctx s w)

end

/-- Finds the distances and violations of a program, beside the distances that are known. -/
def resolve (known : Distances) (program : List Stmt) : Distances × List Violation :=
  let w := walkStmts {} program { distances := known }
  (w.distances, w.violations)

/-- Finds the distances and violations of an expression at the top level. -/
def resolveExpr (known : Distances) (e : Expr) : Distances × List Violation :=
  let w := walkExpr {} e { distances := known }
  (w.distances, w.violations)

end Lox.Scoping

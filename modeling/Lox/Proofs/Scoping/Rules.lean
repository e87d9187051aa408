import Lox.Scoping

/-!
# The scoping rules

What violates the scoping rules in a program, told by its tree alone. No scope is kept and nothing
is walked in order: a `return`, `this` or `super` is judged by what is around it, a class by its own
superclasses, and a block or function by the names that it declares directly, in a row.
-/

namespace Lox

open Scoping

/-! ## What is around a place -/

/-- What may be around a place in a program. -/
inductive Surrounding where
  /-- The body of a function that is no method. -/
  | function (f : FunctionDecl)
  /-- The body of a method. -/
  | method (f : FunctionDecl)
  /-- The body of a class. -/
  | class (c : ClassDecl)

namespace Surrounding

/-- Whether it is the body of a function or method. -/
def isFunction : Surrounding → Bool
  | .function _ | .method _ => true
  | .class _ => false

/-- The class whose body it is. -/
def class? : Surrounding → Option ClassDecl
  | .class c => some c
  | .function _ | .method _ => none

/-- The nearest function or method around a place, given what is around it, the nearest first. -/
def nearestFunction? (around : List Surrounding) : Option Surrounding :=
  around.find? isFunction

/-- The nearest class around a place. -/
def nearestClass? (around : List Surrounding) : Option ClassDecl :=
  around.findSome? class?

end Surrounding

namespace Scoping

open Surrounding

/-- A `return` may not be outside of all functions, and with a value it may not be in an
initializer. -/
def resultViolations (around : List Surrounding) (keyword : Token) (hasValue : Bool) :
    List Violation :=
  match nearestFunction? around with
  | none => [⟨keyword, .resultAtTop⟩]
  -- Only a method can be an initializer: a function of that name may return any value.
  | some (.method f) =>
    if hasValue && f.displayName == "init" then [⟨keyword, .resultOfInitializer⟩] else []
  | some _ => []

/-- A `this` may not be outside of all classes. -/
def thisViolations (around : List Surrounding) (keyword : Token) : List Violation :=
  if (nearestClass? around).isNone then [⟨keyword, .thisOutside⟩] else []

/-- A `super` may not be outside of all classes, and the nearest class must have a superclass. -/
def superViolations (around : List Surrounding) (keyword : Token) : List Violation :=
  match nearestClass? around with
  | none => [⟨keyword, .superOutside⟩]
  | some c => if c.superclasses.isEmpty then [⟨keyword, .superAlone⟩] else []

/-- No superclass of a class may have its name. -/
def superclassViolations (name : Token) (superclasses : List Reference) : List Violation :=
  (superclasses.filter fun x => x.name.lexeme = name.lexeme).map fun x => ⟨x.name, .ownSuperclass⟩

end Scoping

/-! ## Names in a row -/

mutual

/-- The variables that an expression reads, but for those that are read in a function within it. -/
def Expr.reads : Expr → List Token
  | .reference x => [x.name]
  | .literal _ | .this _ | .super _ _ | .function _ => []
  -- What is assigned to is not read.
  | .grouping e | .unary _ e | .assign _ e | .get e _ => e.reads
  | .binary l _ r | .logical l _ r | .index l _ r => l.reads ++ r.reads
  | .call f _ es => f.reads ++ readsOfExprs es
  | .set o _ e => o.reads ++ e.reads
  | .setIndex o _ k e => o.reads ++ k.reads ++ e.reads
  | .array _ es => readsOfExprs es
  | .object _ es => readsOfEntries es

/-- The variables that expressions read. -/
def readsOfExprs : List Expr → List Token
  | [] => []
  | e :: es => e.reads ++ readsOfExprs es

/-- The variables that the entries of an object expression read. -/
def readsOfEntries : List Entry → List Token
  | [] => []
  | ⟨_, e⟩ :: es => e.reads ++ readsOfEntries es

end

/-- The variables that an initial value reads. -/
def Declarator.reads : Declarator → List Token
  | ⟨_, some e⟩ => e.reads
  | ⟨_, none⟩ => []

/-- The names that a statement declares in the scope around it, with the initial values of
variables. -/
def Stmt.declarators : Stmt → List Declarator
  | .declare ds => ds
  | .function f => f.name.toList.map fun name => ⟨name, none⟩
  | .class c => [⟨c.name, none⟩]
  | _ => []

/-- The names that a function declares in its scope. -/
def declaratorsOfFunction (params : List Token) (body : List Stmt) : List Declarator :=
  params.map (fun name => ⟨name, none⟩) ++ body.flatMap Stmt.declarators

namespace Scoping

/-- A variable may not be read in its own initial value. -/
def ownReads (d : Declarator) : List Violation :=
  (d.reads.filter fun t => t.lexeme = d.name.lexeme).map fun t => ⟨t, .ownInitializer⟩

/-- Of the names that are declared in one scope, in a row, none may be one of those before. The
first declaration of a name may not read it. -/
def scopeViolations (before : List String) : List Declarator → List Violation
  | [] => []
  | d :: ds =>
    -- A name that is declared again has its value from before, which may be read.
    (if d.name.lexeme ∈ before then [⟨d.name, .redeclared⟩] else ownReads d) ++
      scopeViolations (d.name.lexeme :: before) ds

end Scoping

/-! ## Programs -/

open Scoping

mutual

/-- What violates the rules in an expression. -/
def Expr.violations (around : List Surrounding) : Expr → List Violation
  | .literal _ | .reference _ => []
  | .grouping e | .unary _ e | .assign _ e | .get e _ => e.violations around
  | .binary l _ r | .logical l _ r | .index l _ r => l.violations around ++ r.violations around
  | .call f _ es => f.violations around ++ violationsOfExprs around es
  | .set o _ e => o.violations around ++ e.violations around
  | .setIndex o _ k e => o.violations around ++ k.violations around ++ e.violations around
  | .this x => thisViolations around x.name
  | .super x _ => superViolations around x.name
  | .function f => f.violations (.function f :: around)
  | .array _ es => violationsOfExprs around es
  | .object _ es => violationsOfEntries around es

/-- What violates the rules in expressions. -/
def violationsOfExprs (around : List Surrounding) : List Expr → List Violation
  | [] => []
  | e :: es => e.violations around ++ violationsOfExprs around es

/-- What violates the rules in the entries of an object expression. -/
def violationsOfEntries (around : List Surrounding) : List Entry → List Violation
  | [] => []
  | ⟨_, e⟩ :: es => e.violations around ++ violationsOfEntries around es

/-- What violates the rules in a function, given what is around its body. -/
def FunctionDecl.violations (around : List Surrounding) : FunctionDecl → List Violation
  | ⟨_, _, params, body⟩ =>
    scopeViolations [] (declaratorsOfFunction params body) ++ violationsOfStmts around body

/-- What violates the rules in methods. -/
def violationsOfMethods (around : List Surrounding) : List FunctionDecl → List Violation
  | [] => []
  | f :: fs => f.violations (.method f :: around) ++ violationsOfMethods around fs

/-- What violates the rules in the initial values of declared variables. -/
def violationsOfDeclarators (around : List Surrounding) : List Declarator → List Violation
  | [] => []
  | ⟨_, none⟩ :: ds => violationsOfDeclarators around ds
  | ⟨_, some e⟩ :: ds => e.violations around ++ violationsOfDeclarators around ds

/-- What violates the rules in a class. -/
def ClassDecl.violations (around : List Surrounding) : ClassDecl → List Violation
  | ⟨name, superclasses, methods⟩ =>
    superclassViolations name superclasses ++
      violationsOfMethods (.class ⟨name, superclasses, methods⟩ :: around) methods

/-- What violates the rules in a statement, but for the names that it declares in the scope around
it. -/
def Stmt.violations (around : List Surrounding) : Stmt → List Violation
  | .expression e | .print e => e.violations around
  | .declare ds => violationsOfDeclarators around ds
  | .block ss => scopeViolations [] (ss.flatMap Stmt.declarators) ++ violationsOfStmts around ss
  | .branch c t none => c.violations around ++ t.violations around
  | .branch c t (some e) => c.violations around ++ t.violations around ++ e.violations around
  | .loop c s => c.violations around ++ s.violations around
  | .function f => f.violations (.function f :: around)
  | .result keyword none => resultViolations around keyword false
  | .result keyword (some e) => resultViolations around keyword true ++ e.violations around
  | .class c => c.violations around

/-- What violates the rules in statements. -/
def violationsOfStmts (around : List Surrounding) : List Stmt → List Violation
  | [] => []
  | s :: ss => s.violations around ++ violationsOfStmts around ss

end

/-- What violates the rules in a program. The names that it declares at the top level may be
declared again. -/
def programViolations (program : List Stmt) : List Violation :=
  violationsOfStmts [] program

end Lox

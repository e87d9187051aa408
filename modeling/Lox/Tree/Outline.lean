import Lox.Tree

/-!
# Outlines of trees

A syntax tree as text: every node is a list in parentheses that starts with what the node does. The
text shows the structure that parsing found, and no positions.
-/

namespace Lox

/-- Parts in parentheses, with a space between them. -/
def parens (parts : List String) : String :=
  "(" ++ String.intercalate " " parts ++ ")"

/-- The text of a constant; a string is written without quotes. -/
def Literal.outline : Literal → String
  | .number x => Number.printed x
  | .string s => s
  | .boolean true => "true"
  | .boolean false => "false"
  | .nil => "nil"

/-- The word that a printed conjunction or disjunction starts with. -/
def logicalWord (operator : Token) : String :=
  if operator.kind = .kwAnd then "and" else "or"

mutual

/-- The text of an expression. -/
def Expr.outline : Expr → String
  | .literal v => v.outline
  | .grouping e => parens ["group", e.outline]
  | .unary op r => parens [op.lexeme, r.outline]
  | .binary l op r => parens [op.lexeme, l.outline, r.outline]
  | .logical l op r => parens [logicalWord op, l.outline, r.outline]
  | .reference x => x.name.lexeme
  | .assign x e => parens ["=", x.name.lexeme, e.outline]
  | .call f _ es => parens ("call" :: f.outline :: outlineExprs es)
  | .get o name => parens [".", o.outline, name.lexeme]
  | .set o name e => parens ["=", parens [".", o.outline, name.lexeme], e.outline]
  | .index o _ k => parens ["[]", o.outline, k.outline]
  | .setIndex o _ k e => parens ["=", parens ["[]", o.outline, k.outline], e.outline]
  | .this _ => "this"
  | .super _ method => parens ["super", method.lexeme]
  | .function f => f.outline "fun"
  | .array _ es => parens ("array" :: outlineExprs es)
  | .object _ es => parens ("object" :: outlineEntries es)

/-- The texts of expressions. -/
def outlineExprs : List Expr → List String
  | [] => []
  | e :: es => e.outline :: outlineExprs es

/-- The texts of the entries of an object expression. -/
def outlineEntries : List Entry → List String
  | [] => []
  | ⟨key, e⟩ :: es => parens [key.keyName, e.outline] :: outlineEntries es

/-- The text of a function, after the word that says which sort it is. -/
def FunctionDecl.outline (word : String) : FunctionDecl → String
  | ⟨name, keyword, params, body⟩ =>
    parens (word :: FunctionDecl.displayName ⟨name, keyword, params, body⟩ ::
      parens (params.map Token.lexeme) :: outlineStmts body)

/-- The texts of methods. -/
def outlineMethods : List FunctionDecl → List String
  | [] => []
  | f :: fs => f.outline "method" :: outlineMethods fs

/-- The texts of declared variables. -/
def outlineDeclarators : List Declarator → List String
  | [] => []
  | ⟨name, none⟩ :: ds => name.lexeme :: outlineDeclarators ds
  | ⟨name, some e⟩ :: ds => parens ["=", name.lexeme, e.outline] :: outlineDeclarators ds

/-- The text of a statement. -/
def Stmt.outline : Stmt → String
  | .expression e => parens [";", e.outline]
  | .print e => parens ["print", e.outline]
  | .declare ds => parens ("var" :: outlineDeclarators ds)
  | .block ss => parens ("block" :: outlineStmts ss)
  | .branch c t none => parens ["if", c.outline, t.outline]
  | .branch c t (some e) => parens ["if", c.outline, t.outline, e.outline]
  | .loop c s => parens ["while", c.outline, s.outline]
  | .function f => f.outline "fun"
  | .result _ none => parens ["return"]
  | .result _ (some e) => parens ["return", e.outline]
  | .class ⟨name, supers, methods⟩ =>
    let inherits := if supers.isEmpty then [] else
      [parens ("<" :: supers.map fun x => x.name.lexeme)]
    parens ("class" :: name.lexeme :: (inherits ++ outlineMethods methods))

/-- The texts of statements. -/
def outlineStmts : List Stmt → List String
  | [] => []
  | s :: ss => s.outline :: outlineStmts ss

end

end Lox

import Lox.Tree
import Lox.Json

/-!
# Serialized trees

Tokens and syntax trees as JSON values. A case of a type is written as its name, or as an object
whose only field has that name; the numbers of references are kept.
-/

namespace Lox

/-- A kind of token as a JSON value. -/
def Token.Kind.json : Token.Kind → Json
  | .string s => .tagged "STRING" (.string s)
  | .number x => .tagged "NUMBER" (.number (Number.json x))
  | kind => .string kind.name

/-- A token as a JSON value. -/
def Token.json (t : Token) : Json :=
  .object [("token_type", t.kind.json), ("lexeme", .string t.lexeme),
    ("line", .ofNat t.position.line), ("column", .ofNat t.position.column)]

/-- A constant as a JSON value. -/
def Literal.json : Literal → Json
  | .number x => .tagged "Number" (.number (Number.json x))
  | .string s => .tagged "Str" (.string s)
  | .boolean true => .string "True"
  | .boolean false => .string "False"
  | .nil => .string "Nil"

/-- A variable as a JSON value. -/
def Reference.json (x : Reference) : Json :=
  .tagged "Variable" (.object [("id", .ofNat x.id), ("name", x.name.json)])

mutual

/-- An expression as a JSON value. -/
def Expr.json : Expr → Json
  | .literal v => .tagged "Literal" v.json
  | .grouping e => .tagged "Grouping" e.json
  | .unary op r => .tagged "Unary" (.object [("operator", op.json), ("right", r.json)])
  | .binary l op r =>
    .tagged "Binary" (.object [("left", l.json), ("operator", op.json), ("right", r.json)])
  | .logical l op r =>
    .tagged "Logical" (.object [("left", l.json), ("operator", op.json), ("right", r.json)])
  | .reference x => x.json
  | .assign x e =>
    .tagged "Assign" (.object [("id", .ofNat x.id), ("name", x.name.json), ("value", e.json)])
  | .call f paren es =>
    .tagged "Call" (.object [("callee", f.json), ("paren", paren.json),
      ("arguments", .array (exprsJson es))])
  | .get o name => .tagged "Get" (.object [("object", o.json), ("name", name.json)])
  | .set o name e =>
    .tagged "Set" (.object [("object", o.json), ("name", name.json), ("value", e.json)])
  | .index o bracket k =>
    .tagged "Index" (.object [("object", o.json), ("bracket", bracket.json), ("index", k.json)])
  | .setIndex o bracket k e =>
    .tagged "IndexSet" (.object [("object", o.json), ("bracket", bracket.json), ("index", k.json),
      ("value", e.json)])
  | .this x => .tagged "This" (.object [("id", .ofNat x.id), ("keyword", x.name.json)])
  | .super x method =>
    .tagged "Super" (.object [("id", .ofNat x.id), ("keyword", x.name.json),
      ("method", method.json)])
  | .function f => .tagged "Function" f.json
  | .array bracket es =>
    .tagged "Array" (.object [("bracket", bracket.json), ("elements", .array (exprsJson es))])
  | .object brace es =>
    .tagged "Object" (.object [("brace", brace.json), ("entries", .array (entriesJson es))])

/-- Expressions as JSON values. -/
def exprsJson : List Expr → List Json
  | [] => []
  | e :: es => e.json :: exprsJson es

/-- The entries of an object expression as JSON values. -/
def entriesJson : List Entry → List Json
  | [] => []
  | ⟨key, e⟩ :: es => .object [("key", key.json), ("value", e.json)] :: entriesJson es

/-- A function as a JSON value. -/
def FunctionDecl.json : FunctionDecl → Json
  | ⟨name, keyword, params, body⟩ =>
    .object [("name", name.elim .null Token.json), ("keyword", keyword.json),
      ("params", .array (params.map Token.json)), ("body", .array (stmtsJson body))]

/-- Functions as JSON values. -/
def functionsJson : List FunctionDecl → List Json
  | [] => []
  | f :: fs => f.json :: functionsJson fs

/-- Declared variables as JSON values. -/
def declaratorsJson : List Declarator → List Json
  | [] => []
  | ⟨name, none⟩ :: ds =>
    .object [("name", name.json), ("initializer", .null)] :: declaratorsJson ds
  | ⟨name, some e⟩ :: ds =>
    .object [("name", name.json), ("initializer", e.json)] :: declaratorsJson ds

/-- A statement as a JSON value. -/
def Stmt.json : Stmt → Json
  | .expression e => .tagged "Expression" e.json
  | .print e => .tagged "Print" e.json
  | .declare ds => .tagged "Var" (.array (declaratorsJson ds))
  | .block ss => .tagged "Block" (.array (stmtsJson ss))
  | .branch c t none =>
    .tagged "If" (.object [("condition", c.json), ("then_branch", t.json), ("else_branch", .null)])
  | .branch c t (some e) =>
    .tagged "If" (.object [("condition", c.json), ("then_branch", t.json),
      ("else_branch", e.json)])
  | .loop c s => .tagged "While" (.object [("condition", c.json), ("body", s.json)])
  | .function f => .tagged "Function" f.json
  | .result keyword none =>
    .tagged "Return" (.object [("keyword", keyword.json), ("value", .null)])
  | .result keyword (some e) =>
    .tagged "Return" (.object [("keyword", keyword.json), ("value", e.json)])
  | .class ⟨name, supers, methods⟩ =>
    .tagged "Class" (.object [("name", name.json), ("superclasses", .array (supers.map (·.json))),
      ("methods", .array (functionsJson methods))])

/-- Statements as JSON values. -/
def stmtsJson : List Stmt → List Json
  | [] => []
  | s :: ss => s.json :: stmtsJson ss

end

end Lox

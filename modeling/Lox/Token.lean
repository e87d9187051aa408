import Lox.Number.Text

/-!
# Tokens

A token is a word of a program: its kind, the text it was read from and the position of that text.
A string or number token also carries the value that its text denotes. A program ends with a token
of the kind `eof`, whose text is empty.
-/

namespace Lox

/-- A place in a program's text. Lines and columns count from one, and a column counts
characters. -/
structure Position where
  /-- The line. -/
  line : Nat := 1
  /-- The column in its line. -/
  column : Nat := 1
deriving DecidableEq, Repr

namespace Position

/-- The position after a character that stands at `p`. -/
def next (p : Position) (c : Char) : Position :=
  if c = '\n' then ⟨p.line + 1, 1⟩ else ⟨p.line, p.column + 1⟩

/-- The position after a text that starts at `p`. -/
def advance (p : Position) (text : List Char) : Position :=
  text.foldl next p

end Position

namespace Token

/-- What a token is. The kinds `string` and `number` carry their values. -/
inductive Kind where
  | leftParen | rightParen | leftBrace | rightBrace | leftBracket | rightBracket
  | comma | dot | colon | minus | plus | semicolon | slash | star
  | bang | bangEqual | equal | equalEqual | greater | greaterEqual | less | lessEqual
  | identifier
  | string (value : String)
  | number (value : Float)
  | kwAnd | kwClass | kwElse | kwFalse | kwFun | kwFor | kwIf | kwNil | kwOr | kwPrint
  | kwReturn | kwSuper | kwThis | kwTrue | kwVar | kwWhile
  | eof
deriving DecidableEq, Repr

/-- The name of a kind in token listings and serialized tokens. -/
def Kind.name : Kind → String
  | .leftParen => "LEFT_PAREN"
  | .rightParen => "RIGHT_PAREN"
  | .leftBrace => "LEFT_BRACE"
  | .rightBrace => "RIGHT_BRACE"
  | .leftBracket => "LEFT_BRACKET"
  | .rightBracket => "RIGHT_BRACKET"
  | .comma => "COMMA"
  | .dot => "DOT"
  | .colon => "COLON"
  | .minus => "MINUS"
  | .plus => "PLUS"
  | .semicolon => "SEMICOLON"
  | .slash => "SLASH"
  | .star => "STAR"
  | .bang => "BANG"
  | .bangEqual => "BANG_EQUAL"
  | .equal => "EQUAL"
  | .equalEqual => "EQUAL_EQUAL"
  | .greater => "GREATER"
  | .greaterEqual => "GREATER_EQUAL"
  | .less => "LESS"
  | .lessEqual => "LESS_EQUAL"
  | .identifier => "IDENTIFIER"
  | .string _ => "STRING"
  | .number _ => "NUMBER"
  | .kwAnd => "AND"
  | .kwClass => "CLASS"
  | .kwElse => "ELSE"
  | .kwFalse => "FALSE"
  | .kwFun => "FUN"
  | .kwFor => "FOR"
  | .kwIf => "IF"
  | .kwNil => "NIL"
  | .kwOr => "OR"
  | .kwPrint => "PRINT"
  | .kwReturn => "RETURN"
  | .kwSuper => "SUPER"
  | .kwThis => "THIS"
  | .kwTrue => "TRUE"
  | .kwVar => "VAR"
  | .kwWhile => "WHILE"
  | .eof => "EOF"

/-- The kind of a word: a keyword, or else an identifier. -/
def Kind.ofWord : String → Kind
  | "and" => .kwAnd
  | "class" => .kwClass
  | "else" => .kwElse
  | "false" => .kwFalse
  | "fun" => .kwFun
  | "for" => .kwFor
  | "if" => .kwIf
  | "nil" => .kwNil
  | "or" => .kwOr
  | "print" => .kwPrint
  | "return" => .kwReturn
  | "super" => .kwSuper
  | "this" => .kwThis
  | "true" => .kwTrue
  | "var" => .kwVar
  | "while" => .kwWhile
  | _ => .identifier

end Token

/-- A word of a program. -/
structure Token where
  /-- What the token is. -/
  kind : Token.Kind
  /-- The text of the token, as written. -/
  lexeme : String
  /-- Where that text starts. -/
  position : Position
deriving DecidableEq, Repr

namespace Token

/-- The line on which the token starts. -/
def line (t : Token) : Nat :=
  t.position.line

/-- The token at the end of a program. -/
def endAt (p : Position) : Token :=
  ⟨.eof, "", p⟩

/-- The line of a token in a token listing: its kind, its text and its value. -/
def listing (t : Token) : String :=
  let value := match t.kind with
    | .string s => s
    | .number x => Number.tokenText x
    | _ => "null"
  t.kind.name ++ " " ++ t.lexeme ++ " " ++ value

/-- The property name that a token spells: the value of a string, the canonical text of a number,
and otherwise the text of the token. -/
def keyName (t : Token) : String :=
  match t.kind with
  | .string s => s
  | .number x => Number.text x
  | _ => t.lexeme

end Token

end Lox

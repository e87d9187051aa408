/-!
# JSON text

Serialized tokens and trees are JSON values. An object keeps the order of its fields, and a number
is kept as the text to be written. The compact form has no blanks; the indented form puts every
item on a line of its own.
-/

namespace Lox

/-- A JSON value. -/
inductive Json where
  /-- The word `null`. -/
  | null
  /-- A number, by its text. -/
  | number (text : String)
  /-- A string. -/
  | string (value : String)
  /-- An array. -/
  | array (items : List Json)
  /-- An object, whose fields stay in order. -/
  | object (fields : List (String × Json))

namespace Json

/-- A natural number as a JSON value. -/
def ofNat (n : Nat) : Json :=
  .number (toString n)

/-- The field of an object that names the case of a value, and the value. -/
def tagged (tag : String) (value : Json) : Json :=
  .object [(tag, value)]

/-- A hexadecimal digit in lower case. -/
def hexDigit (n : Nat) : Char :=
  if n < 10 then Char.ofNat ('0'.toNat + n) else Char.ofNat ('a'.toNat + (n - 10))

/-- The text of a character within a JSON string. Only quotes, backslashes and control characters
are escaped. -/
def escape : Char → List Char
  | '"' => ['\\', '"']
  | '\\' => ['\\', '\\']
  | '\n' => ['\\', 'n']
  | '\r' => ['\\', 'r']
  | '\t' => ['\\', 't']
  | '\x08' => ['\\', 'b']
  | '\x0c' => ['\\', 'f']
  | c =>
    if c.toNat < 0x20 then
      ['\\', 'u', '0', '0', hexDigit (c.toNat / 16), hexDigit (c.toNat % 16)]
    else [c]

/-- The JSON text of a string. -/
def quote (s : String) : String :=
  String.ofList ('"' :: s.toList.flatMap escape ++ ['"'])

mutual

/-- The text of a value without blanks. -/
def compact : Json → String
  | .null => "null"
  | .number text => text
  | .string s => quote s
  | .array items => "[" ++ String.intercalate "," (compactItems items) ++ "]"
  | .object fields => "\x7b" ++ String.intercalate "," (compactFields fields) ++ "\x7d"

/-- The texts of the items of an array. -/
def compactItems : List Json → List String
  | [] => []
  | v :: vs => compact v :: compactItems vs

/-- The texts of the fields of an object. -/
def compactFields : List (String × Json) → List String
  | [] => []
  | (name, v) :: fields => (quote name ++ ":" ++ compact v) :: compactFields fields

end

/-- The start of a line that is indented by a number of steps of two blanks. -/
def lineStart (depth : Nat) : String :=
  String.ofList ('\n' :: List.replicate (2 * depth) ' ')

/-- Items between two marks, each on a line of its own; without items the marks touch. -/
def indent (depth : Nat) (left right : String) (items : List String) : String :=
  if items.isEmpty then left ++ right
  else
    let inner := lineStart (depth + 1)
    left ++ inner ++ String.intercalate ("," ++ inner) items ++ lineStart depth ++ right

mutual

/-- The indented text of a value that is nested to a depth. -/
def prettyAt (depth : Nat) : Json → String
  | .null => "null"
  | .number text => text
  | .string s => quote s
  | .array items => indent depth "[" "]" (prettyItems (depth + 1) items)
  | .object fields => indent depth "\x7b" "\x7d" (prettyFields (depth + 1) fields)

/-- The indented texts of the items of an array. -/
def prettyItems (depth : Nat) : List Json → List String
  | [] => []
  | v :: vs => prettyAt depth v :: prettyItems depth vs

/-- The indented texts of the fields of an object. -/
def prettyFields (depth : Nat) : List (String × Json) → List String
  | [] => []
  | (name, v) :: fields => (quote name ++ ": " ++ prettyAt depth v) :: prettyFields depth fields

end

/-- The indented text of a value. -/
def pretty (v : Json) : String :=
  prettyAt 0 v

end Json

end Lox

import Lox.Token
import Lox.Number.Read

/-!
# Scanning

`scan` cuts a program's text into tokens. The text is read from left to right: `lexemeAt` says what
the text at hand begins with and how many characters belong to it, and the scan goes on with the
rest. So the lexemes and the gaps between them (blanks and comments) make up the whole text, and a
fault never hides what follows it. A token or fault is placed where its first character stands.
-/

namespace Lox.Token

open Number (isDigit isHexDigit)

/-- Why a piece of text is not a token. -/
inductive Fault where
  /-- No token starts with this character. -/
  | unexpected (c : Char)
  /-- A block comment does not end. -/
  | unterminatedComment
  /-- A string does not end. -/
  | unterminatedString
  /-- A string has a hexadecimal escape that is too short or denotes no character. -/
  | badEscape
  /-- A hexadecimal number has no digits. -/
  | hexDigitsMissing
  /-- A hexadecimal number, given with its text, does not fit in sixty-four bits. -/
  | hexTooLarge (lexeme : String)
  /-- The exponent of a number has no digits. -/
  | exponentDigitsMissing
deriving DecidableEq, Repr

/-- The message for a fault. -/
def Fault.message : Fault → String
  | .unexpected c => "Unexpected character: " ++ c.toString
  | .unterminatedComment => "Unterminated block comment."
  | .unterminatedString => "Unterminated string."
  | .badEscape => "Invalid escape sequence."
  | .hexDigitsMissing => "Invalid hexadecimal number."
  | .hexTooLarge lexeme => "Invalid hexadecimal number: " ++ lexeme
  | .exponentDigitsMissing => "Invalid number: expected digit after exponent."

/-- What a piece of text is. -/
inductive Lexeme where
  /-- Blank space or a comment. -/
  | gap
  /-- A token of this kind. -/
  | token (kind : Kind)
  /-- No token, for this reason. -/
  | fault (fault : Fault)
deriving DecidableEq, Repr

/-- Whether a character may stand between tokens. -/
def isSpace (c : Char) : Bool :=
  c == ' ' || c == '\r' || c == '\t' || c == '\n'

/-- Whether a character can start a word. -/
def isLetter (c : Char) : Bool :=
  ('a' ≤ c && c ≤ 'z') || ('A' ≤ c && c ≤ 'Z') || c == '_'

/-- Whether a character can continue a word. -/
def isWordChar (c : Char) : Bool :=
  isLetter c || isDigit c

/-! ## Comments -/

/-- The number of characters up to the end of a block comment, its closing mark included. -/
def commentEnd : List Char → Option Nat
  | '*' :: '/' :: _ => some 2
  | _ :: cs => (commentEnd cs).map (· + 1)
  | [] => none

/-- What starts with a slash that `cs` follows: a comment or the division sign. -/
def slashLexeme : List Char → Lexeme × Nat
  | '/' :: cs => (.gap, 1 + (cs.takeWhile (· != '\n')).length)
  | '*' :: cs =>
    match commentEnd cs with
    | some n => (.gap, 1 + n)
    | none => (.fault .unterminatedComment, 1 + cs.length)
  | _ => (.token .slash, 0)

/-! ## Strings -/

/-- An escape sequence: the number of characters after the backslash, the character it denotes,
and whether it is well formed. -/
structure Escape where
  /-- The characters that the escape takes after its backslash. -/
  taken : Nat
  /-- The character that the escape denotes. -/
  value : Option Char
  /-- Whether the escape is well formed. -/
  valid : Bool := true
deriving DecidableEq, Repr

/-- The character that a backslash and a letter denote. A letter without a meaning of its own
denotes itself. -/
def shortEscape : Char → Char
  | 'n' => '\n'
  | 't' => '\t'
  | 'r' => '\r'
  | 'b' => '\x08'
  | 'f' => '\x0c'
  | '0' => '\x00'
  | c => c

/-- A hexadecimal escape of a fixed width, after the letter that announces it. Digits are taken
up to the first character that is none. -/
def hexEscape (width : Nat) (cs : List Char) : Escape :=
  let ds := (cs.take width).takeWhile isHexDigit
  let n := Number.ofDigits 16 ds
  if ds.length = width ∧ n.isValidChar then ⟨1 + ds.length, some (Char.ofNat n), true⟩
  else ⟨1 + ds.length, none, false⟩

/-- The escape sequence that follows a backslash. At the end of the text there is none. -/
def escapeAt : List Char → Escape
  | [] => ⟨0, none, true⟩
  | 'x' :: cs => hexEscape 2 cs
  | 'u' :: cs => hexEscape 4 cs
  | c :: _ => ⟨1, some (shortEscape c), true⟩

/-- The text of a string after its opening quote. -/
structure Quoted where
  /-- The number of characters, the closing quote included. -/
  taken : Nat
  /-- The characters that the text denotes. -/
  value : List Char
  /-- Whether there is a closing quote. -/
  closed : Bool
  /-- Whether all escapes are well formed. -/
  valid : Bool
deriving DecidableEq, Repr

/-- The string that starts after an opening quote. A quote of the other sort has no special
meaning in it. -/
def quotedAt (quote : Char) : List Char → Quoted
  | [] => ⟨0, [], false, true⟩
  | c :: cs =>
    if c = quote then ⟨1, [], true, true⟩
    else if c = '\\' then
      let e := escapeAt cs
      let rest := quotedAt quote (cs.drop e.taken)
      ⟨1 + e.taken + rest.taken, e.value.toList ++ rest.value, rest.closed, e.valid && rest.valid⟩
    else
      let rest := quotedAt quote cs
      ⟨1 + rest.taken, c :: rest.value, rest.closed, rest.valid⟩
termination_by cs => cs.length
decreasing_by all_goals simp only [List.length_drop, List.length_cons]; omega

/-- The string token that starts with a quote before `cs`. -/
def stringLexeme (quote : Char) (cs : List Char) : Lexeme × Nat :=
  let q := quotedAt quote cs
  if !q.closed then (.fault .unterminatedString, q.taken)
  else if !q.valid then (.fault .badEscape, q.taken)
  else (.token (.string (String.ofList q.value)), q.taken)

/-! ## Numbers -/

/-- The digits after a point, if a point with digits after it comes next. -/
def fractionAt : List Char → List Char
  | '.' :: cs => cs.takeWhile isDigit
  | _ => []

/-- The exponent of a number: its sign, its digits and the number of characters it takes. -/
structure Exponent where
  /-- Whether the exponent has a minus sign. -/
  negative : Bool
  /-- The digits of the exponent. -/
  digits : List Char
  /-- The number of characters. -/
  taken : Nat
deriving DecidableEq, Repr

/-- The value of an exponent. -/
def Exponent.value (e : Exponent) : Int :=
  let n : Int := Number.ofDigits 10 e.digits
  if e.negative then -n else n

/-- The exponent that comes next, if its mark does. -/
def exponentAt : List Char → Option Exponent
  | [] => none
  | mark :: cs =>
    if mark = 'e' ∨ mark = 'E' then
      match cs with
      | '-' :: cs => let ds := cs.takeWhile isDigit; some ⟨true, ds, 2 + ds.length⟩
      | '+' :: cs => let ds := cs.takeWhile isDigit; some ⟨false, ds, 2 + ds.length⟩
      | cs => let ds := cs.takeWhile isDigit; some ⟨false, ds, 1 + ds.length⟩
    else none

/-- The decimal number that starts with the digit `c` before `cs`. -/
def decimalLexeme (c : Char) (cs : List Char) : Lexeme × Nat :=
  let whole := cs.takeWhile isDigit
  let afterWhole := cs.dropWhile isDigit
  let fraction := fractionAt afterWhole
  let point := if fraction.isEmpty then 0 else 1 + fraction.length
  match exponentAt (afterWhole.drop point) with
  | none =>
    (.token (.number (Number.ofDecimal (c :: whole) fraction 0)), whole.length + point)
  | some e =>
    let taken := whole.length + point + e.taken
    if e.digits.isEmpty then (.fault .exponentDigitsMissing, taken)
    else (.token (.number (Number.ofDecimal (c :: whole) fraction e.value)), taken)

/-- The hexadecimal number whose mark `0x` or `0X` stands before `cs`. -/
def hexLexeme (mark : Char) (cs : List Char) : Lexeme × Nat :=
  let ds := cs.takeWhile isHexDigit
  if ds.isEmpty then (.fault .hexDigitsMissing, 1)
  else
    match Number.ofHex? ds with
    | some x => (.token (.number x), 1 + ds.length)
    | none => (.fault (.hexTooLarge (String.ofList ('0' :: mark :: ds))), 1 + ds.length)

/-- The number that starts with the digit `c` before `cs`. -/
def numberLexeme (c : Char) : List Char → Lexeme × Nat
  | [] => decimalLexeme c []
  | x :: cs =>
    if c = '0' ∧ (x = 'x' ∨ x = 'X') then hexLexeme x cs else decimalLexeme c (x :: cs)

/-! ## Words and signs -/

/-- The word that starts with the letter `c` before `cs`. -/
def wordLexeme (c : Char) (cs : List Char) : Lexeme × Nat :=
  let tail := cs.takeWhile isWordChar
  (.token (.ofWord (String.ofList (c :: tail))), tail.length)

/-- The kind of a sign of two characters. -/
def pair? : Char → Option Char → Option Kind
  | '!', some '=' => some .bangEqual
  | '=', some '=' => some .equalEqual
  | '<', some '=' => some .lessEqual
  | '>', some '=' => some .greaterEqual
  | '&', some '&' => some .kwAnd
  | '|', some '|' => some .kwOr
  | _, _ => none

/-- The kind of a sign of one character. -/
def single? : Char → Option Kind
  | '(' => some .leftParen
  | ')' => some .rightParen
  | '{' => some .leftBrace
  | '}' => some .rightBrace
  | '[' => some .leftBracket
  | ']' => some .rightBracket
  | ',' => some .comma
  | '.' => some .dot
  | ':' => some .colon
  | '-' => some .minus
  | '+' => some .plus
  | ';' => some .semicolon
  | '*' => some .star
  | '!' => some .bang
  | '=' => some .equal
  | '<' => some .less
  | '>' => some .greater
  | _ => none

/-- The sign that starts with `c` before `cs`; the longer one is taken. -/
def signLexeme (c : Char) (cs : List Char) : Lexeme × Nat :=
  match pair? c cs.head? with
  | some kind => (.token kind, 1)
  | none =>
    match single? c with
    | some kind => (.token kind, 0)
    | none => (.fault (.unexpected c), 0)

/-! ## The whole text -/

/-- What the text `c :: cs` begins with, and how many characters after `c` belong to it. -/
def lexemeAt (c : Char) (cs : List Char) : Lexeme × Nat :=
  if isSpace c then (.gap, 0)
  else if c = '/' then slashLexeme cs
  else if c = '"' ∨ c = '\'' then stringLexeme c cs
  else if isDigit c then numberLexeme c cs
  else if isLetter c then wordLexeme c cs
  else signLexeme c cs

/-- What a scan yields: a token, or a fault and where it is. -/
inductive Item where
  /-- A token. -/
  | token (token : Token)
  /-- A piece of text that is no token. -/
  | fault (position : Position) (fault : Fault)
deriving DecidableEq, Repr

/-- The items of the text `cs`, which starts at `p`. -/
def scanFrom (p : Position) : List Char → List Item
  | [] => [.token (.endAt p)]
  | c :: cs =>
    let (lexeme, taken) := lexemeAt c cs
    let text := c :: cs.take taken
    let rest := scanFrom (p.advance text) (cs.drop taken)
    match lexeme with
    | .gap => rest
    | .token kind => .token ⟨kind, String.ofList text, p⟩ :: rest
    | .fault fault => .fault p fault :: rest
termination_by cs => cs.length
decreasing_by simp only [List.length_drop, List.length_cons]; omega

/-- The items of a program's text, in order. The last one is the end token. -/
def scan (source : String) : List Item :=
  scanFrom {} source.toList

/-- The token of an item that is one. -/
def Item.token? : Item → Option Token
  | .token t => some t
  | .fault _ _ => none

/-- The position and fault of an item that is no token. -/
def Item.fault? : Item → Option (Position × Fault)
  | .token _ => none
  | .fault p f => some (p, f)

end Lox.Token

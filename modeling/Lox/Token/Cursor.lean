import Lox.Token.Scan

/-!
# Scanning bytes

A text is stored as bytes in UTF-8, and `scanBytes` reads these bytes one after the other. A
`Cursor` is a place among the bytes, with what is known there about lines and columns.
`Cursor.nextItem` gives the next item and the place behind it, and past the end none. Characters
are not decoded on the way: wherever some of the text is needed, be it a word, a run of characters
in a string or the part of a line whose columns are counted, a `piece` is cut out from one byte up
to another. A piece that does not start and end between two characters stops the scan. So does a
byte that is taken past the end, and a turn of a loop that takes none.
-/

namespace Lox.Token

open Number (isDigit isHexDigit)

/-- Why a scan of bytes stops before its end. -/
inductive Stop where
  /-- Bytes are asked for past the end. -/
  | pastEnd
  /-- The bytes from one place up to another are no piece of the text. -/
  | noPiece (lo hi : Nat)
  /-- No byte is taken, and the scan would never end. -/
  | idle
deriving DecidableEq, Repr

/-- The byte at a place, as a character. Past the end it is zero. -/
def byteAt (text : String) (i : Nat) : Char :=
  .ofUInt8 (text.toUTF8.data.getD i 0)

/-- Whether a byte is one after the first in the bytes of a character. -/
def continues (b : Char) : Bool :=
  '\x80' ≤ b && b ≤ '\xbf'

/-- The piece of a text from one byte up to another. -/
def piece (text : String) (lo hi : Nat) : Except Stop String :=
  if lo ≤ hi ∧ String.Pos.Raw.isValid text ⟨lo⟩ ∧ String.Pos.Raw.isValid text ⟨hi⟩ then
    .ok (String.Pos.Raw.extract text ⟨lo⟩ ⟨hi⟩)
  else .error (.noPiece lo hi)

/-- A place among the bytes of a text. -/
structure Cursor where
  /-- Where the current lexeme starts. -/
  start : Nat := 0
  /-- The byte that is read next. -/
  next : Nat := 0
  /-- The line. -/
  line : Nat := 1
  /-- The place up to which the columns of the line are counted. -/
  mark : Nat := 0
  /-- The column of that place. -/
  column : Nat := 1
  /-- The position of the current lexeme. -/
  position : Position := {}
deriving DecidableEq, Repr

namespace Cursor

variable (text : String) (c : Cursor)

/-- The byte that is read next. -/
def peek : Char :=
  byteAt text c.next

/-- The byte after the one that is read next. -/
def peekNext : Char :=
  byteAt text (c.next + 1)

/-- Takes a byte. -/
def advance : Except Stop Cursor :=
  if c.next < text.utf8ByteSize then .ok { c with next := c.next + 1 } else .error .pastEnd

/-- Takes a byte, and starts a line if it is a line break. -/
def step : Except Stop Cursor := do
  let c' ← c.advance text
  if c.peek text = '\n' then
    return { c' with line := c'.line + 1, mark := c'.next, column := 1 }
  else return c'

/-- Counts the columns up to here. -/
def count : Except Stop Cursor := do
  let run ← piece text c.mark c.next
  return { c with mark := c.next, column := c.column + run.length }

/-- Starts a lexeme here. -/
def begin : Except Stop Cursor := do
  let c ← c.count text
  return { c with start := c.next, position := ⟨c.line, c.column⟩ }

/-- The text of the current lexeme. -/
def lexeme : Except Stop String :=
  piece text c.start c.next

/-- Goes on from a cursor that is further on in the text, or just past its end. -/
def onward (c' : Cursor)
    (go : c.next < c'.next ∧ c'.next ≤ text.utf8ByteSize + 1 → Except Stop α) : Except Stop α :=
  if h : c.next < c'.next ∧ c'.next ≤ text.utf8ByteSize + 1 then go h else .error .idle

/-! ## Comments, words and signs -/

/-- Takes bytes as long as they are of a class. -/
def skipWhile (p : Char → Bool) (c : Cursor) : Except Stop Cursor := do
  if p (c.peek text) then
    let c' ← c.advance text
    c.onward text c' fun _ => skipWhile p c'
  else return c
termination_by text.utf8ByteSize + 1 - c.next

/-- Takes the bytes up to the end of the line. -/
def skipLine : Except Stop Cursor :=
  let line := (text.toUTF8.data.toList.drop c.next).takeWhile (· != 10)
  if c.next ≤ text.utf8ByteSize then .ok { c with next := c.next + line.length }
  else .error .pastEnd

/-- A block comment, after the mark that opens it. -/
def blockComment (c : Cursor) : Except Stop (Lexeme × Cursor) := do
  if text.utf8ByteSize ≤ c.next then return (.fault .unterminatedComment, c)
  else if c.peek text = '*' ∧ c.peekNext text = '/' then
    return (.gap, { c with next := c.next + 2 })
  else
    let c' ← c.step text
    c.onward text c' fun _ => blockComment c'
termination_by text.utf8ByteSize + 1 - c.next

/-- What starts with a slash, after it: a comment or the division sign. -/
def slash : Except Stop (Lexeme × Cursor) := do
  if c.peek text = '/' then return (.gap, ← skipLine text (← c.advance text))
  else if c.peek text = '*' then blockComment text (← c.advance text)
  else return (.token .slash, c)

/-- A word, after its first letter. -/
def word : Except Stop (Lexeme × Cursor) := do
  let c ← c.skipWhile text isWordChar
  return (.token (.ofWord (← c.lexeme text)), c)

/-- A sign that starts with a byte, after it. A byte that starts none is part of a character that
does not belong in a program, and is taken with the rest of that character. -/
def other (first : Char) : Except Stop (Lexeme × Cursor) := do
  let following := if c.next < text.utf8ByteSize then some (c.peek text) else none
  match pair? first following with
  | some kind => return (.token kind, ← c.advance text)
  | none =>
    match single? first with
    | some kind => return (.token kind, c)
    | none =>
      let c ← c.skipWhile text continues
      return (.fault (.unexpected ((← c.lexeme text).toList.headD first)), c)

/-! ## Numbers -/

/-- Takes a point and the digits after it, if these come next. -/
def fraction : Except Stop Cursor := do
  if c.peek text = '.' ∧ isDigit (c.peekNext text) then
    (← c.advance text).skipWhile text isDigit
  else return c

/-- Takes a sign, if one comes next. -/
def plusOrMinus : Except Stop Cursor := do
  if c.peek text = '+' ∨ c.peek text = '-' then c.advance text else return c

/-- The number that the current lexeme is. -/
def decimalValue : Except Stop (Lexeme × Cursor) := do
  match (← c.lexeme text).toList with
  | [] => return (.gap, c)
  | d :: ds => return ((decimalLexeme d ds).1, c)

/-- A decimal number, after the mark of its exponent. -/
def exponent : Except Stop (Lexeme × Cursor) := do
  let c ← c.plusOrMinus text
  if isDigit (c.peek text) then
    let c ← c.skipWhile text isDigit
    c.decimalValue text
  else return (.fault .exponentDigitsMissing, c)

/-- A decimal number, after its first digit. -/
def decimal : Except Stop (Lexeme × Cursor) := do
  let c ← c.skipWhile text isDigit
  let c ← c.fraction text
  if c.peek text = 'e' ∨ c.peek text = 'E' then exponent text (← c.advance text)
  else c.decimalValue text

/-- A hexadecimal number, after its mark. -/
def hexadecimal : Except Stop (Lexeme × Cursor) := do
  if isHexDigit (c.peek text) then
    let c ← c.skipWhile text isHexDigit
    match Number.ofHex? (← piece text (c.start + 2) c.next).toList with
    | some x => return (.token (.number x), c)
    | none => return (.fault (.hexTooLarge (← c.lexeme text)), c)
  else return (.fault .hexDigitsMissing, c)

/-- A number, after its first digit. -/
def number (first : Char) : Except Stop (Lexeme × Cursor) := do
  if first = '0' ∧ (c.peek text = 'x' ∨ c.peek text = 'X') then
    hexadecimal text (← c.advance text)
  else c.decimal text

/-! ## Strings -/

/-- Takes hexadecimal digits, and says whether there are as many as asked for. -/
def hexRun : Nat → Cursor → Except Stop (Bool × Cursor)
  | 0, c => return (true, c)
  | width + 1, c => do
    if isHexDigit (c.peek text) then hexRun width (← c.advance text) else return (false, c)

/-- A hexadecimal escape of a fixed width, after the letter that announces it. -/
def hexEscape (width : Nat) : Except Stop (Option Char × Bool × Cursor) := do
  let (full, c') ← hexRun text width c
  if full then
    let n := Number.ofDigits 16 (← piece text c.next c'.next).toList
    if n.isValidChar then return (some (Char.ofNat n), true, c') else return (none, false, c')
  else return (none, false, c')

/-- The characters that take one byte behind a backslash and end the escape. -/
def escapeLetters : List Char :=
  ['n', 't', 'r', 'b', 'f', '0', '\\', '\'', '"', '\n']

/-- An escape sequence, after its backslash: the character that it denotes, if there is one, and
whether it is well formed. A character without a meaning of its own denotes itself. -/
def escape : Except Stop (Option Char × Bool × Cursor) := do
  if text.utf8ByteSize ≤ c.next then return (none, true, c)
  else
    let first := c.peek text
    let c' ← c.step text
    if first = 'x' then c'.hexEscape text 2
    else if first = 'u' then c'.hexEscape text 4
    else if first ∈ escapeLetters then
      return (some (shortEscape first), true, c')
    else
      let c' ← c'.skipWhile text continues
      return ((← piece text c.next c'.next).toList.head?, true, c')

/-- The rest of a string. Its characters up to the place `run` are in `value`, with the escapes
among them replaced, and `valid` says whether these are well formed. -/
def quoted (quote : Char) (run : Nat) (value : String) (valid : Bool) (c : Cursor) :
    Except Stop (Lexeme × Cursor) := do
  if text.utf8ByteSize ≤ c.next then return (.fault .unterminatedString, c)
  else if c.peek text = quote then
    let value := value ++ (← piece text run c.next)
    return (if valid then .token (.string value) else .fault .badEscape, ← c.advance text)
  else if c.peek text = '\\' then
    let value := value ++ (← piece text run c.next)
    let (char, good, c') ← escape text (← c.advance text)
    c.onward text c' fun _ =>
      quoted quote c'.next (value ++ String.ofList char.toList) (valid && good) c'
  else
    let c' ← c.step text
    c.onward text c' fun _ => quoted quote run value valid c'
termination_by text.utf8ByteSize + 1 - c.next

/-! ## The whole text -/

/-- What comes next in the text, from its first byte on. -/
def lexemeFrom : Except Stop (Lexeme × Cursor) := do
  let first := c.peek text
  let c ← c.step text
  if isSpace first then return (.gap, c)
  else if first = '/' then c.slash text
  else if first = '"' ∨ first = '\'' then quoted text first c.next "" true c
  else if isDigit first then c.number text first
  else if isLetter first then c.word text
  else c.other text first

/-- The next item, if there is one, and the place behind it. Gaps are passed over. Behind the text
comes the end token, and the place behind that is past the end, where there are no more items. -/
def nextItem (c : Cursor) : Except Stop (Option Item × Cursor) := do
  if text.utf8ByteSize < c.next then return (none, c)
  else if text.utf8ByteSize = c.next then
    let c ← c.count text
    return (some (.token (.endAt ⟨c.line, c.column⟩)), { c with next := c.next + 1 })
  else
    let (lexeme, c') ← lexemeFrom text (← c.begin text)
    match lexeme with
    | .gap => c.onward text c' fun _ => nextItem c'
    | .token kind => return (some (.token ⟨kind, ← c'.lexeme text, c'.position⟩), c')
    | .fault fault => return (some (.fault c'.position fault), c')
termination_by text.utf8ByteSize + 1 - c.next

/-- The items from a place on, until there are no more. -/
def items (c : Cursor) : Except Stop (List Item) := do
  match ← c.nextItem text with
  | (none, _) => return []
  | (some item, c') => return item :: (← c.onward text c' fun _ => items c')
termination_by text.utf8ByteSize + 1 - c.next

end Cursor

/-- The items of a program's text, read byte by byte. -/
def scanBytes (source : String) : Except Stop (List Item) :=
  Cursor.items source {}

end Lox.Token

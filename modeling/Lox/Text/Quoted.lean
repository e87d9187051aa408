import Lox.Text.Unseen

/-!
# Quoted text

A text in double quotes, as names and paths are shown in messages. Quotes and backslashes are
escaped, the usual control characters have short escapes, and a character that cannot be seen by
itself is shown by its number.
-/

namespace Lox.Text

/-- The text of a character within quotes. -/
def quotedChar : Char → List Char
  | '"' => ['\\', '"']
  | '\\' => ['\\', '\\']
  | '\n' => ['\\', 'n']
  | '\r' => ['\\', 'r']
  | '\t' => ['\\', 't']
  | '\x00' => ['\\', '0']
  | c =>
    if isUnseen c then ['\\', 'u', '\x7b'] ++ Nat.toDigits 16 c.toNat ++ ['\x7d'] else [c]

/-- A text in quotes. -/
def quoted (s : String) : String :=
  String.ofList ('"' :: s.toList.flatMap quotedChar ++ ['"'])

end Lox.Text

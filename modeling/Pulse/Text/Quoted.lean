/-
Text in double quotes, the way messages show a piece of source.

What would not show as itself is escaped: the quote and the backslash, the five control characters
with a short name, and by code point every character of `isHidden`. A single quote stays.
-/
import Pulse.Text.Hidden

set_option autoImplicit false

namespace Pulse.Text

/-- The code point of a character in lower-case hexadecimal, between `\u{` and `}`. -/
def codePoint (c : Char) : List Char :=
  ['\\', 'u', '\x7b'] ++ Nat.toDigits 16 c.toNat ++ ['\x7d']

/-- How a quoted text shows one character. -/
def escape (c : Char) : List Char :=
  if c = '\x00' then ['\\', '0']
  else if c = '\t' then ['\\', 't']
  else if c = '\r' then ['\\', 'r']
  else if c = '\n' then ['\\', 'n']
  else if c = '"' then ['\\', '"']
  else if c = '\\' then ['\\', '\\']
  else if isHidden c then codePoint c
  else [c]

/-- A text in double quotes. -/
def quoted (s : String) : String :=
  String.ofList ('"' :: s.toList.flatMap escape ++ ['"'])

end Pulse.Text

/-
A cursor that moves through a source text by bytes.

It may be moved anywhere, also past the end or into a character; only then is there no text at
it. Its offset is a 64-bit word, so a move that is long enough leads back to the start. Moving it
never changes its line. The positions taken from it are stored ones.
-/
import Pulse.Source.Position

set_option autoImplicit false

namespace Pulse

/-- A byte offset into a text, with a line number (`Lexer`). -/
structure Cursor where
  text : List Char
  offset : UInt64
  line : Nat

namespace Cursor

/-- The cursor at the start of a text (`Lexer::new`). -/
def ofText (cs : List Char) : Cursor := ⟨cs, 0, 1⟩

/-- Moves on by `n` bytes, around the range of words if need be (`Lexer::advance_n`). -/
def advance (c : Cursor) (n : Nat) : Cursor := { c with offset := c.offset + UInt64.ofNat n }

/-- The position `n` bytes behind the cursor, on its line. -/
def positionAfter (c : Cursor) (n : Nat) : Position :=
  Position.stored ⟨c.offset.toNat + n, c.line⟩

/-- The position of the cursor (`Lexer::position`). -/
def position (c : Cursor) : Position := c.positionAfter 0

/-- The stretch of the next `n` bytes, all on the cursor's line (`Lexer::span`). -/
def span (c : Cursor) (n : Nat) : Span := ⟨c.position, c.positionAfter n⟩

/-- The text behind the cursor, when it stands between two characters of it or at an end
(`Lexer::remainder`). -/
def remainder? (c : Cursor) : Option (List Char) := Text.dropBytes? c.offset.toNat c.text

/-- The character at the cursor; the null character stands for the end of the text (`Lexer::at`). -/
def current? (c : Cursor) : Option Char := c.remainder?.map fun cs => cs.headD '\x00'

/-- Whether the cursor is at or past the end of the text (`Lexer::at_eof`). -/
def atEnd (c : Cursor) : Bool := Text.byteSize c.text ≤ c.offset.toNat

end Cursor

end Pulse

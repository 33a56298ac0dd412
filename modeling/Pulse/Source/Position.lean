/-
Points and stretches of a source text.

A position is a byte offset together with the line it is on. Walking over a piece of text moves
both at once: the offset by the bytes of the piece, the line by its newlines.

A walk counts its bytes exactly, but what it leaves in tokens and errors are words of 32 bits. An
offset is cut to a word when it is stored, so in a text of 2^32 bytes or more two places can have
one offset. In shorter texts nothing is lost.
-/
import Pulse.Text.Bytes

set_option autoImplicit false

namespace Pulse

/-- A point of a source text: bytes before it, and its line from one.

Lines are not cut. In a text shorter than 2^32 bytes a word holds all of them, except for the line
behind the last newline of the text that has 2^32 - 1 newlines and nothing else. -/
structure Position where
  offset : Nat
  line : Nat
deriving DecidableEq

/-- A stretch of a source text. -/
structure Span where
  start : Position
  stop : Position
deriving DecidableEq

namespace Position

/-- Where every text starts. -/
def origin : Position := ⟨0, 1⟩

/-- The position that is in no text (`Position::null`). -/
def nowhere : Position := ⟨0, 0⟩

/-- The position behind a piece of text that starts at `p`. -/
def past (p : Position) (cs : List Char) : Position :=
  ⟨p.offset + Text.byteSize cs, p.line + cs.count '\n'⟩

/-- How many numbers there are that a word of 32 bits can hold. -/
def wordCount : Nat := 4294967296

/-- The position as a token or an error holds it, with the offset cut to a word. -/
def stored (p : Position) : Position := ⟨p.offset % wordCount, p.line⟩

/-- The stretch from a position over a piece of text, as a token holds it. -/
def spanOver (p : Position) (piece : List Char) : Span := ⟨p.stored, (p.past piece).stored⟩

/-- A cut changes nothing of an offset that fits. -/
theorem stored_eq {p : Position} (h : p.offset < wordCount) : p.stored = p := by
  rw [stored, Nat.mod_eq_of_lt h]

/-- Cutting an offset twice is cutting it once. -/
@[simp] theorem stored_stored (p : Position) : p.stored.stored = p.stored := by
  rw [stored, stored, Nat.mod_mod]

@[simp] theorem past_nil (p : Position) : p.past [] = p := by
  simp [past]

/-- Walking over two pieces is walking over their concatenation. -/
theorem past_append (p : Position) (cs ds : List Char) :
    p.past (cs ++ ds) = (p.past cs).past ds := by
  simp [past, Nat.add_assoc]

end Position

/-- The line a stretch starts on. -/
def Span.line (s : Span) : Nat := s.start.line

end Pulse

/-
The lines of a text and the line a byte offset falls on.

A line keeps its newline, so the lines of a text put together are the text again and offsets can
be counted through them. The offset just past the last byte belongs to no line; it is where the
end of the input is reported, and `lineAt` places it behind the last line.
-/
import Pulse.Text.Bytes

set_option autoImplicit false

namespace Pulse.Text

/-! ## Splitting into lines -/

/-- The lines of a text, each with the newline that ends it. Only the last line can lack one. -/
def lines : List Char → List (List Char)
  | [] => []
  | c :: cs =>
    if c = '\n' then [c] :: lines cs
    else
      match lines cs with
      | [] => [[c]]
      | l :: ls => (c :: l) :: ls

/-- The lines of a text put together are the text. -/
theorem flatten_lines (cs : List Char) : (lines cs).flatten = cs := by
  induction cs with
  | nil => rfl
  | cons c cs ih =>
    by_cases h : c = '\n'
    · simp [lines, h, ih]
    · cases hl : lines cs with
      | nil => simp_all [lines]
      | cons l ls => simp_all [lines]

/-! ## The line of an offset -/

/-- A place in a text by line: the line's number from one, its text, and the byte column. -/
structure Place where
  number : Nat
  text : List Char
  column : Nat
deriving DecidableEq

/-- Walks the lines from number `n` on for the one that holds the byte at `offset`. -/
def placeAmong (offset n : Nat) : List (List Char) → Option Place
  | [] => none
  | l :: ls =>
    if offset < byteSize l then some ⟨n, l, offset⟩
    else placeAmong (offset - byteSize l) (n + 1) ls

/-- Just past the last line. A text without lines counts as one empty line. -/
def placeAtEnd (cs : List Char) : Place :=
  let last := (lines cs).getLast?.getD []
  ⟨max (lines cs).length 1, last, byteSize last⟩

/-- The place of a byte offset (`get_line_at_position`). An offset past the end of the text has
none; the offset of the end itself is just past the last line. -/
def lineAt (cs : List Char) (offset : Nat) : Option Place :=
  if byteSize cs < offset then none
  -- Below the end some line holds the offset, so the default is only taken at the end itself.
  else some ((placeAmong offset 1 (lines cs)).getD (placeAtEnd cs))

end Pulse.Text

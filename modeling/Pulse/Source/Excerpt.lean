/-
A syntax error shown against the line it points at.

Under a header with the name, the tip and the place of the error stands the line itself, without
its indentation, and below it an arrow whose length is the byte column of the error behind that
indentation. An error outside the text has a header only. An arrow has a width of at most 16 bits,
so an error that is further to the right cannot be shown.
-/
import Pulse.Source.SyntaxError
import Pulse.Text.Lines
import Pulse.Text.WhiteSpace

set_option autoImplicit false

namespace Pulse.SyntaxError

/-- What an excerpt leaves out at the front of a line (`remove_starting_whitespace`). -/
def isIndent (c : Char) : Bool := c = ' ' || c = '\t'

/-- Name and tip of the error, then unit and line. -/
def header (unit : String) (e : SyntaxError) : List Char :=
  let tip :=
    match e.cause.tip? with
    | some tip => " (" ++ tip ++ ")"
    | none => ""
  ("Error: " ++ e.cause.name ++ tip ++ "\n-> " ++ unit ++ ":" ++ toString e.position.line
    ++ "\n").toList

/-- A bar, indented to stand behind a line number of `n` digits and a space. -/
def bar (n : Nat) : List Char := List.replicate (n + 1) ' ' ++ ['|']

/-- The width of the longest arrow, with its head. -/
def maxArrow : Nat := 65535

/-- The line of a place and the arrow to its column, if the arrow is not too long. -/
def excerpt? (place : Text.Place) : Option (List Char) :=
  let number := (toString place.number).toList
  let indent := place.text.takeWhile isIndent
  let shown := Text.trimEnd (place.text.dropWhile isIndent)
  let shaft := place.column - indent.length
  if maxArrow ≤ shaft then none
  else
    some (bar number.length ++ ['\n']
      ++ number ++ [' ', '|', ' '] ++ shown ++ ['\n']
      ++ bar number.length ++ [' '] ++ List.replicate shaft '-' ++ ['^', '\n'])

/-- The error as it is shown to the user, against the source it was found in (`format_error`). -/
def render? (unit : String) (source : String) (e : SyntaxError) : Option String :=
  let body :=
    match Text.lineAt source.toList e.position.offset with
    | some place => excerpt? place
    | none => some []
  body.map fun cs => String.ofList (e.header unit ++ cs)

end Pulse.SyntaxError

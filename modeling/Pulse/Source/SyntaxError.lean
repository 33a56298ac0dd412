/-
Syntax errors: why a text is no program, and where.

A cause names the offending piece of text. Beside its message it has a short name and, mostly, a
tip that tells the reader what to look for. The name of the compilation unit is not part of an
error; it is given when the error is shown.
-/
import Pulse.Source.Position
import Pulse.Text.Quoted

set_option autoImplicit false

namespace Pulse

/-- Why a text is no program (`ErrorImpl`). -/
inductive SyntaxError.Cause where
  | unrecognised (token : String)
  | unexpected (token : String)
  | unexpectedWhere (token message : String)
  | invalidNumber (token : String)
  | wideCharacter (token : String)
  | unterminatedComment
deriving DecidableEq

/-- A cause and the position it is reported at (`Error`). -/
structure SyntaxError where
  cause : SyntaxError.Cause
  position : Position
deriving DecidableEq

namespace SyntaxError

/-- The unit of positions that are in no text. -/
def noUnit : String := "<null>"

/-- The class of all syntax errors, beside the classes of faults a checked program can have. -/
def className : String := "SyntaxError"

namespace Cause

/-- The short name of a cause (`get_error_name`). -/
def name : Cause → String
  | unrecognised _ => "UnrecognisedToken"
  | unexpected _ => "UnexpectedToken"
  | unexpectedWhere _ _ => "UnexpectedTokenDetailed"
  | invalidNumber _ => "NumberParseError"
  | wideCharacter _ => "InvalidCharLiteral"
  | unterminatedComment => "UnterminatedComment"

/-- The message of a cause. -/
def message : Cause → String
  | unrecognised t => "unrecognised token: " ++ Text.quoted t
  | unexpected t => "unexpected token: " ++ Text.quoted t
  | unexpectedWhere t m => "unexpected token (" ++ m ++ "): " ++ Text.quoted t
  | invalidNumber t => "error parsing number: " ++ Text.quoted t
  | wideCharacter t => "invalid character literal: " ++ t
  | unterminatedComment => "unterminated block comment"

/-- A hint at what may be wrong (`get_tip`). -/
def tip? : Cause → Option String
  | unrecognised _ => none
  | unexpected t => some ("Unexpected token: `" ++ t ++ "`, did you miss a semicolon?")
  | unexpectedWhere t m => some ("Unexpected token: `" ++ t ++ "`, " ++ m)
  | invalidNumber t => some ("Invalid number: `" ++ t ++ "`, is it above the integer limit?")
  | wideCharacter t =>
    some ("Invalid character literal: `" ++ t ++ "`, only single bytes are supported")
  | unterminatedComment => some "Block comment is missing its closing `*/`"

end Cause

/-- The error on one line: unit, line, message. -/
def describe (unit : String) (e : SyntaxError) : String :=
  unit ++ ":" ++ toString e.position.line ++ ": " ++ e.cause.message

end SyntaxError

end Pulse

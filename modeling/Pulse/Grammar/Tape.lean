/-
A tape of tokens, read from left to right.

The tape stands on a current token and remembers where the last token that was passed ended. It
never passes the end of input. A list of tokens need not have an end of input; behind the last
token of such a list the tape goes on showing that token.
-/
import Pulse.Source.SyntaxError
import Pulse.Token.Basic

set_option autoImplicit false

namespace Pulse

/-- A current token, the tokens behind it, and the end of the last token passed (`Parser`).
`overrun` tells that the current token, the last of all, has been passed already. -/
structure Tape where
  current : Token
  rest : List Token
  lastEnd : Position
  overrun : Bool

namespace Tape

/-- The tape of a list of tokens, at its start. There is no tape without tokens. -/
def ofTokens? : List Token → Option Tape
  | [] => none
  | t :: ts => some ⟨t, ts, .origin, false⟩

/-- The kind of the current token. -/
def kind (t : Tape) : Kind := t.current.kind

/-- Whether there is anything before the end of input (`Parser::has_tokens`). -/
def hasMore (t : Tape) : Bool := t.kind ≠ .eof

/-- Passes the current token, unless it is the end of input (`Parser::advance`). Passing the last
token once more leaves no trace of where it ended. -/
def advance (t : Tape) : Tape :=
  if t.kind = .eof then t
  else
    match t.rest with
    | next :: rest => ⟨next, rest, t.current.span.stop, false⟩
    | [] =>
      -- Nothing follows, so the token stays in view although it is passed.
      { t with lastEnd := if t.overrun then .origin else t.current.span.stop, overrun := true }

/-- The stretch from `start` to the end of the last token passed (`Parser::span_from`). -/
def spanFrom (t : Tape) (start : Position) : Span := ⟨start, t.lastEnd⟩

/-- The error that the current token cannot stand where it is (`Parser::unexpected`). -/
def unexpected (t : Tape) : SyntaxError := ⟨.unexpected t.current.value, t.current.span.start⟩

/-- The same, with a word on what should stand there (`Parser::unexpected_detailed`). -/
def unexpectedWhere (t : Tape) (message : String) : SyntaxError :=
  ⟨.unexpectedWhere t.current.value message, t.current.span.start⟩

/-- A bound on the tokens that can be passed, with one to spare: enough for every reader that
passes a token before it calls itself. -/
def fuel (t : Tape) : Nat := t.rest.length + 2

end Tape

end Pulse

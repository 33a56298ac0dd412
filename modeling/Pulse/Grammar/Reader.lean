/-
Readers: what takes tokens from a tape and makes something of them.

A reader ends with a value or with a syntax error, and either way with the tape where it stopped.
The third outcome is that it never ends; it arises when a reader would call itself without having
passed a token, and is kept apart from errors so that its absence can be stated.
-/
import Pulse.Grammar.Tape

set_option autoImplicit false

namespace Pulse

/-- How reading from a tape turns out. -/
inductive Outcome (α : Type) where
  | ok (value : α) (tape : Tape)
  | error (e : SyntaxError) (tape : Tape)
  | endless

/-- A reader of values of type `α`. -/
def Reader (α : Type) : Type := Tape → Outcome α

namespace Reader

variable {α β : Type}

/-- Takes nothing. -/
protected def pure (a : α) : Reader α := fun t => .ok a t

/-- Goes on where the first reader stopped, unless it failed. -/
protected def bind (r : Reader α) (f : α → Reader β) : Reader β := fun t =>
  match r t with
  | .ok a t => f a t
  | .error e t => .error e t
  | .endless => .endless

instance : Monad Reader where
  pure := Reader.pure
  bind := Reader.bind

/-- Never ends. -/
def endless : Reader α := fun _ => .endless

/-- Fails with an error. -/
def fail (e : SyntaxError) : Reader α := fun t => .error e t

/-- Asks the tape. -/
def ask (f : Tape → α) : Reader α := fun t => .ok (f t) t

/-- The current token. -/
def current : Reader Token := ask Tape.current

/-- The kind of the current token. -/
def kind : Reader Kind := ask Tape.kind

/-- The stretch from `start` to the end of the last token passed. -/
def spanFrom (start : Position) : Reader Span := ask (Tape.spanFrom · start)

/-- Passes the current token and gives it. -/
def advance : Reader Token := fun t => .ok t.current t.advance

/-- Fails at the current token. -/
def unexpected : Reader α := fun t => .error t.unexpected t

/-- Fails at the current token with a word on what should stand there. -/
def unexpectedWhere (message : String) : Reader α := fun t => .error (t.unexpectedWhere message) t

/-- Passes a token of the given kind, or fails at it (`Parser::expect`). -/
def expect (k : Kind) : Reader Token := do
  if (← kind) = k then advance else unexpected

/-- Passes a token of the given kind, or fails at it with a word on what should stand there
(`Parser::expect_error`). -/
def expectWhere (k : Kind) (message : String) : Reader Token := do
  if (← kind) = k then advance else unexpectedWhere message

end Reader

end Pulse

/-
Events of a compilation, for those who want to follow it.

An event is a value, and the parts of the compiler that raise events return them in order. Each
has a level and a message; what else it tells is in its fields.
-/
import Pulse.Typing.Fault
import Pulse.Typing.Scope

set_option autoImplicit false

namespace Pulse

/-- Levels of events, the most severe first. -/
inductive Level where
  | error
  | warn
  | info
  | debug
  | trace
deriving DecidableEq

namespace Level

/-- The place of a level in the order. -/
def rank : Level → Nat
  | error => 0
  | warn => 1
  | info => 2
  | debug => 3
  | trace => 4

/-- Whether events of level `l` are wanted by someone who asked for this level. -/
def admits (asked l : Level) : Bool := l.rank ≤ asked.rank

end Level

/-- What can happen during a compilation. -/
inductive Event where
  | tokenized (tokens : Nat)
  | parsed (statements : Nat)
  | declared (symbol : Symbol) (isGlobal : Bool)
  | reported (diagnostic : Diagnostic)
  | enteredBody (function : String) (line : Nat)
  | finished (globals functions errors : Nat)
  | checked (errors : Nat)
  | lowering (function symbol : String)
deriving DecidableEq

namespace Event

/-- The level of an event. -/
def level : Event → Level
  | tokenized _ | parsed _ | checked _ => .info
  | declared _ _ => .trace
  | reported _ | enteredBody _ _ | finished _ _ _ | lowering _ _ => .debug

/-- The message of an event. -/
def message : Event → String
  | tokenized _ => "tokenized"
  | parsed _ => "parsed"
  | declared _ _ => "declared symbol"
  | reported d => d.fault.message
  | enteredBody _ _ => "checking function body"
  | finished _ _ _ => "type checking finished"
  | checked _ => "type checked"
  | lowering _ _ => "lowering function"

/-- The diagnostic that an event reports, if it does. -/
def diagnostic? : Event → Option Diagnostic
  | reported d => some d
  | _ => none

end Event

end Pulse

/-
What can go wrong behind the three-address code, when object code is made of it.
-/
set_option autoImplicit false

namespace Pulse.Code

/-- Errors of the back end (`CodegenError`). -/
inductive BackendError where
  | unknownRegister (function register : String)
  | unknownLocation (function name : String)
  | unknownFunction (name : String)
  | missingParameter (function : String) (index : Nat)
  | voidCall (name : String)
  | target (message : String)
  | link (message : String)
  | verify (message : String)
  | write (path message : String)
deriving DecidableEq

/-- The message of an error. -/
def BackendError.message : BackendError → String
  | unknownRegister f r => "register " ++ r ++ " used before it was written in '" ++ f ++ "'"
  | unknownLocation f n => "unknown storage location '" ++ n ++ "' in '" ++ f ++ "'"
  | unknownFunction n => "call to unknown function '" ++ n ++ "'"
  | missingParameter f i => "function '" ++ f ++ "' has no parameter " ++ toString i
  | voidCall n => "call to '" ++ n ++ "' produced no value"
  | target m => "target machine error: " ++ m
  | link m => "could not link runtime: " ++ m
  | verify m => "module failed verification: " ++ m
  | write p m => "could not write '" ++ p ++ "': " ++ m

end Pulse.Code

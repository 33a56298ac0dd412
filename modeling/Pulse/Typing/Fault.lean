/-
Faults of a program: what can be wrong with it although it is well formed.

A fault names what it is about, types and operators in the spelling of the source. Faults come in
three classes: about names, about types, and about the structure of the program. A diagnostic is a
fault at a line.
-/
set_option autoImplicit false

namespace Pulse

/-- The classes of faults (`ErrorKind`). -/
inductive Fault.Class where
  | name
  | type
  | structural
deriving DecidableEq

/-- The name of a class in messages. -/
def Fault.Class.text : Fault.Class → String
  | name => "NameError"
  | type => "TypeError"
  | structural => "StructuralError"

/-- What is wrong with a program (`SemanticError`). -/
inductive Fault where
  | undefinedName (name : String)
  | alreadyDefined (name : String) (previousLine : Nat)
  | illegalName (name : String)
  | writeToConstant (name : String)
  | unknownType (name : String)
  | unsupportedBinary (operator left right : String)
  | unsupportedUnary (operator operand : String)
  | declarationMismatch (name declared received : String)
  | assignmentMismatch (name expected received : String)
  | conditionNotBool (received : String)
  | returnMismatch (expected received : String)
  | callMismatch (name expected received : String)
  | nestedFunction (name : String)
  | returnOutsideFunction
  | missingReturn (name : String)
  | functionAlreadyDefined (name : String) (previousLine : Nat)
  | duplicateParameter (name : String)
  | undeclaredFunction (name : String)
  | invalidEntrySignature (name : String)
deriving DecidableEq

namespace Fault

/-- The class that a fault belongs to (`SemanticError::kind`). -/
def category : Fault → Class
  | undefinedName _ | alreadyDefined _ _ | illegalName _ | writeToConstant _ => .name
  | unknownType _ | unsupportedBinary _ _ _ | unsupportedUnary _ _ | declarationMismatch _ _ _
  | assignmentMismatch _ _ _ | conditionNotBool _ | returnMismatch _ _ | callMismatch _ _ _ => .type
  | nestedFunction _ | returnOutsideFunction | missingReturn _ | functionAlreadyDefined _ _
  | duplicateParameter _ | undeclaredFunction _ | invalidEntrySignature _ => .structural

/-- The message of a fault. -/
def message : Fault → String
  | undefinedName n => "Name '" ++ n ++ "' was not defined"
  | alreadyDefined n l => "Name '" ++ n ++ "' has already been defined at line " ++ toString l
  | illegalName n => "Name '" ++ n ++ "' is not a legal name for variable declaration"
  | writeToConstant n => "Cannot write to constant '" ++ n ++ "'"
  | unknownType n => "Invalid type '" ++ n ++ "'"
  | unsupportedBinary o l r =>
    "Binary operation '" ++ l ++ " " ++ o ++ " " ++ r ++ "' not supported"
  | unsupportedUnary o t => "Unary operation '" ++ o ++ " " ++ t ++ "' not supported"
  | declarationMismatch n d r =>
    "Declaring variable '" ++ n ++ "' of type '" ++ d ++ "' but assigned expression of type '"
      ++ r ++ "'"
  | assignmentMismatch n e r =>
    "Cannot assign type '" ++ r ++ "' to variable '" ++ n ++ "' of type '" ++ e ++ "'"
  | conditionNotBool r => "Condition must be of type 'bool' but got type '" ++ r ++ "'"
  | returnMismatch e r =>
    "Function returns '" ++ e ++ "' but return statement value is of type '" ++ r ++ "'"
  | callMismatch n e r => "Function '" ++ n ++ "' expects " ++ e ++ ", but was called with " ++ r
  | nestedFunction n => "Illegal nested function declaration '" ++ n ++ "'"
  | returnOutsideFunction => "Return statement must be within a function"
  | missingReturn n => "Function '" ++ n ++ "' has no return statement"
  | functionAlreadyDefined n l => "Function '" ++ n ++ "' already defined at line " ++ toString l
  | duplicateParameter n => "Duplicate parameter names at function definition '" ++ n ++ "'"
  | undeclaredFunction n => "Function '" ++ n ++ "' is not declared"
  | invalidEntrySignature n =>
    "Entry function '" ++ n ++ "' must take no parameters and return 'int'"

end Fault

/-- A fault at a line. -/
structure Diagnostic where
  line : Nat
  fault : Fault
deriving DecidableEq

/-- The diagnostic on one line, behind the name of the unit if there is one. -/
def Diagnostic.describe (unit : Option String) (d : Diagnostic) : String :=
  let place := toString d.line ++ ": " ++ d.fault.message
  match unit with
  | some unit => unit ++ ":" ++ place
  | none => place

end Pulse

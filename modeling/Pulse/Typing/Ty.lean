/-
The scalar types and the typing rules of the operators.

There is no conversion between types: both operands of an operator have the same type, and a
combination that is not listed in the rules has no result.
-/
import Pulse.Syntax.Expr

set_option autoImplicit false

namespace Pulse

/-- The types of values (`Type`). -/
inductive Ty where
  | int
  | float
  | char
  | bool
deriving DecidableEq

namespace Ty

/-- All types. -/
def all : List Ty := [int, float, char, bool]

/-- The name of a type in source texts and messages. -/
def name : Ty → String
  | int => "int"
  | float => "float"
  | char => "char"
  | bool => "bool"

/-- The type of a given name (`Type::from_name`). -/
def ofName? (s : String) : Option Ty := all.find? fun ty => ty.name = s

/-- Whether a name is that of a type (`Type::is_type_name`). Such names cannot be declared. -/
def isTypeName (s : String) : Bool := (ofName? s).isSome

/-- The type of a binary operation on operands of the given types (`Type::binary_result`). -/
def binary? (op : BinaryOp) (left right : Ty) : Option Ty :=
  if left ≠ right then none
  else
    match op, left with
    | .arith _, .int => some .int
    | .arith _, .float => some .float
    | .compare _, .int => some .bool
    | .compare _, .float => some .bool
    | .compare _, .char => some .bool
    | .compare op, .bool => if op.isEquality then some .bool else none
    | .logic _, .bool => some .bool
    | _, _ => none

/-- The type of a unary operation on an operand of the given type (`Type::unary_result`). -/
def unary? : UnaryOp → Ty → Option Ty
  | .plus, .int => some .int
  | .plus, .float => some .float
  | .minus, .int => some .int
  | .minus, .float => some .float
  | .not, .bool => some .bool
  | _, _ => none

end Ty

/-- The type of a literal. -/
def Literal.ty : Literal → Ty
  | int _ => .int
  | float _ => .float
  | char _ => .char
  | bool _ => .bool

end Pulse

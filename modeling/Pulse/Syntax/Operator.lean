/-
The operators of expressions.

Binary operators come in three groups, which is how the typing rules and the instruction set treat
them: arithmetic, comparison and logic. The grouping is in the type, so a function on operators
that knows the three groups knows all operators.
-/
import Pulse.Token.Basic

set_option autoImplicit false

namespace Pulse

/-- Arithmetic operators. -/
inductive ArithOp where
  | add | sub | mul | div
deriving DecidableEq

/-- Comparisons. -/
inductive CompareOp where
  | less | lessEquals | greater | greaterEquals | equals | notEquals
deriving DecidableEq

/-- Logical connectives. -/
inductive LogicOp where
  | and | or
deriving DecidableEq

/-- Operators with two operands (`BinaryOperator`). -/
inductive BinaryOp where
  | arith (op : ArithOp)
  | compare (op : CompareOp)
  | logic (op : LogicOp)
deriving DecidableEq

/-- Operators with one operand (`UnaryOperator`). -/
inductive UnaryOp where
  | plus | minus | not
deriving DecidableEq

/-- The sign of an arithmetic operator. -/
def ArithOp.symbol : ArithOp → String
  | add => "+"
  | sub => "-"
  | mul => "*"
  | div => "/"

/-- The sign of a comparison. -/
def CompareOp.symbol : CompareOp → String
  | less => "<"
  | lessEquals => "<="
  | greater => ">"
  | greaterEquals => ">="
  | equals => "="
  | notEquals => "!="

/-- Whether a comparison only asks if two values are the same (`is_equality`). -/
def CompareOp.isEquality : CompareOp → Bool
  | equals | notEquals => true
  | _ => false

/-- The sign of a connective. -/
def LogicOp.symbol : LogicOp → String
  | and => "&&"
  | or => "||"

namespace BinaryOp

/-- All binary operators. -/
def all : List BinaryOp :=
  [arith .add, arith .sub, arith .mul, arith .div, compare .less, compare .lessEquals,
   compare .greater, compare .greaterEquals, compare .equals, compare .notEquals, logic .and,
   logic .or]

/-- The sign of an operator (`BinaryOperator::symbol`). -/
def symbol : BinaryOp → String
  | arith op => op.symbol
  | compare op => op.symbol
  | logic op => op.symbol

/-- The operator that a token stands for between two operands (`BinaryOperator::from_token`). -/
def ofKind? : Kind → Option BinaryOp
  | .plus => some (arith .add)
  | .dash => some (arith .sub)
  | .star => some (arith .mul)
  | .slash => some (arith .div)
  | .less => some (compare .less)
  | .lessEquals => some (compare .lessEquals)
  | .greater => some (compare .greater)
  | .greaterEquals => some (compare .greaterEquals)
  | .equals => some (compare .equals)
  | .notEquals => some (compare .notEquals)
  | .and => some (logic .and)
  | .or => some (logic .or)
  | _ => none

/-- The operator as an arithmetic one (`ArithmeticOp::from_operator`). -/
def arith? : BinaryOp → Option ArithOp
  | arith op => some op
  | _ => none

/-- The operator as a comparison (`CompareOp::from_operator`). -/
def compare? : BinaryOp → Option CompareOp
  | compare op => some op
  | _ => none

/-- The operator as a connective (`BitwiseOp::from_operator`). -/
def logic? : BinaryOp → Option LogicOp
  | logic op => some op
  | _ => none

/-- **Every operator is in one of the three groups, and in no other.** So code that asks for the
groups one after the other has an answer for every operator, whatever the order. -/
theorem group_cases (op : BinaryOp) :
    (∃ o, op.compare? = some o ∧ op.arith? = none ∧ op.logic? = none) ∨
      (∃ o, op.compare? = none ∧ op.arith? = some o ∧ op.logic? = none) ∨
      ∃ o, op.compare? = none ∧ op.arith? = none ∧ op.logic? = some o := by
  cases op with
  | compare o => exact .inl ⟨o, rfl, rfl, rfl⟩
  | arith o => exact .inr (.inl ⟨o, rfl, rfl, rfl⟩)
  | logic o => exact .inr (.inr ⟨o, rfl, rfl, rfl⟩)

end BinaryOp

namespace UnaryOp

/-- All unary operators. -/
def all : List UnaryOp := [plus, minus, not]

/-- The sign of an operator (`UnaryOperator::symbol`). -/
def symbol : UnaryOp → String
  | plus => "+"
  | minus => "-"
  | not => "!"

/-- The operator that a token stands for in front of an operand (`UnaryOperator::from_token`). -/
def ofKind? : Kind → Option UnaryOp
  | .plus => some plus
  | .dash => some minus
  | .not => some not
  | _ => none

end UnaryOp

end Pulse

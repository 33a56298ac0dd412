/-
Expressions.

The same tree serves the reader and the checker: every node carries a note, and the type of notes
is a parameter. Read from tokens, a node's note is the stretch of source it covers; checked, it is
what the checker found out. Two expressions are alike when they differ in notes only.
-/
import Pulse.Number.Binary64
import Pulse.Syntax.Operator

set_option autoImplicit false

namespace Pulse

open Number (Binary64)

/-- Values written down in a program. -/
inductive Literal where
  | int (value : Int32)
  | float (value : Binary64)
  | char (value : UInt8)
  | bool (value : Bool)
deriving DecidableEq

/-- Expressions with notes of type `α` at their nodes (`ExprKind`). -/
inductive Expr (α : Type) where
  | literal (note : α) (value : Literal)
  | read (note : α) (name : String)
  | binary (note : α) (op : BinaryOp) (left right : Expr α)
  | unary (note : α) (op : UnaryOp) (operand : Expr α)
  | call (note : α) (name : String) (arguments : List (Expr α))

/-- Equality of literals as values: floats are compared as numbers. -/
def Literal.alike : Literal → Literal → Bool
  | int v, int w => v == w
  | float v, float w => v.equal w
  | char v, char w => v == w
  | bool v, bool w => v == w
  | _, _ => false

namespace Expr

variable {α β : Type}

/-- The note of the topmost node. -/
def note : Expr α → α
  | literal n _ => n
  | read n _ => n
  | binary n _ _ _ => n
  | unary n _ _ => n
  | call n _ _ => n

mutual

/-- Whether two expressions are the same but for their notes. -/
def alike : Expr α → Expr β → Bool
  | literal _ v, literal _ w => v.alike w
  | read _ x, read _ y => x == y
  | binary _ o l r, binary _ p m s => o == p && l.alike m && r.alike s
  | unary _ o e, unary _ p f => o == p && e.alike f
  | call _ f as, call _ g bs => f == g && alikeAll as bs
  | _, _ => false

/-- Whether two argument lists are the same but for notes. -/
def alikeAll : List (Expr α) → List (Expr β) → Bool
  | [], [] => true
  | a :: as, b :: bs => a.alike b && alikeAll as bs
  | _, _ => false

end

end Expr

end Pulse

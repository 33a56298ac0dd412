/-
Checking expressions.

A checked expression is the expression with a type at every node, next to the diagnostics it gives
rise to, in the order of the nodes from left to right and from the operands to the operator. A
node with an operand of unknown type has no type either and is not reported again. Checking an
expression changes nothing: it looks up names in a scope and functions by name.
-/
import Pulse.Source.Position
import Pulse.Syntax.Stmt
import Pulse.Typing.Fault
import Pulse.Typing.Scope
import Pulse.Typing.Tree

set_option autoImplicit false

namespace Pulse

/-- What is known of a function that may be called (`FunctionSignature`). A type is missing when its
annotation is not the name of a type. -/
structure Signature where
  name : String
  params : List (Option Ty)
  returns : Option Ty
  line : Nat
deriving DecidableEq

/-- What an expression may refer to. -/
structure Context where
  scope : Scope
  callee? : String → Option Signature

/-- Types in parentheses; a question mark stands for an unknown one (`format_partial_tuple`). -/
def typeTuple (types : List (Option Ty)) : String :=
  "(" ++ ", ".intercalate (types.map fun ty => (ty.map Ty.name).getD "?") ++ ")"

namespace Context

/-- The type of a binary operation, reported when both operands have a type and it has none. -/
def binary (line : Nat) (op : BinaryOp) :
    Option Ty → Option Ty → Option Ty × List Diagnostic
  | some left, some right =>
    match Ty.binary? op left right with
    | some ty => (some ty, [])
    | none => (none, [⟨line, .unsupportedBinary op.symbol left.name right.name⟩])
  | _, _ => (none, [])

/-- The type of a unary operation, reported when the operand has a type and it has none. -/
def unary (line : Nat) (op : UnaryOp) : Option Ty → Option Ty × List Diagnostic
  | some operand =>
    match Ty.unary? op operand with
    | some ty => (some ty, [])
    | none => (none, [⟨line, .unsupportedUnary op.symbol operand.name⟩])
  | none => (none, [])

/-- The type of a read. -/
def read (ctx : Context) (line : Nat) (name : String) : Option Ty × List Diagnostic :=
  match ctx.scope.lookup? name with
  | some symbol => (symbol.ty, [])
  | none => (none, [⟨line, .undefinedName name⟩])

/-- The type of a call with arguments of the given types (`check_call`). The number of arguments is
compared even if some have no type; their types are compared only when all of them and all
parameters have one. -/
def call (ctx : Context) (line : Nat) (name : String) (received : List (Option Ty)) :
    Option Ty × List Diagnostic :=
  match ctx.callee? name with
  | none => (none, [⟨line, .undeclaredFunction name⟩])
  | some callee =>
    let mismatch : Diagnostic :=
      ⟨line, .callMismatch name (typeTuple callee.params) (typeTuple received)⟩
    if received.length ≠ callee.params.length then (none, [mismatch])
    -- What has no type was reported where it stands, so it is not held against the call as well.
    else if received.any Option.isNone || callee.params.any Option.isNone then (callee.returns, [])
    else if received ≠ callee.params then (none, [mismatch])
    else (callee.returns, [])

mutual

/-- The checked expression and its diagnostics (`check_expr`). -/
def expr (ctx : Context) : Expr Span → Expr Typing × List Diagnostic
  | .literal span value => (.literal ⟨some value.ty, span.line⟩ value, [])
  | .read span name =>
    let (ty, faults) := ctx.read span.line name
    (.read ⟨ty, span.line⟩ name, faults)
  | .binary span op left right =>
    let (left, leftFaults) := ctx.expr left
    let (right, rightFaults) := ctx.expr right
    let (ty, faults) := binary span.line op left.ty right.ty
    (.binary ⟨ty, span.line⟩ op left right, leftFaults ++ rightFaults ++ faults)
  | .unary span op operand =>
    let (operand, operandFaults) := ctx.expr operand
    let (ty, faults) := unary span.line op operand.ty
    (.unary ⟨ty, span.line⟩ op operand, operandFaults ++ faults)
  | .call span name arguments =>
    let (arguments, argumentFaults) := ctx.exprs arguments
    let (ty, faults) := ctx.call span.line name (arguments.map Expr.ty)
    (.call ⟨ty, span.line⟩ name arguments, argumentFaults ++ faults)

/-- The checked expressions of a list and their diagnostics. -/
def exprs (ctx : Context) : List (Expr Span) → List (Expr Typing) × List Diagnostic
  | [] => ([], [])
  | e :: es =>
    let (e, faults) := ctx.expr e
    let (es, otherFaults) := ctx.exprs es
    (e :: es, faults ++ otherFaults)

end

end Context

end Pulse

/-
Reading expressions by binding power.

An expression above a power is a head and all tails behind it that bind tighter than that power.
Each form is a reader that is given the reader for expressions inside it, so no form calls itself;
`Grammar.expr` ties the knot. Its first argument bounds how deep expressions may nest and how many
parts they may have, and a tape's `fuel` is always enough for a grammar whose forms pass a token
before they read on.
-/
import Pulse.Grammar.Reader
import Pulse.Grammar.Table
import Pulse.Number.Integer
import Pulse.Number.Rounding
import Pulse.Syntax.Stmt

set_option autoImplicit false

namespace Pulse

/-- A reader for the expressions inside a form: those whose operators bind tighter than a power. -/
abbrev Operands : Type := Power → Reader (Expr Span)

/-! ## Heads -/

/-- Passes the current token and gives an expression that stands for it. -/
def Reader.accept (e : Expr Span) : Reader (Expr Span) := do
  let _ ← Reader.advance
  return e

/-- A literal or a name (`parse_primary_expr`). A number out of range is an error at its token; any
other token than the five kinds of operands is unexpected. -/
def readPrimary : Reader (Expr Span) := do
  let t ← Reader.current
  match t.kind with
  | .integer =>
    match Number.readInteger? t.value.toList with
    | some v => Reader.accept (.literal t.span (.int v))
    | none => Reader.fail ⟨.invalidNumber t.value, t.span.start⟩
  | .float =>
    match Number.readDecimal? t.value.toList with
    | some v => Reader.accept (.literal t.span (.float v))
    | none => Reader.fail ⟨.invalidNumber t.value, t.span.start⟩
  | .char =>
    -- The low byte of the first character; a scanned token has a single byte as its value.
    Reader.accept (.literal t.span (.char (UInt8.ofNat (t.value.toList.headD '\x00').toNat)))
  | .bool => Reader.accept (.literal t.span (.bool (t.value = "true")))
  | .identifier => Reader.accept (.read t.span t.value)
  | _ => Reader.unexpected

/-- An operator in front of an operand (`parse_prefix_expr`). -/
def readUnary (operands : Operands) : Reader (Expr Span) := do
  let t ← Reader.advance
  match UnaryOp.ofKind? t.kind with
  | some op =>
    let operand ← operands .unary
    return .unary ⟨t.span.start, operand.note.stop⟩ op operand
  | none => Reader.fail ⟨.unexpected t.value, t.span.start⟩

/-- An expression in parentheses (`parse_grouping_expr`). The parentheses leave no trace in the
tree. -/
def readGroup (operands : Operands) : Reader (Expr Span) := do
  let _ ← Reader.advance
  let e ← operands .default
  let _ ← Reader.expectWhere .closeParen "expected `)` to close the group"
  return e

/-- The head of a given form. -/
def HeadForm.read (operands : Operands) : HeadForm → Reader (Expr Span)
  | primary => readPrimary
  | unary => readUnary operands
  | group => readGroup operands

/-! ## Tails -/

/-- An operator and its second operand, behind the first (`parse_binary_expr`). -/
def readBinary (operands : Operands) (left : Expr Span) (power : Power) : Reader (Expr Span) := do
  let t ← Reader.advance
  match BinaryOp.ofKind? t.kind with
  | some op =>
    let right ← operands power
    return .binary ⟨left.note.start, right.note.stop⟩ op left right
  | none => Reader.fail ⟨.unexpected t.value, t.span.start⟩

/-- One or more expressions with commas between them. -/
def readArguments (operands : Operands) : Nat → Reader (List (Expr Span))
  | 0 => Reader.endless
  | fuel + 1 => do
    let first ← operands .default
    if (← Reader.kind) = .comma then
      let _ ← Reader.advance
      let others ← readArguments operands fuel
      return first :: others
    else
      return [first]

/-- The arguments of a call, behind a name (`parse_call_expr`). Nothing else can be called. -/
def readCall (operands : Operands) (fuel : Nat) (left : Expr Span) : Reader (Expr Span) := do
  match left with
  | .read span name =>
    let _ ← Reader.advance
    let arguments ←
      if (← Reader.kind) = .closeParen then pure [] else readArguments operands fuel
    let _ ← Reader.expectWhere .closeParen "expected `,` or `)` in call arguments"
    return .call (← Reader.spanFrom span.start) name arguments
  | _ => Reader.unexpectedWhere "only named functions can be called"

/-- The tail of a given form. -/
def TailForm.read (operands : Operands) (fuel : Nat) (left : Expr Span) (power : Power) :
    TailForm → Reader (Expr Span)
  | binary => readBinary operands left power
  | call => readCall operands fuel left

/-! ## Expressions -/

namespace Grammar

/-- The head of an expression. -/
def readHead (g : Grammar) (operands : Operands) : Reader (Expr Span) := do
  match g.head? (← Reader.kind) with
  | some form => form.read operands
  | none => Reader.unexpectedWhere "expected an expression"

/-- All tails behind `left` that bind tighter than `floor`. -/
def readTails (g : Grammar) (operands : Operands) (floor : Power) :
    Nat → Expr Span → Reader (Expr Span)
  | 0, _ => Reader.endless
  | fuel + 1, left => do
    match g.tail? (← Reader.kind) with
    | some (form, power) =>
      -- An operator of the same power is left to the caller, so operators of one level group to the
      -- left.
      if floor < power then
        let left ← form.read operands fuel left power
        g.readTails operands floor fuel left
      else
        return left
    | none => return left

/-- An expression whose operators bind tighter than `floor` (`parse_expr`). -/
def expr (g : Grammar) : Nat → Power → Reader (Expr Span)
  | 0, _ => Reader.endless
  | fuel + 1, floor => do
    -- What stands inside gets less fuel, what follows on the same level gets all of it: the one is
    -- behind a token of the head, the other pays for itself tail by tail.
    let left ← g.readHead (g.expr fuel)
    g.readTails (g.expr fuel) floor (fuel + 1) left

end Grammar

end Pulse

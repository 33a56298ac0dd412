/-
From checked programs to three-address code.

Lowering a piece of a program gives its instructions, and the instructions of a whole are those of
its parts in order, with what joins them in between. Registers and labels are numbered from one
through the whole program. Names declared inside a function live in the frame of its calls, all
others belong to the program. A node whose type could not be made out has no code.
-/
import Pulse.Code.Symbols

set_option autoImplicit false

namespace Pulse.Code

/-! ## Lowering steps -/

/-- How many registers and labels are in use, and the names in the frame of the function that is
being lowered; outside of functions there is no frame (`IrBuilder`).

Both counts are natural numbers, so there is always a next register and a next label. Counters of 32
bits give the same code for every program that does not take more than 2^32 - 1 of either. What is
said anywhere about the generated code is said under this condition. -/
structure Supply where
  registers : Nat
  labels : Nat
  frame : Option (List String)
deriving DecidableEq

/-- What lowering gives: a value, the instructions, and what is in use afterwards. -/
structure Lowered (α : Type) where
  value : α
  code : List Instr
  next : Supply

/-- A lowering step. It fails only at a node without a type; an operator without an instruction
would be another reason, but there is none. -/
def Lowering (α : Type) : Type := Supply → Option (Lowered α)

namespace Lowering

variable {α β : Type}

/-- No instructions. -/
protected def pure (a : α) : Lowering α := fun s => some ⟨a, [], s⟩

/-- The instructions of one step, then those of the next. -/
protected def bind (m : Lowering α) (f : α → Lowering β) : Lowering β := fun s =>
  match m s with
  | none => none
  | some first =>
    match f first.value first.next with
    | none => none
    | some second => some ⟨second.value, first.code ++ second.code, second.next⟩

instance : Monad Lowering where
  pure := Lowering.pure
  bind := Lowering.bind

/-- One instruction (`IrBuilder::emit`). -/
def emit (i : Instr) : Lowering Unit := fun s => some ⟨(), [i], s⟩

/-- A register that is not in use (`new_register`). -/
def register : Lowering Register := fun s =>
  some ⟨⟨s.registers + 1⟩, [], { s with registers := s.registers + 1 }⟩

/-- A label that is not in use (`new_label`). -/
def newLabel : Lowering Label := fun s =>
  some ⟨⟨s.labels + 1⟩, [], { s with labels := s.labels + 1 }⟩

/-- The machine type of a node that has a type (`resolved`). -/
def machineTy : Option Ty → Lowering MachineTy
  | some ty => Lowering.pure (.ofTy ty)
  | none => fun _ => none

/-- A value that is there. Without one there is no code. -/
def given (a? : Option α) : Lowering α := fun s => a?.map fun a => ⟨a, [], s⟩

/-- Where a name is stored (`IrBuilder::location`). -/
def locate (name : String) : Lowering Location := fun s =>
  some ⟨if (s.frame.getD []).contains name then .frame name else .global name, [], s⟩

/-- Makes storage for a name: in the frame inside a function, else in the program. -/
def allocate (ty : MachineTy) (name : String) : Lowering Unit := fun s =>
  match s.frame with
  | some names => some ⟨(), [.alloc ty name], { s with frame := some (name :: names) }⟩
  | none => some ⟨(), [.global ty name], s⟩

/-- Takes the instructions of a step as a value, lowered with a frame of its own. -/
def capture (frame : Option (List String)) (m : Lowering α) : Lowering (List Instr) := fun s =>
  match m { s with frame := frame } with
  | none => none
  | some l => some ⟨l.code, [], { l.next with frame := s.frame }⟩

/-- A value in a new register (`emit_move`). -/
def move (value : Immediate) : Lowering Register := do
  let target ← register
  emit (.move value target)
  return target

end Lowering

open Lowering

/-! ## Expressions -/

/-- The instruction of a binary operation on operands of a machine type. The groups of operators are
asked for one after the other, and an operator in none of them would have no instruction. -/
def binaryInstr? (op : BinaryOp) (ty : MachineTy) (left right target : Register) : Option Instr :=
  match op.compare?, op.arith?, op.logic? with
  | some op, _, _ => some (.compare op ty left right target)
  | none, some op, _ => some (.arith op ty left right target)
  | none, none, some op => some (.bitwise (.ofLogic op) left right target)
  | none, none, none => none

/-- A unary operation on a value. The plus does nothing, the minus subtracts from zero, and the
negation flips the last bit, which is all there is to a truth value. -/
def lowerUnary (op : UnaryOp) (ty : MachineTy) (value : Register) : Lowering Register :=
  match op with
  | .plus => return value
  | .minus => do
    let zero ← move (.zero ty)
    let target ← register
    emit (.arith .sub ty zero value target)
    return target
  | .not => do
    let one ← move (.int 1)
    let target ← register
    emit (.bitwise .xor one value target)
    return target

mutual

/-- The code of an expression and the register with its value (`lower_expr`). -/
def lowerExpr : Expr Typing → Lowering Register
  | .literal _ value => move (.ofLiteral value)
  | .read note name => do
    let target ← register
    let ty ← machineTy note.ty
    let source ← locate name
    emit (.load ty source target)
    return target
  | .binary _ op left right => do
    let l ← lowerExpr left
    let r ← lowerExpr right
    let ty ← machineTy left.ty
    let target ← register
    let instr ← given (binaryInstr? op ty l r target)
    emit instr
    return target
  | .unary note op operand => do
    let value ← lowerExpr operand
    let ty ← machineTy note.ty
    lowerUnary op ty value
  | .call _ name arguments => do
    let registers ← lowerExprs arguments
    let target ← register
    emit (.call (functionSymbol name) registers target)
    return target

/-- The code of several expressions and the registers with their values. -/
def lowerExprs : List (Expr Typing) → Lowering (List Register)
  | [] => return []
  | e :: es => do
    let r ← lowerExpr e
    let rs ← lowerExprs es
    return r :: rs

end

/-! ## Statements -/

/-- A declaration with a value (`lower_declaration`). The storage is made after the value is
computed. -/
def lowerDeclaration (ty : Option Ty) (name : String) (value : Expr Typing) : Lowering Unit := do
  let ty ← machineTy ty
  -- The value may read an outer variable of the same name, so the storage is made behind it.
  let r ← lowerExpr value
  allocate ty name
  let target ← locate name
  emit (.store ty r target)

mutual

/-- The code of a statement (`lower_stmt`). Functions have their code elsewhere. -/
def lowerStmt : CheckedStmt → Lowering Unit
  | .print _ value => do
    let r ← lowerExpr value
    let ty ← machineTy value.ty
    emit (.print ty r)
  | .var note name none => do
    let ty ← machineTy note.ty
    allocate ty name
  | .var note name (some value) => lowerDeclaration note.ty name value
  | .const note name value => lowerDeclaration note.ty name value
  | .write _ name value => do
    let r ← lowerExpr value
    let ty ← machineTy value.ty
    let target ← locate name
    emit (.store ty r target)
  | .branch _ condition whenTrue whenFalse => do
    let r ← lowerExpr condition
    let ifTrue ← newLabel
    let ifFalse ← newLabel
    let merge ← newLabel
    emit (.branch r ifTrue ifFalse)
    -- Both arms end with a jump, also an empty one, so that no label is reached by falling
    -- through.
    emit (.label ifTrue)
    lowerBlock whenTrue
    emit (.jump merge)
    emit (.label ifFalse)
    lowerBlock whenFalse
    emit (.jump merge)
    emit (.label merge)
  | .loop _ condition body => do
    let test ← newLabel
    let enter ← newLabel
    let merge ← newLabel
    -- The condition has a label of its own, since it is evaluated again after every round.
    emit (.jump test)
    emit (.label test)
    let r ← lowerExpr condition
    emit (.branch r enter merge)
    emit (.label enter)
    lowerBlock body
    emit (.jump test)
    emit (.label merge)
  | .function _ _ _ _ _ => return ()
  | .ret _ value => do
    let r ← lowerExpr value
    let ty ← machineTy value.ty
    emit (.ret ty r)

/-- The code of the statements of a block (`lower_block`). -/
def lowerBlock : List CheckedStmt → Lowering Unit
  | [] => return ()
  | s :: ss => do
    lowerStmt s
    lowerBlock ss

end

/-! ## Functions and programs -/

/-- The parameters of a function with their machine types. -/
def lowerParams : List CheckedParam → Lowering (List (String × MachineTy))
  | [] => return []
  | p :: ps => do
    let ty ← machineTy p.ty
    let others ← lowerParams ps
    return (p.name, ty) :: others

/-- The function that a function of the source becomes (`lower_function`). -/
def lowerFunction (f : CheckedFunction) : Lowering Function := do
  let params ← lowerParams f.params
  let code ← capture (some (params.map Prod.fst)) (lowerBlock f.body)
  let returns ← machineTy f.returns
  return ⟨functionSymbol f.name, params, returns, code⟩

/-- Statements and a zero as their result. -/
def lowerInitBody (ss : List CheckedStmt) : Lowering Unit := do
  lowerBlock ss
  let zero ← move (.int 0)
  emit (.ret .int zero)

/-- The function that statements outside of functions become (`lower_init`). -/
def lowerInit (ss : List CheckedStmt) : Lowering Function := do
  let code ← capture none (lowerInitBody ss)
  return ⟨initName, [], .int, code⟩

/-- The functions of a list, one after the other. -/
def lowerFunctions : List CheckedFunction → Lowering (List Function)
  | [] => return []
  | f :: fs => do
    let g ← lowerFunction f
    let gs ← lowerFunctions fs
    return g :: gs

/-- A whole program. -/
def lowerProgram (p : CheckedProgram) : Lowering Assembly := do
  let init ← lowerInit p.globalStatements
  let functions ← lowerFunctions p.functions
  return ⟨init :: functions⟩

/-- Nothing is in use before the first instruction. -/
def Supply.initial : Supply := ⟨0, 0, none⟩

/-- Why there is no code for a program. -/
inductive Refusal where
  | faulty (diagnostics : Nat)
  | unresolved
deriving DecidableEq

/-- The message of a refusal. -/
def Refusal.message : Refusal → String
  | faulty n => "IR generation invoked on a program with " ++ toString n ++ " semantic error(s)"
  | unresolved => "unresolved node reached IR generation"

/-- The code of a checked program (`generate_ir`). Only programs without diagnostics have code. -/
def generate (a : Analysis) : Except Refusal Assembly :=
  if a.isOk then
    match lowerProgram a.program .initial with
    | some l => .ok l.value
    | none => .error .unresolved
  else .error (.faulty a.diagnostics.length)

/-- The events of generating the code of a program. -/
def loweringEvents (p : CheckedProgram) : List Event :=
  p.functions.map fun f => .lowering f.name (functionSymbol f.name)

end Pulse.Code

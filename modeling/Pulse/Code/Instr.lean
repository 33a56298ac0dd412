/-
Three-address code.

Every instruction that produces a value writes a register of its own; named storage is reached by
loads and stores only. An instruction works on one machine type, and truth values are machine
integers. A function is its parameters, the type of its result and a list of instructions with
labels among them; an assembly is a list of functions.
-/
import Pulse.Typing.Ty

set_option autoImplicit false

namespace Pulse.Code

open Pulse.Number (Binary64)

/-- The types that instructions work on (`PhysicalType`). -/
inductive MachineTy where
  | int
  | float
  | byte
deriving DecidableEq

/-- A place for one value, written once. Its index has no bound; see `Supply` for what
this leaves out. -/
structure Register where
  index : Nat
deriving DecidableEq

/-- A place in the instructions of a function. Its index has no bound either. -/
structure Label where
  index : Nat
deriving DecidableEq

/-- Named storage: of the whole program, or of one call of a function. -/
inductive Location where
  | global (name : String)
  | frame (name : String)
deriving DecidableEq

/-- A value inside an instruction. -/
inductive Immediate where
  | int (value : Int32)
  | float (value : Binary64)
  | byte (value : UInt8)
deriving DecidableEq

/-- Operations on the bits of integers (`BitwiseOp`). -/
inductive BitOp where
  | and
  | or
  | xor
deriving DecidableEq

/-- Instructions (`Instruction`). `global` and `alloc` make storage of the program and of the
function, `jump` goes to a label, and `branch` to the first of two labels unless its condition is
zero. -/
inductive Instr where
  | move (value : Immediate) (target : Register)
  | arith (op : ArithOp) (ty : MachineTy) (left right target : Register)
  | bitwise (op : BitOp) (left right target : Register)
  | compare (op : CompareOp) (ty : MachineTy) (left right target : Register)
  | global (ty : MachineTy) (name : String)
  | alloc (ty : MachineTy) (name : String)
  | load (ty : MachineTy) (source : Location) (target : Register)
  | store (ty : MachineTy) (value : Register) (target : Location)
  | print (ty : MachineTy) (value : Register)
  | label (l : Label)
  | jump (l : Label)
  | branch (condition : Register) (ifTrue ifFalse : Label)
  | call (name : String) (arguments : List Register) (target : Register)
  | ret (ty : MachineTy) (value : Register)
deriving DecidableEq

/-- A function (`IrFunction`). -/
structure Function where
  name : String
  params : List (String × MachineTy)
  returns : MachineTy
  code : List Instr
deriving DecidableEq

/-- The functions of a program (`IrProgram`). -/
structure Assembly where
  functions : List Function
deriving DecidableEq

/-! ## What instructions are about -/

/-- The machine type that holds values of a type (`PhysicalType::of`). -/
def MachineTy.ofTy : Ty → MachineTy
  | .int | .bool => int
  | .float => float
  | .char => byte

/-- The zero of a machine type (`Immediate::zero`). -/
def Immediate.zero : MachineTy → Immediate
  | .int => int 0
  | .float => float .zero
  | .byte => byte 0

/-- The machine type of a value. -/
def Immediate.ty : Immediate → MachineTy
  | int _ => .int
  | float _ => .float
  | byte _ => .byte

/-- The value that a literal becomes. -/
def Immediate.ofLiteral : Literal → Immediate
  | .int v => int v
  | .float v => float v
  | .char v => byte v
  | .bool v => int (if v then 1 else 0)

/-- The bit operation that does the work of a connective on truth values. -/
def BitOp.ofLogic : LogicOp → BitOp
  | .and => and
  | .or => or

/-- The name of a location. -/
def Location.name : Location → String
  | global name => name
  | frame name => name

namespace Instr

/-- Whether the instruction behind this one is never the next to run (`is_terminator`). -/
def isTerminator : Instr → Bool
  | jump _ | branch _ _ _ | ret _ _ => true
  | _ => false

/-- The register that an instruction writes (`Instruction::target`). -/
def target? : Instr → Option Register
  | move _ t => some t
  | arith _ _ _ _ t => some t
  | bitwise _ _ _ t => some t
  | compare _ _ _ _ t => some t
  | load _ _ t => some t
  | call _ _ t => some t
  | _ => none

/-- The location that an instruction loads from or stores to. -/
def location? : Instr → Option Location
  | load _ source _ => some source
  | store _ _ target => some target
  | _ => none

/-- The storage of the program that an instruction makes. -/
def global? : Instr → Option (String × MachineTy)
  | global ty name => some (name, ty)
  | _ => none

end Instr

namespace Assembly

/-- The first function of a given name (`IrProgram::function`). -/
def function? (a : Assembly) (name : String) : Option Function :=
  a.functions.find? fun f => f.name = name

/-- The storage that the instructions make for the whole program, in order
(`IrProgram::globals`). -/
def globals (a : Assembly) : List (String × MachineTy) :=
  a.functions.flatMap fun f => f.code.filterMap Instr.global?

end Assembly

end Pulse.Code

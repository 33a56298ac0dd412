/-
Listings: three-address code as text.

An instruction is a line of words, the operation first and the register it writes last. The
operation ends with a letter for the machine type. A function is a header and its instructions,
indented; between two functions is an empty line.
-/
import Pulse.Code.Instr
import Pulse.Number.Layout

set_option autoImplicit false

namespace Pulse.Code

/-- The letter of a machine type. -/
def MachineTy.letter : MachineTy → String
  | int => "I"
  | float => "F"
  | byte => "B"

/-- The word for an arithmetic operation. -/
def arithWord : ArithOp → String
  | .add => "ADD"
  | .sub => "SUB"
  | .mul => "MUL"
  | .div => "DIV"

/-- The word for a bit operation. -/
def BitOp.word : BitOp → String
  | and => "AND"
  | or => "OR"
  | xor => "XOR"

/-- The name of a register. -/
def Register.text (r : Register) : String := "R" ++ toString r.index

/-- The name of a label. -/
def Label.text (l : Label) : String := "L" ++ toString l.index

/-- The text of a value. -/
def Immediate.text : Immediate → String
  | int v => toString v.toInt
  | float v => v.text
  | byte v => toString v.toNat

namespace Instr

/-- The words of an instruction. -/
def words : Instr → List String
  | move v t => ["MOV" ++ v.ty.letter, v.text, t.text]
  | arith op ty l r t => [arithWord op ++ ty.letter, l.text, r.text, t.text]
  | bitwise op l r t => [op.word, l.text, r.text, t.text]
  | compare op ty l r t => ["CMP" ++ ty.letter, op.symbol, l.text, r.text, t.text]
  | global ty name => ["VAR" ++ ty.letter, name]
  | alloc ty name => ["ALLOC" ++ ty.letter, name]
  | load ty source t => ["LOAD" ++ ty.letter, source.name, t.text]
  | store ty v target => ["STORE" ++ ty.letter, v.text, target.name]
  | print ty v => ["PRINT" ++ ty.letter, v.text]
  | label l => ["LABEL", l.text]
  | jump l => ["BRANCH", l.text]
  | branch c t f => ["CBRANCH", c.text, t.text, f.text]
  | call name as t => ["CALL", name] ++ as.map Register.text ++ [t.text]
  | ret ty v => ["RET" ++ ty.letter, v.text]

/-- The text of an instruction. -/
def text (i : Instr) : String := " ".intercalate i.words

end Instr

/-- The first line of a function: name, parameters with their types, type of the result. -/
def Function.header (f : Function) : String :=
  let params := f.params.map fun p => p.1 ++ ":" ++ p.2.letter
  f.name ++ "(" ++ ", ".intercalate params ++ ") -> " ++ f.returns.letter

/-- The text of a function. -/
def Function.listing (f : Function) : String :=
  String.join ((f.header ++ "\n") :: f.code.map fun i => "    " ++ i.text ++ "\n")

/-- The text of all functions. -/
def Assembly.listing (a : Assembly) : String :=
  "\n".intercalate (a.functions.map Function.listing)

end Pulse.Code

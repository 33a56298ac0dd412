/-
Names in the generated code.

The statements of a program outside of functions become a function of their own, and the entry
function of a program goes by another name, so that neither meets a name of the system it runs on.
Storage of the program gets a mark in front of its name, and there is one function per machine
type that prints.
-/
import Pulse.Code.Instr
import Pulse.Typing.Checker

set_option autoImplicit false

namespace Pulse.Code

/-- The function with the statements outside of functions (`INIT_FUNCTION`). -/
def initName : String := "__pulse_init"

/-- The entry function (`ENTRY_SYMBOL`). -/
def entrySymbol : String := "__pulse_main"

/-- The name of a function of the source in the code (`symbol_name`). -/
def functionSymbol (name : String) : String := if name = entryName then entrySymbol else name

/-- The name of a variable of the program in the object code. -/
def globalSymbol (name : String) : String := "__pulse_g_" ++ name

/-- The function that prints values of a machine type. -/
def printSymbol : MachineTy → String
  | .int => "_print_int"
  | .float => "_print_float"
  | .byte => "_print_byte"

end Pulse.Code

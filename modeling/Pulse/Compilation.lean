/-
The compilation of a source text, up to its checked program.

The text is cut into tokens, the tokens are read as a program, the program is checked. A syntax
error ends the compilation; faults of the program are left in the analysis.

In all modules, a name in parentheses at the end of the first sentence of a docstring is that of the
item of the compiler which the definition stands for, unless the two have the same name.
-/
import Pulse.Code.Lowering
import Pulse.Grammar.Stmt
import Pulse.Token.Scan

set_option autoImplicit false

namespace Pulse

/-- What happened, and what came of it. -/
structure Compilation where
  events : List Event
  result : Except Program.Failure Analysis

namespace Compilation

/-- Reads and checks the program that tokens spell. -/
def ofTokens (tokens : List Token) : Compilation :=
  match Program.ofTokens tokens with
  | .error e => ⟨[], .error e⟩
  | .ok program =>
    let a := program.analyze
    ⟨[.parsed program.body.length] ++ a.checker.journal ++ [.checked a.diagnostics.length], .ok a⟩

/-- Cuts, reads and checks a source text (`analyze_source`). -/
def ofSource (source : String) : Compilation :=
  match tokenize source with
  | .error e => ⟨[], .error (.invalid e)⟩
  | .ok tokens =>
    let c := ofTokens tokens
    { c with events := .tokenized tokens.length :: c.events }

/-- All events up to the generated code, which only a program without diagnostics has. -/
def allEvents (c : Compilation) : List Event :=
  match c.result with
  | .ok a => if a.isOk then c.events ++ Code.loweringEvents a.program else c.events
  | .error _ => c.events

end Compilation

end Pulse

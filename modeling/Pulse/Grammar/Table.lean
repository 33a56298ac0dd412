/-
Grammars: which token starts what.

A statement is recognised by its first token. An expression is a head, recognised by its first
token, and any number of tails, each recognised by the operator it starts with and bound with that
operator's power. A grammar is three tables that assign such forms to token kinds. Tables can be
changed entry by entry; `standard` is the grammar of the language.
-/
import Pulse.Grammar.Power
import Pulse.Token.Basic

set_option autoImplicit false

namespace Pulse

/-- What can start an expression (`NUDHandler`): a literal or a name, an operator in front of an
operand, or an expression in parentheses. -/
inductive HeadForm where
  | primary
  | unary
  | group
deriving DecidableEq

/-- What can go on behind an operand (`LEDHandler`): an operator with a second one, or the arguments
of a call. -/
inductive TailForm where
  | binary
  | call
deriving DecidableEq

/-- The statements (`StmtHandler`). -/
inductive StmtForm where
  | print
  | var
  | const
  | write
  | branch
  | loop
  | function
  | ret
deriving DecidableEq

/-- The forms that token kinds start. -/
structure Grammar where
  stmt? : Kind → Option StmtForm
  head? : Kind → Option HeadForm
  tail? : Kind → Option (TailForm × Power)

namespace Grammar

/-- No token starts anything. -/
def empty : Grammar := ⟨fun _ => none, fun _ => none, fun _ => none⟩

/-- Lets tokens of kind `k` start a statement (`Parser::stmt`). -/
def withStmt (g : Grammar) (k : Kind) (form : StmtForm) : Grammar :=
  { g with stmt? := fun j => if j = k then some form else g.stmt? j }

/-- Lets tokens of kind `k` start an expression (`Parser::nud`). -/
def withHead (g : Grammar) (k : Kind) (form : HeadForm) : Grammar :=
  { g with head? := fun j => if j = k then some form else g.head? j }

/-- Lets tokens of kind `k` continue an expression (`Parser::led`). -/
def withTail (g : Grammar) (k : Kind) (power : Power) (form : TailForm) : Grammar :=
  { g with tail? := fun j => if j = k then some (form, power) else g.tail? j }

/-- The power with which tokens of kind `k` continue an expression (`Parser::current_bp`). -/
def power (g : Grammar) (k : Kind) : Power := ((g.tail? k).map Prod.snd).getD .default

/-- The statements of the language. -/
def standardStmt? : Kind → Option StmtForm
  | .kwPrint => some .print
  | .kwVar => some .var
  | .kwConst => some .const
  | .identifier => some .write
  | .kwIf => some .branch
  | .kwWhile => some .loop
  | .kwFunction => some .function
  | .kwReturn => some .ret
  | _ => none

/-- The heads of the language. -/
def standardHead? : Kind → Option HeadForm
  | .integer | .float | .char | .bool | .identifier => some .primary
  | .plus | .dash | .not => some .unary
  | .openParen => some .group
  | _ => none

/-- The tails of the language. -/
def standardTail? : Kind → Option (TailForm × Power)
  | .and | .or => some (.binary, .logical)
  | .less | .lessEquals | .greater | .greaterEquals | .equals | .notEquals =>
    some (.binary, .relational)
  | .plus | .dash => some (.binary, .additive)
  | .star | .slash => some (.binary, .multiplicative)
  | .openParen => some (.call, .call)
  | _ => none

/-- The grammar of the language (`create_token_lookups`). -/
def standard : Grammar := ⟨standardStmt?, standardHead?, standardTail?⟩

end Grammar

end Pulse

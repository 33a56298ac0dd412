/-
Scopes: the names that are bound at a point of a program.

A scope holds its own symbols in the order of their declaration and, outside of them, those of the
scopes around it. A name is bound at most once in a scope and may be bound again further inside;
the innermost binding is the one that counts.
-/
import Pulse.Typing.Ty

set_option autoImplicit false

namespace Pulse

/-- A bound name. The type is missing when it could not be made out. -/
structure Symbol where
  name : String
  ty : Option Ty
  isConst : Bool
  line : Nat
deriving DecidableEq

/-- The symbols of a scope, and those of the scopes around it from the inside out. -/
structure Scope where
  symbols : List Symbol
  outer : List (List Symbol)
deriving DecidableEq

namespace Scope

/-- The scope around everything, with nothing in it yet (`Scope::global`). -/
def global : Scope := ⟨[], []⟩

/-- An empty scope inside this one (`Scope::nested`). -/
def nested (s : Scope) : Scope := ⟨[], s.symbols :: s.outer⟩

/-- The scope around this one; the global scope is not left. -/
def leave (s : Scope) : Scope :=
  match s.outer with
  | [] => s
  | symbols :: outer => ⟨symbols, outer⟩

/-- Whether there is no scope around this one (`Scope::is_global`). -/
def isGlobal (s : Scope) : Bool := s.outer.isEmpty

/-- The binding of a name in the scope itself (`Scope::lookup_local`). -/
def lookupLocal? (s : Scope) (name : String) : Option Symbol :=
  s.symbols.find? fun symbol => symbol.name = name

/-- The innermost binding of a name (`Scope::lookup`). -/
def lookup? (s : Scope) (name : String) : Option Symbol :=
  (s.symbols :: s.outer).findSome? fun symbols => symbols.find? fun symbol => symbol.name = name

/-- Binds a name in the scope itself (`Scope::declare`). If it is bound there already, the line of
that binding is given instead. -/
def declare (s : Scope) (symbol : Symbol) : Except Nat Scope :=
  match s.lookupLocal? symbol.name with
  | some existing => .error existing.line
  | none => .ok { s with symbols := s.symbols ++ [symbol] }

end Scope

end Pulse

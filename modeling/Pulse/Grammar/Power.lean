/-
Binding powers: how tightly an operator holds on to its operands.

An operand ends where an operator with no more power than the one before it begins. Powers are
ordered from the loosest to the tightest.
-/
set_option autoImplicit false

namespace Pulse

/-- Binding powers, the loosest first (`BindingPower`). -/
inductive Power where
  | default
  | logical
  | relational
  | additive
  | multiplicative
  | unary
  | call
  | primary
deriving DecidableEq

namespace Power

/-- The place of a power in the order. -/
def rank : Power → Nat
  | default => 0
  | logical => 1
  | relational => 2
  | additive => 3
  | multiplicative => 4
  | unary => 5
  | call => 6
  | primary => 7

instance : LT Power := ⟨fun p q => p.rank < q.rank⟩

instance (p q : Power) : Decidable (p < q) := inferInstanceAs (Decidable (p.rank < q.rank))

end Power

end Pulse

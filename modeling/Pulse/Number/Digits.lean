/-
Positional numerals: the value of a digit, of a run of digits, and of a signed run.

Numbers in the source text are written in radix 2, 8, 10 or 16. A numeral has at least one digit,
and every character of it is a digit below the radix.
-/
set_option autoImplicit false

namespace Pulse.Number

/-- The value of a hexadecimal digit of either case. -/
def hexDigit? (c : Char) : Option Nat :=
  let n := c.toNat
  if '0' ≤ c ∧ c ≤ '9' then some (n - 48)
  else if 'a' ≤ c ∧ c ≤ 'f' then some (n - 87)
  else if 'A' ≤ c ∧ c ≤ 'F' then some (n - 55)
  else none

/-- The value of a digit in a radix of at most sixteen. -/
def digit? (radix : Nat) (c : Char) : Option Nat :=
  (hexDigit? c).filter (· < radix)

/-- Continues a numeral of value `n` with more digits. -/
def extend? (radix : Nat) : Nat → List Char → Option Nat
  | n, [] => some n
  | n, c :: cs => (digit? radix c).bind fun d => extend? radix (n * radix + d) cs

/-- The value of a numeral; at least one digit is needed. -/
def natural? (radix : Nat) (cs : List Char) : Option Nat :=
  if cs.isEmpty then none else extend? radix 0 cs

/-- The value of a numeral with an optional sign. -/
def signed? (radix : Nat) : List Char → Option Int
  | '-' :: cs => (natural? radix cs).map fun n => -(n : Int)
  | '+' :: cs => (natural? radix cs).map Int.ofNat
  | cs => (natural? radix cs).map Int.ofNat

end Pulse.Number

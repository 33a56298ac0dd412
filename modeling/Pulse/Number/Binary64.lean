/-
Double-precision numbers as the 64 bits they are.

The compiler never calculates with floating-point numbers; it reads them, compares them for
equality, prints them. For that the bit pattern is the number, and everything said about it is
arithmetic of naturals: a finite number is `significand * 2 ^ scale`, and the order of magnitudes is
the order of the low 63 bits.
-/
set_option autoImplicit false

namespace Pulse.Number

/-- A double-precision number, given by its bits. -/
structure Binary64 where
  bits : UInt64
deriving DecidableEq

namespace Binary64

/-- The magnitude bits of infinity; above it are the patterns that are no number. -/
def infinityBits : Nat := 2047 * Nat.pow 2 52

/-- The number with a sign and the given magnitude bits. -/
def ofMagnitude (negative : Bool) (n : Nat) : Binary64 :=
  ⟨UInt64.ofNat (if negative then Nat.pow 2 63 + n else n)⟩

/-- Positive zero. -/
def zero : Binary64 := ⟨0⟩

/-- Whether the sign bit is set. -/
def isNegative (x : Binary64) : Bool := Nat.pow 2 63 ≤ x.bits.toNat

/-- The bits without the sign. -/
def magnitude (x : Binary64) : Nat := x.bits.toNat % Nat.pow 2 63

/-- Whether the bits are no number. -/
def isNaN (x : Binary64) : Bool := infinityBits < x.magnitude

/-- Whether the number is infinite. -/
def isInfinite (x : Binary64) : Bool := x.magnitude = infinityBits

/-- Whether the number is zero, of either sign. -/
def isZero (x : Binary64) : Bool := x.magnitude = 0

/-- The exponent field: zero for the numbers below the normal range. -/
def exponentField (x : Binary64) : Nat := x.magnitude / Nat.pow 2 52

/-- The significand of a finite number, with the leading bit that normal numbers leave out. -/
def significand (x : Binary64) : Nat :=
  x.magnitude % Nat.pow 2 52 + if x.exponentField = 0 then 0 else Nat.pow 2 52

/-- The power of two that scales the significand. -/
def scale (x : Binary64) : Int := (max x.exponentField 1 : Int) - 1075

/-- Equality of numbers: the two zeros are equal, and what is no number equals nothing. -/
def equal (x y : Binary64) : Bool :=
  !x.isNaN && !y.isNaN && (x.bits == y.bits || x.isZero && y.isZero)

end Binary64

end Pulse.Number

/-
The shortest decimal numeral that reads back as a given number.

The reals that round to a number form an interval around it, with its ends exactly when the
significand is even. For one digit, two digits and so on the two decimals around the number are
tested against that interval in exact arithmetic; the first length with a hit wins, of two hits
the nearer one, and of two equally near ones the larger.
-/
import Pulse.Number.Binary64

set_option autoImplicit false

namespace Pulse.Number

/-- A decimal numeral: its digits, read as a natural, scaled by a power of ten. -/
structure Decimal where
  digits : Nat
  exponent : Int
deriving DecidableEq

/-- The number of decimal digits of a natural. -/
def digitCount (n : Nat) : Nat := (Nat.toDigits 10 n).length

namespace Binary64

/-! ## The interval of a number

All quantities are counted in quarters of the last place, so that the halfway points to both
neighbours are naturals. -/

/-- The number, in quarters of its last place. -/
def quarters (x : Binary64) : Nat := 4 * x.significand

/-- The lower end of the interval. The gap below a power of two is half the gap above it. -/
def lowerEnd (x : Binary64) : Nat :=
  if x.magnitude % Nat.pow 2 52 = 0 ∧ 1 < x.exponentField then x.quarters - 1 else x.quarters - 2

/-- The upper end of the interval. -/
def upperEnd (x : Binary64) : Nat := x.quarters + 2

/-- The factors that bring `c * 10 ^ g` and `n` quarters to a common unit, as `c * fst` and
`n * snd`. -/
def commonUnit (x : Binary64) (g : Int) : Nat × Nat :=
  let q := x.scale - 2
  (Nat.pow 10 g.toNat * Nat.pow 2 (-q).toNat, Nat.pow 2 q.toNat * Nat.pow 10 (-g).toNat)

/-- Whether `c * 10 ^ g` rounds to the number. -/
def covers (x : Binary64) (c : Nat) (g : Int) : Bool :=
  let (a, b) := x.commonUnit g
  if x.significand % 2 = 0 then x.lowerEnd * b ≤ c * a && c * a ≤ x.upperEnd * b
  else x.lowerEnd * b < c * a && c * a < x.upperEnd * b

/-! ## The search -/

/-- The least `k` with the number below `10 ^ k`. Every finite number times `10 ^ 400` has an
integer part, and its digits can be counted. -/
def decimalSize (x : Binary64) : Int :=
  let n := x.significand * Nat.pow 2 x.scale.toNat * Nat.pow 10 400 / Nat.pow 2 (-x.scale).toNat
  (digitCount n : Int) - 400

/-- The decimal on the grid `10 ^ g` that reads back as the number, if there is one: of the two
around the number, the nearer that does. -/
def onGrid? (x : Binary64) (g : Int) : Option Nat :=
  let (a, b) := x.commonUnit g
  let c := x.quarters * b / a
  match x.covers c g, x.covers (c + 1) g with
  -- Halfway between two candidates the larger is taken.
  | true, true => if 2 * (x.quarters * b) < (2 * c + 1) * a then some c else some (c + 1)
  | true, false => some c
  | false, true => some (c + 1)
  | false, false => none

/-- Moves the trailing zeros of the digits into the exponent; `fuel` bounds their number. -/
def stripZeros : Nat → Decimal → Decimal
  | 0, d => d
  | fuel + 1, d =>
    if d.digits % 10 = 0 ∧ d.digits ≠ 0 then stripZeros fuel ⟨d.digits / 10, d.exponent + 1⟩ else d

/-- The shortest numeral of a positive finite number. Seventeen digits always suffice. -/
def shortest (x : Binary64) : Decimal :=
  let k := x.decimalSize
  let hit := (List.range 17).findSome? fun n =>
    let g := k - (n + 1 : Nat)
    (x.onGrid? g).map fun c => Decimal.mk c g
  stripZeros 18 (hit.getD ⟨0, 0⟩)

end Binary64

end Pulse.Number

/-
The double-precision number nearest to a decimal numeral.

The numeral is an exact ratio of naturals. Its binary exponent fixes the last place a number of
that size can have, the ratio is rounded to that place with a half going to the even neighbour,
and the result is put together from exponent and significand by one addition, so that a carry out
of the significand moves into the exponent by itself. Above the largest number lies infinity.
-/
import Pulse.Number.Binary64
import Pulse.Number.Digits

set_option autoImplicit false

namespace Pulse.Number

/-! ## Rounding a ratio -/

/-- The natural nearest to `n / d`; a half goes to the even neighbour. -/
def roundHalfEven (n d : Nat) : Nat :=
  let q := n / d
  let r := n % d
  if 2 * r < d then q else if d < 2 * r then q + 1 else q + q % 2

/-- The exponent of the largest power of two that is at most `n / d`. -/
def binaryExponent (n d : Nat) : Int :=
  let e : Int := (Nat.log2 n : Int) - Nat.log2 d
  if d * Nat.pow 2 e.toNat ≤ n * Nat.pow 2 (-e).toNat then e else e - 1

/-- The magnitude bits of the number nearest to the positive ratio `n / d`. -/
def nearestMagnitude (n d : Nat) : Nat :=
  -- The exponent of the last place. The smallest numbers all share the least one.
  let q := max (binaryExponent n d - 52) (-1074)
  let m := roundHalfEven (n * Nat.pow 2 (-q).toNat) (d * Nat.pow 2 q.toNat)
  -- The leading bit of `m` adds one to the exponent field, which therefore starts one lower.
  min ((q + 1074).toNat * Nat.pow 2 52 + m) Binary64.infinityBits

/-- The magnitude bits of the number nearest to `digits * 10 ^ exponent`. Numerals far outside the
range of all numbers are settled by their size, before any power of ten is taken. -/
def magnitudeOfDecimal (digits : Nat) (exponent : Int) : Nat :=
  let size := exponent + (Nat.toDigits 10 digits).length
  if digits = 0 ∨ size < -400 then 0
  else if 400 < size then Binary64.infinityBits
  else nearestMagnitude (digits * Nat.pow 10 exponent.toNat) (Nat.pow 10 (-exponent).toNat)

/-! ## Reading a numeral -/

/-- The characters of a run of decimal digits and what follows it. -/
def spanDigits (cs : List Char) : List Char × List Char :=
  (cs.takeWhile Char.isDigit, cs.dropWhile Char.isDigit)

/-- The exponent part that ends a numeral: nothing, or a mark and a signed run of digits. -/
def exponentPart? : List Char → Option Int
  | [] => some 0
  | c :: cs => if c = 'e' ∨ c = 'E' then signed? 10 cs else none

/-- The magnitude bits of an unsigned numeral: digits with at most one point among or around them,
and an exponent part. -/
def readMagnitude? (cs : List Char) : Option Nat := do
  let (whole, rest) := spanDigits cs
  let (fraction, rest) :=
    match rest with
    | '.' :: rest => spanDigits rest
    | rest => ([], rest)
  let digits ← natural? 10 (whole ++ fraction)
  let exponent ← exponentPart? rest
  return magnitudeOfDecimal digits (exponent - fraction.length)

/-- The words for infinity, and the one for what is no number, in lower case. -/
def wordMagnitude? (cs : List Char) : Option Nat :=
  let word := cs.map Char.toLower
  if word = "inf".toList ∨ word = "infinity".toList then some Binary64.infinityBits
  else if word = "nan".toList then some (Binary64.infinityBits + Nat.pow 2 51)
  else none

/-- The number that a spelling stands for: an optional sign, then a word or a numeral. -/
def readDecimal? (cs : List Char) : Option Binary64 :=
  let (negative, body) :=
    match cs with
    | '-' :: cs => (true, cs)
    | '+' :: cs => (false, cs)
    | cs => (false, cs)
  ((wordMagnitude? body).orElse fun _ => readMagnitude? body).map (Binary64.ofMagnitude negative)

end Pulse.Number

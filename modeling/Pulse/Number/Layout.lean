/-
How floating-point numbers are written.

A number is written with its shortest digits. From `0.0001` up to below `10 ^ 16`, and for zero, the
digits stand around a point with at least one digit behind it; any other finite number has an
exponent.
-/
import Pulse.Number.Shortest

set_option autoImplicit false

namespace Pulse.Number

/-- Digits around a point that stands `k` places behind the front of them. -/
def positional (ds : List Char) (k : Int) : List Char :=
  if k ≤ 0 then
    ['0', '.'] ++ List.replicate (-k).toNat '0' ++ ds
  else
    let n := k.toNat
    let fraction := ds.drop n
    ds.take n ++ List.replicate (n - ds.length) '0' ++ ['.']
      ++ (if fraction.isEmpty then ['0'] else fraction)

/-- One digit, the rest of them behind a point if there are any, and the exponent. -/
def scientific (ds : List Char) (k : Int) : List Char :=
  let rest := ds.drop 1
  ds.take 1 ++ (if rest.isEmpty then [] else '.' :: rest) ++ ['e'] ++ (toString (k - 1)).toList

/-- A positive finite number in the notation of its size. -/
def writePositive (x : Binary64) : List Char :=
  let d := x.shortest
  let ds := Nat.toDigits 10 d.digits
  let k := d.exponent + ds.length
  if -3 ≤ k ∧ k ≤ 16 then positional ds k else scientific ds k

/-- The text of a number. -/
def Binary64.text (x : Binary64) : String :=
  if x.isNaN then "NaN"
  else
    let unsigned :=
      if x.isInfinite then "inf".toList
      else if x.isZero then "0.0".toList
      else writePositive x
    String.ofList (if x.isNegative then '-' :: unsigned else unsigned)

end Pulse.Number

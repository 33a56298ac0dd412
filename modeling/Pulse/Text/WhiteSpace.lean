/-
White space in the sense of the Unicode property of that name, and texts without it at their end.

The property has 25 code points. A line shown in an error report loses them at its right end,
the newline among them.
-/
set_option autoImplicit false

namespace Pulse.Text

/-- The code points with the property White_Space. -/
def isWhiteSpace (c : Char) : Bool :=
  let n := c.toNat
  (9 ≤ n && n ≤ 13) || n == 0x20 || n == 0x85 || n == 0xA0 || n == 0x1680
    || (0x2000 ≤ n && n ≤ 0x200A) || n == 0x2028 || n == 0x2029 || n == 0x202F
    || n == 0x205F || n == 0x3000

/-- A text without the white space at its end. -/
def trimEnd (cs : List Char) : List Char :=
  (cs.reverse.dropWhile isWhiteSpace).reverse

end Pulse.Text

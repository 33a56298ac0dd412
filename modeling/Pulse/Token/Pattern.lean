/-
The patterns that cut a source text.

Each pattern says how many characters it takes from the front of a text, if any. The table puts
them in an order, and at every place the first pattern that takes something wins: longer operators
stand before their beginnings, fractions before whole numbers, comments before the division sign.
An opened comment that is never closed is a pattern of its own, tried after closed comments.
-/
import Pulse.Number.Digits
import Pulse.Token.Basic

set_option autoImplicit false

namespace Pulse

/-! ## Character classes -/

/-- The blanks between tokens. -/
def isBlank (c : Char) : Bool := c = ' ' || c = '\t' || c = '\r' || c = '\n'

/-- What a word starts with. -/
def isWordStart (c : Char) : Bool := c.isAlpha || c = '_'

/-- What a word goes on with. -/
def isWordPart (c : Char) : Bool := c.isAlphanum || c = '_'

/-- Digits of radix sixteen, of either case. -/
def isHexDigit (c : Char) : Bool :=
  c.isDigit || ('a' ≤ c && c ≤ 'f') || ('A' ≤ c && c ≤ 'F')

/-- Digits of radix eight. -/
def isOctalDigit (c : Char) : Bool := '0' ≤ c && c ≤ '7'

/-- Digits of radix two. -/
def isBinaryDigit (c : Char) : Bool := c = '0' || c = '1'

/-! ## Lengths of the pieces

Each function gives a number of characters at the front of a text. -/

/-- The length of the longest run of characters of a class. -/
def run (p : Char → Bool) (cs : List Char) : Nat := (cs.takeWhile p).length

/-- A number of characters, if there are any. -/
def nonzero (n : Nat) : Option Nat := if n = 0 then none else some n

/-- Up to and with the first `*/`. -/
def untilClose? : List Char → Option Nat
  | [] => none
  | '*' :: '/' :: _ => some 2
  | _ :: cs => (untilClose? cs).map (· + 1)

/-- A mark and a run of digits with an optional sign, or nothing. -/
def exponentLength (cs : List Char) : Nat :=
  match cs with
  | [] => 0
  | e :: cs =>
    if e = 'e' ∨ e = 'E' then
      let sign := if cs.head? = some '+' ∨ cs.head? = some '-' then 1 else 0
      let digits := run Char.isDigit (cs.drop sign)
      if digits = 0 then 0 else 1 + sign + digits
    else 0

/-- Digits with a point among, before or behind them and an optional exponent, or digits with an
exponent. -/
def floatLength? (cs : List Char) : Option Nat :=
  let whole := run Char.isDigit cs
  match cs.drop whole with
  | '.' :: rest =>
    let fraction := run Char.isDigit rest
    if whole = 0 ∧ fraction = 0 then none
    else some (whole + 1 + fraction + exponentLength (rest.drop fraction))
  | rest =>
    if whole = 0 ∨ exponentLength rest = 0 then none else some (whole + exponentLength rest)

/-- A radix mark and digits of that radix. -/
def markedLength? : List Char → Option Nat
  | '0' :: 'x' :: cs => (nonzero (run isHexDigit cs)).map (· + 2)
  | '0' :: 'b' :: cs => (nonzero (run isBinaryDigit cs)).map (· + 2)
  | '0' :: 'o' :: cs => (nonzero (run isOctalDigit cs)).map (· + 2)
  | _ => none

/-- Digits of a marked radix, or decimal digits. -/
def integerLength? (cs : List Char) : Option Nat :=
  (markedLength? cs).orElse fun _ => nonzero (run Char.isDigit cs)

/-- A character literal: its length, and the character it stands for. -/
def charLiteral? : List Char → Option (Nat × Char)
  | '\'' :: '\\' :: 'n' :: '\'' :: _ => some (4, '\n')
  | '\'' :: '\\' :: '\'' :: '\'' :: _ => some (4, '\'')
  | '\'' :: '\\' :: '\\' :: '\'' :: _ => some (4, '\\')
  | '\'' :: '\\' :: 'x' :: h :: l :: '\'' :: _ =>
    match Number.hexDigit? h, Number.hexDigit? l with
    | some h, some l => some (6, Char.ofNat (16 * h + l))
    | _, _ => none
  | '\'' :: c :: '\'' :: _ =>
    if c = '\'' ∨ c = '\\' ∨ c = '\n' then none else some (3, c)
  | _ => none

/-! ## The table -/

/-- The patterns (`RegexPattern`). A fixed pattern is one spelling with its kind. -/
inductive Pattern where
  | blanks
  | lineComment
  | blockComment
  | openComment
  | word
  | float
  | integer
  | charLiteral
  | fixed (kind : Kind) (spelling : String)
deriving DecidableEq

namespace Pattern

/-- How many characters the pattern takes from the front of a text (`matched`). -/
def length? : Pattern → List Char → Option Nat
  | blanks, cs => nonzero (run isBlank cs)
  | lineComment, '/' :: '/' :: cs => some (2 + run (· ≠ '\n') cs)
  | blockComment, '/' :: '*' :: cs => (untilClose? cs).map (· + 2)
  | openComment, '/' :: '*' :: _ => some 2
  | word, c :: cs => if isWordStart c then some (1 + run isWordPart cs) else none
  | float, cs => floatLength? cs
  | integer, cs => integerLength? cs
  | charLiteral, cs => (charLiteral? cs).map Prod.fst
  | fixed _ s, cs => if s.toList.isPrefixOf cs then nonzero s.toList.length else none
  | _, _ => none

/-- All patterns, in the order in which they are tried (`PATTERNS`). -/
def table : List Pattern :=
  [blanks, lineComment, blockComment, openComment, word, float, integer, charLiteral,
   -- Each spelling stands behind the longer ones that begin with it.
   fixed .openCurly "\x7b", fixed .closeCurly "\x7d", fixed .openParen "(", fixed .closeParen ")",
   fixed .assignment "<-", fixed .lessEquals "<=", fixed .less "<", fixed .greaterEquals ">=",
   fixed .greater ">", fixed .notEquals "!=", fixed .not "!", fixed .equals "=", fixed .or "||",
   fixed .and "&&", fixed .semicolon ";", fixed .comma ",", fixed .plus "+", fixed .dash "-",
   fixed .slash "/", fixed .star "*"]

/-- The first pattern that takes something from a text, and how many characters it takes. -/
def first? (cs : List Char) : Option (Pattern × Nat) :=
  table.findSome? fun p => (p.length? cs).map fun n => (p, n)

end Pattern

end Pulse

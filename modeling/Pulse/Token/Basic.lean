/-
Tokens: the words of a program.

A token has a kind, a value and the stretch of source it was cut from. The value is the text of
that stretch, except that a character literal has the character it stands for and the end of
input has a name of its own.
-/
import Pulse.Source.Position

set_option autoImplicit false

namespace Pulse

/-- The kinds of tokens (`TokenKind`). -/
inductive Kind where
  | eof
  | integer
  | float
  | char
  | bool
  | identifier
  | openCurly
  | closeCurly
  | openParen
  | closeParen
  | assignment
  | equals
  | not
  | notEquals
  | less
  | lessEquals
  | greater
  | greaterEquals
  | or
  | and
  | semicolon
  | comma
  | plus
  | dash
  | slash
  | star
  | kwConst
  | kwElse
  | kwFunction
  | kwIf
  | kwPrint
  | kwReturn
  | kwWhile
  | kwVar
deriving DecidableEq

namespace Kind

/-- Every kind, each once. -/
def all : List Kind :=
  [eof, integer, float, char, bool, identifier, openCurly, closeCurly, openParen, closeParen,
   assignment, equals, not, notEquals, less, lessEquals, greater, greaterEquals, or, and,
   semicolon, comma, plus, dash, slash, star, kwConst, kwElse, kwFunction, kwIf, kwPrint,
   kwReturn, kwWhile, kwVar]

/-- The name of a kind. -/
def name : Kind → String
  | eof => "EOF"
  | integer => "Integer"
  | float => "Float"
  | char => "Char"
  | bool => "Bool"
  | identifier => "Identifier"
  | openCurly => "OpenCurly"
  | closeCurly => "CloseCurly"
  | openParen => "OpenParen"
  | closeParen => "CloseParen"
  | assignment => "Assignment"
  | equals => "Equals"
  | not => "Not"
  | notEquals => "NotEquals"
  | less => "Less"
  | lessEquals => "LessEquals"
  | greater => "Greater"
  | greaterEquals => "GreaterEquals"
  | or => "Or"
  | and => "And"
  | semicolon => "Semicolon"
  | comma => "Comma"
  | plus => "Plus"
  | dash => "Dash"
  | slash => "Slash"
  | star => "Star"
  | kwConst => "Const"
  | kwElse => "Else"
  | kwFunction => "Function"
  | kwIf => "If"
  | kwPrint => "Print"
  | kwReturn => "Return"
  | kwWhile => "While"
  | kwVar => "Var"

/-- The kind of a given name. -/
def ofName? (s : String) : Option Kind := all.find? fun k => k.name = s

/-- Whether tokens of the kind differ in their values (`is_one_of_many`). -/
def hasValue : Kind → Bool
  | identifier | integer | float | char | bool => true
  | _ => false

end Kind

/-- A word of a program. -/
structure Token where
  kind : Kind
  value : String
  span : Span
deriving DecidableEq

namespace Token

/-- The token that ends every token list. -/
def endOfInput (p : Position) : Token := ⟨.eof, "EOF", ⟨p, p⟩⟩

/-- Kind and value of a token, one per line. -/
def describe (t : Token) : String :=
  "Token \x7b\nkind: " ++ t.kind.name ++ ",\nvalue: " ++ t.value ++ "\x7d"

/-- Line and kind of a token, and the value where it tells something (`Token::debug`). -/
def summary (t : Token) : String :=
  let value := if t.kind.hasValue then t.value else ""
  toString t.span.start.line ++ ":" ++ t.kind.name ++ " (" ++ value ++ ")"

end Token

end Pulse

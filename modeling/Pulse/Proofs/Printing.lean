/-
Printing: the words that a program is written with.

A tree is written with as few parentheses as its operators allow. A left operand gets them when it
is a binary operation that binds looser than the operator, a right operand also when it binds as
tightly, since operators of one level group to the left, and the operand of a unary operator when it
is a binary operation at all. A branch with an empty second block is written without an `else`.

A number with a point has many spellings. Which one is used is left open; what is asked of it is
that it reads back. Integers are written in radix ten and without a sign, so only those from zero on
can be written.
-/
import Pulse.Grammar.Stmt

set_option autoImplicit false

namespace Pulse

open Number (Binary64)

/-! ## Words -/

/-- A word: the kind of a token, and a text for the kinds whose tokens differ in their values. The
end of input is no word. -/
structure Word where
  kind : Kind
  text : String
  ne_eof : kind ≠ .eof

namespace Word

/-- A word that is the same everywhere. -/
def mark (kind : Kind) (h : kind ≠ .eof := by decide) : Word := ⟨kind, "", h⟩

/-- A name. -/
def name (x : String) : Word := ⟨.identifier, x, by decide⟩

end Word

/-- A token with the kind and the text of a word, wherever it stands. -/
def Token.Spells (t : Token) (w : Word) : Prop :=
  t.kind = w.kind ∧ (w.kind.hasValue = true → t.value = w.text)

/-! ## Operators -/

namespace BinaryOp

/-- The kind of the token of an operator. -/
def kind : BinaryOp → Kind
  | arith .add => .plus
  | arith .sub => .dash
  | arith .mul => .star
  | arith .div => .slash
  | compare .less => .less
  | compare .lessEquals => .lessEquals
  | compare .greater => .greater
  | compare .greaterEquals => .greaterEquals
  | compare .equals => .equals
  | compare .notEquals => .notEquals
  | logic .and => .and
  | logic .or => .or

/-- The four levels of operators. -/
def power : BinaryOp → Power
  | arith .mul => .multiplicative
  | arith .div => .multiplicative
  | arith .add => .additive
  | arith .sub => .additive
  | compare _ => .relational
  | logic _ => .logical

/-- No binary operator is the end of input. -/
theorem kind_ne_eof (op : BinaryOp) : op.kind ≠ .eof := by
  rcases op with op | op | op <;> cases op <;> decide

/-- The word of an operator. -/
def word (op : BinaryOp) : Word := .mark op.kind op.kind_ne_eof

end BinaryOp

namespace UnaryOp

/-- The kind of the token of an operator. -/
def kind : UnaryOp → Kind
  | plus => .plus
  | minus => .dash
  | not => .not

/-- No unary operator is the end of input. -/
theorem kind_ne_eof (op : UnaryOp) : op.kind ≠ .eof := by
  cases op <;> decide

/-- The word of an operator. -/
def word (op : UnaryOp) : Word := .mark op.kind op.kind_ne_eof

end UnaryOp

/-! ## Expressions -/

/-- The word of a literal, with a spelling of numbers with a point. -/
def Literal.word (spell : Binary64 → String) : Literal → Word
  | int v => ⟨.integer, Nat.repr v.toInt.toNat, by decide⟩
  | float v => ⟨.float, spell v, by decide⟩
  | char v => ⟨.char, String.singleton (Char.ofNat v.toNat), by decide⟩
  | bool v => ⟨.bool, if v then "true" else "false", by decide⟩

/-- A literal that can be written: integers from zero on, and numbers whose spelling reads back. -/
def Literal.Writable (spell : Binary64 → String) : Literal → Prop
  | int v => 0 ≤ v.toInt
  | float v => Number.readDecimal? (spell v).toList = some v
  | char _ => True
  | bool _ => True

/-- Words in parentheses. -/
def parens (ws : List Word) : List Word := .mark .openParen :: (ws ++ [.mark .closeParen])

/-- Words in braces. -/
def braces (ws : List Word) : List Word := .mark .openCurly :: (ws ++ [.mark .closeCurly])

namespace Expr

/-- The level of the operator of a binary operation. Whatever else there is holds together as
tightly as a call. -/
def level {α : Type} : Expr α → Power
  | binary _ op _ _ => op.power
  | _ => .call

variable (spell : Binary64 → String)

mutual

/-- The words of an expression. -/
def words : Expr Span → List Word
  | literal _ v => [v.word spell]
  | read _ x => [.name x]
  | binary _ op left right =>
    (if left.level < op.power then parens left.words else left.words) ++
      op.word :: (if op.power < right.level then right.words else parens right.words)
  | unary _ op operand =>
    op.word :: (if .unary < operand.level then operand.words else parens operand.words)
  | call _ f arguments =>
    .name f :: .mark .openParen :: (argumentWords arguments ++ [.mark .closeParen])

/-- The words of arguments, with commas between them. -/
def argumentWords : List (Expr Span) → List Word
  | [] => []
  | e :: es => e.words ++ moreWords es

/-- The words of more arguments, with a comma in front of each. -/
def moreWords : List (Expr Span) → List Word
  | [] => []
  | e :: es => .mark .comma :: (e.words ++ moreWords es)

end

mutual

/-- The literals of an expression. -/
def literals : Expr Span → List Literal
  | literal _ v => [v]
  | read _ _ => []
  | binary _ _ left right => left.literals ++ right.literals
  | unary _ _ operand => operand.literals
  | call _ _ arguments => literalsOf arguments

/-- The literals of several expressions. -/
def literalsOf : List (Expr Span) → List Literal
  | [] => []
  | e :: es => e.literals ++ literalsOf es

end

end Expr

/-! ## Statements -/

/-- The words of a parameter. -/
def Param.words (p : Param) : List Word := [.name p.name, .name p.type.name]

/-- The words of more parameters, with a comma in front of each. -/
def Param.moreWords : List Param → List Word
  | [] => []
  | p :: ps => .mark .comma :: (p.words ++ moreWords ps)

/-- The words of parameters, with commas between them. -/
def Param.wordsOf : List Param → List Word
  | [] => []
  | p :: ps => p.words ++ moreWords ps

namespace Stmt

variable (spell : Binary64 → String)

mutual

/-- The words of a statement. -/
def words : Stmt → List Word
  | print _ value => .mark .kwPrint :: .mark .openParen ::
      (value.words spell ++ [.mark .closeParen, .mark .semicolon])
  | var _ x type none => [.mark .kwVar, .name x, .name type.name, .mark .semicolon]
  | var _ x type (some value) => .mark .kwVar :: .name x :: .name type.name :: .mark .assignment ::
      (value.words spell ++ [.mark .semicolon])
  | const _ x value => .mark .kwConst :: .name x :: .mark .assignment ::
      (value.words spell ++ [.mark .semicolon])
  | write _ x value => .name x :: .mark .assignment :: (value.words spell ++ [.mark .semicolon])
  | branch _ condition whenTrue whenFalse =>
    .mark .kwIf :: (condition.words spell ++ (braces (wordsOf whenTrue) ++
      if whenFalse.isEmpty then [] else .mark .kwElse :: braces (wordsOf whenFalse)))
  | loop _ condition body => .mark .kwWhile :: (condition.words spell ++ braces (wordsOf body))
  | function _ f params returns body => .mark .kwFunction :: .name f :: .mark .openParen ::
      (Param.wordsOf params ++ .mark .closeParen :: .name returns.name :: braces (wordsOf body))
  | ret _ value => .mark .kwReturn :: (value.words spell ++ [.mark .semicolon])

/-- The words of statements, one behind the other. -/
def wordsOf : List Stmt → List Word
  | [] => []
  | s :: ss => s.words ++ wordsOf ss

end

mutual

/-- The literals of a statement. -/
def literals : Stmt → List Literal
  | print _ value => value.literals
  | var _ _ _ none => []
  | var _ _ _ (some value) => value.literals
  | const _ _ value => value.literals
  | write _ _ value => value.literals
  | branch _ condition whenTrue whenFalse =>
    condition.literals ++ (literalsOf whenTrue ++ literalsOf whenFalse)
  | loop _ condition body => condition.literals ++ literalsOf body
  | function _ _ _ _ body => literalsOf body
  | ret _ value => value.literals

/-- The literals of several statements. -/
def literalsOf : List Stmt → List Literal
  | [] => []
  | s :: ss => s.literals ++ literalsOf ss

end

end Stmt

namespace Program

/-- The words of a program. -/
def words (spell : Binary64 → String) (p : Program) : List Word := Stmt.wordsOf spell p.body

/-- A program whose literals can all be written. -/
def Writable (spell : Binary64 → String) (p : Program) : Prop :=
  ∀ v ∈ Stmt.literalsOf p.body, v.Writable spell

end Program

/-! ## Trees without spans

Two trees are the same up to their spans when they are equal with all spans replaced by one. -/

/-- The span that is in no text. -/
def Span.nowhere : Span := ⟨.nowhere, .nowhere⟩

namespace Expr

mutual

/-- An expression without its spans. -/
def bare : Expr Span → Expr Span
  | literal _ v => .literal .nowhere v
  | read _ x => .read .nowhere x
  | binary _ op left right => .binary .nowhere op left.bare right.bare
  | unary _ op operand => .unary .nowhere op operand.bare
  | call _ f arguments => .call .nowhere f (bareOf arguments)

/-- Several expressions without their spans. -/
def bareOf : List (Expr Span) → List (Expr Span)
  | [] => []
  | e :: es => e.bare :: bareOf es

end

end Expr

/-- A type annotation without its span. -/
def TypeName.bare (t : TypeName) : TypeName := ⟨t.name, .nowhere⟩

/-- A parameter without its spans. -/
def Param.bare (p : Param) : Param := ⟨p.name, p.type.bare, .nowhere⟩

namespace Stmt

mutual

/-- A statement without its spans. -/
def bare : Stmt → Stmt
  | print _ value => .print .nowhere value.bare
  | var _ x type value => .var .nowhere x type.bare (value.map Expr.bare)
  | const _ x value => .const .nowhere x value.bare
  | write _ x value => .write .nowhere x value.bare
  | branch _ condition whenTrue whenFalse =>
    .branch .nowhere condition.bare (bareOf whenTrue) (bareOf whenFalse)
  | loop _ condition body => .loop .nowhere condition.bare (bareOf body)
  | function _ f params returns body =>
    .function .nowhere f (params.map Param.bare) returns.bare (bareOf body)
  | ret _ value => .ret .nowhere value.bare

/-- Several statements without their spans. -/
def bareOf : List Stmt → List Stmt
  | [] => []
  | s :: ss => s.bare :: bareOf ss

end

end Stmt

/-- A program without its spans. -/
def Program.bare (p : Program) : Program := ⟨Stmt.bareOf p.body, .nowhere⟩

end Pulse

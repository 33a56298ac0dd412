/-
Statements and programs, as they are read from tokens.

Every part that a message may point at carries its stretch of source. Type annotations are kept as
they are written; whether such a name is a type is not a question of syntax.
-/
import Pulse.Source.Position
import Pulse.Syntax.Expr

set_option autoImplicit false

namespace Pulse

/-- A type annotation as written (`DataType`). -/
structure TypeName where
  name : String
  span : Span
deriving DecidableEq

/-- A parameter of a function as written. -/
structure Param where
  name : String
  type : TypeName
  span : Span
deriving DecidableEq

/-- Statements (`StmtKind`). A branch without an `else` has an empty second block. -/
inductive Stmt where
  | print (span : Span) (value : Expr Span)
  | var (span : Span) (name : String) (type : TypeName) (value : Option (Expr Span))
  | const (span : Span) (name : String) (value : Expr Span)
  | write (span : Span) (name : String) (value : Expr Span)
  | branch (span : Span) (condition : Expr Span) (whenTrue whenFalse : List Stmt)
  | loop (span : Span) (condition : Expr Span) (body : List Stmt)
  | function (span : Span) (name : String) (params : List Param) (returns : TypeName)
      (body : List Stmt)
  | ret (span : Span) (value : Expr Span)

/-- The stretch of source of a statement. -/
def Stmt.span : Stmt → Span
  | print s _ => s
  | var s _ _ _ => s
  | const s _ _ => s
  | write s _ _ => s
  | branch s _ _ _ => s
  | loop s _ _ => s
  | function s _ _ _ _ => s
  | ret s _ => s

/-- The line of an expression (`Expr::line`). -/
def Expr.line (e : Expr Span) : Nat := e.note.line

/-- The line of a statement (`Stmt::line`). -/
def Stmt.line (s : Stmt) : Nat := s.span.line

/-- A whole compilation unit. -/
structure Program where
  body : List Stmt
  span : Span

end Pulse

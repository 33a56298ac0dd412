/-
Checked programs: the tree with what the checker found out.

Every node has the line it starts on and a type, which is missing when something below or at the
node is wrong. For a statement the type is that of the value it is about: declared, stored,
printed, returned or tested; for a function it is the type of its results.
-/
import Pulse.Typing.Ty

set_option autoImplicit false

namespace Pulse

/-- The note of a checked node. -/
structure Typing where
  ty : Option Ty
  line : Nat
deriving DecidableEq

/-- The type of a checked expression. -/
def Expr.ty (e : Expr Typing) : Option Ty := e.note.ty

/-- A parameter with its type (`TypedParam`). -/
structure CheckedParam where
  name : String
  ty : Option Ty
deriving DecidableEq

/-- Checked statements (`TypedStmtKind`). -/
inductive CheckedStmt where
  | print (note : Typing) (value : Expr Typing)
  | var (note : Typing) (name : String) (value : Option (Expr Typing))
  | const (note : Typing) (name : String) (value : Expr Typing)
  | write (note : Typing) (name : String) (value : Expr Typing)
  | branch (note : Typing) (condition : Expr Typing) (whenTrue whenFalse : List CheckedStmt)
  | loop (note : Typing) (condition : Expr Typing) (body : List CheckedStmt)
  | function (note : Typing) (name : String) (params : List CheckedParam) (returns : Option Ty)
      (body : List CheckedStmt)
  | ret (note : Typing) (value : Expr Typing)

/-- A function of a checked program (`TypedFnDecl`). -/
structure CheckedFunction where
  name : String
  params : List CheckedParam
  returns : Option Ty
  body : List CheckedStmt

namespace CheckedStmt

/-- The note of a statement. -/
def note : CheckedStmt → Typing
  | print n _ => n
  | var n _ _ => n
  | const n _ _ => n
  | write n _ _ => n
  | branch n _ _ _ => n
  | loop n _ _ => n
  | function n _ _ _ _ => n
  | ret n _ => n

/-- Whether a statement declares a function. -/
def isFunction : CheckedStmt → Bool
  | function _ _ _ _ _ => true
  | _ => false

mutual

/-- The functions that a statement declares, also inside its blocks, but not inside a function. -/
def functions : CheckedStmt → List CheckedFunction
  | function _ name params returns body => [⟨name, params, returns, body⟩]
  | branch _ _ whenTrue whenFalse => functionsOf whenTrue ++ functionsOf whenFalse
  | loop _ _ body => functionsOf body
  | _ => []

/-- The functions that the statements of a block declare (`collect_functions`). -/
def functionsOf : List CheckedStmt → List CheckedFunction
  | [] => []
  | s :: ss => s.functions ++ functionsOf ss

end

end CheckedStmt

/-- A checked compilation unit (`TypedProgram`). -/
structure CheckedProgram where
  body : List CheckedStmt

namespace CheckedProgram

/-- All functions, in source order (`TypedProgram::functions`). -/
def functions (p : CheckedProgram) : List CheckedFunction := CheckedStmt.functionsOf p.body

/-- The statements of the program itself that are no functions (`global_statements`). -/
def globalStatements (p : CheckedProgram) : List CheckedStmt :=
  p.body.filter fun s => !s.isFunction

end CheckedProgram

end Pulse

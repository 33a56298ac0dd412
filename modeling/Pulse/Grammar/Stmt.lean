/-
Reading statements and programs.

As with expressions, each form is given the readers for what stands inside it, and `Grammar.stmt`
ties the knot. A block goes on to its closing brace or to the end of input, a program to the end
of input.
-/
import Pulse.Grammar.Expr

set_option autoImplicit false

namespace Pulse

/-! ## Parts of statements -/

/-- A name, with a word on what it should name (`expect_identifier`). -/
def readName (message : String) : Reader String := do
  return (← Reader.expectWhere .identifier message).value

/-- A type annotation (`parse_type`). -/
def readType : Reader TypeName := do
  let t ← Reader.expectWhere .identifier "expected a type name"
  return ⟨t.value, t.span⟩

/-- Statements up to a token at which `stop` holds. -/
def readStmtsUntil (stop : Kind → Bool) (stmt : Reader Stmt) : Nat → Reader (List Stmt)
  | 0 => Reader.endless
  | fuel + 1 => do
    if stop (← Reader.kind) then
      return []
    else
      let first ← stmt
      let others ← readStmtsUntil stop stmt fuel
      return first :: others

/-- Statements between braces (`parse_block`). -/
def readBlock (stmt : Reader Stmt) (fuel : Nat) : Reader (List Stmt) := do
  let _ ← Reader.expectWhere .openCurly "expected `\x7b` to open a block"
  let body ← readStmtsUntil (fun k => k = .closeCurly || k = .eof) stmt fuel
  let _ ← Reader.expectWhere .closeCurly "expected `\x7d` to close the block"
  return body

/-- One or more parameters with commas between them. -/
def readParams : Nat → Reader (List Param)
  | 0 => Reader.endless
  | fuel + 1 => do
    let start := (← Reader.current).span.start
    let name ← readName "expected parameter name"
    let type ← readType
    let first : Param := ⟨name, type, ← Reader.spanFrom start⟩
    if (← Reader.kind) = .comma then
      let _ ← Reader.advance
      let others ← readParams fuel
      return first :: others
    else
      return [first]

/-! ## The statements

Each starts on its first token, which decided the form. -/

/-- Reads `print(value);` (`parse_print_stmt`). -/
def readPrint (operands : Operands) : Reader Stmt := do
  let start := (← Reader.advance).span.start
  let _ ← Reader.expect .openParen
  let value ← operands .default
  let _ ← Reader.expect .closeParen
  let _ ← Reader.expect .semicolon
  return .print (← Reader.spanFrom start) value

/-- Reads `var name type;` or `var name type <- value;` (`parse_var_decl_stmt`). -/
def readVar (operands : Operands) : Reader Stmt := do
  let start := (← Reader.advance).span.start
  let name ← readName "expected identifier during variable declaration"
  let type ← readType
  let value ←
    if (← Reader.kind) = .assignment then
      let _ ← Reader.advance
      let value ← operands .default
      pure (some value)
    else
      pure none
  let _ ← Reader.expect .semicolon
  return .var (← Reader.spanFrom start) name type value

/-- Reads `const name <- value;` (`parse_const_decl_stmt`). -/
def readConst (operands : Operands) : Reader Stmt := do
  let start := (← Reader.advance).span.start
  let name ← readName "expected identifier during constant declaration"
  let _ ← Reader.expectWhere .assignment "expected `<-` in constant definition"
  let value ← operands .default
  let _ ← Reader.expect .semicolon
  return .const (← Reader.spanFrom start) name value

/-- Reads `name <- value;` (`parse_write_stmt`). -/
def readWrite (operands : Operands) : Reader Stmt := do
  let target ← Reader.advance
  let _ ← Reader.expectWhere .assignment "expected `<-` after assignment target"
  let value ← operands .default
  let _ ← Reader.expect .semicolon
  return .write (← Reader.spanFrom target.span.start) target.value value

/-- Reads `if condition { ... }`, with or without `else { ... }` behind it (`parse_if_stmt`). -/
def readBranch (operands : Operands) (block : Reader (List Stmt)) : Reader Stmt := do
  let start := (← Reader.advance).span.start
  let condition ← operands .default
  let whenTrue ← block
  let whenFalse ←
    if (← Reader.kind) = .kwElse then
      let _ ← Reader.advance
      block
    else
      pure []
  return .branch (← Reader.spanFrom start) condition whenTrue whenFalse

/-- Reads `while condition { ... }` (`parse_while_stmt`). -/
def readLoop (operands : Operands) (block : Reader (List Stmt)) : Reader Stmt := do
  let start := (← Reader.advance).span.start
  let condition ← operands .default
  let body ← block
  return .loop (← Reader.spanFrom start) condition body

/-- Reads `function name(parameter type, ...) type { ... }` (`parse_fn_decl_stmt`). -/
def readFunction (block : Reader (List Stmt)) (fuel : Nat) : Reader Stmt := do
  let start := (← Reader.advance).span.start
  let name ← readName "expected function name"
  let _ ← Reader.expect .openParen
  let params ← if (← Reader.kind) = .closeParen then pure [] else readParams fuel
  let _ ← Reader.expectWhere .closeParen "expected `,` or `)` in parameter list"
  let returns ← readType
  let body ← block
  return .function (← Reader.spanFrom start) name params returns body

/-- Reads `return value;` (`parse_return_stmt`). -/
def readReturn (operands : Operands) : Reader Stmt := do
  let start := (← Reader.advance).span.start
  let value ← operands .default
  let _ ← Reader.expect .semicolon
  return .ret (← Reader.spanFrom start) value

/-- The statement of a given form. -/
def StmtForm.read (operands : Operands) (block : Reader (List Stmt)) (fuel : Nat) :
    StmtForm → Reader Stmt
  | print => readPrint operands
  | var => readVar operands
  | const => readConst operands
  | write => readWrite operands
  | branch => readBranch operands block
  | loop => readLoop operands block
  | function => readFunction block fuel
  | ret => readReturn operands

namespace Grammar

/-- A statement (`parse_stmt`). -/
def stmt (g : Grammar) : Nat → Reader Stmt
  | 0 => Reader.endless
  | fuel + 1 => do
    match g.stmt? (← Reader.kind) with
    | some form => form.read (g.expr fuel) (readBlock (g.stmt fuel) fuel) fuel
    | none => Reader.unexpectedWhere "expected a statement"

/-- A block of statements. -/
def block (g : Grammar) (fuel : Nat) : Reader (List Stmt) := readBlock (g.stmt fuel) fuel

/-- A program: statements up to the end of input. -/
def program (g : Grammar) (fuel : Nat) : Reader Program := do
  let body ← readStmtsUntil (· = .eof) (g.stmt fuel) fuel
  return ⟨body, ← Reader.spanFrom .origin⟩

end Grammar

/-! ## Programs from tokens -/

/-- Why tokens give no program. Tokens that end with the end of input give a program or a syntax
error. -/
inductive Program.Failure where
  | invalid (e : SyntaxError)
  | noTokens
  | endless

/-- The program that a list of tokens spells (`parse`). -/
def Program.ofTokens (tokens : List Token) : Except Program.Failure Program :=
  match Tape.ofTokens? tokens with
  | none => .error .noTokens
  | some tape =>
    match Grammar.standard.program tape.fuel tape with
    | .ok program _ => .ok program
    | .error e _ => .error (.invalid e)
    | .endless => .error .endless

end Pulse

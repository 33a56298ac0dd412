/-
Checking statements and programs.

The checker walks the statements in source order. It keeps the scope it is in, the functions that
may be called, the functions declared so far, the function whose body it is in, and a journal of
what happened. It never stops at a fault. Blocks open no scope of their own; only the body of a
function does. A function may be called in its own body, and elsewhere once its body is complete and
has a `return` of the declared type.
-/
import Pulse.Log.Event
import Pulse.Typing.Expr

set_option autoImplicit false

namespace Pulse

/-- The function that a program starts with, if it has one of this name (`ENTRY_FUNCTION`). -/
def entryName : String := "main"

/-- A function whose body is being checked (`CurrentFunction`): whether a `return` was seen, and
whether one had the type of the function. -/
structure OpenFunction where
  signature : Signature
  sawReturn : Bool
  matchingReturn : Bool
deriving DecidableEq

/-- The state of the checker (`TypeChecker`). `declared` has the first line of every function
name. -/
structure Checker where
  scope : Scope
  callable : List Signature
  declared : List (String × Nat)
  current : Option OpenFunction
  journal : List Event

namespace Checker

/-! ## The state -/

/-- The checker before the first statement. -/
def start : Checker := ⟨.global, [], [], none, []⟩

/-- The diagnostics so far, in order. -/
def diagnostics (c : Checker) : List Diagnostic := c.journal.filterMap Event.diagnostic?

/-- Enters an event. -/
def log (c : Checker) (e : Event) : Checker := { c with journal := c.journal ++ [e] }

/-- Reports a fault. -/
def report (c : Checker) (line : Nat) (fault : Fault) : Checker := c.log (.reported ⟨line, fault⟩)

/-- Reports several faults. -/
def reportAll (c : Checker) (ds : List Diagnostic) : Checker :=
  { c with journal := c.journal ++ ds.map .reported }

/-- The signature that a call of `name` refers to: that of the open function, or of a callable
one. -/
def callee? (c : Checker) (name : String) : Option Signature :=
  match c.current with
  | some f =>
    if f.signature.name = name then some f.signature
    else c.callable.find? fun s => s.name = name
  | none => c.callable.find? fun s => s.name = name

/-- What an expression at this point may refer to. -/
def context (c : Checker) : Context := ⟨c.scope, c.callee?⟩

/-- Binds a symbol in the scope. If its name is bound there already, the line of that binding is
given instead. -/
def declare (c : Checker) (symbol : Symbol) : Except Nat Checker :=
  match c.scope.declare symbol with
  | .ok scope => .ok ({ c with scope := scope }.log (.declared symbol c.scope.isGlobal))
  | .error line => .error line

/-- The same, where an earlier binding of the name stays. -/
def declareFirst (c : Checker) (symbol : Symbol) : Checker :=
  match c.declare symbol with
  | .ok c => c
  | .error _ => c

/-- The type that an annotation names, reported if there is none (`resolve_type`). -/
def resolve (c : Checker) (type : TypeName) : Option Ty × Checker :=
  match Ty.ofName? type.name with
  | some ty => (some ty, c)
  | none => (none, c.report type.span.line (.unknownType type.name))

/-! ## Statements without blocks -/

/-- Checks an expression. -/
def expr (c : Checker) (e : Expr Span) : Expr Typing × Checker :=
  let (e, faults) := c.context.expr e
  (e, c.reportAll faults)

/-- Checks an expression if there is one. -/
def expr? (c : Checker) : Option (Expr Span) → Option (Expr Typing) × Checker
  | some e =>
    let (e, c) := c.expr e
    (some e, c)
  | none => (none, c)

/-- Checks a condition (`check_condition`): a type other than `bool` is reported at the line of the
expression. -/
def condition (c : Checker) (e : Expr Span) : Expr Typing × Checker :=
  let (e, c) := c.expr e
  match e.ty with
  | some ty =>
    if ty = .bool then (e, c) else (e, c.report e.note.line (.conditionNotBool ty.name))
  | none => (e, c)

/-- Declares a variable with a value of type `received`, if it has one (`check_var_decl`). The name
is looked at before the annotation, and the annotation before the value. Gives the type the variable
got. -/
def declareVar (c : Checker) (line : Nat) (name : String) (type : TypeName)
    (received : Option Ty) : Option Ty × Checker :=
  if Ty.isTypeName name then (none, c.report line (.illegalName name))
  else
    match c.scope.lookupLocal? name with
    | some existing => (none, c.report line (.alreadyDefined name existing.line))
    | none =>
      let (declared, c) := c.resolve type
      match declared, received with
      | none, _ => (none, c)
      | some declared, some received =>
        if received = declared then
          (some declared, c.declareFirst ⟨name, some declared, false, line⟩)
        else
          (none, c.report line (.declarationMismatch name declared.name received.name))
      | some declared, none => (some declared, c.declareFirst ⟨name, some declared, false, line⟩)

/-- Declares a constant of a type (`check_const_decl`). -/
def declareConst (c : Checker) (line : Nat) (name : String) (ty : Option Ty) : Checker :=
  if Ty.isTypeName name then c.report line (.illegalName name)
  else
    match c.declare ⟨name, ty, true, line⟩ with
    | .ok c => c
    | .error previous => c.report line (.alreadyDefined name previous)

/-- Writes a value of type `received` to a variable (`check_write`). Gives the type of the variable
when the two agree. -/
def writeTo (c : Checker) (line : Nat) (name : String) (received : Option Ty) :
    Option Ty × Checker :=
  match c.scope.lookup? name with
  | none => (none, c.report line (.undefinedName name))
  | some symbol =>
    if symbol.isConst then (none, c.report line (.writeToConstant name))
    else
      match symbol.ty, received with
      | some expected, some received =>
        if expected = received then (some expected, c)
        else (none, c.report line (.assignmentMismatch name expected.name received.name))
      | _, _ => (none, c)

/-- Returns a value of type `received` from the open function (`check_return`). -/
def returnOf (c : Checker) (line : Nat) (received : Option Ty) : Checker :=
  match c.current with
  | none => c.report line .returnOutsideFunction
  | some f =>
    -- A value or an annotation without a type was reported already; the `return` still counts as
    -- one.
    let f := { f with sawReturn := true }
    match f.signature.returns, received with
    | some expected, some received =>
      if expected = received then { c with current := some { f with matchingReturn := true } }
      else { c with current := some f }.report line (.returnMismatch expected.name received.name)
    | _, _ => { c with current := some f }

/-! ## Functions -/

/-- Notes the declaration of a function. Tells whether its name was new; if not, that is
reported. -/
def declareFunction (c : Checker) (line : Nat) (name : String) : Bool × Checker :=
  match c.declared.lookup name with
  | some previous => (false, c.report line (.functionAlreadyDefined name previous))
  | none => (true, { c with declared := c.declared ++ [(name, line)] })

/-- The parameters with their types. -/
def params (c : Checker) : List Param → List CheckedParam × Checker
  | [] => ([], c)
  | p :: ps =>
    let (ty, c) := c.resolve p.type
    let (others, c) := params c ps
    (⟨p.name, ty⟩ :: others, c)

/-- The signature of a function, with all that is wrong with it reported: the annotations of the
parameters, a name given to two of them, the annotation of the result, and an entry function that
takes parameters or does not return an integer. -/
def signature (c : Checker) (line : Nat) (name : String) (ps : List Param) (returns : TypeName) :
    List CheckedParam × Option Ty × Checker :=
  let (ps, c) := c.params ps
  let c :=
    if (ps.map CheckedParam.name).Nodup then c else c.report line (.duplicateParameter name)
  let (returns, c) := c.resolve returns
  let badEntry := name = entryName ∧ (ps ≠ [] ∨ returns.any (· ≠ .int))
  let c := if badEntry then c.report line (.invalidEntrySignature name) else c
  (ps, returns, c)

/-- Enters the body of a function: a scope with the parameters in it. Of two parameters with one
name the first is bound. -/
def enter (c : Checker) (s : Signature) (ps : List CheckedParam) : Checker :=
  let c := c.log (.enteredBody s.name s.line)
  let c := { c with scope := c.scope.nested, current := some ⟨s, false, false⟩ }
  ps.foldl (fun c p => c.declareFirst ⟨p.name, p.ty, false, s.line⟩) c

/-- Leaves the body of a function. A function without a `return` is reported; one that is new and
has a `return` of its type may be called from now on. -/
def exit (c : Checker) (s : Signature) (isNew : Bool) : Checker :=
  let left := { c with scope := c.scope.leave, current := none }
  match c.current with
  | none => left
  | some f =>
    if !f.sawReturn then left.report s.line (.missingReturn s.name)
    -- A later declaration of the same name was reported and never replaces the first.
    else if f.matchingReturn && isNew then { left with callable := left.callable ++ [s] }
    else left

/-! ## All statements -/

mutual

/-- Checks a statement (`check_stmt`, `check_function`). -/
def stmt (c : Checker) : Stmt → CheckedStmt × Checker
  | .print span value =>
    let (value, c) := c.expr value
    (.print ⟨value.ty, span.line⟩ value, c)
  | .var span name type value =>
    let (value, c) := c.expr? value
    let (ty, c) := c.declareVar span.line name type (value.bind Expr.ty)
    (.var ⟨ty, span.line⟩ name value, c)
  | .const span name value =>
    let (value, c) := c.expr value
    (.const ⟨value.ty, span.line⟩ name value, c.declareConst span.line name value.ty)
  | .write span name value =>
    let (value, c) := c.expr value
    let (ty, c) := c.writeTo span.line name value.ty
    (.write ⟨ty, span.line⟩ name value, c)
  | .branch span condition whenTrue whenFalse =>
    let (condition, c) := c.condition condition
    let (whenTrue, c) := c.block whenTrue
    let (whenFalse, c) := c.block whenFalse
    (.branch ⟨condition.ty, span.line⟩ condition whenTrue whenFalse, c)
  | .loop span condition body =>
    let (condition, c) := c.condition condition
    let (body, c) := c.block body
    (.loop ⟨condition.ty, span.line⟩ condition body, c)
  | .function span name params returns body =>
    let (isNew, c) := c.declareFunction span.line name
    let (params, returns, c) := c.signature span.line name params returns
    let s : Signature := ⟨name, params.map CheckedParam.ty, returns, span.line⟩
    if c.current.isSome || !c.scope.isGlobal then
      (.function ⟨returns, span.line⟩ name params returns [],
        c.report span.line (.nestedFunction name))
    else
      -- The body sees its own function through `current`, before it is callable elsewhere.
      let (body, c) := (c.enter s params).block body
      (.function ⟨returns, span.line⟩ name params returns body, c.exit s isNew)
  | .ret span value =>
    let (value, c) := c.expr value
    (.ret ⟨value.ty, span.line⟩ value, c.returnOf span.line value.ty)

/-- Checks the statements of a block one after the other (`check_block`). -/
def block (c : Checker) : List Stmt → List CheckedStmt × Checker
  | [] => ([], c)
  | s :: ss =>
    let (s, c) := c.stmt s
    let (ss, c) := c.block ss
    (s :: ss, c)

end

end Checker

/-! ## Programs -/

/-- A checked program and the checker as it was left. -/
structure Analysis where
  program : CheckedProgram
  checker : Checker

namespace Analysis

/-- The diagnostics of a program. -/
def diagnostics (a : Analysis) : List Diagnostic := a.checker.diagnostics

/-- Whether the program has no diagnostics (`Analysis::is_ok`). -/
def isOk (a : Analysis) : Bool := a.diagnostics.isEmpty

end Analysis

/-- Checks a program. -/
def Program.analyze (p : Program) : Analysis :=
  let (body, c) := Checker.start.block p.body
  ⟨⟨body⟩, c.log (.finished c.scope.symbols.length c.callable.length c.diagnostics.length)⟩

end Pulse

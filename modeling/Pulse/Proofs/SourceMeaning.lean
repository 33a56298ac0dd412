/-
What checked programs do when they run.

Arithmetic and comparison are parameters: they may be undefined on some operands, and nothing is
assumed of them. Truth values are compared as the numbers zero and one. All else is fixed here. The
variables of a call are there from its start, parameters with the arguments and the others with
zeros, but a name stands for a variable of the call only behind its declaration, in the order of the
text, and for a variable of the program before. Operands and arguments are evaluated from left to
right, all of them.

Running is a function with a bound: on the depth of calls, and at each depth on the rounds of a
loop. A run that meets the bound says so, so programs that never end are not confused with
programs that go wrong.
-/
import Pulse.Proofs.TypedTree

set_option autoImplicit false

namespace Pulse

open Number (Binary64)
open CheckedStmt

/-! ## Values -/

/-- An interpretation of the operations. -/
structure Arithmetic where
  int : ArithOp → Int32 → Int32 → Option Int32
  float : ArithOp → Binary64 → Binary64 → Option Binary64
  byte : ArithOp → UInt8 → UInt8 → Option UInt8
  compareInt : CompareOp → Int32 → Int32 → Option Bool
  compareFloat : CompareOp → Binary64 → Binary64 → Option Bool
  compareByte : CompareOp → UInt8 → UInt8 → Option Bool

/-- The zero of a type. -/
def Literal.zero : Ty → Literal
  | .int => int 0
  | .float => float .zero
  | .char => char 0
  | .bool => bool false

/-- A truth value as a number. -/
def bit (b : Bool) : Int32 := if b then 1 else 0

namespace Arithmetic

variable (A : Arithmetic)

/-- A binary operation on values. -/
def binary : BinaryOp → Literal → Literal → Option Literal
  | .arith op, .int x, .int y => (A.int op x y).map .int
  | .arith op, .float x, .float y => (A.float op x y).map .float
  | .compare op, .int x, .int y => (A.compareInt op x y).map .bool
  | .compare op, .float x, .float y => (A.compareFloat op x y).map .bool
  | .compare op, .char x, .char y => (A.compareByte op x y).map .bool
  | .compare op, .bool x, .bool y => (A.compareInt op (bit x) (bit y)).map .bool
  | .logic .and, .bool x, .bool y => some (.bool (x && y))
  | .logic .or, .bool x, .bool y => some (.bool (x || y))
  | _, _, _ => none

/-- A unary operation on a value. The minus subtracts from zero. -/
def unary : UnaryOp → Literal → Option Literal
  | .plus, .int x => some (.int x)
  | .plus, .float x => some (.float x)
  | .minus, .int x => (A.int .sub 0 x).map .int
  | .minus, .float x => (A.float .sub .zero x).map .float
  | .not, .bool x => some (.bool !x)
  | _, _ => none

end Arithmetic

/-! ## Memory and runs -/

/-- What outlives a call: the variables of the program, and what was printed. -/
structure World (α : Type) where
  globals : String → Option α
  output : List α

/-- The world with other values. -/
def World.map {α β : Type} (f : α → β) (w : World α) : World β :=
  ⟨fun x => (w.globals x).map f, w.output.map f⟩

/-- The variables of the running call, and the world. -/
structure Memory where
  locals : String → Option Literal
  world : World Literal

namespace Memory

/-- The memory with another value of a variable of the call. -/
def withLocal (μ : Memory) (x : String) (v : Literal) : Memory :=
  { μ with locals := fun y => if y = x then some v else μ.locals y }

/-- The memory with another value of a variable of the program. -/
def withGlobal (μ : Memory) (x : String) (v : Literal) : Memory :=
  { μ with world.globals := fun y => if y = x then some v else μ.world.globals y }

/-- The memory with a value printed. -/
def withOutput (μ : Memory) (v : Literal) : Memory :=
  { μ with world.output := μ.world.output ++ [v] }

end Memory

/-- The end of a run with a bound: a result, an undefined operation, or the bound was met. -/
inductive Ending (α : Type) where
  | done (result : α) (memory : Memory)
  | undefined (memory : Memory)
  | timeout (memory : Memory)

/-- A run from a memory. -/
def Run (α : Type) : Type := Memory → Ending α

namespace Run

variable {α β : Type}

/-- A result at once. -/
protected def pure (a : α) : Run α := fun μ => .done a μ

/-- One run after the other. -/
protected def bind (r : Run α) (f : α → Run β) : Run β := fun μ =>
  match r μ with
  | .done a μ => f a μ
  | .undefined μ => .undefined μ
  | .timeout μ => .timeout μ

instance : Monad Run where
  pure := Run.pure
  bind := Run.bind

/-- Behind a run with a result the next one starts from the memory that it left. -/
theorem bind_of_done {r : Run α} {f : α → Run β} {μ ν : Memory} {a : α} (h : r μ = .done a ν) :
    (r >>= f) μ = f a ν := by
  have hbind : (r >>= f) μ = Run.bind r f μ := rfl
  rw [hbind, Run.bind, h]

/-- No result. -/
def undefined : Run α := fun μ => .undefined μ

/-- The bound is met. -/
def timeout : Run α := fun μ => .timeout μ

/-- The result of an operation, if it has one. -/
def defined : Option α → Run α
  | some a => Run.pure a
  | none => undefined

/-- The value of a variable. Names declared in the function so far are its own. -/
def fetch (F : Option Frame) (x : String) : Run Literal := fun μ =>
  if x ∈ (localsOf F).map Prod.fst then defined (μ.locals x) μ else defined (μ.world.globals x) μ

/-- Puts a value into a variable of the call. -/
def setLocal (x : String) (v : Literal) : Run Unit := fun μ =>
  if (μ.locals x).isSome then .done () (μ.withLocal x v) else .undefined μ

/-- Puts a value into a variable of the program. -/
def setGlobal (x : String) (v : Literal) : Run Unit := fun μ =>
  if (μ.world.globals x).isSome then .done () (μ.withGlobal x v) else .undefined μ

/-- Puts a value into a variable. -/
def assign (F : Option Frame) (x : String) (v : Literal) : Run Unit :=
  if x ∈ (localsOf F).map Prod.fst then setLocal x v else setGlobal x v

/-- Puts the first value into a variable that is declared here. -/
def setFirst (F : Option Frame) (x : String) (v : Literal) : Run Unit :=
  match F with
  | some _ => setLocal x v
  | none => setGlobal x v

/-- Prints a value. -/
def print (v : Literal) : Run Unit := fun μ => .done () (μ.withOutput v)

/-- A run with variables of its own. -/
def inside (locals : String → Option Literal) (r : Run α) : Run α := fun μ =>
  match r { μ with locals := locals } with
  | .done a ν => .done a { ν with locals := μ.locals }
  | .undefined ν => .undefined { ν with locals := μ.locals }
  | .timeout ν => .timeout { ν with locals := μ.locals }

/-- The rounds of a loop, at most as many as the bound. A body that returns ends the loop. -/
def rounds (test : Run Bool) (body : Run (Option Literal)) : Nat → Run (Option Literal)
  | 0 => timeout
  | n + 1 => do
    if ← test then
      match ← body with
      | some v => return some v
      | none => rounds test body n
    else return none

end Run

open Run

/-! ## Expressions and statements

What calls do is a parameter here, so that only calls make the bound smaller. -/

section Meaning

variable (A : Arithmetic) (calls : String → List Literal → Run Literal)

mutual

/-- The value of an expression. -/
def eval (F : Option Frame) : Expr Typing → Run Literal
  | .literal _ v => return v
  | .read _ x => fetch F x
  | .binary _ op left right => do
    let x ← eval F left
    let y ← eval F right
    defined (A.binary op x y)
  | .unary _ op operand => do
    let x ← eval F operand
    defined (A.unary op x)
  | .call _ f arguments => do
    let vs ← evalAll F arguments
    calls f vs

/-- The values of several expressions. -/
def evalAll (F : Option Frame) : List (Expr Typing) → Run (List Literal)
  | [] => return []
  | e :: es => do
    let v ← eval F e
    let vs ← evalAll F es
    return v :: vs

end

/-- The truth value of a condition. -/
def holds (F : Option Frame) (condition : Expr Typing) : Run Bool := do
  match ← eval A calls F condition with
  | .bool b => return b
  | _ => undefined

mutual

/-- Runs a statement. The result is that of a `return`, if there was one. -/
def exec (n : Nat) (F : Option Frame) : CheckedStmt → Run (Option Literal)
  | .print _ value => do
    Run.print (← eval A calls F value)
    return none
  | .var _ _ none => return none
  | .var _ x (some value) => do
    setFirst F x (← eval A calls F value)
    return none
  | .const _ x value => do
    setFirst F x (← eval A calls F value)
    return none
  | .write _ x value => do
    assign F x (← eval A calls F value)
    return none
  | .branch _ condition whenTrue whenFalse => do
    if ← holds A calls F condition then execBlock n F whenTrue
    -- What the first block declares is visible in the second one too.
    else execBlock n (Frame.past F (declarationsOf whenTrue)) whenFalse
  | .loop _ condition body => rounds (holds A calls F condition) (execBlock n F body) n
  | .function _ _ _ _ _ => return none
  | .ret _ value => do
    let v ← eval A calls F value
    return some v

/-- Runs the statements of a block until one of them returns. -/
def execBlock (n : Nat) (F : Option Frame) : List CheckedStmt → Run (Option Literal)
  | [] => return none
  | s :: ss => do
    match ← exec n F s with
    | some v => return some v
    | none => execBlock n (Frame.past F s.declarations) ss

end

end Meaning

/-! ## Functions and programs -/

namespace CheckedFunction

/-- The parameters of a function with their types. -/
def vars (f : CheckedFunction) : List (String × Ty) :=
  f.params.filterMap fun p => p.ty.map fun t => (p.name, t)

/-- The type of the results of a function. -/
def result (f : CheckedFunction) : Ty := f.returns.getD .int

/-- The variables of a new call. -/
def enter (f : CheckedFunction) (arguments : List Literal) : String → Option Literal := fun x =>
  ((f.vars.map Prod.fst).zip arguments ++
    (declarationsOf f.body).map fun v => (v.1, Literal.zero v.2)).lookup x

end CheckedFunction

section TypedFunction

variable {d : Outline} {f : CheckedFunction} {k : Rules.Callee} {vars : List (String × Ty)}

/-- The parameters of a typed function are the variables of the derivation. -/
theorem TypedFunction.vars_eq (h : TypedFunction d f k vars) : f.vars = vars := by
  rw [CheckedFunction.vars, h.params, List.filterMap_map]
  exact List.filterMap_some

/-- A typed function returns what its callee does. -/
theorem TypedFunction.result_eq (h : TypedFunction d f k vars) : f.result = k.returns := by
  rw [CheckedFunction.result, h.returns, Option.getD_some]

/-- Arguments that suit the parameters suit the callee. -/
theorem TypedFunction.argumentTypes (h : TypedFunction d f k vars) {vs : List Literal}
    (hvs : vs.map (fun v => some v.ty) = f.params.map CheckedParam.ty) :
    vs.map Literal.ty = k.params := by
  rw [h.params, List.map_map] at hvs
  apply List.map_injective_iff.mpr fun _ _ => Option.some.inj
  rw [← h.types, List.map_map, List.map_map]
  exact hvs

end TypedFunction

namespace CheckedProgram

/-- A call of a function, with a bound. A body that does not return gives zero. -/
def call (A : Arithmetic) (p : CheckedProgram) : Nat → String → List Literal → Run Literal
  | 0, _, _ => timeout
  | n + 1, name, arguments =>
    match p.functions.find? fun f => f.name = name with
    | none => undefined
    | some f => inside (f.enter arguments) do
      let r ← execBlock A (p.call A n) n (some ⟨f.vars, f.result⟩) f.body
      return r.getD (.zero f.result)

/-- The memory at the start of a program: zeros, and nothing printed. -/
def start (p : CheckedProgram) : Memory :=
  ⟨fun _ => none,
    ⟨fun x => ((declarationsOf p.body).map fun v => (v.1, Literal.zero v.2)).lookup x, []⟩⟩

/-- Runs the statements of a program that are outside of functions, then the call of a function if
one is given. Without one the result is zero. -/
def run (A : Arithmetic) (p : CheckedProgram) (entry : Option (String × List Literal)) (n : Nat) :
    Ending Literal :=
  (do
    let _ ← inside (fun _ => none) (execBlock A (p.call A n) n none p.globalStatements)
    match entry with
    | some (f, arguments) => p.call A n f arguments
    | none => return .int 0 : Run Literal) p.start

end CheckedProgram

/-! ## Behaviours -/

/-- What can be seen of a program: it ends with a result and a world, it goes wrong in a world, or
it runs forever and prints more and more. -/
inductive Behaviour (α : Type) where
  | returns (value : α) (world : World α)
  | fails (world : World α)
  | diverges (printed : List α → Prop)

/-- The behaviour with other values. -/
def Behaviour.map {α β : Type} (f : α → β) : Behaviour α → Behaviour β
  | returns v w => returns (f v) (w.map f)
  | fails w => fails (w.map f)
  | diverges printed => diverges fun out => ∃ out', printed out' ∧ out = out'.map f

/-- Runs with larger and larger bounds behave in a way: some bound is enough to end so, or no bound
is enough to end at all. What is printed forever is seen piece by piece. -/
def Behaves (run : Nat → Ending Literal) : Behaviour Literal → Prop
  | .returns v w => ∃ n μ, run n = .done v μ ∧ μ.world = w
  | .fails w => ∃ n μ, run n = .undefined μ ∧ μ.world = w
  | .diverges printed => (∀ n, ∃ μ, run n = .timeout μ) ∧
      ∀ out, printed out ↔ ∃ n μ, run n = .timeout μ ∧ out <+: μ.world.output

/-- **Runs behave in some way.** Either some bound is enough, or none is, and then what is printed
grows with the bound. -/
theorem exists_behaves (run : Nat → Ending Literal) : ∃ b, Behaves run b := by
  by_cases h : ∀ n, ∃ μ, run n = .timeout μ
  · exact ⟨.diverges fun out => ∃ n μ, run n = .timeout μ ∧ out <+: μ.world.output,
      h, fun out => Iff.rfl⟩
  · rw [not_forall] at h
    obtain ⟨n, hn⟩ := h
    cases hrun : run n with
    | done v μ => exact ⟨.returns v μ.world, n, μ, hrun, rfl⟩
    | undefined μ => exact ⟨.fails μ.world, n, μ, hrun, rfl⟩
    | timeout μ => exact absurd ⟨μ, hrun⟩ hn

end Pulse

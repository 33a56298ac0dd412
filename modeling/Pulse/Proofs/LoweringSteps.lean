/-
What lowering makes of each construct.

A lowering step that succeeds is taken apart here, once for every kind of node: which parts were
lowered from which supply, and how their instructions were put together. Everything that is said
later about generated code is an induction over programs with these facts, and none of it opens
the definitions again. The registers and labels of a construct are the numbers between the supply
it started from and the supply it left.
-/
import Pulse.Code.Lowering

set_option autoImplicit false

namespace Pulse.Code

/-! ## Supplies -/

namespace Supply

/-- The next register. -/
def fresh (s : Supply) : Register := ⟨s.registers + 1⟩

/-- The supply with one more register in use. -/
def skipRegister (s : Supply) : Supply := { s with registers := s.registers + 1 }

/-- The supply with some more labels in use. -/
def skipLabels (s : Supply) (n : Nat) : Supply := { s with labels := s.labels + n }

/-- The label a number of places ahead. -/
def label (s : Supply) (n : Nat) : Label := ⟨s.labels + n⟩

/-- The names in the frame; outside of functions there are none. -/
def names (s : Supply) : List String := s.frame.getD []

/-- Where a name is stored. -/
def location (s : Supply) (x : String) : Location :=
  if s.names.contains x then .frame x else .global x

/-- The supply behind a declaration. -/
def declare (s : Supply) (x : String) : Supply := { s with frame := s.frame.map (x :: ·) }

/-- The instruction of a declaration. -/
def storage (s : Supply) (ty : MachineTy) (x : String) : Instr :=
  match s.frame with
  | some _ => .alloc ty x
  | none => .global ty x

@[simp] theorem skipRegister_registers (s : Supply) : s.skipRegister.registers = s.registers + 1 :=
  rfl

@[simp] theorem skipRegister_labels (s : Supply) : s.skipRegister.labels = s.labels := rfl

@[simp] theorem skipRegister_frame (s : Supply) : s.skipRegister.frame = s.frame := rfl

@[simp] theorem skipLabels_registers (s : Supply) (n : Nat) :
    (s.skipLabels n).registers = s.registers := rfl

@[simp] theorem skipLabels_labels (s : Supply) (n : Nat) : (s.skipLabels n).labels = s.labels + n :=
  rfl

@[simp] theorem skipLabels_frame (s : Supply) (n : Nat) : (s.skipLabels n).frame = s.frame := rfl

@[simp] theorem skipLabels_skipLabels (s : Supply) (m n : Nat) :
    (s.skipLabels m).skipLabels n = s.skipLabels (m + n) := by
  simp [skipLabels, Nat.add_assoc]

@[simp] theorem skipLabels_label (s : Supply) (m n : Nat) :
    (s.skipLabels m).label n = s.label (m + n) := by
  simp [skipLabels, label, Nat.add_assoc]

@[simp] theorem skipRegister_location (s : Supply) (x : String) :
    s.skipRegister.location x = s.location x := rfl

@[simp] theorem declare_registers (s : Supply) (x : String) :
    (s.declare x).registers = s.registers := rfl

@[simp] theorem declare_labels (s : Supply) (x : String) : (s.declare x).labels = s.labels := rfl

@[simp] theorem declare_frame (s : Supply) (x : String) :
    (s.declare x).frame = s.frame.map (x :: ·) := rfl

end Supply

/-! ## Steps -/

namespace Lowering

variable {α β : Type}

/-- The result of a step behind earlier instructions. -/
def after (code : List Instr) (l : Lowered α) : Lowered α := ⟨l.value, code ++ l.code, l.next⟩

@[simp] theorem after_mk (code more : List Instr) (a : α) (s : Supply) :
    after code ⟨a, more, s⟩ = ⟨a, code ++ more, s⟩ := rfl

/-- Two steps in a row: the second one starts from the supply that the first one left, and its
instructions stand behind those of the first. -/
@[simp] theorem bind_apply (m : Lowering α) (f : α → Lowering β) (s : Supply) :
    (m >>= f) s = (m s).bind fun a => (f a.value a.next).map (after a.code) := by
  -- The instance is opened here, once and for all steps.
  show Lowering.bind m f s = _
  unfold Lowering.bind
  cases m s with
  | none => rfl
  | some a =>
    simp only [Option.bind_some]
    cases f a.value a.next <;> rfl

@[simp] theorem pure_apply (a : α) (s : Supply) : (pure a : Lowering α) s = some ⟨a, [], s⟩ := rfl

@[simp] theorem emit_apply (i : Instr) (s : Supply) : emit i s = some ⟨(), [i], s⟩ := rfl

@[simp] theorem register_apply (s : Supply) : register s = some ⟨s.fresh, [], s.skipRegister⟩ := rfl

@[simp] theorem newLabel_apply (s : Supply) :
    newLabel s = some ⟨s.label 1, [], s.skipLabels 1⟩ := rfl

@[simp] theorem machineTy_apply (ty : Option Ty) (s : Supply) :
    machineTy ty s = ty.map fun t => ⟨.ofTy t, [], s⟩ := by
  cases ty <;> rfl

@[simp] theorem given_apply (a? : Option α) (s : Supply) :
    given a? s = a?.map fun a => ⟨a, [], s⟩ := rfl

@[simp] theorem locate_apply (x : String) (s : Supply) :
    locate x s = some ⟨s.location x, [], s⟩ := rfl

/-- Storage is made in the frame inside of a function and in the program outside; either way it is
one instruction, and the name is declared from then on. -/
@[simp] theorem allocate_apply (ty : MachineTy) (x : String) (s : Supply) :
    allocate ty x s = some ⟨(), [s.storage ty x], s.declare x⟩ := by
  obtain ⟨r, k, frame⟩ := s
  cases frame <;> rfl

@[simp] theorem move_apply (v : Immediate) (s : Supply) :
    move v s = some ⟨s.fresh, [.move v s.fresh], s.skipRegister⟩ := rfl

/-- A step whose instructions are taken as a value leaves none of its own. The frame is put back,
while registers and labels stay in use. -/
@[simp] theorem capture_apply (frame : Option (List String)) (m : Lowering α) (s : Supply) :
    capture frame m s = (m { s with frame := frame }).map fun a =>
      ⟨a.code, [], { a.next with frame := s.frame }⟩ := by
  unfold capture
  cases m { s with frame := frame } <;> rfl

end Lowering

open Lowering

/-! ## Expressions -/

/-- The instruction of a binary operation, read off the group that the operator is in. -/
def binaryInstr (op : BinaryOp) (ty : MachineTy) (left right target : Register) : Instr :=
  match op with
  | .compare op => .compare op ty left right target
  | .arith op => .arith op ty left right target
  | .logic op => .bitwise (.ofLogic op) left right target

/-- **The search for the group of an operator always succeeds**, so the case in which an operator is
in no group never arises. -/
@[simp] theorem binaryInstr?_eq (op : BinaryOp) (ty : MachineTy) (left right target : Register) :
    binaryInstr? op ty left right target = some (binaryInstr op ty left right target) := by
  -- One case per group; in each, the other two tables have no entry for the operator.
  rcases op.group_cases with ⟨o, hcompare, harith, hlogic⟩ | ⟨o, hcompare, harith, hlogic⟩ |
    ⟨o, hcompare, harith, hlogic⟩
  all_goals
    rw [binaryInstr?, hcompare, harith, hlogic]
    cases op <;> cases hcompare <;> cases harith <;> (cases hlogic; rfl)

section Expressions

variable {s : Supply} {l : Lowered Register} {n : Typing}

/-- A literal is moved into a new register. -/
theorem lowerExpr_literal {v : Literal} :
    lowerExpr (.literal n v) s = some l ↔
      l = ⟨s.fresh, [.move (.ofLiteral v) s.fresh], s.skipRegister⟩ := by
  rw [lowerExpr]
  simp [@eq_comm _ l]

/-- A read loads from the location of the name into a new register, at the type of the node. -/
theorem lowerExpr_read {x : String} :
    lowerExpr (.read n x) s = some l ↔ ∃ t, n.ty = some t ∧
      l = ⟨s.fresh, [.load (.ofTy t) (s.location x) s.fresh], s.skipRegister⟩ := by
  rw [lowerExpr]
  simp [Option.map_bind, Option.bind_map, Option.bind_eq_some_iff, Function.comp_def, after,
    @eq_comm _ l]

/-- A binary operation: the code of the left operand, that of the right one, and one instruction on
the two results, at the machine type of the left operand. There is no short cut for the
connectives. -/
theorem lowerExpr_binary {op : BinaryOp} {left right : Expr Typing} :
    lowerExpr (.binary n op left right) s = some l ↔ ∃ a b t, lowerExpr left s = some a ∧
      lowerExpr right a.next = some b ∧ left.ty = some t ∧
      l = ⟨b.next.fresh,
        a.code ++ (b.code ++ [binaryInstr op (.ofTy t) a.value b.value b.next.fresh]),
        b.next.skipRegister⟩ := by
  rw [lowerExpr]
  simp [Option.map_bind, Option.bind_map, Option.bind_eq_some_iff, Function.comp_def, after,
    @eq_comm _ l]

/-- A unary operation: the code of the operand, then what the operator makes of its result. -/
theorem lowerExpr_unary {op : UnaryOp} {operand : Expr Typing} :
    lowerExpr (.unary n op operand) s = some l ↔ ∃ a t b, lowerExpr operand s = some a ∧
      n.ty = some t ∧ lowerUnary op (.ofTy t) a.value a.next = some b ∧
      l = ⟨b.value, a.code ++ b.code, b.next⟩ := by
  rw [lowerExpr]
  simp [Option.map_bind, Option.bind_map, Option.bind_eq_some_iff, Function.comp_def, after,
    @eq_comm _ l]

/-- A plus makes no code, and the result is the operand itself. -/
theorem lowerUnary_plus {ty : MachineTy} {r : Register} :
    lowerUnary .plus ty r s = some l ↔ l = ⟨r, [], s⟩ := by
  simp [@eq_comm _ l, lowerUnary]

/-- A minus subtracts from a zero of the type. It takes two registers. -/
theorem lowerUnary_minus {ty : MachineTy} {r : Register} :
    lowerUnary .minus ty r s = some l ↔
      l = ⟨s.skipRegister.fresh,
        [.move (.zero ty) s.fresh, .arith .sub ty s.fresh r s.skipRegister.fresh],
        s.skipRegister.skipRegister⟩ := by
  simp [after, @eq_comm _ l, lowerUnary]

/-- A negation is an exclusive or with one. It takes two registers. -/
theorem lowerUnary_not {ty : MachineTy} {r : Register} :
    lowerUnary .not ty r s = some l ↔
      l = ⟨s.skipRegister.fresh,
        [.move (.int 1) s.fresh, .bitwise .xor s.fresh r s.skipRegister.fresh],
        s.skipRegister.skipRegister⟩ := by
  simp [after, @eq_comm _ l, lowerUnary]

/-- A call: the code of all arguments from left to right, then the call by the symbol of the
function, with a new register for its result. -/
theorem lowerExpr_call {f : String} {arguments : List (Expr Typing)} :
    lowerExpr (.call n f arguments) s = some l ↔ ∃ a, lowerExprs arguments s = some a ∧
      l = ⟨a.next.fresh, a.code ++ [.call (functionSymbol f) a.value a.next.fresh],
        a.next.skipRegister⟩ := by
  rw [lowerExpr]
  simp [Option.bind_eq_some_iff, after, @eq_comm _ l]

/-- No expressions have no code. -/
theorem lowerExprs_nil {l : Lowered (List Register)} :
    lowerExprs [] s = some l ↔ l = ⟨[], [], s⟩ := by
  rw [lowerExprs]
  simp [@eq_comm _ l]

/-- The code of a first expression, then that of the others. -/
theorem lowerExprs_cons {e : Expr Typing} {es : List (Expr Typing)} {l : Lowered (List Register)} :
    lowerExprs (e :: es) s = some l ↔ ∃ a b, lowerExpr e s = some a ∧
      lowerExprs es a.next = some b ∧ l = ⟨a.value :: b.value, a.code ++ b.code, b.next⟩ := by
  rw [lowerExprs]
  simp [Option.map_bind, Option.bind_eq_some_iff, Function.comp_def, after, @eq_comm _ l]

end Expressions

/-! ## Statements -/

/-- The instructions of a branch around those of its arms. -/
def branchCode (r : Register) (ifTrue ifFalse merge : Label) (a b : List Instr) : List Instr :=
  [.branch r ifTrue ifFalse, .label ifTrue] ++ a ++ [.jump merge, .label ifFalse] ++ b ++
    [.jump merge, .label merge]

/-- The instructions of a loop around those of its condition and its body. -/
def loopCode (test enter merge : Label) (c : List Instr) (r : Register) (b : List Instr) :
    List Instr :=
  [.jump test, .label test] ++ c ++ [.branch r enter merge, .label enter] ++ b ++
    [.jump test, .label merge]

section Statements

variable {s : Supply} {l : Lowered Unit} {n : Typing}

/-- A declaration with a value: the value is computed before the storage is made, so the value
cannot refer to the name it is for. The store behind it finds the new name. -/
theorem lowerDeclaration_eq_some {ty : Option Ty} {x : String} {e : Expr Typing} :
    lowerDeclaration ty x e s = some l ↔ ∃ t a, ty = some t ∧ lowerExpr e s = some a ∧
      l = ⟨(), a.code ++ [a.next.storage (.ofTy t) x,
        .store (.ofTy t) a.value ((a.next.declare x).location x)], a.next.declare x⟩ := by
  rw [lowerDeclaration]
  simp [Option.map_bind, Option.bind_map, Option.bind_eq_some_iff, Function.comp_def, after,
    @eq_comm _ l]

/-- A print statement prints the register of its value. -/
theorem lowerStmt_print {e : Expr Typing} :
    lowerStmt (.print n e) s = some l ↔ ∃ a t, lowerExpr e s = some a ∧ e.ty = some t ∧
      l = ⟨(), a.code ++ [.print (.ofTy t) a.value], a.next⟩ := by
  rw [lowerStmt]
  simp [Option.map_bind, Option.bind_map, Option.bind_eq_some_iff, Function.comp_def, after,
    @eq_comm _ l]

/-- A variable without a value makes storage and nothing else; storage starts out as zero. -/
theorem lowerStmt_var {x : String} :
    lowerStmt (.var n x none) s = some l ↔ ∃ t, n.ty = some t ∧
      l = ⟨(), [s.storage (.ofTy t) x], s.declare x⟩ := by
  rw [lowerStmt]
  simp [Option.bind_map, Option.bind_eq_some_iff, after, @eq_comm _ l]

/-- A variable with a value is a declaration of it. -/
theorem lowerStmt_varWith {x : String} {e : Expr Typing} :
    lowerStmt (.var n x (some e)) s = some l ↔ lowerDeclaration n.ty x e s = some l := by
  rw [lowerStmt]

/-- A constant is a declaration like that of a variable; nothing in the code tells the two apart. -/
theorem lowerStmt_const {x : String} {e : Expr Typing} :
    lowerStmt (.const n x e) s = some l ↔ lowerDeclaration n.ty x e s = some l := by
  rw [lowerStmt]

/-- A write stores to the location that the name has behind the value. -/
theorem lowerStmt_write {x : String} {e : Expr Typing} :
    lowerStmt (.write n x e) s = some l ↔ ∃ a t, lowerExpr e s = some a ∧ e.ty = some t ∧
      l = ⟨(), a.code ++ [.store (.ofTy t) a.value (a.next.location x)], a.next⟩ := by
  rw [lowerStmt]
  simp [Option.map_bind, Option.bind_map, Option.bind_eq_some_iff, Function.comp_def, after,
    @eq_comm _ l]

/-- A branch: the condition, then both arms between three labels, which are taken behind the
condition and before the arms. -/
theorem lowerStmt_branch {e : Expr Typing} {whenTrue whenFalse : List CheckedStmt} :
    lowerStmt (.branch n e whenTrue whenFalse) s = some l ↔ ∃ a b c, lowerExpr e s = some a ∧
      lowerBlock whenTrue (a.next.skipLabels 3) = some b ∧ lowerBlock whenFalse b.next = some c ∧
      l = ⟨(), a.code ++ branchCode a.value (a.next.label 1) (a.next.label 2) (a.next.label 3)
        b.code c.code, c.next⟩ := by
  rw [lowerStmt]
  simp [Option.map_bind, Option.bind_eq_some_iff, Function.comp_def, after, @eq_comm _ l,
    branchCode]

/-- A loop: three labels are taken first, and the condition is evaluated between the first and the
second of them, once for every round. -/
theorem lowerStmt_loop {e : Expr Typing} {body : List CheckedStmt} :
    lowerStmt (.loop n e body) s = some l ↔ ∃ a b, lowerExpr e (s.skipLabels 3) = some a ∧
      lowerBlock body a.next = some b ∧
      l = ⟨(), loopCode (s.label 1) (s.label 2) (s.label 3) a.code a.value b.code, b.next⟩ := by
  rw [lowerStmt]
  simp [Option.map_bind, Option.bind_eq_some_iff, Function.comp_def, after, @eq_comm _ l, loopCode]

/-- A function makes no code where it stands, and uses up nothing. -/
theorem lowerStmt_function {f : String} {ps : List CheckedParam} {r : Option Ty}
    {body : List CheckedStmt} :
    lowerStmt (.function n f ps r body) s = some l ↔ l = ⟨(), [], s⟩ := by
  rw [lowerStmt]
  simp [@eq_comm _ l]

/-- A return statement gives back the register of its value. -/
theorem lowerStmt_ret {e : Expr Typing} :
    lowerStmt (.ret n e) s = some l ↔ ∃ a t, lowerExpr e s = some a ∧ e.ty = some t ∧
      l = ⟨(), a.code ++ [.ret (.ofTy t) a.value], a.next⟩ := by
  rw [lowerStmt]
  simp [Option.map_bind, Option.bind_map, Option.bind_eq_some_iff, Function.comp_def, after,
    @eq_comm _ l]

/-- An empty block has no code. -/
theorem lowerBlock_nil : lowerBlock [] s = some l ↔ l = ⟨(), [], s⟩ := by
  rw [lowerBlock]
  simp [@eq_comm _ l]

/-- The code of a first statement, then that of the others, which find the names it declared. -/
theorem lowerBlock_cons {st : CheckedStmt} {ss : List CheckedStmt} :
    lowerBlock (st :: ss) s = some l ↔ ∃ a b, lowerStmt st s = some a ∧
      lowerBlock ss a.next = some b ∧ l = ⟨(), a.code ++ b.code, b.next⟩ := by
  rw [lowerBlock]
  simp [Option.bind_eq_some_iff, after, @eq_comm _ l]

end Statements

/-! ## Functions and programs -/

/-- A variable with its machine type. -/
def machineVar (v : String × Ty) : String × MachineTy := (v.1, .ofTy v.2)

/-- Parameters are lowered exactly when all of them have types. They make no code. The lowering
gives variables of the machine, with the names of the parameters. -/
theorem lowerParams_eq_some {ps : List CheckedParam} {s : Supply}
    {l : Lowered (List (String × MachineTy))} :
    lowerParams ps s = some l ↔ ∃ vars : List (String × Ty),
      ps = vars.map (fun v => ⟨v.1, some v.2⟩) ∧ l = ⟨vars.map machineVar, [], s⟩ := by
  induction ps generalizing l with
  | nil => simp [lowerParams, @eq_comm _ l]
  | cons p ps ih =>
    rw [lowerParams]
    simp only [bind_apply, machineTy_apply, pure_apply, Option.bind_map, Option.map_bind,
      Option.bind_eq_some_iff, Function.comp_def, Option.map_some, Option.some.injEq, after,
      List.nil_append, ih]
    constructor
    · rintro ⟨t, ht, _, ⟨vars, rfl, rfl⟩, rfl⟩
      exact ⟨(p.name, t) :: vars, by simp [← ht], rfl⟩
    · rintro ⟨vars, hvars, rfl⟩
      -- The list of variables starts with one for the first parameter.
      obtain ⟨v, vars, rfl, rfl, rfl⟩ := List.map_eq_cons_iff.mp hvars.symm
      exact ⟨v.2, rfl, _, ⟨vars, rfl, rfl⟩, rfl⟩

theorem map_fst_machineVar (vars : List (String × Ty)) :
    (vars.map machineVar).map Prod.fst = vars.map Prod.fst := by
  simp [machineVar]

/-- A function is lowered from its body, in a frame with its parameters, under its symbol. Behind it
the frame is what it was in front, while registers and labels go on counting. -/
theorem lowerFunction_eq_some {f : CheckedFunction} {s : Supply} {l : Lowered Function} :
    lowerFunction f s = some l ↔ ∃ (vars : List (String × Ty)) (t : Ty) (a : Lowered Unit),
      f.params = vars.map (fun v => ⟨v.1, some v.2⟩) ∧ f.returns = some t ∧
      lowerBlock f.body { s with frame := some (vars.map Prod.fst) } = some a ∧
      l = ⟨⟨functionSymbol f.name, vars.map machineVar, .ofTy t, a.code⟩, [],
        { a.next with frame := s.frame }⟩ := by
  rw [lowerFunction]
  simp only [bind_apply, capture_apply, machineTy_apply, pure_apply, Option.bind_map,
    Option.map_bind, Option.bind_eq_some_iff, Function.comp_def, lowerParams_eq_some]
  constructor
  · rintro ⟨_, ⟨vars, hp, rfl⟩, a, ha, t, ht, h⟩
    rw [map_fst_machineVar] at ha
    exact ⟨vars, t, a, hp, ht, ha, by simpa [eq_comm] using h⟩
  · rintro ⟨vars, t, a, hp, ht, ha, rfl⟩
    exact ⟨_, ⟨vars, hp, rfl⟩, a, by rw [map_fst_machineVar]; exact ha, t, ht, by simp⟩

/-- The same where the types of the function are known. All that can fail then is the body, which is
lowered with the parameters as its frame (`lower_function`). -/
theorem lowerFunction_typed_eq_some {f : CheckedFunction} {vars : List (String × Ty)} {t : Ty}
    (hparams : f.params = vars.map fun v => ⟨v.1, some v.2⟩) (hreturns : f.returns = some t)
    {s : Supply} {l : Lowered Function} :
    lowerFunction f s = some l ↔
      ∃ a, lowerBlock f.body { s with frame := some (vars.map Prod.fst) } = some a ∧
        l = ⟨⟨functionSymbol f.name, vars.map machineVar, .ofTy t, a.code⟩, [],
          { a.next with frame := s.frame }⟩ := by
  rw [lowerFunction_eq_some]
  constructor
  · rintro ⟨vars', t', a, hvars, ht, ha, rfl⟩
    obtain rfl := Option.some.inj (hreturns.symm.trans ht)
    -- A variable can be read off its parameter, so the two lists of variables are the same.
    have hinj : ∀ v w : String × Ty, (⟨v.1, some v.2⟩ : CheckedParam) = ⟨w.1, some w.2⟩ →
        v = w := by
      rintro ⟨x, t⟩ ⟨y, u⟩ hxy
      simpa using hxy
    obtain rfl := (List.map_inj_right hinj).mp (hparams.symm.trans hvars)
    exact ⟨a, ha, rfl⟩
  · rintro ⟨a, ha, rfl⟩
    exact ⟨vars, t, a, hparams, hreturns, ha, rfl⟩

/-- The instructions behind the statements of a program. -/
def initTail (r : Register) : List Instr := [.move (.int 0) r, .ret .int r]

/-- The statements outside of functions become a function without parameters, which returns zero
behind them. -/
theorem lowerInit_eq_some {ss : List CheckedStmt} {s : Supply} {l : Lowered Function} :
    lowerInit ss s = some l ↔ ∃ a, lowerBlock ss { s with frame := none } = some a ∧
      l = ⟨⟨initName, [], .int, a.code ++ initTail a.next.fresh⟩, [],
        { a.next.skipRegister with frame := s.frame }⟩ := by
  rw [lowerInit]
  simp [lowerInitBody, initTail, Option.map_bind, Option.bind_assoc,
    Option.bind_eq_some_iff, Function.comp_def, after, @eq_comm _ l]

/-- No functions have no code. -/
theorem lowerFunctions_nil {s : Supply} {l : Lowered (List Function)} :
    lowerFunctions [] s = some l ↔ l = ⟨[], [], s⟩ := by
  simp [lowerFunctions, @eq_comm _ l]

/-- A first function, then the others. They share one supply, so no register is used in two
functions. -/
theorem lowerFunctions_cons {f : CheckedFunction} {fs : List CheckedFunction} {s : Supply}
    {l : Lowered (List Function)} :
    lowerFunctions (f :: fs) s = some l ↔ ∃ a b, lowerFunction f s = some a ∧
      lowerFunctions fs a.next = some b ∧
      l = ⟨a.value :: b.value, a.code ++ b.code, b.next⟩ := by
  rw [lowerFunctions]
  simp [Option.map_bind, Option.bind_eq_some_iff, Function.comp_def, after, @eq_comm _ l]

/-- A program is the function of the statements outside of functions, followed by the functions of
the source in their order. -/
theorem lowerProgram_eq_some {p : CheckedProgram} {s : Supply} {l : Lowered Assembly} :
    lowerProgram p s = some l ↔ ∃ a b, lowerInit p.globalStatements s = some a ∧
      lowerFunctions p.functions a.next = some b ∧
      l = ⟨⟨a.value :: b.value⟩, a.code ++ b.code, b.next⟩ := by
  rw [lowerProgram]
  simp [Option.map_bind, Option.bind_eq_some_iff, Function.comp_def, after, @eq_comm _ l]

/-- There is code exactly for the programs without diagnostics that can be lowered. -/
theorem generate_eq_ok {a : Analysis} {asm : Assembly} :
    generate a = .ok asm ↔ a.diagnostics = [] ∧
      ∃ l, lowerProgram a.program .initial = some l ∧ asm = l.value := by
  unfold generate Analysis.isOk
  cases lowerProgram a.program .initial <;> cases a.diagnostics <;> simp [eq_comm]

end Pulse.Code

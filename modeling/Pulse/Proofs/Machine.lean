/-
A machine that runs three-address code.

The machine has a stack of activations. Each has its place in the instructions of a function,
registers, which are empty at first, and slots for the storage of a call, the parameters with the
arguments and the rest with zeros. The variables of the program start with zeros. A step runs one
instruction; it fails when an operation is undefined, and also when a register is empty, a value has
another type than the instruction, or a label, a location or a function does not exist. An
activation at the end of its instructions returns zero.
-/
import Mathlib.Logic.Function.Basic
import Pulse.Proofs.LoweredCode
import Pulse.Proofs.SourceMeaning

set_option autoImplicit false

namespace Pulse

open Code

/-! ## Operations -/

namespace Arithmetic

variable (A : Arithmetic)

/-- An arithmetic operation on values of a machine type. -/
def arithOn (op : ArithOp) : MachineTy → Immediate → Immediate → Option Immediate
  | .int, .int x, .int y => (A.int op x y).map .int
  | .float, .float x, .float y => (A.float op x y).map .float
  | .byte, .byte x, .byte y => (A.byte op x y).map .byte
  | _, _, _ => none

/-- A comparison of values of a machine type; the answer is one or zero. -/
def compareOn (op : CompareOp) : MachineTy → Immediate → Immediate → Option Immediate
  | .int, .int x, .int y => (A.compareInt op x y).map fun b => .int (bit b)
  | .float, .float x, .float y => (A.compareFloat op x y).map fun b => .int (bit b)
  | .byte, .byte x, .byte y => (A.compareByte op x y).map fun b => .int (bit b)
  | _, _, _ => none

end Arithmetic

namespace Code

/-- An operation on the bits of two integers. -/
def BitOp.apply : BitOp → Int32 → Int32 → Int32
  | and, x, y => x &&& y
  | or, x, y => x ||| y
  | xor, x, y => x ^^^ y

/-- An operation on the bits of two values. -/
def BitOp.on (op : BitOp) : Immediate → Immediate → Option Immediate
  | .int x, .int y => some (.int (op.apply x y))
  | _, _ => none

/-! ## States -/

/-- A call of a function that has not ended. -/
structure Activation where
  function : Function
  pc : Nat
  registers : Register → Option Immediate
  slots : String → Option Immediate

/-- The machine: the call that is running with those that wait for it, each with the register for
the result it waits for; or the result at the end. -/
inductive Machine where
  | running (top : Activation) (waiting : List (Activation × Register)) (world : World Immediate)
  | halted (value : Immediate) (world : World Immediate)

namespace Machine

/-- The world of a machine. -/
def world : Machine → World Immediate
  | running _ _ w => w
  | halted _ w => w

/-- What is seen of a machine that does not go on. -/
def final : Machine → Behaviour Immediate
  | running _ _ w => .fails w
  | halted v w => .returns v w

end Machine

namespace Activation

/-- The next instruction. -/
def next (a : Activation) : Activation := { a with pc := a.pc + 1 }

/-- A value in a register. -/
def write (a : Activation) (r : Register) (v : Immediate) : Activation :=
  { a with registers := Function.update a.registers r (some v) }

/-- The place of a label. -/
def goto (a : Activation) (l : Label) : Option Activation :=
  (a.function.code.findIdx? fun i => i = .label l).map fun k => { a with pc := k }

/-- The value at a location. -/
def fetch (a : Activation) (w : World Immediate) : Location → Option Immediate
  | .frame x => a.slots x
  | .global x => w.globals x

end Activation

/-- The activation of a new call. -/
def Function.enter (g : Function) (arguments : List Immediate) : Activation :=
  ⟨g, 0, fun _ => none, fun x => ((g.params.map Prod.fst).zip arguments ++
    (slotsOf g.code).map fun v => (v.1, Immediate.zero v.2)).lookup x⟩

/-- Gives a result to the call that waits for it. -/
def deliver (v : Immediate) (waiting : List (Activation × Register)) (w : World Immediate) :
    Machine :=
  match waiting with
  | [] => .halted v w
  | (a, r) :: waiting => .running (a.write r v) waiting w

/-- Puts a value at a location that exists. -/
def putAt (a : Activation) (waiting : List (Activation × Register)) (w : World Immediate)
    (v : Immediate) : Location → Option Machine
  | .frame x =>
    if (a.slots x).isSome then
      some (.running { a with slots := fun y => if y = x then some v else a.slots y } waiting w)
    else none
  | .global x =>
    if (w.globals x).isSome then
      some (.running a waiting { w with globals := fun y => if y = x then some v else w.globals y })
    else none

/-! ## Steps -/

section Steps

variable (A : Arithmetic) (asm : Assembly)

/-- Runs an instruction of an activation. -/
def execute (a : Activation) (waiting : List (Activation × Register)) (w : World Immediate) :
    Instr → Option Machine
  | .move v t => some (.running (a.write t v).next waiting w)
  | .arith op ty l r t => do
    let v ← A.arithOn op ty (← a.registers l) (← a.registers r)
    return .running (a.write t v).next waiting w
  | .bitwise op l r t => do
    let v ← op.on (← a.registers l) (← a.registers r)
    return .running (a.write t v).next waiting w
  | .compare op ty l r t => do
    let v ← A.compareOn op ty (← a.registers l) (← a.registers r)
    return .running (a.write t v).next waiting w
  | .global _ _ => some (.running a.next waiting w)
  | .alloc _ _ => some (.running a.next waiting w)
  | .load ty source t => do
    let v ← a.fetch w source
    if v.ty = ty then some (.running (a.write t v).next waiting w) else none
  | .store ty r target => do
    let v ← a.registers r
    if v.ty = ty then putAt a.next waiting w v target else none
  | .print ty r => do
    let v ← a.registers r
    if v.ty = ty then some (.running a.next waiting { w with output := w.output ++ [v] }) else none
  | .label _ => some (.running a.next waiting w)
  | .jump l => do
    let b ← a.goto l
    return .running b waiting w
  | .branch c ifTrue ifFalse => do
    match ← a.registers c with
    | .int v =>
      let b ← a.goto (if v = 0 then ifFalse else ifTrue)
      return .running b waiting w
    | _ => none
  | .call f arguments t => do
    let g ← asm.function? f
    let vs ← arguments.mapM a.registers
    if vs.map Immediate.ty = g.params.map Prod.snd then
      some (.running (g.enter vs) ((a.next, t) :: waiting) w)
    else none
  | .ret ty r => do
    let v ← a.registers r
    if v.ty = ty ∧ ty = a.function.returns then some (deliver v waiting w) else none

/-- One step of the machine. -/
def step : Machine → Option Machine
  | .halted _ _ => none
  | .running a waiting w =>
    match a.function.code[a.pc]? with
    | some i => execute A asm a waiting w i
    | none => some (deliver (.zero a.function.returns) waiting w)

/-- A number of steps. -/
def steps : Nat → Machine → Option Machine
  | 0, m => some m
  | n + 1, m => (step A asm m).bind (steps n)

/-- A machine behaves in a way: it comes to a state without a next step, or every number of steps
is possible. -/
def Machine.Behaves (m : Machine) : Behaviour Immediate → Prop
  | .diverges printed => (∀ n, ∃ m', steps A asm n m = some m') ∧
      ∀ out, printed out ↔ ∃ n m', steps A asm n m = some m' ∧ out <+: m'.world.output
  | b => ∃ n m', steps A asm n m = some m' ∧ step A asm m' = none ∧ m'.final = b

end Steps

/-- The world at the start: zeros, and nothing printed. -/
def Assembly.world (asm : Assembly) : World Immediate :=
  ⟨fun x => (asm.globals.map fun v => (v.1, Immediate.zero v.2)).lookup x, []⟩

/-- The machine before the first instruction of a function without parameters. -/
def Assembly.start (asm : Assembly) (g : Function) : Machine := .running (g.enter []) [] asm.world

/-- A function that calls the first function of a program and then another one, with arguments that
are in its first registers, and returns what the second one returns. -/
def launcher (f : String) (arity : Nat) (returns : MachineTy) : Function :=
  ⟨"", [], returns, [.call initName [] ⟨arity⟩,
    .call f ((List.range arity).map Register.mk) ⟨arity⟩, .ret returns ⟨arity⟩]⟩

/-- The machine before such calls. -/
def Assembly.launch (asm : Assembly) (f : String) (arguments : List Immediate)
    (returns : MachineTy) : Machine :=
  .running ⟨launcher f arguments.length returns, 0, fun r => arguments[r.index]?, fun _ => none⟩ []
    asm.world

/-! ## Runs of the machine -/

section Runs

variable {A : Arithmetic} {asm : Assembly}

/-- No steps change nothing. -/
theorem steps_zero (m : Machine) : steps A asm 0 m = some m := rfl

/-- A run is its first step and the rest. -/
theorem steps_succ (n : Nat) (m : Machine) :
    steps A asm (n + 1) m = (step A asm m).bind (steps A asm n) := rfl

/-- A run can be split anywhere. -/
theorem steps_add (n k : Nat) (m : Machine) :
    steps A asm (n + k) m = (steps A asm n m).bind (steps A asm k) := by
  induction n generalizing m with
  | zero => rw [Nat.zero_add, steps_zero, Option.bind_some]
  | succ n ih =>
    rw [Nat.succ_add, steps_succ, steps_succ, Option.bind_assoc]
    congr
    funext m'
    exact ih m'

/-- Two runs make one. -/
theorem steps_trans {n k : Nat} {m m' m'' : Machine} (h : steps A asm n m = some m')
    (h' : steps A asm k m' = some m'') : steps A asm (n + k) m = some m'' := by
  rw [steps_add, h]
  exact h'

/-- A step is a run. -/
theorem steps_one {m m' : Machine} (h : step A asm m = some m') : steps A asm 1 m = some m' := by
  rw [steps_succ, h]
  rfl

/-- A run that is at least as long passes through the state. The machine is deterministic, so the
longer run starts with the shorter one. -/
theorem steps_sub {n k : Nat} {m m' m'' : Machine} (hle : n ≤ k) (h : steps A asm n m = some m')
    (h' : steps A asm k m = some m'') : steps A asm (k - n) m' = some m'' := by
  have hsplit : k = n + (k - n) := by omega
  rw [hsplit, steps_add, h] at h'
  exact h'

/-- No run is longer than one that came to its end. -/
theorem le_of_final {n k : Nat} {m m' m'' : Machine} (h : steps A asm n m = some m')
    (hend : step A asm m' = none) (h' : steps A asm k m = some m'') : k ≤ n := by
  by_contra hlt
  -- A longer run would have to go on from the last state.
  have hrest := steps_sub (by omega) h h'
  obtain ⟨j, hj⟩ : ∃ j, k - n = j + 1 := ⟨k - n - 1, by omega⟩
  rw [hj, steps_succ, hend] at hrest
  cases hrest

/-- All runs that come to an end come to the same one. -/
theorem final_unique {n k : Nat} {m m' m'' : Machine} (h : steps A asm n m = some m')
    (hend : step A asm m' = none) (h' : steps A asm k m = some m'')
    (hend' : step A asm m'' = none) : m' = m'' := by
  -- Neither run can be longer than the other.
  have hnk := le_of_final h hend h'
  have hkn := le_of_final h' hend' h
  obtain rfl : n = k := by omega
  exact Option.some.inj (h.symm.trans h')

/-- Every shorter run is possible too. -/
theorem exists_steps_of_le {n k : Nat} {m m' : Machine} (hle : n ≤ k)
    (h : steps A asm k m = some m') : ∃ m'', steps A asm n m = some m'' ∧
      steps A asm (k - n) m'' = some m' := by
  have hsplit : k = n + (k - n) := by omega
  rw [hsplit, steps_add, Option.bind_eq_some_iff] at h
  exact h

/-! ## What is printed -/

/-- Giving a result back prints nothing. -/
theorem output_deliver (v : Immediate) (waiting : List (Activation × Register))
    (w : World Immediate) : (deliver v waiting w).world.output = w.output := by
  unfold deliver
  split <;> rfl

/-- A store prints nothing. -/
theorem output_putAt {a : Activation} {waiting : List (Activation × Register)}
    {w : World Immediate} {v : Immediate} {loc : Location} {m : Machine}
    (h : putAt a waiting w v loc = some m) : m.world.output = w.output := by
  unfold putAt at h
  split at h <;> split at h <;> cases h <;> rfl

/-- An instruction leaves what is printed alone, or adds one value at the end. By cases on the
instruction. Calls and returns change the activations, and only stores and `print` change the
world. -/
theorem output_execute {a : Activation} {waiting : List (Activation × Register)}
    {w : World Immediate} {i : Instr} {m : Machine}
    (h : execute A asm a waiting w i = some m) :
    m.world.output = w.output ∨ ∃ v, m.world.output = w.output ++ [v] := by
  cases i with
  | move | global | alloc | label =>
    obtain rfl := Option.some.inj h
    exact .inl rfl
  | arith | bitwise | compare =>
    obtain ⟨l, -, h⟩ := Option.bind_eq_some_iff.1 h
    obtain ⟨r, -, h⟩ := Option.bind_eq_some_iff.1 h
    obtain ⟨v, -, h⟩ := Option.bind_eq_some_iff.1 h
    obtain rfl := Option.some.inj h
    exact .inl rfl
  | load =>
    obtain ⟨v, -, h⟩ := Option.bind_eq_some_iff.1 h
    obtain ⟨-, ⟨⟩⟩ := Option.ite_none_right_eq_some.1 h
    exact .inl rfl
  | store =>
    obtain ⟨v, -, h⟩ := Option.bind_eq_some_iff.1 h
    obtain ⟨-, h⟩ := Option.ite_none_right_eq_some.1 h
    exact .inl (output_putAt h)
  | print =>
    -- The only instruction that does.
    obtain ⟨v, -, h⟩ := Option.bind_eq_some_iff.1 h
    obtain ⟨-, ⟨⟩⟩ := Option.ite_none_right_eq_some.1 h
    exact .inr ⟨v, rfl⟩
  | jump =>
    obtain ⟨b, -, h⟩ := Option.bind_eq_some_iff.1 h
    obtain rfl := Option.some.inj h
    exact .inl rfl
  | branch =>
    obtain ⟨c, -, h⟩ := Option.bind_eq_some_iff.1 h
    split at h
    · obtain ⟨b, -, h⟩ := Option.bind_eq_some_iff.1 h
      obtain rfl := Option.some.inj h
      exact .inl rfl
    · cases h
  | call =>
    obtain ⟨g, -, h⟩ := Option.bind_eq_some_iff.1 h
    obtain ⟨vs, -, h⟩ := Option.bind_eq_some_iff.1 h
    obtain ⟨-, ⟨⟩⟩ := Option.ite_none_right_eq_some.1 h
    exact .inl rfl
  | ret =>
    obtain ⟨v, -, h⟩ := Option.bind_eq_some_iff.1 h
    obtain ⟨-, ⟨⟩⟩ := Option.ite_none_right_eq_some.1 h
    exact .inl (output_deliver v waiting w)

/-- A step only adds to what is printed. So what a machine has printed is a beginning of what it
will have printed. -/
theorem output_step {m m' : Machine} (h : step A asm m = some m') :
    m.world.output <+: m'.world.output := by
  cases m with
  | halted v w => cases h
  | running a waiting w =>
    simp only [step] at h
    split at h
    · obtain hout | ⟨v, hout⟩ := output_execute h
      · exact hout ▸ List.prefix_refl _
      · exact hout ▸ List.prefix_append _ _
    -- At the end of its instructions an activation returns zero, which prints nothing either.
    · obtain rfl := Option.some.inj h
      rw [output_deliver]
      exact List.prefix_refl _

/-- What was printed stays printed. -/
theorem output_steps {n : Nat} {m m' : Machine} (h : steps A asm n m = some m') :
    m.world.output <+: m'.world.output := by
  induction n generalizing m with
  | zero =>
    obtain rfl := Option.some.inj h
    exact List.prefix_refl _
  | succ n ih =>
    rw [steps_succ, Option.bind_eq_some_iff] at h
    obtain ⟨m'', hstep, hrest⟩ := h
    exact (output_step hstep).trans (ih hrest)

/-! ## A machine behaves in one way -/

/-- A machine that never stops has a next step in every state that it comes to. -/
theorem not_final_of_diverges {m : Machine} (h : ∀ n, ∃ m', steps A asm n m = some m') {n : Nat}
    {m' : Machine} (hn : steps A asm n m = some m') : step A asm m' ≠ none := by
  intro hend
  obtain ⟨m'', hm''⟩ := h (n + 1)
  have hle := le_of_final hn hend hm''
  omega

/-- A behaviour that is not endless is the last state of a run. -/
theorem Machine.Behaves.ended {m : Machine} {b : Behaviour Immediate} (h : m.Behaves A asm b)
    (hends : ∀ printed, b ≠ .diverges printed) :
    ∃ n m', steps A asm n m = some m' ∧ step A asm m' = none ∧ m'.final = b := by
  cases b with
  | returns | fails => exact h
  | diverges printed => exact absurd rfl (hends printed)

/-- The behaviour of a machine is that of the last state of a run, if a run has one. -/
theorem Machine.Behaves.eq_final {n : Nat} {m m' : Machine} {b : Behaviour Immediate}
    (h : m.Behaves A asm b) (hn : steps A asm n m = some m') (hend : step A asm m' = none) :
    b = m'.final := by
  -- An endless run would have a step behind the last state.
  have hends : ∀ printed, b ≠ .diverges printed := by
    rintro printed rfl
    exact not_final_of_diverges h.1 hn hend
  obtain ⟨k, m'', hk, hend', rfl⟩ := h.ended hends
  rw [final_unique hn hend hk hend']

/-- **A machine behaves in one way.** So a behaviour that is shown to be possible is the one that is
seen. -/
theorem Machine.behaves_unique {m : Machine} {b b' : Behaviour Immediate}
    (h : m.Behaves A asm b) (h' : m.Behaves A asm b') : b = b' := by
  by_cases hends : ∀ printed, b ≠ .diverges printed
  · obtain ⟨n, m', hn, hend, rfl⟩ := h.ended hends
    exact (h'.eq_final hn hend).symm
  · by_cases hends' : ∀ printed, b' ≠ .diverges printed
    · obtain ⟨n, m', hn, hend, rfl⟩ := h'.ended hends'
      exact h.eq_final hn hend
    · -- Both are endless, and then they agree on what is printed.
      simp only [ne_eq, not_forall, not_not] at hends hends'
      obtain ⟨printed, rfl⟩ := hends
      obtain ⟨printed', rfl⟩ := hends'
      congr
      funext out
      exact propext ((h.2 out).trans (h'.2 out).symm)

end Runs

end Code

end Pulse

/-
How a machine follows a run.

A memory has a machine that goes with it: the same values, as the machine represents them, at a
place in the instructions of a function. Following a run with a bound means three things. When the
run has a result, the machine comes to a state of the wanted kind. When the run is undefined, the
machine comes to a state without a next step, in the same world. When the run meets its bound, the
machine comes to the same world after at least that many steps, so a program that runs forever is
followed forever.

The second half is about single instructions: what a step does to the machine of a memory.
-/
import Pulse.Proofs.Machine

set_option autoImplicit false

namespace Pulse.Code

open Run

/-! ## Following a run -/

/-- The machine of a memory, at a place in a function. -/
def place (g : Function) (waiting : List (Activation × Register))
    (ρ : Register → Option Immediate) (pc : Nat) (μ : Memory) : Machine :=
  .running ⟨g, pc, ρ, fun x => (μ.locals x).map .ofLiteral⟩ waiting (μ.world.map .ofLiteral)

section Simulates

variable (A : Arithmetic) (asm : Assembly)

/-- The machine follows a run with a bound to its ending. -/
def Simulates {α : Type} (n : Nat) (m : Machine) (Q : α → Memory → Machine → Prop) :
    Ending α → Prop
  | .done a μ => ∃ k m', steps A asm k m = some m' ∧ Q a μ m'
  | .undefined μ => ∃ k m', steps A asm k m = some m' ∧ step A asm m' = none ∧
      m'.final = .fails (μ.world.map .ofLiteral)
  | .timeout μ => ∃ k m', n ≤ k ∧ steps A asm k m = some m' ∧
      m'.world = μ.world.map .ofLiteral

end Simulates

section

variable {A : Arithmetic} {asm : Assembly} {α β : Type} {n : Nat} {m m' : Machine}
  {Q : α → Memory → Machine → Prop} {o : Ending α}

/-- A run with a result at once is followed by no steps. -/
theorem Simulates.result {a : α} {μ : Memory} (h : Q a μ m) :
    Simulates A asm n m Q (.done a μ) :=
  ⟨0, m, steps_zero m, h⟩

/-- The machine gets stuck where the run is undefined, in the same world. -/
theorem Simulates.stuck {g : Function} {waiting : List (Activation × Register)}
    {ρ : Register → Option Immediate} {pc : Nat} {μ : Memory}
    (h : step A asm (place g waiting ρ pc μ) = none) :
    Simulates A asm n (place g waiting ρ pc μ) Q (.undefined μ) :=
  ⟨0, _, steps_zero _, h, rfl⟩

/-- A run that meets the bound at once. -/
theorem Simulates.bound {μ : Memory} (h : m.world = μ.world.map .ofLiteral) :
    Simulates A asm 0 m Q (.timeout μ) :=
  ⟨0, m, Nat.le_refl 0, steps_zero m, h⟩

/-- A step of the machine counts. So where the run meets its bound, the machine has made one step
more than was asked of it before. -/
theorem Simulates.step (hstep : step A asm m = some m') (h : Simulates A asm n m' Q o) :
    Simulates A asm (n + 1) m Q o := by
  cases o with
  | done a μ =>
    obtain ⟨k, m'', hk, hQ⟩ := h
    exact ⟨1 + k, m'', steps_trans (steps_one hstep) hk, hQ⟩
  | undefined μ =>
    obtain ⟨k, m'', hk, hend, hfinal⟩ := h
    exact ⟨1 + k, m'', steps_trans (steps_one hstep) hk, hend, hfinal⟩
  | timeout μ =>
    obtain ⟨k, m'', hle, hk, hworld⟩ := h
    exact ⟨1 + k, m'', by omega, steps_trans (steps_one hstep) hk, hworld⟩

/-- What is followed with a bound is followed with any smaller one. -/
theorem Simulates.mono {n' : Nat} (h : Simulates A asm n m Q o) (hle : n' ≤ n) :
    Simulates A asm n' m Q o := by
  cases o with
  | done a μ => exact h
  | undefined μ => exact h
  -- Only a run that meets its bound says how many steps are made.
  | timeout μ =>
    obtain ⟨k, m'', hk, hrest⟩ := h
    exact ⟨k, m'', Nat.le_trans hle hk, hrest⟩

/-- A step of the machine that need not count. -/
theorem Simulates.skip (hstep : Code.step A asm m = some m') (h : Simulates A asm n m' Q o) :
    Simulates A asm n m Q o :=
  (h.step hstep).mono (Nat.le_succ n)

/-- After a result the machine goes on. Where there is no result, there is nothing to go on from. -/
theorem Simulates.andThen {Q' : α → Memory → Machine → Prop} (h : Simulates A asm n m Q o)
    (hQ : ∀ a μ m', Q a μ m' → Simulates A asm n m' Q' (.done a μ)) :
    Simulates A asm n m Q' o := by
  cases o with
  | done a μ =>
    obtain ⟨k, m', hk, hq⟩ := h
    obtain ⟨j, m'', hj, hq'⟩ := hQ a μ m' hq
    exact ⟨k + j, m'', steps_trans hk hj, hq'⟩
  | undefined μ => exact h
  | timeout μ => exact h

/-- States of the wanted kind may be described in another way. -/
theorem Simulates.imp {Q' : α → Memory → Machine → Prop} (h : Simulates A asm n m Q o)
    (hQ : ∀ a μ m', Q a μ m' → Q' a μ m') : Simulates A asm n m Q' o :=
  h.andThen fun a μ m' hq => .result (hQ a μ m' hq)

/-- One run after the other is followed by following both. Where the first run does not give a
value, the second one does not start, and the machine has to follow the first one only. -/
theorem Simulates.bind {R : β → Memory → Machine → Prop} {r : Run α} {f : α → Run β} {μ : Memory}
    (h : Simulates A asm n m Q (r μ))
    (hf : ∀ a ν m', Q a ν m' → Simulates A asm n m' R (f a ν)) :
    Simulates A asm n m R ((r >>= f) μ) := by
  have hbind : (r >>= f) μ = Run.bind r f μ := rfl
  rw [hbind, Run.bind]
  cases hr : r μ with
  | done a ν =>
    rw [hr] at h
    obtain ⟨k, m', hk, hq⟩ := h
    -- The steps of both are put together, whatever the second one ends with.
    have hrest := hf a ν m' hq
    show Simulates A asm n m R (f a ν)
    cases ho : f a ν with
    | done b ξ =>
      rw [ho] at hrest
      obtain ⟨j, m'', hj, hR⟩ := hrest
      exact ⟨k + j, m'', steps_trans hk hj, hR⟩
    | undefined ξ =>
      rw [ho] at hrest
      obtain ⟨j, m'', hj, hend, hfinal⟩ := hrest
      exact ⟨k + j, m'', steps_trans hk hj, hend, hfinal⟩
    | timeout ξ =>
      -- The second run alone took as many steps as the bound.
      rw [ho] at hrest
      obtain ⟨j, m'', hle, hj, hworld⟩ := hrest
      exact ⟨k + j, m'', by omega, steps_trans hk hj, hworld⟩
  | undefined ν =>
    rw [hr] at h
    exact h
  | timeout ν =>
    rw [hr] at h
    exact h

/-- A run with variables of its own ends with those of the memory it started in. This is what a call
does to the variables of its caller. -/
theorem Simulates.inside {Q' : α → Memory → Machine → Prop} {r : Run α} {μ : Memory}
    {locals : String → Option Literal} (h : Simulates A asm n m Q (r { μ with locals := locals }))
    (hQ : ∀ a ν m', Q a ν m' → Q' a { ν with locals := μ.locals } m') :
    Simulates A asm n m Q' (Run.inside locals r μ) := by
  rw [Run.inside]
  cases hr : r { μ with locals := locals } with
  | done a ν =>
    rw [hr] at h
    obtain ⟨k, m', hk, hq⟩ := h
    exact ⟨k, m', hk, hQ a ν m' hq⟩
  | undefined ν =>
    rw [hr] at h
    exact h
  | timeout ν =>
    rw [hr] at h
    exact h

/-- An operation that the machine does in one step, undefined where the step is. -/
theorem Simulates.defined {g : Function} {waiting : List (Activation × Register)}
    {ρ : Register → Option Immediate} {pc : Nat} {μ : Memory} {x : Option α} {f : α → Machine}
    (hstep : Code.step A asm (place g waiting ρ pc μ) = x.map f)
    (hQ : ∀ a, x = some a → Q a μ (f a)) :
    Simulates A asm n (place g waiting ρ pc μ) Q (Run.defined x μ) := by
  cases x with
  | none => exact .stuck hstep
  | some a => exact .skip hstep (.result (hQ a rfl))

end

/-! ## Places in code -/

/-- A piece of code stands at a place of a function. -/
def Placed (g : Function) (pc : Nat) (code : List Instr) : Prop :=
  ∃ before after, g.code = before ++ code ++ after ∧ before.length = pc

section Placed

variable {g : Function} {pc : Nat} {a b : List Instr} {i : Instr}

/-- The first piece of code stands where both do. -/
theorem Placed.left (h : Placed g pc (a ++ b)) : Placed g pc a := by
  obtain ⟨before, after, hcode, hlen⟩ := h
  exact ⟨before, b ++ after, by rw [hcode]; simp, hlen⟩

/-- The second piece stands behind the first one. -/
theorem Placed.right (h : Placed g pc (a ++ b)) : Placed g (pc + a.length) b := by
  obtain ⟨before, after, hcode, hlen⟩ := h
  exact ⟨before ++ a, after, by rw [hcode]; simp, by rw [List.length_append, hlen]⟩

/-- Behind its first instruction stands the rest of a piece. -/
theorem Placed.tail (h : Placed g pc (i :: a)) : Placed g (pc + 1) a :=
  Placed.right (a := [i]) h

/-- The first instruction of a piece is found at its place. -/
theorem Placed.get (h : Placed g pc (i :: a)) : g.code[pc]? = some i := by
  obtain ⟨before, after, hcode, rfl⟩ := h
  rw [hcode, List.append_assoc, List.getElem?_append_right (Nat.le_refl _), Nat.sub_self]
  rfl

/-- A label in the code is defined there. -/
theorem mem_labelsOf {code : List Instr} {l : Label} (h : .label l ∈ code) : l ∈ labelsOf code :=
  List.mem_filterMap.mpr ⟨_, h, rfl⟩

/-- A label leads to its place, since there is no other of its name. -/
theorem Placed.label {l : Label} (h : Placed g pc (.label l :: a)) (hg : (labelsOf g.code).Nodup) :
    (g.code.findIdx? fun i => i = .label l) = some pc := by
  obtain ⟨before, after, hcode, rfl⟩ := h
  -- In front of this place the label would be there a second time.
  have hnot : ∀ i ∈ before, ¬ (decide (i = .label l) = true) := by
    intro i hi heq
    rw [decide_eq_true_eq] at heq
    subst heq
    rw [hcode, List.append_assoc, labelsOf_append, List.nodup_append] at hg
    exact hg.2.2 l (mem_labelsOf hi) l (mem_labelsOf (by simp)) rfl
  rw [hcode, List.append_assoc, List.findIdx?_append, List.findIdx?_eq_none_iff.mpr ?_]
  · simp [List.findIdx?_cons]
  · intro i hi
    simpa using hnot i hi

end Placed

/-! ## Updates -/

section Updates

variable {g : Function} {waiting : List (Activation × Register)}
  {ρ : Register → Option Immediate} {pc : Nat} {μ : Memory} {x : String} {v : Literal}

/-- The machine of a memory with a new value of a variable of the call. -/
theorem place_withLocal : place g waiting ρ pc (μ.withLocal x v) =
    .running ⟨g, pc, ρ, fun y => if y = x then some (.ofLiteral v)
      else (μ.locals y).map .ofLiteral⟩ waiting (μ.world.map .ofLiteral) := by
  have hslots : (fun y => ((μ.withLocal x v).locals y).map Immediate.ofLiteral) =
      fun y => if y = x then some (.ofLiteral v) else (μ.locals y).map .ofLiteral := by
    funext y
    by_cases hy : y = x
    · simp [Memory.withLocal, hy]
    · simp [Memory.withLocal, hy]
  rw [place, hslots]
  rfl

/-- The machine of a memory with a new value of a variable of the program. -/
theorem place_withGlobal : place g waiting ρ pc (μ.withGlobal x v) =
    .running ⟨g, pc, ρ, fun y => (μ.locals y).map .ofLiteral⟩ waiting
      ⟨fun y => if y = x then some (.ofLiteral v) else (μ.world.globals y).map .ofLiteral,
        μ.world.output.map .ofLiteral⟩ := by
  have hglobals : (μ.withGlobal x v).world.map Immediate.ofLiteral =
      ⟨fun y => if y = x then some (.ofLiteral v) else (μ.world.globals y).map .ofLiteral,
        μ.world.output.map .ofLiteral⟩ := by
    simp only [World.map, Memory.withGlobal, World.mk.injEq, and_true]
    funext y
    by_cases hy : y = x
    · simp [hy]
    · simp [hy]
  rw [place, hglobals]
  rfl

end Updates

/-! ## Values -/

@[simp] theorem ofLiteral_bool (b : Bool) : Immediate.ofLiteral (.bool b) = .int (bit b) := rfl

/-- Zero is represented by zero. -/
theorem ofLiteral_zero (t : Ty) : Immediate.ofLiteral (.zero t) = .zero (.ofTy t) := by
  cases t <;> rfl

/-- The zero of a type is of this type. -/
theorem zero_ty (t : Ty) : (Literal.zero t).ty = t := by
  cases t <;> rfl

/-- The bit operations do the work of the connectives on zero and one. -/
theorem apply_ofLogic (op : LogicOp) (x y : Bool) :
    (BitOp.ofLogic op).apply (bit x) (bit y) =
      bit (match op with | .and => x && y | .or => x || y) := by
  cases op <;> cases x <;> cases y <;> decide

/-- The bit operation with one negates. -/
theorem apply_xor_one (x : Bool) : BitOp.xor.apply 1 (bit x) = bit !x := by
  cases x <;> decide

/-- What the instruction of a binary operation computes. -/
def binaryOn (A : Arithmetic) (op : BinaryOp) (ty : MachineTy) (x y : Immediate) :
    Option Immediate :=
  match op with
  | .arith op => A.arithOn op ty x y
  | .compare op => A.compareOn op ty x y
  | .logic op => (BitOp.ofLogic op).on x y

/-- A value of type `int` is an integer. -/
theorem exists_int {v : Literal} (h : v.ty = .int) : ∃ x, v = .int x := by
  cases v <;> cases h
  exact ⟨_, rfl⟩

/-- A value of type `float` is a float. -/
theorem exists_float {v : Literal} (h : v.ty = .float) : ∃ x, v = .float x := by
  cases v <;> cases h
  exact ⟨_, rfl⟩

/-- A value of type `char` is a character. -/
theorem exists_char {v : Literal} (h : v.ty = .char) : ∃ x, v = .char x := by
  cases v <;> cases h
  exact ⟨_, rfl⟩

/-- A value of type `bool` is a truth value. -/
theorem exists_bool {v : Literal} (h : v.ty = .bool) : ∃ x, v = .bool x := by
  cases v <;> cases h
  exact ⟨_, rfl⟩

/-- An operation on what is inside of values. -/
theorem map_ofLiteral {α : Type} (o : Option α) {f : α → Literal} {v : Ty}
    (hf : ∀ a, (f a).ty = v) : (o.map fun a => Immediate.ofLiteral (f a)) =
      (o.map f).map .ofLiteral ∧ ∀ z, o.map f = some z → z.ty = v := by
  refine ⟨(Option.map_map Immediate.ofLiteral f o).symm, ?_⟩
  intro z hz
  obtain ⟨a, -, rfl⟩ := Option.map_eq_some_iff.mp hz
  exact hf a

/-- The machine computes what the operation of the source gives, with the type that the rules give
it. -/
theorem binaryOn_ofLiteral (A : Arithmetic) {op : BinaryOp} {t u v : Ty}
    (rule : Rules.BinaryRule op t u v) {x y : Literal} (hx : x.ty = t) (hy : y.ty = u) :
    binaryOn A op (.ofTy t) (.ofLiteral x) (.ofLiteral y) = (A.binary op x y).map .ofLiteral ∧
      ∀ z, A.binary op x y = some z → z.ty = v := by
  -- By the rules: they tell which kinds of values there are, and so which operation is meant.
  cases rule with
  | int op =>
    obtain ⟨x, rfl⟩ := exists_int hx
    obtain ⟨y, rfl⟩ := exists_int hy
    exact map_ofLiteral (A.int op x y) (f := .int) fun _ => rfl
  | float op =>
    obtain ⟨x, rfl⟩ := exists_float hx
    obtain ⟨y, rfl⟩ := exists_float hy
    exact map_ofLiteral (A.float op x y) (f := .float) fun _ => rfl
  | order op t h =>
    -- Numbers and characters are ordered, truth values are not.
    cases t with
    | int =>
      obtain ⟨x, rfl⟩ := exists_int hx
      obtain ⟨y, rfl⟩ := exists_int hy
      exact map_ofLiteral (A.compareInt op x y) (f := .bool) fun _ => rfl
    | float =>
      obtain ⟨x, rfl⟩ := exists_float hx
      obtain ⟨y, rfl⟩ := exists_float hy
      exact map_ofLiteral (A.compareFloat op x y) (f := .bool) fun _ => rfl
    | char =>
      obtain ⟨x, rfl⟩ := exists_char hx
      obtain ⟨y, rfl⟩ := exists_char hy
      exact map_ofLiteral (A.compareByte op x y) (f := .bool) fun _ => rfl
    | bool => exact absurd rfl h
  | equals =>
    -- The machine has no truth values, so it compares them as integers.
    obtain ⟨x, rfl⟩ := exists_bool hx
    obtain ⟨y, rfl⟩ := exists_bool hy
    exact map_ofLiteral (A.compareInt .equals (bit x) (bit y)) (f := .bool) fun _ => rfl
  | notEquals =>
    obtain ⟨x, rfl⟩ := exists_bool hx
    obtain ⟨y, rfl⟩ := exists_bool hy
    exact map_ofLiteral (A.compareInt .notEquals (bit x) (bit y)) (f := .bool) fun _ => rfl
  | logic op =>
    obtain ⟨x, rfl⟩ := exists_bool hx
    obtain ⟨y, rfl⟩ := exists_bool hy
    rw [binaryOn, ofLiteral_bool, ofLiteral_bool, BitOp.on, apply_ofLogic]
    cases op with
    | and => exact map_ofLiteral (some (x && y)) (f := .bool) fun _ => rfl
    | or => exact map_ofLiteral (some (x || y)) (f := .bool) fun _ => rfl

section Instructions

variable {A : Arithmetic} {asm : Assembly} {g : Function} {waiting : List (Activation × Register)}
  {ρ : Register → Option Immediate} {pc : Nat} {μ : Memory}

/-- A step of the machine of a memory runs the instruction at its place. -/
theorem step_place {i : Instr} (h : g.code[pc]? = some i) :
    step A asm (place g waiting ρ pc μ) =
      execute A asm ⟨g, pc, ρ, fun x => (μ.locals x).map .ofLiteral⟩ waiting
        (μ.world.map .ofLiteral) i := by
  simp only [step, place, h]

/-- A constant is put into its register. -/
theorem step_move {v : Immediate} {t : Register} (h : g.code[pc]? = some (.move v t)) :
    step A asm (place g waiting ρ pc μ) =
      some (place g waiting (Function.update ρ t (some v)) (pc + 1) μ) := by
  rw [step_place h]
  rfl

/-- The instruction of a binary operator has a step if and only if the operation is defined. Where
it is not, the machine is stuck where the run of the source is undefined. -/
theorem step_binary {op : BinaryOp} {ty : MachineTy} {x y : Immediate} {l r t : Register}
    (hl : ρ l = some x) (hr : ρ r = some y)
    (h : g.code[pc]? = some (binaryInstr op ty l r t)) :
    step A asm (place g waiting ρ pc μ) = (binaryOn A op ty x y).map fun v =>
      place g waiting (Function.update ρ t (some v)) (pc + 1) μ := by
  rw [step_place h, Option.map_eq_bind]
  cases op with
  | arith op =>
    simp only [binaryInstr, execute, hl, hr, binaryOn, Option.bind_eq_bind, Option.bind_some]
    rfl
  | compare op =>
    simp only [binaryInstr, execute, hl, hr, binaryOn, Option.bind_eq_bind, Option.bind_some]
    rfl
  | logic op =>
    simp only [binaryInstr, execute, hl, hr, binaryOn, Option.bind_eq_bind, Option.bind_some]
    rfl

/-- A bit operation is always defined. -/
theorem step_bitwise {op : BitOp} {x y : Int32} {l r t : Register} (hl : ρ l = some (.int x))
    (hr : ρ r = some (.int y)) (h : g.code[pc]? = some (.bitwise op l r t)) :
    step A asm (place g waiting ρ pc μ) =
      some (place g waiting (Function.update ρ t (some (.int (op.apply x y)))) (pc + 1) μ) := by
  rw [step_place h]
  simp only [execute, hl, hr, BitOp.on, Option.bind_eq_bind, Option.bind_some]
  rfl

/-- A value is printed. -/
theorem step_print {v : Literal} {t : Ty} {r : Register} (hr : ρ r = some (.ofLiteral v))
    (hv : v.ty = t) (h : g.code[pc]? = some (.print (.ofTy t) r)) :
    step A asm (place g waiting ρ pc μ) = some (place g waiting ρ (pc + 1) (μ.withOutput v)) := by
  rw [step_place h]
  simp [execute, hr, hv, place, World.map, Activation.next, Memory.withOutput]

/-- Nothing is done at a label. -/
theorem step_label {l : Label} (h : g.code[pc]? = some (.label l)) :
    step A asm (place g waiting ρ pc μ) = some (place g waiting ρ (pc + 1) μ) := by
  rw [step_place h]
  rfl

/-- Nothing is done where storage is made: it is there from the start. -/
theorem step_storage {s : Supply} {ty : MachineTy} {x : String}
    (h : g.code[pc]? = some (s.storage ty x)) :
    step A asm (place g waiting ρ pc μ) = some (place g waiting ρ (pc + 1) μ) := by
  rw [step_place h]
  unfold Supply.storage
  split <;> rfl

/-- A jump goes to its label. -/
theorem step_jump {l : Label} {k : Nat} (h : g.code[pc]? = some (.jump l))
    (hl : (g.code.findIdx? fun i => i = .label l) = some k) :
    step A asm (place g waiting ρ pc μ) = some (place g waiting ρ k μ) := by
  rw [step_place h]
  simp only [execute, Activation.goto, hl, Option.map_some, Option.bind_eq_bind, Option.bind_some]
  rfl

/-- A branch goes to the first label on one, and to the second one on zero. -/
theorem step_branch {r : Register} {b : Bool} {ifTrue ifFalse : Label} {k : Nat}
    (hr : ρ r = some (.int (bit b))) (h : g.code[pc]? = some (.branch r ifTrue ifFalse))
    (hl : (g.code.findIdx? fun i => i = .label (if b then ifTrue else ifFalse)) = some k) :
    step A asm (place g waiting ρ pc μ) = some (place g waiting ρ k μ) := by
  -- The machine tests for zero, and that is what false is.
  have hcond : (if bit b = 0 then ifFalse else ifTrue) = if b then ifTrue else ifFalse := by
    cases b <;> rfl
  rw [step_place h]
  simp only [execute, hr, Option.bind_eq_bind, Option.bind_some, hcond, Activation.goto, hl,
    Option.map_some]
  rfl

/-- The values of several registers are read when all of them are there. -/
theorem mapM_eq_some {rs : List Register} {vs : List Immediate} (h : rs.map ρ = vs.map some) :
    rs.mapM ρ = some vs := by
  induction rs generalizing vs with
  | nil =>
    rw [List.map_nil, eq_comm, List.map_eq_nil_iff] at h
    subst h
    rfl
  | cons r rs ih =>
    obtain ⟨v, vs, rfl, hr, hrs⟩ := List.map_eq_cons_iff.mp h.symm
    rw [List.mapM_cons, ← hr, ih hrs.symm]
    rfl

/-- The caller waits behind the instruction of the call. -/
theorem step_call {f : String} {rs : List Register} {r : Register} {callee : Function}
    {vs : List Immediate} (h : g.code[pc]? = some (.call f rs r))
    (hf : asm.function? f = some callee) (hrs : rs.map ρ = vs.map some)
    (hvs : vs.map Immediate.ty = callee.params.map Prod.snd) :
    step A asm (place g waiting ρ pc μ) = some (.running (callee.enter vs)
      ((⟨g, pc + 1, ρ, fun x => (μ.locals x).map .ofLiteral⟩, r) :: waiting)
      (μ.world.map .ofLiteral)) := by
  rw [step_place h]
  simp only [execute, hf, mapM_eq_some hrs, hvs, Option.bind_eq_bind, Option.bind_some, if_true]
  rfl

/-- A `return` gives the value to the call that waits. -/
theorem step_ret {v : Literal} {t : Ty} {r : Register} (hr : ρ r = some (.ofLiteral v))
    (hv : v.ty = t) (hg : g.returns = .ofTy t) (h : g.code[pc]? = some (.ret (.ofTy t) r)) :
    step A asm (place g waiting ρ pc μ) =
      some (deliver (.ofLiteral v) waiting (μ.world.map .ofLiteral)) := by
  rw [step_place h]
  simp [execute, hr, hv, hg]

/-- At the end of its instructions a function returns zero. -/
theorem step_end {t : Ty} (hg : g.returns = .ofTy t) (h : g.code.length ≤ pc) :
    step A asm (place g waiting ρ pc μ) =
      some (deliver (.ofLiteral (.zero t)) waiting (μ.world.map .ofLiteral)) := by
  have hnone : g.code[pc]? = none := List.getElem?_eq_none h
  rw [ofLiteral_zero, ← hg]
  simp only [step, place, hnone]

end Instructions

end Pulse.Code

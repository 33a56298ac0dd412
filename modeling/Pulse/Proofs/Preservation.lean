/-
Generated code does what the program does.

The machine is taken through the code of a construct while the run is taken through the construct.
What has to be kept on the way is small: the variables hold values of their types, and registers
from before an expression are still there behind it. Everything a memory says about the machine is
in the machine of that memory already, so the relation between the two sides is an equation.
-/
import Mathlib.Data.List.Nodup
import Pulse.Proofs.Simulation

set_option autoImplicit false

namespace Pulse.Code

open Rules Run CheckedStmt

/-! ## Typed memories -/

/-- The variables of the program hold values of their types. -/
def GlobalsTyped (d : Outline) (μ : Memory) : Prop :=
  ∀ x t, (x, t) ∈ d.globals → ∃ v, μ.world.globals x = some v ∧ v.ty = t

/-- So do those of the call, which are listed. -/
structure MemoryTyped (d : Outline) (vars : List (String × Ty)) (μ : Memory) : Prop where
  globals : GlobalsTyped d μ
  locals : ∀ x t, (x, t) ∈ vars → ∃ v, μ.locals x = some v ∧ v.ty = t

/-- Under distinct names a variable has one type. -/
theorem ty_unique {vars : List (String × Ty)} (h : (vars.map Prod.fst).Nodup) {x : String}
    {t u : Ty} (ht : (x, t) ∈ vars) (hu : (x, u) ∈ vars) : t = u := by
  have heq := List.inj_on_of_nodup_map h ht hu rfl
  exact congrArg Prod.snd heq

section Memory

variable {d : Outline} {vars : List (String × Ty)} {F : Option Frame} {μ : Memory} {x : String}
  {t : Ty} {v : Literal}

/-- A value of the right type may be put into a variable of the call. -/
theorem MemoryTyped.withLocal (hμ : MemoryTyped d vars μ) (hvars : (vars.map Prod.fst).Nodup)
    (hx : (x, t) ∈ vars) (hv : v.ty = t) : MemoryTyped d vars (μ.withLocal x v) := by
  refine ⟨hμ.globals, ?_⟩
  intro y u hy
  by_cases hyx : y = x
  · subst hyx
    obtain rfl := ty_unique hvars hx hy
    exact ⟨v, if_pos rfl, hv⟩
  · obtain ⟨w, hw, hty⟩ := hμ.locals y u hy
    exact ⟨w, (if_neg hyx).trans hw, hty⟩

/-- A value of the right type may be put into a variable of the program. -/
theorem MemoryTyped.withGlobal (hμ : MemoryTyped d vars μ) (hd : (d.globals.map Prod.fst).Nodup)
    (hx : (x, t) ∈ d.globals) (hv : v.ty = t) : MemoryTyped d vars (μ.withGlobal x v) := by
  refine ⟨?_, hμ.locals⟩
  intro y u hy
  by_cases hyx : y = x
  · subst hyx
    obtain rfl := ty_unique hd hx hy
    exact ⟨v, if_pos rfl, hv⟩
  · obtain ⟨w, hw, hty⟩ := hμ.globals y u hy
    exact ⟨w, (if_neg hyx).trans hw, hty⟩

end Memory

/-! ## Loads and stores -/

section Access

variable (A : Arithmetic) (asm : Assembly) {g : Function} (waiting : List (Activation × Register))
  (ρ : Register → Option Immediate) {pc : Nat} {μ : Memory} {d : Outline}
  {vars : List (String × Ty)} {F : Option Frame} {s : Supply} {x : String} {t : Ty} {r : Register}

/-- A load reads the variable that the name stands for. This is the variable of the function, if
there is one of the name, and else the one of the program, in the source as in the machine. -/
theorem step_load (hs : Fits s F) (hF : ∀ v ∈ localsOf F, v ∈ vars) (hμ : MemoryTyped d vars μ)
    (hx : d.Var (localsOf F) x t)
    (h : g.code[pc]? = some (.load (.ofTy t) (s.location x) r)) :
    ∃ v, Run.fetch F x μ = .done v μ ∧ v.ty = t ∧ step A asm (place g waiting ρ pc μ) =
      some (place g waiting (Function.update ρ r (some (.ofLiteral v))) (pc + 1) μ) := by
  rw [step_place h]
  rcases hs.location hx with ⟨hloc, hmem⟩ | ⟨hloc, hnot, hmem⟩
  · obtain ⟨v, hv, hty⟩ := hμ.locals x t (hF _ hmem)
    have hname : x ∈ (localsOf F).map Prod.fst := List.mem_map_of_mem hmem
    refine ⟨v, ?_, hty, ?_⟩
    · simp only [Run.fetch, hname, if_true, hv]
      rfl
    · rw [hloc]
      simp only [execute, Activation.fetch, hv, Option.map_some, Option.bind_eq_bind,
        Option.bind_some, ty_ofLiteral, hty, if_true]
      rfl
  · obtain ⟨v, hv, hty⟩ := hμ.globals x t hmem
    refine ⟨v, ?_, hty, ?_⟩
    · simp only [Run.fetch, hnot, if_false, hv]
      rfl
    · rw [hloc]
      simp only [execute, Activation.fetch, World.map, hv, Option.map_some, Option.bind_eq_bind,
        Option.bind_some, ty_ofLiteral, hty, if_true]
      rfl

/-- A store writes the variable that the name stands for. The memory stays typed, and the machine is
that of the new memory. -/
theorem step_store (hd : (d.globals.map Prod.fst).Nodup) (hvars : (vars.map Prod.fst).Nodup)
    (hs : Fits s F) (hF : ∀ v ∈ localsOf F, v ∈ vars) (hμ : MemoryTyped d vars μ)
    (hx : d.Var (localsOf F) x t) {v : Literal} (hv : v.ty = t) (hr : ρ r = some (.ofLiteral v))
    (h : g.code[pc]? = some (.store (.ofTy t) r (s.location x))) :
    ∃ ν, assign F x v μ = .done () ν ∧ MemoryTyped d vars ν ∧
      step A asm (place g waiting ρ pc μ) = some (place g waiting ρ (pc + 1) ν) := by
  rw [step_place h]
  rcases hs.location hx with ⟨hloc, hmem⟩ | ⟨hloc, hnot, hmem⟩
  · obtain ⟨w, hw, -⟩ := hμ.locals x t (hF _ hmem)
    have hname : x ∈ (localsOf F).map Prod.fst := List.mem_map_of_mem hmem
    refine ⟨μ.withLocal x v, ?_, hμ.withLocal hvars (hF _ hmem) hv, ?_⟩
    · simp only [assign, hname, if_true, setLocal, hw, Option.isSome_some]
    · rw [hloc, place_withLocal]
      simp only [execute, hr, Option.bind_eq_bind, Option.bind_some, ty_ofLiteral, hv, if_true,
        putAt, Activation.next, hw, Option.map_some, Option.isSome_some]
  · obtain ⟨w, hw, -⟩ := hμ.globals x t hmem
    refine ⟨μ.withGlobal x v, ?_, hμ.withGlobal hd hmem hv, ?_⟩
    · simp only [assign, hnot, if_false, setGlobal, hw, Option.isSome_some, if_true]
    · rw [hloc, place_withGlobal]
      simp only [execute, hr, Option.bind_eq_bind, Option.bind_some, ty_ofLiteral, hv, if_true,
        putAt, Activation.next, World.map, hw, Option.map_some, Option.isSome_some]

end Access

/-! ## Expressions -/

/-- Calls with a bound are followed: from the instruction of a call with the arguments in registers
to the next instruction with the result in a register. -/
def CallsFollowed (A : Arithmetic) (asm : Assembly) (d : Outline) (n : Nat)
    (calls : String → List Literal → Run Literal) : Prop :=
  ∀ k ∈ d.functions, ∀ (vs : List Literal) (μ : Memory), vs.map Literal.ty = k.params →
    GlobalsTyped d μ → ∀ (g : Function) (waiting : List (Activation × Register))
      (ρ : Register → Option Immediate) (pc : Nat) (rs : List Register) (r : Register),
      g.code[pc]? = some (.call (functionSymbol k.name) rs r) →
      rs.map ρ = vs.map (fun v => some (.ofLiteral v)) →
      Simulates A asm n (place g waiting ρ pc μ)
        (fun v ν m => v.ty = k.returns ∧ GlobalsTyped d ν ∧ ν.locals = μ.locals ∧
          m = place g waiting (Function.update ρ r (some (.ofLiteral v))) (pc + 1) ν)
        (calls k.name vs μ)

/-- Where registers from before are still as they were. -/
def Keeps (n : Nat) (ρ ρ' : Register → Option Immediate) : Prop :=
  ∀ r : Register, r.index ≤ n → ρ' r = ρ r

/-- What is kept on two stretches is kept on both together. -/
theorem Keeps.trans {n k : Nat} {ρ ρ' ρ'' : Register → Option Immediate} (h : Keeps n ρ ρ')
    (h' : Keeps k ρ' ρ'') (hle : n ≤ k) : Keeps n ρ ρ'' := by
  intro r hr
  rw [h' r (Nat.le_trans hr hle), h r hr]

/-- Writing a new register keeps all registers from before. -/
theorem keeps_fresh (s : Supply) (ρ : Register → Option Immediate) (v : Option Immediate) :
    Keeps s.registers ρ (Function.update ρ s.fresh v) := by
  intro r hr
  have hne : r ≠ s.fresh := by
    intro heq
    rw [heq] at hr
    exact Nat.not_succ_le_self _ hr
  exact Function.update_of_ne hne v ρ

section Expressions

variable {A : Arithmetic} {asm : Assembly} {d : Outline} {n : Nat}
  {calls : String → List Literal → Run Literal} {g : Function}
  {waiting : List (Activation × Register)} {vars : List (String × Ty)} {F : Option Frame}

/-- Behind an expression: a value of its type, in its register. -/
def Evaluated (d : Outline) (vars : List (String × Ty)) (g : Function)
    (waiting : List (Activation × Register)) (t : Ty) (l : Lowered Register) (pc keep : Nat)
    (ρ : Register → Option Immediate) (v : Literal) (ν : Memory) (m : Machine) : Prop :=
  v.ty = t ∧ MemoryTyped d vars ν ∧ ∃ ρ', m = place g waiting ρ' (pc + l.code.length) ν ∧
    ρ' l.value = some (.ofLiteral v) ∧ Keeps keep ρ ρ'

/-- Behind several expressions: values of their types, in their registers. -/
def EvaluatedAll (d : Outline) (vars : List (String × Ty)) (g : Function)
    (waiting : List (Activation × Register)) (ts : List Ty) (l : Lowered (List Register))
    (pc keep : Nat) (ρ : Register → Option Immediate) (vs : List Literal) (ν : Memory)
    (m : Machine) : Prop :=
  vs.map Literal.ty = ts ∧ MemoryTyped d vars ν ∧
    ∃ ρ', m = place g waiting ρ' (pc + l.code.length) ν ∧
      l.value.map ρ' = vs.map (fun v => some (.ofLiteral v)) ∧ Keeps keep ρ ρ'

/-- Behind the last instruction of an expression, which writes a new register. -/
theorem evaluated_fresh {t : Ty} {s : Supply} {code : List Instr} {pc pc' keep : Nat}
    {ρ ρ' : Register → Option Immediate} {v : Literal} {ν : Memory} (hv : v.ty = t)
    (hν : MemoryTyped d vars ν) (hkeep : Keeps keep ρ ρ') (hle : keep ≤ s.registers)
    (hpc : pc' = pc + code.length) :
    Evaluated d vars g waiting t ⟨s.fresh, code, s.skipRegister⟩ pc keep ρ v ν
      (place g waiting (Function.update ρ' s.fresh (some (.ofLiteral v))) pc' ν) := by
  subst hpc
  exact ⟨hv, hν, _, rfl, Function.update_self _ _ _, hkeep.trans (keeps_fresh s ρ' _) hle⟩

/-- The machine follows a unary operator. Negations are computed from a constant that is put into a
register first. -/
theorem unary_followed {op : UnaryOp} {t u : Ty} (rule : UnaryRule op t u) {r : Register}
    {s : Supply} {l : Lowered Register} (hl : lowerUnary op (.ofTy u) r s = some l)
    (hrs : r.index ≤ s.registers) {ρ : Register → Option Immediate} {pc : Nat} {μ : Memory}
    (hp : Placed g pc l.code) (hμ : MemoryTyped d vars μ) {x : Literal} (hx : x.ty = t)
    (hr : ρ r = some (.ofLiteral x)) :
    Simulates A asm n (place g waiting ρ pc μ)
      (Evaluated d vars g waiting u l pc s.registers ρ) (defined (A.unary op x) μ) := by
  have hkeep := keeps_fresh s ρ
  -- The operand is in an older register, so the constant does not overwrite it.
  have hr' : ∀ v, Function.update ρ s.fresh v r = some (.ofLiteral x) := fun v =>
    (hkeep v r hrs).trans hr
  cases op with
  | plus =>
    -- The plus has no instruction, and its value is in the register of the operand.
    rw [lowerUnary_plus] at hl
    subst hl
    cases rule with
    | plusInt =>
      obtain ⟨x, rfl⟩ := exists_int hx
      exact .result ⟨rfl, hμ, ρ, rfl, hr, fun _ _ => rfl⟩
    | plusFloat =>
      obtain ⟨x, rfl⟩ := exists_float hx
      exact .result ⟨rfl, hμ, ρ, rfl, hr, fun _ _ => rfl⟩
  | minus =>
    rw [lowerUnary_minus] at hl
    subst hl
    -- The minus is a subtraction from zero on both sides.
    have hrule : BinaryRule (.arith .sub) u t u := by
      cases rule with
      | minusInt => exact .int _
      | minusFloat => exact .float _
    have hsub : A.unary .minus x = A.binary (.arith .sub) (.zero u) x := by
      cases rule with
      | minusInt =>
        obtain ⟨x, rfl⟩ := exists_int hx
        rfl
      | minusFloat =>
        obtain ⟨x, rfl⟩ := exists_float hx
        rfl
    obtain ⟨hop, hty⟩ := binaryOn_ofLiteral A hrule (zero_ty u) hx
    have hinstr : g.code[pc + 1]? = some (binaryInstr (.arith .sub) (.ofTy u) s.fresh r
        s.skipRegister.fresh) := hp.tail.get
    have hstep : step A asm (place g waiting
        (Function.update ρ s.fresh (some (.ofLiteral (.zero u)))) (pc + 1) μ) = _ :=
      step_binary (Function.update_self _ _ _) (hr' _) hinstr
    rw [hop, Option.map_map] at hstep
    rw [hsub]
    refine .skip (step_move hp.get) ?_
    rw [← ofLiteral_zero]
    refine .defined hstep fun z hz => ?_
    exact evaluated_fresh (hty z hz) hμ (hkeep _) (Nat.le_succ _) rfl
  | not =>
    rw [lowerUnary_not] at hl
    subst hl
    cases rule with
    | not =>
      -- Flipping the last bit is the complement because the operand is zero or one.
      obtain ⟨x, rfl⟩ := exists_bool hx
      have hbit : ∀ v, Function.update ρ s.fresh v r = some (.int (bit x)) := hr'
      have hstep : step A asm (place g waiting (Function.update ρ s.fresh (some (.int 1))) (pc + 1)
          μ) = _ := step_bitwise (Function.update_self _ _ _) (hbit _) hp.tail.get
      rw [apply_xor_one] at hstep
      refine .skip (step_move hp.get) (.skip hstep (.result ?_))
      exact evaluated_fresh rfl hμ (hkeep _) (Nat.le_succ _) rfl

mutual

-- The induction is on the typing of the expression. Registers and the place in the code are free in
-- it, since operands start where the code before them ends. What is kept is that registers from
-- before are not written, which is why two operands can wait for each other.

/-- **The machine follows an expression**: from the first instruction of its code to the one behind,
with the value in its register. -/
theorem eval_followed (hcalls : CallsFollowed A asm d n calls)
    (hF : ∀ v ∈ localsOf F, v ∈ vars) :
    ∀ {e : Expr Typing} {t : Ty}, TypedExpr d (localsOf F) e t →
    ∀ {s : Supply} {l : Lowered Register}, lowerExpr e s = some l → Fits s F →
    ∀ {ρ : Register → Option Immediate} {pc : Nat} {μ : Memory}, Placed g pc l.code →
      MemoryTyped d vars μ → Simulates A asm n (place g waiting ρ pc μ)
        (Evaluated d vars g waiting t l pc s.registers ρ) (eval A calls F e μ)
  -- In each case the machine goes through the code of the operands first, in the order of the
  -- source.
  | _, _, .literal (v := v) note, s, l, h, hs, ρ, pc, μ, hp, hμ => by
    rw [lowerExpr_literal] at h
    subst h
    rw [eval]
    refine .skip (step_move hp.get) (.result ?_)
    exact evaluated_fresh rfl hμ (fun _ _ => rfl) (Nat.le_refl _) rfl
  | _, _, .read note hv, s, l, h, hs, ρ, pc, μ, hp, hμ => by
    obtain ⟨u, hu, rfl⟩ := lowerExpr_read.mp h
    obtain rfl := Option.some.inj (note.symm.trans hu)
    obtain ⟨v, hfetch, hty, hstep⟩ := step_load A asm waiting ρ hs hF hμ hv hp.get
    rw [eval, hfetch]
    refine .skip hstep (.result ?_)
    exact evaluated_fresh hty hμ (fun _ _ => rfl) (Nat.le_refl _) rfl
  | _, _, .binary note hl hr rule, s, l, h, hs, ρ, pc, μ, hp, hμ => by
    obtain ⟨a, b, t, ha, hb, hta, rfl⟩ := lowerExpr_binary.mp h
    obtain rfl := Option.some.inj (hl.ty_eq.symm.trans hta)
    have htakes := takes_of_lowerExpr _ ha
    have htakes' := takes_of_lowerExpr _ hb
    rw [eval]
    refine (eval_followed hcalls hF hl ha hs hp.left hμ).bind ?_
    rintro x ν _ ⟨hx, hν, ρ', rfl, hxa, hkeep⟩
    refine (eval_followed hcalls hF hr hb (hs.of_frame htakes.frame) hp.right.left hν).bind ?_
    rintro y ξ _ ⟨hy, hξ, ρ'', rfl, hyb, hkeep'⟩
    -- The right operand leaves the register of the left one alone.
    have hxa' : ρ'' a.value = some (.ofLiteral x) := (hkeep' _ htakes.upper).trans hxa
    obtain ⟨hop, hty⟩ := binaryOn_ofLiteral A rule hx hy
    have hstep : step A asm (place g waiting ρ'' _ ξ) = _ :=
      step_binary hxa' hyb hp.right.right.get
    rw [hop, Option.map_map] at hstep
    refine .defined hstep fun z hz => ?_
    exact evaluated_fresh (hty z hz) hξ (hkeep.trans hkeep' htakes.registers)
      (Nat.le_trans htakes.registers htakes'.registers) (by simp [Nat.add_assoc])
  | _, _, .unary note he rule, s, l, h, hs, ρ, pc, μ, hp, hμ => by
    obtain ⟨a, u, b, ha, hu, hb, rfl⟩ := lowerExpr_unary.mp h
    obtain rfl := Option.some.inj (note.symm.trans hu)
    have htakes := takes_of_lowerExpr _ ha
    rw [eval]
    refine (eval_followed hcalls hF he ha hs hp.left hμ).bind ?_
    rintro x ν _ ⟨hx, hν, ρ', rfl, hxa, hkeep⟩
    refine (unary_followed rule hb htakes.upper hp.right hν hx hxa).imp ?_
    rintro z ξ _ ⟨hz, hξ, ρ'', rfl, hzb, hkeep'⟩
    refine ⟨hz, hξ, ρ'', ?_, hzb, hkeep.trans hkeep' htakes.registers⟩
    simp [Nat.add_assoc]
  | _, _, .call (k := k) note declared hargs, s, l, h, hs, ρ, pc, μ, hp, hμ => by
    obtain ⟨a, ha, rfl⟩ := lowerExpr_call.mp h
    have htakes := takes_of_lowerExprs _ ha
    rw [eval]
    refine (evalAll_followed hcalls hF hargs ha hs hp.left hμ).bind ?_
    rintro vs ν _ ⟨hvs, hν, ρ', rfl, hregs, hkeep⟩
    -- The call may change the variables of the program but not those of this call.
    have hcall := hcalls k declared vs ν hvs hν.globals g waiting ρ' _ a.value a.next.fresh
      hp.right.get hregs
    refine hcall.imp ?_
    rintro v ξ _ ⟨hv, hξ, hlocals, rfl⟩
    exact evaluated_fresh hv ⟨hξ, hlocals ▸ hν.locals⟩ hkeep htakes.registers
      (by simp [Nat.add_assoc])

/-- The machine follows arguments, one by one, and keeps the values of those it has. They are in
registers that the code of later arguments does not write. -/
theorem evalAll_followed (hcalls : CallsFollowed A asm d n calls)
    (hF : ∀ v ∈ localsOf F, v ∈ vars) :
    ∀ {es : List (Expr Typing)} {ts : List Ty}, TypedExprs d (localsOf F) es ts →
    ∀ {s : Supply} {l : Lowered (List Register)}, lowerExprs es s = some l → Fits s F →
    ∀ {ρ : Register → Option Immediate} {pc : Nat} {μ : Memory}, Placed g pc l.code →
      MemoryTyped d vars μ → Simulates A asm n (place g waiting ρ pc μ)
        (EvaluatedAll d vars g waiting ts l pc s.registers ρ) (evalAll A calls F es μ)
  | _, _, .nil, s, l, h, hs, ρ, pc, μ, hp, hμ => by
    rw [lowerExprs_nil] at h
    subst h
    rw [evalAll]
    exact .result ⟨rfl, hμ, ρ, rfl, rfl, fun _ _ => rfl⟩
  | _, _, .cons he hes, s, l, h, hs, ρ, pc, μ, hp, hμ => by
    obtain ⟨a, b, ha, hb, rfl⟩ := lowerExprs_cons.mp h
    have htakes := takes_of_lowerExpr _ ha
    rw [evalAll]
    refine (eval_followed hcalls hF he ha hs hp.left hμ).bind ?_
    rintro x ν _ ⟨hx, hν, ρ', rfl, hxa, hkeep⟩
    refine (evalAll_followed hcalls hF hes hb (hs.of_frame htakes.frame) hp.right hν).bind ?_
    rintro ys ξ _ ⟨hys, hξ, ρ'', rfl, hysb, hkeep'⟩
    refine .result ⟨?_, hξ, ρ'', ?_, ?_, hkeep.trans hkeep' htakes.registers⟩
    · rw [List.map_cons, hx, hys]
    · simp [Nat.add_assoc]
    · rw [List.map_cons, List.map_cons, hysb, hkeep' _ htakes.upper, hxa]

end

end Expressions

/-! ## Places in branches and loops -/

/-- Where the parts of a branch stand. -/
structure BranchAt (g : Function) (pc : Nat) (r : Register) (ifTrue ifFalse merge : Label)
    (a b : List Instr) : Prop where
  test : g.code[pc]? = some (.branch r ifTrue ifFalse)
  first : Placed g (pc + 1) (.label ifTrue :: a)
  leave : g.code[pc + 2 + a.length]? = some (.jump merge)
  second : Placed g (pc + 2 + a.length + 1) (.label ifFalse :: b)
  leave' : g.code[pc + 2 + a.length + 2 + b.length]? = some (.jump merge)
  last : Placed g (pc + 2 + a.length + 2 + b.length + 1) [.label merge]

/-- The places of the parts of a branch, by their lengths. The labels are part of the code, so jumps
to them go to these places. -/
theorem Placed.branch {g : Function} {pc : Nat} {r : Register} {ifTrue ifFalse merge : Label}
    {a b : List Instr} (h : Placed g pc (branchCode r ifTrue ifFalse merge a b)) :
    BranchAt g pc r ifTrue ifFalse merge a b := by
  -- Bracketed from the right, the code can be taken apart from the left.
  have hwhole : branchCode r ifTrue ifFalse merge a b = .branch r ifTrue ifFalse ::
      ((.label ifTrue :: a) ++ (.jump merge :: ((.label ifFalse :: b) ++
        [.jump merge, .label merge]))) := by
    simp [branchCode]
  rw [hwhole] at h
  have hjump := h.tail.right
  have hjump' := hjump.tail.right
  simp only [List.length_cons] at hjump hjump'
  have hpc : pc + 1 + (a.length + 1) = pc + 2 + a.length := by omega
  have hpc' : pc + 1 + (a.length + 1) + 1 + (b.length + 1) = pc + 2 + a.length + 2 + b.length := by
    omega
  rw [hpc'] at hjump'
  rw [hpc] at hjump
  exact ⟨h.get, h.tail.left, hjump.get, hjump.tail.left, hjump'.get, hjump'.tail⟩

/-- Where the parts of a loop stand. -/
structure LoopAt (g : Function) (pc : Nat) (test enter merge : Label) (c : List Instr)
    (r : Register) (b : List Instr) : Prop where
  start : g.code[pc]? = some (.jump test)
  condition : Placed g (pc + 1) (.label test :: c)
  check : g.code[pc + 2 + c.length]? = some (.branch r enter merge)
  body : Placed g (pc + 2 + c.length + 1) (.label enter :: b)
  again : g.code[pc + 2 + c.length + 2 + b.length]? = some (.jump test)
  last : Placed g (pc + 2 + c.length + 2 + b.length + 1) [.label merge]

/-- The places of the parts of a loop, by their lengths. The code of the condition stands at the
test, which is jumped to from the front and from the end of the body. -/
theorem Placed.loop {g : Function} {pc : Nat} {test enter merge : Label} {c : List Instr}
    {r : Register} {b : List Instr} (h : Placed g pc (loopCode test enter merge c r b)) :
    LoopAt g pc test enter merge c r b := by
  have hwhole : loopCode test enter merge c r b = .jump test ::
      ((.label test :: c) ++ (.branch r enter merge :: ((.label enter :: b) ++
        [.jump test, .label merge]))) := by
    simp [loopCode]
  rw [hwhole] at h
  have hcheck := h.tail.right
  have hagain := hcheck.tail.right
  simp only [List.length_cons] at hcheck hagain
  -- The places as they are counted from the left, and as they are written in the statement.
  have hpc : pc + 1 + (c.length + 1) = pc + 2 + c.length := by omega
  have hpc' : pc + 1 + (c.length + 1) + 1 + (b.length + 1) = pc + 2 + c.length + 2 + b.length := by
    omega
  rw [hpc'] at hagain
  rw [hpc] at hcheck
  exact ⟨h.get, h.tail.left, hcheck.get, hcheck.tail.left, hagain.get, hagain.tail⟩

/-! ## Statements -/

/-- Behind a statement: at the next one, or the call is over with a value of its type. -/
def Ran (d : Outline) (vars : List (String × Ty)) (g : Function)
    (waiting : List (Activation × Register)) (returns : Option Ty) (pc : Nat) :
    Option Literal → Memory → Machine → Prop
  | none, ν, m => MemoryTyped d vars ν ∧ ∃ ρ, m = place g waiting ρ pc ν
  | some v, ν, m => returns = some v.ty ∧ GlobalsTyped d ν ∧
      m = deliver (.ofLiteral v) waiting (ν.world.map .ofLiteral)

/-- Behind the first statements of a branch or the body of a loop, the machine jumps. Where the call
is over, there is nothing left to do. -/
theorem Ran.jump {A : Arithmetic} {asm : Assembly} {d : Outline} {n : Nat} {g : Function}
    {waiting : List (Activation × Register)} {vars : List (String × Ty)} {returns : Option Ty}
    {pc pc' : Nat} {r : Option Literal} {ν : Memory} {m : Machine} {l : Label}
    (h : Ran d vars g waiting returns pc r ν m) (hjump : g.code[pc]? = some (.jump l))
    (hl : Placed g pc' [.label l]) (hg : (labelsOf g.code).Nodup) :
    Simulates A asm n m (Ran d vars g waiting returns (pc' + 1)) (.done r ν) := by
  cases r with
  | none =>
    obtain ⟨hν, ρ, rfl⟩ := h
    refine .skip (step_jump hjump (hl.label hg)) (.skip (step_label hl.get) (.result ?_))
    exact ⟨hν, ρ, rfl⟩
  | some v => exact .result h

/-- Variables that are known stay known. -/
theorem mem_past {F : Option Frame} {v : String × Ty} (h : v ∈ localsOf F)
    (more : List (String × Ty)) : v ∈ localsOf (Frame.past F more) := by
  cases F with
  | none => cases h
  | some f => exact List.mem_append_left _ h

/-- Declarations do not change what is returned. -/
@[simp] theorem returns_past (F : Option Frame) (more : List (String × Ty)) :
    (Frame.past F more).map Frame.returns = F.map Frame.returns := by
  cases F <;> rfl

/-- The first value of a variable is put where an assignment behind the declaration would put it. -/
theorem setFirst_eq (F : Option Frame) (x : String) (t : Ty) (v : Literal) :
    setFirst F x v = assign (Frame.past F [(x, t)]) x v := by
  cases F with
  | none => rfl
  | some f => simp [setFirst, assign, Frame.past, localsOf]

section Statements

variable {A : Arithmetic} {asm : Assembly} {d : Outline} {n : Nat}
  {calls : String → List Literal → Run Literal} {g : Function}
  {waiting : List (Activation × Register)} {vars : List (String × Ty)} {F : Option Frame}

/-- The machine follows a condition: behind it there is one or zero in its register. This is what
branches and loops go by. -/
theorem holds_followed (hcalls : CallsFollowed A asm d n calls)
    (hF : ∀ v ∈ localsOf F, v ∈ vars) {e : Expr Typing} (he : TypedExpr d (localsOf F) e .bool)
    {s : Supply} {l : Lowered Register} (hl : lowerExpr e s = some l) (hs : Fits s F)
    {ρ : Register → Option Immediate} {pc : Nat} {μ : Memory} (hp : Placed g pc l.code)
    (hμ : MemoryTyped d vars μ) :
    Simulates A asm n (place g waiting ρ pc μ)
      (fun b ν m => MemoryTyped d vars ν ∧ ∃ ρ', m = place g waiting ρ' (pc + l.code.length) ν ∧
        ρ' l.value = some (.int (bit b))) (holds A calls F e μ) := by
  rw [holds]
  refine (eval_followed hcalls hF he hl hs hp hμ).bind ?_
  rintro v ν _ ⟨hv, hν, ρ', rfl, hr, -⟩
  -- A value of type `bool` is a truth value, which the machine has as one or zero.
  obtain ⟨b, rfl⟩ := exists_bool hv
  exact .result ⟨hν, ρ', rfl, hr⟩

/-- What holds of a function and of the calls in it while its statements run. -/
structure Hosts (A : Arithmetic) (asm : Assembly) (d : Outline) (n : Nat)
    (calls : String → List Literal → Run Literal) (g : Function) (vars : List (String × Ty)) :
    Prop where
  calls : CallsFollowed A asm d n calls
  globals : (d.globals.map Prod.fst).Nodup
  vars : (vars.map Prod.fst).Nodup
  labels : (labelsOf g.code).Nodup

/-- A declaration with a value. The machine passes the storage, computes the value and stores it to
where the new name is looked up (`lower_declaration`). -/
theorem declaration_followed (hg : Hosts A asm d n calls g vars) {x : String} {e : Expr Typing}
    {t : Ty} (he : TypedExpr d (localsOf F) e t) (hnew : d.New F x t)
    (hF : ∀ v ∈ localsOf (Frame.past F [(x, t)]), v ∈ vars) {s : Supply} {l : Lowered Unit}
    (h : lowerDeclaration (some t) x e s = some l) (hs : Fits s F)
    {ρ : Register → Option Immediate} {pc : Nat} {μ : Memory} (hp : Placed g pc l.code)
    (hμ : MemoryTyped d vars μ) (returns : Option Ty) :
    Simulates A asm n (place g waiting ρ pc μ) (Ran d vars g waiting returns (pc + l.code.length))
      ((do
        setFirst F x (← eval A calls F e)
        return none : Run (Option Literal)) μ) := by
  obtain ⟨u, a, hu, ha, rfl⟩ := lowerDeclaration_eq_some.mp h
  obtain rfl := Option.some.inj hu
  have htakes := takes_of_lowerExpr _ ha
  have hfits : Fits (a.next.declare x) (Frame.past F [(x, t)]) :=
    (hs.of_frame htakes.frame).past rfl
  refine (eval_followed hg.calls (fun v hv => hF v (mem_past hv _)) he ha hs hp.left hμ).bind ?_
  rintro v ν _ ⟨hv, hν, ρ', rfl, hr, -⟩
  obtain ⟨ξ, hset, hξ, hstep⟩ := step_store A asm waiting ρ' hg.globals hg.vars hfits hF hν
    hnew.var hv hr hp.right.tail.get
  -- The store is lowered behind the declaration, so the name is that of the new variable already.
  have hfirst : setFirst F x v ν = .done () ξ := by
    rw [setFirst_eq F x t v]
    exact hset
  refine .skip (step_storage hp.right.get) (.skip hstep ?_)
  rw [bind_of_done hfirst]
  refine .result ⟨hξ, ρ', ?_⟩
  simp [Nat.add_assoc]

/-- The rounds of a loop, from the label in front of its condition. The induction is on the bound,
and the step over that label is what makes a round count. -/
theorem rounds_followed {pc : Nat} {test enter merge : Label} {c b : List Instr} {r : Register}
    (hat : LoopAt g pc test enter merge c r b) (hlabels : (labelsOf g.code).Nodup)
    {returns : Option Ty} {check : Run Bool} {body : Run (Option Literal)}
    (hcheck : ∀ (ρ : Register → Option Immediate) (μ : Memory), MemoryTyped d vars μ →
      Simulates A asm n (place g waiting ρ (pc + 2) μ)
        (fun b ν m => MemoryTyped d vars ν ∧ ∃ ρ', m = place g waiting ρ' (pc + 2 + c.length) ν ∧
          ρ' r = some (.int (bit b))) (check μ))
    (hbody : ∀ (ρ : Register → Option Immediate) (μ : Memory), MemoryTyped d vars μ →
      Simulates A asm n (place g waiting ρ (pc + 2 + c.length + 2) μ)
        (Ran d vars g waiting returns (pc + 2 + c.length + 2 + b.length)) (body μ))
    (k : Nat) (hk : k ≤ n) (ρ : Register → Option Immediate) (μ : Memory)
    (hμ : MemoryTyped d vars μ) :
    Simulates A asm k (place g waiting ρ (pc + 1) μ)
      (Ran d vars g waiting returns (pc + 2 + c.length + 2 + b.length + 1 + 1))
      (rounds check body k μ) := by
  induction k generalizing ρ μ with
  | zero => exact .bound rfl
  | succ k ih =>
    have hle : k ≤ n := Nat.le_of_succ_le hk
    refine .step (step_label hat.condition.get) ?_
    rw [rounds]
    refine ((hcheck ρ μ hμ).mono hle).bind ?_
    rintro (_ | _) ν _ ⟨hν, ρ', rfl, hr⟩
    · -- The condition does not hold, and the machine leaves the loop.
      refine .skip (step_branch hr hat.check (hat.last.label hlabels))
        (.skip (step_label hat.last.get) (.result ?_))
      exact ⟨hν, ρ', rfl⟩
    · refine .skip (step_branch hr hat.check (hat.body.label hlabels))
        (.skip (step_label hat.body.get) ?_)
      refine ((hbody ρ' ν hν).mono hle).bind ?_
      rintro (_ | v) ξ m hran
      · -- Back at the label, with one round less.
        obtain ⟨hξ, ρ'', rfl⟩ := hran
        exact .skip (step_jump hat.again (hat.condition.label hlabels)) (ih hle ρ'' ξ hξ)
      · exact .result hran

/-- The two arms of a branch, from the instruction that tests the condition. Both come to the label
behind the branch. -/
theorem branch_followed {pc : Nat} {r : Register} {ifTrue ifFalse merge : Label} {a b : List Instr}
    (hat : BranchAt g pc r ifTrue ifFalse merge a b) (hlabels : (labelsOf g.code).Nodup)
    {returns : Option Ty} {whenTrue whenFalse : Run (Option Literal)} {c : Bool}
    {ρ : Register → Option Immediate} {μ : Memory} (hr : ρ r = some (.int (bit c)))
    (htrue : Simulates A asm n (place g waiting ρ (pc + 2) μ)
      (Ran d vars g waiting returns (pc + 2 + a.length)) (whenTrue μ))
    (hfalse : Simulates A asm n (place g waiting ρ (pc + 2 + a.length + 2) μ)
      (Ran d vars g waiting returns (pc + 2 + a.length + 2 + b.length)) (whenFalse μ)) :
    Simulates A asm n (place g waiting ρ pc μ)
      (Ran d vars g waiting returns (pc + 2 + a.length + 2 + b.length + 1 + 1))
      ((if c then whenTrue else whenFalse) μ) := by
  by_cases hc : c = true
  · subst hc
    refine .skip (step_branch hr hat.test (hat.first.label hlabels)) ?_
    refine .skip (step_label hat.first.get) ?_
    exact htrue.andThen fun v ξ m hran => hran.jump hat.leave hat.last hlabels
  · obtain rfl : c = false := by simpa using hc
    refine .skip (step_branch hr hat.test (hat.second.label hlabels)) ?_
    refine .skip (step_label hat.second.get) ?_
    exact hfalse.andThen fun v ξ m hran => hran.jump hat.leave' hat.last hlabels

mutual

-- The induction is on the typing of statements and blocks. All variables that the function will
-- ever have are there from its start, so `vars` stays the same while the frame grows, and a frame
-- is only asked to be a part of it.

/-- **The machine follows a statement**, to the instruction behind it or out of the call. By
induction on the derivation of the statement, and for loops on the bound of the rounds. A statement
that returns a value ends the call, and everything behind it in the code is skipped. -/
theorem exec_followed (hg : Hosts A asm d n calls g vars) :
    ∀ {F : Option Frame} {st : CheckedStmt}, TypedStmt d F st →
    ∀ {s : Supply} {l : Lowered Unit}, lowerStmt st s = some l → Fits s F →
      (∀ v ∈ localsOf (Frame.past F st.declarations), v ∈ vars) →
      (∀ t, F.map Frame.returns = some t → g.returns = .ofTy t) →
    ∀ {ρ : Register → Option Immediate} {pc : Nat} {μ : Memory}, Placed g pc l.code →
      MemoryTyped d vars μ → Simulates A asm n (place g waiting ρ pc μ)
        (Ran d vars g waiting (F.map Frame.returns) (pc + l.code.length))
        (exec A calls n F st μ)
  | F, _, .print note he, s, l, h, hs, hF, hR, ρ, pc, μ, hp, hμ => by
    obtain ⟨a, u, ha, hu, rfl⟩ := lowerStmt_print.mp h
    obtain rfl := Option.some.inj (he.ty_eq.symm.trans hu)
    rw [declarations_print, Frame.past_nil] at hF
    rw [exec]
    refine (eval_followed hg.calls hF he ha hs hp.left hμ).bind ?_
    rintro v ν _ ⟨hv, hν, ρ', rfl, hr, -⟩
    refine .skip (step_print hr hv hp.right.get) (.result ⟨⟨hν.globals, hν.locals⟩, ρ', ?_⟩)
    simp [Nat.add_assoc]
  | F, _, .var note new, s, l, h, hs, hF, hR, ρ, pc, μ, hp, hμ => by
    obtain ⟨u, hu, rfl⟩ := lowerStmt_var.mp h
    rw [exec]
    exact .skip (step_storage hp.get) (.result ⟨hμ, ρ, rfl⟩)
  | F, _, .varWith note he new, s, l, h, hs, hF, hR, ρ, pc, μ, hp, hμ => by
    rw [lowerStmt_varWith, note] at h
    rw [declarations, note] at hF
    rw [exec]
    exact declaration_followed hg he new hF h hs hp hμ _
  | F, _, .const note he new, s, l, h, hs, hF, hR, ρ, pc, μ, hp, hμ => by
    rw [lowerStmt_const, note] at h
    rw [declarations, note] at hF
    rw [exec]
    exact declaration_followed hg he new hF h hs hp hμ _
  | F, _, .write note he hv, s, l, h, hs, hF, hR, ρ, pc, μ, hp, hμ => by
    obtain ⟨a, u, ha, hu, rfl⟩ := lowerStmt_write.mp h
    obtain rfl := Option.some.inj (he.ty_eq.symm.trans hu)
    rw [declarations_write, Frame.past_nil] at hF
    have hfits := hs.of_frame (takes_of_lowerExpr _ ha).frame
    rw [exec]
    refine (eval_followed hg.calls hF he ha hs hp.left hμ).bind ?_
    rintro v ν _ ⟨hty, hν, ρ', rfl, hr, -⟩
    obtain ⟨ξ, hset, hξ, hstep⟩ := step_store A asm waiting ρ' hg.globals hg.vars hfits hF hν hv
      hty hr hp.right.get
    refine .skip hstep ?_
    rw [bind_of_done hset]
    refine .result ⟨hξ, ρ', ?_⟩
    simp [Nat.add_assoc]
  | F, _, .branch note he ht hf, s, l, h, hs, hF, hR, ρ, pc, μ, hp, hμ => by
    obtain ⟨a, b, c, ha, hb, hc, rfl⟩ := lowerStmt_branch.mp h
    have htakes := takes_of_lowerExpr _ ha
    have hadds := adds_of_lowerBlock _ hb
    have hfits : Fits (a.next.skipLabels 3) F := hs.of_frame htakes.frame
    have hat := hp.right.branch
    rw [declarations, ← Frame.past_past] at hF
    rw [exec]
    have hend : pc + (a.code ++ branchCode a.value (a.next.label 1) (a.next.label 2)
        (a.next.label 3) b.code c.code).length =
        pc + a.code.length + 2 + b.code.length + 2 + c.code.length + 1 + 1 := by
      simp only [branchCode, List.length_append, List.length_cons, List.length_nil]
      omega
    rw [hend]
    refine (holds_followed hg.calls (fun v hv => hF v (mem_past (mem_past hv _) _)) he ha hs
      hp.left hμ).bind ?_
    rintro c ν _ ⟨hν, ρ', rfl, hr⟩
    refine branch_followed hat hg.labels hr ?_ ?_
    · exact execBlock_followed hg ht hb hfits (fun v hv => hF v (mem_past hv _)) hR
        hat.first.tail hν
    · -- What the first arm declares is in the frame of the second one.
      have harm := execBlock_followed hg hf hc (hfits.past hadds.frame) hF
        (by rw [returns_past]; exact hR) (ρ := ρ') hat.second.tail hν
      rw [returns_past] at harm
      exact harm
  | F, _, .loop note he hb, s, l, h, hs, hF, hR, ρ, pc, μ, hp, hμ => by
    obtain ⟨a, b, ha, hb', rfl⟩ := lowerStmt_loop.mp h
    have htakes := takes_of_lowerExpr _ ha
    have hfits : Fits (s.skipLabels 3) F := hs.of_frame rfl
    have hat := hp.loop
    rw [declarations] at hF
    rw [exec]
    have hend : pc + (loopCode (s.label 1) (s.label 2) (s.label 3) a.code a.value b.code).length =
        pc + 2 + a.code.length + 2 + b.code.length + 1 + 1 := by
      simp only [loopCode, List.length_append, List.length_cons, List.length_nil]
      omega
    rw [hend]
    -- Into the loop, in front of its condition, where the rounds start.
    refine .skip (step_jump hat.start (hat.condition.label hg.labels)) ?_
    refine rounds_followed hat hg.labels ?_ ?_ n (Nat.le_refl n) ρ μ hμ
    · intro ρ μ hμ
      exact holds_followed hg.calls (fun v hv => hF v (mem_past hv _)) he ha hfits
        hat.condition.tail hμ
    · intro ρ μ hμ
      exact execBlock_followed hg hb hb' (hfits.of_frame htakes.frame) hF hR hat.body.tail hμ
  | _, _, .function note declared params distinct hb, s, l, h, hs, hF, hR, ρ, pc, μ, hp, hμ => by
    -- A function inside makes no code here, and running it does nothing.
    rw [lowerStmt_function] at h
    subst h
    rw [exec]
    exact .result ⟨hμ, ρ, rfl⟩
  | _, _, .ret (f := f) note he, s, l, h, hs, hF, hR, ρ, pc, μ, hp, hμ => by
    obtain ⟨a, u, ha, hu, rfl⟩ := lowerStmt_ret.mp h
    obtain rfl := Option.some.inj (he.ty_eq.symm.trans hu)
    rw [declarations_ret, Frame.past_nil] at hF
    rw [exec]
    refine (eval_followed (F := some f) hg.calls hF he ha hs hp.left hμ).bind ?_
    rintro v ν _ ⟨hv, hν, ρ', rfl, hr, -⟩
    -- The call is over, and the machine is with the caller.
    refine .skip (step_ret hr hv (hR _ rfl) hp.right.get) (.result ⟨?_, hν.globals, rfl⟩)
    rw [hv]
    rfl

/-- The machine follows a block, and leaves it where a statement returns. What a statement declares
is in the frame of the ones behind it, both in the source and in the supply. -/
theorem execBlock_followed (hg : Hosts A asm d n calls g vars) :
    ∀ {F : Option Frame} {ss : List CheckedStmt}, TypedBlock d F ss →
    ∀ {s : Supply} {l : Lowered Unit}, lowerBlock ss s = some l → Fits s F →
      (∀ v ∈ localsOf (Frame.past F (declarationsOf ss)), v ∈ vars) →
      (∀ t, F.map Frame.returns = some t → g.returns = .ofTy t) →
    ∀ {ρ : Register → Option Immediate} {pc : Nat} {μ : Memory}, Placed g pc l.code →
      MemoryTyped d vars μ → Simulates A asm n (place g waiting ρ pc μ)
        (Ran d vars g waiting (F.map Frame.returns) (pc + l.code.length))
        (execBlock A calls n F ss μ)
  | F, _, .nil, s, l, h, hs, hF, hR, ρ, pc, μ, hp, hμ => by
    rw [lowerBlock_nil] at h
    subst h
    rw [execBlock]
    exact .result ⟨hμ, ρ, rfl⟩
  | F, _, .cons hst hss, s, l, h, hs, hF, hR, ρ, pc, μ, hp, hμ => by
    obtain ⟨a, b, ha, hb, rfl⟩ := lowerBlock_cons.mp h
    have hadds := adds_of_lowerStmt _ ha
    rw [declarationsOf_cons, ← Frame.past_past] at hF
    rw [execBlock]
    refine (exec_followed hg hst ha hs (fun v hv => hF v (mem_past hv _)) hR hp.left hμ).bind ?_
    rintro (_ | v) ν m hran
    · obtain ⟨hν, ρ', rfl⟩ := hran
      have hrest := execBlock_followed hg hss hb (hs.past hadds.frame) hF
        (by rw [returns_past]; exact hR) (ρ := ρ') hp.right hν
      rw [returns_past] at hrest
      simpa [Nat.add_assoc] using hrest
    · exact .result hran

end

end Statements

end Pulse.Code

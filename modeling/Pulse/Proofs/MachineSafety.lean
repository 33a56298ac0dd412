/-
Generated code is safe to run.

The machine is partial: it has no step at a register that was not written, a location, a label or a
function that does not exist. Generated code never comes to such an instruction, and the values that
truth values become are zero and one wherever they are. Both are facts about every state of every
run, so there is one invariant: each call on the stack has the registers it still reads, and the
registers, the variables of calls, the variables of the program and the results that are waited for
hold values of their types.

What one instruction does to the invariant is shown for the few things that instructions do to an
activation; the rest is the order of the steps.
-/
import Pulse.Proofs.ProgramMeaning
import Pulse.Proofs.ValueTyping

set_option autoImplicit false

namespace Pulse

namespace Code

open Rules CheckedStmt

/-! ## Values of types -/

/-- Zero is a value of every type. -/
theorem of_zero (t : Ty) : (Immediate.zero (.ofTy t)).Of t :=
  ⟨.zero t, zero_ty t, ofLiteral_zero t⟩

/-- An operation on values of types has a value of the type that the rules give it. -/
theorem of_binaryOn {A : Arithmetic} {op : BinaryOp} {t u v : Ty} (rule : BinaryRule op t u v)
    {x y z : Immediate} (hx : x.Of t) (hy : y.Of u) (h : binaryOn A op (.ofTy t) x y = some z) :
    z.Of v := by
  obtain ⟨x, hx, rfl⟩ := hx
  obtain ⟨y, hy, rfl⟩ := hy
  obtain ⟨heq, hty⟩ := binaryOn_ofLiteral A rule hx hy
  rw [heq] at h
  obtain ⟨w, hw, rfl⟩ := Option.map_eq_some_iff.mp h
  exact ⟨w, hty w hw, rfl⟩

/-- The bit operations stay on zero and one. All values are tried, of which there are four for each
operation. -/
theorem of_bitOn {op : BitOp} {x y z : Immediate} (hx : x.Of .bool) (hy : y.Of .bool)
    (h : op.on x y = some z) : z.Of .bool := by
  obtain ⟨x, hx, rfl⟩ := hx
  obtain ⟨y, hy, rfl⟩ := hy
  obtain ⟨b, rfl⟩ := exists_bool hx
  obtain ⟨c, rfl⟩ := exists_bool hy
  have hbit : ∃ r, op.apply (bit b) (bit c) = bit r := by
    cases op <;> cases b <;> cases c <;> decide
  obtain ⟨r, hr⟩ := hbit
  rw [ofLiteral_bool, ofLiteral_bool, BitOp.on, hr, ← ofLiteral_bool] at h
  exact ⟨.bool r, rfl, Option.some.inj h⟩

/-! ## The invariant -/

/-- What is known of the functions of a program: the layout of each, and where calls go. -/
structure AssemblySound (d : Outline) (τ : Register → Ty) (asm : Assembly)
    (table : List (Function × Layout)) : Prop where
  functions : ∀ e ∈ table, FunctionSound d τ e.2 e.1
  calls : ∀ k ∈ d.functions, ∃ e ∈ table, asm.function? (functionSymbol k.name) = some e.1 ∧
    e.2.params.map Prod.snd = k.params ∧ e.2.returns = k.returns
  globals : (d.globals.map Prod.fst).Nodup

/-- Variables that all have values, of their types. -/
def Holds (vars : List (String × Ty)) (values : String → Option Immediate) : Prop :=
  ∀ x t, (x, t) ∈ vars → ∃ v, values x = some v ∧ v.Of t

section Invariant

variable (d : Outline) (τ : Register → Ty) (table : List (Function × Layout))

/-- An activation that can go on once the awaited registers are written. -/
structure ActivationSound (awaited : List Register) (layout : Layout) (a : Activation) : Prop where
  function : (a.function, layout) ∈ table
  prepared : ∃ rs, Prepared (awaited ++ rs) (a.function.code.drop a.pc) ∧
    ∀ r ∈ rs, (a.registers r).isSome
  registers : ∀ r v, a.registers r = some v → v.Of (τ r)
  slots : Holds layout.locals a.slots

/-- Activations that wait for a result of a type. -/
def WaitingSound : Ty → List (Activation × Register) → Prop
  | _, [] => True
  | t, (a, r) :: waiting => τ r = t ∧
      ∃ layout, ActivationSound τ table [r] layout a ∧ WaitingSound layout.returns waiting

/-- A state of the machine in which the program is safe. -/
def Machine.Sound : Machine → Prop
  | .running a waiting w => Holds d.globals w.globals ∧
      ∃ layout, ActivationSound τ table [] layout a ∧ WaitingSound τ table layout.returns waiting
  | .halted _ w => Holds d.globals w.globals

end Invariant

/-- A value of the right type may be put into a variable. Names are distinct, so it is the variable
of this type. -/
theorem Holds.update {vars : List (String × Ty)} {values : String → Option Immediate}
    (h : Holds vars values) (hvars : (vars.map Prod.fst).Nodup) {x : String} {t : Ty}
    (hx : (x, t) ∈ vars) {v : Immediate} (hv : v.Of t) :
    Holds vars fun y => if y = x then some v else values y := by
  intro y u hy
  -- Under distinct names a variable has one type only.
  by_cases hyx : y = x
  · subst hyx
    obtain rfl := ty_unique hvars hx hy
    exact ⟨v, if_pos rfl, hv⟩
  · obtain ⟨w, hw, hty⟩ := h y u hy
    exact ⟨w, (if_neg hyx).trans hw, hty⟩

/-- Variables with values of their types, found by name. -/
theorem holds_lookup {values : List (String × Literal)} {vars : List (String × Ty)}
    (h : (values.map fun v => (v.1, v.2.ty)) = vars) (hvars : (vars.map Prod.fst).Nodup) :
    Holds vars fun x => (values.map fun v => (v.1, Immediate.ofLiteral v.2)).lookup x := by
  intro x t hx
  obtain ⟨v, hv, hty⟩ := exists_lookup h hvars hx
  have hfound := map_lookup Immediate.ofLiteral values x
  rw [hv] at hfound
  exact ⟨.ofLiteral v, hfound.symm, v, hty, rfl⟩

section Steps

variable {d : Outline} {τ : Register → Ty} {asm : Assembly} {table : List (Function × Layout)}
  {layout : Layout} {a : Activation} {i : Instr}

/-! ## Activations -/

namespace ActivationSound

/-- The registers that are written before an instruction. -/
theorem prepared_cons (h : ActivationSound τ table [] layout a)
    (hi : a.function.code[a.pc]? = some i) :
    ∃ rs, i.reads ⊆ rs ∧ Prepared (i.written rs) (a.function.code.drop (a.pc + 1)) ∧
      ∀ r ∈ rs, (a.registers r).isSome := by
  obtain ⟨rs, hprepared, hrs⟩ := h.prepared
  obtain ⟨hlt, hget⟩ := List.getElem?_eq_some_iff.mp hi
  rw [List.drop_eq_getElem_cons hlt, hget] at hprepared
  exact ⟨rs, hprepared.1, hprepared.2, hrs⟩

/-- A value that an instruction reads. -/
theorem read {r : Register} (h : ActivationSound τ table [] layout a)
    (hi : a.function.code[a.pc]? = some i) (hr : r ∈ i.reads) :
    ∃ v, a.registers r = some v ∧ v.Of (τ r) := by
  obtain ⟨rs, hreads, -, hrs⟩ := h.prepared_cons hi
  obtain ⟨v, hv⟩ := Option.isSome_iff_exists.mp (hrs r (hreads hr))
  exact ⟨v, hv, h.registers r v hv⟩

/-- Behind an instruction that writes no register. -/
theorem next (h : ActivationSound τ table [] layout a) (hi : a.function.code[a.pc]? = some i)
    (htarget : i.target? = none) : ActivationSound τ table [] layout a.next := by
  obtain ⟨rs, -, hrest, hrs⟩ := h.prepared_cons hi
  exact ⟨h.function, ⟨rs, hrest.mono (written_of_none htarget rs), hrs⟩, h.registers, h.slots⟩

/-- Behind an instruction whose result is awaited. The register of the result is not written yet, so
the instruction behind may read it only once it is. -/
theorem await {r : Register} (h : ActivationSound τ table [] layout a)
    (hi : a.function.code[a.pc]? = some i) (htarget : i.target? = some r) :
    ActivationSound τ table [r] layout a.next := by
  obtain ⟨rs, -, hrest, hrs⟩ := h.prepared_cons hi
  rw [written_of_target htarget] at hrest
  exact ⟨h.function, ⟨rs, hrest, hrs⟩, h.registers, h.slots⟩

/-- The result that was awaited comes. It is written to the register that was named when the
activation began to wait, and from here on the register may be read. -/
theorem write {r : Register} {v : Immediate} (h : ActivationSound τ table [r] layout a)
    (hv : v.Of (τ r)) : ActivationSound τ table [] layout (a.write r v) := by
  obtain ⟨rs, hrest, hrs⟩ := h.prepared
  refine ⟨h.function, ⟨r :: rs, hrest, ?_⟩, ?_, h.slots⟩
  · intro x hx
    by_cases hxr : x = r
    · simp [Activation.write, hxr]
    · have hx := hrs x ((List.mem_cons.mp hx).resolve_left hxr)
      simpa [Activation.write, Function.update_of_ne hxr] using hx
  · intro x w hw
    by_cases hxr : x = r
    · subst hxr
      obtain rfl : v = w := by simpa [Activation.write] using hw
      exact hv
    · refine h.registers x w ?_
      simpa [Activation.write, Function.update_of_ne hxr] using hw

/-- At a label of the function. -/
theorem goto (h : ActivationSound τ table [] layout a) (hclosed : Closed a.function.code)
    {l : Label} {b : Activation} (hb : a.goto l = some b) :
    ActivationSound τ table [] layout b := by
  obtain ⟨k, hk, rfl⟩ := Option.map_eq_some_iff.mp hb
  have hlabel : a.function.code[k]? = some (.label l) := by
    obtain ⟨hlt, heq, -⟩ := List.findIdx?_eq_some_iff_getElem.mp hk
    rw [List.getElem?_eq_getElem hlt]
    simpa using heq
  exact ⟨h.function, ⟨[], (hclosed.prepared []).of_label hlabel, by simp⟩, h.registers, h.slots⟩

/-- At the start of a function, with arguments of the types of its parameters. All registers are
empty, and no instruction at the start needs one. -/
theorem enter {g : Function} (hmem : (g, layout) ∈ table) (hg : FunctionSound d τ layout g)
    {vs : List Literal} (hvs : vs.map Literal.ty = layout.params.map Prod.snd) :
    ActivationSound τ table [] layout (g.enter (vs.map .ofLiteral)) := by
  refine ⟨hmem, ⟨[], hg.closed.prepared [], by simp⟩, nofun, ?_⟩
  have hargs : (g.params.map Prod.fst).zip (vs.map Immediate.ofLiteral) =
      ((layout.params.map Prod.fst).zip vs).map fun v => (v.1, .ofLiteral v.2) := by
    rw [hg.params, map_fst_machineVar]
    exact List.zip_map_right
  have hzeros : ((slotsOf g.code).map fun v => (v.1, Immediate.zero v.2)) =
      (layout.declared.map fun v => (v.1, Literal.zero v.2)).map
        fun v => (v.1, .ofLiteral v.2) := by
    rw [hg.slots, map_zero_ofLiteral]
  have htypes : (((layout.params.map Prod.fst).zip vs ++ layout.declared.map fun v =>
      (v.1, Literal.zero v.2)).map fun v => (v.1, v.2.ty)) = layout.locals := by
    rw [List.map_append, map_zip_ty hvs, map_zero_ty, Layout.locals]
  have hholds := holds_lookup htypes hg.distinct
  rw [List.map_append, ← hargs, ← hzeros] at hholds
  exact hholds

end ActivationSound

/-! ## Instructions -/

/-- The values of arguments. They are literals of the types of their registers, as the parameters of
the callee ask for. -/
theorem exists_arguments {rs : List Register} {vs : List Immediate}
    {registers : Register → Option Immediate} (h : rs.mapM registers = some vs)
    (hregisters : ∀ r v, registers r = some v → v.Of (τ r)) :
    ∃ ws : List Literal, vs = ws.map .ofLiteral ∧ ws.map Literal.ty = rs.map τ := by
  induction rs generalizing vs with
  | nil =>
    obtain rfl := Option.some.inj h
    exact ⟨[], rfl, rfl⟩
  | cons r rs ih =>
    rw [List.mapM_cons] at h
    obtain ⟨v, hv, h⟩ := Option.bind_eq_some_iff.mp h
    obtain ⟨vs, hvs, h⟩ := Option.bind_eq_some_iff.mp h
    obtain rfl := Option.some.inj h
    obtain ⟨w, hw, rfl⟩ := hregisters r v hv
    obtain ⟨ws, rfl, hws⟩ := ih hvs
    exact ⟨w :: ws, rfl, by rw [List.map_cons, List.map_cons, hw, hws]⟩

variable {waiting : List (Activation × Register)} {w : World Immediate} {m : Machine}

/-- The value at a location. -/
theorem exists_fetch {loc : Location} {t : Ty} (hslots : Holds layout.locals a.slots)
    (hw : Holds d.globals w.globals) (hloc : loc.Of d layout.locals t) :
    ∃ v, a.fetch w loc = some v ∧ v.Of t := by
  cases loc with
  | frame x => exact hslots x t hloc
  | global x => exact hw x t hloc

/-- A result of the type that is waited for is given back. -/
theorem sound_deliver {t : Ty} {v : Immediate} (hwaiting : WaitingSound τ table t waiting)
    (hw : Holds d.globals w.globals) (hv : v.Of t) :
    (deliver v waiting w).Sound d τ table := by
  cases waiting with
  | nil => exact hw
  | cons caller waiting =>
    -- The caller waits for just one register, and with it written it can go on.
    obtain ⟨a, r⟩ := caller
    obtain ⟨rfl, layout, ha, hrest⟩ := hwaiting
    exact ⟨hw, layout, ha.write hv, hrest⟩

variable {A : Arithmetic}

/-- **An instruction keeps the invariant.** One case for each instruction: its soundness says that
out of values of the types of its operands it makes one of the type of its target. A call opens an
activation that suits the layout of the callee, and a return goes back to one that waits. -/
theorem sound_execute (hasm : AssemblySound d τ asm table)
    (h : (Machine.running a waiting w).Sound d τ table)
    (hi : a.function.code[a.pc]? = some i) (hm : execute A asm a waiting w i = some m) :
    m.Sound d τ table := by
  obtain ⟨hw, layout, ha, hwaiting⟩ := h
  have hfunction := hasm.functions _ ha.function
  have hsound := hfunction.instrs i (List.mem_of_getElem? hi)
  -- What instructions do that only compute a value.
  have hwrite : ∀ {r : Register} {v : Immediate}, i.target? = some r → v.Of (τ r) →
      (Machine.running (a.write r v).next waiting w).Sound d τ table :=
    fun htarget hv => ⟨hw, layout, (ha.await hi htarget).write hv, hwaiting⟩
  have hnext : i.target? = none → (Machine.running a.next waiting w).Sound d τ table :=
    fun htarget => ⟨hw, layout, ha.next hi htarget, hwaiting⟩
  cases i with
  | move v t =>
    obtain rfl := Option.some.inj hm
    exact hwrite rfl hsound
  | arith op ty l r t =>
    obtain ⟨x, hx, hm⟩ := Option.bind_eq_some_iff.mp hm
    obtain ⟨y, hy, hm⟩ := Option.bind_eq_some_iff.mp hm
    obtain ⟨v, hv, hm⟩ := Option.bind_eq_some_iff.mp hm
    obtain rfl := Option.some.inj hm
    obtain ⟨rule, rfl⟩ := hsound
    exact hwrite rfl (of_binaryOn rule (ha.registers l x hx) (ha.registers r y hy) hv)
  | bitwise op l r t =>
    obtain ⟨x, hx, hm⟩ := Option.bind_eq_some_iff.mp hm
    obtain ⟨y, hy, hm⟩ := Option.bind_eq_some_iff.mp hm
    obtain ⟨v, hv, hm⟩ := Option.bind_eq_some_iff.mp hm
    obtain rfl := Option.some.inj hm
    obtain ⟨hl, hr, ht⟩ := hsound
    have hxv := ha.registers l x hx
    have hyv := ha.registers r y hy
    rw [hl] at hxv
    rw [hr] at hyv
    exact hwrite rfl (ht ▸ of_bitOn hxv hyv hv)
  | compare op ty l r t =>
    obtain ⟨x, hx, hm⟩ := Option.bind_eq_some_iff.mp hm
    obtain ⟨y, hy, hm⟩ := Option.bind_eq_some_iff.mp hm
    obtain ⟨v, hv, hm⟩ := Option.bind_eq_some_iff.mp hm
    obtain rfl := Option.some.inj hm
    obtain ⟨rule, rfl⟩ := hsound
    exact hwrite rfl (of_binaryOn rule (ha.registers l x hx) (ha.registers r y hy) hv)
  | global | alloc | label =>
    obtain rfl := Option.some.inj hm
    exact hnext rfl
  | load ty source t =>
    obtain ⟨v, hv, hm⟩ := Option.bind_eq_some_iff.mp hm
    obtain ⟨-, ⟨⟩⟩ := Option.ite_none_right_eq_some.mp hm
    obtain ⟨v', hv', hof⟩ := exists_fetch ha.slots hw hsound.1
    obtain rfl := Option.some.inj (hv.symm.trans hv')
    exact hwrite rfl hof
  | store ty r target =>
    obtain ⟨v, hv, hm⟩ := Option.bind_eq_some_iff.mp hm
    obtain ⟨-, hm⟩ := Option.ite_none_right_eq_some.mp hm
    obtain ⟨hloc, -⟩ := hsound
    have hof := ha.registers r v hv
    have hbehind := ha.next hi rfl
    cases target with
    | frame x =>
      obtain ⟨-, ⟨⟩⟩ := Option.ite_none_right_eq_some.mp hm
      exact ⟨hw, layout, ⟨hbehind.function, hbehind.prepared, hbehind.registers,
        hbehind.slots.update hfunction.distinct hloc hof⟩, hwaiting⟩
    | global x =>
      obtain ⟨-, ⟨⟩⟩ := Option.ite_none_right_eq_some.mp hm
      exact ⟨hw.update hasm.globals hloc hof, layout, hbehind, hwaiting⟩
  | print ty r =>
    obtain ⟨v, -, hm⟩ := Option.bind_eq_some_iff.mp hm
    obtain ⟨-, ⟨⟩⟩ := Option.ite_none_right_eq_some.mp hm
    exact hnext rfl
  | jump l =>
    obtain ⟨b, hb, hm⟩ := Option.bind_eq_some_iff.mp hm
    obtain rfl := Option.some.inj hm
    exact ⟨hw, layout, ha.goto hfunction.closed hb, hwaiting⟩
  | branch c ifTrue ifFalse =>
    obtain ⟨v, -, hm⟩ := Option.bind_eq_some_iff.mp hm
    split at hm
    · obtain ⟨b, hb, hm⟩ := Option.bind_eq_some_iff.mp hm
      obtain rfl := Option.some.inj hm
      exact ⟨hw, layout, ha.goto hfunction.closed hb, hwaiting⟩
    · cases hm
  | call f arguments t =>
    obtain ⟨g, hg, hm⟩ := Option.bind_eq_some_iff.mp hm
    obtain ⟨vs, hvs, hm⟩ := Option.bind_eq_some_iff.mp hm
    obtain ⟨-, ⟨⟩⟩ := Option.ite_none_right_eq_some.mp hm
    obtain ⟨k, hk, rfl, hargs, htarget⟩ := hsound
    obtain ⟨⟨g', callee⟩, hmem, hfound, hparams, hreturns⟩ := hasm.calls k hk
    obtain rfl := Option.some.inj (hg.symm.trans hfound)
    obtain ⟨ws, rfl, hws⟩ := exists_arguments hvs ha.registers
    -- The caller waits for a result of the type of its target.
    refine ⟨hw, callee, .enter hmem (hasm.functions _ hmem) ?_, ?_, layout, ha.await hi rfl,
      hwaiting⟩
    · rw [hws, hargs, hparams]
    · rw [htarget, hreturns]
  | ret ty r =>
    obtain ⟨v, hv, hm⟩ := Option.bind_eq_some_iff.mp hm
    obtain ⟨-, ⟨⟩⟩ := Option.ite_none_right_eq_some.mp hm
    obtain ⟨-, hreturns⟩ := hsound
    refine sound_deliver hwaiting hw ?_
    rw [Option.some.inj hreturns]
    exact ha.registers r v hv

/-- **A step keeps the invariant.** A step is an instruction, or the end of a function that has none
left. -/
theorem sound_step (hasm : AssemblySound d τ asm table) {m' : Machine}
    (h : m.Sound d τ table) (hm : step A asm m = some m') : m'.Sound d τ table := by
  cases m with
  | halted v w => cases hm
  | running a waiting w =>
    simp only [step] at hm
    split at hm
    · next i hi => exact sound_execute hasm h hi hm
    · -- At the end of its instructions a function returns the zero of its type.
      obtain rfl := Option.some.inj hm
      obtain ⟨hw, layout, ha, hwaiting⟩ := h
      refine sound_deliver hwaiting hw ?_
      rw [(hasm.functions _ ha.function).returns]
      exact of_zero _

/-- **A run keeps the invariant**, however long it is. By induction on the number of steps. -/
theorem sound_steps (hasm : AssemblySound d τ asm table) {n : Nat} {m' : Machine}
    (h : m.Sound d τ table) (hm : steps A asm n m = some m') : m'.Sound d τ table := by
  induction n generalizing m with
  | zero =>
    obtain rfl := Option.some.inj hm
    exact h
  | succ n ih =>
    rw [steps_succ, Option.bind_eq_some_iff] at hm
    obtain ⟨m'', hstep, hrest⟩ := hm
    exact ih (sound_step hasm h hstep) hrest

/-! ## Safety -/

/-- An instruction that an activation can run: the registers it reads are written, the location it
accesses exists, the labels it may go to are in the function, and the function it calls exists. -/
structure Ready (asm : Assembly) (a : Activation) (w : World Immediate) (i : Instr) : Prop where
  reads : ∀ r ∈ i.reads, (a.registers r).isSome
  access : ∀ loc ty, i.access? = some (loc, ty) → (a.fetch w loc).isSome
  jumps : ∀ l ∈ i.jumps, .label l ∈ a.function.code
  calls : ∀ f arguments r, i.call? = some (f, arguments, r) → (asm.function? f).isSome

/-- A label that is defined is defined by an instruction. -/
theorem label_mem {code : List Instr} {l : Label} (h : l ∈ labelsOf code) : .label l ∈ code := by
  obtain ⟨i, hi, hl⟩ := List.mem_filterMap.mp h
  cases i <;> cases hl
  exact hi

/-- In the invariant the next instruction can run: what it reads, where it goes and what it calls is
all there. -/
theorem ActivationSound.ready (hasm : AssemblySound d τ asm table)
    (h : ActivationSound τ table [] layout a) (hw : Holds d.globals w.globals)
    (hi : a.function.code[a.pc]? = some i) : Ready asm a w i := by
  have hmem := List.mem_of_getElem? hi
  have hfunction := hasm.functions _ h.function
  have hsound := hfunction.instrs i hmem
  refine ⟨?_, ?_, ?_, ?_⟩
  -- A register that is read was written before, on every way to the instruction.
  · intro r hr
    obtain ⟨v, hv, -⟩ := h.read hi hr
    exact Option.isSome_iff_exists.mpr ⟨v, hv⟩
  · have hfetch : ∀ {loc : Location} {t : Ty}, loc.Of d layout.locals t →
        (a.fetch w loc).isSome := by
      intro loc t hloc
      obtain ⟨v, hv, -⟩ := exists_fetch h.slots hw hloc
      exact Option.isSome_iff_exists.mpr ⟨v, hv⟩
    intro loc ty hacc
    cases i with
    | load ty source t =>
      cases hacc
      exact hfetch hsound.1
    | store ty r target =>
      cases hacc
      exact hfetch hsound.1
    | _ => cases hacc
  · intro l hl
    exact label_mem (hfunction.closed.jumps (List.mem_flatMap.mpr ⟨i, hmem, hl⟩))
  · intro f arguments r hcall
    cases i with
    | call f arguments r =>
      cases hcall
      obtain ⟨k, hk, rfl, -⟩ := hsound
      obtain ⟨e, -, hfound, -⟩ := hasm.calls k hk
      exact Option.isSome_iff_exists.mpr ⟨e.1, hfound⟩
    | _ => cases hcall

/-! ## Zero and one -/

/-- Zero or one. -/
def Immediate.IsBit (v : Immediate) : Prop := v = .int 0 ∨ v = .int 1

/-- Truth values are zero or one. -/
theorem Immediate.Of.isBit {v : Immediate} (h : v.Of .bool) : v.IsBit := by
  obtain ⟨w, hw, rfl⟩ := h
  obtain ⟨b, rfl⟩ := exists_bool hw
  cases b
  · exact .inl rfl
  · exact .inr rfl

/-- The value that an activation is about to return. -/
def Activation.result? (a : Activation) : Option Immediate :=
  match a.function.code[a.pc]? with
  | some (.ret _ r) => a.registers r
  | some _ => none
  | none => some (.zero a.function.returns)

/-- Truth values are zero or one in an activation of a program: in the registers that carry them, in
the variables of the function, and in the result of it. -/
structure Activation.TruthBits (p : CheckedProgram) (a : Activation) : Prop where
  registers : ∀ r v, (r, some .bool) ∈ p.carriers → a.registers r = some v → v.IsBit
  slots : ∀ f ∈ p.functions, a.function.name = functionSymbol f.name →
    ∀ x, (x, .bool) ∈ f.layout.locals → ∃ v, a.slots x = some v ∧ v.IsBit
  result : ∀ f ∈ p.functions, a.function.name = functionSymbol f.name → f.result = .bool →
    ∀ v, a.result? = some v → v.IsBit

/-- A variable of type `bool` holds zero or one. -/
theorem Holds.isBit {vars : List (String × Ty)} {values : String → Option Immediate}
    (h : Holds vars values) {x : String} (hx : (x, .bool) ∈ vars) :
    ∃ v, values x = some v ∧ v.IsBit := by
  obtain ⟨v, hv, hof⟩ := h x .bool hx
  exact ⟨v, hv, hof.isBit⟩

/-- What an activation is about to return is of the type of its function. Whether it is a value in a
register or the zero at the end of the instructions. -/
theorem ActivationSound.result (hasm : AssemblySound d τ asm table) {awaited : List Register}
    (h : ActivationSound τ table awaited layout a) {v : Immediate} (hv : a.result? = some v) :
    v.Of layout.returns := by
  have hfunction := hasm.functions _ h.function
  unfold Activation.result? at hv
  split at hv
  -- A `return` gives a register, and the end of the instructions the zero of the type.
  · next ty r hi =>
    obtain ⟨-, hreturns⟩ := hfunction.instrs _ (List.mem_of_getElem? hi)
    rw [Option.some.inj hreturns]
    exact h.registers r v hv
  · cases hv
  · obtain rfl := Option.some.inj hv
    rw [hfunction.returns]
    exact of_zero _

/-- The layouts in a table are those of the functions of a program. -/
structure TableOf (p : CheckedProgram) (τ : Register → Ty) (table : List (Function × Layout)) :
    Prop where
  layouts : ∀ e ∈ table, ∀ f ∈ p.functions, e.1.name = functionSymbol f.name → e.2 = f.layout
  carriers : ∀ c ∈ p.carriers, c.2 = some (τ c.1)

/-- In the invariant truth values are zero or one in each activation. Every register that carries
an expression has the type of this expression, and so have the variables and the result of a
function. -/
theorem ActivationSound.truthBits {p : CheckedProgram} (hasm : AssemblySound d τ asm table)
    (hp : TableOf p τ table) {awaited : List Register}
    (h : ActivationSound τ table awaited layout a) : a.TruthBits p := by
  refine ⟨?_, ?_, ?_⟩
  · intro r v hr hv
    have hty := Option.some.inj (hp.carriers _ hr)
    have hof := h.registers r v hv
    rw [← hty] at hof
    exact hof.isBit
  · intro f hf hname x hx
    rw [← hp.layouts _ h.function f hf hname] at hx
    exact h.slots.isBit hx
  · intro f hf hname hbool v hv
    have hof := h.result hasm hv
    have hlayout : layout.returns = f.result :=
      congrArg Layout.returns (hp.layouts _ h.function f hf hname)
    rw [hlayout, hbool] at hof
    exact hof.isBit

/-- The activations of a machine. -/
def Machine.activations : Machine → List Activation
  | .running a waiting _ => a :: waiting.map Prod.fst
  | .halted _ _ => []

/-- Every activation that waits is sound, for its own function and the register it waits for. -/
theorem WaitingSound.mem {t : Ty} (h : WaitingSound τ table t waiting)
    (ha : a ∈ waiting.map Prod.fst) :
    ∃ awaited layout, ActivationSound τ table awaited layout a := by
  induction waiting generalizing t with
  | nil => cases ha
  | cons caller waiting ih =>
    obtain ⟨b, r⟩ := caller
    obtain ⟨-, layout, hb, hrest⟩ := h
    rcases List.mem_cons.mp ha with rfl | ha
    · exact ⟨[r], layout, hb⟩
    · exact ih hrest ha

/-- Every activation of a sound machine is sound, the running one and those that wait. -/
theorem Machine.Sound.mem (h : m.Sound d τ table) (ha : a ∈ m.activations) :
    ∃ awaited layout, ActivationSound τ table awaited layout a := by
  cases m with
  | halted v w => cases ha
  | running top waiting w =>
    obtain ⟨-, layout, htop, hwaiting⟩ := h
    rcases List.mem_cons.mp ha with rfl | ha
    · exact ⟨[], layout, htop⟩
    · exact hwaiting.mem ha

/-- In a sound machine the variables of the program have values of their types. -/
theorem Machine.Sound.globals (h : m.Sound d τ table) : Holds d.globals m.world.globals := by
  cases m with
  | halted v w => exact h
  | running top waiting w => exact h.1

end Steps

/-! ## Programs -/

section Programs

variable {p : CheckedProgram} {d : Outline} {init : Lowered Function}
  {rest : Lowered (List Function)}

/-- Under distinct names, the functions of a program and their layouts. The functions of the code
are those of the program with the one for the statements outside in front, so the two lists are
paired by position. -/
theorem exists_table (hp : TypedProgram p d)
    (hinit : lowerInit p.globalStatements .initial = some init)
    (hrest : lowerFunctions p.functions init.next = some rest)
    (hnames : ((init.value :: rest.value).map Function.name).Nodup) :
    ∃ (τ : Register → Ty) (table : List (Function × Layout)),
      AssemblySound d τ ⟨init.value :: rest.value⟩ table ∧ TableOf p τ table ∧
      table.map Prod.fst = init.value :: rest.value ∧ (init.value, .init) ∈ table := by
  obtain ⟨τ, hfirst, hfs, hcarriers⟩ := exists_sound hp hinit hrest
  obtain ⟨hlength, hsound⟩ := List.forall₂_iff_zip.mp hfs
  let table := (init.value, Layout.init) ::
    (p.functions.zip rest.value).map fun e => (e.2, e.1.layout)
  have hfunctions : ∀ e ∈ table, FunctionSound d τ e.2 e.1 := by
    intro e he
    rcases List.mem_cons.mp he with rfl | he
    · exact hfirst
    · obtain ⟨⟨f, g⟩, hfg, rfl⟩ := List.mem_map.mp he
      exact hsound hfg
  have hmem : ∀ f g, (f, g) ∈ p.functions.zip rest.value → (g, f.layout) ∈ table :=
    fun f g hfg => List.mem_cons_of_mem _ (List.mem_map.mpr ⟨(f, g), hfg, rfl⟩)
  have hfst : table.map Prod.fst = init.value :: rest.value := by
    have hsnd : (p.functions.zip rest.value).map Prod.snd = rest.value :=
      List.map_snd_zip (by omega)
    rw [List.map_cons, List.map_map]
    exact congrArg (List.cons init.value) hsnd
  refine ⟨τ, table, ⟨hfunctions, ?_, hp.distinct⟩, ⟨?_, hcarriers⟩, hfst, List.mem_cons_self⟩
  -- A callable function is the one of its name, and its layout is that of its types.
  · intro k hk
    obtain ⟨f, g, hfg, hfk, hg⟩ := exists_mem_zip hp.functions hfs hk
    obtain ⟨hf, hgmem⟩ := List.of_mem_zip hfg
    obtain ⟨k', vars, htyped⟩ := hp.function_typed f hf
    obtain rfl : k' = k :=
      List.inj_on_of_nodup_map hp.names htyped.declared hk (htyped.name.symm.trans hfk.name)
    refine ⟨(g, f.layout), hmem f g hfg, ?_, ?_, ?_⟩
    · have hname : g.name = functionSymbol k'.name := by
        rw [hg.name, ← hfk.name]
        rfl
      rw [← hname]
      exact find?_eq_some hnames (List.mem_cons_of_mem _ hgmem)
    · rw [← htyped.types, ← htyped.vars_eq]
      rfl
    · exact htyped.result_eq
  · -- The names in the code are distinct, so a function of the code has one layout.
    intro e he f hf hname
    have hzip : (p.functions.zip rest.value).map Prod.fst = p.functions :=
      List.map_fst_zip (by omega)
    rw [← hzip] at hf
    obtain ⟨⟨f, g⟩, hfg, rfl⟩ := List.mem_map.mp hf
    have hnodup : (table.map fun e => e.1.name).Nodup := by
      have hmap : (table.map fun e => e.1.name) = (table.map Prod.fst).map Function.name := by
        rw [List.map_map]
        rfl
      rw [hmap, hfst]
      exact hnames
    have heq := List.inj_on_of_nodup_map hnodup he (hmem f g hfg)
      (hname.trans (hsound hfg).name.symm)
    exact congrArg Prod.snd heq

/-- The machine starts in the invariant. The registers are empty, the first instruction needs none,
and the variables of the program are zero. -/
theorem sound_start {τ : Register → Ty} {table : List (Function × Layout)} {asm : Assembly}
    (hasm : AssemblySound d τ asm table) (hglobals : asm.globals = d.globals.map machineVar)
    {g : Function} (hg : (g, .init) ∈ table) : (asm.start g).Sound d τ table := by
  have hfirst := hasm.functions _ hg
  have hnone : ([] : List Literal).map Literal.ty = Layout.init.params.map Prod.snd := rfl
  have henter := ActivationSound.enter hg hfirst hnone
  refine ⟨?_, .init, henter, trivial⟩
  have hholds := holds_lookup (map_zero_ty d.globals) hasm.globals
  rw [map_zero_ofLiteral, ← hglobals] at hholds
  exact hholds

/-- A state of the machine that runs the code of a program: the next instruction can run, and truth
values are zero or one, in calls and in the variables of the program. -/
structure Machine.Safe (p : CheckedProgram) (asm : Assembly) (m : Machine) : Prop where
  ready : ∀ a waiting w i, m = .running a waiting w → a.function.code[a.pc]? = some i →
    Ready asm a w i
  functions : ∀ a ∈ m.activations, a.function ∈ asm.functions
  activations : ∀ a ∈ m.activations, a.TruthBits p
  globals : ∀ x, (x, .bool) ∈ declarationsOf p.body → ∃ v, m.world.globals x = some v ∧ v.IsBit

/-- **The invariant makes a state safe.** The next instruction finds what it reads, every function
that runs is one of the program, and truth values are zero or one, in registers, in variables and in
results. -/
theorem Machine.Sound.safe {τ : Register → Ty} {table : List (Function × Layout)} {asm : Assembly}
    {m : Machine} (h : m.Sound d τ table) (hasm : AssemblySound d τ asm table)
    (htable : TableOf p τ table) (hfunctions : table.map Prod.fst = asm.functions)
    (hglobals : d.globals = declarationsOf p.body) : m.Safe p asm := by
  refine ⟨?_, ?_, ?_, ?_⟩
  · rintro a waiting w i rfl hi
    obtain ⟨hw, layout, ha, -⟩ := h
    exact ha.ready hasm hw hi
  · intro a ha
    obtain ⟨awaited, layout, hactivation⟩ := h.mem ha
    rw [← hfunctions]
    exact List.mem_map_of_mem (f := Prod.fst) hactivation.function
  · intro a ha
    obtain ⟨awaited, layout, hactivation⟩ := h.mem ha
    exact hactivation.truthBits hasm htable
  · intro x hx
    rw [← hglobals] at hx
    exact h.globals.isBit hx

end Programs

end Code

open Code

/-- **Generated code is safe to run.** Every program without diagnostics has code. The machine that
starts on its first function, with any arithmetic, comes only to safe states, however long it runs:
the next instruction reads registers that were written, accesses locations that exist, goes to
labels of its function and calls functions that exist, and truth values are zero or one in the
registers that carry them, in variables and in results. Calls in the code go by name, so the names
have to be distinct; `nodup_names_iff` says of which programs they are. -/
theorem generate_runs_safely (A : Arithmetic) (p : Program) (h : p.analyze.diagnostics = []) :
    ∃ init rest, generate p.analyze = .ok ⟨init :: rest⟩ ∧
      (((init :: rest).map Function.name).Nodup →
        ∀ n m, steps A ⟨init :: rest⟩ n (Assembly.start ⟨init :: rest⟩ init) = some m →
          m.Safe p.analyze.program ⟨init :: rest⟩) := by
  obtain ⟨d, hd⟩ := typedProgram_of_clean p h
  obtain ⟨init, rest, hinit, hrest, hasm⟩ := exists_generate h hd
  refine ⟨init.value, rest.value, hasm, fun hnames n m hm => ?_⟩
  obtain ⟨τ, table, hsound, htable, hfst, hmem⟩ := exists_table hd hinit hrest hnames
  have hglobals := globals_of_lowerProgram hinit hrest
  rw [CheckedProgram.declarationsOf_globalStatements, ← hd.globals] at hglobals
  have hstate := sound_steps hsound (sound_start hsound hglobals hmem) hm
  exact hstate.safe hsound htable hfst hd.globals

/-- A truth value that goes through a parameter, an operator, a variable of a call, a result and a
variable of the program. -/
def flipping : Program :=
  let here : Span := ⟨.nowhere, .nowhere⟩
  let bool : TypeName := ⟨"bool", here⟩
  let flip : Stmt := .function here "flip" [⟨"b", bool, here⟩] bool [
    .const here "c" (.unary here .not (.read here "b")),
    .ret here (.read here "c")]
  { span := here
    body := [flip, .const here "seen" (.call here "flip" [.literal here (.bool true)]),
      .print here (.read here "seen")] }

/-- Eight steps into the program, a call is about to return the truth value and the statements
outside of functions wait for it. -/
theorem flipping_runs_safely : flipping.analyze.diagnostics = [] ∧
    ∃ init rest, generate flipping.analyze = .ok ⟨init :: rest⟩ ∧
      ((init :: rest).map Function.name).Nodup ∧
      ∃ m, steps wrapping ⟨init :: rest⟩ 8 (Assembly.start ⟨init :: rest⟩ init) = some m ∧
        m.activations.map Activation.result? = [some (.int 0), none] ∧
        m.Safe flipping.analyze.program ⟨init :: rest⟩ := by
  have hclean : flipping.analyze.diagnostics = [] := by decide
  obtain ⟨init, rest, hasm, hsafe⟩ := generate_runs_safely wrapping flipping hclean
  have hnames : ((init :: rest).map Function.name).Nodup :=
    (nodup_names_iff hasm).mpr (by decide)
  have hcode : generate flipping.analyze = .ok ⟨[
      ⟨initName, [], .int, [.move (.int 1) ⟨1⟩, .call "flip" [⟨1⟩] ⟨2⟩, .global .int "seen",
        .store .int ⟨2⟩ (.global "seen"), .load .int (.global "seen") ⟨3⟩, .print .int ⟨3⟩,
        .move (.int 0) ⟨4⟩, .ret .int ⟨4⟩]⟩,
      ⟨"flip", [("b", .int)], .int, [.load .int (.frame "b") ⟨5⟩, .move (.int 1) ⟨6⟩,
        .bitwise .xor ⟨6⟩ ⟨5⟩ ⟨7⟩, .alloc .int "c", .store .int ⟨7⟩ (.frame "c"),
        .load .int (.frame "c") ⟨8⟩, .ret .int ⟨8⟩]⟩]⟩ := by decide +kernel
  obtain ⟨rfl, rfl⟩ : _ ∧ _ := by simpa using hasm.symm.trans hcode
  -- After eight steps the call is about to return.
  exact ⟨hclean, _, _, hasm, hnames, _, rfl, rfl, hsafe hnames 8 _ rfl⟩

end Pulse

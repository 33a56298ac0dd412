/-
Generated programs mean what their sources mean.

Statements are followed by the machine as long as calls are. A call with a larger bound runs a body
with calls of a smaller one, so calls are followed by induction on the bound. What remains is the
program: its statements outside of functions are followed from the start, and so is a function that
is called behind them.

The source has a behaviour, and the machine is deterministic. So the behaviour that the machine
follows is the only one that it has, and nothing has to be said about its other runs.
-/
import Pulse.Proofs.FunctionSymbols
import Pulse.Proofs.Preservation

set_option autoImplicit false

namespace Pulse

namespace Code

open Rules Run CheckedStmt

/-! ## Finding by name -/

/-- Under distinct names, what is bound to a name is found. -/
theorem lookup_eq_some {α : Type} {vs : List (String × α)} (h : (vs.map Prod.fst).Nodup)
    {x : String} {a : α} (hx : (x, a) ∈ vs) : vs.lookup x = some a := by
  obtain ⟨before, after, rfl⟩ := List.append_of_mem hx
  rw [List.map_append, List.map_cons, List.nodup_append] at h
  rw [List.lookup_eq_some_iff]
  refine ⟨before, after, rfl, ?_⟩
  intro v hv
  have hne := h.2.2 v.1 (List.mem_map_of_mem hv) x List.mem_cons_self
  simpa using Ne.symm hne

/-- Looking up and then changing what was found, or the other way round. -/
theorem map_lookup {α β : Type} (f : α → β) (vs : List (String × α)) (x : String) :
    (vs.lookup x).map f = (vs.map fun v => (v.1, f v.2)).lookup x := by
  induction vs with
  | nil => rfl
  | cons v vs ih =>
    obtain ⟨y, a⟩ := v
    by_cases hxy : x = y
    · simp [hxy]
    · have hne : (x == y) = false := by simpa using hxy
      rw [List.map_cons, List.lookup_cons, List.lookup_cons, hne]
      exact ih

/-! ## Memories with new variables -/

/-- Variables that are bound to values of their types. -/
theorem exists_lookup {values : List (String × Literal)} {vars : List (String × Ty)}
    (h : (values.map fun v => (v.1, v.2.ty)) = vars) (hvars : (vars.map Prod.fst).Nodup)
    {x : String} {t : Ty} (hx : (x, t) ∈ vars) : ∃ v, values.lookup x = some v ∧ v.ty = t := by
  subst h
  obtain ⟨⟨y, v⟩, hv, heq⟩ := List.mem_map.mp hx
  obtain ⟨rfl, rfl⟩ := Prod.mk.inj heq
  rw [List.map_map] at hvars
  exact ⟨v, lookup_eq_some hvars hv, rfl⟩

/-- Zeros have the types of their variables. -/
theorem map_zero_ty (vars : List (String × Ty)) :
    ((vars.map fun v => (v.1, Literal.zero v.2)).map fun v => (v.1, v.2.ty)) = vars := by
  rw [List.map_map]
  conv_rhs => rw [← List.map_id vars]
  apply List.map_congr_left
  intro v _
  exact Prod.ext rfl (zero_ty v.2)

/-- Zeros in the machine. -/
theorem map_zero_ofLiteral (vars : List (String × Ty)) :
    ((vars.map fun v => (v.1, Literal.zero v.2)).map fun v => (v.1, Immediate.ofLiteral v.2)) =
      (vars.map machineVar).map fun v => (v.1, Immediate.zero v.2) := by
  rw [List.map_map, List.map_map]
  apply List.map_congr_left
  intro v _
  exact Prod.ext rfl (ofLiteral_zero v.2)

/-- Arguments have the types of the parameters. -/
theorem map_zip_ty {vars : List (String × Ty)} {vs : List Literal}
    (h : vs.map Literal.ty = vars.map Prod.snd) :
    (((vars.map Prod.fst).zip vs).map fun v => (v.1, v.2.ty)) = vars := by
  have hzip : (fun v : String × Literal => (v.1, v.2.ty)) = Prod.map id Literal.ty := rfl
  rw [hzip, ← List.zip_map_right, h, ← List.unzip_fst, ← List.unzip_snd, List.zip_unzip]

/-! ## New calls -/

/-- The code of a function, next to the function and its callee. -/
structure FunctionBody (d : Outline) (k : Callee) (f : CheckedFunction)
    (vars : List (String × Ty)) (g : Function) : Prop where
  typed : TypedFunction d f k vars
  params : g.params = vars.map machineVar
  returns : g.returns = .ofTy k.returns
  lowered : ∃ (s : Supply) (a : Lowered Unit),
    lowerBlock f.body { s with frame := some (vars.map Prod.fst) } = some a ∧ a.code = g.code

section FunctionBody

variable {d : Outline} {k : Callee} {f : CheckedFunction} {vars : List (String × Ty)}
  {g : Function}

/-- All variables of a call have distinct names, parameters and declared ones. -/
theorem FunctionBody.distinct (h : FunctionBody d k f vars g) :
    ((vars ++ declarationsOf f.body).map Prod.fst).Nodup :=
  h.typed.body.distinct h.typed.distinct

/-- The labels of a function are distinct, so a jump comes to one place. -/
theorem FunctionBody.labels (h : FunctionBody d k f vars g) : (labelsOf g.code).Nodup := by
  obtain ⟨s, a, ha, hcode⟩ := h.lowered
  rw [← hcode]
  exact (labels_of_lowerBlock _ ha).distinct

/-- The storage that the code makes is that of the declared variables. -/
theorem FunctionBody.slots (h : FunctionBody d k f vars g) :
    slotsOf g.code = (declarationsOf f.body).map machineVar := by
  obtain ⟨s, a, ha, hcode⟩ := h.lowered
  rw [← hcode]
  exact (stores_of_lowerBlock _ ha).slots

/-- The machine enters a function with the variables of the new call. -/
theorem FunctionBody.enter (h : FunctionBody d k f vars g) (vs : List Literal) :
    g.enter (vs.map .ofLiteral) =
      ⟨g, 0, fun _ => none, fun x => (f.enter vs x).map .ofLiteral⟩ := by
  have hargs : (((vars.map Prod.fst).zip vs).map fun v => (v.1, Immediate.ofLiteral v.2)) =
      (vars.map Prod.fst).zip (vs.map .ofLiteral) := List.zip_map_right.symm
  unfold Function.enter CheckedFunction.enter
  congr
  funext x
  rw [map_lookup, List.map_append, h.typed.vars_eq, hargs, map_zero_ofLiteral, h.params, h.slots,
    map_fst_machineVar]

/-- Arguments of the right source types have the right machine types. -/
theorem FunctionBody.argumentTypes (h : FunctionBody d k f vars g) {vs : List Literal}
    (hvs : vs.map Literal.ty = k.params) :
    (vs.map Immediate.ofLiteral).map Immediate.ty = g.params.map Prod.snd :=
  calc (vs.map Immediate.ofLiteral).map Immediate.ty
      = (vs.map Literal.ty).map MachineTy.ofTy := by simp
    _ = (vars.map Prod.snd).map MachineTy.ofTy := by rw [hvs, h.typed.types]
    _ = g.params.map Prod.snd := by simp [h.params, machineVar]

/-- At the start of a call all variables have values of their types: arguments, and zeros for those
declared. -/
theorem FunctionBody.memoryTyped (h : FunctionBody d k f vars g) {vs : List Literal}
    (hvs : vs.map Literal.ty = k.params) {μ : Memory} (hμ : GlobalsTyped d μ) :
    MemoryTyped d (vars ++ declarationsOf f.body) { μ with locals := f.enter vs } := by
  refine ⟨hμ, ?_⟩
  intro x t hx
  apply exists_lookup _ h.distinct hx
  rw [← h.typed.types] at hvs
  rw [List.map_append, h.typed.vars_eq, map_zip_ty hvs, map_zero_ty]

end FunctionBody

/-! ## Calls -/

/-- Every callee is found, in the program and in the code. -/
def Linked (p : CheckedProgram) (d : Outline) (asm : Assembly) : Prop :=
  ∀ k ∈ d.functions, ∃ f vars g, (p.functions.find? fun f => f.name = k.name) = some f ∧
    asm.function? (functionSymbol k.name) = some g ∧ FunctionBody d k f vars g

section Calls

variable {A : Arithmetic} {p : CheckedProgram} {d : Outline} {asm : Assembly}

/-- A body is followed from its first instruction to the return of its value. Where the body ends
without a value, the machine runs off the end of the code and returns the zero of the type, as the
source does. -/
theorem FunctionBody.followed {n : Nat} {calls : String → List Literal → Run Literal} {k : Callee}
    {f : CheckedFunction} {vars : List (String × Ty)} {g : Function}
    (h : FunctionBody d k f vars g) (hcalls : CallsFollowed A asm d n calls)
    (hd : (d.globals.map Prod.fst).Nodup) {waiting : List (Activation × Register)} {μ : Memory}
    (hμ : MemoryTyped d (vars ++ declarationsOf f.body) μ) :
    Simulates A asm n (place g waiting (fun _ => none) 0 μ)
      (fun v ν m => v.ty = k.returns ∧ GlobalsTyped d ν ∧
        m = deliver (.ofLiteral v) waiting (ν.world.map .ofLiteral))
      ((do
        let r ← execBlock A calls n (some ⟨f.vars, f.result⟩) f.body
        return r.getD (.zero f.result) : Run Literal) μ) := by
  obtain ⟨s, a, ha, hcode⟩ := h.lowered
  have hosts : Hosts A asm d n calls g (vars ++ declarationsOf f.body) :=
    ⟨hcalls, hd, h.distinct, h.labels⟩
  have hfits : Fits { s with frame := some (vars.map Prod.fst) } (some ⟨vars, k.returns⟩) :=
    ⟨rfl, fun x => Iff.rfl⟩
  have hplaced : Placed g 0 a.code := ⟨[], [], by simp [hcode], rfl⟩
  have hreturns : ∀ t, some k.returns = some t → g.returns = .ofTy t := by
    rintro t ⟨⟩
    exact h.returns
  -- What the source reads off the function is what the derivation has.
  rw [h.typed.vars_eq, h.typed.result_eq]
  refine (execBlock_followed hosts h.typed.body ha hfits (fun v hv => hv) hreturns hplaced
    hμ).bind ?_
  intro r ν m hran
  cases r with
  | some v =>
    obtain ⟨hty, hν, rfl⟩ := hran
    exact .result ⟨(Option.some.inj hty).symm, hν, rfl⟩
  | none =>
    -- The body came to its end without a value.
    obtain ⟨hν, ρ, rfl⟩ := hran
    have hend : g.code.length ≤ 0 + a.code.length := by
      rw [hcode]
      omega
    exact .skip (step_end h.returns hend) (.result ⟨zero_ty k.returns, hν.globals, rfl⟩)

/-- Calls are followed, whatever the bound. A call with a larger bound runs a body whose calls have
a smaller one. -/
theorem calls_followed (hlinked : Linked p d asm) (hd : (d.globals.map Prod.fst).Nodup) (n : Nat) :
    CallsFollowed A asm d n (p.call A n) := by
  induction n with
  | zero =>
    intro k hk vs μ hvs hμ g waiting ρ pc rs r hcode hrs
    exact .bound rfl
  | succ n ih =>
    intro k hk vs μ hvs hμ g waiting ρ pc rs r hcode hrs
    obtain ⟨f, vars, callee, hf, hcallee, hbody⟩ := hlinked k hk
    have hregisters : rs.map ρ = (vs.map Immediate.ofLiteral).map some := by
      rw [hrs, List.map_map]
      rfl
    have hstep : step A asm (place g waiting ρ pc μ) = _ :=
      step_call hcode hcallee hregisters (hbody.argumentTypes hvs)
    rw [hbody.enter vs] at hstep
    rw [CheckedProgram.call, hf]
    -- The step of the call pays for the bound that the call takes.
    refine .step hstep (.inside (hbody.followed ih hd (hbody.memoryTyped hvs hμ)) ?_)
    rintro v ν m ⟨hty, hν, rfl⟩
    exact ⟨hty, hν, rfl, rfl⟩

end Calls

/-! ## Programs -/

section Programs

variable {A : Arithmetic} {p : CheckedProgram} {d : Outline} {s s' : Supply}
  {a : Lowered Function} {b : Lowered (List Function)}

/-- Under distinct names, a call comes to the code of its callee. Otherwise it could come to a
function of the same symbol. -/
theorem linked_of_lowerFunctions (hp : TypedProgram p d)
    (hb : lowerFunctions p.functions s = some b) {g : Function}
    (hnames : ((g :: b.value).map Function.name).Nodup) : Linked p d ⟨g :: b.value⟩ := by
  intro k hk
  obtain ⟨f, g', hmem, hfk, s', a, ha, rfl⟩ :=
    exists_mem_zip hp.functions (forall₂_of_lowerFunctions hb) hk
  obtain ⟨hf, hg⟩ := List.of_mem_zip hmem
  obtain ⟨k', vars, htyped⟩ := hp.function_typed f hf
  -- The callee that the function was typed with and the one that is called have one name.
  obtain rfl : k' = k :=
    List.inj_on_of_nodup_map hp.names htyped.declared hk (htyped.name.symm.trans hfk.name)
  obtain ⟨body, hbody, rfl⟩ := lowerFunction_body htyped ha
  have hfunction : FunctionBody d k' f vars
      ⟨functionSymbol f.name, vars.map machineVar, .ofTy k'.returns, body.code⟩ :=
    ⟨htyped, rfl, rfl, s', body, hbody, rfl⟩
  refine ⟨f, vars, _, ?_, ?_, hfunction⟩
  · rw [← hfk.name]
    exact find?_eq_some (functionNames_nodup hp) hf
  · rw [← hfk.name]
    exact find?_eq_some hnames (List.mem_cons_of_mem _ hg)

/-- A function without variables is entered with none. -/
theorem enter_nil {g : Function} (hparams : g.params = []) (hslots : slotsOf g.code = []) :
    g.enter [] = ⟨g, 0, fun _ => none, fun _ => none⟩ := by
  unfold Function.enter
  rw [hparams, hslots]
  rfl

/-- The world at the start is the same on both sides. All variables of the program are zero, each of
its type. -/
theorem world_start {asm : Assembly}
    (hglobals : asm.globals = (declarationsOf p.body).map machineVar) :
    asm.world = p.start.world.map .ofLiteral := by
  unfold Assembly.world World.map
  rw [hglobals]
  congr
  funext x
  have hmap := map_lookup Immediate.ofLiteral
    ((declarationsOf p.body).map fun v => (v.1, Literal.zero v.2)) x
  rw [map_zero_ofLiteral] at hmap
  exact hmap.symm

/-- At the start the variables of the program have values of their types. -/
theorem globalsTyped_start (hp : TypedProgram p d) : GlobalsTyped d p.start := by
  intro x t hx
  apply exists_lookup _ hp.distinct hx
  rw [map_zero_ty, hp.globals]

/-- The statements outside of functions are followed, whoever waits for them. Behind them, zero is
returned to the activation that waits (`lower_init`). -/
theorem init_followed {asm : Assembly} (hp : TypedProgram p d) (hlinked : Linked p d asm)
    (ha : lowerInit p.globalStatements s = some a) (n : Nat)
    (waiting : List (Activation × Register)) :
    Simulates A asm n (place a.value waiting (fun _ => none) 0 p.start)
      (fun _ ν m => GlobalsTyped d ν ∧
        m = deliver (.ofLiteral (.int 0)) waiting (ν.world.map .ofLiteral))
      (execBlock A (p.call A n) n none p.globalStatements p.start) := by
  obtain ⟨body, hbody, rfl⟩ := lowerInit_eq_some.mp ha
  have hplaced : Placed ⟨initName, [], .int, body.code ++ initTail body.next.fresh⟩ 0
      (body.code ++ initTail body.next.fresh) := ⟨[], [], (List.append_nil _).symm, rfl⟩
  have hlabels : (labelsOf (body.code ++ initTail body.next.fresh)).Nodup := by
    rw [labelsOf_append]
    exact (List.append_nil _).symm ▸ (labels_of_lowerBlock _ hbody).distinct
  have hosts : Hosts A asm d n (p.call A n)
      ⟨initName, [], .int, body.code ++ initTail body.next.fresh⟩ [] :=
    ⟨calls_followed hlinked hp.distinct n, hp.distinct, List.nodup_nil, hlabels⟩
  have hfits : Fits { s with frame := none } none := ⟨rfl, fun x => Iff.rfl⟩
  have hmemory : MemoryTyped d [] p.start := ⟨globalsTyped_start hp, nofun⟩
  refine (execBlock_followed hosts hp.globalStatements hbody hfits (fun v hv => hv) nofun
    hplaced.left hmemory).andThen ?_
  intro r ν m hran
  cases r with
  | some v =>
    -- Outside of functions nothing returns.
    exact nomatch hran.1
  | none =>
    -- Behind the statements a zero is put into a new register and returned.
    obtain ⟨hν, ρ, rfl⟩ := hran
    have htail := hplaced.right
    have hret := Function.update_self body.next.fresh (some (Immediate.int 0)) ρ
    refine .skip (step_move htail.get) ?_
    refine .skip (step_ret (v := .int 0) (t := .int) hret rfl rfl htail.tail.get) ?_
    exact .result ⟨hν.globals, rfl⟩

/-- They leave the variables of calls alone. -/
theorem statements_followed {asm : Assembly} (hp : TypedProgram p d) (hlinked : Linked p d asm)
    (ha : lowerInit p.globalStatements s = some a) (n : Nat)
    (waiting : List (Activation × Register)) :
    Simulates A asm n (place a.value waiting (fun _ => none) 0 p.start)
      (fun _ ν m => GlobalsTyped d ν ∧ ν.locals = p.start.locals ∧
        m = deliver (.ofLiteral (.int 0)) waiting (ν.world.map .ofLiteral))
      (inside (fun _ => none) (execBlock A (p.call A n) n none p.globalStatements) p.start) :=
  .inside (init_followed hp hlinked ha n waiting) fun _ _ _ h => ⟨h.1, rfl, h.2⟩

/-- The machine follows runs to their ends, whatever the bound. -/
def FollowsAll (A : Arithmetic) (asm : Assembly) (m : Machine) (run : Nat → Ending Literal) :
    Prop :=
  ∀ n, Simulates A asm n m
    (fun v ν m' => m' = .halted (.ofLiteral v) (ν.world.map .ofLiteral)) (run n)

/-- Without an entry the machine halts with zero behind the statements. The function of the
statements outside of functions is the only one that runs then, with those it calls. -/
theorem run_followed {asm : Assembly} (hp : TypedProgram p d) (hlinked : Linked p d asm)
    (ha : lowerInit p.globalStatements s = some a)
    (hworld : asm.world = p.start.world.map .ofLiteral) :
    FollowsAll A asm (asm.start a.value) (p.run A none) := by
  intro n
  have hstart : asm.start a.value = place a.value [] (fun _ => none) 0 p.start := by
    unfold Assembly.start
    rw [enter_nil (header_of_lowerInit ha).2 (stores_of_lowerInit ha).slots, hworld]
    rfl
  rw [hstart]
  refine .bind (statements_followed hp hlinked ha n []) ?_
  rintro r ν m ⟨-, -, rfl⟩
  exact .result rfl

/-- The arguments are still in their registers when the first call is over. Its result goes to the
register behind them. -/
theorem map_range_registers (vs : List Immediate) (v : Immediate) :
    ((List.range vs.length).map Register.mk).map
      (Function.update (fun r => vs[r.index]?) ⟨vs.length⟩ (some v)) = vs.map some := by
  apply List.ext_getElem
  · simp
  · intro i hi hi'
    have hlt : i < vs.length := by simpa using hi'
    have hne : Register.mk i ≠ ⟨vs.length⟩ := by
      intro heq
      have hindex := congrArg Register.index heq
      simp only at hindex
      omega
    simp [Function.update_of_ne hne, List.getElem?_eq_getElem hlt]

/-- The first of the two calls before the second one. The arguments of the entry are in registers of
the launcher from the start. -/
theorem step_launch {asm : Assembly} (ha : lowerInit p.globalStatements s = some a)
    (hinit : asm.function? initName = some a.value) (f : String) (vs : List Immediate)
    (returns : MachineTy) :
    step A asm (place (launcher f vs.length returns) [] (fun r => vs[r.index]?) 0 p.start) =
      some (place a.value [(⟨launcher f vs.length returns, 1, fun r => vs[r.index]?,
        fun x => (p.start.locals x).map .ofLiteral⟩, ⟨vs.length⟩)] (fun _ => none) 0 p.start) := by
  have hnone := (header_of_lowerInit ha).2
  have htypes : ([] : List Immediate).map Immediate.ty = a.value.params.map Prod.snd := by
    rw [hnone]
    rfl
  have hcall : (launcher f vs.length returns).code[0]? = some (.call initName [] ⟨vs.length⟩) := rfl
  have hargs : ([] : List Register).map (fun r => vs[r.index]?) = [].map some := rfl
  rw [step_call hcall hinit hargs htypes, enter_nil hnone (stores_of_lowerInit ha).slots]
  rfl

/-- With an entry the machine goes on with the call of the entry and halts with its result. The
launcher has two calls, one for the statements outside of functions and one for the entry. -/
theorem run_followed_of_entry {asm : Assembly} (hp : TypedProgram p d) (hlinked : Linked p d asm)
    (ha : lowerInit p.globalStatements s = some a)
    (hworld : asm.world = p.start.world.map .ofLiteral)
    (hinit : asm.function? initName = some a.value) {k : Callee} (hk : k ∈ d.functions)
    {vs : List Literal} (hvs : vs.map Literal.ty = k.params) :
    FollowsAll A asm
      (asm.launch (functionSymbol k.name) (vs.map .ofLiteral) (.ofTy k.returns))
      (p.run A (some (k.name, vs))) := by
  intro n
  have hlaunch : asm.launch (functionSymbol k.name) (vs.map .ofLiteral) (.ofTy k.returns) =
      place (launcher (functionSymbol k.name) (vs.map Immediate.ofLiteral).length
        (.ofTy k.returns)) [] (fun r => (vs.map Immediate.ofLiteral)[r.index]?) 0 p.start := by
    unfold Assembly.launch
    rw [hworld]
    rfl
  rw [hlaunch]
  refine .skip (step_launch ha hinit _ _ _) (.bind (statements_followed hp hlinked ha n _) ?_)
  rintro r ⟨locals, w⟩ m ⟨hν, rfl, rfl⟩
  -- The first call is over, and the machine stands at the second one.
  refine (calls_followed hlinked hp.distinct n k hk vs ⟨p.start.locals, w⟩ hvs hν
    (launcher (functionSymbol k.name) _ (.ofTy k.returns)) [] _ 1 _ _ rfl ?_).andThen ?_
  · rw [map_range_registers, List.map_map]
    rfl
  · rintro v ν m ⟨hv, -, -, rfl⟩
    exact .skip (step_ret (Function.update_self _ _ _) hv rfl rfl) (.result rfl)

end Programs

/-! ## Behaviours -/

section Behaviours

variable {A : Arithmetic} {asm : Assembly} {m : Machine} {run : Nat → Ending Literal}

/-- An end of a run, for one bound. -/
theorem FollowsAll.ending (h : FollowsAll A asm m run) {n : Nat} {o : Ending Literal}
    (hn : run n = o) : Simulates A asm n m
      (fun v ν m' => m' = .halted (.ofLiteral v) (ν.world.map .ofLiteral)) o := by
  rw [← hn]
  exact h n

/-- Where every bound is met, the machine goes on for as long as one likes, and what it printed by
then is a part of what a run prints. -/
theorem FollowsAll.forever (h : FollowsAll A asm m run) {n : Nat} {μ : Memory}
    (hn : run n = .timeout μ) : ∃ m', steps A asm n m = some m' ∧
      m'.world.output <+: μ.world.output.map .ofLiteral := by
  obtain ⟨k, m'', hle, hk, hworld⟩ := h.ending hn
  obtain ⟨m', hm', hrest⟩ := exists_steps_of_le hle hk
  have hout := output_steps hrest
  rw [hworld] at hout
  exact ⟨m', hm', hout⟩

/-- A machine that follows runs behaves as they do. A run that ends tells where the machine ends.
A run that never does has the machine pass every bound, and at each bound both have printed the
same. -/
theorem FollowsAll.behaves (h : FollowsAll A asm m run) {b : Behaviour Literal}
    (hb : Behaves run b) : m.Behaves A asm (b.map .ofLiteral) := by
  cases b with
  | returns v w =>
    obtain ⟨n, μ, hn, rfl⟩ := hb
    obtain ⟨k, m', hk, rfl⟩ := h.ending hn
    exact ⟨k, _, hk, rfl, rfl⟩
  | fails w =>
    obtain ⟨n, μ, hn, rfl⟩ := hb
    exact h.ending hn
  | diverges printed =>
    -- The machine passes every bound, and prints what the runs print.
    obtain ⟨hforever, hprinted⟩ := hb
    refine ⟨?_, ?_⟩
    · intro n
      obtain ⟨μ, hn⟩ := hforever n
      obtain ⟨m', hm', -⟩ := h.forever hn
      exact ⟨m', hm'⟩
    · intro out
      constructor
      · rintro ⟨out, hout, rfl⟩
        obtain ⟨n, μ, hn, hpre⟩ := (hprinted out).mp hout
        obtain ⟨k, m', -, hk, hworld⟩ := h.ending hn
        refine ⟨k, m', hk, ?_⟩
        rw [hworld]
        exact hpre.map _
      · -- What the machine printed after `n` steps is printed by the run with the bound `n`.
        rintro ⟨n, m', hn, hpre⟩
        obtain ⟨μ, hμ⟩ := hforever n
        obtain ⟨m'', hm'', hout⟩ := h.forever hμ
        obtain rfl := Option.some.inj (hn.symm.trans hm'')
        obtain ⟨out', hout', rfl⟩ := List.prefix_map_iff.mp (hpre.trans hout)
        exact ⟨out', (hprinted out').mpr ⟨n, μ, hμ, hout'⟩, rfl⟩

/-- The machine and the runs have the same behaviours, up to the representation of values. -/
def Mirrors (A : Arithmetic) (asm : Assembly) (m : Machine) (run : Nat → Ending Literal) : Prop :=
  ∀ b, m.Behaves A asm b ↔ ∃ b', Behaves run b' ∧ b = b'.map .ofLiteral

/-- The runs have a behaviour, and the machine has no second one. So what follows in one direction
is an equivalence. -/
theorem FollowsAll.mirrors (h : FollowsAll A asm m run) : Mirrors A asm m run := by
  intro b
  constructor
  · intro hb
    obtain ⟨b', hb'⟩ := exists_behaves run
    exact ⟨b', hb', Machine.behaves_unique hb (h.behaves hb')⟩
  · rintro ⟨b', hb', rfl⟩
    exact h.behaves hb'

end Behaviours

end Code

open Code

/-- **Lowering preserves meaning.** Every program without diagnostics has code. The machine that
starts on the first function of it behaves as the statements outside of functions do: it returns
where they end, it gets stuck where they are undefined, it runs forever where they do, and what it
prints and leaves in the variables is the same. With a call behind them, of any function with any
arguments of the right types, it behaves as they do with this call.

Calls in the code go by name, so the names have to be distinct. By `nodup_names_iff` they are,
unless a function of the source is called like the first function, or like the symbol of the entry
in a program that has one. -/
theorem generate_preserves_meaning (A : Arithmetic) (p : Program)
    (h : p.analyze.diagnostics = []) :
    ∃ init rest, generate p.analyze = .ok ⟨init :: rest⟩ ∧
      (((init :: rest).map Function.name).Nodup →
        Mirrors A ⟨init :: rest⟩ (Assembly.start ⟨init :: rest⟩ init)
          (p.analyze.program.run A none) ∧
        ∀ f ∈ p.analyze.program.functions, ∀ vs : List Literal,
          vs.map (fun v => some v.ty) = f.params.map CheckedParam.ty →
          Mirrors A ⟨init :: rest⟩
            (Assembly.launch ⟨init :: rest⟩ (functionSymbol f.name) (vs.map .ofLiteral)
              (.ofTy f.result))
            (p.analyze.program.run A (some (f.name, vs)))) := by
  obtain ⟨d, hd⟩ := typedProgram_of_clean p h
  obtain ⟨l, hl⟩ := exists_lowerProgram hd.body.none_notMem .initial
  obtain ⟨a, b, ha, hb, hvalue⟩ := lowerProgram_eq_some.mp hl
  refine ⟨a.value, b.value, generate_eq_ok.mpr ⟨h, l, hl, by rw [hvalue]⟩, ?_⟩
  intro hnames
  have hlinked := linked_of_lowerFunctions hd hb hnames
  have hglobals := globals_of_lowerProgram ha hb
  rw [CheckedProgram.declarationsOf_globalStatements] at hglobals
  have hworld := world_start hglobals
  refine ⟨(run_followed hd hlinked ha hworld).mirrors, ?_⟩
  intro f hf vs hvs
  obtain ⟨k, vars, hk⟩ := hd.function_typed f hf
  -- The launcher calls the first function by its name.
  have hinit : Assembly.function? ⟨a.value :: b.value⟩ initName = some a.value := by
    rw [← (header_of_lowerInit ha).1]
    exact find?_eq_some hnames List.mem_cons_self
  rw [hk.name, hk.result_eq]
  exact (run_followed_of_entry hd hlinked ha hworld hinit hk.declared
    (hk.argumentTypes hvs)).mirrors

/-- Arithmetic that wraps around and does not divide by zero, on integers only. -/
def wrapping : Arithmetic where
  int
    | .add, x, y => some (x + y)
    | .sub, x, y => some (x - y)
    | .mul, x, y => some (x * y)
    | .div, x, y => if y = 0 then none else some (x / y)
  float _ _ _ := none
  byte _ _ _ := none
  compareInt
    | .less, x, y => some (x < y)
    | .lessEquals, x, y => some (x ≤ y)
    | .greater, x, y => some (x > y)
    | .greaterEquals, x, y => some (x ≥ y)
    | .equals, x, y => some (x = y)
    | .notEquals, x, y => some (x ≠ y)
  compareFloat _ _ _ := none
  compareByte _ _ _ := none

/-- A program that is run as a whole, and one of its functions called with an argument. The run
prints one value, and so does the machine. -/
theorem countdown_preserves_meaning : countdown.analyze.diagnostics = [] ∧
    ∃ init rest, generate countdown.analyze = .ok ⟨init :: rest⟩ ∧
      ((init :: rest).map Function.name).Nodup ∧
      Mirrors wrapping ⟨init :: rest⟩ (Assembly.start ⟨init :: rest⟩ init)
        (countdown.analyze.program.run wrapping none) ∧
      Mirrors wrapping ⟨init :: rest⟩ (Assembly.launch ⟨init :: rest⟩ "sum" [.int 3] .int)
        (countdown.analyze.program.run wrapping (some ("sum", [.int 3]))) ∧
      ∃ w, w.output = [.int 1] ∧ (Assembly.start ⟨init :: rest⟩ init).Behaves wrapping
        ⟨init :: rest⟩ (.returns (.int 0) w) := by
  have hclean : countdown.analyze.diagnostics = [] := by decide
  obtain ⟨init, rest, hasm, hmeaning⟩ := generate_preserves_meaning wrapping countdown hclean
  have hnames : ((init :: rest).map Function.name).Nodup :=
    (nodup_names_iff hasm).mpr (by decide)
  obtain ⟨hstart, hcalls⟩ := hmeaning hnames
  have hsum : ∃ f ∈ countdown.analyze.program.functions, f.name = "sum" ∧ f.result = .int ∧
      f.params.map CheckedParam.ty = [some .int] := by decide
  obtain ⟨f, hf, hname, hresult, hparams⟩ := hsum
  have hcall := hcalls f hf [.int 3] hparams.symm
  rw [hname, hresult] at hcall
  -- The condition of the loop is tested four times, one call down.
  have hrun : ∃ μ, countdown.analyze.program.run wrapping none 5 = .done (.int 0) μ ∧
      μ.world.output = [.bool true] := ⟨_, rfl, rfl⟩
  obtain ⟨μ, hμ, hout⟩ := hrun
  refine ⟨hclean, init, rest, hasm, hnames, hstart, hcall, μ.world.map .ofLiteral, ?_, ?_⟩
  · rw [World.map, hout]
    rfl
  · exact (hstart _).mpr ⟨.returns (.int 0) μ.world, ⟨5, μ, hμ, rfl⟩, rfl⟩

end Pulse

/-
The types of generated code.

Source types are made out by the checker, machine types by the instructions, and truth values share
the machine type of integers. What is shown here is that the two agree over a whole program: one
assignment of machine types to registers suits every instruction of every function, every access is
to storage that was declared once, before, and with the type of the access, and every call suits the
function that the declaration of its callee became.

The proof goes construct by construct. A construct takes the registers of one range, so types that
suit its instructions are found in that range, whatever the types elsewhere are; ranges that follow
each other are then joined.
-/
import Pulse.Proofs.LoweredCode
import Pulse.Proofs.Resolved

set_option autoImplicit false

namespace Pulse

/-! ## Calls in the source -/

namespace Expr

mutual

/-- The names of the functions that an expression calls, in the order of the calls. -/
def callees : Expr Typing → List String
  | literal _ _ => []
  | read _ _ => []
  | binary _ _ left right => left.callees ++ right.callees
  | unary _ _ operand => operand.callees
  | call _ f arguments => calleesOf arguments ++ [f]

/-- The names of the functions that several expressions call. -/
def calleesOf : List (Expr Typing) → List String
  | [] => []
  | e :: es => e.callees ++ calleesOf es

end

end Expr

namespace CheckedStmt

mutual

/-- The names of the functions that a statement calls, in the order of the text. -/
def callees : CheckedStmt → List String
  | print _ value => value.callees
  | var _ _ none => []
  | var _ _ (some value) => value.callees
  | const _ _ value => value.callees
  | write _ _ value => value.callees
  | branch _ condition whenTrue whenFalse =>
    condition.callees ++ (calleesOf whenTrue ++ calleesOf whenFalse)
  | loop _ condition body => condition.callees ++ calleesOf body
  | function _ _ _ _ _ => []
  | ret _ value => value.callees

/-- The names of the functions that the statements of a block call. -/
def calleesOf : List CheckedStmt → List String
  | [] => []
  | s :: ss => s.callees ++ calleesOf ss

end

end CheckedStmt

namespace Code

open Rules CheckedStmt

/-! ## Typed instructions -/

/-- The registers of an instruction have the types it works on. -/
def Instr.Typed (ρ : Register → MachineTy) : Instr → Prop
  | .move v target => ρ target = v.ty
  | .arith _ ty left right target =>
    (ty = .int ∨ ty = .float) ∧ ρ left = ty ∧ ρ right = ty ∧ ρ target = ty
  | .bitwise _ left right target => ρ left = .int ∧ ρ right = .int ∧ ρ target = .int
  | .compare _ ty left right target => ρ left = ty ∧ ρ right = ty ∧ ρ target = .int
  | .load ty _ target => ρ target = ty
  | .store ty value _ => ρ value = ty
  | .print ty value => ρ value = ty
  | .branch condition _ _ => ρ condition = .int
  | .ret ty value => ρ value = ty
  | .global _ _ | .alloc _ _ | .label _ | .jump _ | .call _ _ _ => True

/-- The location and the type of a load or a store. -/
def Instr.access? : Instr → Option (Location × MachineTy)
  | .load ty source _ => some (source, ty)
  | .store ty _ target => some (target, ty)
  | _ => none

/-- The name, the arguments and the target of a call. -/
def Instr.call? : Instr → Option (String × List Register × Register)
  | .call f arguments target => some (f, arguments, target)
  | _ => none

/-- A location is declared with a type: a variable of the program by exactly one instruction of all
functions, a variable of a call as exactly one of the parameters and the storage made by the
function, and in the second case before the access. -/
def Assembly.Declares (asm : Assembly) (g : Function) (before : List Instr) :
    Location → MachineTy → Prop
  | .global x, ty => (asm.globals.filter fun v => v.1 = x) = [(x, ty)]
  | .frame x, ty => ((g.params ++ slotsOf g.code).filter fun v => v.1 = x) = [(x, ty)] ∧
      (x, ty) ∈ g.params ++ slotsOf before

/-- A call suits the function that the declaration of its callee became. The functions of the code
behind the first one stand for the functions of the program, in order. -/
def CallTyped (p : CheckedProgram) (asm : Assembly) (ρ : Register → MachineTy) (callee : String)
    (call : String × List Register × Register) : Prop :=
  ∃ f g, (f, g) ∈ p.functions.zip asm.functions.tail ∧ f.name = callee ∧ call.1 = g.name ∧
    call.2.1.map ρ = g.params.map Prod.snd ∧ ρ call.2.2 = g.returns

/-- The code of a function is well typed. The calls are those of the statements it came from, in
order. -/
structure FunctionTyped (p : CheckedProgram) (asm : Assembly) (ρ : Register → MachineTy)
    (body : List CheckedStmt) (g : Function) : Prop where
  instrs : ∀ i ∈ g.code, i.Typed ρ
  accesses : ∀ before i after, g.code = before ++ i :: after → ∀ loc ty,
    i.access? = some (loc, ty) → asm.Declares g before loc ty
  returns : ∀ ty r, .ret ty r ∈ g.code → ty = g.returns
  calls : List.Forall₂ (CallTyped p asm ρ) (calleesOf body) (g.code.filterMap Instr.call?)

/-- The statements of a program that each become one function: those outside of functions first,
then the body of each function. -/
def bodies (p : CheckedProgram) : List (List CheckedStmt) :=
  p.globalStatements :: p.functions.map CheckedFunction.body

/-! ## Types on a range of registers

An assignment says what the registers hold: machine types here, and types of the source where the
values matter. -/

instance : Inhabited MachineTy := ⟨.int⟩

/-- Some types of the registers of a range make a property true, whatever the others are. -/
def Between {α : Type} (lo hi : Nat) (P : (Register → α) → Prop) : Prop :=
  ∃ ρ : Register → α,
    ∀ ρ' : Register → α, (∀ r, lo < r.index → r.index ≤ hi → ρ' r = ρ r) → P ρ'

section Between

variable {α : Type} {lo mid hi : Nat} {P Q : (Register → α) → Prop}

/-- What holds for all types holds for some on any range. -/
theorem Between.of_all [Inhabited α] (h : ∀ ρ, P ρ) : Between lo hi P :=
  ⟨fun _ => default, fun ρ' _ => h ρ'⟩

/-- Types on a range that make a property true make true what follows from it. -/
theorem Between.imp (h : Between lo hi P) (hPQ : ∀ ρ, P ρ → Q ρ) : Between lo hi Q := by
  obtain ⟨ρ, hρ⟩ := h
  exact ⟨ρ, fun ρ' hρ' => hPQ ρ' (hρ ρ' hρ')⟩

/-- Types on two ranges that follow each other are put together, and make both properties true. -/
theorem Between.and (hP : Between lo mid P) (hQ : Between mid hi Q) (hlo : lo ≤ mid)
    (hhi : mid ≤ hi) : Between lo hi fun ρ => P ρ ∧ Q ρ := by
  obtain ⟨ρ, hρ⟩ := hP
  obtain ⟨σ, hσ⟩ := hQ
  refine ⟨fun r => if r.index ≤ mid then ρ r else σ r, fun ρ' hρ' => ⟨hρ ρ' ?_, hσ ρ' ?_⟩⟩
  -- Up to the middle the first assignment counts, behind it the second one.
  · intro r h₁ h₂
    exact (hρ' r h₁ (by omega)).trans (if_pos h₂)
  · intro r h₁ h₂
    exact (hρ' r (by omega) h₂).trans (if_neg (by omega))

/-- A register that is taken gets any type that is wanted. -/
theorem Between.fresh (s : Supply) (ty : α) :
    Between s.registers s.skipRegister.registers fun ρ => ρ s.fresh = ty :=
  ⟨fun _ => ty, fun _ h => h s.fresh (Nat.lt_succ_self _) (Nat.le_refl _)⟩

/-- Types on a range are types of registers. -/
theorem Between.exists (h : Between lo hi P) : ∃ ρ, P ρ := by
  obtain ⟨ρ, hρ⟩ := h
  exact ⟨ρ, hρ ρ fun _ _ _ => rfl⟩

end Between

/-! ## Typed pieces of code

The judgement is relative to the outline of the program and to the storage of the call that was
made before the piece. -/

/-- A location that was declared with a type. -/
def Declared (d : Outline) (slots : List (String × MachineTy)) : Location → MachineTy → Prop
  | .global x, ty => (x, ty) ∈ d.globals.map machineVar
  | .frame x, ty => (x, ty) ∈ slots

/-- A call that suits its callee. -/
def CallOf (d : Outline) (ρ : Register → MachineTy) (callee : String)
    (call : String × List Register × Register) : Prop :=
  ∃ k ∈ d.functions, k.name = callee ∧ call.1 = functionSymbol callee ∧
    call.2.1.map ρ = k.params.map .ofTy ∧ ρ call.2.2 = .ofTy k.returns

/-- A piece of code that is typed. -/
structure CodeTyped (d : Outline) (returns : Option MachineTy) (ρ : Register → MachineTy)
    (slots : List (String × MachineTy)) (callees : List String) (code : List Instr) : Prop where
  instrs : ∀ i ∈ code, i.Typed ρ
  accesses : ∀ before i after, code = before ++ i :: after → ∀ loc ty,
    i.access? = some (loc, ty) → Declared d (slots ++ slotsOf before) loc ty
  returns : ∀ ty r, .ret ty r ∈ code → returns = some ty
  calls : List.Forall₂ (CallOf d ρ) callees (code.filterMap Instr.call?)

namespace CodeTyped

variable {d : Outline} {returns : Option MachineTy} {ρ : Register → MachineTy}
  {slots : List (String × MachineTy)} {cs cs' : List String} {a b : List Instr}

/-- Code behind code is typed when each part is, the second one with the storage that the first one
makes. -/
theorem append (ha : CodeTyped d returns ρ slots cs a)
    (hb : CodeTyped d returns ρ (slots ++ slotsOf a) cs' b) :
    CodeTyped d returns ρ slots (cs ++ cs') (a ++ b) := by
  refine ⟨?_, ?_, ?_, ?_⟩
  · intro i hi
    rcases List.mem_append.mp hi with hi | hi
    · exact ha.instrs i hi
    · exact hb.instrs i hi
  · intro before i after heq loc ty hacc
    -- The instruction is in the first piece, or what stands before it includes all of that piece.
    rcases List.append_eq_append_iff.mp heq with ⟨rest, rfl, hrest⟩ | ⟨rest, hrest, hafter⟩
    · have h := hb.accesses rest i after hrest loc ty hacc
      rwa [List.append_assoc, ← slotsOf_append] at h
    · rcases List.cons_eq_append_iff.mp hafter with ⟨rfl, rfl⟩ | ⟨tail, rfl, rfl⟩
      · rw [List.append_nil] at hrest
        have h := hb.accesses [] i after rfl loc ty hacc
        rw [slotsOf_nil, List.append_nil, hrest] at h
        exact h
      · exact ha.accesses before i tail hrest loc ty hacc
  · intro ty r hr
    rcases List.mem_append.mp hr with hr | hr
    · exact ha.returns ty r hr
    · exact hb.returns ty r hr
  · rw [List.filterMap_append]
    exact List.rel_append ha.calls hb.calls

/-- Behind instructions that make no storage. -/
theorem append_of_slots (ha : CodeTyped d returns ρ slots cs a) (hslots : slotsOf a = [])
    (hb : CodeTyped d returns ρ slots cs' b) :
    CodeTyped d returns ρ slots (cs ++ cs') (a ++ b) := by
  refine ha.append ?_
  rw [hslots, List.append_nil]
  exact hb

/-- No code is typed code. -/
theorem nil : CodeTyped d returns ρ slots [] [] :=
  ⟨by simp, by simp, by simp, .nil⟩

/-- An instruction that makes no call. What it accesses is declared by storage in front of the code,
since it stands alone. -/
theorem single {i : Instr} (hi : i.Typed ρ)
    (hacc : ∀ loc ty, i.access? = some (loc, ty) → Declared d slots loc ty)
    (hret : ∀ ty r, i = .ret ty r → returns = some ty) (hcall : i.call? = none) :
    CodeTyped d returns ρ slots [] [i] := by
  refine ⟨by simpa using hi, ?_, ?_, by simp [hcall]⟩
  · intro before j after heq loc ty hj
    rcases List.cons_eq_append_iff.mp heq with ⟨rfl, hj'⟩ | ⟨tail, rfl, htail⟩
    · obtain ⟨rfl, -⟩ := List.cons.inj hj'
      rw [slotsOf_nil, List.append_nil]
      exact hacc loc ty hj
    · simp at htail
  · intro ty r hr
    exact hret ty r (List.mem_singleton.mp hr).symm

/-- A call. -/
theorem call {f : String} {arguments : List Register} {target : Register}
    (h : CallOf d ρ f (functionSymbol f, arguments, target)) :
    CodeTyped d returns ρ slots [f] [.call (functionSymbol f) arguments target] := by
  refine ⟨by simp [Instr.Typed], ?_, by simp, .cons h .nil⟩
  intro before i after heq loc ty hi
  rcases List.cons_eq_append_iff.mp heq with ⟨rfl, hj⟩ | ⟨tail, rfl, htail⟩
  · obtain ⟨rfl, -⟩ := List.cons.inj hj
    simp [Instr.access?] at hi
  · simp at htail

/-- Instructions that neither access storage nor call nor return. -/
theorem plain {code : List Instr} (hi : ∀ i ∈ code, i.Typed ρ)
    (hacc : ∀ i ∈ code, i.access? = none) (hret : ∀ ty r, .ret ty r ∉ code)
    (hcall : code.filterMap Instr.call? = []) : CodeTyped d returns ρ slots [] code := by
  refine ⟨hi, ?_, fun ty r hr => absurd hr (hret ty r), by rw [hcall]; exact .nil⟩
  intro before i after heq loc ty hj
  rw [hacc i (by simp [heq])] at hj
  cases hj

/-- A jump and the label behind it are typed. -/
theorem jumpLabel (l m : Label) : CodeTyped d returns ρ slots [] [.jump l, .label m] :=
  .plain (by simp [Instr.Typed]) (by simp [Instr.access?]) (by simp) rfl

/-- A branch on a truth value and the label behind it are typed. -/
theorem branchLabel {r : Register} (h : ρ r = .ofTy .bool) (l m k : Label) :
    CodeTyped d returns ρ slots [] [.branch r l m, .label k] := by
  refine .plain ?_ (by simp [Instr.access?]) (by simp) rfl
  rw [MachineTy.ofTy] at h
  simpa [Instr.Typed] using h

/-- An instruction that makes storage touches no register. -/
theorem storage (s : Supply) (ty : MachineTy) (x : String) :
    CodeTyped d returns ρ slots [] [s.storage ty x] := by
  refine .plain ?_ ?_ ?_ ?_ <;> unfold Supply.storage <;> split <;>
    simp [Instr.Typed, Instr.access?, Instr.call?]

/-- The storage that the first arm of a branch makes is there for the second one. -/
theorem branch {r : Register} (hr : ρ r = .ofTy .bool) (ha : CodeTyped d returns ρ slots cs a)
    (hb : CodeTyped d returns ρ (slots ++ slotsOf a) cs' b) (ifTrue ifFalse merge : Label) :
    CodeTyped d returns ρ slots (cs ++ cs') (branchCode r ifTrue ifFalse merge a b) := by
  have hhead : CodeTyped d returns ρ slots [] [.branch r ifTrue ifFalse, .label ifTrue] :=
    .branchLabel hr _ _ _
  have hfirst := (hhead.append_of_slots rfl ha).append (.jumpLabel merge ifFalse)
  have hslots : slotsOf ([.branch r ifTrue ifFalse, .label ifTrue] ++ a ++
      [.jump merge, .label ifFalse]) = slotsOf a := by
    rw [slotsOf_append, slotsOf_append]
    exact List.append_nil _
  rw [← hslots] at hb
  have hcode := (hfirst.append hb).append (.jumpLabel merge merge)
  simp only [List.nil_append, List.append_nil] at hcode
  exact hcode

/-- The code of a loop is typed when its condition and its body are. The condition makes no storage,
so the body finds the storage of before. -/
theorem loop {r : Register} (ha : CodeTyped d returns ρ slots cs a) (hslots : slotsOf a = [])
    (hr : ρ r = .ofTy .bool) (hb : CodeTyped d returns ρ slots cs' b) (test enter merge : Label) :
    CodeTyped d returns ρ slots (cs ++ cs') (loopCode test enter merge a r b) := by
  have hhead : CodeTyped d returns ρ slots [] [.jump test, .label test] := .jumpLabel _ _
  have hcheck : CodeTyped d returns ρ slots [] [.branch r enter merge, .label enter] :=
    .branchLabel hr _ _ _
  have hslots' : slotsOf ([.jump test, .label test] ++ a) = [] := by
    rw [slotsOf_append, hslots]
    rfl
  have hslots'' : slotsOf ([.jump test, .label test] ++ a ++
      [.branch r enter merge, .label enter]) = [] := by
    rw [slotsOf_append, hslots']
    rfl
  have hround := (hhead.append_of_slots rfl ha).append_of_slots hslots' hcheck
  have hcode := (hround.append_of_slots hslots'' hb).append (.jumpLabel test merge)
  simp only [List.nil_append, List.append_nil] at hcode
  exact hcode

end CodeTyped

/-! ## Expressions -/

/-- The instruction of a binary operator suits the types that the rules give. -/
theorem binaryInstr_typed {op : BinaryOp} {t u v : Ty} {ρ : Register → MachineTy}
    {x y z : Register} (rule : BinaryRule op t u v) (hx : ρ x = .ofTy t) (hy : ρ y = .ofTy u)
    (hz : ρ z = .ofTy v) : (binaryInstr op (.ofTy t) x y z).Typed ρ := by
  cases rule <;> simp_all [binaryInstr, Instr.Typed, MachineTy.ofTy]

/-- The instruction of a binary operator is typed code: it accesses nothing, calls nothing and
returns nothing. -/
theorem CodeTyped.binary {d : Outline} {returns : Option MachineTy} {ρ : Register → MachineTy}
    {slots : List (String × MachineTy)} {op : BinaryOp} {t u v : Ty} {x y z : Register}
    (rule : BinaryRule op t u v) (hx : ρ x = .ofTy t) (hy : ρ y = .ofTy u) (hz : ρ z = .ofTy v) :
    CodeTyped d returns ρ slots [] [binaryInstr op (.ofTy t) x y z] := by
  refine .single (binaryInstr_typed rule hx hy hz) ?_ ?_ ?_
  · intro loc ty hacc
    cases op <;> simp [binaryInstr, Instr.access?] at hacc
  · intro ty r hret
    cases op <;> simp [binaryInstr] at hret
  · cases op <;> rfl

section Pieces

variable {d : Outline} (returns : Option MachineTy) {F : Option Frame}

/-- The storage of a call that holds the variables of a function. -/
abbrev slotsIn (F : Option Frame) : List (String × MachineTy) := (localsOf F).map machineVar

/-- A variable is found at a location that is declared with its type: in the frame when the function
has it, among the variables of the program otherwise. -/
theorem declared_of_var {s : Supply} {x : String} {t : Ty} (hs : Fits s F)
    (hv : d.Var (localsOf F) x t) : Declared d (slotsIn F) (s.location x) (.ofTy t) := by
  rcases hs.location hv with ⟨hloc, hmem⟩ | ⟨hloc, -, hmem⟩
  · rw [hloc]
    exact List.mem_map_of_mem hmem
  · rw [hloc]
    exact List.mem_map_of_mem hmem

/-- An instruction that accesses the location of a variable, with the type of the variable, accesses
a declared location. -/
theorem declared_of_access {s : Supply} {x : String} {t : Ty} (hs : Fits s F)
    (hv : d.Var (localsOf F) x t) {i : Instr} (hi : i.access? = some (s.location x, .ofTy t)) :
    ∀ loc ty, i.access? = some (loc, ty) → Declared d (slotsIn F) loc ty := by
  intro loc ty hacc
  obtain ⟨rfl, rfl⟩ := Prod.mk.inj (Option.some.inj (hi.symm.trans hacc))
  exact declared_of_var hs hv

/-- The code of a unary operator is typed. A negation takes two registers, the first one for a
constant. -/
theorem lowerUnary_typed {op : UnaryOp} {t u : Ty} (rule : UnaryRule op t u) {r : Register}
    {s : Supply} {l : Lowered Register} (h : lowerUnary op (.ofTy u) r s = some l) :
    Between s.registers l.next.registers fun ρ => ρ r = .ofTy t →
      ρ l.value = .ofTy u ∧ ∀ d returns slots, CodeTyped d returns ρ slots [] l.code := by
  -- The constant and the result are the two registers that are taken.
  have htwo : ∀ ty : MachineTy, Between s.registers s.skipRegister.skipRegister.registers
      fun ρ => ρ s.fresh = ty ∧ ρ s.skipRegister.fresh = ty := by
    intro ty
    exact (Between.fresh s ty).and (Between.fresh s.skipRegister ty) (Nat.le_succ _) (Nat.le_succ _)
  cases op with
  | plus =>
    rw [lowerUnary_plus] at h
    subst h
    refine .of_all fun ρ hr => ⟨?_, fun _ _ _ => .nil⟩
    cases rule <;> exact hr
  | minus =>
    rw [lowerUnary_minus] at h
    subst h
    refine (htwo (.ofTy u)).imp fun ρ hρ hr => ⟨hρ.2, fun _ _ _ => .plain ?_ ?_ ?_ rfl⟩
    · cases rule <;> simp_all [Instr.Typed, MachineTy.ofTy]
    · simp [Instr.access?]
    · simp
  | not =>
    rw [lowerUnary_not] at h
    subst h
    refine (htwo (.ofTy u)).imp fun ρ hρ hr => ⟨hρ.2, fun _ _ _ => .plain ?_ ?_ ?_ rfl⟩
    · cases rule
      simp_all [Instr.Typed, MachineTy.ofTy, Immediate.ty]
    · simp [Instr.access?]
    · simp

mutual

-- Each part has types on the registers it takes, and the ranges follow each other, so the types of
-- the parts are put together range by range. What the parts say of registers in other ranges they
-- say of every assignment.

/-- The code of a typed expression is typed on the registers that it takes, and its result has the
type of the expression. -/
theorem lowerExpr_typed : ∀ {e : Expr Typing} {t : Ty}, TypedExpr d (localsOf F) e t →
    ∀ {s : Supply} {l : Lowered Register}, lowerExpr e s = some l → Fits s F →
      Between s.registers l.next.registers fun ρ =>
        ρ l.value = .ofTy t ∧ CodeTyped d returns ρ (slotsIn F) e.callees l.code
  | _, _, .literal (v := v) note, s, l, h, hs => by
    rw [lowerExpr_literal] at h
    subst h
    refine (Between.fresh s (.ofTy v.ty)).imp fun ρ hρ => ⟨hρ, ?_⟩
    rw [Expr.callees]
    exact .plain (by simp [Instr.Typed, hρ]) (by simp [Instr.access?]) (by simp) rfl
  -- The type at the node is the one of the derivation, here and in the cases below.
  | _, _, .read (t := t) note hv, s, l, h, hs => by
    obtain ⟨u, hu, rfl⟩ := lowerExpr_read.mp h
    obtain rfl : t = u := Option.some.inj (note.symm.trans hu)
    refine (Between.fresh s (.ofTy t)).imp fun ρ hρ => ⟨hρ, ?_⟩
    rw [Expr.callees]
    exact .single hρ (declared_of_access hs hv rfl) (by simp) rfl
  | _, _, .binary (v := v) note hl hr rule, s, l, h, hs => by
    obtain ⟨a, b, t, ha, hb, hta, rfl⟩ := lowerExpr_binary.mp h
    obtain rfl := Option.some.inj (hl.ty_eq.symm.trans hta)
    have htakes := takes_of_lowerExpr _ ha
    have htakes' := takes_of_lowerExpr _ hb
    have hleft := lowerExpr_typed hl ha hs
    have hright := lowerExpr_typed hr hb (hs.of_frame htakes.frame)
    have hall := (hleft.and hright htakes.registers htakes'.registers).and
      (Between.fresh b.next (.ofTy v)) (Nat.le_trans htakes.registers htakes'.registers)
      (Nat.le_succ _)
    refine hall.imp fun ρ hρ => ⟨hρ.2, ?_⟩
    obtain ⟨⟨⟨hva, hca⟩, hvb, hcb⟩, htarget⟩ := hρ
    have hslots := slotsOf_expr (target_of_lowerExpr _ ha)
    have hslots' := slotsOf_expr (target_of_lowerExpr _ hb)
    have hcode := hca.append_of_slots hslots
      (hcb.append_of_slots hslots' (.binary rule hva hvb htarget))
    rw [List.append_nil] at hcode
    rw [Expr.callees]
    exact hcode
  | _, _, .unary note he rule, s, l, h, hs => by
    obtain ⟨a, u, b, ha, hu, hb, rfl⟩ := lowerExpr_unary.mp h
    obtain rfl := Option.some.inj (note.symm.trans hu)
    have htakes := takes_of_lowerExpr _ ha
    have hslots := slotsOf_expr (target_of_lowerExpr _ ha)
    have hall := (lowerExpr_typed he ha hs).and
      (lowerUnary_typed rule hb) htakes.registers (registers_of_lowerUnary hb)
    refine hall.imp fun ρ hρ => ?_
    obtain ⟨⟨hva, hca⟩, hunary⟩ := hρ
    obtain ⟨hvalue, hcb⟩ := hunary hva
    have hcode := hca.append_of_slots hslots (hcb d returns (slotsIn F))
    rw [List.append_nil] at hcode
    rw [Expr.callees]
    exact ⟨hvalue, hcode⟩
  | _, _, .call (k := k) note declared hargs, s, l, h, hs => by
    obtain ⟨a, ha, rfl⟩ := lowerExpr_call.mp h
    have htakes := takes_of_lowerExprs _ ha
    have hslots := slotsOf_expr (target_of_lowerExprs _ ha)
    have hall := (lowerExprs_typed hargs ha hs).and (Between.fresh a.next (.ofTy k.returns))
      htakes.registers (Nat.le_succ _)
    refine hall.imp fun ρ hρ => ⟨hρ.2, ?_⟩
    obtain ⟨⟨hvalues, hcode⟩, htarget⟩ := hρ
    rw [Expr.callees]
    exact hcode.append_of_slots hslots
      (.call ⟨k, declared, rfl, rfl, hvalues, htarget⟩)

/-- The code of typed arguments is typed, and the results have the types of the arguments. Each
argument takes registers behind those of the one before, so the types that they ask for can all be
given. -/
theorem lowerExprs_typed : ∀ {es : List (Expr Typing)} {ts : List Ty},
    TypedExprs d (localsOf F) es ts →
    ∀ {s : Supply} {l : Lowered (List Register)}, lowerExprs es s = some l → Fits s F →
      Between s.registers l.next.registers fun ρ => l.value.map ρ = ts.map .ofTy ∧
        CodeTyped d returns ρ (slotsIn F) (Expr.calleesOf es) l.code
  | _, _, .nil, s, l, h, hs => by
    rw [lowerExprs_nil] at h
    subst h
    refine .of_all fun ρ => ⟨rfl, ?_⟩
    rw [Expr.calleesOf]
    exact .nil
  | _, _, .cons he hes, s, l, h, hs => by
    obtain ⟨a, b, ha, hb, rfl⟩ := lowerExprs_cons.mp h
    have htakes := takes_of_lowerExpr _ ha
    have htakes' := takes_of_lowerExprs _ hb
    have hslots := slotsOf_expr (target_of_lowerExpr _ ha)
    have hall := (lowerExpr_typed he ha hs).and
      (lowerExprs_typed hes hb (hs.of_frame htakes.frame)) htakes.registers htakes'.registers
    refine hall.imp fun ρ hρ => ?_
    obtain ⟨⟨hva, hca⟩, hvb, hcb⟩ := hρ
    refine ⟨by simp [hva, hvb], ?_⟩
    rw [Expr.calleesOf]
    exact hca.append_of_slots hslots hcb

end

/-! ## Statements -/

/-- The machine type of results. -/
def returnsOf (F : Option Frame) : Option MachineTy := F.map fun f => .ofTy f.returns

/-- Declarations do not change what a function returns. -/
@[simp] theorem returnsOf_past (vars : List (String × Ty)) :
    returnsOf (Frame.past F vars) = returnsOf F := by
  cases F <;> rfl

/-- The storage behind a piece of code holds the variables behind the statements. -/
theorem slotsIn_past {s : Supply} {vars : List (String × Ty)} {code : List Instr} (hs : Fits s F)
    (h : Stores s.frame vars code) : slotsIn F ++ slotsOf code = slotsIn (Frame.past F vars) := by
  rw [h.slots, hs.inside]
  cases F with
  | none => rfl
  | some f => simp [slotsIn, Frame.past, localsOf]

/-- The names in the frame fit behind a piece of code as they did before it. -/
theorem Fits.next {s : Supply} {vars : List (String × Ty)} {l : Lowered Unit} (hs : Fits s F)
    (h : Adds s vars l) : Fits l.next (Frame.past F vars) := hs.past h.frame

/-- The code of a declaration with a value is typed: the storage is made between the value and the
store. -/
theorem lowerDeclaration_typed {x : String} {e : Expr Typing} {t : Ty}
    (he : TypedExpr d (localsOf F) e t) (hnew : d.New F x t) {s : Supply} {l : Lowered Unit}
    (h : lowerDeclaration (some t) x e s = some l) (hs : Fits s F) :
    Between s.registers l.next.registers fun ρ =>
      CodeTyped d returns ρ (slotsIn F) e.callees l.code := by
  obtain ⟨u, a, hu, ha, rfl⟩ := lowerDeclaration_eq_some.mp h
  obtain rfl := Option.some.inj hu
  have htakes := takes_of_lowerExpr _ ha
  have hslots := slotsOf_expr (target_of_lowerExpr _ ha)
  have hfits := hs.of_frame htakes.frame
  have hfits' : Fits (a.next.declare x) (Frame.past F [(x, t)]) := hfits.past rfl
  refine (lowerExpr_typed returns he ha hs).imp fun ρ hρ => ?_
  obtain ⟨hvalue, hcode⟩ := hρ
  -- The store comes behind the storage, so the name it is for is declared by then.
  have hstore : CodeTyped d returns ρ (slotsIn (Frame.past F [(x, t)])) []
      [.store (.ofTy t) a.value ((a.next.declare x).location x)] :=
    .single hvalue (declared_of_access hfits' hnew.var rfl) (by simp) rfl
  rw [← slotsIn_past hfits (stores_storage a.next x t)] at hstore
  have hall := hcode.append_of_slots hslots ((CodeTyped.storage a.next _ x).append hstore)
  rw [List.append_nil, List.append_nil] at hall
  exact hall

/-- The code of an expression with one more instruction that uses its result. Prints, stores and
`return`s are of this form. -/
theorem lowerExpr_then {e : Expr Typing} {t : Ty} (he : TypedExpr d (localsOf F) e t) {s : Supply}
    {a : Lowered Register} (ha : lowerExpr e s = some a) (hs : Fits s F) {i : Instr}
    (hi : ∀ ρ : Register → MachineTy, ρ a.value = .ofTy t → i.Typed ρ)
    (hacc : ∀ loc ty, i.access? = some (loc, ty) → Declared d (slotsIn F) loc ty)
    (hret : ∀ ty r, i = .ret ty r → returns = some ty) (hcall : i.call? = none) :
    Between s.registers a.next.registers fun ρ =>
      CodeTyped d returns ρ (slotsIn F) e.callees (a.code ++ [i]) := by
  have hslots := slotsOf_expr (target_of_lowerExpr _ ha)
  refine (lowerExpr_typed returns he ha hs).imp fun ρ hρ => ?_
  have hall := hρ.2.append_of_slots hslots (.single (hi ρ hρ.1) hacc hret hcall)
  rwa [List.append_nil] at hall

mutual

/-- The code of a typed statement is typed on the registers that it takes, with the calls of the
statement. -/
theorem lowerStmt_typed : ∀ {F : Option Frame} {st : CheckedStmt}, TypedStmt d F st →
    ∀ {s : Supply} {l : Lowered Unit}, lowerStmt st s = some l → Fits s F →
      Between s.registers l.next.registers fun ρ =>
        CodeTyped d (returnsOf F) ρ (slotsIn F) st.callees l.code
  | _, _, .print note he, s, l, h, hs => by
    obtain ⟨a, u, ha, hu, rfl⟩ := lowerStmt_print.mp h
    obtain rfl := Option.some.inj (he.ty_eq.symm.trans hu)
    rw [CheckedStmt.callees]
    exact lowerExpr_then _ he ha hs (fun ρ hρ => hρ) (by simp [Instr.access?]) (by simp) rfl
  | F, _, .var (t := t) note new, s, l, h, hs => by
    obtain ⟨u, hu, rfl⟩ := lowerStmt_var.mp h
    refine .of_all fun ρ => ?_
    rw [CheckedStmt.callees]
    exact .storage s _ _
  | _, _, .varWith note he new, s, l, h, hs => by
    rw [lowerStmt_varWith, note] at h
    rw [CheckedStmt.callees]
    exact lowerDeclaration_typed _ he new h hs
  | _, _, .const note he new, s, l, h, hs => by
    rw [lowerStmt_const, note] at h
    rw [CheckedStmt.callees]
    exact lowerDeclaration_typed _ he new h hs
  | _, _, .write note he hv, s, l, h, hs => by
    obtain ⟨a, u, ha, hu, rfl⟩ := lowerStmt_write.mp h
    obtain rfl := Option.some.inj (he.ty_eq.symm.trans hu)
    rw [CheckedStmt.callees]
    refine lowerExpr_then _ he ha hs (fun ρ hρ => hρ) ?_ (by simp) rfl
    -- The location is found with the supply behind the value, which has the same frame.
    have hfits := hs.of_frame (takes_of_lowerExpr _ ha).frame
    exact declared_of_access hfits hv rfl
  | F, _, .branch note he ht hf, s, l, h, hs => by
    obtain ⟨a, b, c, ha, hb, hc, rfl⟩ := lowerStmt_branch.mp h
    have htakes := takes_of_lowerExpr _ ha
    have hslots := slotsOf_expr (target_of_lowerExpr _ ha)
    have hadds := adds_of_lowerBlock _ hb
    have hadds' := adds_of_lowerBlock _ hc
    have hfits : Fits (a.next.skipLabels 3) F := hs.of_frame htakes.frame
    have hstores := stores_of_lowerBlock _ hb
    have hcond := lowerExpr_typed (returnsOf F) he ha hs
    have htrue := lowerBlock_typed ht hb hfits
    have hfalse := lowerBlock_typed hf hc (hfits.next hadds)
    have hall := (hcond.and htrue htakes.registers hadds.registers).and hfalse
      (Nat.le_trans htakes.registers hadds.registers) hadds'.registers
    refine hall.imp fun ρ hρ => ?_
    obtain ⟨⟨⟨hvalue, hca⟩, hcb⟩, hcc⟩ := hρ
    rw [returnsOf_past, ← slotsIn_past hfits hstores] at hcc
    rw [CheckedStmt.callees]
    exact hca.append_of_slots hslots (hcb.branch hvalue hcc _ _ _)
  | F, _, .loop note he hb, s, l, h, hs => by
    obtain ⟨a, b, ha, hb', rfl⟩ := lowerStmt_loop.mp h
    have htakes := takes_of_lowerExpr _ ha
    have hslots := slotsOf_expr (target_of_lowerExpr _ ha)
    have hadds := adds_of_lowerBlock _ hb'
    have hfits : Fits (s.skipLabels 3) F := hs.of_frame rfl
    have hcond := lowerExpr_typed (returnsOf F) he ha hfits
    have hbody := lowerBlock_typed hb hb' (hfits.of_frame htakes.frame)
    refine (hcond.and hbody htakes.registers hadds.registers).imp fun ρ hρ => ?_
    obtain ⟨⟨hvalue, hca⟩, hcb⟩ := hρ
    rw [CheckedStmt.callees]
    exact hca.loop hslots hvalue hcb _ _ _
  | _, _, .function note declared params distinct hb, s, l, h, hs => by
    rw [lowerStmt_function] at h
    subst h
    refine .of_all fun ρ => ?_
    rw [CheckedStmt.callees]
    exact .nil
  | _, _, .ret (f := f) note he, s, l, h, hs => by
    obtain ⟨a, u, ha, hu, rfl⟩ := lowerStmt_ret.mp h
    obtain rfl := Option.some.inj (he.ty_eq.symm.trans hu)
    rw [CheckedStmt.callees]
    refine lowerExpr_then (F := some f) _ he ha hs (fun ρ hρ => hρ) (by simp [Instr.access?]) ?_ rfl
    intro ty r hret
    obtain ⟨rfl, -⟩ := Instr.ret.inj hret
    rfl

/-- The code of a typed block is typed: types for the statements are found on ranges that follow
each other. -/
theorem lowerBlock_typed : ∀ {F : Option Frame} {ss : List CheckedStmt}, TypedBlock d F ss →
    ∀ {s : Supply} {l : Lowered Unit}, lowerBlock ss s = some l → Fits s F →
      Between s.registers l.next.registers fun ρ =>
        CodeTyped d (returnsOf F) ρ (slotsIn F) (calleesOf ss) l.code
  | _, _, .nil, s, l, h, hs => by
    rw [lowerBlock_nil] at h
    subst h
    refine .of_all fun ρ => ?_
    rw [CheckedStmt.calleesOf]
    exact .nil
  | F, _, .cons hst hss, s, l, h, hs => by
    obtain ⟨a, b, ha, hb, rfl⟩ := lowerBlock_cons.mp h
    have hadds := adds_of_lowerStmt _ ha
    have hadds' := adds_of_lowerBlock _ hb
    have hfirst := lowerStmt_typed hst ha hs
    have hrest := lowerBlock_typed hss hb (hs.next hadds)
    refine (hfirst.and hrest hadds.registers hadds'.registers).imp fun ρ hρ => ?_
    obtain ⟨hca, hcb⟩ := hρ
    rw [returnsOf_past, ← slotsIn_past hs (stores_of_lowerStmt _ ha)] at hcb
    rw [CheckedStmt.calleesOf]
    exact hca.append hcb

end

end Pieces

/-! ## Functions -/

/-- What a typed function became: its name, parameters and results in the code, code that is typed,
and storage of its own only, each part of it under another name. -/
structure FunctionCode (d : Outline) (ρ : Register → MachineTy) (f : CheckedFunction)
    (g : Function) (vars : List (String × Ty)) (t : Ty) : Prop where
  params : f.params = vars.map fun v => ⟨v.1, some v.2⟩
  returns : f.returns = some t
  name : g.name = functionSymbol f.name
  params_eq : g.params = vars.map machineVar
  returns_eq : g.returns = .ofTy t
  code : CodeTyped d (some g.returns) ρ g.params (calleesOf f.body) g.code
  distinct : ((g.params ++ slotsOf g.code).map Prod.fst).Nodup

/-- A typed function becomes a function of typed code. Its frame starts with the parameters, and all
names in it are distinct. -/
theorem lowerFunction_typed {d : Outline} {f : CheckedFunction} {k : Callee}
    {vars : List (String × Ty)} (hf : TypedFunction d f k vars) {s : Supply} {l : Lowered Function}
    (h : lowerFunction f s = some l) :
    s.registers ≤ l.next.registers ∧ Between s.registers l.next.registers fun ρ =>
      FunctionCode d ρ f l.value vars k.returns := by
  obtain ⟨a, ha, rfl⟩ := lowerFunction_body hf h
  have hfits : Fits { s with frame := some (vars.map Prod.fst) } (some ⟨vars, k.returns⟩) :=
    ⟨rfl, fun x => Iff.rfl⟩
  have hadds := adds_of_lowerBlock _ ha
  have hstores := stores_of_lowerBlock _ ha
  refine ⟨hadds.registers, (lowerBlock_typed hf.body ha hfits).imp fun ρ hρ => ?_⟩
  refine ⟨hf.params, hf.returns, rfl, rfl, rfl, hρ, ?_⟩
  have hdistinct := hf.body.distinct hf.distinct
  rw [← map_fst_machineVar, ← slotsIn, ← slotsIn_past hfits hstores] at hdistinct
  exact hdistinct

/-- All functions of a program become typed code at once, since each takes registers of its own.
Hence one assignment of types to registers will do for the program. -/
theorem lowerFunctions_typed {d : Outline} {fs : List CheckedFunction}
    (hfs : ∀ f ∈ fs, ∃ k vars, TypedFunction d f k vars) {s : Supply} {l : Lowered (List Function)}
    (h : lowerFunctions fs s = some l) :
    s.registers ≤ l.next.registers ∧ Between s.registers l.next.registers fun ρ =>
      List.Forall₂ (fun f g => ∃ vars t, FunctionCode d ρ f g vars t) fs l.value := by
  induction fs generalizing s l with
  | nil =>
    rw [lowerFunctions_nil] at h
    subst h
    exact ⟨Nat.le_refl _, .of_all fun ρ => .nil⟩
  | cons f fs ih =>
    obtain ⟨a, b, ha, hb, rfl⟩ := lowerFunctions_cons.mp h
    obtain ⟨k, vars, hf⟩ := hfs f List.mem_cons_self
    obtain ⟨hle, hfirst⟩ := lowerFunction_typed hf ha
    obtain ⟨hle', hrest⟩ := ih (fun g hg => hfs g (List.mem_cons_of_mem _ hg)) hb
    refine ⟨Nat.le_trans hle hle', (hfirst.and hrest hle hle').imp fun ρ hρ => ?_⟩
    exact .cons ⟨vars, k.returns, hρ.1⟩ hρ.2

/-- The statements outside of functions. -/
structure InitCode (d : Outline) (ρ : Register → MachineTy) (body : List CheckedStmt)
    (g : Function) : Prop where
  params_eq : g.params = []
  code : CodeTyped d (some g.returns) ρ [] (calleesOf body) g.code
  slots : slotsOf g.code = []

/-- The statements outside of functions become typed code. The function they are in returns zero,
from a register behind those of the statements. -/
theorem lowerInit_typed {d : Outline} {ss : List CheckedStmt} (hss : TypedBlock d none ss)
    {s : Supply} {l : Lowered Function} (h : lowerInit ss s = some l) :
    s.registers ≤ l.next.registers ∧ Between s.registers l.next.registers fun ρ =>
      InitCode d ρ ss l.value := by
  obtain ⟨a, ha, rfl⟩ := lowerInit_eq_some.mp h
  have hfits : Fits { s with frame := none } none := ⟨rfl, fun x => Iff.rfl⟩
  have hadds := adds_of_lowerBlock _ ha
  have hstores := stores_of_lowerBlock _ ha
  -- One register more than the statements take.
  have hall := (lowerBlock_typed hss ha hfits).and (Between.fresh a.next .int) hadds.registers
    (Nat.le_succ _)
  refine ⟨Nat.le_succ_of_le hadds.registers, hall.imp fun ρ hρ => ?_⟩
  obtain ⟨hcode, hzero⟩ := hρ
  have hslots : slotsOf a.code = [] := hstores.slots
  have hmove : CodeTyped d (some .int) ρ [] [] [.move (.int 0) a.next.fresh] :=
    .plain (by simpa [Instr.Typed, Immediate.ty] using hzero) (by simp [Instr.access?]) (by simp)
      rfl
  have hret : CodeTyped d (some .int) ρ [] [] [.ret .int a.next.fresh] := by
    refine .single hzero (by simp [Instr.access?]) ?_ rfl
    intro ty r heq
    obtain ⟨rfl, -⟩ := Instr.ret.inj heq
    rfl
  -- Outside of functions nothing returns, so the type of results is free there.
  have hbody : CodeTyped d (some .int) ρ [] (calleesOf ss) a.code :=
    ⟨hcode.instrs, hcode.accesses, fun ty r hr => (nomatch hcode.returns ty r hr),
      hcode.calls⟩
  have hwhole := hbody.append_of_slots hslots (hmove.append_of_slots rfl hret)
  rw [List.append_nil, List.append_nil] at hwhole
  exact ⟨rfl, hwhole, (stores_of_lowerInit h).slots⟩

/-! ## Programs -/

/-- Under distinct names a pair is the only one of its name. So a variable that is declared at all
is declared once, with one type. -/
theorem filter_fst_eq {α : Type} {vs : List (String × α)} (h : (vs.map Prod.fst).Nodup)
    {x : String} {a : α} (hmem : (x, a) ∈ vs) : (vs.filter fun v => v.1 = x) = [(x, a)] := by
  induction vs with
  | nil => cases hmem
  | cons v vs ih =>
    rw [List.map_cons, List.nodup_cons] at h
    rcases List.mem_cons.mp hmem with rfl | hmem
    · have hrest : (vs.filter fun v => v.1 = x) = [] := by
        rw [List.filter_eq_nil_iff]
        intro w hw hwx
        exact h.1 (List.mem_map.mpr ⟨w, hw, by simpa using hwx⟩)
      rw [List.filter_cons_of_pos (by simp), hrest]
    · have hne : v.1 ≠ x := by
        intro heq
        exact h.1 (List.mem_map.mpr ⟨(x, a), hmem, heq.symm⟩)
      rw [List.filter_cons_of_neg (by simpa using hne)]
      exact ih h.2 hmem

/-- A call that suits the declaration of its callee suits the function that the declaration
became. -/
theorem callTyped_of_callOf {p : CheckedProgram} {d : Outline} {asm : Assembly}
    {ρ : Register → MachineTy} (hd : List.Forall₂ FunctionIs p.functions d.functions)
    (hfs : List.Forall₂ (fun f g => ∃ vars t, FunctionCode d ρ f g vars t) p.functions
      asm.functions.tail)
    {callee : String} {call : String × List Register × Register} (h : CallOf d ρ callee call) :
    CallTyped p asm ρ callee call := by
  obtain ⟨k, hk, rfl, hname, hargs, htarget⟩ := h
  obtain ⟨f, g, hmem, hfk, vars, t, hfg⟩ := exists_mem_zip hd hfs hk
  -- The three lists of functions, of the source, the outline and the code, have the same order.
  have hparams : vars.map Prod.snd = k.params := by
    have htypes := hfk.params
    rw [hfg.params, List.map_map] at htypes
    apply List.map_injective_iff.mpr (fun _ _ => Option.some.inj)
    rw [List.map_map]
    exact htypes
  obtain rfl : t = k.returns := Option.some.inj (hfg.returns.symm.trans hfk.returns)
  refine ⟨f, g, hmem, hfk.name, ?_, ?_, ?_⟩
  · rw [hname, hfg.name, hfk.name]
  · rw [hargs, ← hparams, hfg.params_eq, List.map_map, List.map_map]
    rfl
  · rw [htarget, hfg.returns_eq]

/-- Typed code makes a typed function when the storage is declared under distinct names. For each
access there is a declaration of its type in front; distinct names make it the only one. -/
theorem functionTyped_of_code {p : CheckedProgram} {d : Outline} {asm : Assembly}
    {ρ : Register → MachineTy} (hglobals : asm.globals = d.globals.map machineVar)
    (hd : (d.globals.map Prod.fst).Nodup)
    (hcalls : ∀ callee call, CallOf d ρ callee call → CallTyped p asm ρ callee call)
    {body : List CheckedStmt} {g : Function}
    (hcode : CodeTyped d (some g.returns) ρ g.params (calleesOf body) g.code)
    (hg : ((g.params ++ slotsOf g.code).map Prod.fst).Nodup) : FunctionTyped p asm ρ body g := by
  refine ⟨hcode.instrs, ?_, ?_, hcode.calls.imp hcalls⟩
  · intro before i after heq loc ty hacc
    have hdecl := hcode.accesses before i after heq loc ty hacc
    -- A global is declared among the variables of the program, a local one by an instruction before
    -- the access; distinct names make the declaration the only one.
    cases loc with
    | global x =>
      have hnames : (asm.globals.map Prod.fst).Nodup := by
        rw [hglobals, map_fst_machineVar]
        exact hd
      exact filter_fst_eq hnames (hglobals ▸ hdecl)
    | frame x =>
      have hsub : (x, ty) ∈ g.params ++ slotsOf g.code := by
        rw [heq, slotsOf_append, ← List.append_assoc]
        exact List.mem_append_left _ hdecl
      exact ⟨filter_fst_eq hg hsub, hdecl⟩
  · intro ty r hr
    exact (Option.some.inj (hcode.returns ty r hr)).symm

end Code

open Code

/-- **Generated code is well typed.** Every program without diagnostics has code, and one assignment
of machine types to registers suits all functions of it. -/
theorem generate_wellTyped (p : Program) (h : p.analyze.diagnostics = []) :
    ∃ asm, generate p.analyze = .ok asm ∧ ∃ ρ : Register → MachineTy,
      List.Forall₂ (FunctionTyped p.analyze.program asm ρ) (bodies p.analyze.program)
        asm.functions := by
  obtain ⟨d, hd⟩ := typedProgram_of_clean p h
  obtain ⟨l, hl⟩ := exists_lowerProgram hd.body.none_notMem .initial
  refine ⟨l.value, generate_eq_ok.mpr ⟨h, l, hl, rfl⟩, ?_⟩
  obtain ⟨a, b, ha, hb, rfl⟩ := lowerProgram_eq_some.mp hl
  obtain ⟨hle, hinit⟩ := lowerInit_typed hd.globalStatements ha
  obtain ⟨hle', hfunctions⟩ := lowerFunctions_typed hd.function_typed hb
  obtain ⟨ρ, hi, hfs⟩ := (hinit.and hfunctions hle hle').exists
  have hglobals : Assembly.globals ⟨a.value :: b.value⟩ = d.globals.map machineVar := by
    rw [globals_of_lowerProgram ha hb, hd.globals, CheckedProgram.declarationsOf_globalStatements]
  have hcalls : ∀ callee call, CallOf d ρ callee call →
      CallTyped p.analyze.program ⟨a.value :: b.value⟩ ρ callee call :=
    fun _ _ hcall => callTyped_of_callOf hd.functions hfs hcall
  refine ⟨ρ, .cons ?_ ?_⟩
  · refine functionTyped_of_code hglobals hd.distinct hcalls ?_ ?_
    · rw [hi.params_eq]
      exact hi.code
    · rw [hi.params_eq, hi.slots]
      exact List.nodup_nil
  · rw [List.forall₂_map_left_iff]
    refine hfs.imp fun f g hfg => ?_
    obtain ⟨vars, t, hfg⟩ := hfg
    exact functionTyped_of_code hglobals hd.distinct hcalls hfg.code hfg.distinct

/-- A program with a loop and a call whose code is typed. -/
theorem countdown_wellTyped : countdown.analyze.diagnostics = [] ∧
    ∃ asm, generate countdown.analyze = .ok asm ∧ ∃ ρ : Register → MachineTy,
      List.Forall₂ (FunctionTyped countdown.analyze.program asm ρ)
        (bodies countdown.analyze.program) asm.functions :=
  have hclean : countdown.analyze.diagnostics = [] := by decide
  ⟨hclean, generate_wellTyped countdown hclean⟩

end Pulse

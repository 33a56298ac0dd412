/-
Every register is written once and read once.

Registers are numbered through the whole program, in the order of the instructions that write them.
What an instruction writes waits in its register until one instruction behind it takes it away, and
that instruction comes before the next label and the next jump. So the registers that wait at a
point of the code are all there is to say: an expression leaves its value waiting behind whatever
waited before it, and behind a statement nothing waits.

Code is therefore put together from two kinds of pieces. A piece of the first kind stays inside of a
basic block and leaves some registers waiting; a piece of the second kind leaves none, and such
pieces can stand behind each other whatever labels and jumps are between them.
-/
import Pulse.Proofs.RegisterUse
import Pulse.Proofs.Resolved

set_option autoImplicit false

namespace Pulse.Code

/-! ## Numbers in order -/

/-- The numbers above the first one up to the second one, in order. -/
def numbers (lo hi : Nat) : List Nat := List.range' (lo + 1) (hi - lo)

/-- Between a number and itself there is none. -/
@[simp] theorem numbers_self (n : Nat) : numbers n n = [] := by
  rw [numbers, Nat.sub_self, List.range'_zero]

/-- Ranges that follow each other make one. -/
theorem numbers_append {lo mid hi : Nat} (hlo : lo ≤ mid) (hhi : mid ≤ hi) :
    numbers lo mid ++ numbers mid hi = numbers lo hi := by
  have hstart : lo + 1 + (mid - lo) = mid + 1 := by omega
  have hlength : mid - lo + (hi - mid) = hi - lo := by omega
  have happend := List.range'_append_1 (s := lo + 1) (m := mid - lo) (n := hi - mid)
  rw [hstart, hlength] at happend
  exact happend

/-- A range of one number. -/
theorem numbers_succ (n : Nat) : numbers n (n + 1) = [n + 1] := by
  rw [numbers, Nat.add_sub_cancel_left]
  rfl

/-- An element of two lists in a row is in the first one, or all of the first one is before it. -/
theorem split_append {α : Type} {a b before after : List α} {x : α}
    (h : a ++ b = before ++ x :: after) :
    (∃ rest, a = before ++ x :: rest) ∨ ∃ rest, before = a ++ rest ∧ b = rest ++ x :: after := by
  rcases List.append_eq_append_iff.mp h with ⟨rest, hbefore, hb⟩ | ⟨rest, ha, hafter⟩
  · exact .inr ⟨rest, hbefore, hb⟩
  · rcases List.cons_eq_append_iff.mp hafter with ⟨rfl, hb⟩ | ⟨tail, rfl, -⟩
    · rw [List.append_nil] at ha
      exact .inr ⟨[], by rw [ha, List.append_nil], hb⟩
    · exact .inl ⟨tail, ha⟩

/-! ## Writes and reads of code -/

/-- The registers that instructions write, in order. -/
def targetsOf (code : List Instr) : List Register := code.filterMap Instr.target?

/-- The registers that instructions read, in order. -/
def readsOf (code : List Instr) : List Register := code.flatMap Instr.reads

/-- The instructions of all functions, in order. -/
def Assembly.code (a : Assembly) : List Instr := a.functions.flatMap Function.code

/-- Whether an instruction is neither a label nor a terminator, so that it stands inside of a basic
block. -/
def Instr.isInner (i : Instr) : Bool := i.label?.isNone && !i.isTerminator

/-- Whatever is read was written before, in the same basic block: between the two instructions there
are only inner ones. -/
def BlockLocal (code : List Instr) : Prop :=
  ∀ before i after, code = before ++ i :: after → ∀ r ∈ i.reads,
    ∃ head j between, before = head ++ j :: between ∧ j.target? = some r ∧
      ∀ k ∈ between, k.isInner

@[simp] theorem targetsOf_append (a b : List Instr) :
    targetsOf (a ++ b) = targetsOf a ++ targetsOf b :=
  List.filterMap_append

@[simp] theorem readsOf_append (a b : List Instr) : readsOf (a ++ b) = readsOf a ++ readsOf b :=
  List.flatMap_append

/-- An instruction with a target writes it. -/
theorem targetsOf_of_some {i : Instr} {r : Register} (h : i.target? = some r) :
    targetsOf [i] = [r] := by
  rw [targetsOf, List.filterMap_cons_some h, List.filterMap_nil]

/-- An instruction without a target writes nothing. -/
theorem targetsOf_of_none {i : Instr} (h : i.target? = none) : targetsOf [i] = [] := by
  rw [targetsOf, List.filterMap_cons_none h, List.filterMap_nil]

/-- The reads of one instruction. -/
theorem readsOf_singleton (i : Instr) : readsOf [i] = i.reads := List.flatMap_singleton _ _

/-- An instruction that computes stands inside of a basic block. -/
theorem isInner_of_target {i : Instr} (h : i.target?.isSome) : i.isInner := by
  cases i <;> first | rfl | cases h

/-- In inner code, what was written was written in the same basic block. -/
theorem exists_writer {before : List Instr} (hinner : ∀ i ∈ before, i.isInner) {r : Register}
    (hr : r ∈ targetsOf before) :
    ∃ head j between, before = head ++ j :: between ∧ j.target? = some r ∧
      ∀ k ∈ between, k.isInner := by
  obtain ⟨j, hj, htarget⟩ := List.mem_filterMap.mp hr
  obtain ⟨head, between, rfl⟩ := List.append_of_mem hj
  refine ⟨head, j, between, rfl, htarget, ?_⟩
  intro k hk
  exact hinner k (List.mem_append_right _ (List.mem_cons_of_mem _ hk))

/-- Code behind code: what is read in the second piece was written there, in the same basic
block. -/
theorem BlockLocal.append {a b : List Instr} (ha : BlockLocal a) (hb : BlockLocal b) :
    BlockLocal (a ++ b) := by
  intro before i after heq r hr
  rcases split_append heq with ⟨rest, hrest⟩ | ⟨rest, rfl, hrest⟩
  · exact ha before i rest hrest r hr
  · obtain ⟨head, j, between, rfl, htarget, hinner⟩ := hb rest i after hrest r hr
    exact ⟨a ++ head, j, between, by rw [List.append_assoc], htarget, hinner⟩

/-! ## Code that leaves registers waiting -/

/-- Inner code that writes the registers of a range in order and reads each of them once, apart from
those that wait behind it. What it reads it has written. -/
structure Flows (lo hi : Nat) (waiting : List Register) (code : List Instr) : Prop where
  le : lo ≤ hi
  inner : ∀ i ∈ code, i.isInner
  targets : targetsOf code = (numbers lo hi).map Register.mk
  reads : (readsOf code ++ waiting).Perm (targetsOf code)
  earlier : ∀ before i after, code = before ++ i :: after → i.reads ⊆ targetsOf before

namespace Flows

variable {lo mid hi : Nat} {vs ws : List Register} {a b code : List Instr} {i : Instr}

/-- No code leaves nothing waiting. -/
theorem nil (n : Nat) : Flows n n [] [] where
  le := Nat.le_refl n
  inner := by simp
  targets := by rw [numbers_self]; rfl
  reads := .nil
  earlier := by simp

/-- What waits was written by the code. -/
theorem waiting_subset (h : Flows lo hi vs code) : vs ⊆ targetsOf code := by
  intro r hr
  exact h.reads.mem_iff.mp (List.mem_append_right _ hr)

/-- Code behind code: what the first piece leaves waiting still waits behind the second one. The
second piece takes its registers behind those of the first, so it writes none that waits. -/
theorem append (ha : Flows lo mid vs a) (hb : Flows mid hi ws b) :
    Flows lo hi (vs ++ ws) (a ++ b) where
  le := Nat.le_trans ha.le hb.le
  inner := by
    intro i hi
    rcases List.mem_append.mp hi with hi | hi
    · exact ha.inner i hi
    · exact hb.inner i hi
  targets := by
    rw [targetsOf_append, ha.targets, hb.targets, ← List.map_append, numbers_append ha.le hb.le]
  reads := by
    -- Reads and writes are compared by how often each register is in them.
    rw [List.perm_iff_count]
    intro r
    have hra := ha.reads.count_eq r
    have hrb := hb.reads.count_eq r
    simp only [readsOf_append, targetsOf_append, List.count_append] at hra hrb ⊢
    omega
  earlier := by
    intro before i after heq
    rcases split_append heq with ⟨rest, hrest⟩ | ⟨rest, rfl, hrest⟩
    · exact ha.earlier before i rest hrest
    · rw [targetsOf_append]
      intro r hr
      exact List.mem_append_right _ (hb.earlier rest i after hrest hr)

/-- At the end of the code, what waits there has been written. -/
theorem earlier_append (h : Flows lo hi vs code) (hreads : i.reads ⊆ vs) (before : List Instr)
    (j : Instr) (after : List Instr) (heq : code ++ [i] = before ++ j :: after) :
    j.reads ⊆ targetsOf before := by
  rcases split_append heq with ⟨rest, hrest⟩ | ⟨rest, rfl, hrest⟩
  · exact h.earlier before j rest hrest
  · -- The one instruction behind the code is the one that is looked at.
    obtain ⟨rfl, hj⟩ := List.append_eq_singleton_iff.mp hrest.symm |>.resolve_right (by simp)
    obtain ⟨rfl, -⟩ := List.cons.inj hj
    rw [List.append_nil]
    exact fun r hr => h.waiting_subset (hreads hr)

/-- An instruction that takes all that waits and writes the next register. The order in which it
reads does not matter. -/
theorem take (h : Flows lo hi vs code) {r : Register} (hreads : i.reads.Perm vs)
    (hr : r = ⟨hi + 1⟩) (htarget : i.target? = some r) : Flows lo (hi + 1) [r] (code ++ [i]) where
  le := Nat.le_succ_of_le h.le
  inner := by
    intro j hj
    rcases List.mem_append.mp hj with hj | hj
    · exact h.inner j hj
    · rw [List.mem_singleton.mp hj]
      exact isInner_of_target (by rw [htarget]; rfl)
  targets := by
    rw [targetsOf_append, h.targets, targetsOf_of_some htarget, hr,
      ← numbers_append h.le (Nat.le_succ hi), List.map_append, numbers_succ]
    rfl
  reads := by
    rw [List.perm_iff_count]
    intro x
    have hwait := hreads.count_eq x
    have hcode := h.reads.count_eq x
    simp only [readsOf_append, readsOf_singleton, targetsOf_append, targetsOf_of_some htarget,
      List.count_append] at hcode ⊢
    omega
  earlier := h.earlier_append hreads.subset

/-- An inner instruction that leaves registers alone. -/
theorem skip (h : Flows lo hi vs code) (hinner : i.isInner) (hreads : i.reads = [])
    (htarget : i.target? = none) : Flows lo hi vs (code ++ [i]) where
  le := h.le
  inner := by
    intro j hj
    rcases List.mem_append.mp hj with hj | hj
    · exact h.inner j hj
    · rw [List.mem_singleton.mp hj]
      exact hinner
  targets := by rw [targetsOf_append, targetsOf_of_none htarget, List.append_nil, h.targets]
  reads := by
    rw [targetsOf_append, targetsOf_of_none htarget, List.append_nil, readsOf_append,
      readsOf_singleton, hreads, List.append_nil]
    exact h.reads
  earlier := h.earlier_append (by rw [hreads]; exact List.nil_subset _)

end Flows

/-! ## Code that leaves nothing waiting -/

/-- Code that writes the registers of a range in order and reads each of them once, in the basic
block that it was written in. -/
structure Settled (lo hi : Nat) (code : List Instr) : Prop where
  le : lo ≤ hi
  targets : targetsOf code = (numbers lo hi).map Register.mk
  reads : (readsOf code).Perm (targetsOf code)
  blocks : BlockLocal code

/-- No code has nothing to settle. -/
theorem settled_nil (n : Nat) : Settled n n [] where
  le := Nat.le_refl n
  targets := by rw [numbers_self]; rfl
  reads := .nil
  blocks := by
    intro before i after heq
    simp at heq

/-- Settled code behind settled code: the ranges of the registers follow each other as the code
does. -/
theorem Settled.append {lo mid hi : Nat} {a b : List Instr} (ha : Settled lo mid a)
    (hb : Settled mid hi b) : Settled lo hi (a ++ b) where
  le := Nat.le_trans ha.le hb.le
  targets := by
    rw [targetsOf_append, ha.targets, hb.targets, ← List.map_append, numbers_append ha.le hb.le]
  reads := by
    rw [readsOf_append, targetsOf_append]
    exact ha.reads.append hb.reads
  blocks := ha.blocks.append hb.blocks

/-- An instruction that takes all that waits and writes no register. It may end the basic block.
Everything in front of it is in its basic block, and so is the instruction that wrote what it
reads. -/
theorem Flows.settled {lo hi : Nat} {vs : List Register} {code : List Instr} {i : Instr}
    (h : Flows lo hi vs code) (hreads : i.reads = vs) (htarget : i.target? = none) :
    Settled lo hi (code ++ [i]) where
  le := h.le
  targets := by rw [targetsOf_append, targetsOf_of_none htarget, List.append_nil, h.targets]
  reads := by
    rw [readsOf_append, readsOf_singleton, hreads, targetsOf_append, targetsOf_of_none htarget,
      List.append_nil]
    exact h.reads
  blocks := by
    intro before j after heq r hr
    have htaken : i.reads ⊆ vs := by
      rw [hreads]
      exact List.Subset.refl vs
    have hwritten := h.earlier_append htaken before j after heq hr
    -- Only the last instruction may be none of the inner ones, and nothing is before it but those.
    have hbefore : before <+: code := by
      refine List.prefix_of_prefix_length_le ⟨j :: after, heq.symm⟩ (List.prefix_append code [i]) ?_
      have hlength := congrArg List.length heq
      simp only [List.length_append, List.length_cons, List.length_nil] at hlength
      omega
    exact exists_writer (fun k hk => h.inner k (hbefore.subset hk)) hwritten

/-- Labels, jumps and storage leave registers alone. -/
theorem settled_control (n : Nat) {i : Instr} (hreads : i.reads = []) (htarget : i.target? = none) :
    Settled n n [i] :=
  (Flows.nil n).settled hreads htarget

/-! ## Expressions -/

/-- Behind a unary operator its value waits, in place of that of its operand. The plus leaves
everything as it is, and the two others read their operand once and write one register more. -/
theorem lowerUnary_flows {op : UnaryOp} {ty : MachineTy} {r : Register} {lo : Nat} {s : Supply}
    {code : List Instr} (h : Flows lo s.registers [r] code) {l : Lowered Register}
    (hl : lowerUnary op ty r s = some l) :
    Flows lo l.next.registers [l.value] (code ++ l.code) := by
  -- A constant waits behind the operand, and the operation takes both.
  have hmove : ∀ v, Flows lo s.skipRegister.registers ([r] ++ [s.fresh])
      (code ++ ([] ++ [.move v s.fresh])) :=
    fun v => h.append ((Flows.nil s.registers).take .nil rfl rfl)
  -- The operation reads the constant first.
  have hswap : [s.fresh, r].Perm ([r] ++ [s.fresh]) := .swap r s.fresh []
  cases op with
  | plus =>
    rw [lowerUnary_plus] at hl
    subst hl
    rw [List.append_nil]
    exact h
  | minus =>
    rw [lowerUnary_minus] at hl
    subst hl
    have hall := (hmove (.zero ty)).take
      (i := .arith .sub ty s.fresh r s.skipRegister.fresh) hswap rfl rfl
    rw [List.append_assoc] at hall
    exact hall
  | not =>
    rw [lowerUnary_not] at hl
    subst hl
    have hall := (hmove (.int 1)).take
      (i := .bitwise .xor s.fresh r s.skipRegister.fresh) hswap rfl rfl
    rw [List.append_assoc] at hall
    exact hall

mutual

/-- Behind the code of an expression its value waits, and nothing else of it. An operator takes the
values of its operands, and a call those of its arguments. -/
theorem lowerExpr_flows : ∀ (e : Expr Typing) {s : Supply} {l : Lowered Register},
    lowerExpr e s = some l → Flows s.registers l.next.registers [l.value] l.code
  | .literal n v, s, l, h => by
    rw [lowerExpr_literal] at h
    subst h
    exact (Flows.nil s.registers).take .nil rfl rfl
  | .read n x, s, l, h => by
    obtain ⟨t, -, rfl⟩ := lowerExpr_read.mp h
    exact (Flows.nil s.registers).take .nil rfl rfl
  | .binary n op left right, s, l, h => by
    obtain ⟨a, b, t, ha, hb, -, rfl⟩ := lowerExpr_binary.mp h
    have hboth := (lowerExpr_flows left ha).append (lowerExpr_flows right hb)
    have hreads : (binaryInstr op (.ofTy t) a.value b.value b.next.fresh).reads.Perm
        ([a.value] ++ [b.value]) := by
      rw [reads_binaryInstr]
      exact .refl _
    have hall := hboth.take hreads rfl (target_binaryInstr _ _ _ _ _)
    rw [List.append_assoc] at hall
    exact hall
  | .unary n op operand, s, l, h => by
    obtain ⟨a, t, b, ha, -, hb, rfl⟩ := lowerExpr_unary.mp h
    exact lowerUnary_flows (lowerExpr_flows operand ha) hb
  | .call n f arguments, s, l, h => by
    obtain ⟨a, ha, rfl⟩ := lowerExpr_call.mp h
    exact (lowerExprs_flows arguments ha).take (.refl _) rfl rfl

/-- Behind the code of arguments their values wait, in order. -/
theorem lowerExprs_flows : ∀ (es : List (Expr Typing)) {s : Supply} {l : Lowered (List Register)},
    lowerExprs es s = some l → Flows s.registers l.next.registers l.value l.code
  | [], s, l, h => by
    rw [lowerExprs_nil] at h
    subst h
    exact .nil s.registers
  | e :: es, s, l, h => by
    obtain ⟨a, b, ha, hb, rfl⟩ := lowerExprs_cons.mp h
    exact (lowerExpr_flows e ha).append (lowerExprs_flows es hb)

end

/-! ## Statements -/

section Statements

variable {lo mid hi : Nat} {r : Register} {a b c : List Instr}

/-- A branch: its condition is taken by the instruction that decides, before the first label. Each
arm settles its own registers, so nothing waits where control comes together. -/
theorem Flows.branch (ha : Flows lo mid [r] a) {top : Nat} (hb : Settled mid top b)
    (hc : Settled top hi c) (ifTrue ifFalse merge : Label) :
    Settled lo hi (a ++ branchCode r ifTrue ifFalse merge b c) := by
  have hdecide : Settled lo mid (a ++ [.branch r ifTrue ifFalse]) := ha.settled rfl rfl
  have hlabel : ∀ n l, Settled n n [.label l] := fun n l => settled_control n rfl rfl
  have hjump : ∀ n, Settled n n [.jump merge] := fun n => settled_control n rfl rfl
  have htrue := ((hdecide.append (hlabel mid ifTrue)).append hb).append (hjump top)
  have hfalse := ((htrue.append (hlabel top ifFalse)).append hc).append (hjump hi)
  have hall := hfalse.append (hlabel hi merge)
  simp only [List.append_assoc, List.singleton_append] at hall
  simp only [branchCode, List.append_assoc, List.cons_append, List.nil_append]
  exact hall

/-- A loop: its condition is taken by the instruction that decides, before the next label. Nothing
waits when the body starts, or when the loop goes back. -/
theorem Flows.loop (ha : Flows lo mid [r] a) (hb : Settled mid hi b) (test enter merge : Label) :
    Settled lo hi (loopCode test enter merge a r b) := by
  have hdecide : Settled lo mid (a ++ [.branch r enter merge]) := ha.settled rfl rfl
  -- Piece by piece, in the order of the code; the test stands in front of the body.
  have hlabel : ∀ n l, Settled n n [.label l] := fun n l => settled_control n rfl rfl
  have hjump : ∀ n, Settled n n [.jump test] := fun n => settled_control n rfl rfl
  have hcheck := ((hjump lo).append (hlabel lo test)).append hdecide
  have hround := ((hcheck.append (hlabel mid enter)).append hb).append (hjump hi)
  have hall := hround.append (hlabel hi merge)
  simp only [List.append_assoc, List.singleton_append] at hall
  simp only [loopCode, List.append_assoc, List.cons_append, List.nil_append]
  exact hall

end Statements

/-- Making storage leaves registers alone. -/
theorem storage_isInner (s : Supply) (ty : MachineTy) (x : String) :
    (s.storage ty x).isInner ∧ (s.storage ty x).reads = [] ∧ (s.storage ty x).target? = none := by
  unfold Supply.storage
  split <;> exact ⟨rfl, rfl, rfl⟩

/-- Behind a declaration with a value no register waits. It is read by the store, which is the last
instruction. -/
theorem lowerDeclaration_settled {ty : Option Ty} {x : String} {e : Expr Typing} {s : Supply}
    {l : Lowered Unit} (h : lowerDeclaration ty x e s = some l) :
    Settled s.registers l.next.registers l.code := by
  obtain ⟨t, a, -, ha, rfl⟩ := lowerDeclaration_eq_some.mp h
  obtain ⟨hinner, hreads, htarget⟩ := storage_isInner a.next (.ofTy t) x
  -- The value waits while the storage is made.
  have hvalue := (lowerExpr_flows e ha).skip hinner hreads htarget
  have hstore := hvalue.settled
    (i := .store (.ofTy t) a.value ((a.next.declare x).location x)) rfl rfl
  rw [List.append_assoc] at hstore
  exact hstore

mutual

/-- Behind a statement no register waits. By recursion on the statement. The value of each
expression in it is read by the one instruction behind it. -/
theorem lowerStmt_settled : ∀ (st : CheckedStmt) {s : Supply} {l : Lowered Unit},
    lowerStmt st s = some l → Settled s.registers l.next.registers l.code
  | .print n e, s, l, h => by
    obtain ⟨a, t, ha, -, rfl⟩ := lowerStmt_print.mp h
    exact (lowerExpr_flows e ha).settled rfl rfl
  | .var n x none, s, l, h => by
    obtain ⟨t, -, rfl⟩ := lowerStmt_var.mp h
    obtain ⟨-, hreads, htarget⟩ := storage_isInner s (.ofTy t) x
    exact settled_control s.registers hreads htarget
  | .var n x (some e), s, l, h => lowerDeclaration_settled (lowerStmt_varWith.mp h)
  | .const n x e, s, l, h => lowerDeclaration_settled (lowerStmt_const.mp h)
  | .write n x e, s, l, h => by
    obtain ⟨a, t, ha, -, rfl⟩ := lowerStmt_write.mp h
    exact (lowerExpr_flows e ha).settled rfl rfl
  | .branch n e whenTrue whenFalse, s, l, h => by
    obtain ⟨a, b, c, ha, hb, hc, rfl⟩ := lowerStmt_branch.mp h
    have htrue := lowerBlock_settled whenTrue hb
    rw [Supply.skipLabels_registers] at htrue
    exact (lowerExpr_flows e ha).branch htrue (lowerBlock_settled whenFalse hc) _ _ _
  | .loop n e body, s, l, h => by
    obtain ⟨a, b, ha, hb, rfl⟩ := lowerStmt_loop.mp h
    have hcondition := lowerExpr_flows e ha
    rw [Supply.skipLabels_registers] at hcondition
    exact hcondition.loop (lowerBlock_settled body hb) _ _ _
  | .function n f ps r body, s, l, h => by
    rw [lowerStmt_function] at h
    subst h
    exact settled_nil s.registers
  | .ret n e, s, l, h => by
    obtain ⟨a, t, ha, -, rfl⟩ := lowerStmt_ret.mp h
    exact (lowerExpr_flows e ha).settled rfl rfl

/-- Behind a block no register waits. -/
theorem lowerBlock_settled : ∀ (ss : List CheckedStmt) {s : Supply} {l : Lowered Unit},
    lowerBlock ss s = some l → Settled s.registers l.next.registers l.code
  | [], s, l, h => by
    rw [lowerBlock_nil] at h
    subst h
    exact settled_nil s.registers
  | st :: ss, s, l, h => by
    obtain ⟨a, b, ha, hb, rfl⟩ := lowerBlock_cons.mp h
    exact (lowerStmt_settled st ha).append (lowerBlock_settled ss hb)

end

/-! ## Functions and programs -/

/-- Behind the statements outside of functions no register waits, nor behind the zero that is
returned. -/
theorem lowerInit_settled {ss : List CheckedStmt} {s : Supply} {l : Lowered Function}
    (h : lowerInit ss s = some l) : Settled s.registers l.next.registers l.value.code := by
  obtain ⟨a, ha, rfl⟩ := lowerInit_eq_some.mp h
  have hzero : Flows a.next.registers (a.next.registers + 1) [a.next.fresh]
      ([] ++ [.move (.int 0) a.next.fresh]) :=
    (Flows.nil a.next.registers).take .nil rfl rfl
  exact (lowerBlock_settled ss ha).append (hzero.settled rfl rfl)

/-- Behind the body of a function no register waits. -/
theorem lowerFunction_settled {f : CheckedFunction} {s : Supply} {l : Lowered Function}
    (h : lowerFunction f s = some l) : Settled s.registers l.next.registers l.value.code := by
  obtain ⟨vars, t, a, -, -, ha, rfl⟩ := lowerFunction_eq_some.mp h
  have hbody := lowerBlock_settled f.body ha
  exact hbody

/-- What adds up along code adds up along the functions of a list, where each goes on counting at
the number at which the one before stopped. -/
theorem total_of_lowerFunctions (count : Supply → Nat) (P : Nat → Nat → List Instr → Prop)
    (hnil : ∀ n, P n n [])
    (happend : ∀ {lo mid hi : Nat} {a b : List Instr}, P lo mid a → P mid hi b → P lo hi (a ++ b))
    (hone : ∀ {f : CheckedFunction} {s : Supply} {l : Lowered Function},
      lowerFunction f s = some l → P (count s) (count l.next) l.value.code)
    {fs : List CheckedFunction} {s : Supply} {l : Lowered (List Function)}
    (h : lowerFunctions fs s = some l) :
    P (count s) (count l.next) (l.value.flatMap Function.code) := by
  induction fs generalizing s l with
  | nil =>
    rw [lowerFunctions_nil] at h
    subst h
    exact hnil (count s)
  | cons f fs ih =>
    obtain ⟨a, b, ha, hb, rfl⟩ := lowerFunctions_cons.mp h
    rw [List.flatMap_cons]
    exact happend (hone ha) (ih hb)

/-- What holds of the code of each function, as it is lowered, holds of all functions of a list. -/
theorem forall_of_lowerFunctions {P : List Instr → Prop}
    (hone : ∀ {f : CheckedFunction} {s : Supply} {l : Lowered Function},
      lowerFunction f s = some l → P l.value.code)
    {fs : List CheckedFunction} {s : Supply} {l : Lowered (List Function)}
    (h : lowerFunctions fs s = some l) : ∀ g ∈ l.value, P g.code := by
  intro g hg
  have hfs := forall₂_of_lowerFunctions h
  obtain ⟨f, -, -, ⟨s', a, ha, rfl⟩, -⟩ := exists_mem_zip hfs hfs hg
  exact hone ha

end Pulse.Code

namespace Pulse

open Code

/-- **Registers are written once and read once.** Every program without diagnostics has code. The
registers that the instructions of all functions write are, in order, those with the numbers from
one up to some number; each of them is read by one operand of the whole program, and no other is
read; and whatever is read was written by an instruction before, of the same function and in the
same basic block. -/
theorem registers_written_and_read_once (p : Program) (h : p.analyze.diagnostics = []) :
    ∃ asm n, generate p.analyze = .ok asm ∧
      targetsOf asm.code = (List.range' 1 n).map Register.mk ∧
      (readsOf asm.code).Perm ((List.range' 1 n).map Register.mk) ∧
      ∀ g ∈ asm.functions, BlockLocal g.code := by
  obtain ⟨d, hd⟩ := typedProgram_of_clean p h
  obtain ⟨init, rest, hinit, hrest, hasm⟩ := exists_generate h hd
  have hfirst := lowerInit_settled hinit
  have hothers := total_of_lowerFunctions Supply.registers Settled settled_nil Settled.append
    lowerFunction_settled hrest
  have hall := hfirst.append hothers
  refine ⟨_, rest.next.registers, hasm, hall.targets, hall.targets ▸ hall.reads, ?_⟩
  intro g hg
  rcases List.mem_cons.mp hg with rfl | hg
  · exact hfirst.blocks
  · exact forall_of_lowerFunctions (fun hl => (lowerFunction_settled hl).blocks) hrest g hg

/-- The program takes 22 registers. -/
theorem countdown_registers : countdown.analyze.diagnostics = [] ∧
    ∃ asm, generate countdown.analyze = .ok asm ∧
      targetsOf asm.code = (List.range' 1 22).map Register.mk ∧
      (readsOf asm.code).Perm ((List.range' 1 22).map Register.mk) ∧
      ∀ g ∈ asm.functions, BlockLocal g.code := by
  have hclean : countdown.analyze.diagnostics = [] := by decide
  obtain ⟨asm, n, hasm, htargets, hreads, hblocks⟩ :=
    registers_written_and_read_once countdown hclean
  have hcount : (generate countdown.analyze).toOption.map
      (fun asm => (targetsOf asm.code).length) = some 22 := by decide +kernel
  obtain rfl : n = 22 := by
    rw [hasm] at hcount
    have hlength : (targetsOf asm.code).length = _ := Option.some.inj hcount
    rwa [htargets, List.length_map, List.length_range'] at hlength
  exact ⟨hclean, asm, hasm, htargets, hreads, hblocks⟩

end Pulse

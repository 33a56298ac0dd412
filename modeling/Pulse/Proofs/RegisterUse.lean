/-
How generated code uses registers and labels.

A register is written before it is read, along every way the machine can take through a function.
This follows from the order of the instructions alone: what an expression computes is read right
behind it, and no register is read behind a label that was written before it. So it is enough to
know the registers that were written since the last label. Jumps go to labels of the same
construct, so they go to labels of the same function.
-/
import Pulse.Proofs.LoweredCode

set_option autoImplicit false

namespace Pulse.Code

/-! ## Reads and jumps -/

/-- The registers that an instruction reads. -/
def Instr.reads : Instr → List Register
  | .arith _ _ left right _ => [left, right]
  | .bitwise _ left right _ => [left, right]
  | .compare _ _ left right _ => [left, right]
  | .store _ value _ => [value]
  | .print _ value => [value]
  | .branch condition _ _ => [condition]
  | .call _ arguments _ => arguments
  | .ret _ value => [value]
  | .move _ _ | .global _ _ | .alloc _ _ | .load _ _ _ | .label _ | .jump _ => []

/-- The labels that an instruction may go to. -/
def Instr.jumps : Instr → List Label
  | .jump l => [l]
  | .branch _ ifTrue ifFalse => [ifTrue, ifFalse]
  | _ => []

/-- The registers that are known to be written behind an instruction. To a label the machine may
come from elsewhere, so nothing is known there. -/
def Instr.written (rs : List Register) (i : Instr) : List Register :=
  match i with
  | .label _ => []
  | i => i.target?.toList ++ rs

/-- The registers that are known to be written behind several instructions. -/
def writtenBehind (rs : List Register) (code : List Instr) : List Register :=
  code.foldl Instr.written rs

/-- With some registers written, each instruction reads only registers that are known to be
written before it. -/
def Prepared (rs : List Register) : List Instr → Prop
  | [] => True
  | i :: code => i.reads ⊆ rs ∧ Prepared (i.written rs) code

/-- Behind an instruction with a target the target is written. -/
theorem written_of_target {i : Instr} {r : Register} (h : i.target? = some r)
    (rs : List Register) : i.written rs = r :: rs := by
  unfold Instr.written
  split
  · cases h
  · rw [h]
    rfl

/-- Other instructions write nothing. -/
theorem written_of_none {i : Instr} (h : i.target? = none) (rs : List Register) :
    i.written rs ⊆ rs := by
  unfold Instr.written
  split
  · exact List.nil_subset rs
  · rw [h]
    exact fun _ hr => hr

/-- With more registers written before, more are written behind. -/
theorem written_mono {rs rs' : List Register} (h : rs ⊆ rs') (i : Instr) :
    i.written rs ⊆ i.written rs' := by
  unfold Instr.written
  split
  · exact fun _ hr => hr
  · intro r hr
    rcases List.mem_append.mp hr with hr | hr
    · exact List.mem_append_left _ hr
    · exact List.mem_append_right _ (h hr)

/-! ## Pieces of code -/

/-- What is written behind two pieces of code. -/
theorem writtenBehind_append (rs : List Register) (a b : List Instr) :
    writtenBehind rs (a ++ b) = writtenBehind (writtenBehind rs a) b :=
  List.foldl_append

/-- Code behind code: the second piece finds what the first one has written. -/
theorem Prepared.append {rs : List Register} {a b : List Instr} (ha : Prepared rs a)
    (hb : Prepared (writtenBehind rs a) b) : Prepared rs (a ++ b) := by
  induction a generalizing rs with
  | nil => exact hb
  | cons i a ih => exact ⟨ha.1, ih ha.2 hb⟩

/-- Code that can run with some registers written can run with more. -/
theorem Prepared.mono {rs rs' : List Register} (h : rs ⊆ rs') {code : List Instr}
    (hcode : Prepared rs code) : Prepared rs' code := by
  induction code generalizing rs rs' with
  | nil => trivial
  | cons i code ih => exact ⟨fun _ hr => h (hcode.1 hr), ih (written_mono h i) hcode.2⟩

/-- From a label on, nothing has to be written before. -/
theorem Prepared.of_label {rs : List Register} {code : List Instr} (h : Prepared rs code) {k : Nat}
    {l : Label} (hk : code[k]? = some (.label l)) : Prepared [] (code.drop k) := by
  induction code generalizing rs k with
  | nil => cases hk
  | cons i code ih =>
    cases k with
    | zero =>
      obtain rfl := Option.some.inj hk
      exact ⟨List.nil_subset _, h.2⟩
    | succ k => exact ih h.2 hk

/-- Code that computes keeps what is written. Only a label forgets what is written, since control
may come from elsewhere there. -/
theorem subset_writtenBehind {code : List Instr} (h : ∀ i ∈ code, i.target?.isSome)
    (rs : List Register) : rs ⊆ writtenBehind rs code := by
  induction code generalizing rs with
  | nil => exact fun _ hr => hr
  | cons i code ih =>
    obtain ⟨r, hr⟩ := Option.isSome_iff_exists.mp (h i List.mem_cons_self)
    have hrest := ih (fun j hj => h j (List.mem_cons_of_mem _ hj)) (i.written rs)
    rw [written_of_target hr] at hrest
    intro x hx
    have hmem := hrest (List.mem_cons_of_mem r hx)
    rwa [← written_of_target hr] at hmem

/-! ## Expressions -/

/-- Code that needs nothing written and behind which some registers are. -/
def Computes (values : List Register) (code : List Instr) : Prop :=
  ∀ rs, Prepared rs code ∧ values ⊆ writtenBehind rs code

/-- Code behind code: values of the first piece are still there if the second one only computes. -/
theorem Computes.append {vs ws : List Register} {a b : List Instr} (ha : Computes vs a)
    (hb : Computes ws b) (hkeeps : ∀ i ∈ b, i.target?.isSome) : Computes (vs ++ ws) (a ++ b) := by
  intro rs
  obtain ⟨hpa, hva⟩ := ha rs
  obtain ⟨hpb, hvb⟩ := hb (writtenBehind rs a)
  refine ⟨hpa.append hpb, ?_⟩
  rw [writtenBehind_append]
  -- No label is in the second piece, so nothing is forgotten there.
  refine List.append_subset.mpr ⟨?_, hvb⟩
  exact fun r hr => subset_writtenBehind hkeeps _ (hva hr)

/-- An instruction that reads what was computed and writes a register. Behind it only this register
counts. -/
theorem Computes.then {vs : List Register} {code : List Instr} (h : Computes vs code) {i : Instr}
    {r : Register} (hreads : i.reads ⊆ vs) (hr : i.target? = some r) :
    Computes [r] (code ++ [i]) := by
  intro rs
  obtain ⟨hprepared, hvalues⟩ := h rs
  refine ⟨hprepared.append ⟨fun _ hx => hvalues (hreads hx), trivial⟩, ?_⟩
  have hlast : writtenBehind (writtenBehind rs code) [i] = i.written (writtenBehind rs code) := rfl
  rw [writtenBehind_append, hlast, written_of_target hr]
  exact List.cons_subset_cons r (List.nil_subset _)

/-- No code computes no values. -/
theorem computes_nil : Computes [] [] := fun _ => ⟨trivial, List.nil_subset _⟩

/-- The instruction of a binary operator reads both operands. -/
theorem reads_binaryInstr (op : BinaryOp) (ty : MachineTy) (l r t : Register) :
    (binaryInstr op ty l r t).reads = [l, r] := by
  cases op <;> rfl

/-- The code of a unary operator computes its value from that of the operand. The plus has no code,
so its value is the one of the operand. -/
theorem lowerUnary_computes {op : UnaryOp} {ty : MachineTy} {r : Register} {code : List Instr}
    (h : Computes [r] code) {s : Supply} {l : Lowered Register}
    (hl : lowerUnary op ty r s = some l) : Computes [l.value] (code ++ l.code) := by
  -- A constant, and an operation on it and the operand.
  have htwo : ∀ {v : Immediate} {i : Instr} {x y : Register}, i.reads = [x, r] →
      i.target? = some y → Computes [y] (code ++ [.move v x, i]) := by
    intro v i x y hreads hy
    have hmove : Computes [x] [.move v x] := computes_nil.then (List.nil_subset _) rfl
    -- The operand is still there, as a constant is only put into another register.
    have hboth := h.append hmove (by simp [Instr.target?])
    have hall := hboth.then (i := i) (r := y) (by simp [hreads]) hy
    rwa [List.append_assoc] at hall
  cases op with
  | plus =>
    rw [lowerUnary_plus] at hl
    subst hl
    rwa [List.append_nil]
  | minus =>
    rw [lowerUnary_minus] at hl
    subst hl
    exact htwo rfl rfl
  | not =>
    rw [lowerUnary_not] at hl
    subst hl
    exact htwo rfl rfl

mutual

/-- The code of an expression computes its value. By recursion on the expression. Operands stay in
their registers while others are computed, as no register is written twice. -/
theorem lowerExpr_computes : ∀ (e : Expr Typing) {s : Supply} {l : Lowered Register},
    lowerExpr e s = some l → Computes [l.value] l.code
  | .literal n v, s, l, h => by
    rw [lowerExpr_literal] at h
    subst h
    exact computes_nil.then (List.nil_subset _) rfl
  | .read n x, s, l, h => by
    obtain ⟨t, -, rfl⟩ := lowerExpr_read.mp h
    exact computes_nil.then (List.nil_subset _) rfl
  | .binary n op left right, s, l, h => by
    obtain ⟨a, b, t, ha, hb, -, rfl⟩ := lowerExpr_binary.mp h
    have hboth := (lowerExpr_computes left ha).append (lowerExpr_computes right hb)
      (target_of_lowerExpr right hb)
    have hreads := reads_binaryInstr op (.ofTy t) a.value b.value b.next.fresh
    have hall := hboth.then (i := binaryInstr op (.ofTy t) a.value b.value b.next.fresh)
      (by rw [hreads]; exact List.Subset.refl _) (target_binaryInstr _ _ _ _ _)
    rwa [List.append_assoc] at hall
  | .unary n op operand, s, l, h => by
    obtain ⟨a, t, b, ha, -, hb, rfl⟩ := lowerExpr_unary.mp h
    exact lowerUnary_computes (lowerExpr_computes operand ha) hb
  | .call n f arguments, s, l, h => by
    obtain ⟨a, ha, rfl⟩ := lowerExpr_call.mp h
    exact (lowerExprs_computes arguments ha).then (List.Subset.refl _) rfl

/-- The code of arguments computes their values. -/
theorem lowerExprs_computes : ∀ (es : List (Expr Typing)) {s : Supply}
    {l : Lowered (List Register)}, lowerExprs es s = some l → Computes l.value l.code
  | [], s, l, h => by
    rw [lowerExprs_nil] at h
    subst h
    exact computes_nil
  | e :: es, s, l, h => by
    obtain ⟨a, b, ha, hb, rfl⟩ := lowerExprs_cons.mp h
    exact (lowerExpr_computes e ha).append (lowerExprs_computes es hb)
      (target_of_lowerExprs es hb)

end

/-! ## Statements -/

/-- The labels that instructions may go to. -/
def jumpsOf (code : List Instr) : List Label := code.flatMap Instr.jumps

@[simp] theorem jumpsOf_append (a b : List Instr) : jumpsOf (a ++ b) = jumpsOf a ++ jumpsOf b :=
  List.flatMap_append

/-- The code of an expression goes nowhere. -/
theorem jumpsOf_expr {code : List Instr} (h : ∀ i ∈ code, i.target?.isSome) :
    jumpsOf code = [] := by
  rw [jumpsOf, List.flatMap_eq_nil_iff]
  intro i hi
  have htarget := h i hi
  cases i <;> first | rfl | cases htarget

/-- Where the code of a branch may go. -/
theorem jumpsOf_branchCode (r : Register) (ifTrue ifFalse merge : Label) (a b : List Instr) :
    jumpsOf (branchCode r ifTrue ifFalse merge a b) =
      [ifTrue, ifFalse] ++ jumpsOf a ++ [merge] ++ jumpsOf b ++ [merge] := by
  simp only [branchCode, jumpsOf_append]
  rfl

/-- Where the code of a loop may go. -/
theorem jumpsOf_loopCode (test enter merge : Label) (r : Register) (a b : List Instr) :
    jumpsOf (loopCode test enter merge a r b) =
      [test] ++ jumpsOf a ++ [enter, merge] ++ jumpsOf b ++ [test] := by
  simp only [loopCode, jumpsOf_append]
  rfl

/-- Code that needs nothing written before it and no labels around it. -/
structure Closed (code : List Instr) : Prop where
  prepared : ∀ rs, Prepared rs code
  jumps : jumpsOf code ⊆ labelsOf code

/-- No code needs nothing. -/
theorem closed_nil : Closed [] := ⟨fun _ => trivial, List.nil_subset _⟩

/-- Code behind code, where each piece needs nothing. -/
theorem Closed.append {a b : List Instr} (ha : Closed a) (hb : Closed b) : Closed (a ++ b) := by
  refine ⟨fun rs => (ha.prepared rs).append (hb.prepared _), ?_⟩
  rw [jumpsOf_append, labelsOf_append]
  intro l hl
  rcases List.mem_append.mp hl with hl | hl
  · exact List.mem_append_left _ (ha.jumps hl)
  · exact List.mem_append_right _ (hb.jumps hl)

/-- An instruction that neither reads nor jumps. -/
theorem closed_single {i : Instr} (hreads : i.reads = []) (hjumps : i.jumps = []) : Closed [i] := by
  refine ⟨fun rs => ⟨?_, trivial⟩, ?_⟩
  · rw [hreads]
    exact List.nil_subset _
  · rw [jumpsOf, List.flatMap_singleton, hjumps]
    exact List.nil_subset _

section Value

variable {e : Expr Typing} {s : Supply} {a : Lowered Register}

/-- The code of an expression and instructions behind it that read at most its value first. -/
theorem prepared_value (ha : lowerExpr e s = some a) {code : List Instr}
    (hcode : Prepared [a.value] code) (rs : List Register) : Prepared rs (a.code ++ code) := by
  obtain ⟨hprepared, hvalue⟩ := lowerExpr_computes e ha rs
  exact hprepared.append (hcode.mono hvalue)

/-- An expression and an instruction that uses its value. -/
theorem closed_value (ha : lowerExpr e s = some a) {i : Instr} (hreads : i.reads = [a.value])
    (hjumps : i.jumps = []) : Closed (a.code ++ [i]) := by
  refine ⟨prepared_value ha ⟨fun r hr => hreads ▸ hr, trivial⟩, ?_⟩
  rw [jumpsOf_append, jumpsOf_expr (target_of_lowerExpr e ha), jumpsOf, List.flatMap_singleton,
    hjumps]
  exact List.nil_subset _

/-- A branch needs nothing: its labels are its own, and each arm starts at a label. The condition is
computed in front of it, in the same basic block. -/
theorem closed_branch (ha : lowerExpr e s = some a) {b c : List Instr} (hb : Closed b)
    (hc : Closed c) (ifTrue ifFalse merge : Label) :
    Closed (a.code ++ branchCode a.value ifTrue ifFalse merge b c) := by
  refine ⟨prepared_value ha ?_, ?_⟩
  · -- Behind the branch there is a label, and each arm starts with nothing written.
    have hrest : ∀ rs, Prepared rs (b ++ [.jump merge, .label ifFalse] ++ c ++
        [.jump merge, .label merge]) := by
      intro rs
      have htail : ∀ (l : Label) (rs : List Register), Prepared rs [.jump merge, .label l] :=
        fun l rs => ⟨List.nil_subset _, List.nil_subset _, trivial⟩
      exact (((hb.prepared rs).append (htail _ _)).append (hc.prepared _)).append (htail _ _)
    have hhead : Prepared [a.value] [.branch a.value ifTrue ifFalse, .label ifTrue] :=
      ⟨List.Subset.refl _, List.nil_subset _, trivial⟩
    have hall := hhead.append (hrest _)
    simpa [branchCode] using hall
  · rw [jumpsOf_append, jumpsOf_expr (target_of_lowerExpr e ha), jumpsOf_branchCode,
      labelsOf_append, labelsOf_expr (target_of_lowerExpr e ha), labelsOf_branchCode]
    intro l hl
    have hjb : l ∈ jumpsOf b → l ∈ labelsOf b := fun h => hb.jumps h
    have hjc : l ∈ jumpsOf c → l ∈ labelsOf c := fun h => hc.jumps h
    simp only [List.mem_append, List.mem_cons, List.not_mem_nil, or_false, false_or] at hl ⊢
    tauto

/-- A loop needs nothing: its labels are its own, and the condition computes what the test reads. It
does so behind the label of the test, so that it is computed again in every round. -/
theorem closed_loop (ha : lowerExpr e s = some a) {b : List Instr} (hb : Closed b)
    (test enter merge : Label) : Closed (loopCode test enter merge a.code a.value b) := by
  refine ⟨?_, ?_⟩
  · intro rs
    have hhead : Prepared rs [.jump test, .label test] :=
      ⟨List.nil_subset _, List.nil_subset _, trivial⟩
    have htail : ∀ rs, Prepared rs (b ++ [.jump test, .label merge]) := fun rs =>
      (hb.prepared rs).append ⟨List.nil_subset _, List.nil_subset _, trivial⟩
    have hcheck : Prepared [a.value] [.branch a.value enter merge, .label enter] :=
      ⟨List.Subset.refl _, List.nil_subset _, trivial⟩
    have hall := hhead.append (prepared_value ha (hcheck.append (htail _)) _)
    simpa [loopCode] using hall
  · rw [jumpsOf_loopCode, jumpsOf_expr (target_of_lowerExpr e ha), labelsOf_loopCode]
    intro l hl
    have hjb : l ∈ jumpsOf b → l ∈ labelsOf b := fun h => hb.jumps h
    simp only [List.mem_append, List.mem_cons, List.not_mem_nil, or_false] at hl ⊢
    tauto

end Value

/-- Making storage needs nothing. -/
theorem closed_storage (s : Supply) (ty : MachineTy) (x : String) : Closed [s.storage ty x] := by
  unfold Supply.storage
  split <;> exact closed_single rfl rfl

/-- A declaration with a value needs nothing. -/
theorem closed_declaration {ty : Option Ty} {x : String} {e : Expr Typing} {s : Supply}
    {l : Lowered Unit} (h : lowerDeclaration ty x e s = some l) : Closed l.code := by
  obtain ⟨t, a, -, ha, rfl⟩ := lowerDeclaration_eq_some.mp h
  -- The storage stands between the value and the store of it, and it leaves registers alone.
  have hstore : ∀ loc,
      Prepared [a.value] [a.next.storage (.ofTy t) x, .store (.ofTy t) a.value loc] ∧
      jumpsOf [a.next.storage (.ofTy t) x, .store (.ofTy t) a.value loc] = [] := by
    intro loc
    unfold Supply.storage
    split <;> exact ⟨⟨List.nil_subset _, List.Subset.refl _, trivial⟩, rfl⟩
  refine ⟨prepared_value ha (hstore _).1, ?_⟩
  rw [jumpsOf_append, jumpsOf_expr (target_of_lowerExpr e ha), (hstore _).2]
  exact List.nil_subset _

mutual

/-- The code of a statement is closed. No code of a statement reads a register that it did not write
itself, or goes to a label outside of it. -/
theorem lowerStmt_closed : ∀ (st : CheckedStmt) {s : Supply} {l : Lowered Unit},
    lowerStmt st s = some l → Closed l.code
  | .print n e, s, l, h => by
    obtain ⟨a, t, ha, -, rfl⟩ := lowerStmt_print.mp h
    exact closed_value ha rfl rfl
  | .var n x none, s, l, h => by
    obtain ⟨t, -, rfl⟩ := lowerStmt_var.mp h
    exact closed_storage s _ x
  | .var n x (some e), s, l, h => closed_declaration (lowerStmt_varWith.mp h)
  | .const n x e, s, l, h => closed_declaration (lowerStmt_const.mp h)
  | .write n x e, s, l, h => by
    obtain ⟨a, t, ha, -, rfl⟩ := lowerStmt_write.mp h
    exact closed_value ha rfl rfl
  | .branch n e whenTrue whenFalse, s, l, h => by
    obtain ⟨a, b, c, ha, hb, hc, rfl⟩ := lowerStmt_branch.mp h
    exact closed_branch ha (lowerBlock_closed whenTrue hb) (lowerBlock_closed whenFalse hc) _ _ _
  | .loop n e body, s, l, h => by
    obtain ⟨a, b, ha, hb, rfl⟩ := lowerStmt_loop.mp h
    exact closed_loop ha (lowerBlock_closed body hb) _ _ _
  | .function n f ps r body, s, l, h => by
    rw [lowerStmt_function] at h
    subst h
    exact closed_nil
  | .ret n e, s, l, h => by
    obtain ⟨a, t, ha, -, rfl⟩ := lowerStmt_ret.mp h
    exact closed_value ha rfl rfl

/-- The code of a block is closed. -/
theorem lowerBlock_closed : ∀ (ss : List CheckedStmt) {s : Supply} {l : Lowered Unit},
    lowerBlock ss s = some l → Closed l.code
  | [], s, l, h => by
    rw [lowerBlock_nil] at h
    subst h
    exact closed_nil
  | st :: ss, s, l, h => by
    obtain ⟨a, b, ha, hb, rfl⟩ := lowerBlock_cons.mp h
    exact (lowerStmt_closed st ha).append (lowerBlock_closed ss hb)

end

/-- So is the code of the statements outside of functions. -/
theorem lowerInit_closed {ss : List CheckedStmt} {s : Supply} {l : Lowered Function}
    (h : lowerInit ss s = some l) : Closed l.value.code := by
  obtain ⟨a, ha, rfl⟩ := lowerInit_eq_some.mp h
  have htail : Closed (initTail a.next.fresh) :=
    ⟨fun rs => ⟨List.nil_subset _, List.cons_subset_cons _ (List.nil_subset _), trivial⟩,
      List.nil_subset _⟩
  exact (lowerBlock_closed ss ha).append htail

end Pulse.Code

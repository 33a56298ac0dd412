/-
What the instructions of each construct are.

Expressions only compute. The storage that statements make is that of their declarations, in order,
and each label is defined once, with a number out of the range that the construct took.
-/
import Pulse.Proofs.LoweringSupply

set_option autoImplicit false

namespace Pulse.Code

open CheckedStmt

/-! ## Values in instructions -/

/-- Zero of a machine type is of this type. -/
@[simp] theorem ty_zero (ty : MachineTy) : (Immediate.zero ty).ty = ty := by
  cases ty <;> rfl

/-- The value of a literal has the machine type that its source type becomes. -/
@[simp] theorem ty_ofLiteral (v : Literal) : (Immediate.ofLiteral v).ty = .ofTy v.ty := by
  cases v <;> rfl

/-! ## Instructions of expressions

An expression computes: each of its instructions writes a register. Storage, labels and jumps come
from statements. -/

/-- The code of a unary operator only computes. -/
theorem target_of_lowerUnary {op : UnaryOp} {ty : MachineTy} {r : Register} {s : Supply}
    {l : Lowered Register} (h : lowerUnary op ty r s = some l) :
    ∀ i ∈ l.code, i.target?.isSome := by
  cases op with
  | plus =>
    rw [lowerUnary_plus] at h
    simp [h]
  | minus =>
    rw [lowerUnary_minus] at h
    simp [h, Instr.target?]
  | not =>
    rw [lowerUnary_not] at h
    simp [h, Instr.target?]

/-- The instruction of a binary operator computes. -/
theorem target_binaryInstr (op : BinaryOp) (ty : MachineTy) (l r t : Register) :
    (binaryInstr op ty l r t).target? = some t := by
  cases op <;> rfl

mutual

/-- The code of an expression only computes: every instruction has a register for its result. So
there are no labels in it, no storage and no stores, and control goes straight through it. -/
theorem target_of_lowerExpr : ∀ (e : Expr Typing) {s : Supply} {l : Lowered Register},
    lowerExpr e s = some l → ∀ i ∈ l.code, i.target?.isSome
  | .literal n v, s, l, h => by
    rw [lowerExpr_literal] at h
    simp [h, Instr.target?]
  | .read n x, s, l, h => by
    obtain ⟨t, _, rfl⟩ := lowerExpr_read.mp h
    simp [Instr.target?]
  -- The code of the operands, and the instruction itself.
  | .binary n op left right, s, l, h => by
    obtain ⟨a, b, t, ha, hb, _, rfl⟩ := lowerExpr_binary.mp h
    intro i hi
    simp only [List.mem_append, List.mem_singleton] at hi
    rcases hi with hi | hi | rfl
    · exact target_of_lowerExpr left ha i hi
    · exact target_of_lowerExpr right hb i hi
    · rw [target_binaryInstr]
      rfl
  | .unary n op operand, s, l, h => by
    obtain ⟨a, t, b, ha, _, hb, rfl⟩ := lowerExpr_unary.mp h
    intro i hi
    rcases List.mem_append.mp hi with hi | hi
    · exact target_of_lowerExpr operand ha i hi
    · exact target_of_lowerUnary hb i hi
  | .call n f arguments, s, l, h => by
    obtain ⟨a, ha, rfl⟩ := lowerExpr_call.mp h
    intro i hi
    simp only [List.mem_append, List.mem_singleton] at hi
    rcases hi with hi | rfl
    · exact target_of_lowerExprs arguments ha i hi
    · rfl

/-- The code of arguments only computes. -/
theorem target_of_lowerExprs : ∀ (es : List (Expr Typing)) {s : Supply}
    {l : Lowered (List Register)}, lowerExprs es s = some l → ∀ i ∈ l.code, i.target?.isSome
  | [], s, l, h => by
    rw [lowerExprs_nil] at h
    simp [h]
  | e :: es, s, l, h => by
    obtain ⟨a, b, ha, hb, rfl⟩ := lowerExprs_cons.mp h
    intro i hi
    rcases List.mem_append.mp hi with hi | hi
    · exact target_of_lowerExpr e ha i hi
    · exact target_of_lowerExprs es hb i hi

end

/-- What no computing instruction gives, an expression does not give. -/
theorem filterMap_of_target {α : Type} {g : Instr → Option α} {code : List Instr}
    (hg : ∀ i, i.target?.isSome → g i = none) (h : ∀ i ∈ code, i.target?.isSome) :
    code.filterMap g = [] := by
  rw [List.filterMap_eq_nil_iff]
  intro i hi
  exact hg i (h i hi)

/-! ## Storage -/

/-- The storage of a call that an instruction makes. -/
def Instr.slot? : Instr → Option (String × MachineTy)
  | .alloc ty x => some (x, ty)
  | _ => none

/-- The storage of a call that instructions make, in order. -/
def slotsOf (code : List Instr) : List (String × MachineTy) := code.filterMap Instr.slot?

/-- The storage of the program that instructions make, in order. -/
def globalsOf (code : List Instr) : List (String × MachineTy) := code.filterMap Instr.global?

@[simp] theorem slotsOf_nil : slotsOf [] = [] := rfl

@[simp] theorem slotsOf_append (a b : List Instr) : slotsOf (a ++ b) = slotsOf a ++ slotsOf b :=
  List.filterMap_append

@[simp] theorem globalsOf_append (a b : List Instr) :
    globalsOf (a ++ b) = globalsOf a ++ globalsOf b :=
  List.filterMap_append

/-- The code of an expression makes no storage in the frame. -/
theorem slotsOf_expr {code : List Instr} (h : ∀ i ∈ code, i.target?.isSome) : slotsOf code = [] :=
  filterMap_of_target (fun i hi => by cases i <;> simp_all [Instr.target?, Instr.slot?]) h

/-- The code of an expression makes no storage of the program. -/
theorem globalsOf_expr {code : List Instr} (h : ∀ i ∈ code, i.target?.isSome) :
    globalsOf code = [] :=
  filterMap_of_target (fun i hi => by cases i <;> simp_all [Instr.target?, Instr.global?]) h

/-- The storage that instructions make for variables: in the frame if there is one, else in the
program. -/
structure Stores (frame : Option (List String)) (vars : List (String × Ty)) (code : List Instr) :
    Prop where
  slots : slotsOf code = if frame.isSome then vars.map machineVar else []
  globals : globalsOf code = if frame.isSome then [] else vars.map machineVar

/-- The storage of code behind code is that of both, in order. -/
theorem Stores.append {frame : Option (List String)} {vars more : List (String × Ty)}
    {a b : List Instr} (ha : Stores frame vars a) (hb : Stores frame more b) :
    Stores frame (vars ++ more) (a ++ b) := by
  refine ⟨?_, ?_⟩
  · rw [slotsOf_append, ha.slots, hb.slots]
    split <;> simp
  · rw [globalsOf_append, ha.globals, hb.globals]
    split <;> simp

/-- Only whether there is a frame matters, and not what is in it. -/
theorem Stores.of_eq {frame frame' : Option (List String)} {vars : List (String × Ty)}
    {code : List Instr} (h : Stores frame vars code) (heq : frame'.isSome = frame.isSome) :
    Stores frame' vars code :=
  ⟨heq ▸ h.slots, heq ▸ h.globals⟩

/-- The code of an expression makes no storage at all. -/
theorem stores_expr {frame : Option (List String)} {code : List Instr}
    (h : ∀ i ∈ code, i.target?.isSome) : Stores frame [] code :=
  ⟨by simp [slotsOf_expr h], by simp [globalsOf_expr h]⟩

/-- Instructions of control make no storage. -/
theorem stores_nil {frame : Option (List String)} {code : List Instr}
    (hs : slotsOf code = []) (hg : globalsOf code = []) : Stores frame [] code :=
  ⟨by simp [hs], by simp [hg]⟩

/-- A branch makes the storage of its arms. All of it is made in the frame of the function, in the
order in which the arms stand. -/
theorem Stores.branch {frame : Option (List String)} {vars more : List (String × Ty)}
    {a b : List Instr} (ha : Stores frame vars a) (hb : Stores frame more b) (r : Register)
    (ifTrue ifFalse merge : Label) :
    Stores frame (vars ++ more) (branchCode r ifTrue ifFalse merge a b) := by
  -- Between the arms there are jumps and labels only.
  have hhead : Stores frame [] [.branch r ifTrue ifFalse, .label ifTrue] := stores_nil rfl rfl
  have hmiddle : Stores frame [] [.jump merge, .label ifFalse] := stores_nil rfl rfl
  have htail : Stores frame [] [.jump merge, .label merge] := stores_nil rfl rfl
  have hall := (((hhead.append ha).append hmiddle).append hb).append htail
  simp only [List.nil_append, List.append_nil] at hall
  exact hall

/-- A loop makes the storage of its body; its condition has none, but may be any code here. -/
theorem Stores.loop {frame : Option (List String)} {vars more : List (String × Ty)}
    {a b : List Instr} (ha : Stores frame vars a) (hb : Stores frame more b) (r : Register)
    (test enter merge : Label) :
    Stores frame (vars ++ more) (loopCode test enter merge a r b) := by
  have hhead : Stores frame [] [.jump test, .label test] := stores_nil rfl rfl
  have hmiddle : Stores frame [] [.branch r enter merge, .label enter] := stores_nil rfl rfl
  have htail : Stores frame [] [.jump test, .label merge] := stores_nil rfl rfl
  have hall := (((hhead.append ha).append hmiddle).append hb).append htail
  simp only [List.nil_append, List.append_nil] at hall
  exact hall

/-- A declaration makes storage for its variable, in the frame or in the program. -/
theorem stores_storage (s : Supply) (x : String) (t : Ty) :
    Stores s.frame [(x, t)] [s.storage (.ofTy t) x] := by
  obtain ⟨r, k, frame⟩ := s
  cases frame <;> exact ⟨rfl, rfl⟩

/-- Names are added to a frame that is there. -/
@[simp] theorem pushNames_isSome (frame : Option (List String)) (vars : List (String × Ty)) :
    (pushNames frame vars).isSome = frame.isSome := by
  simp [pushNames]

/-- The code of a declaration with a value makes storage for its variable only. Where there is no
type the declaration has no code at all. -/
theorem stores_of_lowerDeclaration {ty : Option Ty} {x : String} {e : Expr Typing} {s : Supply}
    {l : Lowered Unit} (h : lowerDeclaration ty x e s = some l) :
    Stores s.frame (ty.map fun t => (x, t)).toList l.code := by
  obtain ⟨t, a, rfl, ha, rfl⟩ := lowerDeclaration_eq_some.mp h
  have he : Stores s.frame [] a.code := stores_expr (target_of_lowerExpr e ha)
  -- The storage is made behind the value, in the frame of before.
  have hframe := (takes_of_lowerExpr e ha).frame
  have hx : Stores s.frame [(x, t)] [a.next.storage (.ofTy t) x] :=
    (stores_storage a.next x t).of_eq (by rw [hframe])
  have hstore : Stores s.frame [] [Instr.store (.ofTy t) a.value ((a.next.declare x).location x)] :=
    stores_nil rfl rfl
  exact he.append (hx.append hstore)

mutual

-- Which of the two storages it is was decided by whether there is a frame, and no statement changes
-- that, so pieces with different names in the frame can be put together.

/-- The code of a statement makes storage for what the statement declares, also inside of its
blocks. -/
theorem stores_of_lowerStmt : ∀ (st : CheckedStmt) {s : Supply} {l : Lowered Unit},
    lowerStmt st s = some l → Stores s.frame st.declarations l.code
  | .print n e, s, l, h => by
    obtain ⟨a, t, ha, _, rfl⟩ := lowerStmt_print.mp h
    rw [declarations_print]
    exact (stores_expr (target_of_lowerExpr e ha)).append (stores_nil rfl rfl)
  | .var n x none, s, l, h => by
    obtain ⟨t, ht, rfl⟩ := lowerStmt_var.mp h
    rw [declarations, ht]
    exact stores_storage s x t
  | .var n x (some e), s, l, h => by
    rw [declarations]
    exact stores_of_lowerDeclaration (lowerStmt_varWith.mp h)
  | .const n x e, s, l, h => by
    rw [declarations]
    exact stores_of_lowerDeclaration (lowerStmt_const.mp h)
  | .write n x e, s, l, h => by
    obtain ⟨a, t, ha, _, rfl⟩ := lowerStmt_write.mp h
    rw [declarations_write]
    exact (stores_expr (target_of_lowerExpr e ha)).append (stores_nil rfl rfl)
  | .branch n e whenTrue whenFalse, s, l, h => by
    obtain ⟨a, b, c, ha, hb, hc, rfl⟩ := lowerStmt_branch.mp h
    have he : Stores s.frame [] a.code := stores_expr (target_of_lowerExpr e ha)
    have hframe := (takes_of_lowerExpr e ha).frame
    have hframe' := (adds_of_lowerBlock whenTrue hb).frame
    have ht : Stores s.frame _ b.code := (stores_of_lowerBlock whenTrue hb).of_eq (by simp [hframe])
    have hf : Stores s.frame _ c.code :=
      (stores_of_lowerBlock whenFalse hc).of_eq (by simp [hframe, hframe'])
    rw [declarations]
    exact he.append (ht.branch hf _ _ _ _)
  | .loop n e body, s, l, h => by
    obtain ⟨a, b, ha, hb, rfl⟩ := lowerStmt_loop.mp h
    have he : Stores s.frame [] a.code := stores_expr (target_of_lowerExpr e ha)
    have hframe := (takes_of_lowerExpr e ha).frame
    have hbody : Stores s.frame _ b.code := (stores_of_lowerBlock body hb).of_eq (by simp [hframe])
    rw [declarations]
    exact he.loop hbody _ _ _ _
  | .function n f ps r body, s, l, h => by
    rw [lowerStmt_function] at h
    subst h
    rw [declarations_function]
    exact stores_nil rfl rfl
  | .ret n e, s, l, h => by
    obtain ⟨a, t, ha, _, rfl⟩ := lowerStmt_ret.mp h
    rw [declarations_ret]
    exact (stores_expr (target_of_lowerExpr e ha)).append (stores_nil rfl rfl)

/-- The code of a block makes storage for what its statements declare, in order. -/
theorem stores_of_lowerBlock : ∀ (ss : List CheckedStmt) {s : Supply} {l : Lowered Unit},
    lowerBlock ss s = some l → Stores s.frame (declarationsOf ss) l.code
  | [], s, l, h => by
    rw [lowerBlock_nil] at h
    subst h
    exact stores_nil rfl rfl
  | st :: ss, s, l, h => by
    obtain ⟨a, b, ha, hb, rfl⟩ := lowerBlock_cons.mp h
    have hframe := (adds_of_lowerStmt st ha).frame
    rw [declarationsOf_cons]
    exact (stores_of_lowerStmt st ha).append
      ((stores_of_lowerBlock ss hb).of_eq (by simp [hframe]))

end

/-! ## Labels -/

/-- The label that an instruction defines. -/
def Instr.label? : Instr → Option Label
  | .label l => some l
  | _ => none

/-- The labels that instructions define, in order. -/
def labelsOf (code : List Instr) : List Label := code.filterMap Instr.label?

@[simp] theorem labelsOf_append (a b : List Instr) :
    labelsOf (a ++ b) = labelsOf a ++ labelsOf b :=
  List.filterMap_append

/-- The code of an expression defines no labels. -/
theorem labelsOf_expr {code : List Instr} (h : ∀ i ∈ code, i.target?.isSome) : labelsOf code = [] :=
  filterMap_of_target (fun i hi => by cases i <;> simp_all [Instr.target?, Instr.label?]) h

/-- The labels of a branch, in the order of its code. -/
theorem labelsOf_branchCode (r : Register) (ifTrue ifFalse merge : Label) (a b : List Instr) :
    labelsOf (branchCode r ifTrue ifFalse merge a b) =
      [ifTrue] ++ labelsOf a ++ [ifFalse] ++ labelsOf b ++ [merge] := by
  simp only [branchCode, labelsOf_append]
  rfl

/-- The labels of a loop, in the order of its code. -/
theorem labelsOf_loopCode (test enter merge : Label) (r : Register) (a b : List Instr) :
    labelsOf (loopCode test enter merge a r b) =
      [test] ++ labelsOf a ++ [enter] ++ labelsOf b ++ [merge] := by
  simp only [loopCode, labelsOf_append]
  rfl

/-- Labels of a range, each once. -/
structure Fresh (lo hi : Nat) (labels : List Label) : Prop where
  distinct : labels.Nodup
  lower : ∀ l ∈ labels, lo < l.index
  upper : ∀ l ∈ labels, l.index ≤ hi

/-- Where there are no labels, each is of any range. -/
theorem Fresh.nil {lo hi : Nat} : Fresh lo hi [] :=
  ⟨List.nodup_nil, by simp, by simp⟩

/-- Labels of two ranges that follow each other are of the whole range, each once. The ranges do not
overlap, so neither do the labels. -/
theorem Fresh.append {lo mid hi : Nat} {as bs : List Label} (ha : Fresh lo mid as)
    (hb : Fresh mid hi bs) (hlo : lo ≤ mid) (hhi : mid ≤ hi) : Fresh lo hi (as ++ bs) := by
  refine ⟨List.nodup_append.mpr ⟨ha.distinct, hb.distinct, ?_⟩, ?_, ?_⟩
  · -- A label of both would be at most `mid` and above it.
    intro x hx y hy heq
    have h₁ := ha.upper x hx
    have h₂ := hb.lower y hy
    rw [heq] at h₁
    omega
  · intro x hx
    rcases List.mem_append.mp hx with hx | hx
    · exact ha.lower x hx
    · exact Nat.lt_of_le_of_lt hlo (hb.lower x hx)
  · intro x hx
    rcases List.mem_append.mp hx with hx | hx
    · exact Nat.le_trans (ha.upper x hx) hhi
    · exact hb.upper x hx

/-- The order of the labels does not matter. -/
theorem Fresh.perm {lo hi : Nat} {as bs : List Label} (h : Fresh lo hi as) (hp : as.Perm bs) :
    Fresh lo hi bs :=
  ⟨hp.nodup_iff.mp h.distinct, fun l hl => h.lower l (hp.mem_iff.mpr hl),
    fun l hl => h.upper l (hp.mem_iff.mpr hl)⟩

/-- The three labels that a construct takes are the next ones. -/
theorem fresh_three (s : Supply) :
    Fresh s.labels (s.skipLabels 3).labels [s.label 1, s.label 2, s.label 3] := by
  refine ⟨?_, ?_, ?_⟩
  · simp [Supply.label]
  · simp [Supply.label]
  · simp [Supply.label]

/-- Declarations define no labels. -/
theorem labelsOf_declaration {ty : Option Ty} {x : String} {e : Expr Typing} {s : Supply}
    {l : Lowered Unit} (h : lowerDeclaration ty x e s = some l) : labelsOf l.code = [] := by
  obtain ⟨t, a, -, ha, rfl⟩ := lowerDeclaration_eq_some.mp h
  rw [labelsOf_append, labelsOf_expr (target_of_lowerExpr e ha)]
  unfold Supply.storage
  split <;> rfl

mutual

/-- The labels of a statement are among those it takes, each defined once. By recursion on the
statement. A branch or a loop takes three labels and then those of its blocks. -/
theorem labels_of_lowerStmt : ∀ (st : CheckedStmt) {s : Supply} {l : Lowered Unit},
    lowerStmt st s = some l → Fresh s.labels l.next.labels (labelsOf l.code)
  | .print n e, s, l, h => by
    obtain ⟨a, t, ha, _, rfl⟩ := lowerStmt_print.mp h
    rw [labelsOf_append, labelsOf_expr (target_of_lowerExpr e ha)]
    exact .nil
  | .var n x none, s, l, h => by
    obtain ⟨t, ht, rfl⟩ := lowerStmt_var.mp h
    unfold Supply.storage
    split <;> exact .nil
  | .var n x (some e), s, l, h => by
    rw [labelsOf_declaration (lowerStmt_varWith.mp h)]
    exact .nil
  | .const n x e, s, l, h => by
    rw [labelsOf_declaration (lowerStmt_const.mp h)]
    exact .nil
  | .write n x e, s, l, h => by
    obtain ⟨a, t, ha, _, rfl⟩ := lowerStmt_write.mp h
    rw [labelsOf_append, labelsOf_expr (target_of_lowerExpr e ha)]
    exact .nil
  | .branch n e whenTrue whenFalse, s, l, h => by
    obtain ⟨a, b, c, ha, hb, hc, rfl⟩ := lowerStmt_branch.mp h
    have htakes := takes_of_lowerExpr e ha
    have hadds := adds_of_lowerBlock whenTrue hb
    have hadds' := adds_of_lowerBlock whenFalse hc
    have hthree := fresh_three a.next
    have htrue := labels_of_lowerBlock whenTrue hb
    have hfalse := labels_of_lowerBlock whenFalse hc
    have hall := hthree.append (htrue.append hfalse hadds.labels hadds'.labels)
      (Nat.le_add_right _ _) (Nat.le_trans hadds.labels hadds'.labels)
    rw [htakes.labels] at hall
    rw [labelsOf_append, labelsOf_expr (target_of_lowerExpr e ha), labelsOf_branchCode]
    -- The three labels are taken before the arms, but the arms stand between them.
    refine hall.perm (List.perm_iff_count.mpr fun k => ?_)
    simp only [List.count_append, List.count_cons, List.count_nil]
    omega
  | .loop n e body, s, l, h => by
    obtain ⟨a, b, ha, hb, rfl⟩ := lowerStmt_loop.mp h
    have htakes := takes_of_lowerExpr e ha
    have hadds := adds_of_lowerBlock body hb
    have hbody := labels_of_lowerBlock body hb
    rw [htakes.labels] at hbody
    have hall := (fresh_three s).append hbody (Nat.le_add_right _ _)
      (Nat.le_trans (Nat.le_of_eq htakes.labels.symm) hadds.labels)
    rw [labelsOf_loopCode, labelsOf_expr (target_of_lowerExpr e ha)]
    refine hall.perm (List.perm_iff_count.mpr fun k => ?_)
    simp only [List.count_append, List.count_cons, List.count_nil]
    omega
  | .function n f ps r body, s, l, h => by
    rw [lowerStmt_function] at h
    subst h
    exact .nil
  | .ret n e, s, l, h => by
    obtain ⟨a, t, ha, _, rfl⟩ := lowerStmt_ret.mp h
    rw [labelsOf_append, labelsOf_expr (target_of_lowerExpr e ha)]
    exact .nil

/-- The labels of a block are among those it takes, each defined once. -/
theorem labels_of_lowerBlock : ∀ (ss : List CheckedStmt) {s : Supply} {l : Lowered Unit},
    lowerBlock ss s = some l → Fresh s.labels l.next.labels (labelsOf l.code)
  | [], s, l, h => by
    rw [lowerBlock_nil] at h
    subst h
    exact .nil
  | st :: ss, s, l, h => by
    obtain ⟨a, b, ha, hb, rfl⟩ := lowerBlock_cons.mp h
    have hadds := adds_of_lowerStmt st ha
    have hadds' := adds_of_lowerBlock ss hb
    rw [labelsOf_append]
    exact (labels_of_lowerStmt st ha).append (labels_of_lowerBlock ss hb) hadds.labels hadds'.labels

end

/-! ## Functions -/

/-- The code of a function with the right types: its name, its parameters and its type of results
are those of the function, and its instructions those of the body. -/
theorem lowerFunction_body {d : Outline} {f : CheckedFunction} {k : Rules.Callee}
    {vars : List (String × Ty)} (hf : TypedFunction d f k vars) {s : Supply} {l : Lowered Function}
    (h : lowerFunction f s = some l) :
    ∃ a, lowerBlock f.body { s with frame := some (vars.map Prod.fst) } = some a ∧
      l = ⟨⟨functionSymbol f.name, vars.map machineVar, .ofTy k.returns, a.code⟩, [],
        { a.next with frame := s.frame }⟩ :=
  (lowerFunction_typed_eq_some hf.params hf.returns).mp h

/-- Lists that both go with a third are paired along it. This ties what is known of a function in
the source to what is known of it in the code. -/
theorem exists_mem_zip {α β γ : Type} {R : α → β → Prop} {S : α → γ → Prop} {as : List α}
    {bs : List β} {cs : List γ} (hR : List.Forall₂ R as bs) (hS : List.Forall₂ S as cs) {b : β}
    (hb : b ∈ bs) : ∃ a c, (a, c) ∈ as.zip cs ∧ R a b ∧ S a c := by
  induction hR generalizing cs with
  | nil => cases hb
  | cons hab _ ih =>
    obtain ⟨c, cs, hac, hcs, rfl⟩ := List.forall₂_cons_left_iff.mp hS
    rcases List.mem_cons.mp hb with rfl | hb
    · exact ⟨_, c, List.mem_cons_self, hab, hac⟩
    · obtain ⟨a, c', hmem, hR', hS'⟩ := ih hcs hb
      exact ⟨a, c', List.mem_cons_of_mem _ hmem, hR', hS'⟩

/-- Functions of the source and of the code stand side by side. -/
theorem forall₂_of_lowerFunctions {fs : List CheckedFunction} {s : Supply}
    {l : Lowered (List Function)} (h : lowerFunctions fs s = some l) :
    List.Forall₂ (fun f g => ∃ s a, lowerFunction f s = some a ∧ g = a.value) fs l.value := by
  induction fs generalizing s l with
  | nil =>
    rw [lowerFunctions_nil] at h
    subst h
    exact .nil
  | cons f fs ih =>
    obtain ⟨a, b, ha, hb, rfl⟩ := lowerFunctions_cons.mp h
    exact .cons ⟨s, a, ha, rfl⟩ (ih hb)

/-- The functions of the code have the symbols of those of the source, in the same order. -/
theorem names_of_lowerFunctions {fs : List CheckedFunction} {s : Supply}
    {l : Lowered (List Function)} (h : lowerFunctions fs s = some l) :
    l.value.map Function.name = fs.map fun f => functionSymbol f.name := by
  rw [← List.forall₂_eq_eq_eq, List.forall₂_map_left_iff, List.forall₂_map_right_iff]
  refine (forall₂_of_lowerFunctions h).flip.imp ?_
  rintro g f ⟨s', a, ha, rfl⟩
  obtain ⟨vars, t, b, -, -, -, rfl⟩ := lowerFunction_eq_some.mp ha
  rfl

/-- The function with the statements outside of functions is not called by the source, so it takes
nothing. -/
theorem header_of_lowerInit {ss : List CheckedStmt} {s : Supply} {a : Lowered Function}
    (ha : lowerInit ss s = some a) : a.value.name = initName ∧ a.value.params = [] := by
  obtain ⟨body, -, rfl⟩ := lowerInit_eq_some.mp ha
  exact ⟨rfl, rfl⟩

/-- The names in generated code. -/
theorem names_of_generate {a : Analysis} {asm : Assembly} (h : generate a = .ok asm) :
    asm.functions.map Function.name =
      initName :: a.program.functions.map fun f => functionSymbol f.name := by
  obtain ⟨-, l, hl, rfl⟩ := generate_eq_ok.mp h
  obtain ⟨b, c, hb, hc, rfl⟩ := lowerProgram_eq_some.mp hl
  obtain ⟨body, -, rfl⟩ := lowerInit_eq_some.mp hb
  exact congrArg (List.cons initName) (names_of_lowerFunctions hc)

/-- The storage of the whole program is made by the statements outside of functions. -/
theorem stores_of_lowerInit {ss : List CheckedStmt} {s : Supply} {l : Lowered Function}
    (h : lowerInit ss s = some l) : Stores none (declarationsOf ss) l.value.code := by
  obtain ⟨a, ha, rfl⟩ := lowerInit_eq_some.mp h
  have htail : Stores none [] (initTail a.next.fresh) := stores_nil rfl rfl
  have hstores := (stores_of_lowerBlock _ ha).append htail
  rw [List.append_nil] at hstores
  exact hstores

/-- Functions make no storage of the program. -/
theorem globals_of_lowerFunctions {fs : List CheckedFunction} {s : Supply}
    {l : Lowered (List Function)} (h : lowerFunctions fs s = some l) :
    ∀ g ∈ l.value, globalsOf g.code = [] := by
  intro g hg
  have hfs := forall₂_of_lowerFunctions h
  obtain ⟨f, -, -, ⟨s', a, ha, rfl⟩, -⟩ := exists_mem_zip hfs hfs hg
  obtain ⟨vars, t, b, -, -, hb, rfl⟩ := lowerFunction_eq_some.mp ha
  exact (stores_of_lowerBlock _ hb).globals

/-- The variables of the program are those declared outside of functions, in order. -/
theorem globals_of_lowerProgram {ss : List CheckedStmt} {fs : List CheckedFunction}
    {s s' : Supply} {a : Lowered Function} {b : Lowered (List Function)}
    (ha : lowerInit ss s = some a) (hb : lowerFunctions fs s' = some b) :
    Assembly.globals ⟨a.value :: b.value⟩ = (declarationsOf ss).map machineVar := by
  have hnone : (b.value.flatMap fun g => g.code.filterMap Instr.global?) = [] :=
    List.flatMap_eq_nil_iff.mpr (globals_of_lowerFunctions hb)
  rw [Assembly.globals, List.flatMap_cons, hnone, List.append_nil]
  exact (stores_of_lowerInit ha).globals

end Pulse.Code

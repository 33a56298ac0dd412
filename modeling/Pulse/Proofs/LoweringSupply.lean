/-
What is in use after lowering.

The numbers of registers and labels only grow, an expression takes registers and nothing else, and
the frame grows by the names that are declared. So whatever one construct takes lies between the
supply it started from and the supply it left, and two constructs in a row never take the same
register or label.
-/
import Pulse.Proofs.LoweringSteps
import Pulse.Proofs.TypedTree

set_option autoImplicit false

namespace Pulse.Code

open CheckedStmt

/-! ## Expressions -/

/-- An expression takes registers only, and its value is in one of them. -/
structure Takes (s : Supply) (l : Lowered Register) : Prop where
  labels : l.next.labels = s.labels
  frame : l.next.frame = s.frame
  lower : s.registers < l.value.index
  upper : l.value.index ≤ l.next.registers

/-- An expression never gives registers back. -/
theorem Takes.registers {s : Supply} {l : Lowered Register} (h : Takes s l) :
    s.registers ≤ l.next.registers :=
  Nat.le_trans (Nat.le_of_lt h.lower) h.upper

/-- Several expressions take registers only, and their values are among them. -/
structure TakesAll (s : Supply) (l : Lowered (List Register)) : Prop where
  labels : l.next.labels = s.labels
  frame : l.next.frame = s.frame
  registers : s.registers ≤ l.next.registers
  lower : ∀ r ∈ l.value, s.registers < r.index
  upper : ∀ r ∈ l.value, r.index ≤ l.next.registers

/-- One instruction with a new register takes just this one. -/
theorem takes_fresh (s : Supply) (code : List Instr) :
    Takes s ⟨s.fresh, code, s.skipRegister⟩ :=
  ⟨rfl, rfl, Nat.lt_succ_self _, Nat.le_refl _⟩

/-- A unary operation takes no register or two, and then its value is in the second. The first one
is for a constant. -/
theorem next_of_lowerUnary {op : UnaryOp} {ty : MachineTy} {r : Register} {s : Supply}
    {l : Lowered Register} (h : lowerUnary op ty r s = some l) :
    l.value = r ∧ l.next = s ∨
      l.value = s.skipRegister.fresh ∧ l.next = s.skipRegister.skipRegister := by
  cases op with
  | plus =>
    rw [lowerUnary_plus] at h
    exact .inl (by simp [h])
  | minus =>
    rw [lowerUnary_minus] at h
    exact .inr (by simp [h])
  | not =>
    rw [lowerUnary_not] at h
    exact .inr (by simp [h])

/-- A unary operator never gives registers back. -/
theorem registers_of_lowerUnary {op : UnaryOp} {ty : MachineTy} {r : Register} {s : Supply}
    {l : Lowered Register} (h : lowerUnary op ty r s = some l) :
    s.registers ≤ l.next.registers := by
  rcases next_of_lowerUnary h with ⟨-, hn⟩ | ⟨-, hn⟩
  · exact Nat.le_of_eq (congrArg Supply.registers hn.symm)
  · rw [hn, Supply.skipRegister_registers, Supply.skipRegister_registers]
    omega

/-- With a unary operator behind it, an expression still takes registers only. Where the operator
does nothing, the value stays in the register of the operand. -/
theorem takes_unary {op : UnaryOp} {ty : MachineTy} {s : Supply} {a b : Lowered Register}
    (ha : Takes s a) (hb : lowerUnary op ty a.value a.next = some b) (code : List Instr) :
    Takes s ⟨b.value, code, b.next⟩ := by
  have h := ha.registers
  -- Either nothing is taken, or two registers, of which the second one has the value.
  rcases next_of_lowerUnary hb with ⟨hv, hn⟩ | ⟨hv, hn⟩
  · rw [hv, hn]
    exact ⟨ha.labels, ha.frame, ha.lower, ha.upper⟩
  · rw [hv, hn]
    refine ⟨ha.labels, ha.frame, ?_, Nat.le_refl _⟩
    simp only [Supply.fresh, Supply.skipRegister_registers]
    omega

mutual

/-- **An expression takes registers only**, and its value is in one that it took. Labels and the
frame are as they were. Everything that is said of registers later rests on ranges: what a part
takes is above what was taken in front of it. -/
theorem takes_of_lowerExpr : ∀ (e : Expr Typing) {s : Supply} {l : Lowered Register},
    lowerExpr e s = some l → Takes s l
  | .literal n v, s, l, h => by
    rw [lowerExpr_literal] at h
    subst h
    exact takes_fresh s _
  | .read n x, s, l, h => by
    obtain ⟨t, _, rfl⟩ := lowerExpr_read.mp h
    exact takes_fresh s _
  | .binary n op left right, s, l, h => by
    obtain ⟨a, b, t, ha, hb, _, rfl⟩ := lowerExpr_binary.mp h
    have hl := takes_of_lowerExpr left ha
    have hr := takes_of_lowerExpr right hb
    -- The value is in the register that is taken last, behind those of both operands.
    have h₁ := hl.registers
    have h₂ := hr.registers
    refine ⟨hr.labels.trans hl.labels, hr.frame.trans hl.frame, ?_, Nat.le_refl _⟩
    simp only [Supply.fresh]
    omega
  | .unary n op operand, s, l, h => by
    obtain ⟨a, t, b, ha, _, hb, rfl⟩ := lowerExpr_unary.mp h
    exact takes_unary (takes_of_lowerExpr operand ha) hb _
  | .call n f arguments, s, l, h => by
    obtain ⟨a, ha, rfl⟩ := lowerExpr_call.mp h
    have hargs := takes_of_lowerExprs arguments ha
    have h₁ := hargs.registers
    refine ⟨hargs.labels, hargs.frame, ?_, Nat.le_refl _⟩
    simp only [Supply.fresh]
    omega

/-- Arguments take registers only, and their values are in some that they took. They stay apart from
each other, since each argument starts where the one before ended. -/
theorem takes_of_lowerExprs : ∀ (es : List (Expr Typing)) {s : Supply}
    {l : Lowered (List Register)}, lowerExprs es s = some l → TakesAll s l
  | [], s, l, h => by
    rw [lowerExprs_nil] at h
    subst h
    exact ⟨rfl, rfl, Nat.le_refl _, by simp, by simp⟩
  | e :: es, s, l, h => by
    obtain ⟨a, b, ha, hb, rfl⟩ := lowerExprs_cons.mp h
    -- The values of the first ones lie below what the others take.
    have he := takes_of_lowerExpr e ha
    have hes := takes_of_lowerExprs es hb
    have h₁ := he.registers
    have h₂ := hes.registers
    refine ⟨hes.labels.trans he.labels, hes.frame.trans he.frame, Nat.le_trans h₁ h₂, ?_, ?_⟩
    · intro r hr
      rcases List.mem_cons.mp hr with rfl | hr
      · exact he.lower
      · exact Nat.lt_of_le_of_lt h₁ (hes.lower r hr)
    · intro r hr
      rcases List.mem_cons.mp hr with rfl | hr
      · exact Nat.le_trans he.upper h₂
      · exact hes.upper r hr

end

/-! ## Statements -/

/-- The frame with names added, the last one in front. -/
def pushNames (frame : Option (List String)) (vars : List (String × Ty)) : Option (List String) :=
  frame.map ((vars.map Prod.fst).reverse ++ ·)

/-- Without names the frame stays. -/
@[simp] theorem pushNames_nil (frame : Option (List String)) : pushNames frame [] = frame := by
  cases frame <;> simp [pushNames]

/-- Names can be added in two parts. -/
theorem pushNames_append (frame : Option (List String)) (vars more : List (String × Ty)) :
    pushNames frame (vars ++ more) = pushNames (pushNames frame vars) more := by
  cases frame <;> simp [pushNames]

/-- A declaration adds its name to the frame. -/
theorem declare_frame_eq (s : Supply) (x : String) (t : Ty) :
    (s.declare x).frame = pushNames s.frame [(x, t)] := rfl

/-- A statement takes registers and labels, and its declarations go to the frame. -/
structure Adds (s : Supply) (vars : List (String × Ty)) (l : Lowered Unit) : Prop where
  registers : s.registers ≤ l.next.registers
  labels : s.labels ≤ l.next.labels
  frame : l.next.frame = pushNames s.frame vars

/-- What takes registers only declares nothing. -/
theorem Takes.adds {s : Supply} {a : Lowered Register} (h : Takes s a) (code : List Instr) :
    Adds s [] ⟨(), code, a.next⟩ :=
  ⟨h.registers, Nat.le_of_eq h.labels.symm, by simp [h.frame]⟩

/-- A declaration with a value takes the registers of the value and adds its name. -/
theorem adds_of_lowerDeclaration {ty : Option Ty} {x : String} {e : Expr Typing} {s : Supply}
    {l : Lowered Unit} (h : lowerDeclaration ty x e s = some l) :
    Adds s (ty.map fun t => (x, t)).toList l := by
  obtain ⟨t, a, rfl, ha, rfl⟩ := lowerDeclaration_eq_some.mp h
  have he := takes_of_lowerExpr e ha
  refine ⟨he.registers, Nat.le_of_eq he.labels.symm, ?_⟩
  simp only [Option.map_some, Option.toList_some]
  rw [declare_frame_eq _ _ t, he.frame]

mutual

/-- **A statement takes registers and labels, and adds the names that it declares.** Inside of a
function the names go to the frame, and stay in it behind the block that they are declared in. -/
theorem adds_of_lowerStmt : ∀ (st : CheckedStmt) {s : Supply} {l : Lowered Unit},
    lowerStmt st s = some l → Adds s st.declarations l
  | .print n e, s, l, h => by
    obtain ⟨a, t, ha, _, rfl⟩ := lowerStmt_print.mp h
    rw [declarations_print]
    exact (takes_of_lowerExpr e ha).adds _
  | .var n x none, s, l, h => by
    obtain ⟨t, ht, rfl⟩ := lowerStmt_var.mp h
    rw [declarations, ht]
    exact ⟨Nat.le_refl _, Nat.le_refl _, rfl⟩
  | .var n x (some e), s, l, h => by
    rw [declarations]
    exact adds_of_lowerDeclaration (lowerStmt_varWith.mp h)
  | .const n x e, s, l, h => by
    rw [declarations]
    exact adds_of_lowerDeclaration (lowerStmt_const.mp h)
  | .write n x e, s, l, h => by
    obtain ⟨a, t, ha, _, rfl⟩ := lowerStmt_write.mp h
    rw [declarations_write]
    exact (takes_of_lowerExpr e ha).adds _
  | .branch n e whenTrue whenFalse, s, l, h => by
    obtain ⟨a, b, c, ha, hb, hc, rfl⟩ := lowerStmt_branch.mp h
    have he := takes_of_lowerExpr e ha
    have ht := adds_of_lowerBlock whenTrue hb
    have hf := adds_of_lowerBlock whenFalse hc
    have h₁ := he.registers
    have h₂ := ht.registers
    have h₃ := hf.registers
    have h₄ := ht.labels
    have h₅ := hf.labels
    have h₆ := he.labels
    simp only [Supply.skipLabels_registers, Supply.skipLabels_labels] at h₂ h₄
    rw [declarations]
    -- The condition, the three labels and the two arms follow each other.
    refine ⟨by simp only; omega, by simp only; omega, ?_⟩
    rw [pushNames_append, hf.frame, ht.frame, Supply.skipLabels_frame, he.frame]
  | .loop n e body, s, l, h => by
    obtain ⟨a, b, ha, hb, rfl⟩ := lowerStmt_loop.mp h
    have he := takes_of_lowerExpr e ha
    have hbody := adds_of_lowerBlock body hb
    have h₁ := he.registers
    have h₂ := hbody.registers
    have h₃ := he.labels
    have h₄ := hbody.labels
    simp only [Supply.skipLabels_registers, Supply.skipLabels_labels] at h₁ h₃
    rw [declarations]
    refine ⟨by simp only; omega, by simp only; omega, ?_⟩
    rw [hbody.frame, he.frame, Supply.skipLabels_frame]
  | .function n f ps r body, s, l, h => by
    rw [lowerStmt_function] at h
    subst h
    rw [declarations_function]
    exact ⟨Nat.le_refl _, Nat.le_refl _, (pushNames_nil _).symm⟩
  | .ret n e, s, l, h => by
    obtain ⟨a, t, ha, _, rfl⟩ := lowerStmt_ret.mp h
    rw [declarations_ret]
    exact (takes_of_lowerExpr e ha).adds _

/-- So does a block, statement by statement. -/
theorem adds_of_lowerBlock : ∀ (ss : List CheckedStmt) {s : Supply} {l : Lowered Unit},
    lowerBlock ss s = some l → Adds s (declarationsOf ss) l
  | [], s, l, h => by
    rw [lowerBlock_nil] at h
    subst h
    exact ⟨Nat.le_refl _, Nat.le_refl _, by simp⟩
  | st :: ss, s, l, h => by
    obtain ⟨a, b, ha, hb, rfl⟩ := lowerBlock_cons.mp h
    have hst := adds_of_lowerStmt st ha
    have hss := adds_of_lowerBlock ss hb
    refine ⟨Nat.le_trans hst.registers hss.registers, Nat.le_trans hst.labels hss.labels, ?_⟩
    rw [declarationsOf_cons, pushNames_append, ← hst.frame]
    exact hss.frame

end

/-! ## Frames -/

/-- The frame of the supply has the names of the function around. -/
structure Fits (s : Supply) (F : Option Frame) : Prop where
  inside : s.frame.isSome = F.isSome
  names : ∀ x, x ∈ s.names ↔ x ∈ (localsOf F).map Prod.fst

/-- Taking registers and labels does not touch the frame. -/
theorem Fits.of_frame {s s' : Supply} {F : Option Frame} (h : Fits s F)
    (heq : s'.frame = s.frame) : Fits s' F := by
  refine ⟨heq ▸ h.inside, ?_⟩
  intro x
  rw [Supply.names, heq]
  exact h.names x

/-- A frame that fits does so with the new names on both sides. The supply and the frame of a typing
rule grow by the same declarations. -/
theorem Fits.past {s s' : Supply} {F : Option Frame} {vars : List (String × Ty)} (h : Fits s F)
    (heq : s'.frame = pushNames s.frame vars) : Fits s' (Frame.past F vars) := by
  obtain ⟨hin, hnames⟩ := h
  -- The supply has the names with the last one in front, so only membership can be compared.
  refine ⟨by rw [heq]; simpa [pushNames, Frame.past] using hin, ?_⟩
  intro x
  have hx := hnames x
  cases F with
  | none =>
    have hframe : s.frame = none := by simpa using hin
    simp [Supply.names, heq, hframe, pushNames, Frame.past, localsOf]
  | some f =>
    obtain ⟨names, hframe⟩ := Option.isSome_iff_exists.mp hin
    simp only [Supply.names, hframe, Option.getD_some, localsOf] at hx
    simp only [Supply.names, heq, hframe, pushNames, Option.map_some, Option.getD_some,
      Frame.past, localsOf, List.map_append, List.mem_append, List.mem_reverse, hx, or_comm]

/-- A variable is where its name is looked for. -/
theorem Fits.location {s : Supply} {F : Option Frame} {d : Outline} {x : String} {t : Ty}
    (h : Fits s F) (hv : d.Var (localsOf F) x t) :
    s.location x = .frame x ∧ (x, t) ∈ localsOf F ∨
      s.location x = .global x ∧ x ∉ (localsOf F).map Prod.fst ∧ (x, t) ∈ d.globals := by
  rcases hv with hmem | ⟨hnot, hmem⟩
  · have hx : x ∈ s.names := (h.names x).mpr (List.mem_map_of_mem hmem)
    exact .inl ⟨by simp [Supply.location, hx], hmem⟩
  · have hx : x ∉ s.names := fun hx => hnot ((h.names x).mp hx)
    exact .inr ⟨by simp [Supply.location, hx], hnot, hmem⟩

end Pulse.Code

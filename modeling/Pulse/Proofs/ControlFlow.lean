/-
The control flow of generated code is well formed.

A branch and a loop take three labels before the code of their parts is made, and define them around
this code. Each of the labels is defined in one place and some instruction of the same construct
goes to it. In front of every definition stands a jump, a branch or a `return`, so that control
never falls into a label: the code between two labels is a basic block, whatever is nested in what,
and also where an arm is empty or ends with a `return`. Functions declared in a branch or in a loop
have their code elsewhere, so they change nothing about the labels around them.
-/
import Pulse.Proofs.RegisterFlow

set_option autoImplicit false

namespace Pulse.Code

/-! ## Labels behind terminators -/

/-- Right in front of every label there is a terminator. -/
def Guarded (code : List Instr) : Prop :=
  ∀ before l after, code = before ++ .label l :: after →
    ∃ head i, before = head ++ [i] ∧ i.isTerminator

/-- Code behind code keeps its labels guarded, since what stands right in front of a label does not
change. -/
theorem Guarded.append {a b : List Instr} (ha : Guarded a) (hb : Guarded b) :
    Guarded (a ++ b) := by
  intro before l after heq
  -- The label is in the first piece or in the second one.
  rcases split_append heq with ⟨rest, hrest⟩ | ⟨rest, rfl, hrest⟩
  · exact ha before l rest hrest
  · obtain ⟨head, i, rfl, hi⟩ := hb rest l after hrest
    exact ⟨a ++ head, i, by rw [List.append_assoc], hi⟩

/-- Code without labels. -/
theorem guarded_of_labels {code : List Instr} (h : labelsOf code = []) : Guarded code := by
  intro before l after heq
  have hl : l ∈ labelsOf code := by
    rw [heq, labelsOf_append]
    exact List.mem_append_right _ List.mem_cons_self
  rw [h] at hl
  cases hl

/-- A label with a terminator in front of it. So control comes to the label by a jump only. -/
theorem guarded_pair {i : Instr} (hi : i.isTerminator) (l : Label) : Guarded [i, .label l] := by
  intro before m after heq
  cases before with
  | nil =>
    obtain ⟨rfl, -⟩ := List.cons.inj heq
    cases hi
  | cons j before =>
    obtain ⟨rfl, hrest⟩ := List.cons.inj heq
    rcases List.append_eq_singleton_iff.mp hrest.symm with ⟨rfl, -⟩ | ⟨-, hnil⟩
    · exact ⟨[], i, rfl, hi⟩
    · cases hnil

/-! ## Pieces of code -/

/-- Code that defines the labels of a range, each once. Some instruction of it goes to each of them,
and a terminator stands in front of each. -/
structure Routed (lo hi : Nat) (code : List Instr) : Prop where
  le : lo ≤ hi
  labels : (labelsOf code).Perm ((numbers lo hi).map Label.mk)
  reached : labelsOf code ⊆ jumpsOf code
  guarded : Guarded code

/-- Code without labels. -/
theorem routed_of_labels (n : Nat) {code : List Instr} (h : labelsOf code = []) :
    Routed n n code where
  le := Nat.le_refl n
  labels := by
    rw [h, numbers_self]
    exact .nil
  reached := by
    rw [h]
    exact List.nil_subset _
  guarded := guarded_of_labels h

/-- Code behind code: the ranges of the labels follow each other as the code does. Every label of
either part is gone to from this part. -/
theorem Routed.append {lo mid hi : Nat} {a b : List Instr} (ha : Routed lo mid a)
    (hb : Routed mid hi b) : Routed lo hi (a ++ b) where
  le := Nat.le_trans ha.le hb.le
  labels := by
    rw [labelsOf_append, ← numbers_append ha.le hb.le, List.map_append]
    exact ha.labels.append hb.labels
  reached := by
    rw [labelsOf_append, jumpsOf_append]
    intro l hl
    rcases List.mem_append.mp hl with hl | hl
    · exact List.mem_append_left _ (ha.reached hl)
    · exact List.mem_append_right _ (hb.reached hl)
  guarded := ha.guarded.append hb.guarded

/-! ## Branches and loops -/

/-- The three labels of a construct, as the first of its range. -/
theorem numbers_three (s : Supply) :
    (numbers s.labels (s.labels + 3)).map Label.mk = [s.label 1, s.label 2, s.label 3] := by
  rw [numbers, Nat.add_sub_cancel_left]
  rfl

section Constructs

variable {s : Supply} {mid hi : Nat} {r : Register} {a b : List Instr}

/-- A branch takes three labels for itself, and its arms take theirs behind them. Each of the three
is gone to: the first two from the branch itself, the third one from the end of both arms. -/
theorem Routed.branch (ha : Routed (s.labels + 3) mid a) (hb : Routed mid hi b) :
    Routed s.labels hi (branchCode r (s.label 1) (s.label 2) (s.label 3) a b) where
  le := Nat.le_trans (Nat.le_add_right _ 3) (Nat.le_trans ha.le hb.le)
  labels := by
    rw [labelsOf_branchCode,
      ← numbers_append (Nat.le_add_right s.labels 3) (Nat.le_trans ha.le hb.le),
      ← numbers_append ha.le hb.le, List.map_append, List.map_append, numbers_three]
    -- The arms take their labels behind the three, but stand between them.
    rw [List.perm_iff_count]
    intro l
    have hla := ha.labels.count_eq l
    have hlb := hb.labels.count_eq l
    simp only [List.count_append, List.count_cons, List.count_nil]
    omega
  reached := by
    rw [labelsOf_branchCode, jumpsOf_branchCode]
    intro l hl
    have hla : l ∈ labelsOf a → l ∈ jumpsOf a := fun h => ha.reached h
    have hlb : l ∈ labelsOf b → l ∈ jumpsOf b := fun h => hb.reached h
    simp only [List.mem_append, List.mem_cons, List.not_mem_nil, or_false] at hl ⊢
    tauto
  guarded := by
    have hhead : Guarded [.branch r (s.label 1) (s.label 2), .label (s.label 1)] :=
      guarded_pair rfl _
    have hjump : ∀ l, Guarded [.jump (s.label 3), .label l] := fun l => guarded_pair rfl l
    exact (((hhead.append ha.guarded).append (hjump _)).append hb.guarded).append (hjump _)

/-- A loop takes three labels for itself, its condition takes none, and its body takes its own
behind them. -/
theorem Routed.loop (ha : labelsOf a = []) (hb : Routed (s.labels + 3) hi b) :
    Routed s.labels hi (loopCode (s.label 1) (s.label 2) (s.label 3) a r b) where
  le := Nat.le_trans (Nat.le_add_right _ 3) hb.le
  labels := by
    rw [labelsOf_loopCode, ha, ← numbers_append (Nat.le_add_right s.labels 3) hb.le,
      List.map_append, numbers_three]
    rw [List.perm_iff_count]
    intro l
    have hlb := hb.labels.count_eq l
    simp only [List.count_append, List.count_cons, List.count_nil]
    omega
  reached := by
    rw [labelsOf_loopCode, ha, jumpsOf_loopCode]
    intro l hl
    have hlb : l ∈ labelsOf b → l ∈ jumpsOf b := fun h => hb.reached h
    simp only [List.mem_append, List.mem_cons, List.not_mem_nil, or_false] at hl ⊢
    tauto
  guarded := by
    have hhead : Guarded [.jump (s.label 1), .label (s.label 1)] := guarded_pair rfl _
    have hcheck : Guarded [.branch r (s.label 2) (s.label 3), .label (s.label 2)] :=
      guarded_pair rfl _
    have htail : Guarded [.jump (s.label 1), .label (s.label 3)] := guarded_pair rfl _
    have hcondition : Guarded a := guarded_of_labels ha
    exact (((hhead.append hcondition).append hcheck).append hb.guarded).append htail

end Constructs

/-! ## Statements -/

/-- The code of an expression with an instruction behind it that is no label. -/
theorem routed_value {e : Expr Typing} {s : Supply} {a : Lowered Register}
    (ha : lowerExpr e s = some a) {i : Instr} (hi : i.label? = none) :
    Routed s.labels a.next.labels (a.code ++ [i]) := by
  rw [(takes_of_lowerExpr e ha).labels]
  apply routed_of_labels
  rw [labelsOf_append, labelsOf_expr (target_of_lowerExpr e ha), List.nil_append, labelsOf,
    List.filterMap_cons_none hi, List.filterMap_nil]

/-- Declarations with a value take no labels. -/
theorem lowerDeclaration_routed {ty : Option Ty} {x : String} {e : Expr Typing} {s : Supply}
    {l : Lowered Unit} (h : lowerDeclaration ty x e s = some l) :
    Routed s.labels l.next.labels l.code := by
  have hlabels := labelsOf_declaration h
  obtain ⟨t, a, -, ha, rfl⟩ := lowerDeclaration_eq_some.mp h
  rw [Supply.declare_labels, (takes_of_lowerExpr e ha).labels]
  exact routed_of_labels s.labels hlabels

/-- Making storage defines no label. -/
theorem labelsOf_storage (s : Supply) (ty : MachineTy) (x : String) :
    labelsOf [s.storage ty x] = [] := by
  unfold Supply.storage
  split <;> rfl

mutual

/-- The labels of a statement are those it takes, each defined once and gone to. By recursion on the
statement, where only branches and loops take labels (`lower_stmt`). -/
theorem lowerStmt_routed : ∀ (st : CheckedStmt) {s : Supply} {l : Lowered Unit},
    lowerStmt st s = some l → Routed s.labels l.next.labels l.code
  | .print n e, s, l, h => by
    obtain ⟨a, t, ha, -, rfl⟩ := lowerStmt_print.mp h
    exact routed_value ha rfl
  | .var n x none, s, l, h => by
    obtain ⟨t, -, rfl⟩ := lowerStmt_var.mp h
    exact routed_of_labels s.labels (labelsOf_storage s _ x)
  | .var n x (some e), s, l, h => lowerDeclaration_routed (lowerStmt_varWith.mp h)
  | .const n x e, s, l, h => lowerDeclaration_routed (lowerStmt_const.mp h)
  | .write n x e, s, l, h => by
    obtain ⟨a, t, ha, -, rfl⟩ := lowerStmt_write.mp h
    exact routed_value ha rfl
  | .branch n e whenTrue whenFalse, s, l, h => by
    obtain ⟨a, b, c, ha, hb, hc, rfl⟩ := lowerStmt_branch.mp h
    have htrue := lowerBlock_routed whenTrue hb
    have hfalse := lowerBlock_routed whenFalse hc
    rw [Supply.skipLabels_labels] at htrue
    -- The labels are taken behind the condition, which takes none.
    have hcondition : Routed s.labels a.next.labels a.code := by
      rw [(takes_of_lowerExpr e ha).labels]
      exact routed_of_labels s.labels (labelsOf_expr (target_of_lowerExpr e ha))
    exact hcondition.append (htrue.branch hfalse)
  | .loop n e body, s, l, h => by
    obtain ⟨a, b, ha, hb, rfl⟩ := lowerStmt_loop.mp h
    have hbody := lowerBlock_routed body hb
    rw [(takes_of_lowerExpr e ha).labels, Supply.skipLabels_labels] at hbody
    exact .loop (labelsOf_expr (target_of_lowerExpr e ha)) hbody
  | .function n f ps r body, s, l, h => by
    rw [lowerStmt_function] at h
    subst h
    exact routed_of_labels s.labels rfl
  | .ret n e, s, l, h => by
    obtain ⟨a, t, ha, -, rfl⟩ := lowerStmt_ret.mp h
    exact routed_value ha rfl

/-- The labels of a block are those its statements take, each defined once and gone to. -/
theorem lowerBlock_routed : ∀ (ss : List CheckedStmt) {s : Supply} {l : Lowered Unit},
    lowerBlock ss s = some l → Routed s.labels l.next.labels l.code
  | [], s, l, h => by
    rw [lowerBlock_nil] at h
    subst h
    exact routed_of_labels s.labels rfl
  | st :: ss, s, l, h => by
    obtain ⟨a, b, ha, hb, rfl⟩ := lowerBlock_cons.mp h
    exact (lowerStmt_routed st ha).append (lowerBlock_routed ss hb)

end

/-! ## Functions and programs -/

/-- The code of one function: jumps go to labels of the function and to all of them, and no label is
reached from above. -/
structure WellRouted (code : List Instr) : Prop where
  targets : ∀ l, l ∈ jumpsOf code ↔ l ∈ labelsOf code
  guarded : Guarded code

/-- Code whose jumps stay inside has well-formed control flow. -/
theorem Routed.wellRouted {lo hi : Nat} {code : List Instr} (h : Routed lo hi code)
    (hclosed : Closed code) : WellRouted code :=
  ⟨fun _ => ⟨fun hl => hclosed.jumps hl, fun hl => h.reached hl⟩, h.guarded⟩

/-- The statements outside of functions become code with well-formed control flow. -/
theorem lowerInit_routed {ss : List CheckedStmt} {s : Supply} {l : Lowered Function}
    (h : lowerInit ss s = some l) :
    Routed s.labels l.next.labels l.value.code ∧ WellRouted l.value.code := by
  have hclosed := lowerInit_closed h
  obtain ⟨a, ha, rfl⟩ := lowerInit_eq_some.mp h
  have htail : Routed a.next.labels a.next.labels (initTail a.next.fresh) :=
    routed_of_labels a.next.labels rfl
  have hall := (lowerBlock_routed ss ha).append htail
  exact ⟨hall, hall.wellRouted hclosed⟩

/-- A function becomes code with well-formed control flow. -/
theorem lowerFunction_routed {f : CheckedFunction} {s : Supply} {l : Lowered Function}
    (h : lowerFunction f s = some l) :
    Routed s.labels l.next.labels l.value.code ∧ WellRouted l.value.code := by
  obtain ⟨vars, t, a, -, -, ha, rfl⟩ := lowerFunction_eq_some.mp h
  have hbody := lowerBlock_routed f.body ha
  exact ⟨hbody, hbody.wellRouted (lowerBlock_closed f.body ha)⟩

end Pulse.Code

namespace Pulse

open Code

/-- **The control flow is well formed.** Every program without diagnostics has code. The labels that
all functions together define are those with the numbers from one up to some number, each defined by
one instruction. In each function, the labels that instructions go to are exactly the labels that
the function defines, and a terminator stands right in front of each definition. -/
theorem labels_defined_once_and_reached (p : Program) (h : p.analyze.diagnostics = []) :
    ∃ asm n, generate p.analyze = .ok asm ∧
      (labelsOf asm.code).Perm ((List.range' 1 n).map Label.mk) ∧
      ∀ g ∈ asm.functions, WellRouted g.code := by
  obtain ⟨d, hd⟩ := typedProgram_of_clean p h
  obtain ⟨init, rest, hinit, hrest, hasm⟩ := exists_generate h hd
  obtain ⟨hfirst, hwell⟩ := lowerInit_routed hinit
  have hothers := total_of_lowerFunctions Supply.labels Routed
    (fun n => routed_of_labels n rfl) Routed.append (fun hl => (lowerFunction_routed hl).1) hrest
  refine ⟨_, rest.next.labels, hasm, (hfirst.append hothers).labels, ?_⟩
  intro g hg
  rcases List.mem_cons.mp hg with rfl | hg
  · exact hwell
  · exact forall_of_lowerFunctions (fun hl => (lowerFunction_routed hl).2) hrest g hg

/-- A loop outside of functions with a function inside of it, which returns from an arm of a branch
in a loop and leaves the other arm empty. -/
def nestedFlow : Program :=
  let here : Span := ⟨.nowhere, .nowhere⟩
  let int : TypeName := ⟨"int", here⟩
  let number (v : Int32) : Expr Span := .literal here (.int v)
  let read (x : String) : Expr Span := .read here x
  let less (a b : Expr Span) : Expr Span := .binary here (.compare .less) a b
  let f : Stmt := .function here "f" [⟨"a", int, here⟩] int [
    .loop here (less (read "a") (number 9)) [
      .branch here (less (read "a") (number 5)) [.ret here (read "a"), .print here (number 0)] [],
      .write here "a" (.binary here (.arith .add) (read "a") (number 1))],
    .ret here (number 0)]
  { span := here
    body := [.var here "n" int none,
      .loop here (less (read "n") (number 3)) [
        f,
        .branch here (less (.call here "f" [read "n"]) (number 1)) []
          [.print here (.unary here .minus (read "n"))],
        .write here "n" (.binary here (.arith .add) (read "n") (number 1))]] }

/-- The program has four constructs, each with three labels. -/
theorem nestedFlow_labels : nestedFlow.analyze.diagnostics = [] ∧
    ∃ asm, generate nestedFlow.analyze = .ok asm ∧
      (labelsOf asm.code).Perm ((List.range' 1 12).map Label.mk) ∧
      ∀ g ∈ asm.functions, WellRouted g.code := by
  have hclean : nestedFlow.analyze.diagnostics = [] := by decide
  obtain ⟨asm, n, hasm, hlabels, hrouted⟩ := labels_defined_once_and_reached nestedFlow hclean
  have hcount : (generate nestedFlow.analyze).toOption.map
      (fun asm => (labelsOf asm.code).length) = some 12 := by decide +kernel
  obtain rfl : n = 12 := by
    rw [hasm] at hcount
    have hlength : (labelsOf asm.code).length = _ := Option.some.inj hcount
    rwa [hlabels.length_eq, List.length_map, List.length_range'] at hlength
  exact ⟨hclean, asm, hasm, hlabels, hrouted⟩

end Pulse

/-
Programs without diagnostics have a type everywhere, and code.

A checked tree may lack types: a node whose type could not be made out has none, and lowering
stops at such a node. What is shown here is that this does not happen to a program that was
accepted. The two halves are independent. A typed tree lacks no type, and a tree that lacks no type
has code, whatever else may be wrong with it.
-/
import Pulse.Proofs.CheckerTree
import Pulse.Proofs.LoweringSteps

set_option autoImplicit false

namespace Pulse

open Rules Code

/-! ## The types of a tree -/

namespace Expr

mutual

/-- The types at the nodes of an expression. -/
def types : Expr Typing → List (Option Ty)
  | literal n _ => [n.ty]
  | read n _ => [n.ty]
  | binary n _ left right => n.ty :: (left.types ++ right.types)
  | unary n _ operand => n.ty :: operand.types
  | call n _ arguments => n.ty :: typesOf arguments

/-- The types at the nodes of several expressions. -/
def typesOf : List (Expr Typing) → List (Option Ty)
  | [] => []
  | e :: es => e.types ++ typesOf es

end

/-- The type of an expression is the one at its topmost node. -/
theorem ty_mem_types (e : Expr Typing) : e.ty ∈ e.types := by
  cases e <;> simp [types, Expr.ty, note]

end Expr

namespace CheckedStmt

mutual

/-- The types in a statement: at its nodes, of parameters and of results. -/
def types : CheckedStmt → List (Option Ty)
  | print n value => n.ty :: value.types
  | var n _ none => [n.ty]
  | var n _ (some value) => n.ty :: value.types
  | const n _ value => n.ty :: value.types
  | write n _ value => n.ty :: value.types
  | branch n condition whenTrue whenFalse =>
    n.ty :: (condition.types ++ (typesOf whenTrue ++ typesOf whenFalse))
  | loop n condition body => n.ty :: (condition.types ++ typesOf body)
  | function n _ params returns body =>
    n.ty :: returns :: (params.map CheckedParam.ty ++ typesOf body)
  | ret n value => n.ty :: value.types

/-- The types in the statements of a block. -/
def typesOf : List CheckedStmt → List (Option Ty)
  | [] => []
  | s :: ss => s.types ++ typesOf ss

end

end CheckedStmt

/-- The types in a program. -/
def CheckedProgram.types (p : CheckedProgram) : List (Option Ty) := CheckedStmt.typesOf p.body

/-! ## Typed trees lack no type -/

section Typed

variable {d : Outline}

mutual

/-- A typed expression lacks no type. -/
theorem TypedExpr.none_notMem {locals : List (String × Ty)} {e : Expr Typing} {t : Ty} :
    TypedExpr d locals e t → none ∉ e.types
  | .literal note => by simp [Expr.types, note]
  | .read note _ => by simp [Expr.types, note]
  | .binary note hl hr _ => by simp [Expr.types, note, hl.none_notMem, hr.none_notMem]
  | .unary note h _ => by simp [Expr.types, note, h.none_notMem]
  | .call note _ h => by simp [Expr.types, note, h.none_notMem]

/-- Typed arguments lack no type. -/
theorem TypedExprs.none_notMem {locals : List (String × Ty)} {es : List (Expr Typing)}
    {ts : List Ty} : TypedExprs d locals es ts → none ∉ Expr.typesOf es
  | .nil => by simp [Expr.typesOf]
  | .cons h hs => by simp [Expr.typesOf, h.none_notMem, hs.none_notMem]

end

mutual

/-- A typed statement lacks no type. Every note in it is part of the rule that types it. -/
theorem TypedStmt.none_notMem {F : Option Frame} {s : CheckedStmt} :
    TypedStmt d F s → none ∉ s.types
  | .print note h => by simp [CheckedStmt.types, note, h.none_notMem]
  | .var note _ => by simp [CheckedStmt.types, note]
  | .varWith note h _ => by simp [CheckedStmt.types, note, h.none_notMem]
  | .const note h _ => by simp [CheckedStmt.types, note, h.none_notMem]
  | .write note h _ => by simp [CheckedStmt.types, note, h.none_notMem]
  | .branch note h ht hf => by
    simp [CheckedStmt.types, note, h.none_notMem, ht.none_notMem, hf.none_notMem]
  | .loop note h hb => by simp [CheckedStmt.types, note, h.none_notMem, hb.none_notMem]
  | .function note _ _ _ hb => by simp [CheckedStmt.types, note, hb.none_notMem]
  | .ret note h => by simp [CheckedStmt.types, note, h.none_notMem]

/-- A typed block lacks no type. -/
theorem TypedBlock.none_notMem {F : Option Frame} {ss : List CheckedStmt} :
    TypedBlock d F ss → none ∉ CheckedStmt.typesOf ss
  | .nil => by simp [CheckedStmt.typesOf]
  | .cons h hs => by simp [CheckedStmt.typesOf, h.none_notMem, hs.none_notMem]

end

end Typed

/-! ## Trees that lack no type have code

The supply is arbitrary throughout, since each part starts where the one before it stopped. -/

namespace Code

/-- An expression that lacks no type has one itself. -/
theorem exists_ty {e : Expr Typing} (h : none ∉ e.types) : ∃ t, e.ty = some t := by
  rw [← Option.ne_none_iff_exists']
  intro hnone
  exact h (hnone ▸ e.ty_mem_types)

/-- Unary operators always have code. -/
theorem exists_lowerUnary (op : UnaryOp) (ty : MachineTy) (r : Register) (s : Supply) :
    ∃ l, lowerUnary op ty r s = some l := by
  cases op with
  | plus => exact ⟨_, lowerUnary_plus.mpr rfl⟩
  | minus => exact ⟨_, lowerUnary_minus.mpr rfl⟩
  | not => exact ⟨_, lowerUnary_not.mpr rfl⟩

mutual

/-- An expression that lacks no type has code. By recursion on the expression: types are all that
lowering can miss (`resolved`). -/
theorem exists_lowerExpr : ∀ (e : Expr Typing), none ∉ e.types →
    ∀ s, ∃ l, lowerExpr e s = some l
  | .literal n v, _, s => ⟨_, lowerExpr_literal.mpr rfl⟩
  | .read n x, h, s => by
    obtain ⟨t, ht⟩ := exists_ty h
    exact ⟨_, lowerExpr_read.mpr ⟨t, ht, rfl⟩⟩
  -- Each part has code from the supply that the part before it leaves.
  | .binary n op left right, h, s => by
    simp only [Expr.types, List.mem_cons, List.mem_append, not_or] at h
    obtain ⟨a, ha⟩ := exists_lowerExpr left h.2.1 s
    obtain ⟨b, hb⟩ := exists_lowerExpr right h.2.2 a.next
    obtain ⟨t, ht⟩ := exists_ty h.2.1
    exact ⟨_, lowerExpr_binary.mpr ⟨a, b, t, ha, hb, ht, rfl⟩⟩
  | .unary n op operand, h, s => by
    obtain ⟨t, ht⟩ := exists_ty h
    simp only [Expr.types, List.mem_cons, not_or] at h
    obtain ⟨a, ha⟩ := exists_lowerExpr operand h.2 s
    obtain ⟨b, hb⟩ := exists_lowerUnary op (.ofTy t) a.value a.next
    exact ⟨_, lowerExpr_unary.mpr ⟨a, t, b, ha, ht, hb, rfl⟩⟩
  | .call n f arguments, h, s => by
    simp only [Expr.types, List.mem_cons, not_or] at h
    obtain ⟨a, ha⟩ := exists_lowerExprs arguments h.2 s
    exact ⟨_, lowerExpr_call.mpr ⟨a, ha, rfl⟩⟩

/-- Arguments that lack no type have code. -/
theorem exists_lowerExprs : ∀ (es : List (Expr Typing)), none ∉ Expr.typesOf es →
    ∀ s, ∃ l, lowerExprs es s = some l
  | [], _, s => ⟨_, lowerExprs_nil.mpr rfl⟩
  | e :: es, h, s => by
    simp only [Expr.typesOf, List.mem_append, not_or] at h
    obtain ⟨a, ha⟩ := exists_lowerExpr e h.1 s
    obtain ⟨b, hb⟩ := exists_lowerExprs es h.2 a.next
    exact ⟨_, lowerExprs_cons.mpr ⟨a, b, ha, hb, rfl⟩⟩

end

/-- A declaration with a value that lacks no type has code. -/
theorem exists_lowerDeclaration {n : Typing} {e : Expr Typing} (x : String)
    (h : none ∉ n.ty :: e.types) (s : Supply) : ∃ l, lowerDeclaration n.ty x e s = some l := by
  simp only [List.mem_cons, not_or] at h
  obtain ⟨t, ht⟩ := Option.ne_none_iff_exists'.mp (Ne.symm h.1)
  obtain ⟨a, ha⟩ := exists_lowerExpr e h.2 s
  exact ⟨_, lowerDeclaration_eq_some.mpr ⟨t, a, ht, ha, rfl⟩⟩

mutual

/-- A statement that lacks no type has code. By recursion on the statement. A function that is
declared in it is lowered elsewhere, and makes no code here. -/
theorem exists_lowerStmt : ∀ (st : CheckedStmt), none ∉ st.types →
    ∀ s, ∃ l, lowerStmt st s = some l
  | .print n e, h, s => by
    simp only [CheckedStmt.types, List.mem_cons, not_or] at h
    obtain ⟨a, ha⟩ := exists_lowerExpr e h.2 s
    obtain ⟨t, ht⟩ := exists_ty h.2
    exact ⟨_, lowerStmt_print.mpr ⟨a, t, ha, ht, rfl⟩⟩
  | .var n x none, h, s => by
    simp only [CheckedStmt.types, List.mem_singleton] at h
    obtain ⟨t, ht⟩ := Option.ne_none_iff_exists'.mp (Ne.symm h)
    exact ⟨_, lowerStmt_var.mpr ⟨t, ht, rfl⟩⟩
  | .var n x (some e), h, s => by
    obtain ⟨l, hl⟩ := exists_lowerDeclaration x (by rwa [CheckedStmt.types] at h) s
    exact ⟨l, lowerStmt_varWith.mpr hl⟩
  | .const n x e, h, s => by
    obtain ⟨l, hl⟩ := exists_lowerDeclaration x (by rwa [CheckedStmt.types] at h) s
    exact ⟨l, lowerStmt_const.mpr hl⟩
  | .write n x e, h, s => by
    simp only [CheckedStmt.types, List.mem_cons, not_or] at h
    obtain ⟨a, ha⟩ := exists_lowerExpr e h.2 s
    obtain ⟨t, ht⟩ := exists_ty h.2
    exact ⟨_, lowerStmt_write.mpr ⟨a, t, ha, ht, rfl⟩⟩
  | .branch n e whenTrue whenFalse, h, s => by
    simp only [CheckedStmt.types, List.mem_cons, List.mem_append, not_or] at h
    obtain ⟨a, ha⟩ := exists_lowerExpr e h.2.1 s
    obtain ⟨b, hb⟩ := exists_lowerBlock whenTrue h.2.2.1 (a.next.skipLabels 3)
    obtain ⟨c, hc⟩ := exists_lowerBlock whenFalse h.2.2.2 b.next
    exact ⟨_, lowerStmt_branch.mpr ⟨a, b, c, ha, hb, hc, rfl⟩⟩
  | .loop n e body, h, s => by
    simp only [CheckedStmt.types, List.mem_cons, List.mem_append, not_or] at h
    obtain ⟨a, ha⟩ := exists_lowerExpr e h.2.1 (s.skipLabels 3)
    obtain ⟨b, hb⟩ := exists_lowerBlock body h.2.2 a.next
    exact ⟨_, lowerStmt_loop.mpr ⟨a, b, ha, hb, rfl⟩⟩
  | .function n f ps r body, _, s => ⟨_, lowerStmt_function.mpr rfl⟩
  | .ret n e, h, s => by
    simp only [CheckedStmt.types, List.mem_cons, not_or] at h
    obtain ⟨a, ha⟩ := exists_lowerExpr e h.2 s
    obtain ⟨t, ht⟩ := exists_ty h.2
    exact ⟨_, lowerStmt_ret.mpr ⟨a, t, ha, ht, rfl⟩⟩

/-- A block that lacks no type has code. -/
theorem exists_lowerBlock : ∀ (ss : List CheckedStmt), none ∉ CheckedStmt.typesOf ss →
    ∀ s, ∃ l, lowerBlock ss s = some l
  | [], _, s => ⟨_, lowerBlock_nil.mpr rfl⟩
  | st :: ss, h, s => by
    simp only [CheckedStmt.typesOf, List.mem_append, not_or] at h
    obtain ⟨a, ha⟩ := exists_lowerStmt st h.1 s
    obtain ⟨b, hb⟩ := exists_lowerBlock ss h.2 a.next
    exact ⟨_, lowerBlock_cons.mpr ⟨a, b, ha, hb, rfl⟩⟩

end

end Code

/-! ## Functions out of their blocks -/

/-- The types in a function. -/
def CheckedFunction.types (f : CheckedFunction) : List (Option Ty) :=
  f.returns :: (f.params.map CheckedParam.ty ++ CheckedStmt.typesOf f.body)

namespace CheckedStmt

mutual

/-- The types in a function are types in the statement that it is declared in. So a program that
lacks no type has functions that lack none. -/
theorem function_types_subset : ∀ (s : CheckedStmt), ∀ f ∈ s.functions, f.types ⊆ s.types
  | .function n name ps r body, f, hf => by
    simp only [functions, List.mem_singleton] at hf
    subst hf
    exact List.subset_cons_self _ _
  -- Functions may be declared in blocks, and are lowered outside of them.
  | .branch n e whenTrue whenFalse, f, hf => by
    simp only [functions, List.mem_append] at hf
    intro t ht
    simp only [types, List.mem_cons, List.mem_append]
    rcases hf with hf | hf
    · exact .inr (.inr (.inl (functionsOf_types_subset whenTrue f hf ht)))
    · exact .inr (.inr (.inr (functionsOf_types_subset whenFalse f hf ht)))
  | .loop n e body, f, hf => by
    simp only [functions] at hf
    intro t ht
    simp only [types, List.mem_cons, List.mem_append]
    exact .inr (.inr (functionsOf_types_subset body f hf ht))
  | .print .., _, hf | .var .., _, hf | .const .., _, hf | .write .., _, hf | .ret .., _, hf => by
    simp [functions] at hf

/-- The types in a function are types in the block that it is declared in. -/
theorem functionsOf_types_subset : ∀ (ss : List CheckedStmt), ∀ f ∈ functionsOf ss,
    f.types ⊆ typesOf ss
  | [], f, hf => by simp at hf
  | s :: ss, f, hf => by
    simp only [functionsOf_cons, List.mem_append] at hf
    intro t ht
    simp only [typesOf, List.mem_append]
    rcases hf with hf | hf
    · exact .inl (function_types_subset s f hf ht)
    · exact .inr (functionsOf_types_subset ss f hf ht)

end

/-- Leaving statements out brings no new types. -/
theorem filter_types_subset (keep : CheckedStmt → Bool) (ss : List CheckedStmt) :
    typesOf (ss.filter keep) ⊆ typesOf ss := by
  induction ss with
  | nil => simp
  | cons s ss ih =>
    intro t ht
    simp only [typesOf, List.mem_append]
    by_cases hs : keep s
    · rw [List.filter_cons_of_pos hs, typesOf, List.mem_append] at ht
      exact ht.imp id (@ih t)
    · rw [List.filter_cons_of_neg hs] at ht
      exact .inr (ih ht)

end CheckedStmt

/-! ## Programs -/

namespace Code

/-- Parameters that all have types are variables. -/
theorem exists_vars {ps : List CheckedParam} (h : none ∉ ps.map CheckedParam.ty) :
    ∃ vars : List (String × Ty), ps = vars.map fun v => ⟨v.1, some v.2⟩ := by
  induction ps with
  | nil => exact ⟨[], rfl⟩
  | cons p ps ih =>
    simp only [List.map_cons, List.mem_cons, not_or] at h
    obtain ⟨u, hu⟩ := Option.ne_none_iff_exists'.mp (Ne.symm h.1)
    obtain ⟨vars, rfl⟩ := ih h.2
    exact ⟨(p.name, u) :: vars, by simp [← hu]⟩

/-- A function that lacks no type has code. -/
theorem exists_lowerFunction {f : CheckedFunction} (h : none ∉ f.types) (s : Supply) :
    ∃ l, lowerFunction f s = some l := by
  simp only [CheckedFunction.types, List.mem_cons, List.mem_append, not_or] at h
  obtain ⟨hr, hp, hb⟩ := h
  obtain ⟨t, ht⟩ := Option.ne_none_iff_exists'.mp (Ne.symm hr)
  -- The body is lowered with the parameters in the frame, whose names are there once their types
  -- are.
  obtain ⟨vars, hvars⟩ := exists_vars hp
  obtain ⟨a, ha⟩ := exists_lowerBlock f.body hb { s with frame := some (vars.map Prod.fst) }
  exact ⟨_, lowerFunction_eq_some.mpr ⟨vars, t, a, hvars, ht, ha, rfl⟩⟩

/-- Functions that lack no type have code. -/
theorem exists_lowerFunctions {fs : List CheckedFunction} (h : ∀ f ∈ fs, none ∉ f.types)
    (s : Supply) : ∃ l, lowerFunctions fs s = some l := by
  induction fs generalizing s with
  | nil => exact ⟨_, lowerFunctions_nil.mpr rfl⟩
  | cons f fs ih =>
    obtain ⟨a, ha⟩ := exists_lowerFunction (h f List.mem_cons_self) s
    obtain ⟨b, hb⟩ := ih (fun g hg => h g (List.mem_cons_of_mem _ hg)) a.next
    exact ⟨_, lowerFunctions_cons.mpr ⟨a, b, ha, hb, rfl⟩⟩

/-- A program that lacks no type has code. The functions are lowered with the supply that the
statements outside of them leave. -/
theorem exists_lowerProgram {p : CheckedProgram} (h : none ∉ p.types) (s : Supply) :
    ∃ l, lowerProgram p s = some l := by
  -- The statements outside of functions and the functions are both cut out of one body.
  have hglobal : none ∉ CheckedStmt.typesOf p.globalStatements := by
    intro hmem
    exact h (CheckedStmt.filter_types_subset _ _ hmem)
  have hfunctions : ∀ f ∈ p.functions, none ∉ f.types := by
    intro f hf hmem
    exact h (CheckedStmt.functionsOf_types_subset p.body f hf hmem)
  obtain ⟨a, ha⟩ := exists_lowerBlock p.globalStatements hglobal { s with frame := none }
  have hinit := lowerInit_eq_some.mpr ⟨a, ha, rfl⟩
  obtain ⟨b, hb⟩ := exists_lowerFunctions hfunctions { a.next.skipRegister with frame := s.frame }
  exact ⟨_, lowerProgram_eq_some.mpr ⟨_, b, hinit, hb, rfl⟩⟩

/-- A program that is typed and without diagnostics has code, in two parts: that of the statements
outside of functions, and that of the functions. -/
theorem exists_generate {a : Analysis} (h : a.diagnostics = []) {d : Outline}
    (hd : TypedProgram a.program d) :
    ∃ init rest, lowerInit a.program.globalStatements .initial = some init ∧
      lowerFunctions a.program.functions init.next = some rest ∧
      generate a = .ok ⟨init.value :: rest.value⟩ := by
  obtain ⟨l, hl⟩ := exists_lowerProgram hd.body.none_notMem .initial
  obtain ⟨init, rest, hinit, hrest, hvalue⟩ := lowerProgram_eq_some.mp hl
  exact ⟨init, rest, hinit, hrest, generate_eq_ok.mpr ⟨h, l, hl, by rw [hvalue]⟩⟩

end Code

/-- **Accepted programs are resolved.** A program without diagnostics has a type everywhere, and its
code is generated; a tree that lacks a type comes with a diagnostic. -/
theorem analyze_clean_resolved (p : Program) :
    (p.analyze.diagnostics = [] →
      none ∉ p.analyze.program.types ∧ ∃ asm, generate p.analyze = .ok asm) ∧
    (none ∈ p.analyze.program.types → p.analyze.diagnostics ≠ []) := by
  have hresolved : p.analyze.diagnostics = [] → none ∉ p.analyze.program.types := by
    intro h
    obtain ⟨d, hd⟩ := typedProgram_of_clean p h
    exact hd.body.none_notMem
  refine ⟨fun h => ⟨hresolved h, ?_⟩, fun hnone h => hresolved h hnone⟩
  obtain ⟨l, hl⟩ := exists_lowerProgram (hresolved h) .initial
  exact ⟨l.value, generate_eq_ok.mpr ⟨h, l, hl, rfl⟩⟩

/-- A program with a variable of its own, a function with a loop, another one that calls it, and two
branches that print. -/
def countdown : Program :=
  let here : Span := ⟨.nowhere, .nowhere⟩
  let int : TypeName := ⟨"int", here⟩
  let number (v : Int32) : Expr Span := .literal here (.int v)
  let read (x : String) : Expr Span := .read here x
  let sum : Stmt := .function here "sum" [⟨"n", int, here⟩] int [
    .loop here (.binary here (.compare .greater) (read "n") (number 0)) [
      .write here "total" (.binary here (.arith .add) (read "total") (read "n")),
      .write here "n" (.binary here (.arith .sub) (read "n") (number 1))],
    .ret here (read "total")]
  let main : Stmt := .function here "main" [] int [.ret here (.call here "sum" [number 2])]
  let ok : Expr Span :=
    .binary here (.compare .greater) (.call here "sum" [number 3]) (number 5)
  { span := here
    body := [.var here "total" int none, sum, main, .const here "ok" ok,
      .branch here (.unary here .not (read "ok"))
        [.print here (read "total")] [.print here (read "ok")]] }

/-- A program that is accepted, and so has code. -/
theorem countdown_resolved : countdown.analyze.diagnostics = [] ∧
    none ∉ countdown.analyze.program.types ∧ ∃ asm, generate countdown.analyze = .ok asm :=
  have hclean : countdown.analyze.diagnostics = [] := by decide
  ⟨hclean, (analyze_clean_resolved countdown).1 hclean⟩

end Pulse

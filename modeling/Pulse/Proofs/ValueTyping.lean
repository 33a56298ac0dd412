/-
The types of values in generated code.

Truth values and integers share a machine type, so machine types do not tell that a truth value
stays zero or one. Types of the source do. Here every register gets one, such that each instruction
makes values of the type of its target out of values of the types of its operands. The registers of
constants that the source does not mention get one too: the one that a truth value is complemented
with is itself a truth value.

Which register carries which expression is read off the lowering: it is the register that the
expression is lowered to, with the supply at this point of the program.
-/
import Pulse.Proofs.CodeTyping
import Pulse.Proofs.Preservation
import Pulse.Proofs.RegisterUse

set_option autoImplicit false

namespace Pulse

open Code

/-! ## Registers that carry expressions -/

namespace Code

/-- The supply behind a lowering step. -/
def behind {α : Type} (m : Lowering α) (s : Supply) : Supply := ((m s).map Lowered.next).getD s

/-- The supply behind a step that succeeds is the one it returns. -/
theorem behind_eq {α : Type} {m : Lowering α} {s : Supply} {l : Lowered α} (h : m s = some l) :
    behind m s = l.next := by
  rw [behind, h]
  rfl

end Code

namespace Expr

/-- The register that an expression is lowered to, with its type. -/
def carrier (s : Supply) (e : Expr Typing) : List (Register × Option Ty) :=
  ((lowerExpr e s).map fun l => (l.value, e.ty)).toList

/-- An expression that is lowered has one carrier, of the type it was checked with. -/
theorem carrier_eq {s : Supply} {e : Expr Typing} {l : Lowered Register} {t : Ty}
    (h : lowerExpr e s = some l) (ht : e.ty = some t) : e.carrier s = [(l.value, some t)] := by
  rw [carrier, h, ht]
  rfl

mutual

/-- The registers that carry an expression and its parts, with their types. -/
def carriers (s : Supply) : Expr Typing → List (Register × Option Ty)
  | literal n v => (literal n v).carrier s
  | read n x => (read n x).carrier s
  | binary n op left right =>
    left.carriers s ++ right.carriers (behind (lowerExpr left) s) ++
      (binary n op left right).carrier s
  | unary n op operand => operand.carriers s ++ (unary n op operand).carrier s
  | call n f arguments => carriersOf s arguments ++ (call n f arguments).carrier s

/-- The registers that carry several expressions and their parts. -/
def carriersOf (s : Supply) : List (Expr Typing) → List (Register × Option Ty)
  | [] => []
  | e :: es => e.carriers s ++ carriersOf (behind (lowerExpr e) s) es

end

end Expr

namespace CheckedStmt

mutual

/-- The registers that carry the expressions of a statement. -/
def carriers (s : Supply) : CheckedStmt → List (Register × Option Ty)
  | print _ value => value.carriers s
  | var _ _ none => []
  | var _ _ (some value) => value.carriers s
  | const _ _ value => value.carriers s
  | write _ _ value => value.carriers s
  | branch _ condition whenTrue whenFalse =>
    let inside := (behind (lowerExpr condition) s).skipLabels 3
    condition.carriers s ++ (carriersOf inside whenTrue ++
      carriersOf (behind (lowerBlock whenTrue) inside) whenFalse)
  | loop _ condition body =>
    let inside := s.skipLabels 3
    condition.carriers inside ++ carriersOf (behind (lowerExpr condition) inside) body
  | function _ _ _ _ _ => []
  | ret _ value => value.carriers s

/-- The registers that carry the expressions of a block. -/
def carriersOf (s : Supply) : List CheckedStmt → List (Register × Option Ty)
  | [] => []
  | st :: ss => st.carriers s ++ carriersOf (behind (lowerStmt st) s) ss

end

end CheckedStmt

/-- The registers that carry the expressions of a function. -/
def CheckedFunction.carriers (s : Supply) (f : CheckedFunction) : List (Register × Option Ty) :=
  CheckedStmt.carriersOf { s with frame := some (f.params.map CheckedParam.name) } f.body

namespace CheckedProgram

/-- The registers that carry the expressions of functions. -/
def carriersOf (s : Supply) : List CheckedFunction → List (Register × Option Ty)
  | [] => []
  | f :: fs => f.carriers s ++ carriersOf (behind (lowerFunction f) s) fs

/-- The registers that carry the expressions of a program. No register is taken twice, so a register
carries expressions of one function only. -/
def carriers (p : CheckedProgram) : List (Register × Option Ty) :=
  CheckedStmt.carriersOf .initial p.globalStatements ++
    carriersOf (behind (lowerInit p.globalStatements) .initial) p.functions

end CheckedProgram

namespace Code

open Rules CheckedStmt

/-! ## Sound instructions -/

/-- A value that stands for a value of a type of the source. -/
def Immediate.Of (v : Immediate) (t : Ty) : Prop := ∃ w : Literal, w.ty = t ∧ .ofLiteral w = v

/-- A location of a variable of a type. -/
def Location.Of (d : Outline) (locals : List (String × Ty)) (t : Ty) : Location → Prop
  | .global x => (x, t) ∈ d.globals
  | .frame x => (x, t) ∈ locals

/-- Out of values of the types of what it reads, an instruction makes values of the type of what it
writes. `locals` are the variables of the function around it, and `returns` is its type of
results. -/
def Instr.Sound (d : Outline) (locals : List (String × Ty)) (returns : Option Ty)
    (τ : Register → Ty) : Instr → Prop
  | .move v target => v.Of (τ target)
  | .arith op ty left right target =>
    BinaryRule (.arith op) (τ left) (τ right) (τ target) ∧ ty = .ofTy (τ left)
  | .bitwise _ left right target => τ left = .bool ∧ τ right = .bool ∧ τ target = .bool
  | .compare op ty left right target =>
    BinaryRule (.compare op) (τ left) (τ right) (τ target) ∧ ty = .ofTy (τ left)
  | .load ty source target => source.Of d locals (τ target) ∧ ty = .ofTy (τ target)
  | .store ty value target => target.Of d locals (τ value) ∧ ty = .ofTy (τ value)
  | .print ty value => ty = .ofTy (τ value)
  | .branch condition _ _ => τ condition = .bool
  | .call f arguments target => ∃ k ∈ d.functions, f = functionSymbol k.name ∧
      arguments.map τ = k.params ∧ τ target = k.returns
  | .ret ty value => ty = .ofTy (τ value) ∧ returns = some (τ value)
  | .global _ _ | .alloc _ _ | .label _ | .jump _ => True

/-- Sound code, in which registers carry expressions of their types. -/
structure CodeSound (d : Outline) (locals : List (String × Ty)) (returns : Option Ty)
    (τ : Register → Ty) (carried : List (Register × Option Ty)) (code : List Instr) : Prop where
  instrs : ∀ i ∈ code, i.Sound d locals returns τ
  carried : ∀ c ∈ carried, c.2 = some (τ c.1)

namespace CodeSound

variable {d : Outline} {locals : List (String × Ty)} {returns : Option Ty} {τ : Register → Ty}
  {cs cs' : List (Register × Option Ty)} {a b : List Instr}

/-- Code behind code. -/
theorem append (ha : CodeSound d locals returns τ cs a) (hb : CodeSound d locals returns τ cs' b) :
    CodeSound d locals returns τ (cs ++ cs') (a ++ b) :=
  ⟨List.forall_mem_append.mpr ⟨ha.instrs, hb.instrs⟩,
    List.forall_mem_append.mpr ⟨ha.carried, hb.carried⟩⟩

theorem nil : CodeSound d locals returns τ [] [] := ⟨by simp, by simp⟩

/-- One more instruction in front. -/
theorem cons {i : Instr} (hi : i.Sound d locals returns τ)
    (hb : CodeSound d locals returns τ cs b) : CodeSound d locals returns τ cs (i :: b) :=
  ⟨List.forall_mem_cons.mpr ⟨hi, hb.instrs⟩, hb.carried⟩

/-- The value of an expression is in a register of its type. -/
theorem value {r : Register} {t : Ty} (ha : CodeSound d locals returns τ cs a) (h : τ r = t) :
    CodeSound d locals returns τ (cs ++ [(r, some t)]) a := by
  refine ⟨ha.instrs, List.forall_mem_append.mpr ⟨ha.carried, ?_⟩⟩
  rw [List.forall_mem_singleton, h]

/-- Both blocks of a branch and the jumps around them, behind a condition that is a truth value.
Jumps and labels touch no register. -/
theorem branch {r : Register} (hr : τ r = .bool) (ha : CodeSound d locals returns τ cs a)
    (hb : CodeSound d locals returns τ cs' b) (ifTrue ifFalse merge : Label) :
    CodeSound d locals returns τ (cs ++ cs') (branchCode r ifTrue ifFalse merge a b) := by
  have hjump : ∀ l m, CodeSound d locals returns τ [] [.jump l, .label m] :=
    fun l m => .cons trivial (.cons trivial .nil)
  have hhead : CodeSound d locals returns τ [] [.branch r ifTrue ifFalse, .label ifTrue] :=
    .cons hr (.cons trivial .nil)
  have hall := (((hhead.append ha).append (hjump merge ifFalse)).append hb).append
    (hjump merge merge)
  simp only [List.nil_append, List.append_nil] at hall
  exact hall

/-- The same for a loop, where the condition is part of the code. -/
theorem loop {r : Register} (ha : CodeSound d locals returns τ cs a) (hr : τ r = .bool)
    (hb : CodeSound d locals returns τ cs' b) (test enter merge : Label) :
    CodeSound d locals returns τ (cs ++ cs') (loopCode test enter merge a r b) := by
  have hjump : ∀ l m, CodeSound d locals returns τ [] [.jump l, .label m] :=
    fun l m => .cons trivial (.cons trivial .nil)
  have hcheck : CodeSound d locals returns τ [] [.branch r enter merge, .label enter] :=
    .cons hr (.cons trivial .nil)
  have hall := ((((hjump test test).append ha).append hcheck).append hb).append (hjump test merge)
  simp only [List.nil_append, List.append_nil] at hall
  exact hall

end CodeSound

/-! ## Expressions -/

/-- The instruction of a binary operator follows its typing rule. Arithmetic and comparisons have
the rule in their soundness as it is; for the logic there is one rule only. -/
theorem binaryInstr_sound {d : Outline} {locals : List (String × Ty)} {returns : Option Ty}
    {τ : Register → Ty} {op : BinaryOp} {t u v : Ty} (rule : BinaryRule op t u v)
    {x y z : Register} (hx : τ x = t) (hy : τ y = u) (hz : τ z = v) :
    (binaryInstr op (.ofTy t) x y z).Sound d locals returns τ := by
  cases op with
  | arith op =>
    subst hx hy hz
    exact ⟨rule, rfl⟩
  | compare op =>
    subst hx hy hz
    exact ⟨rule, rfl⟩
  | logic op =>
    cases rule
    exact ⟨hx, hy, hz⟩

instance : Inhabited Ty := ⟨.int⟩

section Pieces

variable {d : Outline} (locals : List (String × Ty)) (returns : Option Ty) {F : Option Frame}

/-- The code of a unary operator. The plus makes none. The minus and the negation take a constant
into a register of its own, and this is given the type of the result: the one that a truth value is
flipped with is a truth value itself. -/
theorem lowerUnary_sound {op : UnaryOp} {t u : Ty} (rule : UnaryRule op t u) {r : Register}
    {s : Supply} {l : Lowered Register} (h : lowerUnary op (.ofTy u) r s = some l) :
    Between s.registers l.next.registers fun τ => τ r = t →
      τ l.value = u ∧ CodeSound d locals returns τ [] l.code := by
  -- The constant is in the first register taken, and the result in the second.
  have htwo : Between s.registers s.skipRegister.skipRegister.registers
      fun τ => τ s.fresh = u ∧ τ s.skipRegister.fresh = u :=
    (Between.fresh s u).and (Between.fresh s.skipRegister u) (Nat.le_succ _) (Nat.le_succ _)
  cases op with
  | plus =>
    rw [lowerUnary_plus] at h
    subst h
    refine .of_all fun τ hr => ⟨?_, .nil⟩
    cases rule <;> exact hr
  | minus =>
    rw [lowerUnary_minus] at h
    subst h
    refine htwo.imp fun τ hτ hr => ⟨hτ.2, .cons ?_ (.cons ?_ .nil)⟩
    · exact ⟨.zero u, by rw [zero_ty, hτ.1], ofLiteral_zero u⟩
    · -- The operand has the type of the result, and it is a type of numbers.
      simp only [Instr.Sound, hτ.1, hτ.2, hr]
      cases rule
      · exact ⟨.int _, trivial⟩
      · exact ⟨.float _, trivial⟩
  | not =>
    rw [lowerUnary_not] at h
    subst h
    refine htwo.imp fun τ hτ hr => ⟨hτ.2, .cons ?_ (.cons ?_ .nil)⟩
    · cases rule
      exact ⟨.bool true, hτ.1.symm, rfl⟩
    · cases rule
      exact ⟨hτ.1, hr, hτ.2⟩

/-- A variable is found where it was declared, among the local ones first, as it is looked up in the
source. -/
theorem location_of_var {s : Supply} {x : String} {t : Ty} (hs : Fits s F)
    (hF : localsOf F ⊆ locals) (hv : d.Var (localsOf F) x t) :
    (s.location x).Of d locals t := by
  rcases hs.location hv with ⟨hloc, hmem⟩ | ⟨hloc, -, hmem⟩
  · rw [hloc]
    exact hF hmem
  · rw [hloc]
    exact hmem

mutual

-- The registers that parts take follow each other, so the types of the parts are put together range
-- by range, as the machine types are.

/-- **The code of an expression is sound**, for every assignment of types that gives its registers
the types that it asks for. These are taken from the supply one after the other, so what two parts
ask for never collides. -/
theorem lowerExpr_sound (hF : localsOf F ⊆ locals) : ∀ {e : Expr Typing} {t : Ty},
    TypedExpr d (localsOf F) e t →
    ∀ {s : Supply} {l : Lowered Register}, lowerExpr e s = some l → Fits s F →
      Between s.registers l.next.registers fun τ =>
        τ l.value = t ∧ CodeSound d locals returns τ (e.carriers s) l.code
  | _, _, .literal (v := v) note, s, l, h, hs => by
    have hcarrier := Expr.carrier_eq h note
    rw [lowerExpr_literal] at h
    subst h
    refine (Between.fresh s v.ty).imp fun τ hτ => ⟨hτ, ?_⟩
    rw [Expr.carriers, hcarrier]
    have hmove : Instr.Sound d locals returns τ (.move (.ofLiteral v) s.fresh) :=
      ⟨v, hτ.symm, rfl⟩
    exact .value (.cons hmove .nil) hτ
  | _, _, .read (t := t) note hv, s, l, h, hs => by
    have hcarrier := Expr.carrier_eq h note
    obtain ⟨u, hu, rfl⟩ := lowerExpr_read.mp h
    obtain rfl : t = u := Option.some.inj (note.symm.trans hu)
    refine (Between.fresh s t).imp fun τ hτ => ⟨hτ, ?_⟩
    rw [Expr.carriers, hcarrier]
    refine .value (.cons ?_ .nil) hτ
    rw [Instr.Sound, hτ]
    exact ⟨location_of_var locals hs hF hv, rfl⟩
  | _, _, .binary (v := v) note hl hr rule, s, l, h, hs => by
    have hcarrier := Expr.carrier_eq h note
    obtain ⟨a, b, t, ha, hb, hta, rfl⟩ := lowerExpr_binary.mp h
    obtain rfl := Option.some.inj (hl.ty_eq.symm.trans hta)
    have htakes := takes_of_lowerExpr _ ha
    have htakes' := takes_of_lowerExpr _ hb
    have hleft := lowerExpr_sound hF hl ha hs
    have hright := lowerExpr_sound hF hr hb (hs.of_frame htakes.frame)
    -- The register of the result is behind those of both operands.
    have hall := (hleft.and hright htakes.registers htakes'.registers).and
      (Between.fresh b.next v) (Nat.le_trans htakes.registers htakes'.registers) (Nat.le_succ _)
    refine hall.imp fun τ hτ => ⟨hτ.2, ?_⟩
    obtain ⟨⟨⟨hva, hca⟩, hvb, hcb⟩, htarget⟩ := hτ
    have hlast : CodeSound d locals returns τ []
        [binaryInstr _ (.ofTy _) a.value b.value b.next.fresh] :=
      .cons (binaryInstr_sound rule hva hvb htarget) .nil
    have hcode := hca.append (hcb.append hlast)
    rw [List.append_nil] at hcode
    rw [Expr.carriers, hcarrier, behind_eq ha]
    exact .value hcode htarget
  | _, _, .unary note he rule, s, l, h, hs => by
    have hcarrier := Expr.carrier_eq h note
    obtain ⟨a, u, b, ha, hu, hb, rfl⟩ := lowerExpr_unary.mp h
    obtain rfl := Option.some.inj (note.symm.trans hu)
    have htakes := takes_of_lowerExpr _ ha
    have hall := (lowerExpr_sound hF he ha hs).and
      (lowerUnary_sound (d := d) locals returns rule hb) htakes.registers
      (registers_of_lowerUnary hb)
    refine hall.imp fun τ hτ => ?_
    obtain ⟨⟨hva, hca⟩, hunary⟩ := hτ
    obtain ⟨hvalue, hcb⟩ := hunary hva
    have hcode := hca.append hcb
    rw [List.append_nil] at hcode
    rw [Expr.carriers, hcarrier]
    exact ⟨hvalue, .value hcode hvalue⟩
  | _, _, .call (k := k) note declared hargs, s, l, h, hs => by
    have hcarrier := Expr.carrier_eq h note
    obtain ⟨a, ha, rfl⟩ := lowerExpr_call.mp h
    have htakes := takes_of_lowerExprs _ ha
    have hall := (lowerExprs_sound hF hargs ha hs).and (Between.fresh a.next k.returns)
      htakes.registers (Nat.le_succ _)
    refine hall.imp fun τ hτ => ⟨hτ.2, ?_⟩
    obtain ⟨⟨hvalues, hca⟩, htarget⟩ := hτ
    have hlast : CodeSound d locals returns τ []
        [.call (functionSymbol k.name) a.value a.next.fresh] :=
      .cons ⟨k, declared, rfl, hvalues, htarget⟩ .nil
    have hcode := hca.append hlast
    rw [List.append_nil] at hcode
    rw [Expr.carriers, hcarrier]
    exact .value hcode htarget

/-- The same for the arguments of a call, position by position. Their registers follow each other,
so one assignment of types will do for all. -/
theorem lowerExprs_sound (hF : localsOf F ⊆ locals) : ∀ {es : List (Expr Typing)} {ts : List Ty},
    TypedExprs d (localsOf F) es ts →
    ∀ {s : Supply} {l : Lowered (List Register)}, lowerExprs es s = some l → Fits s F →
      Between s.registers l.next.registers fun τ => l.value.map τ = ts ∧
        CodeSound d locals returns τ (Expr.carriersOf s es) l.code
  | _, _, .nil, s, l, h, hs => by
    rw [lowerExprs_nil] at h
    subst h
    refine .of_all fun τ => ⟨rfl, ?_⟩
    rw [Expr.carriersOf]
    exact .nil
  | _, _, .cons he hes, s, l, h, hs => by
    obtain ⟨a, b, ha, hb, rfl⟩ := lowerExprs_cons.mp h
    have htakes := takes_of_lowerExpr _ ha
    have htakes' := takes_of_lowerExprs _ hb
    have hall := (lowerExpr_sound hF he ha hs).and
      (lowerExprs_sound hF hes hb (hs.of_frame htakes.frame)) htakes.registers htakes'.registers
    refine hall.imp fun τ hτ => ?_
    obtain ⟨⟨hva, hca⟩, hvb, hcb⟩ := hτ
    refine ⟨by simp [hva, hvb], ?_⟩
    rw [Expr.carriersOf, behind_eq ha]
    exact hca.append hcb

end

/-! ## Statements -/

/-- Storage for a variable reads nothing and makes no value. -/
theorem storage_sound {τ : Register → Ty} (s : Supply) (ty : MachineTy) (x : String) :
    (s.storage ty x).Sound d locals returns τ := by
  unfold Supply.storage
  split <;> trivial

/-- An expression and an instruction behind it. -/
theorem lowerExpr_then_sound (hF : localsOf F ⊆ locals) {e : Expr Typing} {t : Ty}
    (he : TypedExpr d (localsOf F) e t) {s : Supply} {a : Lowered Register}
    (ha : lowerExpr e s = some a) (hs : Fits s F) {code : List Instr}
    (hcode : ∀ τ : Register → Ty, τ a.value = t → ∀ i ∈ code, i.Sound d locals returns τ) :
    Between s.registers a.next.registers fun τ =>
      CodeSound d locals returns τ (e.carriers s) (a.code ++ code) := by
  refine (lowerExpr_sound locals returns hF he ha hs).imp fun τ hτ => ?_
  have hlast : CodeSound d locals returns τ [] code := ⟨hcode τ hτ.1, by simp⟩
  have hall := hτ.2.append hlast
  rwa [List.append_nil] at hall

/-- A declaration with a value: the storage, the value and the store. The variable is new where it
is declared, so it is looked up as this one. -/
theorem lowerDeclaration_sound {x : String} {e : Expr Typing} {t : Ty}
    (hF : localsOf (Frame.past F [(x, t)]) ⊆ locals) (he : TypedExpr d (localsOf F) e t)
    (hnew : d.New F x t) {s : Supply} {l : Lowered Unit}
    (h : lowerDeclaration (some t) x e s = some l) (hs : Fits s F) :
    Between s.registers l.next.registers fun τ =>
      CodeSound d locals returns τ (e.carriers s) l.code := by
  obtain ⟨u, a, hu, ha, rfl⟩ := lowerDeclaration_eq_some.mp h
  obtain rfl := Option.some.inj hu
  have hfits := hs.of_frame (takes_of_lowerExpr _ ha).frame
  have hfits' : Fits (a.next.declare x) (Frame.past F [(x, t)]) := hfits.past rfl
  have hbefore : localsOf F ⊆ locals := fun v hv => hF (mem_past hv _)
  refine lowerExpr_then_sound locals returns hbefore he ha hs fun τ hτ => ?_
  -- The store comes behind the storage, so the name it is for is declared by then.
  have hstore : Instr.Sound d locals returns τ
      (.store (.ofTy t) a.value ((a.next.declare x).location x)) := by
    rw [Instr.Sound, hτ]
    exact ⟨location_of_var locals hfits' hF hnew.var, rfl⟩
  exact List.forall_mem_cons.mpr ⟨storage_sound locals returns a.next _ x,
    List.forall_mem_singleton.mpr hstore⟩

mutual

/-- **The code of a statement is sound**, with the variables of the whole function as the local
ones: a block keeps its storage behind itself, so that later statements find it. -/
theorem lowerStmt_sound : ∀ {F : Option Frame} {st : CheckedStmt}, TypedStmt d F st →
    ∀ {s : Supply} {l : Lowered Unit}, lowerStmt st s = some l → Fits s F →
      localsOf (Frame.past F st.declarations) ⊆ locals →
      Between s.registers l.next.registers fun τ =>
        CodeSound d locals (F.map Frame.returns) τ (st.carriers s) l.code
  | _, _, .print note he, s, l, h, hs, hF => by
    obtain ⟨a, u, ha, hu, rfl⟩ := lowerStmt_print.mp h
    obtain rfl := Option.some.inj (he.ty_eq.symm.trans hu)
    rw [CheckedStmt.carriers]
    refine lowerExpr_then_sound _ _ (fun v hv => hF (mem_past hv _)) he ha hs fun τ hτ => ?_
    rw [List.forall_mem_singleton, Instr.Sound, hτ]
  | F, _, .var (t := t) note new, s, l, h, hs, hF => by
    obtain ⟨u, hu, rfl⟩ := lowerStmt_var.mp h
    refine .of_all fun τ => ?_
    rw [CheckedStmt.carriers]
    exact .cons (storage_sound _ _ s _ _) .nil
  | _, _, .varWith note he new, s, l, h, hs, hF => by
    rw [CheckedStmt.declarations, note] at hF
    rw [lowerStmt_varWith, note] at h
    rw [CheckedStmt.carriers]
    exact lowerDeclaration_sound _ _ hF he new h hs
  | _, _, .const note he new, s, l, h, hs, hF => by
    rw [CheckedStmt.declarations, note] at hF
    rw [lowerStmt_const, note] at h
    rw [CheckedStmt.carriers]
    exact lowerDeclaration_sound _ _ hF he new h hs
  | _, _, .write note he hv, s, l, h, hs, hF => by
    obtain ⟨a, u, ha, hu, rfl⟩ := lowerStmt_write.mp h
    obtain rfl := Option.some.inj (he.ty_eq.symm.trans hu)
    have hfits := hs.of_frame (takes_of_lowerExpr _ ha).frame
    rw [CheckedStmt.carriers]
    refine lowerExpr_then_sound _ _ (fun v hv => hF (mem_past hv _)) he ha hs fun τ hτ => ?_
    rw [List.forall_mem_singleton, Instr.Sound, hτ]
    exact ⟨location_of_var _ hfits (fun v hv => hF (mem_past hv _)) hv, rfl⟩
  | F, _, .branch note he ht hf, s, l, h, hs, hF => by
    obtain ⟨a, b, c, ha, hb, hc, rfl⟩ := lowerStmt_branch.mp h
    have htakes := takes_of_lowerExpr _ ha
    have hadds := adds_of_lowerBlock _ hb
    have hadds' := adds_of_lowerBlock _ hc
    have hfits : Fits (a.next.skipLabels 3) F := hs.of_frame htakes.frame
    rw [CheckedStmt.declarations, ← Frame.past_past] at hF
    have hcond := lowerExpr_sound locals (F.map Frame.returns)
      (fun v hv => hF (mem_past (mem_past hv _) _)) he ha hs
    have htrue := lowerBlock_sound ht hb hfits (fun v hv => hF (mem_past hv _))
    have hfalse := lowerBlock_sound hf hc (hfits.next hadds) hF
    -- The three parts take registers one behind the other, so one assignment suits all of them.
    have hall := (hcond.and htrue htakes.registers hadds.registers).and hfalse
      (Nat.le_trans htakes.registers hadds.registers) hadds'.registers
    refine hall.imp fun τ hτ => ?_
    obtain ⟨⟨⟨hvalue, hca⟩, hcb⟩, hcc⟩ := hτ
    rw [returns_past] at hcc
    simp only [CheckedStmt.carriers, behind_eq ha, behind_eq hb]
    exact hca.append (hcb.branch hvalue hcc _ _ _)
  | F, _, .loop note he hb, s, l, h, hs, hF => by
    obtain ⟨a, b, ha, hb', rfl⟩ := lowerStmt_loop.mp h
    have htakes := takes_of_lowerExpr _ ha
    have hadds := adds_of_lowerBlock _ hb'
    have hfits : Fits (s.skipLabels 3) F := hs.of_frame rfl
    rw [CheckedStmt.declarations] at hF
    have hcond := lowerExpr_sound locals (F.map Frame.returns)
      (fun v hv => hF (mem_past hv _)) he ha hfits
    have hbody := lowerBlock_sound hb hb' (hfits.of_frame htakes.frame) hF
    refine (hcond.and hbody htakes.registers hadds.registers).imp fun τ hτ => ?_
    obtain ⟨⟨hvalue, hca⟩, hcb⟩ := hτ
    simp only [CheckedStmt.carriers, behind_eq ha]
    exact hca.loop hvalue hcb _ _ _
  | _, _, .function note declared params distinct hb, s, l, h, hs, hF => by
    rw [lowerStmt_function] at h
    subst h
    refine .of_all fun τ => ?_
    rw [CheckedStmt.carriers]
    exact .nil
  | _, _, .ret (f := f) note he, s, l, h, hs, hF => by
    obtain ⟨a, u, ha, hu, rfl⟩ := lowerStmt_ret.mp h
    obtain rfl := Option.some.inj (he.ty_eq.symm.trans hu)
    rw [CheckedStmt.carriers]
    refine lowerExpr_then_sound (F := some f) _ _ (fun v hv => hF (mem_past hv _)) he ha hs
      fun τ hτ => ?_
    rw [List.forall_mem_singleton, Instr.Sound, hτ]
    exact ⟨rfl, rfl⟩

/-- The same for blocks. What the first statement declares is known in the others. Each statement is
lowered with the supply that the one before it left. -/
theorem lowerBlock_sound : ∀ {F : Option Frame} {ss : List CheckedStmt}, TypedBlock d F ss →
    ∀ {s : Supply} {l : Lowered Unit}, lowerBlock ss s = some l → Fits s F →
      localsOf (Frame.past F (declarationsOf ss)) ⊆ locals →
      Between s.registers l.next.registers fun τ =>
        CodeSound d locals (F.map Frame.returns) τ (CheckedStmt.carriersOf s ss) l.code
  | _, _, .nil, s, l, h, hs, hF => by
    rw [lowerBlock_nil] at h
    subst h
    refine .of_all fun τ => ?_
    rw [CheckedStmt.carriersOf]
    exact .nil
  | F, _, .cons hst hss, s, l, h, hs, hF => by
    obtain ⟨a, b, ha, hb, rfl⟩ := lowerBlock_cons.mp h
    have hadds := adds_of_lowerStmt _ ha
    have hadds' := adds_of_lowerBlock _ hb
    rw [CheckedStmt.declarationsOf, ← Frame.past_past] at hF
    have hfirst := lowerStmt_sound hst ha hs (fun v hv => hF (mem_past hv _))
    have hrest := lowerBlock_sound hss hb (hs.next hadds) hF
    refine (hfirst.and hrest hadds.registers hadds'.registers).imp fun τ hτ => ?_
    obtain ⟨hca, hcb⟩ := hτ
    rw [returns_past] at hcb
    rw [CheckedStmt.carriersOf, behind_eq ha]
    exact hca.append hcb

end

end Pieces

/-! ## Functions -/

/-- The name of a function in the code, and the types of its parameters, of the variables it
declares and of its results. -/
structure Layout where
  name : String
  params : List (String × Ty)
  declared : List (String × Ty)
  returns : Ty

/-- The variables of a call. -/
def Layout.locals (layout : Layout) : List (String × Ty) :=
  layout.params ++ layout.declared

/-- The layout of the statements outside of functions. -/
def Layout.init : Layout := ⟨initName, [], [], .int⟩

/-- A function of the code that suits a layout. -/
structure FunctionSound (d : Outline) (τ : Register → Ty) (layout : Layout) (g : Function) :
    Prop where
  instrs : ∀ i ∈ g.code, i.Sound d layout.locals (some layout.returns) τ
  closed : Closed g.code
  name : g.name = layout.name
  params : g.params = layout.params.map machineVar
  slots : slotsOf g.code = layout.declared.map machineVar
  returns : g.returns = .ofTy layout.returns
  distinct : (layout.locals.map Prod.fst).Nodup

end Code

/-- The layout of a function. -/
def CheckedFunction.layout (f : CheckedFunction) : Layout :=
  ⟨functionSymbol f.name, f.vars, CheckedStmt.declarationsOf f.body, f.result⟩

namespace Code

open Rules CheckedStmt

variable {d : Outline}

/-- The code of a function suits the layout of the function, and its registers carry its
expressions. -/
theorem lowerFunction_sound {f : CheckedFunction} {k : Callee} {vars : List (String × Ty)}
    (hf : TypedFunction d f k vars) {s : Supply} {l : Lowered Function}
    (h : lowerFunction f s = some l) :
    Between s.registers l.next.registers fun τ =>
      FunctionSound d τ f.layout l.value ∧ ∀ c ∈ f.carriers s, c.2 = some (τ c.1) := by
  obtain ⟨a, ha, rfl⟩ := lowerFunction_body hf h
  have hfits : Fits { s with frame := some (vars.map Prod.fst) } (some ⟨vars, k.returns⟩) :=
    ⟨rfl, fun x => Iff.rfl⟩
  have hlocals : f.layout.locals = vars ++ declarationsOf f.body := by
    rw [CheckedFunction.layout, Layout.locals, hf.vars_eq]
  have hnames : f.params.map CheckedParam.name = vars.map Prod.fst := by
    rw [hf.params, List.map_map]
    rfl
  refine (lowerBlock_sound f.layout.locals hf.body ha hfits ?_).imp fun τ hτ => ⟨?_, ?_⟩
  · rw [hlocals]
    exact fun v hv => hv
  · refine ⟨?_, lowerBlock_closed _ ha, rfl, ?_, (stores_of_lowerBlock _ ha).slots, ?_, ?_⟩
    · rw [CheckedFunction.layout, hf.result_eq]
      exact hτ.instrs
    · rw [CheckedFunction.layout, hf.vars_eq]
    · rw [CheckedFunction.layout, hf.result_eq]
    · rw [hlocals]
      exact hf.body.distinct hf.distinct
  · rw [CheckedFunction.carriers, hnames]
    exact hτ.carried

/-- Function by function. Each takes its registers behind those of the one before, so one assignment
of types serves them all. -/
theorem lowerFunctions_sound {fs : List CheckedFunction}
    (hfs : ∀ f ∈ fs, ∃ k vars, TypedFunction d f k vars) {s : Supply} {l : Lowered (List Function)}
    (h : lowerFunctions fs s = some l) :
    Between s.registers l.next.registers fun τ =>
      List.Forall₂ (fun f g => FunctionSound d τ f.layout g) fs l.value ∧
        ∀ c ∈ CheckedProgram.carriersOf s fs, c.2 = some (τ c.1) := by
  induction fs generalizing s l with
  | nil =>
    rw [lowerFunctions_nil] at h
    subst h
    exact .of_all fun τ => ⟨.nil, by simp [CheckedProgram.carriersOf]⟩
  -- The registers of the first function end where those of the others start.
  | cons f fs ih =>
    obtain ⟨a, b, ha, hb, rfl⟩ := lowerFunctions_cons.mp h
    obtain ⟨k, vars, hf⟩ := hfs f List.mem_cons_self
    have hfs' : ∀ g ∈ fs, ∃ k vars, TypedFunction d g k vars :=
      fun g hg => hfs g (List.mem_cons_of_mem _ hg)
    have hle := (lowerFunction_typed hf ha).1
    have hle' := (lowerFunctions_typed hfs' hb).1
    refine ((lowerFunction_sound hf ha).and (ih hfs' hb) hle hle').imp fun τ hτ => ?_
    obtain ⟨⟨hg, hcs⟩, hgs, hcs'⟩ := hτ
    refine ⟨.cons hg hgs, ?_⟩
    rw [CheckedProgram.carriersOf, behind_eq ha]
    exact List.forall_mem_append.mpr ⟨hcs, hcs'⟩

/-- Outside of functions nothing returns, so the type of results is free there. -/
theorem Instr.Sound.outside {locals : List (String × Ty)} {τ : Register → Ty} {i : Instr}
    (h : i.Sound d locals none τ) (returns : Option Ty) : i.Sound d locals returns τ := by
  cases i with
  | ret ty value => exact nomatch h.2
  | _ => exact h

/-- The code of the statements outside of functions has one register more, for the zero that it
returns. -/
theorem lowerInit_sound {ss : List CheckedStmt} (hss : TypedBlock d none ss) {s : Supply}
    {l : Lowered Function} (h : lowerInit ss s = some l) :
    Between s.registers l.next.registers fun τ => FunctionSound d τ .init l.value ∧
      ∀ c ∈ CheckedStmt.carriersOf { s with frame := none } ss, c.2 = some (τ c.1) := by
  have hclosed := lowerInit_closed h
  have hslots := (stores_of_lowerInit h).slots
  obtain ⟨a, ha, rfl⟩ := lowerInit_eq_some.mp h
  have hfits : Fits { s with frame := none } none := ⟨rfl, fun x => Iff.rfl⟩
  have hadds := adds_of_lowerBlock _ ha
  have hall := (lowerBlock_sound [] hss ha hfits (fun v hv => hv)).and
    (Between.fresh a.next Ty.int) hadds.registers (Nat.le_succ _)
  refine hall.imp fun τ hτ => ?_
  obtain ⟨hcode, hzero⟩ := hτ
  refine ⟨⟨?_, hclosed, rfl, rfl, hslots, rfl, List.nodup_nil⟩, hcode.carried⟩
  have hmove : Instr.Sound d [] (some .int) τ (.move (.int 0) a.next.fresh) :=
    ⟨.int 0, hzero.symm, rfl⟩
  have hret : Instr.Sound d [] (some .int) τ (.ret .int a.next.fresh) := by
    rw [Instr.Sound, hzero]
    exact ⟨rfl, rfl⟩
  refine List.forall_mem_append.mpr ⟨fun i hi => (hcode.instrs i hi).outside _, ?_⟩
  exact List.forall_mem_cons.mpr ⟨hmove, List.forall_mem_singleton.mpr hret⟩

/-- One assignment of types suits a whole program. Registers are numbered through over all
functions, so the types of the parts do not get in the way of each other. -/
theorem exists_sound {p : CheckedProgram} (hp : TypedProgram p d) {init : Lowered Function}
    {rest : Lowered (List Function)} (hinit : lowerInit p.globalStatements .initial = some init)
    (hrest : lowerFunctions p.functions init.next = some rest) :
    ∃ τ : Register → Ty, FunctionSound d τ .init init.value ∧
      List.Forall₂ (fun f g => FunctionSound d τ f.layout g) p.functions rest.value ∧
      ∀ c ∈ p.carriers, c.2 = some (τ c.1) := by
  have hle := (lowerInit_typed hp.globalStatements hinit).1
  have hle' := (lowerFunctions_typed hp.function_typed hrest).1
  obtain ⟨τ, ⟨hi, hcs⟩, hfs, hcs'⟩ := ((lowerInit_sound hp.globalStatements hinit).and
    (lowerFunctions_sound hp.function_typed hrest) hle hle').exists
  refine ⟨τ, hi, hfs, ?_⟩
  rw [CheckedProgram.carriers, behind_eq hinit]
  exact List.forall_mem_append.mpr ⟨hcs, hcs'⟩

end Code

end Pulse

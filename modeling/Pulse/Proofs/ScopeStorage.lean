/-
Variables of the code are where the checker found them.

Names are resolved twice. The checker looks them up in scopes, in source order, while it checks.
Lowering works later and on other code: the statements outside of functions come first, the
functions are taken out of them, and all it keeps of the scopes is the list of names in a frame.
What is shown here is that the two never differ. The checker is run again over a source to note, for
every read and write of a name, in which scope it finds the name at this point; this has to be the
sequence of loads and stores in the code.

The two runs are related where both stand: the scopes agree with an environment, and the frame of
the supply has the names that are local in this environment. Each statement keeps both relations.
-/
import Pulse.Proofs.Resolved
import Pulse.Proofs.LoweredCode

set_option autoImplicit false

namespace Pulse

open Rules Code CheckedStmt

/-! ## Where the checker finds names -/

/-- The place of the binding that a name refers to. Functions are declared outside of functions
only, so what is not bound in the scope of a function itself is bound in that of the program. -/
def Scope.home? (s : Scope) (x : String) : Option Location :=
  (s.lookup? x).map fun _ =>
    if s.isGlobal || (s.lookupLocal? x).isNone then .global x else .frame x

/-- A read or a write of a variable. -/
inductive Access where
  | read (place : Location)
  | write (place : Location)
deriving DecidableEq

namespace Expr

variable {α : Type}

mutual

/-- The names that an expression reads, in the order of their evaluation. -/
def reads : Expr α → List String
  | literal _ _ => []
  | read _ x => [x]
  | binary _ _ left right => left.reads ++ right.reads
  | unary _ _ operand => operand.reads
  | call _ _ arguments => readsOf arguments

/-- The names that several expressions read. -/
def readsOf : List (Expr α) → List String
  | [] => []
  | e :: es => e.reads ++ readsOf es

end

end Expr

namespace Checker

/-- The reads of an expression at a point, as the checker resolves them there. -/
def reads (c : Checker) (e : Expr Span) : List (Option Access) :=
  e.reads.map fun x => (c.scope.home? x).map .read

/-- A write at a point, as the checker resolves it there. -/
def writes (c : Checker) (x : String) : List (Option Access) := [(c.scope.home? x).map .write]

mutual

/-- The reads and writes of a statement, each as the checker resolves it at its point. The first
write of a variable with a value is behind its declaration. Functions are bodies of their own. -/
def accesses (c : Checker) : Stmt → List (Option Access)
  | .print _ value => c.reads value
  | .var _ _ _ none => []
  | .var span name type (some value) =>
    c.reads value ++ (c.stmt (.var span name type (some value))).2.writes name
  | .const span name value => c.reads value ++ (c.stmt (.const span name value)).2.writes name
  | .write _ name value => c.reads value ++ c.writes name
  | .branch _ condition whenTrue whenFalse =>
    let inside := (c.condition condition).2
    c.reads condition ++ inside.accessesOf whenTrue ++
      (inside.block whenTrue).2.accessesOf whenFalse
  | .loop _ condition body => c.reads condition ++ (c.condition condition).2.accessesOf body
  | .function _ _ _ _ _ => []
  | .ret _ value => c.reads value

/-- The reads and writes of the statements of a block. -/
def accessesOf (c : Checker) : List Stmt → List (Option Access)
  | [] => []
  | s :: ss => c.accesses s ++ (c.stmt s).2.accessesOf ss

end

/-- The body of a function, with the checker as it is at the start of it. -/
structure OpenBody where
  name : String
  start : Checker
  stmts : List Stmt

mutual

/-- The bodies of functions that the checker opens in a statement. -/
def opens (c : Checker) : Stmt → List OpenBody
  | .function span name params returns body =>
    let c := (c.declareFunction span.line name).2
    let (params, returns, c) := c.signature span.line name params returns
    [⟨name, c.enter ⟨name, params.map CheckedParam.ty, returns, span.line⟩ params, body⟩]
  | .branch _ condition whenTrue whenFalse =>
    let inside := (c.condition condition).2
    inside.opensOf whenTrue ++ (inside.block whenTrue).2.opensOf whenFalse
  | .loop _ condition body => (c.condition condition).2.opensOf body
  | _ => []

/-- The bodies of functions that the checker opens in the statements of a block. -/
def opensOf (c : Checker) : List Stmt → List OpenBody
  | [] => []
  | s :: ss => c.opens s ++ (c.stmt s).2.opensOf ss

end

end Checker

/-! ## Accesses of code -/

namespace Code

/-- The load or the store of an instruction. -/
def Instr.place? : Instr → Option Access
  | .load _ source _ => some (.read source)
  | .store _ _ target => some (.write target)
  | _ => none

/-- The loads and stores of instructions, in order. -/
def accessesOf (code : List Instr) : List (Option Access) :=
  (code.filterMap Instr.place?).map some

@[simp] theorem accessesOf_nil : accessesOf [] = [] := rfl

@[simp] theorem accessesOf_append (a b : List Instr) :
    accessesOf (a ++ b) = accessesOf a ++ accessesOf b := by
  simp [accessesOf]

/-- An instruction without a location accesses nothing. -/
theorem accessesOf_of_none {i : Instr} (h : i.place? = none) (code : List Instr) :
    accessesOf (i :: code) = accessesOf code := by
  simp [accessesOf, h]

/-- The accesses of a branch are those of its arms, one behind the other. -/
theorem accessesOf_branchCode (r : Register) (ifTrue ifFalse merge : Label) (a b : List Instr) :
    accessesOf (branchCode r ifTrue ifFalse merge a b) = accessesOf a ++ accessesOf b := by
  simp only [branchCode, accessesOf_append]
  have hcontrol : ([] ++ accessesOf a ++ [] ++ accessesOf b ++ [] : List (Option Access)) =
      accessesOf a ++ accessesOf b := by simp
  exact hcontrol

/-- The accesses of a loop are those of its condition and its body. -/
theorem accessesOf_loopCode (test enter merge : Label) (r : Register) (a b : List Instr) :
    accessesOf (loopCode test enter merge a r b) = accessesOf a ++ accessesOf b := by
  simp only [loopCode, accessesOf_append]
  have hcontrol : ([] ++ accessesOf a ++ [] ++ accessesOf b ++ [] : List (Option Access)) =
      accessesOf a ++ accessesOf b := by simp
  exact hcontrol

/-- Making storage accesses nothing. -/
theorem place?_storage (s : Supply) (ty : MachineTy) (x : String) :
    (s.storage ty x).place? = none := by
  unfold Supply.storage
  split <;> rfl

/-- The instruction of a binary operator accesses nothing. -/
theorem place?_binaryInstr (op : BinaryOp) (ty : MachineTy) (l r t : Register) :
    (binaryInstr op ty l r t).place? = none := by
  cases op <;> rfl

/-- The code of a unary operator accesses nothing. -/
theorem accessesOf_lowerUnary {op : UnaryOp} {ty : MachineTy} {r : Register} {s : Supply}
    {l : Lowered Register} (h : lowerUnary op ty r s = some l) : accessesOf l.code = [] := by
  cases op with
  | plus =>
    rw [lowerUnary_plus] at h
    rw [h, accessesOf_nil]
  | minus =>
    rw [lowerUnary_minus] at h
    rw [h]
    rfl
  | not =>
    rw [lowerUnary_not] at h
    rw [h]
    rfl

end Code

/-! ## One name -/

section Names

variable {c : Checker} {Γ : Env} {seen : Bool}

/-- The checker finds a name where lowering will look for it. Both ask whether the name is one of
the function, the checker of its innermost scope and lowering of the names in its frame
(`IrBuilder::location`). -/
theorem home?_eq_location (h : Agrees c Γ seen) {s : Supply} (hs : Fits s Γ.frame) {x : String}
    {b : Binding} (hb : Γ.lookup? x = some b) : c.scope.home? x = some (s.location x) := by
  obtain ⟨symbol, hsymbol⟩ : ∃ symbol, c.scope.lookup? x = some symbol := by
    have hrel := h.lookup? x
    rw [hb] at hrel
    generalize c.scope.lookup? x = found at hrel
    cases hrel with
    | some _ => exact ⟨_, rfl⟩
  have hnames := hs.names x
  rw [Scope.home?, hsymbol, Option.map_some, Scope.isGlobal]
  cases hbody : Γ.body with
  | none =>
    -- Outside of functions there is one scope, and the frame has no names.
    have hx : x ∉ s.names := by simpa [Env.frame, hbody, localsOf] using hnames
    simp [(h.outside hbody).2, Supply.location, hx]
  | some body =>
    have houter : c.scope.outer ≠ [] := by
      intro hnil
      have houter := h.outer
      rw [hnil, Env.outer, hbody] at houter
      cases houter
    -- Inside of a function a name is local if the innermost scope has it, which is if the frame has
    -- it.
    have hlocal : c.scope.lookupLocal? x = none ↔ x ∉ s.names := by
      rw [h.lookupLocal?, hnames]
      simp [Env.frame, Env.inner, hbody, localsOf, Binding.var]
    by_cases hx : x ∈ s.names
    · have hsome : (c.scope.lookupLocal? x).isNone = false := by
        rw [Option.isNone_eq_false_iff, Option.isSome_iff_ne_none]
        exact fun hnone => hlocal.mp hnone hx
      simp [houter, hsome, Supply.location, hx]
    · simp [hlocal.mpr hx, Supply.location, hx]

/-- A name is found behind its declaration. -/
theorem lookup?_bind {b : Binding} (free : Γ.Free b.name) :
    (Γ.bind b).lookup? b.name = some b := by
  have hnone : Γ.inner.find? (fun b' => b'.name = b.name) = none := by
    rw [List.find?_eq_none]
    intro b' hb'
    simpa using free.unbound b' hb'
  rw [Env.lookup?, Env.bind_inner, List.findSome?_cons, List.find?_append, hnone]
  simp

end Names

/-! ## Expressions -/

section Expressions

variable {c : Checker} {Γ : Env} {seen : Bool}

mutual

/-- The loads of an expression are its reads, where the checker found them. In the order of the
source, from the left to the right and arguments in front of the call. -/
theorem accessesOf_lowerExpr (h : Agrees c Γ seen) {e : Expr Span} {t : Ty} :
    HasType Γ e t → ∀ {s : Supply} {l : Lowered Register}, Fits s Γ.frame →
      lowerExpr (c.context.expr e).1 s = some l → accessesOf l.code = c.reads e
  | .literal, s, l, hs, hl => by
    rw [lowerExpr_literal.mp hl]
    rfl
  | .read hb, s, l, hs, hl => by
    obtain ⟨t, -, rfl⟩ := lowerExpr_read.mp hl
    rw [Checker.reads, Expr.reads, List.map_singleton, home?_eq_location h hs hb]
    rfl
  | .binary hl hr _, s, l, hs, hlow => by
    obtain ⟨a, b, t, ha, hb, -, rfl⟩ := lowerExpr_binary.mp hlow
    have hs' := hs.of_frame (takes_of_lowerExpr _ ha).frame
    rw [accessesOf_append, accessesOf_append, accessesOf_of_none (place?_binaryInstr _ _ _ _ _),
      accessesOf_lowerExpr h hl hs ha, accessesOf_lowerExpr h hr hs' hb, accessesOf_nil,
      Checker.reads, Checker.reads, Checker.reads, Expr.reads, List.map_append, List.append_nil]
  | .unary he _, s, l, hs, hlow => by
    obtain ⟨a, t, b, ha, -, hb, rfl⟩ := lowerExpr_unary.mp hlow
    rw [accessesOf_append, accessesOf_lowerUnary hb, accessesOf_lowerExpr h he hs ha,
      List.append_nil]
    rfl
  | .call _ hes, s, l, hs, hlow => by
    obtain ⟨a, ha, rfl⟩ := lowerExpr_call.mp hlow
    rw [accessesOf_append, accessesOf_of_none rfl, accessesOf_lowerExprs h hes hs ha,
      accessesOf_nil, List.append_nil, Checker.reads, Expr.reads]

/-- The loads of arguments are their reads, where the checker found them. -/
theorem accessesOf_lowerExprs (h : Agrees c Γ seen) {es : List (Expr Span)} {ts : List Ty} :
    HaveTypes Γ es ts → ∀ {s : Supply} {l : Lowered (List Register)}, Fits s Γ.frame →
      lowerExprs (c.context.exprs es).1 s = some l →
      accessesOf l.code = (Expr.readsOf es).map fun x => (c.scope.home? x).map .read
  | .nil, s, l, hs, hl => by
    rw [lowerExprs_nil.mp hl]
    rfl
  | .cons he hes, s, l, hs, hl => by
    obtain ⟨a, b, ha, hb, rfl⟩ := lowerExprs_cons.mp hl
    have hs' := hs.of_frame (takes_of_lowerExpr _ ha).frame
    rw [accessesOf_append, accessesOf_lowerExpr h he hs ha, accessesOf_lowerExprs h hes hs' hb,
      Expr.readsOf, List.map_append]
    rfl

end

end Expressions

/-! ## Statements -/

section Statements

/-- The frame of the supply behind a statement has the names of the environment behind it. -/
theorem fits_behind {Γ Γ' : Env} {s : Supply} {l : Lowered Unit} {vars : List (String × Ty)}
    {fs : List CheckedFunction} (hs : Fits s Γ.frame) (hl : Adds s vars l)
    (hΓ : Γ.Adds Γ' vars fs) : Fits l.next Γ'.frame := by
  rw [hΓ.frame_eq]
  exact hs.past hl.frame

/-- The accesses of a declaration with a value. The reads are looked up in front of the declaration
and the write behind it, so the value may read a variable of the program that has the same name. -/
theorem accessesOf_lowerDeclaration {c c' : Checker} {Γ : Env} {seen : Bool}
    (h : Agrees c Γ seen) {e : Expr Span} {x : String} {t : Ty} {isConst : Bool}
    (he : HasType Γ e t) (free : Γ.Free x) (h' : Agrees c' (Γ.bind ⟨x, t, isConst⟩) seen)
    {s : Supply} {l : Lowered Unit} (hs : Fits s Γ.frame)
    (hl : lowerDeclaration (some t) x (c.context.expr e).1 s = some l) :
    accessesOf l.code = c.reads e ++ c'.writes x := by
  have hbehind := fits_behind hs (adds_of_lowerDeclaration hl) (.bind free t isConst)
  obtain ⟨t, a, ⟨⟩, ha, rfl⟩ := lowerDeclaration_eq_some.mp hl
  have hhome := home?_eq_location h' hbehind (lookup?_bind (b := ⟨x, t, isConst⟩) free)
  rw [accessesOf_append, accessesOf_lowerExpr h he hs ha,
    accessesOf_of_none (place?_storage _ _ _), Checker.writes, hhome]
  rfl

mutual

/-- The loads and stores of a statement are its reads and writes, where the checker found them. By
induction on the derivation. A declaration stores to the name that it binds, which is looked up
behind it. -/
theorem accessesOf_lowerStmt {c : Checker} {Γ Γ' : Env} {seen : Bool} {st : Stmt} :
    StmtTyped Γ st Γ' → Agrees c Γ seen → c.Clean → ∀ {s : Supply} {l : Lowered Unit},
      Fits s Γ.frame → lowerStmt (c.stmt st).1 s = some l → accessesOf l.code = c.accesses st
  | .print he, h, hc, s, l, hs, hl => by
    obtain ⟨a, t, ha, -, rfl⟩ := lowerStmt_print.mp hl
    rw [accessesOf_append, accessesOf_lowerExpr h he hs ha, accessesOf_of_none rfl,
      accessesOf_nil, List.append_nil, Checker.accesses]
  | .var _ _, h, hc, s, l, hs, hl => by
    obtain ⟨t, -, rfl⟩ := lowerStmt_var.mp hl
    rw [accessesOf_of_none (place?_storage _ _ _), accessesOf_nil, Checker.accesses]
  | .varWith (x := x) (t := t) he free named, h, hc, s, l, hs, hl => by
    obtain ⟨hx, hnone⟩ := (h.free_iff x).mp free
    obtain ⟨ht, hf⟩ := expr_of_hasType h he
    rw [Checker.accesses]
    simp only [Checker.stmt, Checker.expr?, Checker.expr, hf, Checker.reportAll_nil, ht,
      Option.bind_some] at hl ⊢
    rw [Checker.declareVar_eq hx hnone named (.inr rfl)] at hl ⊢
    exact accessesOf_lowerDeclaration h he free (h.bound ⟨rfl, rfl, rfl⟩) hs
      (lowerStmt_varWith.mp hl)
  | .const (x := x) (t := t) he free, h, hc, s, l, hs, hl => by
    obtain ⟨hx, hnone⟩ := (h.free_iff x).mp free
    obtain ⟨ht, hf⟩ := expr_of_hasType h he
    rw [Checker.accesses]
    simp only [Checker.stmt, Checker.expr, hf, Checker.reportAll_nil, ht] at hl ⊢
    rw [Checker.declareConst_eq hx hnone]
    exact accessesOf_lowerDeclaration h he free (h.bound ⟨rfl, rfl, rfl⟩) hs
      (lowerStmt_const.mp hl)
  | .write he bound _, h, hc, s, l, hs, hl => by
    obtain ⟨a, t, ha, -, rfl⟩ := lowerStmt_write.mp hl
    have hs' := hs.of_frame (takes_of_lowerExpr _ ha).frame
    rw [accessesOf_append, accessesOf_lowerExpr h he hs ha, Checker.accesses, Checker.writes,
      home?_eq_location h hs' bound]
    rfl
  | .branch he ht hf, h, hc, s, l, hs, hl => by
    obtain ⟨hty, hfaults⟩ := expr_of_hasType h he
    obtain ⟨h₁, hc₁⟩ := block_of_typed ht h hc
    have hadds := (typedBlock_of_typed ht h hc).1
    rw [Checker.accesses]
    simp only [Checker.stmt, Checker.condition_eq hfaults hty] at hl ⊢
    obtain ⟨a, b, d, ha, hb, hd, rfl⟩ := lowerStmt_branch.mp hl
    have hs₁ : Fits (a.next.skipLabels 3) Γ.frame := hs.of_frame (takes_of_lowerExpr _ ha).frame
    -- The second arm is checked and lowered with what the first one has declared.
    have hs₂ := fits_behind hs₁ (adds_of_lowerBlock _ hb) hadds
    rw [accessesOf_append, accessesOf_branchCode, accessesOf_lowerExpr h he hs ha,
      accessesOf_lowerBlock ht h hc hs₁ hb, accessesOf_lowerBlock hf h₁ hc₁ hs₂ hd,
      List.append_assoc]
  | .loop he hb, h, hc, s, l, hs, hl => by
    obtain ⟨hty, hfaults⟩ := expr_of_hasType h he
    rw [Checker.accesses]
    simp only [Checker.stmt, Checker.condition_eq hfaults hty] at hl ⊢
    obtain ⟨a, b, ha, hb', rfl⟩ := lowerStmt_loop.mp hl
    have hs₀ : Fits (s.skipLabels 3) Γ.frame := hs.of_frame rfl
    have hs₁ := hs₀.of_frame (takes_of_lowerExpr _ ha).frame
    rw [accessesOf_loopCode, accessesOf_lowerExpr h he hs₀ ha,
      accessesOf_lowerBlock hb h hc hs₁ hb']
  | .function outside fresh params distinct result entry _ _, h, hc, s, l, hs, hl => by
    rw [h.stmt_function outside fresh params distinct result entry] at hl
    rw [lowerStmt_function.mp hl, Checker.accesses, accessesOf_nil]
  | .ret inside he, h, hc, s, l, hs, hl => by
    obtain ⟨a, t, ha, -, rfl⟩ := lowerStmt_ret.mp hl
    rw [accessesOf_append, accessesOf_lowerExpr h he hs ha, accessesOf_of_none rfl,
      accessesOf_nil, List.append_nil, Checker.accesses]

/-- The loads and stores of a block are its reads and writes. Between two statements both the scopes
and the frame have the new names. -/
theorem accessesOf_lowerBlock {c : Checker} {Γ Γ' : Env} {seen : Bool} {ss : List Stmt} :
    BlockTyped Γ ss Γ' → Agrees c Γ seen → c.Clean → ∀ {s : Supply} {l : Lowered Unit},
      Fits s Γ.frame → lowerBlock (c.block ss).1 s = some l → accessesOf l.code = c.accessesOf ss
  | .nil, h, hc, s, l, hs, hl => by
    rw [lowerBlock_nil.mp hl]
    rfl
  | .cons hst hss, h, hc, s, l, hs, hl => by
    obtain ⟨h₁, hc₁⟩ := stmt_of_typed hst h hc
    have hadds := (typedStmt_of_typed hst h hc).1
    obtain ⟨a, b, ha, hb, rfl⟩ := lowerBlock_cons.mp hl
    -- Both sides have grown by the names that the statement declares.
    have hs₁ := fits_behind hs (adds_of_lowerStmt _ ha) hadds
    rw [accessesOf_append, accessesOf_lowerStmt hst h hc hs ha,
      accessesOf_lowerBlock hss h₁ hc₁ hs₁ hb, Checker.accessesOf]

end

end Statements

/-! ## Bodies of functions -/

/-- A body that the checker opened and the function that it became. The checker is in agreement with
an environment at the start of the body, and the body has a derivation there. -/
structure Opened (b : Checker.OpenBody) (f : CheckedFunction) (Γ Γ' : Env)
    (vars : List (String × Ty)) (t : Ty) : Prop where
  agrees : Agrees b.start Γ false
  clean : b.start.Clean
  typed : BlockTyped Γ b.stmts Γ'
  frame : Γ.frame = some ⟨vars, t⟩
  function : f = ⟨b.name, vars.map fun v => ⟨v.1, some v.2⟩, some t, (b.start.block b.stmts).1⟩

/-- The body that the checker opens in a function. All tests on the line of the function are passed,
so the body is opened as the rule has it. -/
theorem opens_function {c : Checker} {Γ : Env} {seen : Bool} (h : Agrees c Γ seen)
    (outside : Γ.body = none) {k : Callee} {ps : List Param} {returns : TypeName}
    (fresh : ∀ j ∈ Γ.complete, j.name ≠ k.name)
    (params : k.params.map Ty.name = ps.map fun p => p.type.name)
    (distinct : (ps.map Param.name).Nodup) (result : k.returns.name = returns.name)
    (entry : k.name = entryName → ps = [] ∧ k.returns = .int) (span : Span) (body : List Stmt) :
    c.opens (.function span k.name ps returns body) =
      [⟨k.name, c.opened span.line k.name ps k.params k.returns, body⟩] := by
  have hd : c.declared.lookup k.name = none := by
    rw [h.declared]
    simpa [Env.callable, outside] using fresh
  simp only [Checker.opens, Checker.declareFunction_eq hd,
    Checker.signature_eq params distinct result entry,
    Checker.typedParams_types (Checker.length_of_types params), Checker.opened]

mutual

/-- The bodies that the checker opens in a statement become its functions. In the same order, and
each with the environment that its parameters start. -/
theorem opened_of_stmt {c : Checker} {Γ Γ' : Env} {seen : Bool} {s : Stmt} :
    StmtTyped Γ s Γ' → Agrees c Γ seen → c.Clean →
      List.Forall₂ (fun b f => ∃ Γ₀ Γ₁ vars t, Opened b f Γ₀ Γ₁ vars t) (c.opens s)
        (c.stmt s).1.functions
  | .print _, _, _ => .nil
  | .var _ _, _, _ => .nil
  | .varWith _ _ _, _, _ => .nil
  | .const _ _, _, _ => .nil
  | .write _ _ _, _, _ => .nil
  | .branch he ht hf, h, hc => by
    obtain ⟨hty, hfaults⟩ := expr_of_hasType h he
    obtain ⟨h₁, hc₁⟩ := block_of_typed ht h hc
    simp only [Checker.opens, Checker.stmt, Checker.condition_eq hfaults hty, functions]
    exact List.rel_append (opened_of_block ht h hc) (opened_of_block hf h₁ hc₁)
  | .loop he hb, h, hc => by
    obtain ⟨hty, hfaults⟩ := expr_of_hasType h he
    simp only [Checker.opens, Checker.stmt, Checker.condition_eq hfaults hty, functions]
    exact opened_of_block hb h hc
  | @StmtTyped.function _ Γ₁ span ps returns body k outside fresh params distinct result entry hb
      ends, h, hc => by
    -- Only here a body is opened; blocks pass on what is opened inside of them.
    obtain ⟨hopen, hclean⟩ := h.opened outside span.line fresh params distinct
    have hlen := Checker.length_of_types params
    rw [opens_function h outside fresh params distinct result entry,
      h.stmt_function outside fresh params distinct result entry]
    refine .cons ⟨_, Γ₁, (ps.map Param.name).zip k.params, k.returns, hopen, hclean.mpr hc, hb,
      ?_, ?_⟩ .nil
    · simp [Env.frame, Env.enter, Binding.var, Function.comp_def]
    · rw [← typedParams_eq hlen]
  | .ret _ _, _, _ => .nil

/-- The bodies that the checker opens in a block become its functions, in the same order. -/
theorem opened_of_block {c : Checker} {Γ Γ' : Env} {seen : Bool} {ss : List Stmt} :
    BlockTyped Γ ss Γ' → Agrees c Γ seen → c.Clean →
      List.Forall₂ (fun b f => ∃ Γ₀ Γ₁ vars t, Opened b f Γ₀ Γ₁ vars t) (c.opensOf ss)
        (functionsOf (c.block ss).1)
  | .nil, _, _ => .nil
  | .cons hs hss, h, hc => by
    obtain ⟨h₁, hc₁⟩ := stmt_of_typed hs h hc
    exact List.rel_append (opened_of_stmt hs h hc) (opened_of_block hss h₁ hc₁)

end

/-! ## Functions and programs -/

/-- A symbol as a variable of the code, if its type is known. -/
def Symbol.machineVar (s : Symbol) : String × Option MachineTy := (s.name, s.ty.map .ofTy)

/-- The same for a variable of the code. -/
def known (v : String × MachineTy) : String × Option MachineTy := (v.1, some v.2)

/-- Symbols in agreement with bindings are the variables of these bindings. -/
theorem map_machineVar_of_symbolIs {symbols : List Symbol} {bs : List Binding}
    (h : List.Forall₂ SymbolIs symbols bs) :
    symbols.map Symbol.machineVar = ((bs.map Binding.var).map machineVar).map known := by
  rw [List.map_map, List.map_map, ← List.forall₂_eq_eq_eq, List.forall₂_map_left_iff,
    List.forall₂_map_right_iff]
  refine h.imp ?_
  intro s b hsb
  rw [Symbol.machineVar, hsb.name, hsb.ty]
  rfl

/-- A function of the code keeps its variables as the checker does in its body: its parameters and
its slots are the symbols at the end of the body, and all accesses are where the checker found
them. -/
structure StorageOf (b : Checker.OpenBody) (g : Function) : Prop where
  name : g.name = functionSymbol b.name
  slots : (g.params ++ slotsOf g.code).map known =
    (b.start.block b.stmts).2.scope.symbols.map Symbol.machineVar
  accesses : accessesOf g.code = b.start.accessesOf b.stmts

/-- A function of the code keeps its variables as the checker does in its body. Its parameters and
what it declares are the symbols of the scope at the end of the body. -/
theorem storageOf_lowerFunction {b : Checker.OpenBody} {f : CheckedFunction} {Γ Γ' : Env}
    {vars : List (String × Ty)} {t : Ty} (h : Opened b f Γ Γ' vars t) {s : Supply}
    {l : Lowered Function} (hl : lowerFunction f s = some l) : StorageOf b l.value := by
  obtain ⟨agrees, clean, typed, frame, rfl⟩ := h
  obtain ⟨a, ha, rfl⟩ := (lowerFunction_typed_eq_some rfl rfl).mp hl
  have hend := (block_of_typed typed agrees clean).1
  have hadds := (typedBlock_of_typed typed agrees clean).1
  -- At the start of the body the frame has the parameters, and so has the scope.
  have hfits : Fits { s with frame := some (vars.map Prod.fst) } Γ.frame := by
    rw [frame]
    exact ⟨rfl, fun x => Iff.rfl⟩
  have hslots : slotsOf a.code = (declarationsOf (b.start.block b.stmts).1).map machineVar :=
    (stores_of_lowerBlock _ ha).slots
  refine ⟨rfl, ?_, accessesOf_lowerBlock typed agrees clean hfits ha⟩
  have hvars : Γ.inner.map Binding.var = vars := by
    obtain ⟨body, hbody, heq⟩ := Option.map_eq_some_iff.mp frame
    rw [Env.inner, hbody]
    exact congrArg Frame.locals heq
  rw [map_machineVar_of_symbolIs hend.inner, hadds.inner, hvars, hslots,
    List.map_append (f := machineVar)]

/-- Functions are lowered to nothing where they stand. So leaving them out changes nothing in the
code. -/
theorem lowerBlock_filter (ss : List CheckedStmt) (s : Supply) :
    lowerBlock (ss.filter fun st => !st.isFunction) s = lowerBlock ss s := by
  induction ss generalizing s with
  | nil => rfl
  | cons st ss ih =>
    apply Option.ext
    intro l
    cases st with
    | function n f ps r body =>
      rw [List.filter_cons_of_neg (by simp [isFunction]), ih, lowerBlock_cons]
      simp [lowerStmt_function]
    | _ =>
      rw [List.filter_cons_of_pos rfl, lowerBlock_cons, lowerBlock_cons]
      simp only [ih]

/-- The statements outside of functions keep the variables of the program only. They have no frame,
so there is no storage in their code but that of the program. -/
theorem storage_of_lowerInit {p : Program} {Γ : Env} (hΓ : BlockTyped .empty p.body Γ)
    {a : Lowered Function}
    (ha : lowerInit p.analyze.program.globalStatements .initial = some a) :
    a.value.params ++ slotsOf a.value.code = [] ∧
      accessesOf a.value.code = Checker.start.accessesOf p.body := by
  have hslots := (stores_of_lowerInit ha).slots
  obtain ⟨body, hbody, rfl⟩ := lowerInit_eq_some.mp ha
  rw [CheckedProgram.globalStatements, lowerBlock_filter] at hbody
  have hfits : Fits { Supply.initial with frame := none } Env.empty.frame :=
    ⟨rfl, fun x => Iff.rfl⟩
  refine ⟨hslots, ?_⟩
  rw [accessesOf_append, accessesOf_lowerBlock hΓ agrees_start Checker.clean_start hfits hbody]
  exact List.append_nil _

/-- Two lists that go with a third one, on its two sides, go with each other. -/
theorem forall₂_trans {α β γ : Type} {R : α → β → Prop} {S : β → γ → Prop} {T : α → γ → Prop}
    (hRST : ∀ a b c, R a b → S b c → T a c) {as : List α} {bs : List β} {cs : List γ}
    (hR : List.Forall₂ R as bs) (hS : List.Forall₂ S bs cs) : List.Forall₂ T as cs := by
  induction hR generalizing cs with
  | nil =>
    rw [List.forall₂_nil_left_iff.mp hS]
    exact .nil
  | cons hab _ ih =>
    obtain ⟨c, cs, hbc, hcs, rfl⟩ := List.forall₂_cons_left_iff.mp hS
    exact .cons (hRST _ _ _ hab hbc) (ih hcs)

/-- **Storage follows the scopes.** A program without diagnostics has code. The variables of the
code are the symbols of the scope that the checker ends with, in order and with their machine types.
The parameters and slots of each function are the symbols of its scope at the end of its body. And
every load and store, in the statements outside of functions and in each function, is that of a read
or write of the source, at the place where the checker found the name at this point. -/
theorem storage_follows_scopes (p : Program) (h : p.analyze.diagnostics = []) :
    ∃ init rest, generate p.analyze = .ok ⟨init :: rest⟩ ∧
      (Assembly.globals ⟨init :: rest⟩).map known =
        p.analyze.checker.scope.symbols.map Symbol.machineVar ∧
      init.params ++ slotsOf init.code = [] ∧
      accessesOf init.code = Checker.start.accessesOf p.body ∧
      List.Forall₂ StorageOf (Checker.start.opensOf p.body) rest := by
  obtain ⟨d, hd⟩ := typedProgram_of_clean p h
  obtain ⟨Γ, hΓ⟩ := typed_of_block agrees_start p.body ((analyze_diagnostics p).mp h)
  have hend := (block_of_typed hΓ agrees_start Checker.clean_start).1
  have hadds := (typedBlock_of_typed hΓ agrees_start Checker.clean_start).1
  obtain ⟨a, b, ha, hb, hasm⟩ := exists_generate h hd
  obtain ⟨hslots, haccesses⟩ := storage_of_lowerInit hΓ ha
  refine ⟨a.value, b.value, hasm, ?_, hslots, haccesses, ?_⟩
  · have hsymbols : p.analyze.checker.scope.symbols.map Symbol.machineVar = _ :=
      map_machineVar_of_symbolIs hend.inner
    have hglobals := globals_of_lowerProgram ha hb
    rw [CheckedProgram.declarationsOf_globalStatements] at hglobals
    rw [hsymbols, hglobals, hadds.inner]
    rfl
  · refine forall₂_trans ?_ (opened_of_block hΓ agrees_start Checker.clean_start)
      (forall₂_of_lowerFunctions hb)
    rintro body f g ⟨Γ₀, Γ₁, vars, t, hopened⟩ ⟨s, l, hl, rfl⟩
    exact storageOf_lowerFunction hopened hl

/-- A function that reads a variable of the program, declares one of the same name inside of a
branch, with a value that mentions the name, and goes on with its own. -/
def shadowing : Program :=
  let here : Span := ⟨.nowhere, .nowhere⟩
  let int : TypeName := ⟨"int", here⟩
  let number (v : Int32) : Expr Span := .literal here (.int v)
  let read (x : String) : Expr Span := .read here x
  let add (a b : Expr Span) : Expr Span := .binary here (.arith .add) a b
  let f : Stmt := .function here "f" [⟨"a", int, here⟩] int [
    .var here "y" int (some (read "x")),
    .branch here (.binary here (.compare .greater) (read "a") (number 0)) [
      .var here "x" int (some (add (read "x") (read "a"))),
      .write here "x" (add (read "x") (number 1))] [],
    .ret here (add (read "x") (read "y"))]
  { span := here
    body := [.var here "x" int (some (number 1)), f, .print here (.call here "f" [read "x"])] }

/-- The accesses of the program, in order: the name is first that of the program, and behind the
declaration that of the function. -/
theorem shadowing_storage : shadowing.analyze.diagnostics = [] ∧
    ∃ init f, generate shadowing.analyze = .ok ⟨[init, f]⟩ ∧
      (Assembly.globals ⟨[init, f]⟩).map known = [("x", some .int)] ∧
      accessesOf init.code = [some (.write (.global "x")), some (.read (.global "x"))] ∧
      (f.params ++ slotsOf f.code).map known =
        [("a", some .int), ("y", some .int), ("x", some .int)] ∧
      accessesOf f.code = [some (.read (.global "x")), some (.write (.frame "y")),
        some (.read (.frame "a")), some (.read (.global "x")), some (.read (.frame "a")),
        some (.write (.frame "x")), some (.read (.frame "x")), some (.write (.frame "x")),
        some (.read (.frame "x")), some (.read (.frame "y"))] := by
  have hclean : shadowing.analyze.diagnostics = [] := by decide
  obtain ⟨init, rest, hasm, hglobals, -, haccesses, hrest⟩ :=
    storage_follows_scopes shadowing hclean
  obtain ⟨f, rest', hf, hnil, rfl⟩ := List.forall₂_cons_left_iff.mp hrest
  obtain rfl := List.forall₂_nil_left_iff.mp hnil
  refine ⟨hclean, init, f, hasm, hglobals.trans ?_, haccesses.trans ?_, hf.slots.trans ?_,
    hf.accesses.trans ?_⟩
  all_goals decide

end Pulse

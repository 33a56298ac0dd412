/-
Checked programs in which every type is there and right.

The judgements below are about trees as the checker leaves them. They are relative to an outline,
which lists what the whole program declares, and to the variables of the function around them; a
block adds the variables it declares to those of the statements behind it. A typed program is typed
in its own outline.
-/
import Pulse.Proofs.TypingRules
import Mathlib.Data.List.Forall2

set_option autoImplicit false

namespace Pulse

open Rules

/-! ## What a program declares -/

namespace CheckedStmt

mutual

/-- The variables and constants that a statement declares with their types, also inside its blocks,
but not inside a function. -/
def declarations : CheckedStmt → List (String × Ty)
  | var note x _ => (note.ty.map fun t => (x, t)).toList
  | const note x _ => (note.ty.map fun t => (x, t)).toList
  | branch _ _ whenTrue whenFalse => declarationsOf whenTrue ++ declarationsOf whenFalse
  | loop _ _ body => declarationsOf body
  | _ => []

/-- The variables and constants that the statements of a block declare. -/
def declarationsOf : List CheckedStmt → List (String × Ty)
  | [] => []
  | s :: ss => s.declarations ++ declarationsOf ss

end

@[simp] theorem declarations_print (n : Typing) (e : Expr Typing) :
    (print n e).declarations = [] := by
  simp [declarations]

@[simp] theorem declarations_write (n : Typing) (x : String) (e : Expr Typing) :
    (write n x e).declarations = [] := by
  simp [declarations]

@[simp] theorem declarations_function (n : Typing) (f : String) (ps : List CheckedParam)
    (r : Option Ty) (body : List CheckedStmt) : (function n f ps r body).declarations = [] := by
  simp [declarations]

@[simp] theorem declarations_ret (n : Typing) (e : Expr Typing) :
    (ret n e).declarations = [] := by
  simp [declarations]

@[simp] theorem declarationsOf_nil : declarationsOf [] = [] := by
  simp [declarationsOf]

@[simp] theorem declarationsOf_cons (s : CheckedStmt) (ss : List CheckedStmt) :
    declarationsOf (s :: ss) = s.declarations ++ declarationsOf ss := by
  rw [declarationsOf]

@[simp] theorem functionsOf_nil : functionsOf [] = [] := by
  simp [functionsOf]

@[simp] theorem functionsOf_cons (s : CheckedStmt) (ss : List CheckedStmt) :
    functionsOf (s :: ss) = s.functions ++ functionsOf ss := by
  rw [functionsOf]

end CheckedStmt

open CheckedStmt

/-- What a whole program declares: the variables outside of functions, and the functions. -/
structure Outline where
  globals : List (String × Ty)
  functions : List Callee

/-- The function around a statement: the variables declared before it and the type of results. -/
structure Frame where
  locals : List (String × Ty)
  returns : Ty

/-- The variables of the function around a statement; outside of functions there are none. -/
def localsOf : Option Frame → List (String × Ty)
  | some f => f.locals
  | none => []

/-- The frame behind declarations. Outside of functions they belong to the program. -/
def Frame.past (F : Option Frame) (vars : List (String × Ty)) : Option Frame :=
  F.map fun f => { f with locals := f.locals ++ vars }

namespace Frame

@[simp] theorem past_none (vars : List (String × Ty)) : past none vars = none := rfl

@[simp] theorem past_nil (F : Option Frame) : past F [] = F := by
  cases F <;> simp [past]

/-- Declarations pile up: behind two lists of them the frame is the one behind their
concatenation. -/
theorem past_past (F : Option Frame) (vars more : List (String × Ty)) :
    past (past F vars) more = past F (vars ++ more) := by
  cases F <;> simp [past]

end Frame

namespace Outline

/-- A name that stands for a variable of a type: one of the function, or else one of the program. -/
def Var (d : Outline) (locals : List (String × Ty)) (x : String) (t : Ty) : Prop :=
  (x, t) ∈ locals ∨ x ∉ locals.map Prod.fst ∧ (x, t) ∈ d.globals

/-- A variable that may be declared: a new one of the function, or one of the program. -/
def New (d : Outline) (F : Option Frame) (x : String) (t : Ty) : Prop :=
  match F with
  | some f => x ∉ f.locals.map Prod.fst
  | none => (x, t) ∈ d.globals

/-- Behind its declaration, a variable that may be declared stands for itself. In a function it is
one of the locals; outside it is one of the program, and there are no locals to hide it. -/
theorem New.var {d : Outline} {F : Option Frame} {x : String} {t : Ty} (h : d.New F x t) :
    d.Var (localsOf (Frame.past F [(x, t)])) x t := by
  cases F with
  | none => exact .inr ⟨by simp [localsOf], h⟩
  | some f => exact .inl (by simp [Frame.past, localsOf])

end Outline

/-! ## Typed trees -/

mutual

/-- An expression with the right type at every node. -/
inductive TypedExpr (d : Outline) (locals : List (String × Ty)) : Expr Typing → Ty → Prop where
  | literal {n : Typing} {v : Literal} (note : n.ty = some v.ty) :
      TypedExpr d locals (.literal n v) v.ty
  | read {n : Typing} {x : String} {t : Ty} (note : n.ty = some t) (var : d.Var locals x t) :
      TypedExpr d locals (.read n x) t
  | binary {n : Typing} {op : BinaryOp} {left right : Expr Typing} {t u v : Ty}
      (note : n.ty = some v) (hl : TypedExpr d locals left t) (hr : TypedExpr d locals right u)
      (rule : BinaryRule op t u v) : TypedExpr d locals (.binary n op left right) v
  | unary {n : Typing} {op : UnaryOp} {operand : Expr Typing} {t u : Ty}
      (note : n.ty = some u) (h : TypedExpr d locals operand t) (rule : UnaryRule op t u) :
      TypedExpr d locals (.unary n op operand) u
  | call {n : Typing} {arguments : List (Expr Typing)} {k : Callee} (note : n.ty = some k.returns)
      (callee : k ∈ d.functions) (h : TypedExprs d locals arguments k.params) :
      TypedExpr d locals (.call n k.name arguments) k.returns

/-- Expressions with the right types, position by position. -/
inductive TypedExprs (d : Outline) (locals : List (String × Ty)) :
    List (Expr Typing) → List Ty → Prop where
  | nil : TypedExprs d locals [] []
  | cons {e : Expr Typing} {es : List (Expr Typing)} {t : Ty} {ts : List Ty}
      (h : TypedExpr d locals e t) (hs : TypedExprs d locals es ts) :
      TypedExprs d locals (e :: es) (t :: ts)

end

mutual

/-- A statement with the right type at every node. -/
inductive TypedStmt (d : Outline) : Option Frame → CheckedStmt → Prop where
  | print {F : Option Frame} {n : Typing} {e : Expr Typing} {t : Ty} (note : n.ty = some t)
      (h : TypedExpr d (localsOf F) e t) : TypedStmt d F (.print n e)
  | var {F : Option Frame} {n : Typing} {x : String} {t : Ty} (note : n.ty = some t)
      (new : d.New F x t) : TypedStmt d F (.var n x none)
  | varWith {F : Option Frame} {n : Typing} {x : String} {e : Expr Typing} {t : Ty}
      (note : n.ty = some t) (h : TypedExpr d (localsOf F) e t) (new : d.New F x t) :
      TypedStmt d F (.var n x (some e))
  | const {F : Option Frame} {n : Typing} {x : String} {e : Expr Typing} {t : Ty}
      (note : n.ty = some t) (h : TypedExpr d (localsOf F) e t) (new : d.New F x t) :
      TypedStmt d F (.const n x e)
  | write {F : Option Frame} {n : Typing} {x : String} {e : Expr Typing} {t : Ty}
      (note : n.ty = some t) (h : TypedExpr d (localsOf F) e t) (var : d.Var (localsOf F) x t) :
      TypedStmt d F (.write n x e)
  | branch {F : Option Frame} {n : Typing} {e : Expr Typing} {whenTrue whenFalse : List CheckedStmt}
      (note : n.ty = some .bool) (h : TypedExpr d (localsOf F) e .bool)
      (ht : TypedBlock d F whenTrue)
      (hf : TypedBlock d (Frame.past F (declarationsOf whenTrue)) whenFalse) :
      TypedStmt d F (.branch n e whenTrue whenFalse)
  | loop {F : Option Frame} {n : Typing} {e : Expr Typing} {body : List CheckedStmt}
      (note : n.ty = some .bool) (h : TypedExpr d (localsOf F) e .bool) (hb : TypedBlock d F body) :
      TypedStmt d F (.loop n e body)
  | function {n : Typing} {vars : List (String × Ty)} {body : List CheckedStmt} {k : Callee}
      (note : n.ty = some k.returns) (declared : k ∈ d.functions)
      (params : vars.map Prod.snd = k.params) (distinct : (vars.map Prod.fst).Nodup)
      (hb : TypedBlock d (some ⟨vars, k.returns⟩) body) :
      TypedStmt d none
        (.function n k.name (vars.map fun v => ⟨v.1, some v.2⟩) (some k.returns) body)
  | ret {f : Frame} {n : Typing} {e : Expr Typing} (note : n.ty = some f.returns)
      (h : TypedExpr d f.locals e f.returns) : TypedStmt d (some f) (.ret n e)

/-- A block with the right type at every node. -/
inductive TypedBlock (d : Outline) : Option Frame → List CheckedStmt → Prop where
  | nil {F : Option Frame} : TypedBlock d F []
  | cons {F : Option Frame} {s : CheckedStmt} {ss : List CheckedStmt} (h : TypedStmt d F s)
      (hs : TypedBlock d (Frame.past F s.declarations) ss) : TypedBlock d F (s :: ss)

end

/-- The function and the callee say the same. -/
structure FunctionIs (f : CheckedFunction) (k : Callee) : Prop where
  name : f.name = k.name
  params : f.params.map CheckedParam.ty = k.params.map some
  returns : f.returns = some k.returns

/-- A program with the right type at every node, relative to its own outline. -/
structure TypedProgram (p : CheckedProgram) (d : Outline) : Prop where
  globals : d.globals = declarationsOf p.body
  distinct : (d.globals.map Prod.fst).Nodup
  functions : List.Forall₂ FunctionIs p.functions d.functions
  names : (d.functions.map Callee.name).Nodup
  body : TypedBlock d none p.body

/-- The type of a derivation is the type at the topmost node. -/
theorem TypedExpr.ty_eq {d : Outline} {locals : List (String × Ty)} {e : Expr Typing} {t : Ty}
    (h : TypedExpr d locals e t) : e.ty = some t := by
  cases h <;> assumption

/-! ## Functions and the statements around them -/

/-- A function with the right type at every node, next to its callee and its parameters. -/
structure TypedFunction (d : Outline) (f : CheckedFunction) (k : Callee)
    (vars : List (String × Ty)) : Prop where
  declared : k ∈ d.functions
  name : f.name = k.name
  params : f.params = vars.map fun v => ⟨v.1, some v.2⟩
  types : vars.map Prod.snd = k.params
  distinct : (vars.map Prod.fst).Nodup
  returns : f.returns = some k.returns
  body : TypedBlock d (some ⟨vars, k.returns⟩) f.body

section Typed

variable {d : Outline}

mutual

/-- Every function inside of a typed statement is typed, with a callee of the outline for its
signature. Functions stand in blocks of the program only, never in other functions. -/
theorem TypedStmt.function_typed {F : Option Frame} {s : CheckedStmt} :
    TypedStmt d F s → ∀ f ∈ s.functions, ∃ k vars, TypedFunction d f k vars
  | .function _ declared params distinct hb, f, hf => by
    simp only [functions, List.mem_singleton] at hf
    -- The one function of the statement is the statement itself.
    subst hf
    exact ⟨_, _, declared, rfl, rfl, params, distinct, rfl, hb⟩
  | .branch _ _ ht hfalse, f, hf => by
    simp only [functions, List.mem_append] at hf
    rcases hf with hf | hf
    · exact ht.function_typed f hf
    · exact hfalse.function_typed f hf
  | .loop _ _ hb, f, hf => by
    simp only [functions] at hf
    exact hb.function_typed f hf
  | .print .., _, hf | .var .., _, hf | .varWith .., _, hf | .const .., _, hf
  | .write .., _, hf | .ret .., _, hf => by
    simp [functions] at hf

/-- Every function inside of a typed block is typed. -/
theorem TypedBlock.function_typed {F : Option Frame} {ss : List CheckedStmt} :
    TypedBlock d F ss → ∀ f ∈ functionsOf ss, ∃ k vars, TypedFunction d f k vars
  | .nil, f, hf => by simp at hf
  | .cons h hs, f, hf => by
    simp only [functionsOf_cons, List.mem_append] at hf
    rcases hf with hf | hf
    · exact h.function_typed f hf
    · exact hs.function_typed f hf

end

/-- Names of locals stay distinct when a new variable joins them. This is why a frame can find a
local by its name. -/
theorem Outline.New.distinct {F : Option Frame} {x : String} {t : Ty} (hnew : d.New F x t)
    (h : ((localsOf F).map Prod.fst).Nodup) :
    ((localsOf (Frame.past F [(x, t)])).map Prod.fst).Nodup := by
  cases F with
  | none => exact List.nodup_nil
  | some f =>
    have hx : x ∉ f.locals.map Prod.fst := hnew
    simp only [Frame.past, Option.map_some, localsOf, List.map_append, List.map_cons, List.map_nil]
    exact List.nodup_append.mpr ⟨h, by simp, by
      intro y hy z hz
      rw [List.mem_singleton.mp hz]
      exact fun heq => hx (heq ▸ hy)⟩

mutual

-- Outside of functions there are no locals, and the list of names is empty.

/-- The locals behind a typed statement have distinct names if those in front of it have. Blocks
open no scope, so this holds through branches and loops, for all that they declare. -/
theorem TypedStmt.distinct {F : Option Frame} {s : CheckedStmt} : TypedStmt d F s →
    ((localsOf F).map Prod.fst).Nodup →
      ((localsOf (Frame.past F s.declarations)).map Prod.fst).Nodup
  | .print .., h | .write .., h | .function .., h | .ret .., h => by simpa using h
  | .var note new, h | .varWith note _ new, h | .const note _ new, h => by
    simpa [declarations, note] using new.distinct h
  | .branch _ _ ht hf, h => by
    -- The second block is typed behind the declarations of the first one.
    rw [declarations, ← Frame.past_past]
    exact hf.distinct (ht.distinct h)
  | .loop _ _ hb, h => by
    rw [declarations]
    exact hb.distinct h

/-- The locals behind a typed block have distinct names if those in front of it have. -/
theorem TypedBlock.distinct {F : Option Frame} {ss : List CheckedStmt} : TypedBlock d F ss →
    ((localsOf F).map Prod.fst).Nodup →
      ((localsOf (Frame.past F (declarationsOf ss))).map Prod.fst).Nodup
  | .nil, h => by simpa using h
  | .cons hs hss, h => by
    rw [declarationsOf_cons, ← Frame.past_past]
    exact hss.distinct (hs.distinct h)

end

/-- Outside of functions, statements can be left out of a typed block: what the others may refer to
comes from the outline, not from the statements in front of them. -/
theorem TypedBlock.filter {ss : List CheckedStmt} (h : TypedBlock d none ss)
    (keep : CheckedStmt → Bool) : TypedBlock d none (ss.filter keep) := by
  induction ss with
  | nil => exact .nil
  | cons s ss ih =>
    -- The rest is typed in the same frame, since there is none.
    cases h with
    | cons h hs =>
      by_cases hk : keep s
      · rw [List.filter_cons_of_pos hk]
        exact .cons h (ih hs)
      · rw [List.filter_cons_of_neg hk]
        exact ih hs

/-- The statements that run first are typed on their own, without the functions between them. -/
theorem TypedProgram.globalStatements {p : CheckedProgram} (h : TypedProgram p d) :
    TypedBlock d none p.globalStatements := h.body.filter _

/-- All functions of a typed program are typed. -/
theorem TypedProgram.function_typed {p : CheckedProgram} (h : TypedProgram p d) :
    ∀ f ∈ p.functions, ∃ k vars, TypedFunction d f k vars := h.body.function_typed

end Typed

/-- Leaving out the functions leaves out no variable of the program. They are the statements that
the initial function is made of. -/
theorem CheckedProgram.declarationsOf_globalStatements (p : CheckedProgram) :
    declarationsOf p.globalStatements = declarationsOf p.body := by
  unfold CheckedProgram.globalStatements
  induction p.body with
  | nil => rfl
  | cons s ss ih =>
    by_cases hs : s.isFunction
    -- What a function declares inside is its own.
    · have hnone : s.declarations = [] := by
        cases s <;> simp_all [isFunction]
      rw [List.filter_cons_of_neg (by simp [hs]), declarationsOf_cons, hnone, ih]
      rfl
    · rw [List.filter_cons_of_pos (by simp [hs]), declarationsOf_cons, declarationsOf_cons, ih]

end Pulse

/-
The typing rules of the language, as judgements.

An environment says what is bound at a point of a program, which functions may be called there and
in which function the point is. An expression has a type in an environment; a statement takes an
environment to the one behind it, and a block threads it through its statements. Blocks of
branches and loops are read in the environment around them, so what they bind stays bound. The
rules speak of derivations only: there is no order of checks in them, no message, and nothing about
what happens to a program that has no derivation.
-/
import Pulse.Typing.Checker

set_option autoImplicit false

namespace Pulse.Rules

/-! ## Operators and names -/

/-- The rules of the binary operators. -/
inductive BinaryRule : BinaryOp → Ty → Ty → Ty → Prop where
  | int (op : ArithOp) : BinaryRule (.arith op) .int .int .int
  | float (op : ArithOp) : BinaryRule (.arith op) .float .float .float
  | order (op : CompareOp) (t : Ty) (h : t ≠ .bool) : BinaryRule (.compare op) t t .bool
  | equals : BinaryRule (.compare .equals) .bool .bool .bool
  | notEquals : BinaryRule (.compare .notEquals) .bool .bool .bool
  | logic (op : LogicOp) : BinaryRule (.logic op) .bool .bool .bool

/-- The rules of the unary operators. -/
inductive UnaryRule : UnaryOp → Ty → Ty → Prop where
  | plusInt : UnaryRule .plus .int .int
  | plusFloat : UnaryRule .plus .float .float
  | minusInt : UnaryRule .minus .int .int
  | minusFloat : UnaryRule .minus .float .float
  | not : UnaryRule .not .bool .bool

/-- A name that no type has. -/
def Declarable (x : String) : Prop := ∀ t : Ty, t.name ≠ x

/-! ## Environments -/

/-- A bound name. -/
structure Binding where
  name : String
  ty : Ty
  isConst : Bool

/-- A function as its callers see it. -/
structure Callee where
  name : String
  params : List Ty
  returns : Ty

/-- The body of a function up to a point: whose body it is, and what is bound in it so far. -/
structure Body where
  callee : Callee
  locals : List Binding

/-- What is known at a point of a program: the names bound outside of functions, the functions
whose declarations are complete, and the body that the point is in. -/
structure Env where
  globals : List Binding
  complete : List Callee
  body : Option Body

namespace Env

/-- Nothing is known before the first statement. -/
def empty : Env := ⟨[], [], none⟩

/-- The innermost scope. -/
def inner (Γ : Env) : List Binding :=
  match Γ.body with
  | some b => b.locals
  | none => Γ.globals

/-- The scopes around the innermost one. -/
def outer (Γ : Env) : List (List Binding) :=
  match Γ.body with
  | some _ => [Γ.globals]
  | none => []

/-- The innermost binding of a name. -/
def lookup? (Γ : Env) (x : String) : Option Binding :=
  (Γ.inner :: Γ.outer).findSome? fun bs => bs.find? fun b => b.name = x

/-- The functions that may be called: the one whose body the point is in, and the complete ones. -/
def callable (Γ : Env) : List Callee := (Γ.body.map Body.callee).toList ++ Γ.complete

/-- One more binding in the innermost scope. -/
def bind (Γ : Env) (b : Binding) : Env :=
  match Γ.body with
  | some body => { Γ with body := some { body with locals := body.locals ++ [b] } }
  | none => { Γ with globals := Γ.globals ++ [b] }

/-- The start of the body of a function with parameters of the given names. -/
def enter (Γ : Env) (k : Callee) (names : List String) : Env :=
  { Γ with body := some ⟨k, (names.zip k.params).map fun p => ⟨p.1, p.2, false⟩⟩ }

/-- One more complete function. -/
def finish (Γ : Env) (k : Callee) : Env := { Γ with complete := Γ.complete ++ [k] }

/-- A name that may be bound in the innermost scope. -/
structure Free (Γ : Env) (x : String) : Prop where
  declarable : Declarable x
  unbound : ∀ b ∈ Γ.inner, b.name ≠ x

end Env

/-! ## Expressions -/

mutual

/-- The type of an expression. -/
inductive HasType (Γ : Env) : Expr Span → Ty → Prop where
  | literal {span : Span} {v : Literal} : HasType Γ (.literal span v) v.ty
  | read {span : Span} {x : String} {b : Binding} (bound : Γ.lookup? x = some b) :
      HasType Γ (.read span x) b.ty
  | binary {span : Span} {op : BinaryOp} {left right : Expr Span} {t u v : Ty}
      (hl : HasType Γ left t) (hr : HasType Γ right u) (rule : BinaryRule op t u v) :
      HasType Γ (.binary span op left right) v
  | unary {span : Span} {op : UnaryOp} {operand : Expr Span} {t u : Ty}
      (h : HasType Γ operand t) (rule : UnaryRule op t u) : HasType Γ (.unary span op operand) u
  | call {span : Span} {arguments : List (Expr Span)} {k : Callee} (callable : k ∈ Γ.callable)
      (h : HaveTypes Γ arguments k.params) : HasType Γ (.call span k.name arguments) k.returns

/-- The types of several expressions, position by position. -/
inductive HaveTypes (Γ : Env) : List (Expr Span) → List Ty → Prop where
  | nil : HaveTypes Γ [] []
  | cons {e : Expr Span} {es : List (Expr Span)} {t : Ty} {ts : List Ty}
      (h : HasType Γ e t) (hs : HaveTypes Γ es ts) : HaveTypes Γ (e :: es) (t :: ts)

end

/-! ## Statements -/

mutual

/-- Whether a statement is or contains a `return`. Functions inside of it do not count. -/
def hasReturn : Stmt → Bool
  | .ret _ _ => true
  | .branch _ _ whenTrue whenFalse => anyReturn whenTrue || anyReturn whenFalse
  | .loop _ _ body => anyReturn body
  | _ => false

/-- Whether a block contains a `return`. -/
def anyReturn : List Stmt → Bool
  | [] => false
  | s :: ss => hasReturn s || anyReturn ss

end

mutual

/-- A statement that may stand in the first environment; the second is the one behind it. -/
inductive StmtTyped : Env → Stmt → Env → Prop where
  | print {Γ : Env} {span : Span} {e : Expr Span} {t : Ty} (h : HasType Γ e t) :
      StmtTyped Γ (.print span e) Γ
  | var {Γ : Env} {span : Span} {x : String} {type : TypeName} {t : Ty}
      (free : Γ.Free x) (named : t.name = type.name) :
      StmtTyped Γ (.var span x type none) (Γ.bind ⟨x, t, false⟩)
  | varWith {Γ : Env} {span : Span} {x : String} {type : TypeName} {e : Expr Span} {t : Ty}
      (h : HasType Γ e t) (free : Γ.Free x) (named : t.name = type.name) :
      StmtTyped Γ (.var span x type (some e)) (Γ.bind ⟨x, t, false⟩)
  | const {Γ : Env} {span : Span} {x : String} {e : Expr Span} {t : Ty}
      (h : HasType Γ e t) (free : Γ.Free x) :
      StmtTyped Γ (.const span x e) (Γ.bind ⟨x, t, true⟩)
  | write {Γ : Env} {span : Span} {x : String} {e : Expr Span} {b : Binding}
      (h : HasType Γ e b.ty) (bound : Γ.lookup? x = some b) (writable : b.isConst = false) :
      StmtTyped Γ (.write span x e) Γ
  | branch {Γ Γ' Γ'' : Env} {span : Span} {e : Expr Span} {whenTrue whenFalse : List Stmt}
      (h : HasType Γ e .bool) (ht : BlockTyped Γ whenTrue Γ') (hf : BlockTyped Γ' whenFalse Γ'') :
      StmtTyped Γ (.branch span e whenTrue whenFalse) Γ''
  | loop {Γ Γ' : Env} {span : Span} {e : Expr Span} {body : List Stmt}
      (h : HasType Γ e .bool) (hb : BlockTyped Γ body Γ') :
      StmtTyped Γ (.loop span e body) Γ'
  -- The environment at the end of the body is dropped: nothing bound in a function is seen behind
  -- it, only the function itself.
  | function {Γ Γ' : Env} {span : Span} {ps : List Param} {returns : TypeName} {body : List Stmt}
      {k : Callee} (outside : Γ.body = none) (fresh : ∀ j ∈ Γ.complete, j.name ≠ k.name)
      (params : k.params.map Ty.name = ps.map fun p => p.type.name)
      (distinct : (ps.map Param.name).Nodup) (result : k.returns.name = returns.name)
      (entry : k.name = entryName → ps = [] ∧ k.returns = .int)
      (h : BlockTyped (Γ.enter k (ps.map Param.name)) body Γ') (ends : anyReturn body = true) :
      StmtTyped Γ (.function span k.name ps returns body) (Γ.finish k)
  | ret {Γ : Env} {span : Span} {e : Expr Span} {b : Body} (inside : Γ.body = some b)
      (h : HasType Γ e b.callee.returns) : StmtTyped Γ (.ret span e) Γ

/-- The statements of a block, one after the other. -/
inductive BlockTyped : Env → List Stmt → Env → Prop where
  | nil {Γ : Env} : BlockTyped Γ [] Γ
  | cons {Γ Γ' Γ'' : Env} {s : Stmt} {ss : List Stmt}
      (h : StmtTyped Γ s Γ') (hs : BlockTyped Γ' ss Γ'') : BlockTyped Γ (s :: ss) Γ''

end

/-- A program with a derivation. -/
def WellTyped (p : Program) : Prop := ∃ Γ : Env, BlockTyped .empty p.body Γ

/-! ## The environment along a block -/

namespace Env

@[simp] theorem bind_inner (Γ : Env) (b : Binding) : (Γ.bind b).inner = Γ.inner ++ [b] := by
  unfold bind inner
  cases Γ.body <;> rfl

@[simp] theorem bind_outer (Γ : Env) (b : Binding) : (Γ.bind b).outer = Γ.outer := by
  unfold bind outer
  cases Γ.body <;> rfl

@[simp] theorem bind_complete (Γ : Env) (b : Binding) : (Γ.bind b).complete = Γ.complete := by
  unfold bind
  cases Γ.body <;> rfl

@[simp] theorem bind_body_map (Γ : Env) (b : Binding) :
    (Γ.bind b).body.map Body.callee = Γ.body.map Body.callee := by
  unfold bind
  cases Γ.body <;> rfl

@[simp] theorem bind_callable (Γ : Env) (b : Binding) : (Γ.bind b).callable = Γ.callable := by
  simp [callable]

/-- A point in the body of a function, with what is known from outside of it. -/
structure Within (Γ : Env) (k : Callee) (globals : List Binding) (complete : List Callee) :
    Prop where
  globals_eq : Γ.globals = globals
  complete_eq : Γ.complete = complete
  callee_eq : Γ.body.map Body.callee = some k

variable {Γ : Env} {k : Callee} {globals : List Binding} {complete : List Callee}

/-- A binding inside of a function goes to its body, so what is known from outside stays. -/
theorem Within.bind (h : Γ.Within k globals complete) (b : Binding) :
    (Γ.bind b).Within k globals complete where
  globals_eq := by
    have hk := h.callee_eq
    -- Outside of functions the binding would be one of the global names; `Within` excludes this.
    cases hb : Γ.body with
    | none => simp [hb] at hk
    | some body => simp [Env.bind, hb, h.globals_eq]
  complete_eq := by rw [bind_complete, h.complete_eq]
  callee_eq := by rw [bind_body_map, h.callee_eq]

end Env

section InBody

variable {k : Callee} {globals : List Binding} {complete : List Callee}

mutual

/-- Inside of a function a statement changes nothing but the bindings of the body. There is no
function inside of a function, so the functions stay as they are. -/
theorem StmtTyped.within {Γ Γ' : Env} {s : Stmt} :
    StmtTyped Γ s Γ' → Γ.Within k globals complete → Γ'.Within k globals complete
  | .print _, h => h
  | .var _ _, h => h.bind _
  | .varWith _ _ _, h => h.bind _
  | .const _ _, h => h.bind _
  | .write _ _ _, h => h
  | .branch _ ht hf, h => hf.within (ht.within h)
  | .loop _ hb, h => hb.within h
  | .function outside _ _ _ _ _ _ _, h => by
    have hk := h.callee_eq
    simp [outside] at hk
  | .ret _ _, h => h

/-- The same for blocks, statement by statement. -/
theorem BlockTyped.within {Γ Γ' : Env} {ss : List Stmt} :
    BlockTyped Γ ss Γ' → Γ.Within k globals complete → Γ'.Within k globals complete
  | .nil, h => h
  | .cons hs hss, h => hss.within (hs.within h)

end

end InBody

end Pulse.Rules

/-
Names of types as names of variables.

A variable or a constant cannot be named like a type. The checker refuses such a declaration, with
or without other faults, and wherever it stands. Symbols get into a scope in a third way, though:
the parameters of a function are bound when its body is entered, and nothing looks at their names
there. So the names of types can be bound after all, by the parameters of a function that is
declared outside of functions, in the scope of its body, and in no other way.

The scope is followed through all points that the checker passes. A piece of a program adds symbols
to the scope, behind those that it finds; this holds for a statement, hence for the statements up to
any point, and the parameters are what the scope of a body starts with.
-/
import Pulse.Proofs.Callability
import Pulse.Proofs.ScopeMaps

set_option autoImplicit false

namespace Pulse

/-! ## The functions whose bodies are checked -/

/-- The line of a function and its parameters as written. -/
structure FunctionHead where
  line : Nat
  params : List Param

/-- The symbols for the parameters. -/
def FunctionHead.symbols (f : FunctionHead) : List Symbol :=
  f.params.map fun p => ⟨p.name, Ty.ofName? p.type.name, false, f.line⟩

namespace Stmt

mutual

/-- The functions that a statement declares, in its blocks too, but not in another function. -/
def heads : Stmt → List FunctionHead
  | .function span _ params _ _ => [⟨span.line, params⟩]
  | .branch _ _ whenTrue whenFalse => headsOf whenTrue ++ headsOf whenFalse
  | .loop _ _ body => headsOf body
  | _ => []

/-- The functions that the statements of a block declare. -/
def headsOf : List Stmt → List FunctionHead
  | [] => []
  | s :: ss => s.heads ++ headsOf ss

end

end Stmt

namespace Checker

/-! ## The points of a run -/

/-- The checker in front of the body of a function, when the first `k` parameters are bound. -/
def entered (c : Checker) (span : Span) (name : String) (params : List Param) (returns : TypeName)
    (k : Nat) : Checker :=
  let c := (c.declareFunction span.line name).2
  let (params, returns, c) := c.signature span.line name params returns
  c.enter ⟨name, params.map CheckedParam.ty, returns, span.line⟩ (params.take k)

/-- **The points that the checker passes** on its way through statements: in front of each of them
and behind the last, the points in their blocks, and for a function outside of functions those in
its body, from the first parameter on. -/
inductive Passes : Checker → List Stmt → Checker → Prop where
  | here {c : Checker} {ss : List Stmt} : Passes c ss c
  | next {c c' : Checker} {s : Stmt} {ss : List Stmt} :
    Passes (c.stmt s).2 ss c' → Passes c (s :: ss) c'
  | whenTrue {c c' : Checker} {span : Span} {condition : Expr Span}
      {whenTrue whenFalse ss : List Stmt} :
    Passes (c.condition condition).2 whenTrue c' →
      Passes c (.branch span condition whenTrue whenFalse :: ss) c'
  | whenFalse {c c' : Checker} {span : Span} {condition : Expr Span}
      {whenTrue whenFalse ss : List Stmt} :
    Passes ((c.condition condition).2.block whenTrue).2 whenFalse c' →
      Passes c (.branch span condition whenTrue whenFalse :: ss) c'
  | loop {c c' : Checker} {span : Span} {condition : Expr Span} {body ss : List Stmt} :
    Passes (c.condition condition).2 body c' → Passes c (.loop span condition body :: ss) c'
  | params {c : Checker} {span : Span} {name : String} {params : List Param} {returns : TypeName}
      {body ss : List Stmt} (k : Nat) :
    c.inFunction = false →
      Passes c (.function span name params returns body :: ss)
        (c.entered span name params returns k)
  | body {c c' : Checker} {span : Span} {name : String} {params : List Param} {returns : TypeName}
      {body ss : List Stmt} :
    c.inFunction = false →
      Passes (c.entered span name params returns params.length) body c' →
      Passes c (.function span name params returns body :: ss) c'

/-! ## Steps and the scope -/

/-- No symbol is named like a type. -/
def Ordinary (symbols : List Symbol) : Prop :=
  ∀ symbol ∈ symbols, Ty.isTypeName symbol.name = false

/-- **Symbols are added to the scope**, none of them named like a type. -/
def Grows (c c' : Checker) : Prop :=
  ∃ added, Ordinary added ∧ c'.scope = { c.scope with symbols := c.scope.symbols ++ added }

section Steps

variable {c c' c'' : Checker}

/-- Most steps of the checker leave the scope alone. -/
theorem Grows.of_scope_eq (h : c'.scope = c.scope) : c.Grows c' :=
  ⟨[], List.forall_mem_nil _, by rw [List.append_nil, h]⟩

theorem Grows.refl (c : Checker) : c.Grows c := .of_scope_eq rfl

/-- What two steps add is added by both together, the later symbols behind the earlier ones. -/
theorem Grows.trans (h : c.Grows c') (h' : c'.Grows c'') : c.Grows c'' := by
  obtain ⟨added, hadded, hscope⟩ := h
  obtain ⟨added', hadded', hscope'⟩ := h'
  refine ⟨added ++ added', List.forall_mem_append.mpr ⟨hadded, hadded'⟩, ?_⟩
  rw [hscope', hscope, List.append_assoc]

/-- A symbol that is declared is in the scope behind it, if its name is new. -/
theorem scope_declareFirst (c : Checker) (symbol : Symbol) :
    (c.declareFirst symbol).scope = c.scope.step (.declare symbol) := by
  rw [declareFirst, declare, Scope.step]
  cases c.scope.declare symbol <;> rfl

/-- A declaration adds its symbol or none, so it is enough that the symbol is not named like a
type. -/
theorem grows_declareFirst (c : Checker) (symbol : Symbol)
    (h : Ty.isTypeName symbol.name = false) : c.Grows (c.declareFirst symbol) := by
  -- A name that is bound already keeps its first symbol.
  by_cases hbound : symbol.name ∈ c.scope.symbols.map Symbol.name
  · exact .of_scope_eq ((c.scope_declareFirst symbol).trans
      ((c.scope.declares symbol).kept hbound))
  · refine ⟨[symbol], List.forall_mem_singleton.mpr h, ?_⟩
    rw [scope_declareFirst, Scope.step, Scope.declare_of_notMem hbound]

/-- A type that is unknown is reported, and nothing else happens (`resolve_type`). -/
theorem scope_resolve (c : Checker) (type : TypeName) : (c.resolve type).2.scope = c.scope := by
  unfold resolve
  cases Ty.ofName? type.name <;> rfl

theorem scope_expr (c : Checker) (e : Expr Span) : (c.expr e).2.scope = c.scope := rfl

theorem scope_expr? (c : Checker) (e : Option (Expr Span)) : (c.expr? e).2.scope = c.scope := by
  cases e <;> rfl

/-- A condition of a wrong type is reported, and nothing else happens. -/
theorem scope_condition (c : Checker) (e : Expr Span) :
    (c.condition e).2.scope = c.scope := by
  unfold condition
  dsimp only
  split
  · split <;> rfl
  · rfl

/-- A variable is declared behind the check of its name. On every other way through the check there
is no symbol. -/
theorem grows_declareVar (c : Checker) (line : Nat) (name : String) (type : TypeName)
    (received : Option Ty) : c.Grows (c.declareVar line name type received).2 := by
  unfold declareVar
  split
  · exact .of_scope_eq rfl
  · rename_i hname
    have hname := Bool.eq_false_iff.mpr hname
    split
    · exact .of_scope_eq rfl
    -- From here on the name is fine. The type may still be unknown, and then there is nothing to
    -- declare.
    · refine (Grows.of_scope_eq (c.scope_resolve type)).trans ?_
      dsimp only
      split
      · exact .refl _
      · split
        · exact grows_declareFirst _ _ hname
        · exact .of_scope_eq rfl
      · exact grows_declareFirst _ _ hname

/-- So is a constant. -/
theorem grows_declareConst (c : Checker) (line : Nat) (name : String) (ty : Option Ty) :
    c.Grows (c.declareConst line name ty) := by
  unfold declareConst
  split
  · exact .of_scope_eq rfl
  · rename_i hname
    -- The constant is declared like a variable, and reported if its name is bound.
    have hfirst := c.grows_declareFirst ⟨name, ty, true, line⟩ (Bool.eq_false_iff.mpr hname)
    rw [declareFirst] at hfirst
    cases hdeclare : c.declare ⟨name, ty, true, line⟩ with
    | ok c' =>
      rw [hdeclare] at hfirst
      exact hfirst
    | error previous => exact .of_scope_eq rfl

/-- Writing to a variable binds nothing, whatever is wrong with it. -/
theorem scope_writeTo (c : Checker) (line : Nat) (name : String) (received : Option Ty) :
    (c.writeTo line name received).2.scope = c.scope := by
  unfold writeTo
  split
  · rfl
  · split
    · rfl
    · split
      · split <;> rfl
      · rfl

/-- Nor does a return. -/
theorem scope_returnOf (c : Checker) (line : Nat) (received : Option Ty) :
    (c.returnOf line received).scope = c.scope := by
  unfold returnOf
  split
  · rfl
  · dsimp only
    split
    · split <;> rfl
    · rfl

/-- A function is kept in another table than the variables. -/
theorem scope_declareFunction (c : Checker) (line : Nat) (name : String) :
    (c.declareFunction line name).2.scope = c.scope := by
  unfold declareFunction
  split <;> rfl

/-- The types of parameters are looked up in front of the body. Their names are bound later, when
the body is entered. -/
theorem scope_params (ps : List Param) (c : Checker) : (c.params ps).2.scope = c.scope := by
  induction ps generalizing c with
  | nil => rfl
  | cons p ps ih => exact (ih _).trans (c.scope_resolve p.type)

/-- The line of a function is checked without binding anything. Parameters are bound later, when the
body is opened. -/
theorem scope_signature (c : Checker) (line : Nat) (name : String) (ps : List Param)
    (returns : TypeName) : (c.signature line name ps returns).2.2.scope = c.scope := by
  -- The faults of a signature are reported one behind the other, each under a condition of its own.
  have hwhen : ∀ (c : Checker) (q : Prop) [Decidable q] (fault : Fault),
      (if q then c.report line fault else c).scope = c.scope := by
    intro c q _ fault
    split <;> rfl
  have hunless : ∀ (c : Checker) (q : Prop) [Decidable q] (fault : Fault),
      (if q then c else c.report line fault).scope = c.scope := by
    intro c q _ fault
    split <;> rfl
  rw [signature]
  dsimp only
  rw [hwhen, scope_resolve, hunless, scope_params]

end Steps

/-! ## Entering and leaving a function -/

/-- The parameters are declared one by one. A scope of the symbols that come first, with one more
declared, is the scope of those that come first among one more. -/
theorem scope_declareParams (line : Nat) (ps : List CheckedParam) (ds : List Symbol) {c : Checker}
    (h : c.scope.symbols = firsts ds) :
    (ps.foldl (fun c p => c.declareFirst ⟨p.name, p.ty, false, line⟩) c).scope =
      { c.scope with symbols := firsts (ds ++ ps.map (paramSymbol line)) } := by
  induction ps generalizing c ds with
  | nil => simp [← h]
  | cons p ps ih =>
    have hfirst : (c.declareFirst ⟨p.name, p.ty, false, line⟩).scope =
        { c.scope with symbols := firsts (ds ++ [paramSymbol line p]) } :=
      (c.scope_declareFirst _).trans (Scope.step_declare h _)
    rw [List.foldl_cons]
    refine (ih (ds ++ [paramSymbol line p]) (by rw [hfirst])).trans ?_
    rw [hfirst, List.map_cons, ← List.append_cons]

/-- The scope of a body starts with the parameters, of two with one name the first. -/
theorem scope_enter (c : Checker) (s : Signature) (ps : List CheckedParam) :
    (c.enter s ps).scope =
      ⟨firsts (ps.map (paramSymbol s.line)), c.scope.symbols :: c.scope.outer⟩ :=
  scope_declareParams s.line ps [] rfl

/-- A parameter is passed on with its name as written, whatever the name is. This is where the names
of types get in. -/
theorem checked_params (ps : List Param) (c : Checker) :
    (c.params ps).1 = ps.map fun p => ⟨p.name, Ty.ofName? p.type.name⟩ := by
  induction ps generalizing c with
  | nil => rfl
  | cons p ps ih =>
    rw [params]
    simp only [c.resolve_type p.type, ih, List.map_cons]

section Functions

variable (c : Checker) (span : Span) (name : String) (params : List Param) (returns : TypeName)

/-- The same for the line of a function. -/
theorem checked_signature (line : Nat) :
    (c.signature line name params returns).1 =
      params.map fun p => ⟨p.name, Ty.ofName? p.type.name⟩ :=
  checked_params params c

/-- In front of a body the scope has the parameters that are bound, inside of what it was. -/
theorem scope_entered (k : Nat) :
    (c.entered span name params returns k).scope =
      ⟨firsts ((FunctionHead.mk span.line params).symbols.take k),
        c.scope.symbols :: c.scope.outer⟩ := by
  rw [entered]
  dsimp only
  rw [scope_enter, checked_signature, scope_signature, scope_declareFunction, ← List.map_take,
    List.map_map, FunctionHead.symbols, List.map_take]
  rfl

/-- In front of a body the checker is inside of a function. -/
theorem inFunction_entered (k : Nat) :
    (c.entered span name params returns k).inFunction = true := by
  rw [inFunction, Scope.isGlobal, scope_entered]
  simp

/-- Leaving a function drops the scope of its body, with or without a fault to report. -/
theorem scope_exit (s : Signature) (isNew : Bool) : (c.exit s isNew).scope = c.scope.leave := by
  unfold exit
  dsimp only
  split
  · rfl
  · split
    · rfl
    · split <;> rfl

/-- **The body of a function is checked from the point where all parameters are bound**, if the
function is outside of functions. -/
theorem stmt_of_entered (body : List Stmt) (h : c.inFunction = false) :
    ∃ s isNew, (c.stmt (.function span name params returns body)).2 =
      ((c.entered span name params returns params.length).block body).2.exit s isNew := by
  have hall : ∀ ps : List CheckedParam, ps.length = params.length → ps.take params.length = ps :=
    fun ps hlength => List.take_of_length_le (Nat.le_of_eq hlength)
  have hlength : ((c.declareFunction span.line name).2.signature span.line name params
      returns).1.length = params.length := by
    rw [checked_signature, List.length_map]
  have hplace := ((c.notes_declareFunction span.line name).2.steady
    (steady_signature _ span.line name params returns)).inFunction
  rw [h, inFunction] at hplace
  rw [stmt, entered]
  dsimp only
  rw [hall _ hlength, if_neg (by rw [hplace]; exact Bool.false_ne_true)]
  exact ⟨_, _, rfl⟩

/-- A function in another one is reported and its body is left out. -/
theorem scope_stmt_nested (body : List Stmt) (h : c.inFunction = true) :
    (c.stmt (.function span name params returns body)).2.scope = c.scope := by
  have hplace := ((c.notes_declareFunction span.line name).2.steady
    (steady_signature _ span.line name params returns)).inFunction
  rw [h, inFunction] at hplace
  rw [stmt]
  dsimp only
  rw [if_pos hplace]
  exact (scope_signature _ _ _ _ _).trans (scope_declareFunction _ _ _)

/-- Behind a function the scope is as it was in front of it. -/
theorem scope_stmt_function {body : List Stmt} (hbody : ∀ c : Checker, c.Grows (c.block body).2) :
    (c.stmt (.function span name params returns body)).2.scope = c.scope := by
  cases hin : c.inFunction with
  | true => exact c.scope_stmt_nested span name params returns body hin
  | false =>
    obtain ⟨s, isNew, hstmt⟩ := c.stmt_of_entered span name params returns body hin
    obtain ⟨added, -, hscope⟩ := hbody (c.entered span name params returns params.length)
    rw [hstmt, scope_exit, hscope, scope_entered]
    rfl

end Functions

/-! ## Statements and points -/

mutual

/-- **A statement adds symbols to the scope**, none of them named like a type. By recursion on the
statement. A function leaves the scope as it was, whatever its body adds to its own. -/
theorem grows_stmt : (s : Stmt) → (c : Checker) → c.Grows (c.stmt s).2
  | .print _ _, _ => .of_scope_eq rfl
  | .var span name type value, c =>
    (Grows.of_scope_eq (c.scope_expr? value)).trans (grows_declareVar _ span.line name type _)
  | .const span name value, c =>
    (Grows.of_scope_eq (c.scope_expr value)).trans (grows_declareConst _ span.line name _)
  | .write span name value, c => .of_scope_eq (scope_writeTo (c.expr value).2 span.line name _)
  | .branch _ condition whenTrue whenFalse, c =>
    (Grows.of_scope_eq (c.scope_condition condition)).trans
      ((grows_block whenTrue _).trans (grows_block whenFalse _))
  | .loop _ condition body, c =>
    (Grows.of_scope_eq (c.scope_condition condition)).trans (grows_block body _)
  | .function span name params returns body, c =>
    .of_scope_eq (c.scope_stmt_function span name params returns (grows_block body))
  | .ret span value, c => .of_scope_eq (scope_returnOf (c.expr value).2 span.line _)

/-- And so does a block, statement by statement. -/
theorem grows_block : (ss : List Stmt) → (c : Checker) → c.Grows (c.block ss).2
  | [], c => .refl c
  | s :: ss, c => (grows_stmt s c).trans (grows_block ss _)

end

/-- **What the scope is at a point**, as seen from the point where the statements start: it has
grown, or it is the scope of one of their functions with some of its parameters and what was
added behind them. -/
inductive Reached (c : Checker) (ss : List Stmt) (c' : Checker) : Prop where
  | beside (grows : c.Grows c')
  | within (outside : c.inFunction = false) (f : FunctionHead) (hf : f ∈ Stmt.headsOf ss) (k : Nat)
      (added locals : List Symbol) (hadded : Ordinary added) (hlocals : Ordinary locals)
      (scope : c'.scope = ⟨firsts (f.symbols.take k) ++ locals,
        (c.scope.symbols ++ added) :: c.scope.outer⟩)

/-- A point is reached from further in front. -/
theorem Reached.before {c m c' : Checker} {ss ss' : List Stmt} (h : m.Reached ss c')
    (hgrows : c.Grows m) (hplace : m.inFunction = c.inFunction)
    (hheads : Stmt.headsOf ss ⊆ Stmt.headsOf ss') : c.Reached ss' c' := by
  cases h with
  | beside h => exact .beside (hgrows.trans h)
  | within outside f hf k added locals hadded hlocals scope =>
    obtain ⟨earlier, hearlier, hm⟩ := hgrows
    refine .within (hplace.symm.trans outside) f (hheads hf) k (earlier ++ added) locals
      (List.forall_mem_append.mpr ⟨hearlier, hadded⟩) hlocals ?_
    rw [scope, hm, List.append_assoc]

/-- Every point that is passed is reached in this way. By induction on the way to the point. Inside
of the body of a function the scope has the parameters first, and behind them what the body has
declared so far. -/
theorem Passes.reached {c c' : Checker} {ss : List Stmt} (h : c.Passes ss c') :
    c.Reached ss c' := by
  induction h with
  | here => exact .beside (.refl _)
  | @next c c' s ss _ ih =>
    exact ih.before (grows_stmt s c) (meets_stmt s c).inFunction (List.subset_append_right _ _)
  | @whenTrue c c' span condition whenTrue whenFalse ss _ ih =>
    refine ih.before (.of_scope_eq (c.scope_condition condition))
      (c.steady_condition condition).inFunction ?_
    exact List.subset_append_of_subset_left _ (List.subset_append_left _ _)
  | @whenFalse c c' span condition whenTrue whenFalse ss _ ih =>
    refine ih.before ((Grows.of_scope_eq (c.scope_condition condition)).trans
      (grows_block whenTrue _)) ?_ ?_
    · exact (meets_block whenTrue _).inFunction.trans (c.steady_condition condition).inFunction
    · exact List.subset_append_of_subset_left _ (List.subset_append_right _ _)
  | @loop c c' span condition body ss _ ih =>
    exact ih.before (.of_scope_eq (c.scope_condition condition))
      (c.steady_condition condition).inFunction (List.subset_append_left _ _)
  | @params c span name params returns body ss k outside =>
    refine .within outside ⟨span.line, params⟩ List.mem_cons_self k [] [] (List.forall_mem_nil _)
      (List.forall_mem_nil _) ?_
    rw [scope_entered, List.append_nil, List.append_nil]
  | @body c c' span name params returns body ss outside _ ih =>
    cases ih with
    | beside grows =>
      obtain ⟨locals, hlocals, hscope⟩ := grows
      refine .within outside ⟨span.line, params⟩ List.mem_cons_self params.length [] locals
        (List.forall_mem_nil _) hlocals ?_
      rw [hscope, scope_entered, List.append_nil]
    | within inside =>
      -- There are no functions in functions.
      rw [inFunction_entered] at inside
      cases inside

/-! ## Points where parameters are bound -/

mutual

/-- The body of every function outside of functions is entered with its parameters bound. The
function may stand in a block, and then the point is passed on the way through the block. -/
theorem exists_passes_stmt {f : FunctionHead} : (s : Stmt) → (c : Checker) → (ss : List Stmt) →
    c.inFunction = false → f ∈ s.heads →
      ∃ c', c.Passes (s :: ss) c' ∧ c'.scope.symbols = firsts f.symbols
  | .function span name params returns _, c, ss, hplace, hf => by
    refine ⟨_, .params params.length hplace, ?_⟩
    have hlength : (FunctionHead.mk span.line params).symbols.length ≤ params.length :=
      Nat.le_of_eq (List.length_map _)
    rw [scope_entered, List.mem_singleton.mp hf, List.take_of_length_le hlength]
  | .branch _ condition whenTrue whenFalse, c, ss, hplace, hf => by
    have hinside := (c.steady_condition condition).inFunction.trans hplace
    rcases List.mem_append.mp hf with hf | hf
    · obtain ⟨c', hpasses, hscope⟩ := exists_passes_block whenTrue _ hinside hf
      exact ⟨c', .whenTrue hpasses, hscope⟩
    · obtain ⟨c', hpasses, hscope⟩ := exists_passes_block whenFalse
        ((c.condition condition).2.block whenTrue).2
        ((meets_block whenTrue _).inFunction.trans hinside) hf
      exact ⟨c', .whenFalse hpasses, hscope⟩
  | .loop _ condition body, c, ss, hplace, hf => by
    obtain ⟨c', hpasses, hscope⟩ := exists_passes_block body _
      ((c.steady_condition condition).inFunction.trans hplace) hf
    exact ⟨c', .loop hpasses, hscope⟩
  | .print _ _, _, _, _, hf | .var _ _ _ _, _, _, _, hf | .const _ _ _, _, _, _, hf
  | .write _ _ _, _, _, _, hf | .ret _ _, _, _, _, hf => absurd hf List.not_mem_nil

/-- The function is in the first statement or in those behind it, which are checked at the same
place. -/
theorem exists_passes_block {f : FunctionHead} : (ss : List Stmt) → (c : Checker) →
    c.inFunction = false → f ∈ Stmt.headsOf ss →
      ∃ c', c.Passes ss c' ∧ c'.scope.symbols = firsts f.symbols
  | [], _, _, hf => absurd hf List.not_mem_nil
  | s :: ss, c, hplace, hf => by
    rcases List.mem_append.mp hf with hf | hf
    · exact exists_passes_stmt s c ss hplace hf
    · obtain ⟨c', hpasses, hscope⟩ := exists_passes_block ss _
        ((meets_stmt s c).inFunction.trans hplace) hf
      exact ⟨c', .next hpasses, hscope⟩

end

end Checker

/-! ## Type names in scopes -/

/-- At every point of a program, what is named like a type is a parameter of a function, in the
scope of its body. -/
theorem parameter_of_isTypeName {p : Program} {c : Checker} (h : Checker.start.Passes p.body c)
    {symbol : Symbol} (hmem : symbol ∈ c.scope.levels.flatten)
    (hname : Ty.isTypeName symbol.name = true) :
    c.scope.isGlobal = false ∧ symbol ∈ c.scope.symbols ∧
      ∃ f ∈ Stmt.headsOf p.body, symbol ∈ f.symbols := by
  have hordinary : ∀ {added : List Symbol}, Checker.Ordinary added → symbol ∉ added := by
    intro added hadded hmem
    rw [hadded symbol hmem] at hname
    cases hname
  cases h.reached with
  | beside grows =>
    obtain ⟨added, hadded, hscope⟩ := grows
    rw [hscope] at hmem
    exact absurd (by simpa [Scope.levels, Checker.start, Scope.global] using hmem)
      (hordinary hadded)
  | within _ f hf k added locals hadded hlocals scope =>
    rw [scope] at hmem ⊢
    have hparam : symbol ∈ firsts (f.symbols.take k) := by
      have hcases : symbol ∈ firsts (f.symbols.take k) ∨ symbol ∈ locals ∨ symbol ∈ added := by
        simpa [Scope.levels, Checker.start, Scope.global] using hmem
      exact hcases.resolve_right (not_or.mpr ⟨hordinary hlocals, hordinary hadded⟩)
    exact ⟨rfl, List.mem_append_left _ hparam, f, hf,
      List.mem_of_mem_take (mem_of_mem_firsts hparam)⟩

/-- **Type names stay unbound just when no parameter has one.** In every program, with or without
faults, no symbol in any open scope is named like a type, at any point that the checker passes, if
and only if no function that is declared outside of functions has a parameter with such a name.
Variables and constants are never named so, and the scope of the program has no such symbol: one
that there is stands in the scope of a function, for one of the parameters. -/
theorem type_names_unbound_iff (p : Program) :
    ((∀ c, Checker.start.Passes p.body c → ∀ symbol ∈ c.scope.levels.flatten,
        Ty.isTypeName symbol.name = false) ↔
      ∀ f ∈ Stmt.headsOf p.body, ∀ q ∈ f.params, Ty.isTypeName q.name = false) ∧
    ∀ c, Checker.start.Passes p.body c → ∀ symbol ∈ c.scope.levels.flatten,
      Ty.isTypeName symbol.name = true → c.scope.isGlobal = false ∧ symbol ∈ c.scope.symbols ∧
        ∃ f ∈ Stmt.headsOf p.body, symbol ∈ f.symbols := by
  refine ⟨⟨fun h f hf q hq => ?_, fun h c hpasses symbol hmem => ?_⟩,
    fun c hpasses symbol hmem hname => parameter_of_isTypeName hpasses hmem hname⟩
  · obtain ⟨c, hpasses, hscope⟩ := Checker.exists_passes_block p.body Checker.start rfl hf
    -- A parameter of this name is bound, if not this one then one in front of it.
    have hname : q.name ∈ c.scope.symbols.map Symbol.name := by
      rw [hscope, mem_names_firsts, FunctionHead.symbols, List.map_map]
      exact List.mem_map.mpr ⟨q, hq, rfl⟩
    obtain ⟨symbol, hmem, hsymbol⟩ := List.mem_map.mp hname
    rw [← hsymbol]
    exact h c hpasses symbol (List.mem_append_left _ hmem)
  · by_contra hname
    obtain ⟨-, -, f, hf, hsymbol⟩ :=
      parameter_of_isTypeName hpasses hmem ((Bool.not_eq_false _).mp hname)
    obtain ⟨q, hq, rfl⟩ := List.mem_map.mp hsymbol
    exact hname (h f hf q hq)

/-- The function that returns its argument, which is called like its type. -/
def namesake : Program :=
  let span : Span := ⟨⟨0, 1⟩, ⟨38, 1⟩⟩
  let int : TypeName := ⟨"int", span⟩
  ⟨[.function span "f" [⟨"int", int, span⟩] int [.ret span (.read span "int")]], span⟩

/-- It is accepted, and `int` is a variable in its body. -/
theorem namesake_binds_int :
    namesake.analyze.isOk = true ∧ ∃ c, Checker.start.Passes namesake.body c ∧
      ∃ symbol ∈ c.scope.levels.flatten, symbol.name = "int" ∧ Ty.isTypeName "int" = true :=
  ⟨by decide +kernel, _, .params 1 rfl, ⟨"int", some .int, false, 1⟩, by decide +kernel, rfl, rfl⟩

end Pulse

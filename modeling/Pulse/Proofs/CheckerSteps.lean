/-
What the checker does when it reports nothing.

Each step of the checker comes with two facts. One says what the step returns when what it asks for
holds; no such step reports anything, and most of them leave the state alone. The other says that
a step behind which there are no diagnostics found what it asks for, and that there were none
before it either. Everything said later about programs without diagnostics goes through these, so
the order in which a step makes its tests matters in this file only.
-/
import Pulse.Typing.Checker
import Mathlib.Data.List.Nodup

set_option autoImplicit false

namespace Pulse

/-! ## Types by name -/

/-- The type of a name is the type with that name. -/
theorem Ty.ofName?_eq_some {s : String} {t : Ty} : Ty.ofName? s = some t ↔ t.name = s := by
  constructor
  · intro h
    have := List.find?_some h
    simpa using this
  · rintro rfl
    cases t <;> decide

/-- A name is that of a type when some type has it. -/
theorem Ty.isTypeName_iff {s : String} : Ty.isTypeName s = true ↔ ∃ t : Ty, t.name = s := by
  rw [Ty.isTypeName, Option.isSome_iff_exists]
  simp only [Ty.ofName?_eq_some]

namespace Expr

@[simp] theorem ty_literal (n : Typing) (v : Literal) : (literal n v).ty = n.ty := rfl

@[simp] theorem ty_read (n : Typing) (x : String) : (read n x).ty = n.ty := rfl

@[simp] theorem ty_binary (n : Typing) (op : BinaryOp) (l r : Expr Typing) :
    (binary n op l r).ty = n.ty := rfl

@[simp] theorem ty_unary (n : Typing) (op : UnaryOp) (e : Expr Typing) :
    (unary n op e).ty = n.ty := rfl

@[simp] theorem ty_call (n : Typing) (f : String) (es : List (Expr Typing)) :
    (call n f es).ty = n.ty := rfl

end Expr

namespace Context

variable {ctx : Context} {line : Nat} {f : String} {s : Signature} {ts us : List Ty}

/-- A call with the types that the parameters have. -/
theorem call_eq (hs : ctx.callee? f = some s) (hp : s.params = ts.map some) :
    ctx.call line f (ts.map some) = (s.returns, []) := by
  simp [call, hs, hp]

/-- Where all types are known, the lists of types are compared as they are. -/
theorem call_clean (hs : ctx.callee? f = some s) (hp : s.params = us.map some)
    (h : (ctx.call line f (ts.map some)).2 = []) : ts = us := by
  by_contra hne
  have hmap : ts.map some ≠ us.map some := fun heq =>
    hne (List.map_injective_iff.mpr (fun _ _ => Option.some.inj) heq)
  by_cases hlen : ts.length = us.length
  · simp [call, hs, hp, hlen, hmap] at h
  · simp [call, hs, hp, hlen] at h

end Context

namespace Checker

/-! ## Diagnostics -/

/-- Nothing has been reported. -/
def Clean (c : Checker) : Prop := c.diagnostics = []

theorem clean_start : start.Clean := rfl

/-- What is reported is added behind the diagnostics so far, in order. -/
theorem diagnostics_reportAll (c : Checker) (ds : List Diagnostic) :
    (c.reportAll ds).diagnostics = c.diagnostics ++ ds := by
  -- The diagnostics are read off the journal, where reports are entered one by one.
  have hmap : (ds.map Event.reported).filterMap Event.diagnostic? = ds := by
    rw [List.filterMap_map]
    exact List.filterMap_some
  simp only [diagnostics, reportAll, List.filterMap_append, hmap]

/-- A checker is clean behind reports only if it was clean and there were none. -/
@[simp] theorem clean_reportAll (c : Checker) (ds : List Diagnostic) :
    (c.reportAll ds).Clean ↔ c.Clean ∧ ds = [] := by
  rw [Clean, diagnostics_reportAll, List.append_eq_nil_iff, Clean]

/-- Behind a report no checker is clean. -/
@[simp] theorem not_clean_report (c : Checker) (line : Nat) (fault : Fault) :
    ¬ (c.report line fault).Clean := by
  simp [Clean, diagnostics, report, log, List.filterMap_append, Event.diagnostic?]

/-- A fault that is reported under a condition. -/
theorem clean_when {c : Checker} {p : Prop} [Decidable p] {line : Nat} {fault : Fault} :
    (if p then c.report line fault else c).Clean ↔ c.Clean ∧ ¬ p := by
  by_cases h : p <;> simp [h]

/-- A fault that is reported unless a condition holds. -/
theorem clean_unless {c : Checker} {p : Prop} [Decidable p] {line : Nat} {fault : Fault} :
    (if p then c else c.report line fault).Clean ↔ c.Clean ∧ p := by
  by_cases h : p <;> simp [h]

@[simp] theorem reportAll_nil (c : Checker) : c.reportAll [] = c := by
  simp [reportAll]

/-- Only the journal matters for whether a checker is clean, and in it only the reports. -/
theorem clean_iff_of_journal {c d : Checker} (es : List Event)
    (h : d.journal = c.journal ++ es) (hes : ∀ e ∈ es, e.diagnostic? = none) :
    d.Clean ↔ c.Clean := by
  have hnil : es.filterMap Event.diagnostic? = [] := List.filterMap_eq_nil_iff.mpr hes
  simp only [Clean, diagnostics, h, List.filterMap_append, hnil, List.append_nil]

/-! ## Declarations -/

/-- The checker with one more symbol in the scope. -/
def bound (c : Checker) (symbol : Symbol) : Checker :=
  { c with
    scope := { c.scope with symbols := c.scope.symbols ++ [symbol] }
    journal := c.journal ++ [.declared symbol c.scope.isGlobal] }

/-- Binding a symbol is an event, but not a report. -/
@[simp] theorem clean_bound (c : Checker) (symbol : Symbol) : (c.bound symbol).Clean ↔ c.Clean := by
  apply clean_iff_of_journal [.declared symbol c.scope.isGlobal] rfl
  intro e he
  rw [List.mem_singleton.mp he]
  rfl

/-- A name that is not bound in the scope itself can be declared. -/
theorem declare_eq {c : Checker} {symbol : Symbol}
    (h : c.scope.lookupLocal? symbol.name = none) : c.declare symbol = .ok (c.bound symbol) := by
  simp only [declare, Scope.declare, h]
  rfl

/-- The same where an earlier binding would stay; here there is none. -/
theorem declareFirst_eq {c : Checker} {symbol : Symbol}
    (h : c.scope.lookupLocal? symbol.name = none) : c.declareFirst symbol = c.bound symbol := by
  simp only [declareFirst, declare_eq h]

/-- An annotation that is the name of a type is resolved without a report. -/
theorem resolve_eq {c : Checker} {type : TypeName} {t : Ty} (h : t.name = type.name) :
    c.resolve type = (some t, c) := by
  simp only [resolve, Ty.ofName?_eq_some.mpr h]

/-- An annotation that is resolved without a report is the name of a type. -/
theorem resolve_clean {c : Checker} {type : TypeName} (h : (c.resolve type).2.Clean) :
    c.Clean ∧ ∃ t : Ty, t.name = type.name := by
  cases ht : Ty.ofName? type.name with
  | none => simp [resolve, ht] at h
  | some t =>
    simp only [resolve, ht] at h
    exact ⟨h, t, Ty.ofName?_eq_some.mp ht⟩

/-- A variable whose name is free, whose annotation is a type, and whose value, if it has one, is
of that type. -/
theorem declareVar_eq {c : Checker} {line : Nat} {x : String} {type : TypeName}
    {received : Option Ty} {t : Ty} (hx : ¬ Ty.isTypeName x = true)
    (hl : c.scope.lookupLocal? x = none) (ht : t.name = type.name)
    (hr : received = none ∨ received = some t) :
    c.declareVar line x type received = (some t, c.bound ⟨x, some t, false, line⟩) := by
  have hd : c.declareFirst ⟨x, some t, false, line⟩ = c.bound ⟨x, some t, false, line⟩ :=
    declareFirst_eq hl
  rcases hr with rfl | rfl <;> simp [declareVar, hx, hl, resolve_eq ht, hd]

/-- A variable that is declared without a report has a name that is free and no type, an annotation
that is a type, and a value of this type or none of a known type. -/
theorem declareVar_clean {c : Checker} {line : Nat} {x : String} {type : TypeName}
    {received : Option Ty} (h : (c.declareVar line x type received).2.Clean) :
    c.Clean ∧ ¬ Ty.isTypeName x = true ∧ c.scope.lookupLocal? x = none ∧
      ∃ t : Ty, t.name = type.name ∧ (received = none ∨ received = some t) := by
  -- A name of a type, a name that is bound here and an unknown type are reported, in this order.
  by_cases hx : Ty.isTypeName x = true
  · simp [declareVar, hx] at h
  cases hl : c.scope.lookupLocal? x with
  | some existing => simp [declareVar, hx, hl] at h
  | none =>
    cases ht : Ty.ofName? type.name with
    | none => simp [declareVar, hx, hl, resolve, ht] at h
    | some t =>
      have hd : c.declareFirst ⟨x, some t, false, line⟩ = c.bound ⟨x, some t, false, line⟩ :=
        declareFirst_eq hl
      cases received with
      | none =>
        simp [declareVar, hx, hl, resolve, ht, hd] at h
        exact ⟨h, hx, rfl, t, Ty.ofName?_eq_some.mp ht, .inl rfl⟩
      | some u =>
        by_cases hu : u = t
        · simp [declareVar, hx, hl, resolve, ht, hd, hu] at h
          exact ⟨h, hx, rfl, t, Ty.ofName?_eq_some.mp ht, .inr (congrArg some hu)⟩
        · simp [declareVar, hx, hl, resolve, ht, hu] at h

/-- A constant whose name is free and no type is bound as such. -/
theorem declareConst_eq {c : Checker} {line : Nat} {x : String} {ty : Option Ty}
    (hx : ¬ Ty.isTypeName x = true) (hl : c.scope.lookupLocal? x = none) :
    c.declareConst line x ty = c.bound ⟨x, ty, true, line⟩ := by
  have hd : c.declare ⟨x, ty, true, line⟩ = .ok (c.bound ⟨x, ty, true, line⟩) := declare_eq hl
  simp [declareConst, hx, hd]

/-- A constant that is declared without a report has a name that is free and no type. -/
theorem declareConst_clean {c : Checker} {line : Nat} {x : String} {ty : Option Ty}
    (h : (c.declareConst line x ty).Clean) :
    c.Clean ∧ ¬ Ty.isTypeName x = true ∧ c.scope.lookupLocal? x = none := by
  by_cases hx : Ty.isTypeName x = true
  · simp [declareConst, hx] at h
  cases hl : c.scope.lookupLocal? x with
  | some existing => simp [declareConst, hx, declare, Scope.declare, hl] at h
  | none =>
    rw [declareConst_eq hx hl, clean_bound] at h
    exact ⟨h, hx, rfl⟩

/-! ## Expressions, conditions, writes, returns -/

/-- An expression that is checked without a report has no faults. -/
theorem expr_clean {c : Checker} {e : Expr Span} (h : (c.expr e).2.Clean) :
    c.Clean ∧ (c.context.expr e).2 = [] :=
  (clean_reportAll _ _).mp h

/-- A condition of type `bool` is left as any expression is. -/
theorem condition_eq {c : Checker} {e : Expr Span} (hf : (c.context.expr e).2 = [])
    (ht : (c.context.expr e).1.ty = some .bool) : c.condition e = ((c.context.expr e).1, c) := by
  simp [condition, expr, hf, ht]

/-- A condition that is checked without a report has no faults, and no known type but `bool`. That
the type is known follows later, from the typing rules. -/
theorem condition_clean {c : Checker} {e : Expr Span} (h : (c.condition e).2.Clean) :
    c.Clean ∧ (c.context.expr e).2 = [] ∧
      ∀ t : Ty, (c.context.expr e).1.ty = some t → t = .bool := by
  cases ht : (c.context.expr e).1.ty with
  | none =>
    -- A condition without a type is not reported, since something in it was.
    simp [condition, expr, ht] at h
    exact ⟨h.1, h.2, by simp⟩
  | some t =>
    by_cases hb : t = .bool
    · simp [condition, expr, ht, hb] at h
      refine ⟨h.1, h.2, ?_⟩
      rintro u hu
      rw [← Option.some.inj hu, hb]
    · simp [condition, expr, ht, hb] at h

/-- A variable is written to with a value of its type. -/
theorem writeTo_eq {c : Checker} {line : Nat} {x : String} {symbol : Symbol} {t : Ty}
    (hl : c.scope.lookup? x = some symbol) (hc : symbol.isConst = false)
    (ht : symbol.ty = some t) : c.writeTo line x (some t) = (some t, c) := by
  simp [writeTo, hl, hc, ht]

/-- A name that is written to without a report is bound to a variable, and the two types do not
differ where both are known. -/
theorem writeTo_clean {c : Checker} {line : Nat} {x : String} {received : Option Ty}
    (h : (c.writeTo line x received).2.Clean) :
    c.Clean ∧ ∃ symbol, c.scope.lookup? x = some symbol ∧ symbol.isConst = false ∧
      ∀ t u : Ty, symbol.ty = some t → received = some u → t = u := by
  cases hl : c.scope.lookup? x with
  | none => simp [writeTo, hl] at h
  | some symbol =>
    cases hc : symbol.isConst with
    | true => simp [writeTo, hl, hc] at h
    | false =>
      -- Only two known types can be compared.
      cases ht : symbol.ty with
      | none =>
        simp [writeTo, hl, hc, ht] at h
        exact ⟨h, symbol, rfl, hc, by simp [ht]⟩
      | some t =>
        cases received with
        | none =>
          simp [writeTo, hl, hc, ht] at h
          exact ⟨h, symbol, rfl, hc, by simp⟩
        | some u =>
          by_cases hu : t = u
          · simp [writeTo, hl, hc, ht, hu] at h
            refine ⟨h, symbol, rfl, hc, ?_⟩
            intro t' u' ht' hu'
            rw [ht] at ht'
            rw [← Option.some.inj ht', ← Option.some.inj hu', hu]
          · simp [writeTo, hl, hc, ht, hu] at h

/-- A value of the right type is noted as a matching `return`. -/
theorem returnOf_eq {c : Checker} {line : Nat} {f : OpenFunction} {t : Ty}
    (hf : c.current = some f) (ht : f.signature.returns = some t) :
    c.returnOf line (some t) = { c with current := some ⟨f.signature, true, true⟩ } := by
  simp [returnOf, hf, ht]

/-- A `return` that is checked without a report stands in a function, and its value has no known
type other than the one to be returned. -/
theorem returnOf_clean {c : Checker} {line : Nat} {received : Option Ty}
    (h : (c.returnOf line received).Clean) :
    c.Clean ∧ ∃ f, c.current = some f ∧
      ∀ t u : Ty, f.signature.returns = some t → received = some u → t = u := by
  cases hf : c.current with
  | none => simp [returnOf, hf] at h
  | some f =>
    cases ht : f.signature.returns with
    | none =>
      simp only [returnOf, hf, ht] at h
      exact ⟨h, f, rfl, by simp [ht]⟩
    | some t =>
      cases received with
      | none =>
        simp only [returnOf, hf, ht] at h
        exact ⟨h, f, rfl, by simp⟩
      | some u =>
        by_cases hu : t = u
        · simp only [returnOf, hf, ht, hu, if_true] at h
          refine ⟨h, f, rfl, ?_⟩
          intro t' u' ht' hu'
          rw [ht] at ht'
          rw [← Option.some.inj ht', ← Option.some.inj hu', hu]
        · simp [returnOf, hf, ht, hu] at h

/-! ## Functions -/

/-- A new function is noted with its line. -/
theorem declareFunction_eq {c : Checker} {line : Nat} {name : String}
    (h : c.declared.lookup name = none) :
    c.declareFunction line name = (true, { c with declared := c.declared ++ [(name, line)] }) := by
  simp only [declareFunction, h]

/-- A function that is noted without a report is new. -/
theorem declareFunction_clean {c : Checker} {line : Nat} {name : String}
    (h : (c.declareFunction line name).2.Clean) : c.Clean ∧ c.declared.lookup name = none := by
  cases hd : c.declared.lookup name with
  | some previous => simp [declareFunction, hd] at h
  | none =>
    simp only [declareFunction, hd] at h
    exact ⟨h, rfl⟩

/-- Parameters with the given types. -/
def typedParams (ps : List Param) (ts : List Ty) : List CheckedParam :=
  List.zipWith (fun p t => ⟨p.name, some t⟩) ps ts

/-- Parameters that are declared with types are as many as the types. -/
theorem length_of_types {ps : List Param} {ts : List Ty}
    (h : ts.map Ty.name = ps.map fun p => p.type.name) : ps.length = ts.length := by
  have hlen := congrArg List.length h
  rw [List.length_map, List.length_map] at hlen
  exact hlen.symm

/-- Parameters with types keep their names. -/
theorem typedParams_names {ps : List Param} {ts : List Ty} (h : ps.length = ts.length) :
    (typedParams ps ts).map CheckedParam.name = ps.map Param.name := by
  induction ps generalizing ts with
  | nil => simp [typedParams]
  | cons p ps ih =>
    cases ts with
    | nil => simp at h
    | cons t ts =>
      have := @ih ts (by simpa using h)
      simpa [typedParams] using this

/-- Parameters with types have these types. -/
theorem typedParams_types {ps : List Param} {ts : List Ty} (h : ps.length = ts.length) :
    (typedParams ps ts).map CheckedParam.ty = ts.map some := by
  induction ps generalizing ts with
  | nil =>
    cases ts with
    | nil => rfl
    | cons t ts => simp at h
  | cons p ps ih =>
    cases ts with
    | nil => simp at h
    | cons t ts =>
      have := @ih ts (by simpa using h)
      simpa [typedParams] using this

/-- Parameters whose annotations are types get these types, without a report. -/
theorem params_eq {c : Checker} {ps : List Param} {ts : List Ty}
    (h : ts.map Ty.name = ps.map fun p => p.type.name) : c.params ps = (typedParams ps ts, c) := by
  induction ps generalizing ts with
  | nil => simp [params, typedParams]
  | cons p ps ih =>
    cases ts with
    | nil => simp at h
    | cons t ts =>
      simp only [List.map_cons, List.cons.injEq] at h
      simp [params, typedParams, resolve_eq h.1, ih h.2]

/-- Parameters that are checked without a report have annotations that are types. -/
theorem params_clean {c : Checker} {ps : List Param} (h : (c.params ps).2.Clean) :
    c.Clean ∧ ∃ ts : List Ty, ts.map Ty.name = ps.map fun p => p.type.name := by
  induction ps generalizing c with
  | nil => exact ⟨h, [], rfl⟩
  | cons p ps ih =>
    -- The annotation of the first parameter is resolved before the others are looked at.
    have hrest : ((c.resolve p.type).2.params ps).2.Clean := h
    obtain ⟨hc, ts, hts⟩ := ih hrest
    obtain ⟨hc, t, ht⟩ := resolve_clean hc
    exact ⟨hc, t :: ts, by simp [ht, hts]⟩

/-- A signature in which nothing is wrong: annotations that are types, distinct names, and an entry
that takes nothing and returns an integer. -/
theorem signature_eq {c : Checker} {line : Nat} {name : String} {ps : List Param}
    {returns : TypeName} {ts : List Ty} {t : Ty}
    (hps : ts.map Ty.name = ps.map fun p => p.type.name) (hn : (ps.map Param.name).Nodup)
    (ht : t.name = returns.name) (he : name = entryName → ps = [] ∧ t = .int) :
    c.signature line name ps returns = (typedParams ps ts, some t, c) := by
  have hlen := length_of_types hps
  -- What the entry has to look like is checked last, on what was made of the signature.
  have hgood : ¬ (name = entryName ∧ (typedParams ps ts ≠ [] ∨ (some t).any (· ≠ .int))) := by
    rintro ⟨hname, hbad⟩
    obtain ⟨rfl, rfl⟩ := he hname
    simp [typedParams] at hbad
  simp only [signature, params_eq hps, typedParams_names hlen, if_pos hn, resolve_eq ht,
    if_neg hgood]

/-- Nothing is wrong with a signature that is checked without a report. The types of all parameters
and of the result are known, no two parameters have one name, and the entry has no parameters and
returns an integer. -/
theorem signature_clean {c : Checker} {line : Nat} {name : String} {ps : List Param}
    {returns : TypeName} (h : (c.signature line name ps returns).2.2.Clean) :
    c.Clean ∧ ∃ (ts : List Ty) (t : Ty), (ts.map Ty.name = ps.map fun p => p.type.name) ∧
      (ps.map Param.name).Nodup ∧ t.name = returns.name ∧
      (name = entryName → ps = [] ∧ t = .int) := by
  simp only [signature, clean_when] at h
  obtain ⟨hresult, hentry⟩ := h
  -- From the last test to the first: the entry, the result, the names, the annotations.
  obtain ⟨hparams, t, ht⟩ := resolve_clean hresult
  rw [clean_unless] at hparams
  obtain ⟨hc, ts, hts⟩ := params_clean hparams.1
  have hlen := length_of_types hts
  have hn := hparams.2
  rw [params_eq hts, typedParams_names hlen] at hn
  refine ⟨hc, ts, t, hts, hn, ht, ?_⟩
  intro hname
  rw [params_eq hts, typedParams_names hlen, if_pos hn, resolve_eq ht] at hentry
  have hgood := not_or.mp (not_and.mp hentry hname)
  constructor
  · have hnil := congrArg (List.map CheckedParam.name) (not_not.mp hgood.1)
    rw [typedParams_names hlen] at hnil
    simpa using hnil
  · simpa using hgood.2

/-- A symbol for a parameter of a function declared at a line. -/
def paramSymbol (line : Nat) (p : CheckedParam) : Symbol := ⟨p.name, p.ty, false, line⟩

/-- The parameters of a function are bound in order when their names are distinct and new. The
journal gets an entry for each of them, and no entry is a report. -/
theorem declareParams_eq (line : Nat) {ps : List CheckedParam} {c : Checker}
    (hn : (ps.map CheckedParam.name).Nodup)
    (hl : ∀ p ∈ ps, c.scope.lookupLocal? p.name = none) :
    ∃ journal, ps.foldl (fun c p => c.declareFirst ⟨p.name, p.ty, false, line⟩) c =
        { c with
          scope := { c.scope with symbols := c.scope.symbols ++ ps.map (paramSymbol line) }
          journal := c.journal ++ journal } ∧
      ∀ e ∈ journal, e.diagnostic? = none := by
  induction ps generalizing c with
  | nil => exact ⟨[], by simp, by simp⟩
  | cons p ps ih =>
    simp only [List.map_cons, List.nodup_cons] at hn
    have hfirst : c.declareFirst ⟨p.name, p.ty, false, line⟩ = c.bound (paramSymbol line p) :=
      declareFirst_eq (hl p List.mem_cons_self)
    -- The first parameter is bound now, but under a name that the others do not have.
    have hrest : ∀ q ∈ ps, (c.bound (paramSymbol line p)).scope.lookupLocal? q.name = none := by
      intro q hq
      have hne : p.name ≠ q.name := fun h => hn.1 (h ▸ List.mem_map_of_mem hq)
      have hnone := hl q (List.mem_cons_of_mem _ hq)
      simp only [Scope.lookupLocal?] at hnone
      simp [Scope.lookupLocal?, bound, List.find?_append, hnone, paramSymbol, hne]
    obtain ⟨journal, heq, hj⟩ := ih hn.2 hrest
    refine ⟨.declared (paramSymbol line p) c.scope.isGlobal :: journal, ?_, ?_⟩
    · rw [List.foldl_cons, hfirst, heq]
      simp [bound]
    · simpa [Event.diagnostic?] using hj

/-- The body of a function starts in a scope of its own with the parameters in it. The parameters
are new there, so each of them is bound if no two have one name. -/
theorem enter_eq {c : Checker} {s : Signature} {ps : List CheckedParam}
    (hn : (ps.map CheckedParam.name).Nodup) :
    ∃ journal, c.enter s ps =
        { c with
          scope := ⟨ps.map (paramSymbol s.line), c.scope.symbols :: c.scope.outer⟩
          current := some ⟨s, false, false⟩
          journal := c.journal ++ journal } ∧
      ∀ e ∈ journal, e.diagnostic? = none := by
  have hempty : ∀ x, (c.scope.nested).lookupLocal? x = none := fun x => rfl
  let inside : Checker := { c.log (.enteredBody s.name s.line) with
    scope := c.scope.nested, current := some ⟨s, false, false⟩ }
  obtain ⟨journal, heq, hj⟩ := declareParams_eq s.line (c := inside) hn (fun p _ => hempty p.name)
  refine ⟨.enteredBody s.name s.line :: journal, ?_, ?_⟩
  · refine heq.trans ?_
    simp [inside, log, Scope.nested]
  · simpa [Event.diagnostic?] using hj

theorem declareFirst_clean {c : Checker} {symbol : Symbol} (h : (c.declareFirst symbol).Clean) :
    c.Clean := by
  cases hl : c.scope.lookupLocal? symbol.name with
  | none => rwa [declareFirst_eq hl, clean_bound] at h
  | some existing => simpa [declareFirst, declare, Scope.declare, hl] using h

/-- Entering a body reports nothing, whatever the names of the parameters. A name that is taken is
dropped in silence, as the signature has reported it before. -/
theorem clean_of_enter {c : Checker} {s : Signature} {ps : List CheckedParam}
    (h : (c.enter s ps).Clean) : c.Clean := by
  have hfold : ∀ (ps : List CheckedParam) (d : Checker),
      (ps.foldl (fun c p => c.declareFirst ⟨p.name, p.ty, false, s.line⟩) d).Clean → d.Clean := by
    intro ps
    induction ps with
    | nil => exact fun d hd => hd
    | cons p ps ih => exact fun d hd => declareFirst_clean (ih _ hd)
  have hlog := hfold ps _ h
  refine (clean_iff_of_journal [.enteredBody s.name s.line] rfl ?_).mp hlog
  simp [Event.diagnostic?]

/-- A new function all of whose `return`s have its type may be called behind its body. -/
theorem exit_eq {c : Checker} {s t : Signature} (h : c.current = some ⟨t, true, true⟩) :
    c.exit s true =
      { c with scope := c.scope.leave, current := none, callable := c.callable ++ [s] } := by
  simp [exit, h]

theorem exit_clean {c : Checker} {s : Signature} {isNew : Bool} (h : (c.exit s isNew).Clean) :
    c.Clean ∧ ∀ f, c.current = some f → f.sawReturn = true := by
  cases hf : c.current with
  | none =>
    simp only [exit, hf] at h
    exact ⟨h, by simp⟩
  | some f =>
    cases hs : f.sawReturn with
    | false => simp [exit, hf, hs] at h
    | true =>
      simp only [exit, hf, hs, Bool.not_true, Bool.false_eq_true, if_false] at h
      refine ⟨?_, ?_⟩
      · split at h <;> exact h
      · rintro g hg
        rw [← Option.some.inj hg, hs]

/-! ## All statements -/

/-- The checker at the start of the body of a function with the given types. -/
def opened (c : Checker) (line : Nat) (name : String) (ps : List Param) (ts : List Ty) (t : Ty) :
    Checker :=
  ({ c with declared := c.declared ++ [(name, line)] }).enter
    ⟨name, ts.map some, some t, line⟩ (typedParams ps ts)

/-- A function outside of functions, with a new name and a good signature. Every test of the checker
is passed, so what is left is the body between its opening and its end. -/
theorem stmt_function_eq {c : Checker} {span : Span} {name : String} {ps : List Param}
    {returns : TypeName} {body : List Stmt} {ts : List Ty} {t : Ty}
    (hd : c.declared.lookup name = none)
    (hps : ts.map Ty.name = ps.map fun p => p.type.name) (hn : (ps.map Param.name).Nodup)
    (ht : t.name = returns.name) (he : name = entryName → ps = [] ∧ t = .int)
    (hcur : c.current = none) (hglobal : c.scope.outer = []) :
    c.stmt (.function span name ps returns body) =
      let inside := (c.opened span.line name ps ts t).block body
      (.function ⟨some t, span.line⟩ name (typedParams ps ts) (some t) inside.1,
        inside.2.exit ⟨name, ts.map some, some t, span.line⟩ true) := by
  have hlen := length_of_types hps
  simp only [stmt, declareFunction_eq hd, signature_eq hps hn ht he, hcur, Scope.isGlobal, hglobal,
    Option.isSome_none, List.isEmpty_nil, Bool.not_true, Bool.or_false, Bool.false_eq_true,
    if_false, typedParams_types hlen, opened]

mutual

/-- What was reported before a statement is still reported behind it. Reports are only ever added,
so a program that ends without one has had none anywhere. -/
theorem clean_of_stmt {c : Checker} : {s : Stmt} → (c.stmt s).2.Clean → c.Clean
  | .print _ _, h => (expr_clean h).1
  | .var _ _ _ none, h => (declareVar_clean h).1
  | .var _ _ _ (some _), h => (expr_clean (declareVar_clean h).1).1
  | .const _ _ _, h => (expr_clean (declareConst_clean h).1).1
  | .write _ _ _, h => (expr_clean (writeTo_clean h).1).1
  | .branch _ _ _ _, h => (condition_clean (clean_of_block (clean_of_block h))).1
  | .loop _ _ _, h => (condition_clean (clean_of_block h)).1
  | .function _ name ps returns body, h => by
    rw [stmt] at h
    dsimp only at h
    split at h
    · exact absurd h (not_clean_report _ _ _)
    · have hsig := clean_of_enter (clean_of_block (exit_clean h).1)
      exact (declareFunction_clean (signature_clean hsig).1).1
  | .ret _ _, h => (expr_clean (returnOf_clean h).1).1

/-- What was reported before a block is still reported behind it. -/
theorem clean_of_block {c : Checker} : {ss : List Stmt} → (c.block ss).2.Clean → c.Clean
  | [], h => h
  | _ :: _, h => clean_of_stmt (clean_of_block h)

end

/-- A function that checks without a diagnostic: its name is new, its signature is good, it is
outside of functions, and its body has a `return` and checks without one either. -/
theorem stmt_function_clean {c : Checker} {span : Span} {name : String} {ps : List Param}
    {returns : TypeName} {body : List Stmt}
    (h : (c.stmt (.function span name ps returns body)).2.Clean) :
    c.declared.lookup name = none ∧ c.current = none ∧ c.scope.outer = [] ∧
      ∃ (ts : List Ty) (t : Ty), (ts.map Ty.name = ps.map fun p => p.type.name) ∧
        (ps.map Param.name).Nodup ∧ t.name = returns.name ∧
        (name = entryName → ps = [] ∧ t = .int) ∧
        ((c.opened span.line name ps ts t).block body).2.Clean ∧
        ∀ f, ((c.opened span.line name ps ts t).block body).2.current = some f →
          f.sawReturn = true := by
  have hstmt := h
  rw [stmt] at h
  dsimp only at h
  split at h
  · exact absurd h (not_clean_report _ _ _)
  rename_i hplace
  have hsig := clean_of_enter (clean_of_block (exit_clean h).1)
  obtain ⟨hdecl, ts, t, hps, hn, ht, he⟩ := signature_clean hsig
  have hd := (declareFunction_clean hdecl).2
  simp only [declareFunction_eq hd, signature_eq hps hn ht he, Scope.isGlobal, Bool.not_eq_true,
    Bool.or_eq_false_iff, Option.isSome_eq_false_iff, Option.isNone_iff_eq_none,
    Bool.not_eq_false', List.isEmpty_iff] at hplace
  rw [stmt_function_eq hd hps hn ht he hplace.1 hplace.2] at hstmt
  obtain ⟨hbody, hret⟩ := exit_clean hstmt
  exact ⟨hd, hplace.1, hplace.2, ts, t, hps, hn, ht, he, hbody, hret⟩

end Checker

end Pulse

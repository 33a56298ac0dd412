/-
The checker reports nothing exactly when the typing rules give a derivation.

The two sides are joined by `Agrees`, which says that a state of the checker and an environment of
the rules know the same: the same bindings in the same scopes, the same functions to call, the same
open body. A derivation keeps the two in agreement and makes the checker report nothing; and a
checker that reports nothing, started in agreement, leaves a derivation to be read off its steps.
Agreement says in particular that no type is missing in the state. It is kept along programs
without diagnostics only, which is all that is needed.
-/
import Pulse.Proofs.CheckerSteps
import Pulse.Proofs.TypingRules
import Mathlib.Data.List.Forall2

set_option autoImplicit false

namespace Pulse

open Rules

/-! ## The tables of the operators -/

/-- The table of the binary operators holds what the rules allow. Both operands have the same type
in every rule. -/
theorem Ty.binary?_eq_some {op : BinaryOp} {t u v : Ty} :
    Ty.binary? op t u = some v ↔ BinaryRule op t u v := by
  constructor
  · intro h
    -- The table is split by its operators only where the two types are the same.
    by_cases htu : t = u
    · subst htu
      cases op with
      | arith op =>
        cases t <;> simp [Ty.binary?] at h <;> subst h
        · exact .int op
        · exact .float op
      | compare op =>
        cases t with
        | bool =>
          cases op <;> simp [Ty.binary?, CompareOp.isEquality] at h <;> subst h
          · exact .equals
          · exact .notEquals
        | _ =>
          simp only [Ty.binary?, ne_eq, not_true_eq_false, if_false, Option.some.injEq] at h
          subst h
          exact .order op _ (by decide)
      | logic op =>
        cases t <;> simp [Ty.binary?] at h
        subst h
        exact .logic op
    · simp [Ty.binary?, htu] at h
  · rintro (_ | _ | ⟨op, t, h⟩ | _ | _ | _)
    case order =>
      cases t with
      | bool => exact absurd rfl h
      | _ => rfl
    all_goals rfl

/-- The table of the unary operators holds what the rules allow. -/
theorem Ty.unary?_eq_some {op : UnaryOp} {t u : Ty} :
    Ty.unary? op t = some u ↔ UnaryRule op t u := by
  constructor
  · intro h
    cases op <;> cases t <;> simp [Ty.unary?] at h <;> subst h <;> constructor
  · rintro (_ | _ | _ | _ | _) <;> rfl

/-- A name may be declared when it is not that of a type. -/
theorem declarable_iff {x : String} : Declarable x ↔ ¬ Ty.isTypeName x = true := by
  rw [Ty.isTypeName_iff, not_exists]
  exact Iff.rfl

/-! ## Agreement -/

/-- The symbol and the binding say the same. -/
structure SymbolIs (s : Symbol) (b : Binding) : Prop where
  name : s.name = b.name
  ty : s.ty = some b.ty
  isConst : s.isConst = b.isConst

/-- The signature and the callee say the same. -/
structure SignatureIs (s : Signature) (k : Callee) : Prop where
  name : s.name = k.name
  params : s.params = k.params.map some
  returns : s.returns = some k.returns

/-- The open function of the checker and the body that the environment is in. All `return`s so far
had the right type, and `seen` tells whether there were any. -/
def BodyIs (seen : Bool) : Option OpenFunction → Option Body → Prop
  | none, none => True
  | some f, some b =>
    SignatureIs f.signature b.callee ∧ f.sawReturn = seen ∧ f.matchingReturn = seen
  | _, _ => False

/-- Inside of a body the checker has a function open, with the signature of the body. -/
theorem BodyIs.open_of_some {seen : Bool} {current : Option OpenFunction} {b : Body}
    (h : BodyIs seen current (some b)) : ∃ f, current = some f ∧
      SignatureIs f.signature b.callee ∧ f.sawReturn = seen ∧ f.matchingReturn = seen := by
  cases current with
  | none => exact h.elim
  | some f => exact ⟨f, rfl, h⟩

/-- Outside of functions the checker has none open. -/
theorem BodyIs.open_of_none {seen : Bool} {current : Option OpenFunction}
    (h : BodyIs seen current none) : current = none := by
  cases current with
  | none => rfl
  | some f => exact h.elim

/-- Where the checker has a function open, the environment is in its body. -/
theorem BodyIs.body_of_some {seen : Bool} {f : OpenFunction} {body : Option Body}
    (h : BodyIs seen (some f) body) : ∃ b, body = some b ∧ SignatureIs f.signature b.callee := by
  cases body with
  | none => exact h.elim
  | some b => exact ⟨b, rfl, h.1⟩

/-- Where the checker has none open, the environment is outside of functions. -/
theorem BodyIs.body_of_none {seen : Bool} {body : Option Body} (h : BodyIs seen none body) :
    body = none := by
  cases body with
  | none => rfl
  | some b => exact h.elim

/-- The checker and the environment know the same. -/
structure Agrees (c : Checker) (Γ : Env) (seen : Bool) : Prop where
  inner : List.Forall₂ SymbolIs c.scope.symbols Γ.inner
  outer : List.Forall₂ (List.Forall₂ SymbolIs) c.scope.outer Γ.outer
  body : BodyIs seen c.current Γ.body
  complete : List.Forall₂ SignatureIs c.callable Γ.complete
  distinct : (Γ.callable.map Callee.name).Nodup
  declared : ∀ x, c.declared.lookup x = none ↔ x ∉ Γ.callable.map Callee.name

section Lookup

variable {α β : Type} {R : α → β → Prop}

/-- Searching two lists that are related position by position for related things. -/
theorem forall₂_find? {l : List α} {m : List β} {p : α → Bool} {q : β → Bool}
    (h : List.Forall₂ R l m) (hpq : ∀ a b, R a b → p a = q b) :
    Option.Rel R (l.find? p) (m.find? q) := by
  induction h with
  | nil => exact .none
  | @cons a b l m hab _ ih =>
    rw [List.find?_cons, List.find?_cons, ← hpq a b hab]
    cases p a with
    | true => exact .some hab
    | false => exact ih

/-- The same for lists of lists, which are searched from the first to the last: this is how scopes
are searched. -/
theorem forall₂_findSome? {l : List (List α)} {m : List (List β)} {p : α → Bool} {q : β → Bool}
    (h : List.Forall₂ (List.Forall₂ R) l m) (hpq : ∀ a b, R a b → p a = q b) :
    Option.Rel R (l.findSome? fun as => as.find? p) (m.findSome? fun bs => bs.find? q) := by
  induction h with
  | nil => exact .none
  | @cons as bs l m hab _ ih =>
    have hfind := forall₂_find? hab hpq
    rw [List.findSome?_cons, List.findSome?_cons]
    generalize as.find? p = a at hfind ⊢
    generalize bs.find? q = b at hfind ⊢
    cases hfind with
    | none => exact ih
    | some h => exact .some h

end Lookup

/-- With distinct names, a thing is found under its name. -/
theorem find?_eq_some {α β : Type} [DecidableEq β] {as : List α} {f : α → β}
    (h : (as.map f).Nodup) {a : α} (ha : a ∈ as) : (as.find? fun x => f x = f a) = some a := by
  obtain ⟨before, after, rfl⟩ := List.append_of_mem ha
  rw [List.map_append, List.map_cons, List.nodup_append] at h
  rw [List.find?_eq_some_iff_append]
  refine ⟨by simp, before, after, rfl, ?_⟩
  intro x hx
  have hne := h.2.2 (f x) (List.mem_map_of_mem hx) (f a) List.mem_cons_self
  simpa using hne

namespace Agrees

variable {c : Checker} {Γ : Env} {seen : Bool}

/-- Both sides find the same innermost binding of a name. The scopes agree position by position, so
the search goes the same way. -/
theorem lookup? (h : Agrees c Γ seen) (x : String) :
    Option.Rel SymbolIs (c.scope.lookup? x) (Γ.lookup? x) :=
  forall₂_findSome? (.cons h.inner h.outer) fun a b hab => by rw [hab.name]

/-- A name is bound in the innermost scope on both sides or on none. -/
theorem lookupLocal? (h : Agrees c Γ seen) (x : String) :
    c.scope.lookupLocal? x = none ↔ ∀ b ∈ Γ.inner, b.name ≠ x := by
  have hrel : Option.Rel SymbolIs (c.scope.lookupLocal? x) (Γ.inner.find? fun b => b.name = x) :=
    forall₂_find? h.inner fun a b hab => by rw [hab.name]
  have hnone : c.scope.lookupLocal? x = none ↔ Γ.inner.find? (fun b => b.name = x) = none := by
    generalize c.scope.lookupLocal? x = s at hrel ⊢
    generalize Γ.inner.find? (fun b => b.name = x) = b at hrel ⊢
    cases hrel <;> simp
  rw [hnone, List.find?_eq_none]
  simp

/-- Both sides find the same function to call under a name. The function whose body is open comes
first, and then those that are complete, in the order in which they became so. -/
theorem callee? (h : Agrees c Γ seen) (f : String) :
    Option.Rel SignatureIs (c.callee? f) (Γ.callable.find? fun k => k.name = f) := by
  have hcomplete : Option.Rel SignatureIs (c.callable.find? fun s => s.name = f)
      (Γ.complete.find? fun k => k.name = f) :=
    forall₂_find? h.complete fun a b hab => by rw [hab.name]
  have hbody := h.body
  simp only [Checker.callee?, Env.callable]
  cases hcur : c.current with
  | none =>
    rw [hcur] at hbody
    rw [hbody.body_of_none]
    simpa using hcomplete
  | some g =>
    -- The function that is open comes first on both sides.
    rw [hcur] at hbody
    obtain ⟨b, hb, hg⟩ := hbody.body_of_some
    rw [hb]
    by_cases hname : g.signature.name = f
    · have hname' : b.callee.name = f := hg.name ▸ hname
      simp only [hname, hname', if_true, Option.map_some, Option.toList_some,
        List.singleton_append, decide_true, List.find?_cons_of_pos]
      exact .some hg
    · have hname' : b.callee.name ≠ f := hg.name ▸ hname
      simpa [hname, hname'] using hcomplete

/-- A function that may be called is found by the checker. -/
theorem callee?_of_mem (h : Agrees c Γ seen) {k : Callee} (hk : k ∈ Γ.callable) :
    ∃ s, c.callee? k.name = some s ∧ SignatureIs s k := by
  have hrel := h.callee? k.name
  rw [find?_eq_some h.distinct hk] at hrel
  generalize hs : c.callee? k.name = found at hrel
  cases hrel with
  | some hsk => exact ⟨_, rfl, hsk⟩

/-- A function that the checker finds may be called. -/
theorem mem_of_callee? (h : Agrees c Γ seen) {f : String} {s : Signature}
    (hs : c.callee? f = some s) : ∃ k ∈ Γ.callable, k.name = f ∧ SignatureIs s k := by
  have hrel := h.callee? f
  rw [hs] at hrel
  generalize hk : Γ.callable.find? (fun k => k.name = f) = found at hrel
  cases hrel with
  | some hsk =>
    rename_i k
    exact ⟨k, List.mem_of_find?_eq_some hk, by simpa using List.find?_some hk, hsk⟩

/-- A free name on the one side is one on the other. -/
theorem free_iff (h : Agrees c Γ seen) (x : String) :
    Γ.Free x ↔ ¬ Ty.isTypeName x = true ∧ c.scope.lookupLocal? x = none := by
  rw [h.lookupLocal?, ← declarable_iff]
  exact ⟨fun hf => ⟨hf.declarable, hf.unbound⟩, fun hf => ⟨hf.1, hf.2⟩⟩

/-- Binding the same on both sides keeps them in agreement. The binding goes to the innermost scope,
so scopes around it, the open function and the functions that can be called stay as they are. -/
theorem bound (h : Agrees c Γ seen) {s : Symbol} {b : Binding} (hsb : SymbolIs s b) :
    Agrees (c.bound s) (Γ.bind b) seen where
  inner := by
    rw [Env.bind_inner]
    exact List.rel_append h.inner (.cons hsb .nil)
  outer := by
    rw [Env.bind_outer]
    exact h.outer
  body := by
    have hbody := h.body
    show BodyIs seen c.current (Γ.bind b).body
    unfold Env.bind
    cases hb : Γ.body with
    | none => rwa [hb] at hbody
    | some body =>
      -- The new binding is local, and the callee stays.
      rw [hb] at hbody
      obtain ⟨f, hf, hrest⟩ := hbody.open_of_some
      rw [hf]
      exact hrest
  complete := by
    rw [Env.bind_complete]
    exact h.complete
  distinct := by
    rw [Env.bind_callable]
    exact h.distinct
  declared := by
    rw [Env.bind_callable]
    exact h.declared

end Agrees

/-! ## Expressions -/

section Expressions

variable {c : Checker} {Γ : Env} {seen : Bool}

mutual

/-- A derivation for an expression makes the checker find its type and report nothing. One case for
each rule; the lookups of names and functions give the same on both sides. -/
theorem expr_of_hasType (h : Agrees c Γ seen) {e : Expr Span} {t : Ty} :
    HasType Γ e t → (c.context.expr e).1.ty = some t ∧ (c.context.expr e).2 = []
  | .literal => ⟨rfl, rfl⟩
  | .read (x := x) (b := b) hb => by
    have hrel := h.lookup? x
    rw [hb] at hrel
    generalize hs : c.scope.lookup? x = found at hrel
    cases hrel with
    | some hsb => simp [Context.expr, Context.read, Checker.context, hs, hsb.ty]
  | .binary hl hr rule => by
    obtain ⟨htl, hfl⟩ := expr_of_hasType h hl
    obtain ⟨htr, hfr⟩ := expr_of_hasType h hr
    simp [Context.expr, Context.binary, htl, htr, hfl, hfr, Ty.binary?_eq_some.mpr rule]
  | .unary he rule => by
    obtain ⟨ht, hf⟩ := expr_of_hasType h he
    simp [Context.expr, Context.unary, ht, hf, Ty.unary?_eq_some.mpr rule]
  | .call (k := k) hk hargs => by
    obtain ⟨hts, hf⟩ := exprs_of_haveTypes h hargs
    obtain ⟨s, hs, hsk⟩ := h.callee?_of_mem hk
    have hcall : ∀ line, c.context.call line k.name (k.params.map some) = (s.returns, []) :=
      fun line => Context.call_eq hs hsk.params
    simp [Context.expr, hts, hf, hcall, hsk.returns]

/-- Derivations for arguments make the checker find their types, in order, and report nothing. -/
theorem exprs_of_haveTypes (h : Agrees c Γ seen) {es : List (Expr Span)} {ts : List Ty} :
    HaveTypes Γ es ts →
      (c.context.exprs es).1.map Expr.ty = ts.map some ∧ (c.context.exprs es).2 = []
  | .nil => ⟨rfl, rfl⟩
  | .cons he hes => by
    obtain ⟨ht, hf⟩ := expr_of_hasType h he
    obtain ⟨hts, hfs⟩ := exprs_of_haveTypes h hes
    simp [Context.exprs, ht, hf, hts, hfs]

end

mutual

-- The types of the operands come from the other direction: once an operand has a derivation, the
-- checker found the type of that derivation.

/-- An expression in which the checker finds nothing to report has a derivation. By recursion on the
expression. Its parts have derivations first, and with the types of these the rule of the whole is
the one case that the checker does not report. -/
theorem hasType_of_expr (h : Agrees c Γ seen) :
    (e : Expr Span) → (c.context.expr e).2 = [] → ∃ t, HasType Γ e t
  | .literal _ v, _ => ⟨v.ty, .literal⟩
  | .read span x, hf => by
    have hrel := h.lookup? x
    cases hs : c.scope.lookup? x with
    | none => simp [Context.expr, Context.read, Checker.context, hs] at hf
    | some s =>
      rw [hs] at hrel
      generalize hb : Γ.lookup? x = found at hrel
      cases hrel with
      | some hsb => exact ⟨_, .read hb⟩
  | .binary span op left right, hf => by
    simp only [Context.expr, List.append_eq_nil_iff] at hf
    obtain ⟨⟨hl, hr⟩, hop⟩ := hf
    obtain ⟨t, ht⟩ := hasType_of_expr h left hl
    obtain ⟨u, hu⟩ := hasType_of_expr h right hr
    -- The types found are those of the derivations, and the operator was not reported.
    rw [(expr_of_hasType h ht).1, (expr_of_hasType h hu).1] at hop
    cases hv : Ty.binary? op t u with
    | none => simp [Context.binary, hv] at hop
    | some v => exact ⟨v, .binary ht hu (Ty.binary?_eq_some.mp hv)⟩
  | .unary span op operand, hf => by
    simp only [Context.expr, List.append_eq_nil_iff] at hf
    obtain ⟨t, ht⟩ := hasType_of_expr h operand hf.1
    have hop := hf.2
    rw [(expr_of_hasType h ht).1] at hop
    cases hv : Ty.unary? op t with
    | none => simp [Context.unary, hv] at hop
    | some v => exact ⟨v, .unary ht (Ty.unary?_eq_some.mp hv)⟩
  | .call span f arguments, hf => by
    simp only [Context.expr, List.append_eq_nil_iff] at hf
    obtain ⟨ts, hts⟩ := haveTypes_of_exprs h arguments hf.1
    have hcall := hf.2
    rw [(exprs_of_haveTypes h hts).1] at hcall
    cases hs : c.callee? f with
    | none => simp [Context.call, Checker.context, hs] at hcall
    | some s =>
      obtain ⟨k, hk, rfl, hsk⟩ := h.mem_of_callee? hs
      have hparams := Context.call_clean hs hsk.params hcall
      subst hparams
      exact ⟨k.returns, .call hk hts⟩

/-- Arguments in which the checker finds nothing to report have derivations. -/
theorem haveTypes_of_exprs (h : Agrees c Γ seen) :
    (es : List (Expr Span)) → (c.context.exprs es).2 = [] → ∃ ts, HaveTypes Γ es ts
  | [], _ => ⟨[], .nil⟩
  | e :: es, hf => by
    simp only [Context.exprs, List.append_eq_nil_iff] at hf
    obtain ⟨t, ht⟩ := hasType_of_expr h e hf.1
    obtain ⟨ts, hts⟩ := haveTypes_of_exprs h es hf.2
    exact ⟨t :: ts, .cons ht hts⟩

end

end Expressions

/-! ## Functions -/

section Functions

variable {c : Checker} {Γ : Env} {seen : Bool}

/-- The symbols of the parameters and the bindings at the start of the body. -/
theorem params_bound (line : Nat) {ps : List Param} {ts : List Ty} (h : ps.length = ts.length) :
    List.Forall₂ SymbolIs ((Checker.typedParams ps ts).map (Checker.paramSymbol line))
      (((ps.map Param.name).zip ts).map fun p => ⟨p.1, p.2, false⟩) := by
  induction ps generalizing ts with
  | nil => simp [Checker.typedParams]
  | cons p ps ih =>
    cases ts with
    | nil => simp at h
    | cons t ts =>
      refine .cons ⟨rfl, rfl, rfl⟩ ?_
      exact ih (by simpa using h)

/-- Outside of functions there is one scope and no open function. -/
theorem Agrees.outside (h : Agrees c Γ seen) (hb : Γ.body = none) :
    c.current = none ∧ c.scope.outer = [] := by
  constructor
  · have hbody := h.body
    rw [hb] at hbody
    exact hbody.open_of_none
  · have houter := h.outer
    simpa [Env.outer, hb] using houter

/-- Both sides agree at the start of the body of a new function. The parameters are bound on both
sides in the order in which they are written, and the function itself can be called. -/
theorem Agrees.opened (h : Agrees c Γ seen) (hb : Γ.body = none) (line : Nat) {k : Callee}
    {ps : List Param} (fresh : ∀ j ∈ Γ.complete, j.name ≠ k.name)
    (hps : k.params.map Ty.name = ps.map fun p => p.type.name) (hn : (ps.map Param.name).Nodup) :
    Agrees (c.opened line k.name ps k.params k.returns) (Γ.enter k (ps.map Param.name)) false ∧
      ((c.opened line k.name ps k.params k.returns).Clean ↔ c.Clean) := by
  have hlen := Checker.length_of_types hps
  have hnames : ((Checker.typedParams ps k.params).map CheckedParam.name).Nodup := by
    rwa [Checker.typedParams_names hlen]
  have hcallable : Γ.callable = Γ.complete := by simp [Env.callable, hb]
  have hcallable' : (Γ.enter k (ps.map Param.name)).callable = k :: Γ.complete := by
    simp [Env.callable, Env.enter]
  -- Entering leaves entries in the journal, for the scope and the parameters, but no report.
  obtain ⟨journal, heq, hj⟩ := Checker.enter_eq
    (c := { c with declared := c.declared ++ [(k.name, line)] })
    (s := ⟨k.name, k.params.map some, some k.returns, line⟩) hnames
  rw [Checker.opened, heq]
  refine ⟨?_, Checker.clean_iff_of_journal journal rfl hj⟩
  have hinner := h.inner
  rw [Env.inner, hb] at hinner
  constructor
  · exact params_bound line hlen
  · rw [(h.outside hb).2]
    exact .cons hinner .nil
  · exact ⟨⟨rfl, rfl, rfl⟩, rfl, rfl⟩
  · exact h.complete
  · rw [hcallable', List.map_cons, List.nodup_cons]
    refine ⟨?_, hcallable ▸ h.distinct⟩
    intro hmem
    obtain ⟨j, hj, hname⟩ := List.mem_map.mp hmem
    exact fresh j hj hname
  · intro x
    have hd := h.declared x
    rw [hcallable] at hd
    rw [hcallable', List.lookup_append, Option.or_eq_none_iff, hd]
    by_cases hx : x = k.name
    · simp [hx]
    · have hne : (x == k.name) = false := by simpa using hx
      simp [hx, List.lookup_cons, hne]

/-- What the checker does with a function that the rules allow. The conditions of the rule are those
that the checker tests, in the terms of the environment. -/
theorem Agrees.stmt_function (h : Agrees c Γ seen) (outside : Γ.body = none) {k : Callee}
    {ps : List Param} {returns : TypeName} (fresh : ∀ j ∈ Γ.complete, j.name ≠ k.name)
    (params : k.params.map Ty.name = ps.map fun p => p.type.name)
    (distinct : (ps.map Param.name).Nodup) (result : k.returns.name = returns.name)
    (entry : k.name = entryName → ps = [] ∧ k.returns = .int) (span : Span) (body : List Stmt) :
    c.stmt (.function span k.name ps returns body) =
      let inside := (c.opened span.line k.name ps k.params k.returns).block body
      (.function ⟨some k.returns, span.line⟩ k.name (Checker.typedParams ps k.params)
        (some k.returns) inside.1,
        inside.2.exit ⟨k.name, k.params.map some, some k.returns, span.line⟩ true) := by
  have hd : c.declared.lookup k.name = none := by
    rw [h.declared]
    simpa [Env.callable, outside] using fresh
  obtain ⟨hcur, hglobal⟩ := h.outside outside
  exact Checker.stmt_function_eq hd params distinct result entry hcur hglobal

/-- Both sides agree behind a function when they do at the end of its body. The scope of the body is
dropped, and the function joins the ones that may be called. -/
theorem Agrees.exit {Γ' : Env} {s : Signature} {k : Callee} (h : Agrees c Γ' true) (seen : Bool)
    (hΓ' : Γ'.Within k Γ.globals Γ.complete) (hb : Γ.body = none) (hs : SignatureIs s k) :
    Agrees (c.exit s true) (Γ.finish k) seen ∧ ((c.exit s true).Clean ↔ c.Clean) := by
  obtain ⟨body, hbody, rfl⟩ := Option.map_eq_some_iff.mp hΓ'.callee_eq
  have hcur := h.body
  rw [hbody] at hcur
  obtain ⟨⟨t, saw, matching⟩, hf, -, rfl, rfl⟩ := hcur.open_of_some
  rw [Checker.exit_eq hf]
  have hcallable : Γ'.callable = body.callee :: Γ.complete := by
    simp [Env.callable, hbody, hΓ'.complete_eq]
  have hcallable' : (Γ.finish body.callee).callable = Γ.complete ++ [body.callee] := by
    simp [Env.callable, Env.finish, hb]
  -- The function was the first one to look up while its body was open, and is the last one now.
  -- Names are distinct, so the order does not matter.
  have hperm : List.Perm (Γ.complete ++ [body.callee]) (body.callee :: Γ.complete) :=
    List.perm_append_comm
  -- The body has one scope around it, and that is the scope that the function is left into.
  have houter := h.outer
  rw [Env.outer, hbody, hΓ'.globals_eq] at houter
  obtain ⟨gs, hgs, hscope⟩ : ∃ gs, List.Forall₂ SymbolIs gs Γ.globals ∧
      c.scope.leave = ⟨gs, []⟩ := by
    obtain ⟨gs, rest, hgs, hrest, heq⟩ := List.forall₂_cons_right_iff.mp houter
    rw [List.forall₂_nil_right_iff] at hrest
    exact ⟨gs, hgs, by simp [Scope.leave, heq, hrest]⟩
  refine ⟨?_, Iff.rfl⟩
  constructor
  · simpa [hscope, Env.inner, Env.finish, hb] using hgs
  · simp [hscope, Env.outer, Env.finish, hb]
  · simp [Env.finish, hb, BodyIs]
  · have hcomplete := h.complete
    rw [hΓ'.complete_eq] at hcomplete
    exact List.rel_append hcomplete (.cons hs .nil)
  · rw [hcallable', (hperm.map Callee.name).nodup_iff, ← hcallable]
    exact h.distinct
  · intro x
    rw [hcallable', (hperm.map Callee.name).mem_iff, ← hcallable]
    exact h.declared x

end Functions

/-! ## Statements -/

/-- A `return` inside of a function. From here on the function has returned a value of its type, and
nothing else changes. -/
theorem Agrees.returned {c : Checker} {Γ : Env} {seen : Bool} {b : Body} (h : Agrees c Γ seen)
    (hb : Γ.body = some b) (line : Nat) :
    Agrees (c.returnOf line (some b.callee.returns)) Γ true ∧
      ((c.returnOf line (some b.callee.returns)).Clean ↔ c.Clean) := by
  have hbody := h.body
  rw [hb] at hbody
  obtain ⟨f, hf, hsignature, -⟩ := hbody.open_of_some
  rw [Checker.returnOf_eq hf hsignature.returns]
  refine ⟨⟨h.inner, h.outer, ?_, h.complete, h.distinct, h.declared⟩, Iff.rfl⟩
  rw [hb]
  exact ⟨hsignature, rfl, rfl⟩

mutual

/-- A derivation for a statement keeps both sides in agreement and nothing is reported. By induction
on the derivation. With the agreement it is also tracked whether a `return` was seen, which is what
makes a function complete behind its body. -/
theorem stmt_of_typed {c : Checker} {Γ Γ' : Env} {seen : Bool} {s : Stmt} :
    StmtTyped Γ s Γ' → Agrees c Γ seen → c.Clean →
      Agrees (c.stmt s).2 Γ' (seen || hasReturn s) ∧ (c.stmt s).2.Clean
  | .print he, h, hc => by
    have hf := (expr_of_hasType h he).2
    simpa [Checker.stmt, Checker.expr, hf, hasReturn] using ⟨h, hc⟩
  | .var (x := x) (t := t) free named, h, hc => by
    obtain ⟨hx, hl⟩ := (h.free_iff x).mp free
    simp only [Checker.stmt, Checker.expr?, Option.bind_none, hasReturn, Bool.or_false]
    rw [Checker.declareVar_eq hx hl named (.inl rfl), Checker.clean_bound]
    exact ⟨h.bound ⟨rfl, rfl, rfl⟩, hc⟩
  | .varWith (x := x) (t := t) he free named, h, hc => by
    obtain ⟨hx, hl⟩ := (h.free_iff x).mp free
    obtain ⟨ht, hf⟩ := expr_of_hasType h he
    simp only [Checker.stmt, Checker.expr?, Checker.expr, hf, Checker.reportAll_nil, ht,
      Option.bind_some, hasReturn, Bool.or_false]
    rw [Checker.declareVar_eq hx hl named (.inr rfl), Checker.clean_bound]
    exact ⟨h.bound ⟨rfl, rfl, rfl⟩, hc⟩
  | .const (x := x) (t := t) he free, h, hc => by
    obtain ⟨hx, hl⟩ := (h.free_iff x).mp free
    obtain ⟨ht, hf⟩ := expr_of_hasType h he
    simp only [Checker.stmt, Checker.expr, hf, Checker.reportAll_nil, ht, hasReturn, Bool.or_false]
    rw [Checker.declareConst_eq hx hl, Checker.clean_bound]
    exact ⟨h.bound ⟨rfl, rfl, rfl⟩, hc⟩
  | .write (x := x) (b := b) he bound writable, h, hc => by
    obtain ⟨ht, hf⟩ := expr_of_hasType h he
    have hrel := h.lookup? x
    rw [bound] at hrel
    generalize hs : c.scope.lookup? x = found at hrel
    cases hrel with
    | some hsb =>
      have hw : ∀ line, c.writeTo line x (some b.ty) = (some b.ty, c) := fun line =>
        Checker.writeTo_eq hs (hsb.isConst.trans writable) hsb.ty
      simpa [Checker.stmt, Checker.expr, hf, ht, hw, hasReturn] using ⟨h, hc⟩
  | .branch he ht hf, h, hc => by
    obtain ⟨hty, hfaults⟩ := expr_of_hasType h he
    obtain ⟨h₁, hc₁⟩ := block_of_typed ht h hc
    obtain ⟨h₂, hc₂⟩ := block_of_typed hf h₁ hc₁
    rw [Bool.or_assoc] at h₂
    simpa [Checker.stmt, Checker.condition_eq hfaults hty, hasReturn] using ⟨h₂, hc₂⟩
  | .loop he hb, h, hc => by
    obtain ⟨hty, hfaults⟩ := expr_of_hasType h he
    obtain ⟨h₁, hc₁⟩ := block_of_typed hb h hc
    simpa [Checker.stmt, Checker.condition_eq hfaults hty, hasReturn] using ⟨h₁, hc₁⟩
  | @StmtTyped.function _ Γ₁ span ps returns body k outside fresh params distinct result entry hb
      ends, h, hc => by
    -- The checker opens the function, checks the body and closes the function again.
    obtain ⟨hopen, hclean⟩ := h.opened outside span.line fresh params distinct
    obtain ⟨hend, hcend⟩ := block_of_typed hb hopen (hclean.mpr hc)
    rw [ends, Bool.or_true] at hend
    have hwithin : Γ₁.Within k Γ.globals Γ.complete := hb.within ⟨rfl, rfl, rfl⟩
    rw [h.stmt_function outside fresh params distinct result entry]
    obtain ⟨hexit, hcexit⟩ := hend.exit seen hwithin outside
      (s := ⟨k.name, k.params.map some, some k.returns, span.line⟩) ⟨rfl, rfl, rfl⟩
    simpa [hasReturn] using ⟨hexit, hcexit.mpr hcend⟩
  | .ret inside he, h, hc => by
    obtain ⟨ht, hf⟩ := expr_of_hasType h he
    obtain ⟨hret, hclean⟩ := h.returned inside _
    simpa [Checker.stmt, Checker.expr, hf, ht, hasReturn] using ⟨hret, hclean.mpr hc⟩

/-- A derivation for a block keeps both sides in agreement, statement by statement. -/
theorem block_of_typed {c : Checker} {Γ Γ' : Env} {seen : Bool} {ss : List Stmt} :
    BlockTyped Γ ss Γ' → Agrees c Γ seen → c.Clean →
      Agrees (c.block ss).2 Γ' (seen || anyReturn ss) ∧ (c.block ss).2.Clean
  | .nil, h, hc => by simpa [Checker.block, anyReturn] using ⟨h, hc⟩
  | .cons hs hss, h, hc => by
    obtain ⟨h₁, hc₁⟩ := stmt_of_typed hs h hc
    obtain ⟨h₂, hc₂⟩ := block_of_typed hss h₁ hc₁
    rw [Bool.or_assoc] at h₂
    simpa [Checker.block, anyReturn] using ⟨h₂, hc₂⟩

end

/-- The type that the checker finds for an expression in which there is nothing to report. -/
theorem hasType_of_clean {c : Checker} {Γ : Env} {seen : Bool} (h : Agrees c Γ seen)
    {e : Expr Span} (hf : (c.context.expr e).2 = []) :
    ∃ t, HasType Γ e t ∧ (c.context.expr e).1.ty = some t := by
  obtain ⟨t, ht⟩ := hasType_of_expr h e hf
  exact ⟨t, ht, (expr_of_hasType h ht).1⟩

mutual

-- A report is never taken back, so nothing was reported inside of the statement either. That is
-- what makes the induction go through: the parts of a clean statement are clean.

/-- A statement behind which nothing is reported has a derivation. By recursion on the statement.
Each test of the checker that was passed is a premise of the rule for this statement. -/
theorem typed_of_stmt {c : Checker} {Γ : Env} {seen : Bool} (h : Agrees c Γ seen) :
    (s : Stmt) → (c.stmt s).2.Clean → ∃ Γ', StmtTyped Γ s Γ'
  | .print _ e, hc => by
    obtain ⟨t, ht, -⟩ := hasType_of_clean h (Checker.expr_clean hc).2
    exact ⟨Γ, .print ht⟩
  | .var _ x type none, hc => by
    obtain ⟨-, hx, hl, t, named, -⟩ := Checker.declareVar_clean hc
    exact ⟨_, .var ((h.free_iff x).mpr ⟨hx, hl⟩) named⟩
  | .var _ x type (some e), hc => by
    obtain ⟨hc₁, hx, hl, t, named, hr⟩ := Checker.declareVar_clean hc
    obtain ⟨u, hu, hty⟩ := hasType_of_clean h (Checker.expr_clean hc₁).2
    -- A value without a type would be no fault by itself, but one that has a derivation has a type.
    have hut : u = t := by
      have hty' : (some (c.context.expr e).1).bind Expr.ty = some u := hty
      rcases hr with hnone | hsome
      · exact absurd (hty'.symm.trans hnone) (by simp)
      · exact Option.some.inj (hty'.symm.trans hsome)
    exact ⟨_, .varWith (hut ▸ hu) ((h.free_iff x).mpr ⟨hx, hl⟩) named⟩
  | .const _ x e, hc => by
    obtain ⟨hc₁, hx, hl⟩ := Checker.declareConst_clean hc
    obtain ⟨t, ht, -⟩ := hasType_of_clean h (Checker.expr_clean hc₁).2
    exact ⟨_, .const ht ((h.free_iff x).mpr ⟨hx, hl⟩)⟩
  | .write _ x e, hc => by
    obtain ⟨hc₁, symbol, hs, hconst, hty⟩ := Checker.writeTo_clean hc
    obtain ⟨t, ht, htype⟩ := hasType_of_clean h (Checker.expr_clean hc₁).2
    have hlookup : c.scope.lookup? x = some symbol := hs
    have hrel := h.lookup? x
    rw [hlookup] at hrel
    generalize hb : Γ.lookup? x = found at hrel
    cases hrel with
    | @some _ b hsb =>
      have htb : b.ty = t := hty b.ty t hsb.ty htype
      exact ⟨Γ, .write (htb ▸ ht) hb (hsb.isConst.symm.trans hconst)⟩
  | .branch _ e whenTrue whenFalse, hc => by
    have hcond := Checker.clean_of_block (Checker.clean_of_block hc)
    obtain ⟨hc₀, hf, hbool⟩ := Checker.condition_clean hcond
    obtain ⟨t, ht, htype⟩ := hasType_of_clean h hf
    obtain rfl := hbool t htype
    have hstmt : ((c.block whenTrue).2.block whenFalse).2.Clean := by
      simpa only [Checker.stmt, Checker.condition_eq hf htype] using hc
    obtain ⟨Γ₁, h₁⟩ := typed_of_block h whenTrue (Checker.clean_of_block hstmt)
    obtain ⟨Γ₂, h₂⟩ := typed_of_block (block_of_typed h₁ h hc₀).1 whenFalse hstmt
    exact ⟨Γ₂, .branch ht h₁ h₂⟩
  | .loop _ e body, hc => by
    obtain ⟨-, hf, hbool⟩ := Checker.condition_clean (Checker.clean_of_block hc)
    obtain ⟨t, ht, htype⟩ := hasType_of_clean h hf
    obtain rfl := hbool t htype
    have hstmt : (c.block body).2.Clean := by
      simpa only [Checker.stmt, Checker.condition_eq hf htype] using hc
    obtain ⟨Γ₁, h₁⟩ := typed_of_block h body hstmt
    exact ⟨Γ₁, .loop ht h₁⟩
  | .function span name ps returns body, hc => by
    obtain ⟨hd, hcur, -, ts, t, hps, hn, hresult, hentry, hbody, hret⟩ :=
      Checker.stmt_function_clean hc
    have outside : Γ.body = none := by
      have hopen := h.body
      rw [hcur] at hopen
      exact hopen.body_of_none
    have fresh : ∀ j ∈ Γ.complete, j.name ≠ name := by
      have hnew := (h.declared name).mp hd
      simpa [Env.callable, outside] using hnew
    obtain ⟨hopened, -⟩ := h.opened outside span.line (k := ⟨name, ts, t⟩) fresh hps hn
    obtain ⟨Γ₁, h₁⟩ := typed_of_block hopened body hbody
    -- The flag of the checker at the end of the body is whether the body has a `return`.
    have ends : anyReturn body = true := by
      have hend := (block_of_typed h₁ hopened (Checker.clean_of_block hbody)).1.body
      have hwithin : Γ₁.Within ⟨name, ts, t⟩ Γ.globals Γ.complete := h₁.within ⟨rfl, rfl, rfl⟩
      obtain ⟨b, hb, -⟩ := Option.map_eq_some_iff.mp hwithin.callee_eq
      rw [hb] at hend
      obtain ⟨f, hf, -, hsaw, -⟩ := hend.open_of_some
      simpa [hret f hf] using hsaw.symm
    exact ⟨_, .function (k := ⟨name, ts, t⟩) outside fresh hps hn hresult hentry h₁ ends⟩
  | .ret _ e, hc => by
    obtain ⟨hc₁, f, hf, hty⟩ := Checker.returnOf_clean hc
    obtain ⟨t, ht, htype⟩ := hasType_of_clean h (Checker.expr_clean hc₁).2
    have hcur : c.current = some f := hf
    have hbody := h.body
    rw [hcur] at hbody
    obtain ⟨b, hb, hsignature⟩ := hbody.body_of_some
    have hbt : b.callee.returns = t := hty _ t hsignature.returns htype
    exact ⟨Γ, .ret hb (hbt ▸ ht)⟩

/-- A block behind which nothing is reported has a derivation. The statements in front report
nothing either, since reports are never taken back. -/
theorem typed_of_block {c : Checker} {Γ : Env} {seen : Bool} (h : Agrees c Γ seen) :
    (ss : List Stmt) → (c.block ss).2.Clean → ∃ Γ', BlockTyped Γ ss Γ'
  | [], _ => ⟨Γ, .nil⟩
  | s :: ss, hc => by
    have hs : (c.stmt s).2.Clean := Checker.clean_of_block hc
    obtain ⟨Γ₁, h₁⟩ := typed_of_stmt h s hs
    obtain ⟨Γ₂, h₂⟩ := typed_of_block (stmt_of_typed h₁ h (Checker.clean_of_stmt hs)).1 ss hc
    exact ⟨Γ₂, .cons h₁ h₂⟩

end

/-! ## Programs -/

/-- Before the first statement both sides know nothing. -/
theorem agrees_start : Agrees .start .empty false where
  inner := .nil
  outer := .nil
  body := trivial
  complete := .nil
  distinct := .nil
  declared := fun x => by simp [Checker.start, Env.empty, Env.callable]

/-- The last entry of the journal is a count and no report. -/
theorem analyze_diagnostics (p : Program) :
    p.analyze.diagnostics = [] ↔ (Checker.start.block p.body).2.Clean :=
  Checker.clean_iff_of_journal [_] rfl (by simp [Event.diagnostic?])

/-- **The checker accepts exactly the well-typed programs.** Each direction is one of the two
inductions above, started where nothing is known on either side (`analyze_source`,
`Analysis::is_ok`). -/
theorem analyze_clean_iff_wellTyped (p : Program) :
    p.analyze.diagnostics = [] ↔ Rules.WellTyped p := by
  rw [analyze_diagnostics]
  constructor
  · exact typed_of_block agrees_start p.body
  · rintro ⟨Γ, h⟩
    exact (block_of_typed h agrees_start Checker.clean_start).2

end Pulse

/-
What is reported of an expression.

A node with a fault has no type, and so has every node above it that needs the type. Only the first
is reported. Which nodes these are is said here without the checker: a root fault is a node whose
operands are in order, as far as they are looked at, and which is wrong itself. The nodes of an
expression are taken in the order in which they are evaluated, and the reports on an expression are
one for each root fault among them.

Calls are where this is not plain. The number of arguments counts whatever their types are, a type
counts only when all others are known too, and a call with an argument of unknown type still has the
type that its function returns.
-/
import Pulse.Proofs.CheckerSteps

set_option autoImplicit false

namespace Pulse

/-! ## The nodes of an expression -/

namespace Expr

variable {α β : Type}

mutual

/-- The nodes of an expression: the operands from left to right, and behind them the operation. -/
def nodes : Expr α → List (Expr α)
  | literal n v => [literal n v]
  | read n x => [read n x]
  | binary n op left right => left.nodes ++ right.nodes ++ [binary n op left right]
  | unary n op operand => operand.nodes ++ [unary n op operand]
  | call n f arguments => nodesOf arguments ++ [call n f arguments]

/-- The nodes of several expressions. -/
def nodesOf : List (Expr α) → List (Expr α)
  | [] => []
  | e :: es => e.nodes ++ nodesOf es

end

mutual

/-- The same expression with other notes. -/
def mapNotes (f : α → β) : Expr α → Expr β
  | literal n v => literal (f n) v
  | read n x => read (f n) x
  | binary n op left right => binary (f n) op (left.mapNotes f) (right.mapNotes f)
  | unary n op operand => unary (f n) op (operand.mapNotes f)
  | call n g arguments => call (f n) g (mapNotesOf f arguments)

/-- The same expressions with other notes. -/
def mapNotesOf (f : α → β) : List (Expr α) → List (Expr β)
  | [] => []
  | e :: es => e.mapNotes f :: mapNotesOf f es

end

/-- Notes are changed one expression at a time. -/
theorem mapNotesOf_append (f : α → β) (es es' : List (Expr α)) :
    mapNotesOf f (es ++ es') = mapNotesOf f es ++ mapNotesOf f es' := by
  induction es with
  | nil => rfl
  | cons e es ih => rw [List.cons_append, mapNotesOf, ih, mapNotesOf, List.cons_append]

end Expr

/-! ## Calls -/

namespace Context

/-- Types that are all known. -/
theorem known_iff {types : List (Option Ty)} :
    types.any Option.isNone = false ↔ ∃ ts : List Ty, types = ts.map some := by
  constructor
  · intro h
    induction types with
    | nil => exact ⟨[], rfl⟩
    | cons ty types ih =>
      rw [List.any_cons, Bool.or_eq_false_iff] at h
      obtain ⟨t, rfl⟩ := Option.isSome_iff_exists.mp (Option.isNone_eq_false_iff.mp h.1)
      obtain ⟨ts, rfl⟩ := ih h.2
      exact ⟨t :: ts, rfl⟩
  · rintro ⟨ts, rfl⟩
    simp

/-- Arguments that do not fit parameters: they are not as many, or all types are known and the two
lists of types differ. -/
def Mismatch (received params : List (Option Ty)) : Prop :=
  received.length ≠ params.length ∨
    ∃ ts us : List Ty, received = ts.map some ∧ params = us.map some ∧ ts ≠ us

variable {ctx : Context} {line : Nat} {f : String} {s : Signature} {received : List (Option Ty)}

/-- A call whose arguments do not fit is reported, with all types that are known. A count that
differs is enough, even where types are not known. -/
theorem call_of_mismatch (hs : ctx.callee? f = some s) (h : Mismatch received s.params) :
    ctx.call line f received =
      (none, [⟨line, .callMismatch f (typeTuple s.params) (typeTuple received)⟩]) := by
  -- The number is compared first; the types count only when the number is right.
  by_cases hlength : received.length = s.params.length
  · obtain ⟨ts, us, rfl, hparams, hne⟩ := h.resolve_left (not_not_intro hlength)
    have hdiffer : ts.map some ≠ us.map some := fun heq =>
      hne (List.map_injective_iff.mpr (fun _ _ => Option.some.inj) heq)
    rw [hparams] at hlength
    simp only [List.length_map] at hlength
    simp [call, hs, hparams, hlength, hdiffer]
  · simp [call, hs, hlength]

/-- A call whose arguments fit has the type that the function returns, also when some type is
missing. -/
theorem call_of_not_mismatch (hs : ctx.callee? f = some s) (h : ¬ Mismatch received s.params) :
    ctx.call line f received = (s.returns, []) := by
  obtain ⟨hlength, htypes⟩ := not_or.mp h
  rw [not_not] at hlength
  simp only [call, hs, hlength, ne_eq, not_true_eq_false, if_false]
  -- What is left are the two tests on types, of which the second is made on known ones only.
  by_cases hknown : received.any Option.isNone = false ∧ s.params.any Option.isNone = false
  · obtain ⟨ts, rfl⟩ := known_iff.mp hknown.1
    obtain ⟨us, hus⟩ := known_iff.mp hknown.2
    have heq : ts = us := by
      by_contra hne
      exact htypes ⟨ts, us, rfl, hus, hne⟩
    simp [hus, heq]
  · rw [not_and_or, Bool.not_eq_false, Bool.not_eq_false, ← Bool.or_eq_true] at hknown
    rw [if_pos hknown]

end Context

/-! ## Root faults -/

/-- No scope from this one outwards binds the name. -/
def Scope.Unbound (s : Scope) (x : String) : Prop :=
  ∀ symbols ∈ s.symbols :: s.outer, ∀ symbol ∈ symbols, symbol.name ≠ x

/-- A name is not found if and only if no scope binds it. -/
theorem Scope.lookup?_eq_none_iff {s : Scope} {x : String} :
    s.lookup? x = none ↔ s.Unbound x := by
  simp only [lookup?, Unbound, List.findSome?_eq_none_iff, List.find?_eq_none, decide_eq_true_eq,
    ne_eq]

namespace Checker

/-- A name that is neither that of the function whose body is being checked nor that of a callable
function. -/
structure Uncallable (c : Checker) (f : String) : Prop where
  current : ∀ g, c.current = some g → g.signature.name ≠ f
  callable : ∀ s ∈ c.callable, s.name ≠ f

/-- A function is not found if and only if it cannot be called. Then it is neither the function
whose body is checked nor one that is complete. -/
theorem callee?_eq_none_iff {c : Checker} {f : String} : c.callee? f = none ↔ c.Uncallable f := by
  have hfind : (c.callable.find? fun s => s.name = f) = none ↔ ∀ s ∈ c.callable, s.name ≠ f := by
    simp only [List.find?_eq_none, decide_eq_true_eq, ne_eq]
  unfold callee?
  -- The function whose body is being checked is looked at before the others.
  cases hcurrent : c.current with
  | none =>
    refine hfind.trans ⟨fun h => ⟨?_, h⟩, Uncallable.callable⟩
    intro g hg
    rw [hcurrent] at hg
    cases hg
  | some g =>
    by_cases hname : g.signature.name = f
    · simp only [if_pos hname]
      refine ⟨fun h => ?_, fun h => absurd hname (h.current g hcurrent)⟩
      cases h
    · simp only [if_neg hname]
      refine hfind.trans ⟨fun h => ⟨?_, h⟩, Uncallable.callable⟩
      intro g' hg'
      rw [hcurrent] at hg'
      rwa [← Option.some.inj hg']

/-- **The nodes that are wrong themselves, and what is wrong with them.** Nothing is said of the
type of the node, only of the types of its operands. -/
inductive RootFault (c : Checker) : Expr Typing → Fault → Prop where
  | unbound {n : Typing} {x : String} (h : c.scope.Unbound x) :
      RootFault c (.read n x) (.undefinedName x)
  | binary {n : Typing} {op : BinaryOp} {left right : Expr Typing} {t u : Ty}
      (hleft : left.ty = some t) (hright : right.ty = some u) (h : Ty.binary? op t u = none) :
      RootFault c (.binary n op left right) (.unsupportedBinary op.symbol t.name u.name)
  | unary {n : Typing} {op : UnaryOp} {operand : Expr Typing} {t : Ty}
      (hoperand : operand.ty = some t) (h : Ty.unary? op t = none) :
      RootFault c (.unary n op operand) (.unsupportedUnary op.symbol t.name)
  | callee {n : Typing} {f : String} {es : List (Expr Typing)} (h : c.Uncallable f) :
      RootFault c (.call n f es) (.undeclaredFunction f)
  | count {n : Typing} {f : String} {es : List (Expr Typing)} {s : Signature}
      (hs : c.callee? f = some s) (h : es.length ≠ s.params.length) :
      RootFault c (.call n f es)
        (.callMismatch f (typeTuple s.params) (typeTuple (es.map Expr.ty)))
  | types {n : Typing} {f : String} {es : List (Expr Typing)} {s : Signature} {ts us : List Ty}
      (hs : c.callee? f = some s) (hlength : es.length = s.params.length)
      (hes : es.map Expr.ty = ts.map some) (hparams : s.params = us.map some) (h : ts ≠ us) :
      RootFault c (.call n f es)
        (.callMismatch f (typeTuple s.params) (typeTuple (es.map Expr.ty)))

/-- **One diagnostic for each root fault among nodes, in their order, and none for the others.** It
has the line of the node, and the node has no type. -/
inductive Reports (c : Checker) : List (Expr Typing) → List Diagnostic → Prop where
  | nil : Reports c [] []
  | root {e : Expr Typing} {es : List (Expr Typing)} {fault : Fault} {ds : List Diagnostic}
      (h : c.RootFault e fault) (untyped : e.ty = none) (hes : Reports c es ds) :
      Reports c (e :: es) (⟨e.note.line, fault⟩ :: ds)
  | other {e : Expr Typing} {es : List (Expr Typing)} {ds : List Diagnostic}
      (h : ∀ fault, ¬ c.RootFault e fault) (hes : Reports c es ds) : Reports c (e :: es) ds

variable {c : Checker}

/-- The reports on nodes in a row are added up in order. -/
theorem Reports.append {es es' : List (Expr Typing)} {ds ds' : List Diagnostic}
    (h : c.Reports es ds) (h' : c.Reports es' ds') : c.Reports (es ++ es') (ds ++ ds') := by
  induction h with
  | nil => exact h'
  | root h untyped _ ih => exact .root h untyped ih
  | other h _ ih => exact .other h ih

/-- A node with a root fault has no type. -/
theorem Reports.untyped {es : List (Expr Typing)} {ds : List Diagnostic} (h : c.Reports es ds) :
    ∀ e ∈ es, ∀ fault, c.RootFault e fault → e.ty = none := by
  induction h with
  | nil => simp
  | root _ untyped _ ih => exact List.forall_mem_cons.mpr ⟨fun _ _ => untyped, ih⟩
  | other h _ ih => exact List.forall_mem_cons.mpr ⟨fun fault hfault => absurd hfault (h fault), ih⟩

/-! ## One node -/

/-- Nothing is ever wrong with a literal. -/
theorem reports_literal (n : Typing) (v : Literal) : c.Reports [.literal n v] [] := by
  refine .other (fun fault h => ?_) .nil
  cases h

/-- A name is reported when nothing binds it. -/
theorem reports_read (line : Nat) (x : String) :
    c.Reports [.read ⟨(c.context.read line x).1, line⟩ x] (c.context.read line x).2 := by
  have hscope : c.context.scope = c.scope := rfl
  cases hlookup : c.scope.lookup? x with
  | none =>
    simp only [Context.read, hscope, hlookup]
    exact .root (.unbound (Scope.lookup?_eq_none_iff.mp hlookup)) rfl .nil
  | some symbol =>
    simp only [Context.read, hscope, hlookup]
    refine .other (fun fault h => ?_) .nil
    cases h with
    | unbound h =>
      rw [Scope.lookup?_eq_none_iff.mpr h] at hlookup
      cases hlookup

/-- A binary operation is reported when both operands have types and no rule allows them. An operand
without a type has a fault elsewhere, and the operation is passed over in silence (`check_expr`). -/
theorem reports_binary (line : Nat) (op : BinaryOp) (left right : Expr Typing) :
    c.Reports [.binary ⟨(Context.binary line op left.ty right.ty).1, line⟩ op left right]
      (Context.binary line op left.ty right.ty).2 := by
  -- Where an operand has no type, none of the premises of a fault can be met.
  by_cases hroot : ∃ t u, left.ty = some t ∧ right.ty = some u ∧ Ty.binary? op t u = none
  · obtain ⟨t, u, hleft, hright, hnone⟩ := hroot
    rw [hleft, hright]
    simp only [Context.binary, hnone]
    exact .root (.binary hleft hright hnone) rfl .nil
  · have hnil : (Context.binary line op left.ty right.ty).2 = [] := by
      cases hleft : left.ty with
      | none => rfl
      | some t =>
        cases hright : right.ty with
        | none => rfl
        | some u =>
          cases hresult : Ty.binary? op t u with
          | none => exact absurd ⟨t, u, hleft, hright, hresult⟩ hroot
          | some ty => simp only [Context.binary, hresult]
    rw [hnil]
    refine .other (fun fault h => ?_) .nil
    cases h with
    | binary hleft hright hnone => exact hroot ⟨_, _, hleft, hright, hnone⟩

/-- A unary operation is reported when its operand has a type that no rule allows. The same with one
operand. -/
theorem reports_unary (line : Nat) (op : UnaryOp) (operand : Expr Typing) :
    c.Reports [.unary ⟨(Context.unary line op operand.ty).1, line⟩ op operand]
      (Context.unary line op operand.ty).2 := by
  by_cases hroot : ∃ t, operand.ty = some t ∧ Ty.unary? op t = none
  · obtain ⟨t, hoperand, hnone⟩ := hroot
    rw [hoperand]
    simp only [Context.unary, hnone]
    exact .root (.unary hoperand hnone) rfl .nil
  · have hnil : (Context.unary line op operand.ty).2 = [] := by
      cases hoperand : operand.ty with
      | none => rfl
      | some t =>
        cases hresult : Ty.unary? op t with
        | none => exact absurd ⟨t, hoperand, hresult⟩ hroot
        | some ty => simp only [Context.unary, hresult]
    rw [hnil]
    refine .other (fun fault h => ?_) .nil
    cases h with
    | unary hoperand hnone => exact hroot ⟨_, hoperand, hnone⟩

/-- A call is reported when there is no such function, or its arguments do not fit. Their types are
compared only where all of them are known, since an argument without one has a fault elsewhere
(`check_call`). -/
theorem reports_call (line : Nat) (f : String) (es : List (Expr Typing)) :
    c.Reports [.call ⟨(c.context.call line f (es.map Expr.ty)).1, line⟩ f es]
      (c.context.call line f (es.map Expr.ty)).2 := by
  have hcontext : c.context.callee? f = c.callee? f := rfl
  cases hcallee : c.callee? f with
  | none =>
    simp only [Context.call, hcontext, hcallee]
    exact .root (.callee (callee?_eq_none_iff.mp hcallee)) rfl .nil
  | some s =>
    by_cases hmismatch : Context.Mismatch (es.map Expr.ty) s.params
    · rw [Context.call_of_mismatch (hcontext.trans hcallee) hmismatch]
      refine .root ?_ rfl .nil
      -- Both ways not to fit are faults of the call itself.
      by_cases hlength : es.length = s.params.length
      · have hlength' : (es.map Expr.ty).length = s.params.length := by
          rw [List.length_map, hlength]
        obtain ⟨ts, us, hes, hparams, hne⟩ := hmismatch.resolve_left (not_not_intro hlength')
        exact .types hcallee hlength hes hparams hne
      · exact .count hcallee hlength
    · rw [Context.call_of_not_mismatch (hcontext.trans hcallee) hmismatch]
      refine .other (fun fault h => ?_) .nil
      cases h with
      | callee h =>
        rw [callee?_eq_none_iff.mpr h] at hcallee
        cases hcallee
      | count hs hne =>
        rw [hcallee] at hs
        cases hs
        exact hmismatch (.inl (by rwa [List.length_map]))
      | types hs _ hes hparams hne =>
        rw [hcallee] at hs
        cases hs
        exact hmismatch (.inr ⟨_, _, hes, hparams, hne⟩)

/-! ## All nodes -/

mutual

/-- The reports on an expression are those on its nodes. -/
theorem reports_expr (c : Checker) :
    (e : Expr Span) → c.Reports (c.context.expr e).1.nodes (c.context.expr e).2
  | .literal _ v => reports_literal _ v
  | .read span x => reports_read span.line x
  | .binary span op left right =>
    ((reports_expr c left).append (reports_expr c right)).append (reports_binary span.line op _ _)
  | .unary span op operand =>
    (reports_expr c operand).append (reports_unary span.line op _)
  | .call span f arguments =>
    (reports_exprs c arguments).append (reports_call span.line f _)

/-- The reports on arguments are those on their nodes. -/
theorem reports_exprs (c : Checker) : (es : List (Expr Span)) →
    c.Reports (Expr.nodesOf (c.context.exprs es).1) (c.context.exprs es).2
  | [] => .nil
  | e :: es => (reports_expr c e).append (reports_exprs c es)

end

end Checker

namespace Context

mutual

/-- Checking an expression changes its notes and nothing else, and keeps the lines. This is how what
is left of an expression is compared with the source. -/
theorem mapNotes_expr (ctx : Context) :
    (e : Expr Span) → (ctx.expr e).1.mapNotes Typing.line = e.mapNotes Span.line
  | .literal _ _ => rfl
  | .read _ _ => rfl
  | .binary span op left right => by
    have hleft := mapNotes_expr ctx left
    have hright := mapNotes_expr ctx right
    rw [expr]
    simp only [Expr.mapNotes, hleft, hright]
  | .unary span op operand => by
    have hoperand := mapNotes_expr ctx operand
    rw [expr]
    simp only [Expr.mapNotes, hoperand]
  | .call span f arguments => by
    have harguments := mapNotesOf_exprs ctx arguments
    rw [expr]
    simp only [Expr.mapNotes, harguments]

/-- So does checking arguments. -/
theorem mapNotesOf_exprs (ctx : Context) : (es : List (Expr Span)) →
    Expr.mapNotesOf Typing.line (ctx.exprs es).1 = Expr.mapNotesOf Span.line es
  | [] => rfl
  | e :: es => by
    have he := mapNotes_expr ctx e
    have hes := mapNotesOf_exprs ctx es
    rw [exprs]
    simp only [Expr.mapNotesOf, he, hes]

end

end Context

/-- **An expression is reported once for each of its root faults.** In any state of the checker,
checking an expression gives its tree with a type at every node, and does nothing else than report
the root faults of that tree, in the order of the nodes. None of them has a type. -/
theorem root_faults_reported_once (c : Checker) (e : Expr Span) :
    ∃ ds : List Diagnostic,
      (c.expr e).2 = c.reportAll ds ∧ (c.expr e).2.diagnostics = c.diagnostics ++ ds ∧
        (c.expr e).1.mapNotes Typing.line = e.mapNotes Span.line ∧
        c.Reports (c.expr e).1.nodes ds ∧
        ∀ node ∈ (c.expr e).1.nodes, ∀ fault, c.RootFault node fault → node.ty = none := by
  have hreports : c.Reports (c.expr e).1.nodes (c.context.expr e).2 := c.reports_expr e
  exact ⟨(c.context.expr e).2, rfl, c.diagnostics_reportAll _, c.context.mapNotes_expr e, hreports,
    hreports.untyped⟩

/-- The expression `(x + 1) * -f(y)` on line 3. -/
def cascading : Expr Span :=
  let span : Span := ⟨⟨20, 3⟩, ⟨34, 3⟩⟩
  .binary span (.arith .mul) (.binary span (.arith .add) (.read span "x") (.literal span (.int 1)))
    (.unary span .minus (.call span "f" [.read span "y"]))

/-- Three faults, and operations above them that have no type because of these and are not
reported. -/
theorem cascading_reported_once :
    (Checker.start.expr cascading).2.diagnostics =
        [⟨3, .undefinedName "x"⟩, ⟨3, .undefinedName "y"⟩, ⟨3, .undeclaredFunction "f"⟩] ∧
      Checker.start.Reports (Checker.start.expr cascading).1.nodes
        [⟨3, .undefinedName "x"⟩, ⟨3, .undefinedName "y"⟩, ⟨3, .undeclaredFunction "f"⟩] ∧
      (Expr.read ⟨none, 3⟩ "x" : Expr Typing).ty = none := by
  have hdiagnostics : (Checker.start.expr cascading).2.diagnostics =
      [⟨3, .undefinedName "x"⟩, ⟨3, .undefinedName "y"⟩, ⟨3, .undeclaredFunction "f"⟩] := by
    decide
  obtain ⟨ds, -, hds, -, hreports, huntyped⟩ := root_faults_reported_once .start cascading
  obtain rfl : _ = ds := hdiagnostics.symm.trans hds
  have hunbound : Checker.start.RootFault (.read ⟨none, 3⟩ "x") (.undefinedName "x") :=
    .unbound (Scope.lookup?_eq_none_iff.mp rfl)
  have hnode : Expr.read ⟨none, 3⟩ "x" ∈ (Checker.start.expr cascading).1.nodes :=
    List.mem_cons_self
  exact ⟨hdiagnostics, hreports, huntyped _ hnode _ hunbound⟩

end Pulse

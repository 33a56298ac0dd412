/-
When a function may be called.

Three parts of the checker have a say in this: the names of functions declared so far, the
signatures that may be called, and the function whose body is being checked. They change at
different moments, and they go on changing in programs with faults, where a name is declared twice,
a function stands in another one, or a body fails. What comes out of it is simple nevertheless. Only
the first declaration of a name counts, wherever it stands, and it counts in favour of the name if
it is outside of functions and one of its values has the type that it is to return.

The checker is compared with the list of the declarations that it meets. A piece of a program moves
the state by its declarations and by the values that it returns, and pieces behind each other move
it by all of them.
-/
import Pulse.Proofs.RootFaults

set_option autoImplicit false

namespace Pulse

open CheckedStmt

/-! ## Declarations of functions -/

/-- A declaration of a function: its signature, whether it stands in the body of another function,
and the values that the `return` statements of its own body give. -/
structure FunctionDecl (α : Type) where
  signature : Signature
  nested : Bool
  returned : List (Expr α)

/-- The declaration with other notes at its values. -/
def FunctionDecl.mapNotes {α β : Type} (f : α → β) (d : FunctionDecl α) : FunctionDecl β :=
  ⟨d.signature, d.nested, Expr.mapNotesOf f d.returned⟩

/-- The name that is declared. -/
def FunctionDecl.name {α : Type} (d : FunctionDecl α) : String := d.signature.name

/-- **A declaration after which its function may be called.** It is outside of functions, the type
that it returns is known, and a value that it returns is of this type. -/
structure FunctionDecl.Completes (d : FunctionDecl Typing) : Prop where
  outside : d.nested = false
  returns : ∃ t : Ty, d.signature.returns = some t ∧ ∃ value ∈ d.returned, value.ty = some t

namespace Stmt

mutual

/-- The values that the `return` statements of a statement give. Functions are left out. -/
def returned : Stmt → List (Expr Span)
  | .ret _ value => [value]
  | .branch _ _ whenTrue whenFalse => returnedOf whenTrue ++ returnedOf whenFalse
  | .loop _ _ body => returnedOf body
  | _ => []

/-- The values that the `return` statements of a block give. -/
def returnedOf : List Stmt → List (Expr Span)
  | [] => []
  | s :: ss => s.returned ++ returnedOf ss

end

mutual

/-- The declarations of functions in a statement, in the order of the text. A function in another
one is met, but nothing in it is looked at. -/
def functionDecls (nested : Bool) : Stmt → List (FunctionDecl Span)
  | .function span name params returns body =>
    let s : Signature :=
      ⟨name, params.map fun p => Ty.ofName? p.type.name, Ty.ofName? returns.name, span.line⟩
    if nested then [⟨s, true, []⟩] else ⟨s, false, returnedOf body⟩ :: functionDeclsOf true body
  | .branch _ _ whenTrue whenFalse =>
    functionDeclsOf nested whenTrue ++ functionDeclsOf nested whenFalse
  | .loop _ _ body => functionDeclsOf nested body
  | _ => []

/-- The declarations of functions in a block. -/
def functionDeclsOf (nested : Bool) : List Stmt → List (FunctionDecl Span)
  | [] => []
  | s :: ss => s.functionDecls nested ++ functionDeclsOf nested ss

end

end Stmt

namespace CheckedStmt

mutual

/-- The values that the `return` statements of a checked statement give. -/
def returned : CheckedStmt → List (Expr Typing)
  | .ret _ value => [value]
  | .branch _ _ whenTrue whenFalse => returnedOf whenTrue ++ returnedOf whenFalse
  | .loop _ _ body => returnedOf body
  | _ => []

/-- The values that the `return` statements of a checked block give. -/
def returnedOf : List CheckedStmt → List (Expr Typing)
  | [] => []
  | s :: ss => s.returned ++ returnedOf ss

end

mutual

/-- The declarations of functions in a checked statement. -/
def functionDecls (nested : Bool) : CheckedStmt → List (FunctionDecl Typing)
  | .function note name params returns body =>
    ⟨⟨name, params.map CheckedParam.ty, returns, note.line⟩, nested, returnedOf body⟩ ::
      functionDeclsOf true body
  | .branch _ _ whenTrue whenFalse =>
    functionDeclsOf nested whenTrue ++ functionDeclsOf nested whenFalse
  | .loop _ _ body => functionDeclsOf nested body
  | _ => []

/-- The declarations of functions in a checked block. -/
def functionDeclsOf (nested : Bool) : List CheckedStmt → List (FunctionDecl Typing)
  | [] => []
  | s :: ss => s.functionDecls nested ++ functionDeclsOf nested ss

end

mutual

/-- All declarations in a statement that stands in a function are nested, at any depth. -/
theorem nested_of_mem_functionDecls : (s : CheckedStmt) →
    ∀ d ∈ s.functionDecls true, d.nested = true
  | .function _ _ _ _ body =>
    List.forall_mem_cons.mpr ⟨rfl, nested_of_mem_functionDeclsOf body⟩
  | .branch _ _ whenTrue whenFalse =>
    List.forall_mem_append.mpr
      ⟨nested_of_mem_functionDeclsOf whenTrue, nested_of_mem_functionDeclsOf whenFalse⟩
  | .loop _ _ body => nested_of_mem_functionDeclsOf body
  | .print _ _ | .var _ _ _ | .const _ _ _ | .write _ _ _ | .ret _ _ => List.forall_mem_nil _

/-- All declarations in the body of a function are nested. -/
theorem nested_of_mem_functionDeclsOf : (ss : List CheckedStmt) →
    ∀ d ∈ functionDeclsOf true ss, d.nested = true
  | [] => List.forall_mem_nil _
  | s :: ss =>
    List.forall_mem_append.mpr ⟨nested_of_mem_functionDecls s, nested_of_mem_functionDeclsOf ss⟩

end

end CheckedStmt

/-! ## The declarations that count -/

/-- Whether one of the values has the type that a function returns, which has to be known. -/
def Signature.returnsOne (s : Signature) (values : List (Expr Typing)) : Bool :=
  values.any fun value => value.ty.isSome && value.ty = s.returns

/-- A value of the right type among two lists is in one of them. -/
theorem Signature.returnsOne_append (s : Signature) (values others : List (Expr Typing)) :
    s.returnsOne (values ++ others) = (s.returnsOne values || s.returnsOne others) :=
  List.any_append

/-- What the test for a value of the right type says. -/
theorem Signature.returnsOne_iff {s : Signature} {values : List (Expr Typing)} :
    s.returnsOne values = true ↔
      ∃ t : Ty, s.returns = some t ∧ ∃ value ∈ values, value.ty = some t := by
  simp only [returnsOne, List.any_eq_true, Bool.and_eq_true, decide_eq_true_eq]
  constructor
  · rintro ⟨value, hmem, hsome, heq⟩
    obtain ⟨t, ht⟩ := Option.isSome_iff_exists.mp hsome
    exact ⟨t, heq.symm.trans ht, value, hmem, ht⟩
  · rintro ⟨t, hreturns, value, hmem, ht⟩
    exact ⟨value, hmem, by rw [ht]; rfl, ht.trans hreturns.symm⟩

/-- Where the type that is to be returned is not known, no value is of this type. -/
theorem Signature.returnsOne_of_none {s : Signature} {values : List (Expr Typing)}
    (h : s.returns = none) : s.returnsOne values = false := by
  rw [Bool.eq_false_iff]
  intro hone
  obtain ⟨t, ht, -⟩ := Signature.returnsOne_iff.mp hone
  rw [h] at ht
  cases ht

namespace FunctionDecl

/-- Whether the function may be called behind the declaration. -/
def completes (d : FunctionDecl Typing) : Bool := !d.nested && d.signature.returnsOne d.returned

/-- The test for a complete declaration says what `Completes` says. -/
theorem completes_iff {d : FunctionDecl Typing} : d.completes = true ↔ d.Completes := by
  rw [completes, Bool.and_eq_true, Signature.returnsOne_iff, Bool.not_eq_true']
  exact ⟨fun h => ⟨h.1, h.2⟩, fun h => ⟨h.outside, h.returns⟩⟩

/-- The signatures that declarations add to those that may be called, where some names have been
declared before. -/
def admitted (seen : List String) : List (FunctionDecl Typing) → List Signature
  | [] => []
  | d :: ds =>
    (if d.name ∉ seen ∧ d.completes = true then [d.signature] else []) ++
      admitted (d.name :: seen) ds

variable {seen seen' : List String} {ds ds' : List (FunctionDecl Typing)}

/-- The order in which names were declared before plays no part. -/
theorem admitted_congr (h : ∀ f, f ∈ seen ↔ f ∈ seen') : admitted seen ds = admitted seen' ds := by
  induction ds generalizing seen seen' with
  | nil => rfl
  | cons d ds ih =>
    have hcons : ∀ f, f ∈ d.name :: seen ↔ f ∈ d.name :: seen' := by
      intro f
      rw [List.mem_cons, List.mem_cons, h f]
    simp only [admitted, ih hcons, h d.name]

/-- What is added behind declarations depends on the names that have been declared by then. -/
theorem admitted_append (h : ∀ f, f ∈ seen' ↔ f ∈ seen ∨ f ∈ ds.map name) :
    admitted seen (ds ++ ds') = admitted seen ds ++ admitted seen' ds' := by
  induction ds generalizing seen with
  | nil => exact admitted_congr fun f => by simp [h f]
  | cons d ds ih =>
    rw [List.cons_append, admitted, admitted, List.append_assoc]
    congr 1
    refine ih fun f => (h f).trans ?_
    simp only [List.map_cons, List.mem_cons]
    tauto

/-- Nested declarations add nothing to what may be called. -/
theorem admitted_of_nested (h : ∀ d ∈ ds, d.nested = true) : admitted seen ds = [] := by
  induction ds generalizing seen with
  | nil => rfl
  | cons d ds ih =>
    obtain ⟨hd, hds⟩ := List.forall_mem_cons.mp h
    simp [admitted, completes, hd, ih hds]

/-- A name that was declared before is not added again. The names that were declared are taken
along, whether the declaration counted or not. -/
theorem notMem_of_mem_admitted {s : Signature} (h : s ∈ admitted seen ds) : s.name ∉ seen := by
  induction ds generalizing seen with
  | nil => cases h
  | cons d ds ih =>
    rw [admitted, List.mem_append] at h
    rcases h with h | h
    · split at h
      · rename_i hnew
        rw [List.mem_singleton.mp h]
        exact hnew.1
      · cases h
    · exact fun hmem => ih h (List.mem_cons_of_mem _ hmem)

/-- No name is added twice, so looking up a signature by its name is unambiguous. -/
theorem nodup_admitted : ((admitted seen ds).map Signature.name).Nodup := by
  induction ds generalizing seen with
  | nil => exact List.nodup_nil
  | cons d ds ih =>
    rw [admitted]
    split
    · rw [List.singleton_append, List.map_cons, List.nodup_cons]
      refine ⟨fun hmem => ?_, ih⟩
      -- A second signature of this name would have been added although the name was declared.
      obtain ⟨s, hs, hname⟩ := List.mem_map.mp hmem
      exact notMem_of_mem_admitted hs (hname ▸ List.mem_cons_self)
    · exact ih

/-- **A name is added with the first of its declarations, or not at all.** A first declaration that
is not complete uses the name up: those behind it find it declared, and are not added either. -/
theorem find?_admitted {f : String} {s : Signature} :
    (admitted seen ds).find? (fun s => s.name = f) = some s ↔
      f ∉ seen ∧ ∃ d, ds.find? (fun d => d.name = f) = some d ∧ d.Completes ∧ d.signature = s := by
  induction ds generalizing seen with
  | nil => simp [admitted]
  | cons d ds ih =>
    by_cases hname : d.name = f
    · -- The other declarations find the name declared.
      have hothers : ¬ (admitted (d.name :: seen) ds).find? (fun s => s.name = f) = some s := by
        rw [ih, hname]
        exact fun h => h.1 List.mem_cons_self
      have hfirst : (d :: ds).find? (fun d => d.name = f) = some d := by
        rw [List.find?_cons_of_pos (by simpa using hname)]
      simp only [admitted, hfirst, Option.some.injEq, exists_eq_left', ← completes_iff]
      by_cases hcounts : d.name ∉ seen ∧ d.completes = true
      · have hsignature : d.signature.name = f := hname
        rw [if_pos hcounts, List.singleton_append,
          List.find?_cons_of_pos (by simpa using hsignature), Option.some.injEq]
        rw [hname] at hcounts
        exact ⟨fun h => ⟨hcounts.1, hcounts.2, h⟩, fun h => h.2.2⟩
      · rw [if_neg hcounts, List.nil_append]
        rw [hname] at hcounts
        exact ⟨fun h => absurd h hothers, fun h => absurd ⟨h.1, h.2.1⟩ hcounts⟩
    -- A declaration of another name adds nothing that a search for this one finds.
    · have hskip : ∀ l, ((if d.name ∉ seen ∧ d.completes = true then [d.signature] else []) ++
          l).find? (fun s => s.name = f) = l.find? fun s => s.name = f := by
        intro l
        have hsignature : ¬ d.signature.name = f := hname
        split
        · rw [List.singleton_append, List.find?_cons_of_neg (by simpa using hsignature)]
        · rw [List.nil_append]
      have hothers : (d :: ds).find? (fun d => d.name = f) = ds.find? fun d => d.name = f :=
        List.find?_cons_of_neg (by simpa using hname)
      rw [admitted, hskip, ih, hothers, List.mem_cons, not_or]
      exact ⟨fun h => ⟨h.1.2, h.2⟩, fun h => ⟨⟨fun heq => hname heq.symm, h.1⟩, h.2⟩⟩

end FunctionDecl

/-! ## What a piece of a program does to the state -/

namespace OpenFunction

/-- The function behind more values that its body returns. -/
def after (f : OpenFunction) (values : List (Expr Typing)) : OpenFunction :=
  ⟨f.signature, f.sawReturn || !values.isEmpty, f.matchingReturn || f.signature.returnsOne values⟩

theorem after_nil (f : OpenFunction) : f.after [] = f := by
  simp [after, Signature.returnsOne]

/-- A body that returns nothing leaves the open function as it is. -/
theorem map_after_nil (f : Option OpenFunction) : f.map (·.after []) = f := by
  cases f with
  | none => rfl
  | some f => rw [Option.map_some, f.after_nil]

/-- Values that are returned one after the other count together. -/
theorem after_append (f : OpenFunction) (values others : List (Expr Typing)) :
    f.after (values ++ others) = (f.after values).after others := by
  have hempty : (values ++ others).isEmpty = (values.isEmpty && others.isEmpty) := by
    cases values <;> rfl
  simp only [after, Signature.returnsOne_append, hempty, Bool.not_and, Bool.or_assoc]

end OpenFunction

namespace Checker

/-- The names of the functions declared so far. -/
def names (c : Checker) : List String := c.declared.map Prod.fst

/-- Whether the checker is in the body of a function. -/
def inFunction (c : Checker) : Bool := c.current.isSome || !c.scope.isGlobal

/-- Nothing that has to do with functions is changed. -/
structure Steady (c c' : Checker) : Prop where
  callable : c'.callable = c.callable
  declared : c'.declared = c.declared
  current : c'.current = c.current
  outer : c'.scope.outer = c.scope.outer

/-- **Declarations are met and values are returned between two points.** -/
structure Meets (c c' : Checker) (ds : List (FunctionDecl Typing)) (values : List (Expr Typing)) :
    Prop where
  callable : c'.callable = c.callable ++ FunctionDecl.admitted c.names ds
  names : ∀ f, f ∈ c'.names ↔ f ∈ c.names ∨ f ∈ ds.map FunctionDecl.name
  current : c'.current = c.current.map (·.after values)
  outer : c'.scope.outer = c.scope.outer

section State

variable {c c' c'' : Checker} {ds ds' : List (FunctionDecl Typing)}
  {values values' : List (Expr Typing)}

theorem Steady.refl (c : Checker) : c.Steady c := ⟨rfl, rfl, rfl, rfl⟩

theorem Steady.trans (h : c.Steady c') (h' : c'.Steady c'') : c.Steady c'' :=
  ⟨h'.callable.trans h.callable, h'.declared.trans h.declared, h'.current.trans h.current,
    h'.outer.trans h.outer⟩

theorem Steady.names (h : c.Steady c') : c'.names = c.names := by
  rw [Checker.names, h.declared, Checker.names]

theorem Steady.inFunction (h : c.Steady c') : c'.inFunction = c.inFunction := by
  simp only [Checker.inFunction, Scope.isGlobal, h.current, h.outer]

/-- A step that leaves functions alone meets no declarations and returns nothing. -/
theorem Steady.meets (h : c.Steady c') : c.Meets c' [] [] where
  callable := by rw [h.callable, FunctionDecl.admitted, List.append_nil]
  names := by simp [h.names]
  current := by rw [h.current, OpenFunction.map_after_nil]
  outer := h.outer

/-- Whether the checker is in a function is not changed by a piece of a program, as a whole. -/
theorem Meets.inFunction (h : c.Meets c' ds values) : c'.inFunction = c.inFunction := by
  simp only [Checker.inFunction, Scope.isGlobal, h.current, h.outer, Option.isSome_map]

/-- **Pieces behind each other.** They move the state by the declarations and the values of both, in
order. The second piece finds the names of the first one declared. -/
theorem Meets.trans (h : c.Meets c' ds values) (h' : c'.Meets c'' ds' values') :
    c.Meets c'' (ds ++ ds') (values ++ values') where
  callable := by
    rw [h'.callable, h.callable, FunctionDecl.admitted_append h.names, List.append_assoc]
  names := by
    intro f
    rw [h'.names f, h.names f, List.map_append, List.mem_append, or_assoc]
  current := by
    rw [h'.current, h.current, Option.map_map]
    congr 1
    funext f
    exact (f.after_append values values').symm
  outer := h'.outer.trans h.outer

/-- A step that leaves functions alone can be left out in front of a piece. -/
theorem Steady.before (h : c.Steady c') (h' : c'.Meets c'' ds values) : c.Meets c'' ds values :=
  h.meets.trans h'

end State

/-! ## Steps that have nothing to do with functions -/

section Steps

variable (c : Checker)

/-- Reporting a fault leaves functions alone. -/
theorem steady_report (line : Nat) (fault : Fault) : c.Steady (c.report line fault) :=
  ⟨rfl, rfl, rfl, rfl⟩

/-- Binding a symbol changes the scope, not what is known of functions. -/
theorem steady_declare {symbol : Symbol} {c' : Checker} (h : c.declare symbol = .ok c') :
    c.Steady c' := by
  unfold declare Scope.declare at h
  cases hlookup : c.scope.lookupLocal? symbol.name with
  | none =>
    rw [hlookup] at h
    cases h
    exact ⟨rfl, rfl, rfl, rfl⟩
  | some existing =>
    rw [hlookup] at h
    cases h

/-- The same, where an earlier binding of the name stays. -/
theorem steady_declareFirst (symbol : Symbol) : c.Steady (c.declareFirst symbol) := by
  unfold declareFirst
  cases hdeclare : c.declare symbol with
  | ok c' => exact c.steady_declare hdeclare
  | error line => exact .refl c

/-- Looking up an annotation reports a fault at most. -/
theorem steady_resolve (type : TypeName) : c.Steady (c.resolve type).2 := by
  unfold resolve
  cases Ty.ofName? type.name with
  | none => exact c.steady_report _ _
  | some ty => exact .refl c

/-- The type that an annotation names does not depend on the state. -/
theorem resolve_type (type : TypeName) : (c.resolve type).1 = Ty.ofName? type.name := by
  unfold resolve
  cases Ty.ofName? type.name <;> rfl

theorem steady_expr (e : Expr Span) : c.Steady (c.expr e).2 := ⟨rfl, rfl, rfl, rfl⟩

theorem steady_expr? (e : Option (Expr Span)) : c.Steady (c.expr? e).2 := by
  cases e with
  | none => exact .refl c
  | some e => exact c.steady_expr e

/-- Checking a condition reports a fault at most. -/
theorem steady_condition (e : Expr Span) : c.Steady (c.condition e).2 := by
  refine (c.steady_expr e).trans ?_
  unfold condition
  dsimp only
  split
  · split
    · exact .refl _
    · exact steady_report _ _ _
  · exact .refl _

/-- Declaring a variable leaves functions alone, in each of its five outcomes. Where it succeeds,
the scope has one symbol more, and nothing that is known of functions depends on it. -/
theorem steady_declareVar (line : Nat) (name : String) (type : TypeName) (received : Option Ty) :
    c.Steady (c.declareVar line name type received).2 := by
  unfold declareVar
  split
  · exact c.steady_report _ _
  · split
    · exact c.steady_report _ _
    · refine (c.steady_resolve type).trans ?_
      dsimp only
      split
      · exact .refl _
      · split
        · exact steady_declareFirst _ _
        · exact steady_report _ _ _
      · exact steady_declareFirst _ _

/-- Declaring a constant leaves functions alone. -/
theorem steady_declareConst (line : Nat) (name : String) (ty : Option Ty) :
    c.Steady (c.declareConst line name ty) := by
  unfold declareConst
  split
  · exact c.steady_report _ _
  · split
    · rename_i c' hdeclare
      exact c.steady_declare hdeclare
    · exact c.steady_report _ _

/-- Writing to a variable leaves functions alone. -/
theorem steady_writeTo (line : Nat) (name : String) (received : Option Ty) :
    c.Steady (c.writeTo line name received).2 := by
  unfold writeTo
  split
  · exact c.steady_report _ _
  · split
    · exact c.steady_report _ _
    · split
      · split
        · exact .refl c
        · exact c.steady_report _ _
      · exact .refl c

/-- Looking up the annotations of parameters leaves functions alone. -/
theorem steady_params (ps : List Param) : c.Steady (c.params ps).2 := by
  induction ps generalizing c with
  | nil => exact .refl c
  | cons p ps ih => exact (c.steady_resolve p.type).trans (ih _)

/-- A fault that is reported under a condition. -/
theorem steady_when (p : Prop) [Decidable p] (line : Nat) (fault : Fault) :
    c.Steady (if p then c.report line fault else c) := by
  split
  · exact c.steady_report _ _
  · exact .refl c

/-- A fault that is reported unless a condition holds. -/
theorem steady_unless (p : Prop) [Decidable p] (line : Nat) (fault : Fault) :
    c.Steady (if p then c else c.report line fault) := by
  split
  · exact .refl c
  · exact c.steady_report _ _

/-- Checking a signature leaves functions alone: all it does is to look up annotations and to report
faults. -/
theorem steady_signature (line : Nat) (name : String) (ps : List Param) (returns : TypeName) :
    c.Steady (c.signature line name ps returns).2.2 :=
  (c.steady_params ps).trans ((steady_unless _ _ _ _).trans
    ((steady_resolve _ returns).trans (steady_when _ _ _ _)))

end Steps

/-! ## Returning, and functions -/

/-- A `return` counts for the function whose body it is in, and nothing else is changed by it. Where
both types are known and equal the function has returned a value of its type. In all other cases it
has returned, and no more (`check_return`). -/
theorem meets_returnOf (c : Checker) (line : Nat) (value : Expr Typing) :
    c.Meets (c.returnOf line value.ty) [] [value] := by
  -- In all cases only the open function is changed, by one more value.
  have hkeeps : ∀ c' : Checker, c'.callable = c.callable → c'.declared = c.declared →
      c'.scope.outer = c.scope.outer → c'.current = c.current.map (·.after [value]) →
      c.Meets c' [] [value] := by
    intro c' hcallable hdeclared houter hcurrent
    refine ⟨?_, fun f => ?_, hcurrent, houter⟩
    · rw [hcallable, FunctionDecl.admitted, List.append_nil]
    · simp [names, hdeclared]
  cases hcurrent : c.current with
  | none =>
    rw [returnOf, hcurrent]
    exact hkeeps _ rfl rfl rfl (by rw [hcurrent]; exact hcurrent)
  | some f =>
    -- A type that is not known, on either side, matches nothing.
    cases hreturns : f.signature.returns with
    | none =>
      have hone : f.signature.returnsOne [value] = false := Signature.returnsOne_of_none hreturns
      simp only [returnOf, hcurrent, hreturns]
      exact hkeeps _ rfl rfl rfl (by simp [hcurrent, OpenFunction.after, hone])
    | some t =>
      cases hty : value.ty with
      | none =>
        have hone : f.signature.returnsOne [value] = false := by simp [Signature.returnsOne, hty]
        simp only [returnOf, hcurrent, hreturns]
        exact hkeeps _ rfl rfl rfl (by simp [hcurrent, OpenFunction.after, hone])
      | some u =>
        by_cases heq : t = u
        · have hone : f.signature.returnsOne [value] = true := by
            simp [Signature.returnsOne, hty, hreturns, heq]
          simp only [returnOf, hcurrent, hreturns, if_pos heq]
          exact hkeeps _ rfl rfl rfl (by simp [hcurrent, OpenFunction.after, hone])
        · have hone : f.signature.returnsOne [value] = false := by
            simp [Signature.returnsOne, hty, hreturns, Ne.symm heq]
          simp only [returnOf, hcurrent, hreturns, if_neg heq]
          exact hkeeps _ rfl rfl rfl (by simp [report, log, hcurrent, OpenFunction.after, hone])

/-- A name is new when it is none of the declared ones. -/
theorem lookup_declared {c : Checker} {name : String} :
    c.declared.lookup name = none ↔ name ∉ c.names := by
  rw [List.lookup_eq_none_iff, names, List.mem_map, not_exists]
  refine forall_congr' fun p => ?_
  rw [not_and]
  refine imp_congr_right fun _ => ?_
  rw [bne_iff_ne, ne_comm]

/-- The name of a function is noted, and nothing else that has to do with functions is changed. -/
structure Notes (c c' : Checker) (name : String) : Prop where
  callable : c'.callable = c.callable
  names : ∀ f, f ∈ c'.names ↔ f ∈ c.names ∨ f = name
  current : c'.current = c.current
  outer : c'.scope.outer = c.scope.outer

/-- Steps that leave functions alone can follow the note of a name. -/
theorem Notes.steady {c c' c'' : Checker} {name : String} (h : c.Notes c' name)
    (h' : c'.Steady c'') : c.Notes c'' name where
  callable := h'.callable.trans h.callable
  names := by
    rw [h'.names]
    exact h.names
  current := h'.current.trans h.current
  outer := h'.outer.trans h.outer

/-- Noting a name does not enter a function. -/
theorem Notes.inFunction {c c' : Checker} {name : String} (h : c.Notes c' name) :
    c'.inFunction = c.inFunction := by
  simp only [Checker.inFunction, Scope.isGlobal, h.current, h.outer]

/-- **A declaration notes the name of its function**, new or not, and tells which of the two it
was. -/
theorem notes_declareFunction (c : Checker) (line : Nat) (name : String) :
    (c.declareFunction line name).1 = decide (name ∉ c.names) ∧
      c.Notes (c.declareFunction line name).2 name := by
  cases hlookup : c.declared.lookup name with
  | none =>
    have hnew := lookup_declared.mp hlookup
    rw [declareFunction_eq hlookup]
    refine ⟨by simp [hnew], rfl, fun f => ?_, rfl, rfl⟩
    simp [names]
  | some previous =>
    have hknown : name ∈ c.names := by
      by_contra hnew
      rw [lookup_declared.mpr hnew] at hlookup
      cases hlookup
    have heq : c.declareFunction line name =
        (false, c.report line (.functionAlreadyDefined name previous)) := by
      simp only [declareFunction, hlookup]
    rw [heq]
    refine ⟨by simp [hknown], rfl, fun f => ?_, rfl, rfl⟩
    refine ⟨.inl, fun h => h.elim id ?_⟩
    rintro rfl
    exact hknown

/-- Parameters are bound in the scope of the body, whatever their names. -/
theorem steady_declareParams (line : Nat) (ps : List CheckedParam) (c : Checker) :
    c.Steady (ps.foldl (fun c p => c.declareFirst ⟨p.name, p.ty, false, line⟩) c) := by
  induction ps generalizing c with
  | nil => exact .refl c
  | cons p ps ih => exact (c.steady_declareFirst _).trans (ih _)

/-- At the start of a body the same may be called as outside, and the function itself is open. -/
theorem enter_state (c : Checker) (s : Signature) (ps : List CheckedParam) :
    (c.enter s ps).callable = c.callable ∧ (c.enter s ps).names = c.names ∧
      (c.enter s ps).current = some ⟨s, false, false⟩ ∧
      (c.enter s ps).scope.outer = c.scope.symbols :: c.scope.outer := by
  have hsteady := steady_declareParams s.line ps { c.log (.enteredBody s.name s.line) with
    scope := c.scope.nested, current := some ⟨s, false, false⟩ }
  exact ⟨hsteady.callable, hsteady.names, hsteady.current, hsteady.outer⟩

/-- Behind its body a function may be called if it is new and returns a value of its type. One that
has another name, or that returns no value of its type, is forgotten but for its name. -/
theorem exit_state {c : Checker} {s : Signature} {values : List (Expr Typing)} (isNew : Bool)
    (h : c.current = some (OpenFunction.after ⟨s, false, false⟩ values)) :
    (c.exit s isNew).callable =
        c.callable ++ (if isNew && s.returnsOne values then [s] else []) ∧
      (c.exit s isNew).names = c.names ∧ (c.exit s isNew).current = none ∧
      (c.exit s isNew).scope = c.scope.leave := by
  cases values with
  | nil => simp [exit, h, OpenFunction.after, Signature.returnsOne, report, log, names]
  | cons value values =>
    have hsaw : (OpenFunction.after ⟨s, false, false⟩ (value :: values)).sawReturn = true := rfl
    have hmatching : (OpenFunction.after ⟨s, false, false⟩ (value :: values)).matchingReturn =
        s.returnsOne (value :: values) := Bool.false_or _
    simp only [exit, h, hsaw, hmatching, Bool.not_true, Bool.false_eq_true, if_false,
      Bool.and_comm isNew]
    split <;> simp [names]

/-- Parameters get the types that their annotations name. -/
theorem types_params (ps : List Param) (c : Checker) :
    (c.params ps).1.map CheckedParam.ty = ps.map fun p => Ty.ofName? p.type.name := by
  induction ps generalizing c with
  | nil => rfl
  | cons p ps ih =>
    have hfirst := c.resolve_type p.type
    have hothers := ih (c.resolve p.type).2
    rw [params]
    simp only [List.map_cons, hfirst, hothers]

/-- Parameters and the result get the types that their annotations name. -/
theorem types_signature (c : Checker) (line : Nat) (name : String) (ps : List Param)
    (returns : TypeName) :
    (c.signature line name ps returns).1.map CheckedParam.ty =
        (ps.map fun p => Ty.ofName? p.type.name) ∧
      (c.signature line name ps returns).2.1 = Ty.ofName? returns.name :=
  ⟨types_params ps c, resolve_type _ returns⟩

/-- **A function is noted wherever it stands.** In the body of another one nothing else is done, and
outside of functions its own body is checked. -/
theorem stmt_function (c : Checker) (span : Span) (name : String) (params : List Param)
    (returns : TypeName) (body : List Stmt) :
    ∃ (isNew : Bool) (ps : List CheckedParam) (m : Checker),
      isNew = decide (name ∉ c.names) ∧
      ps.map CheckedParam.ty = (params.map fun p => Ty.ofName? p.type.name) ∧ c.Notes m name ∧
      let s : Signature :=
        ⟨name, params.map fun p => Ty.ofName? p.type.name, Ty.ofName? returns.name, span.line⟩
      c.stmt (.function span name params returns body) =
        if c.inFunction = true then
          (.function ⟨s.returns, span.line⟩ name ps s.returns [],
            m.report span.line (.nestedFunction name))
        else
          (.function ⟨s.returns, span.line⟩ name ps s.returns ((m.enter s ps).block body).1,
            ((m.enter s ps).block body).2.exit s isNew) := by
  obtain ⟨hnew, hnotes⟩ := c.notes_declareFunction span.line name
  have hsteady := (c.declareFunction span.line name).2.steady_signature span.line name params
    returns
  obtain ⟨htypes, hreturns⟩ := (c.declareFunction span.line name).2.types_signature span.line name
    params returns
  -- The place is asked for behind the signature, but it is the place in front of it.
  have hplace := (hnotes.steady hsteady).inFunction
  refine ⟨_, _, _, hnew, htypes, hnotes.steady hsteady, ?_⟩
  rw [← hplace, stmt]
  dsimp only
  rw [htypes, hreturns]
  rfl

/-! ## All statements -/

/-- What a function returns is no business of the statements around it. -/
theorem returned_function (c : Checker) (span : Span) (name : String) (params : List Param)
    (returns : TypeName) (body : List Stmt) :
    (c.stmt (.function span name params returns body)).1.returned = [] := by
  obtain ⟨_, _, _, -, -, -, hstmt⟩ := c.stmt_function span name params returns body
  rw [hstmt]
  split <;> rfl

/-- A function, given what its body does. Inside of another function it is noted and nothing else
happens. Outside, its body is met with the function open, and behind the body it is complete or not
by the values that the body returned (`check_function`). -/
theorem meets_function {span : Span} {name : String} {params : List Param} {returns : TypeName}
    {body : List Stmt} (hbody : ∀ c : Checker,
      c.Meets (c.block body).2 (functionDeclsOf c.inFunction (c.block body).1)
        (returnedOf (c.block body).1)) (c : Checker) :
    c.Meets (c.stmt (.function span name params returns body)).2
      ((c.stmt (.function span name params returns body)).1.functionDecls c.inFunction) [] := by
  obtain ⟨isNew, ps, m, hnew, htypes, hnotes, hstmt⟩ :=
    c.stmt_function span name params returns body
  rw [hstmt]
  cases hin : c.inFunction with
  | true =>
    -- In a function the declaration is noted and nothing else.
    rw [if_pos rfl]
    refine ⟨?_, fun f => ?_, ?_, hnotes.outer⟩
    · rw [FunctionDecl.admitted_of_nested (nested_of_mem_functionDecls _), List.append_nil]
      exact hnotes.callable
    · exact (hnotes.names f).trans (or_congr_right List.mem_singleton.symm)
    · rw [OpenFunction.map_after_nil]
      exact hnotes.current
  | false =>
    rw [if_neg Bool.false_ne_true, functionDecls, htypes]
    dsimp only
    generalize hs : (⟨name, params.map fun p => Ty.ofName? p.type.name, Ty.ofName? returns.name,
      span.line⟩ : Signature) = s
    obtain ⟨hopen, hopenNames, hopenCurrent, hopenOuter⟩ := m.enter_state s ps
    generalize m.enter s ps = inside at *
    have hmeets := hbody inside
    have hinside : inside.inFunction = true := by rw [inFunction, hopenCurrent]; rfl
    rw [hinside] at hmeets
    -- Nothing in the body may be called from outside.
    have hnested : ∀ seen, FunctionDecl.admitted seen (functionDeclsOf true (inside.block body).1) =
        [] := fun seen => FunctionDecl.admitted_of_nested (nested_of_mem_functionDeclsOf _)
    have hend : (inside.block body).2.current =
        some (OpenFunction.after ⟨s, false, false⟩ (returnedOf (inside.block body).1)) := by
      rw [hmeets.current, hopenCurrent, Option.map_some]
    obtain ⟨hexit, hexitNames, hexitCurrent, hexitScope⟩ := exit_state isNew hend
    have hname : (FunctionDecl.mk s false (returnedOf (inside.block body).1)).name = name := by
      rw [← hs]
      rfl
    refine ⟨?_, fun f => ?_, ?_, ?_⟩
    · rw [hexit, hmeets.callable, hnested, hopen, hnotes.callable, FunctionDecl.admitted, hnested,
        hname, hnew]
      simp [FunctionDecl.completes]
    · rw [hexitNames, hmeets.names f, hopenNames, hnotes.names f, List.map_cons, List.mem_cons,
        hname, or_assoc]
    · have hnone : c.current = none := by
        rw [inFunction, Bool.or_eq_false_iff, Option.isSome_eq_false_iff] at hin
        exact Option.isNone_iff_eq_none.mp hin.1
      rw [hexitCurrent, hnone]
      rfl
    · rw [hexitScope, Scope.leave, hmeets.outer, hopenOuter]
      exact hnotes.outer

mutual

/-- **A statement moves the state by its declarations and by the values it returns.** By recursion
on the statement. Blocks of branches and loops are met at the same place as the statement around
them. -/
theorem meets_stmt : (s : Stmt) → (c : Checker) →
    c.Meets (c.stmt s).2 ((c.stmt s).1.functionDecls c.inFunction) (c.stmt s).1.returned
  | .print _ value, c => (c.steady_expr value).meets
  | .var span name type value, c =>
    ((c.steady_expr? value).trans (steady_declareVar _ span.line name type _)).meets
  | .const span name value, c =>
    ((c.steady_expr value).trans (steady_declareConst _ span.line name _)).meets
  | .write span name value, c =>
    ((c.steady_expr value).trans (steady_writeTo _ span.line name _)).meets
  | .branch _ condition whenTrue whenFalse, c => by
    have hcondition := c.steady_condition condition
    have htrue := meets_block whenTrue (c.condition condition).2
    have hfalse := meets_block whenFalse ((c.condition condition).2.block whenTrue).2
    rw [htrue.inFunction] at hfalse
    rw [hcondition.inFunction] at htrue hfalse
    exact hcondition.before (htrue.trans hfalse)
  | .loop _ condition body, c => by
    have hcondition := c.steady_condition condition
    have hbody := meets_block body (c.condition condition).2
    rw [hcondition.inFunction] at hbody
    exact hcondition.before hbody
  | .function _ _ _ _ body, c => by
    rw [returned_function]
    exact meets_function (meets_block body) c
  | .ret span value, c => (c.steady_expr value).before (meets_returnOf _ span.line _)

/-- A block moves the state by its declarations and by the values it returns. -/
theorem meets_block : (ss : List Stmt) → (c : Checker) →
    c.Meets (c.block ss).2 (functionDeclsOf c.inFunction (c.block ss).1)
      (returnedOf (c.block ss).1)
  | [], c => (Steady.refl c).meets
  | s :: ss, c => by
    have hfirst := meets_stmt s c
    have hothers := meets_block ss (c.stmt s).2
    rw [hfirst.inFunction] at hothers
    exact hfirst.trans hothers

end

/-! ## Declarations in the source -/

/-- Declarations and values of a checked piece that are those of its source, but for the notes. -/
structure Mirrors (ds : List (FunctionDecl Typing)) (values : List (Expr Typing))
    (ds' : List (FunctionDecl Span)) (values' : List (Expr Span)) : Prop where
  decls : ds.map (·.mapNotes Typing.line) = ds'.map (·.mapNotes Span.line)
  values : Expr.mapNotesOf Typing.line values = Expr.mapNotesOf Span.line values'

/-- Nothing mirrors nothing. -/
theorem mirrors_nil : Mirrors [] [] [] [] := ⟨rfl, rfl⟩

/-- What mirrors its source piece by piece mirrors it as a whole. -/
theorem Mirrors.append {ds es : List (FunctionDecl Typing)} {values others : List (Expr Typing)}
    {ds' es' : List (FunctionDecl Span)} {values' others' : List (Expr Span)}
    (h : Mirrors ds values ds' values') (h' : Mirrors es others es' others') :
    Mirrors (ds ++ es) (values ++ others) (ds' ++ es') (values' ++ others') where
  decls := by rw [List.map_append, List.map_append, h.decls, h'.decls]
  values := by rw [Expr.mapNotesOf_append, Expr.mapNotesOf_append, h.values, h'.values]

/-- A function declares what its source declares, given this of its body. The parameters and the
result have the types that their annotations name, and the body is read at the place inside of the
function. -/
theorem decls_function {span : Span} {name : String} {params : List Param} {returns : TypeName}
    {body : List Stmt} (hbody : ∀ c : Checker,
      Mirrors (functionDeclsOf c.inFunction (c.block body).1) (returnedOf (c.block body).1)
        (Stmt.functionDeclsOf c.inFunction body) (Stmt.returnedOf body)) (c : Checker) :
    ((c.stmt (.function span name params returns body)).1.functionDecls c.inFunction).map
        (·.mapNotes Typing.line) =
      ((Stmt.function span name params returns body).functionDecls c.inFunction).map
        (·.mapNotes Span.line) := by
  obtain ⟨isNew, ps, m, -, htypes, -, hstmt⟩ := c.stmt_function span name params returns body
  rw [hstmt]
  cases hin : c.inFunction with
  | true =>
    rw [if_pos rfl, functionDecls, htypes]
    rfl
  | false =>
    rw [if_neg Bool.false_ne_true, functionDecls, htypes, Stmt.functionDecls]
    dsimp only
    obtain ⟨-, -, hopen, -⟩ := m.enter_state
      ⟨name, params.map fun p => Ty.ofName? p.type.name, Ty.ofName? returns.name, span.line⟩ ps
    generalize m.enter _ ps = inside at *
    have hinside : inside.inFunction = true := by rw [inFunction, hopen]; rfl
    have hmirrors := hbody inside
    rw [hinside] at hmirrors
    rw [if_neg Bool.false_ne_true, List.map_cons, List.map_cons, hmirrors.decls]
    simp only [FunctionDecl.mapNotes, hmirrors.values]

mutual

/-- What the checker leaves of a statement declares what the statement declares. So functions that
can be called are found in the source alone, without the checker. -/
theorem mirrors_stmt : (s : Stmt) → (c : Checker) →
    Mirrors ((c.stmt s).1.functionDecls c.inFunction) (c.stmt s).1.returned
      (s.functionDecls c.inFunction) s.returned
  | .print _ _, _ | .var _ _ _ _, _ | .const _ _ _, _ | .write _ _ _, _ => mirrors_nil
  | .branch _ condition whenTrue whenFalse, c => by
    have hcondition := c.steady_condition condition
    have htrue := mirrors_block whenTrue (c.condition condition).2
    have hfalse := mirrors_block whenFalse ((c.condition condition).2.block whenTrue).2
    rw [(meets_block whenTrue _).inFunction] at hfalse
    rw [hcondition.inFunction] at htrue hfalse
    exact htrue.append hfalse
  | .loop _ condition body, c => by
    have hbody := mirrors_block body (c.condition condition).2
    rw [(c.steady_condition condition).inFunction] at hbody
    exact hbody
  | .function _ _ _ _ body, c => by
    refine ⟨decls_function (mirrors_block body) c, ?_⟩
    rw [returned_function]
    rfl
  | .ret _ value, c => ⟨rfl, congrArg (· :: []) (c.context.mapNotes_expr value)⟩

/-- What the checker leaves of a block declares what the block declares. -/
theorem mirrors_block : (ss : List Stmt) → (c : Checker) →
    Mirrors (functionDeclsOf c.inFunction (c.block ss).1) (returnedOf (c.block ss).1)
      (Stmt.functionDeclsOf c.inFunction ss) (Stmt.returnedOf ss)
  | [], _ => mirrors_nil
  | s :: ss, c => by
    have hothers := mirrors_block ss (c.stmt s).2
    rw [(meets_stmt s c).inFunction] at hothers
    exact (mirrors_stmt s c).append hothers

end

/-! ## Callable functions -/

/-- The statements of a block are checked one after the other. -/
theorem block_append (ss ss' : List Stmt) (c : Checker) :
    c.block (ss ++ ss') =
      ((c.block ss).1 ++ ((c.block ss).2.block ss').1, ((c.block ss).2.block ss').2) := by
  induction ss generalizing c with
  | nil => rfl
  | cons s ss ih =>
    rw [List.cons_append, block, block]
    simp only [ih, List.cons_append]

end Checker

/-- **A function may be called by its first declaration.** The statements of a program are checked
one after the other, so behind any number of them the checker is in the state that the rest goes on
from. There a name may be called if and only if the first declaration of it so far is outside of
functions and gives a value of the type that it is to return, and then with the signature of this
declaration. The declarations so far are those of the source. A signature that may be called keeps
its place whatever statement is checked next. -/
theorem callable_follows_first_declaration (p : Program) (k : Nat) :
    let checked := Checker.start.block (p.body.take k)
    let met := functionDeclsOf false checked.1
    Checker.start.block p.body =
        (checked.1 ++ (checked.2.block (p.body.drop k)).1, (checked.2.block (p.body.drop k)).2) ∧
      met.map (·.mapNotes Typing.line) =
        (Stmt.functionDeclsOf false (p.body.take k)).map (·.mapNotes Span.line) ∧
      (∀ (f : String) (s : Signature),
        checked.2.callable.find? (fun s => s.name = f) = some s ↔
          ∃ d, met.find? (fun d => d.name = f) = some d ∧ d.Completes ∧ d.signature = s) ∧
      (checked.2.callable.map Signature.name).Nodup ∧
      ∀ (c : Checker) (s : Stmt), c.callable <+: (c.stmt s).2.callable := by
  intro checked met
  have hmeets := Checker.meets_block (p.body.take k) Checker.start
  have hcallable : checked.2.callable = FunctionDecl.admitted [] met := hmeets.callable
  refine ⟨?_, (Checker.mirrors_block (p.body.take k) Checker.start).decls, fun f s => ?_, ?_, ?_⟩
  · rw [← Checker.block_append, List.take_append_drop]
  · rw [hcallable, FunctionDecl.find?_admitted]
    exact ⟨fun h => h.2, fun h => ⟨List.not_mem_nil, h⟩⟩
  · rw [hcallable]
    exact FunctionDecl.nodup_admitted
  · intro c s
    rw [(Checker.meets_stmt s c).callable]
    exact List.prefix_append _ _

end Pulse

/-
Scopes as maps that take a name once.

A scope is asked for the binding of a name, and it is told new bindings; a second one for a name is
refused. Seen from outside, an open scope is therefore told by the declarations that were made in
it, with or without success: a name is bound to the first of them. This is shown for every way in
which scopes are opened, filled and left.

A list of symbols is all that a scope needs for this. Searching it takes time, and the way to save
it is an index: a table that has, besides the symbols, the position of every name. The table is as
good as the list as long as the two parts agree. They do after every declaration, and what the table
answers is what the list answers.
-/
import Pulse.Typing.Scope
import Mathlib.Data.List.Forall2
import Mathlib.Data.List.Induction
import Mathlib.Data.List.Nodup

set_option autoImplicit false

namespace Pulse

/-! ## The first declarations of names -/

/-- The declarations that are the first ones of their names. -/
def firsts : List Symbol → List Symbol
  | [] => []
  | d :: ds => d :: (firsts ds).filter fun e => e.name ≠ d.name

variable {ds : List Symbol}

/-- The first declarations are declarations. -/
theorem mem_of_mem_firsts {d : Symbol} (h : d ∈ firsts ds) : d ∈ ds := by
  induction ds with
  | nil => exact h
  | cons e ds ih =>
    rcases List.mem_cons.mp h with rfl | h
    · exact List.mem_cons_self
    · exact List.mem_cons_of_mem _ (ih (List.mem_of_mem_filter h))

/-- Every name that is declared has a first declaration. -/
theorem mem_names_firsts {x : String} :
    x ∈ (firsts ds).map Symbol.name ↔ x ∈ ds.map Symbol.name := by
  induction ds with
  | nil => rfl
  | cons d ds ih =>
    by_cases hx : x = d.name
    · simp [firsts, hx]
    · have hothers : x ∈ ((firsts ds).filter fun e => e.name ≠ d.name).map Symbol.name ↔
          x ∈ (firsts ds).map Symbol.name := by
        simp only [List.mem_map, List.mem_filter, decide_eq_true_eq]
        constructor
        · rintro ⟨e, ⟨he, -⟩, rfl⟩
          exact ⟨e, he, rfl⟩
        · rintro ⟨e, he, rfl⟩
          exact ⟨e, ⟨he, hx⟩, rfl⟩
      rw [firsts, List.map_cons, List.mem_cons, hothers, ih, List.map_cons, List.mem_cons]

/-- No name has two first declarations. -/
theorem nodup_firsts (ds : List Symbol) : ((firsts ds).map Symbol.name).Nodup := by
  induction ds with
  | nil => exact List.nodup_nil
  | cons d ds ih =>
    -- The later ones of the same name were filtered out.
    rw [firsts, List.map_cons, List.nodup_cons]
    refine ⟨?_, ih.sublist (List.filter_sublist.map _)⟩
    simp

/-- **A name is bound to the first of its declarations.** Keeping the first declarations only does
not change what a search finds. -/
theorem find?_firsts (ds : List Symbol) (x : String) :
    (firsts ds).find? (fun d => d.name = x) = ds.find? fun d => d.name = x := by
  induction ds with
  | nil => rfl
  | cons d ds ih =>
    by_cases hd : d.name = x
    · rw [firsts, List.find?_cons_of_pos (by simpa), List.find?_cons_of_pos (by simpa)]
    · rw [firsts, List.find?_cons_of_neg (by simpa), List.find?_cons_of_neg (by simpa), ← ih,
        List.find?_filter]
      congr 1
      funext e
      by_cases he : e.name = x
      · simp [he, Ne.symm hd]
      · simp [he]

/-- One more declaration counts if its name is new. -/
theorem firsts_concat (ds : List Symbol) (d : Symbol) :
    firsts (ds ++ [d]) = if d.name ∈ ds.map Symbol.name then firsts ds else firsts ds ++ [d] := by
  induction ds with
  | nil => rfl
  | cons e ds ih =>
    rw [List.cons_append, firsts, ih, firsts]
    by_cases he : d.name = e.name
    · split <;> simp [he]
    · split <;> rename_i hd <;> simp [he, hd]

/-! ## Chains of scopes -/

/-- What is done with the innermost of the open scopes: a name is declared in it, a scope is opened
inside of it, or it is left. -/
inductive ScopeStep where
  | declare (symbol : Symbol)
  | enter
  | leave

/-- Something for every open scope, the innermost one apart. -/
structure Nesting (α : Type) where
  inner : α
  outer : List α

namespace Nesting

variable {α β : Type}

/-- The parts of a chain, from the inside out. -/
def parts (k : Nesting α) : List α := k.inner :: k.outer

/-- A step, where a declaration changes what the innermost scope has. The outermost scope is not
left. -/
def step (fresh : α) (declare : α → Symbol → α) (k : Nesting α) : ScopeStep → Nesting α
  | .declare symbol => { k with inner := declare k.inner symbol }
  | .enter => ⟨fresh, k.parts⟩
  | .leave =>
    match k.outer with
    | [] => k
    | inner :: outer => ⟨inner, outer⟩

/-- What the open scopes have after some steps, from one scope on. -/
def after (fresh : α) (declare : α → Symbol → α) (steps : List ScopeStep) : Nesting α :=
  steps.foldl (step fresh declare) ⟨fresh, []⟩

/-- A relation between the parts of two chains is kept by a step if declarations keep it. A new
scope is the same on both sides, and leaving one drops a part on both. -/
theorem forall₂_step {R : α → β → Prop} {a : α} {b : β} {f : α → Symbol → α} {g : β → Symbol → β}
    (hfresh : R a b) (hdeclare : ∀ x y symbol, R x y → R (f x symbol) (g y symbol)) {k : Nesting α}
    {l : Nesting β} (h : List.Forall₂ R k.parts l.parts) (s : ScopeStep) :
    List.Forall₂ R (step a f k s).parts (step b g l s).parts := by
  obtain ⟨hinner, houter⟩ := List.forall₂_cons.mp h
  cases s with
  | declare symbol => exact .cons (hdeclare _ _ symbol hinner) houter
  | enter => exact .cons hfresh h
  | leave =>
    obtain ⟨x, xs⟩ := k
    obtain ⟨y, ys⟩ := l
    cases houter with
    | nil => exact h
    | cons hx hxs => exact .cons hx hxs

/-- **A relation that declarations keep holds after all steps.** Opening and leaving scopes is the
same for every representation, so it is enough to compare new scopes and declarations. -/
theorem forall₂_after {R : α → β → Prop} {a : α} {b : β} {f : α → Symbol → α} {g : β → Symbol → β}
    (hfresh : R a b) (hdeclare : ∀ x y symbol, R x y → R (f x symbol) (g y symbol))
    (steps : List ScopeStep) :
    List.Forall₂ R (after a f steps).parts (after b g steps).parts := by
  induction steps using List.reverseRecOn with
  | nil => exact .cons hfresh .nil
  | append_singleton steps s ih =>
    simp only [after, List.foldl_append, List.foldl_cons, List.foldl_nil]
    exact forall₂_step hfresh hdeclare ih s

end Nesting

/-- The declarations that were made in each open scope, whether they had success or not. -/
def made (steps : List ScopeStep) : Nesting (List Symbol) :=
  .after [] (fun ds d => ds ++ [d]) steps

namespace Scope

/-- The symbols of a scope and of those around it. -/
def levels (s : Scope) : List (List Symbol) := s.symbols :: s.outer

/-- The scope after a step. A declaration that is refused leaves it as it is. -/
def step (s : Scope) : ScopeStep → Scope
  | .declare symbol =>
    match s.declare symbol with
    | .ok s' => s'
    | .error _ => s
  | .enter => s.nested
  | .leave => s.leave

/-- The scope after some steps. -/
def after (s : Scope) (steps : List ScopeStep) : Scope := steps.foldl step s

/-! ## What a declaration does -/

/-- **A declaration in a scope.** It is refused if and only if the scope itself has the name, with
the line of the symbol that it has, and then nothing is changed. Otherwise the symbol is put behind
the others, and it is all that is new. -/
structure Declares (s : Scope) (symbol : Symbol) : Prop where
  refused_iff : (∃ line, s.declare symbol = .error line) ↔
    symbol.name ∈ s.symbols.map Symbol.name
  line_iff : ∀ line, s.declare symbol = .error line ↔
    ∃ bound, s.lookupLocal? symbol.name = some bound ∧ bound.line = line
  kept : symbol.name ∈ s.symbols.map Symbol.name → s.step (.declare symbol) = s
  added : symbol.name ∉ s.symbols.map Symbol.name →
    ∃ s', s.declare symbol = .ok s' ∧ s'.levels = (s.symbols ++ [symbol]) :: s.outer ∧
      ∀ x, s'.lookupLocal? x = if x = symbol.name then some symbol else s.lookupLocal? x

variable {s : Scope} {symbol : Symbol}

/-- A name is not found in a scope if and only if the scope has no symbol of this name. -/
theorem lookupLocal?_eq_none_iff {x : String} :
    s.lookupLocal? x = none ↔ x ∉ s.symbols.map Symbol.name := by
  simp [lookupLocal?]

/-- A new name is declared behind the symbols that are there. -/
theorem declare_of_notMem (h : symbol.name ∉ s.symbols.map Symbol.name) :
    s.declare symbol = .ok { s with symbols := s.symbols ++ [symbol] } := by
  rw [declare, lookupLocal?_eq_none_iff.mpr h]

/-- A name that is there is refused, with the line of the binding that stays. -/
theorem declare_of_lookupLocal? {bound : Symbol} (h : s.lookupLocal? symbol.name = some bound) :
    s.declare symbol = .error bound.line := by
  rw [declare, h]

/-- A name that a scope has is found there. -/
theorem exists_bound (h : symbol.name ∈ s.symbols.map Symbol.name) :
    ∃ bound, s.lookupLocal? symbol.name = some bound := by
  rw [← Option.ne_none_iff_exists']
  exact fun hnone => lookupLocal?_eq_none_iff.mp hnone h

/-- Behind a new declaration its name is found, and all others are found as before. -/
theorem lookupLocal?_concat (h : symbol.name ∉ s.symbols.map Symbol.name) (x : String) :
    ({ s with symbols := s.symbols ++ [symbol] } : Scope).lookupLocal? x =
      if x = symbol.name then some symbol else s.lookupLocal? x := by
  rw [lookupLocal?, lookupLocal?, List.find?_append]
  split
  · rename_i hx
    subst hx
    have hnone := lookupLocal?_eq_none_iff.mpr h
    rw [lookupLocal?] at hnone
    simp [hnone]
  · rename_i hx
    simp [Ne.symm hx]

/-- Every scope takes declarations in this way. A name that is bound makes the declaration fail with
the line of the first one, and the scope stays (`Scope::declare`). -/
theorem declares (s : Scope) (symbol : Symbol) : s.Declares symbol := by
  by_cases hbound : symbol.name ∈ s.symbols.map Symbol.name
  · obtain ⟨bound, hlookup⟩ := exists_bound hbound
    have hdeclare := declare_of_lookupLocal? hlookup
    refine ⟨iff_of_true ⟨_, hdeclare⟩ hbound, fun line => ?_, fun _ => ?_, (absurd hbound ·)⟩
    · rw [hdeclare, Except.error.injEq]
      constructor
      · exact fun hline => ⟨bound, hlookup, hline⟩
      · rintro ⟨bound', hlookup', hline⟩
        rw [hlookup, Option.some.injEq] at hlookup'
        rw [hlookup', hline]
    · rw [step, hdeclare]
  · have hdeclare := declare_of_notMem hbound
    refine ⟨iff_of_false ?_ hbound, fun line => iff_of_false ?_ ?_, (absurd · hbound), fun _ => ?_⟩
    · rintro ⟨line, hline⟩
      rw [hdeclare] at hline
      cases hline
    · rw [hdeclare]
      exact nofun
    · rintro ⟨bound, hlookup, -⟩
      rw [lookupLocal?_eq_none_iff.mpr hbound] at hlookup
      cases hlookup
    · exact ⟨_, hdeclare, rfl, lookupLocal?_concat hbound⟩

/-! ## What the open scopes hold -/

/-- One more declaration in a scope that holds the first ones of every name. -/
theorem step_declare {s : Scope} {ds : List Symbol} (h : s.symbols = firsts ds) (symbol : Symbol) :
    s.step (.declare symbol) = { s with symbols := firsts (ds ++ [symbol]) } := by
  rw [firsts_concat]
  by_cases hbound : symbol.name ∈ s.symbols.map Symbol.name
  · rw [(s.declares symbol).kept hbound]
    rw [h, mem_names_firsts] at hbound
    rw [if_pos hbound, ← h]
  · rw [step, declare_of_notMem hbound]
    rw [h, mem_names_firsts] at hbound
    rw [if_neg hbound, ← h]

/-- A step keeps what the open scopes hold. The declarations are kept in a list for every scope that
is open, and the scope itself has only the first of every name. -/
theorem levels_step (s : Scope) (k : Nesting (List Symbol)) (h : s.levels = k.parts.map firsts)
    (st : ScopeStep) :
    (s.step st).levels = (k.step [] (fun ds d => ds ++ [d]) st).parts.map firsts := by
  obtain ⟨hinner, houter⟩ := List.cons.inj h
  -- Only a declaration changes what a scope has; opening and leaving add or drop a scope.
  cases st with
  | declare symbol =>
    rw [step_declare hinner]
    exact congrArg (_ :: ·) houter
  | enter => exact congrArg ([] :: ·) h
  | leave =>
    obtain ⟨x, xs⟩ := k
    obtain ⟨symbols, outer⟩ := s
    cases xs with
    | nil =>
      obtain rfl : outer = [] := houter
      exact h
    | cons y ys =>
      obtain rfl : outer = firsts y :: ys.map firsts := houter
      rfl

/-- **The open scopes hold the first declarations of every name, in order.** By induction on the
steps from their end. -/
theorem levels_after (steps : List ScopeStep) :
    (global.after steps).levels = (made steps).parts.map firsts := by
  induction steps using List.reverseRecOn with
  | nil => rfl
  | append_singleton steps st ih =>
    have hstep := levels_step _ _ ih st
    simp only [after, made, Nesting.after, List.foldl_append, List.foldl_cons,
      List.foldl_nil] at hstep ⊢
    exact hstep

end Scope

/-! ## Tables with an index -/

/-- Symbols in the order of their declaration, and the positions of their names. -/
structure SymbolTable where
  symbols : Array Symbol
  index : Std.HashMap String Nat

namespace SymbolTable

/-- A table with nothing in it. -/
def empty : SymbolTable := ⟨#[], ∅⟩

/-- The symbol of a name, found through its position. -/
def find? (t : SymbolTable) (x : String) : Option Symbol :=
  t.index[x]?.bind fun i => t.symbols[i]?

/-- Adds a symbol, and gives the line of the one that has its name if there is one. -/
def declare (t : SymbolTable) (symbol : Symbol) : Except Nat Unit × SymbolTable :=
  match t.find? symbol.name with
  | some bound => (.error bound.line, t)
  | none => (.ok (), ⟨t.symbols.push symbol, t.index.insert symbol.name t.symbols.size⟩)

/-- **The two parts of a table agree.** No name is there twice, and the index has the names of the
symbols, no others, with their positions. -/
structure Coherent (t : SymbolTable) : Prop where
  nodup : (t.symbols.toList.map Symbol.name).Nodup
  index_iff : ∀ (x : String) (i : Nat),
    t.index[x]? = some i ↔ ∃ symbol, t.symbols[i]? = some symbol ∧ symbol.name = x

variable {t : SymbolTable}

/-- In an empty table there is nothing to disagree. -/
theorem coherent_empty : empty.Coherent where
  nodup := List.nodup_nil
  index_iff := by simp [empty]

/-- The symbol of a name is the one that a search through all symbols finds. The index is a
shortcut, and gives the same symbol as the search since a name has one position at most. -/
theorem Coherent.find?_eq (h : t.Coherent) (x : String) :
    t.find? x = t.symbols.toList.find? fun symbol => symbol.name = x := by
  rw [find?]
  cases hindex : t.index[x]? with
  | none =>
    symm
    rw [Option.bind_none, List.find?_eq_none]
    intro symbol hmem hname
    obtain ⟨i, hi⟩ := List.mem_iff_getElem?.mp hmem
    have hsome := (h.index_iff x i).mpr
      ⟨symbol, by rwa [Array.getElem?_toList] at hi, of_decide_eq_true hname⟩
    rw [hindex] at hsome
    cases hsome
  | some i =>
    obtain ⟨symbol, hi, hname⟩ := (h.index_iff x i).mp hindex
    -- A symbol that the search finds has a position, and the index has only one for its name.
    have hfound : (t.symbols.toList.find? fun symbol => symbol.name = x).isSome = true := by
      rw [List.find?_isSome]
      refine ⟨symbol, List.mem_iff_getElem?.mpr ⟨i, by rwa [Array.getElem?_toList]⟩, ?_⟩
      exact decide_eq_true hname
    obtain ⟨first, hfirst⟩ := Option.isSome_iff_exists.mp hfound
    obtain ⟨j, hj⟩ := List.mem_iff_getElem?.mp (List.mem_of_find?_eq_some hfirst)
    rw [Array.getElem?_toList] at hj
    have hfirstName : first.name = x := by simpa using List.find?_some hfirst
    have hindex' := (h.index_iff x j).mpr ⟨first, hj, hfirstName⟩
    rw [hindex, Option.some.injEq] at hindex'
    rw [hfirst, Option.bind_some, hindex', hj]

/-- A name is not found in a table if and only if the table has no symbol of this name. -/
theorem Coherent.find?_eq_none_iff (h : t.Coherent) {x : String} :
    t.find? x = none ↔ x ∉ t.symbols.toList.map Symbol.name := by
  rw [h.find?_eq]
  simp

/-- **A declaration keeps the parts of a table in agreement.** A new name gets the position of its
symbol, and no other position changes. -/
theorem Coherent.declare (h : t.Coherent) (symbol : Symbol) : (t.declare symbol).2.Coherent := by
  rw [SymbolTable.declare]
  cases hfind : t.find? symbol.name with
  | some bound => exact h
  | none =>
    have hnew := h.find?_eq_none_iff.mp hfind
    refine ⟨?_, fun x i => ?_⟩
    · rw [Array.toList_push, List.map_append, List.map_singleton, ← List.concat_eq_append,
        List.nodup_concat]
      exact ⟨hnew, h.nodup⟩
    · simp only [Std.HashMap.getElem?_insert, Array.getElem?_push, beq_iff_eq]
      by_cases hx : symbol.name = x
      · -- No position but the new one has a symbol of this name.
        rw [if_pos hx, Option.some.injEq]
        by_cases hi : i = t.symbols.size
        · rw [if_pos hi]
          exact iff_of_true hi.symm ⟨symbol, rfl, hx⟩
        · rw [if_neg hi]
          refine iff_of_false (Ne.symm hi) ?_
          rintro ⟨old, hold, rfl⟩
          refine hnew (List.mem_map.mpr ⟨old, ?_, hx.symm⟩)
          exact List.mem_iff_getElem?.mpr ⟨i, by rwa [Array.getElem?_toList]⟩
      · rw [if_neg hx, h.index_iff]
        by_cases hi : i = t.symbols.size
        · simp [hi, hx]
        · rw [if_neg hi]

/-- A table holds declarations if its symbols are the first ones of every name. -/
structure Holds (t : SymbolTable) (ds : List Symbol) : Prop where
  coherent : t.Coherent
  symbols : t.symbols.toList = firsts ds

/-- An empty table holds no declarations. -/
theorem holds_empty : empty.Holds [] := ⟨coherent_empty, rfl⟩

/-- A table that holds declarations holds one more behind a further declaration, whether it is taken
or refused. -/
theorem Holds.declare {ds : List Symbol} (h : t.Holds ds) (symbol : Symbol) :
    (t.declare symbol).2.Holds (ds ++ [symbol]) where
  coherent := h.coherent.declare symbol
  symbols := by
    have hnone := h.coherent.find?_eq_none_iff (x := symbol.name)
    rw [h.symbols, mem_names_firsts] at hnone
    rw [firsts_concat, SymbolTable.declare]
    cases hfind : t.find? symbol.name with
    | some bound =>
      have hmem : symbol.name ∈ ds.map Symbol.name := by
        by_contra hmem
        rw [hnone.mpr hmem] at hfind
        cases hfind
      rw [if_pos hmem]
      exact h.symbols
    | none => rw [if_neg (hnone.mp hfind), Array.toList_push, h.symbols]

end SymbolTable

/-- The tables of the open scopes after some steps. -/
def tablesAfter (steps : List ScopeStep) : Nesting SymbolTable :=
  .after .empty (fun t symbol => (t.declare symbol).2) steps

/-- After any steps, the tables hold the declarations that were made in the open scopes. -/
theorem holds_tablesAfter (steps : List ScopeStep) :
    List.Forall₂ SymbolTable.Holds (tablesAfter steps).parts (made steps).parts :=
  Nesting.forall₂_after SymbolTable.holds_empty (fun _ _ symbol h => h.declare symbol) steps

/-- **Tables stand for a scope and those around it.** The parts of each of them agree, they have the
same symbols in the same order, and they give the same answers: what a name is bound to in the
innermost scope and altogether, and whether it can be declared. -/
structure Implements (k : Nesting SymbolTable) (s : Scope) : Prop where
  coherent : ∀ t ∈ k.parts, t.Coherent
  symbols : k.parts.map (·.symbols.toList) = s.levels
  find? : ∀ x, k.inner.find? x = s.lookupLocal? x
  lookup? : ∀ x, k.parts.findSome? (·.find? x) = s.lookup? x
  declare : ∀ symbol, (k.inner.declare symbol).1 = (s.declare symbol).map fun _ => ()
  kept : ∀ symbol line, (k.inner.declare symbol).1 = .error line →
    (k.inner.declare symbol).2 = k.inner

/-- A name is looked up through tables as through their symbols. -/
theorem SymbolTable.findSome?_find? {ts : List SymbolTable} (h : ∀ t ∈ ts, t.Coherent)
    (x : String) :
    ts.findSome? (·.find? x) = (ts.map (·.symbols.toList)).findSome?
      fun symbols => symbols.find? fun symbol => symbol.name = x := by
  induction ts with
  | nil => rfl
  | cons t ts ih =>
    obtain ⟨ht, hts⟩ := List.forall_mem_cons.mp h
    rw [List.findSome?_cons, List.map_cons, List.findSome?_cons, ht.find?_eq, ih hts]

/-- Tables whose parts agree, and that have the symbols of the scopes, answer as the scopes do.
Every answer of a table is read off its symbols, for which the index is a shortcut. -/
theorem implements_of_coherent {k : Nesting SymbolTable} {s : Scope}
    (hcoherent : ∀ t ∈ k.parts, t.Coherent)
    (hsymbols : k.parts.map (·.symbols.toList) = s.levels) : Implements k s := by
  have hinner : k.inner.symbols.toList = s.symbols := (List.cons.inj hsymbols).1
  have hfind : ∀ x, k.inner.find? x = s.lookupLocal? x := by
    intro x
    rw [(hcoherent k.inner List.mem_cons_self).find?_eq, hinner, Scope.lookupLocal?]
  refine ⟨hcoherent, hsymbols, hfind, fun x => ?_, fun symbol => ?_, fun symbol line => ?_⟩
  · rw [SymbolTable.findSome?_find? hcoherent, hsymbols]
    rfl
  · rw [SymbolTable.declare, Scope.declare, hfind]
    cases s.lookupLocal? symbol.name <;> rfl
  · rw [SymbolTable.declare]
    cases k.inner.find? symbol.name with
    | some bound => exact fun _ => rfl
    | none => exact nofun

/-- **Open scopes are maps that take every name once.** After any steps, a scope and those around it
hold, each for itself, the first declarations of every name that were made there, in order. A name
is bound to the first of them in the scope itself, and altogether in the innermost scope where it
was declared. A declaration is refused if and only if the scope itself has the name, and changes
nothing else. Tables with an index of the names give the same answers all the way, and their parts
agree. -/
theorem open_scopes_take_names_once (steps : List ScopeStep) :
    let s := Scope.global.after steps
    let declared := (made steps).parts
    s.levels = declared.map firsts ∧
      (∀ symbols ∈ s.levels, (symbols.map Symbol.name).Nodup) ∧
      (∀ x, s.lookupLocal? x = (made steps).inner.find? fun d => d.name = x) ∧
      (∀ x, s.lookup? x = declared.findSome? fun ds => ds.find? fun d => d.name = x) ∧
      (∀ symbol, s.Declares symbol) ∧ Implements (tablesAfter steps) s := by
  intro s declared
  have hlevels : s.levels = declared.map firsts := Scope.levels_after steps
  -- The tables hold the same declarations as the scopes do, so they have the same symbols.
  obtain ⟨hcoherent, hsymbols⟩ := (List.forall₂_and_left _ _).mp
    ((holds_tablesAfter steps).imp fun _ _ h => ⟨h.coherent, h.symbols⟩)
  refine ⟨hlevels, fun symbols hmem => ?_, fun x => ?_, fun x => ?_, s.declares, ?_⟩
  · rw [hlevels] at hmem
    obtain ⟨ds, -, rfl⟩ := List.mem_map.mp hmem
    exact nodup_firsts ds
  · rw [Scope.lookupLocal?, (List.cons.inj hlevels).1]
    exact find?_firsts _ x
  · have hlookup : s.lookup? x = s.levels.findSome? fun symbols =>
        symbols.find? fun symbol => symbol.name = x := rfl
    rw [hlookup, hlevels, List.findSome?_map]
    congr 1
    funext ds
    exact find?_firsts ds x
  · have heq := List.forall₂_map_left_iff.mpr (List.forall₂_map_right_iff.mpr hsymbols)
    rw [List.forall₂_eq_eq_eq] at heq
    exact implements_of_coherent hcoherent (heq.trans hlevels.symm)

end Pulse

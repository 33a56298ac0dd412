/-
Calls go back to functions that stand earlier.

While the body of a function is checked, the function itself may be called and those whose bodies
are behind it; no other name of a function means anything yet. The list of functions is put together
later, by going through the tree. That the two agree, wherever functions are declared and called, is
what is shown: read as a text, the program mentions a function before it calls it.

A text is the calls and the functions of a block, in the order in which they stand there. It is cut
at a call or at a function, and what may be called at the cut are the functions before it. From this
follow positions in the list of functions, and from positions that functions call each other in a
circle only if they are one function.
-/
import Mathlib.Logic.Relation
import Pulse.Proofs.CodeTyping
import Pulse.Proofs.FunctionSymbols
import Pulse.Proofs.RegisterFlow

set_option autoImplicit false

namespace Pulse

open Rules CheckedStmt
open Code (split_append functionNames_nodup)

/-! ## Calls and functions as they stand in a block -/

/-- A call outside of the functions of a block, or one of these functions. -/
inductive Mention where
  | call (callee : String)
  | function (f : CheckedFunction)

namespace Mention

/-- The callee of a call. -/
def call? : Mention → Option String
  | call callee => some callee
  | function _ => none

/-- The function, if it is one. -/
def function? : Mention → Option CheckedFunction
  | call _ => none
  | function f => some f

end Mention

namespace CheckedStmt

mutual

/-- The calls and the functions of a statement, in the order of the text. -/
def mentions : CheckedStmt → List Mention
  | print _ value => value.callees.map .call
  | var _ _ none => []
  | var _ _ (some value) => value.callees.map .call
  | const _ _ value => value.callees.map .call
  | write _ _ value => value.callees.map .call
  | branch _ condition whenTrue whenFalse =>
    condition.callees.map .call ++ (mentionsOf whenTrue ++ mentionsOf whenFalse)
  | loop _ condition body => condition.callees.map .call ++ mentionsOf body
  | function _ name params returns body => [.function ⟨name, params, returns, body⟩]
  | ret _ value => value.callees.map .call

/-- The calls and the functions of the statements of a block. -/
def mentionsOf : List CheckedStmt → List Mention
  | [] => []
  | s :: ss => s.mentions ++ mentionsOf ss

end

end CheckedStmt

/-- The functions among calls and functions. -/
def declared (ms : List Mention) : List CheckedFunction := ms.filterMap Mention.function?

/-- The callees of the calls among calls and functions. -/
def called (ms : List Mention) : List String := ms.filterMap Mention.call?

/-- The names of the functions among calls and functions. -/
def declaredNames (ms : List Mention) : List String := (declared ms).map CheckedFunction.name

@[simp] theorem declared_append (a b : List Mention) :
    declared (a ++ b) = declared a ++ declared b :=
  List.filterMap_append

/-- A list of calls has no functions in it. -/
@[simp] theorem declared_calls (names : List String) : declared (names.map .call) = [] := by
  rw [declared, List.filterMap_eq_nil_iff]
  intro m hm
  obtain ⟨callee, -, rfl⟩ := List.mem_map.mp hm
  rfl

@[simp] theorem called_append (a b : List Mention) : called (a ++ b) = called a ++ called b :=
  List.filterMap_append

/-- A list of calls calls what it lists. -/
@[simp] theorem called_calls (names : List String) : called (names.map .call) = names := by
  rw [called, List.filterMap_map]
  exact List.filterMap_some

mutual

/-- The functions of the text of a statement are those that the tree lists. So the text of a program
is another way to look at its functions, with the calls between them. -/
theorem declared_mentions : (s : CheckedStmt) → declared s.mentions = s.functions
  | .print _ _ => by simp [mentions, functions]
  | .var _ _ none => rfl
  | .var _ _ (some _) => by simp [mentions, functions]
  | .const _ _ _ => by simp [mentions, functions]
  | .write _ _ _ => by simp [mentions, functions]
  | .branch _ _ whenTrue whenFalse => by
    simp [mentions, functions, declared_mentionsOf whenTrue, declared_mentionsOf whenFalse]
  | .loop _ _ body => by simp [mentions, functions, declared_mentionsOf body]
  | .function _ _ _ _ _ => rfl
  | .ret _ _ => by simp [mentions, functions]

/-- The functions of the text of a block are those that the tree lists. -/
theorem declared_mentionsOf : (ss : List CheckedStmt) → declared (mentionsOf ss) = functionsOf ss
  | [] => rfl
  | s :: ss => by simp [mentionsOf, functionsOf, declared_mentions s, declared_mentionsOf ss]

end

mutual

/-- The calls of the text of a statement are those of the statement. -/
theorem called_mentions : (s : CheckedStmt) → called s.mentions = s.callees
  | .print _ _ => by simp [mentions, callees]
  | .var _ _ none => rfl
  | .var _ _ (some _) => by simp [mentions, callees]
  | .const _ _ _ => by simp [mentions, callees]
  | .write _ _ _ => by simp [mentions, callees]
  | .branch _ _ whenTrue whenFalse => by
    simp [mentions, callees, called_mentionsOf whenTrue, called_mentionsOf whenFalse]
  | .loop _ _ body => by simp [mentions, callees, called_mentionsOf body]
  | .function _ _ _ _ _ => rfl
  | .ret _ _ => by simp [mentions, callees]

/-- The calls of the text of a block are those of its statements. -/
theorem called_mentionsOf : (ss : List CheckedStmt) → called (mentionsOf ss) = calleesOf ss
  | [] => rfl
  | s :: ss => by simp [mentionsOf, calleesOf, called_mentions s, called_mentionsOf ss]

end

/-! ## Texts in order -/

/-- Behind known functions, every call is to a known function or to one that stands before it. The
body of a function has no functions in it, and may call what may be called in front of the function,
and the function. -/
structure InOrder (known : List String) (ms : List Mention) : Prop where
  calls : ∀ before callee after, ms = before ++ .call callee :: after →
    callee ∈ known ++ declaredNames before
  bodies : ∀ before f after, ms = before ++ .function f :: after →
    functionsOf f.body = [] ∧
      ∀ callee ∈ calleesOf f.body, callee ∈ known ++ declaredNames before ∨ callee = f.name

namespace InOrder

variable {known : List String}

/-- A text of calls only is in order when all callees are known. Such a text is what an expression
makes, since no function is declared in one. -/
theorem of_calls {names : List String} (h : ∀ callee ∈ names, callee ∈ known) :
    InOrder known (names.map .call) where
  calls := by
    intro before callee after heq
    have hmem : Mention.call callee ∈ names.map .call := by
      rw [heq]
      simp
    obtain ⟨name, hname, hcall⟩ := List.mem_map.mp hmem
    cases hcall
    exact List.mem_append_left _ (h callee hname)
  bodies := by
    intro before f after heq
    have hmem : Mention.function f ∈ names.map .call := by
      rw [heq]
      simp
    obtain ⟨name, -, hcall⟩ := List.mem_map.mp hmem
    cases hcall

/-- Nothing is in order, whatever is known. -/
theorem nil (known : List String) : InOrder known [] :=
  of_calls (by simp : ∀ callee ∈ [], callee ∈ known)

/-- A single function is in order when its body has no functions and calls only what is known, or
itself. -/
theorem single {f : CheckedFunction} (hflat : functionsOf f.body = [])
    (h : ∀ callee ∈ calleesOf f.body, callee ∈ known ∨ callee = f.name) :
    InOrder known [.function f] where
  calls := by
    intro before callee after heq
    obtain ⟨-, hcall, -⟩ | ⟨-, hcall⟩ := List.append_eq_singleton_iff.mp heq.symm
    all_goals cases hcall
  bodies := by
    intro before g after heq
    obtain ⟨rfl, hfun⟩ | ⟨-, hfun⟩ := List.append_eq_singleton_iff.mp heq.symm
    · cases hfun
      refine ⟨hflat, ?_⟩
      intro callee hcallee
      rcases h callee hcallee with hknown | hself
      · exact .inl (List.mem_append_left _ hknown)
      · exact .inr hself
    · cases hfun

/-- Texts in order can be put behind each other: the functions of the first one are known in the
second. -/
theorem append {a b : List Mention} (ha : InOrder known a)
    (hb : InOrder (known ++ declaredNames a) b) : InOrder known (a ++ b) where
  calls := by
    intro before callee after heq
    rcases split_append heq with ⟨rest, hrest⟩ | ⟨rest, rfl, hrest⟩
    · exact ha.calls before callee rest hrest
    · have hcall := hb.calls rest callee after hrest
      rwa [List.append_assoc, declaredNames, declaredNames, ← List.map_append,
        ← declared_append] at hcall
  bodies := by
    intro before f after heq
    rcases split_append heq with ⟨rest, hrest⟩ | ⟨rest, rfl, hrest⟩
    · exact ha.bodies before f rest hrest
    · have hbody := hb.bodies rest f after hrest
      rwa [List.append_assoc, declaredNames, declaredNames, ← List.map_append,
        ← declared_append] at hbody

/-- Without functions, what is called is known. This is what is asked of a body: no function becomes
complete in it, so all it can call is what was known in front of it. -/
theorem calls_known {ss : List CheckedStmt} (h : InOrder known (mentionsOf ss))
    (hflat : functionsOf ss = []) : ∀ callee ∈ calleesOf ss, callee ∈ known := by
  intro callee hcallee
  rw [← called_mentionsOf] at hcallee
  obtain ⟨m, hm, hcall⟩ := List.mem_filterMap.mp hcallee
  obtain ⟨before, after, heq⟩ := List.append_of_mem hm
  cases m with
  | function f => cases hcall
  | call name =>
    cases hcall
    -- A block without functions has none before any call either.
    have hnone : declared before = [] := by
      have hall := declared_mentionsOf ss
      rw [heq, hflat, declared_append] at hall
      exact (List.append_eq_nil_iff.mp hall).1
    have hknown := h.calls before callee after heq
    rwa [declaredNames, hnone, List.map_nil, List.append_nil] at hknown

end InOrder

/-! ## The text of a checked program -/

/-- The names of the functions that may be called at a point. -/
def Rules.Env.callableNames (Γ : Env) : List String := Γ.callable.map Callee.name

/-- What may be called behind a block is what may be called in front of it, and its functions. -/
theorem Rules.Env.Adds.callableNames_eq {Γ Γ' : Env} {vars : List (String × Ty)}
    {fs : List CheckedFunction} (h : Γ.Adds Γ' vars fs) :
    Γ'.callableNames = Γ.callableNames ++ fs.map CheckedFunction.name := by
  obtain ⟨ks, hks, hfs⟩ := h.complete
  have hnames : fs.map CheckedFunction.name = ks.map Callee.name := by
    rw [← List.forall₂_eq_eq_eq, List.forall₂_map_left_iff, List.forall₂_map_right_iff]
    exact hfs.imp fun f k hfk => hfk.name
  rw [callableNames, callableNames, callable, callable, h.callee, hks, hnames]
  simp

/-- A block that leaves the complete functions as they are declares none. -/
theorem Rules.Env.Adds.functions_eq_nil {Γ Γ' : Env} {vars : List (String × Ty)}
    {fs : List CheckedFunction} (h : Γ.Adds Γ' vars fs) (heq : Γ'.complete = Γ.complete) :
    fs = [] := by
  obtain ⟨ks, hks, hfs⟩ := h.complete
  have hnil : ks = [] := by simpa [heq] using hks
  rw [hnil] at hfs
  exact List.forall₂_nil_right_iff.mp hfs

section Expressions

variable {Γ : Env}

mutual

/-- An expression calls what may be called. By induction on the derivation; the rule of calls is the
only one with a callee of its own, and it asks for the callee. -/
theorem callees_of_hasType (c : Checker) {e : Expr Span} {t : Ty} :
    HasType Γ e t → ∀ callee ∈ (c.context.expr e).1.callees, callee ∈ Γ.callableNames
  | .literal => by simp [Context.expr, Expr.callees]
  | .read _ => by simp [Context.expr, Expr.callees]
  | .binary hl hr _ => by
    intro callee hcallee
    simp only [Context.expr, Expr.callees, List.mem_append] at hcallee
    rcases hcallee with hcallee | hcallee
    · exact callees_of_hasType c hl callee hcallee
    · exact callees_of_hasType c hr callee hcallee
  | .unary he _ => by
    intro callee hcallee
    simp only [Context.expr, Expr.callees] at hcallee
    exact callees_of_hasType c he callee hcallee
  | .call hk hes => by
    intro callee hcallee
    simp only [Context.expr, Expr.callees, List.mem_append, List.mem_singleton] at hcallee
    rcases hcallee with hcallee | rfl
    · exact calleesOf_of_haveTypes c hes callee hcallee
    · exact List.mem_map_of_mem hk

/-- Several expressions call what may be called. -/
theorem calleesOf_of_haveTypes (c : Checker) {es : List (Expr Span)} {ts : List Ty} :
    HaveTypes Γ es ts → ∀ callee ∈ Expr.calleesOf (c.context.exprs es).1,
      callee ∈ Γ.callableNames
  | .nil => by simp [Context.exprs, Expr.calleesOf]
  | .cons he hes => by
    intro callee hcallee
    simp only [Context.exprs, Expr.calleesOf, List.mem_append] at hcallee
    rcases hcallee with hcallee | hcallee
    · exact callees_of_hasType c he callee hcallee
    · exact calleesOf_of_haveTypes c hes callee hcallee

end

/-- An expression is in order where it has a type. -/
theorem inOrder_of_hasType (c : Checker) {e : Expr Span} {t : Ty} (h : HasType Γ e t) :
    InOrder Γ.callableNames ((c.context.expr e).1.callees.map .call) :=
  .of_calls (callees_of_hasType c h)

end Expressions

mutual

/-- A statement is in order behind what may be called in front of it. By induction on the
derivation. Blocks are in order behind what was declared in front of them in the same statement, and
a function may call itself. -/
theorem inOrder_of_stmt {c : Checker} {Γ Γ' : Env} {seen : Bool} {s : Stmt} :
    StmtTyped Γ s Γ' → Agrees c Γ seen → c.Clean → InOrder Γ.callableNames (c.stmt s).1.mentions
  | .print he, _, _ => inOrder_of_hasType c he
  | .var _ _, _, _ => .nil _
  | .varWith he _ _, _, _ => inOrder_of_hasType c he
  | .const he _, _, _ => inOrder_of_hasType c he
  | .write he _ _, _, _ => inOrder_of_hasType c he
  | .branch he ht hf, h, hc => by
    obtain ⟨hty, hfaults⟩ := expr_of_hasType h he
    obtain ⟨h₁, hc₁⟩ := block_of_typed ht h hc
    -- The functions of the first block may be called in the second one.
    have hnames := (typedBlock_of_typed ht h hc).1.callableNames_eq
    have hfirst := inOrder_of_block ht h hc
    have hsecond := inOrder_of_block hf h₁ hc₁
    rw [hnames, ← declared_mentionsOf] at hsecond
    simp only [Checker.stmt, Checker.condition_eq hfaults hty, mentions]
    refine (inOrder_of_hasType c he).append ?_
    rw [declaredNames, declared_calls, List.map_nil, List.append_nil]
    exact hfirst.append hsecond
  | .loop he hb, h, hc => by
    obtain ⟨hty, hfaults⟩ := expr_of_hasType h he
    simp only [Checker.stmt, Checker.condition_eq hfaults hty, mentions]
    refine (inOrder_of_hasType c he).append ?_
    rw [declaredNames, declared_calls, List.map_nil, List.append_nil]
    exact inOrder_of_block hb h hc
  | @StmtTyped.function _ Γ₁ span ps returns body k outside fresh params distinct result entry hb
      _, h, hc => by
    obtain ⟨hopen, hclean⟩ := h.opened outside span.line fresh params distinct
    have hwithin : Γ₁.Within k Γ.globals Γ.complete := hb.within ⟨rfl, rfl, rfl⟩
    -- Inside of a function no function becomes complete, so the body declares none.
    have hflat := (typedBlock_of_typed hb hopen (hclean.mpr hc)).1.functions_eq_nil
      hwithin.complete_eq
    have hknown := (inOrder_of_block hb hopen (hclean.mpr hc)).calls_known hflat
    rw [h.stmt_function outside fresh params distinct result entry, mentions]
    refine .single hflat ?_
    intro callee hcallee
    -- In the body its own function may be called, which is not complete yet.
    have hcallable := hknown callee hcallee
    simp only [Env.callableNames, Env.callable, Env.enter, outside, Option.map_some,
      Option.toList_some, Option.map_none, Option.toList_none, List.nil_append,
      List.singleton_append, List.map_cons, List.mem_cons] at hcallable ⊢
    exact hcallable.symm
  | .ret _ he, _, _ => inOrder_of_hasType c he

/-- A block is in order behind what may be called in front of it. Each statement is in order behind
what the ones before it have declared. -/
theorem inOrder_of_block {c : Checker} {Γ Γ' : Env} {seen : Bool} {ss : List Stmt} :
    BlockTyped Γ ss Γ' → Agrees c Γ seen → c.Clean →
      InOrder Γ.callableNames (mentionsOf (c.block ss).1)
  | .nil, _, _ => .nil _
  | .cons hs hss, h, hc => by
    obtain ⟨h₁, hc₁⟩ := stmt_of_typed hs h hc
    have hnames := (typedStmt_of_typed hs h hc).1.callableNames_eq
    have hrest := inOrder_of_block hss h₁ hc₁
    rw [hnames, ← declared_mentions] at hrest
    simp only [Checker.block, mentionsOf]
    exact (inOrder_of_stmt hs h hc).append hrest

end

/-! ## Positions in the list of functions -/

/-- The functions of a text up to a position are those that stand before the function there. This
takes positions in the list of functions to places in the text, where calls stand between them. -/
theorem exists_split {ms : List Mention} {k : Nat} {f : CheckedFunction}
    (h : (declared ms)[k]? = some f) :
    ∃ before after, ms = before ++ .function f :: after ∧
      declared before = (declared ms).take k := by
  induction ms generalizing k with
  | nil => cases h
  | cons m ms ih =>
    cases m with
    | call callee =>
      obtain ⟨before, after, rfl, hbefore⟩ := ih h
      exact ⟨.call callee :: before, after, rfl, hbefore⟩
    | function g =>
      cases k with
      | zero =>
        obtain rfl : g = f := Option.some.inj h
        exact ⟨[], ms, rfl, rfl⟩
      | succ k =>
        obtain ⟨before, after, rfl, hbefore⟩ := ih h
        exact ⟨.function g :: before, after, rfl, congrArg (List.cons g) hbefore⟩

/-- The functions that a text names have a place in it. -/
theorem exists_function_of_name {ms : List Mention} {name : String} (h : name ∈ declaredNames ms) :
    ∃ f, .function f ∈ ms ∧ f.name = name := by
  obtain ⟨f, hf, rfl⟩ := List.mem_map.mp h
  obtain ⟨m, hm, hfun⟩ := List.mem_filterMap.mp hf
  cases m with
  | call callee => cases hfun
  | function g =>
    cases hfun
    exact ⟨f, hm, rfl⟩

/-- Functions have names of their own, and each calls functions that are not behind it in the list;
the one in its own place it calls by its own name. -/
structure Backward (fs : List CheckedFunction) : Prop where
  distinct : (fs.map CheckedFunction.name).Nodup
  calls : ∀ (k : Nat) (f : CheckedFunction), fs[k]? = some f → ∀ callee ∈ calleesOf f.body,
    ∃ (j : Nat) (g : CheckedFunction), j ≤ k ∧ fs[j]? = some g ∧ g.name = callee ∧
      (j = k ↔ callee = f.name)

/-- Under distinct names a function is found at its position. -/
theorem idxOf_name {fs : List CheckedFunction} (h : (fs.map CheckedFunction.name).Nodup) {k : Nat}
    {f : CheckedFunction} (hf : fs[k]? = some f) :
    (fs.map CheckedFunction.name).idxOf f.name = k := by
  have hname : (fs.map CheckedFunction.name)[k]? = some f.name := by
    rw [List.getElem?_map, hf, Option.map_some]
  obtain ⟨hlen, hget⟩ := List.getElem?_eq_some_iff.mp hname
  rw [← hget]
  exact h.idxOf_getElem k hlen

/-- The functions of a text in order. Each of them calls itself and earlier ones only, as everything
that is known in front of a function is declared there. -/
theorem InOrder.backward {ms : List Mention} (h : InOrder [] ms)
    (hdistinct : ((declared ms).map CheckedFunction.name).Nodup) : Backward (declared ms) := by
  refine ⟨hdistinct, ?_⟩
  intro k f hf callee hcallee
  obtain ⟨before, after, heq, hbefore⟩ := exists_split hf
  -- The callee stands before the function, or it is the function itself.
  rcases (h.bodies before f after heq).2 callee hcallee with hearlier | rfl
  · rw [List.nil_append, declaredNames, hbefore] at hearlier
    obtain ⟨g, hg, rfl⟩ := List.mem_map.mp hearlier
    obtain ⟨j, hjg⟩ := List.mem_iff_getElem?.mp hg
    -- It is among the functions before the position, so its own position is a smaller one.
    have hj : j < k := by
      by_contra hle
      rw [List.getElem?_take, if_neg hle] at hjg
      cases hjg
    rw [List.getElem?_take, if_pos hj] at hjg
    refine ⟨j, g, Nat.le_of_lt hj, hjg, rfl, ⟨fun hjk => absurd hjk (Nat.ne_of_lt hj), ?_⟩⟩
    intro hname
    rw [← idxOf_name hdistinct hjg, ← idxOf_name hdistinct hf, hname]
  · exact ⟨k, f, Nat.le_refl k, hf, rfl, by simp⟩

/-- One function calls another one, both by name. -/
def Calls (fs : List CheckedFunction) (x y : String) : Prop :=
  ∃ f ∈ fs, f.name = x ∧ y ∈ calleesOf f.body

namespace Backward

variable {fs : List CheckedFunction} {x y : String}

/-- A call leads to no later position. -/
theorem idxOf_le (h : Backward fs) (hxy : Calls fs x y) :
    y ∈ fs.map CheckedFunction.name ∧
      (fs.map CheckedFunction.name).idxOf y ≤ (fs.map CheckedFunction.name).idxOf x := by
  obtain ⟨f, hf, rfl, hy⟩ := hxy
  obtain ⟨k, hk⟩ := List.mem_iff_getElem?.mp hf
  obtain ⟨j, g, hj, hg, rfl, -⟩ := h.calls k f hk y hy
  refine ⟨List.mem_map_of_mem (List.mem_of_getElem? hg), ?_⟩
  rw [idxOf_name h.distinct hg, idxOf_name h.distinct hk]
  exact hj

/-- So does a chain of calls. -/
theorem idxOf_le_of_transGen (h : Backward fs) (hxy : Relation.TransGen (Calls fs) x y) :
    y ∈ fs.map CheckedFunction.name ∧
      (fs.map CheckedFunction.name).idxOf y ≤ (fs.map CheckedFunction.name).idxOf x := by
  induction hxy with
  | single hcall => exact h.idxOf_le hcall
  | tail _ hcall ih =>
    obtain ⟨hmem, hle⟩ := h.idxOf_le hcall
    exact ⟨hmem, Nat.le_trans hle ih.2⟩

/-- Functions that call each other are one function. -/
theorem eq_of_cycle (h : Backward fs) (hxy : Relation.TransGen (Calls fs) x y)
    (hyx : Relation.TransGen (Calls fs) y x) : x = y := by
  obtain ⟨-, hle⟩ := h.idxOf_le_of_transGen hxy
  obtain ⟨hmem, hge⟩ := h.idxOf_le_of_transGen hyx
  exact (List.idxOf_inj hmem).mp (Nat.le_antisymm hge hle)

end Backward

/-- **Calls go backward.** In a program without diagnostics the functions are listed in source order
under names of their own, and no function has functions in its body. A function at a position calls
only functions at this position or before it, and at this position only itself. A call outside of
functions comes behind its callee in the text. So there is no circle of calls except from a function
to itself. -/
theorem calls_go_backward (p : Program) (h : p.analyze.diagnostics = []) :
    p.analyze.program.functions.map CheckedFunction.name = p.functionNames ∧
      (∀ f ∈ p.analyze.program.functions, functionsOf f.body = []) ∧
      Backward p.analyze.program.functions ∧
      (∀ before callee after,
        mentionsOf p.analyze.program.body = before ++ .call callee :: after →
          ∃ f, .function f ∈ before ∧ f.name = callee) ∧
      ∀ x y, Relation.TransGen (Calls p.analyze.program.functions) x y →
        Relation.TransGen (Calls p.analyze.program.functions) y x → x = y := by
  obtain ⟨d, hd⟩ := typedProgram_of_clean p h
  obtain ⟨Γ, hΓ⟩ := typed_of_block agrees_start p.body ((analyze_diagnostics p).mp h)
  -- Everything follows from the order in which functions and calls are mentioned.
  have horder : InOrder [] (mentionsOf p.analyze.program.body) :=
    inOrder_of_block hΓ agrees_start Checker.clean_start
  have hlist : declared (mentionsOf p.analyze.program.body) = p.analyze.program.functions :=
    declared_mentionsOf _
  have hbackward : Backward p.analyze.program.functions := by
    rw [← hlist]
    refine horder.backward ?_
    rw [hlist]
    exact functionNames_nodup hd
  refine ⟨functionNames_analyze p, ?_, hbackward, ?_, fun x y => hbackward.eq_of_cycle⟩
  · intro f hf
    rw [← hlist] at hf
    obtain ⟨k, hk⟩ := List.mem_iff_getElem?.mp hf
    obtain ⟨before, after, heq, -⟩ := exists_split hk
    exact (horder.bodies before f after heq).1
  · intro before callee after heq
    exact exists_function_of_name (horder.calls before callee after heq)

/-- Functions in both arms of a branch, one of which calls the other, behind one that calls itself;
and a loop that calls the last of them before and inside of its body. -/
def callingBack : Program :=
  let here : Span := ⟨.nowhere, .nowhere⟩
  let int : TypeName := ⟨"int", here⟩
  let number (v : Int32) : Expr Span := .literal here (.int v)
  let n : Expr Span := .read here "n"
  let call (f : String) (e : Expr Span) : Expr Span := .call here f [e]
  let function (f : String) (body : List Stmt) : Stmt :=
    .function here f [⟨"n", int, here⟩] int body
  { span := here
    body := [
      function "down" [
        .branch here (.binary here (.compare .greater) n (number 0))
          [.ret here (call "down" (.binary here (.arith .sub) n (number 1)))] [],
        .ret here (number 0)],
      .branch here (.binary here (.compare .equals) (call "down" (number 3)) (number 0))
        [function "twice" [.ret here (.binary here (.arith .add) (call "down" n) (call "down" n))]]
        [function "again" [.ret here (call "twice" (call "down" n))]],
      .loop here (.binary here (.compare .less) (call "again" (number 1)) (number 0))
        [.print here (call "again" (call "twice" (number 2)))]] }

/-- A program in which every kind of call occurs: from a function to itself and to earlier ones,
from a condition, and from inside a loop. -/
theorem callingBack_backward : callingBack.analyze.diagnostics = [] ∧
    callingBack.functionNames = ["down", "twice", "again"] ∧
      Backward callingBack.analyze.program.functions ∧
      ¬(Relation.TransGen (Calls callingBack.analyze.program.functions) "down" "again" ∧
        Relation.TransGen (Calls callingBack.analyze.program.functions) "again" "down") := by
  have hclean : callingBack.analyze.diagnostics = [] := by decide
  obtain ⟨-, -, hbackward, -, hcycle⟩ := calls_go_backward callingBack hclean
  refine ⟨hclean, by decide, hbackward, ?_⟩
  rintro ⟨hthere, hback⟩
  exact absurd (hcycle "down" "again" hthere hback) (by decide)

end Pulse

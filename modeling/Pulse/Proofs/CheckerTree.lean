/-
The tree that the checker leaves of a program without diagnostics.

Where there is a derivation, the checker puts the type of the derivation at every node, so the tree
is typed. Along the way the environment grows by exactly what the tree declares, which ties the
outline of the tree to the scopes of the checker. Later stages work from the tree only and never
look at the checker again.

The types are all that is new in the tree: without them it is the program as it is written,
statement by statement. So what is proved of the tree is proved of the program.
-/
import Pulse.Proofs.CheckerTyping
import Pulse.Proofs.RootFaults
import Pulse.Proofs.TypedTree

set_option autoImplicit false

namespace Pulse

open Rules CheckedStmt

/-! ## What becomes known along a block -/

/-- A binding as a variable. -/
def Rules.Binding.var (b : Binding) : String × Ty := (b.name, b.ty)

namespace Rules.Env

/-- The frame at a point of a program. -/
def frame (Γ : Env) : Option Frame :=
  Γ.body.map fun b => ⟨b.locals.map Binding.var, b.callee.returns⟩

/-- Everything that is known at a point is in the outline. -/
structure In (Γ : Env) (d : Outline) : Prop where
  globals : ∀ b ∈ Γ.globals, b.var ∈ d.globals
  callable : ∀ k ∈ Γ.callable, k ∈ d.functions

/-- What becomes known between two points: variables in the innermost scope, and functions. -/
structure Adds (Γ Γ' : Env) (vars : List (String × Ty)) (fs : List CheckedFunction) : Prop where
  inner : Γ'.inner.map Binding.var = Γ.inner.map Binding.var ++ vars
  outer : Γ'.outer = Γ.outer
  callee : Γ'.body.map Body.callee = Γ.body.map Body.callee
  complete : ∃ ks, Γ'.complete = Γ.complete ++ ks ∧ List.Forall₂ FunctionIs fs ks
  distinct : (Γ.inner.map Binding.name).Nodup → (Γ'.inner.map Binding.name).Nodup

variable {Γ Γ' Γ'' : Env} {d : Outline}

/-- Between a point and itself nothing becomes known. -/
theorem Adds.refl (Γ : Env) : Γ.Adds Γ [] [] :=
  ⟨by simp, rfl, rfl, ⟨[], by simp⟩, id⟩

/-- What becomes known on two stretches of a program is added up in order. Names stay distinct over
both, since each stretch keeps them so. -/
theorem Adds.trans {vars vars' : List (String × Ty)} {fs fs' : List CheckedFunction}
    (h : Γ.Adds Γ' vars fs) (h' : Γ'.Adds Γ'' vars' fs') :
    Γ.Adds Γ'' (vars ++ vars') (fs ++ fs') where
  inner := by rw [h'.inner, h.inner, List.append_assoc]
  outer := h'.outer.trans h.outer
  callee := h'.callee.trans h.callee
  complete := by
    obtain ⟨ks, hks, hfs⟩ := h.complete
    obtain ⟨ks', hks', hfs'⟩ := h'.complete
    exact ⟨ks ++ ks', by rw [hks', hks, List.append_assoc], List.rel_append hfs hfs'⟩
  distinct := fun hn => h'.distinct (h.distinct hn)

/-- A declaration adds one variable, and its name stays the only one of its kind in the scope. -/
theorem Adds.bind {x : String} (free : Γ.Free x) (t : Ty) (isConst : Bool) :
    Γ.Adds (Γ.bind ⟨x, t, isConst⟩) [(x, t)] [] where
  inner := by simp [Binding.var]
  outer := bind_outer _ _
  callee := bind_body_map _ _
  complete := ⟨[], by simp⟩
  distinct := fun hn => by
    rw [bind_inner, List.map_append, List.nodup_append]
    refine ⟨hn, by simp, ?_⟩
    intro y hy z hz
    obtain ⟨b, hb, rfl⟩ := List.mem_map.mp hy
    rw [List.map_singleton, List.mem_singleton] at hz
    exact hz ▸ free.unbound b hb

/-- A function adds itself, once its body is left. -/
theorem Adds.finish {k : Callee} {f : CheckedFunction} (hb : Γ.body = none) (hf : FunctionIs f k) :
    Γ.Adds (Γ.finish k) [] [f] where
  inner := by simp [Env.finish, Env.inner, hb]
  outer := by simp [Env.finish, Env.outer, hb]
  callee := rfl
  complete := ⟨[k], rfl, .cons hf .nil⟩
  distinct := by simp [Env.finish, Env.inner, hb]

/-- What is known at a point is still known behind it. Bindings are only ever added, so an outline
that has all that is known at the end has all that is known here. -/
theorem Adds.in_of_in {vars : List (String × Ty)} {fs : List CheckedFunction}
    (h : Γ.Adds Γ' vars fs) (hd : Γ'.In d) : Γ.In d where
  globals := by
    intro b hb
    have hinner := h.inner
    have houter := h.outer
    have hcallee := h.callee
    -- Outside of functions a binding is one of the program; inside of one they stay as they are.
    cases hΓ : Γ.body with
    | none =>
      have hΓ' : Γ'.body = none := by simpa [hΓ] using hcallee
      simp only [Env.inner, hΓ, hΓ'] at hinner
      have hmem : b.var ∈ Γ'.globals.map Binding.var := by
        rw [hinner]
        exact List.mem_append_left _ (List.mem_map_of_mem hb)
      obtain ⟨b', hb', heq⟩ := List.mem_map.mp hmem
      exact heq ▸ hd.globals b' hb'
    | some body =>
      obtain ⟨body', hΓ', -⟩ := Option.map_eq_some_iff.mp (hcallee.trans (by simp [hΓ]; rfl))
      simp only [Env.outer, hΓ, hΓ', List.cons.injEq, and_true] at houter
      exact hd.globals b (houter ▸ hb)
  callable := by
    intro k hk
    obtain ⟨ks, hks, -⟩ := h.complete
    apply hd.callable
    simp only [Env.callable, hks, h.callee] at hk ⊢
    rcases List.mem_append.mp hk with hk | hk
    · exact List.mem_append_left _ hk
    · exact List.mem_append_right _ (List.mem_append_left _ hk)

/-- At the end of a body the same is known from outside as behind the function. -/
theorem Within.in_of_finish {k : Callee} (h : Γ'.Within k Γ.globals Γ.complete)
    (outside : Γ.body = none) (hd : (Γ.finish k).In d) : Γ'.In d where
  globals := by
    rw [h.globals_eq]
    exact hd.globals
  callable := by
    intro j hj
    apply hd.callable
    simp only [Env.callable, h.callee_eq, h.complete_eq] at hj
    simp only [Env.callable, Env.finish, outside]
    simpa [or_comm] using hj

/-- The frame behind a stretch of a program is the one before it with the new variables in it.
Outside of functions there is no frame at either point. -/
theorem Adds.frame_eq {vars : List (String × Ty)} {fs : List CheckedFunction}
    (h : Γ.Adds Γ' vars fs) : Γ'.frame = Frame.past Γ.frame vars := by
  have hinner := h.inner
  have hcallee := h.callee
  cases hΓ : Γ.body with
  | none =>
    have hΓ' : Γ'.body = none := by simpa [hΓ] using hcallee
    simp [frame, Frame.past, hΓ, hΓ']
  | some body =>
    obtain ⟨body', hΓ', hk⟩ := Option.map_eq_some_iff.mp (hcallee.trans (by simp [hΓ]; rfl))
    simp only [Env.inner, hΓ, hΓ'] at hinner
    simp [frame, Frame.past, hΓ, hΓ', hinner, hk]

end Rules.Env

/-! ## Expressions and declarations -/

section Elaboration

variable {c : Checker} {Γ : Env} {seen : Bool} {d : Outline}

/-- A binding that is found is a variable of the frame or of the program. The search goes through
the function first and through the program behind it, and so do the typing rules of the tree. -/
theorem var_of_lookup? (hd : Γ.In d) {x : String} {b : Binding} (h : Γ.lookup? x = some b) :
    d.Var (localsOf Γ.frame) x b.ty := by
  have hfound : ∀ {bs : List Binding}, bs.find? (fun b => b.name = x) = some b →
      b ∈ bs ∧ b.name = x :=
    fun hf => ⟨List.mem_of_find?_eq_some hf, by simpa using List.find?_some hf⟩
  cases hb : Γ.body with
  | none =>
    -- One scope, that of the program.
    simp only [Env.lookup?, Env.inner, Env.outer, hb, List.findSome?_cons, List.findSome?_nil] at h
    split at h
    · rename_i b' hf
      obtain rfl := Option.some.inj h
      obtain ⟨hmem, rfl⟩ := hfound hf
      refine .inr ⟨by simp [Env.frame, hb, localsOf], ?_⟩
      exact hd.globals _ hmem
    · simp at h
  | some body =>
    simp only [Env.lookup?, Env.inner, Env.outer, hb, List.findSome?_cons, List.findSome?_nil] at h
    have hlocals : localsOf Γ.frame = body.locals.map Binding.var := by
      simp [Env.frame, hb, localsOf]
    rw [hlocals]
    split at h
    · rename_i b' hf
      obtain rfl := Option.some.inj h
      obtain ⟨hmem, rfl⟩ := hfound hf
      exact .inl (List.mem_map.mpr ⟨_, hmem, rfl⟩)
    · -- A variable of the program, under a name that the function does not declare.
      rename_i hnone
      split at h
      · rename_i b' hf
        obtain rfl := Option.some.inj h
        obtain ⟨hmem, rfl⟩ := hfound hf
        refine .inr ⟨?_, hd.globals _ hmem⟩
        intro hx
        obtain ⟨v, hv, hvx⟩ := List.mem_map.mp hx
        obtain ⟨b₁, hb₁, rfl⟩ := List.mem_map.mp hv
        have := List.find?_eq_none.mp hnone b₁ hb₁
        exact this (by simpa [Binding.var] using hvx)
      · simp at h

mutual

/-- The checker leaves a typed expression where there is a derivation. By induction on the
derivation, where the notes are the types that it has. -/
theorem typedExpr_of_hasType (h : Agrees c Γ seen) (hd : Γ.In d) {e : Expr Span} {t : Ty} :
    HasType Γ e t → TypedExpr d (localsOf Γ.frame) (c.context.expr e).1 t
  | .literal => .literal rfl
  | .read hb => .read (expr_of_hasType h (.read hb)).1 (var_of_lookup? hd hb)
  | .binary hl hr rule =>
    .binary (expr_of_hasType h (.binary hl hr rule)).1 (typedExpr_of_hasType h hd hl)
      (typedExpr_of_hasType h hd hr) rule
  | .unary he rule =>
    .unary (expr_of_hasType h (.unary he rule)).1 (typedExpr_of_hasType h hd he) rule
  | .call hk hes =>
    .call (expr_of_hasType h (.call hk hes)).1 (hd.callable _ hk) (typedExprs_of_haveTypes h hd hes)

/-- The checker leaves typed arguments where there are derivations. -/
theorem typedExprs_of_haveTypes (h : Agrees c Γ seen) (hd : Γ.In d) {es : List (Expr Span)}
    {ts : List Ty} : HaveTypes Γ es ts → TypedExprs d (localsOf Γ.frame) (c.context.exprs es).1 ts
  | .nil => .nil
  | .cons he hes => .cons (typedExpr_of_hasType h hd he) (typedExprs_of_haveTypes h hd hes)

end

/-- A name that is free may be declared: as a variable of the program that the outline has under
this name, or as a local one that is not there yet. -/
theorem new_of_free {x : String} {t : Ty} {isConst : Bool} (free : Γ.Free x)
    (hd : (Γ.bind ⟨x, t, isConst⟩).In d) : d.New Γ.frame x t := by
  cases hb : Γ.body with
  | none =>
    simp only [Env.frame, hb, Option.map_none, Outline.New]
    refine hd.globals ⟨x, t, isConst⟩ ?_
    simp [Env.bind, hb]
  | some body =>
    simp only [Env.frame, hb, Option.map_some, Outline.New, List.map_map]
    intro hx
    obtain ⟨b, hmem, hname⟩ := List.mem_map.mp hx
    refine free.unbound b ?_ hname
    simpa [Env.inner, hb] using hmem

/-- The parameters of a function that checks, as variables. -/
theorem typedParams_eq {ps : List Param} {ts : List Ty} (h : ps.length = ts.length) :
    Checker.typedParams ps ts = ((ps.map Param.name).zip ts).map fun v => ⟨v.1, some v.2⟩ := by
  induction ps generalizing ts with
  | nil => simp [Checker.typedParams]
  | cons p ps ih =>
    cases ts with
    | nil => simp at h
    | cons t ts => simpa [Checker.typedParams] using ih (by simpa using h)

end Elaboration

/-! ## Statements and programs -/

mutual

-- Types of variables and callees are asked of an outline of the whole program, which is known only
-- at its end. So the tree is typed for every outline that has what is known behind the statement.

/-- The checker leaves a typed statement where there is a derivation, and the environment behind it
has grown by what the statement declares. -/
theorem typedStmt_of_typed {c : Checker} {Γ Γ' : Env} {seen : Bool} {s : Stmt} :
    StmtTyped Γ s Γ' → Agrees c Γ seen → c.Clean →
      Γ.Adds Γ' (c.stmt s).1.declarations (c.stmt s).1.functions ∧
        ∀ d, Γ'.In d → TypedStmt d Γ.frame (c.stmt s).1
  | .print he, h, hc => by
    refine ⟨by simpa [Checker.stmt, declarations, functions] using .refl Γ, fun d hd => ?_⟩
    exact .print (expr_of_hasType h he).1 (typedExpr_of_hasType h hd he)
  | .var (x := x) (t := t) free named, h, hc => by
    obtain ⟨hx, hl⟩ := (h.free_iff x).mp free
    simp only [Checker.stmt, Checker.expr?, Option.bind_none]
    rw [Checker.declareVar_eq hx hl named (.inl rfl)]
    exact ⟨by simpa [declarations, functions] using .bind free t false,
      fun d hd => .var rfl (new_of_free free hd)⟩
  | .varWith (x := x) (t := t) he free named, h, hc => by
    obtain ⟨hx, hl⟩ := (h.free_iff x).mp free
    obtain ⟨ht, hf⟩ := expr_of_hasType h he
    have hadds : Γ.Adds (Γ.bind ⟨x, t, false⟩) [(x, t)] [] := .bind free t false
    simp only [Checker.stmt, Checker.expr?, Checker.expr, hf, Checker.reportAll_nil, ht,
      Option.bind_some]
    rw [Checker.declareVar_eq hx hl named (.inr rfl)]
    refine ⟨by simpa [declarations, functions] using hadds, fun d hd => ?_⟩
    exact .varWith rfl (typedExpr_of_hasType h (hadds.in_of_in hd) he) (new_of_free free hd)
  | .const (x := x) (t := t) he free, h, hc => by
    obtain ⟨ht, hf⟩ := expr_of_hasType h he
    have hadds : Γ.Adds (Γ.bind ⟨x, t, true⟩) [(x, t)] [] := .bind free t true
    simp only [Checker.stmt, Checker.expr, ht]
    refine ⟨by simpa [declarations, functions] using hadds, fun d hd => ?_⟩
    exact .const rfl (typedExpr_of_hasType h (hadds.in_of_in hd) he) (new_of_free free hd)
  | .write (x := x) (b := b) he bound writable, h, hc => by
    obtain ⟨ht, hf⟩ := expr_of_hasType h he
    have hrel := h.lookup? x
    rw [bound] at hrel
    generalize hs : c.scope.lookup? x = found at hrel
    cases hrel with
    | some hsb =>
      have hw : ∀ line, c.writeTo line x (some b.ty) = (some b.ty, c) := fun line =>
        Checker.writeTo_eq hs (hsb.isConst.trans writable) hsb.ty
      simp only [Checker.stmt, Checker.expr, hf, Checker.reportAll_nil, ht, hw]
      refine ⟨by simpa [declarations, functions] using .refl Γ, fun d hd => ?_⟩
      exact .write rfl (typedExpr_of_hasType h hd he) (var_of_lookup? hd bound)
  | .branch he ht hf, h, hc => by
    obtain ⟨hty, hfaults⟩ := expr_of_hasType h he
    obtain ⟨h₁, hc₁⟩ := block_of_typed ht h hc
    obtain ⟨hadds, htyped⟩ := typedBlock_of_typed ht h hc
    obtain ⟨hadds', htyped'⟩ := typedBlock_of_typed hf h₁ hc₁
    -- The outline has what is known behind the second arm, and so what is known before each arm.
    simp only [Checker.stmt, Checker.condition_eq hfaults hty]
    refine ⟨by simpa [declarations, functions] using hadds.trans hadds', fun d hd => ?_⟩
    have hd₁ := hadds'.in_of_in hd
    have hd₀ := hadds.in_of_in hd₁
    exact .branch hty (typedExpr_of_hasType h hd₀ he) (htyped d hd₁)
      (hadds.frame_eq ▸ htyped' d hd)
  | .loop he hb, h, hc => by
    obtain ⟨hty, hfaults⟩ := expr_of_hasType h he
    obtain ⟨hadds, htyped⟩ := typedBlock_of_typed hb h hc
    simp only [Checker.stmt, Checker.condition_eq hfaults hty]
    refine ⟨by simpa [declarations, functions] using hadds, fun d hd => ?_⟩
    exact .loop hty (typedExpr_of_hasType h (hadds.in_of_in hd) he) (htyped d hd)
  | @StmtTyped.function _ Γ₁ span ps returns body k outside fresh params distinct result entry hb
      ends, h, hc => by
    have hlen := Checker.length_of_types params
    obtain ⟨hopen, hclean⟩ := h.opened outside span.line fresh params distinct
    -- What the body declares is gone behind it, and only the function itself is added.
    obtain ⟨-, htyped⟩ := typedBlock_of_typed hb hopen (hclean.mpr hc)
    have hwithin : Γ₁.Within k Γ.globals Γ.complete := hb.within ⟨rfl, rfl, rfl⟩
    rw [h.stmt_function outside fresh params distinct result entry]
    refine ⟨?_, fun d hd => ?_⟩
    · simp only [declarations, functions]
      exact .finish outside ⟨rfl, Checker.typedParams_types hlen, rfl⟩
    · have hframe : Γ.frame = none := by simp [Env.frame, outside]
      have henter : (Γ.enter k (ps.map Param.name)).frame =
          some ⟨(ps.map Param.name).zip k.params, k.returns⟩ := by
        simp [Env.frame, Env.enter, Binding.var, Function.comp_def]
      -- Inside of its body the function may be called as well, and the outline has it already.
      have hend : Γ₁.In d := hwithin.in_of_finish outside hd
      rw [hframe, typedParams_eq hlen]
      refine .function rfl (hd.callable k ?_) ?_ ?_ (henter ▸ htyped d hend)
      · simp [Env.callable, Env.finish]
      · exact List.map_snd_zip (by simp [hlen])
      · rw [List.map_fst_zip (by simp [hlen])]
        exact distinct
  | .ret (b := b) inside he, h, hc => by
    obtain ⟨ht, hf⟩ := expr_of_hasType h he
    refine ⟨by simpa [Checker.stmt, declarations, functions] using .refl Γ, fun d hd => ?_⟩
    have hframe : Γ.frame = some ⟨b.locals.map Binding.var, b.callee.returns⟩ := by
      simp [Env.frame, inside]
    have htyped := typedExpr_of_hasType h hd he
    rw [hframe] at htyped ⊢
    exact .ret ht htyped

/-- The checker leaves a typed block where there is a derivation: each statement is typed in the
frame that the ones before it leave. -/
theorem typedBlock_of_typed {c : Checker} {Γ Γ' : Env} {seen : Bool} {ss : List Stmt} :
    BlockTyped Γ ss Γ' → Agrees c Γ seen → c.Clean →
      Γ.Adds Γ' (declarationsOf (c.block ss).1) (functionsOf (c.block ss).1) ∧
        ∀ d, Γ'.In d → TypedBlock d Γ.frame (c.block ss).1
  | .nil, _, _ => ⟨by simpa [Checker.block] using .refl Γ, fun _ _ => .nil⟩
  | .cons hs hss, h, hc => by
    obtain ⟨h₁, hc₁⟩ := stmt_of_typed hs h hc
    obtain ⟨hadds, htyped⟩ := typedStmt_of_typed hs h hc
    -- The outline is that of the end of the block, which includes what every statement before it
    -- needs.
    obtain ⟨hadds', htyped'⟩ := typedBlock_of_typed hss h₁ hc₁
    simp only [Checker.block]
    refine ⟨by simpa using hadds.trans hadds', fun d hd => ?_⟩
    exact .cons (htyped d (hadds'.in_of_in hd)) (hadds.frame_eq ▸ htyped' d hd)

end

/-- **A program without diagnostics has a typed tree.** Its outline is the environment behind the
last statement: the variables that are bound there and the functions that are complete. -/
theorem typedProgram_of_clean (p : Program) (h : p.analyze.diagnostics = []) :
    ∃ d, TypedProgram p.analyze.program d := by
  obtain ⟨Γ, hΓ⟩ := typed_of_block agrees_start p.body ((analyze_diagnostics p).mp h)
  have hend := (block_of_typed hΓ agrees_start Checker.clean_start).1
  obtain ⟨hadds, htyped⟩ := typedBlock_of_typed hΓ agrees_start Checker.clean_start
  have hbody : Γ.body = none := by simpa [Env.empty] using hadds.callee
  have hinner : Γ.inner = Γ.globals := by simp [Env.inner, hbody]
  have hcallable : Γ.callable = Γ.complete := by simp [Env.callable, hbody]
  have hglobals : Γ.globals.map Binding.var = declarationsOf p.analyze.program.body := by
    have hvars := hadds.inner
    rw [hinner] at hvars
    exact hvars
  refine ⟨⟨Γ.globals.map Binding.var, Γ.complete⟩, hglobals, ?_, ?_, ?_, ?_⟩
  · have hn := hadds.distinct .nil
    rw [hinner] at hn
    simpa [Binding.var, Function.comp_def] using hn
  · obtain ⟨ks, hks, hfs⟩ := hadds.complete
    rw [hks]
    exact hfs
  · exact hcallable ▸ hend.distinct
  · refine htyped _ ⟨fun b hb => List.mem_map_of_mem hb, fun k hk => ?_⟩
    rwa [hcallable] at hk

/-! ## The tree is that of the source -/

/-- An expression with a line at every node, and no types. -/
def Expr.lined {α : Type} (line : α → Nat) (e : Expr α) : Expr Typing :=
  (e.mapNotes line).mapNotes fun line => ⟨none, line⟩

namespace Stmt

mutual

/-- A statement with the types that it is written with: those that the annotations of variables,
parameters and results name. No other node has a type. -/
def asWritten : Stmt → CheckedStmt
  | print span value => .print ⟨none, span.line⟩ (value.lined Span.line)
  | var span x type value =>
    .var ⟨Ty.ofName? type.name, span.line⟩ x (value.map (Expr.lined Span.line))
  | const span x value => .const ⟨none, span.line⟩ x (value.lined Span.line)
  | write span x value => .write ⟨none, span.line⟩ x (value.lined Span.line)
  | branch span condition whenTrue whenFalse =>
    .branch ⟨none, span.line⟩ (condition.lined Span.line) (asWrittenOf whenTrue)
      (asWrittenOf whenFalse)
  | loop span condition body =>
    .loop ⟨none, span.line⟩ (condition.lined Span.line) (asWrittenOf body)
  | function span f params returns body =>
    .function ⟨none, span.line⟩ f (params.map fun p => ⟨p.name, Ty.ofName? p.type.name⟩)
      (Ty.ofName? returns.name) (asWrittenOf body)
  | ret span value => .ret ⟨none, span.line⟩ (value.lined Span.line)

/-- The statements of a block with the types that they are written with. -/
def asWrittenOf : List Stmt → List CheckedStmt
  | [] => []
  | s :: ss => s.asWritten :: asWrittenOf ss

end

end Stmt

namespace CheckedStmt

mutual

/-- A checked statement without the types that are not written down in the source. -/
def asWritten : CheckedStmt → CheckedStmt
  | print n value => .print ⟨none, n.line⟩ (value.lined Typing.line)
  | var n x value => .var n x (value.map (Expr.lined Typing.line))
  | const n x value => .const ⟨none, n.line⟩ x (value.lined Typing.line)
  | write n x value => .write ⟨none, n.line⟩ x (value.lined Typing.line)
  | branch n condition whenTrue whenFalse =>
    .branch ⟨none, n.line⟩ (condition.lined Typing.line) (asWrittenOf whenTrue)
      (asWrittenOf whenFalse)
  | loop n condition body => .loop ⟨none, n.line⟩ (condition.lined Typing.line) (asWrittenOf body)
  | function n f params returns body =>
    .function ⟨none, n.line⟩ f params returns (asWrittenOf body)
  | ret n value => .ret ⟨none, n.line⟩ (value.lined Typing.line)

/-- The checked statements of a block without the types that are not written down. -/
def asWrittenOf : List CheckedStmt → List CheckedStmt
  | [] => []
  | s :: ss => s.asWritten :: asWrittenOf ss

end

end CheckedStmt

/-- Checking an expression puts types at its nodes and changes nothing else. Lines, operators, names
and values stay. -/
theorem Context.lined_expr (ctx : Context) (e : Expr Span) :
    (ctx.expr e).1.lined Typing.line = e.lined Span.line :=
  congrArg (Expr.mapNotes _) (ctx.mapNotes_expr e)

/-- The parameters of a function that checks have the types that their annotations name. So a
signature can be written down from the parameters alone. -/
theorem typedParams_asWritten {ps : List Param} {ts : List Ty}
    (h : ts.map Ty.name = ps.map fun p => p.type.name) :
    Checker.typedParams ps ts = ps.map fun p => ⟨p.name, Ty.ofName? p.type.name⟩ := by
  induction ps generalizing ts with
  | nil => simp [Checker.typedParams]
  | cons p ps ih =>
    cases ts with
    | nil => simp at h
    | cons t ts =>
      rw [List.map_cons, List.map_cons, List.cons.injEq] at h
      rw [List.map_cons, Ty.ofName?_eq_some.mpr h.1, ← ih h.2]
      rfl

mutual

-- The induction is on the derivation, like that of the types in the tree: a function whose body is
-- left out has none.

/-- Where there is a derivation, the checker leaves the statement as it is written. Notes aside, of
course. What the checker adds to a declaration is the type that its annotation names, and written
down this is the annotation. -/
theorem asWritten_stmt_of_typed {c : Checker} {Γ Γ' : Env} {seen : Bool} {s : Stmt} :
    StmtTyped Γ s Γ' → Agrees c Γ seen → c.Clean → (c.stmt s).1.asWritten = s.asWritten
  | .print he, h, hc => by
    simp only [Checker.stmt, Checker.expr, asWritten, Stmt.asWritten, Context.lined_expr]
  | .var free named, h, hc => by
    obtain ⟨hx, hl⟩ := (h.free_iff _).mp free
    simp only [Checker.stmt, Checker.expr?, Option.bind_none]
    -- The annotation names the type, so the type is written down and stays.
    rw [Checker.declareVar_eq hx hl named (.inl rfl), asWritten, Stmt.asWritten,
      Ty.ofName?_eq_some.mpr named]
    rfl
  | .varWith he free named, h, hc => by
    obtain ⟨hx, hl⟩ := (h.free_iff _).mp free
    obtain ⟨ht, hf⟩ := expr_of_hasType h he
    simp only [Checker.stmt, Checker.expr?, Checker.expr, hf, Checker.reportAll_nil, ht,
      Option.bind_some]
    rw [Checker.declareVar_eq hx hl named (.inr rfl), asWritten, Stmt.asWritten,
      Ty.ofName?_eq_some.mpr named, Option.map_some, Option.map_some, Context.lined_expr]
  | .const he free, h, hc => by
    simp only [Checker.stmt, Checker.expr, asWritten, Stmt.asWritten, Context.lined_expr]
  | .write he bound writable, h, hc => by
    simp only [Checker.stmt, Checker.expr, asWritten, Stmt.asWritten, Context.lined_expr]
  | .branch he ht hf, h, hc => by
    obtain ⟨hty, hfaults⟩ := expr_of_hasType h he
    obtain ⟨h₁, hc₁⟩ := block_of_typed ht h hc
    have htrue := asWritten_block_of_typed ht h hc
    have hfalse := asWritten_block_of_typed hf h₁ hc₁
    simp only [Checker.stmt, Checker.condition_eq hfaults hty, asWritten, Stmt.asWritten,
      Context.lined_expr, htrue, hfalse]
  | .loop he hb, h, hc => by
    obtain ⟨hty, hfaults⟩ := expr_of_hasType h he
    have hbody := asWritten_block_of_typed hb h hc
    simp only [Checker.stmt, Checker.condition_eq hfaults hty, asWritten, Stmt.asWritten,
      Context.lined_expr, hbody]
  -- The type of a function and those of its parameters are written down, too.
  | @StmtTyped.function _ _ span _ _ _ _ outside fresh params distinct result entry hb _, h,
      hc => by
    obtain ⟨hopen, hclean⟩ := h.opened outside span.line fresh params distinct
    have hbody := asWritten_block_of_typed hb hopen (hclean.mpr hc)
    rw [h.stmt_function outside fresh params distinct result entry]
    simp only [asWritten, Stmt.asWritten, hbody, typedParams_asWritten params,
      Ty.ofName?_eq_some.mpr result]
  | .ret inside he, h, hc => by
    simp only [Checker.stmt, Checker.expr, asWritten, Stmt.asWritten, Context.lined_expr]

/-- Where there is a derivation, the checker leaves all statements of a block, in their order. -/
theorem asWritten_block_of_typed {c : Checker} {Γ Γ' : Env} {seen : Bool} {ss : List Stmt} :
    BlockTyped Γ ss Γ' → Agrees c Γ seen → c.Clean →
      asWrittenOf (c.block ss).1 = Stmt.asWrittenOf ss
  | .nil, _, _ => rfl
  | .cons hs hss, h, hc => by
    obtain ⟨h₁, hc₁⟩ := stmt_of_typed hs h hc
    have hhead := asWritten_stmt_of_typed hs h hc
    have htail := asWritten_block_of_typed hss h₁ hc₁
    simp only [Checker.block, asWrittenOf, Stmt.asWrittenOf, hhead, htail]

end

/-- **The tree of a program without diagnostics is the program itself.** It has the statements and
expressions of the source, at the lines where they stand and in their order, and the types that are
written there. What the checker adds is the types of the other nodes. -/
theorem analyze_asWritten (p : Program) (h : p.analyze.diagnostics = []) :
    asWrittenOf p.analyze.program.body = Stmt.asWrittenOf p.body := by
  obtain ⟨Γ, hΓ⟩ := typed_of_block agrees_start p.body ((analyze_diagnostics p).mp h)
  exact asWritten_block_of_typed hΓ agrees_start Checker.clean_start

end Pulse

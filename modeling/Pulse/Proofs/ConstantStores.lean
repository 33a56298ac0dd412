/-
A constant is stored to once, by its declaration.

Two stages have a part in this. The checker refuses an assignment to a constant, whatever way the
scopes lead to it. Lowering knows no constants any more; it sends an assignment to the frame or to
the program by the names it has seen declared, and if it ever chose otherwise than the checker did,
an assignment to a variable could land on a constant of the same name.

What is shown follows one location along a program. At first its name is unbound. It gets bound by
one declaration and stays bound as it is. A store comes with a declaration or with an assignment,
and an assignment is to a location that is bound to a variable. So nothing is stored while the
location is unbound, nothing is stored once it is bound to a constant, and the declaration of a
constant in between stores once. Which store that is can be seen in the code, where the code of a
declaration stands in one piece and ends with it.
-/
import Pulse.Proofs.RegisterFlow
import Pulse.Proofs.ScopeStorage

set_option autoImplicit false

namespace Pulse

open Rules Code CheckedStmt

/-! ## Bindings and their storage -/

namespace Rules.Env

/-- The bindings of the function around; outside of functions there are none. -/
def locals (Γ : Env) : List Binding := (Γ.body.map Body.locals).getD []

/-- The binding that has its storage at a location. -/
def boundAt (Γ : Env) : Location → Option Binding
  | .global x => Γ.globals.find? fun b => b.name = x
  | .frame x => Γ.locals.find? fun b => b.name = x

/-- Where the innermost binding of a name has its storage. -/
def home (Γ : Env) (x : String) : Location :=
  if x ∈ Γ.locals.map Binding.name then .frame x else .global x

/-- Where a declaration puts a name. -/
def place (Γ : Env) (x : String) : Location :=
  match Γ.body with
  | some _ => .frame x
  | none => .global x

variable {Γ Γ' : Env} {b : Binding} {x : String} {loc : Location}

/-- The innermost binding of a name is the one that has its storage at the home of the name. Names
are looked up from the inside out, and locations are told by the scope that they are in, so the two
searches end at the same binding. -/
theorem lookup?_eq_boundAt (Γ : Env) (x : String) : Γ.lookup? x = Γ.boundAt (Γ.home x) := by
  unfold lookup? home inner outer locals
  cases hbody : Γ.body with
  | none => simp [boundAt]
  | some body =>
    simp only [Option.map_some, Option.getD_some]
    by_cases hx : x ∈ body.locals.map Binding.name
    · -- A name that the function binds hides the binding of the program.
      obtain ⟨b, hb, hname⟩ := List.mem_map.mp hx
      have hfound : (body.locals.find? fun b => b.name = x).isSome := by
        rw [List.find?_isSome]
        exact ⟨b, hb, by simpa using hname⟩
      obtain ⟨found, hfound⟩ := Option.isSome_iff_exists.mp hfound
      rw [if_pos hx, List.findSome?_cons, hfound]
      simp [boundAt, locals, hbody, hfound]
    · have hnone : (body.locals.find? fun b => b.name = x) = none := by
        rw [List.find?_eq_none]
        intro b hb hname
        exact hx (List.mem_map.mpr ⟨b, hb, by simpa using hname⟩)
      rw [if_neg hx, List.findSome?_cons, hnone]
      simp [boundAt]

/-- Behind a declaration its name is found where the declaration put it. -/
theorem home_bind (Γ : Env) (b : Binding) : (Γ.bind b).home b.name = Γ.place b.name := by
  unfold bind home place locals
  cases Γ.body with
  | none => simp
  | some body => simp

/-- A declaration changes nothing at other locations. The storage of a name is of the function or of
the program, by the scope that the name is declared in. -/
theorem boundAt_bind_of_ne (h : Γ.place b.name ≠ loc) : (Γ.bind b).boundAt loc = Γ.boundAt loc := by
  unfold place at h
  unfold bind
  cases hbody : Γ.body with
  | none =>
    rw [hbody] at h
    cases loc with
    | global x =>
      have hx : b.name ≠ x := fun heq => h (congrArg Location.global heq)
      simp [boundAt, hx]
    | frame x => simp [boundAt, locals, hbody]
  | some body =>
    rw [hbody] at h
    cases loc with
    | global x => rfl
    | frame x =>
      have hx : b.name ≠ x := fun heq => h (congrArg Location.frame heq)
      simp [boundAt, locals, hbody, hx]

/-- Where a free name would be put nothing has its storage. This is so for both kinds of storage,
those of the program and those of a function. -/
theorem boundAt_place_of_free (free : Γ.Free x) : Γ.boundAt (Γ.place x) = none := by
  have hunbound := free.unbound
  unfold inner at hunbound
  unfold place
  cases hbody : Γ.body with
  | none =>
    rw [hbody] at hunbound
    rw [boundAt, List.find?_eq_none]
    intro b hb hname
    exact hunbound b hb (by simpa using hname)
  | some body =>
    rw [hbody] at hunbound
    simp only [boundAt, locals, hbody, Option.map_some, Option.getD_some]
    rw [List.find?_eq_none]
    intro b hb hname
    exact hunbound b hb (by simpa using hname)

/-- A declaration binds the location that it puts its name to. -/
theorem boundAt_bind_self (free : Γ.Free b.name) :
    (Γ.bind b).boundAt (Γ.place b.name) = some b := by
  rw [← home_bind, ← lookup?_eq_boundAt]
  exact lookup?_bind free

/-- A function has no storage of its own, so its end changes nothing in the environment around
it. -/
theorem boundAt_finish (Γ : Env) (k : Callee) (loc : Location) :
    (Γ.finish k).boundAt loc = Γ.boundAt loc := by
  cases loc <;> rfl

/-- Declarations go to the same scope all along a block. -/
theorem Adds.place_eq {vars : List (String × Ty)} {fs : List CheckedFunction}
    (h : Γ.Adds Γ' vars fs) (x : String) : Γ'.place x = Γ.place x := by
  have hcallee := h.callee
  unfold place
  cases hΓ : Γ.body <;> cases hΓ' : Γ'.body <;> simp [hΓ, hΓ'] at hcallee ⊢

end Rules.Env

/-- The checker finds a name where the environment has its binding. -/
theorem home?_eq_home {c : Checker} {Γ : Env} {seen : Bool} (h : Agrees c Γ seen) {x : String}
    {b : Binding} (hb : Γ.lookup? x = some b) : c.scope.home? x = some (Γ.home x) := by
  have hfits : Fits ⟨0, 0, Γ.body.map fun b => b.locals.map Binding.name⟩ Γ.frame := by
    refine ⟨by simp [Env.frame], ?_⟩
    intro x
    cases hbody : Γ.body <;> simp [Supply.names, Env.frame, localsOf, hbody, Binding.var]
  rw [home?_eq_location h hfits hb, Supply.location, Supply.names, Env.home, Env.locals]
  cases Γ.body <;> simp

/-! ## One location along a derivation -/

/-- What happens to a location between two points where a number of stores to it are made: a binding
stays, nothing is stored before there is one or when it is a constant, and a constant that is bound
in between is stored to once. -/
structure Tracks (loc : Location) (Γ Γ' : Env) (stores : Nat) : Prop where
  kept : ∀ b, Γ.boundAt loc = some b → Γ'.boundAt loc = some b
  unbound : Γ'.boundAt loc = none → stores = 0
  constant : ∀ b, Γ.boundAt loc = some b → b.isConst = true → stores = 0
  declared : ∀ b, Γ.boundAt loc = none → Γ'.boundAt loc = some b → b.isConst = true → stores = 1

namespace Tracks

variable {loc : Location} {Γ Γ' Γ'' : Env} {m n : Nat}

/-- A stretch of a program that does not change what is bound at a location, and stores nothing
there. -/
theorem of_eq (h : Γ'.boundAt loc = Γ.boundAt loc) : Tracks loc Γ Γ' 0 where
  kept := fun _ hb => h.trans hb
  unbound := fun _ => rfl
  constant := fun _ _ _ => rfl
  declared := by
    intro b hnone hb
    rw [h, hnone] at hb
    cases hb

/-- Stretches of a program that follow each other are tracked together, and their stores add up. A
constant is bound in one of the two stretches. In the other one it is stored to by nobody: not in
front, where the location is unbound, and not behind, where it is constant. -/
theorem trans (h : Tracks loc Γ Γ' m) (h' : Tracks loc Γ' Γ'' n) : Tracks loc Γ Γ'' (m + n) where
  kept := fun b hb => h'.kept b (h.kept b hb)
  unbound := by
    intro hnone
    have hmiddle : Γ'.boundAt loc = none := by
      by_contra hsome
      obtain ⟨b, hb⟩ := Option.ne_none_iff_exists'.mp hsome
      rw [h'.kept b hb] at hnone
      cases hnone
    rw [h.unbound hmiddle, h'.unbound hnone]
  constant := by
    intro b hb hconst
    rw [h.constant b hb hconst, h'.constant b (h.kept b hb) hconst]
  declared := by
    intro b hnone hb hconst
    -- The declaration is in the first part or in the second one.
    cases hmiddle : Γ'.boundAt loc with
    | none => rw [h.unbound hmiddle, h'.declared b hmiddle hb hconst]
    | some b' =>
      obtain rfl : b' = b := Option.some.inj ((h'.kept b' hmiddle).symm.trans hb)
      rw [h.declared b' hnone hmiddle hconst, h'.constant b' hmiddle hconst]

/-- A store to a variable. The location is bound, and not to a constant, so that it is stored to
breaks nothing. -/
theorem write {place : Location} {b : Binding} (hb : Γ.boundAt place = some b)
    (hvar : b.isConst = false) : Tracks loc Γ Γ (if place = loc then 1 else 0) := by
  by_cases hloc : place = loc
  · subst hloc
    rw [if_pos rfl]
    refine ⟨fun _ h => h, ?_, ?_, ?_⟩
    · intro hnone
      rw [hb] at hnone
      cases hnone
    · intro b' hb' hconst
      obtain rfl := Option.some.inj (hb.symm.trans hb')
      rw [hvar] at hconst
      cases hconst
    · intro b' hnone
      rw [hb] at hnone
      cases hnone
  · rw [if_neg hloc]
    exact .of_eq rfl

/-- A declaration with a value, which binds the location and stores to it once. The name is free, so
the location was unbound in front of the declaration. -/
theorem bind {b : Binding} (free : Γ.Free b.name) :
    Tracks loc Γ (Γ.bind b) (if Γ.place b.name = loc then 1 else 0) := by
  by_cases hloc : Γ.place b.name = loc
  · have hbefore := Env.boundAt_place_of_free free
    have hbehind := Env.boundAt_bind_self free
    rw [hloc] at hbefore hbehind
    rw [if_pos hloc]
    refine ⟨?_, ?_, ?_, fun _ _ _ _ => rfl⟩
    · intro b' hb'
      rw [hbefore] at hb'
      cases hb'
    · intro hnone
      rw [hbehind] at hnone
      cases hnone
    · intro b' hb'
      rw [hbefore] at hb'
      cases hb'
  · rw [if_neg hloc]
    exact .of_eq (Env.boundAt_bind_of_ne hloc)

/-- A declaration without a value, which is never that of a constant. A constant has to have one, so
a location that is bound here may be stored to as often as one likes. -/
theorem reserve {b : Binding} (free : Γ.Free b.name) (hvar : b.isConst = false) :
    Tracks loc Γ (Γ.bind b) 0 := by
  refine ⟨(bind free).kept, fun _ => rfl, fun _ _ _ => rfl, ?_⟩
  intro b' hnone hb' hconst
  by_cases hloc : Γ.place b.name = loc
  · rw [← hloc, Env.boundAt_bind_self free] at hb'
    obtain rfl := Option.some.inj hb'
    rw [hvar] at hconst
    cases hconst
  · rw [Env.boundAt_bind_of_ne hloc, hnone] at hb'
    cases hb'

end Tracks

/-! ## Stores of statements -/

/-- How often a location is stored to. -/
def storesTo (loc : Location) (accesses : List (Option Access)) : Nat :=
  accesses.count (some (.write loc))

@[simp] theorem storesTo_append (loc : Location) (as bs : List (Option Access)) :
    storesTo loc (as ++ bs) = storesTo loc as + storesTo loc bs :=
  List.count_append

/-- Expressions store nothing. -/
theorem storesTo_reads (loc : Location) (c : Checker) (e : Expr Span) :
    storesTo loc (c.reads e) = 0 := by
  rw [storesTo, List.count_eq_zero, Checker.reads]
  intro hmem
  obtain ⟨x, -, hx⟩ := List.mem_map.mp hmem
  cases hhome : c.scope.home? x <;> simp [hhome] at hx

/-- An assignment stores once, to the home of the name. -/
theorem storesTo_writes {c : Checker} {Γ : Env} {seen : Bool} (h : Agrees c Γ seen) {x : String}
    {b : Binding} (hb : Γ.lookup? x = some b) (loc : Location) :
    storesTo loc (c.writes x) = if Γ.home x = loc then 1 else 0 := by
  rw [storesTo, Checker.writes, home?_eq_home h hb]
  simp [List.count_cons]

/-- The accesses of a declaration with a value. -/
theorem tracks_declaration {c c' : Checker} {Γ : Env} {seen : Bool} {b : Binding}
    (free : Γ.Free b.name) (h' : Agrees c' (Γ.bind b) seen) (e : Expr Span) (loc : Location) :
    Tracks loc Γ (Γ.bind b) (storesTo loc (c.reads e ++ c'.writes b.name)) := by
  rw [storesTo_append, storesTo_reads, storesTo_writes h' (lookup?_bind free), Env.home_bind,
    Nat.zero_add]
  exact .bind free

mutual

/-- A statement tracks every location with the stores it makes. Functions inside of it count as
none: their bodies are followed by themselves. -/
theorem tracks_of_stmt {c : Checker} {Γ Γ' : Env} {seen : Bool} {s : Stmt} (loc : Location) :
    StmtTyped Γ s Γ' → Agrees c Γ seen → c.Clean → Tracks loc Γ Γ' (storesTo loc (c.accesses s))
  | .print _, _, _ => by
    rw [Checker.accesses, storesTo_reads]
    exact .of_eq rfl
  | .var free _, _, _ => by
    rw [Checker.accesses]
    exact .reserve free rfl
  | .varWith he free named, h, hc => by
    rw [Checker.accesses]
    exact tracks_declaration free (stmt_of_typed (.varWith he free named) h hc).1 _ loc
  | .const he free, h, hc => by
    rw [Checker.accesses]
    exact tracks_declaration free (stmt_of_typed (.const he free) h hc).1 _ loc
  | .write _ bound writable, h, _ => by
    rw [Checker.accesses, storesTo_append, storesTo_reads, storesTo_writes h bound, Nat.zero_add]
    rw [Env.lookup?_eq_boundAt] at bound
    exact .write bound writable
  | .branch he ht hf, h, hc => by
    obtain ⟨hty, hfaults⟩ := expr_of_hasType h he
    obtain ⟨h₁, hc₁⟩ := block_of_typed ht h hc
    rw [Checker.accesses, Checker.condition_eq hfaults hty]
    simp only [storesTo_append, storesTo_reads, Nat.zero_add]
    -- Both arms count, although only one of them runs.
    exact (tracks_of_block loc ht h hc).trans (tracks_of_block loc hf h₁ hc₁)
  | .loop he hb, h, hc => by
    obtain ⟨hty, hfaults⟩ := expr_of_hasType h he
    rw [Checker.accesses, Checker.condition_eq hfaults hty, storesTo_append, storesTo_reads,
      Nat.zero_add]
    exact tracks_of_block loc hb h hc
  | .function _ _ _ _ _ _ _ _, _, _ => by
    rw [Checker.accesses]
    exact .of_eq (Env.boundAt_finish _ _ loc)
  | .ret _ _, _, _ => by
    rw [Checker.accesses, storesTo_reads]
    exact .of_eq rfl

/-- A block tracks every location with the stores it makes. -/
theorem tracks_of_block {c : Checker} {Γ Γ' : Env} {seen : Bool} {ss : List Stmt}
    (loc : Location) : BlockTyped Γ ss Γ' → Agrees c Γ seen → c.Clean →
      Tracks loc Γ Γ' (storesTo loc (c.accessesOf ss))
  | .nil, _, _ => by
    rw [Checker.accessesOf]
    exact .of_eq rfl
  | .cons hs hss, h, hc => by
    obtain ⟨h₁, hc₁⟩ := stmt_of_typed hs h hc
    rw [Checker.accessesOf, storesTo_append]
    exact (tracks_of_stmt loc hs h hc).trans (tracks_of_block loc hss h₁ hc₁)

end

/-! ## Declarations of constants -/

namespace Stmt

mutual

/-- The constants that a statement declares, also inside its blocks, but not inside a function. -/
def constants : Stmt → List String
  | const _ name _ => [name]
  | branch _ _ whenTrue whenFalse => constantsOf whenTrue ++ constantsOf whenFalse
  | loop _ _ body => constantsOf body
  | _ => []

/-- The constants that the statements of a block declare. -/
def constantsOf : List Stmt → List String
  | [] => []
  | s :: ss => s.constants ++ constantsOf ss

end

end Stmt

/-- A location gets bound to a constant between two points. -/
def BecomesConstant (loc : Location) (Γ Γ' : Env) : Prop :=
  Γ.boundAt loc = none ∧ ∃ b, Γ'.boundAt loc = some b ∧ b.isConst = true

section Becomes

variable {loc : Location} {Γ Γ' Γ'' : Env} {n : Nat}

/-- A location that becomes a constant later was unbound before, too, since bindings stay. -/
theorem BecomesConstant.behind (h : BecomesConstant loc Γ' Γ'') (ht : Tracks loc Γ Γ' n) :
    BecomesConstant loc Γ Γ'' := by
  refine ⟨?_, h.2⟩
  by_contra hsome
  obtain ⟨b, hb⟩ := Option.ne_none_iff_exists'.mp hsome
  have hkept := ht.kept b hb
  rw [h.1] at hkept
  cases hkept

/-- A location that has become a constant stays one. -/
theorem BecomesConstant.before (h : BecomesConstant loc Γ Γ') (ht : Tracks loc Γ' Γ'' n) :
    BecomesConstant loc Γ Γ'' := by
  obtain ⟨hnone, b, hb, hconst⟩ := h
  exact ⟨hnone, b, ht.kept b hb, hconst⟩

/-- A location that becomes a constant on a stretch of a program is stored to once there. -/
theorem BecomesConstant.stores (h : BecomesConstant loc Γ Γ') (ht : Tracks loc Γ Γ' n) : n = 1 := by
  obtain ⟨hnone, b, hb, hconst⟩ := h
  exact ht.declared b hnone hb hconst

end Becomes

mutual

/-- A constant that is declared in a statement gets bound there. By induction on the derivation. A
constant inside of a branch or a loop is bound behind it too, since blocks have no scope of their
own. -/
theorem becomes_of_stmt {c : Checker} {Γ Γ' : Env} {seen : Bool} {s : Stmt} {x : String} :
    StmtTyped Γ s Γ' → Agrees c Γ seen → c.Clean → x ∈ s.constants →
      BecomesConstant (Γ.place x) Γ Γ'
  | .print _, _, _, hx => by simp [Stmt.constants] at hx
  | .var _ _, _, _, hx => by simp [Stmt.constants] at hx
  | .varWith _ _ _, _, _, hx => by simp [Stmt.constants] at hx
  | .const _ free, _, _, hx => by
    rw [Stmt.constants, List.mem_singleton] at hx
    rw [hx]
    exact ⟨Env.boundAt_place_of_free free, _, Env.boundAt_bind_self free, rfl⟩
  | .write _ _ _, _, _, hx => by simp [Stmt.constants] at hx
  | .branch _ ht hf, h, hc, hx => by
    obtain ⟨h₁, hc₁⟩ := block_of_typed ht h hc
    have hplace := (typedBlock_of_typed ht h hc).1.place_eq x
    rw [Stmt.constants, List.mem_append] at hx
    rcases hx with hx | hx
    · exact (becomes_of_block ht h hc hx).before (tracks_of_block _ hf h₁ hc₁)
    · have hsecond := becomes_of_block hf h₁ hc₁ hx
      rw [hplace] at hsecond
      exact hsecond.behind (tracks_of_block _ ht h hc)
  | .loop _ hb, h, hc, hx => by
    rw [Stmt.constants] at hx
    exact becomes_of_block hb h hc hx
  | .function _ _ _ _ _ _ _ _, _, _, hx => by simp [Stmt.constants] at hx
  | .ret _ _, _, _, hx => by simp [Stmt.constants] at hx

/-- A constant that is declared in a block gets bound there, at the place that names are put to all
along the block. -/
theorem becomes_of_block {c : Checker} {Γ Γ' : Env} {seen : Bool} {ss : List Stmt} {x : String} :
    BlockTyped Γ ss Γ' → Agrees c Γ seen → c.Clean → x ∈ Stmt.constantsOf ss →
      BecomesConstant (Γ.place x) Γ Γ'
  | .nil, _, _, hx => by simp [Stmt.constantsOf] at hx
  | .cons hs hss, h, hc, hx => by
    obtain ⟨h₁, hc₁⟩ := stmt_of_typed hs h hc
    have hplace := (typedStmt_of_typed hs h hc).1.place_eq x
    rw [Stmt.constantsOf, List.mem_append] at hx
    -- Declared by the first statement and kept by the rest, or not touched yet by the first one.
    rcases hx with hx | hx
    · exact (becomes_of_stmt hs h hc hx).before (tracks_of_block _ hss h₁ hc₁)
    · have hrest := becomes_of_block hss h₁ hc₁ hx
      rw [hplace] at hrest
      exact hrest.behind (tracks_of_stmt _ hs h hc)

end

/-! ## Bodies of functions

A body is checked where its function stands, so a constant of the program may be bound before the
body or behind it. In both cases the body leaves it alone. -/

/-- No variable has its storage at a location. -/
def NoVariable (loc : Location) (Γ : Env) : Prop :=
  ∀ b, Γ.boundAt loc = some b → b.isConst = true

/-- A location that no variable has at the end had none before. -/
theorem NoVariable.before {loc : Location} {Γ Γ' : Env} {n : Nat} (h : NoVariable loc Γ')
    (ht : Tracks loc Γ Γ' n) : NoVariable loc Γ :=
  fun b hb => h b (ht.kept b hb)

/-- What is bound to no variable at the end is not stored to, if its binding did not change. -/
theorem Tracks.untouched {loc : Location} {Γ Γ' : Env} {n : Nat} (ht : Tracks loc Γ Γ' n)
    (h : NoVariable loc Γ') (heq : Γ'.boundAt loc = Γ.boundAt loc) : n = 0 := by
  cases hbound : Γ.boundAt loc with
  | none => exact ht.unbound (heq.trans hbound)
  | some b => exact ht.constant b hbound (h b (heq.trans hbound))

mutual

/-- The functions of a statement leave the constants of the program alone. In a body they are
constant from its start on. If they are declared behind the body instead, then the body does not see
them, and its stores go to other locations. -/
theorem untouched_of_stmt {c : Checker} {Γ Γ' : Env} {seen : Bool} {s : Stmt} {x : String} :
    StmtTyped Γ s Γ' → Agrees c Γ seen → c.Clean → NoVariable (.global x) Γ' →
      ∀ b ∈ c.opens s, storesTo (.global x) (b.start.accessesOf b.stmts) = 0
  | .print _, _, _, _ => by simp [Checker.opens]
  | .var _ _, _, _, _ => by simp [Checker.opens]
  | .varWith _ _ _, _, _, _ => by simp [Checker.opens]
  | .const _ _, _, _, _ => by simp [Checker.opens]
  | .write _ _ _, _, _, _ => by simp [Checker.opens]
  | .branch he ht hf, h, hc, hx => by
    obtain ⟨hty, hfaults⟩ := expr_of_hasType h he
    obtain ⟨h₁, hc₁⟩ := block_of_typed ht h hc
    simp only [Checker.opens, Checker.condition_eq hfaults hty]
    intro b hb
    rcases List.mem_append.mp hb with hb | hb
    · exact untouched_of_block ht h hc (hx.before (tracks_of_block _ hf h₁ hc₁)) b hb
    · exact untouched_of_block hf h₁ hc₁ hx b hb
  | .loop he hb, h, hc, hx => by
    obtain ⟨hty, hfaults⟩ := expr_of_hasType h he
    simp only [Checker.opens, Checker.condition_eq hfaults hty]
    exact untouched_of_block hb h hc hx
  | @StmtTyped.function _ Γ₁ span ps returns body k outside fresh params distinct result entry hb
      _, h, hc, hx => by
    obtain ⟨hopen, hclean⟩ := h.opened outside span.line fresh params distinct
    have hwithin : Γ₁.Within k Γ.globals Γ.complete := hb.within ⟨rfl, rfl, rfl⟩
    -- The scope of the program is the same at the start of the body, at its end and behind it.
    have hend : Γ₁.boundAt (.global x) = Γ.boundAt (.global x) := by
      rw [Env.boundAt, hwithin.globals_eq]
      rfl
    rw [opens_function h outside fresh params distinct result entry]
    intro b hmem
    rw [List.mem_singleton.mp hmem]
    refine (tracks_of_block (.global x) hb hopen (hclean.mpr hc)).untouched ?_ hend
    intro binding hbinding
    rw [hend] at hbinding
    exact hx binding hbinding
  | .ret _ _, _, _, _ => by simp [Checker.opens]

/-- The functions of a block leave the constants of the program alone. -/
theorem untouched_of_block {c : Checker} {Γ Γ' : Env} {seen : Bool} {ss : List Stmt} {x : String} :
    BlockTyped Γ ss Γ' → Agrees c Γ seen → c.Clean → NoVariable (.global x) Γ' →
      ∀ b ∈ c.opensOf ss, storesTo (.global x) (b.start.accessesOf b.stmts) = 0
  | .nil, _, _, _ => by simp [Checker.opensOf]
  | .cons hs hss, h, hc, hx => by
    obtain ⟨h₁, hc₁⟩ := stmt_of_typed hs h hc
    rw [Checker.opensOf]
    intro b hb
    rcases List.mem_append.mp hb with hb | hb
    · exact untouched_of_stmt hs h hc (hx.before (tracks_of_block _ hss h₁ hc₁)) b hb
    · exact untouched_of_block hss h₁ hc₁ hx b hb

end

/-! ## The code of a declaration -/

namespace CheckedStmt

mutual

/-- A statement and the statements inside its blocks, but not those inside a function. -/
def parts : CheckedStmt → List CheckedStmt
  | branch n e whenTrue whenFalse =>
    branch n e whenTrue whenFalse :: (partsOf whenTrue ++ partsOf whenFalse)
  | loop n e body => loop n e body :: partsOf body
  | s => [s]

/-- The statements of a block and those inside their blocks. -/
def partsOf : List CheckedStmt → List CheckedStmt
  | [] => []
  | s :: ss => s.parts ++ partsOf ss

end

end CheckedStmt

mutual

/-- The checker keeps the declarations of constants. A declaration that is refused is kept as well,
so no derivation is needed here. -/
theorem exists_const_of_stmt {x : String} :
    ∀ (s : Stmt) (c : Checker), x ∈ s.constants → ∃ n e, .const n x e ∈ (c.stmt s).1.parts
  | .const span y e, c, hx => by
    rw [Stmt.constants, List.mem_singleton] at hx
    subst hx
    exact ⟨_, _, List.mem_singleton_self _⟩
  | .branch span e whenTrue whenFalse, c, hx => by
    rw [Stmt.constants, List.mem_append] at hx
    simp only [Checker.stmt, parts, List.mem_cons, List.mem_append]
    rcases hx with hx | hx
    · obtain ⟨n, e, hmem⟩ := exists_const_of_block whenTrue _ hx
      exact ⟨n, e, .inr (.inl hmem)⟩
    · obtain ⟨n, e, hmem⟩ := exists_const_of_block whenFalse _ hx
      exact ⟨n, e, .inr (.inr hmem)⟩
  | .loop span e body, c, hx => by
    rw [Stmt.constants] at hx
    simp only [Checker.stmt, parts, List.mem_cons]
    obtain ⟨n, e, hmem⟩ := exists_const_of_block body _ hx
    exact ⟨n, e, .inr hmem⟩
  | .print _ _, c, hx => by simp [Stmt.constants] at hx
  | .var _ _ _ _, c, hx => by simp [Stmt.constants] at hx
  | .write _ _ _, c, hx => by simp [Stmt.constants] at hx
  | .function _ _ _ _ _, c, hx => by simp [Stmt.constants] at hx
  | .ret _ _, c, hx => by simp [Stmt.constants] at hx

/-- The checker keeps the declarations of constants in a block. -/
theorem exists_const_of_block {x : String} : ∀ (ss : List Stmt) (c : Checker),
    x ∈ Stmt.constantsOf ss → ∃ n e, .const n x e ∈ partsOf (c.block ss).1
  | [], c, hx => by simp [Stmt.constantsOf] at hx
  | s :: ss, c, hx => by
    rw [Stmt.constantsOf, List.mem_append] at hx
    simp only [Checker.block, partsOf, List.mem_append]
    rcases hx with hx | hx
    · obtain ⟨n, e, hmem⟩ := exists_const_of_stmt s c hx
      exact ⟨n, e, .inl hmem⟩
    · obtain ⟨n, e, hmem⟩ := exists_const_of_block ss _ hx
      exact ⟨n, e, .inr hmem⟩

end

namespace Code

/-- The instructions of a statement stand in a stretch of code; they are made inside a function,
that is with a frame, or outside. -/
def Includes (inside : Bool) (st : CheckedStmt) (code : List Instr) : Prop :=
  ∃ s l before after, s.frame.isSome = inside ∧ lowerStmt st s = some l ∧
    code = before ++ l.code ++ after

/-- Code in a stretch of code is in every longer one. -/
theorem Includes.between {inside : Bool} {st : CheckedStmt} {code : List Instr}
    (h : Includes inside st code) (before after : List Instr) :
    Includes inside st (before ++ code ++ after) := by
  obtain ⟨s, l, before', after', hs, hl, rfl⟩ := h
  exact ⟨s, l, before ++ before', after' ++ after, hs, hl, by simp only [List.append_assoc]⟩

/-- The code of a statement includes that of the statement itself. -/
theorem includes_self {st : CheckedStmt} {s : Supply} {l : Lowered Unit}
    (h : lowerStmt st s = some l) : Includes s.frame.isSome st l.code :=
  ⟨s, l, [], [], rfl, h, by simp⟩

/-- A statement without blocks has no parts but itself. -/
theorem includes_single {st part : CheckedStmt} {s : Supply} {l : Lowered Unit}
    (h : lowerStmt st s = some l) (hpart : part ∈ [st]) : Includes s.frame.isSome part l.code := by
  rw [List.mem_singleton.mp hpart]
  exact includes_self h

mutual

/-- The code of a statement is made of that of its parts. So the store of a declaration deep inside
of a statement is found in the code of the whole. -/
theorem includes_of_lowerStmt : ∀ (st : CheckedStmt) {s : Supply} {l : Lowered Unit},
    lowerStmt st s = some l → ∀ part ∈ st.parts, Includes s.frame.isSome part l.code
  | .branch n e whenTrue whenFalse, s, l, h, part, hpart => by
    rw [parts, List.mem_cons, List.mem_append] at hpart
    rcases hpart with rfl | hpart
    · exact includes_self h
    obtain ⟨a, b, d, ha, hb, hd, rfl⟩ := lowerStmt_branch.mp h
    -- Whether code is made inside of a function does not change from one part to the next.
    have hframe : (a.next.skipLabels 3).frame.isSome = s.frame.isSome := by
      rw [Supply.skipLabels_frame, (takes_of_lowerExpr _ ha).frame]
    have hframe' : b.next.frame.isSome = s.frame.isSome := by
      rw [(adds_of_lowerBlock _ hb).frame, pushNames_isSome, hframe]
    rw [← List.append_nil (a.code ++ _)]
    rcases hpart with hpart | hpart
    · have hfirst := includes_of_lowerBlock whenTrue hb part hpart
      rw [hframe] at hfirst
      refine Includes.between ?_ _ _
      have hcode := hfirst.between [.branch a.value (a.next.label 1) (a.next.label 2),
        .label (a.next.label 1)] ([.jump (a.next.label 3), .label (a.next.label 2)] ++ d.code ++
        [.jump (a.next.label 3), .label (a.next.label 3)])
      simpa only [branchCode, List.append_assoc] using hcode
    · have hsecond := includes_of_lowerBlock whenFalse hd part hpart
      rw [hframe'] at hsecond
      exact (hsecond.between _ _).between _ _
  | .loop n e body, s, l, h, part, hpart => by
    rw [parts, List.mem_cons] at hpart
    rcases hpart with rfl | hpart
    · exact includes_self h
    obtain ⟨a, b, ha, hb, rfl⟩ := lowerStmt_loop.mp h
    have hbody := includes_of_lowerBlock body hb part hpart
    rw [(takes_of_lowerExpr _ ha).frame, Supply.skipLabels_frame] at hbody
    exact hbody.between _ _
  | .print n e, s, l, h, part, hpart => includes_single h hpart
  | .var n x e, s, l, h, part, hpart => includes_single h hpart
  | .const n x e, s, l, h, part, hpart => includes_single h hpart
  | .write n x e, s, l, h, part, hpart => includes_single h hpart
  | .function n f ps r body, s, l, h, part, hpart => includes_single h hpart
  | .ret n e, s, l, h, part, hpart => includes_single h hpart

/-- The code of a block is made of that of its parts. -/
theorem includes_of_lowerBlock : ∀ (ss : List CheckedStmt) {s : Supply} {l : Lowered Unit},
    lowerBlock ss s = some l → ∀ part ∈ partsOf ss, Includes s.frame.isSome part l.code
  | [], s, l, h, part, hpart => by simp [partsOf] at hpart
  | st :: ss, s, l, h, part, hpart => by
    obtain ⟨a, b, ha, hb, rfl⟩ := lowerBlock_cons.mp h
    rw [partsOf, List.mem_append] at hpart
    rcases hpart with hpart | hpart
    · exact (includes_of_lowerStmt st ha part hpart).between [] b.code
    · have hrest := includes_of_lowerBlock ss hb part hpart
      rw [(adds_of_lowerStmt _ ha).frame, pushNames_isSome] at hrest
      have hcode := hrest.between a.code []
      rwa [List.append_nil] at hcode

end

/-- The storage of a name that is declared inside a function or outside. -/
def declaredAt (inside : Bool) (x : String) : Location := if inside then .frame x else .global x

/-- The last instruction of the declaration of a constant stores its value. It goes to where the
constant is declared, in the function or in the program. -/
theorem lowerStmt_const_store {n : Typing} {x : String} {e : Expr Typing} {s : Supply}
    {l : Lowered Unit} (h : lowerStmt (.const n x e) s = some l) :
    ∃ front ty r, l.code = front ++ [.store ty r (declaredAt s.frame.isSome x)] := by
  obtain ⟨t, a, -, ha, rfl⟩ := lowerDeclaration_eq_some.mp (lowerStmt_const.mp h)
  have hplace : (a.next.declare x).location x = declaredAt s.frame.isSome x := by
    rw [← (takes_of_lowerExpr _ ha).frame]
    unfold Supply.location Supply.names declaredAt
    cases hframe : a.next.frame <;> simp [hframe]
  refine ⟨a.code ++ [a.next.storage (.ofTy t) x], .ofTy t, a.value, ?_⟩
  rw [hplace, List.append_assoc]
  rfl

/-- The location that an instruction stores to. -/
def Instr.stored? : Instr → Option Location
  | .store _ _ target => some target
  | _ => none

/-- The locations that instructions store to, in order. -/
def storesOf (code : List Instr) : List Location := code.filterMap Instr.stored?

@[simp] theorem storesOf_append (a b : List Instr) : storesOf (a ++ b) = storesOf a ++ storesOf b :=
  List.filterMap_append

/-- The stores of code are the writes among its accesses. -/
theorem count_storesOf (loc : Location) (code : List Instr) :
    (storesOf code).count loc = storesTo loc (accessesOf code) := by
  induction code with
  | nil => rfl
  | cons i code ih =>
    rw [← List.singleton_append, storesOf_append, accessesOf_append, List.count_append,
      storesTo_append, ih]
    congr 1
    cases i with
    | load ty source target =>
      simp [storesOf, accessesOf, storesTo, Instr.stored?, Instr.place?, List.filterMap_cons]
    | store ty r target =>
      simp [storesOf, accessesOf, storesTo, Instr.stored?, Instr.place?, List.count_cons]
    | _ => rfl

end Code

/-! ## Programs -/

/-- A constant of a block is stored to where the code of its declaration ends. -/
def StoredByDeclaration (c : Checker) (ss : List Stmt) (x : String) (loc : Location)
    (code : List Instr) : Prop :=
  ∃ n e, .const n x e ∈ partsOf (c.block ss).1 ∧
    ∃ s l before after, lowerStmt (.const n x e) s = some l ∧ code = before ++ l.code ++ after ∧
      ∃ front ty r, l.code = front ++ [.store ty r loc]

/-- The store to a constant is the last instruction of its declaration, wherever in the block it
stands. -/
theorem storedByDeclaration {c : Checker} {ss : List Stmt} {x : String} {s : Supply}
    {l : Lowered Unit} (h : lowerBlock (c.block ss).1 s = some l)
    (hx : x ∈ Stmt.constantsOf ss) (tail : List Instr) :
    StoredByDeclaration c ss x (declaredAt s.frame.isSome x) (l.code ++ tail) := by
  obtain ⟨n, e, hmem⟩ := exists_const_of_block ss c hx
  obtain ⟨s', l', before, after, hs, hl, hcode⟩ :=
    (includes_of_lowerBlock _ h _ hmem).between [] tail
  obtain ⟨front, ty, r, hstore⟩ := lowerStmt_const_store hl
  rw [hs] at hstore
  exact ⟨n, e, hmem, s', l', before, after, hl, hcode, front, ty, r, hstore⟩

/-- The constants of a body are stored to once in its function. The one store is the one of the
declaration, since stores are counted along what the checker found of the body. -/
theorem constants_of_lowerFunction {b : Checker.OpenBody} {f : CheckedFunction} {Γ Γ' : Env}
    {vars : List (String × Ty)} {t : Ty} (h : Opened b f Γ Γ' vars t) {s : Supply}
    {l : Lowered Function} (hl : lowerFunction f s = some l) {x : String}
    (hx : x ∈ Stmt.constantsOf b.stmts) :
    (storesOf l.value.code).count (.frame x) = 1 ∧
      StoredByDeclaration b.start b.stmts x (.frame x) l.value.code := by
  have haccesses := (storageOf_lowerFunction h hl).accesses
  obtain ⟨agrees, clean, typed, frame, rfl⟩ := h
  have hplace : Γ.place x = .frame x := by
    obtain ⟨body, hbody, -⟩ := Option.map_eq_some_iff.mp frame
    rw [Env.place, hbody]
  have hbecomes := becomes_of_block typed agrees clean hx
  rw [hplace] at hbecomes
  refine ⟨?_, ?_⟩
  · rw [count_storesOf, haccesses]
    exact hbecomes.stores (tracks_of_block _ typed agrees clean)
  · obtain ⟨a, ha, rfl⟩ := (lowerFunction_typed_eq_some rfl rfl).mp hl
    have hstored := storedByDeclaration ha hx []
    rwa [List.append_nil] at hstored

/-- The constants of the program are stored to once in the statements outside of functions. The
functions in the program are left out of these statements, which changes no store. -/
theorem constants_of_lowerInit {p : Program} {Γ : Env} (hΓ : BlockTyped .empty p.body Γ)
    {a : Lowered Function} (ha : lowerInit p.analyze.program.globalStatements .initial = some a)
    {x : String} (hx : x ∈ Stmt.constantsOf p.body) :
    (storesOf a.value.code).count (.global x) = 1 ∧
      StoredByDeclaration .start p.body x (.global x) a.value.code := by
  have haccesses := (storage_of_lowerInit hΓ ha).2
  have hbecomes : BecomesConstant (.global x) .empty Γ :=
    becomes_of_block hΓ agrees_start Checker.clean_start hx
  refine ⟨?_, ?_⟩
  · rw [count_storesOf, haccesses]
    exact hbecomes.stores (tracks_of_block _ hΓ agrees_start Checker.clean_start)
  · obtain ⟨body, hbody, rfl⟩ := lowerInit_eq_some.mp ha
    rw [CheckedProgram.globalStatements, lowerBlock_filter] at hbody
    exact storedByDeclaration hbody hx _

/-- No function stores to a constant of the program. The functions of the code are the bodies that
the checker opened, and none of these stores to it. -/
theorem storesOf_functions {p : Program} {Γ : Env} (hΓ : BlockTyped .empty p.body Γ)
    {rest : List Function} (hrest : List.Forall₂ StorageOf (Checker.start.opensOf p.body) rest)
    {x : String} (hx : x ∈ Stmt.constantsOf p.body) :
    (storesOf (rest.flatMap Function.code)).count (.global x) = 0 := by
  have hbecomes : BecomesConstant (.global x) .empty Γ :=
    becomes_of_block hΓ agrees_start Checker.clean_start hx
  obtain ⟨-, b, hb, hconst⟩ := hbecomes
  have hx' : NoVariable (.global x) Γ := by
    intro b' hb'
    obtain rfl := Option.some.inj (hb.symm.trans hb')
    exact hconst
  rw [List.count_eq_zero]
  intro hmem
  obtain ⟨i, hi, hstored⟩ := List.mem_filterMap.mp hmem
  obtain ⟨g, hg, hi⟩ := List.mem_flatMap.mp hi
  obtain ⟨body, g', hzip, hstorage, -⟩ := exists_mem_zip hrest hrest hg
  have hnone := untouched_of_block hΓ agrees_start Checker.clean_start hx' body
    (List.of_mem_zip hzip).1
  rw [← hstorage.accesses, ← count_storesOf, List.count_eq_zero] at hnone
  exact hnone (List.mem_filterMap.mpr ⟨i, hi, hstored⟩)

/-- **Constants are stored to once, by their declaration.** Every program without diagnostics has
code. A constant that is declared outside of functions has one store in all of the code, and it is
the one that ends the declaration. A constant that is declared in a function has one store in the
frame of this function, again the one that ends the declaration. -/
theorem constants_stored_once (p : Program) (h : p.analyze.diagnostics = []) :
    ∃ init rest, generate p.analyze = .ok ⟨init :: rest⟩ ∧
      (∀ x ∈ Stmt.constantsOf p.body,
        (storesOf (Assembly.code ⟨init :: rest⟩)).count (.global x) = 1 ∧
          StoredByDeclaration .start p.body x (.global x) init.code) ∧
      List.Forall₂ (fun b g => g.name = functionSymbol b.name ∧ ∀ x ∈ Stmt.constantsOf b.stmts,
        (storesOf g.code).count (.frame x) = 1 ∧
          StoredByDeclaration b.start b.stmts x (.frame x) g.code)
        (Checker.start.opensOf p.body) rest := by
  obtain ⟨d, hd⟩ := typedProgram_of_clean p h
  obtain ⟨Γ, hΓ⟩ := typed_of_block agrees_start p.body ((analyze_diagnostics p).mp h)
  obtain ⟨init, rest, hinit, hrest, hasm⟩ := exists_generate h hd
  have hopened := opened_of_block hΓ agrees_start Checker.clean_start
  have hlowered := forall₂_of_lowerFunctions hrest
  -- Bodies in the order in which the checker opens them, next to the functions they became.
  have hstorage : List.Forall₂ StorageOf (Checker.start.opensOf p.body) rest.value := by
    refine forall₂_trans ?_ hopened hlowered
    rintro body f g ⟨Γ₀, Γ₁, vars, t, hopen⟩ ⟨s, l, hl, rfl⟩
    exact storageOf_lowerFunction hopen hl
  refine ⟨init.value, rest.value, hasm, ?_, ?_⟩
  · intro x hx
    obtain ⟨hone, hstored⟩ := constants_of_lowerInit hΓ hinit hx
    have hothers := storesOf_functions hΓ hstorage hx
    refine ⟨?_, hstored⟩
    rw [Assembly.code, List.flatMap_cons, storesOf_append, List.count_append, hone, hothers]
  · refine forall₂_trans ?_ hopened hlowered
    rintro body f g ⟨Γ₀, Γ₁, vars, t, hopen⟩ ⟨s, l, hl, rfl⟩
    exact ⟨(storageOf_lowerFunction hopen hl).name,
      fun x hx => constants_of_lowerFunction hopen hl hx⟩

/-- Constants next to variables of the same names: a function assigns to a variable of the program
before it declares a constant of that name, and has a variable in the place of a constant of the
program. One constant of the program is declared inside of a branch. -/
def constantsBeside : Program :=
  let here : Span := ⟨.nowhere, .nowhere⟩
  let int : TypeName := ⟨"int", here⟩
  let number (v : Int32) : Expr Span := .literal here (.int v)
  let read (x : String) : Expr Span := .read here x
  let f : Stmt := .function here "f" [⟨"a", int, here⟩] int [
    .write here "y" (read "a"),
    .const here "y" (number 3),
    .var here "x" int (some (read "y")),
    .write here "x" (.binary here (.arith .add) (read "x") (number 1)),
    .ret here (read "x")]
  { span := here
    body := [.const here "x" (number 1), .var here "y" int (some (number 2)), f,
      .branch here (.binary here (.compare .greater) (read "y") (number 0))
        [.const here "z" (.call here "f" [read "x"])] [],
      .write here "y" (read "z")] }

/-- Each of the three constants is stored to once, the assignments to variables of the same names
notwithstanding. -/
theorem constantsBeside_stores : constantsBeside.analyze.diagnostics = [] ∧
    ∃ init f, generate constantsBeside.analyze = .ok ⟨[init, f]⟩ ∧
      (storesOf (Assembly.code ⟨[init, f]⟩)).count (.global "x") = 1 ∧
      (storesOf (Assembly.code ⟨[init, f]⟩)).count (.global "z") = 1 ∧
      (storesOf f.code).count (.frame "y") = 1 := by
  have hclean : constantsBeside.analyze.diagnostics = [] := by decide
  obtain ⟨init, rest, hasm, hglobal, hrest⟩ := constants_stored_once constantsBeside hclean
  obtain ⟨f, rest', ⟨-, hf⟩, hnil, rfl⟩ := List.forall₂_cons_left_iff.mp hrest
  obtain rfl := List.forall₂_nil_left_iff.mp hnil
  refine ⟨hclean, init, f, hasm, (hglobal "x" ?_).1, (hglobal "z" ?_).1, (hf "y" ?_).1⟩
  all_goals decide

end Pulse

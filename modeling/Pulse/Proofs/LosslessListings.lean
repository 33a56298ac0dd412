/-
Listings lose nothing.

The text of a load or a store does not say whether its location is in the frame of the function or
belongs to the program. It need not: inside a function, the names in the frame are the parameters
and those that an instruction further up has made storage for. Lowering keeps to this rule, so two
codes with one listing are the same code.
-/
import Pulse.Compilation
import Pulse.Proofs.ListingTexts
import Pulse.Proofs.Resolved
import Pulse.Proofs.SourceSigns

set_option autoImplicit false

namespace Pulse

namespace Code

/-! ## Code with its frame -/

/-- Where a name is stored, given the names in the frame. -/
def locationIn (names : List String) (x : String) : Location :=
  if names.contains x then .frame x else .global x

/-- A location has the name that is stored there. -/
theorem name_locationIn (names : List String) (x : String) : (locationIn names x).name = x := by
  rw [locationIn]
  split <;> rfl

/-- A name is stored in the frame if and only if it is one of the names there. -/
theorem locationIn_eq_frame {names : List String} {x : String} :
    locationIn names x = .frame x ↔ x ∈ names := by
  simp [locationIn]

namespace Instr

variable {i j : Instr} {names : List String}

/-- The names in the frame behind an instruction. -/
def frameNames (names : List String) : Instr → List String
  | alloc _ x => x :: names
  | _ => names

/-- The names behind an instruction are those before it and the one that it makes storage for. -/
theorem mem_frameNames {x : String} :
    x ∈ i.frameNames names ↔ x ∈ names ∨ ∃ ty, i = alloc ty x := by
  cases i <;> simp [frameNames, or_comm, eq_comm]

/-- The kind of its location is all that the text of an instruction leaves out. And it is told by
the names that the frame has at this place, so two instructions at the same place are the same. -/
theorem eq_of_unplaced_eq (h : i.unplaced = j.unplaced)
    (hi : ∀ loc ∈ i.location?, loc = locationIn names loc.name)
    (hj : ∀ loc ∈ j.location?, loc = locationIn names loc.name) : i = j := by
  have hloc : ∀ a b : Location, a = locationIn names a.name → b = locationIn names b.name →
      a.name = b.name → a = b := fun a b ha hb hab => by rw [ha, hb, hab]
  cases i <;> cases j <;> simp only [unplaced, reduceCtorEq] at h
  case load.load =>
    simp only [load.injEq, Location.global.injEq] at h ⊢
    exact ⟨h.1, hloc _ _ (hi _ rfl) (hj _ rfl) h.2.1, h.2.2⟩
  case store.store =>
    simp only [store.injEq, Location.global.injEq] at h ⊢
    exact ⟨h.1, h.2.1, hloc _ _ (hi _ rfl) (hj _ rfl) h.2.2⟩
  all_goals exact h

end Instr

/-- Plain instructions whose locations follow the names in the frame: those at the start, and
those that get storage on the way. The names at the end are given, too. -/
inductive Framed : List String → List Instr → List String → Prop where
  | nil (names : List String) : Framed names [] names
  | cons {names names' : List String} {i : Instr} {code : List Instr} (hplain : i.Plain)
      (hplace : ∀ loc ∈ i.location?, loc = locationIn names loc.name)
      (h : Framed (i.frameNames names) code names') : Framed names (i :: code) names'

namespace Framed

variable {names names' names'' : List String} {code code' : List Instr} {i : Instr}

/-- Code behind code, with the names that the first one leaves. -/
theorem append (h : Framed names code names') (h' : Framed names' code' names'') :
    Framed names (code ++ code') names'' := by
  induction h with
  | nil => exact h'
  | cons hplain hplace _ ih => exact .cons hplain hplace (ih h')

/-- An instruction in front that has no location and makes no storage. -/
theorem step (hplain : i.Plain) (hlocation : i.location? = none)
    (hnames : i.frameNames names = names) (h : Framed names code names') :
    Framed names (i :: code) names' := by
  refine .cons hplain ?_ (hnames.symm ▸ h)
  rw [hlocation]
  exact fun _ hloc => nomatch hloc

/-- A single instruction that goes to where a name is stored. -/
theorem access {x : String} (hname : WordText x.toList)
    (hlocation : i.location? = some (locationIn names x)) : Framed names [i] names := by
  have hplace : ∀ loc ∈ i.location?, loc = locationIn names loc.name := by
    rw [hlocation]
    rintro _ ⟨⟩
    rw [name_locationIn]
  cases i <;> cases hlocation
  all_goals
    refine .cons ?_ hplace (.nil _)
    rw [Instr.Plain, name_locationIn]
    exact hname

/-- All instructions of framed code are plain. -/
theorem plain (h : Framed names code names') : ∀ i ∈ code, i.Plain := by
  induction h with
  | nil => exact fun _ hi => absurd hi List.not_mem_nil
  | cons hplain _ _ ih => exact List.forall_mem_cons.mpr ⟨hplain, ih⟩

/-- Code is told by its text and the names that its frame starts with. By induction on the code: the
names that it starts with and the storage in it tell the names everywhere. -/
theorem eq_of_unplaced_eq (h : Framed names code names') (h' : Framed names code' names'')
    (heq : code.map Instr.unplaced = code'.map Instr.unplaced) : code = code' := by
  induction h generalizing code' with
  | nil => exact (List.map_eq_nil_iff.mp heq.symm).symm
  | cons _ hplace _ ih =>
    cases h' with
    | nil => cases heq
    | cons _ hplace' hrest =>
      obtain ⟨hinstr, hmap⟩ := List.cons.inj heq
      obtain rfl := Instr.eq_of_unplaced_eq hinstr hplace hplace'
      rw [ih hrest hmap]

/-- A location is in the frame if its name was there from the start or got storage further up, and
only then. So the place of a location is determined by the text above it. -/
theorem frame_iff {above below : List Instr} (h : Framed names (above ++ i :: below) names')
    {loc : Location} (hloc : loc ∈ i.location?) :
    loc = .frame loc.name ↔ loc.name ∈ names ∨ ∃ ty, Instr.alloc ty loc.name ∈ above := by
  -- Passing the first instruction above, a name that it makes storage for moves into the frame.
  induction above generalizing names with
  | nil =>
    cases h with
    | cons _ hplace _ =>
      nth_rewrite 1 [hplace loc hloc]
      simp [locationIn_eq_frame]
  | cons j above ih =>
    cases h with
    | cons _ _ hrest =>
      rw [ih hrest, Instr.mem_frameNames, or_assoc, ← exists_or]
      simp only [List.mem_cons, eq_comm]

end Framed

/-! ## The code of expressions -/

/-- The name of the first function is a word. -/
theorem wordText_initName : WordText initName.toList :=
  (.mk rfl (List.all_eq_true.mp rfl) : WordText ('_' :: "_pulse_init".toList))

/-- The symbol of the entry is a word. -/
theorem wordText_entrySymbol : WordText entrySymbol.toList :=
  (.mk rfl (List.all_eq_true.mp rfl) : WordText ('_' :: "_pulse_main".toList))

/-- The symbol of a function is a word if its name is. -/
theorem wordText_functionSymbol {f : String} (h : WordText f.toList) :
    WordText (functionSymbol f).toList := by
  rw [functionSymbol]
  split
  · exact wordText_entrySymbol
  · exact h

/-- The value of a literal is a number. -/
theorem isNumber_ofLiteral {v : Literal} (h : (Sign.value v).Plain) :
    (Immediate.ofLiteral v).IsNumber := by
  cases v with
  | float x => exact h
  | int v | char v | bool v => trivial

/-- Zero is a number of every machine type. -/
theorem isNumber_zero (ty : MachineTy) : (Immediate.zero ty).IsNumber := by
  cases ty with
  | float => exact (by decide : Number.Binary64.zero.isNaN = false)
  | int | byte => trivial

/-- The code of a unary operator has no locations. -/
theorem framed_lowerUnary {op : UnaryOp} {ty : MachineTy} {r : Register} {s : Supply}
    {l : Lowered Register} (h : lowerUnary op ty r s = some l) :
    Framed s.names l.code l.next.names := by
  cases op with
  | plus =>
    obtain rfl := lowerUnary_plus.mp h
    exact .nil _
  | minus =>
    obtain rfl := lowerUnary_minus.mp h
    exact .step (isNumber_zero ty) rfl rfl (.step trivial rfl rfl (.nil _))
  | not =>
    obtain rfl := lowerUnary_not.mp h
    exact .step trivial rfl rfl (.step trivial rfl rfl (.nil _))

/-- The signs of arguments are those of each of them, and commas. -/
theorem argumentSigns_cons {e : Expr Typing} {es : List (Expr Typing)}
    (h : ∀ sign ∈ Expr.argumentSigns (e :: es), sign.Plain) :
    (∀ sign ∈ e.signs, sign.Plain) ∧ ∀ sign ∈ Expr.argumentSigns es, sign.Plain := by
  cases es with
  | nil => exact ⟨h, fun _ hsign => absurd hsign List.not_mem_nil⟩
  | cons e' es =>
    obtain ⟨he, hes⟩ := List.forall_mem_append.mp h
    exact ⟨he, (List.forall_mem_cons.mp hes).2⟩

mutual

/-- The code of an expression with plain signs. Every name in it is looked up with the names of the
supply, and so is found in the frame just when it was declared in front. -/
theorem framed_lowerExpr : ∀ (e : Expr Typing) {s : Supply} {l : Lowered Register},
    (∀ sign ∈ e.signs, sign.Plain) → lowerExpr e s = some l → Framed s.names l.code l.next.names
  | .literal n v, s, l, hplain, h => by
    obtain rfl := lowerExpr_literal.mp h
    exact .step (isNumber_ofLiteral (hplain _ List.mem_cons_self)) rfl rfl (.nil _)
  | .read n x, s, l, hplain, h => by
    obtain ⟨t, -, rfl⟩ := lowerExpr_read.mp h
    have hname : WordText x.toList := hplain _ List.mem_cons_self
    exact .access hname rfl
  | .binary n op left right, s, l, hplain, h => by
    obtain ⟨a, b, t, ha, hb, -, rfl⟩ := lowerExpr_binary.mp h
    obtain ⟨hleft, hright⟩ := List.forall_mem_append.mp hplain
    have hop : Framed b.next.names [binaryInstr op (.ofTy t) a.value b.value b.next.fresh]
        b.next.names := by
      cases op <;> exact .step trivial rfl rfl (.nil _)
    have hb := framed_lowerExpr right (List.forall_mem_cons.mp hright).2 hb
    exact (framed_lowerExpr left hleft ha).append (hb.append hop)
  | .unary n op operand, s, l, hplain, h => by
    obtain ⟨a, t, b, ha, -, hb, rfl⟩ := lowerExpr_unary.mp h
    have hoperand := (List.forall_mem_cons.mp hplain).2
    exact (framed_lowerExpr operand hoperand ha).append (framed_lowerUnary hb)
  | .call n f arguments, s, l, hplain, h => by
    obtain ⟨a, ha, rfl⟩ := lowerExpr_call.mp h
    obtain ⟨hname, hrest⟩ := List.forall_mem_cons.mp hplain
    have harguments := (List.forall_mem_append.mp (List.forall_mem_cons.mp hrest).2).1
    refine (framed_lowerExprs arguments harguments ha).append ?_
    exact .step (wordText_functionSymbol hname) rfl rfl (.nil _)

/-- The code of arguments with plain signs. -/
theorem framed_lowerExprs : ∀ (es : List (Expr Typing)) {s : Supply}
    {l : Lowered (List Register)}, (∀ sign ∈ Expr.argumentSigns es, sign.Plain) →
    lowerExprs es s = some l → Framed s.names l.code l.next.names
  | [], s, l, hplain, h => by
    obtain rfl := lowerExprs_nil.mp h
    exact .nil _
  | e :: es, s, l, hplain, h => by
    obtain ⟨a, b, ha, hb, rfl⟩ := lowerExprs_cons.mp h
    obtain ⟨he, hes⟩ := argumentSigns_cons hplain
    exact (framed_lowerExpr e he ha).append (framed_lowerExprs es hes hb)

end

/-! ## The code of statements -/

/-- Storage is made in the frame inside of functions only, and its name is there behind it. -/
theorem framed_storage (s : Supply) (ty : MachineTy) {x : String} (hname : WordText x.toList) :
    Framed s.names [s.storage ty x] (s.declare x).names := by
  obtain ⟨registers, labels, frame⟩ := s
  -- Outside of functions storage belongs to the program, and no names are kept.
  cases frame with
  | none => exact .step hname rfl rfl (.nil _)
  | some names => exact .cons hname (fun _ hloc => nomatch hloc) (.nil _)

/-- The code of a declaration stores to where the name is just put. -/
theorem framed_declaration {ty : Option Ty} {x : String} {e : Expr Typing} {s : Supply}
    {l : Lowered Unit} (hplain : ∀ sign ∈ Sign.name x :: e.signs, sign.Plain)
    (h : lowerDeclaration ty x e s = some l) : Framed s.names l.code l.next.names := by
  obtain ⟨t, a, -, ha, rfl⟩ := lowerDeclaration_eq_some.mp h
  obtain ⟨hname, he⟩ := List.forall_mem_cons.mp hplain
  have hstore : Framed (a.next.declare x).names
      [.store (.ofTy t) a.value ((a.next.declare x).location x)] (a.next.declare x).names :=
    .access hname rfl
  exact (framed_lowerExpr e he ha).append ((framed_storage a.next (.ofTy t) hname).append hstore)

section Blocks

variable {names names' names'' : List String} {a b : List Instr} {r : Register}
  {test enter merge ifTrue ifFalse : Label}

/-- A jump and a label have no locations. -/
theorem framed_jump {l l' : Label} : Framed names [.jump l, .label l'] names :=
  .step trivial rfl rfl (.step trivial rfl rfl (.nil _))

/-- Nor have a branch and a label. -/
theorem framed_branch {l l' : Label} : Framed names [.branch r l l', .label l] names :=
  .step trivial rfl rfl (.step trivial rfl rfl (.nil _))

/-- The arms of a branch, one behind the other: storage that the first one makes is in the frame for
the second one. -/
theorem framed_branchCode (ha : Framed names a names') (hb : Framed names' b names'') :
    Framed names (branchCode r ifTrue ifFalse merge a b) names'' :=
  (((framed_branch.append ha).append framed_jump).append hb).append framed_jump

/-- The condition and the body of a loop. -/
theorem framed_loopCode (ha : Framed names a names') (hb : Framed names' b names'') :
    Framed names (loopCode test enter merge a r b) names'' :=
  (((framed_jump.append ha).append framed_branch).append hb).append framed_jump

end Blocks

mutual

/-- The code of a statement with plain signs. The names that the frame has grow along the code as
they do along the supply. -/
theorem framed_lowerStmt : ∀ (st : CheckedStmt) {s : Supply} {l : Lowered Unit},
    (∀ sign ∈ st.signs, sign.Plain) → lowerStmt st s = some l → Framed s.names l.code l.next.names
  | .print n e, s, l, hplain, h => by
    obtain ⟨a, t, ha, -, rfl⟩ := lowerStmt_print.mp h
    exact (framed_lowerExpr e hplain ha).append (.step trivial rfl rfl (.nil _))
  | .var n x none, s, l, hplain, h => by
    obtain ⟨t, -, rfl⟩ := lowerStmt_var.mp h
    exact framed_storage s (.ofTy t) (hplain _ List.mem_cons_self)
  | .var n x (some e), s, l, hplain, h => framed_declaration hplain (lowerStmt_varWith.mp h)
  | .const n x e, s, l, hplain, h => framed_declaration hplain (lowerStmt_const.mp h)
  | .write n x e, s, l, hplain, h => by
    obtain ⟨a, t, ha, -, rfl⟩ := lowerStmt_write.mp h
    obtain ⟨hname, he⟩ := List.forall_mem_cons.mp hplain
    exact (framed_lowerExpr e he ha).append (.access hname rfl)
  | .branch n e whenTrue whenFalse, s, l, hplain, h => by
    obtain ⟨a, b, c, ha, hb, hc, rfl⟩ := lowerStmt_branch.mp h
    obtain ⟨he, hblocks⟩ := List.forall_mem_append.mp hplain
    obtain ⟨htrue, hfalse⟩ := List.forall_mem_append.mp hblocks
    have htrue := framed_lowerBlock whenTrue htrue hb
    have hfalse := framed_lowerBlock whenFalse hfalse hc
    exact (framed_lowerExpr e he ha).append (framed_branchCode htrue hfalse)
  | .loop n e body, s, l, hplain, h => by
    obtain ⟨a, b, ha, hb, rfl⟩ := lowerStmt_loop.mp h
    obtain ⟨he, hbody⟩ := List.forall_mem_append.mp hplain
    have he := framed_lowerExpr e he ha
    exact framed_loopCode he (framed_lowerBlock body hbody hb)
  | .function n f ps returns body, s, l, hplain, h => by
    -- The body is lowered elsewhere, with a frame of its own.
    obtain rfl := lowerStmt_function.mp h
    exact .nil _
  | .ret n e, s, l, hplain, h => by
    obtain ⟨a, t, ha, -, rfl⟩ := lowerStmt_ret.mp h
    exact (framed_lowerExpr e hplain ha).append (.step trivial rfl rfl (.nil _))

/-- The code of a block with plain signs. -/
theorem framed_lowerBlock : ∀ (ss : List CheckedStmt) {s : Supply} {l : Lowered Unit},
    (∀ sign ∈ CheckedStmt.signsOf ss, sign.Plain) → lowerBlock ss s = some l →
    Framed s.names l.code l.next.names
  | [], s, l, hplain, h => by
    obtain rfl := lowerBlock_nil.mp h
    exact .nil _
  | st :: ss, s, l, hplain, h => by
    obtain ⟨a, b, ha, hb, rfl⟩ := lowerBlock_cons.mp h
    obtain ⟨hst, hss⟩ := List.forall_mem_append.mp hplain
    exact (framed_lowerStmt st hst ha).append (framed_lowerBlock ss hss hb)

end

/-! ## Functions -/

/-- A function with names that are words, and with code that starts with the parameters in the
frame. -/
structure Function.WellFramed (g : Function) : Prop where
  name : WordText g.name.toList
  params : ∀ p ∈ g.params, WordText p.1.toList
  code : ∃ names, Framed (g.params.map Prod.fst) g.code names

namespace Function.WellFramed

variable {f g : Function}

/-- A well-framed function is plain. -/
theorem plain (h : g.WellFramed) : g.Plain := by
  obtain ⟨names, hcode⟩ := h.code
  exact ⟨h.name, h.params, hcode.plain⟩

/-- The parameters and the instructions above tell the kinds of locations. -/
theorem eq_of_unplaced_eq (hf : f.WellFramed) (hg : g.WellFramed) (h : f.unplaced = g.unplaced) :
    f = g := by
  obtain ⟨_, hcode⟩ := hf.code
  obtain ⟨_, hcode'⟩ := hg.code
  cases f
  cases g
  simp only [unplaced, Function.mk.injEq] at h
  obtain ⟨rfl, rfl, rfl, hmap⟩ := h
  exact congrArg (Function.mk _ _ _) (hcode.eq_of_unplaced_eq hcode' hmap)

end Function.WellFramed

/-- A function with plain signs becomes a well-framed one. Its parameters are in the frame from the
start. -/
theorem wellFramed_lowerFunction {f : CheckedFunction} {s : Supply} {l : Lowered Function}
    (hplain : ∀ sign ∈ f.signs, sign.Plain) (h : lowerFunction f s = some l) :
    l.value.WellFramed := by
  obtain ⟨vars, t, a, hparams, -, ha, rfl⟩ := lowerFunction_eq_some.mp h
  obtain ⟨hname, hrest⟩ := List.forall_mem_cons.mp hplain
  obtain ⟨hnames, hbody⟩ := List.forall_mem_append.mp hrest
  refine ⟨wordText_functionSymbol hname, ?_, a.next.names, ?_⟩
  · intro p hp
    obtain ⟨v, hv, rfl⟩ := List.mem_map.mp hp
    have hparam : (⟨v.1, some v.2⟩ : CheckedParam) ∈ f.params := hparams ▸ List.mem_map_of_mem hv
    exact hnames (.name v.1) (List.mem_map_of_mem (List.mem_map_of_mem hparam))
  · rw [map_fst_machineVar]
    exact framed_lowerBlock f.body hbody ha

/-- All functions of a program become well-framed ones. The frame of each starts with its own
parameters. -/
theorem wellFramed_lowerFunctions {fs : List CheckedFunction} {s : Supply}
    {l : Lowered (List Function)} (hplain : ∀ f ∈ fs, ∀ sign ∈ f.signs, sign.Plain)
    (h : lowerFunctions fs s = some l) : ∀ g ∈ l.value, g.WellFramed := by
  induction fs generalizing s l with
  | nil =>
    obtain rfl := lowerFunctions_nil.mp h
    exact fun _ hg => nomatch hg
  | cons f fs ih =>
    obtain ⟨a, b, ha, hb, rfl⟩ := lowerFunctions_cons.mp h
    obtain ⟨hf, hfs⟩ := List.forall_mem_cons.mp hplain
    exact List.forall_mem_cons.mpr ⟨wellFramed_lowerFunction hf ha, ih hfs hb⟩

/-- The statements outside of functions become a well-framed function. Nothing is ever in its
frame. -/
theorem wellFramed_lowerInit {ss : List CheckedStmt} {s : Supply} {l : Lowered Function}
    (hplain : ∀ sign ∈ CheckedStmt.signsOf ss, sign.Plain) (h : lowerInit ss s = some l) :
    l.value.WellFramed := by
  obtain ⟨a, ha, rfl⟩ := lowerInit_eq_some.mp h
  have htail : Framed a.next.names (initTail a.next.fresh) a.next.names :=
    .step trivial rfl rfl (.step trivial rfl rfl (.nil _))
  refine ⟨wordText_initName, fun _ hp => absurd hp List.not_mem_nil, a.next.names, ?_⟩
  exact (framed_lowerBlock ss hplain ha).append htail

end Code

/-! ## Programs -/

/-- A source that is compiled has been scanned, read and checked. With or without diagnostics, which
are part of the analysis (`analyze_source`). -/
theorem Compilation.result_eq_ok {source : String} {a : Analysis} :
    (ofSource source).result = .ok a ↔ ∃ tokens p, tokenize source = .ok tokens ∧
      Program.ofTokens tokens = .ok p ∧ a = p.analyze := by
  constructor
  · intro h
    rw [ofSource] at h
    split at h
    · cases h
    · rename_i tokens htokens
      dsimp only [ofTokens] at h
      split at h
      · cases h
      · rename_i p hp
        cases h
        exact ⟨tokens, p, htokens, hp, rfl⟩
  · rintro ⟨tokens, p, htokens, hp, rfl⟩
    simp only [ofSource, htokens, ofTokens, hp]

open Code

/-- The functions in the code of a source are well framed. Names and numbers in the code are those
in the source, where they were cut off as such. -/
theorem exists_wellFramed {source : String} {a : Analysis}
    (h : (Compilation.ofSource source).result = .ok a) (hclean : a.diagnostics = []) :
    ∃ asm, generate a = .ok asm ∧ asm.functions ≠ [] ∧ ∀ f ∈ asm.functions, f.WellFramed := by
  obtain ⟨tokens, p, htokens, hp, rfl⟩ := Compilation.result_eq_ok.mp h
  have hplain := plain_of_source htokens hp
  obtain ⟨d, hd⟩ := typedProgram_of_clean p hclean
  obtain ⟨init, rest, hinit, hrest, hasm⟩ := exists_generate hclean hd
  -- Both the statements outside of functions and the functions take their signs from the tree.
  refine ⟨_, hasm, List.cons_ne_nil _ _, List.forall_mem_cons.mpr ⟨?_, ?_⟩⟩
  · refine wellFramed_lowerInit (fun sign hsign => hplain sign ?_) hinit
    obtain ⟨s, hs, hmem⟩ := CheckedStmt.mem_signsOf.mp hsign
    exact CheckedStmt.mem_signsOf.mpr ⟨s, List.mem_of_mem_filter hs, hmem⟩
  · refine wellFramed_lowerFunctions (fun f hf sign hsign => hplain sign ?_) hrest
    exact CheckedStmt.signs_functionsOf _ f hf hsign

/-- **Listings lose nothing.** Two programs that are accepted have the same code if their listings
are the same. What a listing does not write is told by the lines above: a location is in the frame
of its function if its name is that of a parameter or has got storage further up, and it belongs to
the program if not. -/
theorem listings_lose_nothing {source source' : String} {a a' : Analysis}
    (h : (Compilation.ofSource source).result = .ok a) (hclean : a.diagnostics = [])
    (h' : (Compilation.ofSource source').result = .ok a') (hclean' : a'.diagnostics = []) :
    ∃ asm asm', generate a = .ok asm ∧ generate a' = .ok asm' ∧
      (asm.listing = asm'.listing ↔ asm = asm') ∧
      ∀ f ∈ asm.functions, ∀ above i below, f.code = above ++ i :: below → ∀ loc ∈ i.location?,
        (loc = .frame loc.name ↔
          loc.name ∈ f.params.map Prod.fst ∨ ∃ ty, Instr.alloc ty loc.name ∈ above) := by
  obtain ⟨asm, hasm, hne, hframed⟩ := exists_wellFramed h hclean
  obtain ⟨asm', hasm', hne', hframed'⟩ := exists_wellFramed h' hclean'
  refine ⟨asm, asm', hasm, hasm', ⟨fun hlisting => ?_, congrArg Assembly.listing⟩, ?_⟩
  · have hunplaced := Assembly.unplaced_eq_of_listing (fun f hf => (hframed f hf).plain)
      (fun f hf => (hframed' f hf).plain) hne hne' hlisting
    exact congrArg Assembly.mk (eq_of_map_eq_map
      (fun _ _ => Function.WellFramed.eq_of_unplaced_eq) hframed hframed' hunplaced)
  · intro f hf above i below hcode loc hloc
    obtain ⟨names, hnames⟩ := (hframed f hf).code
    rw [hcode] at hnames
    exact hnames.frame_iff hloc

/-- A function that reads its parameter. -/
def readingParam : String := "function LABEL(R1 int) int \x7b return R1; \x7d"

def readingParamTokens : List Token :=
  [⟨.kwFunction, "function", ⟨⟨0, 1⟩, ⟨8, 1⟩⟩⟩, ⟨.identifier, "LABEL", ⟨⟨9, 1⟩, ⟨14, 1⟩⟩⟩,
    ⟨.openParen, "(", ⟨⟨14, 1⟩, ⟨15, 1⟩⟩⟩, ⟨.identifier, "R1", ⟨⟨15, 1⟩, ⟨17, 1⟩⟩⟩,
    ⟨.identifier, "int", ⟨⟨18, 1⟩, ⟨21, 1⟩⟩⟩, ⟨.closeParen, ")", ⟨⟨21, 1⟩, ⟨22, 1⟩⟩⟩,
    ⟨.identifier, "int", ⟨⟨23, 1⟩, ⟨26, 1⟩⟩⟩, ⟨.openCurly, "\x7b", ⟨⟨27, 1⟩, ⟨28, 1⟩⟩⟩,
    ⟨.kwReturn, "return", ⟨⟨29, 1⟩, ⟨35, 1⟩⟩⟩, ⟨.identifier, "R1", ⟨⟨36, 1⟩, ⟨38, 1⟩⟩⟩,
    ⟨.semicolon, ";", ⟨⟨38, 1⟩, ⟨39, 1⟩⟩⟩, ⟨.closeCurly, "\x7d", ⟨⟨40, 1⟩, ⟨41, 1⟩⟩⟩,
    .endOfInput ⟨41, 1⟩]

/-- A function of the same name that reads a variable of the program instead. -/
def readingGlobal : String := "var R1 int <- 1; function LABEL() int \x7b return R1; \x7d"

def readingGlobalTokens : List Token :=
  [⟨.kwVar, "var", ⟨⟨0, 1⟩, ⟨3, 1⟩⟩⟩, ⟨.identifier, "R1", ⟨⟨4, 1⟩, ⟨6, 1⟩⟩⟩,
    ⟨.identifier, "int", ⟨⟨7, 1⟩, ⟨10, 1⟩⟩⟩, ⟨.assignment, "<-", ⟨⟨11, 1⟩, ⟨13, 1⟩⟩⟩,
    ⟨.integer, "1", ⟨⟨14, 1⟩, ⟨15, 1⟩⟩⟩, ⟨.semicolon, ";", ⟨⟨15, 1⟩, ⟨16, 1⟩⟩⟩,
    ⟨.kwFunction, "function", ⟨⟨17, 1⟩, ⟨25, 1⟩⟩⟩, ⟨.identifier, "LABEL", ⟨⟨26, 1⟩, ⟨31, 1⟩⟩⟩,
    ⟨.openParen, "(", ⟨⟨31, 1⟩, ⟨32, 1⟩⟩⟩, ⟨.closeParen, ")", ⟨⟨32, 1⟩, ⟨33, 1⟩⟩⟩,
    ⟨.identifier, "int", ⟨⟨34, 1⟩, ⟨37, 1⟩⟩⟩, ⟨.openCurly, "\x7b", ⟨⟨38, 1⟩, ⟨39, 1⟩⟩⟩,
    ⟨.kwReturn, "return", ⟨⟨40, 1⟩, ⟨46, 1⟩⟩⟩, ⟨.identifier, "R1", ⟨⟨47, 1⟩, ⟨49, 1⟩⟩⟩,
    ⟨.semicolon, ";", ⟨⟨49, 1⟩, ⟨50, 1⟩⟩⟩, ⟨.closeCurly, "\x7d", ⟨⟨51, 1⟩, ⟨52, 1⟩⟩⟩,
    .endOfInput ⟨52, 1⟩]

/-- Two functions of one name that read a name, once from the frame and once from the program. The
listings differ, since a parameter is part of the line of its function and a global variable is
declared in front. -/
theorem reading_listings :
    ∃ a a', (Compilation.ofSource readingParam).result = .ok a ∧ a.diagnostics = [] ∧
      (Compilation.ofSource readingGlobal).result = .ok a' ∧ a'.diagnostics = [] ∧
      ∃ asm asm', generate a = .ok asm ∧ generate a' = .ok asm' ∧
        (asm.listing = asm'.listing ↔ asm = asm') ∧
        ∀ f ∈ asm.functions, ∀ above i below, f.code = above ++ i :: below → ∀ loc ∈ i.location?,
          (loc = .frame loc.name ↔
            loc.name ∈ f.params.map Prod.fst ∨ ∃ ty, Instr.alloc ty loc.name ∈ above) := by
  have hrun : (Scanner.start readingParam).run 50 = some (.ok readingParamTokens) := rfl
  have hrun' : (Scanner.start readingGlobal).run 60 = some (.ok readingGlobalTokens) := rfl
  have htokens := Scanner.tokenize_eq_of_run (by decide) hrun
  have htokens' := Scanner.tokenize_eq_of_run (by decide) hrun'
  obtain ⟨p, hp, hclean⟩ : ∃ p, Program.ofTokens readingParamTokens = .ok p ∧
      p.analyze.diagnostics = [] := ⟨_, rfl, rfl⟩
  obtain ⟨p', hp', hclean'⟩ : ∃ p, Program.ofTokens readingGlobalTokens = .ok p ∧
      p.analyze.diagnostics = [] := ⟨_, rfl, rfl⟩
  have ha := Compilation.result_eq_ok.mpr ⟨_, p, htokens, hp, rfl⟩
  have ha' := Compilation.result_eq_ok.mpr ⟨_, p', htokens', hp', rfl⟩
  exact ⟨_, _, ha, hclean, ha', hclean', listings_lose_nothing ha hclean ha' hclean'⟩

end Pulse

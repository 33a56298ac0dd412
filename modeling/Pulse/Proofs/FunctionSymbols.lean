/-
When functions get symbols of their own.

A checked program has at most one function of a name. Its code has one more function, for the
statements outside of functions, and the entry function goes by another name there. Both names are
reserved only by convention: a program may declare functions that are called so. Distinct names of
the source are then one symbol of the code, and a call by this symbol comes to the first function
that has it.

What is shown is the exact condition. The symbols are as they are meant to be if and only if no
function has one of the two reserved names.
-/
import Pulse.Proofs.LoweredCode
import Pulse.Proofs.Resolved

set_option autoImplicit false

namespace Pulse

/-! ## The names of the source -/

mutual

/-- The names of the functions that a statement declares, also inside its blocks. No function is
accepted inside of a function. -/
def Stmt.functionNames : Stmt → List String
  | .function _ name _ _ _ => [name]
  | .branch _ _ whenTrue whenFalse =>
    Stmt.functionNamesOf whenTrue ++ Stmt.functionNamesOf whenFalse
  | .loop _ _ body => Stmt.functionNamesOf body
  | _ => []

/-- The names of the functions that the statements of a block declare. -/
def Stmt.functionNamesOf : List Stmt → List String
  | [] => []
  | s :: ss => s.functionNames ++ Stmt.functionNamesOf ss

end

/-- The names of the functions of a program, in source order. -/
def Program.functionNames (p : Program) : List String := Stmt.functionNamesOf p.body

open CheckedStmt in
mutual

/-- Checking keeps the functions of a statement, right or wrong. What is inside of a function is not
looked at, neither in the source nor in what is left of it. -/
theorem functionNames_stmt (c : Checker) : (s : Stmt) →
    (c.stmt s).1.functions.map CheckedFunction.name = s.functionNames
  | .print _ _ => rfl
  | .var _ _ _ _ => rfl
  | .const _ _ _ => rfl
  | .write _ _ _ => rfl
  | .branch _ condition whenTrue whenFalse => by
    have htrue := functionNames_block (c.condition condition).2 whenTrue
    have hfalse := functionNames_block ((c.condition condition).2.block whenTrue).2 whenFalse
    simp only [Checker.stmt, functions, Stmt.functionNames, List.map_append, htrue, hfalse]
  | .loop _ condition body => by
    have hbody := functionNames_block (c.condition condition).2 body
    simp only [Checker.stmt, functions, Stmt.functionNames, hbody]
  | .function _ _ _ _ _ => by
    simp only [Checker.stmt]
    split <;> rfl
  | .ret _ _ => rfl

/-- Checking keeps the functions of a block. -/
theorem functionNames_block (c : Checker) : (ss : List Stmt) →
    (functionsOf (c.block ss).1).map CheckedFunction.name = Stmt.functionNamesOf ss
  | [] => rfl
  | s :: ss => by
    have hs := functionNames_stmt c s
    have hss := functionNames_block (c.stmt s).2 ss
    simp only [Checker.block, functionsOf, Stmt.functionNamesOf, List.map_append, hs, hss]

end

/-- The checked program has the functions of the source, in the same order. -/
theorem functionNames_analyze (p : Program) :
    p.analyze.program.functions.map CheckedFunction.name = p.functionNames :=
  functionNames_block .start p.body

namespace Code

/-- No two functions of a typed program have the same name. -/
theorem functionNames_nodup {p : CheckedProgram} {d : Outline} (hp : TypedProgram p d) :
    (p.functions.map CheckedFunction.name).Nodup := by
  have hnames : p.functions.map CheckedFunction.name = d.functions.map Rules.Callee.name := by
    rw [← List.forall₂_eq_eq_eq, List.forall₂_map_left_iff, List.forall₂_map_right_iff]
    exact hp.functions.imp fun f k h => h.name
  rw [hnames]
  exact hp.names

/-! ## Symbols -/

/-- Only the entry goes by another name. -/
theorem functionSymbol_of_ne {name : String} (h : name ≠ entryName) :
    functionSymbol name = name := if_neg h

/-- The symbol of the statements outside of functions is that of a function of this name only. -/
theorem functionSymbol_eq_initName {name : String} :
    functionSymbol name = initName ↔ name = initName := by
  by_cases h : name = entryName
  · subst h
    decide
  · rw [functionSymbol_of_ne h]

/-- The symbol of the entry is also that of a function of this name. -/
theorem functionSymbol_eq_entrySymbol {name : String} :
    functionSymbol name = entrySymbol ↔ name = entryName ∨ name = entrySymbol := by
  by_cases h : name = entryName
  · subst h
    decide
  · rw [functionSymbol_of_ne h]
    simp [h]

/-- Whether functions have the symbol of the statements outside of functions is told by their
names. -/
theorem initName_mem_symbols {names : List String} :
    initName ∈ names.map functionSymbol ↔ initName ∈ names := by
  simp [functionSymbol_eq_initName]

/-- Whether there is a function with the symbol of the entry is told by the names. It is the entry,
or one that has this name itself. -/
theorem entrySymbol_mem_symbols {names : List String} :
    entrySymbol ∈ names.map functionSymbol ↔ entryName ∈ names ∨ entrySymbol ∈ names := by
  rw [List.mem_map]
  constructor
  · rintro ⟨name, hname, hsymbol⟩
    rcases functionSymbol_eq_entrySymbol.mp hsymbol with rfl | rfl
    · exact .inl hname
    · exact .inr hname
  · rintro (hname | hname)
    · exact ⟨entryName, hname, rfl⟩
    · exact ⟨entrySymbol, hname, rfl⟩

/-- Distinct names have distinct symbols, apart from the entry and its symbol. The entry is the only
function that is renamed, so the only name it can run into is the one it gets (`symbol_name`). -/
theorem nodup_symbols_iff {names : List String} (hnames : names.Nodup) :
    (names.map functionSymbol).Nodup ↔ ¬(entryName ∈ names ∧ entrySymbol ∈ names) := by
  constructor
  · rintro h ⟨hentry, hsymbol⟩
    have heq : entryName = entrySymbol := List.inj_on_of_nodup_map h hentry hsymbol rfl
    exact absurd heq (by decide)
  · intro h
    refine hnames.map_on ?_
    intro x hx y hy hxy
    by_cases hxe : x = entryName
    · subst hxe
      rcases functionSymbol_eq_entrySymbol.mp hxy.symm with rfl | rfl
      · rfl
      · exact absurd ⟨hx, hy⟩ h
    · rw [functionSymbol_of_ne hxe] at hxy
      by_cases hye : y = entryName
      · subst hye
        obtain rfl : x = entrySymbol := hxy
        exact absurd ⟨hy, hx⟩ h
      · rwa [functionSymbol_of_ne hye] at hxy

/-- The symbols of a program are distinct, next to that of the statements outside of functions. -/
theorem nodup_initName_symbols_iff {names : List String} (hnames : names.Nodup) :
    (initName :: names.map functionSymbol).Nodup ↔
      initName ∉ names ∧ ¬(entryName ∈ names ∧ entrySymbol ∈ names) := by
  rw [List.nodup_cons, initName_mem_symbols, nodup_symbols_iff hnames]

/-! ## Symbols in generated code -/

/-- The names in generated code are distinct if and only if no function of the source is called like
the first function, and none like the symbol of an entry that is there. What is said of code with
distinct names is said of the code of these programs. -/
theorem nodup_names_iff {p : Program} {asm : Assembly} (hasm : generate p.analyze = .ok asm) :
    (asm.functions.map Function.name).Nodup ↔ initName ∉ p.functionNames ∧
      ¬(entryName ∈ p.functionNames ∧ entrySymbol ∈ p.functionNames) := by
  obtain ⟨d, hd⟩ := typedProgram_of_clean p (generate_eq_ok.mp hasm).1
  have hdistinct : p.functionNames.Nodup := by
    rw [← functionNames_analyze]
    exact functionNames_nodup hd
  have hnames : asm.functions.map Function.name =
      initName :: p.functionNames.map functionSymbol := by
    rw [names_of_generate hasm, ← functionNames_analyze, List.map_map]
    rfl
  rw [hnames, nodup_initName_symbols_iff hdistinct]

/-- The symbols of generated code are what they are meant to be: distinct, with that of the first
function nowhere else, and with that of the entry where `names` have an entry. -/
structure SymbolsApart (names : List String) (init : Function) (rest : List Function) : Prop where
  distinct : ((init :: rest).map Function.name).Nodup
  first : init.name = initName ∧ ∀ g ∈ rest, g.name ≠ initName
  entry : (∃ g ∈ init :: rest, g.name = entrySymbol) ↔ entryName ∈ names

/-- The symbols are what they are meant to be if and only if no function has one of the reserved
names, provided that the names in the source are distinct. -/
theorem symbolsApart_iff {names : List String} (hnames : names.Nodup) {init : Function}
    {rest : List Function} (hinit : init.name = initName)
    (hrest : rest.map Function.name = names.map functionSymbol) :
    SymbolsApart names init rest ↔ initName ∉ names ∧ entrySymbol ∉ names := by
  have hdistinct : ((init :: rest).map Function.name).Nodup ↔
      initName ∉ names ∧ ¬(entryName ∈ names ∧ entrySymbol ∈ names) := by
    rw [List.map_cons, hinit, hrest, nodup_initName_symbols_iff hnames]
  have hentry : (∃ g ∈ init :: rest, g.name = entrySymbol) ↔
      entryName ∈ names ∨ entrySymbol ∈ names := by
    rw [← List.mem_map, List.map_cons, hinit, hrest, List.mem_cons, entrySymbol_mem_symbols]
    exact or_iff_right (by decide)
  -- Without an entry its symbol must not be there at all, and with one it must be there once.
  constructor
  · intro h
    obtain ⟨hno, hboth⟩ := hdistinct.mp h.distinct
    refine ⟨hno, ?_⟩
    intro hsymbol
    exact hboth ⟨h.entry.mp (hentry.mpr (.inr hsymbol)), hsymbol⟩
  · rintro ⟨hno, hsymbol⟩
    have hnodup := hdistinct.mpr ⟨hno, fun h => hsymbol h.2⟩
    refine ⟨hnodup, ⟨hinit, ?_⟩, hentry.trans (or_iff_left hsymbol)⟩
    intro g hg hname
    exact (List.nodup_cons.mp hnodup).1 (List.mem_map.mpr ⟨g, hg, hname.trans hinit.symm⟩)

/-- Under distinct symbols, every function of the source is found under its symbol. Functions are
looked up by their symbols, and the first one found is the only one. -/
theorem found_of_lowerFunctions {fs : List CheckedFunction} {s : Supply}
    {b : Lowered (List Function)} (hb : lowerFunctions fs s = some b) {init : Function}
    (hnames : ((init :: b.value).map Function.name).Nodup) :
    List.Forall₂ (fun f g => (∃ s l, lowerFunction f s = some l ∧ l.value = g) ∧
      Assembly.function? ⟨init :: b.value⟩ (functionSymbol f.name) = some g) fs b.value := by
  obtain ⟨hlength, hlowered⟩ := List.forall₂_iff_zip.mp (forall₂_of_lowerFunctions hb)
  refine List.forall₂_iff_zip.mpr ⟨hlength, ?_⟩
  intro f g hfg
  obtain ⟨s', a, ha, rfl⟩ := hlowered hfg
  have hg := (List.of_mem_zip hfg).2
  refine ⟨⟨s', a, ha, rfl⟩, ?_⟩
  have hname : a.value.name = functionSymbol f.name := by
    obtain ⟨vars, t, body, -, -, -, rfl⟩ := lowerFunction_eq_some.mp ha
    rfl
  rw [← hname]
  exact find?_eq_some hnames (List.mem_cons_of_mem _ hg)

end Code

open Code

/-- **Symbols of functions.** Every program without diagnostics has code, which starts with the
statements outside of functions and goes on with the functions of the source. The symbols are
distinct, that of the first function is no other's and that of the entry is there just for an entry,
if and only if no function of the source is called like one of the two. Distinct they are already if
no function is called like the first one and none like the symbol of an entry that is there; then
each function is found under its symbol. -/
theorem symbols_apart_iff_unreserved (p : Program) (h : p.analyze.diagnostics = []) :
    ∃ init rest, generate p.analyze = .ok ⟨init :: rest⟩ ∧ init.name = initName ∧
      rest.map Function.name = p.functionNames.map functionSymbol ∧
      (SymbolsApart p.functionNames init rest ↔
        initName ∉ p.functionNames ∧ entrySymbol ∉ p.functionNames) ∧
      (((init :: rest).map Function.name).Nodup ↔ initName ∉ p.functionNames ∧
        ¬(entryName ∈ p.functionNames ∧ entrySymbol ∈ p.functionNames)) ∧
      (((init :: rest).map Function.name).Nodup →
        List.Forall₂ (fun f g => (∃ s l, lowerFunction f s = some l ∧ l.value = g) ∧
          Assembly.function? ⟨init :: rest⟩ (functionSymbol f.name) = some g)
          p.analyze.program.functions rest) := by
  obtain ⟨d, hd⟩ := typedProgram_of_clean p h
  have hdistinct : p.functionNames.Nodup := by
    rw [← functionNames_analyze]
    exact functionNames_nodup hd
  obtain ⟨a, b, ha, hb, hasm⟩ := exists_generate h hd
  have hinit := (header_of_lowerInit ha).1
  have hrest : b.value.map Function.name = p.functionNames.map functionSymbol := by
    rw [names_of_lowerFunctions hb, ← functionNames_analyze, List.map_map]
    rfl
  exact ⟨a.value, b.value, hasm, hinit, hrest, symbolsApart_iff hdistinct hinit hrest,
    nodup_names_iff hasm, found_of_lowerFunctions hb⟩

/-- A function of the given name that returns one, and a call of it. -/
def calling (name : String) : Program :=
  let here : Span := ⟨.nowhere, .nowhere⟩
  { span := here
    body := [.function here name [] ⟨"int", here⟩ [.ret here (.literal here (.int 1))],
      .print here (.call here name [])] }

/-- Nothing rejects the reserved names. A function that is called like the first one is a second
one of this name, and its call comes to the first one, which calls itself. One that is called like
the symbol of the entry passes for an entry. -/
theorem reserved_names_accepted :
    ((calling initName).analyze.diagnostics = [] ∧ ∃ init user,
      generate (calling initName).analyze = .ok ⟨[init, user]⟩ ∧
      init = ⟨initName, [], .int,
        [.call initName [] ⟨1⟩, .print .int ⟨1⟩, .move (.int 0) ⟨2⟩, .ret .int ⟨2⟩]⟩ ∧
      user = ⟨initName, [], .int, [.move (.int 1) ⟨3⟩, .ret .int ⟨3⟩]⟩ ∧
      Assembly.function? ⟨[init, user]⟩ initName = some init) ∧
    (calling entrySymbol).analyze.diagnostics = [] ∧
      entryName ∉ (calling entrySymbol).functionNames ∧ ∃ init user,
        generate (calling entrySymbol).analyze = .ok ⟨[init, user]⟩ ∧ user.name = entrySymbol := by
  refine ⟨⟨by decide, _, _, ?_, rfl, rfl, rfl⟩, by decide, by decide,
    ⟨initName, [], .int,
      [.call entrySymbol [] ⟨1⟩, .print .int ⟨1⟩, .move (.int 0) ⟨2⟩, .ret .int ⟨2⟩]⟩,
    ⟨entrySymbol, [], .int, [.move (.int 1) ⟨3⟩, .ret .int ⟨3⟩]⟩, ?_, rfl⟩
  · decide +kernel
  · decide +kernel

/-- A program with an entry that nothing else is called like. -/
theorem symbols_apart_calling_main : (calling entryName).analyze.diagnostics = [] ∧
    ∃ init rest, generate (calling entryName).analyze = .ok ⟨init :: rest⟩ ∧
      SymbolsApart [entryName] init rest := by
  have hclean : (calling entryName).analyze.diagnostics = [] := by decide
  obtain ⟨init, rest, hasm, -, -, hiff, -⟩ := symbols_apart_iff_unreserved _ hclean
  exact ⟨hclean, init, rest, hasm, hiff.mpr (by decide)⟩

end Pulse

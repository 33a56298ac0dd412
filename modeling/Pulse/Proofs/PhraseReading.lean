/-
Reading what the rules derive.

Statements are read along the right sides of their rules, one lemma for each. The languages of what
is read are then such that the rules do not lead out of them, so they hold everything that the rules
derive.
-/
import Pulse.Proofs.ChainReading
import Pulse.Proofs.ProgramReading

set_option autoImplicit false

namespace Pulse

open Ebnf Reader Grammar

/-! ## Statements -/

/-- Words that are read as a statement, and start as statements do. -/
structure Sentence (ws : List Word) : Prop where
  takes : ∀ n, ws.length ≤ n + 1 →
    (standard.stmt (n + 1)).Takes ws (· ≠ .kwElse) (fun _ => True)
  starts : ∃ w us, ws = w :: us ∧ standard.stmt? w.kind ≠ none

/-- Statements in braces. -/
def Braced (ws : List Word) : Prop :=
  ∃ v w, ∃ wss : List (List Word), ws = v :: (wss.flatten ++ [w]) ∧ v.kind = .openCurly ∧
    (∀ us ∈ wss, Sentence us) ∧ w.kind = .closeCurly

section Sentences

variable {us vs ws : List Word} {u v w x y : Word} {wss : List (List Word)} {n : Nat}

/-- Statements are at most as many as their words. -/
theorem Sentence.length_le (h : ∀ us ∈ wss, Sentence us) : wss.length ≤ wss.flatten.length := by
  induction wss with
  | nil => exact Nat.zero_le _
  | cons us wss ih =>
    obtain ⟨hus, hwss⟩ := List.forall_mem_cons.mp h
    obtain ⟨u, us, rfl, -⟩ := hus.starts
    have hothers := ih hwss
    rw [List.length_cons, List.flatten_cons, List.length_append, List.length_cons]
    omega

/-- No statement starts with `else`. -/
theorem Sentence.leads (h : ∀ us ∈ wss, Sentence us) {next : Kind → Prop}
    (hnext : ∀ k, next k → k ≠ .kwElse) : Leads wss.flatten next (· ≠ .kwElse) := by
  cases wss with
  | nil => exact leads_nil hnext
  | cons us wss =>
    obtain ⟨u, us, rfl, hu⟩ := (h us List.mem_cons_self).starts
    exact leads_cons (ne_of_stmt? hu).2.2

/-- Statements are read one by one, up to a token that starts none. By induction on the
statements. What follows a statement is the next one or the token at which they stop, and neither
is an `else`. -/
theorem readStmtsUntil_sentences {stop : Kind → Bool}
    (hstop : ∀ k, standard.stmt? k ≠ none → ¬ stop k) (h : ∀ us ∈ wss, Sentence us) {fuel : Nat}
    (hfuel : wss.length < fuel) (hn : wss.flatten.length ≤ n) :
    (readStmtsUntil stop (standard.stmt n) fuel).Takes wss.flatten
      (fun k => stop k ∧ k ≠ .kwElse) (fun _ => True) := by
  induction wss generalizing fuel with
  | nil =>
    obtain ⟨fuel, rfl⟩ : ∃ m, fuel = m + 1 := ⟨fuel - 1, by omega⟩
    refine takes_kind (leads_nil fun k hk => hk) fun k hk => ?_
    rw [if_pos hk.1]
    exact takes_pure trivial
  | cons us wss ih =>
    obtain ⟨fuel, rfl⟩ : ∃ m, fuel = m + 1 := ⟨fuel - 1, by omega⟩
    obtain ⟨hus, hwss⟩ := List.forall_mem_cons.mp h
    rw [List.flatten_cons] at hn ⊢
    rw [List.length_append] at hn
    obtain ⟨u, us', hstarts, hu⟩ := hus.starts
    have hpos : 0 < us.length := by
      rw [hstarts]
      exact Nat.succ_pos _
    have hlead : Leads (us ++ wss.flatten) (fun k => stop k ∧ k ≠ .kwElse) (¬ stop ·) := by
      rw [hstarts]
      exact leads_cons (hstop _ hu)
    refine takes_kind hlead fun k hk => ?_
    rw [if_neg hk]
    have hothers := ih hwss (Nat.lt_of_succ_lt_succ hfuel) (by omega)
    obtain ⟨n, rfl⟩ : ∃ m, n = m + 1 := ⟨n - 1, by omega⟩
    refine (hus.takes n (by omega)).bind (Sentence.leads hwss fun k hk => hk.2) fun s _ => ?_
    exact hothers.last (fun k hk => hk) fun ss _ => takes_pure trivial

/-- A block is read from its statements in braces. The statements end at the closing brace, which
starts none. -/
theorem Braced.takes (h : Braced ws) (hn : ws.length ≤ n) (next : Kind → Prop) :
    (readBlock (standard.stmt n) n).Takes ws next (fun _ => True) := by
  obtain ⟨v, w, wss, rfl, hv, hwss, hw⟩ := h
  have hcount := Sentence.length_le hwss
  simp only [List.length_cons, List.length_append, List.length_nil] at hn
  -- What starts a statement neither closes a block nor ends the input.
  have hstop : ∀ k, standard.stmt? k ≠ none → ¬ (k = Kind.closeCurly || k = .eof) := by
    intro k hk
    simp [ne_of_stmt? hk]
  refine takes_expectWhere hv fun _ _ => ?_
  have hbody : (readStmtsUntil _ (standard.stmt n) n).Takes _ _ _ :=
    readStmtsUntil_sentences hstop hwss (by omega) (by omega)
  refine hbody.bind (leads_cons ?_) fun body _ => ?_
  · rw [hw]
    exact ⟨rfl, by decide⟩
  · exact takes_expectWhere hw fun _ _ => takes_pure trivial

/-- A block that a statement ends with. -/
theorem Braced.last (h : Braced ws) (hn : ws.length ≤ n) {next : Kind → Prop} {start : Position}
    {g : Span → List Stmt → Stmt} :
    (do
      let body ← readBlock (standard.stmt n) n
      return g (← Reader.spanFrom start) body : Reader Stmt).Takes ws next (fun _ => True) := by
  refine (h.takes hn fun _ => True).last (fun _ _ => trivial) fun body _ => ?_
  exact takes_ask fun t => takes_pure trivial

/-- A block with a condition in front. A condition ends before the brace, which goes on with no
expression. -/
theorem Braced.behind {β : Type} {f : Expr Span → Reader β} {next : Kind → Prop} {Q : β → Prop}
    (h : Braced vs) (hus : Chain us) (hn : us.length ≤ n)
    (hf : ∀ e, (f e).Takes (vs ++ ws) next Q) :
    (standard.expr n .default >>= f).Takes (us ++ (vs ++ ws)) next Q := by
  obtain ⟨v, w, wss, rfl, hv, -, -⟩ := h
  exact hus.before hn (by rw [hv]; rfl) hf

/-- An expression and a semicolon, which many statements end with. -/
theorem Chain.value (h : Chain us) (hw : w.kind = .semicolon) (hn : us.length ≤ n)
    {next : Kind → Prop} {start : Position} {g : Span → Expr Span → Stmt} :
    (do
      let value ← standard.expr n .default
      let _ ← Reader.expect .semicolon
      return g (← Reader.spanFrom start) value : Reader Stmt).Takes
      (us ++ [w]) next (fun _ => True) := by
  refine h.before hn (by rw [hw]; rfl) fun e => takes_expect hw fun _ _ => ?_
  exact takes_ask fun t => takes_pure trivial

/-! ## Names and parameters -/

/-- A word of the kind of names is read as a name. -/
theorem takes_nameWord {β : Type} {f : String → Reader β} {message : String} {next : Kind → Prop}
    {Q : β → Prop} (hw : w.kind = .identifier) (hf : ∀ name, (f name).Takes ws next Q) :
    (readName message >>= f).Takes (w :: ws) next Q := by
  rw [Word.eq_name hw]
  exact takes_name (hf _)

/-- A word of the kind of names is read as a type. -/
theorem takes_typeWord {β : Type} {f : TypeName → Reader β} {next : Kind → Prop} {Q : β → Prop}
    (hw : w.kind = .identifier) (hf : ∀ type, (f type).Takes ws next Q) :
    (readType >>= f).Takes (w :: ws) next Q := by
  rw [Word.eq_name hw]
  exact takes_type fun type _ => hf type

/-- A name and a type. -/
def Parameter (ws : List Word) : Prop :=
  ∃ v w, ws = [v, w] ∧ v.kind = .identifier ∧ w.kind = .identifier

/-- The parameters of a function. -/
def Parameters (ws : List Word) : Prop :=
  ws = [] ∨ ∃ us, ∃ wss : List (List Word), ws = us ++ wss.flatten ∧ Parameter us ∧
    ∀ vs ∈ wss, Behind Parameter vs

/-- Parameters are read one by one. A comma tells that there are more. By induction on the
parameters behind the first one (`parse_fn_decl_stmt`). -/
theorem readParams_parameters (hus : Parameter us) (hwss : ∀ ws ∈ wss, Behind Parameter ws)
    {fuel : Nat} (hfuel : wss.length < fuel) :
    (readParams fuel).Takes (us ++ wss.flatten) (· = .closeParen) (fun _ => True) := by
  induction wss generalizing us fuel with
  | nil =>
    obtain ⟨fuel, rfl⟩ : ∃ m, fuel = m + 1 := ⟨fuel - 1, by omega⟩
    obtain ⟨v, w, rfl, hv, hw⟩ := hus
    refine takes_ask fun _ => takes_nameWord hv fun name => takes_typeWord hw fun type => ?_
    refine takes_ask fun t => takes_kind (leads_nil fun k hk => hk) ?_
    rintro k rfl
    rw [if_neg (by decide)]
    exact takes_pure trivial
  -- The fuel is one for each parameter, and one to see that there are no more.
  | cons ws wss ih =>
    obtain ⟨fuel, rfl⟩ : ∃ m, fuel = m + 1 := ⟨fuel - 1, by omega⟩
    obtain ⟨v, w, rfl, hv, hw⟩ := hus
    obtain ⟨⟨x, vs, rfl, hx, hvs⟩, hwss'⟩ := List.forall_mem_cons.mp hwss
    have hothers := ih hvs hwss' (Nat.lt_of_succ_lt_succ hfuel)
    refine takes_ask fun _ => takes_nameWord hv fun name => takes_typeWord hw fun type => ?_
    refine takes_ask fun t => takes_firstKind hx ?_
    rw [if_pos rfl]
    refine takes_advance fun _ _ => hothers.last (fun k hk => hk) fun others _ => ?_
    exact takes_pure trivial

/-- Whether there are parameters is settled by the first word. It is the closing parenthesis, or a
name. -/
theorem Parameters.before {β : Type} {f : List Param → Reader β} {next : Kind → Prop}
    {Q : β → Prop} {fuel : Nat} (h : Parameters us) (hfuel : us.length ≤ fuel)
    (hw : w.kind = .closeParen) (hf : ∀ ps, (f ps).Takes (w :: ws) next Q) :
    Takes (do
      let params ← if (← Reader.kind) = .closeParen then pure [] else readParams fuel
      f params) (us ++ w :: ws) next Q := by
  rcases h with rfl | ⟨us, wss, rfl, hus, hwss⟩
  · refine takes_firstKind hw ?_
    rw [if_pos rfl]
    exact takes_pure_bind (hf [])
  · have hcount := length_le_flatten hwss
    obtain ⟨v, v', rfl, hv, hv'⟩ := hus
    simp only [List.length_cons, List.length_append] at hfuel
    refine takes_firstKind hv ?_
    rw [if_neg (by decide)]
    refine (readParams_parameters ⟨v, v', rfl, hv, hv'⟩ hwss (by omega)).bind (leads_cons hw) ?_
    exact fun ps _ => hf ps

/-! ## The forms of statements -/

/-- The first word of a statement settles its form. -/
theorem sentence_of_form {form : StmtForm} (hform : standard.stmt? w.kind = some form)
    (h : ∀ n, ws.length ≤ n →
      (form.read (standard.expr n) (readBlock (standard.stmt n) n) n).Takes (w :: ws)
        (· ≠ .kwElse) (fun _ => True)) : Sentence (w :: ws) := by
  refine ⟨fun n hn => takes_stmt hform (h n ?_), w, ws, rfl, ?_⟩
  · rw [List.length_cons] at hn
    omega
  · rw [hform]
    exact Option.some_ne_none _

/-- A `print` with its expression in parentheses. -/
theorem sentence_print (hu : u.kind = .kwPrint) (hv : v.kind = .openParen) (h : Chain us)
    (hw : w.kind = .closeParen) (hx : x.kind = .semicolon) :
    Sentence (u :: v :: (us ++ [w, x])) := by
  refine sentence_of_form (by rw [hu]; rfl) fun n hn => ?_
  simp only [List.length_cons, List.length_append, List.length_nil] at hn
  refine takes_advance fun _ _ => takes_expect hv fun _ _ => ?_
  refine h.before (by omega) (by rw [hw]; rfl) fun e => takes_expect hw fun _ _ => ?_
  exact takes_expect hx fun _ _ => takes_ask fun t => takes_pure trivial

/-- A variable without a value. -/
theorem sentence_var (hu : u.kind = .kwVar) (hv : v.kind = .identifier) (hw : w.kind = .identifier)
    (hx : x.kind = .semicolon) : Sentence [u, v, w, x] := by
  refine sentence_of_form (by rw [hu]; rfl) fun n hn => takes_advance fun _ _ => ?_
  refine takes_nameWord hv fun name => takes_typeWord hw fun type => takes_firstKind hx ?_
  rw [if_neg (by decide)]
  exact takes_pure_bind (takes_expect hx fun _ _ => takes_ask fun t => takes_pure trivial)

/-- A variable with a value. -/
theorem sentence_varWith (hu : u.kind = .kwVar) (hv : v.kind = .identifier)
    (hw : w.kind = .identifier) (hy : y.kind = .assignment) (h : Chain us)
    (hx : x.kind = .semicolon) : Sentence (u :: v :: w :: y :: (us ++ [x])) := by
  refine sentence_of_form (by rw [hu]; rfl) fun n hn => takes_advance fun _ _ => ?_
  simp only [List.length_cons, List.length_append, List.length_nil] at hn
  refine takes_nameWord hv fun name => takes_typeWord hw fun type => takes_firstKind hy ?_
  rw [if_pos rfl]
  refine takes_advance fun _ _ => h.before (by omega) (by rw [hx]; rfl) fun e => ?_
  exact takes_pure_bind (takes_expect hx fun _ _ => takes_ask fun t => takes_pure trivial)

/-- A constant. -/
theorem sentence_const (hu : u.kind = .kwConst) (hv : v.kind = .identifier)
    (hw : w.kind = .assignment) (h : Chain us) (hx : x.kind = .semicolon) :
    Sentence (u :: v :: w :: (us ++ [x])) := by
  refine sentence_of_form (by rw [hu]; rfl) fun n hn => takes_advance fun _ _ => ?_
  simp only [List.length_cons, List.length_append, List.length_nil] at hn
  refine takes_nameWord hv fun name => takes_expectWhere hw fun _ _ => ?_
  exact h.value hx (by omega)

/-- An assignment. -/
theorem sentence_write (hu : u.kind = .identifier) (hv : v.kind = .assignment) (h : Chain us)
    (hx : x.kind = .semicolon) : Sentence (u :: v :: (us ++ [x])) := by
  refine sentence_of_form (by rw [hu]; rfl) fun n hn => takes_advance fun _ _ => ?_
  simp only [List.length_cons, List.length_append, List.length_nil] at hn
  exact takes_expectWhere hv fun _ _ => h.value hx (by omega)

/-- A branch without a second arm. It ends where no `else` follows. -/
theorem sentence_branch (hu : u.kind = .kwIf) (h : Chain us) (hvs : Braced vs) :
    Sentence (u :: (us ++ vs)) := by
  refine sentence_of_form (by rw [hu]; rfl) fun n hn => takes_advance fun _ _ => ?_
  rw [List.length_append] at hn
  rw [← List.append_nil vs]
  refine hvs.behind h (by omega) fun e => ?_
  refine (hvs.takes (by omega) fun _ => True).bind (fun _ _ _ _ => trivial) fun whenTrue _ => ?_
  -- Whatever follows is not `else`, or this would not be the end of the statement.
  refine takes_kind (leads_nil fun k hk => hk) fun k hk => ?_
  rw [if_neg hk]
  exact takes_pure_bind (takes_ask fun t => takes_pure trivial)

/-- A branch with a second arm. -/
theorem sentence_branchElse (hu : u.kind = .kwIf) (h : Chain us) (hvs : Braced vs)
    (hw : w.kind = .kwElse) (hws : Braced ws) : Sentence (u :: (us ++ (vs ++ w :: ws))) := by
  refine sentence_of_form (by rw [hu]; rfl) fun n hn => takes_advance fun _ _ => ?_
  simp only [List.length_append, List.length_cons] at hn
  refine hvs.behind h (by omega) fun e => ?_
  refine (hvs.takes (by omega) fun _ => True).bind (fun _ _ _ _ => trivial) fun whenTrue _ => ?_
  refine takes_firstKind hw ?_
  rw [if_pos rfl]
  exact takes_advance fun _ _ => hws.last (by omega)

/-- A loop. -/
theorem sentence_loop (hu : u.kind = .kwWhile) (h : Chain us) (hvs : Braced vs) :
    Sentence (u :: (us ++ vs)) := by
  refine sentence_of_form (by rw [hu]; rfl) fun n hn => takes_advance fun _ _ => ?_
  rw [List.length_append] at hn
  rw [← List.append_nil vs]
  refine hvs.behind h (by omega) fun e => ?_
  rw [List.append_nil]
  exact hvs.last (by omega)

/-- A function with its parameters, its type and its body. -/
theorem sentence_function (hu : u.kind = .kwFunction) (hv : v.kind = .identifier)
    (hw : w.kind = .openParen) (hus : Parameters us) (hx : x.kind = .closeParen)
    (hy : y.kind = .identifier) (hvs : Braced vs) :
    Sentence (u :: v :: w :: (us ++ x :: y :: vs)) := by
  refine sentence_of_form (by rw [hu]; rfl) fun n hn => takes_advance fun _ _ => ?_
  simp only [List.length_append, List.length_cons] at hn
  refine takes_nameWord hv fun name => takes_expect hw fun _ _ => ?_
  refine hus.before (by omega) hx fun params => takes_expectWhere hx fun _ _ => ?_
  exact takes_typeWord hy fun type => hvs.last (by omega)

/-- A `return`. -/
theorem sentence_ret (hu : u.kind = .kwReturn) (h : Chain us) (hx : x.kind = .semicolon) :
    Sentence (u :: (us ++ [x])) := by
  refine sentence_of_form (by rw [hu]; rfl) fun n hn => takes_advance fun _ _ => ?_
  simp only [List.length_append, List.length_cons, List.length_nil] at hn
  exact h.value hx (by omega)

end Sentences

/-! ## All phrases -/

/-- A word that a token of the rules can be. -/
def Word.IsToken (w : Word) (k : Kind) : Prop := w.kind = k ∧ w.Legible

/-- How the words of a nonterminal are read. -/
def Read : Nonterminal → List Word → Prop
  | .program, ws => ∃ wss : List (List Word), ws = wss.flatten ∧ ∀ us ∈ wss, Sentence us
  | .statement, ws => Sentence ws
  | .type, ws => ∃ w, ws = [w] ∧ w.kind = .identifier
  | .expr, ws => Chain ws
  | .callee, ws => NameGroup ws

section Closed

variable {ws : List Word} {k : Kind} {ks : List Kind}

/-- What one of several tokens stands for is a word of one of their kinds. By induction on the
alternatives. -/
theorem spelled_anyToken {L : Nonterminal → List Word → Prop}
    (h : (anyToken k ks).Spelled Word.IsToken L ws) :
    ∃ w, ws = [w] ∧ w.kind ∈ k :: ks ∧ w.Legible := by
  induction ks generalizing k with
  | nil =>
    obtain ⟨w, rfl, rfl, hlegible⟩ := h
    exact ⟨w, rfl, List.mem_singleton_self _, hlegible⟩
  | cons j ks ih =>
    rcases h with ⟨w, rfl, rfl, hlegible⟩ | h
    · exact ⟨w, rfl, List.mem_cons_self, hlegible⟩
    · obtain ⟨w, rfl, hmem, hlegible⟩ := ih h
      exact ⟨w, rfl, List.mem_cons_of_mem _ hmem, hlegible⟩

/-- The kinds in the rule are those of unary operators. -/
theorem exists_unaryOp (h : k ∈ [Kind.plus, .dash, .not]) : ∃ op : UnaryOp, k = op.kind := by
  obtain ⟨op, -, rfl⟩ : ∃ op ∈ [UnaryOp.plus, .minus, .not], op.kind = k := List.mem_map.mp h
  exact ⟨op, rfl⟩

/-- The kinds in the rule are those of binary operators. -/
theorem exists_binaryOp (h : k ∈ [Kind.plus, .dash, .star, .slash, .less, .lessEquals, .greater,
    .greaterEquals, .equals, .notEquals, .and, .or]) : ∃ op : BinaryOp, k = op.kind := by
  obtain ⟨op, -, rfl⟩ : ∃ op ∈ [BinaryOp.arith .add, .arith .sub, .arith .mul, .arith .div,
      .compare .less, .compare .lessEquals, .compare .greater, .compare .greaterEquals,
      .compare .equals, .compare .notEquals, .logic .and, .logic .or], op.kind = k :=
    List.mem_map.mp h
  exact ⟨op, rfl⟩

/-- Parts with commas between them. -/
theorem spelled_commas {a : Ebnf} {L : Nonterminal → List Word → Prop}
    (h : (commas a).Spelled Word.IsToken L ws) :
    ∃ us, ∃ wss : List (List Word), ws = us ++ wss.flatten ∧ a.Spelled Word.IsToken L us ∧
      ∀ vs ∈ wss, Behind (a.Spelled Word.IsToken L) vs := by
  obtain ⟨us, _, rfl, hus, _, _, rfl, ⟨wss, rfl, hwss⟩, rfl⟩ := h
  refine ⟨us, wss, by rw [List.append_nil], hus, fun vs hvs => ?_⟩
  obtain ⟨_, _, rfl, ⟨w, rfl, hw, -⟩, _, _, rfl, ha, rfl⟩ := hwss vs hvs
  exact ⟨w, _, rfl, hw, by rwa [List.append_nil]⟩

/-- What the rule of expressions stands for is read as an expression: one case for each
alternative. -/
theorem read_expr (h : (lenient .expr).Spelled Word.IsToken Read ws) : Chain ws := by
  rcases h with h | ⟨w, rfl, hw, hlegible⟩ |
    ⟨callee, _, rfl, hcallee, _, _, rfl, ⟨v, rfl, hv, -⟩, us, _, rfl, hus, _, _, rfl,
      ⟨w, rfl, hw, -⟩, rfl⟩ |
    ⟨_, _, rfl, ⟨v, rfl, hv, -⟩, us, _, rfl, hus, _, _, rfl, ⟨w, rfl, hw, -⟩, rfl⟩ |
    ⟨_, _, rfl, hop, us, _, rfl, hus, rfl⟩ |
    ⟨us, _, rfl, hus, _, _, rfl, hop, vs, _, rfl, hvs, rfl⟩
  -- In the order of the alternatives: literals, names, calls, parentheses, and the two kinds of
  -- operators.
  · obtain ⟨w, rfl, hkind, hlegible⟩ := spelled_anyToken h
    exact (operand_primary (List.mem_append_left [.identifier] hkind) hlegible).chain
  · exact (operand_primary (by rw [hw]; decide) hlegible).chain
  · refine (operand_call hcallee hv ?_ hw).chain
    exact hus.imp id spelled_commas
  · exact (operand_group hv hus hw).chain
  · obtain ⟨w, rfl, hkind, -⟩ := spelled_anyToken hop
    obtain ⟨op, hw⟩ := exists_unaryOp hkind
    rw [List.append_nil]
    exact hus.unary op hw
  · obtain ⟨w, rfl, hkind, -⟩ := spelled_anyToken hop
    obtain ⟨op, hw⟩ := exists_binaryOp hkind
    rw [List.append_nil]
    exact hus.binary op hw hvs

/-- What a block stands for is read as one. -/
theorem read_block (h : block.Spelled Word.IsToken Read ws) : Braced ws := by
  obtain ⟨_, _, rfl, ⟨v, rfl, hv, -⟩, _, _, rfl, ⟨wss, rfl, hwss⟩, _, _, rfl, ⟨w, rfl, hw, -⟩,
    rfl⟩ := h
  exact ⟨v, w, wss, rfl, hv, hwss, hw⟩

/-- What a parameter stands for is read as one. -/
theorem read_parameter
    (h : (all [.token .identifier, .rule .type]).Spelled Word.IsToken Read ws) : Parameter ws := by
  obtain ⟨_, _, rfl, ⟨v, rfl, hv, -⟩, _, _, rfl, ⟨w, rfl, hw⟩, rfl⟩ := h
  exact ⟨v, w, rfl, hv, hw⟩

/-- What the rule of statements stands for is read as a statement: one case for each alternative.
Each alternative is taken apart into its words, and these are read by the handler for the first of
them. -/
theorem read_statement (h : (lenient .statement).Spelled Word.IsToken Read ws) : Sentence ws := by
  -- In the order of the rule: `print`, a variable, a constant, an assignment, a branch, a loop, a
  -- function, `return`.
  rcases h with
    ⟨_, _, rfl, ⟨u, rfl, hu, -⟩, _, _, rfl, ⟨v, rfl, hv, -⟩, us, _, rfl, hus, _, _, rfl,
      ⟨w, rfl, hw, -⟩, _, _, rfl, ⟨x, rfl, hx, -⟩, rfl⟩ |
    ⟨_, _, rfl, ⟨u, rfl, hu, -⟩, _, _, rfl, ⟨v, rfl, hv, -⟩, _, _, rfl, ⟨w, rfl, hw⟩, _, _, rfl,
      hvalue, _, _, rfl, ⟨x, rfl, hx, -⟩, rfl⟩ |
    ⟨_, _, rfl, ⟨u, rfl, hu, -⟩, _, _, rfl, ⟨v, rfl, hv, -⟩, _, _, rfl, ⟨w, rfl, hw, -⟩, us, _, rfl,
      hus, _, _, rfl, ⟨x, rfl, hx, -⟩, rfl⟩ |
    ⟨_, _, rfl, ⟨u, rfl, hu, -⟩, _, _, rfl, ⟨v, rfl, hv, -⟩, us, _, rfl, hus, _, _, rfl,
      ⟨x, rfl, hx, -⟩, rfl⟩ |
    ⟨_, _, rfl, ⟨u, rfl, hu, -⟩, us, _, rfl, hus, vs, _, rfl, hvs, _, _, rfl, helse, rfl⟩ |
    ⟨_, _, rfl, ⟨u, rfl, hu, -⟩, us, _, rfl, hus, vs, _, rfl, hvs, rfl⟩ |
    ⟨_, _, rfl, ⟨u, rfl, hu, -⟩, _, _, rfl, ⟨v, rfl, hv, -⟩, _, _, rfl, ⟨w, rfl, hw, -⟩, us, _, rfl,
      hus, _, _, rfl, ⟨x, rfl, hx, -⟩, _, _, rfl, ⟨y, rfl, hy⟩, vs, _, rfl, hvs, rfl⟩ |
    ⟨_, _, rfl, ⟨u, rfl, hu, -⟩, us, _, rfl, hus, _, _, rfl, ⟨x, rfl, hx, -⟩, rfl⟩
  · exact sentence_print hu hv hus hw hx
  · rcases hvalue with rfl | ⟨_, _, rfl, ⟨y, rfl, hy, -⟩, us, _, rfl, hus, rfl⟩
    · exact sentence_var hu hv hw hx
    · rw [List.append_nil us]
      exact sentence_varWith hu hv hw hy hus hx
  · exact sentence_const hu hv hw hus hx
  · exact sentence_write hu hv hus hx
  · rcases helse with rfl | ⟨_, _, rfl, ⟨w, rfl, hw, -⟩, ws, _, rfl, hws, rfl⟩
    · rw [List.append_nil, List.append_nil]
      show Sentence (u :: (us ++ vs))
      exact sentence_branch hu hus (read_block hvs)
    · rw [List.append_nil, List.append_nil ws]
      exact sentence_branchElse hu hus (read_block hvs) hw (read_block hws)
  · rw [List.append_nil]
    show Sentence (u :: (us ++ vs))
    exact sentence_loop hu hus (read_block hvs)
  · rw [List.append_nil vs]
    refine sentence_function hu hv hw (hus.imp id fun h => ?_) hx hy (read_block hvs)
    obtain ⟨first, others, rfl, hfirst, hothers⟩ := spelled_commas h
    refine ⟨first, others, rfl, read_parameter hfirst, fun vs hvs => ?_⟩
    obtain ⟨w, us, rfl, hw, hus⟩ := hothers vs hvs
    exact ⟨w, us, rfl, hw, read_parameter hus⟩
  · exact sentence_ret hu hus hx

/-- The rules do not lead out of what is read. So everything that they derive is read, for each of
the five rules. -/
theorem read_closed (n : Nonterminal) (ws : List Word)
    (h : (lenient n).Spelled Word.IsToken Read ws) : Read n ws := by
  cases n with
  | program => exact h
  | statement => exact read_statement h
  | type =>
    obtain ⟨w, rfl, hw, -⟩ := h
    exact ⟨w, rfl, hw⟩
  | expr => exact read_expr h
  | callee =>
    rcases h with ⟨w, rfl, hw, -⟩ |
      ⟨_, _, rfl, ⟨v, rfl, hv, -⟩, us, _, rfl, hus, _, _, rfl, ⟨w, rfl, hw, -⟩, rfl⟩
    · exact nameGroup_name hw
    · exact nameGroup_group hv hus hw

end Closed

/-! ## Programs -/

/-- A program is read from its statements. They end at the end of input. -/
theorem program_sentences {wss : List (List Word)} (h : ∀ us ∈ wss, Sentence us) {n : Nat}
    (hn : wss.flatten.length < n) :
    (standard.program n).Takes wss.flatten (· = .eof) (fun _ => True) := by
  have hcount := Sentence.length_le h
  have hstop : ∀ k, standard.stmt? k ≠ none → ¬ (decide (k = Kind.eof) = true) := by
    intro k hk
    simp [ne_of_stmt? hk]
  have hbody : (readStmtsUntil _ (standard.stmt n) n).Takes _ _ _ :=
    readStmtsUntil_sentences hstop h (by omega) (by omega)
  refine hbody.last ?_ fun body _ => takes_ask fun t => takes_pure trivial
  rintro k rfl
  exact ⟨rfl, by decide⟩

/-- Tokens other than the end of input are words. -/
theorem exists_words {us : List Token} (hus : ∀ u ∈ us, u.kind ≠ .eof)
    (hlegible : ∀ u ∈ us, u.Legible) :
    ∃ ws, List.Forall₂ Token.Spells us ws ∧ List.Forall₂ Word.IsToken ws (us.map Token.kind) := by
  induction us with
  | nil => exact ⟨[], .nil, .nil⟩
  | cons u us ih =>
    obtain ⟨hu, hus⟩ := List.forall_mem_cons.mp hus
    obtain ⟨hu', hlegible⟩ := List.forall_mem_cons.mp hlegible
    obtain ⟨ws, hspells, htokens⟩ := ih hus hlegible
    exact ⟨⟨u.kind, u.value, hu⟩ :: ws, .cons ⟨rfl, fun _ => rfl⟩ hspells, .cons ⟨rfl, hu'⟩ htokens⟩

/-- **What the rules derive is read.** The readers have enough fuel for it, since there is one unit
for every token and more. -/
theorem ofTokens_phrase {body : List Token} (h : Phrase (.rule .program) body)
    (hbody : ∀ u ∈ body, u.kind ≠ .eof) {last : Token} (hlast : last.kind = .eof) :
    ∃ p, Program.ofTokens (body ++ [last]) = .ok p := by
  obtain ⟨ws, hspells, htokens⟩ := exists_words hbody h.legible
  obtain ⟨wss, rfl, hwss⟩ : Read .program ws := h.derives.spelled read_closed htokens
  obtain ⟨first, rest, htape⟩ : ∃ first rest, body ++ [last] = first :: rest :=
    List.exists_cons_of_ne_nil (by simp)
  obtain ⟨t', hpasses, hcurrent⟩ := Tape.exists_passes hspells
    (t := ⟨first, rest, .origin, false⟩) htape.symm
  have hlength : wss.flatten.length = rest.length := by
    have hall := congrArg List.length htape
    rw [List.length_append, List.length_singleton, List.length_cons] at hall
    rw [← hspells.length_eq]
    omega
  have hread := program_sentences hwss (n := rest.length + 2) (by omega)
  obtain ⟨p, hp, -⟩ := hread _ t' hpasses (by rw [Tape.kind, hcurrent, hlast])
  refine ⟨p, ?_⟩
  rw [Program.ofTokens, htape]
  simp only [Tape.ofTokens?, Tape.fuel, hp]

end Pulse

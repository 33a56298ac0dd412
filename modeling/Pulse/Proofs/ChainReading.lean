/-
Reading the expressions that the rules derive.

The rules say nothing of how tightly operators bind: what they derive as one operand may be read as
parts of several. So an expression is taken as what it is on the surface, an operand and some tails
of an operator and an operand, and every grouping of the tails is such a list again. Which tails a
reader takes above a power, and that it stops in front of the first one that does not bind tighter,
is then an induction on their number.
-/
import Pulse.Proofs.PhraseVerdicts
import Pulse.Proofs.ExprReading

set_option autoImplicit false

namespace Pulse

open Ebnf Reader Grammar

/-! ## Words of the language -/

/-- A word that stands for a number, if it is one of numbers. -/
def Word.Legible (w : Word) : Prop := Pulse.Legible w.kind w.text

/-- A word of the kind of names is the name that its text spells. -/
theorem Word.eq_name {w : Word} (h : w.kind = .identifier) : w = .name w.text := by
  cases w
  subst h
  rfl

/-! ## Operands -/

/-- Words that are read as one operand above every power that is looser than a call, and start as
expressions do. -/
structure Operand (ws : List Word) : Prop where
  resumes : ∃ e, ∀ floor, floor < .call → Resumes e ws (standard.power · < .call) floor
  starts : ∃ w us, ws = w :: us ∧ standard.head? w.kind ≠ none

/-- Operators with operands behind them. -/
inductive Tails : List Word → Prop where
  | nil : Tails []
  | cons {w : Word} {us vs : List Word} (op : BinaryOp) (hw : w.kind = op.kind) (hus : Operand us)
      (hvs : Tails vs) : Tails (w :: (us ++ vs))

/-- An operand and the tails behind it. -/
def Chain (ws : List Word) : Prop := ∃ us vs, ws = us ++ vs ∧ Operand us ∧ Tails vs

/-- Tails behind tails are tails. -/
theorem Tails.append {us vs : List Word} (hus : Tails us) (hvs : Tails vs) : Tails (us ++ vs) := by
  induction hus with
  | nil => exact hvs
  | cons op hw hoperand _ ih =>
    rw [List.cons_append, List.append_assoc]
    exact .cons op hw hoperand ih

/-- Two operands of an operator may be chains themselves. -/
theorem Chain.binary {us vs : List Word} {w : Word} (hus : Chain us) (op : BinaryOp)
    (hw : w.kind = op.kind) (hvs : Chain vs) : Chain (us ++ w :: vs) := by
  obtain ⟨us, us', rfl, hoperand, htails⟩ := hus
  obtain ⟨vs, vs', rfl, hoperand', htails'⟩ := hvs
  refine ⟨us, us' ++ w :: (vs ++ vs'), List.append_assoc .., hoperand, ?_⟩
  exact htails.append (.cons op hw hoperand' htails')

/-- An operand is a chain without tails. -/
theorem Operand.chain {ws : List Word} (h : Operand ws) : Chain ws :=
  ⟨ws, [], (List.append_nil ws).symm, h, .nil⟩

/-- A chain starts with a word that can start an expression. -/
theorem Chain.starts {ws : List Word} (h : Chain ws) :
    ∃ w us, ws = w :: us ∧ standard.head? w.kind ≠ none := by
  obtain ⟨_, vs, rfl, hoperand, -⟩ := h
  obtain ⟨w, us, rfl, hw⟩ := hoperand.starts
  exact ⟨w, us ++ vs, rfl, hw⟩

/-- A chain has at least one word. -/
theorem Chain.length_pos {ws : List Word} (h : Chain ws) : 0 < ws.length := by
  obtain ⟨w, us, rfl, -⟩ := h.starts
  exact Nat.succ_pos _

/-! ## Tails above a power -/

/-- The kinds of token that stand in front of tails: the first operator, or what is no operator. -/
def Before : List Word → Kind → Prop
  | [], k => standard.power k = .default
  | w :: _, k => k = w.kind

/-- A reader that goes on before some kinds goes on before fewer of them. -/
theorem Resumes.mono {e : Expr Span} {ws : List Word} {next next' : Kind → Prop} {floor : Power}
    (h : Resumes e ws next floor) (hnext : ∀ k, next' k → next k) : Resumes e ws next' floor :=
  fun n t t' ht hk hlen => h n t t' ht (hnext _ hk) hlen

/-- Where the tails end, the expression has been read. There is fuel left for the round that sees
that no tail follows. -/
theorem Resumes.ends {e : Expr Span} {ws : List Word} {next : Kind → Prop} {floor : Power}
    (h : Resumes e ws next floor) (hws : 0 < ws.length) {n : Nat} (hn : ws.length ≤ n)
    (hstops : ∀ k, next k → Stops floor k) :
    (standard.expr n floor).Takes ws next (·.bare = e.bare) := by
  intro t t' ht hnext
  obtain ⟨n, rfl⟩ : ∃ m, n = m + 1 := ⟨n - 1, by omega⟩
  obtain ⟨e', k, hbare, hk, hexpr⟩ := h n t t' ht hnext hn
  obtain ⟨k, rfl⟩ : ∃ j, k = j + 1 := ⟨k - 1, by omega⟩
  refine ⟨e', ?_, hbare⟩
  rw [hexpr]
  exact readTails_stop (hstops _ hnext)

/-- Every binary operator binds less tightly than a call. -/
theorem BinaryOp.power_lt_call (op : BinaryOp) : op.power < .call :=
  Nat.lt_trans op.rank_power.2 (by decide)

/-- What stands in front of tails, or behind the last of them, binds less tightly than a call. So an
operand ends there, whatever it is. -/
theorem Tails.lt_call {vs : List Word} (h : Tails vs) {k : Kind} (hk : Before vs k) :
    standard.power k < .call := by
  cases h with
  | nil =>
    rw [show standard.power k = .default from hk]
    decide
  | cons op hw _ _ =>
    obtain rfl : k = _ := hk
    rw [hw, op.power_kind]
    exact op.power_lt_call

/-- An operator and the operand behind it, as one more tail. The operand is read above the power of
the operator, and stops where the reading of the whole goes on. -/
theorem Resumes.binary {left right : Expr Span} {us vs : List Word} {w : Word}
    {mid next : Kind → Prop} {floor : Power} {op : BinaryOp} (hleft : Resumes left us mid floor)
    (hw : w.kind = op.kind) (hmid : mid w.kind) (hlt : floor < op.power)
    (hright : Resumes right vs next op.power) (hvs : 0 < vs.length)
    (hstops : ∀ k, next k → Stops op.power k) :
    Resumes (.binary .nowhere op left right) (us ++ w :: vs) next floor := by
  refine hleft.tail hmid (by rw [hw]; exact op.tail?_kind) hlt ?_
  intro n k left' hleft' hlen _
  rw [List.length_cons] at hlen
  refine takes_advance fun u hu => ?_
  have hop : BinaryOp.ofKind? u.kind = some op := by
    rw [hu.1, hw]
    exact op.ofKind?_kind
  rw [hop]
  refine (hright.ends hvs (by omega) hstops).last (fun k hk => hk) fun right' hright' => ?_
  refine takes_pure ?_
  rw [Expr.bare, hleft', hright', Expr.bare]

/-- **Above a power, the reader takes tails up to the first one that does not bind tighter.** What
it leaves is again tails, which the caller with a lower power takes up. The operand behind the first
operator leaves fewer tails than there were, and this is what the induction is on. -/
theorem Tails.reached {left : Expr Span} {us vs : List Word} {floor : Power} (hvs : Tails vs)
    (hleft : Resumes left us (Before vs) floor) :
    ∃ e taken others, vs = taken ++ others ∧ Tails others ∧
      (∀ k, Before others k → Stops floor k) ∧
      Resumes e (us ++ taken) (Before others) floor := by
  -- The operand behind the first operator takes some of the tails, and what it leaves is shorter.
  induction hlen : vs.length using Nat.strongRecOn generalizing left us vs floor with
  | ind length ih =>
    cases hvs with
    | nil =>
      refine ⟨left, [], [], rfl, .nil, fun k hk => ?_, by rwa [List.append_nil]⟩
      have hpower : standard.power k = .default := hk
      rw [Stops, hpower]
      exact Nat.not_lt_zero _
    | @cons w operand vs op hw hoperand hvs =>
      by_cases hlt : floor < op.power
      · rw [List.length_cons, List.length_append] at hlen
        obtain ⟨first, hfirst⟩ := hoperand.resumes
        -- The second operand takes its own tails first, those that bind tighter than the operator.
        obtain ⟨right, taken, others, rfl, hothers, hstops, hright⟩ :=
          ih vs.length (by omega) hvs
            ((hfirst op.power op.power_lt_call).mono fun k hk => hvs.lt_call hk) rfl
        have hpos : 0 < (operand ++ taken).length := by
          obtain ⟨v, operand, rfl, -⟩ := hoperand.starts
          exact Nat.succ_pos _
        -- Now the operator with both operands is what the rest of the tails goes on from.
        have hbinary := hleft.binary hw rfl hlt hright hpos hstops
        rw [List.length_append] at hlen
        obtain ⟨e, taken', others', rfl, hothers', hstops', he⟩ :=
          ih others.length (by omega) hothers hbinary rfl
        refine ⟨e, w :: (operand ++ taken) ++ taken', others', ?_, hothers', hstops', ?_⟩
        · simp only [List.cons_append, List.append_assoc]
        · rw [← List.append_assoc]
          exact he
      · refine ⟨left, [], w :: (operand ++ vs), rfl, .cons op hw hoperand hvs, ?_, ?_⟩
        · rintro k rfl
          rw [Stops, hw, op.power_kind]
          exact hlt
        · rwa [List.append_nil]

/-- **A chain is read as a whole where no operator is behind it.** Above no power at all every
operator binds tighter, so no tail can be left. -/
theorem Chain.takes {ws : List Word} (h : Chain ws) :
    ∃ e : Expr Span, ∀ n, ws.length ≤ n →
      (standard.expr n .default).Takes ws (standard.power · = .default) (·.bare = e.bare) := by
  have hpos := h.length_pos
  obtain ⟨us, vs, rfl, hoperand, htails⟩ := h
  obtain ⟨first, hfirst⟩ := hoperand.resumes
  obtain ⟨e, taken, others, rfl, hothers, hstops, he⟩ :=
    htails.reached ((hfirst .default (by decide)).mono fun k hk => htails.lt_call hk)
  cases hothers with
  | nil =>
    rw [List.append_nil] at hpos ⊢
    exact ⟨e, fun n hn => he.ends hpos hn hstops⟩
  | cons op hw _ _ =>
    -- Every operator binds tighter than none.
    have hstop := hstops _ rfl
    rw [Stops, hw, op.power_kind] at hstop
    exact absurd op.rank_power.1 hstop

/-! ## The forms of operands -/

section Forms

variable {e : Expr Span} {us ws : List Word} {v w : Word} {n : Nat}

/-- An operand has at least one word. -/
theorem Operand.length_pos (h : Operand ws) : 0 < ws.length := h.chain.length_pos

/-- A whole expression, with a word behind it that is no operator. -/
theorem Chain.before {β : Type} {f : Expr Span → Reader β} {next : Kind → Prop} {Q : β → Prop}
    (h : Chain ws)
    (hn : ws.length ≤ n) (hw : standard.power w.kind = .default)
    (hf : ∀ e, (f e).Takes (w :: us) next Q) :
    (standard.expr n .default >>= f).Takes (ws ++ w :: us) next Q := by
  obtain ⟨e, he⟩ := h.takes
  exact (he n hn).bind (leads_cons hw) fun e' _ => hf e'

/-- An operand of one token. It is read as some expression, if the text of a literal stands for a
value of its type (`parse_primary_expr`). -/
theorem readPrimary_takes (hkind : w.kind ∈ [Kind.integer, .float, .char, .bool, .identifier])
    (hlegible : w.Legible) (next : Kind → Prop) :
    ∃ e : Expr Span, readPrimary.Takes [w] next (·.bare = e.bare) := by
  obtain ⟨k, text, hne⟩ := w
  simp only [List.mem_cons, List.not_mem_nil, or_false] at hkind
  -- One case for each kind of token that is an operand by itself.
  rcases hkind with rfl | rfl | rfl | rfl | rfl
  · obtain ⟨v, hv⟩ : ∃ v, Number.readInteger? text.toList = some v :=
      Option.isSome_iff_exists.mp hlegible
    refine ⟨.literal .nowhere (.int v), takes_current fun u hu => ?_⟩
    have hvalue : u.value = text := hu.2 rfl
    have hread : Number.readInteger? u.value.toList = some v := by rw [hvalue, hv]
    simp only [hu.1, hread]
    exact takes_advance fun _ _ => takes_pure rfl
  · obtain ⟨v, hv⟩ : ∃ v, Number.readDecimal? text.toList = some v :=
      Option.isSome_iff_exists.mp hlegible
    refine ⟨.literal .nowhere (.float v), takes_current fun u hu => ?_⟩
    have hvalue : u.value = text := hu.2 rfl
    have hread : Number.readDecimal? u.value.toList = some v := by rw [hvalue, hv]
    simp only [hu.1, hread]
    exact takes_advance fun _ _ => takes_pure rfl
  · refine ⟨.literal .nowhere (.char (UInt8.ofNat (text.toList.headD '\x00').toNat)),
      takes_current fun u hu => ?_⟩
    have hvalue : u.value = text := hu.2 rfl
    simp only [hu.1, hvalue]
    exact takes_advance fun _ _ => takes_pure rfl
  · refine ⟨.literal .nowhere (.bool (text = "true")), takes_current fun u hu => ?_⟩
    have hvalue : u.value = text := hu.2 rfl
    simp only [hu.1, hvalue]
    exact takes_advance fun _ _ => takes_pure rfl
  · exact ⟨.read .nowhere text, readPrimary_name text next⟩

/-- Literals and names are operands. -/
theorem operand_primary (hkind : w.kind ∈ [Kind.integer, .float, .char, .bool, .identifier])
    (hlegible : w.Legible) : Operand [w] := by
  have hhead : standard.head? w.kind = some .primary := by
    simp only [List.mem_cons, List.not_mem_nil, or_false] at hkind
    rcases hkind with h | h | h | h | h <;> rw [h] <;> rfl
  obtain ⟨e, he⟩ := readPrimary_takes hkind hlegible (standard.power · < .call)
  refine ⟨⟨e, fun floor _ => ?_⟩, w, [], rfl, ?_⟩
  · exact resumes_head (Nat.succ_pos _) fun n _ => takes_head hhead he
  · rw [hhead]
    exact Option.some_ne_none _

/-- In parentheses an expression is read above every power. -/
theorem resumes_group {floor : Power} (hv : v.kind = .openParen) (hw : w.kind = .closeParen)
    (h : ∀ n, us.length ≤ n →
      (standard.expr n .default).Takes us (standard.power · = .default) (·.bare = e.bare)) :
    Resumes e (v :: (us ++ [w])) (fun _ => True) floor := by
  refine resumes_head (Nat.succ_pos _) fun n hlen => takes_head (by rw [hv]; rfl) ?_
  simp only [List.length_cons, List.length_append, List.length_nil] at hlen
  refine takes_advance fun _ _ => (h n (by omega)).bind (leads_cons (by rw [hw]; rfl)) ?_
  exact fun e' he' => takes_expectWhere hw fun _ _ => takes_pure he'

/-- A chain in parentheses is an operand: inside of them reading starts anew, below all
operators. -/
theorem operand_group (hv : v.kind = .openParen) (h : Chain us) (hw : w.kind = .closeParen) :
    Operand (v :: (us ++ [w])) := by
  obtain ⟨e, he⟩ := h.takes
  refine ⟨⟨e, fun floor _ => (resumes_group hv hw he).mono fun _ _ => trivial⟩, v, _, rfl, ?_⟩
  rw [hv]
  exact Option.some_ne_none _

/-- An operand with a unary operator in front is an operand, since only calls bind tighter than the
operator. -/
theorem operand_unary (op : UnaryOp) (hw : w.kind = op.kind) (h : Operand us) :
    Operand (w :: us) := by
  obtain ⟨e, he⟩ := h.resumes
  refine ⟨⟨.unary .nowhere op e, fun floor _ => ?_⟩, w, us, rfl, ?_⟩
  · refine resumes_head (Nat.succ_pos _) fun n hlen => takes_head (by rw [hw, op.head?_kind]) ?_
    rw [List.length_cons] at hlen
    refine takes_advance fun u hu => ?_
    have hop : UnaryOp.ofKind? u.kind = some op := by
      rw [hu.1, hw]
      exact op.ofKind?_kind
    rw [hop]
    -- Only a call binds tighter than a unary operator.
    have hstops : ∀ k, standard.power k < .call → Stops .unary k := by
      intro k hk
      rw [Power.lt_iff] at hk
      have hunary : Power.unary.rank = 5 := rfl
      have hcall : Power.call.rank = 6 := rfl
      rw [Stops, Power.lt_iff]
      omega
    have hoperand := (he .unary (by decide)).ends h.length_pos (n := n) (by omega) hstops
    refine hoperand.last (fun k hk => hk) fun e' he' => takes_pure ?_
    rw [Expr.bare, he', Expr.bare]
  · rw [hw, op.head?_kind]
    exact Option.some_ne_none _

/-- A unary operator in front of a chain belongs to its first operand. -/
theorem Chain.unary (op : UnaryOp) (hw : w.kind = op.kind) (h : Chain us) : Chain (w :: us) := by
  obtain ⟨us, vs, rfl, hoperand, htails⟩ := h
  exact ⟨w :: us, vs, rfl, operand_unary op hw hoperand, htails⟩

/-! ## Calls -/

/-- Words that are read as a name, which can be called: a name, in any number of parentheses. -/
structure NameGroup (ws : List Word) : Prop where
  resumes : ∃ x, ∀ floor, Resumes (.read .nowhere x) ws (fun _ => True) floor
  starts : ∃ w us, ws = w :: us ∧ standard.head? w.kind ≠ none

/-- A name can be called. -/
theorem nameGroup_name (hw : w.kind = .identifier) : NameGroup [w] := by
  rw [Word.eq_name hw]
  refine ⟨⟨w.text, fun floor => ?_⟩, _, _, rfl, Option.some_ne_none _⟩
  exact resumes_head (Nat.succ_pos _) fun n _ => takes_head rfl (readPrimary_name _ _)

/-- What can be called can be called in parentheses as well: they leave no trace in the tree, and
the callee is looked at in the tree. -/
theorem nameGroup_group (hv : v.kind = .openParen) (h : NameGroup us) (hw : w.kind = .closeParen) :
    NameGroup (v :: (us ++ [w])) := by
  obtain ⟨x, hx⟩ := h.resumes
  have hpos : 0 < us.length := by
    obtain ⟨u, us, rfl, -⟩ := h.starts
    exact Nat.succ_pos _
  refine ⟨⟨x, fun floor => resumes_group hv hw fun n hn => ?_⟩, v, _, rfl, ?_⟩
  · exact ((hx .default).mono fun _ _ => trivial).ends hpos hn fun k hk => stops_default hk
  · rw [hv]
    exact Option.some_ne_none _

/-- A part with a comma in front. -/
def Behind (L : List Word → Prop) (ws : List Word) : Prop :=
  ∃ w us, ws = w :: us ∧ w.kind = .comma ∧ L us

/-- Parts that each have a comma in front are at most as many as their words. -/
theorem length_le_flatten {L : List Word → Prop} {wss : List (List Word)}
    (h : ∀ ws ∈ wss, Behind L ws) : wss.length ≤ wss.flatten.length := by
  induction wss with
  | nil => exact Nat.zero_le _
  | cons ws wss ih =>
    obtain ⟨⟨w, us, rfl, -⟩, hwss⟩ := List.forall_mem_cons.mp h
    have hothers := ih hwss
    rw [List.length_cons, List.flatten_cons, List.length_append, List.length_cons]
    omega

/-- Expressions with commas between them are read one by one. By induction on the expressions behind
the first one. The token behind each is a comma or the closing parenthesis, and neither is an
operator (`parse_call_expr`). -/
theorem readArguments_chains {wss : List (List Word)} (hus : Chain us)
    (hwss : ∀ ws ∈ wss, Behind Chain ws) :
    ∃ es : List (Expr Span), ∀ n fuel, (us ++ wss.flatten).length ≤ n → wss.length < fuel →
      (readArguments (standard.expr n) fuel).Takes (us ++ wss.flatten) (· = .closeParen)
        (Expr.bareOf · = Expr.bareOf es) := by
  obtain ⟨e, he⟩ := hus.takes
  induction wss generalizing us e with
  | nil =>
    refine ⟨[e], fun n fuel hn hfuel => ?_⟩
    obtain ⟨fuel, rfl⟩ : ∃ m, fuel = m + 1 := ⟨fuel - 1, by omega⟩
    rw [List.length_append] at hn
    refine (he n (by omega)).bind (leads_nil ?_) fun first hbare => ?_
    · rintro k rfl
      rfl
    · refine takes_kind (leads_nil fun k hk => hk) ?_
      rintro k rfl
      rw [if_neg (by decide)]
      refine takes_pure ?_
      simp only [Expr.bareOf, hbare]
  | cons ws wss ih =>
    obtain ⟨⟨w, vs, rfl, hw, hvs⟩, hwss'⟩ := List.forall_mem_cons.mp hwss
    obtain ⟨e', he'⟩ := hvs.takes
    obtain ⟨es, hes⟩ := ih hvs hwss' e' he'
    refine ⟨e :: es, fun n fuel hn hfuel => ?_⟩
    obtain ⟨fuel, rfl⟩ : ∃ m, fuel = m + 1 := ⟨fuel - 1, by omega⟩
    simp only [List.flatten_cons, List.cons_append, List.length_append, List.length_cons]
      at hn hfuel
    have hothers := hes n fuel (by rw [List.length_append]; omega) (by omega)
    refine (he n (by omega)).bind (leads_cons (by rw [hw]; rfl)) fun first hbare => ?_
    refine takes_firstKind hw ?_
    rw [if_pos rfl]
    refine takes_advance fun _ _ => hothers.last (fun k hk => hk) fun others hbare' => ?_
    refine takes_pure ?_
    simp only [Expr.bareOf, hbare, hbare']

/-- The arguments of a call. -/
def Arguments (ws : List Word) : Prop :=
  ws = [] ∨ ∃ us, ∃ wss : List (List Word), ws = us ++ wss.flatten ∧ Chain us ∧
    ∀ vs ∈ wss, Behind Chain vs

/-- The arguments of a call with their parentheses are read as such, behind anything that was read
as a name. -/
theorem readCall_arguments (v : Word) (h : Arguments us) (hw : w.kind = .closeParen) (x : String)
    (next : Kind → Prop) :
    ∃ es : List (Expr Span), ∀ n fuel note, us.length ≤ n → us.length ≤ fuel →
      (readCall (standard.expr n) fuel (.read note x)).Takes (v :: (us ++ [w])) next
        (·.bare = .call .nowhere x (Expr.bareOf es)) := by
  rcases h with rfl | ⟨us, wss, rfl, hus, hwss⟩
  · refine ⟨[], fun n fuel note _ _ => takes_advance fun _ _ => ?_⟩
    refine takes_firstKind hw ?_
    rw [if_pos rfl]
    exact takes_pure_bind (takes_expectWhere hw fun _ _ => takes_ask fun t => takes_pure rfl)
  · obtain ⟨es, hes⟩ := readArguments_chains hus hwss
    have hcount := length_le_flatten hwss
    have hpos := hus.length_pos
    refine ⟨es, fun n fuel note hn hfuel => takes_advance fun _ _ => ?_⟩
    -- No expression starts with the closing parenthesis.
    have hlead : Leads (us ++ wss.flatten ++ [w]) next (· ≠ .closeParen) := by
      obtain ⟨u, us, rfl, hu⟩ := hus.starts
      refine leads_cons ?_
      rintro hclose
      rw [hclose] at hu
      exact hu rfl
    refine takes_kind hlead fun k hk => ?_
    rw [if_neg hk]
    rw [List.length_append] at hfuel
    refine (hes n fuel hn (by omega)).bind (leads_cons hw) fun arguments hbare => ?_
    refine takes_expectWhere hw fun _ _ => takes_ask fun t => takes_pure ?_
    rw [Expr.bare, hbare]

/-- A call is an operand: its callee is read, and then the opening parenthesis binds tighter than
every power that an operand is read above. -/
theorem operand_call {callee : List Word} (hcallee : NameGroup callee) (hv : v.kind = .openParen)
    (h : Arguments us) (hw : w.kind = .closeParen) : Operand (callee ++ v :: (us ++ [w])) := by
  obtain ⟨x, hx⟩ := hcallee.resumes
  obtain ⟨es, hes⟩ := readCall_arguments v h hw x (standard.power · < .call)
  obtain ⟨u, callee, rfl, hu⟩ := hcallee.starts
  refine ⟨⟨.call .nowhere x es, fun floor hfloor => ?_⟩, u, _, rfl, hu⟩
  refine (hx floor).tail trivial (by rw [hv]; rfl) hfloor fun n k left hleft hlen hk => ?_
  obtain ⟨note, rfl⟩ := eq_read_of_bare hleft
  simp only [List.length_cons, List.length_append, List.length_nil] at hlen hk
  exact hes n k note (by omega) (by omega)

end Forms

end Pulse

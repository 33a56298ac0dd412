/-
Expressions are read in layers.

The reader has no layers. It has one loop, which goes on with tails as long as they bind tighter
than a power, and a table that gives operators their powers. That this comes to the layered grammar
is due to one fact about the loop. At every point there is a layer at which the tokens so far derive
the tree so far, and the next token binds no tighter than that layer. So the operator that follows
can take the tree as its left operand, and its right operand is read up to a token that binds no
tighter than the operator.

Operators in front of an operand are read above every power, and their operand may start with such
an operator again. So what is read above their power is of their own layer and not only of the next
one, which holds of no other power.
-/
import Pulse.Proofs.LayeredGrammar
import Pulse.Proofs.PhraseVerdicts

set_option autoImplicit false

namespace Pulse

open Grammar

/-! ## What readers give -/

namespace Reader

variable {α β γ : Type}

/-- From a tape with an end, a reader gives a value only behind tokens that it has passed, and then
the value, the tokens and the tape where it stopped are of a kind. -/
def Yields (r : Reader α) (P : α → List Token → Tape → Prop) (t : Tape) : Prop :=
  t.Ends → ∀ a t', r t = .ok a t' → ∃ us, t.Shows us t' ∧ P a us t'

variable {r : Reader α} {f : α → Reader β} {t : Tape} {P P' : α → List Token → Tape → Prop}
  {Q : β → List Token → Tape → Prop}

/-- A reader that gives something gives what follows from it. -/
theorem Yields.imp (h : r.Yields P t) (hP : ∀ a us t', P a us t' → P' a us t') :
    r.Yields P' t := by
  intro hends a t' ha
  obtain ⟨us, hshows, hpost⟩ := h hends a t' ha
  exact ⟨us, hshows, hP a us t' hpost⟩

/-- A reader that reads nothing gives its value behind no tokens. -/
theorem yields_pure {a : α} (h : P a [] t) : (pure a : Reader α).Yields P t := by
  intro _ b t' hb
  cases hb
  exact ⟨[], rfl, h⟩

/-- A reader without a result gives nothing. -/
theorem yields_endless : (endless : Reader α).Yields P t := by
  intro _ a t' ha
  cases ha

/-- A reader that fails gives nothing. -/
theorem yields_fail {e : SyntaxError} : (fail e : Reader α).Yields P t := by
  intro _ a t' ha
  cases ha

/-- Neither does a complaint of the current token. -/
theorem yields_unexpected : (unexpected : Reader α).Yields P t := by
  intro _ a t' ha
  cases ha

/-- Nor one with a word on what should stand there. -/
theorem yields_unexpectedWhere {message : String} :
    (unexpectedWhere message : Reader α).Yields P t := by
  intro _ a t' ha
  cases ha

/-- One reader behind the other. The tokens of both are those that the two pass together. -/
theorem Yields.bind (hr : r.Yields P t)
    (hf : ∀ a us t', P a us t' → (f a).Yields (fun b vs => Q b (us ++ vs)) t') :
    (r >>= f).Yields Q t := by
  intro hends b t'' hb
  obtain ⟨a, t', ha, hb⟩ := exists_of_bind_eq_ok hb
  obtain ⟨us, hus, hpost⟩ := hr hends a t' ha
  obtain ⟨vs, hvs, hpost'⟩ := hf a us t' hpost (hus.ends hends) b t'' hb
  exact ⟨us ++ vs, Tape.shows_append.mpr ⟨t', hus, hvs⟩, hpost'⟩

/-- A look at the tape passes no tokens. -/
theorem yields_ask {g : Tape → α} (h : (f (g t)).Yields Q t) : (ask g >>= f).Yields Q t := h

/-- A reader that passes a token. The end of input is never passed. -/
theorem yields_advance (hkind : t.kind ≠ .eof) :
    advance.Yields (fun u us t' => u = t.current ∧ us = [u] ∧ t'.lastEnd = u.span.stop) t := by
  intro hends u t' hu
  cases hu
  obtain ⟨v, vs, hrest⟩ := List.exists_cons_of_ne_nil (hends.rest_ne_nil hkind)
  refine ⟨[t.current], ⟨rfl, hkind, hends.rest_ne_nil hkind, rfl⟩, rfl, rfl, ?_⟩
  rw [Tape.advance_eq hkind hrest]

/-- A reader that passes a token of a kind, or fails where it stands. -/
theorem yields_expectWhere {k : Kind} {message : String} (hk : k ≠ .eof) :
    (expectWhere k message).Yields
      (fun u us t' => u.kind = k ∧ us = [u] ∧ t'.lastEnd = u.span.stop) t := by
  refine yields_ask ?_
  by_cases hkind : t.kind = k
  · rw [if_pos hkind]
    refine (yields_advance (hkind ▸ hk)).imp ?_
    rintro _ us t' ⟨rfl, hus, hend⟩
    exact ⟨hkind, hus, hend⟩
  · rw [if_neg hkind]
    exact yields_unexpectedWhere

end Reader

open Reader

/-! ## Heads -/

/-- The layer of what is read above a power. -/
def Power.layer : Power → Power
  | .unary => .unary
  | p => p.next

/-- What is read above a power is of the next tighter layer, except above that of unary
operators. -/
theorem Power.layer_eq {p : Power} (h : p ≠ .unary) : p.layer = p.next := by
  cases p <;> first | rfl | exact absurd rfl h

/-- Up to the power of unary operators, what is read is of a layer no tighter than theirs. -/
theorem Power.rank_layer_le {p : Power} (h : p.rank ≤ Power.unary.rank) :
    p.layer.rank ≤ Power.unary.rank := by
  cases p <;> first | decide | exact absurd h (by decide)

/-- What is read above a power may be an operation of any tighter power. -/
theorem Power.rank_layer_le_of_lt {p q : Power} (h : p < q) : p.layer.rank ≤ q.rank := by
  by_cases hp : p = .unary
  · subst hp
    exact Nat.le_of_lt h
  · have hnext := p.rank_next
    rw [lt_iff] at h
    rw [layer_eq hp]
    omega

/-- Nothing binds tighter than a call. -/
theorem rank_power_le (k : Kind) : (standard.power k).rank ≤ Power.call.rank := by
  cases k <;> decide

/-- Readers of expressions that keep to the layers. -/
def Layers (operands : Operands) : Prop :=
  ∀ floor t, floor.rank ≤ Power.unary.rank →
    (operands floor).Yields
      (fun e us t' => Layered floor.layer us e ∧ Stops floor t'.kind) t

section Forms

variable {operands : Operands} {t : Tape}

/-- A token that is passed and stands for an expression by itself. -/
theorem accept_yields {e : Expr Span} (hkind : t.kind ≠ .eof)
    (h : Layered .primary [t.current] e) :
    (Reader.accept e).Yields (fun e us _ => Layered .primary us e) t := by
  refine (yields_advance hkind).bind ?_
  rintro _ us t' ⟨rfl, rfl, -⟩
  exact yields_pure h

/-- A token that is an expression by itself is of the tightest layer. One case for each kind; a
number that does not fit is an error and yields nothing (`parse_primary_expr`). -/
theorem readPrimary_yields : readPrimary.Yields (fun e us _ => Layered .primary us e) t := by
  have hne : t.current.kind ≠ .eof → t.kind ≠ .eof := id
  refine yields_ask ?_
  -- One case for each kind of token that is an expression by itself.
  split
  · rename_i hkind
    split
    · rename_i v hv
      exact accept_yields (hne (by rw [hkind]; decide)) (.literal (.int hkind hv))
    · exact yields_fail
  · rename_i hkind
    split
    · rename_i v hv
      exact accept_yields (hne (by rw [hkind]; decide)) (.literal (.float hkind hv))
    · exact yields_fail
  · rename_i hkind
    exact accept_yields (hne (by rw [hkind]; decide)) (.literal (.char hkind))
  · rename_i hkind
    exact accept_yields (hne (by rw [hkind]; decide)) (.literal (.bool hkind))
  · rename_i hkind
    exact accept_yields (hne (by rw [hkind]; decide)) (.name hkind)
  · exact yields_unexpected

/-- A token that is taken for a binary operator is its token. -/
theorem BinaryOp.kind_of_ofKind? {k : Kind} {op : BinaryOp} (h : BinaryOp.ofKind? k = some op) :
    k = op.kind := by
  cases k <;> cases h <;> rfl

/-- A token that is taken for a unary operator is its token. -/
theorem UnaryOp.kind_of_ofKind? {k : Kind} {op : UnaryOp} (h : UnaryOp.ofKind? k = some op) :
    k = op.kind := by
  cases k <;> cases h <;> rfl

/-- An operator in front of an operand makes an operation of its layer. It ends where its operand
does. -/
theorem readUnary_yields (hoperands : Layers operands) (hkind : t.kind ≠ .eof) :
    (readUnary operands).Yields (fun e us t' => Layered .unary us e ∧ Stops .unary t'.kind) t := by
  refine (yields_advance hkind).bind ?_
  rintro _ us t' ⟨rfl, rfl, -⟩
  split
  · rename_i op hop
    -- The operand is read above the power of the operator, but may be such an operation itself.
    refine (hoperands .unary t' (Nat.le_refl _)).bind ?_
    rintro operand us t'' ⟨hlayered, hstops⟩
    refine yields_pure ⟨?_, hstops⟩
    rw [List.append_nil]
    exact .unary op (UnaryOp.kind_of_ofKind? hop) hlayered
  · exact yields_fail

/-- What stands in parentheses is of the tightest layer, whatever is inside. -/
theorem readGroup_yields (hoperands : Layers operands) (hkind : t.kind = .openParen) :
    (readGroup operands).Yields (fun e us _ => Layered .primary us e) t := by
  refine (yields_advance (by rw [hkind]; decide)).bind ?_
  rintro _ us t' ⟨rfl, rfl, -⟩
  refine (hoperands .default t' (by decide)).bind ?_
  rintro e us t'' ⟨hlayered, -⟩
  refine (yields_expectWhere (by decide)).bind ?_
  rintro closing _ t''' ⟨hclosing, rfl, -⟩
  refine yields_pure ?_
  rw [List.append_nil]
  exact .group hkind hlayered hclosing

/-! ## Tails -/

/-- The tokens so far derive the tree so far at a layer. It is no looser than what is to be read
above the power, and the kind of the next token binds no tighter than it. -/
def Extensible (floor : Power) (us : List Token) (e : Expr Span) (k : Kind) : Prop :=
  ∃ p, floor.layer.rank ≤ p.rank ∧ (standard.power k).rank ≤ p.rank ∧ Layered p us e

variable {floor : Power} {us : List Token}

/-- Any tail may follow what is of the tightest layer. -/
theorem extensible_of_primary {e : Expr Span} {k : Kind} (h : Layered .primary us e) :
    Extensible floor us e k :=
  ⟨.primary, Power.rank_le _, Power.rank_le _, h⟩

/-- Behind a unary operation stands nothing that binds tighter, or its operand would have taken
it. -/
theorem extensible_of_unary {e : Expr Span} {k : Kind} (hfloor : floor.rank ≤ Power.unary.rank)
    (h : Layered .unary us e) (hstops : Stops .unary k) : Extensible floor us e k :=
  ⟨.unary, Power.rank_layer_le hfloor, Nat.le_of_not_lt hstops, h⟩

/-- A head derives at some layer, and what is behind it binds no tighter. So a tail that follows may
take it as a left operand, whatever the power is that is read above. -/
theorem readHead_yields (hoperands : Layers operands) (hfloor : floor.rank ≤ Power.unary.rank) :
    (standard.readHead operands).Yields (fun e us t' => Extensible floor us e t'.kind) t := by
  refine yields_ask ?_
  cases hform : standard.head? t.kind with
  | none => exact yields_unexpectedWhere
  | some form =>
    have hkind : t.kind ≠ .eof := by
      intro heof
      rw [heof] at hform
      cases hform
    cases form with
    | primary => exact readPrimary_yields.imp fun e us t' h => extensible_of_primary h
    | unary =>
      refine (readUnary_yields hoperands hkind).imp ?_
      rintro e us t' ⟨hlayered, hstops⟩
      exact extensible_of_unary hfloor hlayered hstops
    | group =>
      have hparen : t.kind = .openParen := by
        generalize t.kind = k at hform
        cases k <;> first | rfl | cases hform
      exact (readGroup_yields hoperands hparen).imp fun e us t' h => extensible_of_primary h

/-- What goes on with an expression is an operator, or the parenthesis in front of arguments. The
table has no other entries. -/
theorem eq_of_tail? {k : Kind} {form : TailForm} {power : Power}
    (h : standard.tail? k = some (form, power)) :
    (k = .openParen ∧ form = .call ∧ power = .call) ∨
      ∃ op : BinaryOp, k = op.kind ∧ form = .binary ∧ power = op.power := by
  by_cases hparen : k = .openParen
  · subst hparen
    cases h
    exact .inl ⟨rfl, rfl, rfl⟩
  · obtain ⟨rfl, -, ⟨op, hop⟩, -⟩ := operator_of_tail? h hparen
    have hkind := BinaryOp.kind_of_ofKind? hop
    rw [hkind, op.tail?_kind] at h
    cases h
    exact .inr ⟨op, hkind, rfl, rfl⟩

/-- An operator takes the tree so far as its left operand. The right operand is read above the power
of the operator, so it is of the next layer, and equal operators associate to the left. -/
theorem readBinary_yields (hoperands : Layers operands) {left : Expr Span} {op : BinaryOp}
    (hkind : t.kind = op.kind) (hlt : floor < op.power) (hleft : Extensible floor us left t.kind) :
    (readBinary operands left op.power).Yields
      (fun e vs t' => Extensible floor (us ++ vs) e t'.kind) t := by
  obtain ⟨p, -, hpower, hleft⟩ := hleft
  rw [hkind, op.power_kind] at hpower
  have hrank : op.power.rank < Power.unary.rank := op.rank_power.2
  refine (yields_advance (by rw [hkind]; exact op.kind_ne_eof)).bind ?_
  rintro _ _ t' ⟨rfl, rfl, -⟩
  rw [show t.current.kind = op.kind from hkind, op.ofKind?_kind]
  refine (hoperands op.power t' (Nat.le_of_lt hrank)).bind ?_
  rintro right vs t'' ⟨hright, hstops⟩
  rw [Power.layer_eq (by rintro heq; rw [heq] at hrank; exact Nat.lt_irrefl _ hrank)] at hright
  refine yields_pure ⟨op.power, Power.rank_layer_le_of_lt hlt, Nat.le_of_not_lt hstops, ?_⟩
  rw [List.append_nil]
  exact .binary op hkind (hleft.loosen hpower) hright

/-- Tokens of arguments: expressions of the loosest layer, with commas between them. -/
def ArgumentsOf (es : List (Expr Span)) (us : List Token) : Prop :=
  ∃ arguments : List (List Token × Expr Span), arguments.map Prod.snd = es ∧
    (∀ a ∈ arguments, Layered .logical a.1 a.2) ∧ Commas (arguments.map Prod.fst) us

/-- Arguments are expressions of the loosest layer with commas between them, and there is at least
one. -/
theorem readArguments_yields (hoperands : Layers operands) (n : Nat) :
    (readArguments operands n).Yields (fun es us _ => es ≠ [] ∧ ArgumentsOf es us) t := by
  induction n generalizing t with
  | zero => exact yields_endless
  | succ n ih =>
    refine (hoperands .default t (by decide)).bind ?_
    rintro first us t' ⟨hfirst, -⟩
    refine yields_ask ?_
    split
    · rename_i hcomma
      refine (yields_advance (by rw [hcomma]; decide)).bind ?_
      rintro _ _ t'' ⟨rfl, rfl, -⟩
      refine ih.bind ?_
      rintro others vs m ⟨hne, arguments, rfl, hlayered, hcommas⟩
      refine yields_pure ⟨List.cons_ne_nil _ _, (us, first) :: arguments, rfl,
        List.forall_mem_cons.mpr ⟨hfirst, hlayered⟩, ?_⟩
      cases arguments with
      | nil => exact absurd rfl hne
      | cons a arguments =>
        rw [List.append_nil]
        exact .more hcomma hcommas
    · refine yields_pure ⟨List.cons_ne_nil _ _, [(us, first)], rfl,
        List.forall_mem_singleton.mpr hfirst, ?_⟩
      rw [List.append_nil]
      exact .last us

/-- Arguments make a call of a name. What stands in front is a name, in parentheses or not. Any
other expression is an error at its place (`parse_call_expr`). -/
theorem readCall_yields (hoperands : Layers operands) {left : Expr Span} {n : Nat}
    (hkind : t.kind = .openParen) (hfloor : floor.rank ≤ Power.unary.rank)
    (hleft : Extensible floor us left t.kind) :
    (readCall operands n left).Yields (fun e vs t' => Extensible floor (us ++ vs) e t'.kind) t := by
  obtain ⟨p, -, -, hleft⟩ := hleft
  cases left with
  | read span x =>
    obtain ⟨name, hcallee, rfl, rfl⟩ := hleft.callee
    refine (yields_advance (by rw [hkind]; decide)).bind ?_
    rintro _ _ t' ⟨rfl, rfl, -⟩
    -- What follows the arguments is the same with and without any.
    have hclose : ∀ es vs m, ArgumentsOf es vs → Yields
        (do
          let _ ← expectWhere .closeParen "expected `,` or `)` in call arguments"
          return .call (← spanFrom name.span.start) name.value es)
        (fun e ws t' => Extensible floor (us ++ ([t.current] ++ (vs ++ ws))) e t'.kind) m := by
      rintro _ vs m ⟨arguments, rfl, hlayered, hcommas⟩
      refine (yields_expectWhere (by decide)).bind ?_
      rintro closing _ m' ⟨hclosing, rfl, hend⟩
      refine yields_ask ?_
      have hlayer : floor.layer.rank ≤ Power.call.rank :=
        Nat.le_succ_of_le (Power.rank_layer_le hfloor)
      refine yields_pure ⟨.call, hlayer, rank_power_le _, ?_⟩
      rw [List.append_nil, Tape.spanFrom, hend]
      exact .call arguments hcallee hkind hlayered hcommas hclosing
    refine yields_ask ?_
    split
    · exact hclose [] [] t' ⟨[], rfl, List.forall_mem_nil _, .none⟩
    · exact (readArguments_yields hoperands n).bind fun es vs m h => hclose es vs m h.2
  | literal | binary | unary | call => exact yields_unexpectedWhere

/-- **Tails keep to the layers**, up to a token that does not bind tighter than the power. By
induction on the rounds: what has been read so far derives at a layer that the next operator can
take as its left operand. -/
theorem readTails_yields (hoperands : Layers operands) (hfloor : floor.rank ≤ Power.unary.rank)
    (n : Nat) {left : Expr Span} (hleft : Extensible floor us left t.kind) :
    (standard.readTails operands floor n left).Yields
      (fun e vs t' => Layered floor.layer (us ++ vs) e ∧ Stops floor t'.kind) t := by
  induction n generalizing left us t with
  | zero => exact yields_endless
  | succ n ih =>
    -- Where the tails end, what was derived so far is tight enough.
    have hdone : Stops floor t.kind → (pure left : Reader (Expr Span)).Yields
        (fun e vs t' => Layered floor.layer (us ++ vs) e ∧ Stops floor t'.kind) t := by
      intro hstops
      obtain ⟨p, hp, -, hleft⟩ := hleft
      refine yields_pure ⟨?_, hstops⟩
      rw [List.append_nil]
      exact hleft.loosen hp
    refine yields_ask ?_
    cases htail : standard.tail? t.kind with
    | none =>
      refine hdone ?_
      rw [Stops, Grammar.power, htail]
      exact Nat.not_lt_zero _
    | some tail =>
      obtain ⟨form, power⟩ := tail
      dsimp only
      split
      · rename_i hlt
        have hstep : (form.read operands n left power).Yields
            (fun e vs t' => Extensible floor (us ++ vs) e t'.kind) t := by
          rcases eq_of_tail? htail with ⟨hkind, rfl, rfl⟩ | ⟨op, hkind, rfl, rfl⟩
          · exact readCall_yields hoperands hkind hfloor hleft
          · exact readBinary_yields hoperands hkind hlt hleft
        refine hstep.bind ?_
        intro e vs t' hleft
        refine (ih hleft).imp ?_
        intro e' ws t'' h
        rw [← List.append_assoc]
        exact h
      · rename_i hlt
        refine hdone ?_
        rw [Stops, Grammar.power, htail]
        exact hlt

end Forms

/-! ## Expressions -/

/-- **The reader of expressions keeps to the layers.** By induction on the depth. Readers for
operands of the depth below keep to the layers, and this is all that heads and tails ask of them. -/
theorem layers_expr (n : Nat) : Layers (standard.expr n) := by
  induction n with
  | zero => exact fun floor t _ => yields_endless
  | succ n ih =>
    intro floor t hfloor
    refine (readHead_yields ih hfloor).bind ?_
    intro left us t' hleft
    exact readTails_yields ih hfloor (n + 1) hleft

/-- **Expressions are read in layers, and no token is lost.** Whatever is read above a power up to
that of unary operators derives, from the tokens passed, at the layer of that power. The tokens
passed are accounted for in order by the tree, but for parentheses around its parts, and the token
in front of which the reader stops does not bind tighter than the power. -/
theorem expr_read_in_layers (n : Nat) (floor : Power) (t t' : Tape) (e : Expr Span)
    (hfloor : floor.rank ≤ Power.unary.rank) (hends : t.Ends)
    (h : standard.expr n floor t = .ok e t') :
    ∃ us, t.Shows us t' ∧ t.current :: t.rest = us ++ t'.current :: t'.rest ∧
      Layered floor.layer us e ∧ Accounted us e.signs ∧
      (standard.power t'.kind).rank ≤ floor.rank := by
  obtain ⟨us, hshows, hlayered, hstops⟩ := layers_expr n floor t hfloor hends e t' h
  exact ⟨us, hshows, hshows.tokens, hlayered, hlayered.accounted, Nat.le_of_not_lt hstops⟩

/-- The tokens of a comparison: `a - -b * (c) < 1;` -/
def comparison : Tape where
  current := ⟨.identifier, "a", ⟨⟨0, 1⟩, ⟨1, 1⟩⟩⟩
  rest := [⟨.dash, "-", ⟨⟨2, 1⟩, ⟨3, 1⟩⟩⟩, ⟨.dash, "-", ⟨⟨4, 1⟩, ⟨5, 1⟩⟩⟩,
    ⟨.identifier, "b", ⟨⟨5, 1⟩, ⟨6, 1⟩⟩⟩, ⟨.star, "*", ⟨⟨7, 1⟩, ⟨8, 1⟩⟩⟩,
    ⟨.openParen, "(", ⟨⟨9, 1⟩, ⟨10, 1⟩⟩⟩, ⟨.identifier, "c", ⟨⟨10, 1⟩, ⟨11, 1⟩⟩⟩,
    ⟨.closeParen, ")", ⟨⟨11, 1⟩, ⟨12, 1⟩⟩⟩, ⟨.less, "<", ⟨⟨13, 1⟩, ⟨14, 1⟩⟩⟩,
    ⟨.integer, "1", ⟨⟨15, 1⟩, ⟨16, 1⟩⟩⟩, ⟨.semicolon, ";", ⟨⟨16, 1⟩, ⟨17, 1⟩⟩⟩,
    .endOfInput ⟨17, 1⟩]
  lastEnd := .origin
  overrun := false

/-- A unary operator behind a binary one, and parentheses in the middle. -/
theorem comparison_read_in_layers :
    comparison.Ends ∧ ∃ e t', standard.expr comparison.fuel .default comparison = .ok e t' ∧
      t'.current.kind = .semicolon ∧
      ∃ us, comparison.Shows us t' ∧
        comparison.current :: comparison.rest = us ++ t'.current :: t'.rest ∧
        Layered .logical us e ∧ Accounted us e.signs ∧
        (standard.power t'.kind).rank ≤ Power.default.rank := by
  have hends : comparison.Ends := ⟨.endOfInput ⟨17, 1⟩, by decide, rfl⟩
  exact ⟨hends, _, _, rfl, rfl,
    expr_read_in_layers comparison.fuel .default comparison _ _ (by decide) hends rfl⟩

/-- The tokens of a number with a sign: `-1` -/
def signed : Tape where
  current := ⟨.dash, "-", ⟨⟨0, 1⟩, ⟨1, 1⟩⟩⟩
  rest := [⟨.integer, "1", ⟨⟨1, 1⟩, ⟨2, 1⟩⟩⟩, .endOfInput ⟨2, 1⟩]
  lastEnd := .origin
  overrun := false

/-- Above the power of unary operators, more is read than what derives at the next layer. -/
theorem signed_not_tighter :
    signed.Ends ∧ ∃ e t', standard.expr signed.fuel .unary signed = .ok e t' ∧
      ∀ us, signed.Shows us t' → ¬ Layered Power.unary.next us e := by
  refine ⟨⟨.endOfInput ⟨2, 1⟩, by decide, rfl⟩, _, _, rfl, fun us hshows hlayered => ?_⟩
  obtain ⟨u, vs, rfl, hu⟩ := hlayered.head?_ne_unary (by decide)
  rw [← hshows.1] at hu
  exact hu rfl

end Pulse

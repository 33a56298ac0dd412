/-
Expressions in layers.

The usual grammar of expressions has one layer for every power. A binary operation has operands of
its own layer on the left and of the next tighter one on the right, so operators of one layer group
to the left. Below these layers are operators in front of an operand, then calls, then literals,
names and whatever stands in parentheses.

The grammar says of a list of tokens which tree it stands for, down to the stretches that the nodes
cover. A tree keeps no trace of the parentheses around its parts. Of all other tokens it does: the
signs of a tree, taken in order, are those of the tokens.
-/
import Pulse.Proofs.ExprReading

set_option autoImplicit false

namespace Pulse

/-! ## The grammar -/

namespace Power

/-- The next tighter power. There is none above the tightest. -/
def next : Power → Power
  | default => logical
  | logical => relational
  | relational => additive
  | additive => multiplicative
  | multiplicative => unary
  | unary => call
  | call => primary
  | primary => primary

/-- The next tighter power has the next rank, up to the last one. -/
theorem rank_next (p : Power) : p.next.rank = min (p.rank + 1) 7 := by
  cases p <;> rfl

/-- There are eight ranks. -/
theorem rank_le (p : Power) : p.rank ≤ 7 := by
  cases p <;> decide

/-- A power is told by its rank. -/
theorem eq_of_rank_eq {p q : Power} (h : p.rank = q.rank) : p = q := by
  cases p <;> cases q <;> first | rfl | cases h

end Power

/-- A token that stands for a value. -/
inductive Token.Denotes (t : Token) : Literal → Prop where
  | int {v : Int32} (hkind : t.kind = .integer) (h : Number.readInteger? t.value.toList = some v) :
      Denotes t (.int v)
  | float {v : Number.Binary64} (hkind : t.kind = .float)
      (h : Number.readDecimal? t.value.toList = some v) : Denotes t (.float v)
  | char (hkind : t.kind = .char) :
      Denotes t (.char (UInt8.ofNat (t.value.toList.headD '\x00').toNat))
  | bool (hkind : t.kind = .bool) : Denotes t (.bool (t.value = "true"))

/-- A name in any number of parentheses. -/
inductive GroupedName (name : Token) : List Token → Prop where
  | name (h : name.kind = .identifier) : GroupedName name [name]
  | group {us : List Token} {opening closing : Token} (hopening : opening.kind = .openParen)
      (h : GroupedName name us) (hclosing : closing.kind = .closeParen) :
      GroupedName name (opening :: (us ++ [closing]))

/-- A name, in parentheses or not, starts with no operator. -/
theorem GroupedName.head?_ne_unary {name : Token} {us : List Token} (h : GroupedName name us) :
    ∃ u vs, us = u :: vs ∧ Grammar.standard.head? u.kind ≠ some .unary := by
  cases h with
  | name h => exact ⟨name, [], rfl, by rw [h]; decide⟩
  | @group us opening _ hopening => exact ⟨opening, _, rfl, by rw [hopening]; decide⟩

/-- Lists of tokens put together with commas between them. -/
inductive Commas : List (List Token) → List Token → Prop where
  | none : Commas [] []
  | last (us : List Token) : Commas [us] us
  | more {us vs ws : List Token} {others : List (List Token)} {comma : Token}
      (hcomma : comma.kind = .comma) (h : Commas (vs :: others) ws) :
      Commas (us :: vs :: others) (us ++ comma :: ws)

/-- **The layered grammar.** Tokens derive a tree at the layer of a power. -/
inductive Layered : Power → List Token → Expr Span → Prop where
  | binary {us vs : List Token} {t : Token} {left right : Expr Span} (op : BinaryOp)
      (ht : t.kind = op.kind) (hleft : Layered op.power us left)
      (hright : Layered op.power.next vs right) :
      Layered op.power (us ++ t :: vs)
        (.binary ⟨left.note.start, right.note.stop⟩ op left right)
  | tighter {p : Power} {us : List Token} {e : Expr Span} (h : Layered p.next us e) : Layered p us e
  | unary {us : List Token} {t : Token} {operand : Expr Span} (op : UnaryOp)
      (ht : t.kind = op.kind) (h : Layered .unary us operand) :
      Layered .unary (t :: us) (.unary ⟨t.span.start, operand.note.stop⟩ op operand)
  | call {us vs : List Token} {name opening closing : Token}
      (arguments : List (List Token × Expr Span)) (hcallee : GroupedName name us)
      (hopening : opening.kind = .openParen)
      (h : ∀ a ∈ arguments, Layered .logical a.1 a.2)
      (hcommas : Commas (arguments.map Prod.fst) vs) (hclosing : closing.kind = .closeParen) :
      Layered .call (us ++ opening :: (vs ++ [closing]))
        (.call ⟨name.span.start, closing.span.stop⟩ name.value (arguments.map Prod.snd))
  | literal {t : Token} {v : Literal} (h : t.Denotes v) : Layered .primary [t] (.literal t.span v)
  | name {t : Token} (h : t.kind = .identifier) : Layered .primary [t] (.read t.span t.value)
  | group {us : List Token} {opening closing : Token} {e : Expr Span}
      (hopening : opening.kind = .openParen) (h : Layered .logical us e)
      (hclosing : closing.kind = .closeParen) :
      Layered .primary (opening :: (us ++ [closing])) e

namespace Layered

variable {p q : Power} {us : List Token} {e : Expr Span}

/-- What is derived at a layer is derived at all looser ones. So an operand may be an operation of
any tighter layer. -/
theorem loosen (h : Layered p us e) (hle : q.rank ≤ p.rank) : Layered q us e := by
  -- One layer at a time, from the tighter to the looser.
  induction hgap : p.rank - q.rank generalizing q with
  | zero =>
    obtain rfl : q = p := Power.eq_of_rank_eq (by omega)
    exact h
  | succ gap ih =>
    have hp := p.rank_le
    have hnext := q.rank_next
    exact .tighter (ih (by omega) (by omega))

/-- The tokens of a name are the name, in any number of parentheses. A name is of the tightest
layer, and parentheses do not show in the tree. -/
theorem callee {span : Span} {x : String} (h : Layered p us (.read span x)) :
    ∃ name, GroupedName name us ∧ name.span = span ∧ name.value = x := by
  generalize he : Expr.read span x = e at h
  induction h with
  | tighter _ ih => exact ih he
  | @name t hkind =>
    cases he
    exact ⟨t, .name hkind, rfl, rfl⟩
  | group hopening _ hclosing ih =>
    obtain ⟨name, hname, hspan, hvalue⟩ := ih he
    exact ⟨name, .group hopening hname hclosing, hspan, hvalue⟩
  | binary | unary | call | literal => cases he

/-- What is tighter than the operators in front of an operand starts with none of them. By induction
on the derivation; a rule for a looser layer contradicts the bound, and the tightest ones start with
a token of their own. -/
theorem head?_ne_unary (h : Layered p us e) (hlt : Power.unary < p) :
    ∃ u vs, us = u :: vs ∧ Grammar.standard.head? u.kind ≠ some .unary := by
  induction h with
  | binary op =>
    have hrank := op.rank_power
    rw [Power.lt_iff, Power.rank] at hlt
    omega
  | @tighter p us e _ ih =>
    have hnext := p.rank_next
    rw [Power.lt_iff, Power.rank] at hlt
    refine ih ?_
    rw [Power.lt_iff, Power.rank]
    omega
  | unary => exact absurd hlt (Nat.lt_irrefl _)
  | call _ hcallee =>
    obtain ⟨u, vs, rfl, hu⟩ := hcallee.head?_ne_unary
    exact ⟨u, _, rfl, hu⟩
  | @literal t v h =>
    refine ⟨t, [], rfl, ?_⟩
    cases h with
    | int hkind | float hkind | char hkind | bool hkind => rw [hkind]; decide
  | @name t h => exact ⟨t, [], rfl, by rw [h]; decide⟩
  | @group us opening closing e hopening => exact ⟨opening, _, rfl, by rw [hopening]; decide⟩

end Layered

/-! ## What the tree keeps of the tokens -/

/-- What one token of an expression stands for: a value, a name, or nothing but its kind. -/
inductive Sign where
  | value (v : Literal)
  | name (x : String)
  | mark (k : Kind)

/-- A token that stands for a sign. -/
def Token.StandsFor (t : Token) : Sign → Prop
  | .value v => t.Denotes v
  | .name x => t.kind = .identifier ∧ t.value = x
  | .mark k => t.kind = k

namespace Expr

variable {α : Type}

mutual

/-- The signs of an expression, from left to right. -/
def signs : Expr α → List Sign
  | literal _ v => [.value v]
  | read _ x => [.name x]
  | binary _ op left right => left.signs ++ .mark op.kind :: right.signs
  | unary _ op operand => .mark op.kind :: operand.signs
  | call _ f arguments =>
    .name f :: .mark .openParen :: (argumentSigns arguments ++ [.mark .closeParen])

/-- The signs of arguments, with commas between them. -/
def argumentSigns : List (Expr α) → List Sign
  | [] => []
  | [e] => e.signs
  | e :: e' :: es => e.signs ++ .mark .comma :: argumentSigns (e' :: es)

end

end Expr

/-- Some tokens are left when parentheses are taken away, always an opening one and a closing one
behind it. -/
inductive Ungrouped : List Token → List Token → Prop where
  | nil : Ungrouped [] []
  | keep {us kept : List Token} (t : Token) (h : Ungrouped us kept) :
      Ungrouped (t :: us) (t :: kept)
  | group {us vs kept kept' : List Token} {opening closing : Token}
      (hopening : opening.kind = .openParen) (h : Ungrouped us kept)
      (hclosing : closing.kind = .closeParen) (h' : Ungrouped vs kept') :
      Ungrouped (opening :: (us ++ closing :: vs)) (kept ++ kept')

/-- Parentheses can be taken away from two lists of tokens one after the other. -/
theorem Ungrouped.append {us vs kept kept' : List Token} (h : Ungrouped us kept)
    (h' : Ungrouped vs kept') : Ungrouped (us ++ vs) (kept ++ kept') := by
  induction h with
  | nil => exact h'
  | keep t _ ih => exact .keep t ih
  | group hopening h hclosing _ _ ih =>
    rw [List.cons_append, List.append_assoc, List.append_assoc]
    exact .group hopening h hclosing ih

/-- Tokens stand one by one for signs, but for parentheses around parts of them. -/
def Accounted (us : List Token) (signs : List Sign) : Prop :=
  ∃ kept, Ungrouped us kept ∧ List.Forall₂ Token.StandsFor kept signs

namespace Accounted

variable {us vs : List Token} {t : Token} {signs signs' : List Sign} {s : Sign}

/-- No tokens stand for no signs. -/
theorem nil : Accounted [] [] := ⟨[], .nil, .nil⟩

/-- Tokens behind tokens stand for signs behind signs. -/
theorem append (h : Accounted us signs) (h' : Accounted vs signs') :
    Accounted (us ++ vs) (signs ++ signs') := by
  obtain ⟨kept, hkept, hsigns⟩ := h
  obtain ⟨kept', hkept', hsigns'⟩ := h'
  exact ⟨kept ++ kept', hkept.append hkept', List.rel_append hsigns hsigns'⟩

/-- A token in front stands for a sign in front. -/
theorem cons (ht : t.StandsFor s) (h : Accounted us signs) : Accounted (t :: us) (s :: signs) := by
  obtain ⟨kept, hkept, hsigns⟩ := h
  exact ⟨t :: kept, .keep t hkept, .cons ht hsigns⟩

/-- Parentheses around tokens stand for nothing. -/
theorem group {opening closing : Token} (hopening : opening.kind = .openParen)
    (h : Accounted us signs) (hclosing : closing.kind = .closeParen) :
    Accounted (opening :: (us ++ [closing])) signs := by
  obtain ⟨kept, hkept, hsigns⟩ := h
  refine ⟨kept, ?_, hsigns⟩
  rw [← List.append_nil kept]
  exact .group hopening hkept hclosing .nil

end Accounted

/-- A name stands for itself, whatever parentheses are around it. -/
theorem GroupedName.accounted {name : Token} {us : List Token} (h : GroupedName name us) :
    Accounted us [.name name.value] := by
  induction h with
  | name h => exact .cons ⟨h, rfl⟩ .nil
  | group hopening _ hclosing ih => exact ih.group hopening hclosing

/-- Arguments with commas between them stand for their signs with commas between these. The commas
of the text are the commas among the signs, one for one. -/
theorem Commas.accounted {vs : List Token} {arguments : List (List Token × Expr Span)}
    (hcommas : Commas (arguments.map Prod.fst) vs)
    (h : ∀ a ∈ arguments, Accounted a.1 a.2.signs) :
    Accounted vs (Expr.argumentSigns (arguments.map Prod.snd)) := by
  -- The induction is on the commas; the trees go along with the tokens.
  generalize hparts : arguments.map Prod.fst = parts at hcommas
  induction hcommas generalizing arguments with
  | none =>
    obtain rfl := List.map_eq_nil_iff.mp hparts
    exact .nil
  | last us =>
    obtain ⟨a, rfl, rfl⟩ := List.map_eq_singleton_iff.mp hparts
    exact h a List.mem_cons_self
  | more hcomma _ ih =>
    obtain ⟨a, others, rfl, rfl, hothers⟩ := List.map_eq_cons_iff.mp hparts
    obtain ⟨b, rest, rfl, -, -⟩ := List.map_eq_cons_iff.mp hothers
    obtain ⟨ha, hrest⟩ := List.forall_mem_cons.mp h
    exact ha.append (.cons hcomma (ih hrest hothers))

/-- **No token is lost.** The tokens that derive a tree stand for its signs, in order, but for the
parentheses around parts of it. -/
theorem Layered.accounted {p : Power} {us : List Token} {e : Expr Span} (h : Layered p us e) :
    Accounted us e.signs := by
  induction h with
  | binary op ht _ _ ihleft ihright => exact ihleft.append (.cons ht ihright)
  | tighter _ ih => exact ih
  | unary op ht _ ih => exact .cons ht ih
  | call arguments hcallee hopening _ hcommas hclosing ih =>
    have harguments := hcommas.accounted ih
    exact hcallee.accounted.append (.cons hopening (harguments.append (.cons hclosing .nil)))
  | literal h => exact .cons h .nil
  | name h => exact .cons ⟨h, rfl⟩ .nil
  | group hopening _ hclosing ih => exact ih.group hopening hclosing

end Pulse

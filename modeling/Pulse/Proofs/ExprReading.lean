/-
Reading expressions back.

The reader decides by powers alone where an operand ends, and the printer decides by powers alone
where parentheses stand. That the two agree comes down to three comparisons: behind a left operand
stands an operator that does not bind tighter than the operand, a right operand binds tighter than
the operator in front of it, and the operand of a unary operator tighter than that.

A tree is read along its left spine. The head of the leftmost operand is read first, and every
operation on the way up is one more tail.
-/
import Pulse.Proofs.WordReading

set_option autoImplicit false

namespace Pulse

open Reader Grammar
open Number (Binary64)

/-! ## Powers -/

/-- Powers are compared by their ranks, which is what arithmetic is done with. -/
theorem Power.lt_iff {p q : Power} : p < q ↔ p.rank < q.rank := Iff.rfl

namespace BinaryOp

/-- A binary operator is known by its token. -/
theorem ofKind?_kind (op : BinaryOp) : ofKind? op.kind = some op := by
  rcases op with op | op | op <;> cases op <;> rfl

/-- In the table of the language, the token of a binary operator is a tail with the power of the
operator. -/
theorem tail?_kind (op : BinaryOp) : standard.tail? op.kind = some (.binary, op.power) := by
  rcases op with op | op | op <;> cases op <;> rfl

/-- The power in the table is that of the operator. -/
theorem power_kind (op : BinaryOp) : standard.power op.kind = op.power := by
  rw [Grammar.power, op.tail?_kind]
  rfl

/-- Binary operators bind tighter than nothing and less tightly than unary operators. -/
theorem rank_power (op : BinaryOp) : 0 < op.power.rank ∧ op.power.rank < 5 := by
  rcases op with op | op | op <;> cases op <;> decide

end BinaryOp

namespace UnaryOp

/-- A unary operator is known by its token. -/
theorem ofKind?_kind (op : UnaryOp) : ofKind? op.kind = some op := by
  cases op <;> rfl

/-- In the table of the language, the token of a unary operator is a head. -/
theorem head?_kind (op : UnaryOp) : standard.head? op.kind = some .unary := by
  cases op <;> rfl

end UnaryOp

/-- Every expression has a level above the lowest power, and none above calls. -/
theorem Expr.rank_level {α : Type} (e : Expr α) : 0 < e.level.rank ∧ e.level.rank ≤ 6 := by
  cases e with
  | binary n op left right =>
    have hrank := op.rank_power
    exact ⟨hrank.1, by rw [Expr.level]; omega⟩
  | literal | read | unary | call => exact ⟨Nat.succ_pos 5, Nat.le_refl 6⟩

/-- A kind of token at which an expression above a power ends. -/
def Stops (floor : Power) (k : Kind) : Prop := ¬ floor < standard.power k

/-- A kind of token that is no part of an expression of a level that ends in front of it. An opening
parenthesis would make a call of a name. -/
def Follows (level : Power) (k : Kind) : Prop :=
  ¬ level < standard.power k ∧ standard.power k < .call

/-- A kind that is no tail ends an expression above the lowest power. -/
theorem stops_default {k : Kind} (h : standard.power k = .default) : Stops .default k := by
  rw [Stops, h]
  decide

/-- What ends an expression above a power may follow one of a tighter level. -/
theorem Stops.follows {floor level : Power} {k : Kind} (h : Stops floor k) (hlt : floor < level)
    (hlevel : level.rank ≤ 6) : Follows level k := by
  unfold Stops at h
  rw [Power.lt_iff] at h hlt
  refine ⟨?_, ?_⟩
  · rw [Power.lt_iff]
    omega
  · rw [Power.lt_iff]
    have hcall : Power.call.rank = 6 := rfl
    omega

/-! ## Heads and tails -/

section Tails

variable {operands : Operands} {floor power : Power} {n : Nat} {e left : Expr Span} {t t' : Tape}
  {form : TailForm}

/-- Tails end where the next kind does not bind tighter than the power. -/
theorem readTails_stop (h : Stops floor t.kind) :
    standard.readTails operands floor (n + 1) e t = .ok e t := by
  rw [Grammar.readTails, bind_of_ok (rfl : Reader.kind t = .ok t.kind t)]
  -- A kind that is no tail has the lowest power, so both cases are one comparison.
  unfold Stops Grammar.power at h
  cases htail : standard.tail? t.kind with
  | none => rfl
  | some tail =>
    obtain ⟨form, power⟩ := tail
    have hpower : ¬ floor < power := by
      rw [htail] at h
      exact h
    dsimp only
    rw [if_neg hpower]
    rfl

/-- A tail that binds tighter than the power is read, and more tails may follow. -/
theorem readTails_step (htail : standard.tail? t.kind = some (form, power)) (hlt : floor < power)
    (hread : form.read operands n left power t = .ok e t') :
    standard.readTails operands floor (n + 1) left t =
      standard.readTails operands floor n e t' := by
  rw [Grammar.readTails, bind_of_ok (rfl : Reader.kind t = .ok t.kind t), htail]
  dsimp only
  rw [if_pos hlt]
  exact bind_of_ok hread

end Tails

/-- A head takes its words when the form that its first word has in the table does. -/
theorem takes_head {operands : Operands} {form : HeadForm} {w : Word} {ws : List Word}
    {next : Kind → Prop} {P : Expr Span → Prop} (hform : standard.head? w.kind = some form)
    (h : (form.read operands).Takes (w :: ws) next P) :
    (standard.readHead operands).Takes (w :: ws) next P := by
  refine takes_firstKind rfl ?_
  rw [hform]
  exact h

/-! ## Expressions in the middle of tails -/

/-- Reading an expression above a power comes to the tape behind some words in the middle of the
tails, with the expression as what has been read. Every tail on the way took one word or more. -/
def Resumes (e : Expr Span) (ws : List Word) (next : Kind → Prop) (floor : Power) : Prop :=
  ∀ (n : Nat) (t t' : Tape), t.Passes ws t' → next t'.kind → ws.length ≤ n + 1 →
    ∃ (e' : Expr Span) (k : Nat), e'.bare = e.bare ∧ n + 2 ≤ k + ws.length ∧
      standard.expr (n + 1) floor t = standard.readTails (standard.expr n) floor k e' t'

section Resumes

variable {e left : Expr Span} {w : Word} {ws ws' : List Word} {next mid : Kind → Prop}
  {floor power : Power} {form : TailForm}

/-- An expression that is a head. Its words are read, and then its tails are to be read. -/
theorem resumes_head (hws : 0 < ws.length)
    (h : ∀ n, ws.length ≤ n + 1 →
      (standard.readHead (standard.expr n)).Takes ws next (·.bare = e.bare)) :
    Resumes e ws next floor := by
  intro n t t' ht hnext hlen
  obtain ⟨e', hread, hbare⟩ := h n hlen t t' ht hnext
  refine ⟨e', n + 1, hbare, by omega, ?_⟩
  exact bind_of_ok hread

/-- An expression with a tail behind it. So the tails of an expression are read from the innermost
operation to the outermost. -/
theorem Resumes.tail (h : Resumes left ws mid floor) (hmid : mid w.kind)
    (htail : standard.tail? w.kind = some (form, power)) (hlt : floor < power)
    (hread : ∀ (n k : Nat) (left' : Expr Span), left'.bare = left.bare →
      ws.length + (w :: ws').length ≤ n + 1 → n + 1 ≤ k + ws.length →
      (form.read (standard.expr n) k left' power).Takes (w :: ws') next (·.bare = e.bare)) :
    Resumes e (ws ++ w :: ws') next floor := by
  intro n t t' ht hnext hlen
  rw [List.length_append] at hlen ⊢
  obtain ⟨m, hm, hm'⟩ := Tape.passes_append.mp ht
  rw [List.length_cons] at hlen
  obtain ⟨left', k, hleft, hk, hexpr⟩ := h n t m hm (by rw [hm'.kind]; exact hmid) (by omega)
  obtain ⟨k, rfl⟩ : ∃ j, k = j + 1 := ⟨k - 1, by omega⟩
  have hlen' : ws.length + (w :: ws').length ≤ n + 1 := by
    rw [List.length_cons]
    exact hlen
  obtain ⟨e', he', hbare⟩ := hread n k left' hleft hlen' (by omega) m t' hm' hnext
  refine ⟨e', k, hbare, by rw [List.length_cons]; omega, ?_⟩
  rw [hexpr]
  exact readTails_step (by rw [hm'.kind]; exact htail) hlt he'

/-- Where the tails end, the expression has been read. -/
theorem Resumes.takes (h : Resumes e ws next floor) (hws : 0 < ws.length) {n : Nat}
    (hn : ws.length ≤ n) (hnext : ∀ k, Stops floor k → next k) :
    (standard.expr n floor).Takes ws (Stops floor) (·.bare = e.bare) := by
  intro t t' ht hstops
  obtain ⟨n, rfl⟩ : ∃ m, n = m + 1 := ⟨n - 1, by omega⟩
  obtain ⟨e', k, hbare, hk, hexpr⟩ := h n t t' ht (hnext _ hstops) hn
  obtain ⟨k, rfl⟩ : ∃ j, k = j + 1 := ⟨k - 1, by omega⟩
  refine ⟨e', ?_, hbare⟩
  rw [hexpr]
  exact readTails_stop hstops

end Resumes

/-! ## The levels -/

namespace Expr

variable (spell : Binary64 → String)

/-- An expression that is read back from its words, above every power that is looser than its
level. -/
def Readable (e : Expr Span) : Prop :=
  ∀ floor, floor < e.level → Resumes e (e.words spell) (Follows e.level) floor

/-- An expression starts with what can start one. Its leftmost part does, or a parenthesis around
it. So the reader never takes it for the end of something. -/
theorem exists_head : ∀ e : Expr Span,
    ∃ w ws, e.words spell = w :: ws ∧ standard.head? w.kind ≠ none
  | literal n v => by
    refine ⟨v.word spell, [], by rw [words], ?_⟩
    cases v <;> exact Option.some_ne_none _
  | read n x => ⟨.name x, [], by rw [words], Option.some_ne_none _⟩
  | binary n op left right => by
    obtain ⟨w, ws, hws, hw⟩ := exists_head left
    rw [words]
    by_cases hlt : left.level < op.power
    · rw [if_pos hlt]
      exact ⟨.mark .openParen, _, rfl, Option.some_ne_none _⟩
    · rw [if_neg hlt, hws]
      exact ⟨w, _, rfl, hw⟩
  | unary n op operand => by
    rw [words]
    refine ⟨op.word, _, rfl, ?_⟩
    show standard.head? op.kind ≠ none
    rw [op.head?_kind]
    exact Option.some_ne_none _
  | call n f arguments => by
    rw [words]
    exact ⟨.name f, _, rfl, Option.some_ne_none _⟩

/-- An expression has at least one word. -/
theorem length_words_pos (e : Expr Span) : 0 < (e.words spell).length := by
  obtain ⟨w, ws, hws, -⟩ := e.exists_head spell
  rw [hws]
  exact Nat.succ_pos _

end Expr

namespace Expr.Readable

variable {spell : Binary64 → String} {e left right : Expr Span} {floor : Power} {n : Nat}

/-- An expression that is readable is read back from its words, above a looser power. -/
theorem takes (h : e.Readable spell) (hlt : floor < e.level) (hn : (e.words spell).length ≤ n) :
    (standard.expr n floor).Takes (e.words spell) (Stops floor) (·.bare = e.bare) :=
  (h floor hlt).takes (e.length_words_pos spell) hn fun _ hk => hk.follows hlt e.rank_level.2

/-- A whole expression, as it stands between other parts of a program. -/
theorem whole (h : e.Readable spell) (hn : (e.words spell).length ≤ n) :
    (standard.expr n .default).Takes (e.words spell) (Stops .default) (·.bare = e.bare) :=
  h.takes e.rank_level.1 hn

/-- Such an expression, with a word behind it that is no tail of one. -/
theorem before {β : Type} {f : Expr Span → Reader β} {w : Word} {ws : List Word}
    {next : Kind → Prop} {Q : β → Prop} (h : e.Readable spell) (hn : (e.words spell).length ≤ n)
    (hw : standard.power w.kind = .default)
    (hf : ∀ e', e'.bare = e.bare → (f e').Takes (w :: ws) next Q) :
    (standard.expr n .default >>= f).Takes (e.words spell ++ w :: ws) next Q :=
  (h.whole hn).bind (leads_cons (stops_default hw)) hf

/-- In parentheses an expression is read back above every power. -/
theorem parens (h : e.Readable spell) :
    Resumes e (parens (e.words spell)) (fun _ => True) floor := by
  refine resumes_head (Nat.succ_pos _) fun n hlen => takes_head rfl ?_
  have hlen' : (e.words spell).length ≤ n := by
    rw [Pulse.parens, List.length_cons, List.length_append] at hlen
    omega
  refine takes_advance fun _ _ => h.before hlen' rfl fun e' he' => ?_
  exact takes_expectWhere rfl fun _ _ => takes_pure he'

/-- An operand that an operator stands in front of. -/
theorem operand (h : e.Readable spell)
    (hn : (if floor < e.level then e.words spell else Pulse.parens (e.words spell)).length ≤ n) :
    (standard.expr n floor).Takes
      (if floor < e.level then e.words spell else Pulse.parens (e.words spell)) (Stops floor)
      (·.bare = e.bare) := by
  by_cases hlt : floor < e.level
  · rw [if_pos hlt] at hn ⊢
    exact h.takes hlt hn
  · rw [if_neg hlt] at hn ⊢
    exact h.parens.takes (Nat.succ_pos _) hn fun _ _ => trivial

/-- An operand that an operator stands behind. Looser operands are in parentheses, and all others
end where the operator starts. An operand of the same level needs none here, as operators associate
to the left. -/
theorem leftOperand (h : e.Readable spell) {op : BinaryOp} (hlt : floor < op.power) :
    Resumes e (if e.level < op.power then Pulse.parens (e.words spell) else e.words spell)
      (· = op.kind) floor := by
  by_cases hlooser : e.level < op.power
  · rw [if_pos hlooser]
    intro n t t' ht _ hlen
    exact h.parens n t t' ht trivial hlen
  · rw [if_neg hlooser]
    rw [Power.lt_iff] at hlt hlooser
    have hlevel : floor < e.level := by
      rw [Power.lt_iff]
      omega
    -- The operator does not bind tighter than the operand, so the operand ends in front of it.
    have hfollows : Follows e.level op.kind := by
      rw [Follows, op.power_kind, Power.lt_iff, Power.lt_iff]
      exact ⟨hlooser, Nat.lt_of_lt_of_le op.rank_power.2 (by decide)⟩
    intro n t t' ht hkind hlen
    exact h floor hlevel n t t' ht (hkind ▸ hfollows) hlen

/-- A binary operation is read back when its operands are: the left one first, then the operator as
a tail. -/
theorem binary (hl : left.Readable spell) (hr : right.Readable spell) (note : Span)
    (op : BinaryOp) : (Expr.binary note op left right).Readable spell := by
  intro floor hlt
  have hlt' : floor < op.power := hlt
  rw [words]
  -- The left operand was read above the same power, and now the operator binds tighter than it.
  refine (hl.leftOperand hlt').tail rfl op.tail?_kind hlt' ?_
  intro n k left' hleft hlen _
  rw [List.length_cons] at hlen
  refine takes_advance fun u hu => ?_
  have hop : BinaryOp.ofKind? u.kind = some op := by
    rw [hu.1]
    exact op.ofKind?_kind
  rw [hop]
  have hright : (standard.expr n op.power).Takes _ (Stops op.power) (·.bare = right.bare) :=
    hr.operand (by omega)
  refine hright.last (fun k hk => hk.1) fun right' hright' => takes_pure ?_
  rw [bare, hleft, hright', bare]

/-- A unary operation is read back when its operand is. The operand is read above the power of unary
operators, so that it stops in front of every operator between two operands. -/
theorem unary (h : e.Readable spell) (note : Span) (op : UnaryOp) :
    (Expr.unary note op e).Readable spell := by
  intro floor hlt
  rw [words]
  refine resumes_head (Nat.succ_pos _) fun n hlen => takes_head op.head?_kind ?_
  rw [List.length_cons] at hlen
  refine takes_advance fun u hu => ?_
  have hop : UnaryOp.ofKind? u.kind = some op := by
    rw [hu.1]
    exact op.ofKind?_kind
  rw [hop]
  have hoperand : (standard.expr n .unary).Takes _ (Stops .unary) (·.bare = e.bare) :=
    h.operand (by omega)
  -- Only a call binds tighter than a unary operator.
  have hstops : ∀ k, Follows .call k → Stops .unary k := by
    intro k hk
    have hrank : (standard.power k).rank < 6 := hk.2
    have hunary : Power.unary.rank = 5 := rfl
    rw [Stops, Power.lt_iff]
    omega
  refine hoperand.last hstops fun e' he' => takes_pure ?_
  rw [bare, he', bare]

end Expr.Readable

/-! ## Calls -/

section Calls

variable {spell : Binary64 → String} {n : Nat}

/-- Arguments are read back one by one. A comma tells that there are more, and the fuel that is left
is enough for them. -/
theorem readArguments_takes {es : List (Expr Span)} {e : Expr Span} {fuel : Nat}
    (hes : ∀ a ∈ e :: es, a.Readable spell) (hfuel : es.length < fuel)
    (hn : (Expr.argumentWords spell (e :: es)).length ≤ n) :
    (readArguments (standard.expr n) fuel).Takes (Expr.argumentWords spell (e :: es))
      (· = .closeParen) (Expr.bareOf · = Expr.bareOf (e :: es)) := by
  induction es generalizing e fuel with
  | nil =>
    obtain ⟨fuel, rfl⟩ : ∃ m, fuel = m + 1 := ⟨fuel - 1, by omega⟩
    rw [Expr.argumentWords, List.length_append] at hn
    have hfirst := (hes e List.mem_cons_self).whole (n := n) (by omega)
    rw [Expr.argumentWords, Expr.moreWords]
    refine hfirst.bind (leads_nil ?_) fun first hbare => ?_
    · rintro k rfl
      exact stops_default rfl
    · refine takes_kind (leads_nil fun k hk => hk) ?_
      rintro k rfl
      rw [if_neg (by decide)]
      refine takes_pure ?_
      simp only [Expr.bareOf, hbare]
  | cons e' es ih =>
    obtain ⟨fuel, rfl⟩ : ∃ m, fuel = m + 1 := ⟨fuel - 1, by omega⟩
    rw [List.length_cons] at hfuel
    rw [Expr.argumentWords, Expr.moreWords, ← Expr.argumentWords] at hn ⊢
    rw [List.length_append, List.length_cons] at hn
    obtain ⟨he, hes'⟩ := List.forall_mem_cons.mp hes
    have hothers := ih hes' (Nat.lt_of_succ_lt_succ hfuel) (by omega)
    refine he.before (by omega) rfl fun first hbare => ?_
    refine takes_firstKind (k := .comma) rfl ?_
    rw [if_pos rfl]
    refine takes_advance fun _ _ => hothers.last (fun k hk => hk) fun others hbare' => ?_
    refine takes_pure ?_
    simp only [Expr.bareOf, hbare] at hbare' ⊢
    rw [hbare']

/-- Every argument has a word. -/
theorem length_le_argumentWords (spell : Binary64 → String) (es : List (Expr Span)) :
    es.length ≤ (Expr.argumentWords spell es).length := by
  have hmore : ∀ es : List (Expr Span), es.length ≤ (Expr.moreWords spell es).length := by
    intro es
    induction es with
    | nil => exact Nat.zero_le _
    | cons e es ih =>
      rw [Expr.moreWords, List.length_cons, List.length_cons, List.length_append]
      omega
  cases es with
  | nil => exact Nat.zero_le _
  | cons e es =>
    have hfirst := e.length_words_pos spell
    have hothers := hmore es
    rw [Expr.argumentWords, List.length_cons, List.length_append]
    omega

/-- A name is read back as a variable. -/
theorem readPrimary_name (x : String) (next : Kind → Prop) :
    readPrimary.Takes [.name x] next (·.bare = .read .nowhere x) := by
  refine takes_current fun u hu => ?_
  have hkind : u.kind = .identifier := hu.1
  have hvalue : u.value = x := hu.2 rfl
  simp only [hkind, hvalue]
  exact takes_advance fun _ _ => takes_pure rfl

/-- Only a variable looks like one without its spans. -/
theorem eq_read_of_bare {e : Expr Span} {x : String} (h : e.bare = .read .nowhere x) :
    ∃ note, e = .read note x := by
  cases e with
  | read note y =>
    rw [Expr.bare] at h
    obtain ⟨-, rfl⟩ := Expr.read.inj h
    exact ⟨note, rfl⟩
  | literal | binary | unary | call =>
    rw [Expr.bare] at h
    cases h

/-- The arguments of a call are read back in their parentheses. Whether there are any is settled by
the first word: no expression starts with the closing parenthesis. -/
theorem readCall_takes {arguments : List (Expr Span)} (h : ∀ a ∈ arguments, a.Readable spell)
    {fuel : Nat} (hfuel : arguments.length ≤ fuel)
    (hn : (Expr.argumentWords spell arguments).length ≤ n) (note : Span) (f : String)
    (next : Kind → Prop) :
    (readCall (standard.expr n) fuel (.read note f)).Takes
      (.mark .openParen :: (Expr.argumentWords spell arguments ++ [.mark .closeParen])) next
      (·.bare = .call .nowhere f (Expr.bareOf arguments)) := by
  refine takes_advance fun _ _ => ?_
  cases arguments with
  | nil =>
    refine takes_firstKind (k := .closeParen) rfl ?_
    rw [if_pos rfl]
    refine takes_expectWhere rfl fun _ _ => ?_
    exact takes_ask fun t => takes_pure rfl
  | cons e es =>
    obtain ⟨w, ws, hws, hw⟩ := e.exists_head spell
    -- No expression starts with the closing parenthesis.
    have hlead : Leads (Expr.argumentWords spell (e :: es) ++ [.mark .closeParen]) next
        (· ≠ .closeParen) := by
      rw [Expr.argumentWords, hws]
      refine leads_cons ?_
      rintro hclose
      rw [hclose] at hw
      exact hw rfl
    refine takes_kind hlead fun k hk => ?_
    rw [if_neg hk]
    refine (readArguments_takes h hfuel hn).bind (leads_cons rfl) fun arguments hbare => ?_
    refine takes_expectWhere rfl fun _ _ => ?_
    refine takes_ask fun t => takes_pure ?_
    rw [Expr.bare, hbare]

/-- A call is read back when its arguments are: the name is a head, and the arguments are its
tail. -/
theorem Expr.Readable.call {arguments : List (Expr Span)}
    (h : ∀ a ∈ arguments, a.Readable spell) (note : Span) (f : String) :
    (Expr.call note f arguments).Readable spell := by
  intro floor hlt
  rw [words]
  -- The name may be followed by anything, as it is a head by itself.
  have hname : Resumes (.read note f) [.name f] (fun _ => True) floor :=
    resumes_head (Nat.succ_pos _) fun n _ => takes_head rfl (readPrimary_name f _)
  refine hname.tail trivial rfl hlt fun n k left' hleft hlen hk => ?_
  obtain ⟨note', rfl⟩ := eq_read_of_bare hleft
  have hcount := length_le_argumentWords spell arguments
  simp only [List.length_cons, List.length_append, List.length_nil] at hlen hk
  exact readCall_takes h (by omega) (by omega) note' f _

end Calls

/-! ## All expressions -/

namespace Expr

variable {spell : Binary64 → String}

mutual

/-- **Every expression whose literals can be written is read back from its words.** By recursion on
the expression, one lemma for each form. The notes are not read back, since they say where things
stand. -/
theorem readable : ∀ (e : Expr Span), (∀ v ∈ e.literals, v.Writable spell) → e.Readable spell
  | literal n v, h => by
    intro floor hlt
    rw [words]
    rw [literals, List.forall_mem_singleton] at h
    refine resumes_head (Nat.succ_pos _) fun n _ => ?_
    cases v <;> exact takes_head rfl (readPrimary_literal h)
  | read n x, h => by
    intro floor hlt
    rw [words]
    exact resumes_head (Nat.succ_pos _) fun n _ => takes_head rfl (readPrimary_name x _)
  | binary n op left right, h => by
    rw [literals, List.forall_mem_append] at h
    exact (readable left h.1).binary (readable right h.2) n op
  | unary n op operand, h => by
    rw [literals] at h
    exact (readable operand h).unary n op
  | call n f arguments, h => by
    rw [literals] at h
    exact .call (readableOf arguments h) n f

/-- The same for all arguments of a call. -/
theorem readableOf : ∀ (es : List (Expr Span)), (∀ v ∈ literalsOf es, v.Writable spell) →
    ∀ e ∈ es, e.Readable spell
  | [], _ => by simp
  | e :: es, h => by
    rw [literalsOf, List.forall_mem_append] at h
    exact List.forall_mem_cons.mpr ⟨readable e h.1, readableOf es h.2⟩

end

end Expr

end Pulse

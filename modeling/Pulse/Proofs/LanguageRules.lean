/-
The rules of the language, and what they derive.

The grammar is written down as it is documented: a right side in extended Backus-Naur form for every
nonterminal. What a right side derives is said once for all grammars, so two grammars that differ in
one rule differ in nothing else. Terminals are kinds of tokens.

The reader of the language follows a second grammar. A tree keeps no trace of parentheses around an
expression, and whether something can be called is decided by looking at its tree, so a name in
parentheses can be called where the documented grammar asks for a name. The last section says how
far the two are apart: a text of the wider grammar is one of the documented grammar exactly when no
closing parenthesis has an opening one right behind it.
-/
import Mathlib.Data.List.Forall2
import Pulse.Token.Basic

set_option autoImplicit false

namespace Pulse

/-- The nonterminals of the language. -/
inductive Nonterminal where
  | program
  | statement
  | type
  | expr
  | callee
deriving DecidableEq

/-- Right sides of rules. -/
inductive Ebnf where
  | empty
  | token (kind : Kind)
  | rule (n : Nonterminal)
  | seq (a b : Ebnf)
  | either (a b : Ebnf)
  | maybe (a : Ebnf)
  | many (a : Ebnf)

namespace Ebnf

/-- The parts of a list, one behind the other. -/
def all : List Ebnf → Ebnf
  | [] => empty
  | a :: as => seq a (all as)

/-- One of several parts. -/
def any (a : Ebnf) : List Ebnf → Ebnf
  | [] => a
  | b :: bs => either a (any b bs)

/-- One of several tokens. -/
def anyToken (k : Kind) (ks : List Kind) : Ebnf := any (token k) (ks.map token)

/-- One or more parts with commas between them. -/
def commas (a : Ebnf) : Ebnf := all [a, many (all [token .comma, a])]

/-- Statements in braces. -/
def block : Ebnf := all [token .openCurly, many (rule .statement), token .closeCurly]

/-- What a right side derives under given rules. -/
inductive Derives (rules : Nonterminal → Ebnf) : Ebnf → List Kind → Prop where
  | empty : Derives rules empty []
  | token (k : Kind) : Derives rules (token k) [k]
  | rule {n : Nonterminal} {ks : List Kind} (h : Derives rules (rules n) ks) :
      Derives rules (rule n) ks
  | seq {a b : Ebnf} {us vs : List Kind} (ha : Derives rules a us) (hb : Derives rules b vs) :
      Derives rules (seq a b) (us ++ vs)
  | left {a b : Ebnf} {ks : List Kind} (h : Derives rules a ks) : Derives rules (either a b) ks
  | right {a b : Ebnf} {ks : List Kind} (h : Derives rules b ks) : Derives rules (either a b) ks
  | absent {a : Ebnf} : Derives rules (maybe a) []
  | present {a : Ebnf} {ks : List Kind} (h : Derives rules a ks) : Derives rules (maybe a) ks
  | done {a : Ebnf} : Derives rules (many a) []
  | more {a : Ebnf} {us vs : List Kind} (ha : Derives rules a us)
      (hb : Derives rules (many a) vs) : Derives rules (many a) (us ++ vs)

end Ebnf

open Ebnf in
/-- **The documented grammar.** Literals are the four kinds of tokens that carry a value, and every
operator of two operands stands in one rule: how tightly they bind is no matter of which texts there
are. -/
def documented : Nonterminal → Ebnf
  | .program => many (rule .statement)
  | .statement => any
      (all [token .kwPrint, token .openParen, rule .expr, token .closeParen, token .semicolon])
      [all [token .kwVar, token .identifier, rule .type,
        maybe (all [token .assignment, rule .expr]), token .semicolon],
       all [token .kwConst, token .identifier, token .assignment, rule .expr, token .semicolon],
       all [token .identifier, token .assignment, rule .expr, token .semicolon],
       all [token .kwIf, rule .expr, block, maybe (all [token .kwElse, block])],
       all [token .kwWhile, rule .expr, block],
       all [token .kwFunction, token .identifier, token .openParen,
        maybe (commas (all [token .identifier, rule .type])), token .closeParen, rule .type, block],
       all [token .kwReturn, rule .expr, token .semicolon]]
  | .type => token .identifier
  | .expr => any
      (anyToken .integer [.float, .char, .bool])
      [token .identifier,
       all [rule .callee, token .openParen, maybe (commas (rule .expr)), token .closeParen],
       all [token .openParen, rule .expr, token .closeParen],
       all [anyToken .plus [.dash, .not], rule .expr],
       all [rule .expr, anyToken .plus [.dash, .star, .slash, .less, .lessEquals, .greater,
        .greaterEquals, .equals, .notEquals, .and, .or], rule .expr]]
  | .callee => token .identifier

open Ebnf in
/-- **The grammar that the reader follows.** What is called is a name, in any number of
parentheses. -/
def lenient : Nonterminal → Ebnf
  | .callee => either (token .identifier) (all [token .openParen, rule .callee, token .closeParen])
  | n => documented n

namespace Ebnf

section Rules

variable {rules : Nonterminal → Ebnf} {a b : Ebnf} {as : List Ebnf} {k : Kind} {ks : List Kind}

/-! ## Derivations -/

/-- A token in front of what is derived. -/
theorem Derives.cons (h : Derives rules b ks) : Derives rules (.seq (.token k) b) (k :: ks) :=
  .seq (.token k) h

/-- The empty right side derives the empty text and no other. -/
theorem derives_empty : Derives rules .empty ks ↔ ks = [] := by
  constructor
  · intro h
    cases h
    rfl
  · rintro rfl
    exact .empty

/-- A terminal derives itself and nothing else. -/
theorem derives_token : Derives rules (.token k) ks ↔ ks = [k] := by
  constructor
  · intro h
    cases h
    rfl
  · rintro rfl
    exact .token k

/-- A sequence derives the texts that split into a text of each part. -/
theorem derives_seq : Derives rules (.seq a b) ks ↔
    ∃ us vs, ks = us ++ vs ∧ Derives rules a us ∧ Derives rules b vs := by
  constructor
  · intro h
    cases h with
    | seq ha hb => exact ⟨_, _, rfl, ha, hb⟩
  · rintro ⟨us, vs, rfl, ha, hb⟩
    exact .seq ha hb

/-- One of several parts derives what any of them does. -/
theorem Derives.any (h : Derives rules a ks) (ha : a ∈ b :: as) : Derives rules (any b as) ks := by
  induction as generalizing b with
  | nil =>
    obtain rfl := List.mem_singleton.mp ha
    exact h
  | cons c cs ih =>
    rcases List.mem_cons.mp ha with rfl | ha
    · exact .left h
    · exact .right (ih ha)

/-- One of several tokens derives each of them. -/
theorem Derives.anyToken {j : Kind} (h : k ∈ j :: ks) : Derives rules (anyToken j ks) [k] :=
  (Derives.token k).any (List.mem_map_of_mem (f := Ebnf.token) h)

/-! ## The least languages

A right side can be read under any choice of a language for every nonterminal, and of the words that
spell a token. What the rules derive is then in every choice that the rules do not lead out of. This
is how statements about all derivations are proved. -/

variable {σ : Type}

/-- What a right side stands for, given the words of a token and a language for every
nonterminal. -/
def Spelled (spells : σ → Kind → Prop) (L : Nonterminal → List σ → Prop) : Ebnf → List σ → Prop
  | empty, ws => ws = []
  | token k, ws => ∃ w, ws = [w] ∧ spells w k
  | rule n, ws => L n ws
  | seq a b, ws => ∃ us vs, ws = us ++ vs ∧ a.Spelled spells L us ∧ b.Spelled spells L vs
  | either a b, ws => a.Spelled spells L ws ∨ b.Spelled spells L ws
  | maybe a, ws => ws = [] ∨ a.Spelled spells L ws
  | many a, ws => ∃ wss : List (List σ), ws = wss.flatten ∧ ∀ us ∈ wss, a.Spelled spells L us

/-- Languages that the rules do not lead out of hold what the rules derive. By induction on the
derivation. This is how every property of what the rules derive is proved below: it is enough that
the right sides keep it. -/
theorem Derives.spelled {spells : σ → Kind → Prop} {L : Nonterminal → List σ → Prop}
    (closed : ∀ n ws, (rules n).Spelled spells L ws → L n ws) (h : Derives rules a ks) :
    ∀ {ws : List σ}, List.Forall₂ spells ws ks → a.Spelled spells L ws := by
  induction h with
  | empty =>
    intro ws hws
    exact List.forall₂_nil_right_iff.mp hws
  | token k =>
    intro ws hws
    obtain ⟨w, ws', hw, hws', rfl⟩ := List.forall₂_cons_right_iff.mp hws
    obtain rfl := List.forall₂_nil_right_iff.mp hws'
    exact ⟨w, rfl, hw⟩
  | rule _ ih =>
    intro ws hws
    exact closed _ ws (ih hws)
  | @seq a b us vs _ _ iha ihb =>
    intro ws hws
    -- The words are split where the kinds are.
    refine ⟨ws.take us.length, ws.drop us.length, (List.take_append_drop _ _).symm, ?_, ?_⟩
    · exact iha (List.forall₂_take_append ws us vs hws)
    · exact ihb (List.forall₂_drop_append ws us vs hws)
  | left _ ih =>
    intro ws hws
    exact .inl (ih hws)
  | right _ ih =>
    intro ws hws
    exact .inr (ih hws)
  | absent =>
    intro ws hws
    exact .inl (List.forall₂_nil_right_iff.mp hws)
  | present _ ih =>
    intro ws hws
    exact .inr (ih hws)
  | done =>
    intro ws hws
    exact ⟨[], List.forall₂_nil_right_iff.mp hws, by simp⟩
  | @more a us vs _ _ iha ihb =>
    intro ws hws
    obtain ⟨wss, hflat, hall⟩ := ihb (List.forall₂_drop_append ws us vs hws)
    refine ⟨ws.take us.length :: wss, ?_, ?_⟩
    · rw [List.flatten_cons, ← hflat, List.take_append_drop]
    · exact List.forall_mem_cons.mpr ⟨iha (List.forall₂_take_append ws us vs hws), hall⟩

/-- So do languages of kinds, where every token is a word of its own. -/
theorem Derives.mem {L : Nonterminal → List Kind → Prop}
    (closed : ∀ n ks, (rules n).Spelled Eq L ks → L n ks) {n : Nonterminal}
    (h : Derives rules (.rule n) ks) : L n ks :=
  h.spelled closed (List.forall₂_same.mpr fun _ _ => rfl)

/-- The derived languages are such languages themselves. What a right side stands for with them is
what it derives. -/
theorem Derives.of_spelled :
    ∀ {a : Ebnf} {ks : List Kind}, a.Spelled Eq (fun n => Derives rules (.rule n)) ks →
      Derives rules a ks
  | .empty, _, h => by
    obtain rfl := h
    exact .empty
  | .token k, _, h => by
    obtain ⟨_, rfl, rfl⟩ := h
    exact .token _
  | .rule _, _, h => h
  | .seq _ _, _, h => by
    obtain ⟨us, vs, rfl, ha, hb⟩ := h
    exact .seq (of_spelled ha) (of_spelled hb)
  | .either _ _, _, h => h.elim (fun h => .left (of_spelled h)) fun h => .right (of_spelled h)
  | .maybe _, _, h => by
    rcases h with rfl | h
    · exact .absent
    · exact .present (of_spelled h)
  | .many a, _, h => by
    obtain ⟨wss, rfl, hall⟩ := h
    induction wss with
    | nil => exact .done
    | cons us wss ih =>
      obtain ⟨hus, hwss⟩ := List.forall_mem_cons.mp hall
      exact .more (of_spelled hus) (ih hwss)

/-! ## The tokens of a text -/

/-- The kinds of tokens that stand in a right side. -/
def tokens : Ebnf → List Kind
  | empty | rule _ => []
  | token k => [k]
  | seq a b | either a b => a.tokens ++ b.tokens
  | maybe a | many a => a.tokens

/-- A text has no other tokens than those that stand in the rules. By induction on the derivation.
The end of input is none of them. -/
theorem Derives.mem_tokens (h : Derives rules a ks) (hk : k ∈ ks) :
    k ∈ a.tokens ∨ ∃ n, k ∈ (rules n).tokens := by
  induction h with
  | empty | absent | done => cases hk
  | token j => exact .inl hk
  | rule _ ih => exact .inr ((ih hk).elim (fun h => ⟨_, h⟩) id)
  | seq _ _ iha ihb =>
    rcases List.mem_append.mp hk with hk | hk
    · exact (iha hk).imp_left (List.mem_append_left _)
    · exact (ihb hk).imp_left (List.mem_append_right _)
  | left _ ih => exact (ih hk).imp_left (List.mem_append_left _)
  | right _ ih => exact (ih hk).imp_left (List.mem_append_right _)
  | present _ ih => exact ih hk
  | more _ _ iha ihb => exact (List.mem_append.mp hk).elim iha ihb

end Rules

/-- The end of input is no part of a text. -/
theorem Derives.ne_eof {n : Nonterminal} {k : Kind} {ks : List Kind}
    (h : Derives lenient (.rule n) ks) (hk : k ∈ ks) : k ≠ .eof := by
  have heof : ∀ n, Kind.eof ∉ (Pulse.lenient n).tokens := by
    intro n
    cases n <;> decide
  rintro rfl
  rcases h.mem_tokens hk with h | ⟨n, h⟩
  · cases h
  · exact heof n h

/-! ## Parentheses that meet -/

/-- A closing parenthesis with an opening one right behind it. -/
def Meets (ks : List Kind) : Prop := [.closeParen, .openParen] <:+: ks

section Meets

variable {k : Kind} {ks us vs : List Kind}

/-- Nothing meets in an empty text. -/
theorem not_meets_nil : ¬ Meets [] := by
  simp [Meets]

/-- Parentheses meet at the front of a text or further back. -/
theorem meets_cons : Meets (k :: ks) ↔ k = .closeParen ∧ ks.head? = some .openParen ∨ Meets ks := by
  rw [Meets, List.infix_cons_iff, ← Meets]
  cases ks with
  | nil => simp
  | cons j ks => simp [List.cons_prefix_cons, eq_comm]

/-- Parentheses meet in one of two texts or where the two touch. The second of these is what the
tests on the ends of right sides are for. -/
theorem meets_append : Meets (us ++ vs) ↔
    Meets us ∨ Meets vs ∨ us.getLast? = some .closeParen ∧ vs.head? = some .openParen := by
  induction us with
  | nil => simp [not_meets_nil]
  | cons u us ih =>
    rw [List.cons_append, meets_cons, ih, meets_cons]
    cases us with
    | nil =>
      simp only [List.nil_append, List.getLast?_nil, List.head?_nil, List.getLast?_singleton,
        not_meets_nil, Option.some.injEq, reduceCtorEq, and_false, false_and, or_false, false_or]
      exact or_comm
    | cons v vs =>
      simp only [List.cons_append, List.head?_cons, List.getLast?_cons_cons, or_assoc]

end Meets

/-- What is known of the ends of a text: whether it may be empty, may start with an opening
parenthesis, may end with a closing one. -/
structure Edges where
  vanishes : Bool
  opens : Bool
  closes : Bool
deriving DecidableEq

/-- A text whose ends are as said. -/
structure Edges.Bound (x : Edges) (ks : List Kind) : Prop where
  vanishes : ks = [] → x.vanishes
  opens : ks.head? = some .openParen → x.opens
  closes : ks.getLast? = some .closeParen → x.closes

/-- The ends of what a right side stands for. -/
def edges (N : Nonterminal → Edges) : Ebnf → Edges
  | empty => ⟨true, false, false⟩
  | token k => ⟨false, k = .openParen, k = .closeParen⟩
  | rule n => N n
  | seq a b =>
    let x := a.edges N
    let y := b.edges N
    ⟨x.vanishes && y.vanishes, x.opens || x.vanishes && y.opens, y.closes || y.vanishes && x.closes⟩
  | either a b =>
    let x := a.edges N
    let y := b.edges N
    ⟨x.vanishes || y.vanishes, x.opens || y.opens, x.closes || y.closes⟩
  | maybe a | many a => { a.edges N with vanishes := true }

/-- No two parts of a right side, one behind the other, let parentheses meet. -/
def apart (N : Nonterminal → Edges) : Ebnf → Bool
  | empty | token _ | rule _ => true
  | seq a b => a.apart N && b.apart N && !((a.edges N).closes && (b.edges N).opens)
  | either a b => a.apart N && b.apart N
  | maybe a => a.apart N
  | many a => a.apart N && !((a.edges N).closes && (a.edges N).opens)

/-- The ends of two texts together. Where one of them may vanish, the end of the other shows. -/
theorem Edges.Bound.append {x y : Edges} {us vs : List Kind} (hx : x.Bound us) (hy : y.Bound vs) :
    Edges.Bound ⟨x.vanishes && y.vanishes, x.opens || x.vanishes && y.opens,
      y.closes || y.vanishes && x.closes⟩ (us ++ vs) := by
  have hus := hx.vanishes
  have hvs := hy.vanishes
  constructor
  · intro h
    obtain ⟨rfl, rfl⟩ := List.append_eq_nil_iff.mp h
    simp [hus, hvs]
  · intro h
    cases us with
    | nil => simp [hus, hy.opens (by simpa using h)]
    | cons u us => simp [hx.opens (by simpa using h)]
  · intro h
    rcases List.eq_nil_or_concat vs with rfl | ⟨vs, v, rfl⟩
    · simp [hvs, hx.closes (by simpa using h)]
    · simp [hy.closes (by simpa using h)]

/-- The ends of any number of texts: those of each of them, and there may be none. -/
theorem Edges.Bound.flatten {x : Edges} {kss : List (List Kind)} (h : ∀ ks ∈ kss, x.Bound ks) :
    Edges.Bound { x with vanishes := true } kss.flatten := by
  induction kss with
  | nil => exact ⟨fun _ => rfl, by simp, by simp⟩
  | cons ks kss ih =>
    obtain ⟨hks, hkss⟩ := List.forall_mem_cons.mp h
    have happend := hks.append (ih hkss)
    refine ⟨fun _ => rfl, fun h => ?_, fun h => ?_⟩
    · have hopens := happend.opens h
      simp only [Bool.or_eq_true, Bool.and_eq_true] at hopens
      exact hopens.elim id And.right
    · simpa using happend.closes h

/-- Parentheses do not meet in a repetition whose parts do not end with a closing one, or do not
start with an opening one. -/
theorem Edges.Bound.not_meets_flatten {x : Edges} (hx : x.closes = false ∨ x.opens = false)
    {kss : List (List Kind)} (h : ∀ ks ∈ kss, x.Bound ks ∧ ¬ Meets ks) : ¬ Meets kss.flatten := by
  induction kss with
  | nil => exact not_meets_nil
  | cons ks kss ih =>
    obtain ⟨⟨hks, hks'⟩, hkss⟩ := List.forall_mem_cons.mp h
    rw [List.flatten_cons, meets_append]
    rintro (h | h | ⟨hcloses, hopens⟩)
    · exact hks' h
    · exact ih hkss h
    · have hopens' : x.opens = true := (flatten fun ks hks => (hkss ks hks).1).opens hopens
      simp [hks.closes hcloses, hopens'] at hx

/-- Where the parts of a right side are apart, parentheses do not meet in what it stands for. By
recursion on the right side. The tests look at the ends of neighbours only, and the ends are bounds
that hold of every text. -/
theorem Spelled.apart {N : Nonterminal → Edges} {L : Nonterminal → List Kind → Prop}
    (hL : ∀ n ks, L n ks → (N n).Bound ks ∧ ¬ Meets ks) :
    ∀ {a : Ebnf} {ks : List Kind}, a.apart N → a.Spelled Eq L ks →
      (a.edges N).Bound ks ∧ ¬ Meets ks
  | .empty, _, _, h => by
    obtain rfl := h
    exact ⟨⟨fun _ => rfl, by simp, by simp⟩, not_meets_nil⟩
  | .token k, _, _, h => by
    obtain ⟨_, rfl, rfl⟩ := h
    refine ⟨⟨by simp, by simp [edges], by simp [edges]⟩, ?_⟩
    simp [meets_cons, not_meets_nil]
  | .rule n, ks, _, h => hL n ks h
  | .seq a b, _, hapart, h => by
    obtain ⟨us, vs, rfl, ha, hb⟩ := h
    simp only [Ebnf.apart, Bool.and_eq_true, Bool.not_eq_true'] at hapart
    obtain ⟨hus, hus'⟩ := Spelled.apart hL hapart.1.1 ha
    obtain ⟨hvs, hvs'⟩ := Spelled.apart hL hapart.1.2 hb
    refine ⟨hus.append hvs, ?_⟩
    -- Where the two parts touch, the test that they are apart has looked at their ends.
    rw [meets_append]
    rintro (h | h | ⟨hcloses, hopens⟩)
    · exact hus' h
    · exact hvs' h
    · simp [hus.closes hcloses, hvs.opens hopens] at hapart
  | .either a b, _, hapart, h => by
    simp only [Ebnf.apart, Bool.and_eq_true] at hapart
    rcases h with h | h
    · obtain ⟨hks, hks'⟩ := Spelled.apart hL hapart.1 h
      refine ⟨⟨fun h => ?_, fun h => ?_, fun h => ?_⟩, hks'⟩
      · simp [edges, hks.vanishes h]
      · simp [edges, hks.opens h]
      · simp [edges, hks.closes h]
    · obtain ⟨hks, hks'⟩ := Spelled.apart hL hapart.2 h
      refine ⟨⟨fun h => ?_, fun h => ?_, fun h => ?_⟩, hks'⟩
      · simp [edges, hks.vanishes h]
      · simp [edges, hks.opens h]
      · simp [edges, hks.closes h]
  | .maybe a, _, hapart, h => by
    rcases h with rfl | h
    · exact ⟨⟨fun _ => rfl, by simp, by simp⟩, not_meets_nil⟩
    · obtain ⟨hks, hks'⟩ := Spelled.apart (a := a) hL hapart h
      exact ⟨⟨fun _ => rfl, hks.opens, hks.closes⟩, hks'⟩
  | .many a, _, hapart, h => by
    obtain ⟨kss, rfl, hall⟩ := h
    simp only [Ebnf.apart, Bool.and_eq_true, Bool.not_eq_true'] at hapart
    have hparts := fun ks hks => Spelled.apart hL hapart.1 (hall ks hks)
    refine ⟨.flatten fun ks hks => (hparts ks hks).1, Edges.Bound.not_meets_flatten ?_ hparts⟩
    exact Bool.and_eq_false_iff.mp hapart.2

/-- The ends of the documented texts: only an expression may start or end with a parenthesis. -/
def documentedEdges : Nonterminal → Edges
  | .program => ⟨true, false, false⟩
  | .expr => ⟨false, true, true⟩
  | .statement | .type | .callee => ⟨false, false, false⟩

/-- In a documented text parentheses do not meet. Every right side is tested once, and the tests are
about bounds that hold of whatever the rules derive. -/
theorem Derives.not_meets {n : Nonterminal} {ks : List Kind} (h : Derives documented (.rule n) ks) :
    ¬ Meets ks := by
  have hedges : ∀ n, (documented n).edges documentedEdges = documentedEdges n ∧
      (documented n).apart documentedEdges := by
    intro n
    cases n <;> decide
  refine (h.mem (L := fun n ks => (documentedEdges n).Bound ks ∧ ¬ Meets ks) ?_).2
  intro n ks hks
  obtain ⟨hn, hapart⟩ := hedges n
  rw [← hn]
  exact hks.apart (fun _ _ h => h) hapart

/-! ## From one grammar to the other -/

/-- Parentheses that do not meet in a text do not meet in its parts. So a text without a call of a
group can be derived without one. -/
theorem Spelled.restrict {L M : Nonterminal → List Kind → Prop}
    (h : ∀ n ks, L n ks → ¬ Meets ks → M n ks) :
    ∀ {a : Ebnf} {ks : List Kind}, a.Spelled Eq L ks → ¬ Meets ks → a.Spelled Eq M ks
  | .empty, _, hks, _ => hks
  | .token _, _, hks, _ => hks
  | .rule n, ks, hks, hmeets => h n ks hks hmeets
  | .seq a b, _, hks, hmeets => by
    obtain ⟨us, vs, rfl, ha, hb⟩ := hks
    rw [meets_append, not_or, not_or] at hmeets
    exact ⟨us, vs, rfl, Spelled.restrict h ha hmeets.1, Spelled.restrict h hb hmeets.2.1⟩
  | .either a b, _, hks, hmeets =>
    hks.imp (fun ha => Spelled.restrict h ha hmeets) fun hb => Spelled.restrict h hb hmeets
  | .maybe a, _, hks, hmeets => hks.imp id fun ha => Spelled.restrict h ha hmeets
  | .many a, _, hks, hmeets => by
    obtain ⟨kss, rfl, hall⟩ := hks
    refine ⟨kss, rfl, fun ks hks => Spelled.restrict h (hall ks hks) ?_⟩
    obtain ⟨before, behind, rfl⟩ := List.append_of_mem hks
    rw [List.flatten_append, List.flatten_cons, meets_append, meets_append] at hmeets
    tauto

/-- Every documented text is one that the reader follows. -/
theorem Derives.lenient {n : Nonterminal} {ks : List Kind} (h : Derives documented (.rule n) ks) :
    Derives lenient (.rule n) ks := by
  refine h.mem (L := fun n => Derives Pulse.lenient (.rule n)) fun n ks hks => .rule ?_
  cases n with
  | callee => exact .left (of_spelled hks)
  | program | statement | type | expr => exact of_spelled hks

/-- The documented languages, but for what is called: that is a name, or ends with a parenthesis. -/
def Tight : Nonterminal → List Kind → Prop
  | .callee, ks => ks = [.identifier] ∨ ks.getLast? = some .closeParen
  | n, ks => Derives documented (.rule n) ks

/-- In a text without parentheses that meet, all parts are documented ones. What is called is a name
there, since parentheses around it would meet those of its arguments. -/
theorem tight_of_lenient {n : Nonterminal} {ks : List Kind} (h : Derives Pulse.lenient (.rule n) ks)
    (hmeets : ¬ Meets ks) : Tight n ks := by
  refine h.mem (L := fun n ks => ¬ Meets ks → Tight n ks) (fun n ks hks hmeets => ?_) hmeets
  have hks' : (Pulse.lenient n).Spelled Eq Tight ks := hks.restrict (fun _ _ h => h) hmeets
  -- Only calls and what is called differ between the two grammars.
  cases n with
  | program | statement | type => exact .rule (Derives.of_spelled hks')
  | callee =>
    rcases hks' with ⟨_, rfl, rfl⟩ | ⟨_, _, rfl, -, _, _, rfl, -, _, _, rfl, ⟨_, rfl, rfl⟩, rfl⟩
    · exact .inl rfl
    · exact .inr (by simp)
  | expr =>
    refine .rule (Derives.of_spelled ?_)
    rcases hks' with h | h | ⟨us, vs, rfl, hcallee, hvs⟩ | h
    · exact .inl h
    · exact .inr (.inl h)
    · rcases hcallee with rfl | hlast
      · exact .inr (.inr (.inl ⟨_, vs, rfl, .rule (.token _), hvs⟩))
      · -- What is called ends with a parenthesis, and the arguments start with one.
        obtain ⟨_, _, rfl, ⟨_, rfl, rfl⟩, -⟩ := hvs
        rw [meets_append] at hmeets
        exact absurd (.inr (.inr ⟨hlast, rfl⟩)) hmeets
    · exact .inr (.inr (.inr h))

/-- **The documented texts are those of the wider grammar in which no closing parenthesis has an
opening one right behind it.** -/
theorem derives_documented_iff {ks : List Kind} :
    Derives documented (.rule .program) ks ↔
      Derives Pulse.lenient (.rule .program) ks ∧ ¬ [.closeParen, .openParen] <:+: ks :=
  ⟨fun h => ⟨h.lenient, h.not_meets⟩, fun h => tight_of_lenient h.1 h.2⟩

end Ebnf

end Pulse

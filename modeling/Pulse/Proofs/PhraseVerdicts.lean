/-
What the readers of the language settle on.

Every reader of the standard grammar settles on tokens that the rules of the language derive, or on
an error behind tokens that can still be gone on with to such tokens. The grammar is nowhere in the
readers, only tables of forms; it comes out of them reader by reader, along the right sides of the
rules.

Expressions need one thing more. Whether something can be called is read off its tree, so a tree
that is a name has to come with the tokens of a name, and of parentheses around it.
-/
import Pulse.Proofs.LanguageRules
import Pulse.Proofs.Verdicts

set_option autoImplicit false

namespace Pulse

open Ebnf

/-! ## Phrases and their openings -/

/-- A kind and a text that stand for a number, if the kind is one of numbers. -/
def Legible (k : Kind) (text : String) : Prop :=
  match k with
  | .integer => (Number.readInteger? text.toList).isSome
  | .float => (Number.readDecimal? text.toList).isSome
  | _ => True

/-- A token that stands for a number, if it is one of numbers. -/
def Token.Legible (u : Token) : Prop := Pulse.Legible u.kind u.value

/-- The kinds of tokens that can be passed whatever their text. -/
def Kind.isPlain : Kind → Bool
  | .eof | .integer | .float => false
  | _ => true

/-- The end of input is never passed. -/
theorem Kind.ne_eof_of_isPlain {k : Kind} (h : k.isPlain) : k ≠ .eof := by
  rintro rfl
  cases h

/-- A token that can be passed whatever its text stands for no number. -/
theorem legible_of_isPlain {u : Token} (h : u.kind.isPlain) : u.Legible := by
  rw [Token.Legible]
  generalize u.kind = k at h
  cases k with
  | eof | integer | float => cases h
  | _ => trivial

/-- Tokens that a right side derives. -/
structure Phrase (a : Ebnf) (us : List Token) : Prop where
  derives : Derives lenient a (us.map Token.kind)
  legible : ∀ u ∈ us, u.Legible

/-- Tokens that can be gone on with to such tokens. -/
structure Opening (a : Ebnf) (us : List Token) : Prop where
  derives : ∃ ks, Derives lenient a (us.map Token.kind ++ ks)
  legible : ∀ u ∈ us, u.Legible

/-- A name is a type, an expression and something to call. -/
theorem derives_name {n : Nonterminal} (hn : n ∈ [Nonterminal.type, .expr, .callee]) :
    Derives lenient (.rule n) [.identifier] := by
  refine .rule ?_
  simp only [List.mem_cons, List.not_mem_nil, or_false] at hn
  rcases hn with rfl | rfl | rfl
  · exact .token _
  · exact .right (.left (.token _))
  · exact .left (.token _)

/-- Every right side derives something. So whatever has been read so far can be gone on with. By
recursion on the right side, with the shortest alternative for each rule. -/
theorem exists_derives : ∀ a : Ebnf, ∃ ks, Derives lenient a ks
  | .empty => ⟨_, .empty⟩
  | .token k => ⟨_, .token k⟩
  | .rule .program => ⟨_, .rule .done⟩
  | .rule .statement =>
    ⟨_, .rule (.right (.right (.right (.left
      (.cons (.cons (.seq (derives_name (by decide)) (.cons .empty))))))))⟩
  | .rule .type => ⟨_, derives_name (by decide)⟩
  | .rule .expr => ⟨_, derives_name (by decide)⟩
  | .rule .callee => ⟨_, derives_name (by decide)⟩
  | .seq a b => by
    obtain ⟨us, hus⟩ := exists_derives a
    obtain ⟨vs, hvs⟩ := exists_derives b
    exact ⟨us ++ vs, .seq hus hvs⟩
  | .either a _ => by
    obtain ⟨us, hus⟩ := exists_derives a
    exact ⟨us, .left hus⟩
  | .maybe _ => ⟨_, .absent⟩
  | .many _ => ⟨_, .done⟩

section Phrases

variable {a b : Ebnf} {us vs : List Token}

/-- A phrase is an opening of itself. -/
theorem Phrase.opening (h : Phrase a us) : Opening a us :=
  ⟨⟨[], by rw [List.append_nil]; exact h.derives⟩, h.legible⟩

/-- Everything opens with nothing. -/
theorem opening_nil (a : Ebnf) : Opening a [] := by
  obtain ⟨ks, hks⟩ := exists_derives a
  exact ⟨⟨ks, hks⟩, by simp⟩

/-- A phrase of one right side is a phrase of a wider one. -/
theorem Phrase.mono (h : Phrase a us)
    (hab : ∀ ks, Derives lenient a ks → Derives lenient b ks) : Phrase b us :=
  ⟨hab _ h.derives, h.legible⟩

/-- An opening of one right side is an opening of a wider one. -/
theorem Opening.mono (h : Opening a us)
    (hab : ∀ ks, Derives lenient a ks → Derives lenient b ks) : Opening b us := by
  obtain ⟨ks, hks⟩ := h.derives
  exact ⟨⟨ks, hab _ hks⟩, h.legible⟩

/-- Two phrases, one behind the other. -/
theorem Phrase.seq (ha : Phrase a us) (hb : Phrase b vs) : Phrase (.seq a b) (us ++ vs) := by
  refine ⟨?_, List.forall_mem_append.mpr ⟨ha.legible, hb.legible⟩⟩
  rw [List.map_append]
  exact .seq ha.derives hb.derives

/-- A phrase and an opening behind it. -/
theorem Phrase.seq_opening (ha : Phrase a us) (hb : Opening b vs) :
    Opening (.seq a b) (us ++ vs) := by
  obtain ⟨ks, hks⟩ := hb.derives
  refine ⟨⟨ks, ?_⟩, List.forall_mem_append.mpr ⟨ha.legible, hb.legible⟩⟩
  rw [List.map_append, List.append_assoc]
  exact .seq ha.derives hks

/-- An opening of the first part opens the whole. -/
theorem Opening.seq (ha : Opening a us) (b : Ebnf) : Opening (.seq a b) us := by
  obtain ⟨ks, hks⟩ := ha.derives
  obtain ⟨ls, hls⟩ := exists_derives b
  refine ⟨⟨ks ++ ls, ?_⟩, ha.legible⟩
  rw [← List.append_assoc]
  exact .seq hks hls

/-- A token that stands for what it says is a phrase of its kind. -/
theorem phrase_token {u : Token} {k : Kind} (hkind : u.kind = k) (h : u.Legible) :
    Phrase (.token k) [u] := by
  refine ⟨?_, List.forall_mem_singleton.mpr h⟩
  rw [List.map_singleton, hkind]
  exact .token k

/-- No tokens are a phrase of the empty right side. -/
theorem phrase_empty : Phrase .empty [] := ⟨.empty, by simp⟩

/-- What starts with a token is not empty. -/
theorem Phrase.ne_nil {k : Kind} (h : Phrase (.seq (.token k) b) us) : us ≠ [] := by
  rintro rfl
  obtain ⟨_, _, hks, htoken, -⟩ := derives_seq.mp h.derives
  rw [derives_token.mp htoken] at hks
  cases hks

end Phrases

/-! ## Readers of phrases -/

namespace Reader

variable {ι α β : Type}

/-- Readers that settle on a phrase, with a value of a kind, or on an error behind an opening of
one. -/
def Reads (r : ι → Reader α) (room : ι → Nat) (a : Ebnf) (V : α → Prop) (t : Tape) : Prop :=
  Decides r room (fun v us => Phrase a us ∧ V v) (Opening a) t

section Reads

variable {r : ι → Reader α} {f : ι → α → Reader β} {room : ι → Nat} {a b : Ebnf} {V : α → Prop}
  {W : β → Prop} {t : Tape} {k : Kind} {message : String}

/-- A reader of one right side is a reader of a wider one. -/
theorem Reads.mono (h : Reads r room a V t)
    (hab : ∀ ks, Derives lenient a ks → Derives lenient b ks) : Reads r room b V t :=
  Decides.imp h (fun _ _ h => ⟨h.1.mono hab, h.2⟩) fun _ h => h.mono hab

/-- A reader may be replaced by another one that is the same where there is room. -/
theorem Reads.cover {κ : Type} {r' : κ → Reader α} {room' : κ → Nat} (h : Reads r' room' a V t)
    (hcover : ∀ i, 0 < room i → ∃ j, r i = r' j ∧ room i ≤ room' j) : Reads r room a V t :=
  Decides.cover h hcover

/-- One reader behind the other reads a sequence. The second one has the room that the first one
leaves. -/
theorem Reads.bind (hr : Reads r room a V t) (hends : t.Ends)
    (hf : ∀ v us t', V v → Phrase a us → t'.Ends → t'.rest.length + us.length = t.rest.length →
      Reads (fun i => f i v) (fun i => room i - us.length) b W t') :
    Reads (fun i => r i >>= f i) room (.seq a b) W t := by
  refine Decides.bind hr hends (fun us h => h.seq b) fun v us t' hv hends' hlength => ?_
  refine Decides.imp (hf v us t' hv.2 hv.1 hends' hlength) ?_ ?_
  · exact fun w vs h => ⟨hv.1.seq h.1, h.2⟩
  · exact fun vs h => hv.1.seq_opening h

/-- A reader that reads nothing reads the empty right side. -/
theorem reads_pure {v : α} (h : V v) : Reads (fun _ => (pure v : Reader α)) room .empty V t :=
  decides_pure ⟨phrase_empty, h⟩

/-- A token of a known kind that is passed. It is the first token of a sequence, so what is read
behind it is read along the rest of the sequence. -/
theorem reads_advance {f : ι → Token → Reader β} (hkind : t.kind = k) (hk : k.isPlain)
    (hends : t.Ends)
    (hf : t.advance.Ends → t.advance.rest.length + 1 = t.rest.length →
      Reads (fun i => f i t.current) (fun i => room i - 1) b W t.advance) :
    Reads (fun i => advance >>= f i) room (.seq (.token k) b) W t := by
  subst hkind
  have hne : t.kind ≠ .eof := Kind.ne_eof_of_isPlain hk
  have hphrase : Phrase (.token t.kind) [t.current] := phrase_token rfl (legible_of_isPlain hk)
  have hthen := hf hends.advance (Tape.length_advance hne (hends.rest_ne_nil hne))
  refine decides_advance hends hne ?_
  exact Decides.imp hthen (fun _ _ h => ⟨hphrase.seq h.1, h.2⟩) fun _ h => hphrase.seq_opening h

/-- A token that is passed if it is of a kind. If it is not, then nothing has been passed, and
nothing is the opening of everything. -/
theorem reads_checked (hends : t.Ends) (hk : k.isPlain)
    (hr : Decides r room (fun _ us => ∃ u, us = [u] ∧ u.kind = k) (· = []) t)
    (hf : ∀ v t', t'.Ends → t'.rest.length + 1 = t.rest.length →
      Reads (fun i => f i v) (fun i => room i - 1) b W t') :
    Reads (fun i => r i >>= f i) room (.seq (.token k) b) W t := by
  refine Decides.bind hr hends ?_ ?_
  · rintro _ rfl
    exact opening_nil _
  · rintro v _ t' ⟨u, rfl, rfl⟩ hends' hlength
    have hphrase : Phrase (.token u.kind) [u] := phrase_token rfl (legible_of_isPlain hk)
    refine Decides.imp (hf v t' hends' hlength) ?_ ?_
    · exact fun _ _ h => ⟨hphrase.seq h.1, h.2⟩
    · exact fun _ h => hphrase.seq_opening h

/-- A token that is expected is passed, or the reader fails in front of it. -/
theorem reads_expect {f : ι → Token → Reader β} (hends : t.Ends) (hk : k.isPlain)
    (hf : ∀ u t', t'.Ends → t'.rest.length + 1 = t.rest.length →
      Reads (fun i => f i u) (fun i => room i - 1) b W t') :
    Reads (fun i => expect k >>= f i) room (.seq (.token k) b) W t :=
  reads_checked hends hk ((decides_expect hends (Kind.ne_eof_of_isPlain hk)).imp
    (fun u _ h => ⟨u, h⟩) fun _ h => h) hf

/-- The same with a word on what was expected. -/
theorem reads_expectWhere {f : ι → Token → Reader β} (hends : t.Ends) (hk : k.isPlain)
    (hf : ∀ u t', t'.Ends → t'.rest.length + 1 = t.rest.length →
      Reads (fun i => f i u) (fun i => room i - 1) b W t') :
    Reads (fun i => expectWhere k message >>= f i) room (.seq (.token k) b) W t :=
  reads_checked hends hk ((decides_expectWhere hends (Kind.ne_eof_of_isPlain hk)).imp
    (fun u _ h => ⟨u, h⟩) fun _ h => h) hf

end Reads

end Reader

open Reader Grammar

/-! ## Heads of expressions -/

/-- Tokens of an expression; and of something to call, if the tree is a name. -/
structure ExprPhrase (e : Expr Span) (us : List Token) : Prop where
  phrase : Phrase (.rule .expr) us
  callee : ∀ span x, e = .read span x → Phrase (.rule .callee) us

section Expressions

variable {ι : Type} {room : ι → Nat} {t : Tape} {e : Expr Span} {us : List Token}

/-- Where the tree is no name, the tokens need only be those of an expression. -/
theorem ExprPhrase.of_ne (h : Phrase (.rule .expr) us) (hne : ∀ span x, e ≠ .read span x) :
    ExprPhrase e us :=
  ⟨h, fun span x he => absurd he (hne span x)⟩

/-- A token that is an expression by itself is passed. -/
theorem decides_accept {P : Expr Span → List Token → Prop} {Q : List Token → Prop} (hends : t.Ends)
    (hkind : t.kind ≠ .eof) (h : P e [t.current]) :
    Decides (fun _ : ι => Reader.accept e) room P Q t :=
  decides_advance hends hkind (decides_pure h)

/-- The token of a literal is an expression. -/
theorem decides_literal {v : Literal} {Q : List Token → Prop} (hends : t.Ends)
    (hkind : t.kind ∈ [Kind.integer, .float, .char, .bool]) (h : t.current.Legible) :
    Decides (fun _ : ι => Reader.accept (.literal t.current.span v)) room ExprPhrase Q t := by
  have hne : t.kind ≠ .eof := by
    intro heof
    rw [heof] at hkind
    revert hkind
    decide
  refine decides_accept hends hne (.of_ne ⟨?_, List.forall_mem_singleton.mpr h⟩ (by simp))
  exact .rule (.left (.anyToken hkind))

/-- Tokens that are expressions by themselves. Numbers that cannot be read are refused, and other
kinds are unexpected. -/
theorem readPrimary_decides (hends : t.Ends) :
    Decides (fun _ : ι => readPrimary) room ExprPhrase (Opening (.rule .expr)) t := by
  refine decides_current ?_
  have hopening : Opening (.rule .expr) [] := opening_nil _
  -- One case for each kind of token; most of them are no expressions.
  cases hkind : t.current.kind with
  | integer =>
    cases hread : Number.readInteger? t.current.value.toList with
    | none => exact decides_fail (fun _ _ => rfl) rfl hopening
    | some v =>
      refine decides_literal hends (by simp [Tape.kind, hkind]) ?_
      simp [Token.Legible, Legible, hkind, hread]
  | float =>
    cases hread : Number.readDecimal? t.current.value.toList with
    | none => exact decides_fail (fun _ _ => rfl) rfl hopening
    | some v =>
      refine decides_literal hends (by simp [Tape.kind, hkind]) ?_
      simp [Token.Legible, Legible, hkind, hread]
  | char | bool =>
    refine decides_literal hends (by simp [Tape.kind, hkind]) ?_
    exact legible_of_isPlain (by rw [hkind]; rfl)
  | identifier =>
    have hne : t.kind ≠ .eof := by
      rw [Tape.kind, hkind]
      decide
    have hname : ∀ n ∈ [Nonterminal.type, .expr, .callee], Phrase (.rule n) [t.current] := by
      intro n hn
      refine ⟨?_, List.forall_mem_singleton.mpr (legible_of_isPlain (by rw [hkind]; rfl))⟩
      rw [List.map_singleton, hkind]
      exact derives_name hn
    exact decides_accept hends hne ⟨hname _ (by decide), fun _ _ _ => hname _ (by decide)⟩
  | _ => exact decides_unexpected hopening

/-- Every expression on a tape with fewer tokens than `m` is settled on, above every power. -/
def ExprDecided (m : Nat) : Prop :=
  ∀ (t : Tape) (floor : Power), t.Ends → t.rest.length < m →
    Decides (fun n => standard.expr n floor) (fun n => n) ExprPhrase (Opening (.rule .expr)) t

/-- The same for readers that have fuel enough. -/
theorem ExprDecided.at {m : Nat} (hm : ExprDecided m) {fuel : ι → Nat} (floor : Power)
    (hends : t.Ends) (hlt : t.rest.length < m) (hroom : ∀ i, room i ≤ fuel i) :
    Decides (fun i => standard.expr (fuel i) floor) room ExprPhrase (Opening (.rule .expr)) t :=
  (hm t floor hends hlt).cover fun i _ => ⟨fuel i, rfl, hroom i⟩

/-- Expressions are read as phrases, whatever their trees. -/
theorem ExprDecided.reads {m : Nat} (hm : ExprDecided m) {fuel : ι → Nat} (floor : Power)
    (hends : t.Ends) (hlt : t.rest.length < m) (hroom : ∀ i, room i ≤ fuel i) :
    Reads (fun i => standard.expr (fuel i) floor) room (.rule .expr) (fun _ => True) t :=
  (hm.at floor hends hlt hroom).imp (fun _ _ h => ⟨h.phrase, trivial⟩) fun _ h => h

/-- A tree that is no name. -/
def NoName (e : Expr Span) : Prop := ∀ span x, e ≠ .read span x

/-- A phrase that is an expression by itself. Its tree is no name, so nothing is to be called. -/
theorem Reader.Reads.alone {r : ι → Reader (Expr Span)} {a : Ebnf} (h : Reads r room a NoName t)
    (ha : ∀ ks, Derives lenient a ks → Derives lenient (.rule .expr) ks) :
    Decides r room ExprPhrase (Opening (.rule .expr)) t :=
  Decides.imp h (fun _ _ h => .of_ne (h.1.mono ha) h.2) fun _ h => h.mono ha

variable {m : Nat} {fuel : ι → Nat}

/-- An operator and its operand. It is an alternative of the rule for expressions, for each of the
three operators. -/
theorem readUnary_decides (hm : ExprDecided m) (hends : t.Ends) (hle : t.rest.length ≤ m)
    (hkind : t.kind ∈ [Kind.plus, .dash, .not]) (hroom : ∀ i, room i ≤ fuel i + 1) :
    Decides (fun i => readUnary (standard.expr (fuel i))) room ExprPhrase (Opening (.rule .expr))
      t := by
  obtain ⟨hplain, op, hop⟩ : t.kind.isPlain ∧ ∃ op, UnaryOp.ofKind? t.current.kind = some op := by
    simp only [List.mem_cons, List.not_mem_nil, or_false] at hkind
    rcases hkind with h | h | h <;> rw [← Tape.kind, h] <;> exact ⟨rfl, _, rfl⟩
  have hreads : Reads (fun i => readUnary (standard.expr (fuel i))) room
      (.seq (.token t.kind) (.seq (.rule .expr) .empty)) NoName t := by
    refine reads_advance rfl hplain hends fun hends' hlength => ?_
    simp only [hop]
    refine (hm.reads .unary hends' (by omega) fun i => ?_).bind hends' ?_
    · have := hroom i
      omega
    · exact fun _ _ _ _ _ _ _ => reads_pure (by simp [NoName])
  refine hreads.alone fun ks hks => .rule (.right (.right (.right (.right (.left ?_)))))
  obtain ⟨_, vs, rfl, htoken, hvs⟩ := derives_seq.mp hks
  rw [derives_token.mp htoken]
  exact .seq (.anyToken hkind) hvs

/-- In parentheses an expression is one, and what can be called can be called. -/
theorem derives_group {n : Nonterminal} (hn : n ∈ [Nonterminal.expr, .callee]) {ks : List Kind}
    (h : Derives lenient (all [.token .openParen, .rule n, .token .closeParen]) ks) :
    Derives lenient (.rule n) ks := by
  refine .rule ?_
  simp only [List.mem_cons, List.not_mem_nil, or_false] at hn
  rcases hn with rfl | rfl
  · exact .right (.right (.right (.left h)))
  · exact .right h

/-- An expression in parentheses. A name stays one, and can be called as such. Where the parenthesis
is not closed, what has been read is the opening of a group. -/
theorem readGroup_decides (hm : ExprDecided m) (hends : t.Ends) (hle : t.rest.length ≤ m)
    (hkind : t.kind = .openParen) (hroom : ∀ i, room i ≤ fuel i + 1) :
    Decides (fun i => readGroup (standard.expr (fuel i))) room ExprPhrase (Opening (.rule .expr))
      t := by
  have hne : t.kind ≠ .eof := by
    rw [hkind]
    decide
  have hlength := Tape.length_advance hne (hends.rest_ne_nil hne)
  have hopen : Phrase (.token .openParen) [t.current] :=
    phrase_token hkind (legible_of_isPlain (by rw [← Tape.kind, hkind]; rfl))
  refine decides_advance hends hne (Decides.bind (hm.at .default hends.advance (by omega) ?_)
    hends.advance ?_ ?_)
  · intro i
    have := hroom i
    omega
  · intro us hus
    exact (hopen.seq_opening (hus.seq _)).mono fun _ => derives_group (by decide)
  · intro e us t' he hends' _
    refine Decides.bind (decides_expectWhere hends' (by decide)) hends' ?_ ?_
    · rintro _ rfl
      have hinner := he.phrase.seq_opening (opening_nil (all [.token .closeParen]))
      exact (hopen.seq_opening hinner).mono fun _ => derives_group (by decide)
    · rintro u _ t'' ⟨rfl, hu⟩ - -
      have hclose : Phrase (.token .closeParen) [u] :=
        phrase_token hu (legible_of_isPlain (by rw [hu]; rfl))
      have hgroup : ∀ n ∈ [Nonterminal.expr, .callee], Phrase (.rule n) us →
          Phrase (.rule n) (t.current :: (us ++ [u])) := by
        intro n hn hus
        exact (hopen.seq (hus.seq (hclose.seq phrase_empty))).mono fun _ => derives_group hn
      exact decides_pure ⟨hgroup _ (by decide) he.phrase,
        fun span x hread => hgroup _ (by decide) (he.callee span x hread)⟩

/-- The head of an expression. -/
theorem readHead_decides (hm : ExprDecided m) (hends : t.Ends) (hle : t.rest.length ≤ m)
    (hroom : ∀ i, room i ≤ fuel i + 1) :
    Decides (fun i => standard.readHead (standard.expr (fuel i))) room ExprPhrase
      (Opening (.rule .expr)) t := by
  refine decides_kind ?_
  cases hkind : t.kind with
  | integer | float | char | bool | identifier => exact readPrimary_decides hends
  | plus | dash | not => exact readUnary_decides hm hends hle (by simp [hkind]) hroom
  | openParen => exact readGroup_decides hm hends hle hkind hroom
  | _ => exact decides_unexpectedWhere (opening_nil _)

/-! ## Tails of expressions -/

/-- One part, and maybe others behind a comma, are parts with commas between them. The reader takes
the first part and then asks for a comma, and the rules repeat a comma with a part behind it; this
is what ties the two. -/
theorem derives_commas {a : Ebnf} {ks : List Kind}
    (h : Derives lenient (.seq a (.maybe (.seq (.token .comma) (.seq (commas a) .empty)))) ks) :
    Derives lenient (commas a) ks := by
  obtain ⟨us, _, rfl, hus, h⟩ := derives_seq.mp h
  refine .seq hus ?_
  cases h with
  | absent => exact .seq .done .empty
  | present h =>
    obtain ⟨_, _, rfl, hcomma, h⟩ := derives_seq.mp h
    obtain ⟨_, _, rfl, hothers, hnil⟩ := derives_seq.mp h
    obtain ⟨vs, ws, rfl, hvs, hws⟩ := derives_seq.mp hothers
    obtain ⟨ws, _, rfl, hws, hnil'⟩ := derives_seq.mp hws
    rw [derives_empty.mp hnil, derives_empty.mp hnil']
    have hpart : Derives lenient (all [.token .comma, a]) (_ ++ (vs ++ [])) :=
      .seq hcomma (.seq hvs .empty)
    have hmore : Derives lenient (all [.many (all [.token .comma, a])]) _ :=
      .seq (.more hpart hws) .empty
    simpa only [List.append_nil, List.append_assoc] using hmore

/-- What may be absent derives the empty text. -/
theorem derives_absent {a : Ebnf} {ks : List Kind} (h : Derives lenient .empty ks) :
    Derives lenient (.maybe a) ks := by
  rw [derives_empty.mp h]
  exact .absent

/-- Arguments are read one by one, by induction on the tokens that are left. The fuel is for the
depth of arguments and for their number, so the room is the smaller of the two. -/
theorem readArguments_reads (hm : ExprDecided m) :
    ∀ (n : Nat) (t : Tape), t.rest.length = n → n < m → t.Ends →
      Reads (fun i : Nat × Nat => readArguments (standard.expr i.1) i.2) (fun i => min i.1 i.2)
        (commas (.rule .expr)) (fun _ => True) t := by
  intro n
  induction n using Nat.strongRecOn with
  | ind n ih =>
    intro t hn hlt hends
    -- The case of no fuel has no room, so one can be taken off.
    have hstep : Reads (fun i : Nat × Nat => readArguments (standard.expr i.1) (i.2 + 1))
        (fun i => min i.1 (i.2 + 1)) (commas (.rule .expr)) (fun _ => True) t := by
      refine Reads.mono (Reads.bind (hm.reads .default hends (by omega) fun i => ?_) hends ?_)
        fun _ => derives_commas
      · exact Nat.min_le_left ..
      · intro first us t' _ _ hends' hlength
        refine decides_kind ?_
        by_cases hkind : t'.kind = .comma
        · simp only [if_pos hkind]
          refine Reads.mono (reads_advance hkind rfl hends' fun hends'' hlength' => ?_)
            fun _ => .present
          have hothers := ih t'.advance.rest.length (by omega) t'.advance rfl (by omega) hends''
          refine Reads.bind (hothers.cover fun i _ => ⟨i, rfl, by omega⟩) hends'' ?_
          exact fun _ _ _ _ _ _ _ => reads_pure trivial
        · simp only [if_neg hkind]
          exact Reads.mono (reads_pure trivial) fun _ => derives_absent
    refine hstep.cover fun i hi => ⟨(i.1, i.2 - 1), ?_, by omega⟩
    dsimp only
    rw [Nat.sub_add_cancel (by omega)]

/-- What may be there derives what it derives when it is there. -/
theorem derives_maybe {a b : Ebnf} {ks : List Kind} (h : Derives lenient (.seq a b) ks) :
    Derives lenient (.seq (.maybe a) b) ks := by
  obtain ⟨us, vs, rfl, ha, hb⟩ := derives_seq.mp h
  exact .seq (.present ha) hb

/-- Without it, only the rest is derived. -/
theorem derives_without {a b : Ebnf} {ks : List Kind} (h : Derives lenient b ks) :
    Derives lenient (.seq (.maybe a) b) ks :=
  .seq .absent h

/-- The arguments of a call. An empty list is told by the closing parenthesis, which no argument
starts with. -/
theorem readCall_reads (hm : ExprDecided m) (hends : t.Ends) (hle : t.rest.length ≤ m)
    (hkind : t.kind = .openParen) (span : Span) (x : String) :
    Reads (fun i : Nat × Nat => readCall (standard.expr i.1) i.2 (.read span x))
      (fun i => min i.1 i.2 + 1)
      (all [.token .openParen, .maybe (commas (.rule .expr)), .token .closeParen]) NoName t := by
  refine reads_advance hkind rfl hends fun hends' hlength => decides_kind ?_
  by_cases hclose : t.advance.kind = .closeParen
  · simp only [if_pos hclose]
    refine Reads.mono (reads_expectWhere hends' rfl fun _ _ _ _ => ?_) fun _ => derives_without
    exact decides_spanFrom (reads_pure (by simp [NoName]))
  · simp only [if_neg hclose]
    have harguments := readArguments_reads hm _ t.advance rfl (by omega) hends'
    refine Reads.mono (Reads.bind (harguments.cover fun i _ => ⟨i, rfl, by omega⟩) hends' ?_)
      fun _ => derives_maybe
    intro arguments us t' _ _ hends'' _
    refine reads_expectWhere hends'' rfl fun _ _ _ _ => ?_
    exact decides_spanFrom (reads_pure (by simp [NoName]))

/-- An operator and its second operand. Which operators bind tighter is not asked here: the rules
for accepted texts do not tell powers apart. -/
theorem readBinary_reads (hm : ExprDecided m) (hends : t.Ends) (hle : t.rest.length ≤ m)
    (hplain : t.kind.isPlain) {op : BinaryOp} (hop : BinaryOp.ofKind? t.kind = some op)
    (left : Expr Span) (power : Power) (hroom : ∀ i, room i ≤ fuel i + 1) :
    Reads (fun i => readBinary (standard.expr (fuel i)) left power) room
      (all [.token t.kind, .rule .expr]) NoName t := by
  have hop' : BinaryOp.ofKind? t.current.kind = some op := hop
  refine reads_advance rfl hplain hends fun hends' hlength => ?_
  simp only [hop']
  refine (hm.reads power hends' (by omega) fun i => ?_).bind hends' ?_
  · have := hroom i
    omega
  · exact fun _ _ _ _ _ _ _ => reads_pure (by simp [NoName])

/-- A phrase that starts with a token and makes an expression of the tokens in front of it. -/
theorem Reader.Reads.behind {r : ι → Reader (Expr Span)} {a b : Ebnf} {k : Kind}
    (h : Reads r room (.seq (.token k) a) NoName t) (hb : Phrase b us)
    (hab : ∀ ks, Derives lenient (.seq b (.seq (.token k) a)) ks →
      Derives lenient (.rule .expr) ks) :
    Decides r room (fun e vs => ExprPhrase e (us ++ vs) ∧ vs ≠ [])
      (fun vs => Opening (.rule .expr) (us ++ vs)) t :=
  Decides.imp h (fun _ _ h => ⟨.of_ne ((hb.seq h.1).mono hab) h.2, h.1.ne_nil⟩)
    fun _ h => (hb.seq_opening h).mono hab

/-- Whatever goes on with an expression, but for a call, is an operator. -/
theorem operator_of_tail? {k : Kind} {form : TailForm} {power : Power}
    (h : standard.tail? k = some (form, power)) (hk : k ≠ .openParen) :
    form = .binary ∧ k.isPlain ∧ (∃ op, BinaryOp.ofKind? k = some op) ∧
      k ∈ [Kind.plus, .dash, .star, .slash, .less, .lessEquals, .greater, .greaterEquals, .equals,
        .notEquals, .and, .or] := by
  cases k with
  | plus | dash | star | slash | less | lessEquals | greater | greaterEquals | equals | notEquals
    | and | or =>
    cases h
    exact ⟨rfl, rfl, ⟨_, rfl⟩, by decide⟩
  | openParen => exact absurd rfl hk
  | _ => cases h

/-- A tail behind an expression. A tail passes at least one token, and the rules take it together
with the expression in front of it. -/
theorem tail_decides (hm : ExprDecided m) (hends : t.Ends) (hle : t.rest.length ≤ m)
    {form : TailForm} {power : Power} (htail : standard.tail? t.kind = some (form, power))
    {left : Expr Span} (hleft : ExprPhrase left us) :
    Decides (fun i : Nat × Nat => form.read (standard.expr i.1) i.2 left power)
      (fun i => min i.1 i.2 + 1) (fun e vs => ExprPhrase e (us ++ vs) ∧ vs ≠ [])
      (fun vs => Opening (.rule .expr) (us ++ vs)) t := by
  -- A parenthesis calls what stands in front of it, if that is a name. All other tails are
  -- operators.
  by_cases hparen : t.kind = .openParen
  · rw [hparen] at htail
    cases htail
    cases left with
    | read span x =>
      refine (readCall_reads hm hends hle hparen span x).behind (hleft.callee span x rfl) ?_
      exact fun ks hks => .rule (.right (.right (.left hks)))
    | literal | binary | unary | call =>
      refine decides_unexpectedWhere ?_
      rw [List.append_nil]
      exact hleft.phrase.opening
  · obtain ⟨rfl, hplain, ⟨op, hop⟩, hmem⟩ := operator_of_tail? htail hparen
    have hreads : Reads (fun i : Nat × Nat => readBinary (standard.expr i.1) left power)
        (fun i => min i.1 i.2 + 1) (all [.token t.kind, .rule .expr]) NoName t :=
      readBinary_reads hm hends hle hplain hop left power fun i => by omega
    refine hreads.behind hleft.phrase fun ks hks => ?_
    refine .rule (.right (.right (.right (.right (.right ?_)))))
    obtain ⟨vs, _, rfl, hvs, hks⟩ := derives_seq.mp hks
    obtain ⟨_, ws, rfl, htoken, hws⟩ := derives_seq.mp hks
    rw [derives_token.mp htoken]
    exact .seq hvs (.seq (.anyToken hmem) hws)

/-- All tails behind an expression. By induction on the tokens that are left, of which every tail
takes some. -/
theorem readTails_decides (hm : ExprDecided m) (floor : Power) :
    ∀ (n : Nat) (t : Tape) (left : Expr Span) (us : List Token), t.rest.length = n → n ≤ m →
      t.Ends → ExprPhrase left us →
      Decides (fun i : Nat × Nat => standard.readTails (standard.expr i.1) floor i.2 left)
        (fun i => min (i.1 + 1) i.2) (fun e vs => ExprPhrase e (us ++ vs))
        (fun vs => Opening (.rule .expr) (us ++ vs)) t := by
  intro n
  induction n using Nat.strongRecOn with
  | ind n ih =>
    intro t left us hn hle hends hleft
    have hstep : Decides
        (fun i : Nat × Nat => standard.readTails (standard.expr i.1) floor (i.2 + 1) left)
        (fun i => min i.1 i.2 + 1) (fun e vs => ExprPhrase e (us ++ vs))
        (fun vs => Opening (.rule .expr) (us ++ vs)) t := by
      have hnone : ExprPhrase left (us ++ []) := by
        rw [List.append_nil]
        exact hleft
      -- The next kind tells whether there is another tail.
      refine decides_kind ?_
      cases htail : standard.tail? t.kind with
      | none => exact decides_pure hnone
      | some tail =>
        obtain ⟨form, power⟩ := tail
        by_cases hlt : floor < power
        · simp only [if_pos hlt]
          refine Decides.bind (tail_decides hm hends (by omega) htail hleft) hends
            (fun _ h => h) ?_
          rintro e vs t' ⟨he, hne⟩ hends' hlength
          have hpos := List.length_pos_of_ne_nil hne
          have htails := ih t'.rest.length (by omega) t' e (us ++ vs) rfl (by omega) hends' he
          simp only [List.append_assoc] at htails
          exact htails.cover fun i _ => ⟨i, rfl, by omega⟩
        · simp only [if_neg hlt]
          exact decides_pure hnone
    refine hstep.cover fun i hi => ⟨(i.1, i.2 - 1), ?_, by omega⟩
    dsimp only
    rw [Nat.sub_add_cancel (by omega)]

/-! ## Expressions -/

/-- **Every reader of expressions settles on an expression, or fails behind the opening of one.** By
induction on the tokens that are left. So an error is at the first token with which what was read is
not the beginning of any expression. -/
theorem expr_decided (m : Nat) : ExprDecided m := by
  induction m with
  | zero =>
    intro t floor _ hlt
    omega
  | succ m ih =>
    intro t floor hends hlt
    have hstep : Decides (fun n => standard.expr (n + 1) floor) (fun n => n + 1) ExprPhrase
        (Opening (.rule .expr)) t := by
      refine Decides.bind (readHead_decides ih hends (by omega) fun n => Nat.le_refl (n + 1)) hends
        (fun _ h => h) ?_
      intro left us t' hleft hends' hlength
      have htails := readTails_decides ih floor _ t' left us rfl (by omega) hends' hleft
      exact htails.cover fun n _ => ⟨(n, n + 1), rfl, by omega⟩
    exact hstep.cover fun n hn => ⟨n - 1, by rw [Nat.sub_add_cancel hn], by omega⟩

/-- **Expressions are read**, with any fuel that is enough. There has to be as much fuel as there is
room. -/
theorem reads_expr {floor : Power} (hends : t.Ends) (hroom : ∀ i, room i ≤ fuel i) :
    Reads (fun i => standard.expr (fuel i) floor) room (.rule .expr) (fun _ => True) t :=
  (expr_decided (t.rest.length + 1)).reads floor hends (Nat.lt_succ_self _) hroom

end Expressions

end Pulse

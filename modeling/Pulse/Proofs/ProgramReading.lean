/-
Reading programs back.

Every statement is recognised by its first word, and what follows is settled word by word, except
in two places: whether a branch has an `else`, and whether a block goes on. Both are decided by the
next word, and no statement starts with an `else` or with a closing brace.
-/
import Pulse.Proofs.ExprReading

set_option autoImplicit false

namespace Pulse

open Reader Grammar
open Number (Binary64)

/-! ## Parts of statements -/

section Parts

variable {β : Type} {w : Word} {ws : List Word} {next : Kind → Prop} {Q : β → Prop} {x : String}

/-- A name is read back from its word. -/
theorem takes_name {f : String → Reader β} {message : String} (hf : (f x).Takes ws next Q) :
    (readName message >>= f).Takes (.name x :: ws) next Q := by
  have hname : (readName message).Takes [.name x] (fun _ => True) (· = x) :=
    takes_expectWhere rfl fun u hu => takes_pure (hu.2 rfl)
  refine hname.bind (fun _ _ _ _ => trivial) ?_
  rintro y rfl
  exact hf

/-- A type is read back from its word. -/
theorem takes_type {f : TypeName → Reader β}
    (hf : ∀ type : TypeName, type.name = x → (f type).Takes ws next Q) :
    (readType >>= f).Takes (.name x :: ws) next Q := by
  have htype : readType.Takes [.name x] (fun _ => True) (·.name = x) :=
    takes_expectWhere rfl fun u hu => takes_pure (hu.2 rfl)
  exact htype.bind (fun _ _ _ _ => trivial) hf

/-- Without their spans, types are told by their names. -/
theorem TypeName.bare_of_name {t u : TypeName} (h : t.name = u.name) : t.bare = u.bare := by
  rw [TypeName.bare, h, TypeName.bare]

/-- Parameters are read back one by one. By induction on the parameters behind the first one, with a
comma in front of each. -/
theorem readParams_takes {ps : List Param} {p : Param} {fuel : Nat} (hfuel : ps.length < fuel) :
    (readParams fuel).Takes (Param.wordsOf (p :: ps)) (· = .closeParen)
      (·.map Param.bare = (p :: ps).map Param.bare) := by
  induction ps generalizing p fuel with
  | nil =>
    obtain ⟨fuel, rfl⟩ : ∃ m, fuel = m + 1 := ⟨fuel - 1, by omega⟩
    refine takes_ask fun _ => takes_name (takes_type fun type htype => takes_ask fun t => ?_)
    refine takes_kind (leads_nil fun k hk => hk) ?_
    rintro k rfl
    rw [if_neg (by decide)]
    refine takes_pure ?_
    simp only [List.map_cons, List.map_nil, Param.bare, TypeName.bare_of_name htype]
  | cons q ps ih =>
    obtain ⟨fuel, rfl⟩ : ∃ m, fuel = m + 1 := ⟨fuel - 1, by omega⟩
    have hothers : (readParams fuel).Takes (Param.wordsOf (q :: ps)) _ _ :=
      ih (Nat.lt_of_succ_lt_succ hfuel)
    refine takes_ask fun _ => takes_name (takes_type fun type htype => takes_ask fun t => ?_)
    refine takes_firstKind (k := .comma) rfl ?_
    rw [if_pos rfl]
    refine takes_advance fun _ _ => hothers.last (fun k hk => hk) fun others hbare => ?_
    refine takes_pure ?_
    rw [List.map_cons, hbare]
    simp only [List.map_cons, Param.bare, TypeName.bare_of_name htype]

/-- Every parameter has a word. -/
theorem length_le_paramWords (ps : List Param) : ps.length ≤ (Param.wordsOf ps).length := by
  have hmore : ∀ ps : List Param, ps.length ≤ (Param.moreWords ps).length := by
    intro ps
    induction ps with
    | nil => exact Nat.zero_le _
    | cons p ps ih =>
      rw [Param.moreWords, List.length_cons, List.length_cons, List.length_append]
      omega
  cases ps with
  | nil => exact Nat.zero_le _
  | cons p ps =>
    have hothers := hmore ps
    rw [Param.wordsOf, Param.words, List.length_cons, List.length_append, List.length_cons]
    omega

/-- Whether there are parameters is settled by the first word. -/
theorem takes_params {ps : List Param} {fuel : Nat} (hfuel : ps.length ≤ fuel)
    {f : List Param → Reader β}
    (hf : ∀ ps', ps'.map Param.bare = ps.map Param.bare →
      (f ps').Takes (.mark .closeParen :: ws) next Q) :
    Takes (do
      let params ← if (← Reader.kind) = .closeParen then pure [] else readParams fuel
      f params) (Param.wordsOf ps ++ .mark .closeParen :: ws) next Q := by
  cases ps with
  | nil =>
    refine takes_firstKind (k := .closeParen) rfl ?_
    rw [if_pos rfl]
    exact takes_pure_bind (hf [] rfl)
  | cons p ps =>
    refine takes_firstKind (k := .identifier) rfl ?_
    rw [if_neg (by decide)]
    exact (readParams_takes hfuel).bind (leads_cons rfl) hf

end Parts

/-! ## Statements -/

namespace Stmt

variable (spell : Binary64 → String)

/-- A statement that is read back from its words. -/
def Readable (s : Stmt) : Prop :=
  ∀ n, (s.words spell).length ≤ n + 1 →
    (standard.stmt (n + 1)).Takes (s.words spell) (· ≠ .kwElse) (·.bare = s.bare)

/-- A statement starts with what can start one. So a statement is never taken for the end of a
block. -/
theorem exists_first (s : Stmt) :
    ∃ w ws, s.words spell = w :: ws ∧ standard.stmt? w.kind ≠ none := by
  cases s with
  | var n x type value =>
    cases value with
    | none =>
      rw [words]
      exact ⟨_, _, rfl, Option.some_ne_none _⟩
    | some value =>
      rw [words]
      exact ⟨_, _, rfl, Option.some_ne_none _⟩
  | _ =>
    rw [words]
    exact ⟨_, _, rfl, Option.some_ne_none _⟩

/-- Every statement has a word. -/
theorem length_le_wordsOf (ss : List Stmt) : ss.length ≤ (wordsOf spell ss).length := by
  induction ss with
  | nil => exact Nat.zero_le _
  | cons s ss ih =>
    obtain ⟨w, ws, hws, -⟩ := s.exists_first spell
    rw [wordsOf, List.length_cons, List.length_append, hws, List.length_cons]
    omega

end Stmt

section Stmts

variable {spell : Binary64 → String} {n : Nat} {ss : List Stmt}

/-- No statement starts with what ends a block, a program or the first block of a branch. -/
theorem ne_of_stmt? {k : Kind} (h : standard.stmt? k ≠ none) :
    k ≠ .closeCurly ∧ k ≠ .eof ∧ k ≠ .kwElse := by
  refine ⟨?_, ?_, ?_⟩
  all_goals
    rintro rfl
    exact h rfl

/-- Statements do not start with `else`. -/
theorem leads_wordsOf (ss : List Stmt) {next : Kind → Prop} (hnext : ∀ k, next k → k ≠ .kwElse) :
    Leads (Stmt.wordsOf spell ss) next (· ≠ .kwElse) := by
  cases ss with
  | nil => exact leads_nil hnext
  | cons s ss =>
    obtain ⟨w, ws, hws, hw⟩ := s.exists_first spell
    rw [Stmt.wordsOf, hws]
    exact leads_cons (ne_of_stmt? hw).2.2

/-- Statements are read back one by one, up to a token that starts none. The next word tells whether
there is another one. -/
theorem readStmtsUntil_takes {stop : Kind → Bool} (hstop : ∀ k, standard.stmt? k ≠ none → ¬ stop k)
    (hss : ∀ s ∈ ss, s.Readable spell) {fuel : Nat} (hfuel : ss.length < fuel)
    (hn : (Stmt.wordsOf spell ss).length ≤ n) :
    (readStmtsUntil stop (standard.stmt n) fuel).Takes (Stmt.wordsOf spell ss)
      (fun k => stop k ∧ k ≠ .kwElse) (Stmt.bareOf · = Stmt.bareOf ss) := by
  induction ss generalizing fuel with
  | nil =>
    obtain ⟨fuel, rfl⟩ : ∃ m, fuel = m + 1 := ⟨fuel - 1, by omega⟩
    rw [Stmt.wordsOf]
    refine takes_kind (leads_nil fun k hk => hk) fun k hk => ?_
    rw [if_pos hk.1]
    exact takes_pure rfl
  | cons s ss ih =>
    obtain ⟨fuel, rfl⟩ : ∃ m, fuel = m + 1 := ⟨fuel - 1, by omega⟩
    obtain ⟨w, ws, hws, hw⟩ := s.exists_first spell
    rw [Stmt.wordsOf] at hn ⊢
    rw [List.length_append, hws, List.length_cons] at hn
    -- The first word starts a statement, so reading does not stop in front of it.
    have hlead : Leads (s.words spell ++ Stmt.wordsOf spell ss) (fun k => stop k ∧ k ≠ .kwElse)
        (¬ stop ·) := by
      rw [hws]
      exact leads_cons (hstop _ hw)
    refine takes_kind hlead fun k hk => ?_
    rw [if_neg hk]
    obtain ⟨n, rfl⟩ : ∃ m, n = m + 1 := ⟨n - 1, by omega⟩
    have hfirst := hss s List.mem_cons_self n (by rw [hws, List.length_cons]; omega)
    have hothers := ih (fun s hs => hss s (List.mem_cons_of_mem _ hs))
      (Nat.lt_of_succ_lt_succ hfuel) (by omega)
    refine hfirst.bind (leads_wordsOf ss fun k hk => hk.2) fun s' hs' => ?_
    refine hothers.last (fun k hk => hk) fun ss' hss' => takes_pure ?_
    rw [Stmt.bareOf, hs', hss', Stmt.bareOf]

/-- So is a block. Its closing brace starts no statement, and it is no `else`, which a branch at the
end of the block would go on with. -/
theorem readBlock_takes (hss : ∀ s ∈ ss, s.Readable spell)
    (hn : (braces (Stmt.wordsOf spell ss)).length ≤ n) (next : Kind → Prop) :
    (readBlock (standard.stmt n) n).Takes (braces (Stmt.wordsOf spell ss)) next
      (Stmt.bareOf · = Stmt.bareOf ss) := by
  have hcount := Stmt.length_le_wordsOf spell ss
  simp only [braces, List.length_cons, List.length_append, List.length_nil] at hn
  have hstop : ∀ k, standard.stmt? k ≠ none → ¬ (k = Kind.closeCurly || k = .eof) := by
    intro k hk
    simp [ne_of_stmt? hk]
  refine takes_expectWhere rfl fun _ _ => ?_
  have hbody : (readStmtsUntil _ (standard.stmt n) n).Takes _ _ _ :=
    readStmtsUntil_takes hstop hss (by omega) (by omega)
  refine hbody.bind (leads_cons ⟨rfl, by decide⟩) fun body hbare => ?_
  exact takes_expectWhere rfl fun _ _ => takes_pure hbare

/-- The form of a statement is settled by its first word. -/
theorem takes_stmt {form : StmtForm} {w : Word} {ws : List Word} {next : Kind → Prop}
    {P : Stmt → Prop} (hform : standard.stmt? w.kind = some form)
    (h : (form.read (standard.expr n) (readBlock (standard.stmt n) n) n).Takes (w :: ws) next P) :
    (standard.stmt (n + 1)).Takes (w :: ws) next P := by
  refine takes_firstKind rfl ?_
  rw [hform]
  exact h

/-- A value and a semicolon, which many statements end with. -/
theorem takes_value {e : Expr Span} (he : e.Readable spell) (hn : (e.words spell).length ≤ n)
    {next : Kind → Prop} {start : Position} {g : Span → Expr Span → Stmt} {P : Stmt → Prop}
    (hg : ∀ span e', e'.bare = e.bare → P (g span e')) :
    (do
      let value ← standard.expr n .default
      let _ ← Reader.expect .semicolon
      return g (← Reader.spanFrom start) value : Reader Stmt).Takes
      (e.words spell ++ [.mark .semicolon]) next P := by
  refine he.before hn rfl fun e' he' => takes_expect rfl fun _ _ => ?_
  exact takes_ask fun t => takes_pure (hg _ e' he')

/-- A block that a statement ends with. -/
theorem takes_lastBlock (hss : ∀ s ∈ ss, s.Readable spell)
    (hn : (braces (Stmt.wordsOf spell ss)).length ≤ n) {next : Kind → Prop} {start : Position}
    {g : Span → List Stmt → Stmt} {P : Stmt → Prop}
    (hg : ∀ span ss', Stmt.bareOf ss' = Stmt.bareOf ss → P (g span ss')) :
    (do
      let body ← readBlock (standard.stmt n) n
      return g (← Reader.spanFrom start) body : Reader Stmt).Takes
      (braces (Stmt.wordsOf spell ss)) next P := by
  refine (readBlock_takes hss hn fun _ => True).last (fun _ _ => trivial) fun ss' hss' => ?_
  exact takes_ask fun t => takes_pure (hg _ ss' hss')

end Stmts

/-! ## The forms of statements -/

namespace Stmt.Readable

variable {spell : Binary64 → String} {e : Expr Span} {body whenTrue whenFalse : List Stmt}

/-- A `print` is read back when its expression is. -/
theorem print (he : e.Readable spell) (span : Span) : (Stmt.print span e).Readable spell := by
  intro n hlen
  rw [words] at hlen ⊢
  simp only [List.length_cons, List.length_append, List.length_nil] at hlen
  refine takes_stmt rfl (takes_advance fun u hu => takes_expect rfl fun _ _ => ?_)
  refine he.before (by omega) rfl fun e' he' => ?_
  refine takes_expect rfl fun _ _ => takes_expect rfl fun _ _ => takes_ask fun t => takes_pure ?_
  rw [bare, he', bare]

/-- A variable without a value is read back: the semicolon tells that there is none. -/
theorem var (span : Span) (x : String) (type : TypeName) :
    (Stmt.var span x type none).Readable spell := by
  intro n hlen
  rw [words]
  refine takes_stmt rfl (takes_advance fun u hu => takes_name (takes_type fun type' htype => ?_))
  refine takes_firstKind (k := .semicolon) rfl ?_
  rw [if_neg (by decide)]
  refine takes_expect rfl fun _ _ => takes_ask fun t => takes_pure ?_
  rw [bare, TypeName.bare_of_name htype, bare]

/-- A variable with a value is read back when its value is. -/
theorem varWith (he : e.Readable spell) (span : Span) (x : String) (type : TypeName) :
    (Stmt.var span x type (some e)).Readable spell := by
  intro n hlen
  rw [words] at hlen ⊢
  simp only [List.length_cons, List.length_append, List.length_nil] at hlen
  refine takes_stmt rfl (takes_advance fun u hu => takes_name (takes_type fun type' htype => ?_))
  refine takes_firstKind (k := .assignment) rfl ?_
  rw [if_pos rfl]
  refine takes_advance fun _ _ => he.before (by omega) rfl fun e' he' => ?_
  refine takes_pure_bind (takes_expect rfl fun _ _ => takes_ask fun t => takes_pure ?_)
  rw [bare, TypeName.bare_of_name htype, Option.map_some, he', bare, Option.map_some]

/-- A constant is read back when its value is. -/
theorem const (he : e.Readable spell) (span : Span) (x : String) :
    (Stmt.const span x e).Readable spell := by
  intro n hlen
  rw [words] at hlen ⊢
  simp only [List.length_cons, List.length_append, List.length_nil] at hlen
  refine takes_stmt rfl (takes_advance fun u hu => takes_name ?_)
  refine takes_expectWhere rfl fun _ _ => takes_value he (by omega) fun span e' he' => ?_
  rw [bare, he', bare]

/-- An assignment is read back when its value is. -/
theorem write (he : e.Readable spell) (span : Span) (x : String) :
    (Stmt.write span x e).Readable spell := by
  intro n hlen
  rw [words] at hlen ⊢
  simp only [List.length_cons, List.length_append, List.length_nil] at hlen
  refine takes_stmt rfl (takes_advance fun u hu => takes_expectWhere rfl fun _ _ => ?_)
  refine takes_value he (by omega) fun span e' he' => ?_
  have hname : u.value = x := hu.2 rfl
  rw [hname, bare, he', bare]

/-- The word behind the first block settles whether there is a second one. Where there is none,
anything but `else` may follow the statement, and this is what a block makes sure of for its
statements. -/
theorem branch (he : e.Readable spell) (htrue : ∀ s ∈ whenTrue, s.Readable spell)
    (hfalse : ∀ s ∈ whenFalse, s.Readable spell) (span : Span) :
    (Stmt.branch span e whenTrue whenFalse).Readable spell := by
  intro n hlen
  rw [words] at hlen ⊢
  simp only [List.length_cons, List.length_append] at hlen
  refine takes_stmt rfl (takes_advance fun u hu => he.before (by omega) rfl fun e' he' => ?_)
  refine (readBlock_takes htrue (by omega) fun _ => True).bind (fun _ _ _ _ => trivial)
    fun whenTrue' hbare => ?_
  cases whenFalse with
  | nil =>
    rw [List.isEmpty_nil, if_pos rfl]
    refine takes_kind (leads_nil fun k hk => hk) fun k hk => ?_
    rw [if_neg hk]
    refine takes_pure_bind (takes_ask fun t => takes_pure ?_)
    rw [bare, he', hbare, bare]
  | cons s ss =>
    rw [List.isEmpty_cons, if_neg Bool.false_ne_true] at hlen ⊢
    rw [List.length_cons] at hlen
    refine takes_firstKind (k := .kwElse) rfl ?_
    rw [if_pos rfl]
    refine takes_advance fun _ _ => takes_lastBlock hfalse (by omega) fun span ss' hbare' => ?_
    rw [bare, he', hbare, hbare', bare]

/-- A loop is read back when its condition and its body are. -/
theorem loop (he : e.Readable spell) (hbody : ∀ s ∈ body, s.Readable spell) (span : Span) :
    (Stmt.loop span e body).Readable spell := by
  intro n hlen
  rw [words] at hlen ⊢
  simp only [List.length_cons, List.length_append] at hlen
  refine takes_stmt rfl (takes_advance fun u hu => he.before (by omega) rfl fun e' he' => ?_)
  refine takes_lastBlock hbody (by omega) fun span body' hbare => ?_
  rw [bare, he', hbare, bare]

/-- A function is read back when its body is. -/
theorem function (hbody : ∀ s ∈ body, s.Readable spell) (span : Span) (f : String)
    (params : List Param) (returns : TypeName) :
    (Stmt.function span f params returns body).Readable spell := by
  intro n hlen
  rw [words] at hlen ⊢
  simp only [List.length_cons, List.length_append] at hlen
  have hcount := length_le_paramWords params
  refine takes_stmt rfl (takes_advance fun u hu => takes_name (takes_expect rfl fun _ _ => ?_))
  refine takes_params (by omega) fun params' hparams => takes_expectWhere rfl fun _ _ => ?_
  refine takes_type fun returns' hreturns => ?_
  refine takes_lastBlock hbody (by omega) fun span body' hbare => ?_
  rw [bare, hparams, TypeName.bare_of_name hreturns, hbare, bare]

/-- A `return` is read back when its value is. -/
theorem ret (he : e.Readable spell) (span : Span) : (Stmt.ret span e).Readable spell := by
  intro n hlen
  rw [words] at hlen ⊢
  simp only [List.length_cons, List.length_append, List.length_nil] at hlen
  refine takes_stmt rfl (takes_advance fun u hu => ?_)
  refine takes_value he (by omega) fun span e' he' => ?_
  rw [bare, he', bare]

end Stmt.Readable

namespace Stmt

variable {spell : Binary64 → String}

mutual

/-- **Every statement whose literals can be written is read back from its words.** By recursion on
the statement, one lemma for each form. Blocks are read back when their statements are. -/
theorem readable : ∀ (s : Stmt), (∀ v ∈ s.literals, v.Writable spell) → s.Readable spell
  | print span e, h => by
    rw [literals] at h
    exact .print (e.readable h) span
  | var span x type none, _ => .var span x type
  | var span x type (some e), h => by
    rw [literals] at h
    exact .varWith (e.readable h) span x type
  | const span x e, h => by
    rw [literals] at h
    exact .const (e.readable h) span x
  | write span x e, h => by
    rw [literals] at h
    exact .write (e.readable h) span x
  | branch span e whenTrue whenFalse, h => by
    rw [literals, List.forall_mem_append, List.forall_mem_append] at h
    exact .branch (e.readable h.1) (readableOf whenTrue h.2.1) (readableOf whenFalse h.2.2) span
  | loop span e body, h => by
    rw [literals, List.forall_mem_append] at h
    exact .loop (e.readable h.1) (readableOf body h.2) span
  | function span f params returns body, h => by
    rw [literals] at h
    exact .function (readableOf body h) span f params returns
  | ret span e, h => by
    rw [literals] at h
    exact .ret (e.readable h) span

/-- All statements of a block are read back. -/
theorem readableOf : ∀ (ss : List Stmt), (∀ v ∈ literalsOf ss, v.Writable spell) →
    ∀ s ∈ ss, s.Readable spell
  | [], _ => by simp
  | s :: ss, h => by
    rw [literalsOf, List.forall_mem_append] at h
    exact List.forall_mem_cons.mpr ⟨readable s h.1, readableOf ss h.2⟩

end

end Stmt

/-! ## Programs -/

section Programs

variable {spell : Binary64 → String} {p : Program}

/-- A program is read back from its words, up to the end of input. The end of input is where the
statements stop. -/
theorem program_takes (hp : p.Writable spell) {n : Nat} (hn : (p.words spell).length < n) :
    (standard.program n).Takes (p.words spell) (· = .eof) (·.bare = p.bare) := by
  have hcount := Stmt.length_le_wordsOf spell p.body
  -- No statement starts with the end of input.
  have hstop : ∀ k, standard.stmt? k ≠ none → ¬ (decide (k = Kind.eof) = true) := by
    intro k hk
    simp [ne_of_stmt? hk]
  rw [Program.words] at hn ⊢
  have hbody : (readStmtsUntil _ (standard.stmt n) n).Takes _ _ _ :=
    readStmtsUntil_takes hstop (Stmt.readableOf p.body hp) (by omega) (by omega)
  refine hbody.last ?_ fun body hbare => takes_ask fun t => takes_pure ?_
  · rintro k rfl
    exact ⟨rfl, by decide⟩
  · rw [Program.bare, hbare, Program.bare]

end Programs

/-- **Parsing undoes printing.** Every program whose literals can be written is read back from
tokens that spell its words, wherever these tokens stand in a text, with the end of input behind
them. -/
theorem ofTokens_words (spell : Binary64 → String) (p : Program) (hp : p.Writable spell)
    {tokens : List Token} (htokens : List.Forall₂ Token.Spells tokens (p.words spell))
    {last : Token} (hlast : last.kind = .eof) :
    ∃ q, Program.ofTokens (tokens ++ [last]) = .ok q ∧ q.bare = p.bare := by
  obtain ⟨first, rest, htape⟩ : ∃ first rest, tokens ++ [last] = first :: rest := by
    cases tokens with
    | nil => exact ⟨last, [], rfl⟩
    | cons first rest => exact ⟨first, rest ++ [last], rfl⟩
  obtain ⟨t', hpasses, hcurrent⟩ := Tape.exists_passes htokens
    (t := ⟨first, rest, .origin, false⟩) htape.symm
  have hlength : (p.words spell).length = rest.length := by
    have hall := congrArg List.length htape
    rw [List.length_append, List.length_singleton, List.length_cons] at hall
    rw [← htokens.length_eq]
    omega
  have hread := program_takes hp (n := rest.length + 2) (by omega)
  obtain ⟨q, hq, hbare⟩ := hread _ t' hpasses (by rw [Tape.kind, hcurrent, hlast])
  refine ⟨q, ?_, hbare⟩
  rw [Program.ofTokens, htape]
  simp only [Tape.ofTokens?, Tape.fuel, hq]

/-- The token of a word, in no text. -/
def Word.token (w : Word) : Token := ⟨w.kind, w.text, .nowhere⟩

/-- The token of a word spells it. -/
theorem Word.spells_token (w : Word) : w.token.Spells w := ⟨rfl, fun _ => rfl⟩

/-- Operands on either side that need parentheses, and some that do not. -/
def nesting : Program :=
  let read (x : String) : Expr Span := .read .nowhere x
  let sub (a b : Expr Span) : Expr Span := .binary .nowhere (.arith .sub) a b
  let mul (a b : Expr Span) : Expr Span := .binary .nowhere (.arith .mul) a b
  let half : Expr Span := .literal .nowhere (.float ⟨0x3fe0000000000000⟩)
  let minus (a : Expr Span) : Expr Span := .unary .nowhere .minus a
  { span := .nowhere
    body := [
      .print .nowhere (sub (sub (read "a") (read "b")) (sub (read "c") (mul half (read "d")))),
      .branch .nowhere (read "e") [] [],
      .branch .nowhere (read "e") []
        [.write .nowhere "x" (mul (minus (read "a")) (minus (sub (read "b") (read "c"))))]] }

/-- A program with operands in parentheses, an arm without statements and a float, read back from
the tokens of its words. -/
theorem nesting_read_back : nesting.Writable (fun _ => "0.5") ∧
    (nesting.words fun _ => "0.5").map Word.kind = [
      .kwPrint, .openParen, .identifier, .dash, .identifier, .dash, .openParen, .identifier, .dash,
      .float, .star, .identifier, .closeParen, .closeParen, .semicolon,
      .kwIf, .identifier, .openCurly, .closeCurly,
      .kwIf, .identifier, .openCurly, .closeCurly, .kwElse, .openCurly, .identifier, .assignment,
      .dash, .identifier, .star, .dash, .openParen, .identifier, .dash, .identifier, .closeParen,
      .semicolon, .closeCurly] ∧
    ∃ q, Program.ofTokens ((nesting.words fun _ => "0.5").map Word.token ++
      [.endOfInput .nowhere]) = .ok q ∧ q.bare = nesting.bare := by
  have hwritable : nesting.Writable (fun _ => "0.5") := by
    have hliterals : Stmt.literalsOf nesting.body = [.float ⟨0x3fe0000000000000⟩] := rfl
    rw [Program.Writable, hliterals, List.forall_mem_singleton]
    show Number.readDecimal? "0.5".toList = some ⟨0x3fe0000000000000⟩
    decide +kernel
  have hspells : List.Forall₂ Token.Spells ((nesting.words fun _ => "0.5").map Word.token)
      (nesting.words fun _ => "0.5") := by
    rw [List.forall₂_map_left_iff]
    exact List.forall₂_same.mpr fun w _ => w.spells_token
  exact ⟨hwritable, rfl, ofTokens_words _ nesting hwritable hspells rfl⟩

end Pulse

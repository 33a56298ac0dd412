/-
What the readers of statements and programs settle on.

Each form of statement is read along the right side of its rule, token by token. A part that may be
absent is decided by the token in front of it, and so is whether a block or a program goes on.

The last section draws the conclusion for lists of tokens that end with the end of input. Reading
such a list always comes to an end, with a program if the tokens are derived by the rules, or else
with an error. The tokens in front of the error can be gone on with to what the rules derive, and no
token behind it has any part in it.
-/
import Pulse.Proofs.PhraseVerdicts

set_option autoImplicit false

namespace Pulse

open Ebnf Reader Grammar

section Statements

variable {ι β : Type} {room : ι → Nat} {a b : Ebnf} {W : β → Prop} {t : Tape} {m : Nat}

/-! ## Parts of statements -/

/-- Two parts in front of a third one, bracketed to the left or to the right. -/
theorem derives_pair {c : Ebnf} {ks : List Kind} (h : Derives lenient (.seq a (.seq b c)) ks) :
    Derives lenient (.seq (all [a, b]) c) ks := by
  obtain ⟨us, _, rfl, hus, h⟩ := derives_seq.mp h
  obtain ⟨vs, ws, rfl, hvs, hws⟩ := derives_seq.mp h
  have hpair : Derives lenient (all [a, b]) (us ++ (vs ++ [])) := .seq hus (.seq hvs .empty)
  rw [List.append_nil] at hpair
  rw [← List.append_assoc]
  exact .seq hpair hws

/-- A name is passed, or the reader fails in front of it. -/
theorem reads_name {message : String} {f : ι → String → Reader β} (hends : t.Ends)
    (hf : ∀ x t', t'.Ends → t'.rest.length + 1 = t.rest.length →
      Reads (fun i => f i x) (fun i => room i - 1) b W t') :
    Reads (fun i => readName message >>= f i) room (.seq (.token .identifier) b) W t := by
  refine reads_checked hends rfl ?_ hf
  refine Decides.bind (decides_expectWhere hends (by decide)) hends (fun _ h => h) ?_
  rintro u _ t' ⟨rfl, hu⟩ _ _
  exact decides_pure ⟨u, rfl, hu⟩

/-- A type is passed, or the reader fails in front of it. A type is any name here; whether there is
such a type is for the checker to say. -/
theorem reads_type {f : ι → TypeName → Reader β} (hends : t.Ends)
    (hf : ∀ type t', t'.Ends → t'.rest.length + 1 = t.rest.length →
      Reads (fun i => f i type) (fun i => room i - 1) b W t') :
    Reads (fun i => readType >>= f i) room (.seq (.rule .type) b) W t := by
  have hreads : Reads (fun i => readType >>= f i) room (.seq (.token .identifier) b) W t := by
    refine reads_checked hends rfl ?_ hf
    refine Decides.bind (decides_expectWhere hends (by decide)) hends (fun _ h => h) ?_
    rintro u _ t' ⟨rfl, hu⟩ _ _
    exact decides_pure ⟨u, rfl, hu⟩
  refine hreads.mono fun ks hks => ?_
  obtain ⟨_, _, rfl, hname, hb⟩ := derives_seq.mp hks
  exact .seq (.rule hname) hb

/-- One or more parameters. By induction on the tokens that are left; the name and the type of a
parameter are two of them. -/
theorem readParams_reads : ∀ (n : Nat) (t : Tape), t.rest.length = n → t.Ends →
    Reads readParams (fun i => i) (commas (all [.token .identifier, .rule .type])) (fun _ => True)
      t := by
  intro n
  induction n using Nat.strongRecOn with
  | ind n ih =>
    intro t hn hends
    have hstep : Reads (fun i => readParams (i + 1)) (fun i => i + 1)
        (commas (all [.token .identifier, .rule .type])) (fun _ => True) t := by
      refine Reads.mono ?_ fun ks hks => derives_commas (derives_pair hks)
      refine decides_current (reads_name hends fun name t₁ hends₁ _ => ?_)
      refine reads_type hends₁ fun type t₂ hends₂ _ => decides_spanFrom (decides_kind ?_)
      by_cases hkind : t₂.kind = .comma
      · simp only [if_pos hkind]
        refine Reads.mono (reads_advance hkind rfl hends₂ fun hends₃ _ => ?_) fun _ => .present
        have hothers := ih t₂.advance.rest.length (by omega) t₂.advance rfl hends₃
        refine Reads.bind (hothers.cover fun i _ => ⟨i, rfl, by omega⟩) hends₃ ?_
        exact fun _ _ _ _ _ _ _ => reads_pure trivial
      · simp only [if_neg hkind]
        exact Reads.mono (reads_pure trivial) fun _ => derives_absent
    exact hstep.cover fun i hi => ⟨i - 1, by rw [Nat.sub_add_cancel hi], by omega⟩

/-! ## Blocks -/

/-- No statement is empty. -/
theorem Phrase.statement_ne_nil {us : List Token} (h : Phrase (.rule .statement) us) : us ≠ [] := by
  have hne := h.derives.mem (L := fun n ks => n = .statement → ks ≠ []) ?_ rfl
  · simpa using hne
  · rintro n ks hks rfl rfl
    simp [lenient, documented, Spelled, any, all] at hks

/-- No statements are some statements. -/
theorem derives_none {ks : List Kind} (h : Derives lenient .empty ks) :
    Derives lenient (.many a) ks := by
  rw [derives_empty.mp h]
  exact .done

/-- A statement and more statements are some statements. -/
theorem derives_many {ks : List Kind} (h : Derives lenient (.seq a (.seq (.many a) .empty)) ks) :
    Derives lenient (.many a) ks := by
  obtain ⟨us, _, rfl, hus, h⟩ := derives_seq.mp h
  obtain ⟨vs, _, rfl, hvs, hnil⟩ := derives_seq.mp h
  rw [derives_empty.mp hnil, List.append_nil]
  exact .more hus hvs

/-- Every statement on a tape with fewer tokens than `m` is settled on. -/
def StmtDecided (m : Nat) : Prop :=
  ∀ t : Tape, t.Ends → t.rest.length < m →
    Reads standard.stmt (fun n => n) (.rule .statement) (fun _ => True) t

/-- Statements up to a token at which they stop. By induction on the tokens that are left, since no
statement is empty. Whether they stop is asked in front of each one. -/
theorem readStmtsUntil_reads (hm : StmtDecided m) (stop : Kind → Bool) :
    ∀ (n : Nat) (t : Tape), t.rest.length = n → n < m → t.Ends →
      Reads (fun i : Nat × Nat => readStmtsUntil stop (standard.stmt i.1) i.2)
        (fun i => min i.1 i.2) (.many (.rule .statement)) (fun _ => True) t := by
  intro n
  induction n using Nat.strongRecOn with
  | ind n ih =>
    intro t hn hlt hends
    have hstep : Reads (fun i : Nat × Nat => readStmtsUntil stop (standard.stmt i.1) (i.2 + 1))
        (fun i => min i.1 (i.2 + 1)) (.many (.rule .statement)) (fun _ => True) t := by
      refine decides_kind ?_
      by_cases hstop : stop t.kind
      · simp only [if_pos hstop]
        exact Reads.mono (reads_pure trivial) fun _ => derives_none
      · simp only [if_neg hstop]
        refine Reads.mono (Reads.bind ((hm t hends (by omega)).cover
          fun i _ => ⟨i.1, rfl, by omega⟩) hends ?_) fun _ => derives_many
        intro _ us t' _ hus hends' hlength
        have hpos : 0 < us.length := List.length_pos_of_ne_nil hus.statement_ne_nil
        have hothers := ih t'.rest.length (by omega) t' rfl (by omega) hends'
        refine Reads.bind (hothers.cover fun i _ => ⟨i, rfl, by omega⟩) hends' ?_
        exact fun _ _ _ _ _ _ _ => reads_pure trivial
    refine hstep.cover fun i hi => ⟨(i.1, i.2 - 1), ?_, by omega⟩
    dsimp only
    rw [Nat.sub_add_cancel (by omega)]

/-- A block is read along its rule, or fails inside of it. -/
theorem readBlock_reads (hm : StmtDecided m) (hends : t.Ends) (hle : t.rest.length ≤ m)
    {fuel : ι → Nat} (hroom : ∀ i, room i ≤ fuel i) :
    Reads (fun i => readBlock (standard.stmt (fuel i)) (fuel i)) room block (fun _ => True) t := by
  refine reads_expectWhere hends rfl fun _ t' hends' hlength => ?_
  -- Statements end at a closing brace, or at the end of input, where the brace is missed.
  have hbody := readStmtsUntil_reads hm (fun k => k = .closeCurly || k = .eof) _ t' rfl (by omega)
    hends'
  refine Reads.bind (hbody.cover fun i _ => ⟨(fuel i, fuel i), rfl, ?_⟩) hends' ?_
  · have := hroom i
    omega
  · intro _ _ t'' _ _ hends'' _
    exact reads_expectWhere hends'' rfl fun _ _ _ _ => reads_pure trivial

/-! ## Forms of statements

Each reader starts on the first token of its rule. The reader for what stands inside has one token
less of fuel. -/

/-- A value and a semicolon, which many statements end with. -/
theorem reads_value {fuel : ι → Nat} (hends : t.Ends) (hroom : ∀ i, room i ≤ fuel i)
    (g : Span → Expr Span → Stmt) (start : Position) :
    Reads (fun i => do
      let value ← standard.expr (fuel i) .default
      let _ ← Reader.expect .semicolon
      return g (← Reader.spanFrom start) value) room (all [.rule .expr, .token .semicolon])
      (fun _ => True) t := by
  refine (reads_expr hends hroom).bind hends fun _ _ t' _ _ hends' _ => ?_
  refine reads_expect hends' rfl fun _ _ _ _ => ?_
  exact decides_spanFrom (reads_pure trivial)

/-- A `print` is read along its rule. -/
theorem readPrint_reads (hends : t.Ends) (hkind : t.kind = .kwPrint) :
    Reads (fun n => readPrint (standard.expr n)) (fun n => n + 1)
      (all [.token .kwPrint, .token .openParen, .rule .expr, .token .closeParen, .token .semicolon])
      (fun _ => True) t := by
  refine reads_advance hkind rfl hends fun hends₁ _ => ?_
  refine reads_expect hends₁ rfl fun _ t₂ hends₂ _ => ?_
  refine (reads_expr hends₂ fun n => by omega).bind hends₂ fun _ _ t₃ _ _ hends₃ _ => ?_
  refine reads_expect hends₃ rfl fun _ t₄ hends₄ _ => ?_
  refine reads_expect hends₄ rfl fun _ _ _ _ => ?_
  exact decides_spanFrom (reads_pure trivial)

/-- A variable is read along its rule. The token behind the type tells whether there is a value. -/
theorem readVar_reads (hends : t.Ends) (hkind : t.kind = .kwVar) :
    Reads (fun n => readVar (standard.expr n)) (fun n => n + 1)
      (all [.token .kwVar, .token .identifier, .rule .type,
        .maybe (all [.token .assignment, .rule .expr]), .token .semicolon])
      (fun _ => True) t := by
  refine reads_advance hkind rfl hends fun hends₁ _ => ?_
  refine reads_name hends₁ fun _ t₂ hends₂ _ => ?_
  refine reads_type hends₂ fun _ t₃ hends₃ _ => decides_kind ?_
  by_cases hvalue : t₃.kind = .assignment
  · simp only [if_pos hvalue]
    refine Reads.mono ?_ fun ks hks => derives_maybe (derives_pair hks)
    refine reads_advance hvalue rfl hends₃ fun hends₄ _ => ?_
    exact reads_value hends₄ (fun n => by omega) _ _
  · simp only [if_neg hvalue]
    refine Reads.mono (reads_expect hends₃ rfl fun _ _ _ _ => ?_) fun _ => derives_without
    exact decides_spanFrom (reads_pure trivial)

/-- A constant is read along its rule. -/
theorem readConst_reads (hends : t.Ends) (hkind : t.kind = .kwConst) :
    Reads (fun n => readConst (standard.expr n)) (fun n => n + 1)
      (all [.token .kwConst, .token .identifier, .token .assignment, .rule .expr,
        .token .semicolon]) (fun _ => True) t := by
  refine reads_advance hkind rfl hends fun hends₁ _ => ?_
  refine reads_name hends₁ fun _ t₂ hends₂ _ => ?_
  refine reads_expectWhere hends₂ rfl fun _ t₃ hends₃ _ => ?_
  exact reads_value hends₃ (fun n => by omega) _ _

/-- An assignment is read along its rule. -/
theorem readWrite_reads (hends : t.Ends) (hkind : t.kind = .identifier) :
    Reads (fun n => readWrite (standard.expr n)) (fun n => n + 1)
      (all [.token .identifier, .token .assignment, .rule .expr, .token .semicolon])
      (fun _ => True) t := by
  refine reads_advance hkind rfl hends fun hends₁ _ => ?_
  refine reads_expectWhere hends₁ rfl fun _ t₂ hends₂ _ => ?_
  exact reads_value hends₂ (fun n => by omega) _ _

/-- A branch is read along its rule. The token behind the first block tells whether there is a
second one. -/
theorem readBranch_reads (hm : StmtDecided m) (hends : t.Ends) (hle : t.rest.length ≤ m)
    (hkind : t.kind = .kwIf) :
    Reads (fun n => readBranch (standard.expr n) (readBlock (standard.stmt n) n)) (fun n => n + 1)
      (all [.token .kwIf, .rule .expr, block, .maybe (all [.token .kwElse, block])])
      (fun _ => True) t := by
  refine reads_advance hkind rfl hends fun hends₁ _ => ?_
  refine (reads_expr hends₁ fun n => by omega).bind hends₁ fun _ _ t₂ _ _ hends₂ _ => ?_
  refine (readBlock_reads hm hends₂ (by omega) fun n => by omega).bind hends₂ ?_
  intro _ _ t₃ _ _ hends₃ _
  refine decides_kind ?_
  -- Without an `else` nothing is read, and the statement is complete.
  by_cases helse : t₃.kind = .kwElse
  · simp only [if_pos helse]
    refine Reads.mono ?_ fun ks hks => derives_maybe (derives_pair hks)
    refine reads_advance helse rfl hends₃ fun hends₄ _ => ?_
    refine (readBlock_reads hm hends₄ (by omega) fun n => by omega).bind hends₄ ?_
    exact fun _ _ _ _ _ _ _ => decides_spanFrom (reads_pure trivial)
  · simp only [if_neg helse]
    refine Reads.mono (decides_pure_bind ?_) fun _ => derives_without
    exact decides_spanFrom (reads_pure trivial)

/-- A loop is read along its rule. -/
theorem readLoop_reads (hm : StmtDecided m) (hends : t.Ends) (hle : t.rest.length ≤ m)
    (hkind : t.kind = .kwWhile) :
    Reads (fun n => readLoop (standard.expr n) (readBlock (standard.stmt n) n)) (fun n => n + 1)
      (all [.token .kwWhile, .rule .expr, block]) (fun _ => True) t := by
  refine reads_advance hkind rfl hends fun hends₁ _ => ?_
  refine (reads_expr hends₁ fun n => by omega).bind hends₁ fun _ _ t₂ _ _ hends₂ _ => ?_
  refine (readBlock_reads hm hends₂ (by omega) fun n => by omega).bind hends₂ ?_
  exact fun _ _ _ _ _ _ _ => decides_spanFrom (reads_pure trivial)

/-- A function is read along its rule. The token behind the opening parenthesis tells whether there
are parameters. -/
theorem readFunction_reads (hm : StmtDecided m) (hends : t.Ends) (hle : t.rest.length ≤ m)
    (hkind : t.kind = .kwFunction) :
    Reads (fun n => readFunction (readBlock (standard.stmt n) n) n) (fun n => n + 1)
      (all [.token .kwFunction, .token .identifier, .token .openParen,
        .maybe (commas (all [.token .identifier, .rule .type])), .token .closeParen, .rule .type,
        block]) (fun _ => True) t := by
  refine reads_advance hkind rfl hends fun hends₁ _ => ?_
  refine reads_name hends₁ fun f t₂ hends₂ _ => ?_
  refine reads_expect hends₂ rfl fun _ t₃ hends₃ _ => decides_kind ?_
  -- Parameters or not, the rest is read in the same way.
  have hrest : ∀ (params : List Param) (room : Nat → Nat) (t' : Tape), t'.Ends →
      t'.rest.length ≤ t.rest.length → (∀ n, room n ≤ n) →
      Reads (fun n => do
        let _ ← Reader.expectWhere .closeParen "expected `,` or `)` in parameter list"
        let returns ← readType
        let body ← readBlock (standard.stmt n) n
        return Stmt.function (← Reader.spanFrom t.current.span.start) f params returns body) room
        (all [.token .closeParen, .rule .type, block]) (fun _ => True) t' := by
    intro params room t' hends' hle' hroom
    refine reads_expectWhere hends' rfl fun _ t₅ hends₅ _ => ?_
    refine reads_type hends₅ fun _ t₆ hends₆ _ => ?_
    refine (readBlock_reads hm hends₆ (by omega) fun n => ?_).bind hends₆ ?_
    · have := hroom n
      omega
    · exact fun _ _ _ _ _ _ _ => decides_spanFrom (reads_pure trivial)
  by_cases hclose : t₃.kind = .closeParen
  · simp only [if_pos hclose]
    exact Reads.mono (hrest [] _ t₃ hends₃ (by omega) fun n => by omega) fun _ => derives_without
  · simp only [if_neg hclose]
    refine Reads.mono ?_ fun _ => derives_maybe
    have hparams := readParams_reads _ t₃ rfl hends₃
    refine Reads.bind (hparams.cover fun n _ => ⟨n, rfl, by omega⟩) hends₃ ?_
    intro params _ t₄ _ _ hends₄ _
    exact hrest params _ t₄ hends₄ (by omega) fun n => by omega

/-- A `return` is read along its rule. -/
theorem readReturn_reads (hends : t.Ends) (hkind : t.kind = .kwReturn) :
    Reads (fun n => readReturn (standard.expr n)) (fun n => n + 1)
      (all [.token .kwReturn, .rule .expr, .token .semicolon]) (fun _ => True) t := by
  refine reads_advance hkind rfl hends fun hends₁ _ => ?_
  exact reads_value hends₁ (fun n => by omega) _ _

/-- **Every reader of statements settles on a statement, or fails behind the opening of one.** By
induction on the tokens that are left. The forms of statements start with different tokens, so the
first one settles which alternative of the rule is read along. -/
theorem stmt_decided (m : Nat) : StmtDecided m := by
  induction m with
  | zero =>
    intro t _ hlt
    omega
  | succ m ih =>
    intro t hends hlt
    have hle : t.rest.length ≤ m := by omega
    have hstep : Reads (fun n => standard.stmt (n + 1)) (fun n => n + 1) (.rule .statement)
        (fun _ => True) t := by
      refine decides_kind ?_
      -- The first token settles the form; the alternatives are in the order of the rule.
      cases hkind : t.kind with
      | kwPrint => exact (readPrint_reads hends hkind).mono fun _ h => .rule (.left h)
      | kwVar => exact (readVar_reads hends hkind).mono fun _ h => .rule (.right (.left h))
      | kwConst =>
        exact (readConst_reads hends hkind).mono fun _ h => .rule (.right (.right (.left h)))
      | identifier =>
        exact (readWrite_reads hends hkind).mono fun _ h =>
          .rule (.right (.right (.right (.left h))))
      | kwIf =>
        exact (readBranch_reads ih hends hle hkind).mono fun _ h =>
          .rule (.right (.right (.right (.right (.left h)))))
      | kwWhile =>
        exact (readLoop_reads ih hends hle hkind).mono fun _ h =>
          .rule (.right (.right (.right (.right (.right (.left h))))))
      | kwFunction =>
        exact (readFunction_reads ih hends hle hkind).mono fun _ h =>
          .rule (.right (.right (.right (.right (.right (.right (.left h)))))))
      | kwReturn =>
        exact (readReturn_reads hends hkind).mono fun _ h =>
          .rule (.right (.right (.right (.right (.right (.right (.right h)))))))
      | _ => exact decides_unexpectedWhere (opening_nil _)
    exact hstep.cover fun n hn => ⟨n - 1, by rw [Nat.sub_add_cancel hn], by omega⟩

/-! ## Programs -/

/-- **A program is read along its rule**, statement by statement up to the end of input. At the end
of input nothing is left to be read, so the rule has been read as a whole. -/
theorem program_reads (hends : t.Ends) :
    Reads standard.program (fun n => n) (.rule .program) (fun _ => True) t := by
  have hbody := readStmtsUntil_reads (stmt_decided (t.rest.length + 1)) (· = .eof) _ t rfl
    (Nat.lt_succ_self _) hends
  refine Reads.mono (Reads.bind (hbody.cover fun n _ => ⟨(n, n), rfl, by omega⟩) hends
    fun _ _ _ _ _ _ _ => decides_spanFrom (reads_pure trivial)) fun ks hks => ?_
  obtain ⟨us, _, rfl, hus, hnil⟩ := derives_seq.mp hks
  rw [derives_empty.mp hnil, List.append_nil]
  exact .rule hus

end Statements

/-- Statements end at a token at which they stop. The only other end of the rounds is their bound,
and there is no value then. -/
theorem stop_of_readStmtsUntil {stop : Kind → Bool} {stmt : Reader Stmt} {n : Nat} {t t' : Tape}
    {body : List Stmt} (h : readStmtsUntil stop stmt n t = .ok body t') : stop t'.kind := by
  induction n generalizing t body with
  | zero => cases h
  | succ n ih =>
    obtain ⟨k, m, hkind, h⟩ := exists_of_bind_eq_ok h
    cases hkind
    by_cases hstop : stop t.kind
    · rw [if_pos hstop] at h
      cases h
      exact hstop
    · rw [if_neg hstop] at h
      obtain ⟨_, _, -, h⟩ := exists_of_bind_eq_ok h
      obtain ⟨_, _, hothers, h⟩ := exists_of_bind_eq_ok h
      cases h
      exact ih hothers

/-- A program that is read ends at the end of input. -/
theorem kind_of_program {n : Nat} {t t' : Tape} {p : Program}
    (h : standard.program n t = .ok p t') : t'.kind = .eof := by
  obtain ⟨body, m, hbody, h⟩ := exists_of_bind_eq_ok h
  obtain ⟨_, _, hspan, h⟩ := exists_of_bind_eq_ok h
  cases hspan
  cases h
  exact of_decide_eq_true (stop_of_readStmtsUntil hbody)

/-- The tokens up to the end of input. The end of input is on a tape once, so it cuts the tokens in
one way only. -/
theorem eq_of_append_eof {us vs body : List Token} {u last : Token} (hus : ∀ v ∈ us, v.kind ≠ .eof)
    (hbody : ∀ v ∈ body, v.kind ≠ .eof) (hu : u.kind = .eof)
    (h : body ++ [last] = us ++ u :: vs) : us = body := by
  rcases List.append_eq_append_iff.mp h with ⟨ws, rfl, hws⟩ | ⟨ws, rfl, hws⟩
  · cases ws with
    | nil => rw [List.append_nil]
    | cons w ws =>
      -- A single token is left for `w`, `u` and what follows.
      have hlength := congrArg List.length hws
      simp only [List.length_append, List.length_cons, List.length_nil] at hlength
      omega
  · cases ws with
    | nil => rw [List.append_nil]
    | cons w ws =>
      obtain ⟨rfl, -⟩ := List.cons.inj hws
      exact absurd hu (hbody u (by simp))

/-- **Every list of tokens with the end of input as its last token is settled.** Either its tokens
are derived by the rules and make a program, or there is a token at which an error is reported: what
stands in front of it can be gone on with to a program, and whatever stands behind it, the error is
the same. -/
theorem ofTokens_settled {body : List Token} {last : Token} (hbody : ∀ u ∈ body, u.kind ≠ .eof)
    (hlast : last.kind = .eof) :
    ((∃ p, Program.ofTokens (body ++ [last]) = .ok p) ∧ Phrase (.rule .program) body) ∨
      ∃ e us u vs, body ++ [last] = us ++ u :: vs ∧ (∀ v ∈ us, v.kind ≠ .eof) ∧
        Opening (.rule .program) us ∧ e.position = u.span.start ∧
        ∀ rest, Program.ofTokens (us ++ u :: rest) = .error (.invalid e) := by
  obtain ⟨first, rest, htokens⟩ : ∃ first rest, body ++ [last] = first :: rest :=
    List.exists_cons_of_ne_nil (by simp)
  have hends : Tape.Ends ⟨first, rest, .origin, false⟩ :=
    ⟨last, by rw [← htokens]; simp, hlast⟩
  cases program_reads hends with
  | @accepts p us t' h post =>
    left
    have hlength : t'.rest.length + us.length = rest.length := h.passes.length
    have hread := h.again (rest.length + 2) _ _ (by omega) rfl h.passes rfl
    have htape := h.passes.tokens
    rw [← htokens] at htape
    have hus := eq_of_append_eof h.passes.ne_eof hbody (kind_of_program hread) htape
    refine ⟨⟨p, ?_⟩, hus ▸ post.1⟩
    rw [htokens]
    simp only [Program.ofTokens, Tape.ofTokens?, Tape.fuel, hread]
  | @rejects e us t' h pre position =>
    right
    have htape := h.passes.tokens
    rw [← htokens] at htape
    refine ⟨e, us, t'.current, t'.rest, htape, h.passes.ne_eof, pre, position, fun others => ?_⟩
    -- On another tape the same tokens are passed, and then the same token is in view.
    obtain ⟨first', rest', htokens'⟩ : ∃ first rest, us ++ t'.current :: others = first :: rest :=
      List.exists_cons_of_ne_nil (by simp)
    obtain ⟨s', hs', hcurrent⟩ := Tape.exists_shows h.passes.ne_eof
      (t := ⟨first', rest', .origin, false⟩) htokens'.symm
    have hlength : s'.rest.length + us.length = rest'.length := hs'.length
    have hread := h.again (rest'.length + 2) ⟨first', rest', .origin, false⟩ s' (by omega) rfl hs'
      hcurrent
    rw [htokens']
    simp only [Program.ofTokens, Tape.ofTokens?, Tape.fuel, hread]

end Pulse

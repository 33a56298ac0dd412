/-
The front end always comes to an end.

Readers are given readers for what stands inside, and so they are judged by what they do with them.
Two readers agree on a tape if they do the same there, and end, and do not go back. A handler passes
a token before it calls what it is given. So from readers that agree wherever there are fewer tokens
left in front of the end of input, it makes readers that agree. This is all that a recursion needs
to be founded on the number of these tokens: depth is a bound that is never met.
-/
import Pulse.Proofs.ScanRounds
import Pulse.Proofs.Verdicts

set_option autoImplicit false

namespace Pulse

/-! ## Tokens left -/

namespace Tape

variable {t : Tape}

/-- How many tokens are left in front of the end of input. -/
def left (t : Tape) : Nat := ((t.current :: t.rest).takeWhile (·.kind ≠ .eof)).length

/-- Passing a token leaves one less. -/
theorem left_advance (hends : t.Ends) (hkind : t.kind ≠ .eof) : t.advance.left + 1 = t.left := by
  obtain ⟨u, us, hrest⟩ := List.exists_cons_of_ne_nil (hends.rest_ne_nil hkind)
  have hcurrent : t.current.kind ≠ .eof := hkind
  rw [advance_eq hkind hrest, left, left, hrest,
    List.takeWhile_cons_of_pos (a := t.current) (by simpa using hcurrent), List.length_cons]

/-- The depth that a program is read with is above the number of tokens left, whatever the tape is.
So the statements below, which are about such depths, are about the front end. -/
theorem left_lt_fuel (t : Tape) : t.left < t.fuel := by
  have hle := (List.takeWhile_prefix (·.kind ≠ .eof) (l := t.current :: t.rest)).length_le
  rw [List.length_cons] at hle
  rw [left, fuel]
  omega

end Tape

/-! ## Readers that agree -/

/-- Reading from a tape ended, and passed so many tokens if it gave a value. -/
def Outcome.Passes {α : Type} (d : Nat) (t : Tape) : Outcome α → Prop
  | .ok _ t' => t'.Ends ∧ t'.left + d ≤ t.left
  | .error _ _ => True
  | .endless => False

/-- Tokens passed from one tape, counted from another. -/
theorem Outcome.Passes.mono {α : Type} {o : Outcome α} {d e : Nat} {s t : Tape} (h : o.Passes d s)
    (hle : s.left + e ≤ t.left + d) : o.Passes e t := by
  cases o with
  | ok a u =>
    obtain ⟨hends, hu⟩ := h
    exact ⟨hends, by omega⟩
  | error => trivial
  | endless => exact h

namespace Reader

variable {α β γ : Type} {r r' : Reader α} {f f' : α → Reader β} {d e k : Nat} {t : Tape}

/-- Two readers do the same on a tape. They end, and have passed so many tokens when they give a
value. -/
structure AgreeAt (d : Nat) (r r' : Reader α) (t : Tape) : Prop where
  same : r t = r' t
  passes : (r t).Passes d t

/-- Two readers agree wherever there are fewer than `k` tokens left. -/
def AgreeBelow (d k : Nat) (r r' : Reader α) : Prop :=
  ∀ t : Tape, t.Ends → t.left < k → AgreeAt d r r' t

/-- Readers that passed so many tokens passed fewer. -/
theorem AgreeAt.mono (h : AgreeAt d r r' t) (hle : e ≤ d) : AgreeAt e r r' t :=
  ⟨h.same, h.passes.mono (by omega)⟩

theorem AgreeBelow.mono (h : AgreeBelow d k r r') (hle : e ≤ d) : AgreeBelow e k r r' :=
  fun t hends hlt => (h t hends hlt).mono hle

/-- One reader behind the other. The second may count on what the first has passed. An error or an
endless reading of the first one is the outcome of both, and the second of these does not happen. -/
theorem AgreeAt.bind (h : AgreeAt d r r' t)
    (hf : ∀ a s, s.Ends → s.left + d ≤ t.left → AgreeAt 0 (f a) (f' a) s) :
    AgreeAt d (r >>= f) (r' >>= f') t := by
  obtain ⟨hsame, hpasses⟩ := h
  cases hr : r t with
  | ok a s =>
    rw [hr] at hsame hpasses
    have hleft : (r >>= f) t = f a s := by
      show Reader.bind r f t = f a s
      rw [Reader.bind, hr]
    have hright : (r' >>= f') t = f' a s := by
      show Reader.bind r' f' t = f' a s
      rw [Reader.bind, ← hsame]
    obtain ⟨hthen, hmore⟩ := hf a s hpasses.1 hpasses.2
    refine ⟨by rw [hleft, hright, hthen], ?_⟩
    rw [hleft]
    exact hmore.mono hpasses.2
  -- Behind an error nothing is read, so the second readers do not matter.
  | error err s =>
    rw [hr] at hsame
    have hleft : (r >>= f) t = .error err s := by
      show Reader.bind r f t = .error err s
      rw [Reader.bind, hr]
    have hright : (r' >>= f') t = .error err s := by
      show Reader.bind r' f' t = .error err s
      rw [Reader.bind, ← hsame]
    exact ⟨by rw [hleft, hright], by rw [hleft]; trivial⟩
  | endless =>
    rw [hr] at hpasses
    exact hpasses.elim

/-- The same where it does not matter what the first has passed. -/
theorem AgreeAt.andThen (h : AgreeAt d r r' t)
    (hf : ∀ a s, s.Ends → s.left + d ≤ t.left → AgreeAt 0 (f a) (f' a) s) :
    AgreeAt 0 (r >>= f) (r' >>= f') t :=
  (h.bind hf).mono (Nat.zero_le d)

/-- Nothing is read, so nothing has to be passed, and the tape stays one with an end. -/
theorem agree_pure {a : α} (hends : t.Ends) : AgreeAt 0 (pure a : Reader α) (pure a) t :=
  ⟨rfl, hends, Nat.le_refl _⟩

/-- An error ends the reading. How many tokens were passed is asked of values only, so any number
will do. -/
theorem agree_fail {err : SyntaxError} : AgreeAt d (fail err : Reader α) (fail err) t :=
  ⟨rfl, trivial⟩

theorem agree_unexpected : AgreeAt d (unexpected : Reader α) unexpected t := ⟨rfl, trivial⟩

theorem agree_unexpectedWhere {message : String} :
    AgreeAt d (unexpectedWhere message : Reader α) (unexpectedWhere message) t :=
  ⟨rfl, trivial⟩

/-- Asking the tape passes nothing. -/
theorem agree_ask {g : Tape → γ} {f f' : γ → Reader α} (h : AgreeAt d (f (g t)) (f' (g t)) t) :
    AgreeAt d (ask g >>= f) (ask g >>= f') t :=
  ⟨h.same, h.passes⟩

/-- A token that is passed. -/
theorem agree_advance {f f' : Token → Reader α} (hends : t.Ends) (hkind : t.kind ≠ .eof)
    (h : t.advance.Ends → t.advance.left + 1 = t.left →
      AgreeAt 0 (f t.current) (f' t.current) t.advance) :
    AgreeAt 1 (advance >>= f) (advance >>= f') t := by
  have hleft := Tape.left_advance hends hkind
  obtain ⟨hsame, hpasses⟩ := h hends.advance hleft
  exact ⟨hsame, hpasses.mono (Nat.le_of_eq hleft)⟩

/-- A token of a known kind that is passed on the way. -/
theorem agree_passed {f f' : Token → Reader α} {c : Kind} (hends : t.Ends) (hkind : t.kind = c)
    (hc : c ≠ .eof)
    (h : t.advance.Ends → t.advance.left + 1 = t.left →
      AgreeAt 0 (f t.current) (f' t.current) t.advance) :
    AgreeAt 0 (advance >>= f) (advance >>= f') t :=
  (agree_advance hends (fun heof => hc (hkind.symm.trans heof)) h).mono (Nat.zero_le 1)

/-- A token that is passed if it is of a kind. It is a token less on the tape then, which is what
the counts go by. -/
theorem agree_checked {other : Reader Token} {c : Kind} (hends : t.Ends) (hc : c ≠ .eof)
    (hother : AgreeAt 1 other other t) :
    AgreeAt 1 (do if (← kind) = c then advance else other : Reader Token)
      (do if (← kind) = c then advance else other) t := by
  refine agree_ask ?_
  by_cases hkind : t.kind = c
  · simp only [if_pos hkind]
    have hne : t.kind ≠ .eof := by
      rw [hkind]
      exact hc
    exact ⟨rfl, hends.advance, Nat.le_of_eq (Tape.left_advance hends hne)⟩
  · simp only [if_neg hkind]
    exact hother

/-- A token that has to be there is passed, or is reported. -/
theorem agree_expect {c : Kind} (hends : t.Ends) (hc : c ≠ .eof) :
    AgreeAt 1 (expect c) (expect c) t :=
  agree_checked hends hc agree_unexpected

theorem agree_expectWhere {c : Kind} {message : String} (hends : t.Ends) (hc : c ≠ .eof) :
    AgreeAt 1 (expectWhere c message) (expectWhere c message) t :=
  agree_checked hends hc agree_unexpectedWhere

end Reader

open Reader

/-! ## Expressions -/

/-- Readers for operands agree, above every power. -/
def Operands.AgreeBelow (k : Nat) (operands operands' : Operands) : Prop :=
  ∀ power, Reader.AgreeBelow 0 k (operands power) (operands' power)

section Expressions

variable {k n n' : Nat} {operands operands' : Operands} {t : Tape}

/-- The last step of an operand of one token, which passes this token (`parse_primary_expr`). -/
theorem agree_accept {e : Expr Span} (hends : t.Ends) (hkind : t.kind ≠ .eof) :
    AgreeAt 1 (Reader.accept e) (Reader.accept e) t :=
  agree_advance hends hkind fun hends₁ _ => agree_pure hends₁

/-- An operand of one token passes it, and calls nothing. Where its number does not fit, it is an
error (`parse_primary_expr`). -/
theorem readPrimary_agrees (hends : t.Ends) (hkind : t.kind ≠ .eof) :
    AgreeAt 1 readPrimary readPrimary t := by
  refine agree_ask ?_
  cases hcurrent : t.current.kind with
  | integer =>
    cases Number.readInteger? t.current.value.toList with
    | none => exact agree_fail
    | some v => exact agree_accept hends hkind
  | float =>
    cases Number.readDecimal? t.current.value.toList with
    | none => exact agree_fail
    | some v => exact agree_accept hends hkind
  | char | bool | identifier => exact agree_accept hends hkind
  | _ => exact agree_unexpected

/-- The operator is passed before the operand is read, so the operand has fewer tokens in front of
it. -/
theorem readUnary_agrees (hoperands : operands.AgreeBelow k operands') (hends : t.Ends)
    (hkind : t.kind ≠ .eof) (hle : t.left ≤ k) :
    AgreeAt 1 (readUnary operands) (readUnary operands') t := by
  refine agree_advance hends hkind fun hends₁ _ => ?_
  cases UnaryOp.ofKind? t.current.kind with
  | none => exact agree_fail
  | some op =>
    refine (hoperands .unary _ hends₁ (by omega)).andThen fun _ _ hends₂ _ => ?_
    exact agree_pure hends₂

/-- The same with the parenthesis that is opened. -/
theorem readGroup_agrees (hoperands : operands.AgreeBelow k operands') (hends : t.Ends)
    (hkind : t.kind ≠ .eof) (hle : t.left ≤ k) :
    AgreeAt 1 (readGroup operands) (readGroup operands') t := by
  refine agree_advance hends hkind fun hends₁ _ => ?_
  refine (hoperands .default _ hends₁ (by omega)).andThen fun _ _ hends₂ _ => ?_
  refine (agree_expectWhere hends₂ (by decide)).andThen fun _ _ hends₃ _ => ?_
  exact agree_pure hends₃

/-- **The head of an expression passes a token before it reads on.** So the readers for operands are
called where fewer tokens are left. -/
theorem HeadForm.agrees (form : HeadForm) (hoperands : operands.AgreeBelow k operands')
    (hends : t.Ends) (hkind : t.kind ≠ .eof) (hle : t.left ≤ k) :
    AgreeAt 1 (form.read operands) (form.read operands') t := by
  cases form with
  | primary => exact readPrimary_agrees hends hkind
  | unary => exact readUnary_agrees hoperands hends hkind hle
  | group => exact readGroup_agrees hoperands hends hkind hle

/-- The operator between two operands is passed before the right one is read. -/
theorem readBinary_agrees (hoperands : operands.AgreeBelow k operands') (hends : t.Ends)
    (hkind : t.kind ≠ .eof) (hle : t.left ≤ k) (left : Expr Span) (power : Power) :
    AgreeAt 1 (readBinary operands left power) (readBinary operands' left power) t := by
  refine agree_advance hends hkind fun hends₁ _ => ?_
  cases BinaryOp.ofKind? t.current.kind with
  | none => exact agree_fail
  | some op =>
    refine (hoperands power _ hends₁ (by omega)).andThen fun _ _ hends₂ _ => ?_
    exact agree_pure hends₂

/-- Every round of arguments but the last passes a comma. So there are no more rounds than tokens,
and a bound above their number is never met. -/
theorem readArguments_agrees (hoperands : operands.AgreeBelow k operands') (hends : t.Ends)
    (hk : t.left < k) (hn : t.left < n) (hn' : t.left < n') :
    AgreeAt 0 (readArguments operands n) (readArguments operands' n') t := by
  induction n generalizing n' t with
  | zero => omega
  | succ n ih =>
    obtain ⟨m, rfl⟩ := Nat.exists_eq_add_of_lt hn'
    refine (hoperands .default t hends hk).andThen fun _ s hends₁ hle₁ => agree_ask ?_
    by_cases hcomma : s.kind = .comma
    · simp only [if_pos hcomma]
      refine agree_passed hends₁ hcomma (by decide) fun hends₂ _ => ?_
      refine (ih hends₂ (by omega) (by omega) (by omega)).andThen fun _ _ hends₃ _ => ?_
      exact agree_pure hends₃
    · simp only [if_neg hcomma]
      exact agree_pure hends₁

/-- A call passes its parenthesis before its arguments are read. Anything but a name in front of the
parenthesis is an error, and there nothing is passed. -/
theorem readCall_agrees (hoperands : operands.AgreeBelow k operands') (hends : t.Ends)
    (hkind : t.kind ≠ .eof) (hle : t.left ≤ k) (hn : t.left ≤ n) (hn' : t.left ≤ n')
    (left : Expr Span) : AgreeAt 1 (readCall operands n left) (readCall operands' n' left) t := by
  cases left with
  | read span x =>
    refine agree_advance hends hkind fun hends₁ _ => agree_ask ?_
    -- An empty list of arguments is seen at once, so there is no round of arguments for it.
    by_cases hclose : t.advance.kind = .closeParen
    · simp only [if_pos hclose]
      refine (agree_expectWhere hends₁ (by decide)).andThen fun _ _ hends₂ _ => ?_
      exact agree_ask (agree_pure hends₂)
    · simp only [if_neg hclose]
      have harguments : AgreeAt 0 (readArguments operands n) (readArguments operands' n')
          t.advance := by
        apply readArguments_agrees hoperands hends₁ <;> omega
      refine harguments.andThen fun _ _ hends₂ _ => ?_
      refine (agree_expectWhere hends₂ (by decide)).andThen fun _ _ hends₃ _ => ?_
      exact agree_ask (agree_pure hends₃)
  | literal | binary | unary | call => exact agree_unexpectedWhere

/-- **So does every tail**, the operator of a binary operation and the parenthesis of a call. -/
theorem TailForm.agrees (form : TailForm) (hoperands : operands.AgreeBelow k operands')
    (hends : t.Ends) (hkind : t.kind ≠ .eof) (hle : t.left ≤ k) (hn : t.left ≤ n)
    (hn' : t.left ≤ n') (left : Expr Span) (power : Power) :
    AgreeAt 1 (form.read operands n left power) (form.read operands' n' left power) t := by
  cases form with
  | binary => exact readBinary_agrees hoperands hends hkind hle left power
  | call => exact readCall_agrees hoperands hends hkind hle hn hn' left

namespace Grammar

/-- Nothing starts with the end of input. -/
structure StopsAtEnd (g : Grammar) : Prop where
  stmt : g.stmt? .eof = none
  head : g.head? .eof = none
  tail : g.tail? .eof = none

/-- No table of the language has an entry for the end of input. -/
theorem standard_stopsAtEnd : standard.StopsAtEnd := ⟨rfl, rfl, rfl⟩

/-- What starts with a token starts in front of the end of input. -/
theorem ne_eof_of_some {F : Type} {table : Kind → Option F} {c : Kind} {form : F}
    (heof : table .eof = none) (h : table c = some form) : c ≠ .eof := by
  rintro rfl
  rw [heof] at h
  cases h

variable {g : Grammar}

/-- A head is looked up by the kind of the current token, and in front of the end of input there is
none. -/
theorem readHead_agrees (hg : g.StopsAtEnd) (hoperands : operands.AgreeBelow k operands')
    (hends : t.Ends) (hle : t.left ≤ k) :
    AgreeAt 1 (g.readHead operands) (g.readHead operands') t := by
  refine agree_ask ?_
  cases hform : g.head? t.kind with
  | none => exact agree_unexpectedWhere
  | some form => exact form.agrees hoperands hends (ne_eof_of_some hg.head hform) hle

/-- Every round of tails passes a token. Hence there are at most as many rounds as there are tokens
left, and one to see that they end. -/
theorem readTails_agrees (hg : g.StopsAtEnd) (hoperands : operands.AgreeBelow k operands')
    (floor : Power) (hends : t.Ends) (hk : t.left ≤ k) (hn : t.left < n) (hn' : t.left < n')
    (left : Expr Span) :
    AgreeAt 0 (g.readTails operands floor n left) (g.readTails operands' floor n' left) t := by
  induction n generalizing n' t left with
  | zero => omega
  | succ n ih =>
    obtain ⟨m, rfl⟩ := Nat.exists_eq_add_of_lt hn'
    refine agree_ask ?_
    cases htail : g.tail? t.kind with
    | none => exact agree_pure hends
    | some tail =>
      obtain ⟨form, power⟩ := tail
      by_cases hlt : floor < power
      · simp only [if_pos hlt]
        -- Only a tail that has passed a token is gone on from, so a round is paid for.
        have hne := ne_eof_of_some hg.tail htail
        refine (form.agrees hoperands hends hne hk (by omega) (by omega) left power).andThen ?_
        intro left' s hends₁ hle₁
        exact ih hends₁ (by omega) (by omega) (by omega) left'
      · simp only [if_neg hlt]
        exact agree_pure hends

/-- **Expressions are read in the same way at every depth above the number of tokens left.** So
depth is no limit on what is read: a depth above this number is as good as any other. -/
theorem expr_agrees (hg : g.StopsAtEnd) (hn : k ≤ n) (hn' : k ≤ n') (floor : Power) :
    Reader.AgreeBelow 1 k (g.expr n floor) (g.expr n' floor) := by
  -- On the tokens left, not on the depth: operands are read behind a token, so there the readers of
  -- both depths agree already.
  induction k generalizing n n' floor with
  | zero =>
    intro t _ hlt
    omega
  | succ k ih =>
    intro t hends hlt
    obtain ⟨m, rfl⟩ := Nat.exists_eq_add_of_lt hn
    obtain ⟨m', rfl⟩ := Nat.exists_eq_add_of_lt hn'
    have hoperands : Operands.AgreeBelow k (g.expr (k + m)) (g.expr (k + m')) :=
      fun power => (ih (by omega) (by omega) power).mono (Nat.zero_le 1)
    refine (readHead_agrees hg hoperands hends (by omega)).bind fun left s hends₁ hle₁ => ?_
    exact readTails_agrees hg hoperands floor hends₁ (by omega) (by omega) (by omega) left

end Grammar

end Expressions

/-! ## Statements -/

section Statements

variable {k n n' : Nat} {operands operands' : Operands} {t : Tape}
  {block block' : Reader (List Stmt)} {stmt stmt' : Reader Stmt}

/-- A name is one token. -/
theorem readName_agrees {message : String} (hends : t.Ends) :
    AgreeAt 1 (readName message) (readName message) t :=
  (agree_expectWhere hends (by decide)).bind fun _ _ hends₁ _ => agree_pure hends₁

/-- So is a type. -/
theorem readType_agrees (hends : t.Ends) : AgreeAt 1 readType readType t :=
  (agree_expectWhere hends (by decide)).bind fun _ _ hends₁ _ => agree_pure hends₁

/-- Every parameter passes its name. -/
theorem readParams_agrees (hends : t.Ends) (hn : t.left < n) (hn' : t.left < n') :
    AgreeAt 0 (readParams n) (readParams n') t := by
  induction n generalizing n' t with
  | zero => omega
  | succ n ih =>
    obtain ⟨m, rfl⟩ := Nat.exists_eq_add_of_lt hn'
    refine agree_ask ((readName_agrees hends).andThen fun _ t₁ hends₁ _ => ?_)
    refine (readType_agrees hends₁).andThen fun _ t₂ hends₂ _ => agree_ask (agree_ask ?_)
    by_cases hcomma : t₂.kind = .comma
    · simp only [if_pos hcomma]
      refine agree_passed hends₂ hcomma (by decide) fun hends₃ _ => ?_
      refine (ih hends₃ (by omega) (by omega)).andThen fun _ _ hends₄ _ => ?_
      exact agree_pure hends₄
    · simp only [if_neg hcomma]
      exact agree_pure hends₂

/-- Every round of statements passes a token, if every statement does. The rounds are counted by the
tokens that are left, on both sides. -/
theorem readStmtsUntil_agrees (hstmt : Reader.AgreeBelow 1 k stmt stmt') (stop : Kind → Bool)
    (hends : t.Ends) (hk : t.left < k) (hn : t.left < n) (hn' : t.left < n') :
    AgreeAt 0 (readStmtsUntil stop stmt n) (readStmtsUntil stop stmt' n') t := by
  induction n generalizing n' t with
  | zero => omega
  | succ n ih =>
    obtain ⟨m, rfl⟩ := Nat.exists_eq_add_of_lt hn'
    refine agree_ask ?_
    by_cases hstop : stop t.kind
    · simp only [if_pos hstop]
      exact agree_pure hends
    · simp only [if_neg hstop]
      refine (hstmt t hends hk).andThen fun _ s hends₁ hle₁ => ?_
      refine (ih hends₁ (by omega) (by omega) (by omega)).andThen fun _ _ hends₂ _ => ?_
      exact agree_pure hends₂

/-- A block passes its brace, and after it reads statements that pass tokens each
(`parse_block`). -/
theorem readBlock_agrees (hstmt : Reader.AgreeBelow 1 k stmt stmt') (hends : t.Ends)
    (hk : t.left ≤ k) (hn : t.left ≤ n) (hn' : t.left ≤ n') :
    AgreeAt 1 (readBlock stmt n) (readBlock stmt' n') t := by
  refine (agree_expectWhere hends (by decide)).bind fun _ s hends₁ hle₁ => ?_
  refine (readStmtsUntil_agrees hstmt _ hends₁ (by omega) (by omega) (by omega)).andThen ?_
  intro _ _ hends₂ _
  refine (agree_expectWhere hends₂ (by decide)).andThen fun _ _ hends₃ _ => ?_
  exact agree_pure hends₃

/-- A value and a semicolon, which many statements end with. -/
theorem agree_value (hoperands : operands.AgreeBelow k operands') (hends : t.Ends)
    (hk : t.left < k) (make : Span → Expr Span → Stmt) (start : Position) :
    AgreeAt 0
      (do
        let value ← operands .default
        let _ ← Reader.expect .semicolon
        return make (← Reader.spanFrom start) value)
      (do
        let value ← operands' .default
        let _ ← Reader.expect .semicolon
        return make (← Reader.spanFrom start) value) t := by
  refine (hoperands .default t hends hk).andThen fun _ _ hends₁ _ => ?_
  refine (agree_expect hends₁ (by decide)).andThen fun _ _ hends₂ _ => ?_
  exact agree_ask (agree_pure hends₂)

/-- Every handler for a statement passes the word it starts with. The other tokens it passes are not
needed for the count. -/
theorem readPrint_agrees (hoperands : operands.AgreeBelow k operands') (hends : t.Ends)
    (hkind : t.kind ≠ .eof) (hle : t.left ≤ k) :
    AgreeAt 1 (readPrint operands) (readPrint operands') t := by
  refine agree_advance hends hkind fun hends₁ _ => ?_
  refine (agree_expect hends₁ (by decide)).andThen fun _ t₂ hends₂ _ => ?_
  refine (hoperands .default t₂ hends₂ (by omega)).andThen fun _ _ hends₃ _ => ?_
  refine (agree_expect hends₃ (by decide)).andThen fun _ _ hends₄ _ => ?_
  refine (agree_expect hends₄ (by decide)).andThen fun _ _ hends₅ _ => ?_
  exact agree_ask (agree_pure hends₅)

/-- A declaration passes its name and its type too, with or without a value behind them. -/
theorem readVar_agrees (hoperands : operands.AgreeBelow k operands') (hends : t.Ends)
    (hkind : t.kind ≠ .eof) (hle : t.left ≤ k) :
    AgreeAt 1 (readVar operands) (readVar operands') t := by
  refine agree_advance hends hkind fun hends₁ _ => ?_
  refine (readName_agrees hends₁).andThen fun _ t₂ hends₂ _ => ?_
  refine (readType_agrees hends₂).andThen fun _ t₃ hends₃ _ => agree_ask ?_
  by_cases hvalue : t₃.kind = .assignment
  · simp only [if_pos hvalue]
    refine agree_passed hends₃ hvalue (by decide) fun hends₄ _ => ?_
    exact agree_value hoperands hends₄ (by omega) _ _
  · simp only [if_neg hvalue]
    refine (agree_expect hends₃ (by decide)).andThen fun _ _ hends₄ _ => ?_
    exact agree_ask (agree_pure hends₄)

theorem readConst_agrees (hoperands : operands.AgreeBelow k operands') (hends : t.Ends)
    (hkind : t.kind ≠ .eof) (hle : t.left ≤ k) :
    AgreeAt 1 (readConst operands) (readConst operands') t := by
  refine agree_advance hends hkind fun hends₁ _ => ?_
  refine (readName_agrees hends₁).andThen fun _ t₂ hends₂ _ => ?_
  refine (agree_expectWhere hends₂ (by decide)).andThen fun _ t₃ hends₃ _ => ?_
  exact agree_value hoperands hends₃ (by omega) _ _

theorem readWrite_agrees (hoperands : operands.AgreeBelow k operands') (hends : t.Ends)
    (hkind : t.kind ≠ .eof) (hle : t.left ≤ k) :
    AgreeAt 1 (readWrite operands) (readWrite operands') t := by
  refine agree_advance hends hkind fun hends₁ _ => ?_
  refine (agree_expectWhere hends₁ (by decide)).andThen fun _ t₂ hends₂ _ => ?_
  exact agree_value hoperands hends₂ (by omega) _ _

/-- The blocks are read behind the condition, and the second one behind `else`; both have fewer
tokens in front of them than the statement. -/
theorem readBranch_agrees (hoperands : operands.AgreeBelow k operands')
    (hblock : Reader.AgreeBelow 0 k block block') (hends : t.Ends) (hkind : t.kind ≠ .eof)
    (hle : t.left ≤ k) : AgreeAt 1 (readBranch operands block) (readBranch operands' block') t := by
  refine agree_advance hends hkind fun hends₁ _ => ?_
  refine (hoperands .default _ hends₁ (by omega)).andThen fun _ t₂ hends₂ _ => ?_
  refine (hblock t₂ hends₂ (by omega)).andThen fun _ t₃ hends₃ _ => agree_ask ?_
  by_cases helse : t₃.kind = .kwElse
  · simp only [if_pos helse]
    refine agree_passed hends₃ helse (by decide) fun hends₄ _ => ?_
    refine (hblock _ hends₄ (by omega)).andThen fun _ _ hends₅ _ => ?_
    exact agree_ask (agree_pure hends₅)
  · simp only [if_neg helse]
    exact (agree_pure hends₃).andThen fun _ _ hends₄ _ => agree_ask (agree_pure hends₄)

/-- The block of a loop is read behind its condition. -/
theorem readLoop_agrees (hoperands : operands.AgreeBelow k operands')
    (hblock : Reader.AgreeBelow 0 k block block') (hends : t.Ends) (hkind : t.kind ≠ .eof)
    (hle : t.left ≤ k) : AgreeAt 1 (readLoop operands block) (readLoop operands' block') t := by
  refine agree_advance hends hkind fun hends₁ _ => ?_
  refine (hoperands .default _ hends₁ (by omega)).andThen fun _ t₂ hends₂ _ => ?_
  refine (hblock t₂ hends₂ (by omega)).andThen fun _ _ hends₃ _ => ?_
  exact agree_ask (agree_pure hends₃)

/-- The body is read behind the parameters. How many there are is not known, but none of them goes
back. -/
theorem readFunction_agrees (hblock : Reader.AgreeBelow 0 k block block') (hends : t.Ends)
    (hkind : t.kind ≠ .eof) (hle : t.left ≤ k) (hn : t.left ≤ n) (hn' : t.left ≤ n') :
    AgreeAt 1 (readFunction block n) (readFunction block' n') t := by
  refine agree_advance hends hkind fun hends₁ _ => ?_
  refine (readName_agrees hends₁).andThen fun f t₂ hends₂ _ => ?_
  refine (agree_expect hends₂ (by decide)).andThen fun _ t₃ hends₃ _ => agree_ask ?_
  -- Parameters or not, the rest is read in the same way.
  have hrest : ∀ (params : List Param) (s : Tape), s.Ends → s.left < k →
      AgreeAt 0
        (do
          let _ ← Reader.expectWhere .closeParen "expected `,` or `)` in parameter list"
          let returns ← readType
          let body ← block
          return Stmt.function (← Reader.spanFrom t.current.span.start) f params returns body)
        (do
          let _ ← Reader.expectWhere .closeParen "expected `,` or `)` in parameter list"
          let returns ← readType
          let body ← block'
          return Stmt.function (← Reader.spanFrom t.current.span.start) f params returns body)
        s := by
    intro params s hs hlt
    refine (agree_expectWhere hs (by decide)).andThen fun _ t₄ hends₄ _ => ?_
    refine (readType_agrees hends₄).andThen fun _ t₅ hends₅ _ => ?_
    refine (hblock t₅ hends₅ (by omega)).andThen fun _ _ hends₆ _ => ?_
    exact agree_ask (agree_pure hends₆)
  by_cases hclose : t₃.kind = .closeParen
  · simp only [if_pos hclose]
    exact hrest [] t₃ hends₃ (by omega)
  · simp only [if_neg hclose]
    refine (readParams_agrees hends₃ (by omega) (by omega)).andThen fun params s hs _ => ?_
    exact hrest params s hs (by omega)

theorem readReturn_agrees (hoperands : operands.AgreeBelow k operands') (hends : t.Ends)
    (hkind : t.kind ≠ .eof) (hle : t.left ≤ k) :
    AgreeAt 1 (readReturn operands) (readReturn operands') t := by
  refine agree_advance hends hkind fun hends₁ _ => ?_
  exact agree_value hoperands hends₁ (by omega) _ _

/-- **A statement passes a token before it reads on.** Each form starts with a token of its own,
which is passed before an expression or a block is read. -/
theorem StmtForm.agrees (form : StmtForm) (hoperands : operands.AgreeBelow k operands')
    (hblock : Reader.AgreeBelow 0 k block block') (hends : t.Ends) (hkind : t.kind ≠ .eof)
    (hle : t.left ≤ k) (hn : t.left ≤ n) (hn' : t.left ≤ n') :
    AgreeAt 1 (form.read operands block n) (form.read operands' block' n') t := by
  cases form with
  | print => exact readPrint_agrees hoperands hends hkind hle
  | var => exact readVar_agrees hoperands hends hkind hle
  | const => exact readConst_agrees hoperands hends hkind hle
  | write => exact readWrite_agrees hoperands hends hkind hle
  | branch => exact readBranch_agrees hoperands hblock hends hkind hle
  | loop => exact readLoop_agrees hoperands hblock hends hkind hle
  | function => exact readFunction_agrees hblock hends hkind hle hn hn'
  | ret => exact readReturn_agrees hoperands hends hkind hle

namespace Grammar

variable {g : Grammar}

/-- **So are statements**, with the readers for expressions of the same depths inside. -/
theorem stmt_agrees (hg : g.StopsAtEnd) (hn : k ≤ n) (hn' : k ≤ n') :
    Reader.AgreeBelow 1 k (g.stmt n) (g.stmt n') := by
  induction k generalizing n n' with
  | zero =>
    intro t _ hlt
    omega
  | succ k ih =>
    intro t hends hlt
    obtain ⟨m, rfl⟩ := Nat.exists_eq_add_of_lt hn
    obtain ⟨m', rfl⟩ := Nat.exists_eq_add_of_lt hn'
    refine agree_ask ?_
    cases hform : g.stmt? t.kind with
    | none => exact agree_unexpectedWhere
    | some form =>
      have hoperands : Operands.AgreeBelow k (g.expr (k + m)) (g.expr (k + m')) :=
        fun power => (expr_agrees hg (by omega) (by omega) power).mono (Nat.zero_le 1)
      -- Blocks inside are read behind the first token of the statement.
      have hblock : Reader.AgreeBelow 0 k (readBlock (g.stmt (k + m)) (k + m))
          (readBlock (g.stmt (k + m')) (k + m')) := by
        intro s hs hlt₁
        refine (readBlock_agrees (ih ?_ ?_) hs (by omega) ?_ ?_).mono (Nat.zero_le 1) <;> omega
      exact form.agrees hoperands hblock hends (ne_eof_of_some hg.stmt hform) (by omega) (by omega)
        (by omega)

/-- Blocks are read in the same way at every depth from the number of tokens left on, one less than
statements need: the brace is passed first. -/
theorem block_agrees (hg : g.StopsAtEnd) (hends : t.Ends) (hn : t.left ≤ n) (hn' : t.left ≤ n') :
    AgreeAt 1 (g.block n) (g.block n') t :=
  readBlock_agrees (stmt_agrees hg hn hn') hends (Nat.le_refl _) hn hn'

/-- So are programs. -/
theorem program_agrees (hg : g.StopsAtEnd) (hends : t.Ends) (hn : t.left < n)
    (hn' : t.left < n') : AgreeAt 0 (g.program n) (g.program n') t := by
  -- The statements of a program are not behind a token that was passed, so the depth has to be
  -- above the number of tokens left.
  have hstmt : Reader.AgreeBelow 1 (t.left + 1) (g.stmt n) (g.stmt n') := stmt_agrees hg hn hn'
  refine (readStmtsUntil_agrees hstmt _ hends (Nat.lt_succ_self _) hn hn').andThen ?_
  exact fun _ _ hends₁ _ => agree_ask (agree_pure hends₁)

end Grammar

end Statements

/-! ## The front end -/

namespace Grammar

/-- **Handlers pass a token before they call what they are given.** Called on a token that starts
its form, a handler depends on the readers it is given only where fewer tokens are left. If they end
there, so does it, and it has passed a token when it gives a value. -/
structure PassesFirst (g : Grammar) : Prop where
  head : ∀ (t : Tape) (form : HeadForm) (operands operands' : Operands), t.Ends →
    g.head? t.kind = some form → operands.AgreeBelow t.left operands' →
    AgreeAt 1 (form.read operands) (form.read operands') t
  tail : ∀ (t : Tape) (form : TailForm) (power : Power) (operands operands' : Operands)
    (left : Expr Span) (n n' : Nat), t.Ends → g.tail? t.kind = some (form, power) →
    operands.AgreeBelow t.left operands' → t.left ≤ n → t.left ≤ n' →
    AgreeAt 1 (form.read operands n left power) (form.read operands' n' left power) t
  stmt : ∀ (t : Tape) (form : StmtForm) (operands operands' : Operands)
    (block block' : Reader (List Stmt)) (n n' : Nat), t.Ends → g.stmt? t.kind = some form →
    operands.AgreeBelow t.left operands' → Reader.AgreeBelow 0 t.left block block' → t.left ≤ n →
    t.left ≤ n' → AgreeAt 1 (form.read operands block n) (form.read operands' block' n') t

/-- **The recursion of the readers is founded on the tokens left in front of the end of input.** It
never gets deeper than their number: with any more depth the outcome is the same. What is read as an
expression, a statement or a block has a token in it. -/
structure Founded (g : Grammar) : Prop where
  expr : ∀ (t : Tape) (n : Nat) (floor : Power), t.Ends → t.left < n →
    AgreeAt 1 (g.expr n floor) (g.expr (t.left + 1) floor) t
  stmt : ∀ (t : Tape) (n : Nat), t.Ends → t.left < n → AgreeAt 1 (g.stmt n) (g.stmt (t.left + 1)) t
  block : ∀ (t : Tape) (n : Nat), t.Ends → t.left < n →
    AgreeAt 1 (g.block n) (g.block (t.left + 1)) t
  program : ∀ (t : Tape) (n : Nat), t.Ends → t.left < n →
    AgreeAt 0 (g.program n) (g.program (t.left + 1)) t

variable {g : Grammar}

/-- If no table has an entry for the end of input, then every handler starts on a token that can be
passed. -/
theorem StopsAtEnd.passesFirst (hg : g.StopsAtEnd) : g.PassesFirst where
  head _ form _ _ hends hform hoperands :=
    form.agrees hoperands hends (ne_eof_of_some hg.head hform) (Nat.le_refl _)
  tail _ form power _ _ left _ _ hends hform hoperands hn hn' :=
    form.agrees hoperands hends (ne_eof_of_some hg.tail hform) (Nat.le_refl _) hn hn' left power
  stmt _ form _ _ _ _ _ _ hends hform hoperands hblock hn hn' :=
    form.agrees hoperands hblock hends (ne_eof_of_some hg.stmt hform) (Nat.le_refl _) hn hn'

/-- And so the whole recursion is founded. -/
theorem StopsAtEnd.founded (hg : g.StopsAtEnd) : g.Founded where
  expr t _ floor hends hn := expr_agrees hg hn (Nat.le_refl _) floor t hends (Nat.lt_succ_self _)
  stmt t _ hends hn := stmt_agrees hg hn (Nat.le_refl _) t hends (Nat.lt_succ_self _)
  block _ _ hends hn := block_agrees hg hends (Nat.le_of_lt hn) (Nat.le_succ _)
  program _ _ hends hn := program_agrees hg hends hn (Nat.lt_succ_self _)

end Grammar

open Grammar

/-- Tokens with the end of input as the last one give a program or a syntax error. The bound on the
nesting is above the number of tokens, so it is not what stops the reader. -/
theorem ofTokens_ends (tokens : List Token) {last : Token} (hlast : last.kind = .eof) :
    (∃ p, Program.ofTokens (tokens ++ [last]) = .ok p) ∨
      ∃ e, Program.ofTokens (tokens ++ [last]) = .error (.invalid e) := by
  obtain ⟨first, rest, htokens⟩ : ∃ first rest, tokens ++ [last] = first :: rest :=
    List.exists_cons_of_ne_nil (by simp)
  have hends : Tape.Ends ⟨first, rest, .origin, false⟩ := ⟨last, by rw [← htokens]; simp, hlast⟩
  have hpasses := (standard_stopsAtEnd.founded.program _ _ hends (Tape.left_lt_fuel _)).passes
  rw [htokens, Program.ofTokens, Tape.ofTokens?]
  dsimp only
  cases hread : standard.program (Tape.fuel ⟨first, rest, .origin, false⟩)
      ⟨first, rest, .origin, false⟩ with
  | ok p t => exact .inl ⟨p, rfl⟩
  | error e t => exact .inr ⟨e, rfl⟩
  | endless =>
    rw [hread] at hpasses
    exact hpasses.elim

/-- **The front end always comes to an end.** Every round of the scanner ends the scan or moves its
position forward, and within as many rounds as there are bytes, and one, the tokens of the source
are there. Every handler passes a token before it calls the readers for what stands inside, so the
recursion of the readers is founded on the tokens left in front of the end of input. Whatever tokens
stand in front of the end of input, they give a program or a syntax error. -/
theorem front_end_ends :
    (∀ s s' : Scanner, s.round = .inr s' → s.position.offset < s'.position.offset) ∧
    (∀ (source : String) (n : Nat), Text.byteSize source.toList < n →
      (Scanner.start source).run n = some (tokenize source)) ∧
    standard.PassesFirst ∧ standard.Founded ∧
    ∀ (tokens : List Token) (last : Token), last.kind = .eof →
      (∃ p, Program.ofTokens (tokens ++ [last]) = .ok p) ∨
        ∃ e, Program.ofTokens (tokens ++ [last]) = .error (.invalid e) := by
  refine ⟨fun _ _ => Scanner.offset_lt_of_round, fun source n hn => ?_,
    standard_stopsAtEnd.passesFirst, standard_stopsAtEnd.founded,
    fun tokens _ hlast => ofTokens_ends tokens hlast⟩
  rw [Scanner.run_eq_result hn, Scanner.result_start]

/-- A statement that breaks off. -/
def brokenReturn : List Token :=
  [⟨.kwReturn, "return", ⟨⟨0, 1⟩, ⟨6, 1⟩⟩⟩, ⟨.dash, "-", ⟨⟨7, 1⟩, ⟨8, 1⟩⟩⟩]

/-- A statement that breaks off comes to an end too, though nothing is left to read. -/
theorem brokenReturn_ends :
    (∃ p, Program.ofTokens (brokenReturn ++ [.endOfInput ⟨8, 1⟩]) = .ok p) ∨
      ∃ e, Program.ofTokens (brokenReturn ++ [.endOfInput ⟨8, 1⟩]) = .error (.invalid e) :=
  front_end_ends.2.2.2.2 brokenReturn (.endOfInput ⟨8, 1⟩) rfl

/-- What does not come to an end has nothing behind it. -/
theorem endless_bind {α β : Type} {r : Reader α} {f : α → Reader β} {t : Tape}
    (h : r t = .endless) : (r >>= f) t = .endless := by
  show Reader.bind r f t = .endless
  rw [Reader.bind, h]

/-- Without an end of input, an operator or a parenthesis that waits for its operand as the last
token is read for ever. -/
theorem expr_endless {t : Tape} (hkind : t.kind ∈ [Kind.plus, .dash, .not, .openParen])
    (hrest : t.rest = []) (n : Nat) (floor : Power) : standard.expr n floor t = .endless := by
  induction n generalizing t floor with
  | zero => rfl
  | succ n ih =>
    have hne : t.kind ≠ .eof := fun heof => absurd (heof ▸ hkind) (by decide)
    -- The tape stays on its last token, so the operand is read from the same token again.
    have hstays : t.advance.kind = t.kind ∧ t.advance.rest = [] := by
      rw [Tape.advance, if_neg hne, hrest]
      exact ⟨rfl, rfl⟩
    have hoperand (power : Power) : standard.expr n power t.advance = .endless :=
      ih (by rw [hstays.1]; exact hkind) hstays.2 power
    have hhead {form : HeadForm} (hform : standard.head? t.kind = some form) :
        standard.readHead (standard.expr n) t = form.read (standard.expr n) t := by
      simp only [readHead, Bind.bind, Reader.bind, Reader.kind, Reader.ask, hform]
    refine endless_bind ?_
    by_cases hparen : t.kind = .openParen
    · rw [@hhead .group (by rw [hparen]; rfl)]
      exact endless_bind (t := t.advance) (hoperand .default)
    · obtain ⟨hunary, op, hop⟩ : standard.head? t.kind = some .unary ∧
          ∃ op, UnaryOp.ofKind? t.current.kind = some op := by
        simp only [List.mem_cons, List.not_mem_nil, or_false, hparen] at hkind
        rcases hkind with h | h | h <;> rw [← Tape.kind, h] <;> exact ⟨rfl, _, rfl⟩
      rw [hhead hunary]
      simp only [HeadForm.read, readUnary, Bind.bind, Reader.bind, Reader.advance, hop,
        hoperand .unary]

example : Program.ofTokens [⟨.kwReturn, "return", ⟨⟨0, 1⟩, ⟨6, 1⟩⟩⟩,
    ⟨.dash, "-", ⟨⟨7, 1⟩, ⟨8, 1⟩⟩⟩] = .error .endless := rfl

end Pulse

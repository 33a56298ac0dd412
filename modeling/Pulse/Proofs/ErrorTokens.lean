/-
Errors name tokens.

A reader reports an error about a token that it found on its tape, most often the current one. The
error is at the start of this token and quotes its value. There are three complaints. The token is
not what should stand there, with or without a word on what should, or it is of a kind of numbers
and its text stands for none.

This is put together along the binds of a reader, and it holds of every grammar: tables decide which
forms are read, and each form keeps to it.
-/
import Pulse.Proofs.PhraseVerdicts

set_option autoImplicit false

namespace Pulse

/-! ## Errors about the tokens of a list -/

/-- **An error about a token of a list.** -/
inductive SyntaxError.Names (tokens : List Token) : SyntaxError → Prop where
  | unexpected {u : Token} (hu : u ∈ tokens) : Names tokens ⟨.unexpected u.value, u.span.start⟩
  | unexpectedWhere {u : Token} (hu : u ∈ tokens) (message : String) :
      Names tokens ⟨.unexpectedWhere u.value message, u.span.start⟩
  | invalidNumber {u : Token} (hu : u ∈ tokens) (h : ¬ u.Legible) :
      Names tokens ⟨.invalidNumber u.value, u.span.start⟩

/-- A complaint of a number is about a token that stands for none. -/
theorem SyntaxError.Names.not_legible {tokens : List Token} {e : SyntaxError} {text : String}
    (h : e.Names tokens) (hcause : e.cause = .invalidNumber text) :
    ∃ u ∈ tokens, u.value = text ∧ e.position = u.span.start ∧ ¬ u.Legible := by
  cases h with
  | unexpected | unexpectedWhere => cases hcause
  | @invalidNumber u hu hlegible =>
    cases hcause
    exact ⟨u, hu, rfl, rfl, hlegible⟩

/-- A tape with tokens of a list only. -/
def Tape.From (t : Tape) (tokens : List Token) : Prop :=
  t.current ∈ tokens ∧ ∀ u ∈ t.rest, u ∈ tokens

/-- Advancing brings no new tokens: the next one is of the list, or the current one stays. So
whatever a reader looks at is a token of the list it was given. -/
theorem Tape.From.advance {t : Tape} {tokens : List Token} (h : t.From tokens) :
    t.advance.From tokens := by
  obtain ⟨hcurrent, hrest⟩ := h
  rw [Tape.advance]
  split
  · exact ⟨hcurrent, hrest⟩
  · split
    · rename_i next rest heq
      rw [heq, List.forall_mem_cons] at hrest
      exact hrest
    · exact ⟨hcurrent, hrest⟩

/-- An outcome that leaves tokens of a list only, or is an error about one of them. -/
inductive Outcome.Blames {α : Type} (tokens : List Token) : Outcome α → Prop where
  | ok {a : α} {t : Tape} (h : t.From tokens) : Blames tokens (.ok a t)
  | error {e : SyntaxError} {t : Tape} (h : e.Names tokens) : Blames tokens (.error e t)
  | endless : Blames tokens .endless

/-! ## Readers -/

namespace Reader

variable {α β : Type} {r : Reader α} {f : α → Reader β} {tokens : List Token}

/-- A reader that finds tokens of a list only, and blames one of them if it fails. -/
def Blames (r : Reader α) (tokens : List Token) : Prop :=
  ∀ t : Tape, t.From tokens → (r t).Blames tokens

/-- Reading nothing blames nothing. -/
theorem blames_pure {a : α} : (pure a : Reader α).Blames tokens := fun _ ht => .ok ht

/-- A reader without a result blames nothing. -/
theorem blames_endless : (endless : Reader α).Blames tokens := fun _ _ => .endless

/-- A reader that fails with an error about a token of the list. -/
theorem blames_fail {e : SyntaxError} (h : e.Names tokens) : (fail e : Reader α).Blames tokens :=
  fun _ _ => .error h

/-- A complaint of the current token is about a token of the list. -/
theorem blames_unexpected : (unexpected : Reader α).Blames tokens :=
  fun _ ht => .error (.unexpected ht.1)

/-- So is one with a word on what should stand there. -/
theorem blames_unexpectedWhere {message : String} :
    (unexpectedWhere message : Reader α).Blames tokens :=
  fun _ ht => .error (.unexpectedWhere ht.1 message)

/-- A look at the tape blames nothing. -/
theorem blames_ask {g : Tape → α} : (ask g).Blames tokens := fun _ ht => .ok ht

/-- Advancing blames nothing. -/
theorem blames_advance : advance.Blames tokens := fun _ ht => .ok ht.advance

/-- One reader behind the other. -/
theorem Blames.bind (hr : r.Blames tokens) (hf : ∀ a, (f a).Blames tokens) :
    (r >>= f).Blames tokens := by
  intro t ht
  show (Reader.bind r f t).Blames tokens
  have hfirst := hr t ht
  rw [Reader.bind]
  cases hrt : r t with
  | ok a t' =>
    rw [hrt] at hfirst
    cases hfirst with
    | ok ht' => exact hf a t' ht'
  | error e t' =>
    rw [hrt] at hfirst
    cases hfirst with
    | error h => exact .error h
  | endless => exact .endless

/-- The current token is one of the list. -/
theorem blames_current {f : Token → Reader β} (hf : ∀ u ∈ tokens, (f u).Blames tokens) :
    (current >>= f).Blames tokens :=
  fun t ht => hf t.current ht.1 t ht

/-- So is the token that is passed. -/
theorem blames_passing {f : Token → Reader β} (hf : ∀ u ∈ tokens, (f u).Blames tokens) :
    (advance >>= f).Blames tokens :=
  fun t ht => hf t.current ht.1 t.advance ht.advance

/-- A token that is not of the expected kind is blamed itself. -/
theorem blames_expect {k : Kind} : (expect k).Blames tokens := by
  refine blames_ask.bind fun _ => ?_
  split
  · exact blames_advance
  · exact blames_unexpected

/-- The same with a word on what was expected. -/
theorem blames_expectWhere {k : Kind} {message : String} :
    (expectWhere k message).Blames tokens := by
  refine blames_ask.bind fun _ => ?_
  split
  · exact blames_advance
  · exact blames_unexpectedWhere

end Reader

open Reader

/-! ## Expressions -/

section Expressions

variable {operands : Operands} {tokens : List Token}

/-- A token that is an expression blames nothing. -/
theorem accept_blames {e : Expr Span} : (Reader.accept e).Blames tokens :=
  blames_advance.bind fun _ => blames_pure

/-- A token of a literal is blamed when its text stands for no value. A token that starts no
expression at all is blamed as unexpected (`parse_primary_expr`). -/
theorem readPrimary_blames : readPrimary.Blames tokens := by
  refine blames_current fun u hu => ?_
  -- The two kinds of numbers are the only ones that can fail here.
  have hinvalid : ¬ u.Legible →
      (fail ⟨.invalidNumber u.value, u.span.start⟩ : Reader (Expr Span)).Blames tokens :=
    fun h => blames_fail (.invalidNumber hu h)
  split
  · rename_i hkind
    split
    · exact accept_blames
    · rename_i hnone
      refine hinvalid ?_
      rw [Token.Legible, hkind, Legible, hnone]
      decide
  · rename_i hkind
    split
    · exact accept_blames
    · rename_i hnone
      refine hinvalid ?_
      rw [Token.Legible, hkind, Legible, hnone]
      decide
  · exact accept_blames
  · exact accept_blames
  · exact accept_blames
  · exact blames_unexpected

/-- A unary operator is of the list, and its operand blames tokens of the list. -/
theorem readUnary_blames (hoperands : ∀ p, (operands p).Blames tokens) :
    (readUnary operands).Blames tokens := by
  refine blames_passing fun u hu => ?_
  split
  · exact (hoperands .unary).bind fun _ => blames_pure
  · exact blames_fail (.unexpected hu)

/-- In parentheses only the expression and the closing one can be blamed. -/
theorem readGroup_blames (hoperands : ∀ p, (operands p).Blames tokens) :
    (readGroup operands).Blames tokens :=
  blames_advance.bind fun _ => (hoperands .default).bind fun _ =>
    blames_expectWhere.bind fun _ => blames_pure

/-- Every form of a head blames tokens of the list when its operands do. -/
theorem HeadForm.read_blames (hoperands : ∀ p, (operands p).Blames tokens) (form : HeadForm) :
    (form.read operands).Blames tokens := by
  cases form with
  | primary => exact readPrimary_blames
  | unary => exact readUnary_blames hoperands
  | group => exact readGroup_blames hoperands

/-- A binary operator is of the list, and its operand blames tokens of the list. -/
theorem readBinary_blames (hoperands : ∀ p, (operands p).Blames tokens) (left : Expr Span)
    (power : Power) : (readBinary operands left power).Blames tokens := by
  refine blames_passing fun u hu => ?_
  split
  · exact (hoperands power).bind fun _ => blames_pure
  · exact blames_fail (.unexpected hu)

/-- Arguments blame tokens of the list, however many there are. -/
theorem readArguments_blames (hoperands : ∀ p, (operands p).Blames tokens) (n : Nat) :
    (readArguments operands n).Blames tokens := by
  induction n with
  | zero => exact blames_endless
  | succ n ih =>
    refine (hoperands .default).bind fun _ => blames_ask.bind fun _ => ?_
    split
    · exact blames_advance.bind fun _ => ih.bind fun _ => blames_pure
    · exact blames_pure

/-- A call blames its arguments or its closing parenthesis; what is no name cannot be called, and
then the current token is blamed. -/
theorem readCall_blames (hoperands : ∀ p, (operands p).Blames tokens) (n : Nat)
    (left : Expr Span) : (readCall operands n left).Blames tokens := by
  cases left with
  | read span name =>
    refine blames_advance.bind fun _ => blames_ask.bind fun _ => ?_
    -- What follows the arguments is the same with and without any.
    have hclose : ∀ arguments, Blames
        (do
          let _ ← expectWhere .closeParen "expected `,` or `)` in call arguments"
          return Expr.call (← spanFrom span.start) name arguments) tokens := fun _ =>
      blames_expectWhere.bind fun _ => blames_ask.bind fun _ => blames_pure
    split
    · exact hclose []
    · exact (readArguments_blames hoperands n).bind hclose
  | literal | binary | unary | call => exact blames_unexpectedWhere

/-- Every form of a tail blames tokens of the list when its operands do. -/
theorem TailForm.read_blames (hoperands : ∀ p, (operands p).Blames tokens) (n : Nat)
    (left : Expr Span) (power : Power) (form : TailForm) :
    (form.read operands n left power).Blames tokens := by
  cases form with
  | binary => exact readBinary_blames hoperands left power
  | call => exact readCall_blames hoperands n left

/-- A head is of one of the forms, or the current token cannot start an expression. -/
theorem readHead_blames (hoperands : ∀ p, (operands p).Blames tokens) (g : Grammar) :
    (g.readHead operands).Blames tokens := by
  refine blames_ask.bind fun k => ?_
  cases g.head? k with
  | none => exact blames_unexpectedWhere
  | some form => exact form.read_blames hoperands

/-- Tails blame tokens of the list, however many there are. By induction on the rounds. -/
theorem readTails_blames (hoperands : ∀ p, (operands p).Blames tokens) (g : Grammar)
    (floor : Power) (n : Nat) (left : Expr Span) :
    (g.readTails operands floor n left).Blames tokens := by
  induction n generalizing left with
  | zero => exact blames_endless
  | succ n ih =>
    refine blames_ask.bind fun k => ?_
    -- A kind that is no tail ends the expression and is nobody's fault.
    cases g.tail? k with
    | none => exact blames_pure
    | some tail =>
      obtain ⟨form, power⟩ := tail
      dsimp only
      split
      · exact (form.read_blames hoperands n left power).bind ih
      · exact blames_pure

/-- **An expression blames tokens of the list**, at every depth, by induction on the fuel. The
readers that are given to a handler blame such tokens by hypothesis, so all that is looked at is its
own chain of steps. -/
theorem expr_blames (g : Grammar) (n : Nat) (floor : Power) : (g.expr n floor).Blames tokens := by
  induction n generalizing floor with
  | zero => exact blames_endless
  | succ n ih => exact (readHead_blames ih g).bind (readTails_blames ih g floor (n + 1))

end Expressions

/-! ## Statements and programs -/

section Statements

variable {operands : Operands} {block : Reader (List Stmt)} {stmt : Reader Stmt}
  {tokens : List Token}

/-- Only what stands in the place of a name is blamed. -/
theorem readName_blames (message : String) : (readName message).Blames tokens :=
  blames_expectWhere.bind fun _ => blames_pure

/-- Only what stands in the place of a type is blamed. -/
theorem readType_blames : readType.Blames tokens := blames_expectWhere.bind fun _ => blames_pure

/-- Statements up to a stop blame tokens of the list when one statement does. -/
theorem readStmtsUntil_blames (hstmt : stmt.Blames tokens) (stop : Kind → Bool) (n : Nat) :
    (readStmtsUntil stop stmt n).Blames tokens := by
  induction n with
  | zero => exact blames_endless
  | succ n ih =>
    refine blames_ask.bind fun _ => ?_
    split
    · exact blames_pure
    · exact hstmt.bind fun _ => ih.bind fun _ => blames_pure

/-- A block blames its brackets or one of its statements. -/
theorem readBlock_blames (hstmt : stmt.Blames tokens) (n : Nat) :
    (readBlock stmt n).Blames tokens :=
  blames_expectWhere.bind fun _ => (readStmtsUntil_blames hstmt _ n).bind fun _ =>
    blames_expectWhere.bind fun _ => blames_pure

/-- Parameters blame a name, a type or a comma. -/
theorem readParams_blames (n : Nat) : (readParams n).Blames tokens := by
  induction n with
  | zero => exact blames_endless
  | succ n ih =>
    refine blames_ask.bind fun _ => (readName_blames _).bind fun _ => readType_blames.bind fun _ =>
      blames_ask.bind fun _ => blames_ask.bind fun _ => ?_
    split
    · exact blames_advance.bind fun _ => ih.bind fun _ => blames_pure
    · exact blames_pure

/-- A variable blames its parts, with a value or without. -/
theorem readVar_blames (hoperands : ∀ p, (operands p).Blames tokens) :
    (readVar operands).Blames tokens := by
  refine blames_advance.bind fun first => (readName_blames _).bind fun name =>
    readType_blames.bind fun type => blames_ask.bind fun _ => ?_
  -- What follows is the same with and without a value; the same holds of branches and functions
  -- below.
  have hend : ∀ value, Blames
      (do
        let _ ← expect .semicolon
        return Stmt.var (← spanFrom first.span.start) name type value) tokens := fun _ =>
    blames_expect.bind fun _ => blames_ask.bind fun _ => blames_pure
  split
  · exact blames_advance.bind fun _ => (hoperands .default).bind fun value => hend (some value)
  · exact hend none

/-- A branch blames its condition or one of its blocks. -/
theorem readBranch_blames (hoperands : ∀ p, (operands p).Blames tokens)
    (hblock : block.Blames tokens) : (readBranch operands block).Blames tokens := by
  refine blames_advance.bind fun first => (hoperands .default).bind fun condition =>
    hblock.bind fun whenTrue => blames_ask.bind fun _ => ?_
  have hend : ∀ whenFalse, Blames
      (do return Stmt.branch (← spanFrom first.span.start) condition whenTrue whenFalse) tokens :=
    fun _ => blames_ask.bind fun _ => blames_pure
  split
  · exact blames_advance.bind fun _ => hblock.bind hend
  · exact hend []

/-- A function blames its signature or its body. With and without parameters, the rest is the same
chain of steps. -/
theorem readFunction_blames (hblock : block.Blames tokens) (n : Nat) :
    (readFunction block n).Blames tokens := by
  refine blames_advance.bind fun first => (readName_blames _).bind fun name =>
    blames_expect.bind fun _ => blames_ask.bind fun _ => ?_
  have hend : ∀ params, Blames
      (do
        let _ ← expectWhere .closeParen "expected `,` or `)` in parameter list"
        let returns ← readType
        let body ← block
        return Stmt.function (← spanFrom first.span.start) name params returns body) tokens :=
    fun _ => blames_expectWhere.bind fun _ => readType_blames.bind fun _ => hblock.bind fun _ =>
      blames_ask.bind fun _ => blames_pure
  split
  · exact hend []
  · exact (readParams_blames n).bind hend

/-- Every form of a statement blames tokens of the list when its parts do. One chain of steps for
each form, link by link as the handlers have them. -/
theorem StmtForm.read_blames (hoperands : ∀ p, (operands p).Blames tokens)
    (hblock : block.Blames tokens) (n : Nat) (form : StmtForm) :
    (form.read operands block n).Blames tokens := by
  cases form with
  | print =>
    exact blames_advance.bind fun _ => blames_expect.bind fun _ =>
      (hoperands .default).bind fun _ => blames_expect.bind fun _ =>
        blames_expect.bind fun _ => blames_ask.bind fun _ => blames_pure
  | var => exact readVar_blames hoperands
  | const =>
    exact blames_advance.bind fun _ => (readName_blames _).bind fun _ =>
      blames_expectWhere.bind fun _ => (hoperands .default).bind fun _ =>
        blames_expect.bind fun _ => blames_ask.bind fun _ => blames_pure
  | write =>
    exact blames_advance.bind fun _ => blames_expectWhere.bind fun _ =>
      (hoperands .default).bind fun _ => blames_expect.bind fun _ =>
        blames_ask.bind fun _ => blames_pure
  | branch => exact readBranch_blames hoperands hblock
  | loop =>
    exact blames_advance.bind fun _ => (hoperands .default).bind fun _ => hblock.bind fun _ =>
      blames_ask.bind fun _ => blames_pure
  | function => exact readFunction_blames hblock n
  | ret =>
    exact blames_advance.bind fun _ => (hoperands .default).bind fun _ =>
      blames_expect.bind fun _ => blames_ask.bind fun _ => blames_pure

/-- **A statement blames tokens of the list**, at every depth, by induction on the fuel. A token
that starts no statement is blamed itself. -/
theorem stmt_blames (g : Grammar) (n : Nat) : (g.stmt n).Blames tokens := by
  induction n with
  | zero => exact blames_endless
  | succ n ih =>
    refine blames_ask.bind fun k => ?_
    cases g.stmt? k with
    | none => exact blames_unexpectedWhere
    | some form => exact form.read_blames (expr_blames g n) (readBlock_blames ih n) n

/-- A program blames tokens of the list. -/
theorem program_blames (g : Grammar) (n : Nat) : (g.program n).Blames tokens :=
  (readStmtsUntil_blames (stmt_blames g n) _ n).bind fun _ => blames_ask.bind fun _ => blames_pure

end Statements

/-- **A syntax error in a list of tokens is about one of them.** Its position is the start of this
token and its text is the text of the token, or the token is a number that is out of range. -/
theorem names_of_ofTokens_eq_invalid {tokens : List Token} {e : SyntaxError}
    (h : Program.ofTokens tokens = .error (.invalid e)) : e.Names tokens := by
  cases tokens with
  | nil => cases h
  | cons u us =>
    have hfrom : Tape.From ⟨u, us, .origin, false⟩ (u :: us) :=
      ⟨List.mem_cons_self, fun v hv => List.mem_cons_of_mem u hv⟩
    have hblames := program_blames Grammar.standard (Tape.fuel ⟨u, us, .origin, false⟩) _ hfrom
    simp only [Program.ofTokens, Tape.ofTokens?] at h
    generalize Grammar.standard.program _ _ = outcome at h hblames
    cases outcome with
    | ok => cases h
    | error e' t' =>
      cases h
      cases hblames with
      | error h => exact h
    | endless => cases h

end Pulse

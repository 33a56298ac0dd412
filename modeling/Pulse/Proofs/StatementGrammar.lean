/-
How statements are written.

The grammar of statements says of a list of tokens which statement it stands for, down to the
stretches of source, as the layered grammar does for expressions. Every stretch goes from the start
of the first token of a statement to the end of its last one.

The readers of statements keep to it. Each form is read token by token; parts that may be absent
are decided by the token in front of them. So the tokens of a program, up to the end of input, are
those of its statements, one behind the other.
-/
import Pulse.Proofs.LayeredReading
import Pulse.Proofs.ProgramVerdicts

set_option autoImplicit false

namespace Pulse

open Grammar Reader

/-! ## The grammar -/

/-- The type annotation that a token stands for. -/
def Token.typeName (t : Token) : TypeName := ⟨t.value, t.span⟩

/-- A parameter as it is written: a name and a type. -/
structure WrittenParam where
  name : Token
  type : Token
  name_kind : name.kind = .identifier
  type_kind : type.kind = .identifier

namespace WrittenParam

def tokens (w : WrittenParam) : List Token := [w.name, w.type]

def param (w : WrittenParam) : Param :=
  ⟨w.name.value, w.type.typeName, ⟨w.name.span.start, w.type.span.stop⟩⟩

end WrittenParam

/-- A block as it is written: statements in braces, each with its tokens. -/
structure WrittenBlock where
  opening : Token
  parts : List (List Token × Stmt)
  closing : Token
  opening_kind : opening.kind = .openCurly
  closing_kind : closing.kind = .closeCurly

namespace WrittenBlock

def tokens (b : WrittenBlock) : List Token :=
  b.opening :: ((b.parts.map Prod.fst).flatten ++ [b.closing])

def stmts (b : WrittenBlock) : List Stmt := b.parts.map Prod.snd

end WrittenBlock

/-- **The grammar of statements.** Tokens derive a statement. -/
inductive Written : List Token → Stmt → Prop where
  | print {us : List Token} {start opening closing stop : Token} {value : Expr Span}
      (hstart : start.kind = .kwPrint) (hopening : opening.kind = .openParen)
      (hvalue : Layered .logical us value) (hclosing : closing.kind = .closeParen)
      (hstop : stop.kind = .semicolon) :
      Written (start :: opening :: (us ++ [closing, stop]))
        (.print ⟨start.span.start, stop.span.stop⟩ value)
  | bare {start name type stop : Token} (hstart : start.kind = .kwVar)
      (hname : name.kind = .identifier) (htype : type.kind = .identifier)
      (hstop : stop.kind = .semicolon) :
      Written [start, name, type, stop]
        (.var ⟨start.span.start, stop.span.stop⟩ name.value type.typeName none)
  | var {us : List Token} {start name type arrow stop : Token} {value : Expr Span}
      (hstart : start.kind = .kwVar) (hname : name.kind = .identifier)
      (htype : type.kind = .identifier) (harrow : arrow.kind = .assignment)
      (hvalue : Layered .logical us value) (hstop : stop.kind = .semicolon) :
      Written (start :: name :: type :: arrow :: (us ++ [stop]))
        (.var ⟨start.span.start, stop.span.stop⟩ name.value type.typeName (some value))
  | const {us : List Token} {start name arrow stop : Token} {value : Expr Span}
      (hstart : start.kind = .kwConst) (hname : name.kind = .identifier)
      (harrow : arrow.kind = .assignment) (hvalue : Layered .logical us value)
      (hstop : stop.kind = .semicolon) :
      Written (start :: name :: arrow :: (us ++ [stop]))
        (.const ⟨start.span.start, stop.span.stop⟩ name.value value)
  | write {us : List Token} {target arrow stop : Token} {value : Expr Span}
      (htarget : target.kind = .identifier) (harrow : arrow.kind = .assignment)
      (hvalue : Layered .logical us value) (hstop : stop.kind = .semicolon) :
      Written (target :: arrow :: (us ++ [stop]))
        (.write ⟨target.span.start, stop.span.stop⟩ target.value value)
  | branch {us : List Token} {start : Token} {condition : Expr Span} (block : WrittenBlock)
      (hstart : start.kind = .kwIf) (hcondition : Layered .logical us condition)
      (hblock : ∀ part ∈ block.parts, Written part.1 part.2) :
      Written (start :: (us ++ block.tokens))
        (.branch ⟨start.span.start, block.closing.span.stop⟩ condition block.stmts [])
  | branchElse {us : List Token} {start middle : Token} {condition : Expr Span}
      (block other : WrittenBlock) (hstart : start.kind = .kwIf)
      (hcondition : Layered .logical us condition)
      (hblock : ∀ part ∈ block.parts, Written part.1 part.2) (hmiddle : middle.kind = .kwElse)
      (hother : ∀ part ∈ other.parts, Written part.1 part.2) :
      Written (start :: (us ++ (block.tokens ++ middle :: other.tokens)))
        (.branch ⟨start.span.start, other.closing.span.stop⟩ condition block.stmts other.stmts)
  | loop {us : List Token} {start : Token} {condition : Expr Span} (block : WrittenBlock)
      (hstart : start.kind = .kwWhile) (hcondition : Layered .logical us condition)
      (hblock : ∀ part ∈ block.parts, Written part.1 part.2) :
      Written (start :: (us ++ block.tokens))
        (.loop ⟨start.span.start, block.closing.span.stop⟩ condition block.stmts)
  | function {us : List Token} {start name opening closing type : Token}
      (params : List WrittenParam) (block : WrittenBlock) (hstart : start.kind = .kwFunction)
      (hname : name.kind = .identifier) (hopening : opening.kind = .openParen)
      (hcommas : Commas (params.map WrittenParam.tokens) us) (hclosing : closing.kind = .closeParen)
      (htype : type.kind = .identifier)
      (hblock : ∀ part ∈ block.parts, Written part.1 part.2) :
      Written (start :: name :: opening :: (us ++ closing :: type :: block.tokens))
        (.function ⟨start.span.start, block.closing.span.stop⟩ name.value
          (params.map WrittenParam.param) type.typeName block.stmts)
  | ret {us : List Token} {start stop : Token} {value : Expr Span}
      (hstart : start.kind = .kwReturn) (hvalue : Layered .logical us value)
      (hstop : stop.kind = .semicolon) :
      Written (start :: (us ++ [stop])) (.ret ⟨start.span.start, stop.span.stop⟩ value)

/-! ## Parts of statements -/

namespace Reader

variable {α β : Type} {t : Tape}

/-- A value that is known needs no reading. -/
theorem yields_pure_bind {a : α} {f : α → Reader β} {Q : β → List Token → Tape → Prop}
    (h : (f a).Yields Q t) : (pure a >>= f).Yields Q t := h

/-- What a reader has passed is what the tape showed. -/
theorem Yields.shown {r : Reader α} {P : α → List Token → Tape → Prop} (h : r.Yields P t) :
    r.Yields (fun a us t' => P a us t' ∧ t.Shows us t') t := by
  intro hends a t' ha
  obtain ⟨us, hshows, hpost⟩ := h hends a t' ha
  exact ⟨us, hshows, hpost, hshows⟩

/-- A reader that passes a token of a kind, or fails where it stands. -/
theorem yields_expect {k : Kind} (hk : k ≠ .eof) :
    (expect k).Yields (fun u us t' => u.kind = k ∧ us = [u] ∧ t'.lastEnd = u.span.stop) t := by
  refine yields_ask ?_
  by_cases hkind : t.kind = k
  · rw [if_pos hkind]
    refine (yields_advance (hkind ▸ hk)).imp ?_
    rintro _ us t' ⟨rfl, hus, hend⟩
    exact ⟨hkind, hus, hend⟩
  · rw [if_neg hkind]
    exact yields_unexpected

end Reader

section Parts

variable {t : Tape} {stmt : Reader Stmt}

/-- A name is one token, and its value is the name. -/
theorem readName_yields {message : String} :
    (readName message).Yields
      (fun x us _ => ∃ u : Token, u.kind = .identifier ∧ us = [u] ∧ x = u.value) t := by
  refine (yields_expectWhere (by decide)).bind ?_
  rintro u _ t' ⟨hkind, rfl, -⟩
  exact yields_pure ⟨u, hkind, rfl, rfl⟩

/-- A type is one token, and the tape ends behind it. -/
theorem readType_yields :
    readType.Yields (fun type us t' => ∃ u : Token, u.kind = .identifier ∧ us = [u] ∧
      type = u.typeName ∧ t'.lastEnd = u.span.stop) t := by
  refine (yields_expectWhere (by decide)).bind ?_
  rintro u _ t' ⟨hkind, rfl, hend⟩
  exact yields_pure ⟨u, hkind, rfl, rfl, hend⟩

/-- Tokens of parameters, with commas between them. -/
def ParamsOf (ps : List Param) (us : List Token) : Prop :=
  ∃ params : List WrittenParam, ps = params.map WrittenParam.param ∧
    Commas (params.map WrittenParam.tokens) us

/-- Parameters keep to the grammar: names and types with commas between them, at least one. By
induction on the rounds. The comma that was passed is why there is another parameter behind it. -/
theorem readParams_yields (n : Nat) :
    (readParams n).Yields (fun ps us _ => ps ≠ [] ∧ ParamsOf ps us) t := by
  induction n generalizing t with
  | zero => exact yields_endless
  | succ n ih =>
    refine yields_ask (readName_yields.shown.bind ?_)
    rintro _ _ t₁ ⟨⟨name, hname, rfl, rfl⟩, hshows⟩
    refine readType_yields.bind ?_
    rintro _ _ t₂ ⟨type, htype, rfl, rfl, hend⟩
    refine yields_ask (yields_ask ?_)
    -- The first parameter as it is written; its stretch starts with its name, which is the current
    -- token.
    obtain ⟨first, hfirst⟩ : ∃ first : WrittenParam, first = ⟨name, type, hname, htype⟩ :=
      ⟨_, rfl⟩
    have hparam : ⟨name.value, type.typeName, t₂.spanFrom t.current.span.start⟩ = first.param := by
      rw [Tape.spanFrom, hend, hshows.1, hfirst, WrittenParam.param]
    have htokens : [name] ++ [type] = first.tokens := by
      rw [hfirst, WrittenParam.tokens, List.singleton_append]
    rw [hparam]
    split
    · rename_i hcomma
      refine (yields_advance (by rw [hcomma]; decide)).bind ?_
      rintro _ _ t₃ ⟨rfl, rfl, -⟩
      refine ih.bind ?_
      rintro _ us t₄ ⟨hne, params, rfl, hcommas⟩
      refine yields_pure ⟨List.cons_ne_nil _ _, first :: params, rfl, ?_⟩
      cases params with
      | nil => exact absurd rfl hne
      | cons second params =>
        rw [List.append_nil, ← List.append_assoc, htokens]
        exact .more hcomma hcommas
    · refine yields_pure ⟨List.cons_ne_nil _ _, [first], rfl, ?_⟩
      rw [List.append_nil, htokens]
      exact .last _

/-- Tokens of statements, one behind the other. -/
def StmtsOf (ss : List Stmt) (us : List Token) : Prop :=
  ∃ parts : List (List Token × Stmt), ss = parts.map Prod.snd ∧
    us = (parts.map Prod.fst).flatten ∧ ∀ part ∈ parts, Written part.1 part.2

/-- A reader of statements that keeps to the grammar. -/
def Writes (stmt : Reader Stmt) : Prop :=
  ∀ t, stmt.Yields (fun s us _ => Written us s) t

/-- Statements up to a stop are written one behind the other. By induction on the rounds, each of
which passes the tokens of one statement. -/
theorem readStmtsUntil_yields (hstmt : Writes stmt) (stop : Kind → Bool) (n : Nat) :
    (readStmtsUntil stop stmt n).Yields (fun ss us _ => StmtsOf ss us) t := by
  induction n generalizing t with
  | zero => exact yields_endless
  | succ n ih =>
    refine yields_ask ?_
    -- At a stop nothing is passed, and otherwise one statement is.
    split
    · exact yields_pure ⟨[], rfl, rfl, List.forall_mem_nil _⟩
    · refine (hstmt t).bind ?_
      intro s us t₁ hs
      refine ih.bind ?_
      rintro _ _ t₂ ⟨parts, rfl, rfl, hparts⟩
      refine yields_pure ⟨(us, s) :: parts, rfl, ?_, List.forall_mem_cons.mpr ⟨hs, hparts⟩⟩
      rw [List.append_nil, List.map_cons, List.flatten_cons]

/-- A reader of blocks that keeps to the grammar. -/
def WritesBlock (block : Reader (List Stmt)) : Prop :=
  ∀ t, block.Yields (fun ss us t' => ∃ b : WrittenBlock,
    (∀ part ∈ b.parts, Written part.1 part.2) ∧ us = b.tokens ∧ ss = b.stmts ∧
      t'.lastEnd = b.closing.span.stop) t

/-- A block keeps to the grammar: it is written in braces, and the tape ends behind the closing
one. -/
theorem readBlock_yields (hstmt : Writes stmt) (n : Nat) : WritesBlock (readBlock stmt n) := by
  intro t
  refine (yields_expectWhere (by decide)).bind ?_
  rintro opening _ t₁ ⟨hopening, rfl, -⟩
  refine (readStmtsUntil_yields hstmt _ n).bind ?_
  rintro _ _ t₂ ⟨parts, rfl, rfl, hparts⟩
  refine (yields_expectWhere (by decide)).bind ?_
  rintro closing _ t₃ ⟨hclosing, rfl, hend⟩
  refine yields_pure ⟨⟨opening, parts, closing, hopening, hclosing⟩, hparts, ?_, rfl, hend⟩
  rw [List.append_nil, WrittenBlock.tokens, List.singleton_append]

end Parts

/-! ## Forms of statements -/

section Forms

variable {t : Tape} {operands : Operands} {block : Reader (List Stmt)}

/-- A value and a semicolon, which many statements end with. Stated for whatever is made of the
value, so that it serves all of these statements. -/
theorem value_yields (hoperands : Layers operands) (g : Span → Expr Span → Stmt)
    (start : Position) :
    Yields (do
      let value ← operands .default
      let _ ← Reader.expect .semicolon
      return g (← Reader.spanFrom start) value)
      (fun s us _ => ∃ (vs : List Token) (value : Expr Span) (stop : Token),
        Layered .logical vs value ∧ stop.kind = .semicolon ∧ us = vs ++ [stop] ∧
          s = g ⟨start, stop.span.stop⟩ value) t := by
  refine (hoperands .default t (by decide)).bind ?_
  rintro value vs t₁ ⟨hvalue, -⟩
  refine (yields_expect (by decide)).bind ?_
  rintro stop _ t₂ ⟨hstop, rfl, hend⟩
  refine yields_ask (yields_pure ⟨vs, value, stop, hvalue, hstop, ?_, ?_⟩)
  · rw [List.append_nil]
  · rw [Tape.spanFrom, hend]

/-- A `print` keeps to the grammar. The value stands in parentheses, and a semicolon follows. -/
theorem readPrint_yields (hoperands : Layers operands) (hkind : t.kind = .kwPrint) :
    (readPrint operands).Yields (fun s us _ => Written us s) t := by
  refine (yields_advance (by rw [hkind]; decide)).bind ?_
  rintro _ _ t₁ ⟨rfl, rfl, -⟩
  refine (yields_expect (by decide)).bind ?_
  rintro opening _ t₂ ⟨hopening, rfl, -⟩
  refine (hoperands .default t₂ (by decide)).bind ?_
  rintro value us t₃ ⟨hvalue, -⟩
  refine (yields_expect (by decide)).bind ?_
  rintro closing _ t₄ ⟨hclosing, rfl, -⟩
  refine (yields_expect (by decide)).bind ?_
  rintro stop _ t₅ ⟨hstop, rfl, hend⟩
  refine yields_ask (yields_pure ?_)
  rw [List.append_nil, Tape.spanFrom, hend]
  exact .print hkind hopening hvalue hclosing hstop

/-- A variable keeps to the grammar, with a value or without. The token behind the type settles
which of the two rules it is (`parse_var_decl_stmt`). -/
theorem readVar_yields (hoperands : Layers operands) (hkind : t.kind = .kwVar) :
    (readVar operands).Yields (fun s us _ => Written us s) t := by
  refine (yields_advance (by rw [hkind]; decide)).bind ?_
  rintro _ _ t₁ ⟨rfl, rfl, -⟩
  refine readName_yields.bind ?_
  rintro _ _ t₂ ⟨name, hname, rfl, rfl⟩
  refine readType_yields.bind ?_
  rintro _ _ t₃ ⟨type, htype, rfl, rfl, -⟩
  refine yields_ask ?_
  split
  · rename_i harrow
    refine (yields_advance (by rw [harrow]; decide)).bind ?_
    rintro _ _ t₄ ⟨rfl, rfl, -⟩
    refine (value_yields hoperands _ _).imp ?_
    rintro _ _ t₅ ⟨us, value, stop, hvalue, hstop, rfl, rfl⟩
    exact .var hkind hname htype harrow hvalue hstop
  · refine (yields_expect (by decide)).bind ?_
    rintro stop _ t₄ ⟨hstop, rfl, hend⟩
    refine yields_ask (yields_pure ?_)
    rw [List.append_nil, Tape.spanFrom, hend]
    exact .bare hkind hname htype hstop

/-- A constant keeps to the grammar. -/
theorem readConst_yields (hoperands : Layers operands) (hkind : t.kind = .kwConst) :
    (readConst operands).Yields (fun s us _ => Written us s) t := by
  refine (yields_advance (by rw [hkind]; decide)).bind ?_
  rintro _ _ t₁ ⟨rfl, rfl, -⟩
  refine readName_yields.bind ?_
  rintro _ _ t₂ ⟨name, hname, rfl, rfl⟩
  refine (yields_expectWhere (by decide)).bind ?_
  rintro arrow _ t₃ ⟨harrow, rfl, -⟩
  refine (value_yields hoperands _ _).imp ?_
  rintro _ _ t₄ ⟨us, value, stop, hvalue, hstop, rfl, rfl⟩
  exact .const hkind hname harrow hvalue hstop

/-- An assignment keeps to the grammar. -/
theorem readWrite_yields (hoperands : Layers operands) (hkind : t.kind = .identifier) :
    (readWrite operands).Yields (fun s us _ => Written us s) t := by
  refine (yields_advance (by rw [hkind]; decide)).bind ?_
  rintro _ _ t₁ ⟨rfl, rfl, -⟩
  refine (yields_expectWhere (by decide)).bind ?_
  rintro arrow _ t₂ ⟨harrow, rfl, -⟩
  refine (value_yields hoperands _ _).imp ?_
  rintro _ _ t₃ ⟨us, value, stop, hvalue, hstop, rfl, rfl⟩
  exact .write hkind harrow hvalue hstop

/-- A branch keeps to the grammar, with a second block or without. Its stretch ends with the last
block that is there. -/
theorem readBranch_yields (hoperands : Layers operands) (hblock : WritesBlock block)
    (hkind : t.kind = .kwIf) :
    (readBranch operands block).Yields (fun s us _ => Written us s) t := by
  refine (yields_advance (by rw [hkind]; decide)).bind ?_
  rintro _ _ t₁ ⟨rfl, rfl, -⟩
  refine (hoperands .default t₁ (by decide)).bind ?_
  rintro condition us t₂ ⟨hcondition, -⟩
  refine (hblock t₂).bind ?_
  rintro _ _ t₃ ⟨b, hb, rfl, rfl, hend⟩
  refine yields_ask ?_
  -- The token behind the first block tells whether there is a second one.
  split
  · rename_i hmiddle
    refine (yields_advance (by rw [hmiddle]; decide)).bind ?_
    rintro _ _ t₄ ⟨rfl, rfl, -⟩
    refine (hblock t₄).bind ?_
    rintro _ _ t₅ ⟨other, hother, rfl, rfl, hend⟩
    refine yields_ask (yields_pure ?_)
    rw [List.append_nil, Tape.spanFrom, hend]
    exact .branchElse b other hkind hcondition hb hmiddle hother
  · refine yields_pure_bind (yields_ask (yields_pure ?_))
    rw [List.append_nil, Tape.spanFrom, hend]
    exact .branch b hkind hcondition hb

/-- A loop keeps to the grammar. -/
theorem readLoop_yields (hoperands : Layers operands) (hblock : WritesBlock block)
    (hkind : t.kind = .kwWhile) :
    (readLoop operands block).Yields (fun s us _ => Written us s) t := by
  refine (yields_advance (by rw [hkind]; decide)).bind ?_
  rintro _ _ t₁ ⟨rfl, rfl, -⟩
  refine (hoperands .default t₁ (by decide)).bind ?_
  rintro condition us t₂ ⟨hcondition, -⟩
  refine (hblock t₂).bind ?_
  rintro _ _ t₃ ⟨b, hb, rfl, rfl, hend⟩
  refine yields_ask (yields_pure ?_)
  rw [List.append_nil, Tape.spanFrom, hend]
  exact .loop b hkind hcondition hb

/-- A function keeps to the grammar, with parameters or without. An empty list is told by the
closing parenthesis (`parse_fn_decl_stmt`). -/
theorem readFunction_yields (hblock : WritesBlock block) (hkind : t.kind = .kwFunction)
    (n : Nat) : (readFunction block n).Yields (fun s us _ => Written us s) t := by
  refine (yields_advance (by rw [hkind]; decide)).bind ?_
  rintro _ _ t₁ ⟨rfl, rfl, -⟩
  refine readName_yields.bind ?_
  rintro _ _ t₂ ⟨name, hname, rfl, rfl⟩
  refine (yields_expect (by decide)).bind ?_
  rintro opening _ t₃ ⟨hopening, rfl, -⟩
  -- Parameters or not, the rest is read in the same way.
  have hrest : ∀ ps us m, ParamsOf ps us → Yields
      (do
        let _ ← expectWhere .closeParen "expected `,` or `)` in parameter list"
        let returns ← readType
        let body ← block
        return .function (← spanFrom t.current.span.start) name.value ps returns body)
      (fun s vs _ => Written ([t.current] ++ ([name] ++ ([opening] ++ (us ++ vs)))) s) m := by
    rintro _ us m ⟨params, rfl, hcommas⟩
    refine (yields_expectWhere (by decide)).bind ?_
    rintro closing _ m₁ ⟨hclosing, rfl, -⟩
    refine readType_yields.bind ?_
    rintro _ _ m₂ ⟨type, htype, rfl, rfl, -⟩
    refine (hblock m₂).bind ?_
    rintro _ _ m₃ ⟨b, hb, rfl, rfl, hend⟩
    refine yields_ask (yields_pure ?_)
    rw [List.append_nil, Tape.spanFrom, hend]
    exact .function params b hkind hname hopening hcommas hclosing htype hb
  refine yields_ask ?_
  split
  · exact hrest [] [] t₃ ⟨[], rfl, .none⟩
  · exact (readParams_yields n).bind fun ps us m h => hrest ps us m h.2

/-- A `return` keeps to the grammar. -/
theorem readReturn_yields (hoperands : Layers operands) (hkind : t.kind = .kwReturn) :
    (readReturn operands).Yields (fun s us _ => Written us s) t := by
  refine (yields_advance (by rw [hkind]; decide)).bind ?_
  rintro _ _ t₁ ⟨rfl, rfl, -⟩
  refine (value_yields hoperands _ _).imp ?_
  rintro _ _ t₂ ⟨us, value, stop, hvalue, hstop, rfl, rfl⟩
  exact .ret hkind hvalue hstop

end Forms

/-! ## Statements and programs -/

/-- **The reader of statements keeps to the grammar.** By induction on the depth, with one handler
for each token that a statement can start with. -/
theorem writes_stmt (n : Nat) : Writes (standard.stmt n) := by
  induction n with
  | zero => exact fun t => yields_endless
  | succ n ih =>
    intro t
    have hoperands := layers_expr n
    have hblock := readBlock_yields ih n
    refine yields_ask ?_
    cases hkind : t.kind with
    | kwPrint => exact readPrint_yields hoperands hkind
    | kwVar => exact readVar_yields hoperands hkind
    | kwConst => exact readConst_yields hoperands hkind
    | identifier => exact readWrite_yields hoperands hkind
    | kwIf => exact readBranch_yields hoperands hblock hkind
    | kwWhile => exact readLoop_yields hoperands hblock hkind
    | kwFunction => exact readFunction_yields hblock hkind n
    | kwReturn => exact readReturn_yields hoperands hkind
    | _ => exact yields_unexpectedWhere

/-- The end of the last token passed, or where the tape remembered one if there is none. So a
stretch that ends where the tape is ends with the last token of a statement. -/
theorem Tape.Shows.lastEnd {t t' : Tape} {us : List Token} (h : t.Shows us t') :
    t'.lastEnd = (us.getLast?.map (·.span.stop)).getD t.lastEnd := by
  induction us generalizing t with
  | nil =>
    obtain rfl := h
    rfl
  | cons u us ih =>
    obtain ⟨rfl, hkind, hrest, hshows⟩ := h
    obtain ⟨v, vs, hrest⟩ := List.exists_cons_of_ne_nil hrest
    rw [ih hshows, List.getLast?_cons, advance_eq hkind hrest]
    cases us.getLast? <;> rfl

/-- **The tokens of a program are those of its statements**, up to the end of input. It goes from
the start of the source to the end of the last statement. -/
theorem written_of_ofTokens {body : List Token} {last : Token} {p : Program}
    (hbody : ∀ u ∈ body, u.kind ≠ .eof) (hlast : last.kind = .eof)
    (h : Program.ofTokens (body ++ [last]) = .ok p) :
    StmtsOf p.body body ∧
      p.span = ⟨.origin, (body.getLast?.map (·.span.stop)).getD .origin⟩ := by
  obtain ⟨first, rest, htokens⟩ : ∃ first rest, body ++ [last] = first :: rest :=
    List.exists_cons_of_ne_nil (by simp)
  have hends : Tape.Ends ⟨first, rest, .origin, false⟩ := ⟨last, by rw [← htokens]; simp, hlast⟩
  -- A program starts at the origin, whatever stands in front of its first token.
  have hread : (standard.program (Tape.fuel ⟨first, rest, .origin, false⟩)).Yields
      (fun p us t' => StmtsOf p.body us ∧ p.span = ⟨.origin, t'.lastEnd⟩)
      ⟨first, rest, .origin, false⟩ := by
    refine (readStmtsUntil_yields (writes_stmt _) _ _).bind ?_
    intro ss us t' hss
    refine yields_ask (yields_pure ⟨?_, rfl⟩)
    rw [List.append_nil]
    exact hss
  rw [htokens] at h
  simp only [Program.ofTokens, Tape.ofTokens?] at h
  split at h
  · rename_i q t' hq
    cases h
    obtain ⟨us, hshows, hstmts, hspan⟩ := hread hends _ _ hq
    have htape := hshows.tokens
    rw [← htokens] at htape
    obtain rfl := eq_of_append_eof hshows.ne_eof hbody (kind_of_program hq) htape
    refine ⟨hstmts, ?_⟩
    rw [hspan, hshows.lastEnd]
  · cases h
  · cases h

end Pulse

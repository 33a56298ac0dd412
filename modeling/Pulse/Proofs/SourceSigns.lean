/-
Where the names and values of a program come from.

Every name and every value of a checked program is that of a token of its source: reading takes
them over from the tokens, and checking adds none. So what holds of the spellings of tokens holds
all the way down to the tree that code is made of. The names in it are words, and the floats are
numbers, since no numeral is read as anything else.
-/
import Pulse.Proofs.LiteralTokens
import Pulse.Proofs.RootFaults
import Pulse.Proofs.SpanNesting

set_option autoImplicit false

namespace Pulse

/-! ## The signs of statements -/

namespace Stmt

mutual

/-- The signs of a statement: the names that it binds or writes to, and those of its
expressions. -/
def signs : Stmt → List Sign
  | print _ value => value.signs
  | var _ x _ value => .name x :: (value.map Expr.signs).getD []
  | const _ x value => .name x :: value.signs
  | write _ x value => .name x :: value.signs
  | branch _ condition whenTrue whenFalse =>
    condition.signs ++ (signsOf whenTrue ++ signsOf whenFalse)
  | loop _ condition body => condition.signs ++ signsOf body
  | function _ f params _ body => .name f :: ((params.map Param.name).map .name ++ signsOf body)
  | ret _ value => value.signs

/-- The signs of the statements of a block. -/
def signsOf : List Stmt → List Sign
  | [] => []
  | s :: ss => s.signs ++ signsOf ss

end

end Stmt

namespace CheckedStmt

mutual

/-- The signs of a checked statement. -/
def signs : CheckedStmt → List Sign
  | print _ value => value.signs
  | var _ x value => .name x :: (value.map Expr.signs).getD []
  | const _ x value => .name x :: value.signs
  | write _ x value => .name x :: value.signs
  | branch _ condition whenTrue whenFalse =>
    condition.signs ++ (signsOf whenTrue ++ signsOf whenFalse)
  | loop _ condition body => condition.signs ++ signsOf body
  | function _ f params _ body =>
    .name f :: ((params.map CheckedParam.name).map .name ++ signsOf body)
  | ret _ value => value.signs

/-- The signs of the checked statements of a block. -/
def signsOf : List CheckedStmt → List Sign
  | [] => []
  | s :: ss => s.signs ++ signsOf ss

end

end CheckedStmt

/-- The signs of a function. -/
def CheckedFunction.signs (f : CheckedFunction) : List Sign :=
  .name f.name :: ((f.params.map CheckedParam.name).map .name ++ CheckedStmt.signsOf f.body)

namespace CheckedStmt

/-- The signs of a block are those of its statements. -/
theorem mem_signsOf {ss : List CheckedStmt} {sign : Sign} :
    sign ∈ signsOf ss ↔ ∃ s ∈ ss, sign ∈ s.signs := by
  induction ss with
  | nil => simp [signsOf]
  | cons s ss ih => simp [signsOf, ih]

mutual

/-- The signs of the functions in a statement are signs of the statement. So what holds of all names
and literals of a program holds of those of its functions. -/
theorem signs_functions : (s : CheckedStmt) → ∀ f ∈ s.functions, f.signs ⊆ s.signs
  | .function n name params returns body => by
    rw [functions, List.forall_mem_singleton]
    exact List.Subset.refl _
  | .branch n condition whenTrue whenFalse => by
    rw [functions, signs]
    have htrue := signs_functionsOf whenTrue
    have hfalse := signs_functionsOf whenFalse
    refine List.forall_mem_append.mpr ⟨fun f hf => ?_, fun f hf => ?_⟩
    · exact List.subset_append_of_subset_right _
        (List.subset_append_of_subset_left _ (htrue f hf))
    · exact List.subset_append_of_subset_right _
        (List.subset_append_of_subset_right _ (hfalse f hf))
  | .loop n condition body => fun f hf =>
    List.subset_append_of_subset_right _ (signs_functionsOf body f hf)
  | .print _ _ | .var _ _ _ | .const _ _ _ | .write _ _ _ | .ret _ _ => fun _ hf => nomatch hf

/-- The signs of the functions in a block are signs of the block. -/
theorem signs_functionsOf : (ss : List CheckedStmt) → ∀ f ∈ functionsOf ss, f.signs ⊆ signsOf ss
  | [] => fun _ hf => nomatch hf
  | s :: ss => by
    rw [functionsOf, signsOf]
    refine List.forall_mem_append.mpr ⟨fun f hf => ?_, fun f hf => ?_⟩
    · exact List.subset_append_of_subset_left _ (signs_functions s f hf)
    · exact List.subset_append_of_subset_right _ (signs_functionsOf ss f hf)

end

end CheckedStmt

/-! ## Checking adds no signs -/

namespace Expr

variable {α β : Type}

mutual

/-- The signs of an expression do not depend on its notes. -/
theorem signs_mapNotes (f : α → β) : (e : Expr α) → (e.mapNotes f).signs = e.signs
  | .literal _ _ => rfl
  | .read _ _ => rfl
  | .binary _ op left right => by
    rw [mapNotes, signs, signs, signs_mapNotes f left, signs_mapNotes f right]
  | .unary _ op operand => by
    rw [mapNotes, signs, signs, signs_mapNotes f operand]
  | .call _ g arguments => by
    rw [mapNotes, signs, signs, argumentSigns_mapNotesOf f arguments]

/-- Nor do those of arguments. -/
theorem argumentSigns_mapNotesOf (f : α → β) :
    (es : List (Expr α)) → argumentSigns (mapNotesOf f es) = argumentSigns es
  | [] => rfl
  | [e] => signs_mapNotes f e
  | e :: e' :: es => by
    have hes := argumentSigns_mapNotesOf f (e' :: es)
    rw [mapNotesOf] at hes
    rw [mapNotesOf, mapNotesOf, argumentSigns, argumentSigns, signs_mapNotes f e, hes]

end

end Expr

namespace Checker

/-- Checking an expression keeps its signs. -/
theorem signs_expr (c : Checker) (e : Expr Span) : (c.expr e).1.signs = e.signs := by
  have hnotes := Context.mapNotes_expr c.context e
  rw [← Expr.signs_mapNotes Typing.line, ← Expr.signs_mapNotes Span.line]
  exact congrArg Expr.signs hnotes

/-- A condition is checked as any expression is, and its tree is kept even if its type is wrong. -/
theorem condition_fst (c : Checker) (e : Expr Span) : (c.condition e).1 = (c.expr e).1 := by
  unfold condition
  dsimp only
  split
  · split <;> rfl
  · rfl

/-- Checking a condition keeps its signs. -/
theorem signs_condition (c : Checker) (e : Expr Span) : (c.condition e).1.signs = e.signs := by
  rw [condition_fst, signs_expr]

/-- Parameters keep their names. -/
theorem map_name_params (c : Checker) (ps : List Param) :
    (c.params ps).1.map CheckedParam.name = ps.map Param.name := by
  induction ps generalizing c with
  | nil => rfl
  | cons p ps ih =>
    rw [params]
    simp only [List.map_cons, ih]

/-- So do those in a signature. -/
theorem map_name_signature (c : Checker) (line : Nat) (f : String) (ps : List Param)
    (returns : TypeName) :
    (c.signature line f ps returns).1.map CheckedParam.name = ps.map Param.name :=
  map_name_params c ps

mutual

/-- **Checking a statement adds no sign.** The body of a function in a wrong place is left out.
Types that are unknown and names that are taken do not change what is kept of the others. -/
theorem signs_stmt_sublist (c : Checker) : (s : Stmt) → (c.stmt s).1.signs.Sublist s.signs
  | .print _ value | .ret _ value => by
    rw [stmt]
    simp only [CheckedStmt.signs, Stmt.signs, signs_expr]
    exact .refl _
  | .var _ x _ none => by
    rw [stmt]
    exact .refl _
  | .var _ x _ (some value) => by
    rw [stmt]
    simp only [CheckedStmt.signs, Stmt.signs, expr?, Option.map_some, signs_expr]
    exact .refl _
  | .const _ x value | .write _ x value => by
    rw [stmt]
    simp only [CheckedStmt.signs, Stmt.signs, signs_expr]
    exact .refl _
  | .branch _ condition whenTrue whenFalse => by
    have htrue := signsOf_block_sublist (c.condition condition).2 whenTrue
    have hfalse := signsOf_block_sublist ((c.condition condition).2.block whenTrue).2 whenFalse
    rw [stmt]
    simp only [CheckedStmt.signs, Stmt.signs, signs_condition]
    exact .append (.refl _) (htrue.append hfalse)
  | .loop _ condition body => by
    have hbody := signsOf_block_sublist (c.condition condition).2 body
    rw [stmt]
    simp only [CheckedStmt.signs, Stmt.signs, signs_condition]
    exact .append (.refl _) hbody
  | .function span f params returns body => by
    rw [stmt]
    dsimp only
    -- A function that is not declared at the top keeps its header only.
    split
    · simp only [CheckedStmt.signs, Stmt.signs, map_name_signature]
      exact .cons_cons _ (.append (.refl _) (List.nil_sublist _))
    · simp only [CheckedStmt.signs, Stmt.signs, map_name_signature]
      exact .cons_cons _ (.append (.refl _) (signsOf_block_sublist _ body))

/-- Checking a block adds no sign. -/
theorem signsOf_block_sublist (c : Checker) :
    (ss : List Stmt) → (CheckedStmt.signsOf (c.block ss).1).Sublist (Stmt.signsOf ss)
  | [] => .refl _
  | s :: ss => by
    have hs := signs_stmt_sublist c s
    have hss := signsOf_block_sublist (c.stmt s).2 ss
    rw [block]
    simp only [CheckedStmt.signsOf, Stmt.signsOf]
    exact hs.append hss

end

end Checker

/-! ## Signs come from tokens -/

/-- Each sign is that of one of the tokens. -/
def SignsFrom (us : List Token) (signs : List Sign) : Prop :=
  ∀ sign ∈ signs, ∃ u ∈ us, u.StandsFor sign

section SignsFrom

variable {us vs : List Token} {t : Token} {signs signs' : List Sign}

/-- Signs that come from tokens come from more tokens. -/
theorem SignsFrom.mono (h : SignsFrom us signs) (hsub : us ⊆ vs) : SignsFrom vs signs := by
  intro sign hsign
  obtain ⟨u, hu, hstands⟩ := h sign hsign
  exact ⟨u, hsub hu, hstands⟩

/-- One more token in front. -/
theorem SignsFrom.cons (h : SignsFrom us signs) (t : Token) : SignsFrom (t :: us) signs :=
  h.mono (List.subset_cons_self t us)

/-- More tokens behind. -/
theorem SignsFrom.trail (h : SignsFrom us signs) (vs : List Token) : SignsFrom (us ++ vs) signs :=
  h.mono (List.subset_append_left us vs)

/-- Signs of both lists come from the tokens of both. -/
theorem SignsFrom.append (h : SignsFrom us signs) (h' : SignsFrom vs signs') :
    SignsFrom (us ++ vs) (signs ++ signs') :=
  List.forall_mem_append.mpr ⟨h.trail vs, h'.mono (List.subset_append_right us vs)⟩

/-- A name in front. -/
theorem SignsFrom.named (h : SignsFrom us signs) (ht : t.kind = .identifier) :
    SignsFrom (t :: us) (.name t.value :: signs) :=
  List.forall_mem_cons.mpr ⟨⟨t, List.mem_cons_self, ht, rfl⟩, h.cons t⟩

/-- No signs come from any tokens. -/
theorem signsFrom_nil (us : List Token) : SignsFrom us [] := fun _ h => absurd h List.not_mem_nil

/-- What is left without parentheses was there before. -/
theorem Ungrouped.subset {kept : List Token} (h : Ungrouped us kept) : kept ⊆ us := by
  induction h with
  | nil => exact List.Subset.refl _
  | keep t _ ih => exact List.cons_subset_cons t ih
  | @group us vs kept kept' opening closing _ _ _ _ ih ih' =>
    refine List.append_subset.mpr ⟨?_, ?_⟩
    · exact fun u hu => List.mem_cons_of_mem _ (List.mem_append_left _ (ih hu))
    · exact fun u hu => List.mem_cons_of_mem _ (List.mem_append_right _ (.tail _ (ih' hu)))

/-- Signs that tokens stand for come from these. -/
theorem Accounted.signsFrom (h : Accounted us signs) : SignsFrom us signs := by
  obtain ⟨kept, hkept, hsigns⟩ := h
  -- Parentheses are tokens without a sign, so those that are kept are enough.
  refine SignsFrom.mono ?_ hkept.subset
  clear hkept
  induction hsigns with
  | nil => exact signsFrom_nil _
  | cons hstands _ ih =>
    exact List.forall_mem_cons.mpr ⟨⟨_, List.mem_cons_self, hstands⟩, ih.cons _⟩

/-- The signs of statements in a row come from their tokens. -/
theorem signsFrom_flatten {parts : List (List Token × Stmt)}
    (h : ∀ part ∈ parts, SignsFrom part.1 part.2.signs) :
    SignsFrom (parts.map Prod.fst).flatten (Stmt.signsOf (parts.map Prod.snd)) := by
  induction parts with
  | nil => exact signsFrom_nil _
  | cons part parts ih =>
    obtain ⟨hpart, hparts⟩ := List.forall_mem_cons.mp h
    exact hpart.append (ih hparts)

/-- The signs of a block come from its tokens; braces stand for none. -/
theorem WrittenBlock.signsFrom {b : WrittenBlock}
    (h : ∀ part ∈ b.parts, SignsFrom part.1 part.2.signs) :
    SignsFrom b.tokens (Stmt.signsOf b.stmts) :=
  ((signsFrom_flatten h).trail [b.closing]).cons b.opening

/-- The names of parameters come from their tokens. -/
theorem signsFrom_params {params : List WrittenParam}
    (h : Commas (params.map WrittenParam.tokens) us) :
    SignsFrom us (((params.map WrittenParam.param).map Param.name).map .name) := by
  intro sign hsign
  simp only [List.map_map, List.mem_map] at hsign
  obtain ⟨w, hw, rfl⟩ := hsign
  refine ⟨w.name, h.flatten_sublist.subset ?_, w.name_kind, rfl⟩
  exact List.mem_flatten_of_mem (List.mem_map_of_mem hw) List.mem_cons_self

/-- **The signs of a statement come from its tokens.** By induction on the grammar: every name and
every literal of a statement is the text of one of its tokens. -/
theorem Written.signsFrom {s : Stmt} (h : Written us s) : SignsFrom us s.signs := by
  induction h with
  | @print _ start opening closing stop _ _ _ hvalue =>
    exact ((hvalue.accounted.signsFrom.trail [closing, stop]).cons opening).cons start
  | @bare start name type stop _ hname =>
    exact ((signsFrom_nil [type, stop]).named hname).cons start
  | @var _ start name type arrow stop _ _ hname _ _ hvalue =>
    have hrest := ((hvalue.accounted.signsFrom.trail [stop]).cons arrow).cons type
    exact (hrest.named hname).cons start
  | @const _ start name arrow stop _ _ hname _ hvalue =>
    have hrest := (hvalue.accounted.signsFrom.trail [stop]).cons arrow
    exact (hrest.named hname).cons start
  | @write _ target arrow stop _ htarget _ hvalue =>
    exact ((hvalue.accounted.signsFrom.trail [stop]).cons arrow).named htarget
  | @branch us start _ block _ hcondition _ ih =>
    have hparts := hcondition.accounted.signsFrom.append (WrittenBlock.signsFrom ih)
    rw [Stmt.signs, Stmt.signsOf, List.append_nil]
    exact hparts.cons start
  | @branchElse us start middle _ block other _ hcondition _ _ _ ih ih' =>
    have hblocks := (WrittenBlock.signsFrom ih).append ((WrittenBlock.signsFrom ih').cons middle)
    exact (hcondition.accounted.signsFrom.append hblocks).cons start
  | @loop us start _ block _ hcondition _ ih =>
    exact (hcondition.accounted.signsFrom.append (WrittenBlock.signsFrom ih)).cons start
  | @function us start name opening closing type params block _ hname _ hcommas _ _ _ ih =>
    have hbody := ((WrittenBlock.signsFrom ih).cons type).cons closing
    have hparts := ((signsFrom_params hcommas).append hbody).cons opening
    exact (hparts.named hname).cons start
  | @ret _ start stop _ _ hvalue =>
    exact (hvalue.accounted.signsFrom.trail [stop]).cons start

end SignsFrom

/-! ## Numerals are numbers -/

namespace Number

open Binary64

variable {cs : List Char} {n : Nat}

/-- Bits up to those of infinity are a number, with either sign. -/
theorem isNaN_ofMagnitude (h : n ≤ infinityBits) (negative : Bool) :
    (ofMagnitude negative n).isNaN = false := by
  have hbits : infinityBits = 9218868437227405312 := rfl
  have hsign : Nat.pow 2 63 = 9223372036854775808 := rfl
  rw [hbits] at h
  rw [isNaN, decide_eq_false_iff_not, magnitude, ofMagnitude, hbits, hsign, UInt64.toNat_ofNat']
  split <;> omega

/-- Rounding stops at infinity. -/
theorem magnitudeOfDecimal_le (digits : Nat) (exponent : Int) :
    magnitudeOfDecimal digits exponent ≤ infinityBits := by
  rw [magnitudeOfDecimal]
  split
  · exact Nat.zero_le _
  · split
    · exact Nat.le_refl _
    · exact Nat.min_le_right _ _

/-- A numeral is read as a number, which may be infinite. -/
theorem readMagnitude?_le (h : readMagnitude? cs = some n) : n ≤ infinityBits := by
  simp only [readMagnitude?, Option.bind_eq_bind, Option.bind_eq_some_iff] at h
  obtain ⟨digits, -, exponent, -, h⟩ := h
  rw [← Option.some.inj h]
  exact magnitudeOfDecimal_le _ _

/-- Digits have no other case. -/
theorem toLower_of_isDigit {c : Char} (h : c.isDigit) : c.toLower = c := by
  simp only [Char.isDigit, Bool.and_eq_true, decide_eq_true_eq] at h
  unfold Char.toLower
  rw [dif_neg]
  rintro ⟨hletter, -⟩
  exact absurd (UInt32.le_trans hletter h.2) (by decide)

/-- A text with a digit in it is not one of the words for infinity and for what is no number. A
digit stays a digit in lower case, and these words have none. -/
theorem wordMagnitude?_eq_none {c : Char} (hc : c ∈ cs) (hdigit : c.isDigit) :
    wordMagnitude? cs = none := by
  have hword : ∀ w : List Char, w.all (!Char.isDigit ·) = true → cs.map Char.toLower ≠ w := by
    rintro w hw rfl
    have hlower := List.all_eq_true.mp hw _ (List.mem_map_of_mem hc)
    rw [toLower_of_isDigit hdigit, hdigit] at hlower
    cases hlower
  rw [wordMagnitude?, if_neg, if_neg]
  · exact hword _ rfl
  · rw [not_or]
    exact ⟨hword _ rfl, hword _ rfl⟩

/-- What a text with a digit in it is read as is a number. The only text that is read as none is a
word without digits. -/
theorem isNaN_of_readDecimal? {x : Binary64} {c : Char} (hc : c ∈ cs) (hdigit : c.isDigit)
    (h : readDecimal? cs = some x) : x.isNaN = false := by
  have hbody : ∀ (body : List Char) (negative : Bool), c ∈ body →
      ((wordMagnitude? body).orElse fun _ => readMagnitude? body).map (ofMagnitude negative) =
        some x → x.isNaN = false := by
    intro body negative hc hx
    rw [wordMagnitude?_eq_none hc hdigit] at hx
    obtain ⟨n, hn, rfl⟩ := Option.map_eq_some_iff.mp hx
    exact isNaN_ofMagnitude (readMagnitude?_le hn) negative
  -- A sign in front is no digit, so the digit stands behind it.
  have htail : ∀ {d : Char} {ds : List Char}, c ∈ d :: ds → d.isDigit = false → c ∈ ds := by
    intro d ds hmem hd
    refine (List.mem_cons.mp hmem).resolve_left ?_
    rintro rfl
    rw [hdigit] at hd
    cases hd
  unfold readDecimal? at h
  split at h
  rename_i negative body hparts
  have hmem : c ∈ body := by
    split at hparts <;> cases hparts
    exacts [htail hc rfl, htail hc rfl, hc]
  exact hbody body negative hmem h

end Number

/-! ## Programs -/

/-- A name that is a word, a value that is a number, or a mark. -/
def Sign.Plain : Sign → Prop
  | .value (.float x) => x.isNaN = false
  | .value _ => True
  | .name x => WordText x.toList
  | .mark _ => True

/-- A float has a digit in it. So it is none of the words that are read as a number, too. -/
theorem FloatText.exists_digit {cs : List Char} (h : FloatText cs) : ∃ c ∈ cs, c.isDigit := by
  have hrun : ∀ {ds : List Char}, ds ≠ [] → (∀ c ∈ ds, c.isDigit) → ∃ c ∈ ds, c.isDigit := by
    intro ds hne hds
    obtain ⟨c, hc⟩ := List.exists_mem_of_ne_nil ds hne
    exact ⟨c, hc, hds c hc⟩
  cases h with
  | point hwhole hfraction hne =>
    -- There are digits on at least one side of the point.
    rcases hne with hne | hne
    · obtain ⟨c, hc, hdigit⟩ := hrun hne hwhole
      exact ⟨c, by simp [hc], hdigit⟩
    · obtain ⟨c, hc, hdigit⟩ := hrun hne hfraction
      exact ⟨c, by simp [hc], hdigit⟩
  | scaled hwhole =>
    obtain ⟨c, hc, hdigit⟩ := hrun hwhole.ne_nil hwhole.all
    exact ⟨c, by simp [hc], hdigit⟩

/-- The value of a name is a word. -/
theorem Spells.wordText {piece : List Char} {v : String} (h : Spells .identifier piece v) :
    WordText v.toList := by
  cases h with
  | fixed h => cases h
  | name h _ =>
    rw [String.toList_ofList]
    exact h

/-- The value of a float is its text. -/
theorem Spells.floatText {piece : List Char} {v : String} (h : Spells .float piece v) :
    FloatText v.toList := by
  cases h with
  | fixed h => cases h
  | float h =>
    rw [String.toList_ofList]
    exact h

/-- What a token stands for is plain. Names are words, and a float is a number because there is a
digit in it. -/
theorem Spells.plain {t : Token} {piece : List Char} {sign : Sign}
    (h : Spells t.kind piece t.value) (hsign : t.StandsFor sign) : sign.Plain := by
  cases sign with
  | mark k => trivial
  | name x =>
    obtain ⟨hkind, rfl⟩ := hsign
    rw [hkind] at h
    exact h.wordText
  | value v =>
    cases hsign with
    | int | char | bool => trivial
    | float hkind hread =>
      rw [hkind] at h
      obtain ⟨c, hc, hdigit⟩ := h.floatText.exists_digit
      exact Number.isNaN_of_readDecimal? hc hdigit hread

/-- **The signs of a checked program are plain**: its names are words, and its values are
numbers. -/
theorem plain_of_source {source : String} {tokens : List Token} {p : Program}
    (htokens : tokenize source = .ok tokens) (hp : Program.ofTokens tokens = .ok p) :
    ∀ sign ∈ CheckedStmt.signsOf p.analyze.program.body, sign.Plain := by
  obtain ⟨body, htape, hbody⟩ := exists_body_of_scan htokens
  have hspelled : ∀ u ∈ body, ∃ piece, Spells u.kind piece u.value := by
    intro u hu
    have hmem : u ∈ tokens := htape ▸ List.mem_append_left _ hu
    exact exists_spells_of_scan htokens u hmem (hbody u hu)
  rw [htape] at hp
  obtain ⟨⟨parts, hstmts, htokens, hwritten⟩, -⟩ := written_of_ofTokens hbody rfl hp
  have hfrom := signsFrom_flatten fun part hpart => (hwritten part hpart).signsFrom
  rw [← hstmts, ← htokens] at hfrom
  intro sign hsign
  have hsource := (Checker.signsOf_block_sublist .start p.body).subset hsign
  obtain ⟨u, hu, hstands⟩ := hfrom sign hsource
  obtain ⟨piece, hspells⟩ := hspelled u hu
  exact hspells.plain hstands

end Pulse

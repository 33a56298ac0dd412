/-
Stretches of source nest and stay in order.

A statement, an expression, a parameter and a type annotation all carry the stretch of source they
were read from. Some stretches are put together from those of the operands, some go from an operator
to the end of its operand, some from the first token of a statement to the last one passed, and
parentheses leave no trace. All of them come to the same thing: every node covers tokens, from its
first one to its last one, and the tokens of its parts stand among them one part behind the other.
What is said about stretches then follows from the order of the tokens.
-/
import Mathlib.Data.List.NodupEquivFin
import Pulse.Proofs.ScanRounds
import Pulse.Proofs.StatementGrammar
import Pulse.Proofs.Tiling

set_option autoImplicit false

namespace Pulse

/-! ## Trees of stretches -/

/-- The stretch of a node, and those of the nodes below it. -/
inductive SpanTree where
  | node (span : Span) (children : List SpanTree)

def SpanTree.span : SpanTree → Span
  | node span _ => span

namespace Expr

mutual

/-- The stretches of an expression. -/
def spanTree : Expr Span → SpanTree
  | literal span _ => .node span []
  | read span _ => .node span []
  | binary span _ left right => .node span [left.spanTree, right.spanTree]
  | unary span _ operand => .node span [operand.spanTree]
  | call span _ arguments => .node span (spanTrees arguments)

def spanTrees : List (Expr Span) → List SpanTree
  | [] => []
  | e :: es => e.spanTree :: spanTrees es

end

/-- The stretches of arguments are those of each of them. -/
theorem spanTrees_eq (es : List (Expr Span)) : spanTrees es = es.map spanTree := by
  induction es with
  | nil => rfl
  | cons e es ih => rw [spanTrees, ih, List.map_cons]

/-- The topmost stretch is that of the expression itself. -/
theorem span_spanTree (e : Expr Span) : e.spanTree.span = e.note := by
  cases e <;> rw [spanTree] <;> rfl

end Expr

/-- The stretch of a type annotation. -/
def TypeName.spanTree (type : TypeName) : SpanTree := .node type.span []

/-- The stretches of a parameter. -/
def Param.spanTree (p : Param) : SpanTree := .node p.span [p.type.spanTree]

namespace Stmt

mutual

/-- The stretches of a statement. Those in its blocks stand behind those of its condition, or of
its parameters and its type. -/
def spanTree : Stmt → SpanTree
  | print span value => .node span [value.spanTree]
  | var span _ type value => .node span (type.spanTree :: (value.map Expr.spanTree).toList)
  | const span _ value => .node span [value.spanTree]
  | write span _ value => .node span [value.spanTree]
  | branch span condition whenTrue whenFalse =>
    .node span (condition.spanTree :: (spanTrees whenTrue ++ spanTrees whenFalse))
  | loop span condition body => .node span (condition.spanTree :: spanTrees body)
  | function span _ params returns body =>
    .node span (params.map Param.spanTree ++ returns.spanTree :: spanTrees body)
  | ret span value => .node span [value.spanTree]

def spanTrees : List Stmt → List SpanTree
  | [] => []
  | s :: ss => s.spanTree :: spanTrees ss

end

/-- The stretches of a block are those of its statements. -/
theorem spanTrees_eq (ss : List Stmt) : spanTrees ss = ss.map spanTree := by
  induction ss with
  | nil => rfl
  | cons s ss ih => rw [spanTrees, ih, List.map_cons]

/-- The topmost stretch is that of the statement itself. -/
theorem span_spanTree (s : Stmt) : s.spanTree.span = s.span := by
  cases s <;> rw [spanTree] <;> rfl

end Stmt

/-- The stretches of a program. -/
def Program.spanTree (p : Program) : SpanTree := .node p.span (p.body.map Stmt.spanTree)

/-! ## What is said about them -/

namespace Span

/-- A stretch lies inside another one. -/
def Inside (a b : Span) : Prop :=
  b.start.offset ≤ a.start.offset ∧ a.stop.offset ≤ b.stop.offset

/-- A stretch ends where another one starts, or in front of it. -/
def Before (a b : Span) : Prop := a.stop.offset ≤ b.start.offset

/-- A stretch that is not empty, and goes from the start of one of some tokens to the end of the
same or of a later one. -/
def Bounded (tokens : List Token) (a : Span) : Prop :=
  a.start.offset < a.stop.offset ∧ ∃ (i j : Nat) (first last : Token), i ≤ j ∧
    tokens[i]? = some first ∧ tokens[j]? = some last ∧ a = ⟨first.span.start, last.span.stop⟩

end Span

namespace SpanTree

/-- Children lie inside their parents, and siblings are in order and do not overlap. -/
inductive Nested : SpanTree → Prop where
  | node {span : Span} {children : List SpanTree} (inside : ∀ c ∈ children, c.span.Inside span)
      (ordered : children.Pairwise fun c d => c.span.Before d.span)
      (h : ∀ c ∈ children, c.Nested) : Nested (.node span children)

/-- Something holds of the stretches of all nodes. -/
inductive Everywhere (P : Span → Prop) : SpanTree → Prop where
  | node {span : Span} {children : List SpanTree} (here : P span)
      (h : ∀ c ∈ children, c.Everywhere P) : Everywhere P (.node span children)

end SpanTree

/-! ## Trees over tokens -/

/-- **A tree covers tokens.** Its stretch goes from the first token to the last one, and the tokens
of its children stand among them in the order of the children. -/
inductive Covers : List Token → SpanTree → Prop where
  | node {us : List Token} {first last : Token} (parts : List (List Token × SpanTree))
      (hfirst : us.head? = some first) (hlast : us.getLast? = some last)
      (hparts : (parts.map Prod.fst).flatten.Sublist us)
      (h : ∀ part ∈ parts, Covers part.1 part.2) :
      Covers us (.node ⟨first.span.start, last.span.stop⟩ (parts.map Prod.snd))

/-- Trees cover tokens among others, one tree behind the other. -/
def Spread (us : List Token) (trees : List SpanTree) : Prop :=
  ∃ parts : List (List Token × SpanTree), trees = parts.map Prod.snd ∧
    (parts.map Prod.fst).flatten.Sublist us ∧ ∀ part ∈ parts, Covers part.1 part.2

section Trees

variable {us vs : List Token} {tree : SpanTree} {trees trees' : List SpanTree}

/-- A tree that covers tokens goes from the start of the first one to the end of the last one. -/
theorem Covers.span_eq (h : Covers us tree) : ∃ first last, us.head? = some first ∧
    us.getLast? = some last ∧ tree.span = ⟨first.span.start, last.span.stop⟩ := by
  cases h with
  | @node _ first last parts hfirst hlast => exact ⟨first, last, hfirst, hlast, rfl⟩

/-- Trees over tokens are covered by a node that goes from the first one to the last one. -/
theorem Spread.covers {first last : Token} (h : Spread us trees) (hfirst : us.head? = some first)
    (hlast : us.getLast? = some last) :
    Covers us (.node ⟨first.span.start, last.span.stop⟩ trees) := by
  obtain ⟨parts, rfl, hparts, hcovers⟩ := h
  exact .node parts hfirst hlast hparts hcovers

/-- A tree over all tokens is one over tokens among them. -/
theorem Covers.spread (h : Covers us tree) : Spread us [tree] :=
  ⟨[(us, tree)], rfl, by simp, List.forall_mem_singleton.mpr h⟩

/-- There need not be any trees. -/
theorem spread_nil (us : List Token) : Spread us [] :=
  ⟨[], rfl, us.nil_sublist, List.forall_mem_nil _⟩

/-- Trees over tokens are trees over more tokens. -/
theorem Spread.mono (h : Spread us trees) (hsub : us.Sublist vs) : Spread vs trees := by
  obtain ⟨parts, rfl, hparts, hcovers⟩ := h
  exact ⟨parts, rfl, hparts.trans hsub, hcovers⟩

/-- One more token in front. -/
theorem Spread.cons (h : Spread us trees) (t : Token) : Spread (t :: us) trees :=
  h.mono (us.sublist_cons_self t)

/-- More tokens behind. -/
theorem Spread.trail (h : Spread us trees) (vs : List Token) : Spread (us ++ vs) trees :=
  h.mono (us.sublist_append_left vs)

/-- Trees over both lists of tokens, one behind the other. -/
theorem Spread.append (h : Spread us trees) (h' : Spread vs trees') :
    Spread (us ++ vs) (trees ++ trees') := by
  obtain ⟨parts, rfl, hparts, hcovers⟩ := h
  obtain ⟨parts', rfl, hparts', hcovers'⟩ := h'
  refine ⟨parts ++ parts', by simp, ?_, List.forall_mem_append.mpr ⟨hcovers, hcovers'⟩⟩
  rw [List.map_append, List.flatten_append]
  exact hparts.append hparts'

/-- One tree over tokens covers some of them. -/
theorem Spread.exists_covers (h : Spread us [tree]) : ∃ vs, vs.Sublist us ∧ Covers vs tree := by
  obtain ⟨parts, htree, hparts, hcovers⟩ := h
  obtain ⟨⟨vs, _⟩, rfl, rfl⟩ := List.map_eq_singleton_iff.mp htree.symm
  exact ⟨vs, by simpa using hparts, hcovers _ List.mem_cons_self⟩

/-- Lists of tokens one behind the other, a tree over each. -/
theorem spread_flatten {α : Type} {parts : List (List Token × α)} {f : α → SpanTree}
    (h : ∀ part ∈ parts, Spread part.1 [f part.2]) :
    Spread (parts.map Prod.fst).flatten ((parts.map Prod.snd).map f) := by
  induction parts with
  | nil => exact spread_nil _
  | cons part parts ih =>
    obtain ⟨hpart, hparts⟩ := List.forall_mem_cons.mp h
    exact hpart.append (ih hparts)

end Trees

/-! ## Expressions over their tokens -/

/-- A name is one of its tokens, with or without parentheses. -/
theorem GroupedName.name_mem {name : Token} {us : List Token} (h : GroupedName name us) :
    name ∈ us := by
  induction h with
  | name => exact List.mem_cons_self
  | group _ _ _ ih => exact List.mem_cons_of_mem _ (List.mem_append_left _ ih)

/-- Without the commas the tokens of the parts are left, in order. -/
theorem Commas.flatten_sublist {parts : List (List Token)} {us : List Token}
    (h : Commas parts us) : parts.flatten.Sublist us := by
  induction h with
  | none => exact .slnil
  | last us => simp
  | @more us _ ws _ comma _ _ ih =>
    exact (List.Sublist.refl us).append (ih.trans (ws.sublist_cons_self comma))

/-- **The stretches of an expression lie over its tokens**, without the parentheses around it. An
operation reaches from the first token of its left operand to the last one of its right operand. -/
theorem Layered.spread {p : Power} {us : List Token} {e : Expr Span} (h : Layered p us e) :
    Spread us [e.spanTree] := by
  induction h with
  | @binary _ _ t left right op _ _ _ ihleft ihright =>
    obtain ⟨us, hus, hleft⟩ := ihleft.exists_covers
    obtain ⟨vs, hvs, hright⟩ := ihright.exists_covers
    obtain ⟨first, _, hfirst, -, hstart⟩ := hleft.span_eq
    obtain ⟨_, last, -, hlast, hstop⟩ := hright.span_eq
    rw [Expr.span_spanTree] at hstart hstop
    -- Parentheses around an operand are no part of its stretch, so the stretch of the operation may
    -- lie inside of the tokens.
    rw [Expr.spanTree, hstart, hstop]
    refine ((hleft.spread.append (hright.spread.cons t)).covers ?_ ?_).spread.mono
      (hus.append (hvs.cons_cons t))
    · rw [List.head?_append, hfirst, Option.some_or]
    · simp [List.getLast?_cons, hlast]
  | tighter _ ih => exact ih
  | @unary _ t operand op _ _ ih =>
    obtain ⟨us, hus, hoperand⟩ := ih.exists_covers
    obtain ⟨_, last, -, hlast, hstop⟩ := hoperand.span_eq
    rw [Expr.span_spanTree] at hstop
    rw [Expr.spanTree, hstop]
    refine ((hoperand.spread.cons t).covers rfl ?_).spread.mono (hus.cons_cons t)
    rw [List.getLast?_cons, hlast, Option.getD_some]
  | @call us vs name opening closing arguments hcallee _ _ hcommas _ ih =>
    have harguments := (spread_flatten ih).mono hcommas.flatten_sublist
    have hname : [name].Sublist us := List.singleton_sublist.mpr hcallee.name_mem
    rw [Expr.spanTree, Expr.spanTrees_eq]
    refine ((((harguments.trail [closing]).cons opening).cons name).covers rfl ?_).spread.mono
      (hname.append (List.Sublist.refl _))
    simp [List.getLast?_cons]
  | @literal t _ _ =>
    rw [Expr.spanTree]
    exact ((spread_nil [t]).covers rfl rfl).spread
  | @name t _ =>
    rw [Expr.spanTree]
    exact ((spread_nil [t]).covers rfl rfl).spread
  | @group _ opening closing _ _ _ _ ih => exact (ih.trail [closing]).cons opening

/-! ## Statements over their tokens -/

/-- The stretch of a type annotation is that of its token. -/
theorem Token.spread_typeName (t : Token) : Spread [t] [t.typeName.spanTree] :=
  Covers.spread ((spread_nil [t]).covers rfl rfl)

/-- The stretch of a parameter goes from its name to its type. -/
theorem WrittenParam.spread (w : WrittenParam) : Spread w.tokens [w.param.spanTree] :=
  Covers.spread ((w.type.spread_typeName.cons w.name).covers rfl rfl)

/-- The stretches of the statements of a block lie between its braces. -/
theorem WrittenBlock.spread {b : WrittenBlock}
    (h : ∀ part ∈ b.parts, Covers part.1 part.2.spanTree) :
    Spread b.tokens (Stmt.spanTrees b.stmts) := by
  have hstmts := spread_flatten fun part hpart => (h part hpart).spread
  rw [Stmt.spanTrees_eq]
  exact (hstmts.trail [b.closing]).cons b.opening

/-- A block ends with its brace. -/
theorem WrittenBlock.getLast?_tokens (b : WrittenBlock) : b.tokens.getLast? = some b.closing := by
  simp [tokens, List.getLast?_cons]

/-- The tokens of a statement that ends with a block end with its brace. -/
theorem WrittenBlock.getLast?_append (us : List Token) (b : WrittenBlock) :
    (us ++ b.tokens).getLast? = some b.closing := by
  rw [List.getLast?_append, b.getLast?_tokens, Option.some_or]

/-- The stretches of parameters lie over their tokens, in order. -/
theorem spread_params {params : List WrittenParam} {us : List Token}
    (h : Commas (params.map WrittenParam.tokens) us) :
    Spread us ((params.map WrittenParam.param).map Param.spanTree) := by
  have hparams : ∀ part ∈ params.map fun w => (w.tokens, w.param),
      Spread part.1 [part.2.spanTree] := List.forall_mem_map.mpr fun w _ => w.spread
  have hspread := spread_flatten hparams
  simp only [List.map_map, Function.comp_def] at hspread h ⊢
  exact hspread.mono h.flatten_sublist

/-- **The stretches of a statement lie over its tokens.** By induction on the grammar. Each form
starts with its first token and ends with its last one, and its parts lie in between, in order. -/
theorem Written.covers {us : List Token} {s : Stmt} (h : Written us s) : Covers us s.spanTree := by
  induction h with
  | @print _ start opening closing stop _ _ _ hvalue =>
    rw [Stmt.spanTree]
    refine (((hvalue.spread.trail [closing, stop]).cons opening).cons start).covers rfl ?_
    simp [List.getLast?_cons]
  | @bare start name type stop =>
    rw [Stmt.spanTree]
    exact (((type.spread_typeName.trail [stop]).cons name).cons start).covers rfl rfl
  | @var _ start name type arrow stop _ _ _ _ _ hvalue =>
    have hparts := type.spread_typeName.append ((hvalue.spread.trail [stop]).cons arrow)
    rw [Stmt.spanTree]
    refine ((hparts.cons name).cons start).covers rfl ?_
    simp [List.getLast?_cons]
  | @const _ start name arrow stop _ _ _ _ hvalue =>
    rw [Stmt.spanTree]
    refine ((((hvalue.spread.trail [stop]).cons arrow).cons name).cons start).covers rfl ?_
    simp [List.getLast?_cons]
  | @write _ target arrow stop _ _ _ hvalue =>
    rw [Stmt.spanTree]
    refine (((hvalue.spread.trail [stop]).cons arrow).cons target).covers rfl ?_
    simp [List.getLast?_cons]
  | @branch us start _ block _ hcondition _ ih =>
    have hparts := hcondition.spread.append (WrittenBlock.spread ih)
    rw [Stmt.spanTree, Stmt.spanTrees, List.append_nil]
    exact (hparts.cons start).covers rfl (block.getLast?_append (start :: us))
  | @branchElse us start middle _ block other _ hcondition _ _ _ ih ih' =>
    have hblocks := (WrittenBlock.spread ih).append ((WrittenBlock.spread ih').cons middle)
    have hparts := hcondition.spread.append hblocks
    rw [Stmt.spanTree]
    refine (hparts.cons start).covers rfl ?_
    simp [List.getLast?_cons, other.getLast?_tokens]
  | @loop us start _ block _ hcondition _ ih =>
    have hparts := hcondition.spread.append (WrittenBlock.spread ih)
    rw [Stmt.spanTree]
    exact (hparts.cons start).covers rfl (block.getLast?_append (start :: us))
  | @function us start name opening closing type params block _ _ _ hcommas _ _ _ ih =>
    have hbody := type.spread_typeName.append (WrittenBlock.spread ih)
    have hparts := (spread_params hcommas).append (hbody.cons closing)
    rw [Stmt.spanTree]
    refine (((hparts.cons opening).cons name).cons start).covers rfl ?_
    simp [List.getLast?_cons, block.getLast?_tokens]
  | @ret _ start stop _ _ hvalue =>
    rw [Stmt.spanTree]
    refine ((hvalue.spread.trail [stop]).cons start).covers rfl ?_
    simp [List.getLast?_cons]

/-- So do the statements of a program or a block over theirs. -/
theorem StmtsOf.spread {ss : List Stmt} {us : List Token} (h : StmtsOf ss us) :
    Spread us (ss.map Stmt.spanTree) := by
  obtain ⟨parts, rfl, rfl, hparts⟩ := h
  exact spread_flatten fun part hpart => (hparts part hpart).covers.spread

/-! ## Order of stretches -/

/-- Tokens that are not empty, in order and without overlaps. -/
structure Lined (us : List Token) : Prop where
  nonempty : ∀ u ∈ us, u.span.start.offset < u.span.stop.offset
  ordered : us.Pairwise fun u v => u.span.Before v.span

section Order

variable {us vs tokens : List Token} {tree : SpanTree}

/-- Some of the tokens are in order if all of them are. -/
theorem Lined.sublist (h : Lined vs) (hsub : us.Sublist vs) : Lined us :=
  ⟨fun u hu => h.nonempty u (hsub.subset hu), h.ordered.sublist hsub⟩

/-- No token starts in front of the first one. -/
theorem Lined.le_start {first u : Token} (h : Lined us) (hfirst : us.head? = some first)
    (hu : u ∈ us) : first.span.start.offset ≤ u.span.start.offset := by
  obtain ⟨vs, rfl⟩ := List.head?_eq_some_iff.mp hfirst
  rcases List.mem_cons.mp hu with rfl | hu
  · exact Nat.le_refl _
  · have hbefore := (List.pairwise_cons.mp h.ordered).1 u hu
    exact Nat.le_trans (Nat.le_of_lt (h.nonempty first List.mem_cons_self)) hbefore

/-- No token ends behind the last one. -/
theorem Lined.stop_le {last u : Token} (h : Lined us) (hlast : us.getLast? = some last)
    (hu : u ∈ us) : u.span.stop.offset ≤ last.span.stop.offset := by
  obtain ⟨vs, rfl⟩ := List.getLast?_eq_some_iff.mp hlast
  rcases List.mem_append.mp hu with hu' | hu'
  · have hbefore := (List.pairwise_append.mp h.ordered).2.2 u hu' last List.mem_cons_self
    exact Nat.le_trans hbefore (Nat.le_of_lt (h.nonempty last (by simp)))
  · rw [List.mem_singleton.mp hu']

/-- A tree over tokens is bounded by two of them. -/
theorem Covers.exists_bounds (h : Covers us tree) :
    ∃ first ∈ us, ∃ last ∈ us, tree.span = ⟨first.span.start, last.span.stop⟩ := by
  obtain ⟨first, last, hfirst, hlast, hspan⟩ := h.span_eq
  exact ⟨first, List.mem_of_head? hfirst, last, List.mem_of_getLast? hlast, hspan⟩

/-- Trees that are spread over tokens in order are in order themselves. Each tree ends with the last
token of its part, and the next one starts with the first token of a later part. -/
theorem Spread.ordered {trees : List SpanTree} (h : Spread us trees) (hus : Lined us) :
    trees.Pairwise fun c d => c.span.Before d.span := by
  obtain ⟨parts, rfl, hparts, hcovers⟩ := h
  obtain ⟨-, hacross⟩ := List.pairwise_flatten.mp (hus.sublist hparts).ordered
  rw [List.pairwise_map] at hacross ⊢
  refine hacross.imp_of_mem ?_
  intro part part' hpart hpart' hacross
  obtain ⟨_, -, last, hlast, hspan⟩ := (hcovers part hpart).exists_bounds
  obtain ⟨first, hfirst, _, -, hspan'⟩ := (hcovers part' hpart').exists_bounds
  rw [hspan, hspan']
  exact hacross last hlast first hfirst

/-- The stretch of a tree is not empty and goes from one token to the same one or a later one. The
tokens of a tree are a part of those of the program, which keep their order in it. -/
theorem Covers.bounded (h : Covers us tree) (hus : Lined us) (hsub : us.Sublist tokens) :
    tree.span.Bounded tokens := by
  obtain ⟨first, last, hfirst, hlast, hspan⟩ := h.span_eq
  have hmem := List.mem_of_getLast? hlast
  refine ⟨?_, ?_⟩
  · rw [hspan]
    exact Nat.lt_of_le_of_lt (hus.le_start hfirst hmem) (hus.nonempty last hmem)
  · -- A list that is part of another one keeps the order of positions.
    obtain ⟨f, hf⟩ := List.sublist_iff_exists_orderEmbedding_getElem?_eq.mp hsub
    refine ⟨f 0, f (us.length - 1), first, last, f.monotone (Nat.zero_le _), ?_, ?_, hspan⟩
    · rw [← hf, ← List.head?_eq_getElem?, hfirst]
    · rw [← hf, ← List.getLast?_eq_getElem?, hlast]

/-- **Trees over tokens in order nest**, and all their stretches are bounded by tokens. By induction
on the tree. The parts are over parts of the tokens, and these do not overlap. -/
theorem Covers.nested (h : Covers us tree) (hus : Lined us) (hsub : us.Sublist tokens) :
    tree.Nested ∧ tree.Everywhere (Span.Bounded tokens) := by
  induction h with
  | @node us first last parts hfirst hlast hparts hcovers ih =>
    have hbounded := (Covers.node parts hfirst hlast hparts hcovers).bounded hus hsub
    have hpart : ∀ part ∈ parts, part.1.Sublist us := fun part hpart =>
      (List.sublist_flatten_of_mem (List.mem_map_of_mem hpart)).trans hparts
    have hih := fun part hmem =>
      ih part hmem (hus.sublist (hpart part hmem)) ((hpart part hmem).trans hsub)
    refine ⟨.node ?_ (Spread.ordered ⟨parts, rfl, hparts, hcovers⟩ hus) ?_, .node hbounded ?_⟩
    · refine List.forall_mem_map.mpr fun part hmem => ?_
      obtain ⟨u, hu, v, hv, hspan⟩ := (hcovers part hmem).exists_bounds
      rw [hspan]
      exact ⟨hus.le_start hfirst ((hpart part hmem).subset hu),
        hus.stop_le hlast ((hpart part hmem).subset hv)⟩
    · exact List.forall_mem_map.mpr fun part hmem => (hih part hmem).1
    · exact List.forall_mem_map.mpr fun part hmem => (hih part hmem).2

end Order

/-! ## Statements at every depth -/

/-- The statements in the blocks of a statement. -/
def Stmt.inner : Stmt → List Stmt
  | branch _ _ whenTrue whenFalse => whenTrue ++ whenFalse
  | loop _ _ body => body
  | function _ _ _ _ body => body
  | _ => []

/-- A statement is another one, or in one of its blocks at any depth. -/
inductive Stmt.Contains : Stmt → Stmt → Prop where
  | self (s : Stmt) : Contains s s
  | inner {s s' s'' : Stmt} (hs : s' ∈ s.inner) (h : Contains s' s'') : Contains s s''

/-- The tokens of a statement stand together among those of a program. -/
theorem StmtsOf.exists_infix {ss : List Stmt} {us : List Token} (h : StmtsOf ss us) {s : Stmt}
    (hs : s ∈ ss) : ∃ vs, vs <:+: us ∧ Written vs s := by
  obtain ⟨parts, rfl, rfl, hparts⟩ := h
  obtain ⟨part, hpart, rfl⟩ := List.mem_map.mp hs
  exact ⟨part.1, List.infix_of_mem_flatten (List.mem_map_of_mem hpart), hparts part hpart⟩

/-- The tokens of a statement stand together among those of its block. -/
theorem WrittenBlock.exists_infix {b : WrittenBlock} (h : ∀ part ∈ b.parts, Written part.1 part.2)
    {s : Stmt} (hs : s ∈ b.stmts) : ∃ vs, vs <:+: b.tokens ∧ Written vs s := by
  obtain ⟨vs, hvs, hs⟩ := StmtsOf.exists_infix ⟨b.parts, rfl, rfl, h⟩ hs
  refine ⟨vs, hvs.trans ?_, hs⟩
  exact (List.infix_append [b.opening] _ [b.closing])

/-- The tokens of a statement in a block stand together among those around it. So a statement inside
of another one can be judged by the tokens of the whole. -/
theorem Written.exists_infix {us : List Token} {s s' : Stmt} (h : Written us s)
    (hs : s' ∈ s.inner) : ∃ vs, vs <:+: us ∧ Written vs s' := by
  cases h with
  | @branch us start _ block _ _ hblock =>
    rw [Stmt.inner, List.append_nil] at hs
    obtain ⟨vs, hvs, hs⟩ := WrittenBlock.exists_infix hblock hs
    exact ⟨vs, hvs.trans (List.suffix_append (start :: us) _).isInfix, hs⟩
  | @branchElse us start middle _ block other _ _ hblock _ hother =>
    rcases List.mem_append.mp hs with hs | hs
    · obtain ⟨vs, hvs, hs⟩ := WrittenBlock.exists_infix hblock hs
      refine ⟨vs, hvs.trans ⟨start :: us, middle :: other.tokens, ?_⟩, hs⟩
      simp
    · obtain ⟨vs, hvs, hs⟩ := WrittenBlock.exists_infix hother hs
      refine ⟨vs, hvs.trans ⟨start :: (us ++ (block.tokens ++ [middle])), [], ?_⟩, hs⟩
      simp
  | @loop us start _ block _ _ hblock =>
    obtain ⟨vs, hvs, hs⟩ := WrittenBlock.exists_infix hblock hs
    exact ⟨vs, hvs.trans (List.suffix_append (start :: us) _).isInfix, hs⟩
  | @function us start name opening closing type _ block _ _ _ _ _ _ hblock =>
    obtain ⟨vs, hvs, hs⟩ := WrittenBlock.exists_infix hblock hs
    refine ⟨vs, hvs.trans ⟨start :: name :: opening :: (us ++ [closing, type]), [], ?_⟩, hs⟩
    simp
  | _ => cases hs

/-- So they do at every depth. -/
theorem Stmt.Contains.exists_infix {s s' : Stmt} (h : s.Contains s') {us : List Token}
    (hus : Written us s) : ∃ vs, vs <:+: us ∧ Written vs s' := by
  -- By the depth; each block stands together in what is around it.
  induction h generalizing us with
  | self s => exact ⟨us, List.infix_refl us, hus⟩
  | inner hs _ ih =>
    obtain ⟨vs, hvs, hs'⟩ := hus.exists_infix hs
    obtain ⟨ws, hws, hs''⟩ := ih hs'
    exact ⟨ws, hws.trans hvs, hs''⟩

/-- The line of a statement is that of its first token. -/
theorem Written.line_eq {us : List Token} {s : Stmt} (h : Written us s) :
    ∃ first ∈ us.head?, s.line = first.span.start.line := by
  obtain ⟨first, _, hfirst, -, hspan⟩ := h.covers.span_eq
  rw [Stmt.span_spanTree] at hspan
  exact ⟨first, hfirst, by rw [Stmt.line, hspan, Span.line]⟩

/-! ## Programs -/

/-- **Stretches of source nest and stay in order**, if the source is shorter than 2^32 bytes. In a
program read from such a source, the stretch of every node lies inside that of its parent, and those
of siblings are in order and do not overlap. The stretch of every node below the program is not
empty, and goes from the start of a token to the end of the same or of a later one. Whatever the
length of the source, every statement, at any depth, is derived from tokens that stand together, and
its line is the line of the first of them. -/
theorem spans_nest {source : String} {tokens : List Token} {p : Program}
    (htokens : tokenize source = .ok tokens) (hp : Program.ofTokens tokens = .ok p) :
    (Text.byteSize source.toList < Position.wordCount →
      p.spanTree.Nested ∧ ∀ s ∈ p.body, s.spanTree.Everywhere (Span.Bounded tokens)) ∧
      ∀ s ∈ p.body, ∀ s', s.Contains s' →
        ∃ us, us <:+: tokens ∧ Written us s' ∧
          ∃ first ∈ us.head?, s'.line = first.span.start.line := by
  obtain ⟨body, htape, hbody⟩ := exists_body_of_scan htokens
  have hfront : body <+: tokens := htape ▸ List.prefix_append _ _
  rw [htape] at hp
  obtain ⟨hstmts, hspan⟩ := written_of_ofTokens hbody rfl hp
  refine ⟨fun hsize => ?_, fun s hs s' hs' => ?_⟩
  · have htiled : Tiled .origin source.toList tokens :=
      scan_tiled htokens (by rwa [Position.origin, Nat.zero_add])
    -- Below 2^32 bytes no position is cut, so the tokens are in order as they stand in the source.
    have horder : Lined body := by
      refine ⟨fun u hu => htiled.nonempty u (hfront.subset hu) (hbody u hu), ?_⟩
      exact htiled.ordered.sublist hfront.sublist
    have hnested : ∀ s ∈ p.body,
        s.spanTree.Nested ∧ s.spanTree.Everywhere (Span.Bounded tokens) := by
      intro s hs
      obtain ⟨us, hus, hwritten⟩ := hstmts.exists_infix hs
      exact hwritten.covers.nested (horder.sublist hus.sublist) (hus.sublist.trans hfront.sublist)
    refine ⟨.node ?_ (hstmts.spread.ordered horder) ?_, fun s hs => (hnested s hs).2⟩
    · refine List.forall_mem_map.mpr fun s hs => ?_
      obtain ⟨us, hus, hwritten⟩ := hstmts.exists_infix hs
      obtain ⟨_, -, last, hlast, hbounds⟩ := hwritten.covers.exists_bounds
      have hne : body ≠ [] := List.ne_nil_of_mem (hus.subset hlast)
      rw [hbounds, hspan, List.getLast?_eq_some_getLast hne]
      exact ⟨Nat.zero_le _, horder.stop_le (List.getLast?_eq_some_getLast hne) (hus.subset hlast)⟩
    · exact List.forall_mem_map.mpr fun s hs => (hnested s hs).1
  · obtain ⟨us, hus, hwritten⟩ := hstmts.exists_infix hs
    obtain ⟨vs, hvs, hwritten'⟩ := hs'.exists_infix hwritten
    exact ⟨vs, (hvs.trans hus).trans hfront.isInfix, hwritten', hwritten'.line_eq⟩

/-- A loop over three lines, with parentheses and a call in it. -/
def counting : String := "while a < (2) \x7b\n  a <- f(a, 1);\n\x7d"

def countingTokens : List Token :=
  [⟨.kwWhile, "while", ⟨⟨0, 1⟩, ⟨5, 1⟩⟩⟩, ⟨.identifier, "a", ⟨⟨6, 1⟩, ⟨7, 1⟩⟩⟩,
    ⟨.less, "<", ⟨⟨8, 1⟩, ⟨9, 1⟩⟩⟩, ⟨.openParen, "(", ⟨⟨10, 1⟩, ⟨11, 1⟩⟩⟩,
    ⟨.integer, "2", ⟨⟨11, 1⟩, ⟨12, 1⟩⟩⟩, ⟨.closeParen, ")", ⟨⟨12, 1⟩, ⟨13, 1⟩⟩⟩,
    ⟨.openCurly, "\x7b", ⟨⟨14, 1⟩, ⟨15, 1⟩⟩⟩, ⟨.identifier, "a", ⟨⟨18, 2⟩, ⟨19, 2⟩⟩⟩,
    ⟨.assignment, "<-", ⟨⟨20, 2⟩, ⟨22, 2⟩⟩⟩, ⟨.identifier, "f", ⟨⟨23, 2⟩, ⟨24, 2⟩⟩⟩,
    ⟨.openParen, "(", ⟨⟨24, 2⟩, ⟨25, 2⟩⟩⟩, ⟨.identifier, "a", ⟨⟨25, 2⟩, ⟨26, 2⟩⟩⟩,
    ⟨.comma, ",", ⟨⟨26, 2⟩, ⟨27, 2⟩⟩⟩, ⟨.integer, "1", ⟨⟨28, 2⟩, ⟨29, 2⟩⟩⟩,
    ⟨.closeParen, ")", ⟨⟨29, 2⟩, ⟨30, 2⟩⟩⟩, ⟨.semicolon, ";", ⟨⟨30, 2⟩, ⟨31, 2⟩⟩⟩,
    ⟨.closeCurly, "\x7d", ⟨⟨32, 3⟩, ⟨33, 3⟩⟩⟩, .endOfInput ⟨33, 3⟩]

/-- A loop whose body starts on the second line. The statement in it has the line of its first
token. -/
theorem counting_spans_nest :
    ∃ p, tokenize counting = .ok countingTokens ∧ Program.ofTokens countingTokens = .ok p ∧
      p.body.map Stmt.line = [1] ∧ (∃ s ∈ p.body, ∃ s', s.Contains s' ∧ s'.line = 2) ∧
      Text.byteSize counting.toList = 33 ∧ p.spanTree.Nested ∧
      (∀ s ∈ p.body, s.spanTree.Everywhere (Span.Bounded countingTokens)) ∧
      ∀ s ∈ p.body, ∀ s', s.Contains s' →
        ∃ us, us <:+: countingTokens ∧ Written us s' ∧
          ∃ first ∈ us.head?, s'.line = first.span.start.line := by
  have hrun : (Scanner.start counting).run 40 = some (.ok countingTokens) := rfl
  have htokens : tokenize counting = .ok countingTokens :=
    Scanner.tokenize_eq_of_run (by decide) hrun
  obtain ⟨p, hp, hlines, hinner⟩ : ∃ p, Program.ofTokens countingTokens = .ok p ∧
      p.body.map Stmt.line = [1] ∧ ∃ s ∈ p.body, ∃ s', s.Contains s' ∧ s'.line = 2 :=
    ⟨_, rfl, rfl, _, List.mem_cons_self, _, .inner List.mem_cons_self (.self _), rfl⟩
  have hsize : Text.byteSize counting.toList = 33 := by decide
  obtain ⟨hshort, hwritten⟩ := spans_nest htokens hp
  obtain ⟨hnested, hbounded⟩ := hshort (by rw [hsize]; decide)
  exact ⟨p, htokens, hp, hlines, hinner, hsize, hnested, hbounded, hwritten⟩

/-- The tokens of a statement that ends 2^32 bytes behind the start of its source. The last of them
starts at the last offset that a word can hold, and its end is cut to zero. -/
def lateTokens : List Token :=
  [⟨.kwPrint, "print", ⟨⟨4294967287, 1⟩, ⟨4294967292, 1⟩⟩⟩,
    ⟨.openParen, "(", ⟨⟨4294967292, 1⟩, ⟨4294967293, 1⟩⟩⟩,
    ⟨.integer, "1", ⟨⟨4294967293, 1⟩, ⟨4294967294, 1⟩⟩⟩,
    ⟨.closeParen, ")", ⟨⟨4294967294, 1⟩, ⟨4294967295, 1⟩⟩⟩,
    ⟨.semicolon, ";", ⟨⟨4294967295, 1⟩, ⟨0, 1⟩⟩⟩, .endOfInput ⟨0, 1⟩]

/-- The tokens of a statement behind so many blanks. The number of blanks stays a variable, as
nothing may unfold a text of this length. -/
theorem tokenize_late {n : Nat} (hn : n = 4294967287) :
    tokenize (String.ofList (List.replicate n ' ' ++ "print(1);".toList)) = .ok lateTokens := by
  have hblanks : RunOf isBlank (List.replicate n ' ') := by
    refine ⟨fun hnil => ?_, fun c hc => ?_⟩
    · rw [List.replicate_eq_nil_iff] at hnil
      omega
    · rw [List.eq_of_mem_replicate hc]
      rfl
  have hposition : Position.past .origin (List.replicate n ' ') = ⟨4294967287, 1⟩ := by
    have hcount : (List.replicate n ' ').count '\n' = 0 := by
      rw [List.count_replicate, if_neg (by decide)]
    have hbytes : Text.byteSize (List.replicate n ' ') = n :=
      (Text.byteSize_replicate n ' ').trans (Nat.mul_one n)
    rw [Position.past, hcount, hbytes, hn]
    rfl
  have hrest : ∀ d ∈ "print(1);".toList.head?, isBlank d = false := by
    intro d hd
    obtain rfl : 'p' = d := Option.some.inj hd
    rfl
  rw [tokenize, String.toList_ofList, scan_blanks hblanks hrest, hposition]
  exact Scanner.scan_eq_of_run (n := 10) (by decide) rfl

/-- In a source of 2^32 bytes a stretch can end where the source starts, and then what stands inside
the statement does not lie inside its stretch. -/
theorem late_statement_not_nested :
    ∃ source p, Text.byteSize source.toList = Position.wordCount ∧
      tokenize source = .ok lateTokens ∧ Program.ofTokens lateTokens = .ok p ∧
      ¬ p.spanTree.Nested := by
  obtain ⟨n, hn⟩ : ∃ n, n = 4294967287 := ⟨_, rfl⟩
  refine ⟨_, _, ?_, tokenize_late hn, rfl, ?_⟩
  · have hblanks := Text.byteSize_replicate n ' '
    have htext : Text.byteSize "print(1);".toList = 9 := by decide
    have hblank : ' '.utf8Size = 1 := by decide
    rw [String.toList_ofList, Text.byteSize_append, hblanks, htext, hblank, hn]
    rfl
  · rintro ⟨_, _, hchildren⟩
    obtain ⟨hinside, _, _⟩ := hchildren _ List.mem_cons_self
    exact absurd (hinside _ List.mem_cons_self).2 (by decide)

end Pulse

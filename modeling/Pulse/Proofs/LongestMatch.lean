/-
The first match is the longest one.

Of two patterns in the table that both take something from a text, the earlier one takes more. So
the first pattern that takes something takes more than any other. Together with what each pattern
takes by itself this says that nothing which some pattern describes is ever cut short, whatever
stands in front of that pattern in the table.

It follows that a match does not depend on the text behind it, as long as the text is not cut
inside of the match.
-/
import Pulse.Proofs.PatternSearches

set_option autoImplicit false

namespace Pulse

open Pattern Regex

/-! ## Earlier patterns take more -/

namespace Pattern

/-- Where both take something, the first pattern takes more than the second. -/
def Outreaches (p q : Pattern) : Prop :=
  ∀ cs n m, p.length? cs = some n → q.length? cs = some m → m < n

/-- The kind and the spelling of a pattern for one spelling. -/
def fixed? : Pattern → Option (Kind × String)
  | fixed k s => some (k, s)
  | _ => none

/-- The spellings of the table, with their kinds. They stand at its end. -/
def operators : List (Kind × String) := table.filterMap fixed?

section Outreach

variable {p q : Pattern} {k l : Kind} {s t : String} {cs : List Char} {n m : Nat}

/-- Patterns that start differently never take something from the same text. -/
theorem outreaches_of_apart (h : ∀ c, q.opens c → p.opens c = false) : Outreaches p q := by
  intro cs n m hp hq
  obtain ⟨c, cs, rfl, hc⟩ := exists_opens hq
  rw [length?_of_not_opens (h c hc)] at hp
  cases hp

/-- A pattern for one spelling takes this spelling and nothing else. -/
theorem fixed_length? (h : (fixed k s).length? cs = some n) :
    n = s.toList.length ∧ s.toList <+: cs := by
  rw [length?] at h
  split at h
  · rename_i hfront
    exact ⟨(nonzero_eq_some h).1.symm, List.isPrefixOf_iff_prefix.mp hfront⟩
  · cases h

/-- A spelling stands in front of those that it does not begin with. Of two spellings that fit, the
one that goes on behind the other is the longer one. -/
theorem outreaches_fixed (h : s.toList.isPrefixOf t.toList = false) :
    Outreaches (fixed k s) (fixed l t) := by
  intro cs n m hp hq
  obtain ⟨rfl, hs⟩ := fixed_length? hp
  obtain ⟨rfl, ht⟩ := fixed_length? hq
  have hst : ¬ s.toList <+: t.toList := by
    rw [← List.isPrefixOf_iff_prefix, h]
    exact Bool.false_ne_true
  by_contra hle
  exact hst (List.prefix_of_prefix_length_le hs ht (by omega))

/-- Comments have at least two characters, those of their opening bracket. -/
theorem two_le_of_comment (hp : p ∈ [lineComment, blockComment, openComment])
    (h : p.length? cs = some n) : 2 ≤ n := by
  simp only [List.mem_cons, List.not_mem_nil, or_false] at hp
  rcases hp with rfl | rfl | rfl
  · obtain ⟨body, htake, -⟩ := exists_lineComment h
    have hlength := congrArg List.length htake
    simp only [List.length_take, List.length_cons] at hlength
    omega
  · obtain ⟨body, htake, -⟩ := exists_blockComment h
    have hlength := congrArg List.length htake
    simp only [List.length_take, List.length_cons, List.length_append] at hlength
    omega
  · obtain ⟨-, -, rfl⟩ := exists_openComment h
    exact Nat.le_refl 2

/-- Comments start with a slash. -/
theorem opens_comment (hp : p ∈ [lineComment, blockComment, openComment]) {c : Char} :
    p.opens c = decide (c = '/') := by
  simp only [List.mem_cons, List.not_mem_nil, or_false] at hp
  rcases hp with rfl | rfl | rfl <;> rfl

/-- Comments take more than the sign that they start with. An operator that starts like a comment
has one character. -/
theorem comment_outreaches (hp : p ∈ [lineComment, blockComment, openComment])
    (hs : s.toList.head? ≠ some '/' ∨ s.toList.length ≤ 1) : Outreaches p (fixed k s) := by
  rcases hs with hhead | hlength
  · refine outreaches_of_apart fun c hc => ?_
    rw [opens_comment hp, decide_eq_false_iff_not]
    rintro rfl
    exact hhead (of_decide_eq_true hc)
  · intro cs n m hn hm
    have hle := two_le_of_comment hp hn
    obtain ⟨rfl, -⟩ := fixed_length? hm
    omega

/-- Comments of one kind are not taken where those of the other are. -/
theorem lineComment_outreaches (hq : q ∈ [blockComment, openComment]) :
    Outreaches lineComment q := by
  intro cs n m hn hm
  obtain ⟨body, htake, -⟩ := exists_lineComment hn
  obtain ⟨rest, rfl⟩ := @prefix_of_take cs n ['/', '/'] body htake
  simp only [List.mem_cons, List.not_mem_nil, or_false] at hq
  rcases hq with rfl | rfl <;> cases hm

/-- A comment that is closed takes more than the bracket that opens it. -/
theorem blockComment_outreaches : Outreaches blockComment openComment := by
  intro cs n m hn hm
  obtain ⟨body, htake, -⟩ := exists_blockComment hn
  obtain ⟨-, -, rfl⟩ := exists_openComment hm
  have hlength := congrArg List.length htake
  simp only [List.length_take, List.length_cons, List.length_append] at hlength
  omega

/-- Behind a radix mark stands neither a point nor an exponent. -/
theorem floatLength?_of_marked (h : markedLength? cs = some n) : floatLength? cs = none := by
  have hzero : ∀ c ∈ ['0'], c.isDigit := List.forall_mem_singleton.mpr rfl
  unfold markedLength? at h
  split at h
  · exact floatLength?_digits ['0'] hzero rfl (by decide) (by decide) _
  · exact floatLength?_digits ['0'] hzero rfl (by decide) (by decide) _
  · exact floatLength?_digits ['0'] hzero rfl (by decide) (by decide) _
  · cases h

/-- A float goes on behind the digits of an integer. It has a point or an exponent behind its first
digits. An integer with a mark is no float at all: what follows the zero is neither. -/
theorem float_outreaches : Outreaches float integer := by
  intro cs n m hn hm
  have hn : floatLength? cs = some n := hn
  have hm : integerLength? cs = some m := hm
  have hdigits : run Char.isDigit cs < n := by
    rw [floatLength?] at hn
    dsimp only at hn
    split at hn
    · split at hn
      · cases hn
      · obtain rfl := Option.some.inj hn
        omega
    · split at hn
      · cases hn
      · obtain rfl := Option.some.inj hn
        omega
  rw [integerLength?] at hm
  cases hmarked : markedLength? cs with
  | none =>
    rw [hmarked] at hm
    obtain ⟨rfl, -⟩ := nonzero_eq_some hm
    exact hdigits
  | some k =>
    rw [floatLength?_of_marked hmarked] at hn
    cases hn

/-- No pattern but for comments takes something where an operator stands. They start differently. -/
theorem outreaches_operator {o : Kind × String} (ho : o ∈ operators)
    (hp : p ∈ [blanks, word, float, integer, charLiteral]) : Outreaches p (fixed o.1 o.2) := by
  have hall : (operators.all fun o => [blanks, word, float, integer, charLiteral].all fun p =>
      o.2.toList.head?.all fun c => !p.opens c) = true := by decide
  refine outreaches_of_apart fun c hc => ?_
  have hhead := List.all_eq_true.mp (List.all_eq_true.mp hall o ho) p hp
  have hc : o.2.toList.head? = some c := of_decide_eq_true hc
  rw [hc, Option.all_some, Bool.not_eq_true'] at hhead
  exact hhead

/-- Comments take more than any operator. The one operator that starts with a slash is the slash. -/
theorem comment_outreaches_operator {o : Kind × String} (ho : o ∈ operators)
    (hp : p ∈ [lineComment, blockComment, openComment]) : Outreaches p (fixed o.1 o.2) := by
  have hall : (operators.all fun o =>
      o.2.toList.head? ≠ some '/' ∨ o.2.toList.length ≤ 1) = true := by decide
  exact comment_outreaches hp (of_decide_eq_true (List.all_eq_true.mp hall o ho))

/-- Blanks and comments never start as words do. -/
theorem outreaches_word (hp : p ∈ [blanks, lineComment, blockComment, openComment]) :
    Outreaches p word :=
  outreaches_of_apart fun _ hc => not_opens_of_isWordStart hc p hp

/-- Nor does what is in front of numbers ever start as they do. -/
theorem outreaches_number (hp : p ∈ [blanks, lineComment, blockComment, openComment, word])
    (hq : q ∈ [float, integer]) : Outreaches p q := by
  refine outreaches_of_apart fun c hc => not_opens_of_isDigit ?_ p hp
  simp only [List.mem_cons, List.not_mem_nil, or_false] at hq
  rcases hq with rfl | rfl
  · simpa [opens] using hc
  · exact .inl hc

/-- No pattern in front of character literals starts with a quote. -/
theorem outreaches_charLiteral
    (hp : p ∈ [blanks, lineComment, blockComment, openComment, word, float, integer]) :
    Outreaches p charLiteral := by
  have hall : ([blanks, lineComment, blockComment, openComment, word, float, integer].all fun p =>
      !p.opens '\'') = true := by decide
  refine outreaches_of_apart fun c hc => ?_
  have hc : c = '\'' := of_decide_eq_true hc
  rw [hc, ← Bool.not_eq_true']
  exact List.all_eq_true.mp hall p hp

end Outreach

/-- The first patterns of the table, blanks and comments, are in order. -/
theorem pairwise_comments :
    [blanks, lineComment, blockComment, openComment].Pairwise Outreaches := by
  refine List.pairwise_cons.mpr ⟨fun q hq => outreaches_of_apart fun c hc => ?_, ?_⟩
  · rw [opens_comment hq, decide_eq_true_eq] at hc
    rw [hc]
    rfl
  · refine List.pairwise_cons.mpr ⟨fun q hq => lineComment_outreaches hq, ?_⟩
    exact List.pairwise_pair.mpr blockComment_outreaches

/-- The last patterns of the table, one for each spelling, are in order: no spelling is the
beginning of a later one. -/
theorem pairwise_operators : (operators.map fun o => fixed o.1 o.2).Pairwise Outreaches := by
  -- The order of the table is checked by running over all pairs.
  have hfront : operators.Pairwise fun a b => a.2.toList.isPrefixOf b.2.toList = false := by
    decide
  exact List.pairwise_map.mpr (hfront.imp outreaches_fixed)

/-- **In the table, every pattern takes more than those behind it.** The patterns are compared part
by part: most pairs start with different characters, and the others differ in what comes next. -/
theorem pairwise_table : table.Pairwise Outreaches := by
  have htable : table = ((([blanks, lineComment, blockComment, openComment] ++ [word]) ++
      [float, integer]) ++ [charLiteral]) ++ operators.map fun o => fixed o.1 o.2 := rfl
  rw [htable]
  -- Each part of the table is compared with all that is in front of it.
  refine List.pairwise_append.mpr ⟨?_, pairwise_operators, ?_⟩
  · refine List.pairwise_append.mpr ⟨?_, List.pairwise_singleton .., ?_⟩
    · refine List.pairwise_append.mpr ⟨?_, List.pairwise_pair.mpr float_outreaches, ?_⟩
      · refine List.pairwise_append.mpr ⟨pairwise_comments, List.pairwise_singleton .., ?_⟩
        exact fun p hp => List.forall_mem_singleton.mpr (outreaches_word hp)
      · exact fun p hp q hq => outreaches_number hp hq
    · exact fun p hp => List.forall_mem_singleton.mpr (outreaches_charLiteral hp)
  · intro p hp q hq
    obtain ⟨o, ho, rfl⟩ := List.mem_map.mp hq
    by_cases hcomment : p ∈ [lineComment, blockComment, openComment]
    · exact comment_outreaches_operator ho hcomment
    · refine outreaches_operator ho ?_
      simp only [List.mem_append, List.mem_cons, List.not_mem_nil, or_false] at hp hcomment ⊢
      grind

end Pattern

/-! ## The first match -/

/-- The longest beginning of a text that is of a kind, by its length. -/
structure Longest (L : List Char → Prop) (cs : List Char) (n : Nat) : Prop where
  le : n ≤ cs.length
  mem : L (cs.take n)
  longest : ∀ u, u <+: cs → L u → u.length ≤ n

/-- The shortest one. -/
structure Shortest (L : List Char → Prop) (cs : List Char) (n : Nat) : Prop where
  le : n ≤ cs.length
  mem : L (cs.take n)
  shortest : ∀ u, u <+: cs → L u → n ≤ u.length

section Lengths

variable {L : List Char → Prop} {cs ds : List Char} {n m : Nat}

/-- There is one longest beginning. -/
theorem Longest.unique (hn : Longest L cs n) (hm : Longest L cs m) : n = m := by
  have hle := hm.longest _ (List.take_prefix n cs) hn.mem
  have hge := hn.longest _ (List.take_prefix m cs) hm.mem
  rw [List.length_take_of_le hn.le] at hle
  rw [List.length_take_of_le hm.le] at hge
  omega

/-- There is one shortest beginning. -/
theorem Shortest.unique (hn : Shortest L cs n) (hm : Shortest L cs m) : n = m := by
  have hle := hm.shortest _ (List.take_prefix n cs) hn.mem
  have hge := hn.shortest _ (List.take_prefix m cs) hm.mem
  rw [List.length_take_of_le hn.le] at hle
  rw [List.length_take_of_le hm.le] at hge
  omega

/-- What is behind a beginning of a text can be cut off. -/
theorem Longest.cut (h : Longest L (cs ++ ds) n) (hn : n ≤ cs.length) : Longest L cs n := by
  refine ⟨hn, ?_, fun u hu hL => h.longest u (hu.trans (List.prefix_append cs ds)) hL⟩
  have hmem := h.mem
  rwa [List.take_append_of_le_length hn] at hmem

/-- The same for the shortest one. -/
theorem Shortest.cut (h : Shortest L (cs ++ ds) n) (hn : n ≤ cs.length) : Shortest L cs n := by
  refine ⟨hn, ?_, fun u hu hL => h.shortest u (hu.trans (List.prefix_append cs ds)) hL⟩
  have hmem := h.mem
  rwa [List.take_append_of_le_length hn] at hmem

end Lengths

section First

variable {pattern : Pattern} {cs ds : List Char} {n : Nat}

namespace Pattern

/-- No pattern takes more than there is. -/
theorem le_of_length? (h : pattern.length? cs = some n) : n ≤ cs.length :=
  (matches_of_taken? (taken?_of_length? h)).2

/-- A pattern takes the longest beginning of a text that its expression describes, except for block
comments. -/
theorem longest_of_length? (hp : pattern ∈ table) (hblock : pattern ≠ .blockComment)
    (h : pattern.length? cs = some n) : Longest pattern.regex.Matches cs n := by
  refine ⟨le_of_length? h, matches_of_length? h, ?_⟩
  -- Any beginning that the expression describes is reached by the pattern, or passed.
  rintro u ⟨v, rfl⟩ hu
  obtain ⟨m, hm, hle⟩ := reach hp hblock hu v
  rw [h] at hm
  obtain rfl := Option.some.inj hm
  exact hle

/-- The pattern of block comments takes the shortest one: a comment ends with the first bracket that
closes it. -/
theorem shortest_of_length? (h : blockComment.length? cs = some n) :
    Shortest blockComment.regex.Matches cs n := by
  refine ⟨le_of_length? h, matches_of_length? h, ?_⟩
  rintro u ⟨v, rfl⟩ hu
  obtain ⟨m, hm, hle⟩ := reach_blockComment hu v
  rw [h] at hm
  obtain rfl := Option.some.inj hm
  exact hle

/-- A pattern takes nothing only where the text starts with nothing that it describes. -/
theorem length?_eq_none_iff (hp : pattern ∈ table) :
    pattern.length? cs = none ↔ ∀ u v, pattern.regex.Matches u → cs ≠ u ++ v := by
  rw [length?_eq_taken? hp, taken?_eq_none_iff]

/-- **What a pattern takes does not depend on the text behind it.** All patterns but block comments
take as much as they can, and block comments as little; in both cases the piece is still the one in
a text that goes on. -/
theorem length?_append (hp : pattern ∈ table)
    (h : ∀ m, pattern.length? (cs ++ ds) = some m → m ≤ cs.length) :
    pattern.length? (cs ++ ds) = pattern.length? cs := by
  cases hlong : pattern.length? (cs ++ ds) with
  | none =>
    symm
    rw [length?_eq_none_iff hp] at hlong ⊢
    rintro u v hu rfl
    exact hlong u (v ++ ds) hu (List.append_assoc ..)
  | some m =>
    have hm := h m hlong
    -- The piece is still there, so something is taken, and it can only be the same.
    have hshort : pattern.length? cs ≠ none := by
      intro hnone
      have hmatch := matches_of_length? hlong
      rw [List.take_append_of_le_length hm] at hmatch
      exact (length?_eq_none_iff hp).mp hnone _ _ hmatch (List.take_append_drop m cs).symm
    obtain ⟨k, hk⟩ := Option.ne_none_iff_exists'.mp hshort
    rw [hk]
    by_cases hblock : pattern = .blockComment
    · subst hblock
      rw [((shortest_of_length? hlong).cut hm).unique (shortest_of_length? hk)]
    · rw [((longest_of_length? hp hblock hlong).cut hm).unique (longest_of_length? hp hblock hk)]

/-- Where the first pattern that takes something stands in the table. -/
theorem exists_split_of_first? (h : first? cs = some (pattern, n)) :
    ∃ before after, table = before ++ pattern :: after ∧ (∀ q ∈ before, q.length? cs = none) ∧
      pattern.length? cs = some n := by
  obtain ⟨before, q, after, htable, hq, hbefore⟩ := List.findSome?_eq_some_iff.mp h
  obtain ⟨m, hm, heq⟩ := Option.map_eq_some_iff.mp hq
  cases heq
  exact ⟨before, after, htable, fun q hq => Option.map_eq_none_iff.mp (hbefore q hq), hm⟩

/-- The first pattern that takes something takes what it takes by itself. -/
theorem length?_of_first? (h : first? cs = some (pattern, n)) : pattern.length? cs = some n := by
  obtain ⟨-, -, -, -, hlength⟩ := exists_split_of_first? h
  exact hlength

/-- Nothing is cut off where no pattern takes anything. -/
theorem first?_eq_none_iff : first? cs = none ↔ ∀ q ∈ table, q.length? cs = none := by
  rw [first?, List.findSome?_eq_none_iff]
  exact forall₂_congr fun _ _ => Option.map_eq_none_iff

/-- **The first pattern that takes something takes more than any other.** Patterns in front of it
take nothing, and those behind it take less. So the order of the table is not visible in what is cut
off. -/
theorem lt_of_first? (h : first? cs = some (pattern, n)) {q : Pattern} (hq : q ∈ table)
    (hne : q ≠ pattern) {m : Nat} (hm : q.length? cs = some m) : m < n := by
  obtain ⟨before, after, htable, hbefore, hlength⟩ := exists_split_of_first? h
  have hpairs := pairwise_table
  rw [htable] at hpairs hq
  rcases List.mem_append.mp hq with hfront | hback
  · rw [hbefore q hfront] at hm
    cases hm
  · have hafter : q ∈ after := (List.mem_cons.mp hback).resolve_left hne
    have houtreach := (List.pairwise_cons.mp (List.pairwise_append.mp hpairs).2.1).1 q hafter
    exact houtreach cs n m hlength hm

/-- What any pattern describes is not cut short. Block comments are left out, which take as little
as they can. -/
theorem le_of_first? (h : first? cs = some (pattern, n)) {q : Pattern} (hq : q ∈ table)
    (hblock : q ≠ .blockComment) {u : List Char} (hfront : u <+: cs) (hu : q.regex.Matches u) :
    u.length ≤ n := by
  obtain ⟨v, rfl⟩ := hfront
  obtain ⟨m, hm, hle⟩ := reach hq hblock hu v
  by_cases hne : q = pattern
  · have hlength := length?_of_first? h
    rw [← hne, hm] at hlength
    obtain rfl := Option.some.inj hlength
    exact hle
  · have hlt := lt_of_first? h hq hne hm
    omega

/-- Nor does the first match. The condition is that no pattern takes more than the first text. -/
theorem first?_append (h : ∀ q ∈ table, ∀ m, q.length? (cs ++ ds) = some m → m ≤ cs.length) :
    first? (cs ++ ds) = first? cs := by
  have hlengths : ∀ q ∈ table, q.length? (cs ++ ds) = q.length? cs :=
    fun q hq => length?_append hq (h q hq)
  cases hfirst : first? cs with
  | none =>
    rw [first?_eq_none_iff] at hfirst ⊢
    exact fun q hq => (hlengths q hq).trans (hfirst q hq)
  | some found =>
    obtain ⟨pattern, n⟩ := found
    obtain ⟨before, after, htable, hbefore, hlength⟩ := exists_split_of_first? hfirst
    rw [htable] at hlengths
    refine List.findSome?_eq_some_iff.mpr ⟨before, pattern, after, htable, ?_, fun q hq => ?_⟩
    · rw [hlengths pattern (by simp), hlength]
      rfl
    · rw [hlengths q (List.mem_append_left _ hq), hbefore q hq]
      rfl

/-- **A match is the same in a text that is cut behind it.** All other patterns take less, so none
of them reaches behind the cut either. -/
theorem first?_cut (h : first? (cs ++ ds) = some (pattern, n)) (hn : n ≤ cs.length) :
    first? cs = some (pattern, n) := by
  rw [← h]
  refine (first?_append fun q hq m hm => ?_).symm
  by_cases hne : q = pattern
  · rw [hne, length?_of_first? h] at hm
    obtain rfl := Option.some.inj hm
    exact hn
  · have hlt := lt_of_first? h hq hne hm
    omega

/-- Nor does a beginning of a text match where the text does not. -/
theorem first?_cut_none (h : first? (cs ++ ds) = none) : first? cs = none := by
  rw [← h]
  refine (first?_append fun q hq m hm => ?_).symm
  rw [first?_eq_none_iff.mp h q hq] at hm
  cases hm

end Pattern

/-- **The first match is the longest one.** Every pattern of the table takes what a search for its
expression takes. Where some pattern takes something, the first that does takes more than any other,
and it takes the longest beginning that its expression describes; a block comment is the shortest.
No text that some pattern describes is cut short, whatever stands in front of it in the table. -/
theorem first_match_longest (h : ∃ q ∈ table, q.length? cs ≠ none) :
    (∀ q ∈ table, q.length? cs = q.regex.taken? cs) ∧
    ∃ before pattern after n, table = before ++ pattern :: after ∧
      (∀ q ∈ before, q.length? cs = none) ∧ pattern.length? cs = some n ∧
      first? cs = some (pattern, n) ∧
      (∀ q ∈ table, q ≠ pattern → ∀ m, q.length? cs = some m → m < n) ∧
      (pattern ≠ .blockComment → Longest pattern.regex.Matches cs n) ∧
      (pattern = .blockComment → Shortest pattern.regex.Matches cs n) ∧
      ∀ q ∈ table, q ≠ .blockComment → ∀ u, u <+: cs → q.regex.Matches u → u.length ≤ n := by
  obtain ⟨q, hq, hsome⟩ := h
  refine ⟨fun q hq => length?_eq_taken? hq cs, ?_⟩
  obtain ⟨⟨pattern, n⟩, hfirst⟩ : ∃ found, first? cs = some found := by
    rw [← Option.ne_none_iff_exists']
    exact fun hnone => hsome (first?_eq_none_iff.mp hnone q hq)
  obtain ⟨before, after, htable, hbefore, hlength⟩ := exists_split_of_first? hfirst
  have hpattern : pattern ∈ table := by
    rw [htable]
    exact List.mem_append_right before List.mem_cons_self
  refine ⟨before, pattern, after, n, htable, hbefore, hlength, hfirst, ?_, ?_, ?_, ?_⟩
  · exact fun q hq hne m hm => lt_of_first? hfirst hq hne hm
  · exact fun hblock => longest_of_length? hpattern hblock hlength
  · rintro rfl
    exact shortest_of_length? hlength
  · exact fun q hq hblock u hfront hu => le_of_first? hfirst hq hblock hfront hu

/-- A float whose exponent would go on, were there a digit behind the second mark. -/
theorem scaledFraction_match : (∃ q ∈ table, q.length? "1.5e3e".toList ≠ none) ∧
    first? "1.5e3e".toList = some (.float, 5) ∧ Pattern.integer.length? "1.5e3e".toList = some 1 ∧
    (∀ q ∈ table, q ≠ .float → ∀ m, q.length? "1.5e3e".toList = some m → m < 5) ∧
    Longest Pattern.float.regex.Matches "1.5e3e".toList 5 := by
  have hsome : ∃ q ∈ table, q.length? "1.5e3e".toList ≠ none := ⟨.float, by decide, by decide⟩
  have hfirst : first? "1.5e3e".toList = some (.float, 5) := by decide
  obtain ⟨-, before, pattern, after, n, -, -, -, hfound, hothers, hlongest, -⟩ :=
    first_match_longest hsome
  rw [hfirst] at hfound
  cases hfound
  exact ⟨hsome, hfirst, by decide, hothers, hlongest (by decide)⟩

end First

end Pulse

/-
Patterns take what a search for their expressions takes.

Every pattern computes a length in its own way, and its expression says what it should be: the first
beginning of the text in the order of the search. The two agree. Where a text starts with something
that the expression describes, the pattern takes at least that much, so the order of the search
never makes it stop too early; only a block comment stops at the first bracket that closes it.
-/
import Pulse.Proofs.RegularExpressions

set_option autoImplicit false

namespace Pulse

open Pattern Regex

/-! ## Patterns reach behind what they describe -/

section Reach

variable {p : Char → Bool} {u : List Char}

/-- A run reaches at least as far as what is all of its class. -/
theorem le_run_append (h : ∀ c ∈ u, p c) (v : List Char) : u.length ≤ run p (u ++ v) := by
  rw [run, List.takeWhile_append_of_pos h, List.length_append]
  omega

/-- Digits are taken up to their last one at least. -/
theorem RunOf.reach (h : RunOf p u) (v : List Char) :
    ∃ n, nonzero (run p (u ++ v)) = some n ∧ u.length ≤ n := by
  have hle := le_run_append h.all v
  have hpos := List.length_pos_iff.mpr h.ne_nil
  exact ⟨_, nonzero_of_pos (by omega), hle⟩

/-- An exponent is taken up to its last digit at least. -/
theorem Exponent.reach (h : Exponent u) (v : List Char) :
    u.length ≤ exponentLength (u ++ v) := by
  obtain @⟨e, sign, ds, he, hsign, hds⟩ := h
  have hle := le_run_append hds.all v
  rw [List.cons_append, List.append_assoc, exponentLength_digits he hsign hds, List.length_cons,
    List.length_append]
  omega

/-- An exponent has a mark. -/
theorem Exponent.length_pos (h : Exponent u) : 0 < u.length := by
  cases h
  simp

/-- An exponent starts with no digit, so digits in front of it end there. -/
theorem Exponent.not_isDigit_head (h : Exponent u) (v : List Char) :
    ∀ d ∈ (u ++ v).head?, d.isDigit = false := by
  obtain ⟨rfl | rfl, -, -⟩ := h <;> simp

/-- A float is taken up to its last character at least: more digits may follow, or an exponent. So a
float that the text starts with is never cut short by what stands behind it. -/
theorem FloatText.reach (h : FloatText u) (v : List Char) :
    ∃ n, floatLength? (u ++ v) = some n ∧ u.length ≤ n := by
  cases h with
  | @point whole fraction exponent hwhole hfraction hne hexponent =>
    have hwhole' :
        run Char.isDigit (whole ++ '.' :: (fraction ++ (exponent ++ v))) = whole.length :=
      run_append hwhole (by simp)
    have hfraction' := le_run_append hfraction (exponent ++ v)
    have hne' : ¬ (whole.length = 0 ∧ run Char.isDigit (fraction ++ (exponent ++ v)) = 0) := by
      rintro ⟨hzero, hnone⟩
      rw [List.length_eq_zero_iff] at hzero
      have hlength := List.length_pos_iff.mpr (hne.resolve_left fun h => h hzero)
      omega
    rw [List.append_assoc, List.cons_append, List.append_assoc, floatLength?]
    simp only [hwhole', List.drop_left, if_neg hne']
    refine ⟨_, rfl, ?_⟩
    rw [List.length_append, List.length_cons, List.length_append]
    rcases hexponent with rfl | hexponent
    · rw [List.length_nil]
      omega
    · -- The digits of the fraction end in front of the exponent.
      rw [run_append hfraction (hexponent.not_isDigit_head v), List.drop_left]
      have := hexponent.reach v
      omega
  | @scaled whole exponent hwhole hexponent =>
    have hwhole' : run Char.isDigit (whole ++ (exponent ++ v)) = whole.length :=
      run_append hwhole.all (hexponent.not_isDigit_head v)
    have hreach := hexponent.reach v
    have hpos := hexponent.length_pos
    have hne : ¬ (whole.length = 0 ∨ exponentLength (exponent ++ v) = 0) := by
      rintro (hzero | hzero)
      · exact hwhole.ne_nil (List.length_eq_zero_iff.mp hzero)
      · omega
    rw [List.append_assoc, floatLength?]
    simp only [hwhole', List.drop_left]
    split
    · rename_i hpoint
      -- The mark of an exponent is no point.
      obtain ⟨rfl | rfl, -, -⟩ := hexponent <;> cases hpoint
    · rw [if_neg hne, List.length_append]
      exact ⟨_, rfl, by omega⟩

/-- In front of a radix mark stands a single digit. -/
theorem run_of_markedLength? {cs : List Char} {n : Nat} (h : markedLength? cs = some n) :
    run Char.isDigit cs = 1 ∧ 1 < n := by
  unfold markedLength? at h
  split at h
  · obtain ⟨m, -, rfl⟩ := Option.map_eq_some_iff.mp h
    exact ⟨rfl, by omega⟩
  · obtain ⟨m, -, rfl⟩ := Option.map_eq_some_iff.mp h
    exact ⟨rfl, by omega⟩
  · obtain ⟨m, -, rfl⟩ := Option.map_eq_some_iff.mp h
    exact ⟨rfl, by omega⟩
  · cases h

/-- An integer is taken up to its last digit at least. A zero may turn out to be the start of a
mark. -/
theorem IntegerText.reach (h : IntegerText u) (v : List Char) :
    ∃ n, integerLength? (u ++ v) = some n ∧ u.length ≤ n := by
  rw [integerLength?]
  cases h with
  | decimal h =>
    obtain ⟨n, hn, hle⟩ := h.reach v
    -- A single zero is a decimal number, unless what is behind it makes it a mark.
    cases hmarked : markedLength? (u ++ v) with
    | none => exact ⟨n, hn, hle⟩
    | some m =>
      obtain ⟨hrun, hm⟩ := run_of_markedLength? hmarked
      obtain ⟨rfl, -⟩ := nonzero_eq_some hn
      exact ⟨m, rfl, by omega⟩
  | hexadecimal h | binary h | octal h =>
    obtain ⟨n, hn, hle⟩ := h.reach v
    rw [List.cons_append, List.cons_append, markedLength?, hn]
    exact ⟨n + 2, rfl, Nat.add_le_add_right hle 2⟩

/-- A comment ends no later than with a given bracket. By induction on the text in front of it; a
bracket may close the comment earlier. -/
theorem untilClose?_le (body v : List Char) :
    ∃ n, untilClose? (body ++ '*' :: '/' :: v) = some n ∧ n ≤ body.length + 2 := by
  induction body with
  | nil => exact ⟨2, rfl, Nat.le_refl _⟩
  | cons c body ih =>
    obtain ⟨n, hn, hle⟩ := ih
    rw [List.cons_append, List.length_cons]
    unfold untilClose?
    split
    · rename_i heq
      cases heq
    · exact ⟨2, rfl, by omega⟩
    · rename_i heq
      obtain ⟨-, rfl⟩ := List.cons.inj heq
      exact ⟨n + 1, by rw [hn, Option.map_some], by omega⟩

/-- **Where a text starts with what a pattern describes, the pattern takes at least that much.** One
case for each pattern. With this, what a pattern takes is the longest beginning that its expression
describes. -/
theorem Pattern.reach {pattern : Pattern} (hp : pattern ∈ table) (hblock : pattern ≠ .blockComment)
    (h : pattern.regex.Matches u) (v : List Char) :
    ∃ n, pattern.length? (u ++ v) = some n ∧ u.length ≤ n := by
  cases pattern with
  | blanks => exact (matches_several.mp h).reach v
  | lineComment =>
    obtain ⟨body, rfl, hbody⟩ := matches_lineComment.mp h
    have hle : body.length ≤ run (· ≠ '\n') (body ++ v) := by
      refine le_run_append (fun c hc => ?_) v
      simpa using ne_of_mem_of_not_mem hc hbody
    refine ⟨2 + run (· ≠ '\n') (body ++ v), rfl, ?_⟩
    rw [List.length_cons, List.length_cons]
    omega
  -- A block comment ends as early as it can, so it may take less.
  | blockComment => exact absurd rfl hblock
  | openComment =>
    rw [matches_text.mp h]
    exact ⟨2, rfl, Nat.le_refl _⟩
  | word =>
    obtain @⟨c, cs, hc, hcs⟩ := matches_word.mp h
    have hle := le_run_append hcs v
    rw [List.cons_append, length?, if_pos hc, List.length_cons]
    exact ⟨_, rfl, by omega⟩
  | float => exact (matches_float.mp h).reach v
  | integer => exact (matches_integer.mp h).reach v
  | charLiteral =>
    obtain ⟨c, hc⟩ := matches_charLiteral.mp h
    rw [length?, hc.length?_append]
    exact ⟨_, rfl, Nat.le_refl _⟩
  | fixed k s =>
    have hne : s.toList ≠ [] := (Spells.fixed (spelling?_of_mem hp)).ne_nil
    have hfront : s.toList.isPrefixOf (s.toList ++ v) :=
      List.isPrefixOf_iff_prefix.mpr (List.prefix_append ..)
    rw [matches_text.mp h, length?, if_pos hfront, nonzero_of_pos (List.length_pos_iff.mpr hne)]
    exact ⟨_, rfl, Nat.le_refl _⟩

/-- **A block comment takes no more than any comment that the text starts with.** It is the one
pattern that takes as little as it can, up to the first bracket that closes it. -/
theorem Pattern.reach_blockComment (h : blockComment.regex.Matches u) (v : List Char) :
    ∃ n, blockComment.length? (u ++ v) = some n ∧ n ≤ u.length := by
  obtain ⟨body, rfl⟩ := matches_blockComment.mp h
  obtain ⟨n, hn, hle⟩ := untilClose?_le body v
  refine ⟨n + 2, ?_, ?_⟩
  · rw [List.cons_append, List.cons_append, List.append_assoc, List.cons_append, List.cons_append,
      List.nil_append, length?, hn, Option.map_some]
  · simp only [List.length_cons, List.length_append, List.length_nil]
    omega

end Reach

/-! ## Patterns take what a search takes -/

section Searches

variable {cs : List Char} {n : Nat}

/-- A search for digits takes all of them. -/
theorem taken?_digits : digitsRegex.taken? cs = nonzero (run Char.isDigit cs) := taken?_several

/-- A sign and digits. Where no digit follows the sign, the sign itself is no digit either. So there
is nothing to find by going back and reading without the sign. -/
theorem taken?_signed : (seq (maybe (one fun c => c = '+' || c = '-')) digitsRegex).taken? cs =
    let sign := if cs.head? = some '+' ∨ cs.head? = some '-' then 1 else 0
    (nonzero (run Char.isDigit (cs.drop sign))).map (sign + ·) := by
  dsimp only
  cases cs with
  | nil => rfl
  | cons c cs =>
    by_cases hc : c = '+' ∨ c = '-'
    · have hsign : (decide (c = '+') || decide (c = '-')) = true := by simpa using hc
      have hdigit : c.isDigit = false := by rcases hc with rfl | rfl <;> rfl
      have hlengths : (maybe (one fun c => c = '+' || c = '-')).lengths (c :: cs) = [1, 0] := by
        rw [maybe, lengths, lengths_one hsign]
        rfl
      have hnone : digitsRegex.taken? (c :: cs) = none := by
        rw [taken?_digits, run_cons_of_not hdigit]
        rfl
      rw [if_pos (by simpa using hc), List.drop_one, List.tail_cons, ← taken?_digits, taken?,
        lengths, hlengths]
      simp only [List.flatMap_cons, List.flatMap_nil, List.append_nil, List.drop_zero,
        List.drop_one, List.tail_cons, List.head?_append, List.head?_map]
      rw [← taken?, ← taken?, hnone, Option.map_none, Option.or_none]
    · have hsign : ¬ (decide (c = '+') || decide (c = '-')) = true := by simpa using hc
      have hlengths : (maybe (one fun c => c = '+' || c = '-')).lengths (c :: cs) = [0] := by
        rw [maybe, lengths, lengths_one_of_not hsign]
        rfl
      rw [if_neg (by simpa using hc), taken?_seq_of_lengths hlengths, taken?_digits]

/-- An exponent is taken with its sign. Without it, the sign would stand in front of the digits. -/
theorem taken?_exponent : exponentRegex.taken? cs = nonzero (exponentLength cs) := by
  cases cs with
  | nil => rfl
  | cons e cs =>
    rw [exponentLength]
    by_cases he : e = 'e' ∨ e = 'E'
    · have hmark : (decide (e = 'e') || decide (e = 'E')) = true := by simpa using he
      rw [exponentRegex, taken?_seq_of_lengths (lengths_one hmark), if_pos he, List.drop_one,
        List.tail_cons, taken?_signed]
      dsimp only
      generalize (if cs.head? = some '+' ∨ cs.head? = some '-' then 1 else 0) = sign
      by_cases hdigits : run Char.isDigit (cs.drop sign) = 0
      · rw [if_pos hdigits, hdigits]
        rfl
      · rw [if_neg hdigits, nonzero_of_pos (by omega), nonzero_of_pos (by omega), Option.map_some,
          Option.map_some, Nat.add_assoc]
    · have hmark : ¬ (decide (e = 'e') || decide (e = 'E')) = true := by simpa using he
      rw [exponentRegex, taken?_seq_of_none (taken?_one_of_not hmark), if_neg he]
      rfl

/-- A search for an exponent or none takes one where there is one. -/
theorem taken?_maybe_exponent : (maybe exponentRegex).taken? cs = some (exponentLength cs) := by
  rw [maybe, taken?_alt, taken?_exponent, taken?_empty]
  by_cases hzero : exponentLength cs = 0
  · rw [hzero]
    rfl
  · rw [nonzero_of_pos (by omega), Option.some_or]

/-- Digits with a point are taken up to the last digit. There are two alternatives, with digits in
front of the point or behind it. The first one is taken where both are possible. -/
theorem taken?_point {rest : List Char} (hrest : cs.drop (run Char.isDigit cs) = '.' :: rest)
    (hne : ¬ (run Char.isDigit cs = 0 ∧ run Char.isDigit rest = 0)) :
    pointRegex.taken? cs = some (run Char.isDigit cs + (1 + run Char.isDigit rest)) := by
  have hdot : ∀ s, (seq (text ['.']) s).taken? ('.' :: rest) = (s.taken? rest).map (1 + ·) :=
    taken?_text_seq ['.'] rest
  rw [pointRegex, taken?_alt]
  by_cases hzero : run Char.isDigit cs = 0
  · have hdigits : digitsRegex.taken? cs = none := by
      rw [taken?_digits, hzero]
      rfl
    rw [hzero, List.drop_zero] at hrest
    rw [taken?_seq_of_none hdigits, Option.none_or, hzero, hrest, hdot, taken?_digits,
      nonzero_of_pos (by omega), Option.map_some, Nat.zero_add]
  · have hdigits : digitsRegex.taken? cs = some (run Char.isDigit cs) := by
      rw [taken?_digits, nonzero_of_pos (by omega)]
    have hfraction : (seq (text ['.']) (many Char.isDigit)).taken? (cs.drop (run Char.isDigit cs)) =
        some (1 + run Char.isDigit rest) := by
      rw [hrest, hdot, taken?_many, Option.map_some]
    rw [taken?_seq hdigits hfraction, Option.some_or]

/-- A float is taken as a whole: the second alternative is for digits without a point. Where there
is a point, the first alternative takes the exponent too, if one follows. -/
theorem taken?_of_floatLength? (h : floatLength? cs = some n) :
    Pattern.float.regex.taken? cs = some n := by
  rw [floatLength?] at h
  dsimp only at h
  rw [regex, taken?_alt]
  split at h
  · rename_i rest hrest
    split at h
    · cases h
    · rename_i hne
      have hscale : (maybe exponentRegex).taken?
          (cs.drop (run Char.isDigit cs + (1 + run Char.isDigit rest))) =
          some (exponentLength (rest.drop (run Char.isDigit rest))) := by
        rw [taken?_maybe_exponent, ← List.drop_drop, hrest, Nat.add_comm 1, List.drop_succ_cons]
      rw [taken?_seq (taken?_point hrest hne) hscale, Option.some_or, ← h, ← Nat.add_assoc]
  -- Without a point the first alternative fails, and the exponent has to be there.
  · rename_i hpoint
    split at h
    · cases h
    · rename_i hne
      rw [not_or] at hne
      have hnone : pointRegex.taken? cs = none := by
        rw [taken?_eq_none_iff]
        rintro u v hu rfl
        obtain ⟨whole, fraction, hwhole, -, -, rfl⟩ := matches_point.mp hu
        rw [List.append_assoc, List.cons_append, run_append hwhole (by simp), List.drop_left]
          at hpoint
        exact hpoint _ rfl
      have hdigits : digitsRegex.taken? cs = some (run Char.isDigit cs) := by
        rw [taken?_digits, nonzero_of_pos (by omega)]
      have hscale : exponentRegex.taken? (cs.drop (run Char.isDigit cs)) =
          some (exponentLength (cs.drop (run Char.isDigit cs))) := by
        rw [taken?_exponent, nonzero_of_pos (by omega)]
      rw [taken?_seq_of_none hnone, Option.none_or, taken?_seq hdigits hscale, h]

/-- Digits of a marked radix. -/
theorem taken?_marked (p : Char → Bool) (m : Char) (cs : List Char) :
    (seq (text ['0', m]) (several p)).taken? ('0' :: m :: cs) =
      (nonzero (run p cs)).map (· + 2) := by
  have htext := taken?_text_seq ['0', m] cs (several p)
  rw [taken?_several] at htext
  simpa [Nat.add_comm] using htext

/-- Nothing is taken where the mark is another one. -/
theorem taken?_marked_of_ne {p : Char → Bool} {m : Char} (h : ∀ ds, cs ≠ '0' :: m :: ds) :
    (seq (text ['0', m]) (several p)).taken? cs = none := by
  apply taken?_text_seq_of_not
  rintro ⟨ds, rfl⟩
  exact h ds rfl

/-- An integer is taken with its mark: the marked alternatives come first. Where no digit follows a
mark, its alternative fails and the zero is taken as a decimal integer. -/
theorem taken?_integer : Pattern.integer.regex.taken? cs = integerLength? cs := by
  rw [regex, taken?_alt, taken?_alt, taken?_alt, integerLength?, taken?_digits]
  unfold markedLength?
  split
  · rw [taken?_marked, taken?_marked_of_ne (by simp), taken?_marked_of_ne (by simp)]
    cases nonzero (run isHexDigit _) <;> rfl
  · rw [taken?_marked, taken?_marked_of_ne (by simp), taken?_marked_of_ne (by simp)]
    cases nonzero (run isBinaryDigit _) <;> rfl
  · rw [taken?_marked, taken?_marked_of_ne (by simp), taken?_marked_of_ne (by simp)]
    cases nonzero (run isOctalDigit _) <;> rfl
  · rename_i hx hb ho
    rw [taken?_marked_of_ne hx, taken?_marked_of_ne hb, taken?_marked_of_ne ho]
    rfl

/-- What follows is taken at the first place where it can be. This is the step of a search that
takes as little as it can. -/
theorem taken?_few (s : Regex) (c : Char) (cs : List Char) :
    (seq (few fun _ => true) s).taken? (c :: cs) =
      (s.taken? (c :: cs)).or (((seq (few fun _ => true) s).taken? cs).map (· + 1)) := by
  have hlater : ((upTo (fun _ => true) cs).map (· + 1)).flatMap
      (fun n => (s.lengths ((c :: cs).drop n)).map (n + ·)) =
      ((seq (few fun _ => true) s).lengths cs).map (· + 1) := by
    rw [lengths, lengths, List.flatMap_map, List.map_flatMap]
    refine congrArg (List.flatMap · _) (funext fun n => ?_)
    rw [List.drop_succ_cons, List.map_map]
    refine List.map_congr_left fun m _ => ?_
    simp only [Function.comp_apply]
    omega
  have hzero : (fun n => 0 + n) = (id : Nat → Nat) := funext Nat.zero_add
  rw [taken?, lengths, lengths, upTo, if_pos rfl, List.flatMap_cons, hlater, List.head?_append,
    List.head?_map, List.head?_map, List.drop_zero, ← taken?, ← taken?, hzero, Option.map_id, id]

/-- A search for the end of a comment stops at the first bracket that closes one. By induction on
the text, along the search for it. -/
theorem taken?_untilClose? :
    (seq (few fun _ => true) (text ['*', '/'])).taken? cs = untilClose? cs := by
  fun_induction untilClose? cs with
  | case1 => rfl
  | case2 tail =>
    have hclose : (text ['*', '/']).taken? ('*' :: '/' :: tail) = some 2 := taken?_text.trans rfl
    rw [taken?_few, hclose, Option.some_or]
  -- Here nothing is closed, so one more character belongs to the comment.
  | case3 c cs hfirst ih =>
    have hclose : ¬ ['*', '/'].isPrefixOf (c :: cs) = true := by
      intro hfront
      obtain ⟨rfl, tail, rfl⟩ := List.cons_prefix_cons.mp (List.isPrefixOf_iff_prefix.mp hfront)
      exact hfirst tail rfl rfl
    rw [taken?_few, ih, taken?_text, if_neg hclose, Option.none_or]

/-- Quotes are taken around what stands between them. -/
theorem taken?_quoted {w v : List Char} (h : quotedRegex.taken? (w ++ '\'' :: v) = some w.length) :
    Pattern.charLiteral.regex.taken? ('\'' :: (w ++ '\'' :: v)) = some (w.length + 2) := by
  have hclose : (text ['\'']).taken? ((w ++ '\'' :: v).drop w.length) = some 1 := by
    rw [List.drop_left]
    exact taken?_text.trans rfl
  have htext := taken?_text_seq ['\''] (w ++ '\'' :: v) (seq quotedRegex (text ['\'']))
  rw [taken?_seq h hclose, Option.map_some, List.length_singleton, Nat.add_comm 1] at htext
  exact htext

/-- A character literal is taken as a whole. The alternatives between the quotes exclude each
other. -/
theorem CharLiteral.taken? {u : List Char} {c : Char} (h : CharLiteral u c) (v : List Char) :
    Pattern.charLiteral.regex.taken? (u ++ v) = some u.length := by
  cases h with
  | newline => exact @taken?_quoted ['\\', 'n'] v (by simp [quotedRegex, taken?_alt, taken?_text])
  | quote =>
    refine @taken?_quoted ['\\', '\''] v ?_
    simp [quotedRegex, taken?_alt, taken?_text, taken?_text_seq_of_not]
  | backslash =>
    refine @taken?_quoted ['\\', '\\'] v ?_
    simp [quotedRegex, taken?_alt, taken?_text, taken?_text_seq_of_not]
  | @code h l high low hhigh hlow =>
    have hh : isHexDigit h = true := by rw [← isSome_hexDigit?, hhigh, Option.isSome_some]
    have hl : isHexDigit l = true := by rw [← isSome_hexDigit?, hlow, Option.isSome_some]
    have hdigits : (seq (one isHexDigit) (one isHexDigit)).taken? (h :: l :: '\'' :: v) = some 2 :=
      taken?_seq (taken?_one hh) (taken?_one hl)
    have hcode : (seq (text ['\\', 'x']) (seq (one isHexDigit) (one isHexDigit))).taken?
        ('\\' :: 'x' :: h :: l :: '\'' :: v) = some 4 := by
      have htext := taken?_text_seq ['\\', 'x'] (h :: l :: '\'' :: v)
        (seq (one isHexDigit) (one isHexDigit))
      rw [hdigits] at htext
      exact htext
    refine @taken?_quoted ['\\', 'x', h, l] v ?_
    show quotedRegex.taken? ('\\' :: 'x' :: h :: l :: '\'' :: v) = some 4
    rw [quotedRegex, taken?_alt, taken?_alt, hcode]
    simp [taken?_text]
  | plain hquote hbackslash hnewline =>
    have hone : (one fun c => c ≠ '\'' && c ≠ '\\' && c ≠ '\n').taken? (c :: '\'' :: v) = some 1 :=
      taken?_one (by simp [hquote, hbackslash, hnewline])
    refine @taken?_quoted [c] v ?_
    show quotedRegex.taken? (c :: '\'' :: v) = some 1
    rw [quotedRegex, taken?_alt, taken?_alt, taken?_alt, taken?_alt, hone]
    simp [taken?_text, taken?_text_seq_of_not, hbackslash.symm]

/-- What is cut off as the bracket of an open comment is one. -/
theorem exists_openComment (h : openComment.length? cs = some n) :
    ∃ rest, cs = '/' :: '*' :: rest ∧ n = 2 := by
  obtain ⟨c, cs, rfl, hc⟩ := exists_opens h
  obtain rfl : c = '/' := of_decide_eq_true hc
  cases cs with
  | nil => cases h
  | cons d cs =>
    by_cases hd : d = '*'
    · subst hd
      cases h
      exact ⟨cs, rfl, rfl⟩
    · simp [length?, hd] at h

/-- What a pattern takes is described by its expression. One case for each pattern, from what is cut
off to the expression. -/
theorem Pattern.matches_of_length? {pattern : Pattern} (h : pattern.length? cs = some n) :
    pattern.regex.Matches (cs.take n) := by
  cases pattern with
  | blanks => exact matches_several.mpr (runOf_of_nonzero h)
  | lineComment => exact matches_lineComment.mpr (exists_lineComment h)
  | blockComment =>
    obtain ⟨body, htake, -⟩ := exists_blockComment h
    exact matches_blockComment.mpr ⟨body, htake⟩
  | openComment =>
    obtain ⟨rest, rfl, rfl⟩ := exists_openComment h
    exact matches_text.mpr rfl
  | word => exact matches_word.mpr (wordText_of_length? h)
  | float => exact matches_float.mpr (floatText_of_length? h)
  | integer => exact matches_integer.mpr (integerText_of_length? h)
  | charLiteral =>
    obtain ⟨⟨m, c⟩, hm, rfl⟩ := Option.map_eq_some_iff.mp h
    exact matches_charLiteral.mpr ⟨c, charLiteral_of_length? hm⟩
  | fixed k s => exact matches_text.mpr (take_of_fixed h)

/-- The brackets that a comment starts with. -/
theorem prefix_of_take {u v : List Char} (h : cs.take n = u ++ v) : ∃ rest, cs = u ++ rest := by
  have hfront : u <+: cs := by
    refine List.IsPrefix.trans ?_ (List.take_prefix n cs)
    rw [h]
    exact List.prefix_append u v
  obtain ⟨rest, hrest⟩ := hfront
  exact ⟨rest, hrest.symm⟩

/-- What a pattern takes is what a search for its expression takes. For alternatives and repetitions
the search has an order of its own, so this is more than that the expression describes the piece. -/
theorem Pattern.taken?_of_length? {pattern : Pattern} (h : pattern.length? cs = some n) :
    pattern.regex.taken? cs = some n := by
  cases pattern with
  | blanks => exact taken?_several.trans h
  | lineComment =>
    obtain ⟨body, htake, -⟩ := exists_lineComment h
    obtain ⟨rest, rfl⟩ := @prefix_of_take cs n ['/', '/'] body htake
    rw [regex, taken?_text_seq, taken?_many]
    exact h
  | blockComment =>
    obtain ⟨body, htake, -⟩ := exists_blockComment h
    obtain ⟨rest, rfl⟩ := @prefix_of_take cs n ['/', '*'] (body ++ ['*', '/']) htake
    obtain ⟨m, hm, rfl⟩ := Option.map_eq_some_iff.mp h
    have hclose : untilClose? rest = some m := hm
    rw [regex, taken?_text_seq, taken?_untilClose?, hclose, Option.map_some, Nat.add_comm]
    rfl
  | openComment =>
    obtain ⟨rest, rfl, rfl⟩ := exists_openComment h
    exact taken?_text.trans rfl
  | word =>
    obtain ⟨c, cs, rfl, hc⟩ := exists_opens h
    have hstart : isWordStart c := hc
    rw [length?, if_pos hstart] at h
    rw [regex, taken?_seq_of_lengths (lengths_one hstart), taken?_many]
    exact h
  | float => exact taken?_of_floatLength? h
  | integer => exact taken?_integer.trans h
  | charLiteral =>
    obtain ⟨⟨m, c⟩, hm, rfl⟩ := Option.map_eq_some_iff.mp h
    -- The literal is followed by the rest of the text, and the search does not look at it.
    have hliteral := charLiteral_of_length? hm
    have hlength := hliteral.length?_append (cs.drop m)
    have htaken := hliteral.taken? (cs.drop m)
    rw [List.take_append_drop] at hlength htaken
    rw [hm] at hlength
    obtain ⟨hm', -⟩ := Prod.mk.inj (Option.some.inj hlength)
    rw [htaken, ← hm']
  | fixed k s =>
    rw [length?] at h
    split at h
    · rename_i hfront
      obtain ⟨rfl, -⟩ := nonzero_eq_some h
      exact taken?_text.trans (if_pos hfront)
    · cases h

/-- **A pattern takes from every text what a search for its expression takes.** Where the search
finds nothing, the pattern takes nothing either. -/
theorem Pattern.length?_eq_taken? {pattern : Pattern} (hp : pattern ∈ table) (cs : List Char) :
    pattern.length? cs = pattern.regex.taken? cs := by
  cases h : pattern.length? cs with
  | some n => exact (taken?_of_length? h).symm
  | none =>
    symm
    rw [taken?_eq_none_iff]
    rintro u v hu rfl
    by_cases hblock : pattern = .blockComment
    · subst hblock
      obtain ⟨n, hn, -⟩ := reach_blockComment hu v
      rw [hn] at h
      cases h
    · obtain ⟨n, hn, -⟩ := reach hp hblock hu v
      rw [hn] at h
      cases h

end Searches

end Pulse

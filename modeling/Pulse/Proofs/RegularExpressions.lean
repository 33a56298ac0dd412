/-
Regular expressions, and the one behind each pattern.

An expression describes a set of texts. It also says in which order the beginnings of a text are
tried: the first alternative before the second, and as many characters of a class as possible before
fewer of them, or the other way round. A search takes the first beginning that it comes to, which
need not be the longest one. The lengths that a pattern computes are shown to be what such a search
takes for the expression of the pattern.
-/
import Pulse.Proofs.Cuts

set_option autoImplicit false

namespace Pulse

/-! ## Expressions -/

/-- Regular expressions. Only characters are repeated. -/
inductive Regex where
  /-- The empty text. -/
  | empty
  /-- One character of a class. -/
  | one (p : Char → Bool)
  /-- Characters of a class, as many as possible. -/
  | many (p : Char → Bool)
  /-- Characters of a class, as few as possible. -/
  | few (p : Char → Bool)
  /-- The one behind the other. -/
  | seq (r s : Regex)
  /-- The one or the other, and rather the first. -/
  | alt (r s : Regex)

namespace Regex

/-- The texts that an expression describes. -/
def Matches : Regex → List Char → Prop
  | empty, u => u = []
  | one p, u => ∃ c, p c ∧ u = [c]
  | many p, u => ∀ c ∈ u, p c
  | few p, u => ∀ c ∈ u, p c
  | seq r s, u => ∃ v w, r.Matches v ∧ s.Matches w ∧ u = v ++ w
  | alt r s, u => r.Matches u ∨ s.Matches u

/-- How many characters of a class can be taken from a text, from none to all. -/
def upTo (p : Char → Bool) : List Char → List Nat
  | [] => [0]
  | c :: cs => 0 :: if p c then (upTo p cs).map (· + 1) else []

/-- The lengths of the beginnings of a text that an expression describes, in the order in which they
are tried. -/
def lengths : Regex → List Char → List Nat
  | empty, _ => [0]
  | one p, cs => if cs.head?.any p then [1] else []
  | many p, cs => (upTo p cs).reverse
  | few p, cs => upTo p cs
  | seq r s, cs => (r.lengths cs).flatMap fun n => (s.lengths (cs.drop n)).map (n + ·)
  | alt r s, cs => r.lengths cs ++ s.lengths cs

/-- **The beginning that a search takes: the first in the order.** -/
def taken? (r : Regex) (cs : List Char) : Option Nat := (r.lengths cs).head?

/-- A given text. -/
def text : List Char → Regex
  | [] => empty
  | c :: cs => seq (one (· = c)) (text cs)

/-- One or more characters of a class. -/
def several (p : Char → Bool) : Regex := seq (one p) (many p)

/-- An expression, or nothing. -/
def maybe (r : Regex) : Regex := alt r empty

/-! ## What is tried is what is described -/

section Tried

variable {p : Char → Bool} {r s : Regex} {cs u v : List Char} {n : Nat}

/-- The numbers of characters that can be taken are the lengths of the beginnings that are all of
the class. -/
theorem mem_upTo : n ∈ upTo p cs ↔ ∃ u v, (∀ c ∈ u, p c) ∧ cs = u ++ v ∧ u.length = n := by
  induction cs generalizing n with
  | nil =>
    rw [upTo, List.mem_singleton]
    constructor
    · rintro rfl
      exact ⟨[], [], by simp, rfl, rfl⟩
    · rintro ⟨u, v, -, hnil, rfl⟩
      rw [(List.append_eq_nil_iff.mp hnil.symm).1, List.length_nil]
  | cons c cs ih =>
    rw [upTo, List.mem_cons]
    constructor
    · rintro (rfl | hn)
      · exact ⟨[], c :: cs, by simp, rfl, rfl⟩
      · by_cases hc : p c
        · rw [if_pos hc, List.mem_map] at hn
          obtain ⟨m, hm, rfl⟩ := hn
          obtain ⟨u, v, hu, rfl, rfl⟩ := ih.mp hm
          exact ⟨c :: u, v, List.forall_mem_cons.mpr ⟨hc, hu⟩, rfl, rfl⟩
        · rw [if_neg hc] at hn
          cases hn
    · rintro ⟨u, v, hu, hcs, rfl⟩
      cases u with
      | nil => exact .inl rfl
      | cons d u =>
        obtain ⟨rfl, rfl⟩ := List.cons.inj hcs
        obtain ⟨hc, hu⟩ := List.forall_mem_cons.mp hu
        rw [if_pos hc]
        exact .inr (List.mem_map_of_mem (ih.mpr ⟨u, v, hu, rfl, rfl⟩))

/-- **A search tries the beginnings that the expression describes, and no others.** In which order
it tries them is another matter, on which the first one found depends. -/
theorem mem_lengths : n ∈ r.lengths cs ↔ ∃ u v, r.Matches u ∧ cs = u ++ v ∧ u.length = n := by
  -- Expression by expression; a sequence is described by the lengths of its first part, and for
  -- each of them those of the second one.
  induction r generalizing cs n with
  | empty =>
    rw [lengths, List.mem_singleton]
    constructor
    · rintro rfl
      exact ⟨[], cs, rfl, rfl, rfl⟩
    · rintro ⟨u, v, rfl, -, rfl⟩
      rfl
  | one p =>
    rw [lengths]
    constructor
    · intro hn
      cases cs with
      | nil => cases hn
      | cons c cs =>
        rw [List.head?_cons, Option.any_some] at hn
        by_cases hp : p c
        · rw [if_pos hp, List.mem_singleton] at hn
          exact ⟨[c], cs, ⟨c, hp, rfl⟩, rfl, hn.symm⟩
        · rw [if_neg hp] at hn
          cases hn
    · rintro ⟨u, v, ⟨c, hp, rfl⟩, rfl, rfl⟩
      simp [hp]
  | many p => rw [lengths, List.mem_reverse, mem_upTo]; rfl
  | few p => rw [lengths, mem_upTo]; rfl
  | alt r s hr hs =>
    rw [lengths, List.mem_append, hr, hs]
    constructor
    · rintro (⟨u, v, hu, hcs, hn⟩ | ⟨u, v, hu, hcs, hn⟩)
      · exact ⟨u, v, .inl hu, hcs, hn⟩
      · exact ⟨u, v, .inr hu, hcs, hn⟩
    · rintro ⟨u, v, hu | hu, hcs, hn⟩
      · exact .inl ⟨u, v, hu, hcs, hn⟩
      · exact .inr ⟨u, v, hu, hcs, hn⟩
  | seq r s hr hs =>
    rw [lengths, List.mem_flatMap]
    constructor
    · rintro ⟨a, ha, hn⟩
      obtain ⟨b, hb, rfl⟩ := List.mem_map.mp hn
      obtain ⟨u, v, hu, rfl, rfl⟩ := hr.mp ha
      obtain ⟨w, x, hw, hdrop, rfl⟩ := hs.mp hb
      rw [List.drop_left] at hdrop
      refine ⟨u ++ w, x, ⟨u, w, hu, hw, rfl⟩, ?_, List.length_append⟩
      rw [hdrop, List.append_assoc]
    · rintro ⟨_, x, ⟨u, w, hu, hw, rfl⟩, rfl, rfl⟩
      refine ⟨u.length, hr.mpr ⟨u, w ++ x, hu, List.append_assoc .., rfl⟩, ?_⟩
      rw [List.append_assoc, List.drop_left, List.length_append]
      exact List.mem_map_of_mem (hs.mpr ⟨w, x, hw, rfl, rfl⟩)

/-- What is taken is described. -/
theorem matches_of_taken? (h : r.taken? cs = some n) :
    r.Matches (cs.take n) ∧ n ≤ cs.length := by
  obtain ⟨u, v, hu, rfl, rfl⟩ := mem_lengths.mp (List.mem_of_head? h)
  rw [List.take_left]
  exact ⟨hu, by simp⟩

/-- Nothing is taken only where nothing is described. -/
theorem taken?_eq_none_iff : r.taken? cs = none ↔ ∀ u v, r.Matches u → cs ≠ u ++ v := by
  rw [taken?, List.head?_eq_none_iff, List.eq_nil_iff_forall_not_mem]
  constructor
  · intro h u v hu hcs
    exact h _ (mem_lengths.mpr ⟨u, v, hu, hcs, rfl⟩)
  · intro h n hn
    obtain ⟨u, v, hu, hcs, -⟩ := mem_lengths.mp hn
    exact h u v hu hcs

end Tried

/-! ## What is taken, expression by expression -/

section Taken

variable {p : Char → Bool} {r s : Regex} {cs : List Char} {a b : Nat}

@[simp] theorem taken?_empty : empty.taken? cs = some 0 := rfl

/-- A character of the class is taken. -/
theorem lengths_one {c : Char} (hc : p c) : (one p).lengths (c :: cs) = [1] := if_pos hc

/-- No other character is. -/
theorem lengths_one_of_not {c : Char} (hc : ¬ p c) : (one p).lengths (c :: cs) = [] := if_neg hc

/-- A search for one character takes it where it is of the class. -/
theorem taken?_one {c : Char} (hc : p c) : (one p).taken? (c :: cs) = some 1 := by
  rw [taken?, lengths_one hc, List.head?_singleton]

/-- It takes nothing elsewhere. -/
theorem taken?_one_of_not {c : Char} (hc : ¬ p c) : (one p).taken? (c :: cs) = none := by
  rw [taken?, lengths_one_of_not hc, List.head?_nil]

/-- All characters of the class come last in the order from none to all. -/
theorem getLast?_upTo : (upTo p cs).getLast? = some (run p cs) := by
  induction cs with
  | nil => rfl
  | cons c cs ih =>
    rw [upTo, List.getLast?_cons]
    by_cases hc : p c
    · simp [hc, ih, run]
    · simp [hc, run]

/-- Of a class, all characters are taken. -/
theorem taken?_many : (many p).taken? cs = some (run p cs) := by
  rw [taken?, lengths, List.head?_reverse, getLast?_upTo]

/-- The second part goes on where the first one stopped, if it can go on there. -/
theorem taken?_seq (hr : r.taken? cs = some a) (hs : s.taken? (cs.drop a) = some b) :
    (seq r s).taken? cs = some (a + b) := by
  obtain ⟨as, has⟩ := List.head?_eq_some_iff.mp hr
  rw [taken?, lengths, has, List.flatMap_cons, List.head?_append, List.head?_map, ← taken?, hs]
  rfl

/-- Nothing is taken where the first part fails. -/
theorem taken?_seq_of_none (hr : r.taken? cs = none) : (seq r s).taken? cs = none := by
  rw [taken?, List.head?_eq_none_iff] at hr
  rw [taken?, lengths, hr, List.flatMap_nil, List.head?_nil]

/-- The second alternative is for where the first one fails. -/
theorem taken?_alt : (alt r s).taken? cs = (r.taken? cs).or (s.taken? cs) := by
  rw [taken?, lengths, List.head?_append]
  rfl

/-- The same for a first part that can be taken in one way only. -/
theorem taken?_seq_of_lengths (hr : r.lengths cs = [a]) :
    (seq r s).taken? cs = (s.taken? (cs.drop a)).map (a + ·) := by
  rw [taken?, lengths, hr, List.flatMap_singleton, List.head?_map, ← taken?]

/-- A given text describes itself. -/
theorem matches_text {u v : List Char} : (text v).Matches u ↔ u = v := by
  induction v generalizing u with
  | nil => rfl
  | cons c v ih =>
    rw [text, Matches]
    constructor
    · rintro ⟨_, w, ⟨d, hd, rfl⟩, hw, rfl⟩
      rw [ih.mp hw, of_decide_eq_true hd, List.singleton_append]
    · rintro rfl
      exact ⟨[c], v, ⟨c, decide_eq_true rfl, rfl⟩, ih.mpr rfl, rfl⟩

/-- A given text can be taken in one way. -/
theorem lengths_text (u v : List Char) : (text u).lengths (u ++ v) = [u.length] := by
  induction u with
  | nil => rfl
  | cons c u ih =>
    rw [text, lengths, List.cons_append, lengths_one (decide_eq_true rfl), List.flatMap_singleton,
      List.drop_one, List.tail_cons, ih, List.map_singleton, Nat.add_comm, List.length_cons]

/-- A text is taken where it stands. -/
theorem taken?_text {u : List Char} :
    (text u).taken? cs = if u.isPrefixOf cs then some u.length else none := by
  by_cases hu : u.isPrefixOf cs
  · obtain ⟨v, rfl⟩ := List.isPrefixOf_iff_prefix.mp hu
    rw [if_pos hu, taken?, lengths_text, List.head?_singleton]
  · rw [if_neg hu, taken?_eq_none_iff]
    rintro w v hw rfl
    rw [matches_text.mp hw] at hu
    exact hu (List.isPrefixOf_iff_prefix.mpr (List.prefix_append u v))

/-- A text and what follows it. -/
theorem taken?_text_seq (u v : List Char) (s : Regex) :
    (seq (text u) s).taken? (u ++ v) = (s.taken? v).map (u.length + ·) := by
  rw [taken?_seq_of_lengths (lengths_text u v), List.drop_left]

/-- Nothing is taken where the text in front does not stand. -/
theorem taken?_text_seq_of_not {u : List Char} (h : ¬ u <+: cs) :
    (seq (text u) s).taken? cs = none := by
  apply taken?_seq_of_none
  rw [taken?_text, if_neg (fun hu => h (List.isPrefixOf_iff_prefix.mp hu))]

/-- Several characters of a class are a run of it. -/
theorem matches_several {u : List Char} : (several p).Matches u ↔ RunOf p u := by
  rw [several, Matches]
  constructor
  · rintro ⟨_, w, ⟨c, hc, rfl⟩, hw, rfl⟩
    exact ⟨List.cons_ne_nil c w, List.forall_mem_cons.mpr ⟨hc, hw⟩⟩
  · rintro ⟨hne, hall⟩
    obtain ⟨c, w, rfl⟩ := List.exists_cons_of_ne_nil hne
    obtain ⟨hc, hw⟩ := List.forall_mem_cons.mp hall
    exact ⟨[c], w, ⟨c, hc, rfl⟩, hw, rfl⟩

/-- A search for several characters of a class takes all of them, if there are any. The first one
has to be there, and behind it the search takes as many as it can. -/
theorem taken?_several : (several p).taken? cs = nonzero (run p cs) := by
  cases cs with
  | nil => rfl
  | cons c cs =>
    by_cases hc : p c
    · have hrun : run p (c :: cs) = 1 + run p cs := by
        rw [run, List.takeWhile_cons_of_pos hc, List.length_cons, Nat.add_comm, run]
      rw [several, taken?_seq_of_lengths (lengths_one hc), List.drop_one, List.tail_cons,
        taken?_many, hrun, Option.map_some, nonzero_of_pos (by omega)]
    · rw [several, taken?_seq_of_none (taken?_one_of_not hc),
        Pattern.run_cons_of_not (by simpa using hc)]
      rfl

end Taken

end Regex

/-! ## The expressions of the patterns -/

open Regex

/-- Decimal digits. -/
def digitsRegex : Regex := several Char.isDigit

/-- An exponent. -/
def exponentRegex : Regex :=
  seq (one fun c => c = 'e' || c = 'E') (seq (maybe (one fun c => c = '+' || c = '-')) digitsRegex)

/-- Digits with a point among, before or behind them. -/
def pointRegex : Regex :=
  alt (seq digitsRegex (seq (text ['.']) (many Char.isDigit))) (seq (text ['.']) digitsRegex)

/-- What stands between the quotes of a character literal. -/
def quotedRegex : Regex :=
  alt (text ['\\', 'n'])
    (alt (seq (text ['\\', 'x']) (seq (one isHexDigit) (one isHexDigit)))
      (alt (text ['\\', '\''])
        (alt (text ['\\', '\\']) (one fun c => c ≠ '\'' && c ≠ '\\' && c ≠ '\n'))))

/-- The expression of a pattern. Alternatives are in the order in which they are tried. -/
def Pattern.regex : Pattern → Regex
  | blanks => several isBlank
  | lineComment => seq (text ['/', '/']) (many (· ≠ '\n'))
  | blockComment => seq (text ['/', '*']) (seq (few fun _ => true) (text ['*', '/']))
  | openComment => text ['/', '*']
  | word => seq (one isWordStart) (many isWordPart)
  | float =>
    alt (seq pointRegex (maybe exponentRegex)) (seq digitsRegex exponentRegex)
  | integer =>
    alt (seq (text ['0', 'x']) (several isHexDigit))
      (alt (seq (text ['0', 'b']) (several isBinaryDigit))
        (alt (seq (text ['0', 'o']) (several isOctalDigit)) digitsRegex))
  | charLiteral => seq (text ['\'']) (seq quotedRegex (text ['\'']))
  | fixed _ s => text s.toList

/-! ## What the expressions describe -/

section Described

variable {u : List Char}

/-- The expression of digits describes runs of them. -/
theorem matches_digits : digitsRegex.Matches u ↔ RunOf Char.isDigit u := matches_several

/-- The expression of exponents describes exponents. A mark, maybe a sign, and digits. -/
theorem matches_exponent : exponentRegex.Matches u ↔ Exponent u := by
  constructor
  · rintro ⟨_, _, ⟨e, he, rfl⟩, ⟨sign, ds, hsign, hds, rfl⟩, rfl⟩
    rw [Bool.or_eq_true, decide_eq_true_eq, decide_eq_true_eq] at he
    refine @Exponent.mk e sign ds he ?_ (matches_digits.mp hds)
    rcases hsign with ⟨c, hc, rfl⟩ | rfl
    · rw [Bool.or_eq_true, decide_eq_true_eq, decide_eq_true_eq] at hc
      rcases hc with rfl | rfl
      · exact .inr (.inl rfl)
      · exact .inr (.inr rfl)
    · exact .inl rfl
  · rintro @⟨e, sign, ds, he, hsign, hds⟩
    refine ⟨[e], sign ++ ds, ⟨e, by simpa using he, rfl⟩,
      ⟨sign, ds, ?_, matches_digits.mpr hds, rfl⟩, rfl⟩
    rcases hsign with rfl | rfl | rfl
    · exact .inr rfl
    · exact .inl ⟨'+', rfl, rfl⟩
    · exact .inl ⟨'-', rfl, rfl⟩

/-- Digits on at least one side of a point. The two alternatives of the expression overlap where
there are digits on both. -/
theorem matches_point : pointRegex.Matches u ↔ ∃ whole fraction, (∀ c ∈ whole, c.isDigit) ∧
    (∀ c ∈ fraction, c.isDigit) ∧ (whole ≠ [] ∨ fraction ≠ []) ∧ u = whole ++ '.' :: fraction := by
  constructor
  · rintro (⟨whole, _, hwhole, ⟨_, fraction, hdot, hfraction, rfl⟩, rfl⟩ |
      ⟨_, fraction, hdot, hfraction, rfl⟩)
    · have hdigits := matches_digits.mp hwhole
      rw [matches_text.mp hdot]
      exact ⟨whole, fraction, hdigits.all, hfraction, .inl hdigits.ne_nil, rfl⟩
    · have hdigits := matches_digits.mp hfraction
      rw [matches_text.mp hdot]
      exact ⟨[], fraction, by simp, hdigits.all, .inr hdigits.ne_nil, rfl⟩
  · rintro ⟨whole, fraction, hwhole, hfraction, hne, rfl⟩
    -- The two alternatives overlap, and the first one is for digits in front of the point.
    by_cases hnil : whole = []
    · subst hnil
      have hdigits : RunOf Char.isDigit fraction := ⟨hne.resolve_left (by simp), hfraction⟩
      exact .inr ⟨['.'], fraction, matches_text.mpr rfl, matches_digits.mpr hdigits, rfl⟩
    · exact .inl ⟨whole, '.' :: fraction, matches_digits.mpr ⟨hnil, hwhole⟩,
        ⟨['.'], fraction, matches_text.mpr rfl, hfraction, rfl⟩, rfl⟩

/-- **The expression of floats describes floats.** Its two alternatives are the two forms of floats,
and the exponent of the first one may be missing. -/
theorem matches_float : Pattern.float.regex.Matches u ↔ FloatText u := by
  constructor
  · rintro (⟨_, exponent, hpoint, hexponent, rfl⟩ | ⟨whole, exponent, hwhole, hexponent, rfl⟩)
    · obtain ⟨whole, fraction, hwhole, hfraction, hne, rfl⟩ := matches_point.mp hpoint
      rw [List.append_assoc, List.cons_append]
      exact .point hwhole hfraction hne (hexponent.symm.imp_right matches_exponent.mp)
    · exact .scaled (matches_digits.mp hwhole) (matches_exponent.mp hexponent)
  · intro h
    cases h with
    | @point whole fraction exponent hwhole hfraction hne hexponent =>
      refine .inl ⟨whole ++ '.' :: fraction, exponent, ?_, ?_, ?_⟩
      · exact matches_point.mpr ⟨whole, fraction, hwhole, hfraction, hne, rfl⟩
      · exact hexponent.symm.imp_left matches_exponent.mpr
      · rw [List.append_assoc, List.cons_append]
    | scaled hwhole hexponent =>
      exact .inr ⟨_, _, matches_digits.mpr hwhole, matches_exponent.mpr hexponent, rfl⟩

/-- **The expression of integers describes integers**, one alternative for each radix. The
alternatives are told apart by their marks, and the last one has none. -/
theorem matches_integer : Pattern.integer.regex.Matches u ↔ IntegerText u := by
  constructor
  · rintro (⟨_, ds, hmark, hds, rfl⟩ | ⟨_, ds, hmark, hds, rfl⟩ | ⟨_, ds, hmark, hds, rfl⟩ | hds)
    · rw [matches_text.mp hmark]
      exact .hexadecimal (matches_several.mp hds)
    · rw [matches_text.mp hmark]
      exact .binary (matches_several.mp hds)
    · rw [matches_text.mp hmark]
      exact .octal (matches_several.mp hds)
    · exact .decimal (matches_digits.mp hds)
  · intro h
    cases h with
    | decimal h => exact .inr (.inr (.inr (matches_digits.mpr h)))
    | hexadecimal h => exact .inl ⟨_, _, matches_text.mpr rfl, matches_several.mpr h, rfl⟩
    | binary h => exact .inr (.inl ⟨_, _, matches_text.mpr rfl, matches_several.mpr h, rfl⟩)
    | octal h => exact .inr (.inr (.inl ⟨_, _, matches_text.mpr rfl, matches_several.mpr h, rfl⟩))

/-- The digits of radix sixteen are the characters with a value. -/
theorem isSome_hexDigit? (c : Char) : (Number.hexDigit? c).isSome = isHexDigit c := by
  have hdigit : c.isDigit = (decide ('0' ≤ c) && decide (c ≤ '9')) := rfl
  rw [Number.hexDigit?, isHexDigit, hdigit]
  split
  · simp_all
  · split
    · simp_all
    · split
      · simp_all
      · simp_all

/-- **The expression of character literals describes them**, whatever they stand for. One
alternative for each escape and one for plain characters; a code has two hexadecimal digits. -/
theorem matches_charLiteral : Pattern.charLiteral.regex.Matches u ↔ ∃ c, CharLiteral u c := by
  constructor
  · rintro ⟨_, _, hopen, ⟨v, _, hv, hclose, rfl⟩, rfl⟩
    rw [matches_text.mp hopen, matches_text.mp hclose]
    rcases hv with hv | ⟨_, _, hmark, ⟨_, _, ⟨h, hh, rfl⟩, ⟨l, hl, rfl⟩, rfl⟩, rfl⟩ | hv | hv |
      ⟨c, hc, rfl⟩
    · rw [matches_text.mp hv]
      exact ⟨_, .newline⟩
    · rw [← isSome_hexDigit?] at hh hl
      obtain ⟨high, hhigh⟩ := Option.isSome_iff_exists.mp hh
      obtain ⟨low, hlow⟩ := Option.isSome_iff_exists.mp hl
      rw [matches_text.mp hmark]
      exact ⟨_, .code hhigh hlow⟩
    · rw [matches_text.mp hv]
      exact ⟨_, .quote⟩
    · rw [matches_text.mp hv]
      exact ⟨_, .backslash⟩
    · obtain ⟨⟨hquote, hbackslash⟩, hnewline⟩ : (c ≠ '\'' ∧ c ≠ '\\') ∧ c ≠ '\n' := by
        simpa using hc
      exact ⟨c, .plain hquote hbackslash hnewline⟩
  · rintro ⟨c, h⟩
    refine ⟨['\''], u.tail, matches_text.mpr rfl,
      ⟨u.tail.dropLast, ['\''], ?_, matches_text.mpr rfl, ?_⟩, ?_⟩
    · cases h with
      | newline => exact .inl (matches_text.mpr rfl)
      | quote => exact .inr (.inr (.inl (matches_text.mpr rfl)))
      | backslash => exact .inr (.inr (.inr (.inl (matches_text.mpr rfl))))
      | @code h l high low hhigh hlow =>
        have hh : isHexDigit h = true := by rw [← isSome_hexDigit?, hhigh, Option.isSome_some]
        have hl : isHexDigit l = true := by rw [← isSome_hexDigit?, hlow, Option.isSome_some]
        exact .inr (.inl ⟨_, _, matches_text.mpr rfl, ⟨_, _, ⟨h, hh, rfl⟩, ⟨l, hl, rfl⟩, rfl⟩, rfl⟩)
      | plain hquote hbackslash hnewline =>
        exact .inr (.inr (.inr (.inr ⟨c, by simp [hquote, hbackslash, hnewline], rfl⟩)))
    · cases h <;> rfl
    · cases h <;> rfl

/-- The expression of words describes words. -/
theorem matches_word : Pattern.word.regex.Matches u ↔ WordText u := by
  constructor
  · rintro ⟨_, cs, ⟨c, hc, rfl⟩, hcs, rfl⟩
    exact .mk hc hcs
  · rintro @⟨c, cs, hc, hcs⟩
    exact ⟨[c], cs, ⟨c, hc, rfl⟩, hcs, rfl⟩

/-- A line comment has no newline in it. -/
theorem matches_lineComment :
    Pattern.lineComment.regex.Matches u ↔ ∃ body, u = '/' :: '/' :: body ∧ '\n' ∉ body := by
  constructor
  · rintro ⟨_, body, hopen, hbody, rfl⟩
    rw [matches_text.mp hopen]
    exact ⟨body, rfl, notMem_of_all hbody (by simp)⟩
  · rintro ⟨body, rfl, hbody⟩
    refine ⟨_, body, matches_text.mpr rfl, fun c hc => ?_, rfl⟩
    simpa using ne_of_mem_of_not_mem hc hbody

/-- A block comment has a bracket at both ends. Its body may have one, too: that a search stops at
the first one is a matter of order. -/
theorem matches_blockComment :
    Pattern.blockComment.regex.Matches u ↔ ∃ body, u = '/' :: '*' :: (body ++ ['*', '/']) := by
  constructor
  · rintro ⟨_, _, hopen, ⟨body, _, -, hclose, rfl⟩, rfl⟩
    rw [matches_text.mp hopen, matches_text.mp hclose]
    exact ⟨body, rfl⟩
  · rintro ⟨body, rfl⟩
    exact ⟨_, _, matches_text.mpr rfl, ⟨body, _, fun _ _ => rfl, matches_text.mpr rfl, rfl⟩, rfl⟩

end Described

end Pulse

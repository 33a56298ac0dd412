/-
What the patterns cut off a text.

Two things are shown of every pattern. What it cuts off has one of the forms of its tokens. And
where a text of such a form is followed by a blank, it cuts off just that text, and no pattern in
front of it in the table takes anything. A pattern takes nothing from a text that does not start
right, which leaves few patterns to look at for each.
-/
import Mathlib.Data.List.TakeWhile
import Pulse.Proofs.Lexemes

set_option autoImplicit false

namespace Pulse

/-! ## Runs -/

section Runs

variable {p : Char → Bool} {cs ds : List Char}

/-- A run cut off is the longest start of the text of characters of the class. -/
theorem take_run (p : Char → Bool) (cs : List Char) : cs.take (run p cs) = cs.takeWhile p :=
  (List.prefix_iff_eq_take.mp (List.takeWhile_prefix p)).symm

/-- A run ends in front of what is not of the class. -/
theorem run_append (hcs : ∀ c ∈ cs, p c) (hds : ∀ d ∈ ds.head?, p d = false) :
    run p (cs ++ ds) = cs.length := by
  rw [run, List.takeWhile_append_of_pos hcs]
  cases ds with
  | nil => simp
  | cons d ds => simp [hds d rfl]

/-- A run that is not empty is one of its class. -/
theorem runOf_takeWhile (h : run p cs ≠ 0) : RunOf p (cs.takeWhile p) := by
  refine ⟨?_, fun c hc => List.mem_takeWhile_imp hc⟩
  intro hnil
  rw [run, hnil] at h
  exact h rfl

end Runs

/-- Blanks are one of four characters. -/
theorem mem_of_isBlank {b : Char} (h : isBlank b) : b ∈ [' ', '\t', '\r', '\n'] := by
  simpa [isBlank, or_assoc] using h

/-- A class that the four are not in has no blank. So a class is known to have none by running it on
the four. -/
theorem eq_false_of_isBlank {p : Char → Bool} {b : Char} (h : isBlank b)
    (hp : [' ', '\t', '\r', '\n'].any p = false) : p b = false := by
  rw [List.any_eq_false] at hp
  rw [← Bool.not_eq_true]
  exact hp b (mem_of_isBlank h)

/-- No character of a class without blanks is blank. -/
theorem isBlank_eq_false {p : Char → Bool} {c : Char} (hc : p c)
    (hp : [' ', '\t', '\r', '\n'].any p = false) : isBlank c = false := by
  rw [← Bool.not_eq_true]
  intro hblank
  rw [eq_false_of_isBlank hblank hp] at hc
  cases hc

/-- Letters and the underscore stand behind the digits. -/
theorem le_of_isWordStart {c : Char} (h : isWordStart c) : 'A'.val ≤ c.val := by
  rcases (Bool.or_eq_true _ _).mp h with halpha | hline
  · rcases (Bool.or_eq_true _ _).mp halpha with hupper | hlower
    · exact (of_decide_eq_true hupper).1
    · have hle : 'a'.val ≤ c.val := of_decide_eq_true ((Bool.and_eq_true _ _).mp hlower).1
      exact UInt32.le_trans (by decide) hle
  · rw [of_decide_eq_true hline]
    decide

/-- No word starts with a digit. -/
theorem isWordStart_of_isDigit {c : Char} (h : c.isDigit) : isWordStart c = false := by
  have hnine : c.val ≤ '9'.val := of_decide_eq_true ((Bool.and_eq_true _ _).mp h).2
  rw [← Bool.not_eq_true]
  intro hword
  exact absurd (UInt32.le_trans (le_of_isWordStart hword) hnine) (by decide)

/-! ## Numbers -/

section Numbers

variable {cs ds rest : List Char} {b : Char} {n : Nat}

/-- Digits end in front of a character that is none. -/
theorem RunOf.run_append {p : Char → Bool} (h : RunOf p cs) (hb : p b = false) :
    run p (cs ++ b :: rest) = cs.length := by
  refine Pulse.run_append h.all ?_
  rintro d hd
  obtain rfl : b = d := by simpa using hd
  exact hb

/-- A length that is positive counts. -/
theorem nonzero_of_pos (h : 0 < n) : nonzero n = some n := if_neg (by omega)

/-- A run of a class is cut off as a whole in front of what is not of the class. -/
theorem RunOf.nonzero_run {p : Char → Bool} (h : RunOf p cs) (hb : p b = false) :
    nonzero (run p (cs ++ b :: rest)) = some cs.length := by
  rw [h.run_append hb]
  exact nonzero_of_pos (List.length_pos_iff.mpr h.ne_nil)

/-- A length that counts is not zero. -/
theorem nonzero_eq_some {m : Nat} (h : nonzero m = some n) : m = n ∧ m ≠ 0 := by
  unfold nonzero at h
  split at h
  · cases h
  · cases h
    exact ⟨rfl, ‹_›⟩

/-- No blank goes on with a number. -/
theorem isDigit_of_isBlank (hb : isBlank b) : b.isDigit = false :=
  eq_false_of_isBlank hb rfl

/-- No blank starts an exponent. -/
theorem not_mark_of_isBlank (hb : isBlank b) : ¬ (b = 'e' ∨ b = 'E') := by
  have hmark := eq_false_of_isBlank (p := fun c => c = 'e' ∨ c = 'E') hb rfl
  simpa using hmark

/-- The length of an exponent: one for its mark, one for a sign if there is one, and the digits, of
which there are some. -/
theorem exponentLength_cons {e : Char} (he : e = 'e' ∨ e = 'E') {sign : Nat}
    (hsign : (if cs.head? = some '+' ∨ cs.head? = some '-' then 1 else 0) = sign)
    (hdigits : run Char.isDigit (cs.drop sign) ≠ 0) :
    exponentLength (e :: cs) = 1 + sign + run Char.isDigit (cs.drop sign) := by
  -- The sign is passed as a length, zero or one.
  rw [exponentLength, if_pos he]
  dsimp only
  rw [hsign, if_neg hdigits]

/-- All digits behind the mark and the sign of an exponent are cut off. There is at least one digit,
so the mark and the sign are part of an exponent. -/
theorem exponentLength_digits {e : Char} {sign : List Char} (he : e = 'e' ∨ e = 'E')
    (hsign : sign = [] ∨ sign = ['+'] ∨ sign = ['-']) (hds : RunOf Char.isDigit ds)
    (rest : List Char) : exponentLength (e :: (sign ++ (ds ++ rest))) =
      1 + sign.length + run Char.isDigit (ds ++ rest) := by
  obtain ⟨d, ds, rfl⟩ := List.exists_cons_of_ne_nil hds.ne_nil
  have hd : d.isDigit = true := hds.all d List.mem_cons_self
  have hne : run Char.isDigit (d :: ds ++ rest) ≠ 0 := by
    rw [List.cons_append, run, List.takeWhile_cons_of_pos hd, List.length_cons]
    omega
  rcases hsign with rfl | hsign
  · -- A digit is no sign.
    have hfirst : ¬ ((d :: ds ++ rest).head? = some '+' ∨ (d :: ds ++ rest).head? = some '-') := by
      simp only [List.cons_append, List.head?_cons, Option.some.injEq]
      rintro (rfl | rfl) <;> cases hd
    exact exponentLength_cons he (if_neg hfirst) hne
  · rcases hsign with rfl | rfl
    · exact exponentLength_cons he (if_pos (.inl rfl)) hne
    · exact exponentLength_cons he (if_pos (.inr rfl)) hne

/-- An exponent or none is cut off as a whole. -/
theorem exponentLength_append {exponent : List Char} (h : exponent = [] ∨ Exponent exponent)
    (hb : isBlank b) : exponentLength (exponent ++ b :: rest) = exponent.length := by
  rcases h with rfl | @⟨e, sign, ds, he, hsign, hds⟩
  · rw [List.nil_append, exponentLength, if_neg (not_mark_of_isBlank hb), List.length_nil]
  · have hlength := exponentLength_digits he hsign hds (b :: rest)
    rw [hds.run_append (isDigit_of_isBlank hb)] at hlength
    rw [List.cons_append, List.append_assoc, hlength, List.length_cons, List.length_append]
    omega

/-- What is cut off as an exponent is one. Where no digit follows, the mark is no part of the
number, and nothing is cut off. -/
theorem exponentLength_take (cs : List Char) :
    exponentLength cs = 0 ∨ Exponent (cs.take (exponentLength cs)) := by
  cases cs with
  | nil => exact .inl rfl
  | cons e cs =>
    rw [exponentLength]
    by_cases he : e = 'e' ∨ e = 'E'
    · rw [if_pos he]
      dsimp only
      generalize hsign : (if cs.head? = some '+' ∨ cs.head? = some '-' then 1 else 0) = sign
      by_cases hdigits : run Char.isDigit (cs.drop sign) = 0
      · exact .inl (if_pos hdigits)
      · right
        rw [if_neg hdigits, Nat.add_assoc, Nat.add_comm, List.take_succ_cons, List.take_add,
          take_run]
        refine .mk he ?_ (runOf_takeWhile hdigits)
        split at hsign
        · rename_i hhead
          subst hsign
          cases cs with
          | nil => simp at hhead
          | cons c cs => simpa using hhead
        · subst hsign
          exact .inl rfl
    · exact .inl (if_neg he)

/-- A float is cut off as a whole. A blank is no digit, no point and no mark, so neither the
fraction nor the exponent goes on behind it. -/
theorem FloatText.length?_append (h : FloatText cs) (hb : isBlank b) (rest : List Char) :
    floatLength? (cs ++ b :: rest) = some cs.length := by
  cases h with
  | @point whole fraction exponent hwhole hfraction hne hexponent =>
    have hscale : exponentLength (exponent ++ b :: rest) = exponent.length :=
      exponentLength_append hexponent hb
    -- The fraction ends where the exponent or the blank starts.
    have hhead : ∀ d ∈ (exponent ++ b :: rest).head?, d.isDigit = false := by
      rcases hexponent with rfl | ⟨rfl | rfl, -, -⟩
      · simpa using isDigit_of_isBlank hb
      · simp
      · simp
    have hrun : run Char.isDigit (fraction ++ (exponent ++ b :: rest)) = fraction.length :=
      run_append hfraction hhead
    have hrun' : run Char.isDigit (whole ++ '.' :: (fraction ++ (exponent ++ b :: rest))) =
        whole.length := run_append hwhole (by simp)
    have hne' : ¬ (whole.length = 0 ∧ fraction.length = 0) := by
      rw [List.length_eq_zero_iff, List.length_eq_zero_iff]
      exact not_and_or.mpr hne
    rw [List.append_assoc, List.cons_append, List.append_assoc, floatLength?]
    simp only [hrun', List.drop_left, hrun, if_neg hne', hscale, List.length_append,
      List.length_cons, Option.some.injEq]
    omega
  | @scaled whole exponent hwhole hexponent =>
    have hscale : exponentLength (exponent ++ b :: rest) = exponent.length :=
      exponentLength_append (.inr hexponent) hb
    have hrun : run Char.isDigit (whole ++ (exponent ++ b :: rest)) = whole.length := by
      refine run_append hwhole.all ?_
      obtain ⟨rfl | rfl, -, -⟩ := hexponent <;> simp
    have hne : ¬ (whole.length = 0 ∨ exponent.length = 0) := by
      rw [List.length_eq_zero_iff, List.length_eq_zero_iff, not_or]
      refine ⟨hwhole.ne_nil, ?_⟩
      cases hexponent
      exact List.cons_ne_nil _ _
    rw [List.append_assoc, floatLength?]
    simp only [hrun, List.drop_left]
    split
    · rename_i hpoint
      -- The mark of an exponent is no point.
      obtain ⟨rfl | rfl, -, -⟩ := hexponent <;> cases hpoint
    · rw [hscale, if_neg hne, List.length_append]

/-- What is cut off as a float is one. One case for each of the two forms: digits with a point and
maybe an exponent, and digits with an exponent. -/
theorem floatText_of_length? (h : floatLength? cs = some n) : FloatText (cs.take n) := by
  rw [floatLength?] at h
  dsimp only at h
  have hwhole : ∀ c ∈ cs.takeWhile Char.isDigit, c.isDigit := fun c hc => List.mem_takeWhile_imp hc
  split at h
  · rename_i rest hrest
    split at h
    · cases h
    · rename_i hne
      obtain rfl := Option.some.inj h
      rw [Nat.add_assoc, Nat.add_assoc, List.take_add, hrest, Nat.add_comm 1, List.take_succ_cons,
        List.take_add, take_run, take_run]
      refine .point hwhole (fun c hc => List.mem_takeWhile_imp hc) ?_ ?_
      · rw [run, run, List.length_eq_zero_iff, List.length_eq_zero_iff] at hne
        exact not_and_or.mp hne
      · rcases exponentLength_take (rest.drop (run Char.isDigit rest)) with hzero | hscale
        · rw [hzero]
          exact .inl rfl
        · exact .inr hscale
  · split at h
    · cases h
    · rename_i hne
      obtain rfl := Option.some.inj h
      rw [not_or] at hne
      rw [List.take_add, take_run]
      exact .scaled (runOf_takeWhile hne.1) ((exponentLength_take _).resolve_left hne.2)

/-- Behind the first of some digits stands a digit or what follows them. -/
theorem RunOf.second {p : Char → Bool} (h : RunOf p cs) {c d : Char}
    (hcs : cs ++ b :: rest = c :: d :: ds) : p d ∨ d = b := by
  obtain ⟨c', cs, rfl⟩ := List.exists_cons_of_ne_nil h.ne_nil
  obtain ⟨-, htail⟩ := List.cons.inj hcs
  cases cs with
  | nil => exact .inr (List.cons.inj htail).1.symm
  | cons d' cs =>
    obtain ⟨rfl, -⟩ := List.cons.inj htail
    exact .inl (h.all _ (by simp))

/-- Decimal digits have no radix mark. The second character would have to be a letter. -/
theorem RunOf.markedLength? (h : RunOf Char.isDigit cs) (hb : isBlank b) :
    markedLength? (cs ++ b :: rest) = none := by
  have hmark : ∀ d ∈ ['x', 'b', 'o'], ∀ ds, cs ++ b :: rest ≠ '0' :: d :: ds := by
    intro d hd ds hcs
    simp only [List.mem_cons, List.not_mem_nil, or_false] at hd
    rcases h.second hcs with hdigit | rfl
    · rcases hd with rfl | rfl | rfl <;> cases hdigit
    · rcases hd with rfl | rfl | rfl <;> cases hb
  unfold Pulse.markedLength?
  split
  · exact absurd ‹_› (hmark 'x' (by simp) _)
  · exact absurd ‹_› (hmark 'b' (by simp) _)
  · exact absurd ‹_› (hmark 'o' (by simp) _)
  · rfl

/-- An integer is cut off as a whole. The blank behind it is a digit in no radix. -/
theorem IntegerText.length?_append (h : IntegerText cs) (hb : isBlank b) (rest : List Char) :
    integerLength? (cs ++ b :: rest) = some cs.length := by
  cases h with
  | decimal h =>
    rw [integerLength?, h.markedLength? hb]
    exact h.nonzero_run (isDigit_of_isBlank hb)
  | hexadecimal h =>
    rw [integerLength?, List.cons_append, List.cons_append, markedLength?,
      h.nonzero_run (eq_false_of_isBlank hb rfl)]
    rfl
  | binary h =>
    rw [integerLength?, List.cons_append, List.cons_append, markedLength?,
      h.nonzero_run (eq_false_of_isBlank hb rfl)]
    rfl
  | octal h =>
    rw [integerLength?, List.cons_append, List.cons_append, markedLength?,
      h.nonzero_run (eq_false_of_isBlank hb rfl)]
    rfl

/-- What is cut off as digits is a run of them. -/
theorem runOf_of_nonzero {p : Char → Bool} (h : nonzero (run p cs) = some n) :
    RunOf p (cs.take n) := by
  obtain ⟨rfl, hne⟩ := nonzero_eq_some h
  rw [take_run]
  exact runOf_takeWhile hne

/-- What is cut off as an integer is one. A mark without digits behind it is not cut off as such,
and then the zero in front of it is a decimal integer. -/
theorem integerText_of_length? (h : integerLength? cs = some n) : IntegerText (cs.take n) := by
  rw [integerLength?] at h
  cases hmarked : markedLength? cs with
  | none =>
    rw [hmarked] at h
    exact .decimal (runOf_of_nonzero h)
  | some m =>
    rw [hmarked] at h
    obtain rfl : m = n := Option.some.inj h
    unfold markedLength? at hmarked
    split at hmarked
    · obtain ⟨k, hk, rfl⟩ := Option.map_eq_some_iff.mp hmarked
      exact .hexadecimal (runOf_of_nonzero hk)
    · obtain ⟨k, hk, rfl⟩ := Option.map_eq_some_iff.mp hmarked
      exact .binary (runOf_of_nonzero hk)
    · obtain ⟨k, hk, rfl⟩ := Option.map_eq_some_iff.mp hmarked
      exact .octal (runOf_of_nonzero hk)
    · cases hmarked

/-- Digits are no float if neither a point nor an exponent is behind them. This is where the two
kinds of numbers part. -/
theorem floatLength?_digits (cs : List Char) (hcs : ∀ c ∈ cs, c.isDigit) (hb : b.isDigit = false)
    (hpoint : b ≠ '.') (hmark : ¬ (b = 'e' ∨ b = 'E')) (rest : List Char) :
    floatLength? (cs ++ b :: rest) = none := by
  have hrun : run Char.isDigit (cs ++ b :: rest) = cs.length := by
    refine run_append hcs ?_
    simpa using hb
  have hscale : exponentLength (b :: rest) = 0 := by
    rw [exponentLength, if_neg hmark]
  rw [floatLength?]
  simp only [hrun, List.drop_left]
  split
  · rename_i hcons
    exact absurd (List.cons.inj hcons).1 hpoint
  · rw [if_pos (.inr hscale)]

/-- An integer in front of a blank is no float. Behind the zero of a radix mark stands a letter,
which is neither a point nor the mark of an exponent. -/
theorem IntegerText.floatLength? (h : IntegerText cs) (hb : isBlank b) (rest : List Char) :
    floatLength? (cs ++ b :: rest) = none := by
  cases h with
  | decimal h =>
    have hpoint : b ≠ '.' := by
      rintro rfl
      cases hb
    exact floatLength?_digits cs h.all (isDigit_of_isBlank hb) hpoint (not_mark_of_isBlank hb) rest
  | hexadecimal | binary | octal =>
    exact floatLength?_digits ['0'] (List.forall_mem_singleton.mpr rfl) rfl (by decide)
      (by decide) _

end Numbers

/-! ## Characters, comments and words -/

section Others

variable {cs rest : List Char} {b c : Char} {n : Nat}

/-- A character literal is cut off as a whole, whatever is behind it. It has a quote at its end, so
it needs no blank behind it. The plain form is the last one tried; the conditions on its character
keep it from looking like an escape. -/
theorem CharLiteral.length?_append (h : CharLiteral cs c) (rest : List Char) :
    charLiteral? (cs ++ rest) = some (cs.length, c) := by
  cases h with
  | newline | quote | backslash => rfl
  | code hhigh hlow =>
    simp only [List.cons_append, charLiteral?, hhigh, hlow]
    rfl
  | plain hquote hbackslash hnewline =>
    have hplain : ¬ (c = '\'' ∨ c = '\\' ∨ c = '\n') := by simp [hquote, hbackslash, hnewline]
    simp only [List.cons_append, List.nil_append]
    unfold charLiteral?
    split
    · simp_all
    · simp_all
    · simp_all
    · simp_all
    · rename_i heq
      cases heq
      rw [if_neg hplain]
      rfl
    · simp_all

/-- A character literal is read from its piece alone: it makes a token, or an error if its character
is wider than a byte (`RegexHandler`). -/
theorem CharLiteral.read_eq (h : CharLiteral cs c) (p : Position) :
    Pattern.charLiteral.read p cs =
      if c.toNat ≤ 0xFF then .ok (some ⟨.char, String.singleton c, p.spanOver cs⟩)
      else .error ⟨.wideCharacter (String.ofList cs), p.stored⟩ := by
  have hvalue := h.length?_append []
  rw [List.append_nil] at hvalue
  simp only [Pattern.read, hvalue]

/-- What is cut off as a character literal is one. And its character is the one that the literal
stands for. -/
theorem charLiteral_of_length? (h : charLiteral? cs = some (n, c)) : CharLiteral (cs.take n) c := by
  unfold charLiteral? at h
  split at h
  · cases h
    exact .newline
  · cases h
    exact .quote
  · cases h
    exact .backslash
  · split at h
    · cases h
      exact .code ‹_› ‹_›
    · cases h
  · split at h
    · cases h
    · rename_i hplain
      cases h
      rw [not_or, not_or] at hplain
      exact .plain hplain.1 hplain.2.1 hplain.2.2
  · cases h

/-- A comment ends with the first bracket that closes one. By induction on the text in front of it,
which has no such bracket in it. -/
theorem untilClose?_append (h : ¬ ['*', '/'] <:+: cs) (rest : List Char) :
    untilClose? (cs ++ '*' :: '/' :: rest) = some (cs.length + 2) := by
  induction cs with
  | nil => rfl
  | cons c cs ih =>
    rw [List.infix_cons_iff, not_or] at h
    rw [List.cons_append, List.length_cons]
    unfold untilClose?
    split
    · rename_i heq
      cases heq
    · rename_i tail heq
      obtain ⟨rfl, htail⟩ := List.cons.inj heq
      cases cs with
      | nil => cases htail
      | cons d cs =>
        obtain ⟨rfl, -⟩ := List.cons.inj htail
        exact absurd ⟨cs, rfl⟩ h.1
    · rename_i heq
      obtain ⟨-, rfl⟩ := List.cons.inj heq
      rw [ih h.2]
      rfl

/-- What is cut off as the rest of a comment holds no bracket but the last. The search goes on
character by character, and it has stopped at the first one. -/
theorem exists_of_untilClose? (h : untilClose? cs = some n) :
    ∃ body, cs.take n = body ++ ['*', '/'] ∧ ¬ ['*', '/'] <:+: body := by
  fun_induction untilClose? cs generalizing n with
  | case1 => cases h
  | case2 tail =>
    cases h
    exact ⟨[], rfl, by simp⟩
  | case3 c cs hfirst ih =>
    obtain ⟨m, hm, rfl⟩ := Option.map_eq_some_iff.mp h
    obtain ⟨body, hbody, hinfix⟩ := ih hm
    refine ⟨c :: body, by rw [List.take_succ_cons, hbody, List.cons_append], ?_⟩
    rw [List.infix_cons_iff, not_or]
    refine ⟨?_, hinfix⟩
    rintro ⟨tail, htail⟩
    -- The body would start with the second half of a bracket, and the text with a whole one.
    obtain ⟨rfl, rfl⟩ := List.cons.inj htail
    have hcs := List.take_append_drop m cs
    rw [hbody] at hcs
    exact hfirst _ rfl hcs.symm

/-- A word is cut off as a whole. -/
theorem WordText.length?_append (h : WordText cs) (hb : isBlank b) (rest : List Char) :
    Pattern.word.length? (cs ++ b :: rest) = some cs.length := by
  obtain ⟨hc, hcs⟩ := h
  have hrun : run isWordPart (_ ++ b :: rest) = _ := run_append hcs
    (by simpa using eq_false_of_isBlank hb rfl)
  rw [List.cons_append, Pattern.length?, if_pos hc, hrun, List.length_cons, Nat.add_comm]

/-- What is cut off as a word is one. -/
theorem wordText_of_length? (h : Pattern.word.length? cs = some n) : WordText (cs.take n) := by
  cases cs with
  | nil => cases h
  | cons c cs =>
    rw [Pattern.length?] at h
    split at h
    · rename_i hc
      obtain rfl := Option.some.inj h
      rw [Nat.add_comm, List.take_succ_cons, take_run]
      exact .mk hc fun d hd => List.mem_takeWhile_imp hd
    · cases h

end Others

/-! ## The table -/

namespace Pattern

/-- What the texts of a pattern start with. -/
def opens : Pattern → Char → Bool
  | blanks, c => isBlank c
  | lineComment, c | blockComment, c | openComment, c => c = '/'
  | word, c => isWordStart c
  | float, c => c.isDigit || c = '.'
  | integer, c => c.isDigit
  | charLiteral, c => c = '\''
  | fixed _ s, c => s.toList.head? = some c

section First

variable {pattern : Pattern} {c : Char} {cs : List Char} {n : Nat}

/-- A run does not start with what is not of its class. -/
theorem run_cons_of_not {p : Char → Bool} (h : p c = false) : run p (c :: cs) = 0 := by
  simp [run, h]

/-- A pattern takes nothing from a text that does not start right. One case for each pattern. This
is what rules out most of the table when the first character of a text is known. -/
theorem length?_of_not_opens (h : pattern.opens c = false) : pattern.length? (c :: cs) = none := by
  cases pattern with
  | blanks =>
    have hblank : isBlank c = false := h
    rw [length?, run_cons_of_not hblank]
    rfl
  | lineComment | blockComment | openComment =>
    unfold length?
    split <;> simp_all [opens]
  | word =>
    have hstart : isWordStart c = false := h
    rw [length?, hstart]
    rfl
  | float =>
    -- Without digits in front, a float has to start with its point.
    obtain ⟨hdigit, hpoint⟩ : c.isDigit = false ∧ c ≠ '.' := by simpa [opens] using h
    rw [length?, floatLength?, run_cons_of_not hdigit]
    dsimp only [List.drop_zero]
    split
    · rename_i hcons
      exact absurd (List.cons.inj hcons).1 hpoint
    · rfl
  | integer =>
    have hdigit : c.isDigit = false := h
    have hzero : ∀ ds, c :: cs ≠ '0' :: ds := by
      rintro ds hcons
      cases hcons
      cases hdigit
    -- A mark comes behind a zero, which is a digit.
    have hmarked : markedLength? (c :: cs) = none := by
      unfold markedLength?
      split
      · exact absurd ‹_› (hzero _)
      · exact absurd ‹_› (hzero _)
      · exact absurd ‹_› (hzero _)
      · rfl
    rw [length?, integerLength?, hmarked, run_cons_of_not hdigit]
    rfl
  | charLiteral =>
    have hquote : ∀ ds, c :: cs ≠ '\'' :: ds := by
      rintro ds hcons
      cases hcons
      cases h
    have hnone : charLiteral? (c :: cs) = none := by
      unfold charLiteral?
      split
      · exact absurd ‹_› (hquote _)
      · exact absurd ‹_› (hquote _)
      · exact absurd ‹_› (hquote _)
      · exact absurd ‹_› (hquote _)
      · exact absurd ‹_› (hquote _)
      · rfl
    rw [length?, hnone]
    rfl
  | fixed k s =>
    have hhead : s.toList.head? ≠ some c := of_decide_eq_false h
    rw [length?]
    cases htext : s.toList with
    | nil => rfl
    | cons d ds =>
      have hne : d ≠ c := by
        rw [htext] at hhead
        simpa using hhead
      rw [List.isPrefixOf_cons_cons, beq_false_of_ne hne]
      rfl

/-- A pattern takes nothing from an empty text. -/
theorem length?_nil (pattern : Pattern) : pattern.length? [] = none := by
  cases pattern with
  | fixed k s =>
    rw [length?]
    cases s.toList <;> rfl
  | _ => rfl

/-- A pattern that takes something takes it from a text that starts right. So most patterns can be
left out of account by the first character. -/
theorem exists_opens (h : pattern.length? cs = some n) :
    ∃ c ds, cs = c :: ds ∧ pattern.opens c := by
  cases cs with
  | nil =>
    rw [length?_nil] at h
    cases h
  | cons c cs =>
    refine ⟨c, cs, rfl, ?_⟩
    rw [← Bool.not_eq_false]
    intro hopens
    rw [length?_of_not_opens hopens] at h
    cases h

/-- What is cut off as a line comment is one. -/
theorem exists_lineComment (h : lineComment.length? cs = some n) :
    ∃ body, cs.take n = '/' :: '/' :: body ∧ '\n' ∉ body := by
  obtain ⟨c, cs, rfl, hc⟩ := exists_opens h
  obtain rfl : c = '/' := of_decide_eq_true hc
  obtain ⟨ds, rfl⟩ : ∃ ds, cs = '/' :: ds := by
    cases cs with
    | nil => cases h
    | cons d ds =>
      by_cases hd : d = '/'
      · exact ⟨ds, by rw [hd]⟩
      · simp [length?, hd] at h
  cases h
  refine ⟨ds.takeWhile (· ≠ '\n'), ?_, ?_⟩
  · rw [Nat.add_comm, List.take_succ_cons, List.take_succ_cons, take_run]
  · exact notMem_of_all (fun c hc => List.mem_takeWhile_imp hc) (by simp)

/-- What is cut off as a block comment is one. -/
theorem exists_blockComment (h : blockComment.length? cs = some n) :
    ∃ body, cs.take n = '/' :: '*' :: (body ++ ['*', '/']) ∧ ¬ ['*', '/'] <:+: body := by
  obtain ⟨c, cs, rfl, hc⟩ := exists_opens h
  obtain rfl : c = '/' := of_decide_eq_true hc
  obtain ⟨ds, rfl⟩ : ∃ ds, cs = '*' :: ds := by
    cases cs with
    | nil => cases h
    | cons d ds =>
      by_cases hd : d = '*'
      · exact ⟨ds, by rw [hd]⟩
      · simp [length?, hd] at h
  obtain ⟨m, hm, rfl⟩ := Option.map_eq_some_iff.mp h
  obtain ⟨body, hbody, hinfix⟩ := exists_of_untilClose? hm
  exact ⟨body, by rw [List.take_succ_cons, List.take_succ_cons, hbody], hinfix⟩

/-- What is cut off as a fixed pattern is its spelling. -/
theorem take_of_fixed {k : Kind} {s : String} (h : (fixed k s).length? cs = some n) :
    cs.take n = s.toList := by
  rw [length?] at h
  split at h
  · rename_i hprefix
    obtain ⟨rfl, -⟩ := nonzero_eq_some h
    exact (List.prefix_iff_eq_take.mp (List.isPrefixOf_iff_prefix.mp hprefix)).symm
  · cases h

/-- The first pattern of the table that takes something. Those in front of it do not start with the
first character, or take nothing for another reason. -/
theorem first?_eq (before : List Pattern) {after : List Pattern}
    (htable : table = before ++ pattern :: after)
    (hbefore : ∀ q ∈ before, q.opens c = false ∨ q.length? (c :: cs) = none)
    (h : pattern.length? (c :: cs) = some n) : first? (c :: cs) = some (pattern, n) := by
  have hnone : before.findSome? (fun q => (q.length? (c :: cs)).map fun n => (q, n)) = none := by
    rw [List.findSome?_eq_none_iff]
    intro q hq
    rw [Option.map_eq_none_iff]
    exact (hbefore q hq).elim length?_of_not_opens id
  rw [first?, htable, List.findSome?_append, hnone, Option.none_or, List.findSome?_cons, h]
  rfl

end First

end Pattern

/-! ## Spellings -/

section Spellings

open Pattern

variable {k : Kind} {s v : String} {cs rest : List Char} {b : Char}

/-- The kinds whose one spelling is a word. -/
def Kind.isWord : Kind → Bool
  | kwConst | kwElse | kwFunction | kwIf | kwPrint | kwReturn | kwWhile | kwVar => true
  | _ => false

/-- The spelling of a keyword or a type is a word, and the word is of this kind. -/
theorem wordText_of_spelling? (hk : k.isWord) (h : k.spelling? = some s) :
    WordText s.toList ∧ wordKind s = k := by
  cases k <;> cases hk <;> cases h <;> exact ⟨.mk rfl (List.all_eq_true.mp rfl), by decide⟩

/-- A word that is not reserved is a name. -/
theorem wordKind_of_notMem (h : s ∉ reservedNames) : wordKind s = .identifier := by
  have hnone : reservedWords.lookup s = none := by
    rw [List.lookup_eq_none_iff]
    intro q hq
    rw [bne_iff_ne]
    rintro rfl
    exact h (List.mem_map_of_mem (f := Prod.fst) hq)
  rw [wordKind, hnone]
  rfl

/-- Every word is a spelling of its kind. A word of the language spells itself, the two truth values
spell literals, and every other word is a name. -/
theorem spells_wordKind (h : WordText cs) :
    Spells (wordKind (String.ofList cs)) cs (String.ofList cs) := by
  have hreserved : ∀ q ∈ reservedWords, wordKind q.1 = q.2 ∧ (q.2.spelling? = some q.1 ∨
      q.2 = .bool ∧ (q.1 = "true" ∨ q.1 = "false")) := by decide
  by_cases hmem : String.ofList cs ∈ reservedNames
  · obtain ⟨⟨s, k⟩, hq, hs⟩ : ∃ q ∈ reservedWords, q.1 = String.ofList cs := List.mem_map.mp hmem
    obtain ⟨hkind, hspelling⟩ := hreserved _ hq
    obtain rfl : s = String.ofList cs := hs
    have hspells : Spells k (String.ofList cs).toList (String.ofList cs) := by
      rcases hspelling with hspelling | ⟨hbool, htruth⟩
      · exact .fixed hspelling
      · obtain rfl : k = .bool := hbool
        exact .truth htruth
    rw [String.toList_ofList] at hspells
    rw [show wordKind (String.ofList cs) = k from hkind]
    exact hspells
  · rw [wordKind_of_notMem hmem]
    exact .name h hmem

/-- A fixed pattern of the table is the spelling of its kind. -/
theorem spelling?_of_mem (h : Pattern.fixed k s ∈ table) : k.spelling? = some s := by
  have hall : table.all (fun
      | .fixed k s => decide (k.spelling? = some s)
      | _ => true) = true := by decide
  exact of_decide_eq_true (List.all_eq_true.mp hall _ h)

/-- An operator or a delimiter in front of a blank is cut off as a whole: longer ones that start in
the same way do not go on with a blank. -/
theorem first?_operator (hk : k.isWord = false) (h : k.spelling? = some s) (hb : isBlank b) :
    first? (s.toList ++ b :: rest) = some (.fixed k s, s.toList.length) := by
  have hb' : b = ' ' ∨ b = '\t' ∨ b = '\r' ∨ b = '\n' := by simpa using mem_of_isBlank hb
  -- Finitely many spellings and four blanks: the table is run on each.
  cases k <;> cases hk <;> cases h <;> rcases hb' with rfl | rfl | rfl | rfl <;> rfl

/-- No pattern in front of words takes a word. -/
theorem not_opens_of_isWordStart {c : Char} (hc : isWordStart c) :
    ∀ q ∈ [blanks, lineComment, blockComment, openComment], q.opens c = false := by
  have hblank : isBlank c = false := isBlank_eq_false hc rfl
  have hslash : c ≠ '/' := by
    rintro rfl
    cases hc
  simp [opens, hblank, hslash]

/-- No pattern in front of numbers takes one. -/
theorem not_opens_of_isDigit {c : Char} (hc : c.isDigit ∨ c = '.') :
    ∀ q ∈ [blanks, lineComment, blockComment, openComment, word], q.opens c = false := by
  rcases hc with hc | rfl
  · have hblank : isBlank c = false := isBlank_eq_false hc rfl
    have hslash : c ≠ '/' := by
      rintro rfl
      cases hc
    simp [opens, hblank, hslash, isWordStart_of_isDigit hc]
  · decide

/-- A word is what the table cuts off where one stands in front of a blank. -/
theorem first?_word (h : WordText cs) (hb : isBlank b) :
    first? (cs ++ b :: rest) = some (.word, cs.length) := by
  have hlength := h.length?_append hb rest
  obtain ⟨hc, -⟩ := h
  exact first?_eq [.blanks, .lineComment, .blockComment, .openComment] rfl
    (fun q hq => .inl (not_opens_of_isWordStart hc q hq)) hlength

/-- A float starts with a digit or with its point. -/
theorem FloatText.head (h : FloatText cs) : ∃ c ds, cs = c :: ds ∧ (c.isDigit ∨ c = '.') := by
  cases h with
  | @point whole fraction exponent hwhole =>
    cases whole with
    | nil => exact ⟨_, _, rfl, .inr rfl⟩
    | cons c whole => exact ⟨c, _, rfl, .inl (hwhole c List.mem_cons_self)⟩
  | scaled hwhole =>
    obtain ⟨c, whole, rfl⟩ := List.exists_cons_of_ne_nil hwhole.ne_nil
    exact ⟨c, _, rfl, .inl (hwhole.all c List.mem_cons_self)⟩

/-- A float is what the table cuts off where one stands in front of a blank. Floats are tried before
integers, which would take the digits in front of the point. -/
theorem first?_float (h : FloatText cs) (hb : isBlank b) :
    first? (cs ++ b :: rest) = some (.float, cs.length) := by
  have hlength : Pattern.float.length? (cs ++ b :: rest) = some cs.length :=
    h.length?_append hb rest
  obtain ⟨c, ds, rfl, hc⟩ := h.head
  exact first?_eq [.blanks, .lineComment, .blockComment, .openComment, .word] rfl
    (fun q hq => .inl (not_opens_of_isDigit hc q hq)) hlength

/-- An integer starts with a digit, with a radix mark or without. -/
theorem IntegerText.head (h : IntegerText cs) : ∃ c ds, cs = c :: ds ∧ c.isDigit := by
  cases h with
  | decimal h =>
    obtain ⟨c, ds, rfl⟩ := List.exists_cons_of_ne_nil h.ne_nil
    exact ⟨c, ds, rfl, h.all c List.mem_cons_self⟩
  | hexadecimal | binary | octal => exact ⟨_, _, rfl, rfl⟩

/-- An integer is what the table cuts off where one stands in front of a blank. -/
theorem first?_integer (h : IntegerText cs) (hb : isBlank b) :
    first? (cs ++ b :: rest) = some (.integer, cs.length) := by
  have hlength : Pattern.integer.length? (cs ++ b :: rest) = some cs.length :=
    h.length?_append hb rest
  have hfloat : Pattern.float.length? (cs ++ b :: rest) = none := h.floatLength? hb rest
  obtain ⟨c, ds, rfl, hc⟩ := h.head
  -- The patterns before numbers do not start with a digit. The pattern of floats does, but needs
  -- more than digits.
  refine first?_eq ([.blanks, .lineComment, .blockComment, .openComment, .word] ++ [.float]) rfl
    (List.forall_mem_append.mpr ⟨?_, List.forall_mem_singleton.mpr (.inr hfloat)⟩) hlength
  exact fun q hq => .inl (not_opens_of_isDigit (.inl hc) q hq)

/-- A character literal is what the table cuts off where one stands, whatever is behind it. -/
theorem first?_charLiteral {c : Char} (h : CharLiteral cs c) :
    first? (cs ++ rest) = some (.charLiteral, cs.length) := by
  have hlength : Pattern.charLiteral.length? (cs ++ rest) = some cs.length := by
    rw [length?, h.length?_append]
    rfl
  have hopens : ∀ q ∈ [blanks, lineComment, blockComment, openComment, word, float, integer],
      q.opens '\'' = false := by decide
  obtain ⟨ds, rfl⟩ : ∃ ds, cs = '\'' :: ds := by cases h <;> exact ⟨_, rfl⟩
  exact first?_eq [.blanks, .lineComment, .blockComment, .openComment, .word, .float, .integer] rfl
    (fun q hq => .inl (hopens q hq)) hlength

/-- **A spelling in front of a blank is cut off as a whole, and makes its token.** One case for each
form of a token, with the pattern that the table has for it. -/
theorem Spells.cut (h : Spells k cs v) (hb : isBlank b) (rest : List Char) :
    ∃ pattern, first? (cs ++ b :: rest) = some (pattern, cs.length) ∧
      ∀ p, pattern.read p cs = .ok (some ⟨k, v, p.spanOver cs⟩) := by
  cases h with
  | @fixed _ s h =>
    cases hk : k.isWord with
    | true =>
      obtain ⟨hword, hkind⟩ := wordText_of_spelling? hk h
      refine ⟨.word, first?_word hword hb, fun p => ?_⟩
      simp only [Pattern.read, String.ofList_toList, hkind]
    | false => exact ⟨.fixed k v, first?_operator hk h hb, fun p => rfl⟩
  | truth h =>
    have hword : WordText v.toList ∧ wordKind v = .bool := by
      rcases h with rfl | rfl <;> exact ⟨.mk rfl (List.all_eq_true.mp rfl), by decide⟩
    refine ⟨.word, first?_word hword.1 hb, fun p => ?_⟩
    simp only [Pattern.read, String.ofList_toList, hword.2]
  | name h hfree =>
    refine ⟨.word, first?_word h hb, fun p => ?_⟩
    simp only [Pattern.read, wordKind_of_notMem hfree]
  | integer h => exact ⟨.integer, first?_integer h hb, fun p => rfl⟩
  | float h => exact ⟨.float, first?_float h hb, fun p => rfl⟩
  | char h hc =>
    refine ⟨.charLiteral, first?_charLiteral h, fun p => ?_⟩
    rw [h.read_eq, if_pos hc]

end Spellings

end Pulse

/-
Texts of numbers.

A number can be told from its text. What the text says, read as a decimal fraction with an exponent,
is the value of the shortest decimal, which no other number has; the sign, the zeros and the
infinities are plain to see. Only what is no number has a text in common with others of its kind.
-/
import Pulse.Number.Layout
import Pulse.Proofs.LiteralTokens
import Pulse.Proofs.ShortestDecimals
import Pulse.Proofs.WordReading

set_option autoImplicit false

namespace Pulse.Number

/-! ## Decimal fractions -/

/-- The value of a decimal fraction with an exponent. -/
def fractionValue? (cs : List Char) : Option ℚ :=
  let (whole, rest) := spanDigits cs
  let (fraction, rest) :=
    match rest with
    | '.' :: rest => spanDigits rest
    | rest => ([], rest)
  (exponentPart? rest).map fun e : ℤ =>
    Nat.ofDigitChars 10 (whole ++ fraction) 0 * (10 : ℚ) ^ (e - fraction.length)

section Fractions

variable {whole fraction exponent ds : List Char} {e k : ℤ}

/-- The digits of a number are digits. -/
theorem isDigit_toDigits (n : ℕ) : ∀ c ∈ Nat.toDigits 10 n, c.isDigit = true :=
  fun _ hc => Nat.isDigit_of_mem_toDigits (by decide) (by decide) hc

/-- An exponent is read back from its text. The library writes a sign only in front of a negative
number. -/
theorem exponentPart?_toString (e : ℤ) : exponentPart? ('e' :: (toString e).toList) = some e := by
  have hnatural : ∀ n : ℕ, natural? 10 (Nat.toDigits 10 n) = some n := by
    intro n
    rw [natural?, if_neg (by simp), extend?_ten (isDigit_toDigits n), Nat.ofDigitChars_ten_toDigits]
  rw [exponentPart?, if_pos (.inl rfl), Int.toString_eq_repr, Int.repr_eq_if]
  split
  · rename_i h
    rw [Nat.toList_repr, signed?, hnatural, Option.map_some]
    · exact congrArg some (Int.toNat_of_nonneg h)
    · intro cs hcs
      exact absurd (isDigit_toDigits e.toNat '-' (by rw [hcs]; simp)) (by decide)
    · intro cs hcs
      exact absurd (isDigit_toDigits e.toNat '+' (by rw [hcs]; simp)) (by decide)
  · rename_i h
    rw [String.toList_append, Nat.toList_repr, show "-".toList = ['-'] from rfl,
      List.singleton_append, signed?, hnatural]
    show some (-((-e).toNat : ℤ)) = some e
    congr 1
    omega

/-- Digits, more of them behind a point, and an exponent. The point divides by ten for each digit
behind it. -/
theorem fractionValue?_point (hwhole : ∀ c ∈ whole, c.isDigit = true)
    (hfraction : ∀ c ∈ fraction, c.isDigit = true)
    (hexponent : ∀ c ∈ exponent.head?, c.isDigit = false) (he : exponentPart? exponent = some e) :
    fractionValue? (whole ++ '.' :: (fraction ++ exponent)) =
      some (Nat.ofDigitChars 10 (whole ++ fraction) 0 * (10 : ℚ) ^ (e - fraction.length)) := by
  rw [fractionValue?, spanDigits_append hwhole fun c hc => by cases hc; rfl]
  simp only [spanDigits_append hfraction hexponent, he, Option.map_some]

/-- Digits and an exponent, without a point. -/
theorem fractionValue?_whole (hwhole : ∀ c ∈ whole, c.isDigit = true)
    (he : exponentPart? ('e' :: exponent) = some e) :
    fractionValue? (whole ++ 'e' :: exponent) =
      some (Nat.ofDigitChars 10 whole 0 * (10 : ℚ) ^ e) := by
  rw [fractionValue?, spanDigits_append hwhole fun c hc => by cases hc; rfl]
  change (exponentPart? ('e' :: exponent)).map (fun e : ℤ =>
    Nat.ofDigitChars 10 (whole ++ []) 0 * (10 : ℚ) ^ (e - ([] : List Char).length)) = _
  rw [he, Option.map_some, List.append_nil, List.length_nil, Nat.cast_zero, sub_zero]

/-- Zeros behind digits. -/
theorem ofDigitChars_append_zeros (ds : List Char) (n : ℕ) :
    Nat.ofDigitChars 10 (ds ++ List.replicate n '0') 0 = Nat.ofDigitChars 10 ds 0 * 10 ^ n := by
  rw [Nat.ofDigitChars_append, Nat.ofDigitChars_replicate_zero, Nat.mul_comm]

/-- Zeros in front of digits. -/
theorem ofDigitChars_zeros_append (ds : List Char) (n : ℕ) :
    Nat.ofDigitChars 10 (List.replicate n '0' ++ ds) 0 = Nat.ofDigitChars 10 ds 0 := by
  rw [Nat.ofDigitChars_append, Nat.ofDigitChars_replicate_zero, Nat.mul_zero]

/-- Zeros are digits. -/
theorem isDigit_zeros (n : ℕ) : ∀ c ∈ List.replicate n '0', c.isDigit = true := by
  intro c hc
  rw [List.eq_of_mem_replicate hc]
  rfl

/-- The point stands so many places behind the front of the digits. One case for each side that
zeros are filled in on: in front of the digits, behind them, or nowhere. -/
theorem fractionValue?_positional (hds : ∀ c ∈ ds, c.isDigit = true) :
    fractionValue? (positional ds k) =
      some (Nat.ofDigitChars 10 ds 0 * (10 : ℚ) ^ (k - ds.length)) := by
  -- There is no exponent.
  have hpoint : ∀ whole fraction : List Char, (∀ c ∈ whole, c.isDigit = true) →
      (∀ c ∈ fraction, c.isDigit = true) → fractionValue? (whole ++ '.' :: fraction) =
        some (Nat.ofDigitChars 10 (whole ++ fraction) 0 * (10 : ℚ) ^ (-(fraction.length : ℤ))) := by
    intro whole fraction hwhole hfraction
    have hvalue := @fractionValue?_point whole fraction [] 0 hwhole hfraction (by simp) rfl
    rwa [List.append_nil, zero_sub] at hvalue
  rw [positional]
  split
  · -- The point is in front of all digits.
    rename_i hk
    have hfraction : ∀ c ∈ List.replicate (-k).toNat '0' ++ ds, c.isDigit = true :=
      List.forall_mem_append.mpr ⟨isDigit_zeros _, hds⟩
    have hvalue := hpoint (List.replicate 1 '0') _ (isDigit_zeros 1) hfraction
    rw [ofDigitChars_zeros_append, ofDigitChars_zeros_append, List.length_append,
      List.length_replicate] at hvalue
    rw [show k - ds.length = -(((-k).toNat + ds.length : ℕ) : ℤ) by omega, ← hvalue]
    simp
  · rename_i hk
    by_cases hlength : ds.length ≤ k.toNat
    · -- The point is behind them, with zeros in between, and a zero follows it.
      have hwhole : ∀ c ∈ ds ++ List.replicate (k.toNat - ds.length) '0', c.isDigit = true :=
        List.forall_mem_append.mpr ⟨hds, isDigit_zeros _⟩
      have hvalue := hpoint _ ['0'] hwhole (isDigit_zeros 1)
      rw [Nat.ofDigitChars_append, ofDigitChars_append_zeros] at hvalue
      dsimp only
      rw [List.take_of_length_le hlength, List.drop_eq_nil_of_le hlength, List.isEmpty_nil,
        if_pos rfl, List.append_assoc, List.singleton_append, hvalue,
        show k - ds.length = ((k.toNat - ds.length : ℕ) : ℤ) by omega, zpow_natCast,
        Nat.ofDigitChars_cons, Nat.ofDigitChars_nil, Nat.sub_self, Nat.add_zero]
      push_cast
      simp only [List.length_cons, List.length_nil, zero_add, Nat.cast_one, zpow_neg, zpow_ofNat,
        pow_one, Option.some.injEq]
      ring
    · -- The point is among them.
      have hwhole : ∀ c ∈ ds.take k.toNat, c.isDigit = true := fun c hc =>
        hds c (List.mem_of_mem_take hc)
      have hfraction : ∀ c ∈ ds.drop k.toNat, c.isDigit = true := fun c hc =>
        hds c (List.mem_of_mem_drop hc)
      have hvalue := hpoint _ _ hwhole hfraction
      rw [List.take_append_drop, List.length_drop] at hvalue
      dsimp only
      rw [Nat.sub_eq_zero_of_le (by omega), List.replicate_zero, List.append_nil,
        if_neg (by simp; omega), List.append_assoc, List.singleton_append, hvalue]
      congr 3
      omega

/-- One digit is in front of the point, and the exponent makes up for it. Both notations say the
same number, and only its size decides which one is used. -/
theorem fractionValue?_scientific (hds : ∀ c ∈ ds, c.isDigit = true) (hne : ds ≠ []) :
    fractionValue? (scientific ds k) =
      some (Nat.ofDigitChars 10 ds 0 * (10 : ℚ) ^ (k - ds.length)) := by
  obtain ⟨d, ds, rfl⟩ := List.exists_cons_of_ne_nil hne
  obtain ⟨hd, hds⟩ := List.forall_mem_cons.mp hds
  have hhead : ∀ c ∈ [d], c.isDigit = true := List.forall_mem_singleton.mpr hd
  have he := exponentPart?_toString (k - 1)
  rw [scientific, List.drop_one, List.tail_cons, List.take_succ_cons, List.take_zero]
  cases ds with
  | nil =>
    have hvalue := fractionValue?_whole hhead he
    simpa using hvalue
  | cons c ds =>
    have hvalue := fractionValue?_point hhead hds (fun c hc => by cases hc; rfl) he
    have hexponent : k - ((d :: c :: ds).length : ℤ) = k - 1 - ((c :: ds).length : ℤ) := by
      rw [List.length_cons]
      push_cast
      ring
    rw [hexponent]
    simpa using hvalue

/-- What positional notation is made of. Zeros that are filled in are digits, too. -/
theorem mem_positional (hds : ∀ c ∈ ds, c.isDigit = true) {c : Char} (h : c ∈ positional ds k) :
    c.isDigit = true ∨ c = '.' := by
  rw [positional] at h
  split at h
  · simp only [List.mem_append, List.mem_cons, List.not_mem_nil, or_false] at h
    rcases h with ((rfl | rfl) | h) | h
    · exact .inl rfl
    · exact .inr rfl
    · exact .inl (isDigit_zeros _ c h)
    · exact .inl (hds c h)
  · simp only [List.mem_append, List.mem_singleton] at h
    rcases h with ((h | h) | rfl) | h
    · exact .inl (hds c (List.mem_of_mem_take h))
    · exact .inl (isDigit_zeros _ c h)
    · exact .inr rfl
    · split at h
      · exact .inl (isDigit_zeros 1 c h)
      · exact .inl (hds c (List.mem_of_mem_drop h))

/-- The text of an integer is made of digits and a sign. -/
theorem mem_toString {n : ℤ} {c : Char} (h : c ∈ (toString n).toList) :
    c.isDigit = true ∨ c = '-' := by
  rw [Int.toString_eq_repr, Int.repr_eq_if] at h
  split at h
  · rw [Nat.toList_repr] at h
    exact .inl (isDigit_toDigits _ c h)
  · rw [String.toList_append, Nat.toList_repr, List.mem_append] at h
    rcases h with h | h
    · exact .inr (List.mem_singleton.mp h)
    · exact .inl (isDigit_toDigits _ c h)

/-- What scientific notation is made of. The exponent may have a sign, and the point is left out
where there is one digit only. -/
theorem mem_scientific (hds : ∀ c ∈ ds, c.isDigit = true) {c : Char} (h : c ∈ scientific ds k) :
    c.isDigit = true ∨ c ∈ ['.', 'e', '-'] := by
  simp only [scientific, List.mem_append, List.mem_singleton] at h
  rcases h with ((h | h) | rfl) | h
  · exact .inl (hds c (List.mem_of_mem_take h))
  · split at h
    · cases h
    · rcases List.mem_cons.mp h with rfl | h
      · exact .inr (by simp)
      · exact .inl (hds c (List.mem_of_mem_drop h))
  · exact .inr (by simp)
  · rcases mem_toString h with h | rfl
    · exact .inl h
    · exact .inr (by simp)

end Fractions

/-! ## Texts -/

namespace Binary64

variable {x y : Binary64}

/-- The text of a positive finite number says the value of its shortest decimal. -/
theorem fractionValue?_writePositive (x : Binary64) :
    fractionValue? (writePositive x) = some x.shortest.value := by
  have hds := isDigit_toDigits x.shortest.digits
  rw [writePositive]
  split
  · rw [fractionValue?_positional hds, Nat.ofDigitChars_ten_toDigits, Int.add_sub_cancel,
      Decimal.value]
  · rw [fractionValue?_scientific hds Nat.toDigits_ne_nil, Nat.ofDigitChars_ten_toDigits,
      Int.add_sub_cancel, Decimal.value]

/-- The text of a number without its sign. -/
def unsigned (x : Binary64) : List Char :=
  if x.isInfinite then "inf".toList else if x.isZero then "0.0".toList else writePositive x

/-- The text of a number is a sign, if it is negative, in front of the text of its magnitude. -/
theorem toList_text (h : x.isNaN = false) :
    x.text.toList = if x.isNegative then '-' :: x.unsigned else x.unsigned := by
  rw [text, if_neg (by rw [h]; exact Bool.false_ne_true), String.toList_ofList]
  rfl

/-- The text of a positive number starts with a digit. In positional notation this is a zero if the
point stands in front of all digits. -/
theorem exists_writePositive_eq (x : Binary64) :
    ∃ c cs, writePositive x = c :: cs ∧ c.isDigit = true := by
  obtain ⟨d, ds, hds⟩ := List.exists_cons_of_ne_nil (@Nat.toDigits_ne_nil x.shortest.digits 10)
  have hd : d.isDigit = true := isDigit_toDigits x.shortest.digits d (by rw [hds]; simp)
  rw [writePositive, hds]
  split
  · rw [positional]
    split
    · exact ⟨'0', _, rfl, rfl⟩
    · rename_i hk
      obtain ⟨n, hn⟩ : ∃ n, (x.shortest.exponent + (d :: ds).length).toNat = n + 1 :=
        ⟨_, (Nat.sub_add_cancel (by omega)).symm⟩
      rw [hn]
      exact ⟨d, _, rfl, hd⟩
  · exact ⟨d, _, rfl, hd⟩

/-- Without its sign, no text starts with one. So a text with a sign in front is told from one
without. -/
theorem head?_unsigned_ne (x : Binary64) : x.unsigned.head? ≠ some '-' := by
  rw [unsigned]
  split
  · decide
  · split
    · decide
    · obtain ⟨c, cs, hx, hc⟩ := x.exists_writePositive_eq
      rw [hx, List.head?_cons]
      rintro heq
      cases heq
      cases hc

/-- The text of a number is made of digits and few other characters. A character that is neither a
digit nor one of the marks is in no text, so a text can be told from what stands around it in a
listing. -/
theorem notMem_text {c : Char} (hdigit : c.isDigit = false)
    (hmark : c ∉ ['.', 'e', '-', 'i', 'n', 'f', 'N', 'a', '0']) : c ∉ x.text.toList := by
  have hword : ∀ w : List Char, w ⊆ ['.', 'e', '-', 'i', 'n', 'f', 'N', 'a', '0'] → c ∉ w :=
    fun w hw hc => hmark (hw hc)
  -- The words for infinity and for what is no number are made of the marks, too.
  have hpositive : c ∉ writePositive x := by
    have hds := isDigit_toDigits x.shortest.digits
    intro h
    rw [writePositive] at h
    split at h
    · rcases mem_positional hds h with h | rfl
      · exact absurd h (by rw [hdigit]; decide)
      · exact hmark (by simp)
    · rcases mem_scientific hds h with h | h
      · exact absurd h (by rw [hdigit]; decide)
      · exact hword ['.', 'e', '-'] (by simp) h
  have hunsigned : c ∉ x.unsigned := by
    rw [unsigned]
    split
    · exact hword ['i', 'n', 'f'] (by simp)
    · split
      · exact hword ['0', '.', '0'] (by simp)
      · exact hpositive
  cases hnan : x.isNaN with
  | true =>
    rw [text, if_pos hnan]
    exact hword ['N', 'a', 'N'] (by simp)
  | false =>
    rw [toList_text hnan]
    split
    · rw [List.mem_cons, not_or]
      exact ⟨by rintro rfl; exact hmark (by simp), hunsigned⟩
    · exact hunsigned

/-- What the text of a number says: nothing if it is infinite, else zero or what rounds to it. The
digits that are written are those of the shortest decimal, which rounds to the number. -/
theorem fractionValue?_unsigned (x : Binary64) :
    (x.magnitude = infinityBits ∧ fractionValue? x.unsigned = none) ∨
      (x.magnitude = 0 ∧ fractionValue? x.unsigned = some 0) ∨
        0 < x.magnitude ∧ ∃ v, fractionValue? x.unsigned = some v ∧ x.Rounds v ∧ 0 < v := by
  rw [unsigned]
  split
  · rename_i hinfinite
    exact .inl ⟨of_decide_eq_true hinfinite, rfl⟩
  · split
    · rename_i hzero
      have hvalue := @fractionValue?_point ['0'] ['0'] [] 0 (isDigit_zeros 1) (isDigit_zeros 1)
        (by simp) rfl
      refine .inr (.inl ⟨of_decide_eq_true hzero, hvalue.trans ?_⟩)
      rw [show Nat.ofDigitChars 10 (['0'] ++ ['0']) 0 = 0 from rfl, Nat.cast_zero, zero_mul]
    · rename_i hzero
      have hpos : 0 < x.magnitude :=
        Nat.pos_of_ne_zero (of_decide_eq_false (Bool.eq_false_iff.mpr hzero))
      have hrounds := rounds_shortest hpos
      refine .inr (.inr ⟨hpos, _, fractionValue?_writePositive x, hrounds, ?_⟩)
      obtain ⟨m, hm⟩ : ∃ m, x.magnitude = m + 1 := ⟨x.magnitude - 1, by omega⟩
      refine lt_of_lt_of_le ?_ hrounds.le.1
      rw [lower_eq hm, halfway, quarterAt]
      positivity

/-- Texts without a sign tell magnitudes apart. Among positive finite ones, the value tells which
number is rounded to. -/
theorem magnitude_eq_of_unsigned (h : x.unsigned = y.unsigned) : x.magnitude = y.magnitude := by
  rcases fractionValue?_unsigned x with ⟨hx, hvx⟩ | ⟨hx, hvx⟩ | ⟨hx, v, hvx, hrx, hpx⟩ <;>
    rcases fractionValue?_unsigned y with ⟨hy, hvy⟩ | ⟨hy, hvy⟩ | ⟨hy, w, hvy, hry, hpy⟩ <;>
    rw [h, hvy] at hvx
  case inr.inr.inr.inr =>
    cases hvx
    exact Nat.le_antisymm (hry.magnitude_le hrx hx) (hrx.magnitude_le hry hy)
  case inl.inl | inr.inl.inr.inl => rw [hx, hy]
  case inr.inl.inr.inr | inr.inr.inr.inl =>
    cases hvx
    exact absurd ‹(0 : ℚ) < 0› (lt_irrefl _)
  all_goals cases hvx

/-- A number is its sign and its magnitude. -/
theorem eq_of_magnitude (hsign : x.isNegative = y.isNegative) (h : x.magnitude = y.magnitude) :
    x = y := by
  have hx := x.bits.toNat_lt
  have hy := y.bits.toNat_lt
  have hpow : Nat.pow 2 63 = 9223372036854775808 := rfl
  rw [isNegative, isNegative, hpow, decide_eq_decide] at hsign
  rw [magnitude, magnitude, hpow] at h
  -- The sign is the highest bit, and the magnitude is the rest.
  have hbits : x.bits.toNat = y.bits.toNat := by omega
  cases x
  cases y
  exact congrArg Binary64.mk (UInt64.toNat_inj.mp hbits)

/-- **Numbers with the same text are the same.** The sign is the first character. Behind it, the
texts stand for one rational, and this rounds to one number only. -/
theorem eq_of_text_eq (hx : x.isNaN = false) (hy : y.isNaN = false) (h : x.text = y.text) :
    x = y := by
  have htexts := congrArg String.toList h
  rw [toList_text hx, toList_text hy] at htexts
  cases hsx : x.isNegative <;> cases hsy : y.isNegative <;> rw [hsx, hsy] at htexts
  case false.false | true.true =>
    refine eq_of_magnitude (hsx.trans hsy.symm) (magnitude_eq_of_unsigned ?_)
    simpa using htexts
  case false.true =>
    exact absurd (congrArg List.head? htexts) x.head?_unsigned_ne
  case true.false =>
    exact absurd (congrArg List.head? htexts).symm y.head?_unsigned_ne

end Binary64

end Pulse.Number

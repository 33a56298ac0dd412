/-
Literals from the source to their values.

What a literal may look like is laid down twice: once by the patterns that cut the source, once by
the functions that read values from the texts of tokens. Here the two are brought together. Every
text that is cut off as a number with a point has the documented form of such numbers, an integer is
read as the positional value of its digits, and what is cut off as a character fits in a byte. So
the one number that can be cut off and not be read is an integer out of range.
-/
import Mathlib.Data.Nat.Digits.Defs
import Mathlib.Tactic.IntervalCases
import Pulse.Proofs.ErrorTokens
import Pulse.Proofs.LayeredGrammar
import Pulse.Proofs.Tiling

set_option autoImplicit false

namespace Pulse

open Number

/-! ## Integers -/

/-- The digits, each at the place of its value. -/
def digitOrder : List Char :=
  ['0', '1', '2', '3', '4', '5', '6', '7', '8', '9', 'a', 'b', 'c', 'd', 'e', 'f']

/-- The value of a digit of either case. -/
def digitValue (c : Char) : Nat := digitOrder.idxOf c.toLower

/-- The positional value of digits, the first of which counts the most. -/
def placeValue (radix : Nat) (ds : List Char) : Nat :=
  Nat.ofDigits radix (ds.map digitValue).reverse

/-- **The texts of integers and their values**, in the radix that a text is marked with. -/
inductive Numeral : List Char → Nat → Prop where
  | decimal {ds : List Char} (h : RunOf Char.isDigit ds) : Numeral ds (placeValue 10 ds)
  | hexadecimal {ds : List Char} (h : RunOf isHexDigit ds) :
      Numeral ('0' :: 'x' :: ds) (placeValue 16 ds)
  | binary {ds : List Char} (h : RunOf isBinaryDigit ds) :
      Numeral ('0' :: 'b' :: ds) (placeValue 2 ds)
  | octal {ds : List Char} (h : RunOf isOctalDigit ds) :
      Numeral ('0' :: 'o' :: ds) (placeValue 8 ds)

/-- Every text of an integer has a value. -/
theorem IntegerText.exists_numeral {cs : List Char} (h : IntegerText cs) : ∃ n, Numeral cs n := by
  cases h with
  | decimal h => exact ⟨_, .decimal h⟩
  | hexadecimal h => exact ⟨_, .hexadecimal h⟩
  | binary h => exact ⟨_, .binary h⟩
  | octal h => exact ⟨_, .octal h⟩

/-- All digits of radix sixteen. -/
def hexDigits : List Char := digitOrder ++ ['A', 'B', 'C', 'D', 'E', 'F']

/-- The list of the digits of radix sixteen is complete. -/
theorem mem_hexDigits {c : Char} (h : isHexDigit c = true) : c ∈ hexDigits := by
  -- The class is three ranges of code points, which are gone through one by one.
  have hrange : (48 ≤ c.toNat ∧ c.toNat ≤ 57) ∨ (97 ≤ c.toNat ∧ c.toNat ≤ 102) ∨
      (65 ≤ c.toNat ∧ c.toNat ≤ 70) := by
    simpa [isHexDigit, Char.isDigit, Char.le_def, UInt32.le_iff_toNat_le, or_assoc] using h
  have hc : c = Char.ofNat c.toNat := (Char.ofNat_toNat c).symm
  generalize c.toNat = n at hrange hc
  subst hc
  rcases hrange with ⟨hlow, hhigh⟩ | ⟨hlow, hhigh⟩ | ⟨hlow, hhigh⟩ <;> interval_cases n <;> decide

/-- A class of digits whose values are below a radix. -/
def DigitsOf (radix : Nat) (p : Char → Bool) : Prop :=
  ∀ c, p c = true → digit? radix c = some (digitValue c)

/-- It is enough to look at each digit of radix sixteen. -/
theorem digitsOf_of_all {radix : Nat} {p : Char → Bool}
    (hp : ∀ c, p c = true → isHexDigit c = true)
    (hall : (hexDigits.all fun c => !p c || digit? radix c == some (digitValue c)) = true) :
    DigitsOf radix p := by
  intro c hc
  have hmem := List.all_eq_true.mp hall c (mem_hexDigits (hp c hc))
  rw [hc, Bool.not_true, Bool.false_or, beq_iff_eq] at hmem
  exact hmem

/-- Decimal digits are digits of radix sixteen. -/
theorem isHexDigit_of_isDigit {c : Char} (h : c.isDigit = true) : isHexDigit c = true := by
  rw [isHexDigit, h, Bool.true_or, Bool.true_or]

/-- The decimal digits. -/
theorem digitsOf_decimal : DigitsOf 10 Char.isDigit :=
  digitsOf_of_all (fun _ => isHexDigit_of_isDigit) rfl

/-- The digits of radix sixteen, of either case. -/
theorem digitsOf_hexadecimal : DigitsOf 16 isHexDigit := digitsOf_of_all (fun _ h => h) rfl

/-- The digits of radix eight. -/
theorem digitsOf_octal : DigitsOf 8 isOctalDigit := by
  refine digitsOf_of_all (fun c hc => isHexDigit_of_isDigit ?_) rfl
  rw [isOctalDigit, Bool.and_eq_true, decide_eq_true_eq, decide_eq_true_eq] at hc
  have hnine : c ≤ '9' := Char.le_trans hc.2 (by decide)
  simpa [Char.isDigit, Char.le_def] using And.intro hc.1 hnine

/-- The two digits of radix two. -/
theorem digitsOf_binary : DigitsOf 2 isBinaryDigit := by
  refine digitsOf_of_all (fun c hc => ?_) rfl
  rw [isBinaryDigit, Bool.or_eq_true, decide_eq_true_eq, decide_eq_true_eq] at hc
  rcases hc with rfl | rfl <;> rfl

section Values

variable {radix n : Nat} {p : Char → Bool} {ds cs : List Char}

/-- Digits behind a numeral: it becomes their most significant digit. The reader multiplies by the
radix and adds, and the value of the digits is a sum of powers; the induction is from the front. -/
theorem extend?_digits (hp : DigitsOf radix p) (hds : ∀ c ∈ ds, p c = true) (n : Nat) :
    extend? radix n ds = some (Nat.ofDigits radix ((ds.map digitValue).reverse ++ [n])) := by
  induction ds generalizing n with
  | nil => rw [extend?, List.map_nil, List.reverse_nil, List.nil_append, Nat.ofDigits_singleton]
  | cons c ds ih =>
    obtain ⟨hc, hds⟩ := List.forall_mem_cons.mp hds
    rw [extend?, hp c hc, Option.bind_some, ih hds, List.map_cons, List.reverse_cons,
      List.append_assoc, Nat.ofDigits_append, Nat.ofDigits_append, Nat.ofDigits_singleton,
      List.singleton_append, Nat.ofDigits_cons, Nat.ofDigits_singleton]
    have hlast : n * radix + digitValue c = digitValue c + radix * n := by ring
    rw [hlast]

/-- Digits alone are read as their positional value. -/
theorem extend?_zero (hp : DigitsOf radix p) (hds : ∀ c ∈ ds, p c = true) :
    extend? radix 0 ds = some (placeValue radix ds) := by
  rw [extend?_digits hp hds, Nat.ofDigits_append, Nat.ofDigits_singleton, Nat.mul_zero,
    Nat.add_zero, placeValue]

/-- So are digits where a number without a sign is read, if there are any. -/
theorem natural?_digits (hp : DigitsOf radix p) (h : RunOf p ds) :
    natural? radix ds = some (placeValue radix ds) := by
  have hempty : ¬ ds.isEmpty = true := by simpa using h.ne_nil
  rw [natural?, if_neg hempty, extend?_zero hp h.all]

/-- A digit is no sign. -/
theorem signed?_digits (hp : DigitsOf radix p) (h : RunOf p ds) :
    signed? radix ds = some (placeValue radix ds : Int) := by
  unfold signed?
  split
  · cases hp '-' (h.all _ List.mem_cons_self)
  · cases hp '+' (h.all _ List.mem_cons_self)
  · rw [natural?_digits hp h]
    rfl

/-- **An integer is read as the positional value of its digits**, if this is in range. The radix is
told by the mark in front of the digits (`parse_integer`). -/
theorem Numeral.readInteger? (h : Numeral cs n) : readInteger? cs = toInt32? n := by
  cases h with
  | decimal h =>
    have hvalue := extend?_zero digitsOf_decimal h.all
    rw [extend?_ten h.all, Option.some.injEq] at hvalue
    rw [readInteger?_digits h.all h.ne_nil, hvalue]
  | hexadecimal h => exact congrArg (·.bind toInt32?) (signed?_digits digitsOf_hexadecimal h)
  | binary h => exact congrArg (·.bind toInt32?) (signed?_digits digitsOf_binary h)
  | octal h => exact congrArg (·.bind toInt32?) (signed?_digits digitsOf_octal h)

/-- A number up to the largest integer is kept. -/
theorem toInt32?_of_le (h : n ≤ 2147483647) :
    ∃ v : Int32, toInt32? n = some v ∧ v.toInt = n := by
  refine ⟨Int32.ofInt n, ?_, Int32.toInt_ofInt_of_le (by omega) (by omega)⟩
  rw [toInt32?, if_pos (by omega)]

/-- A number beyond the largest integer is refused. -/
theorem toInt32?_of_lt (h : 2147483647 < n) : toInt32? n = none := by
  rw [toInt32?, if_neg (by omega)]

end Values

/-! ## Numbers with a point -/

/-- Digits with at most one point among them, before or behind. -/
inductive Mantissa : List Char → Prop where
  | whole {ds : List Char} (h : RunOf Char.isDigit ds) : Mantissa ds
  | point {whole fraction : List Char} (hwhole : RunOf Char.isDigit whole)
      (hfraction : ∀ c ∈ fraction, c.isDigit = true) : Mantissa (whole ++ '.' :: fraction)
  | lead {whole fraction : List Char} (hwhole : ∀ c ∈ whole, c.isDigit = true)
      (hfraction : RunOf Char.isDigit fraction) : Mantissa (whole ++ '.' :: fraction)

/-- **The documented form of numbers with a point**: a sign or none, and a word for infinity or for
what is no number, in letters of either case, or digits with an exponent or none. -/
inductive DecimalText : List Char → Prop where
  | word {sign word : List Char} (hsign : sign = [] ∨ sign = ['+'] ∨ sign = ['-'])
      (hword : word.map Char.toLower ∈ ["inf".toList, "infinity".toList, "nan".toList]) :
      DecimalText (sign ++ word)
  | number {sign mantissa exponent : List Char} (hsign : sign = [] ∨ sign = ['+'] ∨ sign = ['-'])
      (hmantissa : Mantissa mantissa) (hexponent : exponent = [] ∨ Exponent exponent) :
      DecimalText (sign ++ (mantissa ++ exponent))

/-- What is cut off as a float has the documented form. It has no sign and is none of the words, so
it is one of the forms of a number. -/
theorem FloatText.decimalText {cs : List Char} (h : FloatText cs) : DecimalText cs := by
  cases h with
  | @point whole fraction exponent hwhole hfraction hne hexponent =>
    have hmantissa : Mantissa (whole ++ '.' :: fraction) := by
      rcases hne with hne | hne
      · exact .point ⟨hne, hwhole⟩ hfraction
      · exact .lead hwhole ⟨hne, hfraction⟩
    have htext := DecimalText.number (.inl rfl) hmantissa hexponent
    rw [List.nil_append, List.append_assoc, List.cons_append] at htext
    exact htext
  | scaled hwhole hexponent => exact .number (.inl rfl) (.whole hwhole) (.inr hexponent)

section Decimals

variable {ds rest exponent mantissa : List Char}

/-- Digits are taken up to what is none. -/
theorem spanDigits_append (hds : ∀ c ∈ ds, c.isDigit = true)
    (hrest : ∀ c ∈ rest.head?, c.isDigit = false) : spanDigits (ds ++ rest) = (ds, rest) := by
  rw [spanDigits, List.takeWhile_append_of_pos hds, List.dropWhile_append_of_pos hds]
  cases rest with
  | nil => rw [List.takeWhile_nil, List.dropWhile_nil, List.append_nil]
  | cons c rest =>
    have hc := hrest c rfl
    rw [List.takeWhile_cons_of_neg (by rw [hc]; decide),
      List.dropWhile_cons_of_neg (by rw [hc]; decide), List.append_nil]

/-- Every exponent is read, with each sign and without one. -/
theorem Exponent.isSome_exponentPart? (h : Exponent exponent) :
    (exponentPart? exponent).isSome = true := by
  obtain ⟨he, hsign, hds⟩ := h
  rw [exponentPart?, if_pos he]
  have hnatural := natural?_digits digitsOf_decimal hds
  rcases hsign with rfl | rfl | rfl
  · rw [List.nil_append, signed?_digits digitsOf_decimal hds]
    rfl
  · rw [List.singleton_append, signed?, hnatural]
    rfl
  · rw [List.singleton_append, signed?, hnatural]
    rfl

/-- An exponent starts with its mark. -/
theorem Exponent.isDigit_head? (h : Exponent exponent) :
    ∀ c ∈ exponent.head?, c.isDigit = false ∧ c ≠ '.' := by
  obtain ⟨he, -, -⟩ := h
  intro c hc
  cases hc
  rcases he with rfl | rfl <;> decide

/-- Digits with a point and an exponent are read. There may be no digits in front of the point or
none behind it, but not both. -/
theorem isSome_readMagnitude? (hmantissa : Mantissa mantissa)
    (hexponent : exponent = [] ∨ Exponent exponent) :
    (readMagnitude? (mantissa ++ exponent)).isSome = true := by
  have hpart : (exponentPart? exponent).isSome = true := by
    rcases hexponent with rfl | h
    · rfl
    · exact h.isSome_exponentPart?
  -- The digits in front end where the exponent starts.
  have hhead : ∀ c ∈ exponent.head?, c.isDigit = false ∧ c ≠ '.' := by
    rcases hexponent with rfl | h
    · exact fun c hc => by cases hc
    · exact h.isDigit_head?
  obtain ⟨part, hpart⟩ := Option.isSome_iff_exists.mp hpart
  have hpointed : ∀ whole fraction, (∀ c ∈ whole, c.isDigit = true) →
      (∀ c ∈ fraction, c.isDigit = true) → whole ++ fraction ≠ [] →
      (readMagnitude? (whole ++ '.' :: (fraction ++ exponent))).isSome = true := by
    intro whole fraction hwhole hfraction hne
    have hdigits : RunOf Char.isDigit (whole ++ fraction) :=
      ⟨hne, List.forall_mem_append.mpr ⟨hwhole, hfraction⟩⟩
    rw [readMagnitude?, spanDigits_append hwhole (fun c hc => by cases hc; rfl)]
    simp only [spanDigits_append hfraction fun c hc => (hhead c hc).1,
      natural?_digits digitsOf_decimal hdigits, hpart]
    rfl
  cases hmantissa with
  | whole h =>
    rw [readMagnitude?, spanDigits_append h.all fun c hc => (hhead c hc).1]
    dsimp only
    split
    · exact absurd rfl (hhead '.' rfl).2
    · simp only [List.append_nil, natural?_digits digitsOf_decimal h, hpart]
      rfl
  | point hwhole hfraction =>
    rw [List.append_assoc, List.cons_append]
    exact hpointed _ _ hwhole.all hfraction (List.append_ne_nil_of_left_ne_nil hwhole.ne_nil _)
  | lead hwhole hfraction =>
    rw [List.append_assoc, List.cons_append]
    exact hpointed _ _ hwhole hfraction.all (List.append_ne_nil_of_right_ne_nil _ hfraction.ne_nil)

/-- A sign in front of what can be read, if this has none itself. The sign is cut off first, and
what is left may be one of the words or a number. -/
theorem isSome_readDecimal? {sign body : List Char}
    (hsign : sign = [] ∨ sign = ['+'] ∨ sign = ['-'])
    (hhead : ∀ c ∈ body.head?, c ≠ '-' ∧ c ≠ '+')
    (hbody : (wordMagnitude? body).isSome = true ∨ (readMagnitude? body).isSome = true) :
    (readDecimal? (sign ++ body)).isSome = true := by
  have hread : ∀ negative, (((wordMagnitude? body).orElse fun _ => readMagnitude? body).map
      (Binary64.ofMagnitude negative)).isSome = true := by
    intro negative
    rw [Option.isSome_map]
    cases hword : wordMagnitude? body with
    | some magnitude => rfl
    | none =>
      rw [hword] at hbody
      exact hbody.resolve_left Bool.false_ne_true
  rcases hsign with rfl | rfl | rfl
  · rw [List.nil_append, readDecimal?]
    · exact hread false
    · rintro cs rfl
      exact (hhead '-' rfl).1 rfl
    · rintro cs rfl
      exact (hhead '+' rfl).2 rfl
  · exact hread false
  · exact hread true

/-- Digits and points are no signs. So a number without a sign is not taken for one with a sign. -/
theorem Mantissa.head? (h : Mantissa mantissa) (rest : List Char) :
    ∀ c ∈ (mantissa ++ rest).head?, c ≠ '-' ∧ c ≠ '+' := by
  have hdigit : ∀ c : Char, c.isDigit = true → c ≠ '-' ∧ c ≠ '+' := by
    rintro c hc
    refine ⟨?_, ?_⟩ <;> rintro rfl <;> cases hc
  have hpoint : ∀ whole fraction : List Char, (∀ c ∈ whole, c.isDigit = true) →
      ∀ c ∈ (whole ++ '.' :: fraction ++ rest).head?, c ≠ '-' ∧ c ≠ '+' := by
    intro whole fraction hwhole c hc
    cases whole with
    | nil =>
      cases hc
      decide
    | cons d whole =>
      cases hc
      exact hdigit _ (hwhole _ List.mem_cons_self)
  cases h with
  | whole h =>
    obtain ⟨d, ds, rfl⟩ := List.exists_cons_of_ne_nil h.ne_nil
    intro c hc
    cases hc
    exact hdigit _ (h.all _ List.mem_cons_self)
  | point hwhole hfraction => exact hpoint _ _ hwhole.all
  | lead hwhole hfraction => exact hpoint _ _ hwhole

/-- The three words are read in any case of letters, and start with no sign. -/
theorem isSome_wordMagnitude? {word : List Char}
    (h : word.map Char.toLower ∈ ["inf".toList, "infinity".toList, "nan".toList]) :
    (wordMagnitude? word).isSome = true ∧ ∀ c ∈ word.head?, c ≠ '-' ∧ c ≠ '+' := by
  simp only [List.mem_cons, List.not_mem_nil, or_false] at h
  constructor
  · rw [wordMagnitude?]
    rcases h with h | h | h
    · rw [if_pos (.inl h)]
      rfl
    · rw [if_pos (.inr h)]
      rfl
    · rw [if_neg (by rw [h]; decide), if_pos h]
      rfl
  · -- Signs have no cases, and no word starts with one.
    intro c hc
    obtain ⟨cs, rfl⟩ : ∃ cs, word = c :: cs := List.head?_eq_some_iff.mp hc
    have hfirst : some c.toLower = some 'i' ∨ some c.toLower = some 'n' := by
      rcases h with h | h | h
      · exact .inl (congrArg List.head? h)
      · exact .inl (congrArg List.head? h)
      · exact .inr (congrArg List.head? h)
    refine ⟨?_, ?_⟩ <;> rintro rfl <;> revert hfirst <;> decide

/-- **What has the documented form is read.** A sign, and behind it one of the words, or digits
with a point and an exponent. That a reader gives a value for all of these is asked of it from
outside. -/
theorem DecimalText.isSome_readDecimal? {cs : List Char} (h : DecimalText cs) :
    (readDecimal? cs).isSome = true := by
  cases h with
  | word hsign hword =>
    obtain ⟨hsome, hhead⟩ := isSome_wordMagnitude? hword
    exact Pulse.isSome_readDecimal? hsign hhead (.inl hsome)
  | number hsign hmantissa hexponent =>
    exact Pulse.isSome_readDecimal? hsign (hmantissa.head? _)
      (.inr (isSome_readMagnitude? hmantissa hexponent))

end Decimals

/-! ## Values of tokens -/

/-- A token is read as a literal, wherever it is the current one. -/
def Token.ReadsAs (t : Token) (x : Literal) : Prop :=
  ∀ tape : Tape, tape.current = t →
    readPrimary tape = .ok (.literal t.span x) tape.advance

/-- A token is refused as a number, wherever it is the current one. -/
def Token.RefusedAsNumber (t : Token) : Prop :=
  ∀ tape : Tape, tape.current = t →
    readPrimary tape = .error ⟨.invalidNumber t.value, t.span.start⟩ tape

section Tokens

variable {t : Token} {cs : List Char}

/-- A token that denotes a value is read as this value. Whatever the tape has behind the token. -/
theorem Token.Denotes.readsAs {x : Literal} (h : t.Denotes x) : t.ReadsAs x := by
  rintro tape rfl
  rw [readPrimary, Reader.bind_of_ok (rfl : Reader.current tape = .ok tape.current tape)]
  cases h with
  | int hkind h | float hkind h =>
    rw [hkind]
    simp only [h]
    rfl
  | char hkind | bool hkind =>
    rw [hkind]
    rfl

/-- An integer that cannot be read is refused wherever it stands. -/
theorem Token.refusedAsNumber (hkind : t.kind = .integer)
    (h : readInteger? t.value.toList = none) : t.RefusedAsNumber := by
  rintro tape rfl
  rw [readPrimary, Reader.bind_of_ok (rfl : Reader.current tape = .ok tape.current tape), hkind]
  simp only [h]
  rfl

/-- A character is read as the byte that it stands for. -/
theorem char_fits (hkind : t.kind = .char) (h : Spells .char cs t.value) :
    ∃ c, t.value = String.singleton c ∧ c.toNat ≤ 255 ∧
      ∃ b : UInt8, b.toNat = c.toNat ∧ t.ReadsAs (.char b) := by
  obtain ⟨c, -, hc, hvalue⟩ := h.charLiteral
  have hbyte : (UInt8.ofNat c.toNat).toNat = c.toNat :=
    UInt8.toNat_ofNat_of_lt' (Nat.lt_succ_of_le hc)
  have hdenotes := Token.Denotes.char hkind
  rw [hvalue, String.toList_singleton] at hdenotes
  exact ⟨c, hvalue, hc, _, hbyte, hdenotes.readsAs⟩

/-- There are two spellings of truth values. -/
theorem Spells.bool {v : String} (h : Spells .bool cs v) : v = "true" ∨ v = "false" := by
  cases h with
  | fixed h => cases h
  | truth h => exact h

/-- A name is not reserved. -/
theorem Spells.notMem_reservedNames {v : String} (h : Spells .identifier cs v) :
    v ∉ reservedNames := by
  cases h with
  | fixed h => cases h
  | name _ hfree => exact hfree

/-- A spelling of a float has the documented form. -/
theorem Spells.decimalText {v : String} (h : Spells .float cs v) : DecimalText v.toList := by
  cases h with
  | fixed h => cases h
  | float h =>
    rw [String.toList_ofList]
    exact h.decimalText

/-- A float has the documented form and is read. -/
theorem float_fits (hkind : t.kind = .float) (h : Spells .float cs t.value) :
    DecimalText t.value.toList ∧ ∃ x : Binary64, t.ReadsAs (.float x) := by
  obtain ⟨x, hx⟩ := Option.isSome_iff_exists.mp h.decimalText.isSome_readDecimal?
  exact ⟨h.decimalText, x, (Token.Denotes.float hkind hx).readsAs⟩

/-- A spelling of an integer has a value. -/
theorem Spells.exists_numeral {v : String} (h : Spells .integer cs v) :
    ∃ n, Numeral v.toList n := by
  cases h with
  | fixed h => cases h
  | integer h =>
    rw [String.toList_ofList]
    exact h.exists_numeral

/-- An integer is read as its value, or refused when this is out of range. -/
theorem integer_fits (hkind : t.kind = .integer) (h : Spells .integer cs t.value) :
    ∃ n, Numeral t.value.toList n ∧
      (n ≤ 2147483647 → ∃ v : Int32, v.toInt = n ∧ t.ReadsAs (.int v)) ∧
      (2147483647 < n → t.RefusedAsNumber) := by
  obtain ⟨n, hn⟩ := h.exists_numeral
  refine ⟨n, hn, fun hle => ?_, fun hlt => ?_⟩
  · obtain ⟨v, hv, htoInt⟩ := toInt32?_of_le hle
    exact ⟨v, htoInt, (Token.Denotes.int hkind (hn.readInteger?.trans hv)).readsAs⟩
  · exact Token.refusedAsNumber hkind (hn.readInteger?.trans (toInt32?_of_lt hlt))

/-- A spelled token that stands for no number is an integer out of range. All other texts that are
cut off as numbers can be read. -/
theorem overflow_of_not_legible (h : Spells t.kind cs t.value) (hlegible : ¬ t.Legible) :
    t.kind = .integer ∧ ∃ n, Numeral t.value.toList n ∧ 2147483647 < n := by
  unfold Token.Legible Legible at hlegible
  split at hlegible
  · rename_i hkind
    rw [hkind] at h
    obtain ⟨n, hn⟩ := h.exists_numeral
    refine ⟨hkind, n, hn, Nat.lt_of_not_le fun hle => ?_⟩
    obtain ⟨v, hv, -⟩ := toInt32?_of_le hle
    rw [hn.readInteger?, hv] at hlegible
    exact hlegible rfl
  · rename_i hkind
    rw [hkind] at h
    exact absurd h.decimalText.isSome_readDecimal? hlegible
  · exact absurd trivial hlegible

end Tokens

/-- **Tokens that are what the readers of literals take them for.** Characters fit in a byte, truth
values are the two there are, names are not reserved, numbers with a point have the documented form,
and an integer is read as the positional value of its digits, or refused if this is out of range.
Nothing else makes tokens fail on a number. -/
structure LiteralsFit (tokens : List Token) : Prop where
  chars : ∀ t ∈ tokens, t.kind = .char → ∃ c, t.value = String.singleton c ∧ c.toNat ≤ 255 ∧
    ∃ b : UInt8, b.toNat = c.toNat ∧ t.ReadsAs (.char b)
  bools : ∀ t ∈ tokens, t.kind = .bool → t.value = "true" ∨ t.value = "false"
  names : ∀ t ∈ tokens, t.kind = .identifier → t.value ∉ reservedNames
  floats : ∀ t ∈ tokens, t.kind = .float → DecimalText t.value.toList ∧
    ∃ x : Binary64, t.ReadsAs (.float x)
  integers : ∀ t ∈ tokens, t.kind = .integer → ∃ n, Numeral t.value.toList n ∧
    (n ≤ 2147483647 → ∃ v : Int32, v.toInt = n ∧ t.ReadsAs (.int v)) ∧
    (2147483647 < n → t.RefusedAsNumber)
  invalid : ∀ e text, Program.ofTokens tokens = .error (.invalid e) →
    e.cause = .invalidNumber text → ∃ t ∈ tokens, t.kind = .integer ∧ t.value = text ∧
      e.position = t.span.start ∧ ∃ n, Numeral text.toList n ∧ 2147483647 < n

/-- **The literals of a text fit**, whatever the text, if it can be cut into tokens. Every token is
cut from a spelling of its kind. For the last part, an error about a number can only be about an
integer that is out of range. -/
theorem tokenize_literals_fit {source : String} {tokens : List Token}
    (h : tokenize source = .ok tokens) : LiteralsFit tokens := by
  have hspelled : ∀ t ∈ tokens, t.kind ≠ .eof → ∃ piece, Spells t.kind piece t.value :=
    exists_spells_of_scan h
  have hkinds : ∀ t ∈ tokens, ∀ k, t.kind = k → k ≠ .eof → ∃ piece, Spells k piece t.value := by
    rintro t ht _ rfl
    exact hspelled t ht
  -- Every token is the spelling of its kind, and what is left to do is one lemma for each kind.
  refine ⟨?_, ?_, ?_, ?_, ?_, ?_⟩
  · intro t ht hkind
    obtain ⟨piece, hspells⟩ := hkinds t ht .char hkind (by decide)
    exact char_fits hkind hspells
  · intro t ht hkind
    obtain ⟨piece, hspells⟩ := hkinds t ht .bool hkind (by decide)
    exact hspells.bool
  · intro t ht hkind
    obtain ⟨piece, hspells⟩ := hkinds t ht .identifier hkind (by decide)
    exact hspells.notMem_reservedNames
  · intro t ht hkind
    obtain ⟨piece, hspells⟩ := hkinds t ht .float hkind (by decide)
    exact float_fits hkind hspells
  · intro t ht hkind
    obtain ⟨piece, hspells⟩ := hkinds t ht .integer hkind (by decide)
    exact integer_fits hkind hspells
  · intro e text herror hcause
    obtain ⟨t, ht, rfl, hposition, hlegible⟩ :=
      (names_of_ofTokens_eq_invalid herror).not_legible hcause
    have hkind : t.kind ≠ .eof := by
      intro heof
      rw [Token.Legible, heof] at hlegible
      exact hlegible trivial
    obtain ⟨piece, hspells⟩ := hspelled t ht hkind
    obtain ⟨hinteger, hn⟩ := overflow_of_not_legible hspells hlegible
    exact ⟨t, ht, hinteger, rfl, hposition, hn⟩

/-- Literals of several kinds, the first of them out of range. -/
def mixedLiterals : List (Lexeme × Gap) :=
  [(⟨.integer, "0x80000000".toList, _,
      .integer (.hexadecimal ⟨List.cons_ne_nil _ _, List.all_eq_true.mp rfl⟩)⟩, ⟨'\t', rfl, []⟩),
   (⟨.float, "1.e5".toList, _,
      .float (@FloatText.point ['1'] [] ['e', '5'] (List.all_eq_true.mp rfl)
        (List.forall_mem_nil _) (.inl (List.cons_ne_nil _ _))
        (.inr (@Exponent.mk 'e' [] ['5'] (.inl rfl) (.inl rfl)
          ⟨List.cons_ne_nil _ _, List.all_eq_true.mp rfl⟩)))⟩, ⟨'\t', rfl, []⟩),
   (⟨.char, "'ü'".toList, _, .char (.plain (by decide) (by decide) (by decide)) (by decide)⟩,
    ⟨'\t', rfl, []⟩),
   (⟨.bool, "true".toList, _, .truth (.inl rfl)⟩, ⟨'\t', rfl, []⟩)]

/-- A text with a literal of each kind, the integer one more than the largest one. -/
theorem mixedLiterals_fit : ∃ tokens,
    tokenize "0x80000000\t1.e5\t'ü'\ttrue\t" = .ok tokens ∧
    tokens.map (fun t => (t.kind, t.value)) =
      [(.integer, "0x80000000"), (.float, "1.e5"), (.char, "ü"), (.bool, "true"), (.eof, "EOF")] ∧
    LiteralsFit tokens := by
  have hsource : "0x80000000\t1.e5\t'ü'\ttrue\t".toList = spelled mixedLiterals := by decide
  obtain ⟨tokens, hscan, hvalues⟩ := scan_spelled mixedLiterals .origin
  have htokens : tokenize "0x80000000\t1.e5\t'ü'\ttrue\t" = .ok tokens := by
    rw [tokenize, hsource, hscan]
  exact ⟨tokens, htokens, hvalues, tokenize_literals_fit htokens⟩

end Pulse

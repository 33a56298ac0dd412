/-
Shortest decimals read back.

The reals that round to a positive number form an interval. Seen from all numbers together, these
intervals lie side by side: the upper end of one is the lower end of the next, and since ends belong
to the interval of an even significand only, no real is in two of them. So a decimal that is in the
interval of a number belongs to no other number.

The search for a shortest decimal always finds one. On the grid of seventeen digits, the distance to
the nearer of the two neighbours is below the distance to either end of the interval.
-/
import Mathlib.Algebra.Order.Field.Power
import Mathlib.Data.Nat.Cast.Order.Field
import Mathlib.Data.Rat.Cast.Order
import Mathlib.Tactic.FieldSimp
import Mathlib.Tactic.Linarith
import Mathlib.Tactic.NormNum
import Mathlib.Tactic.Positivity
import Mathlib.Tactic.Ring
import Pulse.Number.Shortest

set_option autoImplicit false

namespace Pulse.Number

/-- The value of a decimal numeral. -/
def Decimal.value (d : Decimal) : ℚ := d.digits * (10 : ℚ) ^ d.exponent

namespace Binary64

/-! ## Intervals -/

/-- A quarter of the last place. -/
def quarter (x : Binary64) : ℚ := (2 : ℚ) ^ (x.scale - 2)

/-- The value of a positive number. -/
def exact (x : Binary64) : ℚ := x.quarters * x.quarter

def lower (x : Binary64) : ℚ := x.lowerEnd * x.quarter

def upper (x : Binary64) : ℚ := x.upperEnd * x.quarter

/-- A rational rounds to a number. -/
def Rounds (x : Binary64) (v : ℚ) : Prop :=
  if x.significand % 2 = 0 then x.lower ≤ v ∧ v ≤ x.upper else x.lower < v ∧ v < x.upper

variable {x y : Binary64} {v : ℚ}

/-- A quarter of the last place is positive. -/
theorem quarter_pos (x : Binary64) : 0 < x.quarter := by
  unfold quarter
  positivity

/-- What rounds to a number is between the ends of its interval, or one of them. -/
theorem Rounds.le (h : x.Rounds v) : x.lower ≤ v ∧ v ≤ x.upper := by
  unfold Rounds at h
  split at h
  · exact h
  · exact ⟨h.1.le, h.2.le⟩

/-- What is inside of the interval rounds to the number, whatever the parity. -/
theorem rounds_of_lt (hlower : x.lower < v) (hupper : v < x.upper) : x.Rounds v := by
  unfold Rounds
  split
  · exact ⟨hlower.le, hupper.le⟩
  · exact ⟨hlower, hupper⟩

/-- A power with a natural exponent, from one with an integral exponent and its opposite. -/
theorem pow_toNat_eq {b : ℚ} (hb : b ≠ 0) (n : ℤ) : b ^ n.toNat = b ^ n * b ^ (-n).toNat := by
  rcases Int.eq_nat_or_neg n with ⟨k, rfl | rfl⟩
  · simp
  · simp [hb]

/-- The common unit of a decimal grid and the quarters of a number: points of the grid and quarters
are whole multiples of it. -/
theorem exists_commonUnit (x : Binary64) (g : ℤ) : ∃ (a b : ℕ) (u : ℚ), x.commonUnit g = (a, b) ∧
    0 < u ∧ 0 < a ∧ (∀ c : ℕ, ((c * a : ℕ) : ℚ) = Decimal.value ⟨c, g⟩ * u) ∧
      ∀ n : ℕ, ((n * b : ℕ) : ℚ) = n * x.quarter * u := by
  refine ⟨_, _, (10 : ℚ) ^ (-g).toNat * (2 : ℚ) ^ (-(x.scale - 2)).toNat, rfl, ?_, ?_, ?_, ?_⟩
  · positivity
  · rw [Nat.pow_eq, Nat.pow_eq]
    positivity
  · intro c
    simp only [Nat.pow_eq, Nat.cast_mul, Nat.cast_pow, Nat.cast_ofNat, Decimal.value]
    rw [pow_toNat_eq (by norm_num) g]
    ring
  · intro n
    simp only [Nat.pow_eq, Nat.cast_mul, Nat.cast_pow, Nat.cast_ofNat, quarter]
    rw [pow_toNat_eq (by norm_num) (x.scale - 2)]
    ring

/-- What is tested in the search is whether a decimal rounds to the number. -/
theorem covers_iff {c : ℕ} {g : ℤ} : x.covers c g = true ↔ x.Rounds (Decimal.value ⟨c, g⟩) := by
  obtain ⟨a, b, u, hunit, hu, -, hvalue, hend⟩ := x.exists_commonUnit g
  rw [covers, hunit, Rounds]
  dsimp only
  split
  · simp only [Bool.and_eq_true, decide_eq_true_eq, ← Nat.cast_le (α := ℚ), hend, hvalue,
      mul_le_mul_iff_left₀ hu, lower, upper]
  · simp only [Bool.and_eq_true, decide_eq_true_eq, ← Nat.cast_lt (α := ℚ), hend, hvalue,
      mul_lt_mul_iff_left₀ hu, lower, upper]

/-! ## Intervals side by side -/

/-- The power as a numeral, which arithmetic can use. -/
theorem pow_two_52 : Nat.pow 2 52 = 4503599627370496 := rfl

/-- The significand that belongs to magnitude bits. -/
def significandAt (m : ℕ) : ℕ :=
  m % Nat.pow 2 52 + if m / Nat.pow 2 52 = 0 then 0 else Nat.pow 2 52

/-- The quarter of the last place that belongs to them. -/
def quarterAt (m : ℕ) : ℚ := (2 : ℚ) ^ ((max (m / Nat.pow 2 52 : ℕ) 1 : ℤ) - 1075 - 2)

/-- Halfway from the number with given magnitude bits to the next one. -/
def halfway (m : ℕ) : ℚ := (4 * significandAt m + 2 : ℕ) * quarterAt m

/-- The upper end of an interval is halfway to the next number. -/
theorem upper_eq (x : Binary64) : x.upper = halfway x.magnitude := rfl

/-- The next number has the next significand, or it is a power of two with places twice as wide.
Only at a power of two the distance to the number before is half of that to the next one. -/
theorem succ_cases (m : ℕ) :
    (¬ ((m + 1) % Nat.pow 2 52 = 0 ∧ 1 < (m + 1) / Nat.pow 2 52) ∧
        significandAt (m + 1) = significandAt m + 1 ∧ quarterAt (m + 1) = quarterAt m) ∨
      ((m + 1) % Nat.pow 2 52 = 0 ∧ 1 < (m + 1) / Nat.pow 2 52 ∧
        significandAt m + 1 = 2 * Nat.pow 2 52 ∧ significandAt (m + 1) = Nat.pow 2 52 ∧
          quarterAt (m + 1) = 2 * quarterAt m) := by
  rw [significandAt, significandAt, quarterAt, quarterAt, pow_two_52]
  by_cases hpower : (m + 1) % 4503599627370496 = 0 ∧ 1 < (m + 1) / 4503599627370496
  · right
    obtain ⟨hmod, hdiv⟩ := hpower
    have hm : m % 4503599627370496 = 4503599627370495 := by omega
    have he : (m + 1) / 4503599627370496 = m / 4503599627370496 + 1 := by omega
    refine ⟨hmod, hdiv, ?_, ?_, ?_⟩
    · rw [if_neg (by omega)]
      omega
    · rw [if_neg (by omega)]
      omega
    · rw [he, ← zpow_one_add₀ (by norm_num)]
      congr 1
      omega
  · left
    refine ⟨hpower, ?_, ?_⟩
    · split <;> split <;> omega
    · congr 1
      omega

/-- The ends of intervals grow with the numbers. From one number to the next, the significand grows
by one, or the exponent does. -/
theorem halfway_strictMono : StrictMono halfway := by
  refine strictMono_nat_of_lt_succ fun m => ?_
  have hpos : 0 < quarterAt m := by
    unfold quarterAt
    positivity
  -- The places stay as wide as they are, or the significand is full and they get twice as wide.
  rcases succ_cases m with ⟨-, hs, hq⟩ | ⟨-, -, hs, hs', hq⟩
  · rw [halfway, halfway, hs, hq]
    push_cast
    linarith
  · rw [pow_two_52] at hs hs'
    rw [halfway, halfway, show significandAt m = 9007199254740991 by omega, hs', hq]
    push_cast
    linarith

/-- The lower end of the interval of a number is the upper end of the one before. At a power of two
the number before is half as far away as the next one, and there the lower end is nearer, too. -/
theorem lower_eq {m : ℕ} (h : x.magnitude = m + 1) : x.lower = halfway m := by
  have hsignificand : x.significand = significandAt (m + 1) := by
    rw [← h]
    rfl
  have hquarter : x.quarter = quarterAt (m + 1) := by
    rw [← h]
    rfl
  rw [lower, lowerEnd, exponentField, h, quarters, hsignificand, hquarter, halfway]
  rcases succ_cases m with ⟨hpower, hs, hq⟩ | ⟨hmod, hdiv, hs, hs', hq⟩
  · rw [if_neg hpower, hs, hq,
      show 4 * (significandAt m + 1) - 2 = 4 * significandAt m + 2 by omega]
  · rw [if_pos ⟨hmod, hdiv⟩]
    rw [pow_two_52] at hs hs'
    rw [show significandAt m = 9007199254740991 by omega, hs', hq]
    push_cast
    ring

/-- The significand is even if and only if the bits are. -/
theorem significand_mod_two (x : Binary64) : x.significand % 2 = x.magnitude % 2 := by
  rw [significand, pow_two_52]
  split <;> omega

/-- **No rational rounds to two positive numbers.** Between neighbours there is one point halfway,
and it goes to the one with the even significand. -/
theorem Rounds.magnitude_le (hx : x.Rounds v) (hy : y.Rounds v) (hpos : 0 < y.magnitude) :
    y.magnitude ≤ x.magnitude := by
  by_contra hlt
  obtain ⟨m, hm⟩ : ∃ m, y.magnitude = m + 1 := ⟨y.magnitude - 1, by omega⟩
  have hmono : halfway x.magnitude ≤ halfway m := halfway_strictMono.monotone (by omega)
  have hlower := hy.le.1
  have hupper := hx.le.2
  rw [lower_eq hm] at hlower
  rw [upper_eq] at hupper
  -- The rational is the end that two neighbours share, and one of them is odd.
  obtain rfl : x.magnitude = m := halfway_strictMono.injective (by linarith)
  have hodd : x.significand % 2 ≠ 0 ∨ y.significand % 2 ≠ 0 := by
    rw [significand_mod_two, significand_mod_two, hm]
    omega
  rcases hodd with hodd | hodd
  · rw [Rounds, if_neg hodd, upper_eq] at hx
    linarith [hx.2]
  · rw [Rounds, if_neg hodd, lower_eq hm] at hy
    linarith [hy.1]

/-! ## The search finds a decimal -/

/-- A positive number has a positive significand. -/
theorem significand_pos (h : 0 < x.magnitude) : 0 < x.significand := by
  rw [significand, exponentField, pow_two_52]
  split <;> omega

/-- A significand has 53 bits. -/
theorem significand_lt (x : Binary64) : x.significand < 9007199254740992 := by
  rw [significand, exponentField, pow_two_52]
  split <;> omega

/-- A number has as many digits as it is counted to have, and no fewer. -/
theorem pow_digitCount_le {n : ℕ} (h : 0 < n) : 10 ^ (digitCount n - 1) ≤ n := by
  by_contra hlt
  have hcount : 0 < digitCount n := Nat.length_toDigits_pos
  by_cases hone : digitCount n = 1
  · rw [hone] at hlt
    omega
  · have hle := (Nat.length_toDigits_le_iff (by norm_num) (by omega)).mpr (not_le.mp hlt)
    rw [← digitCount] at hle
    omega

/-- The value of a number is its significand times a power of two. -/
theorem exact_eq (x : Binary64) : x.exact = x.significand * (2 : ℚ) ^ x.scale := by
  rw [exact, quarter, quarters, zpow_sub₀ (by norm_num)]
  push_cast
  ring

/-- The digits of the integer part of a number times a power of ten, if there is one. This bounds
the number by a power of ten from below, with the digits of an integer for its size. -/
theorem pow_digitCount_sub_le {k n : ℕ} (hk : 1074 ≤ 3 * k) (h : 0 < x.magnitude)
    (hn : n = x.significand * Nat.pow 2 x.scale.toNat * Nat.pow 10 k /
      Nat.pow 2 (-x.scale).toNat) :
    (10 : ℚ) ^ ((digitCount n : ℤ) - k - 1) ≤ x.exact := by
  rw [Nat.pow_eq, Nat.pow_eq, Nat.pow_eq] at hn
  have hpos : 0 < n := by
    have hscale : (-x.scale).toNat ≤ 3 * k := by
      rw [scale]
      omega
    rw [hn]
    refine Nat.div_pos ?_ (by positivity)
    calc 2 ^ (-x.scale).toNat ≤ 2 ^ (3 * k) := Nat.pow_le_pow_right (by norm_num) hscale
      _ = (2 ^ 3) ^ k := Nat.pow_mul 2 3 k
      _ ≤ 10 ^ k := Nat.pow_le_pow_left (by norm_num) k
      _ ≤ x.significand * 2 ^ x.scale.toNat * 10 ^ k :=
        Nat.le_mul_of_pos_left _ (Nat.mul_pos (significand_pos h) (by positivity))
  have hle : (n : ℚ) ≤ x.exact * 10 ^ k := by
    rw [hn]
    refine Nat.cast_div_le.trans (le_of_eq ?_)
    rw [exact_eq]
    push_cast
    rw [pow_toNat_eq (by norm_num) x.scale]
    field_simp
  have hdigits : ((10 ^ (digitCount n - 1) : ℕ) : ℚ) ≤ n := by exact_mod_cast pow_digitCount_le hpos
  have hcount : 0 < digitCount n := Nat.length_toDigits_pos
  have hexponent : (digitCount n : ℤ) - k - 1 = ((digitCount n - 1 : ℕ) : ℤ) - (k : ℕ) := by omega
  rw [hexponent, zpow_sub₀ (by norm_num), zpow_natCast, zpow_natCast, div_le_iff₀ (by positivity)]
  push_cast at hdigits
  exact hdigits.trans hle

/-- The place that the search starts from is not above the first digit of the number. -/
theorem pow_decimalSize_le (h : 0 < x.magnitude) : (10 : ℚ) ^ (x.decimalSize - 1) ≤ x.exact := by
  unfold decimalSize
  generalize hk : (400 : ℕ) = k
  have hcast : (400 : ℤ) = k := by
    rw [← hk]
    rfl
  rw [hcast]
  exact pow_digitCount_sub_le (by omega) h rfl

/-- **Seventeen digits suffice.** On such a grid, half of the distance between neighbours is less
than the distance from the number to either end of its interval. -/
theorem half_spacing_lt {g : ℤ} (hg : (10 : ℚ) ^ g * 10 ^ 16 ≤ x.exact) (h : 0 < x.magnitude) :
    (10 : ℚ) ^ g / 2 < x.upper - x.exact ∧ (10 : ℚ) ^ g / 2 < x.exact - x.lower := by
  have hpos := quarter_pos x
  have hlt : (x.significand : ℚ) < 9007199254740992 := by exact_mod_cast significand_lt x
  have hsig := significand_pos h
  rw [exact, quarters] at hg ⊢
  push_cast at hg ⊢
  constructor
  · rw [upper, upperEnd, quarters]
    push_cast
    nlinarith
  · rw [lower, lowerEnd, quarters]
    split
    · rename_i hpower
      have hs : x.significand = 4503599627370496 := by
        rw [significand, if_neg (by omega), hpower.1, pow_two_52]
      rw [hs] at hg ⊢
      push_cast at hg ⊢
      nlinarith
    · rw [Nat.cast_sub (by omega)]
      push_cast
      nlinarith

/-- What is found on a grid rounds to the number. Either neighbour on the grid is tested before it
is taken. -/
theorem rounds_of_onGrid? {g : ℤ} {c : ℕ} (h : x.onGrid? g = some c) :
    x.Rounds (Decimal.value ⟨c, g⟩) := by
  rw [← covers_iff]
  unfold onGrid? at h
  split at h
  rename_i a b _
  dsimp only at h
  split at h
  · rename_i hbelow habove
    split at h <;> cases h
    · exact hbelow
    · exact habove
  · rename_i hbelow _
    cases h
    exact hbelow
  · rename_i _ habove
    cases h
    exact habove
  · cases h

/-- On a grid as fine as that something is found. Half of a step of the grid is less than half of
the distance to the next number, so the nearer neighbour rounds to the number. -/
theorem exists_onGrid? {g : ℤ} (hg : (10 : ℚ) ^ g * 10 ^ 16 ≤ x.exact) (h : 0 < x.magnitude) :
    ∃ c, x.onGrid? g = some c := by
  obtain ⟨hupper, hlower⟩ := half_spacing_lt hg h
  obtain ⟨a, b, u, hunit, hu, hapos, hvalue, hend⟩ := x.exists_commonUnit g
  have hexact : ((x.quarters * b : ℕ) : ℚ) = x.exact * u := hend x.quarters
  -- The number lies between two neighbours on the grid, of which this is the lower one.
  obtain ⟨c, hc⟩ : ∃ c, c = x.quarters * b / a := ⟨_, rfl⟩
  have hbelow : Decimal.value ⟨c, g⟩ ≤ x.exact := by
    have hle : c * a ≤ x.quarters * b := hc ▸ Nat.div_mul_le_self _ _
    rw [← Nat.cast_le (α := ℚ), hvalue, hexact, mul_le_mul_iff_left₀ hu] at hle
    exact hle
  have habove : x.exact < Decimal.value ⟨c + 1, g⟩ := by
    have hlt : x.quarters * b < (c + 1) * a := by
      rw [hc, Nat.mul_comm (_ + 1)]
      exact Nat.lt_mul_div_succ _ hapos
    rw [← Nat.cast_lt (α := ℚ), hvalue, hexact, mul_lt_mul_iff_left₀ hu] at hlt
    exact hlt
  have hstep : Decimal.value ⟨c + 1, g⟩ = Decimal.value ⟨c, g⟩ + (10 : ℚ) ^ g := by
    rw [Decimal.value, Decimal.value]
    push_cast
    ring
  -- The nearer of the two neighbours is at most half a step away.
  have hcovers : x.covers c g = true ∨ x.covers (c + 1) g = true := by
    rw [covers_iff, covers_iff]
    by_cases hnear : x.exact - Decimal.value ⟨c, g⟩ ≤ (10 : ℚ) ^ g / 2
    · exact .inl (rounds_of_lt (by linarith) (by linarith))
    · exact .inr (rounds_of_lt (by linarith) (by linarith))
  rw [onGrid?, hunit]
  dsimp only
  rw [← hc]
  split
  · split
    · exact ⟨c, rfl⟩
    · exact ⟨c + 1, rfl⟩
  · exact ⟨c, rfl⟩
  · exact ⟨c + 1, rfl⟩
  · rename_i hno hno'
    rw [hno, hno'] at hcovers
    simp at hcovers

/-- Zeros at the end of the digits move to the exponent, and the value stays. By induction on how
many zeros are tried. -/
theorem value_stripZeros (n : ℕ) (d : Decimal) : (stripZeros n d).value = d.value := by
  induction n generalizing d with
  | zero => rfl
  | succ n ih =>
    rw [stripZeros]
    split
    · rename_i hzero
      rw [ih, Decimal.value, Decimal.value, zpow_add_one₀ (by norm_num)]
      -- The last digit is zero, so the division by ten is exact.
      have hdigits : (d.digits : ℚ) = 10 * (d.digits / 10 : ℕ) := by
        have := Nat.div_add_mod d.digits 10
        exact_mod_cast (by omega : d.digits = 10 * (d.digits / 10))
      dsimp only
      rw [hdigits]
      ring
    · rfl

/-- **The shortest decimal of a number rounds to it.** Grids are tried from the coarsest one on. The
last of the 17 is fine enough for every number, so the search succeeds. -/
theorem rounds_shortest (h : 0 < x.magnitude) : x.Rounds x.shortest.value := by
  have hgrid : (10 : ℚ) ^ (x.decimalSize - (16 + 1 : ℕ)) * 10 ^ 16 ≤ x.exact := by
    refine le_trans (le_of_eq ?_) (pow_decimalSize_le h)
    rw [← zpow_natCast (10 : ℚ) 16, ← zpow_add₀ (by norm_num)]
    congr 1
    push_cast
    ring
  obtain ⟨c, hc⟩ := exists_onGrid? hgrid h
  rw [shortest, value_stripZeros]
  cases hhit : (List.range 17).findSome? fun n =>
      (x.onGrid? (x.decimalSize - (n + 1 : ℕ))).map fun c =>
        Decimal.mk c (x.decimalSize - (n + 1 : ℕ)) with
  | none =>
    have hnone := List.findSome?_eq_none_iff.mp hhit 16 (by decide)
    rw [hc] at hnone
    cases hnone
  | some d =>
    obtain ⟨n, -, hn⟩ := List.exists_of_findSome?_eq_some hhit
    obtain ⟨c, hc, rfl⟩ := Option.map_eq_some_iff.mp hn
    exact rounds_of_onGrid? hc

end Binary64

end Pulse.Number

import EncryptedArithmetic.Decimal.Shortest
import EncryptedArithmetic.Proofs.Decimal.Scientific
import Mathlib.Algebra.Order.Floor.Semifield
import Mathlib.Data.Nat.Cast.Order.Field

/-!
# The shortest decimal reads back

The decimals that are rounded to a float lie between the two numbers half way to its neighbours. The
search for a short decimal tests that in integers. It is shown to find a decimal in this interval
before its grids run out, since the seventeenth digit is worth less than half of a unit in the last
place.

## Main definitions

* `Digits.value`: the number that digits stand for.
* `Encloses`: a number lies in the rounding interval of a float.

## Main results

* `nearest_eq_of_encloses`: what lies in the interval is rounded to the float.
* `roundsTo_iff`: the test in integers decides whether a decimal lies in the interval.
* `nearest_shortest`: the shortest decimal is rounded to the number that it was found for.
-/

namespace EncryptedArithmetic

namespace Digits

/-- The number. -/
def value (d : Digits) : ℚ :=
  d.coefficient * 10 ^ d.exponent

@[simp]
theorem value_strip (fuel : ℕ) (d : Digits) : (strip fuel d).value = d.value := by
  induction fuel generalizing d with
  | zero => rfl
  | succ fuel ih =>
    rw [strip]
    split
    · rename_i hzero
      have hcoefficient : (d.coefficient : ℚ) = (d.coefficient / 10 : ℕ) * 10 := by
        exact_mod_cast (Nat.div_mul_cancel (Nat.dvd_of_mod_eq_zero hzero.1)).symm
      rw [ih, value, value, hcoefficient, zpow_add_one₀ (by norm_num)]
      ring
    · rfl

end Digits

namespace Binary64

/-! ## The rounding interval -/

/-- The number half way to the float below. The floats below a power of two are twice as close. -/
def low (b : Binary64) : ℚ :=
  (4 * b.significand - (if b.significand = 1 <<< 52 ∧ -1074 < b.exponent then 1 else 2) : ℕ) *
    2 ^ (b.exponent - 2)

/-- The number half way to the float above. -/
def high (b : Binary64) : ℚ :=
  (4 * b.significand + 2 : ℕ) * 2 ^ (b.exponent - 2)

/-- The number lies in the rounding interval, to which the ends belong if the significand is even.
-/
structure Encloses (b : Binary64) (v : ℚ) : Prop where
  low_le : b.low ≤ v
  le_high : v ≤ b.high
  even : v = b.low ∨ v = b.high → Even b.significand

/-- An integer is the nearest one to what is less than one half away, or is one half away from an
even integer. -/
theorem roundEven_eq {x : ℚ} {n : ℤ} (hle : |x - n| ≤ 1 / 2) (heven : |x - n| = 1 / 2 → Even n) :
    roundEven x = n := by
  obtain ⟨hlower, hupper⟩ := abs_le.1 hle
  -- From below the floor is the integer in front of `n`, and a tie goes up as that one is odd.
  rcases le_or_gt (n : ℚ) x with hn | hn
  · have hfloor : ⌊x⌋ = n := Int.floor_eq_iff.2 ⟨hn, by linarith⟩
    have hfract : Int.fract x = x - n := by rw [← Int.self_sub_floor, hfloor]
    rw [roundEven, hfract, hfloor, if_pos]
    rcases hupper.lt_or_eq with hlt | heq
    · exact Or.inl hlt
    · exact Or.inr ⟨heq, heven (by rw [heq]; norm_num)⟩
  · have hfloor : ⌊x⌋ = n - 1 := by
      rw [Int.floor_eq_iff]
      push_cast
      constructor <;> linarith
    have hfract : Int.fract x = x - n + 1 := by
      rw [← Int.self_sub_floor, hfloor]
      push_cast
      ring
    rw [roundEven, hfract, hfloor, if_neg, sub_add_cancel]
    rintro (hlt | ⟨heq, hodd⟩)
    · linarith
    · have hhalf : |x - n| = 1 / 2 := by
        rw [abs_of_neg (by linarith)]
        linarith
      exact (Int.even_sub_one.1 hodd) (heven hhalf)

theorem unitExponent_eq {v : ℚ} {u : ℤ} (hv : 0 < v) (hu : -1074 ≤ u) (hlt : v < 2 ^ 53 * 2 ^ u)
    (hfull : u = -1074 ∨ 2 ^ 52 * 2 ^ u ≤ v) : unitExponent v = u := by
  have hpower (k : ℕ) : (2 : ℚ) ^ k * 2 ^ u = ((2 : ℕ) : ℚ) ^ ((k : ℤ) + u) := by
    rw [zpow_add₀ (by norm_num), zpow_natCast, Nat.cast_ofNat]
  rw [hpower 53, Int.lt_zpow_iff_log_lt one_lt_two hv] at hlt
  rw [hpower 52, Int.zpow_le_iff_le_log one_lt_two hv] at hfull
  rw [unitExponent]
  omega

section Interval

variable {b : Binary64} {v : ℚ}

theorem low_eq (h : Canonical b.significand b.exponent) :
    b.low = (4 * b.significand -
      if b.significand = 2 ^ 52 ∧ -1074 < b.exponent then 1 else 2 : ℚ) * 2 ^ (b.exponent - 2) := by
  have hpos := h.pos
  rw [low, Nat.cast_sub (by split <;> omega)]
  push_cast
  rfl

theorem high_eq : b.high = (4 * b.significand + 2 : ℚ) * 2 ^ (b.exponent - 2) := by
  rw [high]
  push_cast
  rfl

/-- Four quarters make a unit. -/
theorem two_zpow_eq_four_mul (u : ℤ) : (2 : ℚ) ^ u = 4 * 2 ^ (u - 2) := by
  rw [zpow_sub₀ two_ne_zero]
  norm_num
  ring

/-- A number that is given in quarters of its last bit is rounded to a multiple of this bit. -/
theorem nearest_quarters {x : ℚ} {m : ℕ} {u : ℤ} (hu : -1074 ≤ u) (hpos : 0 < x) (hlt : x < 2 ^ 55)
    (hfull : u = -1074 ∨ 2 ^ 54 ≤ x) (hle : |x - 4 * m| ≤ 2) (heven : |x - 4 * m| = 2 → Even m) :
    nearest (x * 2 ^ (u - 2)) = m * 2 ^ u := by
  have hunit := two_zpow_eq_four_mul u
  have hquarter : (0 : ℚ) < 2 ^ (u - 2) := by positivity
  -- In quarters of the unit the value is between `2 ^ 54` and `2 ^ 55`, which is the unit's octave.
  have hexponent : unitExponent (x * 2 ^ (u - 2)) = u := by
    refine unitExponent_eq (mul_pos hpos hquarter) hu ?_ (hfull.imp_right fun hfull => ?_)
    · rw [hunit, ← mul_assoc]
      exact mul_lt_mul_of_pos_right (by linarith) hquarter
    · rw [hunit, ← mul_assoc]
      exact mul_le_mul_of_nonneg_right (by linarith) hquarter.le
  have hquotient : x * 2 ^ (u - 2) / 2 ^ u = x / 4 := by
    rw [hunit]
    field_simp
  have hdistance : |x / 4 - (m : ℤ)| = |x - 4 * m| / 4 := by
    rw [show x / 4 - (m : ℤ) = (x - 4 * m) / 4 by push_cast; ring, abs_div]
    norm_num
  rw [nearest, hexponent, hquotient, roundEven_eq (n := m), Int.cast_natCast]
  · rw [hdistance]
    linarith
  · intro hhalf
    rw [hdistance] at hhalf
    exact_mod_cast heven (by linarith)

/-- Just below a power of two the last bit is half as large. -/
theorem nearest_quarters_below {x : ℚ} {m : ℕ} {u : ℤ} (hu : -1074 < u) (hm : m = 2 ^ 52)
    (hle : 4 * m - 1 ≤ x) (hlt : x < 4 * m) : nearest (x * 2 ^ (u - 2)) = m * 2 ^ u := by
  have hm' : (m : ℚ) = 2 ^ 52 := by exact_mod_cast hm
  have hdistance : |2 * x - 4 * ((2 * m : ℕ) : ℚ)| ≤ 2 := by
    push_cast
    rw [abs_le]
    constructor <;> linarith
  -- Below a power of two the unit is half as large, so the value counts twice as many quarters.
  have hnearest := nearest_quarters (x := 2 * x) (m := 2 * m) (u := u - 1) (by omega)
    (by linarith) (by linarith) (Or.inr (by linarith)) hdistance (fun _ => even_two_mul m)
  have hhalf (k : ℤ) : (2 : ℚ) ^ (k - 1) = 2 ^ k / 2 := zpow_sub_one₀ two_ne_zero k
  rw [show u - 1 - 2 = u - 2 - 1 by ring, hhalf, hhalf] at hnearest
  calc nearest (x * 2 ^ (u - 2)) = nearest (2 * x * (2 ^ (u - 2) / 2)) := by
        congr 1
        ring
    _ = (2 * m : ℕ) * (2 ^ u / 2) := hnearest
    _ = m * 2 ^ u := by
        push_cast
        ring

/-- Elsewhere half a unit on either side is rounded to the number, its ends only if it is even. -/
theorem nearest_quarters_of_canonical {x : ℚ} {m : ℕ} {u : ℤ} (h : Canonical m u)
    (hlow : 4 * m - 2 ≤ x) (hhigh : x ≤ 4 * m + 2)
    (hbelow : m = 2 ^ 52 → -1074 < u → 4 * m ≤ x)
    (heven : x = 4 * m - 2 ∨ x = 4 * m + 2 → Even m) :
    nearest (x * 2 ^ (u - 2)) = m * 2 ^ u := by
  obtain ⟨hpos, hlt, hleast, hfull⟩ := h
  have hone : (1 : ℚ) ≤ m := by exact_mod_cast hpos
  have hlarge : (m : ℚ) + 1 ≤ 2 ^ 53 := by exact_mod_cast hlt
  -- A full significand that is not the least one leaves room for the interval.
  have hroom : u = -1074 ∨ 2 ^ 54 ≤ x := by
    by_cases hu : u = -1074
    · exact Or.inl hu
    rcases (hfull.resolve_right hu).lt_or_eq with hgt | hm
    · have hgt' : (2 : ℚ) ^ 52 + 1 ≤ m := by exact_mod_cast hgt
      exact Or.inr (by linarith)
    · have hx := hbelow hm.symm (by omega)
      have hm' : (m : ℚ) = 2 ^ 52 := by exact_mod_cast hm.symm
      exact Or.inr (by linarith)
  refine nearest_quarters hleast (by linarith) (by linarith) hroom ?_ ?_
  · rw [abs_le]
    constructor <;> linarith
  · intro habs
    refine heven ?_
    rcases (abs_eq two_pos.le).1 habs with heq | heq
    · exact Or.inr (by linarith)
    · exact Or.inl (by linarith)

/-- What lies in the rounding interval of a canonical number is rounded to this number. -/
theorem nearest_eq_of_encloses (h : Canonical b.significand b.exponent) (hv : b.Encloses v) :
    nearest v = b.significand * 2 ^ b.exponent := by
  obtain ⟨hlow, hhigh, heven⟩ := hv
  rw [low_eq h] at hlow heven
  rw [high_eq] at hhigh heven
  obtain ⟨negative, m, e⟩ := b
  simp only at hlow hhigh heven h ⊢
  -- In quarters of the unit the ends of the interval are integers.
  have hquarter : (0 : ℚ) < 2 ^ (e - 2) := by positivity
  obtain ⟨x, rfl⟩ : ∃ x, v = x * 2 ^ (e - 2) := ⟨v / 2 ^ (e - 2), by field_simp⟩
  rw [mul_le_mul_iff_left₀ hquarter] at hlow hhigh
  rw [mul_left_inj' hquarter.ne', mul_left_inj' hquarter.ne'] at heven
  -- Only above a power of two does the interval reach as far down as up.
  split_ifs at hlow heven with hpower
  · by_cases hx : x < 4 * m
    · exact nearest_quarters_below hpower.2 hpower.1 hlow hx
    · rw [not_lt] at hx
      exact nearest_quarters_of_canonical h (by linarith) hhigh (fun _ _ => hx)
        fun hend => heven (hend.imp_left fun hend => by linarith)
  · exact nearest_quarters_of_canonical h hlow hhigh
      (fun hm hnormal => absurd ⟨hm, hnormal⟩ hpower) heven

end Interval

/-! ## Tests in integers -/

theorem zpow_mul_pow_toNat {a : ℚ} (ha : a ≠ 0) (k : ℤ) : a ^ k * a ^ (-k).toNat = a ^ k.toNat := by
  rw [← zpow_natCast a (-k).toNat, ← zpow_natCast a k.toNat, ← zpow_add₀ ha]
  congr 1
  omega

/-- The test in integers decides whether a decimal lies in the rounding interval. -/
theorem roundsTo_iff (b : Binary64) (p : ℕ) (k : ℤ) :
    b.roundsTo p k = true ↔ b.Encloses (p * 10 ^ k) := by
  -- Both sides of the comparisons are multiplied by the same number.
  have hscale : (0 : ℚ) < 10 ^ (-k).toNat * 2 ^ (2 - b.exponent).toNat := by positivity
  have hplace : (((p * Nat.pow 10 k.toNat) <<< (2 - b.exponent).toNat : ℕ) : ℚ) =
      p * 10 ^ k * (10 ^ (-k).toNat * 2 ^ (2 - b.exponent).toNat) := by
    rw [Nat.shiftLeft_eq, Nat.pow_eq]
    push_cast
    rw [← zpow_mul_pow_toNat (by norm_num) k]
    ring
  have hend (n : ℕ) :
      ((n * (Nat.pow 10 (-k).toNat <<< (b.exponent - 2).toNat) : ℕ) : ℚ) =
        n * 2 ^ (b.exponent - 2) * (10 ^ (-k).toNat * 2 ^ (2 - b.exponent).toNat) := by
    rw [Nat.shiftLeft_eq, Nat.pow_eq]
    push_cast
    rw [← zpow_mul_pow_toNat two_ne_zero (b.exponent - 2), neg_sub]
    ring
  have hle (n : ℕ) : n * (Nat.pow 10 (-k).toNat <<< (b.exponent - 2).toNat) ≤
      (p * Nat.pow 10 k.toNat) <<< (2 - b.exponent).toNat ↔
        n * 2 ^ (b.exponent - 2) ≤ (p : ℚ) * 10 ^ k := by
    rw [← Nat.cast_le (α := ℚ), hplace, hend, mul_le_mul_iff_left₀ hscale]
  have hge (n : ℕ) : (p * Nat.pow 10 k.toNat) <<< (2 - b.exponent).toNat ≤
      n * (Nat.pow 10 (-k).toNat <<< (b.exponent - 2).toNat) ↔
        (p : ℚ) * 10 ^ k ≤ n * 2 ^ (b.exponent - 2) := by
    rw [← Nat.cast_le (α := ℚ), hplace, hend, mul_le_mul_iff_left₀ hscale]
  rw [roundsTo]
  split
  · rename_i heven
    rw [Bool.and_eq_true, decide_eq_true_iff, decide_eq_true_iff, hle, hge]
    exact ⟨fun h => ⟨h.1, h.2, fun _ => Nat.even_iff.2 heven⟩, fun h => ⟨h.low_le, h.le_high⟩⟩
  · rename_i hodd
    rw [Bool.and_eq_true, decide_eq_true_iff, decide_eq_true_iff,
      lt_iff_lt_of_le_iff_le (hge _), lt_iff_lt_of_le_iff_le (hle _)]
    constructor
    · rintro ⟨hlow, hhigh⟩
      exact ⟨hlow.le, hhigh.le, fun h => absurd h (not_or.2 ⟨hlow.ne', hhigh.ne⟩)⟩
    · intro h
      have hends := mt h.even fun heven => hodd (Nat.even_iff.1 heven)
      exact ⟨h.low_le.lt_of_ne fun heq => hends (Or.inl heq.symm),
        h.le_high.lt_of_ne fun heq => hends (Or.inr heq)⟩

/-! ## Grids -/

section Grids

variable {b : Binary64} {tie : Tie} {k : ℤ} {d : Digits}

/-- What a grid answers lies in the rounding interval. -/
theorem encloses_of_onGrid? (h : b.onGrid? tie k = some d) : b.Encloses d.value := by
  rw [onGrid?] at h
  split at h
  · rename_i hdown hup
    obtain rfl := Option.some.inj h
    rw [roundsTo_iff] at hdown hup
    dsimp only [Digits.value]
    split
    · exact hup
    · exact hdown
  · rename_i hdown _
    obtain rfl := Option.some.inj h
    exact (roundsTo_iff _ _ _).1 hdown
  · rename_i _ hup
    obtain rfl := Option.some.inj h
    exact (roundsTo_iff _ _ _).1 hup
  · cases h

/-- The point of a grid below the number, which the grid finds by a division of integers. -/
theorem down_eq_floor (b : Binary64) (k : ℤ) :
    b.numerator * Nat.pow 10 (-k).toNat / (b.denominator * Nat.pow 10 k.toNat) =
      ⌊(b.significand * 2 ^ b.exponent / 10 ^ k : ℚ)⌋₊ := by
  have hdenominator : (b.denominator : ℚ) ≠ 0 := by exact_mod_cast b.denominator_pos.ne'
  rw [← Nat.floor_div_eq_div (K := ℚ), ← numerator_div_denominator, Nat.pow_eq, Nat.pow_eq]
  congr 1
  push_cast
  rw [← zpow_mul_pow_toNat (by norm_num : (10 : ℚ) ≠ 0) k]
  field_simp

/-- On a grid that is finer than half of the unit, the point above the number lies in the interval.
-/
theorem encloses_up (h : Canonical b.significand b.exponent)
    (hk : (10 : ℚ) ^ k < 2 ^ (b.exponent - 1)) :
    b.Encloses ((⌊(b.significand * 2 ^ b.exponent / 10 ^ k : ℚ)⌋₊ + 1 : ℕ) * 10 ^ k) := by
  set q : ℚ := b.significand * 2 ^ b.exponent / 10 ^ k with hq
  have hquarter : (0 : ℚ) < 2 ^ (b.exponent - 2) := by positivity
  have htwo : (2 : ℚ) ^ (b.exponent - 1) = 2 * 2 ^ (b.exponent - 2) := by
    rw [← zpow_one_add₀ two_ne_zero]
    congr 1
    ring
  have hvalue : q * 10 ^ k = 4 * b.significand * 2 ^ (b.exponent - 2) := by
    rw [hq, two_zpow_eq_four_mul b.exponent, div_mul_cancel₀ _ (by positivity)]
    ring
  have habove : q * 10 ^ k < (⌊q⌋₊ + 1 : ℕ) * 10 ^ k := by
    push_cast
    exact mul_lt_mul_of_pos_right (Nat.lt_floor_add_one q) (by positivity)
  have hstep : ((⌊q⌋₊ + 1 : ℕ) : ℚ) * 10 ^ k ≤ (q + 1) * 10 ^ k := by
    push_cast
    have hfloor : (⌊q⌋₊ : ℚ) ≤ q := Nat.floor_le (by positivity)
    gcongr
  have hlow : b.low ≤ 4 * b.significand * 2 ^ (b.exponent - 2) := by
    have hbit : (1 : ℚ) ≤ if b.significand = 2 ^ 52 ∧ -1074 < b.exponent then 1 else 2 := by
      split <;> norm_num
    rw [low_eq h]
    exact mul_le_mul_of_nonneg_right (by linarith) hquarter.le
  have hhigh := high_eq (b := b)
  -- The point is beyond the number and less than a step away from it.
  refine ⟨by linarith, by linarith, fun hends => ?_⟩
  rcases hends with heq | heq <;> linarith

theorem exists_onGrid? (h : Canonical b.significand b.exponent)
    (hk : (10 : ℚ) ^ k < 2 ^ (b.exponent - 1)) : ∃ d, b.onGrid? tie k = some d := by
  have hup := (roundsTo_iff b _ k).2 (encloses_up h hk)
  rw [← down_eq_floor] at hup
  rw [onGrid?]
  simp only [hup]
  split
  · exact ⟨_, rfl⟩
  · exact ⟨_, rfl⟩
  · exact ⟨_, rfl⟩
  · rename_i hnot
    cases hnot

/-- The search answers from the first grid that has a point in the interval. -/
theorem encloses_firstGrid {fuel : ℕ} (h : ∃ j < fuel, ∃ d, b.onGrid? tie (k - j) = some d) :
    b.Encloses (b.firstGrid tie fuel k).value := by
  -- The induction is on the grids left, each ten times as fine as the one before.
  induction fuel generalizing k with
  | zero =>
    obtain ⟨j, hj, -⟩ := h
    omega
  | succ fuel ih =>
    rw [firstGrid]
    split
    · rename_i d hd
      exact encloses_of_onGrid? hd
    · rename_i hnone
      obtain ⟨j, hj, d, hd⟩ := h
      cases j with
      | zero =>
        rw [Nat.cast_zero, sub_zero, hnone] at hd
        cases hd
      | succ j =>
        refine ih ⟨j, by omega, d, ?_⟩
        rw [← hd]
        congr 1
        push_cast
        ring

/-- A fraction is not below the power of ten of its leading digit. -/
theorem ten_zpow_leadingExponent_le {num den : ℕ} (hnum : 0 < num) (hden : 0 < den) :
    (10 : ℚ) ^ leadingExponent num den ≤ num / den := by
  rw [leadingExponent]
  split
  · -- At least one: the digits of the integer part are counted.
    rename_i hle
    have hpos : 0 < num / den := Nat.div_pos hle hden
    have hlength := Nat.length_toDigits_pos (b := 10) (n := num / den)
    rw [show ((Nat.toDigits 10 (num / den)).length : ℤ) - 1 =
      ((Nat.toDigits 10 (num / den)).length - 1 : ℕ) by omega, zpow_natCast]
    calc (10 : ℚ) ^ ((Nat.toDigits 10 (num / den)).length - 1) ≤ (num / den : ℕ) := by
          exact_mod_cast ten_pow_length_le hpos
      _ ≤ num / den := Nat.cast_div_le
  · -- Below one: the digits of the reciprocal, rounded up, are counted.
    set q := (den + num - 1) / num with hq
    set n := (Nat.toDigits 10 (q - 1)).length
    have hdigits : q ≤ 10 ^ n := by
      have hlength : q - 1 < 10 ^ n := lt_ten_pow_length (q - 1)
      omega
    have hceil : den ≤ num * q := by
      have hdiv := Nat.div_add_mod (den + num - 1) num
      have hmod := Nat.mod_lt (den + num - 1) hnum
      rw [← hq] at hdiv
      omega
    have hbound : (den : ℚ) ≤ num * 10 ^ n := by
      exact_mod_cast hceil.trans (Nat.mul_le_mul_left num hdigits)
    rw [zpow_neg, zpow_natCast, le_div_iff₀ (by exact_mod_cast hden),
      inv_mul_le_iff₀ (by positivity)]
    linarith

/-- The shortest decimal is rounded to the number that it was found for. -/
theorem nearest_shortest (h : Canonical b.significand b.exponent) :
    nearest (b.shortest tie).value = b.significand * 2 ^ b.exponent := by
  rw [shortest, if_neg h.pos.ne', Digits.value_strip]
  refine nearest_eq_of_encloses h (encloses_firstGrid ⟨17, by norm_num, exists_onGrid? h ?_⟩)
  have hnumerator : 0 < b.numerator := by
    rw [numerator, Nat.shiftLeft_eq]
    exact Nat.mul_pos h.pos (by positivity)
  have hleading := ten_zpow_leadingExponent_le hnumerator b.denominator_pos
  rw [numerator_div_denominator] at hleading
  -- Seventeen digits tell apart all significands of 53 bits.
  calc (10 : ℚ) ^ (leadingExponent b.numerator b.denominator - (17 : ℕ))
      = 10 ^ leadingExponent b.numerator b.denominator / 10 ^ 17 := by
        rw [zpow_sub₀ (by norm_num), zpow_natCast]
    _ ≤ b.significand * 2 ^ b.exponent / 10 ^ 17 := by gcongr
    _ < 2 ^ 53 * 2 ^ b.exponent / 10 ^ 17 := by
        gcongr
        exact_mod_cast h.lt
    _ = 2 ^ 54 / 10 ^ 17 * 2 ^ (b.exponent - 1) := by
        rw [zpow_sub_one₀ two_ne_zero]
        ring
    _ ≤ 1 * 2 ^ (b.exponent - 1) := by
        gcongr
        norm_num
    _ = 2 ^ (b.exponent - 1) := one_mul _

end Grids

end Binary64

end EncryptedArithmetic

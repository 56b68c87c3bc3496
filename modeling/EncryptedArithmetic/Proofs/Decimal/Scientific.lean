import EncryptedArithmetic.Decimal.Reading
import EncryptedArithmetic.Proofs.Decimal.Arithmetic

/-!
# Decimals read as floats

A decimal is an integer times a power of ten. Small ones are the product or the quotient of two
exact floats, others are computed with significands as long as they need to be, and what is far out
of range is not computed at all. In all these cases the float that is read is the decimal rounded
to nearest.

## Main results

* `denotes_ofScaled`: a decimal that does not overflow is rounded to nearest.
-/

namespace EncryptedArithmetic

open Float.Model (Format UnpackedFloat)
open Float.Model.UnpackedFloat

namespace Binary64

/-! ## Numbers far out of range -/

/-- What is at most half of the least positive float is rounded to zero. -/
theorem nearest_eq_zero {v : ℚ} (hv : 0 ≤ v) (h : v ≤ 2 ^ (-1075 : ℤ)) : nearest v = 0 := by
  have hlog : Int.log 2 ((2 : ℚ) ^ (-1075 : ℤ)) = -1075 := by
    exact_mod_cast Int.log_zpow (R := ℚ) one_lt_two (-1075)
  have hunit : unitExponent (2 ^ (-1075 : ℤ)) = -1074 := by
    rw [unitExponent, hlog]
    rfl
  have hhalf : (2 : ℚ) ^ (-1075 : ℤ) / 2 ^ (-1074 : ℤ) = 1 / 2 := by
    rw [← zpow_sub₀ two_ne_zero]
    norm_num
  have hround : roundEven (1 / 2) = 0 := by
    have hfloor : ⌊(1 / 2 : ℚ)⌋ = 0 := by norm_num
    have hfract : Int.fract (1 / 2 : ℚ) = 1 / 2 := by
      rw [← Int.self_sub_floor, hfloor, Int.cast_zero, sub_zero]
    rw [roundEven, hfloor, if_pos (Or.inr ⟨hfract, Even.zero⟩)]
  -- By monotony the bound is the only case, and there the tie goes to the even side.
  refine le_antisymm ?_ (nearest_nonneg hv)
  calc nearest v ≤ nearest (2 ^ (-1075 : ℤ)) := nearest_mono hv h
    _ = 0 := by rw [nearest, hunit, hhalf, hround, Int.cast_zero, zero_mul]

/-- What is rounded to a number within the range of floats is within that range itself. -/
theorem lt_limit_of_nearest {v : ℚ} (h : nearest v < limit) : v < limit := by
  have hlimit : nearest limit = limit := by
    have hself := nearest_eq_self (m := 1) (e := 1024) (by norm_num) (by norm_num)
    rwa [Nat.cast_one, one_mul, ← limit] at hself
  have hpos : 0 ≤ limit := by
    rw [limit]
    positivity
  by_contra hle
  have hmono := nearest_mono hpos (not_lt.1 hle)
  rw [hlimit] at hmono
  exact hmono.not_gt h

/-! ## Powers of ten -/

/-- The powers of ten that are kept as floats are exact. -/
theorem denotes_powerOfTen {k : ℕ} (hk : k < Float.exactlyRepresentablePowersOfTen.size) :
    Denotes Float.exactlyRepresentablePowersOfTen[k] (10 ^ k) := by
  have hall : ∀ k : Fin 23, ∃ b ∈ ofFloat? Float.exactlyRepresentablePowersOfTen[k],
      b.negative = false ∧ b.numerator = 10 ^ k.val * b.denominator := by
    decide +kernel
  obtain ⟨⟨negative, m, e⟩, hread, rfl, hvalue⟩ := hall ⟨k, hk⟩
  have hscaled : (m : ℚ) * 2 ^ e = 10 ^ k := by
    have hfraction := numerator_div_denominator ⟨false, m, e⟩
    have hdenominator : ((denominator ⟨false, m, e⟩ : ℕ) : ℚ) ≠ 0 := by
      exact_mod_cast (denominator_pos _).ne'
    rw [hvalue, Nat.cast_mul, mul_div_cancel_right₀ _ hdenominator] at hfraction
    exact_mod_cast hfraction.symm
  exact hscaled ▸ hasMagnitude_of_ofFloat? hread

/-! ## Digits -/

theorem lt_ten_pow_length (n : ℕ) : n < 10 ^ (Nat.toDigits 10 n).length :=
  (Nat.length_toDigits_le_iff (by decide) Nat.length_toDigits_pos).1 le_rfl

theorem ten_pow_length_le {n : ℕ} (hn : 0 < n) : 10 ^ ((Nat.toDigits 10 n).length - 1) ≤ n := by
  by_contra hlt
  rcases Nat.eq_zero_or_pos ((Nat.toDigits 10 n).length - 1) with hone | hpos
  · rw [hone, pow_zero] at hlt
    omega
  · have hle := (Nat.length_toDigits_le_iff (by decide) hpos).2 (not_le.1 hlt)
    omega

/-! ## Powers of ten against powers of two -/

theorem two_zpow_le_ten_zpow {a b : ℕ} (h : 2 ^ a ≤ 10 ^ b) :
    (2 : ℚ) ^ (a : ℤ) ≤ 10 ^ (b : ℤ) := by
  rw [zpow_natCast, zpow_natCast]
  exact_mod_cast h

theorem limit_le_ten_zpow {e : ℤ} (he : 309 ≤ e) : limit ≤ 10 ^ e := by
  calc limit = 2 ^ ((1024 : ℕ) : ℤ) := by rw [limit]; rfl
    _ ≤ 10 ^ ((309 : ℕ) : ℤ) := two_zpow_le_ten_zpow (by decide +kernel)
    _ ≤ 10 ^ e := zpow_le_zpow_right₀ (by norm_num) he

theorem ten_zpow_le_half_least {e : ℤ} (he : e ≤ -324) : (10 : ℚ) ^ e ≤ 2 ^ (-1075 : ℤ) := by
  calc (10 : ℚ) ^ e ≤ 10 ^ (-(324 : ℕ) : ℤ) := zpow_le_zpow_right₀ (by norm_num) he
    _ = (10 ^ ((324 : ℕ) : ℤ))⁻¹ := zpow_neg _ _
    _ ≤ (2 ^ ((1075 : ℕ) : ℤ))⁻¹ :=
      inv_anti₀ (by positivity) (two_zpow_le_ten_zpow (by decide +kernel))
    _ = 2 ^ (-1075 : ℤ) := (zpow_neg _ _).symm

theorem ten_zpow_le_two_zpow {e : ℤ} (he : e ≤ 0) : (10 : ℚ) ^ e ≤ 2 ^ e := by
  obtain ⟨k, rfl⟩ := Int.exists_eq_neg_ofNat he
  rw [zpow_neg, zpow_neg, zpow_natCast, zpow_natCast]
  gcongr
  norm_num

/-! ## Decimals -/

section Scaled

variable {m : ℕ} {e : ℤ}

/-- Where the power of ten is less than any bit of the integer, the decimal is at most half of the
least positive float. -/
theorem mul_ten_zpow_le_half_least (he : e < -((2 : ℤ) ^ 11 + m.log2)) :
    (m : ℚ) * 10 ^ e ≤ 2 ^ (-1075 : ℤ) := by
  have hlog : (m : ℚ) ≤ 2 ^ ((m.log2 : ℤ) + 1) := by
    exact_mod_cast (Nat.lt_log2_self (n := m)).le
  calc (m : ℚ) * 10 ^ e ≤ 2 ^ ((m.log2 : ℤ) + 1) * 2 ^ e := by
        gcongr
        exact ten_zpow_le_two_zpow (by omega)
    _ = 2 ^ ((m.log2 : ℤ) + 1 + e) := (zpow_add₀ two_ne_zero _ _).symm
    _ ≤ 2 ^ (-1075 : ℤ) := zpow_le_zpow_right₀ one_le_two (by omega)

/-- The product with a power of ten, of a significand that is shifted up to keep all bits. -/
theorem hasMagnitude_mul_ten_pow {k : ℕ} (hm : 0 < m <<< 53) (hk : 0 < 10 ^ k) :
    HasMagnitude (UnpackedFloat.mul Format.binary64 (.finite .positive (m <<< 53) (-53) hm)
      (.finite .positive (10 ^ k) 0 hk)) .positive (nearest (m * 10 ^ (k : ℤ))) := by
  -- The shift makes the product long enough to be rounded once, however small `m` is.
  have hlong : 2 ^ 52 ≤ m <<< 53 * 10 ^ k := by
    rw [Nat.shiftLeft_eq] at hm ⊢
    calc 2 ^ 52 ≤ 1 * 2 ^ 53 * 1 := by norm_num
      _ ≤ m * 2 ^ 53 * 10 ^ k := by
        gcongr
        · exact Nat.pos_of_mul_pos_right hm
        · exact hk
  have hvalue : ((m <<< 53 : ℕ) : ℚ) * 2 ^ (-53 : ℤ) * ((10 ^ k : ℕ) * 2 ^ (0 : ℤ)) =
      m * 10 ^ (k : ℤ) := by
    have hself := shiftLeft_mul_two_zpow m (t := -53) (e := 0) (by norm_num)
    rw [show (0 - -53 : ℤ).toNat = 53 from rfl] at hself
    rw [hself, zpow_zero, mul_one, mul_one, zpow_natCast, Nat.cast_pow, Nat.cast_ofNat]
  rw [← hvalue]
  exact hasMagnitude_mul hm hk (Or.inr hlong)

/-- The quotient by a power of ten. -/
theorem hasMagnitude_div_ten_pow {k : ℕ} (hm : 0 < m) (hk : 0 < 10 ^ k) :
    HasMagnitude (UnpackedFloat.div Format.binary64 (.finite .positive m 0 hm)
      (.finite .positive (10 ^ k) 0 hk)) .positive (nearest (m * 10 ^ (-(k : ℤ)))) := by
  have hvalue : (m : ℚ) * 2 ^ (0 : ℤ) / ((10 ^ k : ℕ) * 2 ^ (0 : ℤ)) = m * 10 ^ (-(k : ℤ)) := by
    rw [zpow_zero, mul_one, mul_one, zpow_neg, zpow_natCast, Nat.cast_pow, Nat.cast_ofNat,
      div_eq_mul_inv]
  rw [← hvalue]
  exact hasMagnitude_div hm hk

/-- The unpacked float of a decimal is rounded to nearest. -/
theorem hasMagnitude_ofScientific (hlt : nearest (m * 10 ^ e) < limit) :
    HasMagnitude (UnpackedFloat.ofScientific Format.binary64 m e) .positive
      (nearest (m * 10 ^ e)) := by
  rw [UnpackedFloat.ofScientific]
  by_cases hm : m = 0
  · rw [dif_pos hm]
    exact Or.inl ⟨by rw [hm, Nat.cast_zero, zero_mul, nearest_zero], rfl⟩
  have hone : (1 : ℚ) ≤ m := by exact_mod_cast Nat.pos_of_ne_zero hm
  -- With a power of ten beyond `2 ^ 11` any integer is out of range.
  have hrange : ¬(2 : ℤ) ^ Format.binary64.exponentBits < e := by
    intro hlarge
    change (2 : ℤ) ^ 11 < e at hlarge
    have hle : limit ≤ m * 10 ^ e :=
      (limit_le_ten_zpow (by omega)).trans (le_mul_of_one_le_left (by positivity) hone)
    exact absurd (lt_limit_of_nearest hlt) hle.not_gt
  rw [dif_neg hm, if_neg hrange]
  by_cases hleast : e < -((2 : ℤ) ^ Format.binary64.exponentBits + m.log2)
  · rw [if_pos hleast]
    exact Or.inl ⟨nearest_eq_zero (by positivity) (mul_ten_zpow_le_half_least hleast), rfl⟩
  rw [if_neg hleast]
  by_cases hnonneg : 0 ≤ e
  · have hself : (e.toNat : ℤ) = e := Int.toNat_of_nonneg hnonneg
    rw [if_pos hnonneg]
    conv_rhs => rw [← hself]
    exact hasMagnitude_mul_ten_pow _ _
  · have hself : -((-e).toNat : ℤ) = e := by omega
    rw [if_neg hnonneg]
    conv_rhs => rw [← hself]
    exact hasMagnitude_div_ten_pow _ _

/-- A decimal of which both parts are exact floats is their product or their quotient. -/
theorem denotes_ofScientific (negative : Bool) (k : ℕ)
    (he : e = if negative then -(k : ℤ) else k) (hlt : nearest (m * 10 ^ e) < limit) :
    Denotes (Float.ofScientific m negative k) (nearest (m * 10 ^ e)) := by
  rw [Float.ofScientific]
  split
  · rename_i hsmall
    obtain ⟨hm, hk⟩ := hsmall
    -- Both the word and the power of ten are exact, so one operation rounds once.
    have hword : Denotes m.toUInt64.toFloat m := by
      have htoFloat := denotes_toFloat m.toUInt64
      have hself : nearest m = m := by
        have h := nearest_eq_self (e := 0) hm (by norm_num)
        rwa [zpow_zero, mul_one] at h
      have htoNat : m.toUInt64.toNat = m := by
        rw [Nat.toUInt64_eq, UInt64.toNat_ofNat_of_lt']
        exact hm.trans (by norm_num [UInt64.size])
      rwa [htoNat, hself] at htoFloat
    have hpower := denotes_powerOfTen (k := k) (Nat.lt_succ_of_le hk)
    cases negative with
    | false =>
      have hvalue : (m : ℚ) * 10 ^ e = m * 10 ^ k := by
        rw [he]
        exact congrArg _ (zpow_natCast _ _)
      rw [hvalue] at hlt ⊢
      exact hword.mul hpower hlt
    | true =>
      have hvalue : (m : ℚ) * 10 ^ e = m / 10 ^ k := by
        rw [he, if_pos rfl, zpow_neg, zpow_natCast, div_eq_mul_inv]
      rw [hvalue] at hlt ⊢
      exact hword.div hpower (by positivity) hlt
  · have hexponent : (if negative then Int.negOfNat k else Int.ofNat k) = e := by
      rw [he]
      cases negative
      · rfl
      · exact Int.negOfNat_eq
    simp only [hexponent]
    exact (hasMagnitude_ofScientific hlt).pack hlt

/-- A decimal that does not overflow is rounded to nearest. -/
theorem denotes_ofScaled (hlt : nearest (m * 10 ^ e) < limit) :
    Denotes (Decimal.ofScaled m e) (nearest (m * 10 ^ e)) := by
  rw [Decimal.ofScaled]
  split
  · -- All digits stand behind those that a float can keep.
    rename_i hsmall
    have hle : (m : ℚ) * 10 ^ e ≤ 2 ^ (-1075 : ℤ) := by
      rcases hsmall with rfl | hsmall
      · rw [Nat.cast_zero, zero_mul]
        positivity
      calc (m : ℚ) * 10 ^ e ≤ 10 ^ (Nat.toDigits 10 m).length * 10 ^ e := by
            gcongr
            exact_mod_cast (lt_ten_pow_length m).le
        _ = 10 ^ (((Nat.toDigits 10 m).length : ℤ) + e) := by
            rw [zpow_add₀ (by norm_num), zpow_natCast]
        _ ≤ 2 ^ (-1075 : ℤ) := ten_zpow_le_half_least (by omega)
    rw [nearest_eq_zero (by positivity) hle]
    exact denotes_zero
  rename_i hnot
  have hm : 0 < m := Nat.pos_of_ne_zero fun hzero => hnot (Or.inl hzero)
  split
  · rename_i hlarge
    have hle : limit ≤ m * 10 ^ e := by
      calc limit ≤ 10 ^ (((Nat.toDigits 10 m).length - 1 : ℕ) + e : ℤ) :=
            limit_le_ten_zpow (by omega)
        _ = 10 ^ ((Nat.toDigits 10 m).length - 1) * 10 ^ e := by
            rw [zpow_add₀ (by norm_num), zpow_natCast]
        _ ≤ m * 10 ^ e := by
            gcongr
            exact_mod_cast ten_pow_length_le hm
    exact absurd (lt_limit_of_nearest hlt) hle.not_gt
  split
  · rename_i hneg
    exact denotes_ofScientific true _ (by rw [if_pos rfl]; omega) hlt
  · rename_i hnonneg
    exact denotes_ofScientific false _ (by rw [if_neg Bool.false_ne_true]; omega) hlt

end Scaled

end Binary64

end EncryptedArithmetic

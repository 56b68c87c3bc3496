import EncryptedArithmetic.Proofs.Decimal.Rounding
import Mathlib.Data.Int.Log

/-!
# Rounding to nearest

A result of binary64 arithmetic is the number nearest to the exact result, the one with an even
significand of two. `nearest` is this rounding as a function on the rational numbers: it keeps the
order and leaves alone what has a significand of 53 bits. The rounding of unpacked floats is this
function: it is given a mantissa with two bits behind it, which tell the rest of the exact result
from zero and from one half.

## Main definitions

* `nearest`: the rounding of a number that is not negative, regardless of an overflow.
* `Describes`: a mantissa with its residual bits, and the number they stand for.

## Main results

* `nearest_mono` and `nearest_eq_self`: the order is kept, and so is what fits.
* `hasMagnitude_roundWithAccuracy`, `hasMagnitude_round` and `exists_hasMagnitude_normalize`:
  unpacked floats are rounded to nearest.
* `hasMagnitude_mul` and `hasMagnitude_div`: products and quotients of significands of any length.
-/

namespace EncryptedArithmetic

open Float.Model (Format UnpackedFloat totalExponent)
open Float.Model.UnpackedFloat

namespace Binary64

/-! ## Nearest integers -/

/-- The nearest integer, the even one of two. -/
def roundEven (x : ℚ) : ℤ :=
  if Int.fract x < 1 / 2 ∨ Int.fract x = 1 / 2 ∧ Even ⌊x⌋ then ⌊x⌋ else ⌊x⌋ + 1

theorem floor_le_roundEven (x : ℚ) : ⌊x⌋ ≤ roundEven x := by
  unfold roundEven
  split <;> omega

theorem roundEven_le (x : ℚ) : roundEven x ≤ ⌊x⌋ + 1 := by
  unfold roundEven
  split <;> omega

theorem roundEven_mono {x y : ℚ} (h : x ≤ y) : roundEven x ≤ roundEven y := by
  -- Numbers with the same integer part are compared by what is left of them.
  rcases (Int.floor_le_floor h).lt_or_eq with hlt | heq
  · have := roundEven_le x
    have := floor_le_roundEven y
    omega
  · have hfract : Int.fract x ≤ Int.fract y := by
      have hx := Int.self_sub_floor x
      have hy := Int.self_sub_floor y
      rw [heq] at hx
      linarith
    by_cases hy : Int.fract y < 1 / 2 ∨ Int.fract y = 1 / 2 ∧ Even ⌊y⌋
    · have hx : Int.fract x < 1 / 2 ∨ Int.fract x = 1 / 2 ∧ Even ⌊x⌋ := by
        rcases hy with hy | ⟨hy, heven⟩
        · exact Or.inl (hfract.trans_lt hy)
        · rw [heq]
          exact (hfract.trans_eq hy).lt_or_eq.imp id fun hx => ⟨hx, heven⟩
      rw [roundEven, roundEven, if_pos hx, if_pos hy, heq]
    · have := roundEven_le x
      rw [roundEven.eq_def y, if_neg hy]
      omega

@[simp]
theorem roundEven_intCast (n : ℤ) : roundEven n = n := by
  rw [roundEven, Int.fract_intCast, Int.floor_intCast, if_pos (Or.inl one_half_pos)]

/-! ## Rounding on the rational numbers -/

/-- The exponent of the last bit that is kept. -/
def unitExponent (v : ℚ) : ℤ :=
  max (Int.log 2 v - 52) (-1074)

/-- The nearest number with a significand of 53 bits, the even one of two. -/
def nearest (v : ℚ) : ℚ :=
  roundEven (v / 2 ^ unitExponent v) * 2 ^ unitExponent v

theorem least_le_unitExponent (v : ℚ) : -1074 ≤ unitExponent v :=
  le_max_right _ _

theorem lt_two_zpow_unitExponent (v : ℚ) : v / 2 ^ unitExponent v < 2 ^ 53 := by
  have hlog : v < (2 : ℕ) ^ (Int.log 2 v + 1) := Int.lt_zpow_succ_log_self one_lt_two v
  have hle : Int.log 2 v + 1 ≤ unitExponent v + 53 := by
    have := le_max_left (Int.log 2 v - 52) (-1074)
    rw [unitExponent]
    omega
  rw [div_lt_iff₀ (by positivity)]
  calc v < (2 : ℚ) ^ (Int.log 2 v + 1) := by exact_mod_cast hlog
    _ ≤ 2 ^ (unitExponent v + 53) := zpow_le_zpow_right₀ one_le_two hle
    _ = 2 ^ 53 * 2 ^ unitExponent v := by
      rw [add_comm, zpow_add₀ two_ne_zero]
      norm_num

theorem le_div_unitExponent {v : ℚ} (hv : 0 < v) (h : -1074 < unitExponent v) :
    2 ^ 52 ≤ v / 2 ^ unitExponent v := by
  have hlog : ((2 : ℕ) : ℚ) ^ Int.log 2 v ≤ v := Int.zpow_log_le_self one_lt_two hv
  have hunit : unitExponent v = Int.log 2 v - 52 := by
    rw [unitExponent] at h ⊢
    omega
  rw [le_div_iff₀ (by positivity)]
  calc (2 : ℚ) ^ 52 * 2 ^ unitExponent v = 2 ^ Int.log 2 v := by
        rw [hunit, zpow_sub₀ two_ne_zero]
        norm_num
        field_simp
    _ ≤ v := by exact_mod_cast hlog

theorem roundEven_nonneg {x : ℚ} (h : 0 ≤ x) : 0 ≤ roundEven x :=
  (Int.floor_nonneg.2 h).trans (floor_le_roundEven x)

theorem nearest_nonneg {v : ℚ} (hv : 0 ≤ v) : 0 ≤ nearest v := by
  have hround := roundEven_nonneg (div_nonneg hv (by positivity : (0 : ℚ) ≤ 2 ^ unitExponent v))
  exact mul_nonneg (by exact_mod_cast hround) (by positivity)

@[simp]
theorem nearest_zero : nearest 0 = 0 := by
  have hround := roundEven_intCast 0
  rw [Int.cast_zero] at hround
  rw [nearest, zero_div, hround, Int.cast_zero, zero_mul]

/-- In units of its last bit a number is rounded to 53 bits, where a carry may add one more. Above
the least unit all of them are used. -/
theorem roundEven_div_unitExponent_bounds {v : ℚ} (hv : 0 < v) :
    roundEven (v / 2 ^ unitExponent v) ≤ 2 ^ 53 ∧
      (-1074 < unitExponent v → 2 ^ 52 ≤ roundEven (v / 2 ^ unitExponent v)) := by
  constructor
  · have hfloor : ⌊v / 2 ^ unitExponent v⌋ < 2 ^ 53 :=
      Int.floor_lt.2 (by exact_mod_cast lt_two_zpow_unitExponent v)
    have := roundEven_le (v / 2 ^ unitExponent v)
    omega
  · intro hunit
    have hfloor : 2 ^ 52 ≤ ⌊v / 2 ^ unitExponent v⌋ :=
      Int.le_floor.2 (by exact_mod_cast le_div_unitExponent hv hunit)
    have := floor_le_roundEven (v / 2 ^ unitExponent v)
    omega

/-- Rounding keeps the order. -/
theorem nearest_mono {v w : ℚ} (hv : 0 ≤ v) (h : v ≤ w) : nearest v ≤ nearest w := by
  rcases hv.eq_or_lt with rfl | hv
  · rw [nearest_zero]
    exact nearest_nonneg h
  have hlog : unitExponent v ≤ unitExponent w :=
    max_le_max_right _ (sub_le_sub_right (Int.log_mono_right hv h) 52)
  rcases hlog.eq_or_lt with heq | hlt
  · -- With the same unit the integers are compared.
    rw [nearest, nearest, heq]
    gcongr
    exact_mod_cast roundEven_mono (div_le_div_of_nonneg_right h (by positivity))
  · -- A power of two is between the two results.
    have hupper := (roundEven_div_unitExponent_bounds hv).1
    have hlower := (roundEven_div_unitExponent_bounds (hv.trans_le h)).2
      ((least_le_unitExponent v).trans_lt hlt)
    calc nearest v ≤ 2 ^ 53 * 2 ^ unitExponent v := by
          rw [nearest]
          gcongr
          exact_mod_cast hupper
      _ = 2 ^ 52 * 2 ^ (unitExponent v + 1) := by
          rw [zpow_add_one₀ two_ne_zero]
          ring
      _ ≤ 2 ^ 52 * 2 ^ unitExponent w := by
          gcongr
          · exact one_le_two
          · omega
      _ ≤ nearest w := by
          rw [nearest]
          gcongr
          exact_mod_cast hlower

/-- What has a significand of 53 bits is its own rounding. -/
theorem nearest_eq_self {m : ℕ} {e : ℤ} (hm : m < 2 ^ 53) (he : -1074 ≤ e) :
    nearest (m * 2 ^ e) = m * 2 ^ e := by
  rcases m.eq_zero_or_pos with rfl | hpos
  · rw [Nat.cast_zero, zero_mul, nearest_zero]
  have hv : (0 : ℚ) < m * 2 ^ e := by positivity
  have hunit : unitExponent (m * 2 ^ e) ≤ e := by
    have hlt : (m : ℚ) * 2 ^ e < (2 : ℕ) ^ (e + 53) := by
      push_cast
      rw [add_comm, zpow_add₀ two_ne_zero]
      gcongr
      exact_mod_cast hm
    have hlog := (Int.lt_zpow_iff_log_lt one_lt_two hv).1 hlt
    rw [unitExponent]
    omega
  -- The number is a multiple of the unit.
  obtain ⟨k, hk⟩ := Int.le.dest hunit
  have hmultiple : (m : ℚ) * 2 ^ e / 2 ^ unitExponent (m * 2 ^ e) = ((m * 2 ^ k : ℤ) : ℚ) := by
    rw [div_eq_iff (by positivity)]
    push_cast
    rw [mul_assoc, ← zpow_natCast, ← zpow_add₀ two_ne_zero, add_comm (k : ℤ), hk]
  rw [nearest, hmultiple, roundEven_intCast, ← hmultiple, div_mul_cancel₀ _ (by positivity)]

theorem nearest_two_pow (k : ℕ) : nearest (2 ^ k) = 2 ^ k := by
  have h := nearest_eq_self (m := 1) (e := k) (by norm_num) (by omega)
  rwa [Nat.cast_one, one_mul, zpow_natCast] at h

/-! ## Mantissas with a rest -/

/-- The mantissa is the integer part of the number, and the bits behind it tell the rest from zero
and from one half. -/
def Describes (em : ExtendedMantissa) (x : ℚ) : Prop :=
  match em.roundBit, em.stickyBit with
  | false, false => x = em.mantissa
  | false, true => em.mantissa < x ∧ x < em.mantissa + 1 / 2
  | true, false => x = em.mantissa + 1 / 2
  | true, true => em.mantissa + 1 / 2 < x ∧ x < em.mantissa + 1

namespace Describes

variable {em : ExtendedMantissa} {x : ℚ}

/-- The bit that is shifted out becomes the round bit. -/
theorem shiftRightOne (h : Describes em x) : Describes em.shiftRightOne (x / 2) := by
  obtain ⟨m, r, s⟩ := em
  obtain ⟨j, rfl | rfl⟩ := m.even_or_odd'
  · have hj : 2 * j / 2 = j := by omega
    cases r <;> cases s <;> simp [Describes, ExtendedMantissa.shiftRightOne, hj] at h ⊢ <;>
      first | linarith | (constructor <;> linarith)
  · have hj : (2 * j + 1) / 2 = j := by omega
    cases r <;> cases s <;> simp [Describes, ExtendedMantissa.shiftRightOne, hj] at h ⊢ <;>
      first | linarith | (constructor <;> linarith)

theorem shiftRight (h : Describes em x) (k : ℕ) : Describes (em >>> k) (x / 2 ^ k) := by
  change Describes (k.repeat ExtendedMantissa.shiftRightOne em) _
  induction k with
  | zero =>
    rw [pow_zero, div_one]
    exact h
  | succ k ih =>
    rw [pow_succ, ← div_div]
    exact ih.shiftRightOne

theorem floor_eq (h : Describes em x) : ⌊x⌋ = em.mantissa := by
  obtain ⟨m, r, s⟩ := em
  rw [Int.floor_eq_iff]
  cases r <;> cases s <;> simp only [Describes] at h ⊢ <;> push_cast <;> constructor <;> linarith

/-- The bits behind the mantissa are all that rounding needs of the number. -/
theorem roundedMantissa_eq (h : Describes em x) : em.roundedMantissa = roundEven x := by
  have hfract : Int.fract x = x - em.mantissa := by
    rw [← Int.self_sub_floor, h.floor_eq, Int.cast_natCast]
  rw [roundEven, hfract, h.floor_eq]
  obtain ⟨m, r, s⟩ := em
  cases r <;> cases s <;> simp only [Describes] at h ⊢
  · rw [if_pos (Or.inl (by linarith))]
    rfl
  · rw [if_pos (Or.inl (by linarith))]
    rfl
  · -- A rest of one half goes to the even side.
    have hhalf : x - m = 1 / 2 := by linarith
    have hround : (ExtendedMantissa.mk m true false).roundedMantissa = m + m % 2 := rfl
    rw [hround, hhalf]
    rcases m.even_or_odd with heven | hodd
    · rw [if_pos (Or.inr ⟨rfl, by exact_mod_cast heven⟩), Nat.even_iff.1 heven, add_zero]
    · rw [if_neg, Nat.odd_iff.1 hodd]
      · push_cast
        rfl
      · rintro (hlt | ⟨-, heven⟩)
        · exact lt_irrefl _ hlt
        · exact Nat.not_even_iff_odd.2 hodd (by exact_mod_cast heven)
  · rw [if_neg]
    · rfl
    · rintro (hlt | ⟨heq, -⟩) <;> linarith

end Describes

theorem describes_exact (m : ℕ) :
    Describes (ExtendedMantissa.ofMantissaAndAccuracy m .exact) m := rfl

/-- The accuracy of a division is that of the integer quotient with the rest behind it. -/
theorem describes_accuracyOfFraction (m : ℕ) {num den : ℕ} (h : num < den) :
    Describes (ExtendedMantissa.ofMantissaAndAccuracy m (accuracyOfFraction num den))
      (m + num / den) := by
  have hden : (0 : ℚ) < den := by exact_mod_cast (Nat.zero_le num).trans_lt h
  by_cases hzero : num = 0
  · rw [accuracyOfFraction, if_pos hzero, hzero, Nat.cast_zero, zero_div, add_zero]
    exact describes_exact m
  have hpos : (0 : ℚ) < num / den := by
    have : (0 : ℚ) < num := by exact_mod_cast Nat.pos_of_ne_zero hzero
    positivity
  rw [accuracyOfFraction, if_neg hzero]
  -- The accuracy only tells on which side of one half the fraction is.
  rcases hcompare : compare (2 * num) den with _ | _ | _
  · have hlt : (num : ℚ) / den < 1 / 2 := by
      rw [Nat.compare_eq_lt] at hcompare
      rw [div_lt_div_iff₀ hden two_pos]
      exact_mod_cast (by omega : num * 2 < 1 * den)
    change (m : ℚ) < m + num / den ∧ (m : ℚ) + num / den < m + 1 / 2
    constructor <;> linarith
  · have heq : (num : ℚ) / den = 1 / 2 := by
      rw [Nat.compare_eq_eq] at hcompare
      rw [div_eq_div_iff hden.ne' two_ne_zero]
      exact_mod_cast (by omega : num * 2 = 1 * den)
    change (m : ℚ) + num / den = m + 1 / 2
    rw [heq]
  · have hgt : (1 : ℚ) / 2 < num / den := by
      rw [Nat.compare_eq_gt] at hcompare
      rw [div_lt_div_iff₀ two_pos hden]
      exact_mod_cast (by omega : 1 * den < num * 2)
    have hone : (num : ℚ) / den < 1 := by
      rw [div_lt_one hden]
      exact_mod_cast h
    change (m : ℚ) + 1 / 2 < m + num / den ∧ (m : ℚ) + num / den < m + 1
    constructor <;> linarith

/-! ## Rounded results -/

/-- The unpacked float has the sign, and its magnitude is the number. -/
def HasMagnitude (u : UnpackedFloat) (s : Sign) (v : ℚ) : Prop :=
  v = 0 ∧ u = .zero s ∨
    ∃ (m : ℕ) (e : ℤ) (h : Canonical m e), u = .finite s m e h.pos ∧ (m : ℚ) * 2 ^ e = v

section Rounding

variable {s : Sign} {m : ℕ} {e : ℤ} {accuracy : Accuracy} {x : ℚ}

/-- The highest bit of a number is that of its integer part. -/
theorem log_mul_two_zpow (hm : 0 < m) (hle : (m : ℚ) ≤ x) (hlt : x < m + 1) (e : ℤ) :
    Int.log 2 (x * 2 ^ e) = m.log2 + e := by
  have hx : 0 < x := lt_of_lt_of_le (by exact_mod_cast hm) hle
  have hlower : ((2 ^ m.log2 : ℕ) : ℚ) ≤ m := by exact_mod_cast Nat.log2_self_le hm.ne'
  have hupper : (m : ℚ) + 1 ≤ (2 ^ (m.log2 + 1) : ℕ) := by exact_mod_cast Nat.lt_log2_self
  push_cast at hlower hupper
  apply le_antisymm
  · rw [← Int.lt_add_one_iff, ← Int.lt_zpow_iff_log_lt one_lt_two (by positivity)]
    push_cast
    calc x * 2 ^ e < 2 ^ (m.log2 + 1) * 2 ^ e := by gcongr; linarith
      _ = 2 ^ ((m.log2 : ℤ) + e + 1) := by
        rw [← zpow_natCast, ← zpow_add₀ two_ne_zero]
        congr 1
        push_cast
        ring
  · rw [← Int.zpow_le_iff_le_log one_lt_two (by positivity)]
    push_cast
    rw [zpow_add₀ two_ne_zero, zpow_natCast]
    gcongr
    linarith

/-- The exponent that rounding aims at is that of the last bit that is kept. -/
theorem targetExponent_eq (hx : Describes (ExtendedMantissa.ofMantissaAndAccuracy m accuracy) x)
    (hpos : 0 < x) (hm : m = 0 → e ≤ -1074) :
    Format.binary64.targetExponent (totalExponent m e) = unitExponent (x * 2 ^ e) := by
  have hmantissa : (ExtendedMantissa.ofMantissaAndAccuracy m accuracy).mantissa = m := by
    rcases accuracy with _ | _ | _ | _ <;> rfl
  have hfloor := hx.floor_eq
  rw [hmantissa, Int.floor_eq_iff] at hfloor
  obtain ⟨hle, hlt⟩ := hfloor
  push_cast at hle hlt
  have hv : 0 < x * 2 ^ e := by positivity
  change max ((m.log2 : ℤ) + 1 + e - 53) (-1074) = max (Int.log 2 (x * 2 ^ e) - 52) (-1074)
  rcases m.eq_zero_or_pos with rfl | hm'
  · have hleast := hm rfl
    have hlog : Int.log 2 (x * 2 ^ e) < e := by
      rw [← Int.lt_zpow_iff_log_lt one_lt_two hv]
      push_cast
      rw [Nat.cast_zero, zero_add] at hlt
      exact mul_lt_of_lt_one_left (by positivity) hlt
    rw [Nat.log2_zero]
    omega
  · rw [log_mul_two_zpow hm' hle hlt]
    omega

/-- The first shift leaves the number in units of its last bit. -/
theorem exists_shiftToTargetExponent
    (hx : Describes (ExtendedMantissa.ofMantissaAndAccuracy m accuracy) x) (hpos : 0 < x)
    (hm : m = 0 → e ≤ -1074) (he : e ≤ Format.binary64.targetExponent (totalExponent m e)) :
    ∃ em, shiftToTargetExponent Format.binary64 m e accuracy = (em, unitExponent (x * 2 ^ e)) ∧
      Describes em (x * 2 ^ e / 2 ^ unitExponent (x * 2 ^ e)) := by
  have htarget := targetExponent_eq hx hpos hm
  rw [htarget] at he
  obtain ⟨k, hk⟩ := Int.le.dest he
  refine ⟨ExtendedMantissa.ofMantissaAndAccuracy m accuracy >>> k, ?_, ?_⟩
  · rw [shiftToTargetExponent, htarget, shiftToExponent,
      show (unitExponent (x * 2 ^ e) - e).toNat = k by omega, ← hk]
  · have hquotient : x / 2 ^ k = x * 2 ^ e / 2 ^ unitExponent (x * 2 ^ e) := by
      rw [← hk, zpow_add₀ two_ne_zero, zpow_natCast]
      field_simp
    exact hquotient ▸ hx.shiftRight k

/-- A mantissa with a rest behind it is rounded to nearest. -/
theorem hasMagnitude_roundWithAccuracy
    (hx : Describes (ExtendedMantissa.ofMantissaAndAccuracy m accuracy) x) (hpos : 0 < x)
    (hm : m = 0 → e ≤ -1074) (he : e ≤ Format.binary64.targetExponent (totalExponent m e)) :
    HasMagnitude (roundWithAccuracy Format.binary64 s m e accuracy) s (nearest (x * 2 ^ e)) := by
  obtain ⟨em, hshift, hdescribes⟩ := exists_shiftToTargetExponent hx hpos hm he
  have hrounded := hdescribes.roundedMantissa_eq
  have hleast := least_le_unitExponent (x * 2 ^ e)
  obtain ⟨hle, hge⟩ := roundEven_div_unitExponent_bounds (v := x * 2 ^ e) (by positivity)
  rw [nearest, ← hrounded, Int.cast_natCast]
  rw [← hrounded] at hle hge
  generalize unitExponent (x * 2 ^ e) = u at *
  -- The rounded mantissa is zero, it fits, or it carries and is shifted once more.
  rcases em.roundedMantissa.eq_zero_or_pos with hzero | hpos
  · refine Or.inl ⟨by rw [hzero, Nat.cast_zero, zero_mul], ?_⟩
    refine roundWithAccuracy_eq_zero hshift rfl ?_
    rw [hzero, shiftToTargetExponent, shiftToExponent, mantissa_shiftRight]
    exact Nat.zero_div _
  rcases hle.lt_or_eq with hlt | hcarry
  · have h : Canonical em.roundedMantissa u := by constructor <;> omega
    have hshift' := hshift.trans (congrArg (Prod.mk em) (sub_zero u).symm)
    exact Or.inr ⟨_, _, h, round_of_shift (k := 0) h hshift' (mul_one _).symm, rfl⟩
  · have h : Canonical (2 ^ 52) (u + 1) := by constructor <;> omega
    have hshift' := hshift.trans (congrArg (Prod.mk em) (add_sub_cancel_right u 1).symm)
    refine Or.inr ⟨_, _, h, round_of_shift (k := 1) h hshift' (by omega), ?_⟩
    have hcarry' : (em.roundedMantissa : ℚ) = 2 ^ 53 := by exact_mod_cast hcarry
    rw [hcarry', zpow_add_one₀ two_ne_zero]
    push_cast
    ring

/-- A number that is given with fewer bits than it can keep is shifted up before it is rounded. -/
theorem hasMagnitude_round (hm : 0 < m) :
    HasMagnitude (UnpackedFloat.round Format.binary64 s m e) s (nearest (m * 2 ^ e)) := by
  rw [UnpackedFloat.round, decreaseExponent, Nat.shiftLeft_eq]
  set t := Format.binary64.targetExponent (totalExponent m e) with ht
  set k := (e - t).toNat with hk
  -- Shifting down to the target exponent changes neither the number nor its highest bit.
  have htotal : totalExponent (m * 2 ^ k) (e - k) = totalExponent m e := by
    rw [totalExponent, totalExponent, log2_mul_two_pow hm.ne' k]
    push_cast
    ring
  have hpos : 0 < m * 2 ^ k := by positivity
  have hvalue : ((m * 2 ^ k : ℕ) : ℚ) * 2 ^ (e - k) = m * 2 ^ e := by
    push_cast
    rw [zpow_sub₀ two_ne_zero, zpow_natCast]
    field_simp
  have hround := hasMagnitude_roundWithAccuracy (s := s) (describes_exact (m * 2 ^ k))
    (by exact_mod_cast hpos) (fun h => absurd h hpos.ne')
    (show e - k ≤ Format.binary64.targetExponent (totalExponent (m * 2 ^ k) (e - k)) by
      rw [htotal, ← ht]
      omega)
  rwa [hvalue] at hround

/-- The magnitude of an integer is rounded, and its sign is kept apart. -/
theorem exists_hasMagnitude_normalize (z : ℤ) (e : ℤ) (zero : Sign) :
    ∃ s, HasMagnitude (UnpackedFloat.normalize Format.binary64 z e zero) s
      (nearest (|(z : ℚ)| * 2 ^ e)) := by
  have habs : |(z : ℚ)| = z.natAbs := by
    rw [Nat.cast_natAbs, Int.cast_abs]
  rw [UnpackedFloat.normalize, habs]
  rcases lt_trichotomy z 0 with hlt | rfl | hlt
  · rw [Int.compare_eq_lt.2 hlt, show z.natAbs = (-z).toNat by omega]
    exact ⟨_, hasMagnitude_round (by omega)⟩
  · exact ⟨_, Or.inl ⟨by rw [Int.natAbs_zero, Nat.cast_zero, zero_mul, nearest_zero], rfl⟩⟩
  · rw [Int.compare_eq_gt.2 hlt, show z.natAbs = z.toNat by omega]
    exact ⟨_, hasMagnitude_round (by omega)⟩

/-- A significand that is shifted to a lower exponent stands for the same number. -/
theorem shiftLeft_mul_two_zpow (m : ℕ) {e t : ℤ} (hle : t ≤ e) :
    ((m <<< (e - t).toNat : ℕ) : ℚ) * 2 ^ t = m * 2 ^ e := by
  rw [Nat.shiftLeft_eq]
  push_cast
  rw [mul_assoc, ← zpow_natCast, ← zpow_add₀ two_ne_zero]
  congr 2
  omega

/-- A product is rounded to nearest, where the significands have enough bits to keep them all. -/
theorem hasMagnitude_mul {m' : ℕ} {e' : ℤ} (h : 0 < m) (h' : 0 < m')
    (hbits : e + e' ≤ -1074 ∨ 2 ^ 52 ≤ m * m') :
    HasMagnitude (UnpackedFloat.mul Format.binary64 (.finite .positive m e h)
      (.finite .positive m' e' h')) .positive (nearest (m * 2 ^ e * (m' * 2 ^ e'))) := by
  have hpos : 0 < m * m' := Nat.mul_pos h h'
  have hvalue : (m : ℚ) * 2 ^ e * (m' * 2 ^ e') = (m * m' : ℕ) * 2 ^ (e + e') := by
    rw [zpow_add₀ two_ne_zero]
    push_cast
    ring
  -- The product's last bit is then not above the last one that is kept.
  have hexponent : e + e' ≤ Format.binary64.targetExponent (totalExponent (m * m') (e + e')) := by
    change e + e' ≤ max (((m * m').log2 : ℤ) + 1 + (e + e') - 53) (-1074)
    rcases hbits with hleast | hfull
    · omega
    · have hlog : 52 ≤ (m * m').log2 := (Nat.le_log2 hpos.ne').2 hfull
      omega
  rw [hvalue]
  exact hasMagnitude_roundWithAccuracy (describes_exact (m * m')) (by exact_mod_cast hpos)
    (fun hzero => absurd hzero hpos.ne') hexponent

/-- With enough bits in front, an integer quotient has 53 bits. -/
theorem two_pow_le_mul_two_pow_div {m' k : ℕ} (h : 0 < m) (h' : 0 < m')
    (hbits : m'.log2 + 53 ≤ m.log2 + k) : 2 ^ 52 ≤ m * 2 ^ k / m' := by
  rw [Nat.le_div_iff_mul_le h']
  calc 2 ^ 52 * m' ≤ 2 ^ 52 * 2 ^ (m'.log2 + 1) := Nat.mul_le_mul_left _ Nat.lt_log2_self.le
    _ = 2 ^ (m'.log2 + 53) := by
      rw [← pow_add]
      congr 1
      omega
    _ ≤ 2 ^ (m.log2 + k) := Nat.pow_le_pow_right two_pos hbits
    _ = 2 ^ m.log2 * 2 ^ k := pow_add 2 _ _
    _ ≤ m * 2 ^ k := Nat.mul_le_mul_right _ (Nat.log2_self_le h.ne')

/-- A quotient is rounded to nearest. -/
theorem hasMagnitude_div {m' : ℕ} {e' : ℤ} (h : 0 < m) (h' : 0 < m') :
    HasMagnitude (UnpackedFloat.div Format.binary64 (.finite .positive m e h)
      (.finite .positive m' e' h')) .positive (nearest (m * 2 ^ e / (m' * 2 ^ e'))) := by
  change HasMagnitude (roundWithAccuracy Format.binary64 .positive
    (divCore Format.binary64 m e m' e').1 (divCore Format.binary64 m e m' e').2.1
    (divCore Format.binary64 m e m' e').2.2) _ _
  simp only [divCore, Nat.shiftLeft_eq]
  set t := min (e - e') (Format.binary64.targetExponent (totalExponent m e - totalExponent m' e'))
    with ht
  set k := (e - e' - t).toNat with hk
  have hkt : e - e' = k + t := by
    have := min_le_left (e - e')
      (Format.binary64.targetExponent (totalExponent m e - totalExponent m' e'))
    omega
  have hm' : (0 : ℚ) < m' := by exact_mod_cast h'
  have hm : (0 : ℚ) < m := by exact_mod_cast h
  -- The integer quotient and its rest are the quotient of the significands.
  have hquotient : ((m * 2 ^ k / m' : ℕ) : ℚ) + (m * 2 ^ k % m' : ℕ) / m' = m * 2 ^ k / m' := by
    rw [eq_div_iff hm'.ne', add_mul, div_mul_cancel₀ _ hm'.ne']
    exact_mod_cast Nat.div_add_mod' (m * 2 ^ k) m'
  have hdescribes := describes_accuracyOfFraction (m * 2 ^ k / m') (Nat.mod_lt (m * 2 ^ k) h')
  rw [hquotient] at hdescribes
  have hvalue : (m : ℚ) * 2 ^ e / (m' * 2 ^ e') = m * 2 ^ k / m' * 2 ^ t := by
    have hpower : (2 : ℚ) ^ e = 2 ^ e' * (2 ^ k * 2 ^ t) := by
      rw [← zpow_natCast, ← zpow_add₀ two_ne_zero, ← zpow_add₀ two_ne_zero]
      congr 1
      omega
    rw [hpower]
    field_simp
  have htarget : Format.binary64.targetExponent (totalExponent m e - totalExponent m' e') =
      max ((m.log2 : ℤ) + 1 + e - (m'.log2 + 1 + e') - 53) (-1074) := rfl
  -- The shift makes the quotient long enough, unless it is below the normal numbers.
  have hlong : t ≤ -1074 ∨ 52 ≤ (m * 2 ^ k / m').log2 := by
    by_cases hsmall : (m.log2 : ℤ) + 1 + e - (m'.log2 + 1 + e') - 53 ≤ -1074
    · exact Or.inl (by omega)
    · have hlarge := two_pow_le_mul_two_pow_div h h' (k := k) (by omega)
      exact Or.inr ((Nat.le_log2 (by omega)).2 hlarge)
  rw [hvalue]
  refine hasMagnitude_roundWithAccuracy hdescribes (by positivity) ?_ ?_
  · intro hzero
    rw [hzero, Nat.log2_zero] at hlong
    omega
  · change t ≤ max (((m * 2 ^ k / m').log2 : ℤ) + 1 + t - 53) (-1074)
    omega

end Rounding

end Binary64

end EncryptedArithmetic

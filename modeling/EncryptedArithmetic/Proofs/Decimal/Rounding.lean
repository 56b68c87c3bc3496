import EncryptedArithmetic.Proofs.Decimal.Binary64

/-!
# Rounding of binary64 arithmetic

A product or a quotient is rounded by shifting its significand to the target exponent. Nothing is
lost where the result is a canonical number, which covers the multiples by powers of two and the
halves, and a result that is at least one stays so. A comparison of a scaled value with half of a
bound is therefore a comparison of rational numbers.

## Main results

* `round_exact` and `exists_round`: rounding without and with a loss.
* `not_half_le_iff`: when a scaled value stays below half of a bound.
* `exists_eq_largestBelow_half`: the largest such product is taken.
-/

namespace EncryptedArithmetic

open Float.Model (Format UnpackedFloat totalExponent)
open Float.Model.UnpackedFloat

namespace Binary64

/-! ## Shifting and rounding -/

theorem log2_mul_two_pow {m : ℕ} (hm : m ≠ 0) (k : ℕ) : (m * 2 ^ k).log2 = m.log2 + k := by
  rw [Nat.log2_eq_iff (Nat.mul_ne_zero hm (by positivity))]
  constructor
  · rw [pow_add]
    exact Nat.mul_le_mul_right _ (Nat.log2_self_le hm)
  · rw [add_right_comm, pow_add]
    exact Nat.mul_lt_mul_of_pos_right Nat.lt_log2_self (by positivity)

/-- The exponent of a canonical number is the one that rounding aims at. -/
theorem Canonical.targetExponent_eq {m : ℕ} {e : ℤ} (h : Canonical m e) :
    Format.binary64.targetExponent (totalExponent m e) = e := by
  have hlog := h.log2_le
  have hleast := h.least
  change max ((m.log2 : ℤ) + 1 + e - 53) (-1074) = e
  -- A full significand has its highest bit at 52; a subnormal one has the least exponent.
  rcases h.full with hfull | rfl
  · have hlog' : 52 ≤ m.log2 := (Nat.le_log2 h.pos.ne').2 hfull
    omega
  · omega

theorem shiftRight_exact (m k : ℕ) :
    (ExtendedMantissa.mk (m * 2 ^ k) false false >>> k) = ⟨m, false, false⟩ := by
  change k.repeat ExtendedMantissa.shiftRightOne _ = _
  induction k generalizing m with
  | zero =>
    rw [pow_zero, mul_one]
    rfl
  | succ k ih =>
    rw [pow_succ', ← mul_assoc, Nat.repeat, ih (m * 2), ExtendedMantissa.shiftRightOne]
    simp

theorem mantissa_shiftRight (em : ExtendedMantissa) (k : ℕ) :
    (em >>> k).mantissa = em.mantissa / 2 ^ k := by
  change (k.repeat ExtendedMantissa.shiftRightOne em).mantissa = _
  induction k with
  | zero =>
    rw [pow_zero, Nat.div_one]
    rfl
  | succ k ih =>
    rw [Nat.repeat, ExtendedMantissa.shiftRightOne, ih, Nat.div_div_eq_div_mul, pow_succ]

/-- A canonical number that is given with more bits is shifted to its own exponent. -/
theorem shift_exact {m : ℕ} {e : ℤ} (h : Canonical m e) (k : ℕ) :
    shiftToTargetExponent Format.binary64 (m * 2 ^ k) (e - k) .exact = (⟨m, false, false⟩, e) := by
  have htotal : totalExponent (m * 2 ^ k) (e - k) = totalExponent m e := by
    rw [totalExponent, totalExponent, log2_mul_two_pow h.pos.ne' k]
    push_cast
    ring
  have hamount : (e - (e - k)).toNat = k := by omega
  rw [shiftToTargetExponent, htotal, h.targetExponent_eq, shiftToExponent, hamount]
  refine Prod.ext (shiftRight_exact m k) ?_
  change e - k + k = e
  ring

/-- Rounding shifts twice: to the bits that there are, and once more where that has carried. -/
theorem roundWithAccuracy_eq {spec : Format} {s : Sign} {m : ℕ} {e : ℤ} {accuracy : Accuracy}
    {first last : ExtendedMantissa × ℤ} (hfirst : shiftToTargetExponent spec m e accuracy = first)
    (hlast : shiftToTargetExponent spec first.1.roundedMantissa first.2 .exact = last)
    (hpos : 0 < last.1.mantissa) :
    roundWithAccuracy spec s m e accuracy = .finite s last.1.mantissa last.2 hpos := by
  subst hfirst hlast
  exact dif_neg hpos.ne'

theorem roundWithAccuracy_eq_zero {spec : Format} {s : Sign} {m : ℕ} {e : ℤ}
    {accuracy : Accuracy} {first last : ExtendedMantissa × ℤ}
    (hfirst : shiftToTargetExponent spec m e accuracy = first)
    (hlast : shiftToTargetExponent spec first.1.roundedMantissa first.2 .exact = last)
    (hzero : last.1.mantissa = 0) : roundWithAccuracy spec s m e accuracy = .zero s := by
  subst hfirst hlast
  exact dif_pos hzero

/-- The result is what the shift leaves, rounded, if that is canonical up to a carry. -/
theorem round_of_shift {s : Sign} {m m' : ℕ} {e e' : ℤ} {accuracy : Accuracy}
    {em : ExtendedMantissa} {k : ℕ} (h : Canonical m' e')
    (hshift : shiftToTargetExponent Format.binary64 m e accuracy = (em, e' - k))
    (hem : em.roundedMantissa = m' * 2 ^ k) :
    roundWithAccuracy Format.binary64 s m e accuracy = .finite s m' e' h.pos := by
  have hagain : shiftToTargetExponent Format.binary64 em.roundedMantissa (e' - k) .exact =
      (⟨m', false, false⟩, e') := by
    rw [hem, shift_exact h k]
  exact roundWithAccuracy_eq hshift hagain h.pos

/-- A canonical number that is given with more bits is not rounded. -/
theorem round_exact {s : Sign} {m : ℕ} {e : ℤ} (h : Canonical m e) (k : ℕ) :
    roundWithAccuracy Format.binary64 s (m * 2 ^ k) (e - k) .exact = .finite s m e h.pos := by
  have hshift := (shift_exact h k).trans (congrArg (Prod.mk _) (sub_zero e).symm)
  exact round_of_shift (k := 0) h hshift (mul_one m).symm

/-- Rounding gives the mantissa or the next one. -/
theorem roundedMantissa_eq (em : ExtendedMantissa) :
    em.roundedMantissa = em.mantissa ∨ em.roundedMantissa = em.mantissa + 1 := by
  obtain ⟨m, r, s⟩ := em
  cases r <;> cases s
  · exact Or.inl rfl
  · exact Or.inl rfl
  · change m + m % 2 = m ∨ m + m % 2 = m + 1
    omega
  · exact Or.inr rfl

/-- A number with a full significand keeps one when it is rounded, and it does not fall below the
power of two that it starts at. -/
theorem exists_round {m : ℕ} {e : ℤ} (hm : 2 ^ 52 ≤ m) (he : -1074 ≤ e) (s : Sign) :
    ∃ (m' : ℕ) (e' : ℤ) (h : Canonical m' e'), 2 ^ 52 ≤ m' ∧ e + m.log2 ≤ e' + 52 ∧
      roundWithAccuracy Format.binary64 s m e .exact = .finite s m' e' h.pos := by
  have hne : m ≠ 0 := by omega
  have hlog : 52 ≤ m.log2 := (Nat.le_log2 hne).2 hm
  obtain ⟨k, hk⟩ := Nat.exists_eq_add_of_le hlog
  have htarget : Format.binary64.targetExponent (totalExponent m e) = e + k := by
    change max ((m.log2 : ℤ) + 1 + e - 53) (-1074) = e + k
    omega
  -- The shift leaves 53 bits.
  have hfull : 2 ^ 52 ≤ m / 2 ^ k := by
    rw [Nat.le_div_iff_mul_le (by positivity), ← pow_add, ← hk]
    exact Nat.log2_self_le hne
  have hlt : m / 2 ^ k < 2 ^ 53 := by
    rw [Nat.div_lt_iff_lt_mul (by positivity), ← pow_add]
    have hupper := Nat.lt_log2_self (n := m)
    rwa [hk, show 52 + k + 1 = 53 + k by omega] at hupper
  obtain ⟨em, hshift, hmantissa⟩ : ∃ em : ExtendedMantissa,
      shiftToTargetExponent Format.binary64 m e .exact = (em, e + k) ∧ em.mantissa = m / 2 ^ k := by
    rw [shiftToTargetExponent, htarget, shiftToExponent, show (e + k - e).toNat = k by omega]
    exact ⟨_, rfl, mantissa_shiftRight _ _⟩
  have hrounded := roundedMantissa_eq em
  rw [hmantissa] at hrounded
  -- The rounded mantissa is below `2 ^ 53`, or it is `2 ^ 53` and is shifted once more.
  by_cases hcarry : em.roundedMantissa < 2 ^ 53
  · have h : Canonical em.roundedMantissa (e + k) := by constructor <;> omega
    have hshift' := hshift.trans (congrArg (Prod.mk em) (sub_zero (e + k)).symm)
    exact ⟨_, _, h, by omega, by omega, round_of_shift (k := 0) h hshift' (mul_one _).symm⟩
  · have h : Canonical (2 ^ 52) (e + k + 1) := by constructor <;> omega
    have hshift' := hshift.trans (congrArg (Prod.mk em) (add_sub_cancel_right (e + k : ℤ) 1).symm)
    exact ⟨_, _, h, le_rfl, by omega, round_of_shift (k := 1) h hshift' (by omega)⟩

/-! ## Multiples by powers of two -/

section Operations

variable {x y : Float} {m : ℕ} {e : ℤ} {h : 0 < m}

/-- A canonical number times a power of two, in canonical form. The significand of a subnormal
number is shifted up until it is full or the factor is used up. -/
theorem Canonical.exists_scaled (h : Canonical m e) (b : ℕ) :
    ∃ (m' : ℕ) (e' : ℤ) (k : ℕ), Canonical m' e' ∧ m * 2 ^ 52 = m' * 2 ^ k ∧
      e' - k = e + (b - 52 : ℤ) := by
  obtain ⟨j, hj⟩ := Nat.exists_eq_add_of_le h.log2_le
  have hleast := h.least
  -- The significand is shifted up `b` places, or only as far as it has room.
  let i := min b j
  have hsplit : m * 2 ^ 52 = m * 2 ^ i * 2 ^ (52 - i) := by
    rw [mul_assoc, ← pow_add, Nat.add_sub_cancel' (by omega)]
  refine ⟨m * 2 ^ i, e + b - i, 52 - i, ⟨?_, ?_, ?_, ?_⟩, hsplit, by omega⟩
  · exact Nat.mul_pos h.pos (by positivity)
  · calc m * 2 ^ i < 2 ^ (m.log2 + 1) * 2 ^ i := by
          gcongr
          exact Nat.lt_log2_self
      _ ≤ 2 ^ (m.log2 + 1) * 2 ^ j := by
          gcongr
          · norm_num
          · exact min_le_right b j
      _ = 2 ^ 53 := by
          rw [← pow_add]
          congr 1
          omega
  · omega
  · rcases h.full with hfull | rfl
    · exact Or.inl (hfull.trans (Nat.le_mul_of_pos_right m (by positivity)))
    · rcases Nat.le_total b j with hle | hle
      · exact Or.inr (by omega)
      · refine Or.inl ?_
        have hij : i = j := min_eq_right hle
        calc 2 ^ 52 = 2 ^ m.log2 * 2 ^ j := by rw [← pow_add, hj]
          _ ≤ m * 2 ^ i := by
            rw [hij]
            gcongr
            exact Nat.log2_self_le h.pos.ne'

/-- The product of a finite float with a power of two is exact, or it overflows. -/
theorem exists_mul_power {s : Sign} {b : ℕ} (hx : x.toModel.unpack = .finite s m e h)
    (hy : y.toModel.unpack = .finite .positive (2 ^ 52) (b - 52) (by decide)) :
    ∃ (m' : ℕ) (e' : ℤ) (h' : Canonical m' e'), (m' : ℚ) * 2 ^ e' = m * 2 ^ e * 2 ^ b ∧
      (x * y).toModel.unpack =
        if e' ≤ 971 then .finite s m' e' h'.pos else .infinity s := by
  obtain ⟨m', e', k, h', hm, he⟩ := (canonical_of_unpack hx).1.exists_scaled b
  have hsign : s * .positive = s := by cases s <;> rfl
  refine ⟨m', e', h', ?_, ?_⟩
  · have hm' : (m : ℚ) * 2 ^ 52 = m' * 2 ^ k := by exact_mod_cast hm
    have htwo : (2 : ℚ) ^ (52 : ℤ) = 2 ^ 52 := by norm_num
    calc (m' : ℚ) * 2 ^ e' = m' * 2 ^ k * 2 ^ (e' - k) := by
          rw [mul_assoc, ← zpow_natCast 2 k, ← zpow_add₀ (by norm_num)]
          congr 2
          ring
      _ = m * 2 ^ 52 * (2 ^ e * (2 ^ b / 2 ^ 52)) := by
          rw [← hm', he, zpow_add₀ (by norm_num), zpow_sub₀ (by norm_num), zpow_natCast, htwo]
      _ = m * 2 ^ e * 2 ^ b := by field_simp
  · change (Float.Model.pack
      (UnpackedFloat.mul Format.binary64 x.toModel.unpack y.toModel.unpack)).unpack = _
    rw [hx, hy]
    change (Float.Model.pack (roundWithAccuracy Format.binary64 (s * .positive)
      (m * 2 ^ 52) (e + (b - 52)) .exact)).unpack = _
    rw [hsign, hm, ← he, round_exact h' k, unpack_pack h']

/-- A finite product with a power of two is that of the numbers. -/
theorem exact_mul_power {b : ℕ}
    (hy : y.toModel.unpack = .finite .positive (2 ^ 52) (b - 52) (by decide))
    (hfinite : (x * y).isFinite) : x.isFinite ∧ exact (x * y) = exact x * 2 ^ b := by
  have hmul : (x * y).toModel.unpack = (Float.Model.pack
      (UnpackedFloat.mul Format.binary64 x.toModel.unpack y.toModel.unpack)).unpack := rfl
  change UnpackedFloat.isFinite (x * y).toModel.unpack = true at hfinite
  change UnpackedFloat.isFinite x.toModel.unpack = true ∧ _
  -- Infinities and not-a-numbers keep what they are, and the product is finite.
  rcases hunpack : x.toModel.unpack with s | _ | s | ⟨s, m, e, hm⟩
  · rw [hunpack, hy] at hmul
    rw [hmul.trans (unpack_pack_infinity _)] at hfinite
    cases hfinite
  · rw [hunpack] at hmul
    rw [hmul.trans unpack_pack_notANumber] at hfinite
    cases hfinite
  · rw [hunpack, hy] at hmul
    have hzero := hmul.trans (unpack_pack_zero _)
    rw [exact_of_zero hzero, exact_of_zero hunpack, zero_mul]
    exact ⟨rfl, rfl⟩
  · obtain ⟨m', e', h', hvalue, hproduct⟩ := exists_mul_power hunpack hy
    by_cases hfits : e' ≤ 971
    · rw [if_pos hfits] at hproduct
      refine ⟨rfl, ?_⟩
      rw [exact_of_finite hproduct, exact_of_finite hunpack, mul_assoc, hvalue]
      ring
    · rw [if_neg hfits] at hproduct
      rw [hproduct] at hfinite
      cases hfinite

/-! ## Floats that are at least one -/

/-- The float is infinite, or it is finite and its significand is full with a unit that makes it at
least one. -/
def AtLeastOne (x : Float) : Prop :=
  x.toModel.unpack = .infinity .positive ∨
    ∃ (m : ℕ) (e : ℤ) (h : 0 < m), x.toModel.unpack = .finite .positive m e h ∧
      2 ^ 52 ≤ m ∧ -52 ≤ e

namespace AtLeastOne

/-- What is at least one before it is rounded is so afterwards. -/
theorem of_round (hm : 2 ^ 52 ≤ m) (he : -1074 ≤ e) (hone : 0 ≤ e + m.log2) :
    AtLeastOne (Float.ofModel (Float.Model.pack
      (roundWithAccuracy Format.binary64 .positive m e .exact))) := by
  obtain ⟨m', e', h', hfull, hle, hround⟩ := exists_round hm he .positive
  rw [AtLeastOne, hround, unpack_pack h']
  by_cases hfits : e' ≤ 971
  · exact Or.inr ⟨m', e', h'.pos, if_pos hfits, hfull, by omega⟩
  · exact Or.inl (if_neg hfits)

theorem mul (hx : AtLeastOne x) (hy : AtLeastOne y) : AtLeastOne (x * y) := by
  rw [show x * y = Float.ofModel (Float.Model.pack
    (UnpackedFloat.mul Format.binary64 x.toModel.unpack y.toModel.unpack)) from rfl]
  rcases hx with hx | ⟨m, e, hm, hx, hfull, he⟩ <;> rw [hx] <;>
    rcases hy with hy | ⟨m', e', hm', hy, hfull', he'⟩ <;> rw [hy]
  · exact Or.inl (unpack_pack_infinity _)
  · exact Or.inl (unpack_pack_infinity _)
  · exact Or.inl (unpack_pack_infinity _)
  · -- Two full significands have more bits in their product than are kept.
    have hlarge : 2 ^ 104 ≤ m * m' := by
      calc 2 ^ 104 = 2 ^ 52 * 2 ^ 52 := by norm_num
        _ ≤ m * m' := Nat.mul_le_mul hfull hfull'
    have hlog : 104 ≤ (m * m').log2 := (Nat.le_log2 (by positivity)).2 hlarge
    apply of_round
    · exact le_trans (by norm_num) hlarge
    · omega
    · omega

/-- A word that is not zero is at least one as a float. -/
theorem toFloat {q : UInt64} (hq : 0 < q.toNat) : AtLeastOne q.toFloat := by
  have hlog : q.toNat.log2 < 64 := (Nat.log2_lt hq.ne').2 q.toNat_lt
  -- The last bit that is kept stands 52 places behind the highest one.
  have htarget : Format.binary64.targetExponent (totalExponent q.toNat 0) =
      (q.toNat.log2 : ℤ) - 52 := by
    change max ((q.toNat.log2 : ℤ) + 1 + 0 - 53) (-1074) = _
    omega
  have hround : q.toFloat = Float.ofModel (Float.Model.pack
      (UnpackedFloat.round Format.binary64 .positive q.toNat 0)) := by
    change Float.ofModel (Float.Model.pack
      (UnpackedFloat.normalize Format.binary64 (q.toNat : ℤ) 0 .positive)) = _
    rw [UnpackedFloat.normalize, Int.compare_eq_gt.2 (by omega)]
    rfl
  rw [hround, UnpackedFloat.round]
  simp only [htarget, decreaseExponent, Nat.shiftLeft_eq]
  set k := (0 - ((q.toNat.log2 : ℤ) - 52)).toNat with hk
  have hlog' := log2_mul_two_pow hq.ne' k
  apply of_round
  · exact (Nat.le_log2 (Nat.mul_pos hq (by positivity)).ne').1 (by omega)
  · omega
  · omega

/-- Half of a float that is at least one loses nothing. -/
theorem unpack_half (hx : AtLeastOne x) :
    (x / 2).toModel.unpack = .infinity .positive ∨
      ∃ (m : ℕ) (e : ℤ) (h : Canonical m e), 2 ^ 52 ≤ m ∧ -53 ≤ e ∧ e ≤ 970 ∧
        (x / 2).toModel.unpack = .finite .positive m e h.pos := by
  have htwo : (2 : Float).toModel.unpack = .finite .positive (2 ^ 52) (-51) (by decide) :=
    unpack_of_ofFloat? (by decide +kernel) (by decide)
  rw [show (x / 2).toModel.unpack = (Float.Model.pack (UnpackedFloat.div Format.binary64
    x.toModel.unpack (2 : Float).toModel.unpack)).unpack from rfl, htwo]
  rcases hx with hx | ⟨m, e, hm, hx, hfull, he⟩
  · rw [hx]
    exact Or.inl (unpack_pack_infinity _)
  · obtain ⟨hcanonical, hfits⟩ := canonical_of_unpack hx
    have hhalf : Canonical m (e - 1) := ⟨hm, hcanonical.lt, by omega, Or.inl hfull⟩
    refine Or.inr ⟨m, e - 1, hhalf, hfull, by omega, by omega, ?_⟩
    -- The quotient is computed with one bit more than the significand has, and leaves no rest.
    have hcore : divCore Format.binary64 m e (2 ^ 52) (-51) = (m * 2 ^ 1, e - 1 - 1, .exact) := by
      have hlog : m.log2 = 52 := (Nat.log2_eq_iff hm.ne').2 ⟨hfull, hcanonical.lt⟩
      have htotal : totalExponent m e - totalExponent (2 ^ 52) (-51) = e + 51 := by
        rw [totalExponent, totalExponent, hlog, Nat.log2_two_pow]
        ring
      have htarget : Format.binary64.targetExponent (e + 51) = e - 1 - 1 := by
        change max (e + 51 - 53) (-1074) = e - 1 - 1
        omega
      have hshift : m <<< 53 = m * 2 ^ 1 * 2 ^ 52 := by
        rw [Nat.shiftLeft_eq]
        ring
      rw [divCore, htotal, htarget, min_eq_right (by omega),
        show (e - -51 - (e - 1 - 1)).toNat = 53 by omega]
      simp only [hshift, Nat.mul_div_cancel _ (by norm_num : 0 < 2 ^ 52), Nat.mul_mod_left]
      rfl
    have hround := round_exact (s := .positive) hhalf 1
    rw [Nat.cast_one] at hround
    rw [hx]
    change (Float.Model.pack (roundWithAccuracy Format.binary64 .positive
      (divCore Format.binary64 m e (2 ^ 52) (-51)).1
      (divCore Format.binary64 m e (2 ^ 52) (-51)).2.1
      (divCore Format.binary64 m e (2 ^ 52) (-51)).2.2)).unpack = _
    rw [hcore, hround, unpack_pack hhalf, if_pos (by omega)]

end AtLeastOne

/-! ## The largest number below half of a bound -/

/-- The largest finite number. -/
def greatest : Binary64 := ⟨false, 2 ^ 53 - 1, 971⟩

/-- The next number towards zero, of a normal one. -/
def below (b : Binary64) : Binary64 :=
  if b.significand = 2 ^ 52 then ⟨b.negative, 2 ^ 53 - 1, b.exponent - 1⟩
  else { b with significand := b.significand - 1 }

/-- The largest finite number below a float that is normal and positive, or infinite. -/
def largestBelow (x : Float) : ℚ :=
  (((ofFloat? x).map below).getD greatest).value

/-- Below a normal number there is a canonical one, and none between the two. -/
theorem Canonical.exists_below (h : Canonical m e) (hm : 2 ^ 52 ≤ m) (he : -1074 < e) :
    ∃ (m₁ : ℕ) (e₁ : ℤ), Canonical m₁ e₁ ∧ 2 ^ 52 ≤ m₁ ∧ e - 1 ≤ e₁ ∧ e₁ ≤ e ∧
      (below ⟨false, m, e⟩).value = m₁ * 2 ^ e₁ ∧
      ∀ (m' : ℕ) (e' : ℤ), Canonical m' e' →
        ((m' : ℚ) * 2 ^ e' < m * 2 ^ e ↔ (m' : ℚ) * 2 ^ e' ≤ m₁ * 2 ^ e₁) := by
  have hlt := h.lt
  -- Below a power of two the next number has one more bit behind the point.
  by_cases hpower : m = 2 ^ 52
  · have h₁ : Canonical (2 ^ 53 - 1) (e - 1) := by constructor <;> omega
    refine ⟨_, _, h₁, by omega, le_rfl, by omega, ?_, ?_⟩
    · rw [below, if_pos hpower, value, if_neg Bool.false_ne_true, one_mul]
    · intro m' e' h'
      have hlt' := h'.lt
      have hfull' := h'.full
      rw [h'.lt_iff h, h'.le_iff h₁]
      omega
  · have h₁ : Canonical (m - 1) e := by constructor <;> omega
    refine ⟨_, _, h₁, by omega, by omega, le_rfl, ?_, ?_⟩
    · rw [below, if_neg hpower, value, if_neg Bool.false_ne_true, one_mul]
    · intro m' e' h'
      rw [h'.lt_iff h, h'.le_iff h₁]
      omega

/-- Below half of a bound lies a canonical number of normal size, and half of the bound exceeds a
result, which may overflow, exactly if the result before the overflow is at most this number. -/
theorem exists_largestBelow_half (hx : AtLeastOne x) :
    ∃ (m : ℕ) (e : ℤ), Canonical m e ∧ 2 ^ 52 ≤ m ∧ -54 ≤ e ∧ e ≤ 971 ∧
      largestBelow (x / 2) = m * 2 ^ e ∧
      ∀ (m' : ℕ) (e' : ℤ) (h' : Canonical m' e'),
        ¬(x / 2).toModel.unpack.le
          (if e' ≤ 971 then .finite .positive m' e' h'.pos else .infinity .positive) ↔
        (m' : ℚ) * 2 ^ e' ≤ m * 2 ^ e := by
  -- Below infinity it is the greatest finite number.
  rcases hx.unpack_half with hhalf | ⟨m, e, h, hfull, he, hfits, hhalf⟩
  · have h : Canonical (2 ^ 53 - 1) 971 := by constructor <;> omega
    refine ⟨_, _, h, by omega, by omega, le_rfl, ?_, ?_⟩
    · rw [largestBelow, ofFloat?_eq, hhalf]
      simp [greatest, value]
    · intro m' e' h'
      have hlt' := h'.lt
      rw [hhalf, h'.le_iff h]
      by_cases hfits' : e' ≤ 971
      · rw [if_pos hfits']
        exact ⟨fun _ => by omega, fun _ => Bool.false_ne_true⟩
      · rw [if_neg hfits']
        exact ⟨fun hneg => absurd rfl hneg, fun hor => by omega⟩
  · obtain ⟨m₁, e₁, h₁, hfull₁, he₁, hle₁, hbelow, hcut⟩ := h.exists_below hfull (by omega)
    refine ⟨m₁, e₁, h₁, hfull₁, by omega, by omega, ?_, ?_⟩
    · rw [← hbelow, largestBelow, ofFloat?_eq, hhalf]
      rfl
    · intro m' e' h'
      rw [hhalf, ← hcut m' e' h']
      by_cases hfits' : e' ≤ 971
      · rw [if_pos hfits', le_finite_iff h h', not_le]
      · rw [if_neg hfits', h'.lt_iff h]
        exact ⟨fun hneg => absurd rfl hneg, fun hor => by omega⟩

/-- A finite value times a power of two stays below half of a bound exactly if the product of the
numbers is at most the largest number below. -/
theorem not_half_le_iff {b : ℕ} (hx : AtLeastOne x)
    (hy : y.toModel.unpack = .finite .positive (2 ^ 52) (b - 52) (by decide)) {v : Float}
    (hv : v.isFinite) :
    ¬x / 2 ≤ v.abs * y ↔ |exact v| * 2 ^ b ≤ largestBelow (x / 2) := by
  obtain ⟨m₁, e₁, h₁, -, -, -, hlargest, hcut⟩ := exists_largestBelow_half hx
  rw [show x / 2 ≤ v.abs * y ↔ (x / 2).toModel.unpack.le (v.abs * y).toModel.unpack from
    decide_eq_true_iff]
  -- A finite value is zero or has a significand; its product may still overflow.
  rcases unpack_cases_of_isFinite hv with ⟨s, hunpack⟩ | ⟨s, m, e, hm, hunpack⟩
  · have hmul : (v.abs * y).toModel.unpack = .zero .positive := by
      change (Float.Model.pack
        (UnpackedFloat.mul Format.binary64 v.abs.toModel.unpack y.toModel.unpack)).unpack = _
      rw [unpack_abs_of_zero hunpack, hy]
      exact unpack_pack_zero .positive
    rw [hmul, hlargest, exact_of_zero hunpack, abs_zero, zero_mul]
    refine ⟨fun _ => by positivity, ?_⟩
    intro _
    rcases hx.unpack_half with hhalf | ⟨m, e, h, -, -, -, hhalf⟩ <;> rw [hhalf] <;>
      exact Bool.false_ne_true
  · obtain ⟨m', e', h', hvalue, hmul⟩ := exists_mul_power (unpack_abs_of_finite hunpack) hy
    rw [hmul, hcut m' e' h', hvalue, hlargest, abs_exact_of_finite hunpack]

/-- The largest number below half of a bound is a finite value times the power of two. -/
theorem exists_eq_largestBelow_half (hx : AtLeastOne x) {b : ℕ} (hb : b < 1000) :
    ∃ v : Float, v.isFinite ∧ |exact v| * 2 ^ b = largestBelow (x / 2) := by
  obtain ⟨m, e, h, hfull, he, hfits, hlargest, -⟩ := exists_largestBelow_half hx
  have hv : Canonical m (e - b) := ⟨h.pos, h.lt, by omega, Or.inl hfull⟩
  obtain ⟨v, hunpack⟩ : ∃ v : Float, v.toModel.unpack = .finite .positive m (e - b) h.pos :=
    ⟨Float.ofModel (Float.Model.pack (.finite .positive m (e - b) h.pos)),
      (unpack_pack hv).trans (if_pos (by omega))⟩
  refine ⟨v, ?_, ?_⟩
  · change UnpackedFloat.isFinite v.toModel.unpack = true
    rw [hunpack]
    rfl
  · rw [abs_exact_of_finite hunpack, hlargest, zpow_sub₀ (by norm_num), zpow_natCast]
    field_simp

end Operations

end Binary64

end EncryptedArithmetic

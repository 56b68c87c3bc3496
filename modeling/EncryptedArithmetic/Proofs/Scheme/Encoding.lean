import EncryptedArithmetic.Proofs.Decimal.Arithmetic
import EncryptedArithmetic.Proofs.Ring.MixedRadix
import EncryptedArithmetic.Scheme.Encoding

/-!
# The integers of scalars

A scalar that is taken is encoded as the integer nearest to its product with the scale. The product
is exact, since the scale is a power of two, and the integer is at most half the lowest prime. To
decode a polynomial is to find the integer of its constant coefficient and to convert this integer.

## Main definitions

* `centered?`: the integer that a polynomial is decoded from, as a sign and a magnitude.

## Main results

* `integer?_spec`: the integer of a scalar.
* `exists_centered?`: the integer of an integer polynomial is its constant coefficient.
-/

namespace EncryptedArithmetic.Encoding

open Polynomial Binary64

/-! ## From a scalar to its integer -/

/-- A scalar that is taken is in range, and its integer is the nearest one to its product. -/
theorem range_of_integer? {value scale : Float} {lowest : UInt64} {m : ℤ}
    (h : integer? value scale lowest = some m) :
    (value * scale).isFinite ∧ (value * scale).abs < (lowest / 2).toFloat ∧
      m = roundAway (exact (value * scale)) := by
  rw [integer?] at h
  split at h
  swap
  · cases h
  rename_i hrange
  rw [Bool.and_eq_true, decide_eq_true_eq] at hrange
  rw [nearestInteger?_eq hrange.1, Option.some.injEq] at h
  exact ⟨hrange.1, hrange.2, h.symm⟩

/-- A scalar that is taken at a power of two is finite, its integer is the nearest one to the exact
product, and the lowest prime is at least twice as large. -/
theorem integer?_spec {value scale : Float} {b : ℕ}
    (hscale : scale.toModel.unpack = .finite .positive (2 ^ 52) (b - 52) (by decide))
    {lowest : UInt64} {m : ℤ} (h : integer? value scale lowest = some m) :
    value.isFinite ∧ m = roundAway (exact value * 2 ^ b) ∧ 2 * |m| ≤ lowest.toNat := by
  obtain ⟨hfinite, hlt, rfl⟩ := range_of_integer? h
  obtain ⟨hvalue, hexact⟩ := exact_mul_power hscale hfinite
  refine ⟨hvalue, by rw [hexact], ?_⟩
  have hscaled := denotes_abs hfinite
  rw [hscaled.lt_iff (denotes_toFloat _)] at hlt
  have hdiv : (lowest / 2).toNat = lowest.toNat / 2 := UInt64.toNat_div _ _
  rw [hdiv] at hlt
  -- A larger integer would be the nearest one of a float that is not below the bound.
  by_contra! hlarge
  have hge : (((lowest.toNat / 2 : ℕ) + 1 : ℤ) : ℚ) ≤
      (|roundAway (exact (value * scale))| : ℤ) := Int.cast_le.2 (by omega)
  have hround := abs_roundAway_le (exact (value * scale))
  have hle : ((lowest.toNat / 2 : ℕ) : ℚ) ≤ |exact (value * scale)| := by
    rw [Int.cast_add, Int.cast_one, Int.cast_natCast, Int.cast_abs] at hge
    linarith
  have hmono := nearest_mono (Nat.cast_nonneg (lowest.toNat / 2)) hle
  rw [hscaled.nearest_eq] at hmono
  exact absurd hlt (not_lt.2 hmono)

/-- A scalar that is taken is below the power of two that half the lowest prime is below. -/
theorem abs_mul_lt_of_integer? {value scale : Float} {b : ℕ}
    (hscale : scale.toModel.unpack = .finite .positive (2 ^ 52) (b - 52) (by decide))
    {lowest : UInt64} {m : ℤ} (h : integer? value scale lowest = some m) {k : ℕ}
    (hlowest : lowest.toNat < 2 ^ (k + 1)) : |exact value| * 2 ^ b < 2 ^ k := by
  obtain ⟨hfinite, hlt, -⟩ := range_of_integer? h
  obtain ⟨-, hexact⟩ := exact_mul_power hscale hfinite
  rw [(denotes_abs hfinite).lt_iff (denotes_toFloat _), hexact, abs_mul,
    abs_of_pos (by positivity : (0 : ℚ) < 2 ^ b), UInt64.toNat_div] at hlt
  -- A power of two is a float, so rounding half of the prime does not pass it.
  have hhalf : ((lowest.toNat / 2 : ℕ) : ℚ) ≤ 2 ^ k := by
    rw [pow_succ] at hlowest
    exact_mod_cast (by omega : lowest.toNat / 2 ≤ 2 ^ k)
  calc |exact value| * 2 ^ b < nearest (lowest.toNat / 2 : ℕ) := hlt
    _ ≤ nearest (2 ^ k) := nearest_mono (Nat.cast_nonneg _) hhalf
    _ = 2 ^ k := nearest_two_pow k

/-- Zero has an integer at every scale. -/
theorem exists_integer?_zero {scale : Float} {w : ℚ} (hscale : Denotes scale w) {lowest : UInt64}
    (h : 2 ≤ lowest.toNat) : ∃ m, integer? 0 scale lowest = some m := by
  have hproduct : Denotes (0 * scale) 0 := by
    have hmul := denotes_zero.mul hscale (by
      rw [zero_mul, nearest_zero]
      exact denotes_zero.lt_limit)
    rwa [zero_mul, nearest_zero] at hmul
  -- Half of the lowest prime is at least one, also as a float.
  have hlt : (0 * scale).abs < (lowest / 2).toFloat := by
    have hhalf : (2 : ℚ) ^ 0 ≤ (lowest / 2).toNat := by
      rw [pow_zero, UInt64.toNat_div]
      exact_mod_cast (Nat.le_div_iff_mul_le two_pos).2 h
    have hmono := nearest_mono (by positivity) hhalf
    rw [nearest_two_pow, pow_zero] at hmono
    rw [(denotes_abs hproduct.isFinite).lt_iff (denotes_toFloat _), hproduct.exact_eq, abs_zero]
    exact zero_lt_one.trans_le hmono
  rw [integer?, nearestInteger?_eq hproduct.isFinite, hproduct.isFinite, decide_eq_true hlt]
  exact ⟨_, rfl⟩

/-! ## From a polynomial to its scalar -/

/-- The sign and the magnitude of the integer that a polynomial is decoded from. -/
def centered? (plain : ResiduePoly) : Except Fault (Bool × BitVec 1024) := do
  let work ← plain.toCoefficient?
  Reconstruction.centered? (← work.coefficient? 0) work.primes

/-- The float of an integer that is given as a sign and a magnitude. -/
def signedToFloat (r : Bool × BitVec 1024) : Float :=
  if r.1 then -Reconstruction.magnitudeToFloat r.2 else Reconstruction.magnitudeToFloat r.2

/-- What is decoded is the float of the integer, divided by the scale. -/
theorem decode_eq (plain : ResiduePoly) (scale : Float) :
    decode plain scale = (fun r => signedToFloat r / scale) <$> centered? plain := by
  simp only [decode, centered?, Reconstruction.toFloat?, map_eq_pure_bind, bind_assoc, pure_bind,
    signedToFloat]

/-- The constant coefficient of an integer polynomial is found as long as it is below half the
product of the primes. -/
theorem exists_centered? {moduli : List RootTable} (hm : ∀ t ∈ moduli, t.Sound) {n : ℕ}
    (hn : ∀ t ∈ moduli, t.degree = n) (hpos : 0 < n)
    (hnodup : (moduli.map RootTable.prime).Nodup)
    (hproduct : Reconstruction.product (moduli.map RootTable.prime) < 2 ^ 1023)
    {form : Form} {plain : ResiduePoly} (hplain : plain.Over moduli form) {F : ℤ[X]}
    (hF : ∀ i t, moduli[i]? = some t → plain.image i t = t.ofInt F) :
    ∃ r, centered? plain = .ok r ∧
      (2 * |(F %ₘ (X ^ n + 1)).coeff 0| < Reconstruction.product (moduli.map RootTable.prime) →
        Reconstruction.signed r = (F %ₘ (X ^ n + 1)).coeff 0) := by
  obtain ⟨work, hwork, how, hiw⟩ := ResiduePoly.exists_toCoefficient? hm hplain
  obtain ⟨column, r, hcolumn, hr, hsigned⟩ := ResiduePoly.exists_centered? hm hn hnodup hproduct how
    (fun i t ht => (hiw i t ht).trans (hF i t ht)) hpos
  exact ⟨r, by rw [centered?, hwork, ok_bind, hcolumn, ok_bind, hr], hsigned⟩

end EncryptedArithmetic.Encoding

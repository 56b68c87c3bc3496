import EncryptedArithmetic.Proofs.Ring.Table
import Mathlib.Tactic.NormNum.Prime

/-!
# The order of the transform

The transform lists the values of a polynomial at the odd powers of `psi`. A step puts the roots of
its first factor in front of those of its second, so the first step decides on the highest binary
digit of an index and on the lowest digit that is left open in the exponent. All steps together
reverse the digits: index `i` holds the value at the power `2 * bitReverse i + 1`.

## Main definitions

* `bitReverse`: a number with its lowest binary digits in the opposite order.

## Main results

* `exponents_eq`: the exponents of the roots on one side of a step, in order.
* `forward_values_of_build`: the entries of a transform as sums over the coefficients.
-/

namespace EncryptedArithmetic

open Polynomial EncryptedArithmetic.Modular

/-! ## Reversed digits -/

/-- The number whose lowest `bits` binary digits are those of `i` in the opposite order. -/
def bitReverse (bits i : ℕ) : ℕ :=
  (BitVec.ofNat bits i).reverse.toNat

theorem testBit_bitReverse (bits i k : ℕ) :
    (bitReverse bits i).testBit k = (decide (k < bits) && i.testBit (bits - 1 - k)) := by
  rw [bitReverse, BitVec.testBit_toNat, BitVec.getLsbD_reverse, BitVec.getMsbD_eq_getLsbD,
    BitVec.getLsbD_ofNat]
  by_cases h : k < bits
  · have hlt : bits - 1 - k < bits := by omega
    simp [h, hlt]
  · simp [h]

@[simp]
theorem bitReverse_zero (i : ℕ) : bitReverse 0 i = 0 :=
  Nat.eq_of_testBit_eq fun k => by simp [testBit_bitReverse]

/-- One more digit comes in at the low end, the highest one of those that count. -/
theorem bitReverse_succ (bits i : ℕ) :
    bitReverse (bits + 1) i = 2 * bitReverse bits i + (i.testBit bits).toNat := by
  apply Nat.eq_of_testBit_eq
  intro k
  rw [testBit_bitReverse]
  -- Digit zero is the one that comes in, and the others move up by one.
  cases k with
  | zero => cases h : i.testBit bits <;> simp [h, Nat.testBit_zero]
  | succ k =>
    have hhalf : (2 * bitReverse bits i + (i.testBit bits).toNat) / 2 = bitReverse bits i := by
      have := Bool.toNat_le (i.testBit bits)
      omega
    rw [Nat.testBit_succ, hhalf, testBit_bitReverse]
    have hindex : bits - (k + 1) = bits - 1 - k := by omega
    simp [hindex]

/-- Digits above the ones that count make no difference. -/
theorem bitReverse_two_pow_add (bits i : ℕ) :
    bitReverse bits (2 ^ bits + i) = bitReverse bits i := by
  apply Nat.eq_of_testBit_eq
  intro k
  rw [testBit_bitReverse, testBit_bitReverse]
  by_cases h : k < bits
  · rw [Nat.testBit_two_pow_add_gt (by omega)]
  · simp [h]

/-- Leading zeros become trailing ones. -/
theorem bitReverse_add {bits i : ℕ} (hi : i < 2 ^ bits) (more : ℕ) :
    bitReverse (bits + more) i = 2 ^ more * bitReverse bits i := by
  induction more with
  | zero => simp
  | succ more ih =>
    have hlt : i < 2 ^ (bits + more) :=
      hi.trans_le (Nat.pow_le_pow_right two_pos (Nat.le_add_right _ _))
    rw [← add_assoc, bitReverse_succ, Nat.testBit_lt_two_pow hlt, ih, Bool.toNat_false, add_zero,
      pow_succ']
    ring

/-- A leading one becomes the lowest digit. -/
theorem bitReverse_succ_two_pow_add {bits i : ℕ} (hi : i < 2 ^ bits) :
    bitReverse (bits + 1) (2 ^ bits + i) = 2 * bitReverse bits i + 1 := by
  rw [bitReverse_succ, bitReverse_two_pow_add, Nat.testBit_two_pow_add_eq,
    Nat.testBit_lt_two_pow hi]
  rfl

/-! ## The roots in order -/

namespace RootTable

variable {t : RootTable}

/-- The exponents of the roots of `X ^ (2 ^ depth) - psi ^ r`: they lie `2 * N / 2 ^ depth` apart
and are taken in the order of reversed indices. -/
theorem exponents_eq {depth r : ℕ} (h : t.Splits depth r) :
    t.exponents depth r = (List.range (2 ^ depth)).map fun i =>
      r / 2 ^ depth + 2 * (t.degree / 2 ^ depth) * bitReverse depth i := by
  -- By induction on the steps: the first one decides on the highest digit of the index.
  induction depth generalizing r with
  | zero => simp [exponents]
  | succ depth ih =>
    have hdegree : t.degree / 2 ^ depth = 2 * (t.degree / 2 ^ (depth + 1)) := by
      rw [pow_succ, ← Nat.div_div_eq_div_mul]
      have hdvd : 2 ∣ t.degree / 2 ^ depth := by
        obtain ⟨c, hc⟩ := (pow_succ 2 depth ▸ h.dvd_degree : 2 ^ depth * 2 ∣ t.degree)
        rw [hc, mul_assoc, Nat.mul_div_cancel_left _ (Nat.two_pow_pos _)]
        exact dvd_mul_right _ _
      omega
    have hstart : r / 2 / 2 ^ depth = r / 2 ^ (depth + 1) := by
      rw [Nat.div_div_eq_div_mul, pow_succ']
    have hsecond : (r / 2 + t.degree) / 2 ^ depth =
        r / 2 ^ (depth + 1) + 2 * (t.degree / 2 ^ (depth + 1)) := by
      rw [Nat.add_div_of_dvd_right h.half_dvd, hstart, hdegree]
    rw [exponents, ih h.first, ih h.second, pow_succ 2 depth, mul_two, List.range_add,
      List.map_append, List.map_map, ← mul_two, ← pow_succ]
    -- The indices of the first factor are those whose new digit is zero.
    congr 1
    · apply List.map_congr_left
      intro i hi
      have hlt := List.mem_range.1 hi
      rw [hstart, hdegree, bitReverse_succ, Nat.testBit_lt_two_pow hlt]
      simp only [Bool.toNat_false]
      ring
    · apply List.map_congr_left
      intro i hi
      rw [Function.comp_apply, hsecond, hdegree,
        bitReverse_succ_two_pow_add (List.mem_range.1 hi)]
      ring

/-- The exponents of all roots of `X ^ N + 1` are the odd numbers below `2 * N`, in the order of
reversed indices. -/
theorem exponents_degree (ht : t.Sound) :
    t.exponents t.degree.log2 t.degree =
      (List.range t.degree).map fun i => 2 * bitReverse t.degree.log2 i + 1 := by
  have hone : t.degree / t.degree = 1 := Nat.div_self (Nat.pos_of_ne_zero ht.degree_ne_zero)
  rw [exponents_eq (splits_degree ht), ← ht.degree_eq]
  simp only [hone]
  exact List.map_congr_left fun i _ => by ring

end RootTable

/-! ## Values as sums -/

theorem eval_ofCoefficients {R : Type} [CommRing R] (as : List R) (x : R) :
    (ofCoefficients as).eval x = ∑ j ∈ Finset.range as.length, as.getD j 0 * x ^ j :=
  eval₂_ofCoefficients (RingHom.id R) x as

namespace RootTable

variable {t : RootTable} {p : UInt64} {n : ℕ}

/-- Entry `i` of a transform is the value at the power `2 * bitReverse i + 1` of `psi`. -/
theorem residue_getD_forward (ht : t.Sound) {xs ys : List UInt64}
    (hx : Reduced t.prime t.degree xs) (h : t.forward? xs = .ok ys) {i : ℕ} (hi : i < t.degree) :
    residue t.prime (ys.getD i 0) = ∑ j ∈ Finset.range t.degree,
      residue t.prime (xs.getD j 0) * t.root ^ ((2 * bitReverse t.degree.log2 i + 1) * j) := by
  obtain ⟨ys', hys', -, hval⟩ := exists_forward? ht hx
  obtain rfl : ys' = ys := Except.ok.inj (hys'.symm.trans h)
  rw [← getD_residues, hval, rootValues, values, exponents_degree ht, List.map_map,
    List.getD_eq_getElem _ _ (by simpa using hi), List.getElem_map, List.getElem_range,
    Function.comp_apply, eval_ofCoefficients, length_residues, hx.length]
  exact Finset.sum_congr rfl fun j _ => by rw [getD_residues, pow_mul]

/-- A table that is built for a prime below `2 ^ 63` has a `psi` with `psi ^ N = -1` whose odd
powers the transform evaluates at, in the order of reversed indices: a vector of `N` residues has a
transform of `N` residues, and entry `i` is the sum of the
`a_j * psi ^ ((2 * bitReverse i + 1) * j)`. -/
theorem forward_values_of_build (h : build p n = .ok t) (hp : p.toNat.Prime)
    (hlt : p.toNat < 2 ^ 63) :
    ∃ psi : ℕ, (psi : ℤ) ^ n ≡ -1 [ZMOD p.toNat] ∧
      ∀ xs : List UInt64, xs.length = n → (∀ x ∈ xs, x < p) →
        ∃ ys, t.forward? xs = .ok ys ∧ ys.length = n ∧ (∀ y ∈ ys, y < p) ∧
          ∀ i < n, (ys.getD i 0).toNat = (∑ j ∈ Finset.range n,
            (xs.getD j 0).toNat * psi ^ ((2 * bitReverse n.log2 i + 1) * j)) % p.toNat := by
  obtain ⟨rfl, rfl, ht⟩ := build_sound h hp hlt.le
  have hroot : ((t.powers.getD 1 0).toNat : ZMod t.prime.toNat) = t.root := rfl
  refine ⟨(t.powers.getD 1 0).toNat, ?_, ?_⟩
  · rw [← ZMod.intCast_eq_intCast_iff]
    push_cast
    rw [hroot, ht.root_pow_degree]
  · intro xs hlength hreduced
    have hx : Reduced t.prime t.degree xs := ⟨hlength, hreduced⟩
    obtain ⟨ys, hys, hy, -⟩ := exists_forward? ht hx
    refine ⟨ys, hys, hy.length, hy.lt, ?_⟩
    intro i hi
    have hmem : ys.getD i 0 < t.prime := by
      rw [List.getD_eq_getElem _ _ (hy.length.symm ▸ hi)]
      exact hy.lt _ (List.getElem_mem _)
    -- A reduced word is the remainder of any number of its class.
    have hclass := residue_getD_forward ht hx hys hi
    rw [← Nat.mod_eq_of_lt (UInt64.lt_iff_toNat_lt.1 hmem), ← ZMod.natCast_eq_natCast_iff']
    push_cast
    rw [hroot]
    exact hclass

/-- Modulo `17` the transform of `1 + 2 X + 3 X ^ 2 + 4 X ^ 3` has the value at the fifth power of
a `psi` with `psi ^ 4 = -1` at index one, as one and two are each the reverse of the other. -/
theorem forward_values_seventeen :
    ∃ (t : RootTable) (psi : ℕ) (ys : List UInt64), build 17 4 = .ok t ∧
      (psi : ℤ) ^ 4 ≡ -1 [ZMOD 17] ∧ t.forward? [1, 2, 3, 4] = .ok ys ∧ ys.length = 4 ∧
      (ys.getD 1 0).toNat = (1 + 2 * psi ^ 5 + 3 * psi ^ 10 + 4 * psi ^ 15) % 17 := by
  have hprime : Nat.Prime 17 := by norm_num
  obtain ⟨t, ht⟩ : ∃ t, build 17 4 = .ok t := ⟨_, rfl⟩
  obtain ⟨psi, hpsi, hforward⟩ := forward_values_of_build ht hprime (by decide)
  obtain ⟨ys, hys, hlength, -, hentry⟩ := hforward [1, 2, 3, 4] rfl (by simp)
  refine ⟨t, psi, ys, ht, hpsi, hys, hlength, ?_⟩
  have hreverse : bitReverse (Nat.log2 4) 1 = 2 := by decide
  rw [hentry 1 (by decide), hreverse]
  simp [Finset.sum_range_succ]

end RootTable

end EncryptedArithmetic

import EncryptedArithmetic.Proofs.Fault
import EncryptedArithmetic.Proofs.Modular.Residue
import EncryptedArithmetic.Proofs.Ring.Negacyclic
import EncryptedArithmetic.Ring.Transform

/-!
# The transform evaluates at the roots

A table is sound when its powers are those of a `psi` with `psi ^ N = -1`. Splitting a vector all
the way down gives the values of its polynomial at the odd powers of `psi`, each of them a root of
`X ^ N + 1`, and joining finds the vector with given values.

## Main results

* `exists_split?` and `exists_join?`: what one side of a step of either pass holds.
* `exists_forward?` and `exists_inverse?`: both passes succeed on reduced vectors, and the second
  has the values that it was given.
* `inverse?_of_forward?` and `forward?_of_inverse?`: they undo each other.
-/

namespace EncryptedArithmetic

open Polynomial EncryptedArithmetic.Modular

namespace RootTable

/-- The class of `psi`. -/
def root (t : RootTable) : ZMod t.prime.toNat :=
  residue t.prime (t.powers.getD 1 0)

/-- The tables of a prime modulus of at most `2 ^ 63` hold the powers of a root of `X ^ N + 1`. -/
structure Sound (t : RootTable) : Prop where
  prime : t.prime.toNat.Prime
  prime_le : t.prime.toNat ≤ UInt64.size / 2
  degree_eq : t.degree = 2 ^ t.degree.log2
  one_lt_degree : 1 < t.degree
  root_pow_degree : t.root ^ t.degree = -1
  residue_powers : ∀ i < t.degree, residue t.prime (t.powers.getD i 0) = t.root ^ i
  residue_inversePowers : ∀ i < t.degree,
    residue t.prime (t.inversePowers.getD i 0) * t.root ^ i = 1
  residue_degreeInverse : residue t.prime t.degreeInverse * (t.degree : ZMod t.prime.toNat) = 1

namespace Sound

variable {t : RootTable}

theorem prime_pos (ht : t.Sound) : 0 < t.prime :=
  UInt64.lt_iff_toNat_lt.2 ht.prime.pos

theorem degree_ne_zero (ht : t.Sound) : t.degree ≠ 0 :=
  Nat.ne_of_gt (Nat.lt_of_succ_lt ht.one_lt_degree)

theorem two_dvd_degree (ht : t.Sound) : 2 ∣ t.degree := by
  have hlog : t.degree.log2 ≠ 0 := fun h => by
    have := ht.degree_eq
    have := ht.one_lt_degree
    rw [h, pow_zero] at *
    omega
  -- A power of two above one is even.
  rw [ht.degree_eq]
  exact dvd_pow_self 2 hlog

/-- Halving is possible modulo the prime. -/
theorem isUnit_two (ht : t.Sound) : IsUnit (2 : ZMod t.prime.toNat) := by
  obtain ⟨h, hh⟩ := ht.two_dvd_degree
  have hinv := ht.residue_degreeInverse
  rw [hh, Nat.cast_mul, Nat.cast_ofNat, ← mul_assoc, mul_comm (residue _ _), mul_assoc] at hinv
  exact IsUnit.of_mul_eq_one _ hinv

theorem isUnit_root_pow (ht : t.Sound) {i : ℕ} (hi : i < t.degree) : IsUnit (t.root ^ i) :=
  IsUnit.of_mul_eq_one _ ((mul_comm _ _).trans (ht.residue_inversePowers i hi))

end Sound

/-! ## The roots that a step splits into -/

/-- Exponents of `psi` for the roots of `X ^ (2 ^ depth) - psi ^ r`, in the order of the
transform. -/
def exponents (t : RootTable) : ℕ → ℕ → List ℕ
  | 0, r => [r]
  | depth + 1, r => exponents t depth (r / 2) ++ exponents t depth (r / 2 + t.degree)

/-- The values of a polynomial at the roots of `X ^ (2 ^ depth) - psi ^ r`. -/
noncomputable def values (t : RootTable) (depth r : ℕ) (f : (ZMod t.prime.toNat)[X]) :
    List (ZMod t.prime.toNat) :=
  (t.exponents depth r).map fun k => f.eval (t.root ^ k)

/-- What holds wherever a pass arrives: `X ^ (2 ^ depth) - psi ^ r` splits over the table. -/
structure Splits (t : RootTable) (depth r : ℕ) : Prop where
  dvd : 2 ^ depth ∣ r
  dvd_degree : 2 ^ depth ∣ t.degree
  lt : r < 2 * t.degree

namespace Splits

variable {t : RootTable} {depth r : ℕ}

theorem half_dvd (h : t.Splits (depth + 1) r) : 2 ^ depth ∣ r / 2 := by
  obtain ⟨s, rfl⟩ := h.dvd
  exact ⟨s, by rw [pow_succ, mul_comm (2 ^ depth), mul_assoc, Nat.mul_div_cancel_left _ two_pos]⟩

theorem half_lt (h : t.Splits (depth + 1) r) : r / 2 < t.degree := by
  have := h.lt
  omega

/-- The first factor, `X ^ (2 ^ depth) - psi ^ (r / 2)`. -/
theorem first (h : t.Splits (depth + 1) r) : t.Splits depth (r / 2) where
  dvd := h.half_dvd
  dvd_degree := dvd_trans (pow_dvd_pow 2 depth.le_succ) h.dvd_degree
  lt := by
    have := h.half_lt
    omega

/-- The second factor, `X ^ (2 ^ depth) + psi ^ (r / 2)`. -/
theorem second (h : t.Splits (depth + 1) r) : t.Splits depth (r / 2 + t.degree) where
  dvd := Nat.dvd_add h.half_dvd h.first.dvd_degree
  dvd_degree := h.first.dvd_degree
  lt := by
    have := h.half_lt
    omega

theorem second_half (h : t.Splits (depth + 1) r) :
    (r / 2 + t.degree) / 2 = r / 2 / 2 + t.degree / 2 := by
  have : 2 ∣ t.degree := dvd_trans (dvd_pow_self 2 depth.succ_ne_zero) h.dvd_degree
  omega

end Splits

section Values

variable {t : RootTable}

theorem values_zero (r : ℕ) (f : (ZMod t.prime.toNat)[X]) :
    t.values 0 r f = [f.eval (t.root ^ r)] := rfl

theorem values_succ (depth r : ℕ) (f : (ZMod t.prime.toNat)[X]) :
    t.values (depth + 1) r f =
      t.values depth (r / 2) f ++ t.values depth (r / 2 + t.degree) f :=
  List.map_append

theorem length_values (depth r : ℕ) (f : (ZMod t.prime.toNat)[X]) :
    (t.values depth r f).length = 2 ^ depth := by
  induction depth generalizing r with
  | zero => rfl
  | succ depth ih => rw [values_succ, List.length_append, ih, ih, pow_succ, mul_two]

theorem values_add (depth r : ℕ) (f g : (ZMod t.prime.toNat)[X]) :
    t.values depth r (f + g) = (t.values depth r f).zipWith (· + ·) (t.values depth r g) := by
  simp only [values, eval_add, List.zipWith_map, List.zipWith_self]

theorem values_sub (depth r : ℕ) (f g : (ZMod t.prime.toNat)[X]) :
    t.values depth r (f - g) = (t.values depth r f).zipWith (· - ·) (t.values depth r g) := by
  simp only [values, eval_sub, List.zipWith_map, List.zipWith_self]

theorem values_mul (depth r : ℕ) (f g : (ZMod t.prime.toNat)[X]) :
    t.values depth r (f * g) = (t.values depth r f).zipWith (· * ·) (t.values depth r g) := by
  simp only [values, eval_mul, List.zipWith_map, List.zipWith_self]

theorem values_C_mul (depth r : ℕ) (c : ZMod t.prime.toNat) (f : (ZMod t.prime.toNat)[X]) :
    t.values depth r (C c * f) = (t.values depth r f).map (c * ·) := by
  simp only [values, eval_mul, eval_C, List.map_map]
  rfl

theorem root_pow_two_mul_degree (ht : t.Sound) : t.root ^ (2 * t.degree) = 1 := by
  rw [mul_comm, pow_mul, ht.root_pow_degree, neg_one_sq]

/-- The exponents belong to roots of `X ^ (2 ^ depth) - psi ^ r`. -/
theorem root_pow_of_mem_exponents (ht : t.Sound) {depth r k : ℕ} (h : t.Splits depth r)
    (hk : k ∈ t.exponents depth r) : (t.root ^ k) ^ 2 ^ depth = t.root ^ r := by
  induction depth generalizing r with
  | zero => simp_all [exponents]
  | succ depth ih =>
    have hdouble : r / 2 * 2 = r :=
      Nat.div_mul_cancel (dvd_trans (dvd_pow_self 2 depth.succ_ne_zero) h.dvd)
    -- The second half of the exponents is shifted by `N`, which the square takes back to zero.
    rw [exponents, List.mem_append] at hk
    rw [pow_succ, pow_mul]
    rcases hk with hk | hk
    · rw [ih h.first hk, ← pow_mul, hdouble]
    · rw [ih h.second hk, ← pow_mul, add_mul, hdouble, pow_add, mul_comm t.degree 2,
        root_pow_two_mul_degree ht, mul_one]

/-- At the roots of `X ^ (2 ^ depth) - psi ^ r` the power of `X` is that of `psi`. -/
theorem values_add_X_pow_mul (ht : t.Sound) {depth r : ℕ} (h : t.Splits depth r)
    (f g : (ZMod t.prime.toNat)[X]) :
    t.values depth r (f + X ^ 2 ^ depth * g) = t.values depth r (f + C (t.root ^ r) * g) := by
  apply List.map_congr_left
  intro k hk
  simp only [eval_add, eval_mul, eval_pow, eval_X, eval_C]
  rw [root_pow_of_mem_exponents ht h hk]

/-- The values on the two sides of a step are those of combinations of the halves. -/
theorem values_succ_halves (ht : t.Sound) {depth r : ℕ} (h : t.Splits (depth + 1) r)
    (low high : (ZMod t.prime.toNat)[X]) :
    t.values (depth + 1) r (low + X ^ 2 ^ depth * high) =
      t.values depth (r / 2) (low + C (t.root ^ (r / 2)) * high) ++
        t.values depth (r / 2 + t.degree) (low - C (t.root ^ (r / 2)) * high) := by
  have hother : t.root ^ (r / 2 + t.degree) = -t.root ^ (r / 2) := by
    rw [pow_add, ht.root_pow_degree, mul_neg_one]
  rw [values_succ, values_add_X_pow_mul ht h.first, values_add_X_pow_mul ht h.second, hother, C_neg,
    neg_mul, ← sub_eq_add_neg]

/-- The upper and the lower half of the coefficients, by division with remainder. -/
theorem exists_halves (ht : t.Sound) {depth : ℕ} {f : (ZMod t.prime.toNat)[X]}
    (hf : f.natDegree < 2 ^ (depth + 1)) : ∃ low high : (ZMod t.prime.toNat)[X],
      low.natDegree < 2 ^ depth ∧ high.natDegree < 2 ^ depth ∧ f = low + X ^ 2 ^ depth * high := by
  have : Fact t.prime.toNat.Prime := ⟨ht.prime⟩
  have hmonic := monic_X_pow (R := ZMod t.prime.toNat) (2 ^ depth)
  refine ⟨f %ₘ X ^ 2 ^ depth, f /ₘ X ^ 2 ^ depth, ?_, ?_, (modByMonic_add_div f _).symm⟩
  · refine (natDegree_modByMonic_lt f hmonic fun hone => ?_).trans_eq (natDegree_X_pow _)
    have hdeg := congrArg natDegree hone
    rw [natDegree_X_pow, natDegree_one] at hdeg
    exact (Nat.two_pow_pos depth).ne' hdeg
  · rw [natDegree_divByMonic f hmonic, natDegree_X_pow]
    rw [pow_succ] at hf
    omega

/-- A polynomial below the degree `2 ^ depth` that vanishes at all the roots is zero. -/
theorem eq_zero_of_eval_eq_zero (ht : t.Sound) {depth r : ℕ} (h : t.Splits depth r)
    {f : (ZMod t.prime.toNat)[X]} (hf : f.natDegree < 2 ^ depth)
    (hroots : ∀ k ∈ t.exponents depth r, f.eval (t.root ^ k) = 0) : f = 0 := by
  have : Fact t.prime.toNat.Prime := ⟨ht.prime⟩
  induction depth generalizing r f with
  | zero =>
    obtain ⟨c, rfl⟩ := natDegree_eq_zero.1 (Nat.lt_one_iff.1 hf)
    simpa [exponents] using hroots
  | succ depth ih =>
    obtain ⟨low, high, hlow, hhigh, rfl⟩ := exists_halves ht hf
    -- On either side of the step `f` has the values of a combination of its halves.
    have hroots' (k : ℕ) (hk : k ∈ t.exponents depth (r / 2)) :
        (low + C (t.root ^ (r / 2)) * high).eval (t.root ^ k) = 0 := by
      have := hroots k (List.mem_append_left _ hk)
      simpa [root_pow_of_mem_exponents ht h.first hk] using this
    have hroots'' (k : ℕ) (hk : k ∈ t.exponents depth (r / 2 + t.degree)) :
        (low - C (t.root ^ (r / 2)) * high).eval (t.root ^ k) = 0 := by
      have := hroots k (List.mem_append_right _ hk)
      simpa [root_pow_of_mem_exponents ht h.second hk, pow_add, ht.root_pow_degree,
        sub_eq_add_neg] using this
    have hscaled : (C (t.root ^ (r / 2)) * high).natDegree < 2 ^ depth :=
      (natDegree_C_mul_le _ _).trans_lt hhigh
    have hplus := ih h.first ((natDegree_add_le _ _).trans_lt (max_lt hlow hscaled)) hroots'
    have hminus := ih h.second ((natDegree_sub_le _ _).trans_lt (max_lt hlow hscaled)) hroots''
    -- Both combinations vanish, hence so do twice either half.
    have htwo : (C 2 : (ZMod t.prime.toNat)[X]) ≠ 0 := C_ne_zero.2 ht.isUnit_two.ne_zero
    have hw : (C (t.root ^ (r / 2)) : (ZMod t.prime.toNat)[X]) ≠ 0 :=
      C_ne_zero.2 (ht.isUnit_root_pow h.half_lt).ne_zero
    have hlow0 : C 2 * low = 0 := by
      rw [C_ofNat]
      linear_combination hplus + hminus
    have hhigh0 : C 2 * (C (t.root ^ (r / 2)) * high) = 0 := by
      rw [C_ofNat]
      linear_combination hplus - hminus
    rw [(mul_eq_zero.1 hlow0).resolve_left htwo,
      (mul_eq_zero.1 ((mul_eq_zero.1 hhigh0).resolve_left htwo)).resolve_left hw]
    simp

end Values

/-! ## The passes -/

section Passes

variable {t : RootTable}

theorem ofCoefficients_take_add_drop {n : ℕ} {xs : List UInt64} (hx : n ≤ xs.length) :
    ofCoefficients (residues t.prime xs) = ofCoefficients (residues t.prime (xs.take n)) +
      X ^ n * ofCoefficients (residues t.prime (xs.drop n)) := by
  conv_lhs => rw [← List.take_append_drop n xs, residues_append, ofCoefficients_append,
    length_residues, List.length_take, min_eq_left hx]

theorem reduced_halves {p : UInt64} {depth : ℕ} {xs : List UInt64}
    (hx : Reduced p (2 ^ (depth + 1)) xs) :
    Reduced p (2 ^ depth) (xs.take (2 ^ depth)) ∧ Reduced p (2 ^ depth) (xs.drop (2 ^ depth)) := by
  have hpow : 2 ^ (depth + 1) = 2 ^ depth + 2 ^ depth := by ring
  have hdrop := hx.drop (2 ^ depth)
  rw [hpow, Nat.add_sub_cancel] at hdrop
  exact ⟨hx.take (hpow ▸ Nat.le_add_right _ _), hdrop⟩

/-- Splitting a vector over `X ^ (2 ^ depth) - psi ^ r` gives its values at the roots. -/
theorem exists_split? (ht : t.Sound) {depth r : ℕ} (h : t.Splits depth r) {xs : List UInt64}
    (hx : Reduced t.prime (2 ^ depth) xs) :
    ∃ ys, t.split? depth (r / 2) xs = .ok ys ∧ Reduced t.prime (2 ^ depth) ys ∧
      residues t.prime ys = t.values depth r (ofCoefficients (residues t.prime xs)) := by
  -- By induction on the depth: one step, then the two halves on their own sides.
  induction depth generalizing r xs with
  | zero =>
    obtain ⟨x, rfl⟩ := List.length_eq_one_iff.1 hx.length
    exact ⟨[x], rfl, hx, by simp [values_zero, residues]⟩
  | succ depth ih =>
    have hpow : 2 ^ (depth + 1) = 2 ^ depth + 2 ^ depth := by ring
    obtain ⟨hlow, hdrop⟩ := reduced_halves hx
    have hhigh := reduced_scaleEach ht.prime_pos (t.powers.getD (r / 2) 0) hdrop.length
    obtain ⟨sum, hsum, hsumr, hsumv⟩ := exists_addEach? ht.prime_le hlow hhigh
    obtain ⟨diff, hdiff, hdiffr, hdiffv⟩ := exists_subEach? hlow hhigh
    -- The sum is the residue on the first side and the difference that on the second.
    obtain ⟨minus, hminus, hminusr, hminusv⟩ := ih h.first hsumr
    obtain ⟨plus, hplus, hplusr, hplusv⟩ := ih h.second hdiffr
    rw [h.second_half] at hplus
    have hhighv : ofCoefficients (residues t.prime (scaleEach t.prime (t.powers.getD (r / 2) 0)
        (xs.drop (2 ^ depth)))) =
        C (t.root ^ (r / 2)) * ofCoefficients (residues t.prime (xs.drop (2 ^ depth))) := by
      rw [residues_scaleEach ht.prime_pos, ofCoefficients_map_mul, ht.residue_powers _ h.half_lt]
    have hlen : (residues t.prime (xs.take (2 ^ depth))).length =
        (residues t.prime (scaleEach t.prime (t.powers.getD (r / 2) 0)
          (xs.drop (2 ^ depth)))).length := by
      rw [length_residues, length_residues, hlow.length, hhigh.length]
    refine ⟨minus ++ plus, ?_, hpow ▸ hminusr.append hplusr, ?_⟩
    · simp only [split?, Nat.one_shiftLeft, hsum, hdiff, hminus, hplus, ok_bind, pure_eq_ok]
    · have hle : 2 ^ depth ≤ xs.length := by
        rw [hx.length, hpow]
        exact Nat.le_add_right _ _
      rw [residues_append, hminusv, hplusv, hsumv, hdiffv, ofCoefficients_zipWith_add hlen,
        ofCoefficients_zipWith_sub hlen, hhighv, ← values_succ_halves ht h,
        ← ofCoefficients_take_add_drop hle]

/-- Joining finds the vector whose values are the given ones, times two for each step. -/
theorem exists_join? (ht : t.Sound) {depth r : ℕ} (h : t.Splits depth r) {xs : List UInt64}
    (hx : Reduced t.prime (2 ^ depth) xs) :
    ∃ ys, t.join? depth (r / 2) xs = .ok ys ∧ Reduced t.prime (2 ^ depth) ys ∧
      t.values depth r (ofCoefficients (residues t.prime ys)) =
        (residues t.prime xs).map ((2 : ZMod t.prime.toNat) ^ depth * ·) := by
  -- The same induction in the other order: the two halves are joined before the step.
  induction depth generalizing r xs with
  | zero =>
    obtain ⟨x, rfl⟩ := List.length_eq_one_iff.1 hx.length
    exact ⟨[x], rfl, hx, by simp [values_zero, residues]⟩
  | succ depth ih =>
    have hpow : 2 ^ (depth + 1) = 2 ^ depth + 2 ^ depth := by ring
    obtain ⟨hfirst, hsecond⟩ := reduced_halves hx
    obtain ⟨minus, hminus, hminusr, hminusv⟩ := ih h.first hfirst
    obtain ⟨plus, hplus, hplusr, hplusv⟩ := ih h.second hsecond
    rw [h.second_half] at hplus
    obtain ⟨low, hlow, hlowr, hlowv⟩ := exists_addEach? ht.prime_le hminusr hplusr
    obtain ⟨diff, hdiff, hdiffr, hdiffv⟩ := exists_subEach? hminusr hplusr
    have hhigh := reduced_scaleEach ht.prime_pos (t.inversePowers.getD (r / 2) 0) hdiffr.length
    have hlen : (residues t.prime minus).length = (residues t.prime plus).length := by
      rw [length_residues, length_residues, hminusr.length, hplusr.length]
    have hlowf := congrArg ofCoefficients hlowv
    rw [ofCoefficients_zipWith_add hlen] at hlowf
    -- The power of `psi` that the difference was divided by cancels at the roots.
    have hhighf : C (t.root ^ (r / 2)) * ofCoefficients (residues t.prime
        (scaleEach t.prime (t.inversePowers.getD (r / 2) 0) diff)) =
        ofCoefficients (residues t.prime minus) - ofCoefficients (residues t.prime plus) := by
      rw [residues_scaleEach ht.prime_pos, ofCoefficients_map_mul, ← mul_assoc, ← C_mul,
        mul_comm (t.root ^ _), ht.residue_inversePowers _ h.half_lt, C_1, one_mul, hdiffv,
        ofCoefficients_zipWith_sub hlen]
    refine ⟨_, by simp only [join?, Nat.one_shiftLeft, hlow, hdiff, hminus, hplus, ok_bind,
      pure_eq_ok], hpow ▸ hlowr.append hhigh, ?_⟩
    -- A step of the join doubles both halves, as nothing is divided by two on the way.
    have htwice (f g : (ZMod t.prime.toNat)[X]) :
        f + g + (f - g) = C 2 * f ∧ f + g - (f - g) = C 2 * g := by
      rw [show (C 2 : (ZMod t.prime.toNat)[X]) = 2 from C_ofNat 2]
      exact ⟨by ring, by ring⟩
    rw [residues_append, ofCoefficients_append, length_residues, hlowr.length,
      values_succ_halves ht h, hlowf, hhighf, (htwice _ _).1, (htwice _ _).2, values_C_mul,
      values_C_mul, hminusv, hplusv, List.map_map, List.map_map]
    conv_rhs => rw [← List.take_append_drop (2 ^ depth) xs, residues_append, List.map_append]
    congr 1 <;> exact List.map_congr_left fun a _ => by simp only [Function.comp_apply]; ring

/-- Where the passes start: `X ^ N + 1 = X ^ N - psi ^ N`. -/
theorem splits_degree (ht : t.Sound) : t.Splits t.degree.log2 t.degree where
  dvd := dvd_of_eq ht.degree_eq.symm
  dvd_degree := dvd_of_eq ht.degree_eq.symm
  lt := by
    have := ht.one_lt_degree
    omega

/-- The values of a polynomial at the roots of `X ^ N + 1`. -/
noncomputable def rootValues (t : RootTable) (f : (ZMod t.prime.toNat)[X]) :
    List (ZMod t.prime.toNat) :=
  t.values t.degree.log2 t.degree f

/-- The transform exists for a reduced vector and holds the values at the roots. -/
theorem exists_forward? (ht : t.Sound) {xs : List UInt64} (hx : Reduced t.prime t.degree xs) :
    ∃ ys, t.forward? xs = .ok ys ∧ Reduced t.prime t.degree ys ∧
      residues t.prime ys = t.rootValues (ofCoefficients (residues t.prime xs)) := by
  have hx' : Reduced t.prime (2 ^ t.degree.log2) xs := ht.degree_eq ▸ hx
  obtain ⟨ys, hys, hred, hval⟩ := exists_split? ht (splits_degree ht) hx'
  exact ⟨ys, by rw [forward?, if_pos hx.length, hys], ht.degree_eq ▸ hred, hval⟩

/-- The inverse transform exists for a reduced vector, which is the one of its values. -/
theorem exists_inverse? (ht : t.Sound) {xs : List UInt64} (hx : Reduced t.prime t.degree xs) :
    ∃ ys, t.inverse? xs = .ok ys ∧ Reduced t.prime t.degree ys ∧
      t.rootValues (ofCoefficients (residues t.prime ys)) = residues t.prime xs := by
  have hx' : Reduced t.prime (2 ^ t.degree.log2) xs := ht.degree_eq ▸ hx
  obtain ⟨ys, hys, hred, hval⟩ := exists_join? ht (splits_degree ht) hx'
  refine ⟨_, by rw [inverse?, if_pos hx.length, hys, ok_bind, pure_eq_ok],
    reduced_scaleEach ht.prime_pos _ (hred.length.trans ht.degree_eq.symm), ?_⟩
  -- The doublings add up to `N`, which the last factor takes off again.
  have hscale : (2 : ZMod t.prime.toNat) ^ t.degree.log2 = (t.degree : ZMod t.prime.toNat) := by
    conv_rhs => rw [ht.degree_eq, Nat.cast_pow, Nat.cast_ofNat]
  rw [residues_scaleEach ht.prime_pos, ofCoefficients_map_mul, rootValues, values_C_mul, hval,
    List.map_map, hscale]
  conv_rhs => rw [← List.map_id (residues t.prime xs)]
  apply List.map_congr_left
  intro a _
  rw [Function.comp_apply, ← mul_assoc, ht.residue_degreeInverse, one_mul, id]

/-- Reduced vectors with the same values at the roots are the same. -/
theorem eq_of_rootValues_eq (ht : t.Sound) {xs ys : List UInt64}
    (hx : Reduced t.prime t.degree xs) (hy : Reduced t.prime t.degree ys)
    (h : t.rootValues (ofCoefficients (residues t.prime xs)) =
      t.rootValues (ofCoefficients (residues t.prime ys))) : xs = ys := by
  have hlen : (residues t.prime xs).length = (residues t.prime ys).length := by
    rw [length_residues, length_residues, hx.length, hy.length]
  refine hx.eq_of_residues_eq hy (eq_of_ofCoefficients_eq hlen (sub_eq_zero.1 ?_))
  -- The difference has degree below `N` and vanishes at all the roots.
  refine eq_zero_of_eval_eq_zero ht (splits_degree ht) ?_ ?_
  · rw [← ofCoefficients_zipWith_sub hlen]
    refine natDegree_lt_of_degree_lt (Nat.two_pow_pos _).ne' ?_
    refine (degree_ofCoefficients_lt _).trans_eq ?_
    rw [List.length_zipWith, ← hlen, min_self, length_residues, hx.length, ← ht.degree_eq]
  · intro k hk
    rw [eval_sub, sub_eq_zero]
    exact List.map_inj_left.1 h k hk

/-- The inverse undoes the transform. -/
theorem inverse?_of_forward? (ht : t.Sound) {xs ys : List UInt64}
    (hx : Reduced t.prime t.degree xs) (h : t.forward? xs = .ok ys) : t.inverse? ys = .ok xs := by
  obtain ⟨ys', hys', hred, hval⟩ := exists_forward? ht hx
  obtain rfl : ys' = ys := Except.ok.inj (hys'.symm.trans h)
  obtain ⟨zs, hzs, hzred, hzval⟩ := exists_inverse? ht hred
  rw [hzs, eq_of_rootValues_eq ht hzred hx (hzval.trans hval)]

/-- The transform undoes the inverse. -/
theorem forward?_of_inverse? (ht : t.Sound) {xs ys : List UInt64}
    (hx : Reduced t.prime t.degree xs) (h : t.inverse? xs = .ok ys) : t.forward? ys = .ok xs := by
  obtain ⟨ys', hys', hred, hval⟩ := exists_inverse? ht hx
  obtain rfl : ys' = ys := Except.ok.inj (hys'.symm.trans h)
  obtain ⟨zs, hzs, hzred, hzval⟩ := exists_forward? ht hred
  rw [hzs, hzred.eq_of_residues_eq hx (hzval.trans hval)]

end Passes

end RootTable

end EncryptedArithmetic

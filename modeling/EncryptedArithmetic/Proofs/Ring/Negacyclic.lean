import Mathlib.RingTheory.AdjoinRoot
import Mathlib.Data.List.GetD
import Mathlib.Data.ZMod.Basic
import Mathlib.Algebra.Order.BigOperators.Group.Finset

/-!
# The negacyclic ring

`R[X] / (X ^ N + 1)`, where `X ^ N = -1`. Coefficient lists are read as polynomials, and integer
polynomials are read in the ring over any `R`.

## Main results

* `coeff_modByMonic`: reducing a polynomial of degree below `2 * N` takes the upper half off the
  lower half. For a product this is the schoolbook formula `coeff_mul_modByMonic`.
* `abs_coeff_mul_modByMonic_le`: a coefficient of a product is at most the sum of the absolute
  coefficients of one factor times the largest one of the other.
* `exists_eq_C_mul_of_ofInt_eq_zero`: an integer polynomial that vanishes modulo `p` and `X ^ N + 1`
  is, reduced, `p` times an integer polynomial.
-/

namespace EncryptedArithmetic

open Polynomial

/-! ## Polynomials from coefficient lists -/

/-- The polynomial with the given coefficients, the constant one leading the list. -/
noncomputable def ofCoefficients {R : Type} [Semiring R] : List R → R[X]
  | [] => 0
  | a :: as => C a + X * ofCoefficients as

section Coefficients

variable {R : Type} [CommRing R]

@[simp]
theorem ofCoefficients_nil : ofCoefficients ([] : List R) = 0 := rfl

@[simp]
theorem ofCoefficients_cons (a : R) (as : List R) :
    ofCoefficients (a :: as) = C a + X * ofCoefficients as := rfl

theorem coeff_ofCoefficients (as : List R) (k : ℕ) :
    (ofCoefficients as).coeff k = as.getD k 0 := by
  induction as generalizing k with
  | nil => simp
  | cons a as ih =>
    cases k with
    | zero => simp
    | succ k => simp [coeff_C_succ, ih]

theorem ofCoefficients_eq_zero {as : List R} (h : ∀ a ∈ as, a = 0) : ofCoefficients as = 0 := by
  ext k
  rw [coeff_ofCoefficients, coeff_zero, List.getD_eq_getElem?_getD]
  rcases ha : as[k]? with _ | a
  · rfl
  · exact h a (List.mem_of_getElem? ha)

theorem degree_ofCoefficients_lt (as : List R) : (ofCoefficients as).degree < as.length :=
  (degree_lt_iff_coeff_zero _ _).2 fun k hk => by
    rw [coeff_ofCoefficients, List.getD_eq_default _ _ hk]

/-- Lists of one length are told apart by their polynomials. -/
theorem eq_of_ofCoefficients_eq {as bs : List R} (hlen : as.length = bs.length)
    (h : ofCoefficients as = ofCoefficients bs) : as = bs := by
  apply List.ext_getElem hlen
  intro i hi hj
  have hcoeff := congrArg (fun f => coeff f i) h
  simpa [coeff_ofCoefficients, hi, hj] using hcoeff

theorem natDegree_lt_of_degree_lt {n : ℕ} (hn : n ≠ 0) {f : R[X]} (hf : f.degree < n) :
    f.natDegree < n := by
  rcases eq_or_ne f 0 with rfl | hne
  · simpa using Nat.pos_of_ne_zero hn
  · exact (natDegree_lt_iff_degree_lt hne).2 hf

theorem ofCoefficients_append (as bs : List R) :
    ofCoefficients (as ++ bs) = ofCoefficients as + X ^ as.length * ofCoefficients bs := by
  induction as with
  | nil => simp
  | cons a as ih =>
    rw [List.cons_append, ofCoefficients_cons, ih, ofCoefficients_cons, List.length_cons, pow_succ]
    ring

theorem ofCoefficients_zipWith_add {as bs : List R} (h : as.length = bs.length) :
    ofCoefficients (as.zipWith (· + ·) bs) = ofCoefficients as + ofCoefficients bs := by
  ext k
  simp only [coeff_add, coeff_ofCoefficients, List.getD_eq_getElem?_getD, List.getElem?_zipWith]
  by_cases hk : k < as.length
  · simp [hk, h ▸ hk]
  · simp [hk, h ▸ hk]

theorem ofCoefficients_zipWith_sub {as bs : List R} (h : as.length = bs.length) :
    ofCoefficients (as.zipWith (· - ·) bs) = ofCoefficients as - ofCoefficients bs := by
  ext k
  simp only [coeff_sub, coeff_ofCoefficients, List.getD_eq_getElem?_getD, List.getElem?_zipWith]
  by_cases hk : k < as.length
  · simp [hk, h ▸ hk]
  · simp [hk, h ▸ hk]

theorem ofCoefficients_map_mul (c : R) (as : List R) :
    ofCoefficients (as.map (· * c)) = C c * ofCoefficients as := by
  induction as with
  | nil => simp
  | cons a as ih =>
    rw [List.map_cons, ofCoefficients_cons, ih, ofCoefficients_cons, C_mul]
    ring

/-- The value of a polynomial is a sum over its coefficients. -/
theorem eval₂_ofCoefficients {S : Type} [CommRing S] (f : R →+* S) (x : S) (as : List R) :
    (ofCoefficients as).eval₂ f x = ∑ j ∈ Finset.range as.length, f (as.getD j 0) * x ^ j := by
  induction as with
  | nil => simp
  | cons a as ih =>
    rw [ofCoefficients_cons, eval₂_add, eval₂_C, eval₂_mul, eval₂_X, ih, List.length_cons,
      Finset.sum_range_succ', Finset.mul_sum]
    simp only [List.getD_cons_zero, List.getD_cons_succ, pow_zero, mul_one, pow_succ]
    rw [add_comm]
    congr 1
    exact Finset.sum_congr rfl fun j _ => by ring

theorem map_ofCoefficients {S : Type} [CommRing S] (f : R →+* S) (as : List R) :
    (ofCoefficients as).map f = ofCoefficients (as.map f) := by
  induction as with
  | nil => simp
  | cons a as ih => simp [ih]

end Coefficients

/-! ## Reduction modulo `X ^ N + 1` -/

/-- The ring `R[X] / (X ^ N + 1)`. -/
abbrev NegacyclicRing (N : ℕ) (R : Type) [CommRing R] :=
  AdjoinRoot (X ^ N + 1 : R[X])

namespace NegacyclicRing

section Modulus

variable {R : Type} [CommRing R] {N : ℕ}

theorem monic_modulus (hN : N ≠ 0) : (X ^ N + 1 : R[X]).Monic := by
  rw [← C_1]
  exact monic_X_pow_add_C 1 hN

theorem degree_modulus [Nontrivial R] (hN : N ≠ 0) : (X ^ N + 1 : R[X]).degree = N := by
  rw [← C_1]
  exact degree_X_pow_add_C (Nat.pos_of_ne_zero hN) 1

theorem degree_modByMonic_lt [Nontrivial R] (hN : N ≠ 0) (f : R[X]) :
    (f %ₘ (X ^ N + 1)).degree < N := by
  rw [← degree_modulus (R := R) hN]
  exact Polynomial.degree_modByMonic_lt f (monic_modulus hN)

theorem mk_modByMonic (f : R[X]) :
    AdjoinRoot.mk (X ^ N + 1 : R[X]) (f %ₘ (X ^ N + 1)) = AdjoinRoot.mk _ f := by
  rw [modByMonic_eq_sub_mul_div, map_sub, map_mul, AdjoinRoot.mk_self, zero_mul, sub_zero]

/-- Polynomials below the degree `N` are told apart by the ring. -/
theorem eq_of_mk_eq [Nontrivial R] (hN : N ≠ 0) {f g : R[X]} (hf : f.degree < N)
    (hg : g.degree < N) (h : AdjoinRoot.mk (X ^ N + 1 : R[X]) f = AdjoinRoot.mk _ g) : f = g := by
  by_contra hne
  refine (monic_modulus hN).not_dvd_of_degree_lt (sub_ne_zero.2 hne) ?_ (AdjoinRoot.mk_eq_mk.1 h)
  rw [degree_modulus hN]
  exact lt_of_le_of_lt (degree_sub_le f g) (max_lt hf hg)

/-- Reducing takes the coefficients from `N` on off the lower ones. -/
theorem coeff_modByMonic [Nontrivial R] (hN : N ≠ 0) {f : R[X]} (hf : f.natDegree < 2 * N) {k : ℕ}
    (hk : k < N) : (f %ₘ (X ^ N + 1)).coeff k = f.coeff k - f.coeff (k + N) := by
  -- The remainder is guessed and shown to be one.
  have hlow : (∑ i ∈ Finset.range N, monomial i (f.coeff i - f.coeff (i + N))).degree < N :=
    (degree_lt_iff_coeff_zero _ _).2 fun m hm => by
      rw [finsetSum_coeff]
      refine Finset.sum_eq_zero fun i hi => coeff_monomial_of_ne _ ?_
      have := Finset.mem_range.1 hi
      omega
  -- `f` is its lower half plus `X ^ N` times its upper half, and `X ^ N` is `(X ^ N + 1) - 1`.
  have hsplit : (∑ i ∈ Finset.range N, monomial i (f.coeff i - f.coeff (i + N))) +
      (X ^ N + 1) * ∑ i ∈ Finset.range N, monomial i (f.coeff (i + N)) = f := by
    conv_rhs => rw [as_sum_range' f (N + N) (by omega), Finset.sum_range_add]
    have hupper : X ^ N * ∑ i ∈ Finset.range N, monomial i (f.coeff (i + N)) =
        ∑ i ∈ Finset.range N, monomial (N + i) (f.coeff (N + i)) := by
      rw [Finset.mul_sum]
      exact Finset.sum_congr rfl fun i _ => by rw [X_pow_mul_monomial, Nat.add_comm i N]
    rw [add_mul, one_mul, hupper]
    simp only [map_sub, Finset.sum_sub_distrib]
    ring
  -- Division with remainder is unique, so the guess is the remainder.
  have hmod := (div_modByMonic_unique _ _ (monic_modulus hN)
    ⟨hsplit, by rw [degree_modulus hN]; exact hlow⟩).2
  rw [hmod, finsetSum_coeff, Finset.sum_eq_single k]
  · rw [coeff_monomial_same]
  · exact fun i _ hne => coeff_monomial_of_ne _ hne.symm
  · exact fun hmem => absurd (Finset.mem_range.2 hk) hmem

theorem natDegree_mul_lt (hN : N ≠ 0) {f g : R[X]} (hf : f.degree < N) (hg : g.degree < N) :
    (f * g).natDegree < 2 * N := by
  have hf' := natDegree_lt_of_degree_lt hN hf
  have hg' := natDegree_lt_of_degree_lt hN hg
  exact lt_of_le_of_lt natDegree_mul_le (by omega)

/-- The product of two polynomials below the degree `N` is reduced as in the schoolbook: products
of terms whose exponents reach `N` enter with a minus sign. -/
theorem coeff_mul_modByMonic [Nontrivial R] (hN : N ≠ 0) {f g : R[X]} (hf : f.degree < N)
    (hg : g.degree < N) {k : ℕ} (hk : k < N) :
    (f * g %ₘ (X ^ N + 1)).coeff k =
      ∑ ij ∈ Finset.HasAntidiagonal.antidiagonal k, f.coeff ij.1 * g.coeff ij.2 -
        ∑ ij ∈ Finset.HasAntidiagonal.antidiagonal (k + N), f.coeff ij.1 * g.coeff ij.2 := by
  rw [coeff_modByMonic hN (natDegree_mul_lt hN hf hg) hk, coeff_mul, coeff_mul]

end Modulus

/-! ## Integer polynomials -/

section Integers

variable {N : ℕ}

/-- What an integer polynomial is in the ring over `R`. -/
noncomputable def ofInt (N : ℕ) (R : Type) [CommRing R] : ℤ[X] →+* NegacyclicRing N R :=
  (AdjoinRoot.mk _).comp (mapRingHom (Int.castRingHom R))

theorem ofInt_apply (R : Type) [CommRing R] (f : ℤ[X]) :
    ofInt N R f = AdjoinRoot.mk _ (f.map (Int.castRingHom R)) := rfl

theorem ofInt_modByMonic (R : Type) [CommRing R] (hN : N ≠ 0) (f : ℤ[X]) :
    ofInt N R (f %ₘ (X ^ N + 1)) = ofInt N R f := by
  rw [ofInt_apply, map_modByMonic _ (monic_modulus hN)]
  simp only [Polynomial.map_add, Polynomial.map_pow, map_X, Polynomial.map_one]
  rw [mk_modByMonic, ofInt_apply]

/-- An integer polynomial that vanishes modulo `p` is `p` times an integer polynomial, once it is
reduced. -/
theorem exists_eq_C_mul_of_ofInt_eq_zero {p : ℕ} (hN : N ≠ 0) (hp : 1 < p) {f : ℤ[X]}
    (hf : ofInt N (ZMod p) f = 0) :
    ∃ v : ℤ[X], v.degree < N ∧ f %ₘ (X ^ N + 1) = C (p : ℤ) * v := by
  have : Fact (1 < p) := ⟨hp⟩
  have hdeg : (f %ₘ (X ^ N + 1)).degree < N := degree_modByMonic_lt hN f
  -- Below the degree `N` nothing is lost in the ring: all coefficients are multiples of `p`.
  have hzero : (f %ₘ (X ^ N + 1)).map (Int.castRingHom (ZMod p)) = 0 := by
    refine eq_of_mk_eq hN (lt_of_le_of_lt (degree_map_le) hdeg) (by simp) ?_
    rw [← ofInt_apply, ofInt_modByMonic _ hN, hf, map_zero]
  have hdvd : C (p : ℤ) ∣ f %ₘ (X ^ N + 1) := by
    apply (C_dvd_iff_dvd_coeff _ _).2
    intro k
    have hk := congrArg (fun g => coeff g k) hzero
    simp only [coeff_map, eq_intCast, coeff_zero] at hk
    exact (ZMod.intCast_zmod_eq_zero_iff_dvd _ p).1 hk
  obtain ⟨v, hv⟩ := hdvd
  refine ⟨v, (degree_lt_iff_coeff_zero _ _).2 fun k hk => ?_, hv⟩
  have hcoeff := (degree_lt_iff_coeff_zero _ _).1 hdeg k hk
  rw [hv, coeff_C_mul] at hcoeff
  exact (mul_eq_zero.1 hcoeff).resolve_left (by exact_mod_cast (by omega : p ≠ 0))

/-- A product of two polynomials, with the coefficients of one of them spelled out. -/
theorem coeff_mul_eq_sum {f g : ℤ[X]} (hf : f.degree < N) (m : ℕ) :
    (f * g).coeff m =
      ∑ i ∈ Finset.range N, f.coeff i * (if i ≤ m then g.coeff (m - i) else 0) := by
  -- Written as a sum of monomials, `f` shifts `g` by each exponent in turn.
  have hsum : f = ∑ i ∈ Finset.range N, C (f.coeff i) * X ^ i := by
    ext k
    rw [finsetSum_coeff]
    simp only [coeff_C_mul_X_pow]
    rw [Finset.sum_ite_eq (Finset.range N) k fun i => f.coeff i]
    by_cases hk : k < N
    · rw [if_pos (Finset.mem_range.2 hk)]
    · rw [if_neg (by simpa using hk), (degree_lt_iff_coeff_zero _ _).1 hf k (not_lt.1 hk)]
  conv_lhs => rw [hsum, Finset.sum_mul, finsetSum_coeff]
  apply Finset.sum_congr rfl
  intro i _
  rw [mul_assoc, coeff_C_mul, coeff_X_pow_mul']

/-- A coefficient of a reduced product is at most the sum of the absolute coefficients of one
factor times a bound on those of the other. -/
theorem abs_coeff_mul_modByMonic_le (hN : N ≠ 0) {f g : ℤ[X]} (hf : f.degree < N)
    (hg : g.degree < N) {b : ℤ} (hb : ∀ k, |g.coeff k| ≤ b) (k : ℕ) :
    |(f * g %ₘ (X ^ N + 1)).coeff k| ≤ (∑ i ∈ Finset.range N, |f.coeff i|) * b := by
  rcases lt_or_ge k N with hk | hk
  · rw [coeff_modByMonic hN (natDegree_mul_lt hN hf hg) hk, coeff_mul_eq_sum hf,
      coeff_mul_eq_sum hf, ← Finset.sum_sub_distrib, Finset.sum_mul]
    refine (Finset.abs_sum_le_sum_abs _ _).trans (Finset.sum_le_sum fun i hi => ?_)
    have hiN := Finset.mem_range.1 hi
    rw [← mul_sub, abs_mul]
    refine mul_le_mul_of_nonneg_left ?_ (abs_nonneg _)
    -- Each coefficient of `f` meets one of `g`: past `k` it is a wrapped one.
    rw [if_pos (by omega : i ≤ k + N)]
    rcases le_or_gt i k with hik | hik
    · rw [if_pos hik, (degree_lt_iff_coeff_zero _ _).1 hg (k + N - i) (by omega), sub_zero]
      exact hb _
    · rw [if_neg (by omega), zero_sub, abs_neg]
      exact hb _
  · rw [(degree_lt_iff_coeff_zero _ _).1 (degree_modByMonic_lt hN _) k hk, abs_zero]
    exact mul_nonneg (Finset.sum_nonneg fun i _ => abs_nonneg _) ((abs_nonneg _).trans (hb 0))

theorem sum_abs_coeff_le {f : ℤ[X]} {b : ℤ} (hb : ∀ k, |f.coeff k| ≤ b) :
    ∑ i ∈ Finset.range N, |f.coeff i| ≤ N * b := by
  refine (Finset.sum_le_sum fun i _ => hb i).trans_eq ?_
  rw [Finset.sum_const, Finset.card_range, nsmul_eq_mul]

/-- The absolute coefficients of a ternary polynomial count those that are not zero. -/
theorem sum_abs_coeff_ternary {cs : List ℤ} (h : ∀ c ∈ cs, c = -1 ∨ c = 0 ∨ c = 1) :
    ∑ i ∈ Finset.range cs.length, |(ofCoefficients cs).coeff i| = cs.countP (· ≠ 0) := by
  induction cs with
  | nil => rfl
  | cons c cs ih =>
    have htail := ih fun x hx => h x (List.mem_cons_of_mem c hx)
    simp only [coeff_ofCoefficients] at htail ⊢
    rw [List.length_cons, Finset.sum_range_succ']
    simp only [List.getD_cons_succ, List.getD_cons_zero]
    rw [htail, List.countP_cons]
    rcases h c List.mem_cons_self with rfl | rfl | rfl <;> simp

theorem modByMonic_sum (n : ℕ) (f : ℕ → ℤ[X]) (g : ℤ[X]) :
    (∑ j ∈ Finset.range n, f j) %ₘ g = ∑ j ∈ Finset.range n, f j %ₘ g := by
  induction n with
  | zero => simp
  | succ n ih => rw [Finset.sum_range_succ, Finset.sum_range_succ, add_modByMonic, ih]

end Integers

/-! ## Values at the roots of `X ^ N + 1` -/

section Roots

variable {R : Type} [CommRing R] {N : ℕ}

/-- The value of an element at a root of `X ^ N + 1`. -/
noncomputable def evalAt {ζ : R} (hζ : ζ ^ N = -1) : NegacyclicRing N R →+* R :=
  AdjoinRoot.lift (RingHom.id R) ζ (by simp [hζ])

@[simp]
theorem evalAt_mk {ζ : R} (hζ : ζ ^ N = -1) (f : R[X]) :
    evalAt hζ (AdjoinRoot.mk _ f) = f.eval ζ := by
  rw [evalAt, AdjoinRoot.lift_mk, eval₂_id]

end Roots

end NegacyclicRing

end EncryptedArithmetic

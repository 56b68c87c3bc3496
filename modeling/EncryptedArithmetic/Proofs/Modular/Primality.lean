import EncryptedArithmetic.Proofs.Modular.StrongTest
import Mathlib.NumberTheory.FermatPsp
import Mathlib.Tactic.ReduceModChar

/-!
# The primality test decides

Modulo a prime there are no square roots of one but one and minus one, so no base refutes a prime
and every prime passes the test. A composite word that passes would be a strong pseudoprime to all
of the first twelve primes. That there is none below a limit is a fact about numbers that was found
by computation; it is a hypothesis here, `NoStrongPseudoprimeBelow`, and below any limit for which
it holds the test is right. It was found to hold for all words. It fails from
`318665857834031151167461` on, which lies beyond all words and below `33 * 10 ^ 23`, the limit for
thirteen primes.

## Main definitions

* `StrongPseudoprime`: a composite number that passes the strong test to a base.
* `NoStrongPseudoprimeBelow`: the first twelve primes refute every composite number below a limit.

## Main results

* `isPrime_of_prime`: every prime passes.
* `testExact_of_lt`: below the limit the test is exact.
* `not_noStrongPseudoprimeBelow`: the first twelve primes do not reach as far as thirteen do.
* `isPrime_spec`: the test on all words.
-/

namespace EncryptedArithmetic.Modular

/-- A composite number `n = odd * 2 ^ twos + 1` for which the power `odd` of a base is one, or the
power `odd * 2 ^ j` minus one for some `j < twos`, as it would be for a prime. -/
structure StrongPseudoprime (n base : ℕ) : Prop where
  one_lt : 1 < n
  not_prime : ¬n.Prime
  odd : Odd n
  exists_eq : ∃ odd twos, Odd odd ∧ n = odd * 2 ^ twos + 1 ∧
    ((base : ZMod n) ^ odd = 1 ∨ ∃ j < twos, (base : ZMod n) ^ (odd * 2 ^ j) = -1)

/-- No number below the limit is a strong pseudoprime to all of the first twelve primes. -/
def NoStrongPseudoprimeBelow (limit : ℕ) : Prop :=
  ∀ n < limit, ¬∀ base ≤ 37, base.Prime → StrongPseudoprime n base

variable {n : UInt64}

/-! ## Primes -/

/-- Repeated squaring gets to one by way of minus one, where it does not start from one. -/
theorem eq_one_or_exists_pow_eq_neg_one {K : Type} [Ring K] [NoZeroDivisors K] {x : K} {t : ℕ}
    (h : x ^ 2 ^ t = 1) : x = 1 ∨ ∃ j < t, x ^ 2 ^ j = -1 := by
  induction t with
  | zero => exact .inl (by rwa [pow_zero, pow_one] at h)
  | succ t ih =>
    rw [pow_succ, pow_mul, sq, mul_self_eq_one_iff] at h
    rcases h with h | h
    · exact (ih h).imp_right fun ⟨j, hj, hpow⟩ => ⟨j, Nat.lt_succ_of_lt hj, hpow⟩
    · exact .inr ⟨t, Nat.lt_succ_self t, h⟩

/-- No base refutes a prime. -/
theorem passes_of_prime (hn : n.toNat.Prime) {odd base : UInt64} {twos : ℕ} (htwos : twos ≠ 0)
    (heq : n.toNat - 1 = odd.toNat * 2 ^ twos) : passes n odd twos base := by
  have : Fact n.toNat.Prime := ⟨hn⟩
  rw [passes_iff (UInt64.lt_iff_toNat_lt.2 hn.one_lt) htwos]
  refine or_iff_not_imp_left.2 fun hbase => ?_
  -- The power `n - 1` of the base is one, and it comes from the power `odd` by squaring.
  have hfermat : (residue n base ^ odd.toNat) ^ 2 ^ twos = 1 := by
    rw [← pow_mul, ← heq, ZMod.pow_card_sub_one_eq_one hbase]
  simpa only [← pow_mul] using eq_one_or_exists_pow_eq_neg_one hfermat

/-- Every prime passes. -/
theorem isPrime_of_prime (hn : n.toNat.Prime) : isPrime n := by
  rcases Nat.lt_or_ge 3 n.toNat with hthree | hsmall
  · have hodd : n.toNat % 2 = 1 := Nat.odd_iff.1 (hn.odd_of_ne_two (by omega))
    obtain ⟨-, htwos, heq⟩ := oddPart_pred hn.one_lt hodd
    exact (isPrime_iff hthree).2 ⟨hodd, fun base _ => passes_of_prime hn htwos heq⟩
  · -- Two and three are answered without a test.
    have htwo : ¬n < 2 := fun hlt => Nat.not_lt.2 hn.two_le (UInt64.lt_iff_toNat_lt.1 hlt)
    rw [isPrime, if_neg htwo, if_pos (UInt64.lt_iff_toNat_lt.2 (Nat.lt_succ_of_le hsmall))]

/-! ## Composite numbers -/

/-- A strong pseudoprime is a pseudoprime: the power in question leads to one by squaring. -/
theorem StrongPseudoprime.fermatPsp {n base : ℕ} (h : StrongPseudoprime n base) (hbase : 1 ≤ base) :
    n.FermatPsp base := by
  obtain ⟨odd, twos, -, heq, hpow⟩ := h.exists_eq
  refine ⟨?_, h.not_prime, h.one_lt⟩
  have hpred : n - 1 = odd * 2 ^ twos := by omega
  have hone : (base : ZMod n) ^ (n - 1) = 1 := by
    rw [hpred, pow_mul]
    rcases hpow with hone | ⟨j, hj, hminus⟩
    · rw [hone, one_pow]
    · obtain ⟨k, rfl⟩ := Nat.exists_eq_add_of_lt hj
      rw [← pow_mul, add_assoc, pow_add, ← mul_assoc, pow_mul, hminus, pow_succ, pow_mul']
      simp
  rw [Nat.probablePrime_iff_modEq n hbase, ← ZMod.natCast_eq_natCast_iff]
  simpa using hone

/-- A number that passes the strong test to the base two is two or odd. -/
theorem StrongProbablePrime.odd {n : ℕ} (h : StrongProbablePrime n 2) (hn : n ≠ 2) : Odd n := by
  obtain ⟨odd, twos, hodd, heq, hpow⟩ := h
  rcases Nat.eq_zero_or_pos twos with rfl | hpos
  · -- Then the number is even, and modulo an even number no power of two is one.
    have htwo : 2 ∣ n := by
      obtain ⟨m, rfl⟩ := hodd
      omega
    have hzero : (2 : ZMod n) ≠ 0 := by
      intro hzero
      have hdvd := (ZMod.natCast_eq_zero_iff 2 n).1 (by exact_mod_cast hzero)
      have := Nat.le_of_dvd two_pos hdvd
      have := hodd.pos
      omega
    have hcast := hpow.resolve_left (by exact_mod_cast hzero)
    simp only [Nat.not_lt_zero, false_and, exists_false, or_false] at hcast
    have hmap := congrArg (ZMod.castHom htwo (ZMod 2)) hcast
    rw [map_pow, map_natCast, map_one, ZMod.natCast_self, zero_pow hodd.pos.ne'] at hmap
    exact absurd hmap zero_ne_one
  · rw [heq, Nat.odd_add_one, Nat.not_odd_iff_even]
    exact ((even_two.pow_of_ne_zero hpos.ne').mul_left odd)

/-- Below a limit up to which no number is a strong pseudoprime to all of the bases, the test is
exact. -/
theorem testExact_of_lt {limit : ℕ} (hlimit : NoStrongPseudoprimeBelow limit)
    (hn : n.toNat < limit) : TestExact n := by
  intro hpasses
  by_contra hprime
  have hodd := (hpasses 2 (by decide) Nat.prime_two).odd fun heq => hprime (heq ▸ Nat.prime_two)
  refine hlimit _ hn fun base hle hbase => ?_
  obtain ⟨odd, twos, hpart, heq, hpow⟩ := hpasses base hle hbase
  have hone : 1 < n.toNat := by
    have := Nat.mul_pos hpart.pos (Nat.two_pow_pos twos)
    omega
  -- A prime base is a multiple of no number but itself and one.
  have hzero : (base : ZMod n.toNat) ≠ 0 := by
    rw [Ne, ZMod.natCast_eq_zero_iff, Nat.dvd_prime hbase]
    rintro (heq | heq)
    · omega
    · exact hprime (heq ▸ hbase)
  exact ⟨hone, hprime, hodd, odd, twos, hpart, heq, hpow.resolve_left hzero⟩

/-! ## How far the first twelve primes reach -/

/-- The product of the primes `399165290221` and `798330580441` passes the strong test to all of the
first twelve primes. -/
theorem strongPseudoprime_of_le {base : ℕ} (hle : base ≤ 37) (hbase : base.Prime) :
    StrongPseudoprime 318665857834031151167461 base where
  one_lt := by decide
  not_prime := by
    have hproduct : 399165290221 * 798330580441 = 318665857834031151167461 := rfl
    exact Nat.not_prime_of_mul_eq hproduct (by decide) (by decide)
  odd := by decide
  exists_eq := by
    refine ⟨79666464458507787791865, 2, by decide, rfl, ?_⟩
    have hcases : base ∈ [5, 17] ∨ base ∈ [3, 11, 13, 19, 29] ∨ base ∈ [2, 7, 23, 31, 37] := by
      revert hbase
      interval_cases base <;> decide
    -- For two of the bases the first power is one, for five it is minus one, and for the others its
    -- square is.
    rcases hcases with h | h | h
    · refine .inl ?_
      fin_cases h <;> rw [Nat.cast_ofNat] <;> reduce_mod_char
    · refine .inr ⟨0, by decide, ?_⟩
      rw [pow_zero, mul_one]
      fin_cases h <;> rw [Nat.cast_ofNat] <;> reduce_mod_char
    · refine .inr ⟨1, by decide, ?_⟩
      rw [pow_one]
      fin_cases h <;> rw [Nat.cast_ofNat] <;> reduce_mod_char

/-- Below `33 * 10 ^ 23` no number is a strong pseudoprime to the first thirteen primes, but to the
first twelve there is one. -/
theorem not_noStrongPseudoprimeBelow : ¬NoStrongPseudoprimeBelow (33 * 10 ^ 23) := fun hnone =>
  hnone 318665857834031151167461 (by norm_num) fun _ => strongPseudoprime_of_le

/-! ## All words -/

/-- Every word that is a prime passes the test. Every word that passes is a prime, if no number
below a limit above it is a strong pseudoprime to all of the first twelve primes. The third part
says so for every limit, and its case `2 ^ 64`, which covers all words, is the one with content. The
second part is the case `33 * 10 ^ 23`, the limit that is known for thirteen primes; for twelve its
premise does not hold (`not_noStrongPseudoprimeBelow`). -/
theorem isPrime_spec (n : UInt64) :
    (n.toNat.Prime → isPrime n) ∧
    (NoStrongPseudoprimeBelow (33 * 10 ^ 23) → isPrime n → n.toNat.Prime) ∧
    ∀ limit, NoStrongPseudoprimeBelow limit → n.toNat < limit → isPrime n → n.toNat.Prime := by
  have hwords : n.toNat < 33 * 10 ^ 23 := n.toNat_lt.trans (by norm_num)
  exact ⟨isPrime_of_prime, fun hlimit => prime_of_isPrime (testExact_of_lt hlimit hwords),
    fun _ hlimit hn => prime_of_isPrime (testExact_of_lt hlimit hn)⟩

/-- Below `341` the base two refutes every odd composite number, so `337`, which passes, is a
prime. -/
theorem isPrime_below_threeHundredFortyOne :
    NoStrongPseudoprimeBelow 341 ∧ isPrime 337 ∧ (337 : UInt64).toNat.Prime := by
  have hrefuted : ∀ n < 341, Odd n → ¬n.FermatPsp 2 := by decide +kernel
  have hlimit : NoStrongPseudoprimeBelow 341 := fun n hn hall => by
    have htwo := hall 2 (by decide) Nat.prime_two
    exact hrefuted n hn htwo.odd (htwo.fermatPsp one_le_two)
  have hprime := (isPrime_spec 337).2.2 341 hlimit (by decide) rfl
  exact ⟨hlimit, (isPrime_spec 337).1 hprime, hprime⟩

end EncryptedArithmetic.Modular

import EncryptedArithmetic.Modular.Prime
import EncryptedArithmetic.Proofs.Modular.Residue
import Mathlib.Algebra.Ring.Parity
import Mathlib.Tactic.IntervalCases

/-!
# The strong test

What the primality test computes, in terms of powers modulo a word: a word passes exactly when it is
a strong probable prime to each of the bases. That no composite word is one for the first twelve
primes was found by exhaustive search. It is not proved here: `TestExact` says it of one word, and
every use of it is a hypothesis.

## Main definitions

* `StrongProbablePrime`: the strong test of a number to a base.
* `TestExact`: a word that is a strong probable prime to the first twelve primes is a prime.

## Main results

* `passes_iff` and `strongProbablePrime_of_isPrime`: the test on words is the strong test.
* `prime_of_isPrime`: what passes is a prime, where the test is exact.
-/

namespace EncryptedArithmetic.Modular

/-- The strong test takes `n = odd * 2 ^ twos + 1` for a prime: the base is a multiple of `n`, or
its power `odd` is one, or one of its powers `odd * 2 ^ j` with `j < twos` is minus one. -/
def StrongProbablePrime (n base : ℕ) : Prop :=
  ∃ odd twos, Odd odd ∧ n = odd * 2 ^ twos + 1 ∧
    ((base : ZMod n) = 0 ∨ (base : ZMod n) ^ odd = 1 ∨
      ∃ j < twos, (base : ZMod n) ^ (odd * 2 ^ j) = -1)

/-- A word that passes the strong test to the first twelve primes is a prime. -/
def TestExact (q : UInt64) : Prop :=
  (∀ base ≤ 37, base.Prime → StrongProbablePrime q.toNat base) → q.toNat.Prime

/-! ## Words -/

variable {n : UInt64}

theorem eq_pred_iff {x : UInt64} (hx : x < n) : x = n - 1 ↔ residue n x = -1 := by
  have hn := pos_of_lt hx
  rw [← residue_pred hn]
  exact ⟨fun h => h ▸ rfl, eq_of_residue_eq hx (pred_lt hn)⟩

theorem eq_one_iff {x : UInt64} (hn : 1 < n) (hx : x < n) : x = 1 ↔ residue n x = 1 := by
  have hone : residue n 1 = 1 := by rw [residue, UInt64.toNat_one, Nat.cast_one]
  rw [← hone]
  exact ⟨fun h => h ▸ rfl, eq_of_residue_eq hx hn⟩

theorem mod_eq_zero_iff (a : UInt64) : a % n = 0 ↔ residue n a = 0 := by
  rw [residue, ZMod.natCast_eq_zero_iff, Nat.dvd_iff_mod_eq_zero, ← UInt64.toNat_mod,
    ← UInt64.toNat_inj, UInt64.toNat_zero]

/-! ## The parts of the test -/

/-- The factors of two that are taken out, and what is left. -/
theorem oddPart_spec {fuel : ℕ} (hn : n ≠ 0) (hfuel : n.toNat < 2 ^ fuel) :
    Odd (oddPart fuel n).1.toNat ∧ n.toNat = (oddPart fuel n).1.toNat * 2 ^ (oddPart fuel n).2 := by
  have hpos : n.toNat ≠ 0 := fun h => hn (UInt64.toNat_inj.1 h)
  -- By induction on the bits that are left to look at.
  induction fuel generalizing n with
  | zero =>
    rw [pow_zero] at hfuel
    omega
  | succ fuel ih =>
    rw [oddPart]
    split
    · rename_i hodd
      have hmod := congrArg UInt64.toNat hodd
      rw [toNat_and_one] at hmod
      exact ⟨Nat.odd_iff.2 hmod, by rw [pow_zero, mul_one]⟩
    · rename_i heven
      have hmod : n.toNat % 2 ≠ 1 := fun h => heven (UInt64.toNat_inj.1 (toNat_and_one n ▸ h))
      have hhalf := toNat_shiftRight_one n
      have hne : (n >>> 1).toNat ≠ 0 := by omega
      obtain ⟨hodd, heq⟩ := ih (fun h => hne (congrArg UInt64.toNat h)) (by omega) hne
      refine ⟨hodd, ?_⟩
      rw [pow_succ, ← mul_assoc, ← heq, hhalf]
      omega

/-- Squaring `count` times meets minus one exactly when one of the powers is minus one. -/
theorem reachesMinusOne_iff (hn : 0 < n) {count : ℕ} {x : UInt64} :
    reachesMinusOne n count x ↔ ∃ j < count, residue n x ^ 2 ^ (j + 1) = -1 := by
  -- Each round looks at the square of what it has, so the exponent doubles.
  induction count generalizing x with
  | zero => simp [reachesMinusOne]
  | succ count ih =>
    have hsquare : residue n (mul x x n) = residue n x ^ 2 := by rw [residue_mul _ _ hn, sq]
    rw [reachesMinusOne, Bool.or_eq_true, beq_iff_eq, eq_pred_iff (mul_lt x x hn), ih, hsquare]
    constructor
    · rintro (hfirst | ⟨j, hj, hlater⟩)
      · exact ⟨0, Nat.succ_pos _, by rwa [zero_add, pow_one]⟩
      · exact ⟨j + 1, Nat.succ_lt_succ hj, by rwa [pow_succ', pow_mul]⟩
    · rintro ⟨j, hj, hpow⟩
      cases j with
      | zero => exact .inl (by rwa [zero_add, pow_one] at hpow)
      | succ j => exact .inr ⟨j, Nat.lt_of_succ_lt_succ hj, by rwa [pow_succ', pow_mul] at hpow⟩

/-- The test of `n = odd * 2 ^ twos + 1` to one base, in powers of the base. -/
theorem passes_iff (hn : 1 < n) {odd base : UInt64} {twos : ℕ} (htwos : twos ≠ 0) :
    passes n odd twos base ↔
      residue n base = 0 ∨ residue n base ^ odd.toNat = 1 ∨
        ∃ j < twos, residue n base ^ (odd.toNat * 2 ^ j) = -1 := by
  have hpos : 0 < n := UInt64.lt_trans (by decide) hn
  have hlt : pow base odd n < n := lt_of_toNat_eq_mod hpos (toNat_pow base odd hpos)
  simp only [passes, Bool.or_eq_true, beq_iff_eq, mod_eq_zero_iff, eq_one_iff hn hlt,
    eq_pred_iff hlt, reachesMinusOne_iff hpos, residue_pow base odd hpos, or_assoc]
  -- The first of the powers is compared on its own, the others one squaring after the other.
  refine or_congr_right (or_congr_right ⟨?_, ?_⟩)
  · rintro (hfirst | ⟨j, hj, hlater⟩)
    · exact ⟨0, Nat.pos_of_ne_zero htwos, by rwa [pow_zero, mul_one]⟩
    · exact ⟨j + 1, by omega, by rwa [pow_mul]⟩
  · rintro ⟨j, hj, hpow⟩
    cases j with
    | zero => exact .inl (by rwa [pow_zero, mul_one] at hpow)
    | succ j => exact .inr ⟨j, by omega, by rwa [pow_mul] at hpow⟩

/-! ## The test -/

theorem exists_testBase {base : ℕ} (hle : base ≤ 37) (hbase : base.Prime) :
    ∃ b ∈ testBases, b.toNat = base := by
  interval_cases base <;> first | (exfalso; revert hbase; decide) | decide

/-- The predecessor of an odd word has an odd part and at least one factor of two. -/
theorem oddPart_pred (hn : 1 < n.toNat) (hodd : n.toNat % 2 = 1) :
    Odd (oddPart 64 (n - 1)).1.toNat ∧ (oddPart 64 (n - 1)).2 ≠ 0 ∧
      n.toNat - 1 = (oddPart 64 (n - 1)).1.toNat * 2 ^ (oddPart 64 (n - 1)).2 := by
  have hpred := toNat_pred (UInt64.lt_iff_toNat_lt.2 (Nat.zero_lt_of_lt hn))
  have hne : n - 1 ≠ 0 := by
    intro hzero
    rw [hzero, UInt64.toNat_zero] at hpred
    omega
  obtain ⟨hpart, heq⟩ := oddPart_spec hne (n - 1).toNat_lt
  rw [hpred] at heq
  refine ⟨hpart, ?_, heq⟩
  intro hzero
  rw [hzero, pow_zero, mul_one] at heq
  have := Nat.odd_iff.1 hpart
  omega

/-- Above three a word passes if it is odd and no base refutes it. -/
theorem isPrime_iff (hn : 3 < n.toNat) :
    isPrime n ↔ n.toNat % 2 = 1 ∧
      ∀ base ∈ testBases, passes n (oddPart 64 (n - 1)).1 (oddPart 64 (n - 1)).2 base := by
  have htwo : ¬n < 2 := fun hlt =>
    Nat.lt_asymm (UInt64.lt_iff_toNat_lt.1 hlt) (Nat.lt_of_succ_lt hn)
  have hfour : ¬n < 4 := fun hlt => Nat.not_lt.2 hn (UInt64.lt_iff_toNat_lt.1 hlt)
  have hbit : n &&& 1 = 0 ↔ n.toNat % 2 = 0 := by
    rw [← UInt64.toNat_inj, toNat_and_one, UInt64.toNat_zero]
  rw [isPrime, if_neg htwo, if_neg hfour]
  split
  case isTrue heven => simp [hbit.1 heven]
  case isFalse hodd =>
    rw [List.all_eq_true, and_iff_right (Nat.mod_two_ne_zero.1 (hbit.not.1 hodd))]

/-- A word above three that passes is a strong probable prime to the first twelve primes. -/
theorem strongProbablePrime_of_isPrime (hn : 3 < n.toNat) (h : isPrime n) {base : ℕ}
    (hle : base ≤ 37) (hbase : base.Prime) : StrongProbablePrime n.toNat base := by
  obtain ⟨b, hb, rfl⟩ := exists_testBase hle hbase
  have hone : 1 < n.toNat := by omega
  obtain ⟨hodd, hpasses⟩ := (isPrime_iff hn).1 h
  obtain ⟨hpart, htwos, heq⟩ := oddPart_pred hone hodd
  exact ⟨_, _, hpart, by omega,
    (passes_iff (UInt64.lt_iff_toNat_lt.2 hone) htwos).1 (hpasses b hb)⟩

/-- Where the test is exact, what passes is a prime. -/
theorem prime_of_isPrime (hexact : TestExact n) (h : isPrime n) : n.toNat.Prime := by
  -- Two and three are answered without a test.
  rcases Nat.lt_or_ge 3 n.toNat with hn | hn
  · exact hexact fun base hle hbase => strongProbablePrime_of_isPrime hn h hle hbase
  · have htwo : 2 ≤ n.toNat := by
      by_contra hlt
      have hword : n < 2 := UInt64.lt_iff_toNat_lt.2 (Nat.lt_of_not_le hlt)
      rw [isPrime, if_pos hword] at h
      cases h
    interval_cases n.toNat
    · exact Nat.prime_two
    · exact Nat.prime_three

end EncryptedArithmetic.Modular

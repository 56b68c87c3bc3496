import EncryptedArithmetic.Proofs.Modular.Descent
import EncryptedArithmetic.Proofs.Modular.StrongTest
import Mathlib.NumberTheory.LucasPrimality
import Mathlib.Tactic.NormNum.Prime

/-!
# Powers and inverses in double words

A product of two words is formed in a double word, then reduced, and the residue is cut to a word
again. Here square and multiply is a loop that goes on until the exponent is zero, with no count of
the bits that are left, and every product and difference carries a guard. A product of two words is
always a double word, so no guard matters: for every base, every exponent and every positive modulus
the loop ends with the residue of the power. With the exponent `p - 2` it ends with the inverse
modulo a prime `p`.

## Main definitions

* `mulGuarded?`: the residue of a product that is formed in a double word.
* `powLoop?`: the loop of square and multiply.
* `powGuarded?`, `inverseGuarded?`: powers and inverses by way of the loop.

## Main results

* `mulGuarded?_eq`, `powGuarded?_eq`, `inverseGuarded?_eq`: no guard matters.
* `inverse?_eq_ok_iff`: the inverse modulo a prime is the only residue that is one.
* `pow?_inverse?_exact`: powers and inverses on the whole range of words.
-/

namespace EncryptedArithmetic.Modular

variable {m : UInt64} {bits : ℕ}

/-! ## Products -/

/-- A word as a double word. -/
def widen (a : UInt64) : BitVec 128 :=
  a.toBitVec.setWidth 128

/-- The lower half of a double word. -/
def narrow (x : BitVec 128) : UInt64 :=
  ⟨x.setWidth 64⟩

/-- The product of two double words, where it is one. -/
def wideProduct? (x y : BitVec 128) : Except Fault (BitVec 128) :=
  if x.umulOverflow y then .error .overflow else .ok (x * y)

/-- The residue of a product that is formed in a double word. -/
def mulGuarded? (a b m : UInt64) : Except Fault UInt64 := do
  let product ← wideProduct? (widen a) (widen b)
  if m = 0 then .error .divisionByZero else return narrow (product % widen m)

theorem toNat_widen (a : UInt64) : (widen a).toNat = a.toNat := by
  have hword := a.toNat_lt
  rw [widen, BitVec.toNat_setWidth, UInt64.toNat_toBitVec]
  exact Nat.mod_eq_of_lt (by omega)

/-- The product of two words is a double word. -/
theorem wideProduct?_widen (a b : UInt64) :
    ∃ x, wideProduct? (widen a) (widen b) = .ok x ∧ x.toNat = a.toNat * b.toNat := by
  have hlt : a.toNat * b.toNat < 2 ^ 128 := by
    have := Nat.mul_lt_mul'' a.toNat_lt b.toNat_lt
    omega
  have hfits : ¬(widen a).umulOverflow (widen b) := by
    simpa [BitVec.umulOverflow, toNat_widen] using hlt
  refine ⟨_, if_neg hfits, ?_⟩
  rw [BitVec.toNat_mul, toNat_widen, toNat_widen, Nat.mod_eq_of_lt hlt]

/-- A product is never too large for a double word, and its residue is a word again. -/
theorem mulGuarded?_eq (a b m : UInt64) : mulGuarded? a b m = mul? a b m := by
  obtain ⟨x, hx, hvalue⟩ := wideProduct?_widen a b
  rw [mulGuarded?, hx, ok_bind, mul?]
  split
  case isTrue => rfl
  case isFalse hm =>
    have hpos : 0 < m := UInt64.pos_iff_ne_zero.2 hm
    rw [pure_eq_ok, Except.ok.injEq, ← UInt64.toNat_inj, toNat_mul a b hpos, narrow]
    change (BitVec.setWidth 64 (x % widen m)).toNat = _
    rw [BitVec.toNat_setWidth, BitVec.toNat_umod, toNat_widen, hvalue, ← toNat_mul a b hpos]
    exact Nat.mod_eq_of_lt (mul a b m).toNat_lt

theorem mulGuarded?_of_pos (hm : 0 < m) (a b : UInt64) : mulGuarded? a b m = .ok (mul a b m) := by
  rw [mulGuarded?_eq, mul?, if_neg (UInt64.pos_iff_ne_zero.1 hm)]

/-! ## Powers -/

theorem toNat_shiftRight_one_lt {exp : UInt64} (hexp : exp ≠ 0) :
    (exp >>> 1).toNat < exp.toNat := by
  have hne : exp.toNat ≠ 0 := fun hzero => hexp (UInt64.toNat_inj.1 hzero)
  rw [toNat_shiftRight_one]
  omega

/-- Square and multiply until the exponent is zero. The accumulator takes the base up wherever the
lowest bit of the exponent is set. -/
def powLoop? (m base exp acc : UInt64) : Except Fault UInt64 :=
  if exp = 0 then .ok acc
  else do
    let acc ← if exp &&& 1 = 1 then mulGuarded? acc base m else .ok acc
    let base ← mulGuarded? base base m
    powLoop? m base (exp >>> 1) acc
termination_by exp.toNat
decreasing_by exact toNat_shiftRight_one_lt ‹_›

/-- The residue of a power, where there is one, by way of the loop. -/
def powGuarded? (base exp m : UInt64) : Except Fault UInt64 :=
  if m = 0 then .error .zeroModulus
  else if m = 1 then .ok 0
  else powLoop? m (base % m) exp 1

/-- With a bit left for every bit of the exponent, counting the bits does not end the loop early. -/
theorem powLoop?_eq_powFrom (hm : 0 < m) {exp : UInt64} (hexp : exp.toNat < 2 ^ bits)
    (base acc : UInt64) : powLoop? m base exp acc = .ok (powFrom m bits base exp acc) := by
  induction bits generalizing base exp acc with
  | zero =>
    obtain rfl : exp = 0 := UInt64.toNat_inj.1 (by simpa using hexp)
    rw [powLoop?, if_pos rfl, powFrom]
  | succ bits ih =>
    rw [powLoop?, powFrom]
    split
    case isTrue => rfl
    case isFalse hne =>
      have hrest : (exp >>> 1).toNat < 2 ^ bits := by
        rw [toNat_shiftRight_one]
        omega
      -- The product is formed only where the lowest bit is set, the square in any case.
      split
      case isTrue hbit =>
        simp only [mulGuarded?_of_pos hm, ok_bind, ih hrest]
      case isFalse hbit =>
        simp only [mulGuarded?_of_pos hm, ok_bind, ih hrest]

/-- The loop ends with the power. -/
theorem powGuarded?_eq (base exp m : UInt64) : powGuarded? base exp m = pow? base exp m := by
  rw [powGuarded?, pow?]
  split
  case isTrue => rfl
  case isFalse hm =>
    rw [pow]
    split
    case isTrue => rfl
    case isFalse => exact powLoop?_eq_powFrom (UInt64.pos_iff_ne_zero.2 hm) exp.toNat_lt _ _

/-- Every power modulo a positive word exists and is exact. -/
theorem exists_pow? (base exp : UInt64) (hm : 1 ≤ m.toNat) :
    ∃ r, pow? base exp m = .ok r ∧ r.toNat = base.toNat ^ exp.toNat % m.toNat := by
  have hpos : 0 < m := UInt64.lt_iff_toNat_lt.2 hm
  exact ⟨_, if_neg (UInt64.pos_iff_ne_zero.1 hpos), toNat_pow base exp hpos⟩

/-! ## Inverses -/

/-- The inverse modulo a prime, as a power by way of the loop. -/
def inverseGuarded? (a p : UInt64) : Except Fault UInt64 :=
  if p = 0 then .error .divisionByZero
  else if a % p = 0 then .error (.noInverse a p)
  else do powGuarded? (a % p) (← minus? p 2) p

/-- Two can be taken off: modulo one everything is zero. -/
theorem inverseGuarded?_eq (a p : UInt64) : inverseGuarded? a p = inverse? a p := by
  rw [inverseGuarded?, inverse?]
  split
  case isTrue => rfl
  case isFalse hp =>
    split
    case isTrue => rfl
    case isFalse ha =>
      -- A remainder that is not zero needs a modulus of at least two, so `p - 2` is no underflow.
      have htwo : 2 ≤ p := by
        have hne : p.toNat ≠ 0 := fun hzero => hp (UInt64.toNat_inj.1 hzero)
        have hrem : a.toNat % p.toNat ≠ 0 := fun hzero => ha (UInt64.toNat_inj.1 (by
          rw [UInt64.toNat_mod, hzero, UInt64.toNat_zero]))
        have hone : p.toNat ≠ 1 := fun hone => hrem (by rw [hone, Nat.mod_one])
        exact UInt64.le_iff_toNat_le.2 (show 2 ≤ p.toNat by omega)
      rw [minus?, if_pos htwo, ok_bind, powGuarded?_eq, pow?, if_neg hp]

section Prime

variable {p : UInt64} (hp : p.toNat.Prime)
include hp

/-- The inverse modulo a prime is the only residue whose product with the number is one. -/
theorem inverse?_eq_ok_iff {a x : UInt64} :
    inverse? a p = .ok x ↔
      1 ≤ x.toNat ∧ x.toNat < p.toNat ∧ a.toNat * x.toNat ≡ 1 [MOD p.toNat] := by
  have : Fact p.toNat.Prime := ⟨hp⟩
  have hclass (y : UInt64) :
      residue p a * residue p y = 1 ↔ a.toNat * y.toNat ≡ 1 [MOD p.toNat] := by
    rw [← ZMod.natCast_eq_natCast_iff, Nat.cast_mul, Nat.cast_one, residue, residue]
  constructor
  · intro h
    obtain ⟨hlt, hone⟩ := residue_mul_of_inverse? hp h
    refine ⟨Nat.one_le_iff_ne_zero.2 fun hzero => ?_, UInt64.lt_iff_toNat_lt.1 hlt,
      (hclass x).1 hone⟩
    rw [residue, residue, hzero, Nat.cast_zero, mul_zero] at hone
    exact zero_ne_one hone
  · rintro ⟨-, hlt, hone⟩
    have hproduct := (hclass x).2 hone
    have hunit : residue p a ≠ 0 := left_ne_zero_of_mul_eq_one hproduct
    obtain ⟨y, hy⟩ := exists_inverse? hp hunit
    obtain ⟨hylt, hyone⟩ := residue_mul_of_inverse? hp hy
    -- Both residues are the inverse of one class, and reduced residues are told apart by classes.
    have heq := mul_left_cancel₀ hunit (hyone.trans hproduct.symm)
    rw [hy, eq_of_residue_eq hylt (UInt64.lt_iff_toNat_lt.2 hlt) heq]

/-- What is no multiple of a prime has exactly one inverse among the numbers below the prime. -/
theorem exists_unique_inverse? {a : UInt64} (ha : ¬p.toNat ∣ a.toNat) :
    ∃ x, inverse? a p = .ok x ∧
      ∀ y : ℕ, (1 ≤ y ∧ y < p.toNat ∧ a.toNat * y ≡ 1 [MOD p.toNat]) ↔ y = x.toNat := by
  obtain ⟨x, hx⟩ := exists_inverse? (a := a) hp ((ZMod.natCast_eq_zero_iff _ _).not.2 ha)
  refine ⟨x, hx, fun y => ⟨fun hy => ?_, fun hy => hy ▸ (inverse?_eq_ok_iff hp).1 hx⟩⟩
  -- A number below the prime is a word.
  have hword : (UInt64.ofNat y).toNat = y :=
    UInt64.toNat_ofNat_of_lt' (hy.2.1.trans p.toNat_lt)
  have hinverse := (inverse?_eq_ok_iff (a := a) (x := .ofNat y) hp).2 (hword.symm ▸ hy)
  rw [← hword, Except.ok.inj (hinverse.symm.trans hx)]

end Prime

theorem inverse?_of_dvd {a p : UInt64} (hp : p.toNat.Prime) (ha : p.toNat ∣ a.toNat) :
    inverse? a p = .error (.noInverse a p) := by
  have hne : p ≠ 0 := fun hzero => Nat.not_prime_zero (by simpa [hzero] using hp)
  rw [inverse?, if_neg hne, if_pos ((mod_eq_zero_iff a).2 ((ZMod.natCast_eq_zero_iff _ _).2 ha))]

/-! ## The whole range -/

/-- For all words as base and exponent and every positive word as modulus the power exists, and it
is the residue of the power in the integers. Modulo every prime that is a word, each word that is no
multiple of the prime has an inverse, which is the only number from one to below the prime whose
product with the word leaves the remainder one; multiples of the prime have none. The loop with all
its guards has the same results, so nothing on the way is too large for a word or a double word. -/
theorem pow?_inverse?_exact :
    (∀ base exp m : UInt64, 1 ≤ m.toNat → ∃ r, pow? base exp m = .ok r ∧
      powGuarded? base exp m = .ok r ∧ r.toNat = base.toNat ^ exp.toNat % m.toNat) ∧
    ∀ p : UInt64, p.toNat.Prime → ∀ a : UInt64,
      (¬p.toNat ∣ a.toNat → ∃ x, inverse? a p = .ok x ∧ inverseGuarded? a p = .ok x ∧
        ∀ y : ℕ, (1 ≤ y ∧ y < p.toNat ∧ a.toNat * y ≡ 1 [MOD p.toNat]) ↔ y = x.toNat) ∧
      (p.toNat ∣ a.toNat → inverse? a p = .error (.noInverse a p)) := by
  refine ⟨fun base exp m hm => ?_, fun p hp a => ⟨fun ha => ?_, inverse?_of_dvd hp⟩⟩
  · obtain ⟨r, hr, hvalue⟩ := exists_pow? base exp hm
    exact ⟨r, hr, (powGuarded?_eq base exp m).trans hr, hvalue⟩
  · obtain ⟨x, hx, hunique⟩ := exists_unique_inverse? hp ha
    exact ⟨x, hx, (inverseGuarded?_eq a p).trans hx, hunique⟩

/-- The number `2 ^ 64 - 2 ^ 32 + 1` is a prime: the powers of `7` modulo it repeat only after all
the positive residues. -/
theorem prime_topWord : (18446744069414584321 : UInt64).toNat.Prime := by
  have hpos : (0 : UInt64) < 18446744069414584321 := by decide
  have hpower (e : UInt64) : residue 18446744069414584321 7 ^ e.toNat = 1 ↔
      pow 7 e 18446744069414584321 = 1 := by
    rw [← residue_pow 7 e hpos,
      eq_one_iff (by decide) (lt_of_toNat_eq_mod hpos (toNat_pow 7 e hpos))]
  -- Lucas's test at 7: its order is divided by no factor of the predecessor.
  refine lucas_primality _ (residue 18446744069414584321 7)
    ((hpower 18446744069414584320).2 (by decide +kernel)) fun q hq hdvd => ?_
  have hfactors : (18446744069414584321 : UInt64).toNat - 1 =
      2 ^ 32 * (3 * (5 * (17 * (257 * 65537)))) := rfl
  have hprimes : Nat.Prime 3 ∧ Nat.Prime 5 ∧ Nat.Prime 17 ∧ Nat.Prime 257 ∧ Nat.Prime 65537 := by
    norm_num
  obtain ⟨h3, h5, h17, h257, h65537⟩ := hprimes
  have hmem : q ∈ [2, 3, 5, 17, 257, 65537] := by
    rw [hfactors, hq.dvd_mul, hq.dvd_mul, hq.dvd_mul, hq.dvd_mul, hq.dvd_mul,
      hq.prime.dvd_pow_iff_dvd (by decide), Nat.prime_dvd_prime_iff_eq hq Nat.prime_two,
      Nat.prime_dvd_prime_iff_eq hq h3, Nat.prime_dvd_prime_iff_eq hq h5,
      Nat.prime_dvd_prime_iff_eq hq h17, Nat.prime_dvd_prime_iff_eq hq h257,
      Nat.prime_dvd_prime_iff_eq hq h65537] at hdvd
    simpa using hdvd
  have hpowers : ∀ q ∈ [2, 3, 5, 17, 257, 65537],
      pow 7 (.ofNat (18446744069414584320 / q)) 18446744069414584321 ≠ 1 := by decide +kernel
  have hword : (UInt64.ofNat (18446744069414584320 / q)).toNat = 18446744069414584320 / q :=
    UInt64.toNat_ofNat_of_lt' ((Nat.div_le_self _ q).trans_lt (by decide))
  have hne := (hpower _).not.2 (hpowers q hmem)
  rwa [hword] at hne

/-- Near the end of the words: minus one to an odd power, and the inverse of the largest word modulo
`2 ^ 64 - 2 ^ 32 + 1`. -/
theorem pow?_inverse?_topWord :
    powGuarded? 18446744073709551614 18446744073709551615 18446744073709551615 =
      .ok 18446744073709551614 ∧
    inverse? 18446744073709551615 18446744069414584321 = .ok 12297829378178067115 ∧
    inverse? 0 18446744069414584321 = .error (.noInverse 0 18446744069414584321) := by
  obtain ⟨hpow, hinverse⟩ := pow?_inverse?_exact
  refine ⟨?_, ?_, (hinverse _ prime_topWord 0).2 (dvd_zero _)⟩
  · have hvalue : pow 18446744073709551614 18446744073709551615 18446744073709551615 =
        18446744073709551614 := by decide +kernel
    obtain ⟨r, hr, hloop, -⟩ :=
      hpow 18446744073709551614 18446744073709551615 18446744073709551615 (by decide)
    rw [hloop, ← hr, pow?, if_neg (by decide), hvalue]
  · obtain ⟨x, hx, -, hunique⟩ :=
      (hinverse _ prime_topWord 18446744073709551615).1 (by decide +kernel)
    have hvalue := (hunique (12297829378178067115 : UInt64).toNat).1 (by decide +kernel)
    rw [hx, ← UInt64.toNat_inj.1 hvalue]

end EncryptedArithmetic.Modular

import EncryptedArithmetic.Proofs.Ring.MixedRadix
import Mathlib.Data.Int.ModEq
import Mathlib.Tactic.NormNum.Prime

/-!
# Exact reconstruction

Over distinct primes below `2 ^ 63` with a product `Q` below `2 ^ 1023`, any words are residues of
exactly one integer in `(-Q / 2, Q / 2]`, whether they are reduced or not. What is formed is the
sign and the magnitude of this integer, and no operation on the way leaves the words or the 1024-bit
integers it is performed in.

The range of an operation is stated in the integers and next to the step that performs it: each
predicate below recurses the way the computation does, and has one condition for each operation.

## Main definitions

* `Centered`: an integer with given residues in the range around zero.
* `StaysInRange`: no operation on the way to the integer wraps.

## Main result

* `centered?_of_distinct`: the integer exists, is the only one, and is the one that is formed.
-/

namespace EncryptedArithmetic.Reconstruction

open EncryptedArithmetic.Modular

/-- An integer with the given residues that is at most half the product of the primes, and above
the negated half. -/
structure Centered (residues primes : List UInt64) (x : ℤ) : Prop where
  low : -(product primes : ℤ) < 2 * x
  high : 2 * x ≤ product primes
  residue : ∀ e ∈ residues.zip primes, x ≡ e.1.toNat [ZMOD e.2.toNat]

/-! ## Operations in range -/

/-- A digit is found in words. For every known digit, the sum with the prime is a word, so is what
is left of it when the digit is taken off, and so is the exponent `q - 2` of the inverse. -/
def DigitInRange (q : UInt64) : UInt64 → List (UInt64 × UInt64) → Prop
  | _, [] => True
  | t, (d, p) :: known =>
    t.toNat + q.toNat < 2 ^ 64 ∧ (d % q).toNat ≤ t.toNat + q.toNat ∧ 2 ≤ q.toNat ∧
      ∃ inverse, inverse? (p % q) q = .ok inverse ∧
        DigitInRange q (mul ((t + q - d % q) % q) inverse q) known

/-- The digits of all remaining primes are found in words. -/
def DigitsInRange (known : List (UInt64 × UInt64)) : List (UInt64 × UInt64) → Prop
  | [] => True
  | (x, q) :: rest => DigitInRange q (x % q) known ∧
      ∃ d, digit? q (x % q) known = .ok d ∧ DigitsInRange (known ++ [(d, q)]) rest

/-- Digits are evaluated in 1024 bits: from the last digit on, the product with the prime and the
sum with the digit before it stay below `2 ^ 1024`. -/
def EvaluationInRange : List (UInt64 × UInt64) → Prop
  | [] => True
  | (d, q) :: rest =>
    EvaluationInRange rest ∧ (ofDigits rest).toNat * q.toNat + d.toNat < 2 ^ 1024

/-- No operation on the way from residues to their integer wraps. -/
structure StaysInRange (residues primes : List UInt64) : Prop where
  digits : DigitsInRange [] (residues.zip primes)
  /-- Each partial product of the primes stays below `2 ^ 1024`. -/
  products : ∀ i q, primes[i]? = some q →
    (modulus (primes.take i)).toNat * q.toNat < 2 ^ 1024
  /-- The digits are evaluated in range, twice their value stays below `2 ^ 1024`, and the value can
  be taken off the product of the primes. -/
  value : ∃ ds, digitsFrom? [] (residues.zip primes) = .ok ds ∧ EvaluationInRange ds ∧
    2 * (ofDigits ds).toNat < 2 ^ 1024 ∧ (ofDigits ds).toNat ≤ (modulus primes).toNat

variable {q t d : UInt64} {known rest ds : List (UInt64 × UInt64)} {residues primes : List UInt64}

/-- The guard on the sum is the only one that is needed: a digit that is found is found in words. -/
theorem digitInRange_of_digit? (hq : 2 ≤ q.toNat) (h : digit? q t known = .ok d) :
    DigitInRange q t known := by
  -- By induction on the known digits, as they are taken off.
  induction known generalizing t with
  | nil => trivial
  | cons e known ih =>
    obtain ⟨e, p⟩ := e
    rw [digit?] at h
    split at h
    swap
    · cases h
    rename_i hfits
    rw [bind_eq_ok_iff] at h
    obtain ⟨inverse, hinverse, h⟩ := h
    have hle : (e % q).toNat ≤ q.toNat := by
      rw [UInt64.toNat_mod]
      exact (Nat.mod_lt _ (by omega)).le
    exact ⟨sumFits_iff.1 hfits, by omega, hq, inverse, hinverse, ih h⟩

theorem digitsInRange_of_digitsFrom? (hprime : ∀ p ∈ rest.map Prod.snd, p.toNat.Prime)
    (h : digitsFrom? known rest = .ok ds) : DigitsInRange known rest := by
  induction rest generalizing known with
  | nil => trivial
  | cons entry rest ih =>
    obtain ⟨x, q⟩ := entry
    obtain ⟨hq, hrest⟩ := List.forall_mem_cons.1 hprime
    rw [digitsFrom?] at h
    split at h
    · cases h
    rw [bind_eq_ok_iff] at h
    obtain ⟨d, hd, h⟩ := h
    exact ⟨digitInRange_of_digit? hq.two_le hd, d, hd, ih hrest h⟩

/-- Digits below their primes are evaluated in range when their value leaves room for its double. -/
theorem evaluationInRange_of_value_lt (hlt : ∀ e ∈ ds, e.1 < e.2) (hvalue : value ds < 2 ^ 1023) :
    EvaluationInRange ds := by
  induction ds with
  | nil => trivial
  | cons e ds ih =>
    obtain ⟨d, q⟩ := e
    obtain ⟨he, hds⟩ := List.forall_mem_cons.1 hlt
    -- What the last digits stand for counts in units of the prime, so it is in range as well.
    have hle : value ds ≤ q.toNat * value ds :=
      Nat.le_mul_of_pos_left _ (Nat.zero_lt_of_lt (UInt64.lt_iff_toNat_lt.1 he))
    rw [value] at hvalue
    have hrest : value ds < 2 ^ 1023 := by omega
    refine ⟨ih hds hrest, ?_⟩
    rw [ofDigits_eq, BitVec.toNat_ofNat, Nat.mod_eq_of_lt (by omega), mul_comm]
    omega

/-- Over distinct primes whose product is below `2 ^ 1023`, nothing wraps. -/
theorem staysInRange_of_product_lt (hlength : residues.length = primes.length)
    (hprime : ∀ p ∈ primes, p.toNat.Prime ∧ p.toNat ≤ UInt64.size / 2) (hnodup : primes.Nodup)
    (hproduct : product primes < 2 ^ 1023) : StaysInRange residues primes := by
  have hsecond : (residues.zip primes).map Prod.snd = primes := List.map_snd_zip hlength.ge
  have hprime' : ∀ p ∈ primes, p.toNat.Prime := fun p hp => (hprime p hp).1
  have hpos : ∀ p ∈ primes, 0 < p.toNat := fun p hp => (hprime' p hp).pos
  obtain ⟨hmodulus, hfits⟩ := fits_of_product_lt hprime hnodup hproduct
  obtain ⟨ds, hds, hexact, -⟩ := hfits residues hlength
  have hofDigits : (ofDigits ds).toNat = value ds := hexact 0
  obtain ⟨hlt, hvalue, -⟩ := value_of_digitsFrom?_zip hlength hprime' hds
  refine ⟨digitsInRange_of_digitsFrom? (by rwa [hsecond]) hds, fun i q hq => ?_, ds, hds,
    evaluationInRange_of_value_lt hlt (by omega), ?_, ?_⟩
  · -- A partial product is at most the product of one prime more, and that one at most the product.
    have hfirst := product_take_le hpos i
    have hnext := product_take_le hpos (i + 1)
    have hsucc : product (primes.take (i + 1)) = product (primes.take i) * q.toNat := by
      rw [List.take_add_one, hq, product_append]
      simp [product]
    rw [modulus_eq, BitVec.toNat_ofNat, Nat.mod_eq_of_lt (by omega), ← hsucc]
    omega
  · rw [hofDigits]
    omega
  · rw [hofDigits, hmodulus]
    exact hvalue.le

/-! ## The integer that is formed -/

theorem natAbs_signed (r : Bool × BitVec 1024) : (signed r).natAbs = r.2.toNat := by
  obtain ⟨_ | _, w⟩ := r <;> simp [signed]

/-- Two integers with the same residues in the range around zero are equal. -/
theorem Centered.unique (hlength : residues.length = primes.length)
    (hprime : ∀ p ∈ primes, p.toNat.Prime) (hnodup : primes.Nodup) {x y : ℤ}
    (hx : Centered residues primes x) (hy : Centered residues primes y) : x = y := by
  have hsecond : (residues.zip primes).map Prod.snd = primes := List.map_snd_zip hlength.ge
  obtain ⟨hxlow, hxhigh, hxresidue⟩ := hx
  obtain ⟨hylow, hyhigh, hyresidue⟩ := hy
  refine eq_of_residue_eq hprime hnodup (fun p hp => ?_) (abs_lt.2 ⟨by omega, by omega⟩)
  rw [← hsecond] at hp
  obtain ⟨e, he, rfl⟩ := List.mem_map.1 hp
  exact (ZMod.intCast_eq_intCast_iff _ _ _).2 ((hxresidue e he).trans (hyresidue e he).symm)

/-- For words that are residues modulo distinct primes below `2 ^ 63`, as many as there are primes
and reduced or not, where the product of the primes is below `2 ^ 1023`: exactly one integer in the
range around zero has these residues, the sign and the magnitude that are converted to a float are
those of this integer, and no operation on the way wraps. -/
theorem centered?_of_distinct (hlength : residues.length = primes.length)
    (hprime : ∀ p ∈ primes, p.toNat.Prime ∧ p.toNat < 2 ^ 63) (hnodup : primes.Nodup)
    (hproduct : product primes < 2 ^ 1023) :
    ∃ x : ℤ, Centered residues primes x ∧ (∀ y, Centered residues primes y → y = x) ∧
      StaysInRange residues primes ∧
      ∃ magnitude, centered? residues primes = .ok (decide (x < 0), magnitude) ∧
        magnitude.toNat = x.natAbs ∧
        toFloat? residues primes = .ok
          (if x < 0 then -magnitudeToFloat magnitude else magnitudeToFloat magnitude) := by
  have hprime' (p : UInt64) (hp : p ∈ primes) : p.toNat.Prime ∧ p.toNat ≤ UInt64.size / 2 :=
    ⟨(hprime p hp).1, (hprime p hp).2.le⟩
  obtain ⟨r, hr, hsign, hlow, hhigh, hresidue⟩ :=
    exists_centered? hlength hprime' hnodup hproduct
  have hcentered : Centered residues primes (signed r) := by
    refine ⟨hlow, hhigh, fun e he => (ZMod.intCast_eq_intCast_iff _ _ _).1 ?_⟩
    rw [hresidue e he, Modular.residue, Int.cast_natCast]
  -- The sign that comes with the magnitude is the one of the integer.
  have hpair : centered? residues primes = .ok (decide (signed r < 0), r.2) := by
    rw [hr, ← hsign]
  refine ⟨signed r, hcentered, fun y hy => ?_,
    staysInRange_of_product_lt hlength hprime' hnodup hproduct, r.2, hpair, ?_, ?_⟩
  · exact hy.unique hlength (fun p hp => (hprime p hp).1) hnodup hcentered
  · exact (natAbs_signed r).symm
  · rw [toFloat?, hpair, ok_bind]
    simp

/-- The words `7` and `9` modulo `2` and `3` are not reduced, and they stand for a tie between `3`
and `-3`, which the positive one wins. -/
theorem centered?_two_three :
    StaysInRange [7, 9] [2, 3] ∧
      ∃ magnitude, centered? [7, 9] [2, 3] = .ok (false, magnitude) ∧ magnitude.toNat = 3 := by
  have hprime : ∀ p ∈ ([2, 3] : List UInt64), p.toNat.Prime ∧ p.toNat < 2 ^ 63 := by
    have htwo : Nat.Prime 2 := by norm_num
    have hthree : Nat.Prime 3 := by norm_num
    simp only [List.forall_mem_cons, List.not_mem_nil, false_imp_iff, implies_true, and_true]
    exact ⟨⟨htwo, by decide⟩, hthree, by decide⟩
  have hlength : ([7, 9] : List UInt64).length = ([2, 3] : List UInt64).length := rfl
  have hpow : 2 ^ 3 < 2 ^ 1023 := pow_lt_pow_right₀ one_lt_two (by omega)
  have hproduct : product [2, 3] < 2 ^ 1023 := lt_trans (by decide) hpow
  obtain ⟨x, -, hunique, hrange, magnitude, hr, hmagnitude, -⟩ :=
    centered?_of_distinct hlength hprime (by decide) hproduct
  have hresidue : ∀ e ∈ ([7, 9] : List UInt64).zip ([2, 3] : List UInt64),
      3 ≡ e.1.toNat [ZMOD e.2.toNat] := by
    simp only [List.zip_cons_cons, List.zip_nil_left, List.forall_mem_cons, List.not_mem_nil,
      false_imp_iff, implies_true, and_true]
    decide
  obtain rfl : 3 = x := hunique 3 ⟨by decide, by decide, hresidue⟩
  exact ⟨hrange, magnitude, hr, hmagnitude⟩

end EncryptedArithmetic.Reconstruction

import EncryptedArithmetic.Proofs.Ring.Representation
import EncryptedArithmetic.Proofs.Ring.Rows
import EncryptedArithmetic.Proofs.Scheme.Encoding

/-!
# Constants written at the roots

A scalar is encoded without a transform: its integer is written at every root. That is what the
transform of the constant polynomial gives, whatever the degree and the sign are. The integer is
then read back from any number of leading channels whose primes leave room for it.

## Main results

* `forward?_constant`: the transform of a constant coefficient holds the constant at every root.
* `exists_centered?_constant`: the leading channels of a constant have its integer.
* `constant_of_build`: both, over the tables that `RootTable.build` answers.
-/

namespace EncryptedArithmetic.ResiduePoly

open Polynomial EncryptedArithmetic.Modular

variable {moduli : List RootTable} {n count : ℕ}

/-- A constant coefficient with nothing behind it is a constant polynomial. -/
theorem ofCoefficients_cons_replicate {R : Type} [CommRing R] (c : R) (k : ℕ) :
    ofCoefficients (c :: List.replicate k 0) = C c := by
  have hzero : ofCoefficients (List.replicate k (0 : R)) = 0 := by
    ext i
    rw [coeff_ofCoefficients]
    by_cases hi : i < k <;> simp [List.getD_eq_getElem?_getD, hi]
  rw [ofCoefficients_cons, hzero, mul_zero, add_zero]

/-- The transform of a constant coefficient holds the constant at every root. -/
theorem forward?_constant {t : RootTable} (ht : t.Sound) (m : ℤ) :
    t.forward? (Modular.ofInt m t.prime :: List.replicate (t.degree - 1) 0) =
      .ok (List.replicate t.degree (Modular.ofInt m t.prime)) := by
  have hpos := Nat.pos_of_ne_zero ht.degree_ne_zero
  have hlt := ofInt_lt m ht.prime_pos
  set x := Modular.ofInt m t.prime
  -- The coefficients are the constant and as many zeros as make up the degree.
  have hred : Reduced t.prime t.degree (x :: List.replicate (t.degree - 1) 0) := by
    have happend := (Reduced.replicate hlt 1).append (.replicate ht.prime_pos (t.degree - 1))
    rwa [Nat.add_sub_cancel' hpos] at happend
  obtain ⟨ys, hys, hyr, hvalues⟩ := RootTable.exists_forward? ht hred
  have hzero : residue t.prime 0 = 0 := by simp [residue]
  have hconstant : Modular.residues t.prime ys = List.replicate t.degree (residue t.prime x) := by
    rw [hvalues, Modular.residues, List.map_cons, List.map_replicate, hzero,
      ofCoefficients_cons_replicate, RootTable.rootValues_C ht]
  rw [hys, hyr.eq_of_residues_eq (.replicate hlt t.degree)
    (hconstant.trans List.map_replicate.symm)]

/-- To keep the first channels is to take them, as long as there is at least one and there are as
many as asked for. -/
theorem keep?_eq_leading? {a : ResiduePoly} (hpos : 1 ≤ count) (hle : count ≤ a.channels.length) :
    a.keep? count = a.leading? count := by
  rw [keep?, leading?, if_pos ⟨hpos, hle⟩, if_pos ⟨hpos, hle⟩]

/-- The leading channels of a constant have its integer when the product of their primes is more
than twice as large. -/
theorem exists_centered?_constant (hm : ∀ t ∈ moduli, t.Sound) (hn : ∀ t ∈ moduli, t.degree = n)
    (hnodup : (moduli.map RootTable.prime).Nodup)
    (hproduct : Reconstruction.product (moduli.map RootTable.prime) < 2 ^ 1023) {m : ℤ}
    (hpos : 1 ≤ count) (hle : count ≤ moduli.length)
    (hsmall : 2 * |m| < Reconstruction.product ((moduli.take count).map RootTable.prime)) :
    ∃ a r, (constant m moduli).leading? count = .ok a ∧ Encoding.centered? a = .ok r ∧
      Reconstruction.signed r = m := by
  have hmem {t : RootTable} (ht : t ∈ moduli.take count) : t ∈ moduli := List.mem_of_mem_take ht
  obtain ⟨a, ha, hoa, hia⟩ := exists_leading? hpos hle (over_constant hm m)
  have himage (i : ℕ) (t : RootTable) (ht : (moduli.take count)[i]? = some t) :
      a.image i t = t.ofInt (C m) := by
    have hlt : i < count := lt_of_lt_of_le (List.getElem?_eq_some_iff.1 ht).1
      (List.length_take_le _ _)
    rw [hia i t ht]
    rw [List.getElem?_take_of_lt hlt] at ht
    exact image_constant hm m ht
  have hhead := List.getElem?_eq_getElem (show 0 < moduli.length by omega)
  have hdegree : n ≠ 0 := by
    rw [← hn _ (List.mem_of_getElem? hhead)]
    exact (hm _ (List.mem_of_getElem? hhead)).degree_ne_zero
  -- The primes that are left are distinct as well, and their product is no larger.
  have hprimes : (moduli.take count).map RootTable.prime =
      (moduli.map RootTable.prime).take count := List.map_take
  have hproduct' : Reconstruction.product ((moduli.take count).map RootTable.prime) < 2 ^ 1023 := by
    rw [hprimes]
    refine lt_of_le_of_lt (Reconstruction.product_take_le (fun p hp => ?_) count) hproduct
    obtain ⟨t, ht, rfl⟩ := List.mem_map.1 hp
    exact (hm t ht).prime.pos
  obtain ⟨r, hr, hsigned⟩ := Encoding.exists_centered? (fun t ht => hm t (hmem ht))
    (fun t ht => hn t (hmem ht)) (Nat.pos_of_ne_zero hdegree)
    (hprimes ▸ hnodup.sublist (List.take_sublist _ _)) hproduct' hoa himage
  -- A constant is reduced, and its constant coefficient is itself.
  have hreduced : (C m %ₘ (X ^ n + 1)).coeff 0 = m := by
    rw [(modByMonic_eq_self_iff (NegacyclicRing.monic_modulus hdegree)).2, coeff_C_zero]
    rw [NegacyclicRing.degree_modulus hdegree]
    exact lt_of_le_of_lt degree_C_le (by exact_mod_cast Nat.pos_of_ne_zero hdegree)
  rw [hreduced] at hsigned
  exact ⟨a, r, ha, hr, hsigned hsmall⟩

/-- Over tables that were built for distinct primes below `2 ^ 63` with a product below `2 ^ 1023`:
in every channel a constant is the transform of the polynomial with the residue of the integer as
its constant coefficient and zeros behind it. Any number of leading channels whose primes have a
product above twice the integer, whether the others are dropped or a copy is taken, are decoded from
exactly this integer. -/
theorem constant_of_build
    (htables : ∀ t ∈ moduli, ∃ p : UInt64,
      p.toNat.Prime ∧ p.toNat < 2 ^ 63 ∧ RootTable.build p n = .ok t)
    (hnodup : (moduli.map RootTable.prime).Nodup)
    (hproduct : Reconstruction.product (moduli.map RootTable.prime) < 2 ^ 1023) (m : ℤ) :
    (constant m moduli).Over moduli .transformed ∧
      (∀ (i : ℕ) (t : RootTable), moduli[i]? = some t →
        ∃ (x : UInt64) (ys : List UInt64), (x.toNat : ℤ) = m % t.prime.toNat ∧
          t.forward? (x :: List.replicate (n - 1) 0) = .ok ys ∧
          (constant m moduli).channels[i]? = some ⟨t, ys⟩) ∧
      ∀ count, 1 ≤ count → count ≤ moduli.length →
        2 * |m| < Reconstruction.product ((moduli.take count).map RootTable.prime) →
        ∃ a r, (constant m moduli).keep? count = .ok a ∧
          (constant m moduli).leading? count = .ok a ∧ Encoding.centered? a = .ok r ∧
          Reconstruction.signed r = m ∧
          ∀ scale, Encoding.decode a scale = .ok (Encoding.signedToFloat r / scale) := by
  obtain ⟨hm, hn⟩ := RootTable.sound_of_forall_build htables
  have hover := over_constant hm m
  refine ⟨hover, fun i t ht => ?_, fun count hpos hle hsmall => ?_⟩
  · have hmem := List.mem_of_getElem? ht
    have hforward := forward?_constant (hm t hmem) m
    rw [hn t hmem] at hforward
    refine ⟨_, _, toNat_ofInt m (hm t hmem).prime_pos, hforward, ?_⟩
    rw [constant, ofTables, List.getElem?_map, ht, Option.map_some, hn t hmem]
  · obtain ⟨a, r, ha, hr, hsigned⟩ :=
      exists_centered?_constant hm hn hnodup hproduct hpos hle hsmall
    refine ⟨a, r, ?_, ha, hr, hsigned, fun scale => ?_⟩
    · rw [keep?_eq_leading? hpos (hover.length_eq ▸ hle), ha]
    · rw [Encoding.decode_eq, hr]
      rfl

/-- The integer `-100` over `13` and `17`: both primes leave room for it, one alone does not. -/
theorem constant_thirteen_seventeen :
    ∃ t a r, RootTable.build 13 2 = .ok t ∧
      (constant (-100) [t, seventeen]).keep? 2 = .ok a ∧ Encoding.centered? a = .ok r ∧
      Reconstruction.signed r = -100 := by
  obtain ⟨t, ht⟩ : ∃ t, RootTable.build 13 2 = .ok t := ⟨_, rfl⟩
  have htables : ∀ u ∈ [t, seventeen], ∃ p : UInt64,
      p.toNat.Prime ∧ p.toNat < 2 ^ 63 ∧ RootTable.build p 2 = .ok u := by
    have hthirteen : Nat.Prime 13 := by norm_num
    simp only [List.forall_mem_cons, List.not_mem_nil, false_imp_iff, implies_true, and_true]
    exact ⟨⟨13, hthirteen, by decide, ht⟩, built_seventeen⟩
  have hprimes : [t, seventeen].map RootTable.prime = [13, 17] := by
    simp [(RootTable.prime_of_build ht).1, seventeen]
  have hpow : 2 ^ 8 < 2 ^ 1023 := pow_lt_pow_right₀ one_lt_two (by omega)
  obtain ⟨-, -, hdecode⟩ := constant_of_build htables (hprimes ▸ by decide)
    (hprimes ▸ lt_trans (by decide) hpow) (-100)
  obtain ⟨a, r, ha, -, hr, hsigned, -⟩ := hdecode 2 (by decide) le_rfl (by
    rw [List.take_of_length_le (by simp), hprimes]
    decide)
  exact ⟨t, a, r, ht, ha, hr, hsigned⟩

end EncryptedArithmetic.ResiduePoly

import EncryptedArithmetic.Key.Switching
import EncryptedArithmetic.Proofs.Ring.Polynomial

/-!
# Integer polynomials in residue channels

A polynomial with integer coefficients has an image in every channel, and a channel has a polynomial
that is nearest to zero among those with its image. Both directions are used where keys and
ciphertexts are made: errors and secrets are integer polynomials that are put into channels, digits
and remainders are channels that are read back.

## Main results

* `exists_ofSignedTransformed?`: integer coefficients in every channel.
* `ofInt_centered` and `abs_coeff_centered_le`: the polynomial nearest to zero has the image of its
  channel, and its coefficients are at most half of the prime.
-/

namespace EncryptedArithmetic

open Polynomial EncryptedArithmetic.Modular

namespace RootTable

/-- The image of an integer polynomial modulo the prime of a table. -/
noncomputable def ofInt (t : RootTable) : ℤ[X] →+* NegacyclicRing t.degree (ZMod t.prime.toNat) :=
  NegacyclicRing.ofInt t.degree (ZMod t.prime.toNat)

/-- The coefficients of the image of an integer polynomial are the classes of those of the
polynomial. -/
theorem entries_coefficient_map {t : RootTable} (ht : t.Sound) (F : ℤ[X]) :
    t.entries .coefficient (F.map (Int.castRingHom (ZMod t.prime.toNat))) =
      (List.range t.degree).map fun k =>
        ((F %ₘ (X ^ t.degree + 1)).coeff k : ZMod t.prime.toNat) := by
  have hmod : F.map (Int.castRingHom (ZMod t.prime.toNat)) %ₘ (X ^ t.degree + 1) =
      (F %ₘ (X ^ t.degree + 1)).map (Int.castRingHom _) := by
    rw [map_modByMonic _ (NegacyclicRing.monic_modulus ht.degree_ne_zero)]
    simp only [Polynomial.map_add, Polynomial.map_pow, map_X, Polynomial.map_one]
  simp [entries, hmod]

theorem ofInt_C_mul (t : RootTable) (z : ℤ) (F : ℤ[X]) : t.ofInt (C z * F) = z * t.ofInt F := by
  rw [map_mul]
  congr 1
  exact map_intCast (t.ofInt.comp C) z

/-- Other primes are units modulo the prime of a table. -/
theorem isUnit_intCast_prime {t last : RootTable} (ht : t.Sound) (hlast : last.Sound)
    (hne : t.prime ≠ last.prime) :
    IsUnit ((last.prime.toNat : ℤ) : NegacyclicRing t.degree (ZMod t.prime.toNat)) := by
  have hcoprime : last.prime.toNat.Coprime t.prime.toNat :=
    (Nat.coprime_primes hlast.prime ht.prime).2 fun h => hne (UInt64.toNat_inj.1 h.symm)
  have hunit := (ZMod.isUnit_iff_coprime _ _).2 hcoprime
  rw [Int.cast_natCast, ← map_natCast (AdjoinRoot.of (X ^ t.degree + 1 : (ZMod t.prime.toNat)[X]))]
  exact hunit.map _

namespace Sound

variable {t : RootTable}

/-- The primes of tables are odd: two is invertible. -/
theorem odd_prime (ht : t.Sound) : t.prime.toNat % 2 = 1 := by
  have : Fact t.prime.toNat.Prime := ⟨ht.prime⟩
  rcases ht.prime.eq_two_or_odd with h | h
  -- Modulo two the unit two would be zero.
  · have hunit := ht.isUnit_two
    have hzero : ((2 : ℕ) : ZMod t.prime.toNat) = 0 :=
      (ZMod.natCast_eq_zero_iff 2 _).2 (dvd_of_eq h)
    rw [← Nat.cast_ofNat, hzero] at hunit
    exact absurd hunit not_isUnit_zero
  · exact h

/-- The primes of tables are positive as signed words. -/
theorem prime_lt (ht : t.Sound) : t.prime.toNat < 2 ^ 63 := by
  have hle := ht.prime_le
  have hodd := ht.odd_prime
  have hsize : UInt64.size / 2 = 2 ^ 63 := rfl
  omega

end Sound

end RootTable

/-! ## Coefficients in a channel -/

namespace ResiduePoly

variable {p : UInt64}

/-- A prime below `2 ^ 63` is the same as a signed word. -/
theorem toInt_toInt64 (hp : p.toNat < 2 ^ 63) : p.toInt64.toInt = p.toNat := by
  change p.toBitVec.toInt = p.toNat
  rw [BitVec.toInt_eq_toNat_of_lt]
  · rfl
  · change 2 * p.toNat < 2 ^ 64
    omega

theorem signedResidue_eq_ofInt (hp : p.toNat < 2 ^ 63) (c : ℤ) :
    signedResidue p c = Modular.ofInt c p := by
  rw [signedResidue, toInt_toInt64 hp, Modular.ofInt]

/-- The vector of the residues of integer coefficients stands for their polynomial. -/
theorem read_map_signedResidue {t : RootTable} (ht : t.Sound) {cs : List ℤ}
    (hlen : cs.length = t.degree) :
    Reduced t.prime t.degree (cs.map (signedResidue t.prime)) ∧
      t.read .coefficient (cs.map (signedResidue t.prime)) = t.ofInt (ofCoefficients cs) := by
  have hfun : signedResidue t.prime = (Modular.ofInt · t.prime) :=
    funext fun c => signedResidue_eq_ofInt ht.prime_lt c
  have hred : Reduced t.prime t.degree (cs.map (signedResidue t.prime)) := by
    refine ⟨by rw [List.length_map, hlen], ?_⟩
    intro x hx
    rw [hfun] at hx
    obtain ⟨c, -, rfl⟩ := List.mem_map.1 hx
    exact ofInt_lt c ht.prime_pos
  refine ⟨hred, ?_⟩
  -- The remainder has the class of the integer, whatever its sign.
  have hclasses : Modular.residues t.prime (cs.map (signedResidue t.prime)) =
      cs.map (Int.castRingHom (ZMod t.prime.toNat)) := by
    rw [hfun, Modular.residues, List.map_map]
    exact List.map_congr_left fun c _ => residue_ofInt c ht.prime_pos
  rw [RootTable.read, hclasses, ← map_ofCoefficients]
  rfl

end ResiduePoly

/-! ## The polynomial nearest to zero -/

namespace SwitchingKey

variable {q r : UInt64}

theorem intCast_centeredResidue (q r : UInt64) :
    (centeredResidue q r : ZMod q.toNat) = residue q r := by
  unfold centeredResidue
  split <;> simp [residue]

/-- Modulo an odd number there is a representative of at most half of it. -/
theorem abs_centeredResidue_le (hodd : q.toNat % 2 = 1) (h : r < q) :
    |centeredResidue q r| ≤ (q.toNat - 1) / 2 := by
  rw [UInt64.lt_iff_toNat_lt] at h
  have hhalf : (q / 2).toNat = q.toNat / 2 := by
    rw [UInt64.toNat_div]
    rfl
  -- The residues from half the prime on are moved below zero.
  rw [abs_le]
  unfold centeredResidue
  split
  · rename_i hlt
    rw [UInt64.lt_iff_toNat_lt, hhalf] at hlt
    omega
  · rename_i hle
    rw [UInt64.lt_iff_toNat_lt, hhalf] at hle
    omega

end SwitchingKey

namespace RootTable

/-- The polynomial nearest to zero with the given residues as coefficients. -/
noncomputable def centered (t : RootTable) (xs : List UInt64) : ℤ[X] :=
  ofCoefficients (xs.map (SwitchingKey.centeredResidue t.prime))

variable {t : RootTable} {xs : List UInt64}

theorem degree_centered_lt (hx : xs.length = t.degree) : (t.centered xs).degree < t.degree := by
  refine (degree_ofCoefficients_lt _).trans_eq ?_
  rw [List.length_map, hx]

theorem abs_coeff_centered_le (ht : t.Sound) (hx : Reduced t.prime t.degree xs) (k : ℕ) :
    |(t.centered xs).coeff k| ≤ ((t.prime.toNat : ℤ) - 1) / 2 := by
  rw [centered, coeff_ofCoefficients]
  by_cases hk : k < xs.length
  · rw [List.getD_eq_getElem _ _ (by simpa using hk), List.getElem_map]
    exact SwitchingKey.abs_centeredResidue_le ht.odd_prime (hx.lt _ (List.getElem_mem hk))
  · rw [List.getD_eq_default _ _ (by simpa using hk), abs_zero]
    have hpos := ht.prime.pos
    omega

/-- It has the image of its channel. -/
theorem ofInt_centered (t : RootTable) (xs : List UInt64) :
    t.ofInt (t.centered xs) = t.read .coefficient xs := by
  have hclasses : (xs.map (SwitchingKey.centeredResidue t.prime)).map
      (Int.castRingHom (ZMod t.prime.toNat)) = Modular.residues t.prime xs := by
    rw [List.map_map]
    exact List.map_congr_left fun x _ => SwitchingKey.intCast_centeredResidue t.prime x
  rw [ofInt, NegacyclicRing.ofInt_apply, centered, map_ofCoefficients, hclasses]
  rfl

end RootTable

/-! ## Integer polynomials in all channels -/

namespace ResiduePoly

variable {moduli : List RootTable} {n : ℕ}

/-- Integer coefficients are converted for each table, as many as there are powers of `X`. -/
theorem ofSigned?_eq_ok (hn : ∀ t ∈ moduli, t.degree = n) (hne : moduli ≠ []) {cs : List ℤ}
    (hlen : cs.length = n) : ofSigned? cs moduli =
      .ok (ofTables .coefficient moduli fun t => cs.map (signedResidue t.prime)) := by
  obtain ⟨table, rest, rfl⟩ := List.exists_cons_of_ne_nil hne
  exact if_pos (hlen.trans (hn table List.mem_cons_self).symm)

/-- Integer coefficients have residues in every channel. -/
theorem exists_ofSigned? (hm : ∀ t ∈ moduli, t.Sound) (hn : ∀ t ∈ moduli, t.degree = n)
    (hne : moduli ≠ []) {cs : List ℤ} (hlen : cs.length = n) :
    ∃ a, ofSigned? cs moduli = .ok a ∧ a.Over moduli .coefficient ∧
      ∀ i t, moduli[i]? = some t → a.image i t = t.ofInt (ofCoefficients cs) := by
  -- Channel by channel, the residues stand for the polynomial modulo the prime of the channel.
  have hread {t : RootTable} (ht : t ∈ moduli) :=
    read_map_signedResidue (hm t ht) (hlen.trans (hn t ht).symm)
  have hover : (ofTables .coefficient moduli fun t => cs.map (signedResidue t.prime)).Over moduli
      .coefficient :=
    over_ofTables fun t ht => (hread ht).1
  refine ⟨_, ofSigned?_eq_ok hn hne hlen, hover, ?_⟩
  intro i t ht
  rw [hover.image_eq, row_ofTables ht, (hread (List.mem_of_getElem? ht)).2]

theorem exists_ofSignedTransformed? (hm : ∀ t ∈ moduli, t.Sound) (hn : ∀ t ∈ moduli, t.degree = n)
    (hne : moduli ≠ []) {cs : List ℤ} (hlen : cs.length = n) :
    ∃ a, ofSignedTransformed? cs moduli = .ok a ∧ a.Over moduli .transformed ∧
      ∀ i t, moduli[i]? = some t → a.image i t = t.ofInt (ofCoefficients cs) := by
  obtain ⟨a, ha, hoa, hia⟩ := exists_ofSigned? hm hn hne hlen
  obtain ⟨b, hb, hob, hib⟩ := exists_toTransformed? hm hoa
  exact ⟨b, by rw [ofSignedTransformed?, ha]; exact hb, hob,
    fun i t ht => (hib i t ht).trans (hia i t ht)⟩

end ResiduePoly

end EncryptedArithmetic

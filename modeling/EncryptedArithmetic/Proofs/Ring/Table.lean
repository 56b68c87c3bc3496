import EncryptedArithmetic.Proofs.Modular.Prime
import EncryptedArithmetic.Proofs.Ring.Transform

/-!
# Tables are sound

A table that can be built for a prime of at most `2 ^ 63` is sound: the search only answers with a
`psi` whose `N`-th power is minus one, the table holds the powers of that `psi` and of its inverse,
and the degree, a power of two, is invertible.

## Main results

* `residue_getD_powersOf`: the entries of a table of powers.
* `build_sound`: a table that is built has the prime and degree that were asked for and is sound.
* `exists_build`: a table can be built wherever the search for a root succeeds.
-/

namespace EncryptedArithmetic

open EncryptedArithmetic.Modular

namespace RootTable

/-! ## Tables of powers -/

theorem toList_pushPowers (p x : UInt64) (count : ℕ) (w : UInt64) (powers : Array UInt64) :
    (pushPowers p x count w powers).toList =
      powers.toList ++ (pushPowers p x count w #[]).toList := by
  induction count generalizing w powers with
  | zero => simp [pushPowers]
  | succ count ih =>
    rw [pushPowers, pushPowers, ih, ih _ (#[].push w)]
    simp

/-- The powers from `w` on, as classes. -/
theorem residues_pushPowers {p : UInt64} (hp : 0 < p) (x : UInt64) (count : ℕ) (w : UInt64) :
    residues p (pushPowers p x count w #[]).toList =
      (List.range count).map fun i => residue p w * residue p x ^ i := by
  induction count generalizing w with
  | zero => rfl
  | succ count ih =>
    rw [pushPowers, toList_pushPowers, residues_append, ih, residue_mul w x hp,
      List.range_succ_eq_map, List.map_cons, List.map_map]
    have hsucc : (fun i => residue p w * residue p x * residue p x ^ i) =
        (fun i => residue p w * residue p x ^ i) ∘ Nat.succ := by
      funext i
      simp only [Function.comp_apply, pow_succ]
      ring
    simp [residues, hsucc]

/-- Entry `i` of the table is the power with exponent `i`. -/
theorem residue_getD_powersOf {p : UInt64} (hp : 0 < p) (x : UInt64) {count i : ℕ}
    (hi : i < count) : residue p ((powersOf p x count).getD i 0) = residue p x ^ i := by
  -- The capacity is a matter of the run only.
  have hempty : (Array.emptyWithCapacity count : Array UInt64) = #[] := by simp
  have hone : residue p 1 = 1 := by simp [residue]
  have hlist := residues_pushPowers hp x count 1
  have hget : (residues p (powersOf p x count).toList).getD i 0 = residue p x ^ i := by
    rw [powersOf, hempty, hlist, hone]
    simp [hi]
  rw [← hget, getD_residues]
  simp [Array.getD_eq_getD_getElem?, List.getD_eq_getElem?_getD]

/-! ## The search for a root -/

/-- What the search finds has the `N`-th power `-1`. -/
theorem residue_pow_of_searchRoot? {p word psi : UInt64} (hp : 0 < p) {count : ℕ} {g : UInt64}
    (h : searchRoot? p word count g = some psi) : residue p psi ^ word.toNat = -1 := by
  induction count generalizing g with
  | zero => cases h
  | succ count ih =>
    rw [searchRoot?] at h
    split at h
    · rename_i heq
      obtain rfl := Option.some.inj h
      rw [← residue_pow _ _ hp, heq, residue_pred hp]
    · exact ih h

/-! ## Building a table -/

/-- A degree that passes the check is a power of two above one, and if twice its word is a word
then so is the degree. -/
theorem degree_of_check {n : ℕ} (h : ¬(n < 2 ∨ 1 <<< n.log2 ≠ n))
    (hword : n.toUInt64 ≠ 0) : n = 2 ^ n.log2 ∧ 1 < n ∧ n.toUInt64.toNat = n := by
  rw [not_or, not_not, Nat.one_shiftLeft] at h
  refine ⟨h.2.symm, by omega, ?_⟩
  have hmod : n.toUInt64.toNat = n % UInt64.size := by simp [Nat.toUInt64]
  rcases lt_or_ge n.log2 64 with hlog | hlog
  · rw [hmod, Nat.mod_eq_of_lt]
    rw [← h.2]
    exact Nat.pow_lt_pow_right one_lt_two hlog
  · -- A larger power of two has no bits in a word.
    refine absurd (UInt64.toNat_inj.1 ?_) hword
    rw [hmod, ← h.2]
    exact Nat.mod_eq_zero_of_dvd (pow_dvd_pow 2 hlog)

/-- A table is built from a root and two inverses, behind the checks of the degree and the prime. -/
theorem build_eq_ok_iff {p : UInt64} {n : ℕ} {t : RootTable} :
    build p n = .ok t ↔ ¬(n < 2 ∨ 1 <<< n.log2 ≠ n) ∧ isFriendly? p n.toUInt64 = .ok true ∧
      ∃ psi inverse degreeInverse, root? p n.toUInt64 = some psi ∧
        Modular.inverse? psi p = .ok inverse ∧
        Modular.inverse? n.toUInt64 p = .ok degreeInverse ∧
        (⟨p, n, powersOf p psi n, powersOf p inverse n, degreeInverse⟩ : RootTable) = t := by
  constructor
  · intro h
    rw [build] at h
    split at h
    · cases h
    rename_i hdegree
    simp only [bind_eq_ok_iff, liftM_eq_ok_iff] at h
    obtain ⟨friendly, hfriendly, h⟩ := h
    split at h
    swap
    · cases h
    rename_i htrue
    subst htrue
    split at h
    · cases h
    rename_i psi hpsi
    simp only [bind_eq_ok_iff, liftM_eq_ok_iff, pure_eq_ok] at h
    obtain ⟨inverse, hinverse, degreeInverse, hdegreeInverse, h⟩ := h
    exact ⟨hdegree, hfriendly, psi, inverse, degreeInverse, hpsi, hinverse, hdegreeInverse,
      Except.ok.inj h⟩
  · rintro ⟨hdegree, hfriendly, psi, inverse, degreeInverse, hpsi, hinverse, hdegreeInverse, rfl⟩
    simp only [build, if_neg hdegree, hfriendly, hpsi, hinverse, hdegreeInverse, liftM_ok, ok_bind,
      if_true, pure_eq_ok]

/-- A table has the prime and the degree that were asked for. -/
theorem prime_of_build {p : UInt64} {n : ℕ} {t : RootTable} (h : build p n = .ok t) :
    t.prime = p ∧ t.degree = n := by
  obtain ⟨-, -, _, _, _, -, -, -, rfl⟩ := build_eq_ok_iff.1 h
  exact ⟨rfl, rfl⟩

/-- A table is built only for a power of two above one and a prime that leaves the remainder one
modulo twice this degree. -/
theorem mod_of_build {p : UInt64} {n : ℕ} {t : RootTable} (h : build p n = .ok t) :
    ∃ d, n = 2 ^ (d + 1) ∧ p.toNat % (2 * n) = 1 := by
  obtain ⟨hdegree, hfriendly, -⟩ := build_eq_ok_iff.1 h
  obtain ⟨hword, hmod⟩ := mod_of_isFriendly? hfriendly
  obtain ⟨hpow, hone, hnat⟩ := degree_of_check hdegree hword
  have hlog : n.log2 ≠ 0 := fun hzero => by
    rw [hzero, pow_zero] at hpow
    omega
  exact ⟨n.log2 - 1, by rwa [Nat.sub_add_cancel (Nat.one_le_iff_ne_zero.2 hlog)], hnat ▸ hmod⟩

/-- A prime with a table leaves the remainder one modulo four, so it is neither zero nor `2 ^ 63`
nor the largest word. -/
theorem mod_four_of_build {p : UInt64} {n : ℕ} {t : RootTable} (h : build p n = .ok t) :
    p.toNat % 4 = 1 := by
  obtain ⟨d, rfl, hmod⟩ := mod_of_build h
  have hfour : 4 ∣ 2 * 2 ^ (d + 1) := ⟨2 ^ d, by ring⟩
  rw [← Nat.mod_mod_of_dvd _ hfour, hmod]

/-- A table that is built for a prime of at most `2 ^ 63` is sound. -/
theorem build_sound {p : UInt64} {n : ℕ} {t : RootTable} (h : build p n = .ok t)
    (hp : p.toNat.Prime) (hle : p.toNat ≤ UInt64.size / 2) :
    t.prime = p ∧ t.degree = n ∧ t.Sound := by
  have : Fact p.toNat.Prime := ⟨hp⟩
  have hpos : 0 < p := UInt64.lt_iff_toNat_lt.2 hp.pos
  obtain ⟨hdegree, hfriendly, psi, inverse, degreeInverse, hpsi, hinverse, hdegreeInverse, rfl⟩ :=
    build_eq_ok_iff.1 h
  obtain ⟨hpow, hone, hnat⟩ := degree_of_check hdegree (mod_of_isFriendly? hfriendly).1
  -- What the two inverses and the search promise, in the terms of `Sound`.
  have hroot : residue p psi ^ n = -1 := hnat ▸ residue_pow_of_searchRoot? hpos hpsi
  have hpowers (i : ℕ) (hi : i < n) := residue_getD_powersOf hpos psi hi
  have hinv := (residue_mul_of_inverse? hp hinverse).2
  have hdeg := (residue_mul_of_inverse? hp hdegreeInverse).2
  rw [residue, hnat, mul_comm] at hdeg
  refine ⟨rfl, rfl, hp, hle, hpow, hone, ?_, ?_, ?_, hdeg⟩
  · rw [root, hpowers 1 hone, pow_one, hroot]
  · intro i hi
    rw [root, hpowers 1 hone, pow_one, hpowers i hi]
  · intro i hi
    rw [root, hpowers 1 hone, pow_one, residue_getD_powersOf hpos inverse hi, ← mul_pow, mul_comm,
      hinv, one_pow]

/-- Tables that are built for primes below `2 ^ 63` are sound, and they have the degree that was
asked for. -/
theorem sound_of_forall_build {moduli : List RootTable} {n : ℕ}
    (h : ∀ t ∈ moduli, ∃ p : UInt64,
      p.toNat.Prime ∧ p.toNat < 2 ^ 63 ∧ build p n = .ok t) :
    (∀ t ∈ moduli, t.Sound) ∧ ∀ t ∈ moduli, t.degree = n := by
  have hbuilt (t : RootTable) (ht : t ∈ moduli) : t.degree = n ∧ t.Sound := by
    obtain ⟨p, hp, hlt, hbuild⟩ := h t ht
    exact (build_sound hbuild hp (Nat.le_of_lt hlt)).2
  exact ⟨fun t ht => (hbuilt t ht).2, fun t ht => (hbuilt t ht).1⟩

/-- A table can be built for a prime that is friendly and for which a root is found: neither the
root nor the degree is a multiple of the prime. -/
theorem exists_build {p : UInt64} {n : ℕ} (hp : p.toNat.Prime) (htwo : 2 ≤ n)
    (hpow : 1 <<< n.log2 = n) (hsize : 2 * n < UInt64.size) (hmod : p.toNat % (2 * n) = 1)
    (hprime : isPrime p) (hroot : (root? p n.toUInt64).isSome) : ∃ t, build p n = .ok t := by
  have : Fact p.toNat.Prime := ⟨hp⟩
  have hpos : 0 < p := UInt64.lt_iff_toNat_lt.2 hp.pos
  have hnat : n.toUInt64.toNat = n := UInt64.toNat_ofNat_of_lt' (by omega)
  have hword : n.toUInt64 ≠ 0 := fun h0 => by
    rw [h0] at hnat
    have : (0 : UInt64).toNat = 0 := rfl
    omega
  have hfriendly : isFriendly? p n.toUInt64 = .ok true :=
    isFriendly?_of_mod hword (hnat.symm ▸ hsize) (hnat.symm ▸ hmod) hprime
  obtain ⟨psi, hpsi⟩ := Option.isSome_iff_exists.1 hroot
  have hminus : residue p psi ^ n = -1 := hnat ▸ residue_pow_of_searchRoot? hpos hpsi
  obtain ⟨inverse, hinverse⟩ : ∃ b, Modular.inverse? psi p = .ok b := by
    apply Modular.exists_inverse? hp
    intro hzero
    rw [hzero, zero_pow (by omega)] at hminus
    exact neg_ne_zero.2 one_ne_zero hminus.symm
  -- The prime is above twice the degree, as it is not one.
  have hlt : n < p.toNat := by
    have hle : p.toNat = 1 ∨ 2 * n ≤ p.toNat := by
      rcases lt_or_ge p.toNat (2 * n) with hsmall | hlarge
      · exact .inl (Nat.mod_eq_of_lt hsmall ▸ hmod)
      · exact .inr hlarge
    have := hp.one_lt
    omega
  obtain ⟨degreeInverse, hdegreeInverse⟩ : ∃ b, Modular.inverse? n.toUInt64 p = .ok b := by
    apply Modular.exists_inverse? hp
    rw [residue, hnat, Ne, ZMod.natCast_eq_zero_iff]
    exact Nat.not_dvd_of_pos_of_lt (by omega) hlt
  have hcheck : ¬(n < 2 ∨ 1 <<< n.log2 ≠ n) := by
    rw [not_or, not_not]
    exact ⟨Nat.not_lt.2 htwo, hpow⟩
  exact ⟨_, build_eq_ok_iff.2
    ⟨hcheck, hfriendly, psi, inverse, degreeInverse, hpsi, hinverse, hdegreeInverse, rfl⟩⟩

end RootTable

end EncryptedArithmetic

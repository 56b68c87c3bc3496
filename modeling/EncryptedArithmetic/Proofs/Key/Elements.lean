import EncryptedArithmetic.Proofs.Key.Galois
import Mathlib.Combinatorics.Colex
import Mathlib.RingTheory.ZMod.UnitsCyclic

/-!
# The elements that have a Galois key

For a degree `N` that is a power of two, the powers of five have the order `N / 2` modulo `2 * N`,
and minus one is none of them, because they all are one modulo four. So every odd element is in one
way a power of five up to sign, and the binary digits of the exponent say which of the rotations
that have a key make it up.

## Main definitions

* `IsRotation`: the elements of the rotations that get a key.
* `composed`: the element of some rotations and, if asked for, the conjugation.
* `Complete`: what a full set of Galois keys is.

## Main results

* `signedPower_inj` and `exists_signedPower_eq`: the odd elements as powers of five up to sign.
* `existsUnique_composed`: every odd element is composed in one way.
* `complete_of_generate`: every set that is drawn is full.
-/

namespace EncryptedArithmetic

namespace GaloisKeySet

/-! ## Powers of five up to sign -/

/-- The element of a rotation by `step` slots and, if `conjugated`, the conjugation. -/
def signedPower (degree : ℕ) (conjugated : Bool) (step : ℕ) : ℕ :=
  conjugation degree ^ conjugated.toNat * 5 ^ step % (2 * degree)

section PowerOfTwo

variable {n k a b : ℕ} {c c' : Bool}

/-- The sign is seen modulo four, where five is one. -/
theorem signedPower_mod_four :
    signedPower (2 ^ (n + 1)) c a % 4 = if c then 3 else 1 := by
  have hfour : 4 ∣ 2 * 2 ^ (n + 1) := ⟨2 ^ n, by ring⟩
  have hpow : 5 ^ a % 4 = 1 := by simp [Nat.pow_mod]
  have hpos : 0 < 2 ^ (n + 1) := Nat.two_pow_pos _
  rw [signedPower, Nat.mod_mod_of_dvd _ hfour, Nat.mul_mod, hpow]
  cases c
  · rfl
  · rw [Bool.toNat_true, pow_one, conjugation, if_pos rfl]
    omega

theorem signedPower_spec :
    signedPower (2 ^ (n + 1)) c a % 2 = 1 ∧ signedPower (2 ^ (n + 1)) c a < 2 * 2 ^ (n + 1) := by
  have hfour := signedPower_mod_four (n := n) (c := c) (a := a)
  have hlt : signedPower (2 ^ (n + 1)) c a < 2 * 2 ^ (n + 1) := Nat.mod_lt _ (by positivity)
  split at hfour <;> exact ⟨by omega, hlt⟩

/-- Signed powers of five with exponents below `2 ^ n` are distinct. -/
theorem signedPower_inj (ha : a < 2 ^ n) (hb : b < 2 ^ n)
    (h : signedPower (2 ^ (n + 1)) c a = signedPower (2 ^ (n + 1)) c' b) : c = c' ∧ a = b := by
  have hsign : c = c' := by
    have hmod := congrArg (· % 4) h
    simp only [signedPower_mod_four] at hmod
    cases c <;> cases c' <;> simp_all
  subst hsign
  -- The sign has an inverse, which leaves two powers of an element of order `2 ^ n`.
  have hcoprime : (2 * 2 ^ (n + 1)).Coprime (conjugation (2 ^ (n + 1)) ^ c.toNat) :=
    ((Nat.coprime_self_sub_right (Nat.succ_le_of_lt (by positivity))).2
      (Nat.coprime_one_right _)).pow_right _
  have hpow : 5 ^ a ≡ 5 ^ b [MOD 2 ^ (n + 2)] := by
    rw [pow_succ' 2 (n + 1)]
    exact Nat.ModEq.cancel_left_of_coprime hcoprime h
  have hcast := (ZMod.natCast_eq_natCast_iff _ _ _).2 hpow
  push_cast at hcast
  refine ⟨rfl, pow_injOn_Iio_orderOf ?_ ?_ hcast⟩
  · rwa [ZMod.orderOf_five]
  · rwa [ZMod.orderOf_five]

/-- Every odd element is a signed power of five: there are as many of the ones as of the others. -/
theorem exists_signedPower_eq (hodd : k % 2 = 1) (hlt : k < 2 * 2 ^ (n + 1)) :
    ∃ c, ∃ a < 2 ^ n, signedPower (2 ^ (n + 1)) c a = k := by
  let choices : Finset (Bool × ℕ) := Finset.univ ×ˢ Finset.range (2 ^ n)
  let odds : Finset ℕ := (Finset.range (2 ^ (n + 1))).image (2 * · + 1)
  have hodds {l : ℕ} (hl : l % 2 = 1) (hl' : l < 2 * 2 ^ (n + 1)) : l ∈ odds :=
    Finset.mem_image.2 ⟨l / 2, Finset.mem_range.2 (by omega), by omega⟩
  have hmaps : Set.MapsTo (fun choice : Bool × ℕ => signedPower (2 ^ (n + 1)) choice.1 choice.2)
      choices odds :=
    fun _ _ => hodds signedPower_spec.1 signedPower_spec.2
  have hinj : Set.InjOn (fun choice : Bool × ℕ => signedPower (2 ^ (n + 1)) choice.1 choice.2)
      choices := by
    rintro ⟨c, a⟩ ha ⟨c', b⟩ hb h
    have ha' := Finset.mem_range.1 (Finset.mem_product.1 ha).2
    have hb' := Finset.mem_range.1 (Finset.mem_product.1 hb).2
    exact Prod.ext_iff.2 (signedPower_inj ha' hb' h)
  -- Twice `2 ^ n` choices on the one side, half of `2 * 2 ^ (n + 1)` elements on the other.
  have hcard : odds.card ≤ choices.card := by
    refine Finset.card_image_le.trans_eq ?_
    rw [Finset.card_product, Finset.card_range, Finset.card_range, Finset.card_univ,
      Fintype.card_bool, pow_succ']
  obtain ⟨⟨c, a⟩, hchoice, heq⟩ :=
    Finset.surjOn_of_injOn_of_card_le _ hmaps hinj hcard (hodds hodd hlt)
  exact ⟨c, a, Finset.mem_range.1 (Finset.mem_product.1 hchoice).2, heq⟩

end PowerOfTwo

/-! ## Rotations that have a key -/

/-- An element `5 ^ (2 ^ i)` modulo twice the degree, for a power of two below half the degree. -/
def IsRotation (degree element : ℕ) : Prop :=
  ∃ i, 2 ^ i < degree / 2 ∧ element = 5 ^ 2 ^ i % (2 * degree)

/-- The product of some rotations and, if `conjugated`, the conjugation. -/
def composed (degree : ℕ) (conjugated : Bool) (rotations : Finset ℕ) : ℕ :=
  conjugation degree ^ conjugated.toNat * (∏ r ∈ rotations, r) % (2 * degree)

theorem rotation_eq_pow_mod (step : ℕ) {degree : ℕ} (hdegree : degree ≠ 0) :
    rotation step degree = 5 ^ step % (2 * degree) := by
  induction step with
  | zero => exact (Nat.mod_eq_of_lt (show 1 < 2 * degree by omega)).symm
  | succ step ih =>
    change rotation step degree * 5 % (2 * degree) = _
    rw [ih, pow_succ, Nat.mod_mul_mod]

section Words

variable {degree : ℕ} (hcount : Sampler.addressable degree) (hdegree : degree ≠ 0)
include hcount

theorem order?_eq_ok : order? degree = .ok (2 * degree) := by
  have hsize : UInt64.size = 2 ^ 64 := rfl
  rw [Sampler.addressable, Nat.one_shiftLeft, decide_eq_true_eq] at hcount
  exact if_pos (by omega)

include hdegree

/-- Where memory can address a polynomial, five times a residue is a word, and a rotation computed
in words is the rotation. -/
theorem rotation?_eq_ok (step : ℕ) : rotation? step degree = .ok (rotation step degree) := by
  have hsize : UInt64.size = 2 ^ 64 := rfl
  rw [rotation?, order?_eq_ok hcount, ok_bind]
  rw [Sampler.addressable, Nat.one_shiftLeft, decide_eq_true_eq] at hcount
  induction step with
  | zero => rfl
  | succ step ih =>
    have hlt := (rotation_spec step hdegree).2
    rw [Nat.repeat, ih]
    change quintuple? (2 * degree) (rotation step degree) = _
    rw [quintuple?, if_neg (by omega), if_neg (by omega)]
    rfl

theorem conjugation?_eq_ok : conjugation? degree = .ok (conjugation degree) := by
  rw [conjugation?, order?_eq_ok hcount, ok_bind, if_neg (by omega)]
  rfl

end Words

section PowerOfTwo

variable {n i k : ℕ} {c : Bool}

theorem half_two_pow (n : ℕ) : 2 ^ (n + 1) / 2 = 2 ^ n := by
  rw [pow_succ, Nat.mul_div_cancel _ two_pos]

theorem two_pow_lt_half_iff : 2 ^ i < 2 ^ (n + 1) / 2 ↔ i < n := by
  rw [half_two_pow]
  exact Nat.pow_lt_pow_iff_right one_lt_two

theorem keyElements_eq (n : ℕ) : keyElements (2 ^ (n + 1)) =
    (List.range n).map (fun i => 5 ^ 2 ^ i % (2 * 2 ^ (n + 1))) ++ [2 * 2 ^ (n + 1) - 1] := by
  have hdegree : 2 ^ (n + 1) ≠ 0 := by positivity
  simp only [keyElements, half_two_pow, Nat.log2_two_pow, Nat.one_shiftLeft,
    rotation_eq_pow_mod _ hdegree, conjugation]

/-- The elements that get a key are the rotations and the conjugation. -/
theorem mem_keyElements_iff :
    k ∈ keyElements (2 ^ (n + 1)) ↔ IsRotation (2 ^ (n + 1)) k ∨ k = 2 * 2 ^ (n + 1) - 1 := by
  simp only [keyElements_eq, List.mem_append, List.mem_map, List.mem_range, List.mem_singleton,
    IsRotation, two_pow_lt_half_iff, eq_comm]

/-- Distinct powers of two give distinct rotations. -/
theorem rotations_injOn :
    Set.InjOn (fun i => 5 ^ 2 ^ i % (2 * 2 ^ (n + 1))) (Finset.range n : Set ℕ) := by
  intro i hi j hj h
  have hlt {i : ℕ} (hi : i ∈ (Finset.range n : Set ℕ)) : 2 ^ i < 2 ^ n :=
    Nat.pow_lt_pow_right one_lt_two (Finset.mem_range.1 hi)
  have hsigned : signedPower (2 ^ (n + 1)) false (2 ^ i) =
      signedPower (2 ^ (n + 1)) false (2 ^ j) := by
    simpa [signedPower] using h
  exact Nat.pow_right_injective le_rfl (signedPower_inj (hlt hi) (hlt hj) hsigned).2

/-- No rotation is the conjugation. -/
theorem not_isRotation_conjugation : ¬IsRotation (2 ^ (n + 1)) (2 * 2 ^ (n + 1) - 1) := by
  rintro ⟨i, -, h⟩
  have hrotation := signedPower_mod_four (n := n) (c := false) (a := 2 ^ i)
  have hfour : (2 * 2 ^ (n + 1) - 1) % 4 = 3 := by
    have hpow : 2 ^ (n + 1) = 2 * 2 ^ n := pow_succ' 2 n
    have hpos : 0 < 2 ^ n := Nat.two_pow_pos n
    omega
  simp only [signedPower, Bool.toNat_false, pow_zero, one_mul, ← h, hfour] at hrotation
  exact absurd hrotation (by decide)

/-- The rotations of a subset are those of the digits of an exponent. -/
theorem composed_image {u : Finset ℕ} (hu : u ⊆ Finset.range n) :
    composed (2 ^ (n + 1)) c (u.image fun i => 5 ^ 2 ^ i % (2 * 2 ^ (n + 1))) =
      signedPower (2 ^ (n + 1)) c (∑ i ∈ u, 2 ^ i) := by
  rw [composed, Finset.prod_image (rotations_injOn.mono hu), signedPower, Nat.mul_mod,
    ← Finset.prod_nat_mod, Finset.prod_pow_eq_pow_sum, ← Nat.mul_mod]

/-- Every odd element is in exactly one way a product of rotations and at most one conjugation. -/
theorem existsUnique_composed (hodd : k % 2 = 1) (hlt : k < 2 * 2 ^ (n + 1)) :
    ∃! choice : Bool × Finset ℕ, (∀ r ∈ choice.2, IsRotation (2 ^ (n + 1)) r) ∧
      composed (2 ^ (n + 1)) choice.1 choice.2 = k := by
  have hsum {u : Finset ℕ} (hu : u ⊆ Finset.range n) : ∑ i ∈ u, 2 ^ i < 2 ^ n :=
    Nat.geomSum_lt le_rfl fun i hi => Finset.mem_range.1 (hu hi)
  -- A set of rotations is a set of powers of two below half the degree.
  have hpowers {s : Finset ℕ} (hs : ∀ r ∈ s, IsRotation (2 ^ (n + 1)) r) :
      ∃ u ⊆ Finset.range n, u.image (fun i => 5 ^ 2 ^ i % (2 * 2 ^ (n + 1))) = s := by
    refine Finset.subset_image_iff.1 fun r hr => ?_
    obtain ⟨i, hi, rfl⟩ := hs r hr
    exact Finset.mem_image_of_mem _ (Finset.mem_range.2 (two_pow_lt_half_iff.1 hi))
  obtain ⟨c, a, ha, rfl⟩ := exists_signedPower_eq hodd hlt
  have hdigits : a.bitIndices.toFinset ⊆ Finset.range n := by
    intro i hi
    have hle : 2 ^ i ≤ a := Nat.two_pow_le_of_mem_bitIndices (List.mem_toFinset.1 hi)
    exact Finset.mem_range.2 ((Nat.pow_lt_pow_iff_right one_lt_two).1 (hle.trans_lt ha))
  refine ⟨⟨c, a.bitIndices.toFinset.image fun i => 5 ^ 2 ^ i % (2 * 2 ^ (n + 1))⟩,
    ⟨fun r hr => ?_, ?_⟩, ?_⟩
  · obtain ⟨i, hi, rfl⟩ := Finset.mem_image.1 hr
    exact ⟨i, two_pow_lt_half_iff.2 (Finset.mem_range.1 (hdigits hi)), rfl⟩
  · rw [composed_image hdigits, Finset.sum_toFinset_bitIndices_two_pow]
  · -- Another choice has the same exponent, and a number has its digits in one way.
    rintro ⟨c', s⟩ ⟨hs, heq⟩
    obtain ⟨u, hu, rfl⟩ := hpowers hs
    rw [composed_image hu] at heq
    obtain ⟨rfl, rfl⟩ := signedPower_inj (hsum hu) ha heq
    rw [Finset.toFinset_bitIndices_sum_two_pow]

/-- No element gets a second key in the place of the first one. -/
theorem nodup_keyElements : (keyElements (2 ^ (n + 1))).Nodup := by
  rw [keyElements_eq]
  refine List.Nodup.append ?_ (List.nodup_singleton _) ?_
  · refine List.Nodup.map_on (fun i hi j hj h => ?_) List.nodup_range
    exact rotations_injOn (Finset.mem_range.2 (List.mem_range.1 hi))
      (Finset.mem_range.2 (List.mem_range.1 hj)) h
  · intro k hrotation hconjugation
    obtain ⟨i, hi, rfl⟩ := List.mem_map.1 hrotation
    exact not_isRotation_conjugation ⟨i, two_pow_lt_half_iff.2 (List.mem_range.1 hi),
      (List.mem_singleton.1 hconjugation).symm⟩

end PowerOfTwo

/-! ## Sets that were drawn -/

variable {σ : Type} {chain : ModulusChain} {g : GaloisKeySet}

/-- What a full set of keys of a degree is: it has one key for each rotation by a power of two and
one for the conjugation, and these make up every automorphism in one way. -/
structure Complete (g : GaloisKeySet) (degree : ℕ) : Prop where
  mem_elements_iff : ∀ k, k ∈ g.elements ↔ IsRotation degree k ∨ k = 2 * degree - 1
  isSome_get?_iff : ∀ k, (g.get? k).isSome ↔ k ∈ g.elements
  ascending : g.elements.Pairwise (· < ·)
  size_eq : g.size = (degree / 2).log2 + 1
  odd_lt : ∀ k ∈ g.elements, k % 2 = 1 ∧ k < 2 * degree
  rotations_distinct : ∀ i j, 2 ^ i < degree / 2 → 2 ^ j < degree / 2 →
    5 ^ 2 ^ i % (2 * degree) = 5 ^ 2 ^ j % (2 * degree) → i = j
  conjugation_distinct : ¬IsRotation degree (2 * degree - 1)
  existsUnique_composed : ∀ k, k % 2 = 1 → k < 2 * degree →
    ∃! choice : Bool × Finset ℕ, (∀ r ∈ choice.2, IsRotation degree r) ∧
      composed degree choice.1 choice.2 = k
  exists_path : ∀ k, k % 2 = 1 → k < 2 * degree →
    ∃ path : List ℕ, path.Nodup ∧ (∀ r ∈ path, (g.get? r).isSome) ∧
      ∀ (moduli : List RootTable) (form : Form) (a : ResiduePoly), moduli ≠ [] →
        (∀ t ∈ moduli, ∃ p : UInt64,
          p.toNat.Prime ∧ p.toNat < 2 ^ 63 ∧ RootTable.build p degree = .ok t) →
        a.Over moduli form →
        path.foldlM (fun b r => b.automorphism? r) a = a.automorphism? k

/-- What a choice composes, as a row of elements. -/
theorem exists_path_of_composed {n k : ℕ} {c : Bool} {rotations : Finset ℕ}
    (hrotations : ∀ r ∈ rotations, IsRotation (2 ^ (n + 1)) r)
    (h : composed (2 ^ (n + 1)) c rotations = k) :
    ∃ path : List ℕ, path.Nodup ∧ (∀ r ∈ path, r ∈ keyElements (2 ^ (n + 1))) ∧
      path.prod % (2 * 2 ^ (n + 1)) = k := by
  refine ⟨List.replicate c.toNat (conjugation (2 ^ (n + 1))) ++ rotations.toList, ?_, ?_, ?_⟩
  · refine List.Nodup.append (List.nodup_replicate.2 c.toNat_le) rotations.nodup_toList ?_
    intro r hr hr'
    rw [(List.mem_replicate.1 hr).2] at hr'
    exact not_isRotation_conjugation (hrotations _ (Finset.mem_toList.1 hr'))
  · intro r hr
    rw [mem_keyElements_iff]
    rcases List.mem_append.1 hr with hr | hr
    · exact .inr (List.mem_replicate.1 hr).2
    · exact .inl (hrotations r (Finset.mem_toList.1 hr))
  · rw [List.prod_append, List.prod_replicate, Finset.prod_toList]
    exact h

/-- A set whose elements are those that get a key is full. -/
theorem complete_of_elements {n : ℕ} (hpairwise : g.elements.Pairwise (· < ·))
    (hmem : ∀ k, k ∈ g.elements ↔ k ∈ keyElements (2 ^ (n + 1))) : g.Complete (2 ^ (n + 1)) where
  mem_elements_iff k := (hmem k).trans mem_keyElements_iff
  isSome_get?_iff k := isSome_get?_iff
  ascending := hpairwise
  size_eq := by
    -- Both lists are without repetitions, so that having the same members is enough.
    have hperm : g.elements.Perm (keyElements (2 ^ (n + 1))) :=
      (List.perm_ext_iff_of_nodup (hpairwise.imp ne_of_lt) nodup_keyElements).2 hmem
    have hlength := hperm.length_eq
    simpa [elements, keyElements, size] using hlength
  odd_lt k hk := mem_keyElements (by positivity) ((hmem k).1 hk)
  rotations_distinct i j hi hj h := rotations_injOn
    (Finset.mem_range.2 (two_pow_lt_half_iff.1 hi))
    (Finset.mem_range.2 (two_pow_lt_half_iff.1 hj)) h
  conjugation_distinct := not_isRotation_conjugation
  existsUnique_composed _ := existsUnique_composed
  exists_path k hodd hlt := by
    obtain ⟨⟨c, rotations⟩, ⟨hrotations, hcomposed⟩, -⟩ := existsUnique_composed hodd hlt
    obtain ⟨path, hnodup, hpath, hprod⟩ := exists_path_of_composed hrotations hcomposed
    refine ⟨path, hnodup, fun r hr => isSome_get?_iff.2 ((hmem r).2 (hpath r hr)), ?_⟩
    intro moduli form a hne htables ha
    obtain ⟨hm, hn⟩ := RootTable.sound_of_forall_build htables
    rw [← hprod]
    exact ResiduePoly.foldlM_automorphism? hm hn hne ha (by positivity) fun r hr =>
      mem_keyElements (by positivity) (hpath r hr)

/-- Over a chain that was built, which has a power of two as its degree, every set of Galois keys
that is drawn is full. Where memory can address a polynomial, the elements are computed in words
without an overflow. If moreover the primes are distinct and below `2 ^ 63`, a set is drawn for
every secret, every deviation that is accepted and every state of the source, and each of its keys
hides the image of the secret under its element. -/
theorem complete_of_generate (sampler : Sampler σ) {primes : List UInt64} {N : ℕ}
    (hchain : ModulusChain.build primes N = .ok chain) :
    (∀ (secret : SecretKey) (deviation : Float) (s s' : σ) (g : GaloisKeySet),
      Answers (generate sampler chain secret deviation) s g s' → g.Complete N) ∧
    (Sampler.addressable N → (∀ step, rotation? step N = .ok (5 ^ step % (2 * N))) ∧
      conjugation? N = .ok (2 * N - 1)) ∧
    ((∀ p ∈ primes, p.toNat.Prime ∧ p.toNat < 2 ^ 63) → primes.Nodup → sampler.Lawful →
      Sampler.addressable N → ∀ (cs : List ℤ) (deviation : Float), cs.length = N →
        (deviation.isFinite && 0 < deviation) = true → ∃ secret,
          SecretKey.ofCoefficients? chain cs = .ok secret ∧
          (∀ s, ∃ g s', Answers (generate sampler chain secret deviation) s g s') ∧
          ∀ s g s', Answers (generate sampler chain secret deviation) s g s' →
            g.HidesImages chain (ofCoefficients cs) (sampler.IsError N deviation)) := by
  have hdegree := (ModulusChain.tables_of_build hchain).1
  obtain ⟨n, rfl⟩ := ModulusChain.exists_degree_of_build hchain
  refine ⟨?_, ?_, ?_⟩
  · intro secret deviation s s' g h
    obtain ⟨hpairwise, hmem⟩ := elements_of_generate h
    exact complete_of_elements hpairwise (hdegree ▸ hmem)
  · intro hcount
    have hpos : 2 ^ (n + 1) ≠ 0 := by positivity
    refine ⟨fun step => ?_, conjugation?_eq_ok hcount hpos⟩
    rw [rotation?_eq_ok hcount hpos, rotation_eq_pow_mod step hpos]
  · intro hprimes hnodup hsampler hcount cs deviation hlen hdeviation
    obtain ⟨-, -, hc⟩ := ModulusChain.build_sound hchain hprimes hnodup
    obtain ⟨secret, hsecret, hholds⟩ :=
      SecretKey.exists_ofCoefficients? hc (hlen.trans hdegree.symm)
    refine ⟨secret, hsecret,
      exists_answers_generate hsampler hc hholds (hdegree ▸ hcount) hdeviation, ?_⟩
    intro s g s' h
    exact hdegree ▸ hidesImages_of_generate hsampler hc hholds h

/-- Over a chain of degree eight there are keys for `5`, `9` and `15`, and the automorphism of `3`
is composed of all of them. -/
theorem complete_seventeen :
    ∃ chain secret g, ModulusChain.build [17, 97, 113] 8 = .ok chain ∧
      SecretKey.ofCoefficients? chain [1, -1, 0, 0, 0, 0, 0, 0] = .ok secret ∧
      Answers (generate Sampler.steady chain secret 1) () g () ∧ g.elements = [5, 9, 15] ∧
      g.size = 3 ∧ ∀ choice : Bool × Finset ℕ, (∀ r ∈ choice.2, IsRotation 8 r) →
        composed 8 choice.1 choice.2 = 3 → choice = (true, {5, 9}) := by
  have hprimes : ∀ p ∈ ([17, 97, 113] : List UInt64), p.toNat.Prime ∧ p.toNat < 2 ^ 63 := by
    have h17 : Nat.Prime 17 := by norm_num
    have h97 : Nat.Prime 97 := by norm_num
    have h113 : Nat.Prime 113 := by norm_num
    intro p hp
    simp only [List.mem_cons, List.not_mem_nil, or_false] at hp
    rcases hp with rfl | rfl | rfl
    exacts [⟨h17, by decide⟩, ⟨h97, by decide⟩, ⟨h113, by decide⟩]
  have hbuilt : (ModulusChain.build [17, 97, 113] 8).isOk := by decide +kernel
  obtain ⟨chain, hchain⟩ := exists_eq_ok_of_isOk hbuilt
  obtain ⟨hcomplete, -, hexists⟩ := complete_of_generate Sampler.steady hchain
  obtain ⟨secret, hsecret, hdraw, -⟩ := hexists hprimes (by decide) Sampler.lawful_steady
    (by decide) [1, -1, 0, 0, 0, 0, 0, 0] 1 rfl (by decide +kernel)
  obtain ⟨g, ⟨⟩, hg⟩ := hdraw ()
  have hfull := hcomplete secret 1 () () g hg
  have hmem (k : ℕ) : k ∈ g.elements ↔ k ∈ keyElements 8 :=
    (hfull.mem_elements_iff k).trans (mem_keyElements_iff (n := 2)).symm
  have hkeys : keyElements 8 = [5, 9, 15] := by decide
  have hperm : g.elements.Perm [5, 9, 15] :=
    (List.perm_ext_iff_of_nodup (hfull.ascending.imp ne_of_lt) (by decide)).2 (hkeys ▸ hmem)
  refine ⟨chain, secret, g, hchain, hsecret, hg, ?_, hfull.size_eq, ?_⟩
  · exact hperm.eq_of_pairwise (fun _ _ _ _ h h' => absurd h' (lt_asymm h)) hfull.ascending
      (by decide)
  · intro choice hrotations hcomposed
    refine (hfull.existsUnique_composed 3 rfl (by decide)).unique ⟨hrotations, hcomposed⟩ ⟨?_, rfl⟩
    intro r hr
    simp only [Finset.mem_insert, Finset.mem_singleton] at hr
    rcases hr with rfl | rfl
    · exact ⟨0, by decide, rfl⟩
    · exact ⟨1, by decide, rfl⟩

end GaloisKeySet

end EncryptedArithmetic

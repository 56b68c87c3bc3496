import EncryptedArithmetic.Proofs.Key.Generation
import EncryptedArithmetic.Proofs.Ring.Representation
import EncryptedArithmetic.Proofs.Sampling.Ternary

/-!
# Secrets that were drawn

A secret key is one integer polynomial, whose residues are in every channel of the chain, that of
the special prime among them. Its coefficients are minus one, zero and one, and as many as the
weight says are not zero: this is what the bounds for the noise of all later operations start from.
The leading channels of the key hold the same polynomial, and its square in the channels is the
square of the polynomial in the integers, reduced modulo `X ^ N + 1`.

## Main definitions

* `SecretKey.IsTernary`: an integer polynomial with coefficients of `-1, 0, 1` and a given weight.
* `SecretKey.Represents`: the key, its leading parts and its square hold the residues of an integer
  polynomial and of its square.

## Main results

* `holds_of_generate` and `exists_answers_generate`: keys from any lawful sampler.
* `Holds.represents`: a key that holds a polynomial represents it.
* `exists_ternary_of_generate`: keys from shuffled positions and signs.
-/

namespace EncryptedArithmetic

open Polynomial EncryptedArithmetic.Modular

namespace SecretKey

variable {σ : Type} {sampler : Sampler σ} {chain : ModulusChain} {weight : ℕ} {k : SecretKey}
  {s s' : σ}

/-! ## Drawing a secret -/

/-- A secret that was drawn holds a ternary vector of the weight that was asked for. -/
theorem holds_of_generate (hsampler : sampler.Lawful) (hc : chain.Sound)
    (h : Answers (generate sampler chain weight) s k s') :
    weight ≤ chain.degree ∧
      k.Holds chain (ofCoefficients (sampler.ternary chain.degree weight s).1) := by
  simp only [generate] at h
  split at h
  · simp at h
  simp only [answers_bind, answers_liftM_fault] at h
  obtain ⟨cs, u, hcs, hk, -⟩ := h
  obtain ⟨hle, rfl⟩ := Sampler.answers_drawTernary hcs
  obtain ⟨k', hk', hholds⟩ := exists_ofCoefficients? hc
    (hsampler.ternary_length chain.degree weight s)
  obtain rfl : k' = k := Except.ok.inj (hk'.symm.trans hk)
  exact ⟨hle, hholds⟩

/-- The secret is the one of the vector that the source gives. -/
theorem answers_generate (hcount : Sampler.addressable chain.degree) (hpos : weight ≠ 0)
    (hle : weight ≤ chain.degree)
    (hk : ofCoefficients? chain (sampler.ternary chain.degree weight s).1 = .ok k) :
    Answers (generate sampler chain weight) s k (sampler.ternary chain.degree weight s).2 := by
  have hweight : ¬(weight = 0 ∨ chain.degree < weight) := by omega
  rw [generate, if_neg hweight]
  simp only [answers_bind, answers_liftM_fault]
  exact ⟨_, _, Sampler.answers_drawTernary_of_addressable hcount hle s, hk, rfl⟩

/-- A secret can be drawn for every weight that is accepted. -/
theorem exists_answers_generate (hsampler : sampler.Lawful) (hc : chain.Sound)
    (hcount : Sampler.addressable chain.degree) (hpos : weight ≠ 0) (hle : weight ≤ chain.degree)
    (s : σ) : ∃ k s', Answers (generate sampler chain weight) s k s' := by
  obtain ⟨k, hk, -⟩ := exists_ofCoefficients? hc (hsampler.ternary_length chain.degree weight s)
  exact ⟨k, _, answers_generate hcount hpos hle hk⟩

/-- A vector that memory cannot address ends the draw before anything is taken from the source. -/
theorem outcome_generate_of_not_addressable (hcount : ¬Sampler.addressable chain.degree)
    (hpos : weight ≠ 0) (hle : weight ≤ chain.degree) (s : σ) :
    (generate sampler chain weight).outcome s = (.error (.fault .tooManyEntries), s) := by
  have hweight : ¬(weight = 0 ∨ chain.degree < weight) := by omega
  rw [generate, if_neg hweight]
  simp only [Sampler.drawTernary, if_pos hle, Sampler.drawVector, if_neg hcount]
  rfl

/-! ## The polynomial behind a secret -/

/-- A polynomial below the degree `n` with coefficients of `-1, 0, 1`, of which exactly `weight` are
not zero. -/
structure IsTernary (S : ℤ[X]) (n weight : ℕ) : Prop where
  degree_lt : S.degree < n
  coeff_mem : ∀ j, S.coeff j = -1 ∨ S.coeff j = 0 ∨ S.coeff j = 1
  card_support : S.support.card = weight

/-- The polynomial of a ternary vector is ternary. -/
theorem isTernary_ofCoefficients {cs : List ℤ} (hcs : ∀ c ∈ cs, c = -1 ∨ c = 0 ∨ c = 1) :
    IsTernary (ofCoefficients cs) cs.length (cs.countP (· ≠ 0)) := by
  have hcoeff (j : ℕ) : (ofCoefficients cs).coeff j = -1 ∨ (ofCoefficients cs).coeff j = 0 ∨
      (ofCoefficients cs).coeff j = 1 := by
    rw [coeff_ofCoefficients, List.getD_eq_getElem?_getD]
    rcases hj : cs[j]? with _ | c
    · exact .inr (.inl rfl)
    · exact hcs c (List.mem_of_getElem? hj)
  refine ⟨degree_ofCoefficients_lt cs, hcoeff, ?_⟩
  -- The absolute coefficients are one on the support, and their sum counts the entries.
  have hsub : (ofCoefficients cs).support ⊆ Finset.range cs.length := by
    intro j hj
    by_contra hlarge
    rw [Finset.mem_range, not_lt] at hlarge
    exact mem_support_iff.1 hj
      ((degree_lt_iff_coeff_zero _ _).1 (degree_ofCoefficients_lt cs) j hlarge)
  have hone : ∀ j ∈ (ofCoefficients cs).support, |(ofCoefficients cs).coeff j| = 1 := by
    intro j hj
    rcases hcoeff j with h | h | h
    · rw [h, abs_neg, abs_one]
    · exact absurd h (mem_support_iff.1 hj)
    · rw [h, abs_one]
  have hsum := NegacyclicRing.sum_abs_coeff_ternary hcs
  rw [← Finset.sum_subset hsub fun j _ hj => by rw [notMem_support_iff.1 hj, abs_zero],
    Finset.sum_congr rfl hone, Finset.sum_const, nsmul_eq_mul, mul_one] at hsum
  exact_mod_cast hsum

/-- What a key of an integer polynomial is used for: all of its channels, the leading ones and the
square are transformed and hold the residues of the polynomial and of its square modulo
`X ^ N + 1`. -/
structure Represents (k : SecretKey) (chain : ModulusChain) (S : ℤ[X]) : Prop where
  poly_over : k.poly.Over chain.tables .transformed
  poly_congruent : k.poly.Congruent S
  exists_leading? : ∀ count, 1 ≤ count → count ≤ chain.tables.length →
    ∃ a, k.leading? count = .ok a ∧ a.Over (chain.tables.take count) .transformed ∧ a.Congruent S
  exists_square? : ∃ a, k.square? = .ok a ∧ a.Over chain.tables .transformed ∧ a.Congruent (S ^ 2)

/-- A key that holds a polynomial represents it. -/
theorem Holds.represents {S : ℤ[X]} (hk : k.Holds chain S) (hm : ∀ t ∈ chain.tables, t.Sound) :
    k.Represents chain S where
  poly_over := hk.poly_over
  poly_congruent := (hk.poly_over.congruent_iff hm).2 fun _ _ ht => hk.image_eq ht
  exists_leading? count hpos hle := by
    obtain ⟨a, ha, hoa, hia⟩ := hk.exists_take? hpos hle
    have hmem : ∀ t ∈ chain.tables.take count, t.Sound := fun t ht => hm t (List.mem_of_mem_take ht)
    exact ⟨a, ha, hoa, (hoa.congruent_iff hmem).2 hia⟩
  exists_square? := by
    obtain ⟨a, ha, hoa, hia⟩ := hk.exists_square? hm
    refine ⟨a, ha, hoa, (hoa.congruent_iff hm).2 fun i t ht => ?_⟩
    rw [hia i t ht, map_pow]

/-! ## Shuffled positions -/

/-- Over every chain that is built for primes below `2 ^ 63`, distinct or not, and for every weight
from one to the degree, every outcome of the shuffle and every sequence of signs, a secret is drawn
wherever memory can address a vector. One integer polynomial is behind all of its channels, the
leading ones and the square; it is ternary of exactly this weight, with the signs that were drawn at
the leading positions of the shuffle. -/
theorem exists_ternary_of_generate (sampler : Sampler σ) (shuffle : ℕ → σ → List ℕ × σ)
    (next : σ → UInt64 × σ) {primes : List UInt64} {n : ℕ}
    (hprimes : ∀ p ∈ primes, p.toNat.Prime ∧ p.toNat < 2 ^ 63)
    (hchain : ModulusChain.build primes n = .ok chain) (hpos : 1 ≤ weight) (hle : weight ≤ n)
    {positions : List ℕ} {u : σ} (hshuffle : shuffle n s = (positions, u))
    (hperm : positions.Perm (List.range n)) :
    chain.primes = primes ∧
    (Sampler.addressable n → ∃ (k : SecretKey) (s' : σ) (S : ℤ[X]),
      Answers (generate (sampler.shuffling shuffle next) chain weight) s k s' ∧
      IsTernary S n weight ∧ k.Represents chain S ∧
      ∀ i < weight, ∀ p, positions[i]? = some p →
        (Generator.signs next weight u)[i]? = some (S.coeff p)) ∧
    (¬Sampler.addressable n → (generate (sampler.shuffling shuffle next) chain weight).outcome s =
      (.error (.fault .tooManyEntries), s)) := by
  obtain ⟨rfl, htwo, hlen, -⟩ := ModulusChain.tables_of_build hchain
  obtain ⟨hm, hn⟩ := ModulusChain.tables_sound_of_build hchain hprimes
  have hne : chain.tables ≠ [] := List.ne_nil_of_length_pos (by omega)
  refine ⟨ModulusChain.primes_of_build hchain, fun hcount => ?_,
    fun hcount => outcome_generate_of_not_addressable hcount (by omega) hle s⟩
  have hshuffled : (shuffle chain.degree s).1.Perm (List.range chain.degree) := by rwa [hshuffle]
  obtain ⟨hlength, hmem, hweight⟩ := Sampler.ternary_shuffling sampler next hshuffled weight
  obtain ⟨k, hk, hholds⟩ := exists_holds hm hn hne hlength
  refine ⟨k, _, _, answers_generate hcount (by omega) hle hk, ?_, hholds.represents hm, ?_⟩
  · have hternary := isTernary_ofCoefficients hmem
    rwa [hlength, hweight hle] at hternary
  · intro i hi p hp
    have hlt : p < chain.degree :=
      List.mem_range.1 (hperm.mem_iff.1 (List.mem_of_getElem? hp))
    rw [Sampler.getElem?_ternary_shuffling hshuffle hperm hle hi hp, coeff_ofCoefficients,
      List.getD_eq_getElem _ _ (hlength.symm ▸ hlt), List.getElem?_eq_getElem]

/-- The generator that starts from seven shuffles the positions of degree eight so that `4`, `1` and
`7` lead, and its next words have the signs of `-X ^ 4 + X - X ^ 7`. -/
theorem exists_ternary_ofSeed_seven :
    ∃ chain k s' S, ModulusChain.build [17, 97, 113] 8 = .ok chain ∧
      Answers (generate Generator.sampler chain 3) (.ofSeed 7) k s' ∧ IsTernary S 8 3 ∧
      k.Represents chain S ∧ S.coeff 4 = -1 ∧ S.coeff 1 = 1 ∧ S.coeff 7 = -1 := by
  have hprimes : ∀ p ∈ ([17, 97, 113] : List UInt64), p.toNat.Prime ∧ p.toNat < 2 ^ 63 := by
    have h17 : Nat.Prime 17 := by norm_num
    have h97 : Nat.Prime 97 := by norm_num
    have h113 : Nat.Prime 113 := by norm_num
    simp only [List.forall_mem_cons, List.not_mem_nil, false_imp_iff, implies_true, and_true]
    exact ⟨⟨h17, by decide⟩, ⟨h97, by decide⟩, h113, by decide⟩
  have hbuilt : (ModulusChain.build [17, 97, 113] 8).isOk := by decide +kernel
  obtain ⟨chain, hchain⟩ := exists_eq_ok_of_isOk hbuilt
  have hpositions : (Generator.shufflePositions 8 (.ofSeed 7)).1 = [4, 1, 7, 0, 5, 2, 6, 3] := by
    decide +kernel
  have hsigns : Generator.signs Generator.next 3 (Generator.shufflePositions 8 (.ofSeed 7)).2 =
      [-1, 1, -1] := by
    decide +kernel
  have hshuffle : Generator.shufflePositions 8 (.ofSeed 7) =
      ([4, 1, 7, 0, 5, 2, 6, 3], (Generator.shufflePositions 8 (.ofSeed 7)).2) := by
    rw [← hpositions]
  obtain ⟨-, hdrawn, -⟩ := exists_ternary_of_generate Generator.sampler Generator.shufflePositions
    Generator.next hprimes hchain (show 1 ≤ 3 by decide) (show 3 ≤ 8 by decide) hshuffle (by decide)
  rw [← Generator.sampler_eq_shuffling, hsigns] at hdrawn
  obtain ⟨k, s', S, hk, hS, hrepresents, hcoeff⟩ := hdrawn (by decide)
  exact ⟨chain, k, s', S, hchain, hk, hS, hrepresents,
    (Option.some.inj (hcoeff 0 (by decide) 4 rfl)).symm,
    (Option.some.inj (hcoeff 1 (by decide) 1 rfl)).symm,
    (Option.some.inj (hcoeff 2 (by decide) 7 rfl)).symm⟩

end SecretKey

end EncryptedArithmetic

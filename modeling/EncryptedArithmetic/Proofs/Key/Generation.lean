import EncryptedArithmetic.Proofs.Key.Switching
import EncryptedArithmetic.Proofs.Sampling
import Mathlib.Tactic.NormNum.Prime

/-!
# Keys that were drawn

A secret key holds an integer polynomial in every channel. A pair that is made for an error hides
exactly this error, and the pair of a switching key for `q_j` also hides `P` times the target in the
channel of `q_j`. What a switching key hides does not depend on the uniform draws.

## Main results

* `hides_of_generate`: a key that was drawn hides the errors that the source gave.
* `exists_answers_generate`: a key can be drawn for every deviation that is accepted.
* `switch_of_generate`: what such a key does to every polynomial of every level.
-/

namespace EncryptedArithmetic

open Polynomial EncryptedArithmetic.Modular

/-! ## Secrets -/

/-- The key holds the integer polynomial `S` in every channel of the chain. -/
structure SecretKey.Holds (k : SecretKey) (chain : ModulusChain) (S : ℤ[X]) : Prop where
  poly_over : k.poly.Over chain.tables .transformed
  image_eq : ∀ {i : ℕ} {t : RootTable}, chain.tables[i]? = some t → k.poly.image i t = t.ofInt S

/-- The key of given coefficients exists over tables of one degree and holds them. -/
theorem SecretKey.exists_holds {chain : ModulusChain} {n : ℕ} (hm : ∀ t ∈ chain.tables, t.Sound)
    (hn : ∀ t ∈ chain.tables, t.degree = n) (hne : chain.tables ≠ []) {cs : List ℤ}
    (hlen : cs.length = n) :
    ∃ k, SecretKey.ofCoefficients? chain cs = .ok k ∧ k.Holds chain (ofCoefficients cs) := by
  obtain ⟨a, ha, hoa, hia⟩ := ResiduePoly.exists_ofSignedTransformed? hm hn hne hlen
  exact ⟨⟨a⟩, by rw [SecretKey.ofCoefficients?, ha, ok_bind, pure_eq_ok], hoa, hia _ _⟩

theorem SecretKey.exists_ofCoefficients? {chain : ModulusChain} (hc : chain.Sound) {cs : List ℤ}
    (hlen : cs.length = chain.degree) :
    ∃ k, SecretKey.ofCoefficients? chain cs = .ok k ∧ k.Holds chain (ofCoefficients cs) :=
  SecretKey.exists_holds hc.table_sound hc.table_degree hc.tables_ne_nil hlen

namespace SecretKey.Holds

variable {chain : ModulusChain} {k : SecretKey} {S : ℤ[X]}

/-- The secret over the first channels. -/
theorem exists_take? (hk : k.Holds chain S) {count : ℕ} (hpos : 1 ≤ count)
    (hle : count ≤ chain.tables.length) :
    ∃ s, k.leading? count = .ok s ∧ s.Over (chain.tables.take count) .transformed ∧
      ∀ i t, (chain.tables.take count)[i]? = some t → s.image i t = t.ofInt S := by
  obtain ⟨s, hs, hos, his⟩ := ResiduePoly.exists_leading? hpos hle hk.poly_over
  refine ⟨s, hs, hos, ?_⟩
  intro i t ht
  have hlt : i < count := (List.getElem?_eq_some_iff.1 ht).1.trans_le (List.length_take_le _ _)
  rw [his i t ht]
  rw [List.getElem?_take_of_lt hlt] at ht
  exact hk.image_eq ht

/-- The secret over the primes of a level. -/
theorem exists_leading? (hc : chain.Sound) (hk : k.Holds chain S) {level : ℕ}
    (hl : level ≤ chain.topLevel) :
    ∃ s, k.leading? (chain.lower level).length = .ok s ∧
      s.Over (chain.lower level) .transformed ∧
      ∀ i t, (chain.lower level)[i]? = some t → s.image i t = t.ofInt S := by
  have htop := hc.topLevel_add_two
  rw [hc.length_lower hl]
  exact hk.exists_take? (by omega) (by omega)

/-- The square of the secret over the whole chain. -/
theorem exists_square? (hm : ∀ t ∈ chain.tables, t.Sound) (hk : k.Holds chain S) :
    ∃ a, k.square? = .ok a ∧ a.Over chain.tables .transformed ∧
      ∀ i t, chain.tables[i]? = some t → a.image i t = t.ofInt S ^ 2 := by
  obtain ⟨a, ha, hoa, hia⟩ := ResiduePoly.exists_mul? hm hk.poly_over hk.poly_over
  refine ⟨a, ha, hoa, ?_⟩
  intro i t ht
  rw [hia i t ht, hk.image_eq ht, sq]

end SecretKey.Holds

/-! ## Pairs -/

/-- A pair that is made for an error has it as its phase. -/
theorem MaskedPair.exists_ofError? {moduli : List RootTable} (hm : ∀ t ∈ moduli, t.Sound)
    {s a e : ResiduePoly} (hs : s.Over moduli .transformed) (ha : a.Over moduli .transformed)
    (he : e.Over moduli .transformed) {S : ℤ[X]}
    (his : ∀ i t, moduli[i]? = some t → s.image i t = t.ofInt S) :
    ∃ m, MaskedPair.ofError? s a e = .ok m ∧ m.Over moduli ∧
      ∀ i t, moduli[i]? = some t → m.phase S i t = e.image i t := by
  obtain ⟨product, hproduct, hop, hip⟩ := ResiduePoly.exists_mul? hm ha hs
  obtain ⟨hon, hin⟩ := ResiduePoly.over_neg hm hop
  obtain ⟨b, hb, hob, hib⟩ := ResiduePoly.exists_add? hm hon he
  refine ⟨⟨b, a⟩, ?_, ⟨hob, ha⟩, ?_⟩
  · simp only [MaskedPair.ofError?, hproduct, hb, ok_bind, pure_eq_ok]
  · intro i t ht
    rw [MaskedPair.phase, (hib i t ht).2, (hin i t ht).2, hip i t ht, his i t ht]
    ring

namespace SwitchingKey

variable {chain : ModulusChain} {secret : SecretKey} {S : ℤ[X]} {target : ResiduePoly}

/-- The pair of a switching key for one data prime. -/
theorem exists_digit? (hc : chain.Sound) (hsecret : secret.Holds chain S)
    (htarget : target.Over chain.tables .transformed) {position : ℕ}
    (hposition : position < chain.tables.length) {a e : ResiduePoly}
    (ha : a.Over chain.tables .transformed) (he : e.Over chain.tables .transformed) :
    ∃ m, digit? chain secret target position a e = .ok m ∧ m.Over chain.tables ∧
      ∀ i t, chain.tables[i]? = some t → m.phase S i t = e.image i t +
        if i = position then (chain.specialPrime.toNat : ℤ) * target.image i t else 0 := by
  obtain ⟨m, hm, hom, hpm⟩ := MaskedPair.exists_ofError? hc.table_sound hsecret.poly_over ha he
    fun _ _ ht => hsecret.image_eq ht
  obtain ⟨b, hb, hob, hib⟩ := ResiduePoly.exists_addScaledAt? hc.table_sound hposition
    chain.specialPrime hom.b htarget
  refine ⟨⟨b, m.a⟩, ?_, ⟨hob, hom.a⟩, ?_⟩
  · simp only [digit?, hm, hb, ok_bind, pure_eq_ok]
  · intro i t ht
    rw [← hpm i t ht, MaskedPair.phase, MaskedPair.phase, hib i t ht]
    ring

/-! ## Drawing a key -/

section Drawing

variable {σ : Type} {sampler : Sampler σ} {deviation : Float} {s s' : σ}

/-- A pair that was drawn hides an error that the source gave. -/
theorem phase_of_generateDigit (hsampler : sampler.Lawful) (hc : chain.Sound)
    (hsecret : secret.Holds chain S) (htarget : target.Over chain.tables .transformed)
    {position : ℕ} (hposition : position < chain.tables.length) {m : MaskedPair}
    (h : Answers (generateDigit sampler chain secret target deviation position) s m s') :
    m.Over chain.tables ∧ ∃ u, ∀ i t, chain.tables[i]? = some t → m.phase S i t =
      t.ofInt (ofCoefficients (sampler.gaussian chain.degree deviation u).1) +
        if i = position then (chain.specialPrime.toNat : ℤ) * target.image i t else 0 := by
  -- The steps of the draw, each compared with what is known to exist.
  simp only [generateDigit, answers_bind, answers_liftM_fault] at h
  obtain ⟨a, u, ha, es, v, hes, e, w, ⟨he, -⟩, hm, -⟩ := h
  have hoa := Sampler.over_of_drawPoly hsampler hc.table_degree ha
  obtain rfl := Sampler.answers_drawGaussian hes
  obtain ⟨e', he', hoe, hie⟩ := ResiduePoly.exists_ofSignedTransformed? hc.table_sound
    hc.table_degree hc.tables_ne_nil (hsampler.gaussian_length chain.degree deviation u)
  obtain rfl : e' = e := Except.ok.inj (he'.symm.trans he)
  obtain ⟨m', hm', hom, hpm⟩ := exists_digit? hc hsecret htarget hposition hoa hoe
  obtain rfl : m' = m := Except.ok.inj (hm'.symm.trans hm)
  refine ⟨hom, u, ?_⟩
  intro i t ht
  rw [hpm i t ht, hie i t ht]

/-- A key that was drawn hides the errors that the source gave, one for each data prime. -/
theorem hides_of_generate (hsampler : sampler.Lawful) (hc : chain.Sound)
    (hsecret : secret.Holds chain S) (htarget : target.Over chain.tables .transformed)
    {key : SwitchingKey} (h : Answers (generate sampler chain secret target deviation) s key s') :
    ∃ e : ℕ → List ℤ, (∀ j, ∃ u, e j = (sampler.gaussian chain.degree deviation u).1) ∧
      key.Hides chain S target fun j => ofCoefficients (e j) := by
  simp only [generate, answers_bind, answers_pure, answers_liftM_result] at h
  obtain ⟨_, _, -, digits, _, hdigits, rfl, -⟩ := h
  obtain ⟨hlen, hget⟩ := answers_mapM hdigits
  have htop := hc.topLevel_add_two
  rw [List.length_range] at hlen
  -- Pair `j` was drawn by the step for position `j`.
  have hdigit {j : ℕ} {m : MaskedPair} (hm : digits[j]? = some m) :
      m.Over chain.tables ∧ ∃ u, ∀ i t, chain.tables[i]? = some t → m.phase S i t =
        t.ofInt (ofCoefficients (sampler.gaussian chain.degree deviation u).1) +
          if i = j then (chain.specialPrime.toNat : ℤ) * target.image i t else 0 := by
    have hj := (List.getElem?_eq_some_iff.1 hm).1
    have hrange : (List.range (chain.topLevel + 1))[j]? = some j := by simp [hlen ▸ hj]
    obtain ⟨u, u', hdraw⟩ := hget j j m hrange hm
    exact phase_of_generateDigit hsampler hc hsecret htarget (by omega) hdraw
  -- Positions past the last pair get any draw of the source.
  have herror (j : ℕ) : ∃ es : List ℤ, (∃ u, es = (sampler.gaussian chain.degree deviation u).1) ∧
      ∀ m, digits[j]? = some m → ∀ i t, chain.tables[i]? = some t → m.phase S i t =
        t.ofInt (ofCoefficients es) +
          if i = j then (chain.specialPrime.toNat : ℤ) * target.image i t else 0 := by
    rcases hm : digits[j]? with _ | m
    · exact ⟨_, ⟨s, rfl⟩, fun m hm => by cases hm⟩
    · obtain ⟨-, u, hu⟩ := hdigit hm
      exact ⟨_, ⟨u, rfl⟩, fun m' hm' => Option.some.inj hm' ▸ hu⟩
  choose e hdrawn hphase using herror
  exact ⟨e, hdrawn, hlen, fun hm => (hdigit hm).1, fun hm ht => hphase _ _ hm _ _ ht⟩

/-- A key can be drawn for every deviation that is accepted. -/
theorem exists_answers_generate (hsampler : sampler.Lawful) (hc : chain.Sound)
    (hsecret : secret.Holds chain S) (htarget : target.Over chain.tables .transformed)
    (hcount : Sampler.addressable chain.degree)
    (hdeviation : (deviation.isFinite && 0 < deviation) = true) (s : σ) :
    ∃ key s', Answers (generate sampler chain secret target deviation) s key s' := by
  have htop := hc.topLevel_add_two
  have hhead := Sampler.leadingDegree_eq hc.table_degree hc.tables_ne_nil
  -- Every step has an answer from every state of the source.
  have hdigit : ∀ j ∈ List.range (chain.topLevel + 1), ∀ s, ∃ m s',
      Answers (generateDigit sampler chain secret target deviation j) s m s' := by
    intro j hj s
    have hlt : j < chain.tables.length := by
      have := List.mem_range.1 hj
      omega
    obtain ⟨a, u, ha⟩ := sampler.exists_answers_drawPoly
      (fun t ht => (hc.table_sound t ht).prime_pos) (hhead ▸ hcount) s
    obtain ⟨es, v, hes⟩ := sampler.exists_answers_drawGaussian hcount hdeviation u
    have hoa := Sampler.over_of_drawPoly hsampler hc.table_degree ha
    have hlen : es.length = chain.degree := by
      rw [Sampler.answers_drawGaussian hes, hsampler.gaussian_length]
    obtain ⟨e, he, hoe, -⟩ := ResiduePoly.exists_ofSignedTransformed? hc.table_sound
      hc.table_degree hc.tables_ne_nil hlen
    obtain ⟨m, hm, -⟩ := exists_digit? hc hsecret htarget hlt hoa hoe
    refine ⟨m, v, ?_⟩
    simp only [generateDigit, answers_bind, answers_liftM_fault]
    exact ⟨a, u, ha, es, v, hes, e, v, ⟨he, rfl⟩, hm, rfl⟩
  obtain ⟨digits, s', hdigits⟩ := exists_answers_mapM hdigit s
  refine ⟨⟨digits⟩, s', ?_⟩
  simp only [generate, answers_bind, answers_liftM_result, answers_pure]
  exact ⟨(), s, ⟨if_pos hdeviation, rfl⟩, digits, s', hdigits, rfl, rfl⟩

end Drawing

/-- A key that was drawn for a ternary secret switches every polynomial of every level: the phase of
the result is the product with the target and the noise, which is bounded by the errors. -/
theorem switch_of_generate {σ : Type} {sampler : Sampler σ} (hsampler : sampler.Lawful)
    {primes : List UInt64} {n : ℕ} {chain : ModulusChain}
    (hprimes : ∀ p ∈ primes, p.toNat.Prime ∧ p.toNat < 2 ^ 63) (hnodup : primes.Nodup)
    (hchain : ModulusChain.build primes n = .ok chain)
    {cs : List ℤ} (hlen : cs.length = n) (hternary : ∀ c ∈ cs, c = -1 ∨ c = 0 ∨ c = 1)
    {secret : SecretKey} (hsecret : SecretKey.ofCoefficients? chain cs = .ok secret)
    {target : ResiduePoly} (htarget : target.Over chain.tables .transformed)
    {deviation : Float} {s s' : σ} {key : SwitchingKey}
    (hkey : Answers (generate sampler chain secret target deviation) s key s') :
    ∃ e : ℕ → List ℤ, (∀ j, ∃ u, e j = (sampler.gaussian n deviation u).1) ∧
      ∀ level ≤ chain.topLevel, ∀ (form : Form) (input : ResiduePoly),
        input.Over (chain.lower level) form →
        ∃ d out V, input.toCoefficient? = .ok d ∧
          (∀ j t, (chain.lower level)[j]? = some t → t.ofInt (d.digit j) = input.image j t ∧
            ∀ k, |(d.digit j).coeff k| ≤ ((t.prime.toNat : ℤ) - 1) / 2) ∧
          key.switch? chain input = .ok out ∧ out.Over (chain.lower level) ∧
          (∀ i t, (chain.lower level)[i]? = some t →
            out.b.image i t + out.a.image i t * secret.poly.image i t =
              input.image i t * target.image i t + t.ofInt V) ∧
          IsNoise chain level (ofCoefficients cs) d.digit (fun j => ofCoefficients (e j)) V ∧
          ∀ B : ℤ, (∀ j ≤ level, ∀ x ∈ e j, |x| ≤ B) → ∀ k,
            chain.specialPrime.toNat * |V.coeff k| ≤
              ∑ j ∈ Finset.range (level + 1),
                n * B * ((((chain.primes.getD j 0).toNat : ℤ) - 1) / 2) +
              (1 + cs.countP (· ≠ 0)) * (((chain.specialPrime.toNat : ℤ) - 1) / 2) := by
  obtain ⟨-, hdegree, hc⟩ := ModulusChain.build_sound hchain hprimes hnodup
  subst hdegree
  obtain ⟨secret', hsecret', hholds⟩ := SecretKey.exists_ofCoefficients? hc hlen
  obtain rfl : secret' = secret := Except.ok.inj (hsecret'.symm.trans hsecret)
  obtain ⟨e, hdrawn, hhides⟩ := hides_of_generate hsampler hc hholds htarget hkey
  have hlength (j : ℕ) : (e j).length = chain.degree := by
    obtain ⟨u, hu⟩ := hdrawn j
    rw [hu, hsampler.gaussian_length]
  refine ⟨e, hdrawn, ?_⟩
  intro level hl form input hin
  obtain ⟨d, out, V, hd, hod, hout, hoo, hnoise, hphase⟩ := exists_switch? hc hl hhides hin
  obtain ⟨d', hd', -, hid⟩ := ResiduePoly.exists_toCoefficient?
    (fun _ ht => hc.sound_of_mem_lower ht) hin
  obtain rfl : d = d' := Except.ok.inj (hd.symm.trans hd')
  -- A digit has the image of the input in its own channel.
  have hdigit (j : ℕ) (t : RootTable) (ht : (chain.lower level)[j]? = some t) :
      t.ofInt (d.digit j) = input.image j t := by
    rw [ResiduePoly.digit_eq hod ht, RootTable.ofInt_centered, ← hod.image_eq, hid j t ht]
  refine ⟨d, out, V, hd, fun j t ht => ⟨hdigit j t ht, (digit_lt hc hod ht).2⟩, hout, hoo,
    ?_, hnoise, ?_⟩
  · intro i t ht
    rw [hholds.image_eq (ModulusChain.Sound.getElem?_lower_iff.1 ht).2]
    exact hphase i t ht
  · intro B hB k
    exact abs_coeff_noise_le hc hl hod hlen hternary hlength hnoise hB k

/-- A chain over `5`, `13` and `17`, the secret `1 - X`, errors of one and the target zero: what is
left of `3 - X` at the upper level is a noise of at most two. -/
theorem switch_of_generate_seventeen :
    ∃ chain secret key input out V, ModulusChain.build [5, 13, 17] 2 = .ok chain ∧
      SecretKey.ofCoefficients? chain [1, -1] = .ok secret ∧
      Answers (generate Sampler.steady chain secret (.zero chain.tables .transformed) 1) () key () ∧
      ResiduePoly.ofSigned? [3, -1] (chain.lower 1) = .ok input ∧
      key.switch? chain input = .ok out ∧ (∀ k, |V.coeff k| ≤ 2) ∧
      ∀ i t, (chain.lower 1)[i]? = some t →
        out.b.image i t + out.a.image i t * secret.poly.image i t = t.ofInt V := by
  have hprimes : ∀ p ∈ ([5, 13, 17] : List UInt64), p.toNat.Prime ∧ p.toNat < 2 ^ 63 := by
    have h5 : Nat.Prime 5 := by norm_num
    have h13 : Nat.Prime 13 := by norm_num
    have h17 : Nat.Prime 17 := by norm_num
    intro p hp
    simp only [List.mem_cons, List.not_mem_nil, or_false] at hp
    rcases hp with rfl | rfl | rfl
    exacts [⟨h5, by decide⟩, ⟨h13, by decide⟩, ⟨h17, by decide⟩]
  have hnodup : ([5, 13, 17] : List UInt64).Nodup := by decide
  have hbuilt : (ModulusChain.build [5, 13, 17] 2).isOk := by decide +kernel
  obtain ⟨chain, hchain⟩ : ∃ c, ModulusChain.build [5, 13, 17] 2 = .ok c := by
    rcases h : ModulusChain.build [5, 13, 17] 2 with _ | c
    · rw [h] at hbuilt
      cases hbuilt
    · exact ⟨c, rfl⟩
  obtain ⟨hcprimes, hdegree, hc⟩ := ModulusChain.build_sound hchain hprimes hnodup
  have hlevel : 1 ≤ chain.topLevel := by
    have hlength := congrArg List.length hcprimes
    rw [ModulusChain.primes, List.length_map, List.length_cons] at hlength
    rw [ModulusChain.topLevel, hlength]
    decide
  obtain ⟨secret, hsecret, hholds⟩ := SecretKey.exists_ofCoefficients? hc
    (show [1, -1].length = chain.degree from hdegree.symm)
  have htarget := (ResiduePoly.over_zero hc.table_sound .transformed).1
  have hcount : Sampler.addressable chain.degree := by
    rw [hdegree]
    decide
  have hdeviation : ((1 : Float).isFinite && 0 < (1 : Float)) = true := by decide +kernel
  obtain ⟨key, ⟨⟩, hkey⟩ :=
    exists_answers_generate Sampler.lawful_steady hc hholds htarget hcount hdeviation ()
  obtain ⟨input, hinput, hoi, -⟩ := ResiduePoly.exists_ofSigned?
    (fun _ ht => hc.sound_of_mem_lower ht) (fun _ ht => hc.degree_of_mem_lower ht) hc.lower_ne_nil
    (show [3, -1].length = chain.degree from hdegree.symm)
  -- All the errors are ones, so the bound is `2 * 2 + 2 * 6 + 3 * 8` over `17`.
  obtain ⟨e, he, hswitch⟩ := switch_of_generate Sampler.lawful_steady hprimes hnodup hchain rfl
    (by decide) hsecret htarget hkey
  obtain ⟨d, out, V, -, -, hout, -, hphase, -, hbound⟩ := hswitch 1 hlevel .coefficient input hoi
  have herror : ∀ j ≤ 1, ∀ x ∈ e j, |x| ≤ 1 := by
    intro j _ x hx
    obtain ⟨u, hu⟩ := he j
    rw [hu] at hx
    rw [(List.mem_replicate.1 hx).2]
    decide
  refine ⟨chain, secret, key, input, out, V, hchain, hsecret, hkey, hinput, hout, ?_, ?_⟩
  · intro k
    have hk := hbound 1 herror k
    have hspecial : chain.specialPrime = 17 := by
      rw [ModulusChain.specialPrime, hcprimes]
      rfl
    rw [hspecial, hcprimes, Finset.sum_range_succ, Finset.sum_range_one] at hk
    change 17 * |V.coeff k| ≤ 2 * 1 * 2 + 2 * 1 * 6 + (1 + 2) * 8 at hk
    omega
  · intro i t ht
    have htable := (ModulusChain.Sound.getElem?_lower_iff.1 ht).2
    rw [hphase i t ht, (ResiduePoly.over_zero hc.table_sound .transformed).2 i t htable, mul_zero,
      zero_add]

end SwitchingKey

end EncryptedArithmetic

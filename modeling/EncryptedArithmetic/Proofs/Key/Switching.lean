import EncryptedArithmetic.Proofs.Ring.Chain
import EncryptedArithmetic.Proofs.Ring.Channels

/-!
# Key switching

A key hides its target when the phase of its `j`-th pair is the error `e_j`, and in the channel of
`q_j` alone `e_j + P * t`. Switching `D` sums the pairs times the digits `d_j` of `D`. In the
channel of `q_i` the sum has the phase `sum of d_j * e_j + P * d_i * t`, where `d_i` has the image
of `D`; in the channel of `P` only the errors are left. So the errors less the two remainders of the
division by `P` vanish modulo `P`: they are `P` times an integer polynomial, which is the noise of
the switch.

## Main results

* `exists_accumulate?` and `exists_foldlM_accumulate?`: one step and a whole run of the sum.
* `exists_switch?`: switching succeeds at every level, with its noise given exactly.
* `abs_coeff_noise_le`: the bound on the noise, under a ternary secret.
-/

namespace EncryptedArithmetic

open Polynomial EncryptedArithmetic.Modular

/-! ## Pairs and their phases -/

namespace MaskedPair

/-- Both components are kept over the moduli, transformed. -/
structure Over (m : MaskedPair) (moduli : List RootTable) : Prop where
  b : m.b.Over moduli .transformed
  a : m.a.Over moduli .transformed

/-- What a pair holds in a channel under the secret with integer coefficients `S`. -/
noncomputable def phase (m : MaskedPair) (S : ℤ[X]) (i : ℕ) (t : RootTable) :
    NegacyclicRing t.degree (ZMod t.prime.toNat) :=
  m.b.image i t + m.a.image i t * t.ofInt S

end MaskedPair

/-- The integer polynomial nearest to zero in one channel of a coefficient form. -/
noncomputable def ResiduePoly.digit (a : ResiduePoly) (j : ℕ) : ℤ[X] :=
  (a.channels[j]?.map fun c => c.table.centered c.residues).getD 0

theorem ResiduePoly.digit_eq {a : ResiduePoly} {moduli : List RootTable} {form : Form}
    (ha : a.Over moduli form) {j : ℕ} {t : RootTable} (ht : moduli[j]? = some t) :
    a.digit j = t.centered (a.row j) := by
  rw [digit, ha.getElem?_eq ht, Option.map_some, Option.getD_some]

namespace SwitchingKey

/-- The key holds a pair for each data prime; pair `j` hides the error `e j` and, in the channel of
`q_j` alone, also `P` times the target. -/
structure Hides (key : SwitchingKey) (chain : ModulusChain) (S : ℤ[X]) (target : ResiduePoly)
    (e : ℕ → ℤ[X]) : Prop where
  length_eq : key.digits.length = chain.topLevel + 1
  digits_over : ∀ {j : ℕ} {m : MaskedPair}, key.digits[j]? = some m → m.Over chain.tables
  phase_eq : ∀ {j p : ℕ} {m : MaskedPair} {t : RootTable}, key.digits[j]? = some m →
    chain.tables[p]? = some t → m.phase S p t =
      t.ofInt (e j) + if p = j then (chain.specialPrime.toNat : ℤ) * target.image p t else 0

variable {chain : ModulusChain} {level : ℕ} {S : ℤ[X]}

/-! ## The sum of the pairs -/

/-- One step adds the phase of a pair, at the position of the channel, times a digit. -/
theorem exists_accumulate? (hc : chain.Sound) (hl : level ≤ chain.topLevel) {sums m : MaskedPair}
    {table : RootTable} {xs : List UInt64} (hsums : sums.Over (chain.extended level))
    (hm : m.Over chain.tables) (hlen : xs.length = chain.degree) (S : ℤ[X]) :
    ∃ out, accumulate? (chain.extended level) (chain.extendedPositions level) sums
        (m, ⟨table, xs⟩) = .ok out ∧ out.Over (chain.extended level) ∧
      ∀ i p t, (chain.extendedPositions level)[i]? = some p →
        (chain.extended level)[i]? = some t →
        out.phase S i t = sums.phase S i t + m.phase S p t * t.ofInt (table.centered xs) := by
  have hsound : ∀ t ∈ chain.extended level, t.Sound := fun _ ht => hc.sound_of_mem_extended ht
  have hdegree : ∀ t ∈ chain.extended level, t.degree = chain.degree := fun t ht =>
    hc.table_degree t (ModulusChain.Sound.mem_of_mem_extended ht)
  have hpositions := hc.length_extendedPositions hl
  have hne : chain.extended level ≠ [] := by
    intro h
    rw [h, List.length_nil, List.length_eq_zero_iff] at hpositions
    exact ModulusChain.Sound.extendedPositions_ne_nil hpositions
  have hlen' : (xs.map (centeredResidue table.prime)).length = chain.degree := by
    rw [List.length_map, hlen]
  obtain ⟨digit, hdigit, hod, hid⟩ :=
    ResiduePoly.exists_ofSignedTransformed? hsound hdegree hne hlen'
  -- Each component: narrow, multiply by the digit, add.
  have hcomponent {sum part : ResiduePoly} (hsum : sum.Over (chain.extended level) .transformed)
      (hpart : part.Over chain.tables .transformed) :
      ∃ narrowed product out, part.select? (chain.extendedPositions level) = .ok narrowed ∧
        narrowed.mul? digit = .ok product ∧ sum.add? product = .ok out ∧
        out.Over (chain.extended level) .transformed ∧
        ∀ i p t, (chain.extendedPositions level)[i]? = some p →
          (chain.extended level)[i]? = some t →
          out.image i t = sum.image i t + part.image p t * t.ofInt (table.centered xs) := by
    obtain ⟨narrowed, hnarrowed, hon, hin⟩ := ResiduePoly.exists_select? hpositions
      ModulusChain.Sound.extendedPositions_ne_nil (hc.exists_position hl) hpart
    obtain ⟨product, hproduct, hop, hip⟩ := ResiduePoly.exists_mul? hsound hon hod
    obtain ⟨out, hout, hoo, hio⟩ := ResiduePoly.exists_add? hsound hsum hop
    refine ⟨narrowed, product, out, hnarrowed, hproduct, hout, hoo, ?_⟩
    intro i p t hp ht
    rw [(hio i t ht).2, hip i t ht, hin i p t hp ht, hid i t ht]
    rfl
  obtain ⟨nb, pb, b, hnb, hpb, hb, hob, hib⟩ := hcomponent hsums.b hm.b
  obtain ⟨na, pa, a, hna, hpa, ha, hoa, hia⟩ := hcomponent hsums.a hm.a
  refine ⟨⟨b, a⟩, ?_, ⟨hob, hoa⟩, ?_⟩
  · simp only [accumulate?, lift?, Channel.prime, hdigit, hnb, hpb, hb, hna, hpa, ha, ok_bind,
      pure_eq_ok]
  · intro i p t hp ht
    unfold MaskedPair.phase
    rw [hib i p t hp ht, hia i p t hp ht]
    ring

/-- A whole run adds all of them. -/
theorem exists_foldlM_accumulate? (hc : chain.Sound) (hl : level ≤ chain.topLevel)
    {entries : List (MaskedPair × Channel)} {sums : MaskedPair}
    (hsums : sums.Over (chain.extended level))
    (hentries : ∀ e ∈ entries, e.1.Over chain.tables ∧ e.2.residues.length = chain.degree)
    (S : ℤ[X]) :
    ∃ out, entries.foldlM (accumulate? (chain.extended level) (chain.extendedPositions level)) sums
        = .ok out ∧ out.Over (chain.extended level) ∧
      ∀ i p t, (chain.extendedPositions level)[i]? = some p →
        (chain.extended level)[i]? = some t →
        out.phase S i t = sums.phase S i t +
          (entries.map fun e => e.1.phase S p t *
            t.ofInt (e.2.table.centered e.2.residues)).sum := by
  -- By induction on the pairs that are left, for every sum that was reached.
  induction entries generalizing sums with
  | nil => exact ⟨sums, rfl, hsums, fun i p t _ _ => by simp⟩
  | cons entry entries ih =>
    obtain ⟨hpair, hlen⟩ := hentries entry List.mem_cons_self
    obtain ⟨next, hnext, hon, hpn⟩ := exists_accumulate? hc hl hsums hpair hlen S
    obtain ⟨out, hout, hoo, hpo⟩ := ih hon fun e he => hentries e (List.mem_cons_of_mem entry he)
    refine ⟨out, ?_, hoo, ?_⟩
    · rw [List.foldlM_cons, hnext, ok_bind, hout]
    · intro i p t hp ht
      rw [hpo i p t hp ht, hpn i p t hp ht, List.map_cons, List.sum_cons, add_assoc]

/-- A sum over a list, by position. -/
theorem sum_map_eq_sum_range {α R : Type} [AddCommMonoid R] {as : List α} {f : α → R} {g : ℕ → R}
    (h : ∀ j a, as[j]? = some a → f a = g j) :
    (as.map f).sum = ∑ j ∈ Finset.range as.length, g j := by
  induction as generalizing g with
  | nil => rfl
  | cons a as ih =>
    rw [List.map_cons, List.sum_cons, List.length_cons, Finset.sum_range_succ', add_comm,
      h 0 a rfl, ih (g := fun j => g (j + 1)) fun j b hb => h (j + 1) b hb]

/-! ## Switching -/

/-- Entry `j` of the run is the pair for `q_j` with the channel of `q_j`. -/
theorem getElem?_zip_digits {key : SwitchingKey} {coefficients : ResiduePoly}
    (hin : coefficients.Over (chain.lower level) .coefficient) {j : ℕ} {m : MaskedPair}
    {channel : Channel}
    (h : ((key.digits.take (level + 1)).zip coefficients.channels)[j]? = some (m, channel)) :
    key.digits[j]? = some m ∧ ∃ t, (chain.lower level)[j]? = some t ∧
      channel = ⟨t, coefficients.row j⟩ := by
  rw [List.getElem?_zip_eq_some] at h
  obtain ⟨hm, hchannel⟩ := h
  obtain ⟨t, ht, rfl⟩ := hin.exists_of_getElem? hchannel
  obtain ⟨hjl, -⟩ := ModulusChain.Sound.getElem?_lower_iff.1 ht
  rw [List.getElem?_take_of_lt (Nat.lt_succ_of_le hjl)] at hm
  exact ⟨hm, t, ht, rfl⟩

/-- Every entry of the run can be accumulated: a pair over the chain, with a digit of its degree. -/
theorem forall_mem_zip_digits (hc : chain.Sound) {key : SwitchingKey}
    {target coefficients : ResiduePoly} {e : ℕ → ℤ[X]} (hkey : key.Hides chain S target e)
    (hin : coefficients.Over (chain.lower level) .coefficient) :
    ∀ entry ∈ (key.digits.take (level + 1)).zip coefficients.channels,
      entry.1.Over chain.tables ∧ entry.2.residues.length = chain.degree := by
  intro entry hmem
  obtain ⟨j, hj⟩ := List.getElem?_of_mem hmem
  obtain ⟨hm, t, ht, hchannel⟩ := getElem?_zip_digits hin hj
  refine ⟨hkey.digits_over hm, ?_⟩
  rw [hchannel, (hin.reduced ht).length, hc.degree_of_mem_lower (List.mem_of_getElem? ht)]

/-- What the run holds: the errors under the digits, and in the channel of a data prime also `P`
times the product of input and target. -/
theorem exists_sums (hc : chain.Sound) (hl : level ≤ chain.topLevel) {key : SwitchingKey}
    {target coefficients : ResiduePoly} {e : ℕ → ℤ[X]} (hkey : key.Hides chain S target e)
    (hin : coefficients.Over (chain.lower level) .coefficient) :
    ∃ out, ((key.digits.take (level + 1)).zip coefficients.channels).foldlM
        (accumulate? (chain.extended level) (chain.extendedPositions level))
        ⟨.zero (chain.extended level) .transformed, .zero (chain.extended level) .transformed⟩
          = .ok out ∧ out.Over (chain.extended level) ∧
      ∀ i p t, (chain.extendedPositions level)[i]? = some p →
        (chain.extended level)[i]? = some t → chain.tables[p]? = some t →
        out.phase S i t =
          t.ofInt (∑ j ∈ Finset.range (level + 1), coefficients.digit j * e j) +
            if p ≤ level then (chain.specialPrime.toNat : ℤ) * (coefficients.image p t *
              target.image p t) else 0 := by
  have hsound : ∀ t ∈ chain.extended level, t.Sound := fun _ ht => hc.sound_of_mem_extended ht
  obtain ⟨hzero, hizero⟩ := ResiduePoly.over_zero hsound .transformed
  have hzeros : MaskedPair.Over ⟨.zero (chain.extended level) .transformed,
      .zero (chain.extended level) .transformed⟩ (chain.extended level) := ⟨hzero, hzero⟩
  obtain ⟨out, hout, hoo, hpo⟩ :=
    exists_foldlM_accumulate? hc hl hzeros (forall_mem_zip_digits hc hkey hin) S
  refine ⟨out, hout, hoo, ?_⟩
  intro i p t hp ht htable
  have hlength : ((key.digits.take (level + 1)).zip coefficients.channels).length = level + 1 := by
    have htop := hc.topLevel_add_two
    rw [List.length_zip, List.length_take, hkey.length_eq, hin.length_eq, hc.length_lower hl]
    omega
  -- Position by position: the error under the digit, and the target where the channel is its own.
  have hterm : ∀ j (entry : MaskedPair × Channel),
      ((key.digits.take (level + 1)).zip coefficients.channels)[j]? = some entry →
      entry.1.phase S p t * t.ofInt (entry.2.table.centered entry.2.residues) =
        t.ofInt (coefficients.digit j * e j) + if p = j then (chain.specialPrime.toNat : ℤ) *
          (t.ofInt (coefficients.digit j) * target.image p t) else 0 := by
    intro j entry hj
    obtain ⟨hm, t', ht', hchannel⟩ := getElem?_zip_digits hin hj
    rw [hkey.phase_eq hm htable, hchannel, ← ResiduePoly.digit_eq hin ht', map_mul]
    split <;> ring
  have hsum := sum_map_eq_sum_range hterm
  rw [hpo i p t hp ht, hsum, hlength, Finset.sum_add_distrib, ← map_sum, Finset.sum_ite_eq]
  have hphase : MaskedPair.phase ⟨.zero (chain.extended level) .transformed,
      .zero (chain.extended level) .transformed⟩ S i t = 0 := by
    rw [MaskedPair.phase, hizero i t ht, zero_mul, add_zero]
  rw [hphase, zero_add]
  congr 1
  -- Exactly the positions of the level have a digit of their own, which has the image of the input.
  by_cases hpl : p ≤ level
  · have hlow : (chain.lower level)[p]? = some t :=
      ModulusChain.Sound.getElem?_lower_iff.2 ⟨hpl, htable⟩
    rw [if_pos hpl, if_pos (Finset.mem_range.2 (Nat.lt_succ_of_le hpl)), hin.image_eq,
      ResiduePoly.digit_eq hin hlow, RootTable.ofInt_centered]
  · rw [if_neg hpl, if_neg (by simpa using hpl)]

/-- Division by a prime above a level, of a polynomial over the primes of the level and this one. -/
theorem exists_divideByLast_lower? (hc : chain.Sound) {position : ℕ} {last : RootTable}
    (hlast : chain.tables[position]? = some last) (hposition : level < position) {a : ResiduePoly}
    {form : Form} (ha : a.Over (chain.lower level ++ [last]) form) :
    ∃ b, a.divideByLast? = .ok b ∧ b.Over (chain.lower level) form ∧
      ∃ r : ℤ[X], r.degree < chain.degree ∧
        (∀ k, |r.coeff k| ≤ ((last.prime.toNat : ℤ) - 1) / 2) ∧
        a.image (level + 1) last = last.ofInt r ∧
        ∀ i t, (chain.lower level)[i]? = some t →
          (last.prime.toNat : ℤ) * b.image i t = a.image i t - t.ofInt r := by
  have hsound := hc.table_sound last (List.mem_of_getElem? hlast)
  have hdegree := hc.table_degree last (List.mem_of_getElem? hlast)
  have hlength : (chain.lower level).length = level + 1 := by
    have hlt := (List.getElem?_eq_some_iff.1 hlast).1
    rw [ModulusChain.lower, List.length_take]
    omega
  obtain ⟨b, hb, hob, r, hdr, hr, hend, hib⟩ := ResiduePoly.exists_divideByLast? hc.lower_ne_nil
    (fun _ ht => hc.sound_of_mem_lower ht) hsound
    (fun _ ht => (hc.degree_of_mem_lower ht).trans hdegree.symm)
    (fun _ ht => hc.prime_ne_of_mem_lower hlast hposition ht) ha
  exact ⟨b, hb, hob, r, hdegree ▸ hdr, hr, hlength ▸ hend, hib⟩

/-- Dividing both components of a pair by `P`: the phase loses the remainder of the one and, under
the secret, that of the other. In the channel of `P` the remainders are all there is. -/
theorem exists_divideByLast_pair? (hc : chain.Sound) (hl : level ≤ chain.topLevel)
    {sums : MaskedPair} (hsums : sums.Over (chain.extended level)) (S : ℤ[X]) :
    ∃ b a, ∃ r₀ r₁ : ℤ[X], sums.b.divideByLast? = .ok b ∧ sums.a.divideByLast? = .ok a ∧
      MaskedPair.Over ⟨b, a⟩ (chain.lower level) ∧
      (r₀.degree < chain.degree ∧
        ∀ k, |r₀.coeff k| ≤ ((chain.specialPrime.toNat : ℤ) - 1) / 2) ∧
      (r₁.degree < chain.degree ∧
        ∀ k, |r₁.coeff k| ≤ ((chain.specialPrime.toNat : ℤ) - 1) / 2) ∧
      (∀ t, (chain.extended level)[level + 1]? = some t →
        sums.phase S (level + 1) t = t.ofInt (r₀ + r₁ * S)) ∧
      ∀ i t, (chain.lower level)[i]? = some t →
        (chain.specialPrime.toNat : ℤ) * MaskedPair.phase ⟨b, a⟩ S i t =
          sums.phase S i t - t.ofInt (r₀ + r₁ * S) := by
  have htop := hc.topLevel_add_two
  obtain ⟨last, hlast, hprime, hextended, hend, -⟩ := hc.exists_extended hl
  obtain ⟨b, hb, hob, r₀, hd₀, hr₀, hb₀, hib⟩ :=
    exists_divideByLast_lower? hc hlast (by omega) (hextended ▸ hsums.b)
  obtain ⟨a, ha, hoa, r₁, hd₁, hr₁, ha₁, hia⟩ :=
    exists_divideByLast_lower? hc hlast (by omega) (hextended ▸ hsums.a)
  rw [hprime]
  -- The two remainders are those of the components, so the phase drops by `r₀ + r₁ * S`.
  refine ⟨b, a, r₀, r₁, hb, ha, ⟨hob, hoa⟩, ⟨hd₀, hr₀⟩, ⟨hd₁, hr₁⟩, ?_, ?_⟩
  · intro t ht
    obtain rfl := Option.some.inj (hend.symm.trans ht)
    rw [MaskedPair.phase, hb₀, ha₁, map_add, map_mul]
  · intro i t ht
    calc (last.prime.toNat : ℤ) * MaskedPair.phase ⟨b, a⟩ S i t
        = (last.prime.toNat : ℤ) * b.image i t +
            (last.prime.toNat : ℤ) * a.image i t * t.ofInt S := by rw [MaskedPair.phase]; ring
      _ = sums.phase S i t - t.ofInt (r₀ + r₁ * S) := by
          rw [hib i t ht, hia i t ht, MaskedPair.phase, map_add, map_mul]
          ring

/-- What vanishes modulo `P` is `P` times an integer polynomial, in every channel. -/
theorem exists_eq_specialPrime_mul (hc : chain.Sound) {last : RootTable}
    (hlast : chain.tables[chain.tables.length - 1]? = some last)
    (hprime : chain.specialPrime = last.prime) {W : ℤ[X]} (hzero : last.ofInt W = 0) :
    ∃ V : ℤ[X], V.degree < chain.degree ∧
      AdjoinRoot.mk (X ^ chain.degree + 1) (C (chain.specialPrime.toNat : ℤ) * V) =
        AdjoinRoot.mk (X ^ chain.degree + 1) W ∧
      ∀ t ∈ chain.tables, t.ofInt W = (chain.specialPrime.toNat : ℤ) * t.ofInt V := by
  have hmem := List.mem_of_getElem? hlast
  have hsound := hc.table_sound last hmem
  -- A polynomial that vanishes modulo the special prime is its multiple over the integers.
  obtain ⟨V, hdegree, hV⟩ := NegacyclicRing.exists_eq_C_mul_of_ofInt_eq_zero
    hsound.degree_ne_zero hsound.prime.one_lt hzero
  rw [hc.table_degree last hmem] at hdegree hV
  rw [hprime]
  refine ⟨V, hdegree, by rw [← hV, NegacyclicRing.mk_modByMonic], ?_⟩
  intro t ht
  rw [RootTable.ofInt, ← NegacyclicRing.ofInt_modByMonic _ (hc.table_sound t ht).degree_ne_zero,
    hc.table_degree t ht, hV, map_mul]
  congr 1
  rw [← map_intCast (NegacyclicRing.ofInt chain.degree (ZMod t.prime.toNat))]
  rfl

/-- The noise `V` of a switch at a level, for digits `d` and errors `e`: `P` times it is what the
errors add up to under the digits, less the remainders of the two divisions. -/
def IsNoise (chain : ModulusChain) (level : ℕ) (S : ℤ[X]) (d e : ℕ → ℤ[X]) (V : ℤ[X]) : Prop :=
  V.degree < chain.degree ∧ ∃ r₀ r₁ : ℤ[X],
    r₀.degree < chain.degree ∧ (∀ k, |r₀.coeff k| ≤ ((chain.specialPrime.toNat : ℤ) - 1) / 2) ∧
    r₁.degree < chain.degree ∧ (∀ k, |r₁.coeff k| ≤ ((chain.specialPrime.toNat : ℤ) - 1) / 2) ∧
    AdjoinRoot.mk (X ^ chain.degree + 1) (C (chain.specialPrime.toNat : ℤ) * V) =
      AdjoinRoot.mk (X ^ chain.degree + 1)
        (∑ j ∈ Finset.range (level + 1), d j * e j - r₀ - r₁ * S)

/-- Switching succeeds at every level. The phase of the result is the product of input and target
and the noise. -/
theorem exists_switch? (hc : chain.Sound) (hl : level ≤ chain.topLevel) {key : SwitchingKey}
    {target input : ResiduePoly} {form : Form} {e : ℕ → ℤ[X]} (hkey : key.Hides chain S target e)
    (hin : input.Over (chain.lower level) form) :
    ∃ coefficients out V, input.toCoefficient? = .ok coefficients ∧
      coefficients.Over (chain.lower level) .coefficient ∧
      key.switch? chain input = .ok out ∧ out.Over (chain.lower level) ∧
      IsNoise chain level S coefficients.digit e V ∧
      ∀ i t, (chain.lower level)[i]? = some t →
        out.phase S i t = input.image i t * target.image i t + t.ofInt V := by
  have hsound : ∀ t ∈ chain.lower level, t.Sound := fun _ ht => hc.sound_of_mem_lower ht
  have htop := hc.topLevel_add_two
  obtain ⟨last, hlast, hprime, -, hend, hposition⟩ := hc.exists_extended hl
  obtain ⟨coefficients, hcoefficients, hoc, hic⟩ := ResiduePoly.exists_toCoefficient? hsound hin
  obtain ⟨sums, hsums, hos, hps⟩ := exists_sums hc hl hkey hoc
  obtain ⟨b, a, r₀, r₁, hb, ha, hout, ⟨hd₀, hr₀⟩, ⟨hd₁, hr₁⟩, hphaseEnd, hphase⟩ :=
    exists_divideByLast_pair? hc hl hos S
  set E := ∑ j ∈ Finset.range (level + 1), coefficients.digit j * e j
  -- In the channel of `P` only the errors and the remainders are left.
  have hzero : last.ofInt (E - r₀ - r₁ * S) = 0 := by
    have herrors := hps _ _ _ hposition hend hlast
    rw [if_neg (by omega), add_zero, hphaseEnd last hend] at herrors
    rw [sub_sub, map_sub, herrors, sub_self]
  obtain ⟨V, hdV, hmk, hV⟩ := exists_eq_specialPrime_mul hc hlast hprime hzero
  refine ⟨coefficients, ⟨b, a⟩, V, hcoefficients, hoc, ?_, hout,
    ⟨hdV, r₀, r₁, hd₀, hr₀, hd₁, hr₁, hmk⟩, ?_⟩
  · have hlevel : input.channels.length - 1 = level := by
      rw [hin.length_eq, hc.length_lower hl, Nat.add_sub_cancel]
    rw [switch?, hlevel]
    simp only [hcoefficients, hsums, hb, ha, ok_bind, pure_eq_ok]
  · intro i t ht
    obtain ⟨hil, htable⟩ := ModulusChain.Sound.getElem?_lower_iff.1 ht
    have hmem := List.mem_of_getElem? ht
    obtain ⟨hextended, hposition⟩ := ModulusChain.Sound.getElem?_extended_of_lower ht
    have hsum := hps i i t hposition hextended htable
    rw [if_pos hil, hic i t ht] at hsum
    have hunit : IsUnit ((chain.specialPrime.toNat : ℤ) :
        NegacyclicRing t.degree (ZMod t.prime.toNat)) :=
      hprime ▸ RootTable.isUnit_intCast_prime (hsound t hmem)
        (hc.table_sound last (List.mem_of_getElem? hlast))
        (hc.prime_ne_of_mem_lower hlast (by omega) hmem)
    -- Both sides agree once they are multiplied by `P`, which is invertible here.
    refine hunit.mul_left_cancel ?_
    calc (chain.specialPrime.toNat : ℤ) * MaskedPair.phase ⟨b, a⟩ S i t
        = t.ofInt (E - r₀ - r₁ * S) +
            (chain.specialPrime.toNat : ℤ) * (input.image i t * target.image i t) := by
          rw [hphase i t ht, hsum, sub_sub, map_sub]
          ring
      _ = (chain.specialPrime.toNat : ℤ) * (input.image i t * target.image i t + t.ofInt V) := by
          rw [hV t (List.mem_of_getElem? htable)]
          ring

/-! ## How large the noise is -/

/-- The errors under the digits, reduced: every product is bounded by the degree, its error and its
digit. -/
theorem abs_coeff_sum_mul_le {N : ℕ} (hN : N ≠ 0) {d e : ℕ → ℤ[X]} {b : ℕ → ℤ} {B : ℤ}
    (hd : ∀ j ≤ level, (d j).degree < N ∧ ∀ k, |(d j).coeff k| ≤ b j)
    (he : ∀ j ≤ level, (e j).degree < N ∧ ∀ k, |(e j).coeff k| ≤ B) (k : ℕ) :
    |(∑ j ∈ Finset.range (level + 1), d j * e j %ₘ (X ^ N + 1)).coeff k| ≤
      ∑ j ∈ Finset.range (level + 1), N * B * b j := by
  rw [finsetSum_coeff]
  refine (Finset.abs_sum_le_sum_abs _ _).trans (Finset.sum_le_sum fun j hj => ?_)
  obtain ⟨hdj, hdb⟩ := hd j (Nat.le_of_lt_succ (Finset.mem_range.1 hj))
  obtain ⟨hej, heb⟩ := he j (Nat.le_of_lt_succ (Finset.mem_range.1 hj))
  have hB : 0 ≤ B := (abs_nonneg _).trans (heb 0)
  calc |(d j * e j %ₘ (X ^ N + 1)).coeff k|
      ≤ (∑ i ∈ Finset.range N, |(d j).coeff i|) * B :=
        NegacyclicRing.abs_coeff_mul_modByMonic_le hN hdj hej heb k
    _ ≤ N * b j * B := mul_le_mul_of_nonneg_right (NegacyclicRing.sum_abs_coeff_le hdb) hB
    _ = N * B * b j := by ring

/-- With digits of at most half of their primes and errors of at most `B`, under a secret whose
absolute coefficients add up to `h`. -/
theorem abs_coeff_le_of_isNoise (hN : chain.degree ≠ 0) {d e : ℕ → ℤ[X]} {V : ℤ[X]} {h B : ℤ}
    (hV : IsNoise chain level S d e V)
    (hd : ∀ j ≤ level, (d j).degree < chain.degree ∧
      ∀ k, |(d j).coeff k| ≤ (((chain.primes.getD j 0).toNat : ℤ) - 1) / 2)
    (he : ∀ j ≤ level, (e j).degree < chain.degree ∧ ∀ k, |(e j).coeff k| ≤ B)
    (hS : S.degree < chain.degree) (hh : ∑ i ∈ Finset.range chain.degree, |S.coeff i| ≤ h) (k : ℕ) :
    chain.specialPrime.toNat * |V.coeff k| ≤
      ∑ j ∈ Finset.range (level + 1),
        chain.degree * B * ((((chain.primes.getD j 0).toNat : ℤ) - 1) / 2) +
      (1 + h) * (((chain.specialPrime.toNat : ℤ) - 1) / 2) := by
  obtain ⟨hdV, r₀, r₁, hd₀, hr₀, hd₁, hr₁, hmk⟩ := hV
  set N := chain.degree
  -- `P * V` has degree below `N`, so it is the reduced right-hand side and not only of its class.
  have hreduced : C (chain.specialPrime.toNat : ℤ) * V =
      (∑ j ∈ Finset.range (level + 1), d j * e j - r₀ - r₁ * S) %ₘ (X ^ N + 1) := by
    refine NegacyclicRing.eq_of_mk_eq hN ?_ (NegacyclicRing.degree_modByMonic_lt hN _)
      (hmk.trans (NegacyclicRing.mk_modByMonic _).symm)
    refine (degree_mul_le _ _).trans_lt ?_
    exact (add_le_add_left degree_C_le _).trans_lt (by rwa [zero_add])
  have hr₀' : r₀ %ₘ (X ^ N + 1) = r₀ :=
    (modByMonic_eq_self_iff (NegacyclicRing.monic_modulus hN)).2
      (by rwa [NegacyclicRing.degree_modulus hN])
  -- The three parts of the right-hand side, one coefficient at a time.
  have hdigits := abs_coeff_sum_mul_le hN hd he k
  -- The remainder under the secret is bounded the other way round, by the weight of the secret.
  have hsecret : |(r₁ * S %ₘ (X ^ N + 1)).coeff k| ≤
      h * (((chain.specialPrime.toNat : ℤ) - 1) / 2) := by
    rw [mul_comm r₁]
    refine (NegacyclicRing.abs_coeff_mul_modByMonic_le hN hS hd₁ hr₁ k).trans ?_
    exact mul_le_mul_of_nonneg_right hh ((abs_nonneg _).trans (hr₁ 0))
  have hcoeff := congrArg (fun f => |coeff f k|) hreduced
  simp only [coeff_C_mul, abs_mul, Nat.abs_cast, sub_modByMonic, NegacyclicRing.modByMonic_sum,
    coeff_sub, hr₀'] at hcoeff
  rw [hcoeff, add_mul, one_mul]
  have hsum := abs_sub ((∑ j ∈ Finset.range (level + 1), d j * e j %ₘ (X ^ N + 1)).coeff k -
    r₀.coeff k) ((r₁ * S %ₘ (X ^ N + 1)).coeff k)
  have hsum' := abs_sub ((∑ j ∈ Finset.range (level + 1), d j * e j %ₘ (X ^ N + 1)).coeff k)
    (r₀.coeff k)
  linarith [hr₀ k]

/-- The digits of a polynomial are below the degree and at most half of their primes. -/
theorem digit_lt (hc : chain.Sound) {d : ResiduePoly}
    (hd : d.Over (chain.lower level) .coefficient) {j : ℕ} {t : RootTable}
    (ht : (chain.lower level)[j]? = some t) : (d.digit j).degree < chain.degree ∧
      ∀ k, |(d.digit j).coeff k| ≤ ((t.prime.toNat : ℤ) - 1) / 2 := by
  have hmem := List.mem_of_getElem? (ModulusChain.Sound.getElem?_lower_iff.1 ht).2
  have hred := hd.reduced ht
  rw [ResiduePoly.digit_eq hd ht, ← hc.table_degree t hmem]
  exact ⟨RootTable.degree_centered_lt hred.length,
    RootTable.abs_coeff_centered_le (hc.table_sound t hmem) hred⟩

/-- The noise under a ternary secret, with errors of at most `B`. -/
theorem abs_coeff_noise_le (hc : chain.Sound) (hl : level ≤ chain.topLevel) {d : ResiduePoly}
    (hd : d.Over (chain.lower level) .coefficient) {cs : List ℤ} (hcs : cs.length = chain.degree)
    (hternary : ∀ c ∈ cs, c = -1 ∨ c = 0 ∨ c = 1) {e : ℕ → List ℤ}
    (he : ∀ j, (e j).length = chain.degree) {V : ℤ[X]}
    (hV : IsNoise chain level (ofCoefficients cs) d.digit (fun j => ofCoefficients (e j)) V) {B : ℤ}
    (hB : ∀ j ≤ level, ∀ x ∈ e j, |x| ≤ B) (k : ℕ) :
    chain.specialPrime.toNat * |V.coeff k| ≤
      ∑ j ∈ Finset.range (level + 1),
        chain.degree * B * ((((chain.primes.getD j 0).toNat : ℤ) - 1) / 2) +
      (1 + cs.countP (· ≠ 0)) * (((chain.specialPrime.toNat : ℤ) - 1) / 2) := by
  have hN : chain.degree ≠ 0 := hc.degree_ne_zero
  refine abs_coeff_le_of_isNoise hN hV (?_) (?_) ?_ ?_ k
  · intro j hj
    have hlt : j < (chain.lower level).length := by
      rw [hc.length_lower hl]
      omega
    have ht := List.getElem?_eq_getElem hlt
    rw [ModulusChain.Sound.prime_eq_getD (ModulusChain.Sound.getElem?_lower_iff.1 ht).2]
    exact digit_lt hc hd ht
  · intro j hj
    refine ⟨he j ▸ degree_ofCoefficients_lt _, ?_⟩
    intro k
    rw [coeff_ofCoefficients]
    rcases lt_or_ge k (e j).length with hk | hk
    · rw [List.getD_eq_getElem _ _ hk]
      exact hB j hj _ (List.getElem_mem hk)
    · -- Past the end a coefficient is zero, and `B` bounds the absolute value of some entry.
      have hpos : 0 < (e j).length := by
        rw [he j]
        exact Nat.pos_of_ne_zero hN
      rw [List.getD_eq_default _ _ hk, abs_zero]
      exact (abs_nonneg _).trans (hB j hj _ (List.getElem_mem hpos))
  · exact hcs ▸ degree_ofCoefficients_lt _
  · rw [← hcs]
    exact (NegacyclicRing.sum_abs_coeff_ternary hternary).le

end SwitchingKey

end EncryptedArithmetic

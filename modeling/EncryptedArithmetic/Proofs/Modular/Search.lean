import EncryptedArithmetic.Proofs.Modular.Prime
import Mathlib.Data.Set.Defs

/-!
# The search for primes skips none

A search below a bound starts from the largest word that leaves the remainder one modulo twice the
degree and goes down in steps of twice the degree. So it meets every friendly word below the bound,
the largest ones first: what it answers is the greatest of them, and it answers nothing only where
there is none.

## Main definitions

* `Friendly`: a word that a chain of a degree can take.
* `Greatest`: an answer is the greatest word of a set, which is empty where there is no answer.

## Main results

* `exists_candidateBelow?`: where a search starts.
* `greatest_searchDown`: what a search meets on its way down.
* `exists_friendlyBelow?`: the search for all degrees up to `2 ^ 62` and all bounds.
-/

namespace EncryptedArithmetic.Modular

/-- A word that passes the primality test and leaves the remainder one modulo twice the degree. -/
structure Friendly (degree p : UInt64) : Prop where
  isPrime : isPrime p
  mod_eq : p.toNat % (2 * degree.toNat) = 1

/-- An answer is the greatest word of a set. Where there is no answer the set is empty. -/
def Greatest (s : Set UInt64) : Option UInt64 → Prop
  | some p => p ∈ s ∧ ∀ q ∈ s, q ≤ p
  | none => ∀ q, q ∉ s

variable {step value c : UInt64} {fuel : ℕ}

/-! ## Where a search starts -/

/-- No word above zero is closer to zero than to the candidate below it. -/
theorem excess_le {v s : ℕ} (hs : 1 < s) (hv : 1 ≤ v) : (v % s + s - 1) % s ≤ v := by
  have hlt := Nat.mod_lt v (Nat.zero_lt_of_lt hs)
  rcases Nat.eq_zero_or_pos (v % s) with hzero | hpos
  · -- A positive multiple of the step is at least the step.
    have hle : s ≤ v := Nat.le_of_dvd hv (Nat.dvd_of_mod_eq_zero hzero)
    rw [hzero, Nat.zero_add, Nat.mod_eq_of_lt (by omega)]
    omega
  · have hshift : v % s + s - 1 = v % s - 1 + s := by omega
    rw [hshift, Nat.add_mod_right, Nat.mod_eq_of_lt (by omega)]
    exact (Nat.sub_le _ _).trans (Nat.mod_le v s)

/-- The candidate below a value is the greatest word up to it with the remainder one. -/
theorem exists_candidateBelow? (hstep : 1 < step.toNat) (hsize : step.toNat ≤ UInt64.size / 2)
    (value : UInt64) : ∃ start?, candidateBelow? value step = .ok start? ∧
      Greatest {q | q ≤ value ∧ q.toNat % step.toNat = 1} start? := by
  have hlt : (value % step).toNat < step.toNat := by
    rw [UInt64.toNat_mod]
    exact Nat.mod_lt _ (Nat.zero_lt_of_lt hstep)
  have hfits : sumFits (value % step) step := by
    have hhalf : UInt64.size / 2 + UInt64.size / 2 = UInt64.size := rfl
    exact sumFits_iff.2 (by omega)
  have hexcess := toNat_excess (Nat.le_of_lt hstep) hfits
  refine ⟨_, if_pos hfits, ?_⟩
  split
  case isTrue hle =>
    have hvalue : candidateBelow? value step =
        .ok (some (value - (value % step + step - 1) % step)) := by
      rw [candidateBelow?, if_pos hfits]
      exact congrArg Except.ok (if_pos hle)
    have hmod := candidateBelow?_mod hstep hvalue
    refine ⟨⟨candidateBelow?_le hvalue, hmod⟩, ?_⟩
    rintro q ⟨hq, hqmod⟩
    rw [UInt64.le_iff_toNat_le] at hq ⊢
    -- The next word with this remainder is a whole step above, and so above the value.
    by_contra hgt
    have hnext := Nat.ModEq.add_le_of_lt (hmod.trans hqmod.symm) (Nat.lt_of_not_le hgt)
    have hsmall : ((value % step + step - 1) % step).toNat < step.toNat := by
      rw [UInt64.toNat_mod]
      exact Nat.mod_lt _ (Nat.zero_lt_of_lt hstep)
    rw [UInt64.toNat_sub_of_le _ _ hle] at hnext
    omega
  case isFalse hgt =>
    rintro q ⟨hq, hqmod⟩
    rw [UInt64.le_iff_toNat_le] at hq hgt
    have hpos : 1 ≤ q.toNat := by
      by_contra hzero
      rw [Nat.lt_one_iff.1 (Nat.lt_of_not_le hzero), Nat.zero_mod] at hqmod
      cases hqmod
    exact hgt (hexcess ▸ excess_le hstep (hpos.trans hq))

/-! ## The way down -/

/-- Two is below every friendly word. -/
theorem two_lt_of_isPrime {q : UInt64} (hstep : 1 < step.toNat) (hprime : isPrime q)
    (hmod : q.toNat % step.toNat = 1) : 2 < q.toNat := by
  have htwo : 2 ≤ q.toNat := by
    by_contra hlt
    have hword : q < 2 := UInt64.lt_iff_toNat_lt.2 (Nat.lt_of_not_le hlt)
    rw [isPrime, if_pos hword] at hprime
    cases hprime
  refine lt_of_le_of_ne htwo ?_
  intro heq
  -- Two leaves the remainder one modulo no number but one.
  rw [← heq] at hmod
  have hdvd : step.toNat ∣ 1 := (Nat.dvd_sub_mod 2).trans (by rw [hmod])
  exact absurd (Nat.dvd_one.1 hdvd) (Nat.ne_of_gt hstep)

/-- A search goes past no prime on its way: one that it could reach is at most its answer. -/
theorem exists_le_of_searchDown (hstep : 1 < step.toNat) (hfuel : c.toNat < fuel * step.toNat)
    {q : UInt64} (hq : q ≤ c) (hprime : isPrime q) (hmod : q.toNat % step.toNat = 1)
    (hc : c.toNat % step.toNat = 1) : ∃ p, searchDown step fuel c = some p ∧ q ≤ p := by
  have htwo := two_lt_of_isPrime hstep hprime hmod
  -- By induction on the candidates that are left; the prime is at or below all that were met.
  induction fuel generalizing c with
  | zero =>
    rw [Nat.zero_mul] at hfuel
    exact absurd hfuel (Nat.not_lt_zero _)
  | succ fuel ih =>
    rw [UInt64.le_iff_toNat_le] at hq
    rw [searchDown]
    split
    case isTrue hend =>
      rw [UInt64.le_iff_toNat_le] at hend
      exact absurd (htwo.trans_le hq) (Nat.not_lt.2 hend)
    split
    case isTrue => exact ⟨c, rfl, UInt64.le_iff_toNat_le.2 hq⟩
    case isFalse hcomposite =>
      have hne : q.toNat ≠ c.toNat := fun heq => hcomposite (UInt64.toNat_inj.1 heq ▸ hprime)
      have hlast : q.toNat + step.toNat ≤ c.toNat :=
        Nat.ModEq.add_le_of_lt (hmod.trans hc.symm) (lt_of_le_of_ne hq hne)
      have hle : step ≤ c := UInt64.le_iff_toNat_le.2 (by omega)
      have hsub : (c - step).toNat = c.toNat - step.toNat := UInt64.toNat_sub_of_le _ _ hle
      rw [if_neg (UInt64.not_lt.2 hle)]
      apply ih
      · rw [hsub]
        rw [Nat.succ_mul] at hfuel
        omega
      · rw [UInt64.le_iff_toNat_le, hsub]
        omega
      · rw [hsub, ← Nat.mod_eq_sub_mod (UInt64.le_iff_toNat_le.1 hle), hc]

/-- A search that is long enough answers the greatest prime among its candidates. -/
theorem greatest_searchDown (hstep : 1 < step.toNat) (hfuel : c.toNat < fuel * step.toNat)
    (hc : c.toNat % step.toNat = 1) :
    Greatest {q | q ≤ c ∧ isPrime q ∧ q.toNat % step.toNat = 1} (searchDown step fuel c) := by
  rcases h : searchDown step fuel c with _ | p
  · rintro q ⟨hq, hprime, hmod⟩
    obtain ⟨p, hp, -⟩ := exists_le_of_searchDown hstep hfuel hq hprime hmod hc
    exact absurd (h.symm.trans hp) nofun
  · obtain ⟨hle, hprime⟩ := searchDown_spec h
    refine ⟨⟨hle, hprime, (searchDown_mod h).trans hc⟩, ?_⟩
    rintro q ⟨hq, hqprime, hqmod⟩
    obtain ⟨p', hp', hqp⟩ := exists_le_of_searchDown hstep hfuel hq hqprime hqmod hc
    obtain rfl := Option.some.inj (h.symm.trans hp')
    exact hqp

/-! ## The search below a bound -/

/-- From the greatest candidate below a bound on, the search meets the friendly words below it. -/
theorem greatest_searchDown_friendly {degree bound start : UInt64}
    (horder : (2 * degree).toNat = 2 * degree.toNat) (hstep : 1 < (2 * degree).toNat)
    (hbound : 1 ≤ bound) (hstart : Greatest {q | q ≤ bound - 1 ∧ q.toNat % (2 * degree).toNat = 1}
      (some start)) :
    Greatest {p | p < bound ∧ Friendly degree p}
      (searchDown (2 * degree) (start.toNat / (2 * degree).toNat + 1) start) := by
  obtain ⟨⟨hle, hmod⟩, hmax⟩ := hstart
  have hfuel : start.toNat < (start.toNat / (2 * degree).toNat + 1) * (2 * degree).toNat := by
    rw [Nat.mul_comm]
    exact Nat.lt_mul_div_succ _ (Nat.zero_lt_of_lt hstep)
  -- Every friendly word below the bound is one of the candidates.
  have hset : {p | p < bound ∧ Friendly degree p} =
      {q | q ≤ start ∧ isPrime q ∧ q.toNat % (2 * degree).toNat = 1} := by
    ext q
    constructor
    · rintro ⟨hq, hprime, hqmod⟩
      rw [← horder] at hqmod
      exact ⟨hmax q ⟨(lt_iff_le_sub_one hbound).1 hq, hqmod⟩, hprime, hqmod⟩
    · rintro ⟨hq, hprime, hqmod⟩
      exact ⟨(lt_iff_le_sub_one hbound).2 (UInt64.le_trans hq hle), hprime, horder ▸ hqmod⟩
  rw [hset]
  exact greatest_searchDown hstep hfuel hmod

/-- For every degree up to `2 ^ 62` the search below a bound comes to an end without a fault, and
its answer is the greatest friendly word below the bound. -/
theorem exists_friendlyBelow? {degree : UInt64} (hpos : 1 ≤ degree.toNat)
    (hle : degree.toNat ≤ 2 ^ 62) (bound : UInt64) :
    ∃ p?, friendlyBelow? bound degree = .ok p? ∧
      Greatest {p | p < bound ∧ Friendly degree p} p? := by
  have hsize : UInt64.size = 2 ^ 64 := rfl
  have hword : 2 * degree.toNat < UInt64.size := by omega
  have horder := toNat_two_mul hword
  have hstep : 1 < (2 * degree).toNat := by omega
  have hdegree : degree ≠ 0 := by
    rintro rfl
    exact absurd hpos (by decide)
  by_cases hbound : bound ≤ 2
  · -- No candidate is below such a bound.
    refine ⟨none, by rw [friendlyBelow?, if_pos hbound], ?_⟩
    rintro q ⟨hq, hfriendly⟩
    have htwo := two_lt_of_isPrime hstep hfriendly.isPrime (horder ▸ hfriendly.mod_eq)
    rw [UInt64.lt_iff_toNat_lt] at hq
    rw [UInt64.le_iff_toNat_le] at hbound
    exact absurd (htwo.trans (hq.trans_le hbound)) (Nat.lt_irrefl _)
  · have htwo := UInt64.not_le.1 hbound
    have hone : (1 : UInt64) ≤ bound := UInt64.le_trans (by decide) (UInt64.le_of_lt htwo)
    obtain ⟨start?, hstart, hgreatest⟩ := exists_candidateBelow? hstep (by omega) (bound - 1)
    refine ⟨start?.bind fun start =>
      searchDown (2 * degree) (start.toNat / (2 * degree).toNat + 1) start, ?_, ?_⟩
    · rw [friendlyBelow?_eq htwo hword hdegree]
      exact bind_eq_ok_iff.2 ⟨start?, hstart, rfl⟩
    rcases start? with _ | start
    · rintro q ⟨hq, hfriendly⟩
      exact hgreatest q ⟨(lt_iff_le_sub_one hone).1 hq, horder ▸ hfriendly.mod_eq⟩
    · exact greatest_searchDown_friendly horder hstep hone hgreatest

end EncryptedArithmetic.Modular

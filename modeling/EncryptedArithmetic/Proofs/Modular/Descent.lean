import EncryptedArithmetic.Proofs.Modular.Search
import Mathlib.Order.Bounds.Defs

/-!
# The search for a prime comes to an end

A search below a bound is a loop that goes down until something ends it. Here the loop is a relation
between a candidate and an answer, with no count of the steps that are allowed, so that an answer in
the relation is a loop that has ended. Sums and differences of words carry a guard. Up to the degree
`2 ^ 62` no guard matters, the loop ends from every bound, and it ends with the greatest word that
it is looking for.

## Main definitions

* `candidateGuarded?`: where a search starts, with a fault for every sum or difference that is no
  word.
* `Descends`: the loop from a candidate on.
* `Searches`: the whole search below a bound.

## Main results

* `candidateGuarded?_eq`: the guards of the start.
* `descends_searchDown`: the loop ends.
* `friendlyBelow?_eq_ok_iff`: which answer a search gives.
-/

namespace EncryptedArithmetic.Modular

variable {step value c : UInt64} {fuel : ℕ}

/-! ## Words -/

/-- The sum of two words, where it is a word. -/
def plus? (a b : UInt64) : Except Fault UInt64 :=
  if sumFits a b then .ok (a + b) else .error .overflow

/-- The difference of two words, where it is a word. -/
def minus? (a b : UInt64) : Except Fault UInt64 :=
  if b ≤ a then .ok (a - b) else .error .overflow

/-- `candidateBelow?`, as long as every sum and difference is a word. -/
def candidateGuarded? (value step : UInt64) : Except Fault (Option UInt64) := do
  let excess := (← minus? (← plus? (value % step) step) 1) % step
  if excess ≤ value then return some (← minus? value excess) else return none

/-- One word is left to take one off, as the step is part of the sum. -/
theorem candidateGuarded?_eq (hstep : 1 ≤ step.toNat) (value : UInt64) :
    candidateGuarded? value step = candidateBelow? value step := by
  rw [candidateGuarded?, candidateBelow?, plus?]
  split
  case isFalse => rfl
  case isTrue hfits =>
    rw [ok_bind, minus?, if_pos (one_le_mod_add hstep hfits), ok_bind]
    dsimp only
    split
    case isTrue hle => rw [minus?, if_pos hle, ok_bind, pure_eq_ok]
    case isFalse => rfl

/-! ## The loop -/

/-- The loop from a candidate on. It ends at two, at a prime, and where a step would lead below
zero. -/
inductive Descends (step : UInt64) : UInt64 → Option UInt64 → Prop
  | small {c : UInt64} (h : c ≤ 2) : Descends step c none
  | found {c : UInt64} (h : 2 < c) (hprime : isPrime c) : Descends step c (some c)
  | last {c : UInt64} (h : 2 < c) (hcomposite : ¬isPrime c) (hstep : c < step) :
    Descends step c none
  | next {c d : UInt64} {p? : Option UInt64} (h : 2 < c) (hcomposite : ¬isPrime c)
    (hd : minus? c step = .ok d) (hrest : Descends step d p?) : Descends step c p?

/-- The whole search below a bound. -/
inductive Searches (bound degree : UInt64) : Option UInt64 → Prop
  | small (h : bound ≤ 2) : Searches bound degree none
  | noCandidate {value : UInt64} (h : 2 < bound) (hvalue : minus? bound 1 = .ok value)
    (hstart : candidateGuarded? value (2 * degree) = .ok none) : Searches bound degree none
  | descends {value c : UInt64} {p? : Option UInt64} (h : 2 < bound)
    (hvalue : minus? bound 1 = .ok value)
    (hstart : candidateGuarded? value (2 * degree) = .ok (some c))
    (hrun : Descends (2 * degree) c p?) : Searches bound degree p?

/-- With fuel for every step down to zero the search is the loop. -/
theorem descends_searchDown (hfuel : c.toNat < fuel * step.toNat) :
    Descends step c (searchDown step fuel c) := by
  -- By induction on the fuel: a step takes as much off the candidate as off the bound for it.
  induction fuel generalizing c with
  | zero => simp at hfuel
  | succ fuel ih =>
    rw [searchDown]
    split
    case isTrue hsmall => exact .small hsmall
    case isFalse hsmall =>
    have htwo : 2 < c := UInt64.not_le.1 hsmall
    split
    case isTrue hprime => exact .found htwo hprime
    case isFalse hcomposite =>
    split
    case isTrue hlast => exact .last htwo hcomposite hlast
    case isFalse hstep =>
      have hle : step ≤ c := UInt64.not_lt.1 hstep
      refine .next htwo hcomposite (if_pos hle) (ih ?_)
      have hle' := UInt64.le_iff_toNat_le.1 hle
      rw [UInt64.toNat_sub_of_le _ _ hle]
      rw [Nat.succ_mul] at hfuel
      omega

/-- The loop gives one answer. -/
theorem Descends.unique {p? q? : Option UInt64} (hp : Descends step c p?)
    (hq : Descends step c q?) : p? = q? := by
  -- The guards of any two rules exclude each other, and one more step down is the same step.
  induction hp with
  | small h =>
    cases hq with
    | small => rfl
    | found h' | last h' | next h' => exact absurd h (UInt64.not_le.2 h')
  | found h hprime =>
    cases hq with
    | small h' => exact absurd h' (UInt64.not_le.2 h)
    | found => rfl
    | last _ hcomposite | next _ hcomposite => exact absurd hprime hcomposite
  | last h hcomposite hstep =>
    cases hq with
    | small | last => rfl
    | found _ hprime => exact absurd hprime hcomposite
    | next _ _ hd => rw [minus?, if_neg (UInt64.not_le.2 hstep)] at hd; cases hd
  | next h hcomposite hd _ ih =>
    cases hq with
    | small h' => exact absurd h' (UInt64.not_le.2 h)
    | found _ hprime => exact absurd hprime hcomposite
    | last _ _ hstep => rw [minus?, if_neg (UInt64.not_le.2 hstep)] at hd; cases hd
    | next _ _ hd' hrest =>
      obtain rfl := Except.ok.inj (hd.symm.trans hd')
      exact ih hrest

/-- The search gives one answer. -/
theorem Searches.unique {bound degree : UInt64} {p? q? : Option UInt64}
    (hp : Searches bound degree p?) (hq : Searches bound degree q?) : p? = q? := by
  have hvalue_eq {v w : UInt64} (hv : minus? bound 1 = .ok v) (hw : minus? bound 1 = .ok w) :
      v = w := Except.ok.inj (hv.symm.trans hw)
  -- The start of the descent is determined by the bound and the degree.
  cases hp with
  | small h =>
    cases hq with
    | small => rfl
    | noCandidate h' | descends h' => exact absurd h (UInt64.not_le.2 h')
  | noCandidate h hvalue hstart =>
    cases hq with
    | small | noCandidate => rfl
    | descends _ hvalue' hstart' =>
      obtain rfl := hvalue_eq hvalue hvalue'
      cases hstart.symm.trans hstart'
  | descends h hvalue hstart hrun =>
    cases hq with
    | small h' => exact absurd h' (UInt64.not_le.2 h)
    | noCandidate _ hvalue' hstart' =>
      obtain rfl := hvalue_eq hvalue hvalue'
      cases hstart.symm.trans hstart'
    | descends _ hvalue' hstart' hrun' =>
      obtain rfl := hvalue_eq hvalue hvalue'
      obtain rfl := Option.some.inj (Except.ok.inj (hstart.symm.trans hstart'))
      exact hrun.unique hrun'

/-- Up to the degree `2 ^ 62` the answer below a bound is that of the loop with all its guards. -/
theorem searches_of_friendlyBelow? {bound degree : UInt64} {p? : Option UInt64}
    (hpos : 1 ≤ degree.toNat) (hle : degree.toNat ≤ 2 ^ 62)
    (h : friendlyBelow? bound degree = .ok p?) : Searches bound degree p? := by
  have hsize : UInt64.size = 2 ^ 64 := rfl
  have hword : 2 * degree.toNat < UInt64.size := by omega
  have horder := toNat_two_mul hword
  have hdegree : degree ≠ 0 := by
    rintro rfl
    exact absurd hpos (by decide)
  by_cases hbound : bound ≤ 2
  · rw [friendlyBelow?, if_pos hbound] at h
    exact Except.ok.inj h ▸ .small hbound
  have htwo : 2 < bound := UInt64.not_le.1 hbound
  have hone : (1 : UInt64) ≤ bound :=
    UInt64.le_trans (by decide) (UInt64.le_of_lt htwo)
  have hvalue : minus? bound 1 = .ok (bound - 1) := if_pos hone
  rw [friendlyBelow?_eq htwo hword hdegree] at h
  obtain ⟨start?, hstart, hsearch⟩ := bind_eq_ok_iff.1 h
  rw [← candidateGuarded?_eq (by omega)] at hstart
  rcases start? with _ | start
  · exact Except.ok.inj hsearch ▸ .noCandidate htwo hvalue hstart
  · obtain rfl := Except.ok.inj hsearch
    -- The fuel is one more than the steps that fit below the start.
    refine .descends htwo hvalue hstart (descends_searchDown ?_)
    rw [Nat.mul_comm]
    exact Nat.lt_mul_div_succ _ (by omega)

/-! ## The answer -/

/-- For every bound and every degree from one to `2 ^ 62`: the search answers a word exactly if this
is the greatest one below the bound that passes the primality test and leaves the remainder one
modulo twice the degree, and it answers that there is none exactly if there is none. It always gives
one of these answers, and the loop ends with the same one, without a sum or a difference that is no
word. -/
theorem friendlyBelow?_eq_ok_iff {degree : UInt64} (hpos : 1 ≤ degree.toNat)
    (hle : degree.toNat ≤ 2 ^ 62) (bound : UInt64) :
    (∀ p, friendlyBelow? bound degree = .ok (some p) ↔
      IsGreatest {q | q < bound ∧ q.toNat % (2 * degree.toNat) = 1 ∧ isPrime q} p) ∧
    (friendlyBelow? bound degree = .ok none ↔
      ∀ q < bound, ¬(q.toNat % (2 * degree.toNat) = 1 ∧ isPrime q)) ∧
    (∃ p?, friendlyBelow? bound degree = .ok p?) ∧
    ∀ p?, friendlyBelow? bound degree = .ok p? ↔ Searches bound degree p? := by
  obtain ⟨p?, hp, hgreatest⟩ := exists_friendlyBelow? hpos hle bound
  have hset : {p | p < bound ∧ Friendly degree p} =
      {q | q < bound ∧ q.toNat % (2 * degree.toNat) = 1 ∧ isPrime q} := by
    ext q
    exact and_congr_right fun _ => ⟨fun h => ⟨h.mod_eq, h.isPrime⟩, fun h => ⟨h.2, h.1⟩⟩
  rw [hset] at hgreatest
  have hsearches := searches_of_friendlyBelow? hpos hle hp
  refine ⟨fun p => ?_, ?_, ⟨p?, hp⟩, fun q? => ?_⟩
  · rw [hp, Except.ok.injEq]
    constructor
    · rintro rfl
      exact hgreatest
    · intro h
      -- The greatest element is one, so there is an answer, and greatest elements are equal.
      rcases p? with _ | p'
      · exact absurd h.1 (hgreatest p)
      · exact congrArg some (UInt64.le_antisymm (h.2 hgreatest.1) (hgreatest.2 p h.1))
  · rw [hp, Except.ok.injEq]
    constructor
    · rintro rfl q hq hfriendly
      exact hgreatest q ⟨hq, hfriendly⟩
    · intro h
      rcases p? with _ | p'
      · rfl
      · exact absurd hgreatest.1.2 (h p' hgreatest.1.1)
  · rw [hp, Except.ok.injEq]
    exact ⟨fun h => h ▸ hsearches, hsearches.unique⟩

/-- Modulo `16` the search below `97` passes four composite numbers on its way to `17`, and below
`17` there is nothing. With steps of `2 ^ 63` there is no prime among the words at all. -/
theorem friendlyBelow?_sixteen :
    IsGreatest {q : UInt64 | q < 97 ∧ q.toNat % (2 * (8 : UInt64).toNat) = 1 ∧ isPrime q} 17 ∧
      (∀ q < (17 : UInt64), ¬(q.toNat % (2 * (8 : UInt64).toNat) = 1 ∧ isPrime q)) ∧
      Searches 18446744073709551615 4611686018427387904 none := by
  have hsmallest : 1 ≤ (8 : UInt64).toNat ∧ (8 : UInt64).toNat ≤ 2 ^ 62 := by decide
  have hlargest : 1 ≤ (4611686018427387904 : UInt64).toNat ∧
      (4611686018427387904 : UInt64).toNat ≤ 2 ^ 62 := by decide
  have hsome : friendlyBelow? 97 8 = .ok (some 17) := rfl
  have hnone : friendlyBelow? 17 8 = .ok none := rfl
  have hend : friendlyBelow? 18446744073709551615 4611686018427387904 = .ok none := rfl
  exact ⟨((friendlyBelow?_eq_ok_iff hsmallest.1 hsmallest.2 97).1 17).1 hsome,
    (friendlyBelow?_eq_ok_iff hsmallest.1 hsmallest.2 17).2.1.1 hnone,
    ((friendlyBelow?_eq_ok_iff hlargest.1 hlargest.2 _).2.2.2 none).1 hend⟩

end EncryptedArithmetic.Modular

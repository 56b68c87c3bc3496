import EncryptedArithmetic.Modular.Prime
import EncryptedArithmetic.Proofs.Fault
import Mathlib.Algebra.Order.Ring.Nat
import Mathlib.Data.List.Nodup
import Mathlib.Data.Nat.ModEq

/-!
# The primes of a chain are distinct

Primes of different widths lie in disjoint ranges, and a width that is asked for again goes on below
the last prime it was given. So a chain never takes a prime twice, and every prime is as wide as it
was asked for and passed the test. Every search walks down in steps of twice the degree from a
number that leaves the remainder one.

## Main results

* `largestPrimes_spec`: one prime of the right width for each request, all of them distinct.
* `mod_of_largestPrimes`: each of them leaves the remainder one modulo twice the degree.
-/

namespace EncryptedArithmetic.Modular

/-- A word of exactly `w` bits that passes the primality test. -/
structure OfWidth (w : UInt32) (p : UInt64) : Prop where
  pos : 0 < w.toNat
  lower : 2 ^ (w.toNat - 1) ≤ p.toNat
  upper : p.toNat < 2 ^ w.toNat
  isPrime : isPrime p

/-- Words of one width only. -/
theorem OfWidth.width_eq {w w' : UInt32} {p : UInt64} (h : OfWidth w p) (h' : OfWidth w' p) :
    w = w' := by
  -- The ranges of two widths meet only if the widths are the same.
  have hle {a b : ℕ} (ha : 0 < a) (hlow : 2 ^ (a - 1) ≤ p.toNat) (hupp : p.toNat < 2 ^ b) :
      a ≤ b := by
    have := (Nat.pow_lt_pow_iff_right Nat.one_lt_two).1 (hlow.trans_lt hupp)
    omega
  exact UInt32.toNat_inj.1
    (le_antisymm (hle h.pos h.lower h'.upper) (hle h'.pos h'.lower h.upper))

/-! ## One search -/

theorem searchDown_spec {step c p : UInt64} {fuel : ℕ} (h : searchDown step fuel c = some p) :
    p ≤ c ∧ isPrime p := by
  -- By induction on the candidates that are left: each of them is below the one before.
  induction fuel generalizing c with
  | zero => cases h
  | succ fuel ih =>
    rw [searchDown] at h
    split at h
    · cases h
    split at h
    · rename_i hprime
      obtain rfl := Option.some.inj h
      exact ⟨UInt64.le_refl _, hprime⟩
    split at h
    · cases h
    · rename_i hstep
      obtain ⟨hle, hprime⟩ := ih h
      refine ⟨UInt64.le_trans hle ?_, hprime⟩
      rw [UInt64.le_iff_toNat_le, UInt64.toNat_sub_of_le _ _ (UInt64.not_lt.1 hstep)]
      exact Nat.sub_le _ _

theorem candidateBelow?_le {value step c : UInt64} (h : candidateBelow? value step = .ok (some c)) :
    c ≤ value := by
  rw [candidateBelow?] at h
  split at h
  · have hsome := Except.ok.inj h
    split at hsome
    · rename_i hle
      rw [← Option.some.inj hsome, UInt64.le_iff_toNat_le, UInt64.toNat_sub_of_le _ _ hle]
      exact Nat.sub_le _ _
    · cases hsome
  · cases h

/-- Twice a degree as a word. -/
theorem toNat_two_mul {degree : UInt64} (h : 2 * degree.toNat < UInt64.size) :
    (2 * degree).toNat = 2 * degree.toNat := by
  rw [UInt64.toNat_mul]
  exact Nat.mod_eq_of_lt h

/-- Below a word means up to the word in front of it. -/
theorem lt_iff_le_sub_one {q bound : UInt64} (h : 1 ≤ bound) : q < bound ↔ q ≤ bound - 1 := by
  have hpos := UInt64.le_iff_toNat_le.1 h
  change 1 ≤ bound.toNat at hpos
  rw [UInt64.lt_iff_toNat_lt, UInt64.le_iff_toNat_le, UInt64.toNat_sub_of_le _ _ h]
  change q.toNat < bound.toNat ↔ q.toNat ≤ bound.toNat - 1
  omega

/-- Behind its guards a search goes down from the candidate below the bound. -/
theorem friendlyBelow?_eq {bound degree : UInt64} (hbound : 2 < bound)
    (hsize : 2 * degree.toNat < UInt64.size) (hdegree : degree ≠ 0) :
    friendlyBelow? bound degree = do
      return (← candidateBelow? (bound - 1) (2 * degree)).bind fun start =>
        searchDown (2 * degree) (start.toNat / (2 * degree).toNat + 1) start := by
  rw [friendlyBelow?, if_neg (UInt64.not_le.2 hbound), if_neg (Nat.not_le.2 hsize), if_neg hdegree]

theorem exists_of_friendlyBelow? {bound degree p : UInt64}
    (h : friendlyBelow? bound degree = .ok (some p)) :
    2 < bound ∧ 2 * degree.toNat < UInt64.size ∧ degree ≠ 0 ∧ ∃ start,
      candidateBelow? (bound - 1) (2 * degree) = .ok (some start) ∧
        searchDown (2 * degree) (start.toNat / (2 * degree).toNat + 1) start = some p := by
  by_cases hbound : bound ≤ 2
  · rw [friendlyBelow?, if_pos hbound] at h
    cases h
  by_cases hsize : UInt64.size ≤ 2 * degree.toNat
  · rw [friendlyBelow?, if_neg hbound, if_pos hsize] at h
    cases h
  by_cases hdegree : degree = 0
  · rw [friendlyBelow?, if_neg hbound, if_neg hsize, if_pos hdegree] at h
    cases h
  have htwo := UInt64.not_le.1 hbound
  have hword := Nat.lt_of_not_le hsize
  simp only [friendlyBelow?_eq htwo hword hdegree, bind_eq_ok_iff, pure_eq_ok,
    Except.ok.injEq] at h
  obtain ⟨start?, hstart, h⟩ := h
  obtain ⟨start, rfl, hsearch⟩ := Option.bind_eq_some_iff.1 h
  exact ⟨htwo, hword, hdegree, start, hstart, hsearch⟩

/-- What is found below a bound is below it and passes the test. -/
theorem friendlyBelow?_spec {bound degree p : UInt64}
    (h : friendlyBelow? bound degree = .ok (some p)) : p < bound ∧ isPrime p := by
  obtain ⟨htwo, -, -, start, hstart, hsearch⟩ := exists_of_friendlyBelow? h
  obtain ⟨hle, hprime⟩ := searchDown_spec hsearch
  have hone : (1 : UInt64) ≤ bound := UInt64.le_trans (by decide) (UInt64.le_of_lt htwo)
  -- The search starts at a candidate of at most `bound - 1` and only goes down.
  have hcandidate := UInt64.le_trans hle (candidateBelow?_le hstart)
  exact ⟨(lt_iff_le_sub_one hone).2 hcandidate, hprime⟩

/-! ## The primes taken so far -/

/-- Primes with the widths they were asked for, the last one leading: within a width each is below
those that were taken before it. -/
structure Chosen (taken : List (UInt32 × UInt64)) : Prop where
  ofWidth : ∀ e ∈ taken, OfWidth e.1 e.2
  descending : taken.Pairwise fun x y => x.1 = y.1 → x.2 < y.2

namespace Chosen

variable {taken : List (UInt32 × UInt64)}

/-- The prime that a width was given last is the least one of the width. -/
theorem le_of_lookup (h : Chosen taken) {w : UInt32} {p q : UInt64}
    (hp : taken.lookup w = some p) (hq : (w, q) ∈ taken) : p ≤ q := by
  obtain ⟨front, back, rfl, hfront⟩ := List.lookup_eq_some_iff.1 hp
  -- No entry in front of the first one of the width has this width.
  have hback : (w, q) ∈ (w, p) :: back := by
    rcases List.mem_append.1 hq with hmem | hmem
    · exact absurd (hfront _ hmem) (by simp)
    · exact hmem
  rcases List.mem_cons.1 hback with heq | hmem
  · obtain rfl := (Prod.mk.inj heq).2
    exact UInt64.le_refl _
  · have hpair := (List.pairwise_append.1 h.descending).2.1
    exact UInt64.le_of_lt ((List.pairwise_cons.1 hpair).1 _ hmem rfl)

/-- No prime is taken twice. -/
theorem nodup (h : Chosen taken) : (taken.map Prod.snd).Nodup := by
  rw [List.Nodup, List.pairwise_map]
  -- Equal primes have equal widths, and within a width the primes descend.
  apply h.descending.imp_of_mem
  intro x y hx hy hlt heq
  have hwidth := (h.ofWidth x hx).width_eq (heq ▸ h.ofWidth y hy)
  exact absurd (hlt hwidth) (heq ▸ UInt64.lt_irrefl _)

/-- The next prime of a width is below all of that width, and the others have other widths. -/
theorem cons (h : Chosen taken) {w : UInt32} {p : UInt64} (hp : OfWidth w p)
    (hlt : ∀ q, taken.lookup w = some q → p < q) : Chosen ((w, p) :: taken) := by
  constructor
  · intro e he
    rcases List.mem_cons.1 he with rfl | he
    · exact hp
    · exact h.ofWidth e he
  · refine List.pairwise_cons.2 ⟨fun ⟨w', q⟩ hq heq => ?_, h.descending⟩
    obtain rfl : w = w' := heq
    rcases hlast : taken.lookup w with _ | r
    · exact absurd (List.lookup_eq_none_iff.1 hlast _ hq) (by simp)
    · exact UInt64.lt_of_lt_of_le (hlt r hlast) (h.le_of_lookup hlast hq)

end Chosen

theorem toNat_one_shiftLeft {w : UInt32} (h : w < 64) :
    ((1 : UInt64) <<< w.toUInt64).toNat = 2 ^ w.toNat := by
  rw [UInt32.lt_iff_toNat_lt] at h
  change w.toNat < 64 at h
  have hword : w.toUInt64.toNat = w.toNat := UInt32.toNat_toUInt64 w
  rw [UInt64.toNat_shiftLeft, hword, Nat.mod_eq_of_lt h]
  change 1 <<< w.toNat % 2 ^ 64 = 2 ^ w.toNat
  rw [Nat.one_shiftLeft]
  exact Nat.mod_eq_of_lt (Nat.pow_lt_pow_right Nat.one_lt_two h)

/-- The least word of a width. -/
theorem toNat_floor {w : UInt32} (hpos : 1 ≤ w.toNat) (h : w < 64) :
    ((1 : UInt64) <<< (w - 1).toUInt64).toNat = 2 ^ (w.toNat - 1) := by
  have hone : (1 : UInt32) ≤ w := UInt32.le_iff_toNat_le.2 hpos
  have hpred : (w - 1).toNat = w.toNat - 1 := UInt32.toNat_sub_of_le _ _ hone
  have hlt : w - 1 < 64 := by
    rw [UInt32.lt_iff_toNat_lt] at h ⊢
    omega
  rw [toNat_one_shiftLeft hlt, hpred]

/-- A request that is served takes what the search finds below the last prime of its width, or below
the power of two where there is none. -/
theorem exists_of_extendChain_cons {degree : UInt64} {w : UInt32} {widths : List UInt32}
    {taken out : List (UInt32 × UInt64)} (h : extendChain degree taken (w :: widths) = .ok out) :
    0 < w.toNat ∧ w < 64 ∧ ∃ p,
      friendlyBelow? ((taken.lookup w).getD (1 <<< w.toUInt64)) degree = .ok (some p) ∧
        1 <<< (w - 1).toUInt64 ≤ p ∧ extendChain degree ((w, p) :: taken) widths = .ok out := by
  rw [extendChain] at h
  split at h
  · cases h
  rename_i hw
  rw [not_or] at hw
  simp only [bind_eq_ok_iff, liftM_eq_ok_iff] at h
  obtain ⟨found, hfound, h⟩ := h
  split at h
  swap
  · cases h
  rename_i p
  split at h
  swap
  · cases h
  rename_i hfloor
  exact ⟨Nat.pos_of_ne_zero fun h0 => hw.1 (UInt32.toNat_inj.1 h0), UInt32.not_le.1 hw.2, p,
    hfound, hfloor, h⟩

/-- Every request adds one prime of its width to those that are taken. -/
theorem extendChain_spec {degree : UInt64} {widths : List UInt32}
    {taken out : List (UInt32 × UInt64)} (h : extendChain degree taken widths = .ok out)
    (htaken : Chosen taken) :
    Chosen out ∧ out.map Prod.fst = widths.reverse ++ taken.map Prod.fst := by
  -- By induction on the requests; `Chosen` is what every step keeps.
  induction widths generalizing taken with
  | nil =>
    obtain rfl := Except.ok.inj h
    exact ⟨htaken, rfl⟩
  | cons w widths ih =>
    obtain ⟨hpos, hlt, p, hfound, hfloor, h⟩ := exists_of_extendChain_cons h
    obtain ⟨hbound, hprime⟩ := friendlyBelow?_spec hfound
    -- The bound is the last prime of the width, or the power of two where there is none.
    have hupper : p.toNat < 2 ^ w.toNat := by
      rw [UInt64.lt_iff_toNat_lt] at hbound
      rcases hlast : taken.lookup w with _ | q
      · rw [hlast, Option.getD_none, toNat_one_shiftLeft hlt] at hbound
        exact hbound
      · rw [hlast, Option.getD_some] at hbound
        obtain ⟨front, back, rfl, -⟩ := List.lookup_eq_some_iff.1 hlast
        exact hbound.trans (htaken.ofWidth (w, q) (by simp)).upper
    have hlower : 2 ^ (w.toNat - 1) ≤ p.toNat := by
      rw [UInt64.le_iff_toNat_le, toNat_floor hpos hlt] at hfloor
      exact hfloor
    have hnext := htaken.cons ⟨hpos, hlower, hupper, hprime⟩ fun q hq => by
      rwa [hq, Option.getD_some] at hbound
    obtain ⟨hchosen, hwidths⟩ := ih h hnext
    refine ⟨hchosen, ?_⟩
    rw [hwidths]
    simp

/-- One prime of the right width for each request, all of them distinct. -/
theorem largestPrimes_spec {widths : List UInt32} {degree : UInt64} {primes : List UInt64}
    (h : largestPrimes widths degree = .ok primes) :
    primes.Nodup ∧ List.Forall₂ OfWidth widths primes := by
  simp only [largestPrimes, bind_eq_ok_iff, pure_eq_ok, Except.ok.injEq] at h
  obtain ⟨out, hout, rfl⟩ := h
  obtain ⟨hchosen, hwidths⟩ := extendChain_spec hout ⟨by simp, by simp⟩
  rw [List.map_nil, List.append_nil] at hwidths
  constructor
  · rw [List.map_reverse, List.nodup_reverse]
    exact hchosen.nodup
  · have hreverse : widths = out.reverse.map Prod.fst := by
      rw [List.map_reverse, hwidths, List.reverse_reverse]
    rw [hreverse, List.forall₂_map_left_iff, List.forall₂_map_right_iff, List.forall₂_same]
    exact fun e he => hchosen.ofWidth e (List.mem_reverse.1 he)

/-! ## Remainders -/

/-- Taking `v % s + s - 1` modulo `s` off `v` leaves the remainder one. -/
theorem sub_excess_mod {v s : ℕ} (hs : 1 < s) (hle : (v % s + s - 1) % s ≤ v) :
    (v - (v % s + s - 1) % s) % s = 1 := by
  have hadd : v - (v % s + s - 1) % s + (v % s + s - 1) % s ≡
      1 + (v % s + s - 1) % s [MOD s] := by
    rw [Nat.sub_add_cancel hle, Nat.ModEq, Nat.add_mod_mod]
    have hcancel : 1 + (v % s + s - 1) = v % s + s := by omega
    rw [hcancel, Nat.add_mod_right, Nat.mod_mod]
  have hone : v - (v % s + s - 1) % s ≡ 1 [MOD s] := Nat.ModEq.add_right_cancel' _ hadd
  rwa [Nat.ModEq, Nat.mod_eq_of_lt hs] at hone

theorem toNat_mod_add {value step : UInt64} (hfits : sumFits (value % step) step) :
    (value % step + step).toNat = value.toNat % step.toNat + step.toNat := by
  have hmod : (value % step).toNat = value.toNat % step.toNat := UInt64.toNat_mod value step
  rw [UInt64.toNat_add, hmod, Nat.mod_eq_of_lt (hmod ▸ sumFits_iff.1 hfits)]

/-- The step is a part of the sum, so one can be taken off. -/
theorem one_le_mod_add {value step : UInt64} (hstep : 1 ≤ step.toNat)
    (hfits : sumFits (value % step) step) : 1 ≤ value % step + step := by
  rw [UInt64.le_iff_toNat_le, toNat_mod_add hfits]
  exact hstep.trans (Nat.le_add_left _ _)

/-- What a candidate is below its value, in the integers: the sum in it is a word. -/
theorem toNat_excess {value step : UInt64} (hstep : 1 ≤ step.toNat)
    (hfits : sumFits (value % step) step) :
    ((value % step + step - 1) % step).toNat =
      (value.toNat % step.toNat + step.toNat - 1) % step.toNat := by
  rw [UInt64.toNat_mod, UInt64.toNat_sub_of_le _ _ (one_le_mod_add hstep hfits),
    toNat_mod_add hfits]
  rfl

/-- A candidate leaves the remainder one modulo the step. -/
theorem candidateBelow?_mod {value step c : UInt64} (hstep : 1 < step.toNat)
    (h : candidateBelow? value step = .ok (some c)) : c.toNat % step.toNat = 1 := by
  rw [candidateBelow?] at h
  split at h
  swap
  · cases h
  rename_i hfits
  have hsome := Except.ok.inj h
  split at hsome
  swap
  · cases hsome
  rename_i hle
  -- The value drops by its excess over the last number that leaves one.
  have hexcess := toNat_excess (Nat.le_of_lt hstep) hfits
  rw [← Option.some.inj hsome, UInt64.toNat_sub_of_le _ _ hle, hexcess]
  exact sub_excess_mod hstep (hexcess ▸ UInt64.le_iff_toNat_le.1 hle)

/-- The search keeps the remainder modulo the step. -/
theorem searchDown_mod {step c p : UInt64} {fuel : ℕ} (h : searchDown step fuel c = some p) :
    p.toNat % step.toNat = c.toNat % step.toNat := by
  -- Each miss goes down by one step, which keeps the remainder.
  induction fuel generalizing c with
  | zero => cases h
  | succ fuel ih =>
    rw [searchDown] at h
    split at h
    · cases h
    split at h
    · rw [Option.some.inj h]
    split at h
    · cases h
    · rename_i hstep
      have hle := UInt64.not_lt.1 hstep
      rw [ih h, UInt64.toNat_sub_of_le _ _ hle, ← Nat.mod_eq_sub_mod (UInt64.le_iff_toNat_le.1 hle)]

/-- What is found leaves the remainder one modulo twice the degree. -/
theorem friendlyBelow?_mod {bound degree p : UInt64}
    (h : friendlyBelow? bound degree = .ok (some p)) : p.toNat % (2 * degree.toNat) = 1 := by
  obtain ⟨-, hsize, hdegree, start, hstart, hsearch⟩ := exists_of_friendlyBelow? h
  have hstep := toNat_two_mul hsize
  have hpos : degree.toNat ≠ 0 := fun h0 => hdegree (UInt64.toNat_inj.1 h0)
  rw [← hstep, searchDown_mod hsearch, candidateBelow?_mod (by omega) hstart]

/-- Every prime that a chain is extended by leaves the remainder one modulo twice the degree. -/
theorem mod_of_extendChain {degree : UInt64} {widths : List UInt32}
    {taken out : List (UInt32 × UInt64)} (h : extendChain degree taken widths = .ok out)
    (htaken : ∀ e ∈ taken, e.2.toNat % (2 * degree.toNat) = 1) :
    ∀ e ∈ out, e.2.toNat % (2 * degree.toNat) = 1 := by
  -- The primes already taken are carried along, so they need the property from the start.
  induction widths generalizing taken with
  | nil => exact Except.ok.inj h ▸ htaken
  | cons w widths ih =>
    obtain ⟨-, -, p, hfound, -, h⟩ := exists_of_extendChain_cons h
    exact ih h (List.forall_mem_cons.2 ⟨friendlyBelow?_mod hfound, htaken⟩)

/-- Every prime leaves the remainder one modulo twice the degree. -/
theorem mod_of_largestPrimes {widths : List UInt32} {degree : UInt64} {primes : List UInt64}
    (h : largestPrimes widths degree = .ok primes) {p : UInt64} (hp : p ∈ primes) :
    p.toNat % (2 * degree.toNat) = 1 := by
  simp only [largestPrimes, bind_eq_ok_iff, pure_eq_ok, Except.ok.injEq] at h
  obtain ⟨out, hout, rfl⟩ := h
  obtain ⟨e, he, rfl⟩ := List.mem_map.1 hp
  exact mod_of_extendChain hout (by simp) e (List.mem_reverse.1 he)

/-- The check of a prime that leaves the remainder one modulo twice the degree. -/
theorem isFriendly?_of_mod {p degree : UInt64} (hdegree : degree ≠ 0)
    (hsize : 2 * degree.toNat < UInt64.size) (hmod : p.toNat % (2 * degree.toNat) = 1)
    (hprime : isPrime p) : isFriendly? p degree = .ok true := by
  have hone : p % (2 * degree) = 1 := by
    apply UInt64.toNat_inj.1
    rw [UInt64.toNat_mod, toNat_two_mul hsize, hmod]
    rfl
  rw [isFriendly?, if_neg (Nat.not_le.2 hsize), if_neg hdegree, hone, hprime]
  rfl

/-- What the check of a prime says. -/
theorem mod_of_isFriendly? {p degree : UInt64} (h : isFriendly? p degree = .ok true) :
    degree ≠ 0 ∧ p.toNat % (2 * degree.toNat) = 1 := by
  by_cases hsize : UInt64.size ≤ 2 * degree.toNat
  · rw [isFriendly?, if_pos hsize] at h
    cases h
  by_cases hzero : degree = 0
  · rw [isFriendly?, if_neg hsize, if_pos hzero] at h
    cases h
  rw [isFriendly?, if_neg hsize, if_neg hzero, Except.ok.injEq, Bool.and_eq_true, beq_iff_eq] at h
  have hmod := congrArg UInt64.toNat h.1
  rw [UInt64.toNat_mod, toNat_two_mul (Nat.lt_of_not_le hsize)] at hmod
  exact ⟨hzero, hmod⟩

end EncryptedArithmetic.Modular

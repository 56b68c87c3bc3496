import EncryptedArithmetic.Proofs.Modular.Search
import Mathlib.Data.FinEnum
import Mathlib.Data.Set.Card

/-!
# A chain takes the largest primes

Requests are served one after the other, and each of them gets the largest friendly word of its
width that no request before it was given. `Greedy` says this of the words that are taken, so the
words of a width are taken in descending order without a gap, and a request is refused only when its
width has been used up.

## Main definitions

* `supply`: the friendly words of a width.
* `Overdraws`: a request asks for more words of its width than there are.
* `Greedy`: what was taken for the requests so far.

## Main results

* `Greedy.extendChain_cons` and `Greedy.extendChain`: one request, and a list of them.
* `largestPrimes_greedy`: which words a chain is made of, and when there is none.
-/

namespace EncryptedArithmetic.Modular

/-- The friendly words of exactly `w` bits. -/
def supply (degree : UInt64) (w : UInt32) : Set UInt64 :=
  {p | Friendly degree p ∧ 2 ^ (w.toNat - 1) ≤ p.toNat ∧ p.toNat < 2 ^ w.toNat}

/-- The request at a position asks for more words of its width than there are. -/
def Overdraws (degree : UInt64) (widths : List UInt32) (i : ℕ) : Prop :=
  ∃ w, widths[i]? = some w ∧ (supply degree w).ncard < (widths.take (i + 1)).count w

/-- What was taken for a list of requests, the last one leading: each word is of its width, and the
greater ones of the width are exactly those that were taken before. -/
inductive Greedy (degree : UInt64) : List UInt32 → List (UInt32 × UInt64) → Prop
  | nil : Greedy degree [] []
  | snoc {widths : List UInt32} {taken : List (UInt32 × UInt64)} {w : UInt32} {p : UInt64}
      (h : Greedy degree widths taken) (hp : p ∈ supply degree w)
      (habove : {q | q ∈ supply degree w ∧ p < q} = {q | (w, q) ∈ taken}) :
      Greedy degree (widths ++ [w]) ((w, p) :: taken)

namespace Greedy

variable {degree : UInt64} {widths rest : List UInt32} {taken : List (UInt32 × UInt64)}
  {w : UInt32} {p : UInt64}

/-! ## What was taken -/

theorem mem_supply (h : Greedy degree widths taken) (hp : (w, p) ∈ taken) :
    p ∈ supply degree w := by
  induction h with
  | nil => exact absurd hp List.not_mem_nil
  | snoc _ hnew _ ih =>
    rcases List.mem_cons.1 hp with heq | hmem
    · obtain ⟨rfl, rfl⟩ := Prod.mk.inj heq
      exact hnew
    · exact ih hmem

/-- Every request took one word of its width. -/
theorem ncard_taken (h : Greedy degree widths taken) (w : UInt32) :
    {q | (w, q) ∈ taken}.ncard = widths.count w := by
  induction h with
  | nil => simp
  | @snoc widths taken v p _ _ habove ih =>
    rw [List.count_append, ← ih]
    by_cases hw : w = v
    · subst hw
      -- The new word is not greater than itself, so it had not been taken before.
      have hnew : p ∉ {q | (w, q) ∈ taken} := by
        rw [← habove]
        exact fun hp => UInt64.lt_irrefl p hp.2
      have hinsert : {q | (w, q) ∈ (w, p) :: taken} = insert p {q | (w, q) ∈ taken} := by
        ext q
        simp
      rw [hinsert, Set.ncard_insert_of_notMem hnew, List.count_singleton_self]
    · have hsame : {q | (w, q) ∈ (v, p) :: taken} = {q | (w, q) ∈ taken} := by
        ext q
        simp [hw]
      rw [hsame, List.count_singleton, if_neg (by simpa using Ne.symm hw), Nat.add_zero]

/-- No width was asked for more often than there are words of it. -/
theorem count_le (h : Greedy degree widths taken) (w : UInt32) :
    widths.count w ≤ (supply degree w).ncard := by
  rw [← h.ncard_taken w]
  exact Set.ncard_le_ncard fun _ hq => h.mem_supply hq

/-- The requests that were served overdraw nothing. -/
theorem not_overdraws (h : Greedy degree widths taken) {all : List UInt32} (hall : widths <+: all)
    {i : ℕ} (hi : i < widths.length) : ¬Overdraws degree all i := by
  rintro ⟨w, -, hlt⟩
  have htake : all.take (i + 1) <+: widths :=
    List.prefix_of_prefix_length_le (List.take_prefix _ _) hall (by rw [List.length_take]; omega)
  exact absurd ((htake.sublist.count_le w).trans (h.count_le w)) (Nat.not_le.2 hlt)

/-- The word for a request is one of its width, and as many are greater as there were requests for
the width before. -/
theorem rank (h : Greedy degree widths taken) {i : ℕ} (hw : widths[i]? = some w)
    (hp : (taken.reverse.map Prod.snd)[i]? = some p) :
    p ∈ supply degree w ∧ {q | q ∈ supply degree w ∧ p < q}.ncard = (widths.take i).count w := by
  have hlength : (taken.reverse.map Prod.snd).length = widths.length := by
    clear hw hp
    induction h with
    | nil => rfl
    | snoc _ _ _ ih => simpa using ih
  induction h with
  | nil => cases hw
  | @snoc widths taken v p' h hnew habove ih =>
    have hlength' : (taken.reverse.map Prod.snd).length = widths.length := by simpa using hlength
    rw [List.reverse_cons, List.map_append] at hp
    rcases Nat.lt_trichotomy i widths.length with hi | rfl | hi
    · -- A request before the last one.
      rw [List.getElem?_append_left hi] at hw
      rw [List.getElem?_append_left (hlength' ▸ hi)] at hp
      rw [List.take_append_of_le_length (Nat.le_of_lt hi)]
      exact ih hw hp hlength'
    · -- The last request: all greater words had been taken before, one for each request.
      rw [List.getElem?_append_right (le_refl _), Nat.sub_self] at hw
      rw [List.getElem?_append_right (Nat.le_of_eq hlength'), hlength', Nat.sub_self] at hp
      obtain rfl : v = w := Option.some.inj hw
      obtain rfl : p' = p := Option.some.inj hp
      rw [List.take_append_of_le_length (le_refl _), List.take_length, habove]
      exact ⟨hnew, h.ncard_taken v⟩
    · rw [List.getElem?_eq_none (by simpa using hi)] at hw
      cases hw

/-! ## The next request -/

/-- Where the next search for a width starts, everything above has been taken. -/
theorem le_bound (h : Greedy degree widths taken) (hw : w < 64) :
    {q | q ∈ supply degree w ∧ (taken.lookup w).getD (1 <<< w.toUInt64) ≤ q} =
        {q | (w, q) ∈ taken} ∧
      ((taken.lookup w).getD (1 <<< w.toUInt64)).toNat ≤ 2 ^ w.toNat := by
  induction h with
  | nil =>
    -- The first search for a width starts from the power of two behind it.
    rw [List.lookup_nil, Option.getD_none, toNat_one_shiftLeft hw]
    refine ⟨?_, le_refl _⟩
    ext q
    simp only [Set.mem_ofPred_eq, List.not_mem_nil, iff_false, not_and]
    rintro ⟨-, -, hupper⟩ hle
    rw [UInt64.le_iff_toNat_le, toNat_one_shiftLeft hw] at hle
    exact absurd hupper (Nat.not_lt.2 hle)
  | @snoc widths taken v p _ hp habove ih =>
    by_cases hv : w = v
    · subst hv
      rw [List.lookup_cons_self, Option.getD_some]
      refine ⟨?_, Nat.le_of_lt hp.2.2⟩
      ext q
      have hmem := congrArg (q ∈ ·) habove
      simp only [Set.mem_ofPred_eq, eq_iff_iff] at hmem
      simp only [Set.mem_ofPred_eq, List.mem_cons, Prod.mk.injEq, true_and, ← hmem]
      constructor
      · rintro ⟨hq, hle⟩
        rcases UInt64.lt_or_eq_of_le hle with hlt | rfl
        · exact .inr ⟨hq, hlt⟩
        · exact .inl rfl
      · rintro (rfl | ⟨hq, hlt⟩)
        · exact ⟨hp, UInt64.le_refl _⟩
        · exact ⟨hq, UInt64.le_of_lt hlt⟩
    · have hlookup : ((v, p) :: taken).lookup w = taken.lookup w := by
        rw [List.lookup_cons, beq_false_of_ne hv]
      simpa [hlookup, hv] using ih

/-- A width of which nothing is left below the bound has been used up. -/
theorem ncard_supply (h : Greedy degree widths taken) (hw : w < 64)
    (hnone : ∀ q ∈ supply degree w, ¬q < (taken.lookup w).getD (1 <<< w.toUInt64)) :
    (supply degree w).ncard = widths.count w := by
  rw [← h.ncard_taken w, ← (h.le_bound hw).1]
  congr 1
  ext q
  exact ⟨fun hq => ⟨hq, UInt64.not_lt.1 (hnone q hq)⟩, fun hq => hq.1⟩

/-- One request takes the greatest word of its width that is left, and it fails when there is none
left. -/
theorem extendChain_cons (h : Greedy degree widths taken) (hpos : 1 ≤ degree.toNat)
    (hle : degree.toNat ≤ 2 ^ 62) (hw : 1 ≤ w.toNat ∧ w.toNat ≤ 63) (rest : List UInt32) :
    (∃ p, Greedy degree (widths ++ [w]) ((w, p) :: taken) ∧
      extendChain degree taken (w :: rest) = extendChain degree ((w, p) :: taken) rest) ∨
    (supply degree w).ncard = widths.count w ∧
      extendChain degree taken (w :: rest) = .fail w := by
  have hlt : w < 64 := UInt32.lt_iff_toNat_lt.2 (Nat.lt_succ_of_le hw.2)
  have hwidth : ¬(w = 0 ∨ 64 ≤ w) := by
    rintro (rfl | hge)
    · exact absurd hw.1 (by decide)
    · exact UInt32.not_le.2 hlt hge
  have hfloor : ((1 : UInt64) <<< (w - 1).toUInt64).toNat = 2 ^ (w.toNat - 1) :=
    toNat_floor hw.1 hlt
  obtain ⟨habove, hbound⟩ := h.le_bound hlt
  obtain ⟨p?, hsearch, hgreatest⟩ := exists_friendlyBelow? hpos hle
    ((taken.lookup w).getD (1 <<< w.toUInt64))
  have hstep : extendChain degree taken (w :: rest) = p?.elim (.fail w) fun p =>
      if 1 <<< (w - 1).toUInt64 ≤ p then extendChain degree ((w, p) :: taken) rest
      else .fail w := by
    rw [extendChain, if_neg hwidth]
    dsimp only
    rw [hsearch]
    cases p? <;> rfl
  rw [hstep]
  rcases p? with _ | p
  · exact .inr ⟨h.ncard_supply hlt fun q hq hq' => hgreatest q ⟨hq', hq.1⟩, rfl⟩
  obtain ⟨⟨hp, hfriendly⟩, hmax⟩ := hgreatest
  rw [Option.elim_some]
  split
  case isTrue hlower =>
    refine .inl ⟨p, .snoc h ⟨hfriendly, ?_, ?_⟩ ?_, rfl⟩
    · rwa [UInt64.le_iff_toNat_le, hfloor] at hlower
    · exact (UInt64.lt_iff_toNat_lt.1 hp).trans_le hbound
    · -- Between the word and the bound there is no friendly one.
      rw [← habove]
      ext q
      constructor
      · rintro ⟨hq, hpq⟩
        refine ⟨hq, UInt64.not_lt.1 fun hqb => ?_⟩
        exact UInt64.not_le.2 hpq (hmax q ⟨hqb, hq.1⟩)
      · rintro ⟨hq, hbq⟩
        exact ⟨hq, UInt64.lt_of_lt_of_le hp hbq⟩
  case isFalse hlower =>
    refine .inr ⟨h.ncard_supply hlt fun q hq hq' => hlower ?_, rfl⟩
    rw [UInt64.le_iff_toNat_le, hfloor]
    exact hq.2.1.trans (UInt64.le_iff_toNat_le.1 (hmax q ⟨hq', hq.1⟩))

/-- A list of requests is served in full, or up to the first one whose width has been used up. -/
theorem extendChain (h : Greedy degree widths taken) (hpos : 1 ≤ degree.toNat)
    (hle : degree.toNat ≤ 2 ^ 62) (hrest : ∀ w ∈ rest, 1 ≤ w.toNat ∧ w.toNat ≤ 63) :
    (∃ out, extendChain degree taken rest = .ok out ∧ Greedy degree (widths ++ rest) out) ∨
    ∃ front w t, front ++ [w] <+: widths ++ rest ∧ Greedy degree front t ∧
      (supply degree w).ncard = front.count w ∧ extendChain degree taken rest = .fail w := by
  -- By induction on the requests that are left, whatever has been served.
  induction rest generalizing widths taken with
  | nil => exact .inl ⟨taken, rfl, by rwa [List.append_nil]⟩
  | cons w rest ih =>
    obtain ⟨hw, hrest⟩ := List.forall_mem_cons.1 hrest
    have hall : widths ++ w :: rest = widths ++ [w] ++ rest := by
      rw [List.append_assoc, List.singleton_append]
    rw [hall]
    rcases h.extendChain_cons hpos hle hw rest with ⟨p, hnext, heq⟩ | ⟨hcount, hfail⟩
    · rw [heq]
      exact ih hnext hrest
    · exact .inr ⟨widths, w, taken, List.prefix_append _ _, h, hcount, hfail⟩

end Greedy

/-! ## Chains -/

/-- For every degree up to `2 ^ 62` and all widths from one to 63 bits, a chain is made of one word
for each request: the `k`-th request for a width gets the `k`-th largest friendly word of it, so all
of them are distinct. There is no chain exactly when a request asks for more words of its width than
there are, and then the first such width is the error. -/
theorem largestPrimes_greedy {degree : UInt64} (hpos : 1 ≤ degree.toNat)
    (hle : degree.toNat ≤ 2 ^ 62) {widths : List UInt32}
    (hwidths : ∀ w ∈ widths, 1 ≤ w.toNat ∧ w.toNat ≤ 63) :
    ((∃ ps, largestPrimes widths degree = .ok ps) ∨
      ∃ w, largestPrimes widths degree = .fail w) ∧
    (∀ ps, largestPrimes widths degree = .ok ps → ps.length = widths.length ∧ ps.Nodup ∧
      ∀ i w p, widths[i]? = some w → ps[i]? = some p → p ∈ supply degree w ∧
        {q | q ∈ supply degree w ∧ p < q}.ncard = (widths.take i).count w) ∧
    ∀ w, largestPrimes widths degree = .fail w ↔
      ∃ i, widths[i]? = some w ∧ Overdraws degree widths i ∧
        ∀ j < i, ¬Overdraws degree widths j := by
  rcases Greedy.nil.extendChain hpos hle hwidths with ⟨out, hout, hgreedy⟩ |
    ⟨front, v, t, hprefix, hgreedy, hcount, hfail⟩
  · -- Everything was served, so no request is too much.
    have hok : largestPrimes widths degree = .ok (out.reverse.map Prod.snd) := by
      rw [largestPrimes, hout]
      rfl
    rw [List.nil_append] at hgreedy
    refine ⟨.inl ⟨_, hok⟩, ?_, ?_⟩
    · intro ps hps
      obtain ⟨hnodup, hall⟩ := largestPrimes_spec hps
      obtain rfl := Except.ok.inj (hok.symm.trans hps)
      exact ⟨hall.length_eq.symm, hnodup, fun i w p hw hp => hgreedy.rank hw hp⟩
    · intro w
      rw [hok]
      refine iff_of_false ok_ne_fail ?_
      rintro ⟨i, hi, hover, -⟩
      exact hgreedy.not_overdraws List.prefix_rfl (List.getElem?_eq_some_iff.1 hi).1 hover
  · have herror : largestPrimes widths degree = .fail v := by
      rw [largestPrimes, hfail]
      rfl
    rw [List.nil_append] at hprefix
    obtain ⟨back, rfl⟩ := hprefix
    -- The request behind those that were served is the first one that is too much.
    have hget : (front ++ [v] ++ back)[front.length]? = some v := by simp
    have hover : Overdraws degree (front ++ [v] ++ back) front.length := by
      refine ⟨v, hget, ?_⟩
      rw [List.take_append_of_le_length (by simp), List.take_of_length_le (by simp),
        List.count_append, List.count_singleton_self, hcount]
      exact Nat.lt_succ_self _
    have hfirst (j : ℕ) (hj : j < front.length) : ¬Overdraws degree (front ++ [v] ++ back) j := by
      rw [List.append_assoc]
      exact hgreedy.not_overdraws (List.prefix_append _ _) hj
    refine ⟨.inr ⟨v, herror⟩, fun ps hps => absurd (hps.symm.trans herror) ok_ne_fail, ?_⟩
    intro w
    rw [herror, fail_eq_fail_iff]
    constructor
    · rintro rfl
      exact ⟨front.length, hget, hover, hfirst⟩
    · rintro ⟨i, hi, hiover, hifirst⟩
      obtain rfl : i = front.length := by
        rcases Nat.lt_trichotomy i front.length with hlt | heq | hgt
        · exact absurd hiover (hfirst i hlt)
        · exact heq
        · exact absurd hover (hifirst _ hgt)
      exact Option.some.inj (hget.symm.trans hi)

/-- Modulo 16 there are two friendly words of seven bits, and requests for another width in between
change nothing. -/
theorem largestPrimes_greedy_sixteen :
    largestPrimes [7, 5, 7] 8 = .ok [113, 17, 97] ∧ (97 : UInt64) ∈ supply 8 7 ∧
      {q | q ∈ supply 8 7 ∧ 97 < q}.ncard = 1 ∧ largestPrimes [7, 5, 7, 7] 8 = .fail 7 ∧
      ∃ i : ℕ, ([7, 5, 7, 7] : List UInt32)[i]? = some 7 ∧ Overdraws 8 [7, 5, 7, 7] i ∧
        ∀ j < i, ¬Overdraws 8 [7, 5, 7, 7] j := by
  have hok : largestPrimes [7, 5, 7] 8 = .ok [113, 17, 97] := rfl
  have hfail : largestPrimes [7, 5, 7, 7] 8 = .fail 7 := rfl
  have hone : 1 ≤ (8 : UInt64).toNat := by decide
  have hsmall : (8 : UInt64).toNat ≤ 2 ^ 62 := show 8 ≤ 2 ^ 62 by omega
  have hthree : ∀ w ∈ ([7, 5, 7] : List UInt32), 1 ≤ w.toNat ∧ w.toNat ≤ 63 := by simp
  have hfour : ∀ w ∈ ([7, 5, 7, 7] : List UInt32), 1 ≤ w.toNat ∧ w.toNat ≤ 63 := by simp
  obtain ⟨-, hchain, -⟩ := largestPrimes_greedy hone hsmall hthree
  obtain ⟨-, -, hrank⟩ := hchain _ hok
  obtain ⟨hmem, hncard⟩ := hrank 2 7 97 rfl rfl
  obtain ⟨-, -, hexhausted⟩ := largestPrimes_greedy hone hsmall hfour
  exact ⟨hok, hmem, hncard, hfail, (hexhausted 7).1 hfail⟩

end EncryptedArithmetic.Modular

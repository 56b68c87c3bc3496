import EncryptedArithmetic.Proofs.Ring.Guarded
import Mathlib.GroupTheory.OrderOfElement

/-!
# Automorphisms as a scatter

The coefficients after `X -> X ^ k` can be listed from either end. Place by place, each is fetched
from where it comes from, for which `substitute` takes the inverse of `k`. Entry by entry, each is
written into a vector of zeros: entry `i` goes to the place `i * k` modulo `2 * n`, and from `n` on
its negative goes to the place `n` below. Both ways list the same vector. Every place is written at
least once, and what is written there is, each time, the coefficient that belongs there.

The product `i * k` is formed in words. Up to degree `2 ^ 31` it is a word. Where it is not, it may
wrap, since a power of two divides `2 ^ 64` and the remainder modulo `2 * n` stays what it is.

## Main definitions

* `wrappedPlace?` and `checkedPlace?`: the place of an entry in words, with a product that wraps and
  with one that is guarded.
* `scatter?`: the loop over the entries.
* `automorphismGuarded?`: the automorphism by that loop.

## Main results

* `put?_eq_ok`: one entry goes where `substitute` has it.
* `scatter?_eq_ok`: the loop lists what `substitute` lists.
* `automorphismGuarded?_wrappedPlace?`, `automorphismGuarded?_checkedPlace?`: the automorphism, with
  either product.
-/

namespace EncryptedArithmetic

/-! ## The degree of a table -/

namespace RootTable

variable {t : RootTable}

/-- Twice the degree is the order of `psi`, so it divides that of the group of units. -/
theorem Sound.two_mul_degree_dvd (ht : t.Sound) : 2 * t.degree ∣ t.prime.toNat - 1 := by
  have : Fact t.prime.toNat.Prime := ⟨ht.prime⟩
  have hroot := ht.root_pow_degree
  have hne : t.root ≠ 0 := by
    rintro hzero
    rw [hzero, zero_pow ht.degree_ne_zero] at hroot
    exact one_ne_zero (neg_eq_zero.1 hroot.symm)
  have hminus : ¬t.root ^ 2 ^ t.degree.log2 = 1 := by
    rw [← ht.degree_eq, hroot]
    intro heq
    exact ht.isUnit_two.ne_zero (by linear_combination -heq)
  have hone : t.root ^ 2 ^ (t.degree.log2 + 1) = 1 := by
    rw [pow_succ, pow_mul, ← ht.degree_eq, hroot, neg_one_sq]
  have horder : orderOf t.root = 2 * t.degree := by
    rw [orderOf_eq_prime_pow hminus hone, pow_succ', ← ht.degree_eq]
  exact horder ▸ orderOf_dvd_of_pow_eq_one (ZMod.pow_card_sub_one_eq_one hne)

theorem Sound.two_mul_degree_lt (ht : t.Sound) : 2 * t.degree < UInt64.size := by
  have hle := Nat.le_of_dvd (Nat.sub_pos_of_lt ht.prime.one_lt) ht.two_mul_degree_dvd
  have hlt : t.prime.toNat < UInt64.size := t.prime.toNat_lt
  omega

end RootTable

namespace ResiduePoly

variable {n k : ℕ} {place? : ℕ → Except Fault ℕ} {p x : UInt64} {xs out : List UInt64} {i : ℕ}

/-! ## The loop -/

/-- Writes one entry. -/
def write? (i : ℕ) (x : UInt64) (out : List UInt64) : Except Fault (List UInt64) :=
  if i < out.length then .ok (out.set i x) else .error .outOfRange

/-- Writes the entry with index `i` to its place, or its negative to the place `n` below. -/
def put? (place? : ℕ → Except Fault ℕ) (n : ℕ) (p : UInt64) (out : List UInt64)
    (entry : UInt64 × ℕ) : Except Fault (List UInt64) := do
  let place ← place? entry.2
  if place < n then write? place entry.1 out
  else write? (place - n) (← Modular.sub? 0 entry.1 p) out

/-- Writes every entry to its place, one after the other. -/
def scatter? (place? : ℕ → Except Fault ℕ) (n : ℕ) (p : UInt64) (xs out : List UInt64) :
    Except Fault (List UInt64) :=
  xs.zipIdx.foldlM (put? place? n p) out

/-- A rule that gives every entry its place. -/
def Places (place? : ℕ → Except Fault ℕ) (n k : ℕ) : Prop :=
  ∀ i < n, place? i = .ok (i * k % (2 * n))

/-- The entries before `count` stand where `substitute` has them. -/
structure Placed (n k : ℕ) (p : UInt64) (xs : List UInt64) (count : ℕ) (out : List UInt64) :
    Prop where
  length_eq : out.length = n
  getElem?_eq : ∀ i < count, out[i * k % n]? = (substitute n k p xs)[i * k % n]?

theorem length_substitute : (substitute n k p xs).length = n := by
  rw [substitute, List.length_map, List.length_range]

section Loop

variable (hk : Odd k) {d : ℕ} (hn : n = 2 ^ d) (hplace : Places place? n k) (hlen : xs.length = n)
  (hx : ∀ x ∈ xs, x < p)
include hk hn hplace hlen hx

/-- One entry goes where `substitute` has it. -/
theorem put?_eq_ok (hxi : xs[i]? = some x) (hout : out.length = n) :
    ∃ y, (substitute n k p xs)[i * k % n]? = some y ∧
      put? place? n p out (x, i) = .ok (out.set (i * k % n) y) := by
  have hi : i < n := hlen ▸ (List.getElem?_eq_some_iff.1 hxi).1
  have hwrite (j : ℕ) (hj : j < n) (y : UInt64) : write? j y out = .ok (out.set j y) :=
    if_pos (hout.symm ▸ hj)
  have hget := getElem?_substitute (p := p) hk hn hi hxi
  have hmod : i * k % n = i * k % (2 * n) % n := (Nat.mod_mod_of_dvd _ (Nat.dvd_mul_left n 2)).symm
  have hlt : i * k % (2 * n) < 2 * n := Nat.mod_lt _ (by omega)
  rw [put?, hplace i hi, ok_bind, hmod]
  generalize i * k % (2 * n) = j at hget hlt ⊢
  split at hget
  · rename_i hj
    rw [if_pos hj, Nat.mod_eq_of_lt hj]
    exact ⟨x, hget, hwrite j hj x⟩
  · rename_i hj
    have hsub : j % n = j - n := by
      rw [Nat.mod_eq_sub_mod (not_lt.1 hj), Nat.mod_eq_of_lt (by omega)]
    rw [if_neg hj, Modular.sub?_eq_ok (hx x (List.mem_of_getElem? hxi)), ok_bind, hsub]
    exact ⟨_, hget, hwrite (j - n) (by omega) _⟩

/-- The entry that is next joins those that have been placed. -/
theorem Placed.put? (h : Placed n k p xs i out) (hxi : xs[i]? = some x) :
    ∃ out', put? place? n p out (x, i) = .ok out' ∧ Placed n k p xs (i + 1) out' := by
  obtain ⟨y, hy, hput⟩ := put?_eq_ok hk hn hplace hlen hx hxi h.length_eq
  refine ⟨_, hput, (List.length_set ..).trans h.length_eq, fun j hj => ?_⟩
  have hbound : i * k % n < out.length := by
    rw [h.length_eq]
    exact Nat.mod_lt _ (hn ▸ Nat.two_pow_pos d)
  by_cases heq : i * k % n = j * k % n
  · -- A place that is written again holds the coefficient that belongs there, as before.
    rw [← heq, List.getElem?_set_self hbound, hy]
  · have hne : j ≠ i := fun hji => heq (by rw [hji])
    rw [List.getElem?_set_ne heq, h.getElem?_eq j (by omega)]

/-- The loop over the entries from `count` on places all of them. -/
theorem Placed.foldlM {count : ℕ} (hcount : count ≤ n) (h : Placed n k p xs count out) :
    ∃ out', ((xs.drop count).zipIdx count).foldlM (ResiduePoly.put? place? n p) out = .ok out' ∧
      Placed n k p xs n out' := by
  induction hrest : n - count generalizing count out with
  | zero =>
    obtain rfl : count = n := by omega
    refine ⟨out, ?_, h⟩
    rw [List.drop_eq_nil_of_le hlen.le]
    rfl
  | succ rest ih =>
    have hlt : count < xs.length := by omega
    obtain ⟨out₁, hput, hplaced⟩ := h.put? hk hn hplace hlen hx (List.getElem?_eq_getElem hlt)
    obtain ⟨out₂, hfold, hall⟩ := ih (by omega) hplaced (by omega)
    refine ⟨out₂, ?_, hall⟩
    rw [List.drop_eq_getElem_cons hlt, List.zipIdx_cons, List.foldlM_cons, hput, ok_bind, hfold]

omit hplace hlen hx in
/-- Once all entries are placed, the vector is the one that `substitute` lists. -/
theorem Placed.eq_substitute (h : Placed n k p xs n out) : out = substitute n k p xs := by
  apply List.ext_getElem?
  intro j
  rcases lt_or_ge j n with hj | hj
  · -- Every place is that of some entry.
    have hinverse : inverseElement n k * k ≡ 1 [MOD n] :=
      (inverseElement_mul_modEq_one hk hn).of_dvd (Nat.dvd_mul_left n 2)
    have hentry := h.getElem?_eq (j * inverseElement n k % n)
      (Nat.mod_lt _ (Nat.zero_lt_of_lt hj))
    rwa [NegacyclicRing.mul_mod_mul_mod hinverse hj] at hentry
  · rw [List.getElem?_eq_none (h.length_eq.trans_le hj),
      List.getElem?_eq_none (length_substitute.trans_le hj)]

/-- The loop lists what `substitute` lists, whatever was in the vector before. -/
theorem scatter?_eq_ok (hout : out.length = n) :
    scatter? place? n p xs out = .ok (substitute n k p xs) := by
  have hstart : Placed n k p xs 0 out := ⟨hout, fun i hi => absurd hi (Nat.not_lt_zero i)⟩
  obtain ⟨out', hfold, hall⟩ := hstart.foldlM hk hn hplace hlen hx (Nat.zero_le n)
  rw [scatter?, ← hall.eq_substitute hk hn]
  exact hfold

end Loop

/-! ## Places in words -/

/-- The place of an entry, by a product that wraps past the largest word. -/
def wrappedPlace? (n k i : ℕ) : Except Fault ℕ :=
  .ok (i.toUInt64 * k.toUInt64 % (2 * n).toUInt64).toNat

/-- The place of an entry, by a product that has to be a word. -/
def checkedPlace? (n k i : ℕ) : Except Fault ℕ :=
  if i * k < UInt64.size then .ok (i * k % (2 * n)) else .error .overflow

/-- Where the product wraps, it keeps its remainder modulo a power of two that is a word. -/
theorem places_wrappedPlace? {d : ℕ} (hn : n = 2 ^ d) (hsize : 2 * n < UInt64.size)
    (hk : k < 2 * n) : Places (wrappedPlace? n k) n k := by
  intro i hi
  have hdvd : 2 * n ∣ 2 ^ 64 := by
    rw [hn, ← pow_succ'] at hsize ⊢
    exact pow_dvd_pow 2 ((Nat.pow_lt_pow_iff_right one_lt_two).1 hsize).le
  have hnat {m : ℕ} (hm : m ≤ 2 * n) : m.toUInt64.toNat = m :=
    UInt64.toNat_ofNat_of_lt' (hm.trans_lt hsize)
  rw [wrappedPlace?, UInt64.toNat_mod, UInt64.toNat_mul, hnat hk.le, hnat (by omega), hnat le_rfl,
    Nat.mod_mod_of_dvd _ hdvd]

/-- Up to degree `2 ^ 31` the product is a word. -/
theorem places_checkedPlace? (hn : n ≤ 2 ^ 31) (hk : k < 2 * n) :
    Places (checkedPlace? n k) n k := by
  intro i hi
  have hproduct : i * k < 2 ^ 31 * (2 * 2 ^ 31) :=
    Nat.mul_lt_mul'' (hi.trans_le hn) (hk.trans_le (Nat.mul_le_mul_left 2 hn))
  exact if_pos (hproduct.trans (by decide))

/-! ## The automorphism -/

/-- The image under `X -> X ^ k` by the loop over the entries, as long as every difference is a
word. -/
def automorphismGuarded? (place? : ℕ → ℕ → ℕ → Except Fault ℕ) (k : ℕ) (a : ResiduePoly) :
    Except Fault ResiduePoly :=
  if k % 2 = 1 ∧ k < 2 * a.degree then do
    let work ← a.toCoefficient?
    let channels ← work.channels.mapM fun c => c.update? fun xs =>
      scatter? (place? a.degree k) a.degree c.prime xs (List.replicate a.degree 0)
    toForm? a.form { work with channels }
  else .error .badGaloisElement

section Sound

variable {moduli : List RootTable} {form : Form} {a : ResiduePoly}
  (hm : ∀ t ∈ moduli, t.Sound) (hn : ∀ t ∈ moduli, t.degree = n) (ha : a.Over moduli form)
include hm hn ha

theorem automorphismGuarded?_eq {place? : ℕ → ℕ → ℕ → Except Fault ℕ}
    (hplace : moduli ≠ [] → k < 2 * n → Places (place? n k) n k) :
    a.automorphismGuarded? place? k = a.automorphism? k := by
  rw [automorphismGuarded?, automorphism?]
  split
  swap
  · rfl
  rename_i hguard
  have hne := ha.ne_nil_of_lt_degree hguard.2
  have hdegree : a.degree = n := ha.degree_eq hn hne
  have hplaces := hplace hne (hdegree ▸ hguard.2)
  obtain ⟨work, hwork, how, -⟩ := exists_toCoefficient? hm ha
  -- Residues are below their prime, so every difference of the loop is a word.
  have hchannel (c : Channel) (hc : c ∈ work.channels) :
      (c.update? fun xs =>
        scatter? (place? a.degree k) a.degree c.prime xs (List.replicate a.degree 0)) =
        .ok { c with residues := substitute a.degree k c.prime c.residues } := by
    obtain ⟨i, t, ht, rfl⟩ := how.exists_of_mem hc
    have hmem := List.mem_of_getElem? ht
    have hscatter : scatter? (place? n k) n t.prime (work.row i) (List.replicate n 0) =
        .ok (substitute n k t.prime (work.row i)) :=
      scatter?_eq_ok (Nat.odd_iff.2 hguard.1) (hn t hmem ▸ (hm t hmem).degree_eq) hplaces
        ((how.reduced ht).length.trans (hn t hmem)) (how.reduced ht).lt List.length_replicate
    simp only [Channel.update?, Channel.prime, hdegree, hscatter, ok_bind, pure_eq_ok]
  rw [hwork, ok_bind, ok_bind, mapM_eq_ok_map hchannel, ok_bind]

/-- With a product that wraps the loop computes the automorphism, at every degree. -/
theorem automorphismGuarded?_wrappedPlace? :
    a.automorphismGuarded? wrappedPlace? k = a.automorphism? k := by
  refine automorphismGuarded?_eq hm hn ha fun hne => ?_
  obtain ⟨t, ht⟩ := List.exists_mem_of_ne_nil moduli hne
  exact places_wrappedPlace? (hn t ht ▸ (hm t ht).degree_eq)
    (hn t ht ▸ (hm t ht).two_mul_degree_lt)

/-- Up to degree `2 ^ 31` the guard of the product never matters either. -/
theorem automorphismGuarded?_checkedPlace? (hdegree : n ≤ 2 ^ 31) :
    a.automorphismGuarded? checkedPlace? k = a.automorphism? k :=
  automorphismGuarded?_eq hm hn ha fun _ => places_checkedPlace? hdegree

end Sound

end ResiduePoly

end EncryptedArithmetic

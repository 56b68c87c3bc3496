import EncryptedArithmetic.Proofs.Ring.Rows
import EncryptedArithmetic.Proofs.Ring.Schoolbook

/-!
# Primes beyond half of the words

A table can be built for every friendly prime that is a word. Products are taken in the integers and
are right for all of these primes. Two operations are not. The conversion of signed coefficients
reads the prime as a signed word, so from `2 ^ 63` on it reduces by the distance of the prime to
`2 ^ 64`; and the sum of two residues is a word for all residues only as long as twice the prime is
one. Both are right for all arguments exactly if the primes are below `2 ^ 63`.

## Main definitions

* `signedModulus`: what signed coefficients are reduced by.
* `ConvertsSigned` and `AddsReduced`: the two operations are right for all arguments.

## Main results

* `toNat_signedResidue`: the conversion of one coefficient, for every word.
* `Over.add?_eq_overflow_iff` and `Over.exists_add?_of_fits`: the sum of two polynomials, for every
  modulus.
* `wordRange_of_build`: both operations over the tables that `RootTable.build` answers.
-/

namespace EncryptedArithmetic

open EncryptedArithmetic.Modular

/-! ## Signed coefficients -/

namespace ResiduePoly

variable {p : UInt64}

/-- What signed coefficients are reduced by: the prime, or from `2 ^ 63` on its distance to
`2 ^ 64`. -/
def signedModulus (p : UInt64) : ℕ :=
  min p.toNat (UInt64.size - p.toNat)

/-- A prime from `2 ^ 63` on is negative as a signed word. -/
theorem toInt_toInt64_of_le (hp : 2 ^ 63 ≤ p.toNat) :
    p.toInt64.toInt = (p.toNat : ℤ) - UInt64.size := by
  change p.toBitVec.toInt = (p.toBitVec.toNat : ℤ) - UInt64.size
  have hge : ¬2 * p.toBitVec.toNat < 2 ^ 64 := by
    change ¬2 * p.toNat < 2 ^ 64
    omega
  rw [BitVec.toInt_eq_toNat_cond, if_neg hge]

/-- The conversion of a coefficient, whatever the modulus is. -/
theorem toNat_signedResidue (hp : 0 < p) (c : ℤ) :
    ((signedResidue p c).toNat : ℤ) = c % (signedModulus p : ℤ) := by
  have hsize : UInt64.size = 2 ^ 64 := rfl
  have hword := p.toNat_lt
  have hpos : 0 < p.toNat := UInt64.lt_iff_toNat_lt.1 hp
  have hmod : c % p.toInt64.toInt = c % (signedModulus p : ℤ) := by
    rcases Nat.lt_or_ge p.toNat (2 ^ 63) with hlt | hge
    · rw [toInt_toInt64 hlt, signedModulus, min_eq_left (by omega)]
    · -- The remainder by a negative number is that by the opposite one.
      rw [toInt_toInt64_of_le hge, signedModulus, min_eq_right (by omega),
        Nat.cast_sub (Nat.le_of_lt hword), ← Int.emod_neg, neg_sub]
  have hmodulus : 0 < signedModulus p := lt_min hpos (Nat.sub_pos_of_lt hword)
  have hle : signedModulus p ≤ p.toNat := min_le_left _ _
  have hnonneg := Int.emod_nonneg c (Int.natCast_ne_zero.2 hmodulus.ne')
  have hlt := Int.emod_lt_of_pos c (Int.natCast_pos.2 hmodulus)
  rw [signedResidue, hmod, UInt64.toNat_ofNat_of_lt' (by omega), Int.toNat_of_nonneg hnonneg]

/-- What is stored for a coefficient is below the modulus. -/
theorem signedResidue_lt (hp : 0 < p) (c : ℤ) : signedResidue p c < p := by
  have hpos : 0 < p.toNat := UInt64.lt_iff_toNat_lt.1 hp
  have hmodulus : (0 : ℤ) < signedModulus p :=
    Int.natCast_pos.2 (lt_min hpos (Nat.sub_pos_of_lt p.toNat_lt))
  have hle : signedModulus p ≤ p.toNat := min_le_left _ _
  have hlt := Int.emod_lt_of_pos c hmodulus
  rw [← toNat_signedResidue hp] at hlt
  rw [UInt64.lt_iff_toNat_lt]
  omega

/-- From `2 ^ 63` on minus one is not stored as its residue. The distance to `2 ^ 64` is the prime
itself only at `2 ^ 63`, which the remainder modulo four excludes. -/
theorem neg_one_emod_signedModulus_ne (hmod : p.toNat % 4 = 1) (hp : 2 ^ 63 ≤ p.toNat) :
    -1 % (signedModulus p : ℤ) ≠ -1 % (p.toNat : ℤ) := by
  have hsize : UInt64.size = 2 ^ 64 := rfl
  have hword := p.toNat_lt
  have hmodulus : signedModulus p = 2 ^ 64 - p.toNat := min_eq_right (by omega)
  have hneg {m : ℕ} (hm : 0 < m) : (-1 : ℤ) % m = m - 1 := by
    have hshift : (-1 : ℤ) = m - 1 + m * -1 := by ring
    rw [hshift, Int.add_mul_emod_self_left, Int.emod_eq_of_lt (by omega) (by omega)]
  rw [hneg (by omega), hneg (by omega), hmodulus]
  omega

variable {moduli : List RootTable} {form : Form} {n : ℕ} {a b : ResiduePoly}

/-- Integer coefficients are stored in every channel, whatever the moduli are. -/
theorem exists_ofSigned?_of_pos (hpos : ∀ t ∈ moduli, 0 < t.prime)
    (hn : ∀ t ∈ moduli, t.degree = n) (hne : moduli ≠ []) {cs : List ℤ} (hlen : cs.length = n) :
    ∃ a, ofSigned? cs moduli = .ok a ∧ a.Over moduli .coefficient ∧
      ∀ i t, moduli[i]? = some t → ∀ k < n,
        a.entry i k = cs.getD k 0 % (signedModulus t.prime : ℤ) := by
  have hover : (ofTables .coefficient moduli fun t => cs.map (signedResidue t.prime)).Over moduli
      .coefficient := by
    refine over_ofTables fun t ht => ⟨by rw [List.length_map, hlen, hn t ht], fun x hx => ?_⟩
    obtain ⟨c, -, rfl⟩ := List.mem_map.1 hx
    exact signedResidue_lt (hpos t ht) c
  refine ⟨_, ofSigned?_eq_ok hn hne hlen, hover, ?_⟩
  intro i t ht k hk
  rw [entry, row_ofTables ht, List.getD_eq_getElem _ _ (by simpa [hlen] using hk),
    List.getElem_map, toNat_signedResidue (hpos t (List.mem_of_getElem? ht)),
    List.getD_eq_getElem _ _ (hlen ▸ hk)]

/-! ## Sums -/

/-- The sums of the entries in the channel at a position are words. -/
theorem allPairs_sumFits_iff (ha : a.Over moduli form) (hb : b.Over moduli form) {i : ℕ}
    {t : RootTable} (ht : moduli[i]? = some t) :
    allPairs sumFits (a.row i) (b.row i) ↔
      ∀ k < t.degree, a.entry i k + b.entry i k < UInt64.size := by
  -- Positions in a row are the indices below the degree, and the entry is the word there.
  have hentry {c : ResiduePoly} (hc : c.Over moduli form) {k : ℕ} {x : UInt64}
      (hx : (c.row i)[k]? = some x) : k < t.degree ∧ c.entry i k = x.toNat := by
    refine ⟨(hc.reduced ht).length ▸ (List.getElem?_eq_some_iff.1 hx).1, ?_⟩
    rw [entry, List.getD_eq_getElem?_getD, hx, Option.getD_some]
  rw [allPairs_iff]
  constructor
  · intro h k hk
    have hx := List.getElem?_eq_getElem ((ha.reduced ht).length.symm ▸ hk)
    have hy := List.getElem?_eq_getElem ((hb.reduced ht).length.symm ▸ hk)
    have hfits := sumFits_iff.1 (h k _ _ hx hy)
    rw [(hentry ha hx).2, (hentry hb hy).2]
    exact_mod_cast hfits
  · intro h k x y hx hy
    have hfits := h k (hentry ha hx).1
    rw [(hentry ha hx).2, (hentry hb hy).2] at hfits
    exact sumFits_iff.2 (by exact_mod_cast hfits)

/-- Sums of reduced vectors over any modulus, where all of them are words. -/
theorem exists_addEach?_of_fits {m : UInt64} {xs ys : List UInt64} (hx : Reduced m n xs)
    (hy : Reduced m n ys) (hfits : allPairs sumFits xs ys) :
    ∃ zs, addEach? m xs ys = .ok zs ∧ Reduced m n zs ∧ ∀ k < n,
      (zs.getD k 0).toNat = ((xs.getD k 0).toNat + (ys.getD k 0).toNat) % m.toNat := by
  have hlen : (xs.zipWith (add · · m) ys).length = n := by
    rw [List.length_zipWith, hx.length, hy.length, min_self]
  -- Every sum is a word, so it is reduced as the sum of the integers.
  have hsum (k : ℕ) (hk : k < n) : ∃ x y, xs[k]? = some x ∧ ys[k]? = some y ∧
      (xs.zipWith (add · · m) ys)[k]? = some (add x y m) ∧ m > 0 ∧
      (add x y m).toNat = (x.toNat + y.toNat) % m.toNat := by
    have hxk := List.getElem?_eq_getElem (hx.length.symm ▸ hk)
    have hyk := List.getElem?_eq_getElem (hy.length.symm ▸ hk)
    have hxm := hx.lt _ (List.mem_of_getElem? hxk)
    exact ⟨_, _, hxk, hyk, List.getElem?_zipWith_eq_some.2 ⟨_, _, hxk, hyk, rfl⟩, pos_of_lt hxm,
      toNat_add_of_sumFits hxm (hy.lt _ (List.mem_of_getElem? hyk))
        (allPairs_iff.1 hfits k _ _ hxk hyk)⟩
  refine ⟨_, if_pos hfits, ⟨hlen, ?_⟩, ?_⟩
  · intro z hz
    obtain ⟨k, hk⟩ := List.getElem?_of_mem hz
    obtain ⟨x, y, -, -, hadd, hpos, hvalue⟩ :=
      hsum k (hlen ▸ (List.getElem?_eq_some_iff.1 hk).1)
    obtain rfl := Option.some.inj (hk.symm.trans hadd)
    exact lt_of_toNat_eq_mod hpos hvalue
  · intro k hk
    obtain ⟨x, y, hxk, hyk, hadd, -, hvalue⟩ := hsum k hk
    simp only [List.getD_eq_getElem?_getD, hxk, hyk, hadd, Option.getD_some, hvalue]

/-- Where all sums are words the sum of two polynomials exists, and its entries are the residues of
the sums. -/
theorem Over.exists_add?_of_fits (ha : a.Over moduli form) (hb : b.Over moduli form)
    (hfits : ∀ i t, moduli[i]? = some t → ∀ k < t.degree,
      a.entry i k + b.entry i k < UInt64.size) :
    ∃ c, a.add? b = .ok c ∧ c.Over moduli form ∧ ∀ i t, moduli[i]? = some t → ∀ k < t.degree,
      c.entry i k = (a.entry i k + b.entry i k) % t.prime.toNat := by
  obtain ⟨c, hc, hover, hrow⟩ := exists_combine? (f := addEach?)
    (P := fun t xs ys zs => ∀ k < t.degree,
      (zs.getD k 0).toNat = ((xs.getD k 0).toNat + (ys.getD k 0).toNat) % t.prime.toNat)
    (fun i t ht => exists_addEach?_of_fits (ha.reduced ht) (hb.reduced ht)
      ((allPairs_sumFits_iff ha hb ht).2 (hfits i t ht))) ha hb
  refine ⟨c, by rw [add?, ha.compatible? hb, ok_bind, hc], hover, fun i t ht k hk => ?_⟩
  rw [entry, entry, entry, hrow i t ht k hk]
  norm_cast

/-- One sum that is no word ends the sum of two polynomials. -/
theorem Over.add?_eq_overflow (ha : a.Over moduli form) (hb : b.Over moduli form) {i : ℕ}
    {t : RootTable} (ht : moduli[i]? = some t) {k : ℕ} (hk : k < t.degree)
    (hsum : UInt64.size ≤ a.entry i k + b.entry i k) : a.add? b = .error .overflow := by
  have hpairs : ¬allPairs sumFits (a.row i) (b.row i) := fun h =>
    absurd ((allPairs_sumFits_iff ha hb ht).1 h k hk) (not_lt.2 hsum)
  have hchannel : Channel.combine? addEach? ⟨t, a.row i⟩ ⟨t, b.row i⟩ = .error .overflow := by
    rw [Channel.combine?, Channel.update?, addEach?, if_neg hpairs, error_bind]
  have hpair : (a.channels.zip b.channels)[i]? = some (⟨t, a.row i⟩, ⟨t, b.row i⟩) :=
    List.getElem?_zip_eq_some.2 ⟨ha.getElem?_eq ht, hb.getElem?_eq ht⟩
  have hchannels : (a.channels.zip b.channels).mapM (fun e => e.1.combine? addEach? e.2) =
      .error .overflow := by
    rcases hcs : (a.channels.zip b.channels).mapM (fun e => e.1.combine? addEach? e.2) with e | cs
    · -- No other fault comes up in a sum of channels.
      obtain ⟨pair, -, hfault⟩ := exists_of_mapM_eq_error hcs
      rw [Channel.combine?, Channel.update?, addEach?] at hfault
      split at hfault <;> cases hfault
      exact hcs
    · -- An answer would have a channel at this position, too.
      obtain ⟨c, hc⟩ : ∃ c, cs[i]? = some c := by
        have hlen := length_of_mapM_eq_ok hcs
        exact ⟨_, List.getElem?_eq_getElem (hlen ▸ (List.getElem?_eq_some_iff.1 hpair).1)⟩
      cases hchannel.symm.trans (getElem?_of_mapM_eq_ok hcs hpair hc)
  rw [add?, ha.compatible? hb, ok_bind, combine?]
  show ((a.channels.zip b.channels).mapM (fun e => e.1.combine? addEach? e.2) >>= _) = _
  rw [hchannels, error_bind]

/-- The sum of two polynomials overflows exactly if some sum of their entries is no word. -/
theorem Over.add?_eq_overflow_iff (ha : a.Over moduli form) (hb : b.Over moduli form) :
    a.add? b = .error .overflow ↔ ∃ i t k, moduli[i]? = some t ∧ k < t.degree ∧
      UInt64.size ≤ a.entry i k + b.entry i k := by
  constructor
  · intro hoverflow
    by_contra! hfits
    obtain ⟨c, hc, -⟩ := ha.exists_add?_of_fits hb fun i t ht k hk => hfits i t k ht hk
    cases hoverflow.symm.trans hc
  · rintro ⟨i, t, k, ht, hk, hsum⟩
    exact ha.add?_eq_overflow hb ht hk hsum

/-- The polynomial with the largest residue in every place. -/
def largest (moduli : List RootTable) : ResiduePoly :=
  ofTables .coefficient moduli fun t => List.replicate t.degree (t.prime - 1)

theorem over_largest (hpos : ∀ t ∈ moduli, 0 < t.prime) :
    (largest moduli).Over moduli .coefficient :=
  over_ofTables fun t ht => .replicate (pred_lt (hpos t ht)) _

theorem entry_largest {i k : ℕ} {t : RootTable} (hpos : 0 < t.prime) (ht : moduli[i]? = some t)
    (hk : k < t.degree) : (largest moduli).entry i k = t.prime.toNat - 1 := by
  have hone : 1 ≤ t.prime.toNat := UInt64.lt_iff_toNat_lt.1 hpos
  rw [entry, largest, row_ofTables ht, List.getD_eq_getElem _ _ (by simpa using hk),
    List.getElem_replicate, toNat_pred hpos, Nat.cast_sub hone, Nat.cast_one]

/-! ## What the arithmetic can handle -/

/-- Every vector of signed words is stored as its residues. -/
def ConvertsSigned (moduli : List RootTable) (n : ℕ) : Prop :=
  ∀ cs : List ℤ, cs.length = n →
    (∀ c ∈ cs, Int64.minValue.toInt ≤ c ∧ c ≤ Int64.maxValue.toInt) →
    ∃ a, ofSigned? cs moduli = .ok a ∧ a.Over moduli .coefficient ∧
      ∀ i t, moduli[i]? = some t → ∀ k < n, a.entry i k = cs.getD k 0 % t.prime.toNat

/-- Any two polynomials with reduced residues have a sum, with the residues of the sums as
entries. -/
def AddsReduced (moduli : List RootTable) (n : ℕ) : Prop :=
  ∀ (a b : ResiduePoly) (form : Form), a.Over moduli form → b.Over moduli form →
    ∃ c, a.add? b = .ok c ∧ c.Over moduli form ∧ ∀ i t, moduli[i]? = some t → ∀ k < n,
      c.entry i k = (a.entry i k + b.entry i k) % t.prime.toNat

section Built

variable (htables : ∀ t ∈ moduli, ∃ p, RootTable.build p n = .ok t)
include htables

/-- What the checks of a table leave of its degree and its prime. -/
theorem spec_of_forall_build {t : RootTable} (ht : t ∈ moduli) :
    t.degree = n ∧ 0 < n ∧ t.prime.toNat % 4 = 1 := by
  obtain ⟨p, hp⟩ := htables t ht
  obtain ⟨hprime, hdegree⟩ := RootTable.prime_of_build hp
  obtain ⟨d, hn, -⟩ := RootTable.mod_of_build hp
  exact ⟨hdegree, hn ▸ Nat.two_pow_pos _, hprime ▸ RootTable.mod_four_of_build hp⟩

theorem prime_pos_of_forall_build {t : RootTable} (ht : t ∈ moduli) : 0 < t.prime := by
  have hmod := (spec_of_forall_build htables ht).2.2
  exact UInt64.lt_iff_toNat_lt.2 (Nat.pos_of_ne_zero fun hzero => by omega)

/-- The conversion is right exactly for primes below `2 ^ 63`. -/
theorem convertsSigned_iff (hne : moduli ≠ []) :
    ConvertsSigned moduli n ↔ ∀ t ∈ moduli, t.prime.toNat < 2 ^ 63 := by
  have hsize : UInt64.size = 2 ^ 64 := rfl
  have hstored {cs : List ℤ} (hlen : cs.length = n) := exists_ofSigned?_of_pos
    (fun t => prime_pos_of_forall_build htables) (fun t ht => (spec_of_forall_build htables ht).1)
    hne hlen
  constructor
  · intro h t ht
    by_contra hge
    obtain ⟨-, hdegree, hmod⟩ := spec_of_forall_build htables ht
    obtain ⟨i, hi⟩ := List.getElem?_of_mem ht
    -- Minus one is stored as something else.
    obtain ⟨a, ha, -, hright⟩ := h (List.replicate n (-1)) (List.length_replicate) fun c hc => by
      rw [List.eq_of_mem_replicate hc]
      decide
    obtain ⟨a', ha', -, hentry⟩ := hstored (List.length_replicate (n := n) (a := (-1 : ℤ)))
    obtain rfl := Except.ok.inj (ha.symm.trans ha')
    have hvalue := (hentry i t hi 0 hdegree).symm.trans (hright i t hi 0 hdegree)
    have hget : (List.replicate n (-1 : ℤ)).getD 0 0 = -1 := by
      simp [List.getD_eq_getElem?_getD, hdegree]
    rw [hget] at hvalue
    exact neg_one_emod_signedModulus_ne hmod (not_lt.1 hge) hvalue
  · intro h cs hlen _
    obtain ⟨a, ha, hover, hentry⟩ := hstored hlen
    refine ⟨a, ha, hover, fun i t ht k hk => ?_⟩
    have hlt := h t (List.mem_of_getElem? ht)
    rw [hentry i t ht k hk, signedModulus, min_eq_left (by omega)]

/-- Sums are right exactly for primes below `2 ^ 63`. -/
theorem addsReduced_iff :
    AddsReduced moduli n ↔ ∀ t ∈ moduli, t.prime.toNat < 2 ^ 63 := by
  have hsize : (UInt64.size : ℤ) = 2 ^ 64 := rfl
  constructor
  · intro h t ht
    by_contra hge
    obtain ⟨hdegree, hn, hmod⟩ := spec_of_forall_build htables ht
    obtain ⟨i, hi⟩ := List.getElem?_of_mem ht
    -- The largest residue twice is no word.
    have hover := over_largest fun u => prime_pos_of_forall_build htables (t := u)
    have hentry := entry_largest (prime_pos_of_forall_build htables ht) hi (hdegree.symm ▸ hn)
    obtain ⟨c, hc, -⟩ := h _ _ _ hover hover
    have hfault := hover.add?_eq_overflow hover hi (hdegree.symm ▸ hn) (by rw [hentry]; omega)
    cases hfault.symm.trans hc
  · intro h a b form ha hb
    obtain ⟨c, hc, hover, hentry⟩ := ha.exists_add?_of_fits hb fun i t ht k hk => by
      have hlt := h t (List.mem_of_getElem? ht)
      have hpos := prime_pos_of_forall_build htables (List.mem_of_getElem? ht)
      have hax := ha.entry_lt ht hpos k
      have hbx := hb.entry_lt ht hpos k
      omega
    exact ⟨c, hc, hover, fun i t ht k hk =>
      hentry i t ht k ((spec_of_forall_build htables (List.mem_of_getElem? ht)).1.symm ▸ hk)⟩

/-- What signed coefficients are divided by is neither zero, which has no remainders, nor minus one,
whose quotient with the least signed word is none. -/
theorem toInt64_of_forall_build {t : RootTable} (ht : t ∈ moduli) :
    t.prime.toInt64 ≠ 0 ∧ t.prime.toInt64 ≠ -1 := by
  have hmod := (spec_of_forall_build htables ht).2.2
  have hne {x : Int64} (hx : x.toUInt64.toNat % 4 ≠ 1) : t.prime.toInt64 ≠ x := by
    rintro rfl
    exact hx hmod
  exact ⟨hne (by decide), hne (by decide)⟩

/-- What the conversion of signed coefficients and the sum of polynomials do over the tables that
`RootTable.build` answers, whichever primes they are for. -/
theorem wordRange_of_build (hne : moduli ≠ []) :
    (ConvertsSigned moduli n ↔ ∀ t ∈ moduli, t.prime.toNat < 2 ^ 63) ∧
    (AddsReduced moduli n ↔ ∀ t ∈ moduli, t.prime.toNat < 2 ^ 63) ∧
    (∀ t ∈ moduli, t.prime.toInt64 ≠ 0 ∧ t.prime.toInt64 ≠ -1) ∧
    (∀ cs : List ℤ, cs.length = n → ∃ a, ofSigned? cs moduli = .ok a ∧
      a.Over moduli .coefficient ∧ ∀ i t, moduli[i]? = some t → ∀ k < n,
        a.entry i k = cs.getD k 0 % (signedModulus t.prime : ℤ)) ∧
    ∀ (a b : ResiduePoly) (form : Form), a.Over moduli form → b.Over moduli form →
      (a.add? b = .error .overflow ↔ ∃ i t k, moduli[i]? = some t ∧ k < n ∧
        UInt64.size ≤ a.entry i k + b.entry i k) ∧
      (a.add? b ≠ .error .overflow → ∃ c, a.add? b = .ok c ∧ c.Over moduli form ∧
        ∀ i t, moduli[i]? = some t → ∀ k < n,
          c.entry i k = (a.entry i k + b.entry i k) % t.prime.toNat) := by
  have hdegree {i : ℕ} {t : RootTable} (ht : moduli[i]? = some t) : t.degree = n :=
    (spec_of_forall_build htables (List.mem_of_getElem? ht)).1
  refine ⟨convertsSigned_iff htables hne, addsReduced_iff htables,
    fun t => toInt64_of_forall_build htables, fun cs hlen => ?_, fun a b form ha hb => ⟨?_, ?_⟩⟩
  · exact exists_ofSigned?_of_pos (fun t => prime_pos_of_forall_build htables)
      (fun t ht => (spec_of_forall_build htables ht).1) hne hlen
  · rw [ha.add?_eq_overflow_iff hb]
    constructor
    · rintro ⟨i, t, k, ht, hk, hsum⟩
      exact ⟨i, t, k, ht, hdegree ht ▸ hk, hsum⟩
    · rintro ⟨i, t, k, ht, hk, hsum⟩
      exact ⟨i, t, k, ht, (hdegree ht).symm ▸ hk, hsum⟩
  · intro hfault
    rw [Ne, ha.add?_eq_overflow_iff hb] at hfault
    push Not at hfault
    obtain ⟨c, hc, hover, hentry⟩ :=
      ha.exists_add?_of_fits hb fun i t ht k hk => hfault i t k ht hk
    exact ⟨c, hc, hover, fun i t ht k hk => hentry i t ht k ((hdegree ht).symm ▸ hk)⟩

end Built

/-- The largest prime of the words is friendly for degree two, and neither operation is right for
it: minus one is stored as `58`, as `58` itself is. -/
theorem wordRange_largestWordPrime : ∃ t, RootTable.build 18446744073709551557 2 = .ok t ∧
    ¬ConvertsSigned [t] 2 ∧ ¬AddsReduced [t] 2 ∧
    ∃ a, ofSigned? [-1, 58] [t] = .ok a ∧ a.entry 0 0 = 58 ∧ a.entry 0 1 = 58 := by
  have hok : (RootTable.build 18446744073709551557 2).isOk := by decide +kernel
  obtain ⟨t, ht⟩ := exists_eq_ok_of_isOk hok
  have htables : ∀ u ∈ [t], ∃ p, RootTable.build p 2 = .ok u := by
    intro u hu
    exact ⟨_, List.mem_singleton.1 hu ▸ ht⟩
  have hlarge : ¬∀ u ∈ [t], u.prime.toNat < 2 ^ 63 := by
    rw [List.forall_mem_singleton, (RootTable.prime_of_build ht).1]
    decide
  have hmodulus : signedModulus t.prime = 59 := by
    rw [(RootTable.prime_of_build ht).1]
    decide
  obtain ⟨hconverts, hadds, -, hstored, -⟩ := wordRange_of_build htables (List.cons_ne_nil t [])
  obtain ⟨a, ha, -, hentry⟩ := hstored [-1, 58] rfl
  refine ⟨t, ht, hlarge ∘ hconverts.1, hlarge ∘ hadds.1, a, ha, ?_, ?_⟩
  · rw [hentry 0 t rfl 0 (by decide), hmodulus]
    rfl
  · rw [hentry 0 t rfl 1 (by decide), hmodulus]
    rfl

end ResiduePoly

end EncryptedArithmetic

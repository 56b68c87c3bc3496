import EncryptedArithmetic.Proofs.Ring.Polynomial
import EncryptedArithmetic.Proofs.Ring.Table
import Mathlib.Tactic.NormNum.Prime

/-!
# Arithmetic in residue channels is that of the schoolbook

Over tables that were built for one degree `N`, a product taken in transformed form is, back in
coefficient form, the negacyclic product of the schoolbook in every channel. Sums, differences,
negation and integer multiples act entry by entry, and it makes no difference whether they are taken
before a change of form or after it.

## Main results

* `exists_product`: the product by way of the transform.
* `exists_linear` and `exists_linear_toForm?`: the linear operations and their exchange with a
  change of form.
* `arithmetic_of_build`: both for the tables that `RootTable.build` answers.
-/

namespace EncryptedArithmetic

open Polynomial EncryptedArithmetic.Modular

/-- The coefficient of `X ^ k` in the product of two polynomials of degree below `n`, where
`X ^ n = -1`. -/
def schoolbook (n : ℕ) (f g : ℕ → ℤ) (k : ℕ) : ℤ :=
  ∑ ij ∈ Finset.HasAntidiagonal.antidiagonal k, f ij.1 * g ij.2 -
    ∑ ij ∈ Finset.HasAntidiagonal.antidiagonal (k + n), f ij.1 * g ij.2

namespace ResiduePoly

/-- An entry of a channel, zero where there is none. -/
def entry (a : ResiduePoly) (i k : ℕ) : ℤ :=
  ((a.row i).getD k 0).toNat

variable {moduli : List RootTable} {form : Form} {a b c : ResiduePoly} {i : ℕ} {t : RootTable}

/-! ## Entries and their classes -/

theorem getD_classes (a : ResiduePoly) (i : ℕ) (t : RootTable) (k : ℕ) :
    (a.classes i t).getD k 0 = (a.entry i k : ZMod t.prime.toNat) := by
  rw [classes, getD_residues, entry, Int.cast_natCast, residue]

/-- Entries are reduced, also those past the end, which are zero. -/
theorem Over.entry_lt (ha : a.Over moduli form) (ht : moduli[i]? = some t) (hpos : 0 < t.prime)
    (k : ℕ) : a.entry i k < t.prime.toNat := by
  have hlt : (a.row i).getD k 0 < t.prime := by
    rcases lt_or_ge k (a.row i).length with hk | hk
    · rw [List.getD_eq_getElem _ _ hk]
      exact (ha.reduced ht).lt _ (List.getElem_mem hk)
    · rwa [List.getD_eq_default _ _ hk]
  exact Int.ofNat_lt.2 (UInt64.lt_iff_toNat_lt.1 hlt)

/-- An entry is the least non-negative integer of its class. -/
theorem entry_eq_emod (hpos : 0 < t.prime) (ha : a.Over moduli form) (ht : moduli[i]? = some t)
    {k : ℕ} {z : ℤ} (h : (a.classes i t).getD k 0 = (z : ZMod t.prime.toNat)) :
    a.entry i k = z % t.prime.toNat := by
  rw [getD_classes, ZMod.intCast_eq_intCast_iff'] at h
  exact (Int.emod_eq_of_lt (Int.natCast_nonneg _) (ha.entry_lt ht hpos k)).symm.trans h

theorem length_classes (ha : a.Over moduli form) (ht : moduli[i]? = some t) :
    (a.classes i t).length = t.degree :=
  (length_residues _ _).trans (ha.reduced ht).length

/-- What an operation on classes does to the entries. -/
theorem getD_zipWith_classes (ha : a.Over moduli form) (hb : b.Over moduli form)
    (ht : moduli[i]? = some t) (f : ZMod t.prime.toNat → ZMod t.prime.toNat → ZMod t.prime.toNat)
    {k : ℕ} (hk : k < t.degree) :
    ((a.classes i t).zipWith f (b.classes i t)).getD k 0 = f (a.entry i k) (b.entry i k) := by
  rw [← getD_classes, ← getD_classes]
  simp [List.getD_eq_getElem?_getD, length_classes ha ht, length_classes hb ht, hk]

theorem getD_map_classes (ha : a.Over moduli form) (ht : moduli[i]? = some t)
    (f : ZMod t.prime.toNat → ZMod t.prime.toNat) {k : ℕ} (hk : k < t.degree) :
    ((a.classes i t).map f).getD k 0 = f (a.entry i k) := by
  rw [← getD_classes]
  simp [List.getD_eq_getElem?_getD, length_classes ha ht, hk]

/-- Where the image of a polynomial in coefficient form is a product, its entries are those of the
schoolbook. -/
theorem entry_eq_schoolbook (hsound : t.Sound) (ha : a.Over moduli .coefficient)
    (hb : b.Over moduli .coefficient) (hc : c.Over moduli .coefficient) (ht : moduli[i]? = some t)
    (himage : c.image i t = a.image i t * b.image i t) {k : ℕ} (hk : k < t.degree) :
    c.entry i k = schoolbook t.degree (a.entry i) (b.entry i) k % t.prime.toNat := by
  have : Fact t.prime.toNat.Prime := ⟨hsound.prime⟩
  have hdeg {d : ResiduePoly} (hd : d.Over moduli .coefficient) :
      (ofCoefficients (d.classes i t)).degree < t.degree :=
    length_classes hd ht ▸ degree_ofCoefficients_lt _
  rw [hc.image_eq, ha.image_eq, hb.image_eq] at himage
  -- The row has the classes of the product modulo `X ^ n + 1`, and those are the sums.
  have hclasses := (RootTable.read_eq_mk_iff hsound (hc.reduced ht)
    (f := ofCoefficients (a.classes i t) * ofCoefficients (b.classes i t))).1
      (by rw [himage, map_mul]; rfl)
  refine entry_eq_emod hsound.prime_pos hc ht ?_
  rw [classes, hclasses, RootTable.entries, List.getD_eq_getElem _ _ (by simpa using hk),
    List.getElem_map, List.getElem_range,
    NegacyclicRing.coeff_mul_modByMonic hsound.degree_ne_zero (hdeg ha) (hdeg hb) hk, schoolbook]
  simp only [coeff_ofCoefficients, getD_classes]
  push_cast
  rfl

/-! ## The operations -/

section Sound

variable (hm : ∀ t ∈ moduli, t.Sound)
include hm

/-- A product goes through the transform, whatever form the factors have. -/
theorem exists_product {form' : Form} (ha : a.Over moduli form) (hb : b.Over moduli form') :
    ∃ a₀ b₀, a.toCoefficient? = .ok a₀ ∧ b.toCoefficient? = .ok b₀ ∧
      ∃ a₁ b₁ c₁ c₀, a.toTransformed? = .ok a₁ ∧ b.toTransformed? = .ok b₁ ∧
        a₁.mul? b₁ = .ok c₁ ∧ c₁.toCoefficient? = .ok c₀ ∧ c₀.Over moduli .coefficient ∧
          ∀ i t, moduli[i]? = some t → ∀ k < t.degree,
            c₀.entry i k = schoolbook t.degree (a₀.entry i) (b₀.entry i) k % t.prime.toNat := by
  obtain ⟨a₀, ha₀, hoa₀, hia₀⟩ := exists_toCoefficient? hm ha
  obtain ⟨b₀, hb₀, hob₀, hib₀⟩ := exists_toCoefficient? hm hb
  obtain ⟨a₁, ha₁, hoa₁, hia₁⟩ := exists_toTransformed? hm ha
  obtain ⟨b₁, hb₁, hob₁, hib₁⟩ := exists_toTransformed? hm hb
  obtain ⟨c₁, hc₁, hoc₁, hic₁⟩ := exists_mul? hm hoa₁ hob₁
  obtain ⟨c₀, hc₀, hoc₀, hic₀⟩ := exists_toCoefficient? hm hoc₁
  refine ⟨a₀, b₀, ha₀, hb₀, a₁, b₁, c₁, c₀, ha₁, hb₁, hc₁, hc₀, hoc₀, ?_⟩
  intro i t ht k hk
  refine entry_eq_schoolbook (hm t (List.mem_of_getElem? ht)) hoa₀ hob₀ hoc₀ ht ?_ hk
  -- The changes of form keep the images, and the product multiplies them.
  calc c₀.image i t = c₁.image i t := hic₀ i t ht
    _ = a₁.image i t * b₁.image i t := hic₁ i t ht
    _ = a.image i t * b.image i t := by rw [hia₁ i t ht, hib₁ i t ht]
    _ = a₀.image i t * b₀.image i t := by rw [hia₀ i t ht, hib₀ i t ht]

/-- The linear operations act entry by entry, in either form. -/
theorem exists_linear (k : ℤ) (ha : a.Over moduli form) (hb : b.Over moduli form) :
    ∃ sum difference, a.add? b = .ok sum ∧ a.sub? b = .ok difference ∧
      sum.Over moduli form ∧ difference.Over moduli form ∧ a.neg.Over moduli form ∧
      (a.scale k).Over moduli form ∧
      ∀ i t, moduli[i]? = some t → ∀ j < t.degree,
        sum.entry i j = (a.entry i j + b.entry i j) % t.prime.toNat ∧
        difference.entry i j = (a.entry i j - b.entry i j) % t.prime.toNat ∧
        a.neg.entry i j = -a.entry i j % t.prime.toNat ∧
        (a.scale k).entry i j = k * a.entry i j % t.prime.toNat := by
  obtain ⟨sum, hsum, hosum, hrsum⟩ := exists_add? hm ha hb
  obtain ⟨difference, hdiff, hodiff, hrdiff⟩ := exists_sub? hm ha hb
  obtain ⟨honeg, hrneg⟩ := over_neg hm ha
  obtain ⟨hoscale, hrscale⟩ := over_scale hm k ha
  refine ⟨sum, difference, hsum, hdiff, hosum, hodiff, honeg, hoscale, ?_⟩
  intro i t ht j hj
  have hpos := (hm t (List.mem_of_getElem? ht)).prime_pos
  refine ⟨entry_eq_emod hpos hosum ht ?_, entry_eq_emod hpos hodiff ht ?_,
    entry_eq_emod hpos honeg ht ?_, entry_eq_emod hpos hoscale ht ?_⟩
  · rw [(hrsum i t ht).1, getD_zipWith_classes ha hb ht _ hj, Int.cast_add]
  · rw [(hrdiff i t ht).1, getD_zipWith_classes ha hb ht _ hj, Int.cast_sub]
  · rw [(hrneg i t ht).1, getD_map_classes ha ht _ hj, Int.cast_neg]
  · rw [(hrscale i t ht).1, getD_map_classes ha ht _ hj, Int.cast_mul, mul_comm]

/-- The linear operations can be taken before a change of form or after it. -/
theorem exists_linear_toForm? (k : ℤ) (target : Form) (ha : a.Over moduli form)
    (hb : b.Over moduli form) :
    ∃ sum difference a' b' sum' difference', a.add? b = .ok sum ∧ a.sub? b = .ok difference ∧
      a.toForm? target = .ok a' ∧ b.toForm? target = .ok b' ∧
      a'.add? b' = .ok sum' ∧ sum.toForm? target = .ok sum' ∧
      a'.sub? b' = .ok difference' ∧ difference.toForm? target = .ok difference' ∧
      a.neg.toForm? target = .ok a'.neg ∧ (a.scale k).toForm? target = .ok (a'.scale k) := by
  obtain ⟨a', ha', hoa', hia'⟩ := exists_toForm? hm ha target
  obtain ⟨b', hb', hob', hib'⟩ := exists_toForm? hm hb target
  obtain ⟨sum, hsum, hosum, hisum⟩ := exists_add? hm ha hb
  obtain ⟨difference, hdiff, hodiff, hidiff⟩ := exists_sub? hm ha hb
  obtain ⟨sum', hsum', hosum', hisum'⟩ := exists_add? hm hoa' hob'
  obtain ⟨difference', hdiff', hodiff', hidiff'⟩ := exists_sub? hm hoa' hob'
  obtain ⟨honeg, hineg⟩ := over_neg hm ha
  obtain ⟨honeg', hineg'⟩ := over_neg hm hoa'
  obtain ⟨hoscale, hiscale⟩ := over_scale hm k ha
  obtain ⟨hoscale', hiscale'⟩ := over_scale hm k hoa'
  -- What is converted has the images of what was computed, so it is what is computed afterwards.
  have hconvert {c c' : ResiduePoly} (hc : c.Over moduli form) (hc' : c'.Over moduli target)
      (h : ∀ i t, moduli[i]? = some t → c'.image i t = c.image i t) :
      c.toForm? target = .ok c' := by
    obtain ⟨d, hd, hod, hid⟩ := exists_toForm? hm hc target
    rw [hd, eq_of_image_eq hm hod hc' fun i t ht => (hid i t ht).trans (h i t ht).symm]
  refine ⟨sum, difference, a', b', sum', difference', hsum, hdiff, ha', hb', hsum',
    hconvert hosum hosum' ?_, hdiff', hconvert hodiff hodiff' ?_,
    hconvert honeg honeg' ?_, hconvert hoscale hoscale' ?_⟩
  · intro i t ht
    rw [(hisum' i t ht).2, (hisum i t ht).2, hia' i t ht, hib' i t ht]
  · intro i t ht
    rw [(hidiff' i t ht).2, (hidiff i t ht).2, hia' i t ht, hib' i t ht]
  · intro i t ht
    rw [(hineg' i t ht).2, (hineg i t ht).2, hia' i t ht]
  · intro i t ht
    rw [(hiscale' i t ht).2, (hiscale i t ht).2, hia' i t ht]

end Sound

/-- Arithmetic over tables that were built for primes below `2 ^ 63`. -/
theorem arithmetic_of_build {n : ℕ}
    (htables : ∀ t ∈ moduli, ∃ p : UInt64,
      p.toNat.Prime ∧ p.toNat < 2 ^ 63 ∧ RootTable.build p n = .ok t) :
    (∀ (a b : ResiduePoly) (form form' : Form), a.Over moduli form → b.Over moduli form' →
      ∃ a₀ b₀, a.toCoefficient? = .ok a₀ ∧ b.toCoefficient? = .ok b₀ ∧
        ∃ a₁ b₁ c₁ c₀, a.toTransformed? = .ok a₁ ∧ b.toTransformed? = .ok b₁ ∧
          a₁.mul? b₁ = .ok c₁ ∧ c₁.toCoefficient? = .ok c₀ ∧ c₀.Over moduli .coefficient ∧
            ∀ i t, moduli[i]? = some t → ∀ k < n,
              c₀.entry i k = schoolbook n (a₀.entry i) (b₀.entry i) k % t.prime.toNat) ∧
    (∀ (a b : ResiduePoly) (form : Form) (k : ℤ), a.Over moduli form → b.Over moduli form →
      ∃ sum difference, a.add? b = .ok sum ∧ a.sub? b = .ok difference ∧
        sum.Over moduli form ∧ difference.Over moduli form ∧ a.neg.Over moduli form ∧
        (a.scale k).Over moduli form ∧
        (∀ i t, moduli[i]? = some t → ∀ j < n,
          sum.entry i j = (a.entry i j + b.entry i j) % t.prime.toNat ∧
          difference.entry i j = (a.entry i j - b.entry i j) % t.prime.toNat ∧
          a.neg.entry i j = -a.entry i j % t.prime.toNat ∧
          (a.scale k).entry i j = k * a.entry i j % t.prime.toNat) ∧
        ∀ target, ∃ a' b' sum' difference',
          a.toForm? target = .ok a' ∧ b.toForm? target = .ok b' ∧
          a'.add? b' = .ok sum' ∧ sum.toForm? target = .ok sum' ∧
          a'.sub? b' = .ok difference' ∧ difference.toForm? target = .ok difference' ∧
          a.neg.toForm? target = .ok a'.neg ∧ (a.scale k).toForm? target = .ok (a'.scale k)) := by
  have hbuilt (t : RootTable) (ht : t ∈ moduli) : t.degree = n ∧ t.Sound := by
    obtain ⟨p, hp, hlt, hbuild⟩ := htables t ht
    exact (RootTable.build_sound hbuild hp (Nat.le_of_lt hlt)).2
  have hm (t : RootTable) (ht : t ∈ moduli) : t.Sound := (hbuilt t ht).2
  have hn {i : ℕ} {t : RootTable} (ht : moduli[i]? = some t) : t.degree = n :=
    (hbuilt t (List.mem_of_getElem? ht)).1
  constructor
  · intro a b form form' ha hb
    obtain ⟨a₀, b₀, ha₀, hb₀, a₁, b₁, c₁, c₀, ha₁, hb₁, hc₁, hc₀, hoc₀, hentry⟩ :=
      exists_product hm ha hb
    refine ⟨a₀, b₀, ha₀, hb₀, a₁, b₁, c₁, c₀, ha₁, hb₁, hc₁, hc₀, hoc₀, ?_⟩
    intro i t ht k hk
    rw [hentry i t ht k (hn ht ▸ hk), hn ht]
  · intro a b form k ha hb
    obtain ⟨sum, difference, hsum, hdiff, hosum, hodiff, honeg, hoscale, hentry⟩ :=
      exists_linear hm k ha hb
    refine ⟨sum, difference, hsum, hdiff, hosum, hodiff, honeg, hoscale,
      fun i t ht j hj => hentry i t ht j (hn ht ▸ hj), ?_⟩
    intro target
    obtain ⟨sum₁, difference₁, a', b', sum', difference', hsum₁, hdiff₁, h⟩ :=
      exists_linear_toForm? hm k target ha hb
    obtain rfl := Except.ok.inj (hsum.symm.trans hsum₁)
    obtain rfl := Except.ok.inj (hdiff.symm.trans hdiff₁)
    exact ⟨a', b', sum', difference', h⟩

/-- The table of `17` for degree two, with `13 ^ 2 = -1`. -/
def seventeen : RootTable :=
  ⟨17, 2, #[1, 13], #[1, 4], 9⟩

theorem build_seventeen : RootTable.build 17 2 = .ok seventeen := by
  rfl

theorem built_seventeen : ∃ p : UInt64,
    p.toNat.Prime ∧ p.toNat < 2 ^ 63 ∧ RootTable.build p 2 = .ok seventeen := by
  have hprime : Nat.Prime 17 := by norm_num
  exact ⟨17, hprime, by decide, build_seventeen⟩

/-- `(1 + 2 * X) * (3 + 4 * X) = 12 + 10 * X` modulo `17` and `X ^ 2 + 1`. -/
theorem product_seventeen :
    ∃ a₁ b₁ c₁ c₀ : ResiduePoly,
      toTransformed? ⟨[⟨seventeen, [1, 2]⟩], .coefficient⟩ = .ok a₁ ∧
      toTransformed? ⟨[⟨seventeen, [3, 4]⟩], .coefficient⟩ = .ok b₁ ∧
      a₁.mul? b₁ = .ok c₁ ∧ c₁.toCoefficient? = .ok c₀ ∧ c₀.entry 0 0 = 12 ∧ c₀.entry 0 1 = 10 := by
  have htables : ∀ t ∈ [seventeen], ∃ p : UInt64,
      p.toNat.Prime ∧ p.toNat < 2 ^ 63 ∧ RootTable.build p 2 = .ok t := by
    intro t ht
    obtain rfl := List.mem_singleton.1 ht
    have hprime : Nat.Prime 17 := by norm_num
    exact ⟨17, hprime, by decide, build_seventeen⟩
  have hover (xs : List UInt64) (hlength : xs.length = 2) (hsmall : xs.all (· < 17)) :
      Over ⟨[⟨seventeen, xs⟩], .coefficient⟩ [seventeen] .coefficient := by
    apply over_of_channels rfl
    intro i t ht
    obtain ⟨rfl, rfl⟩ : i = 0 ∧ seventeen = t := by simpa [List.getElem?_singleton] using ht
    exact ⟨xs, rfl, hlength, fun x hx => of_decide_eq_true (List.all_eq_true.1 hsmall x hx)⟩
  obtain ⟨a₀, b₀, ha₀, hb₀, a₁, b₁, c₁, c₀, ha₁, hb₁, hc₁, hc₀, -, hentry⟩ :=
    (arithmetic_of_build htables).1 _ _ _ _ (hover [1, 2] rfl rfl) (hover [3, 4] rfl rfl)
  obtain rfl := Except.ok.inj ha₀
  obtain rfl := Except.ok.inj hb₀
  exact ⟨a₁, b₁, c₁, c₀, ha₁, hb₁, hc₁, hc₀, hentry 0 _ rfl 0 (by decide),
    hentry 0 _ rfl 1 (by decide)⟩

end ResiduePoly

end EncryptedArithmetic

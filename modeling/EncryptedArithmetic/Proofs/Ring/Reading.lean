import EncryptedArithmetic.Proofs.Ring.Transform
import EncryptedArithmetic.Ring.ResiduePoly

/-!
# Vectors as ring elements

A reduced vector stands for an element of `Z_p[X] / (X ^ N + 1)`: its entries are the coefficients
of the element, or its values at the roots of `X ^ N + 1`. Both readings are bijective and linear,
and the second turns products into products of entries.

## Main results

* `mk_eq_of_rootValues_eq`: an element is known by its values at the roots.
* `read_eq_mk_iff`: what it means for a vector to stand for the class of a polynomial.
* `read_forward?` and `read_inverse?`: a change of form does not change the element.
* `read_add`, `read_sub`, `read_neg`, `read_scale` and `read_mul`: arithmetic on entries is
  arithmetic in the ring.
-/

namespace EncryptedArithmetic

open Polynomial EncryptedArithmetic.Modular

namespace RootTable

variable {t : RootTable}

/-! ## Elements and their values at the roots -/

/-- Every root that the transform evaluates at is one of `X ^ N + 1`. -/
theorem root_pow_mem_exponents (ht : t.Sound) {k : ℕ}
    (hk : k ∈ t.exponents t.degree.log2 t.degree) : (t.root ^ k) ^ t.degree = -1 := by
  have hpow := root_pow_of_mem_exponents ht (splits_degree ht) hk
  rwa [← ht.degree_eq, ht.root_pow_degree] at hpow

/-- Polynomials of one class have the same values at the roots. -/
theorem rootValues_eq_of_mk_eq (ht : t.Sound) {f g : (ZMod t.prime.toNat)[X]}
    (h : AdjoinRoot.mk (X ^ t.degree + 1) f = AdjoinRoot.mk (X ^ t.degree + 1) g) :
    t.rootValues f = t.rootValues g := by
  apply List.map_congr_left
  intro k hk
  have hroot := root_pow_mem_exponents ht hk
  rw [← NegacyclicRing.evalAt_mk hroot, ← NegacyclicRing.evalAt_mk hroot, h]

/-- Polynomials with the same values at the roots are of one class. -/
theorem mk_eq_of_rootValues_eq (ht : t.Sound) {f g : (ZMod t.prime.toNat)[X]}
    (h : t.rootValues f = t.rootValues g) :
    AdjoinRoot.mk (X ^ t.degree + 1) f = AdjoinRoot.mk (X ^ t.degree + 1) g := by
  have : Fact t.prime.toNat.Prime := ⟨ht.prime⟩
  have hN := ht.degree_ne_zero
  -- The reduced difference vanishes at all `N` roots and is below the degree `N`.
  have hzero : (f - g) %ₘ (X ^ t.degree + 1) = 0 := by
    refine eq_zero_of_eval_eq_zero ht (splits_degree ht) ?_ ?_
    · rw [← ht.degree_eq]
      exact natDegree_lt_of_degree_lt hN (NegacyclicRing.degree_modByMonic_lt hN _)
    · intro k hk
      have hroot := root_pow_mem_exponents ht hk
      rw [← NegacyclicRing.evalAt_mk hroot, NegacyclicRing.mk_modByMonic,
        NegacyclicRing.evalAt_mk hroot, eval_sub, sub_eq_zero]
      exact List.map_inj_left.1 h k hk
  rw [← sub_eq_zero, ← map_sub, ← NegacyclicRing.mk_modByMonic, hzero, map_zero]

/-! ## The entries of an element -/

/-- The entries of the class of a polynomial: its coefficients once it is reduced, or its values at
the roots. -/
noncomputable def entries (t : RootTable) (form : Form) (f : (ZMod t.prime.toNat)[X]) :
    List (ZMod t.prime.toNat) :=
  match form with
  | .coefficient => (List.range t.degree).map fun k => (f %ₘ (X ^ t.degree + 1)).coeff k
  | .transformed => t.rootValues f

theorem length_entries (ht : t.Sound) (form : Form) (f : (ZMod t.prime.toNat)[X]) :
    (t.entries form f).length = t.degree := by
  cases form with
  | coefficient => simp [entries]
  | transformed => exact (length_values _ _ f).trans ht.degree_eq.symm

/-- A constant has the same value at every root. -/
theorem rootValues_C (ht : t.Sound) (c : ZMod t.prime.toNat) :
    t.rootValues (C c) = List.replicate t.degree c := by
  rw [List.eq_replicate_iff]
  exact ⟨length_entries ht .transformed _, by simp [rootValues, values]⟩

theorem entries_add (form : Form) (f g : (ZMod t.prime.toNat)[X]) :
    t.entries form (f + g) = (t.entries form f).zipWith (· + ·) (t.entries form g) := by
  cases form with
  | coefficient => simp [entries, add_modByMonic, List.zipWith_map]
  | transformed => exact values_add _ _ f g

theorem entries_sub (form : Form) (f g : (ZMod t.prime.toNat)[X]) :
    t.entries form (f - g) = (t.entries form f).zipWith (· - ·) (t.entries form g) := by
  cases form with
  | coefficient => simp [entries, sub_modByMonic, List.zipWith_map]
  | transformed => exact values_sub _ _ f g

theorem entries_C_mul (form : Form) (c : ZMod t.prime.toNat) (f : (ZMod t.prime.toNat)[X]) :
    t.entries form (C c * f) = (t.entries form f).map (c * ·) := by
  cases form with
  | coefficient => simp [entries, ← smul_eq_C_mul, smul_modByMonic]
  | transformed => exact values_C_mul _ _ c f

/-- Values at the roots, unlike coefficients, multiply entry by entry. -/
theorem entries_mul (f g : (ZMod t.prime.toNat)[X]) :
    t.entries .transformed (f * g) =
      (t.entries .transformed f).zipWith (· * ·) (t.entries .transformed g) :=
  values_mul _ _ f g

/-- The coefficients of a vector are those of its polynomial. -/
theorem entries_ofCoefficients (ht : t.Sound) {as : List (ZMod t.prime.toNat)}
    (h : as.length = t.degree) : t.entries .coefficient (ofCoefficients as) = as := by
  have : Fact t.prime.toNat.Prime := ⟨ht.prime⟩
  have hdeg : (ofCoefficients as).degree < (X ^ t.degree + 1 : (ZMod t.prime.toNat)[X]).degree := by
    rw [NegacyclicRing.degree_modulus ht.degree_ne_zero, ← h]
    exact degree_ofCoefficients_lt as
  have hmod := (modByMonic_eq_self_iff (NegacyclicRing.monic_modulus ht.degree_ne_zero)).2 hdeg
  apply List.ext_getElem (by simp [entries, h])
  intro k hk hk'
  simp [entries, hmod, coeff_ofCoefficients, hk']

/-! ## Reading a vector -/

/-- The ring element that a vector stands for. -/
noncomputable def read (t : RootTable) (form : Form) (xs : List UInt64) :
    NegacyclicRing t.degree (ZMod t.prime.toNat) :=
  match form with
  | .coefficient => AdjoinRoot.mk _ (ofCoefficients (residues t.prime xs))
  | .transformed =>
    match t.inverse? xs with
    | .ok ys => AdjoinRoot.mk _ (ofCoefficients (residues t.prime ys))
    | .error _ => 0

variable {xs ys zs : List UInt64}

/-- A vector stands for the element whose entries it holds. -/
theorem read_eq_mk_iff (ht : t.Sound) {form : Form} (hx : Reduced t.prime t.degree xs)
    {f : (ZMod t.prime.toNat)[X]} :
    t.read form xs = AdjoinRoot.mk _ f ↔ residues t.prime xs = t.entries form f := by
  have : Fact t.prime.toNat.Prime := ⟨ht.prime⟩
  have hN := ht.degree_ne_zero
  -- The coefficients are read as they stand; the values are read by way of the inverse transform.
  cases form with
  | coefficient =>
    have hlen : (residues t.prime xs).length = t.degree := (length_residues _ _).trans hx.length
    rw [read]
    constructor
    · intro h
      -- Both sides are below the degree `N`, so one class means one polynomial.
      have hdeg : (ofCoefficients (residues t.prime xs)).degree < t.degree :=
        hlen ▸ degree_ofCoefficients_lt _
      have heq := NegacyclicRing.eq_of_mk_eq hN hdeg (NegacyclicRing.degree_modByMonic_lt hN f)
        (h.trans (NegacyclicRing.mk_modByMonic f).symm)
      conv_lhs => rw [← entries_ofCoefficients ht hlen, heq]
      rw [entries, entries, modByMonic_eq_self_iff (NegacyclicRing.monic_modulus hN) |>.2]
      exact degree_modByMonic_lt f (NegacyclicRing.monic_modulus hN)
    · intro h
      rw [h, ← NegacyclicRing.mk_modByMonic f]
      congr 1
      ext k
      rw [coeff_ofCoefficients, entries]
      -- Past the degree the list has ended, and the remainder has no coefficients.
      by_cases hk : k < t.degree
      · simp [List.getD_eq_getElem?_getD, hk]
      · have hzero := (degree_lt_iff_coeff_zero _ _).1
          (NegacyclicRing.degree_modByMonic_lt hN f) k (not_lt.1 hk)
        simp [List.getD_eq_getElem?_getD, hk, hzero]
  | transformed =>
    obtain ⟨ws, hws, -, hval⟩ := exists_inverse? ht hx
    simp only [read, hws]
    rw [← hval]
    exact ⟨rootValues_eq_of_mk_eq ht, mk_eq_of_rootValues_eq ht⟩

/-- Vectors that stand for one element are the same. -/
theorem eq_of_read_eq (ht : t.Sound) {form : Form} (hx : Reduced t.prime t.degree xs)
    (hy : Reduced t.prime t.degree ys) (h : t.read form xs = t.read form ys) : xs = ys := by
  -- Every element is the class of a polynomial, whose entries both vectors hold.
  obtain ⟨f, hf⟩ := AdjoinRoot.mk_surjective (t.read form ys)
  refine hx.eq_of_residues_eq hy ?_
  rw [(read_eq_mk_iff ht hx).1 (h.trans hf.symm), (read_eq_mk_iff ht hy).1 hf.symm]

/-- The transform keeps the element. -/
theorem read_forward? (ht : t.Sound) (hx : Reduced t.prime t.degree xs)
    (h : t.forward? xs = .ok ys) : t.read .transformed ys = t.read .coefficient xs := by
  simp only [read, inverse?_of_forward? ht hx h]

/-- The inverse transform keeps the element. -/
theorem read_inverse? (h : t.inverse? xs = .ok ys) :
    t.read .coefficient ys = t.read .transformed xs := by
  simp only [read, h]

/-! ## Arithmetic on entries -/

section Arithmetic

variable {form : Form}

theorem read_add (ht : t.Sound) (hx : Reduced t.prime t.degree xs)
    (hy : Reduced t.prime t.degree ys) (hz : Reduced t.prime t.degree zs)
    (h : residues t.prime zs = (residues t.prime xs).zipWith (· + ·) (residues t.prime ys)) :
    t.read form zs = t.read form xs + t.read form ys := by
  obtain ⟨f, hf⟩ := AdjoinRoot.mk_surjective (t.read form xs)
  obtain ⟨g, hg⟩ := AdjoinRoot.mk_surjective (t.read form ys)
  rw [← hf, ← hg, ← map_add, read_eq_mk_iff ht hz, h, (read_eq_mk_iff ht hx).1 hf.symm,
    (read_eq_mk_iff ht hy).1 hg.symm, entries_add]

theorem read_sub (ht : t.Sound) (hx : Reduced t.prime t.degree xs)
    (hy : Reduced t.prime t.degree ys) (hz : Reduced t.prime t.degree zs)
    (h : residues t.prime zs = (residues t.prime xs).zipWith (· - ·) (residues t.prime ys)) :
    t.read form zs = t.read form xs - t.read form ys := by
  obtain ⟨f, hf⟩ := AdjoinRoot.mk_surjective (t.read form xs)
  obtain ⟨g, hg⟩ := AdjoinRoot.mk_surjective (t.read form ys)
  rw [← hf, ← hg, ← map_sub, read_eq_mk_iff ht hz, h, (read_eq_mk_iff ht hx).1 hf.symm,
    (read_eq_mk_iff ht hy).1 hg.symm, entries_sub]

/-- A multiple by a class is a product with a constant. -/
theorem read_scale (ht : t.Sound) (hx : Reduced t.prime t.degree xs)
    (hz : Reduced t.prime t.degree zs) {c : ZMod t.prime.toNat}
    (h : residues t.prime zs = (residues t.prime xs).map (· * c)) :
    t.read form zs = AdjoinRoot.of _ c * t.read form xs := by
  obtain ⟨f, hf⟩ := AdjoinRoot.mk_surjective (t.read form xs)
  rw [← hf, ← AdjoinRoot.mk_C, ← map_mul, read_eq_mk_iff ht hz, h,
    (read_eq_mk_iff ht hx).1 hf.symm, entries_C_mul]
  exact List.map_congr_left fun a _ => mul_comm a c

theorem read_neg (ht : t.Sound) (hx : Reduced t.prime t.degree xs)
    (hz : Reduced t.prime t.degree zs)
    (h : residues t.prime zs = (residues t.prime xs).map (- ·)) :
    t.read form zs = -t.read form xs := by
  have hscale : t.read form zs = AdjoinRoot.of _ (-1) * t.read form xs :=
    read_scale ht hx hz (by simpa using h)
  rw [hscale, map_neg, map_one, neg_one_mul]

theorem read_mul (ht : t.Sound) (hx : Reduced t.prime t.degree xs)
    (hy : Reduced t.prime t.degree ys) (hz : Reduced t.prime t.degree zs)
    (h : residues t.prime zs = (residues t.prime xs).zipWith (· * ·) (residues t.prime ys)) :
    t.read .transformed zs = t.read .transformed xs * t.read .transformed ys := by
  obtain ⟨f, hf⟩ := AdjoinRoot.mk_surjective (t.read .transformed xs)
  obtain ⟨g, hg⟩ := AdjoinRoot.mk_surjective (t.read .transformed ys)
  rw [← hf, ← hg, ← map_mul, read_eq_mk_iff ht hz, h, (read_eq_mk_iff ht hx).1 hf.symm,
    (read_eq_mk_iff ht hy).1 hg.symm, entries_mul]

end Arithmetic

end RootTable

end EncryptedArithmetic

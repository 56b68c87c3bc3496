import EncryptedArithmetic.Proofs.Ring.Channels
import EncryptedArithmetic.Proofs.Ring.Schoolbook
import Mathlib.Algebra.Order.Round
import Mathlib.Data.Rat.Floor

/-!
# Integer polynomials behind residues

Residues say of an integer polynomial what it is modulo each prime and modulo `X ^ N + 1`. Many
integer polynomials have the same residues, and what an operation does to the residues must be right
for all of them. Division by the last prime is: whichever of them is meant, the residues of the
quotient are those of the polynomial with the nearest integers as coefficients. The remainder that
is nearest to zero is the same for all of them, and since the primes are odd no coefficient lies
half way between two integers.

## Main definitions

* `CongruentAt` and `Congruent`: one channel, or each of them, holds the residues of an integer
  polynomial.

## Main results

* `Over.congruentAt_iff`: a channel holds the residues of the polynomials with its image.
* `exists_nearest_divideByLast?`: the quotient, for any integer polynomial behind the residues.
* `divideByLast_of_build`: the quotient over the tables that `RootTable.build` answers.
-/

namespace EncryptedArithmetic

open Polynomial EncryptedArithmetic.Modular

namespace ResiduePoly

/-! ## Residues of integer polynomials -/

/-- The channel at a position holds the residues of an integer polynomial: in coefficient form,
entry `k` is the residue of the coefficient of `X ^ k` behind the reduction modulo `X ^ N + 1`. -/
def CongruentAt (a : ResiduePoly) (i : ℕ) (F : ℤ[X]) : Prop :=
  ∃ work c, a.toCoefficient? = .ok work ∧ work.channels[i]? = some c ∧
    ∀ k < c.residues.length,
      work.entry i k = (F %ₘ (X ^ c.residues.length + 1)).coeff k % c.prime.toNat

/-- Every channel holds the residues of an integer polynomial. -/
def Congruent (a : ResiduePoly) (F : ℤ[X]) : Prop :=
  ∀ i < a.channels.length, a.CongruentAt i F

variable {moduli : List RootTable} {form : Form} {a : ResiduePoly} {i : ℕ} {t : RootTable}
  {F : ℤ[X]}

/-- In coefficient form the image of an integer polynomial is read off the entries. -/
theorem Over.image_eq_ofInt_iff (ha : a.Over moduli .coefficient) (ht : moduli[i]? = some t)
    (hsound : t.Sound) : a.image i t = t.ofInt F ↔
      ∀ k < t.degree, a.entry i k = (F %ₘ (X ^ t.degree + 1)).coeff k % t.prime.toNat := by
  rw [ha.image_eq, RootTable.ofInt, NegacyclicRing.ofInt_apply,
    RootTable.read_eq_mk_iff hsound (ha.reduced ht), RootTable.entries_coefficient_map hsound]
  constructor
  · intro h k hk
    refine entry_eq_emod hsound.prime_pos ha ht ?_
    rw [classes, h]
    simp [hk]
  · intro h
    have hlength := length_classes ha ht
    apply List.ext_getElem (by simp [hlength])
    intro k hk hk'
    -- Two integers with one remainder are of one class.
    have hentry := h k (hlength ▸ hk)
    have hclass : (a.entry i k : ZMod t.prime.toNat) =
        ((F %ₘ (X ^ t.degree + 1)).coeff k : ℤ) := by
      rw [hentry, ZMod.intCast_mod]
    rw [← getD_classes, List.getD_eq_getElem _ _ hk] at hclass
    simpa using hclass

section Sound

variable (hm : ∀ t ∈ moduli, t.Sound)
include hm

/-- A channel holds the residues of the integer polynomials with its image. -/
theorem Over.congruentAt_iff (ha : a.Over moduli form) (ht : moduli[i]? = some t) :
    a.CongruentAt i F ↔ a.image i t = t.ofInt F := by
  have hsound := hm t (List.mem_of_getElem? ht)
  obtain ⟨work, hwork, how, hiw⟩ := exists_toCoefficient? hm ha
  have hlength := (how.reduced ht).length
  rw [← hiw i t ht, how.image_eq_ofInt_iff ht hsound]
  constructor
  · rintro ⟨work', c, hwork', hc, h⟩
    obtain rfl := Except.ok.inj (hwork.symm.trans hwork')
    obtain rfl := Option.some.inj ((how.getElem?_eq ht).symm.trans hc)
    simp only [hlength] at h
    exact h
  · intro h
    refine ⟨work, _, hwork, how.getElem?_eq ht, ?_⟩
    simp only [hlength]
    exact h

/-- All channels hold the residues of an integer polynomial when it is behind all images. -/
theorem Over.congruent_iff (ha : a.Over moduli form) :
    a.Congruent F ↔ ∀ i t, moduli[i]? = some t → a.image i t = t.ofInt F := by
  constructor
  · intro h i t ht
    have hi : i < a.channels.length := ha.length_eq ▸ (List.getElem?_eq_some_iff.1 ht).1
    exact (ha.congruentAt_iff hm ht).1 (h i hi)
  · intro h i hi
    have ht := List.getElem?_eq_getElem (l := moduli) (ha.length_eq ▸ hi)
    exact (ha.congruentAt_iff hm ht).2 (h i _ ht)

/-- Every channel holds the residues of some integer polynomial. -/
theorem Over.exists_congruentAt (ha : a.Over moduli form) (hi : i < a.channels.length) :
    ∃ F, a.CongruentAt i F := by
  obtain ⟨t, ht⟩ : ∃ t, moduli[i]? = some t := ⟨_, List.getElem?_eq_getElem (ha.length_eq ▸ hi)⟩
  obtain ⟨work, -, how, hiw⟩ := exists_toCoefficient? hm ha
  -- The polynomial nearest to zero is one.
  refine ⟨t.centered (work.row i), (ha.congruentAt_iff hm ht).2 ?_⟩
  rw [RootTable.ofInt_centered, ← hiw i _ ht, how.image_eq]

end Sound

/-! ## The nearest quotient -/

/-- The integer that is less than half a divisor away is the rounded quotient. -/
theorem round_div_eq {q : ℕ} {x y : ℤ} (h : 2 * |x - q * y| < q) :
    round ((x : ℚ) / q) = y := by
  have hq : (0 : ℚ) < q := by
    have := abs_nonneg (x - q * y)
    exact_mod_cast (by omega : 0 < q)
  have hlt : (2 : ℚ) * |(x : ℚ) - q * y| < q := by exact_mod_cast h
  obtain ⟨hlow, hhigh⟩ := abs_lt.1 (by linarith : |(x : ℚ) - q * y| < q / 2)
  rw [round_eq_iff, Set.mem_Ico, le_div_iff₀ hq, div_lt_iff₀ hq]
  constructor <;> linarith

/-- Division by the last prime, for any integer polynomial behind the images: the quotient has the
images of a polynomial that is, times the prime, less than half the prime away in each
coefficient. -/
theorem exists_nearest_divideByLast? {last : RootTable} (hne : moduli ≠ [])
    (hm : ∀ t ∈ moduli, t.Sound) (hlast : last.Sound) (hn : ∀ t ∈ moduli, t.degree = last.degree)
    (hdistinct : ∀ t ∈ moduli, t.prime ≠ last.prime) (ha : a.Over (moduli ++ [last]) form)
    (hF : ∀ i t, (moduli ++ [last])[i]? = some t → a.image i t = t.ofInt F) :
    ∃ b, a.divideByLast? = .ok b ∧ b.Over moduli form ∧ ∃ G : ℤ[X], G.degree < last.degree ∧
      (∀ i t, moduli[i]? = some t → b.image i t = t.ofInt G) ∧
      ∀ k, 2 * |(F %ₘ (X ^ last.degree + 1)).coeff k - last.prime.toNat * G.coeff k| <
        last.prime.toNat := by
  have hN := hlast.degree_ne_zero
  obtain ⟨b, hb, hob, r, hdr, hr, hend, hib⟩ :=
    exists_divideByLast? hne hm hlast hn hdistinct ha
  -- In the last channel nothing but the remainder is seen, so the rest is a multiple of the prime.
  have hzero : last.ofInt (F - r) = 0 := by
    rw [map_sub, ← hF moduli.length last (by simp), hend, sub_self]
  obtain ⟨G, hG, hquotient⟩ :=
    NegacyclicRing.exists_eq_C_mul_of_ofInt_eq_zero hN hlast.prime.one_lt hzero
  refine ⟨b, hb, hob, G, hG, ?_, ?_⟩
  · intro i t ht
    have hmem := List.mem_of_getElem? ht
    have hsound := hm t hmem
    have hfront : (moduli ++ [last])[i]? = some t := by
      rwa [List.getElem?_append_left (List.getElem?_eq_some_iff.1 ht).1]
    have hmultiple : t.ofInt (F - r) = (last.prime.toNat : ℤ) * t.ofInt G := by
      rw [← RootTable.ofInt_C_mul, ← hquotient, ← hn t hmem]
      exact (NegacyclicRing.ofInt_modByMonic _ hsound.degree_ne_zero _).symm
    -- The prime can be cancelled in the channels of the others.
    refine (RootTable.isUnit_intCast_prime hsound hlast (hdistinct t hmem)).mul_left_cancel ?_
    rw [hib i t ht, hF i t hfront, ← map_sub, hmultiple]
  · intro k
    have hreduced : r %ₘ (X ^ last.degree + 1) = r :=
      (modByMonic_eq_self_iff (NegacyclicRing.monic_modulus hN)).2
        (by rwa [NegacyclicRing.degree_modulus hN])
    have hcoeff := congrArg (fun f => coeff f k) hquotient
    simp only [sub_modByMonic, hreduced, coeff_sub, coeff_C_mul] at hcoeff
    -- What is left of the coefficient is that of the remainder.
    have hrest : (F %ₘ (X ^ last.degree + 1)).coeff k - last.prime.toNat * G.coeff k =
        r.coeff k := by
      linarith
    rw [hrest]
    have hpos := hlast.prime.pos
    have hle := hr k
    omega

/-- Over tables that were built for two or more distinct primes below `2 ^ 63`, in either form, the
quotient by the last prime has one channel less and the same form. Whichever integer polynomial `F`
the residues are those of, the residues of the quotient are those of the polynomial whose
coefficients are the integers nearest to the coefficients of `F` divided by the prime, and no
coefficient lies half way between two integers. -/
theorem divideByLast_of_build {n : ℕ} {last : RootTable} (hne : moduli ≠ [])
    (htables : ∀ t ∈ moduli ++ [last], ∃ p : UInt64,
      p.toNat.Prime ∧ p.toNat < 2 ^ 63 ∧ RootTable.build p n = .ok t)
    (hnodup : ((moduli ++ [last]).map RootTable.prime).Nodup)
    (ha : a.Over (moduli ++ [last]) form) (hF : a.Congruent F) :
    ∃ b, a.divideByLast? = .ok b ∧ b.Over moduli form ∧
      b.channels.length + 1 = a.channels.length ∧ b.form = a.form ∧
      ∃ G : ℤ[X], G.degree < n ∧ b.Congruent G ∧ ∀ k < n,
        G.coeff k = round (((F %ₘ (X ^ n + 1)).coeff k : ℚ) / last.prime.toNat) ∧
        2 * |(F %ₘ (X ^ n + 1)).coeff k - last.prime.toNat * G.coeff k| < last.prime.toNat := by
  obtain ⟨hm', hn'⟩ := RootTable.sound_of_forall_build htables
  have hmem {t : RootTable} (ht : t ∈ moduli) : t ∈ moduli ++ [last] := List.mem_append_left _ ht
  have hm (t : RootTable) (ht : t ∈ moduli) : t.Sound := hm' t (hmem ht)
  have hlast : last.Sound := hm' last (by simp)
  have hdegree : last.degree = n := hn' last (by simp)
  have hn (t : RootTable) (ht : t ∈ moduli) : t.degree = last.degree := by
    rw [hn' t (hmem ht), hdegree]
  have hdistinct (t : RootTable) (ht : t ∈ moduli) : t.prime ≠ last.prime := by
    rw [List.map_append] at hnodup
    intro heq
    exact List.disjoint_of_nodup_append hnodup (List.mem_map_of_mem ht) (by simp [heq])
  obtain ⟨b, hb, hob, G, hG, hib, hnear⟩ := exists_nearest_divideByLast? hne hm hlast hn hdistinct
    ha ((ha.congruent_iff hm').1 hF)
  rw [hdegree] at hG hnear
  refine ⟨b, hb, hob, by simp [hob.length_eq, ha.length_eq], hob.form_eq.trans ha.form_eq.symm,
    G, hG, (hob.congruent_iff hm).2 hib, fun k _ => ⟨(round_div_eq (hnear k)).symm, hnear k⟩⟩

/-- The polynomial `-40 + 9 X` over `13`, `29` and `17`: the nearest integers to `-40 / 17` and
`9 / 17` are `-2` and `1`. -/
theorem divideByLast_seventeen :
    ∃ (s t : RootTable) (a b : ResiduePoly) (G : ℤ[X]), RootTable.build 13 2 = .ok s ∧
      RootTable.build 29 2 = .ok t ∧ ofSigned? [-40, 9] [s, t, seventeen] = .ok a ∧
      a.divideByLast? = .ok b ∧ b.Over [s, t] .coefficient ∧ b.Congruent G ∧
      G.coeff 0 = -2 ∧ G.coeff 1 = 1 := by
  obtain ⟨s, hs⟩ : ∃ s, RootTable.build 13 2 = .ok s := ⟨_, rfl⟩
  obtain ⟨t, ht⟩ : ∃ t, RootTable.build 29 2 = .ok t := ⟨_, rfl⟩
  have htables : ∀ u ∈ [s, t] ++ [seventeen], ∃ p : UInt64,
      p.toNat.Prime ∧ p.toNat < 2 ^ 63 ∧ RootTable.build p 2 = .ok u := by
    have hthirteen : Nat.Prime 13 := by norm_num
    have htwentyNine : Nat.Prime 29 := by norm_num
    simp only [List.cons_append, List.nil_append, List.forall_mem_cons, List.not_mem_nil,
      false_imp_iff, implies_true, and_true]
    exact ⟨⟨13, hthirteen, by decide, hs⟩, ⟨29, htwentyNine, by decide, ht⟩, built_seventeen⟩
  obtain ⟨hm, hn⟩ := RootTable.sound_of_forall_build htables
  obtain ⟨a, ha, hoa, hia⟩ :=
    exists_ofSigned? hm hn (by simp) (show [-40, 9].length = 2 from rfl)
  have hnodup : (([s, t] ++ [seventeen]).map RootTable.prime).Nodup := by
    simp [(RootTable.prime_of_build hs).1, (RootTable.prime_of_build ht).1, seventeen]
  obtain ⟨b, hb, hob, -, -, G, -, hG, hnear⟩ := divideByLast_of_build (by simp) htables hnodup hoa
    ((hoa.congruent_iff hm).2 hia)
  -- Below the degree nothing is reduced.
  have hreduced : ofCoefficients [-40, 9] %ₘ (X ^ 2 + 1) = (ofCoefficients [-40, 9] : ℤ[X]) :=
    (modByMonic_eq_self_iff (NegacyclicRing.monic_modulus two_ne_zero)).2
      (by simpa [NegacyclicRing.degree_modulus] using degree_ofCoefficients_lt [(-40 : ℤ), 9])
  rw [hreduced] at hnear
  have hzero := (hnear 0 (by decide)).1
  have hone := (hnear 1 (by decide)).1
  simp only [coeff_ofCoefficients] at hzero hone
  exact ⟨s, t, a, b, G, hs, ht, ha, hb, hob, hG,
    hzero.trans (round_div_eq (q := 17) (x := -40) (by decide)),
    hone.trans (round_div_eq (q := 17) (x := 9) (by decide))⟩

end ResiduePoly

end EncryptedArithmetic

import EncryptedArithmetic.Proofs.Ring.Channels
import EncryptedArithmetic.Ring.Reconstruction

/-!
# Reading integers back from residues

The mixed-radix digits of an integer are found one prime after the other: the digits that are known
are taken off, and each time the remainder is divided by their prime. Both steps meet their
preconditions over distinct primes of at most `2 ^ 63`: sums of a residue and the prime are words,
and every prime has an inverse modulo the others.

## Main results

* `exists_toFloat?`: over distinct primes, residues have a number.
* `exists_coefficient?`: a coefficient of a polynomial that is kept over a chain.
-/

namespace EncryptedArithmetic

open EncryptedArithmetic.Modular

namespace Reconstruction

/-- Every residue has a digit behind those of other primes. -/
theorem exists_digit? {q : UInt64} (hq : q.toNat.Prime) (hle : q.toNat ≤ UInt64.size / 2)
    {known : List (UInt64 × UInt64)} (hknown : ∀ p ∈ known.map Prod.snd, p.toNat.Prime ∧ p ≠ q)
    {t : UInt64} (ht : t < q) : ∃ d, digit? q t known = .ok d := by
  have hsize : UInt64.size = 18446744073709551616 := rfl
  induction known generalizing t with
  | nil => exact ⟨t, rfl⟩
  | cons entry known ih =>
    obtain ⟨d, p⟩ := entry
    obtain ⟨⟨hp, hne⟩, hrest⟩ := List.forall_mem_cons.1 hknown
    have hfits : sumFits t q := by
      rw [UInt64.lt_iff_toNat_lt] at ht
      exact sumFits_iff.2 (by omega)
    obtain ⟨inverse, hinverse, -⟩ := exists_inverse?_of_prime hp hq hne
    -- What is left after the division is reduced again.
    obtain ⟨digit, hdigit⟩ := ih hrest (mul_lt ((t + q - d % q) % q) inverse (pos_of_lt ht))
    exact ⟨digit, by rw [digit?, if_pos hfits, hinverse, ok_bind, hdigit]⟩

/-- The digits of all remaining primes are found. -/
theorem exists_digitsFrom? {known rest : List (UInt64 × UInt64)}
    (hprime : ∀ p ∈ known.map Prod.snd ++ rest.map Prod.snd,
      p.toNat.Prime ∧ p.toNat ≤ UInt64.size / 2)
    (hnodup : (known.map Prod.snd ++ rest.map Prod.snd).Nodup) :
    ∃ ds, digitsFrom? known rest = .ok ds := by
  induction rest generalizing known with
  | nil => exact ⟨known, rfl⟩
  | cons entry rest ih =>
    obtain ⟨x, q⟩ := entry
    obtain ⟨hq, hle⟩ := hprime q (by simp)
    have hpos : 0 < q := UInt64.lt_iff_toNat_lt.2 hq.pos
    have hknown : ∀ p ∈ known.map Prod.snd, p.toNat.Prime ∧ p ≠ q := by
      intro p hp
      refine ⟨(hprime p (List.mem_append_left _ hp)).1, ?_⟩
      rintro rfl
      exact List.disjoint_of_nodup_append hnodup hp List.mem_cons_self
    obtain ⟨d, hd⟩ := exists_digit? hq hle hknown (t := x % q) (UInt64.mod_lt x hpos)
    -- The digit joins the known ones, and the primes stay the same.
    have hprimes : (known ++ [(d, q)]).map Prod.snd ++ rest.map Prod.snd =
        known.map Prod.snd ++ ((x, q) :: rest).map Prod.snd := by
      simp
    obtain ⟨ds, hds⟩ : ∃ ds, digitsFrom? (known ++ [(d, q)]) rest = .ok ds :=
      ih (hprimes ▸ hprime) (hprimes ▸ hnodup)
    have hne : q ≠ 0 := fun h => absurd hpos (by simp [h])
    exact ⟨ds, by rw [digitsFrom?, if_neg hne, hd, ok_bind, hds]⟩

/-- One residue for each of some distinct primes stands for a number. -/
theorem exists_toFloat? {residues primes : List UInt64} (hlength : residues.length = primes.length)
    (hprime : ∀ p ∈ primes, p.toNat.Prime ∧ p.toNat ≤ UInt64.size / 2) (hnodup : primes.Nodup) :
    ∃ x, toFloat? residues primes = .ok x := by
  have hsecond : (residues.zip primes).map Prod.snd = primes :=
    List.map_snd_zip hlength.ge
  obtain ⟨ds, hds⟩ : ∃ ds, digitsFrom? [] (residues.zip primes) = .ok ds :=
    exists_digitsFrom? (by rwa [hsecond]) (by rwa [hsecond])
  simp only [toFloat?, centered?, hlength, ne_eq, not_true_eq_false, if_false, hds, ok_bind]
  exact ⟨_, rfl⟩

end Reconstruction

namespace ResiduePoly

variable {a : ResiduePoly} {moduli : List RootTable}

/-- The residues of a coefficient, one for each prime. -/
theorem exists_coefficient? {index : ℕ} (hindex : ∀ t ∈ moduli, index < t.degree)
    (ha : a.Over moduli .coefficient) :
    ∃ column, a.coefficient? index = .ok column ∧ column.length = moduli.length ∧
      ∀ i t, moduli[i]? = some t → column[i]? = (a.row i)[index]? := by
  -- Every row is as long as the degree of its table, so none is too short for the index.
  have hrow : ∀ row ∈ a.residues, ∃ r, row[index]? = some r := by
    intro row hrow
    obtain ⟨channel, hchannel, rfl⟩ := List.mem_map.1 hrow
    obtain ⟨i, t, ht, rfl⟩ := ha.exists_of_mem hchannel
    have hlength := (ha.reduced ht).length
    have hlt := hindex t (List.mem_of_getElem? ht)
    exact ⟨_, List.getElem?_eq_getElem (show index < (a.row i).length by omega)⟩
  obtain ⟨column, hcolumn, hlength, hget⟩ := exists_mapM_eq_some hrow
  refine ⟨column, ?_, ?_, ?_⟩
  · rw [coefficient?, ha.form_eq, if_neg (by simp), hcolumn]
  · rw [hlength, residues, List.length_map, ha.length_eq]
  · intro i t ht
    exact hget i (a.row i) (by rw [residues, List.getElem?_map, ha.getElem?_eq ht, Option.map_some])

end ResiduePoly

end EncryptedArithmetic

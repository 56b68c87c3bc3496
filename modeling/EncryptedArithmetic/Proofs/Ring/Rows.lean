import EncryptedArithmetic.Proofs.Ring.Lift

/-!
# Polynomials from rows of residues

Rows are taken for a polynomial when there is one for each modulus and all of them are reduced.

## Main results

* `over_constant`, `image_constant`: the rows of a constant.
* `over_of_ofResidues?`: what is taken is kept over the moduli.
* `ofResidues?_residues`: a polynomial over the moduli is given back by its rows.
-/

namespace EncryptedArithmetic.ResiduePoly

open Polynomial EncryptedArithmetic.Modular

variable {moduli : List RootTable} {form : Form} {n : ℕ} {rows : List (List UInt64)}
  {a : ResiduePoly}

/-- A constant is kept over every list of moduli. -/
theorem over_constant (hm : ∀ t ∈ moduli, t.Sound) (value : ℤ) :
    (constant value moduli).Over moduli .transformed :=
  over_ofTables fun t ht => .replicate (ofInt_lt value (hm t ht).prime_pos) _

/-- A constant has the constant polynomial as its image: it has the same value at every root. -/
theorem image_constant (hm : ∀ t ∈ moduli, t.Sound) (value : ℤ) {i : ℕ} {t : RootTable}
    (ht : moduli[i]? = some t) : (constant value moduli).image i t = t.ofInt (C value) := by
  have hsound := hm t (List.mem_of_getElem? ht)
  have hover := over_constant hm value
  have hrow : (constant value moduli).row i =
      List.replicate t.degree (Modular.ofInt value t.prime) := row_ofTables ht
  rw [hover.image_eq, RootTable.ofInt, NegacyclicRing.ofInt_apply, map_C, eq_intCast,
    RootTable.read_eq_mk_iff hsound (hover.reduced ht), hrow, RootTable.entries,
    RootTable.rootValues_C hsound, Modular.residues, List.map_replicate,
    residue_ofInt value hsound.prime_pos]

/-- Rows are taken when there are as many as moduli and each is reduced for its modulus. -/
theorem ofResidues?_eq_some_iff (hn : ∀ t ∈ moduli, t.degree = n) :
    ofResidues? rows moduli form = some a ↔
      (rows.length = moduli.length ∧ ∀ (i : ℕ) (t : RootTable) (row : List UInt64),
        moduli[i]? = some t → rows[i]? = some row → Reduced t.prime t.degree row) ∧
      a = ⟨moduli.zipWith Channel.mk rows, form⟩ := by
  -- The degree is read off the table that leads the list; all tables have the same.
  have hdegree {t : RootTable} (ht : t ∈ moduli) :
      (moduli.head?.map RootTable.degree).getD 0 = t.degree := by
    obtain ⟨table, rest, rfl⟩ := List.exists_cons_of_ne_nil (List.ne_nil_of_mem ht)
    rw [List.head?_cons, Option.map_some, Option.getD_some, hn table List.mem_cons_self, hn t ht]
  have hfits {t : RootTable} (ht : t ∈ moduli) (row : List UInt64) :
      (row.length == (moduli.head?.map RootTable.degree).getD 0 && row.all (· < t.prime)) = true ↔
        Reduced t.prime t.degree row := by
    rw [hdegree ht, Bool.and_eq_true, beq_iff_eq, List.all_eq_true]
    simp only [decide_eq_true_eq]
    exact ⟨fun h => ⟨h.1, h.2⟩, fun h => ⟨h.length, h.lt⟩⟩
  have hall : (rows.zipWith (fun row t =>
        row.length == (moduli.head?.map RootTable.degree).getD 0 && row.all (· < t.prime))
        moduli).all id = true ↔
      ∀ (i : ℕ) (t : RootTable) (row : List UInt64), moduli[i]? = some t → rows[i]? = some row →
        Reduced t.prime t.degree row := by
    rw [List.all_eq_true]
    constructor
    · intro h i t row ht hrow
      exact (hfits (List.mem_of_getElem? ht) row).1
        (h _ (List.mem_of_getElem? (List.getElem?_zipWith_eq_some.2 ⟨row, t, hrow, ht, rfl⟩)))
    · intro h fit hfit
      obtain ⟨i, hi⟩ := List.getElem?_of_mem hfit
      obtain ⟨row, t, hrow, ht, rfl⟩ := List.getElem?_zipWith_eq_some.1 hi
      exact (hfits (List.mem_of_getElem? ht) row).2 (h i t row ht hrow)
  rw [ofResidues?, Option.ite_none_right_eq_some, Option.some.injEq, hall, eq_comm (a := a)]

/-- Rows that are taken give a polynomial over the moduli. -/
theorem over_of_ofResidues? (hn : ∀ t ∈ moduli, t.degree = n)
    (h : ofResidues? rows moduli form = some a) : a.Over moduli form := by
  obtain ⟨⟨hlen, hred⟩, rfl⟩ := (ofResidues?_eq_some_iff hn).1 h
  apply over_of_channels (by rw [List.length_zipWith, hlen, min_self])
  intro i t ht
  have hrow := List.getElem?_eq_getElem (l := rows) (hlen ▸ (List.getElem?_eq_some_iff.1 ht).1)
  exact ⟨_, List.getElem?_zipWith_eq_some.2 ⟨t, _, ht, hrow, rfl⟩, hred i t _ ht hrow⟩

/-- A polynomial over the moduli is given back by its rows. -/
theorem ofResidues?_residues (hn : ∀ t ∈ moduli, t.degree = n) (ha : a.Over moduli form) :
    ofResidues? a.residues moduli form = some a := by
  have hrow {i : ℕ} {t : RootTable} (ht : moduli[i]? = some t) :
      a.residues[i]? = some (a.row i) := by
    rw [residues, List.getElem?_map, ha.getElem?_eq ht, Option.map_some]
  refine (ofResidues?_eq_some_iff hn).2 ⟨⟨by rw [residues, List.length_map, ha.length_eq], ?_⟩, ?_⟩
  · intro i t row ht hi
    obtain rfl := Option.some.inj ((hrow ht).symm.trans hi)
    exact ha.reduced ht
  · obtain ⟨channels, form'⟩ := a
    obtain rfl : form' = form := ha.form_eq
    congr 1
    -- The channels are compared position by position.
    apply List.ext_getElem?
    intro i
    rw [List.getElem?_zipWith]
    rcases ht : moduli[i]? with _ | t
    · rw [List.getElem?_eq_none (ha.length_eq ▸ List.getElem?_eq_none_iff.1 ht)]
    · rw [hrow ht]
      exact ha.getElem?_eq ht

end EncryptedArithmetic.ResiduePoly

import EncryptedArithmetic.Proofs.Ring.Reconstruction
import EncryptedArithmetic.Proofs.Ring.Representation
import EncryptedArithmetic.Proofs.Ring.Substitution

/-!
# Automorphisms

An automorphism puts coefficients in another order and negates some of them. It succeeds for every
odd element `k` below twice the degree, in either form, and what it does to the ring element of each
channel is to put `X ^ k` for `X`. So it respects sums and products, one automorphism after another
is the one of the product of their elements, and the automorphism of the inverse element undoes it.

## Main results

* `Over.degree_eq`: the degree that an automorphism asks for is that of the tables.
* `getElem?_substitute`: where a coefficient goes, and with which sign.
* `exists_automorphism?`: automorphisms exist over the same moduli, and their images.
* `automorphism_of_build`: the laws of automorphisms over the tables that `RootTable.build` answers.
-/

namespace EncryptedArithmetic.ResiduePoly

open Polynomial EncryptedArithmetic.Modular NegacyclicRing

variable {moduli : List RootTable} {form : Form} {n k l : ℕ} {a a' b b' : ResiduePoly}

/-- The number of entries of a channel is the degree of the tables. -/
theorem Over.degree_eq (ha : a.Over moduli form) (hn : ∀ t ∈ moduli, t.degree = n)
    (hne : moduli ≠ []) : a.degree = n := by
  obtain ⟨table, rest, rfl⟩ := List.exists_cons_of_ne_nil hne
  have hhead : a.channels.head? = some ⟨table, a.row 0⟩ := by
    rw [List.head?_eq_getElem?]
    exact ha.getElem?_eq rfl
  rw [degree, hhead, Option.map_some, Option.getD_some, (ha.reduced rfl).length]
  exact hn table List.mem_cons_self

/-- Without a channel there is no element below twice the degree. -/
theorem Over.ne_nil_of_lt_degree (ha : a.Over moduli form) (hk : k < 2 * a.degree) :
    moduli ≠ [] := by
  rintro rfl
  have hnil : a.channels = [] := List.length_eq_zero_iff.1 ha.length_eq
  have hdegree : a.degree = 0 := by rw [degree, hnil]; rfl
  omega

/-! ## The permutation -/

theorem inverseElement_modEq (n k : ℕ) : inverseElement n k ≡ k ^ (n - 1) [MOD 2 * n] := by
  have hrepeat (m : ℕ) : m.repeat (fun w => w * k % (2 * n)) 1 ≡ k ^ m [MOD 2 * n] := by
    induction m with
    | zero => exact Nat.ModEq.refl _
    | succ m ih =>
      rw [pow_succ]
      exact (Nat.mod_modEq _ _).trans (ih.mul_right k)
  exact hrepeat (n - 1)

/-- For a power of two `n` an odd element has the inverse that is computed. -/
theorem inverseElement_mul_modEq_one (hk : Odd k) {d : ℕ} (hn : n = 2 ^ d) :
    inverseElement n k * k ≡ 1 [MOD 2 * n] := by
  have hpos : 1 ≤ n := hn ▸ Nat.one_le_two_pow
  calc inverseElement n k * k ≡ k ^ (n - 1) * k [MOD 2 * n] :=
        (inverseElement_modEq n k).mul_right k
    _ = k ^ n := by rw [← pow_succ, Nat.sub_add_cancel hpos]
    _ ≡ 1 [MOD 2 * n] := hn ▸ pow_two_pow_modEq_one hk d

/-- An entry, or zero past the end, is reduced. -/
theorem getD_toArray_lt {p : UInt64} (hp : 0 < p) {xs : List UInt64} (hx : ∀ x ∈ xs, x < p)
    (i : ℕ) : xs.toArray.getD i 0 < p := by
  rw [Array.getD_eq_getD_getElem?, List.getElem?_toArray]
  rcases h : xs[i]? with _ | x
  · exact hp
  · exact hx x (List.mem_of_getElem? h)

/-- Coefficients in another order, some of them negated, are reduced. -/
theorem reduced_substitute {p : UInt64} (hp : 0 < p) {xs : List UInt64} (hx : ∀ x ∈ xs, x < p) :
    Reduced p n (substitute n k p xs) := by
  refine ⟨by rw [substitute, List.length_map, List.length_range], ?_⟩
  intro y hy
  obtain ⟨j, -, rfl⟩ := List.mem_map.1 hy
  dsimp only
  split
  · exact getD_toArray_lt hp hx _
  · exact neg_lt (getD_toArray_lt hp hx _)

/-- The class of an entry, from that of the one it comes from. -/
theorem getD_residues_substitute {p : UInt64} (hp : 0 < p) {xs : List UInt64}
    (hx : ∀ x ∈ xs, x < p) {j : ℕ} (hj : j < n) :
    (Modular.residues p (substitute n k p xs)).getD j 0 =
      if j * inverseElement n k % (2 * n) < n then
        (Modular.residues p xs).getD (j * inverseElement n k % (2 * n)) 0
      else -(Modular.residues p xs).getD (j * inverseElement n k % (2 * n) - n) 0 := by
  have hget (i : ℕ) : xs.toArray.getD i 0 = xs.getD i 0 := by
    rw [Array.getD_eq_getD_getElem?, List.getElem?_toArray, List.getD_eq_getElem?_getD]
  rw [getD_residues, getD_residues, getD_residues, substitute,
    List.getD_eq_getElem _ _ (by simpa using hj), List.getElem_map, List.getElem_range]
  dsimp only
  split
  · rw [hget]
  · rw [residue_neg (getD_toArray_lt hp hx _), hget]

/-- Permuted coefficients stand for the element with `X ^ k` for `X`. -/
theorem read_substitute {t : RootTable} (ht : t.Sound) (hk : Odd k) {xs : List UInt64}
    (hx : Reduced t.prime t.degree xs) :
    t.read .coefficient (substitute t.degree k t.prime xs) =
      substitution hk (t.read .coefficient xs) := by
  have hred := reduced_substitute (n := t.degree) (k := k) ht.prime_pos hx.lt
  exact mk_ofCoefficients_eq_substitution hk (inverseElement_mul_modEq_one hk ht.degree_eq)
    ((length_residues _ _).trans hx.length) ((length_residues _ _).trans hred.length)
    fun j hj => getD_residues_substitute ht.prime_pos hx.lt hj

/-- Where a coefficient goes: `X ^ i` becomes `X ^ j` with `j = i * k` modulo `2 * n`, and that is
`-X ^ (j - n)` from `n` on. -/
theorem getElem?_substitute (hk : Odd k) {d : ℕ} (hn : n = 2 ^ d) {p : UInt64} {xs : List UInt64}
    {i : ℕ} {x : UInt64} (hi : i < n) (hx : xs[i]? = some x) :
    if i * k % (2 * n) < n then (substitute n k p xs)[i * k % (2 * n)]? = some x
    else (substitute n k p xs)[i * k % (2 * n) - n]? = some (Modular.neg x p) := by
  have hinverse := inverseElement_mul_modEq_one hk hn
  set w := inverseElement n k with hw
  set j := i * k % (2 * n) with hj
  have hjn : j < 2 * n := Nat.mod_lt _ (by omega)
  have hback : j * w ≡ i [MOD 2 * n] := by
    calc j * w ≡ i * k * w [MOD 2 * n] := (Nat.mod_modEq _ _).mul_right w
      _ = i * (w * k) := by ring
      _ ≡ i * 1 [MOD 2 * n] := hinverse.mul_left i
      _ = i := mul_one i
  by_cases hlt : j < n
  · have hsource : j * w % (2 * n) = i := Nat.mod_eq_of_modEq hback (by omega)
    rw [if_pos hlt]
    simp [substitute, hlt, ← hw, hsource, hi, hx]
  · -- The inverse is odd as well, so half a turn less leads to half a turn more.
    have hodd : Odd w := by
      have htwo : w * k ≡ 1 [MOD 2] := hinverse.of_dvd (Nat.dvd_mul_right 2 n)
      exact (Nat.odd_mul.1 (Nat.odd_iff.2 htwo)).1
    obtain ⟨m, hm⟩ := hodd
    have hsource : (j - n) * w % (2 * n) = i + n := by
      have hshift : (j - n) * w ≡ i + n [MOD 2 * n] := by
        refine Nat.ModEq.add_right_cancel' (2 * n * m + n) ?_
        calc (j - n) * w + (2 * n * m + n) = (j - n) * w + n * w := by rw [hm]; ring
          _ = j * w := by rw [← add_mul, Nat.sub_add_cancel (not_lt.1 hlt)]
          _ ≡ i [MOD 2 * n] := hback
          _ ≡ i + 2 * n * (m + 1) [MOD 2 * n] := (Nat.add_mul_mod_self_left _ _ _).symm
          _ = i + n + (2 * n * m + n) := by ring
      exact Nat.mod_eq_of_modEq hshift (by omega)
    have hjn' : j - n < n := by omega
    rw [if_neg hlt]
    simp [substitute, hjn', ← hw, hsource, hx]

/-- The constant coefficient stays where it is. -/
theorem getElem?_zero_substitute (hk : Odd k) {d : ℕ} (hn : n = 2 ^ d) {p : UInt64}
    {xs : List UInt64} (hx : xs.length = n) : (substitute n k p xs)[0]? = xs[0]? := by
  have hpos : 0 < n := hn ▸ Nat.two_pow_pos d
  have hget := List.getElem?_eq_getElem (hx.symm ▸ hpos : 0 < xs.length)
  have hzero := getElem?_substitute (p := p) hk hn hpos hget
  rw [zero_mul, Nat.zero_mod, if_pos hpos] at hzero
  rw [hzero, hget]

/-! ## Automorphisms over moduli -/

section Sound

variable (hm : ∀ t ∈ moduli, t.Sound) (hn : ∀ t ∈ moduli, t.degree = n) (hne : moduli ≠ [])
include hm hn hne

/-- In coefficient form every row is permuted. -/
theorem exists_automorphism?_of_coefficient (ha : a.Over moduli .coefficient) (hodd : k % 2 = 1)
    (hlt : k < 2 * n) :
    ∃ b, a.automorphism? k = .ok b ∧ b.Over moduli .coefficient ∧
      ∀ i t, moduli[i]? = some t → b.row i = substitute n k t.prime (a.row i) := by
  obtain ⟨hover, hrow⟩ := over_map ha
    (f := fun c => { c with residues := substitute n k c.prime c.residues })
    (P := fun i t xs => xs = substitute n k t.prime (a.row i))
    (fun {i t} ht => by
      have hsound := hm t (List.mem_of_getElem? ht)
      have hred := reduced_substitute (n := n) (k := k) hsound.prime_pos (ha.reduced ht).lt
      rw [← hn t (List.mem_of_getElem? ht)] at hred ⊢
      exact ⟨_, rfl, hred, rfl⟩)
  refine ⟨_, ?_, hover, hrow⟩
  rw [automorphism?, ha.degree_eq hn hne, if_pos ⟨hodd, hlt⟩, toCoefficient?, ha.form_eq, ok_bind,
    toForm?, toCoefficient?, ha.form_eq]

/-- An automorphism by an odd element below twice the degree exists in either form, and it puts
`X ^ k` for `X` in every channel. -/
theorem exists_automorphism? (ha : a.Over moduli form) (hodd : k % 2 = 1) (hlt : k < 2 * n) :
    ∃ b, a.automorphism? k = .ok b ∧ b.Over moduli form ∧ ∀ i t, moduli[i]? = some t →
      b.image i t = substitution (Nat.odd_iff.2 hodd) (a.image i t) := by
  obtain ⟨work, hwork, how, hiw⟩ := exists_toCoefficient? hm ha
  obtain ⟨c, hc, hoc, hrow⟩ := exists_automorphism?_of_coefficient hm hn hne how hodd hlt
  obtain ⟨b, hb, hob, hib⟩ := exists_toForm? hm hoc form
  refine ⟨b, ?_, hob, fun i t ht => ?_⟩
  · -- The channels are permuted by way of the coefficient form.
    rw [automorphism?, how.degree_eq hn hne, if_pos ⟨hodd, hlt⟩, toCoefficient?, how.form_eq,
      ok_bind, toForm?, toCoefficient?, how.form_eq] at hc
    obtain rfl := Except.ok.inj hc
    rw [automorphism?, ha.degree_eq hn hne, if_pos ⟨hodd, hlt⟩, hwork, ok_bind, ha.form_eq,
      how.form_eq]
    exact hb
  · have hmem := List.mem_of_getElem? ht
    rw [hib i t ht, ← hiw i t ht, hoc.image_eq, how.image_eq, hrow i t ht, ← hn t hmem]
    exact read_substitute (hm t hmem) _ (how.reduced ht)

/-! ## Laws -/

/-- What an automorphism answers is kept over the same moduli, and it is known by its images. -/
theorem automorphism?_eq_ok_iff (ha : a.Over moduli form) (hodd : k % 2 = 1) (hlt : k < 2 * n) :
    a.automorphism? k = .ok b ↔ b.Over moduli form ∧ ∀ i t, moduli[i]? = some t →
      b.image i t = substitution (Nat.odd_iff.2 hodd) (a.image i t) := by
  obtain ⟨c, hc, hoc, hic⟩ := exists_automorphism? hm hn hne ha hodd hlt
  constructor
  · intro h
    obtain rfl := Except.ok.inj (hc.symm.trans h)
    exact ⟨hoc, hic⟩
  · rintro ⟨hob, hib⟩
    rw [hc, eq_of_image_eq hm hoc hob fun i t ht => (hic i t ht).trans (hib i t ht).symm]

/-- The automorphism of one is the identity. -/
theorem automorphism?_one (ha : a.Over moduli form) (hpos : 0 < n) : a.automorphism? 1 = .ok a :=
  (automorphism?_eq_ok_iff hm hn hne ha rfl (by omega)).2
    ⟨ha, fun i t _ => (substitution_one _).symm⟩

section Laws

variable (ha : a.Over moduli form) (hb : b.Over moduli form) (hodd : k % 2 = 1) (hlt : k < 2 * n)
  (ha' : a.automorphism? k = .ok a') (hb' : b.automorphism? k = .ok b')
include ha hodd hlt ha'

/-- The integer polynomials behind a channel are those behind it before, with `X ^ k` for `X`. -/
theorem congruentAt_automorphism? {i : ℕ} (hi : i < a.channels.length) {F : ℤ[X]}
    (hF : a.CongruentAt i F) : a'.CongruentAt i (F.comp (X ^ k)) := by
  obtain ⟨hoa, hia⟩ := (automorphism?_eq_ok_iff hm hn hne ha hodd hlt).1 ha'
  have ht := List.getElem?_eq_getElem (l := moduli) (ha.length_eq ▸ hi)
  rw [ha.congruentAt_iff hm ht] at hF
  rw [hoa.congruentAt_iff hm ht, hia i _ ht, hF]
  exact substitution_ofInt _ F

include hb hb' in
/-- The automorphism of a sum is the sum of the automorphisms. -/
theorem exists_automorphism?_add : ∃ s s', a.add? b = .ok s ∧ a'.add? b' = .ok s' ∧
    s.automorphism? k = .ok s' := by
  obtain ⟨hoa, hia⟩ := (automorphism?_eq_ok_iff hm hn hne ha hodd hlt).1 ha'
  obtain ⟨hob, hib⟩ := (automorphism?_eq_ok_iff hm hn hne hb hodd hlt).1 hb'
  obtain ⟨s, hs, hos, his⟩ := exists_add? hm ha hb
  obtain ⟨s', hs', hos', his'⟩ := exists_add? hm hoa hob
  refine ⟨s, s', hs, hs', ?_⟩
  refine (automorphism?_eq_ok_iff hm hn hne hos hodd hlt).2 ⟨hos', fun i t ht => ?_⟩
  rw [(his' i t ht).2, (his i t ht).2, hia i t ht, hib i t ht, map_add]

include hb hb' in
/-- The automorphism of a product is the product of the automorphisms. -/
theorem exists_automorphism?_mul : ∃ a₁ b₁ p a₁' b₁' p', a.toTransformed? = .ok a₁ ∧
    b.toTransformed? = .ok b₁ ∧ a₁.mul? b₁ = .ok p ∧ a'.toTransformed? = .ok a₁' ∧
    b'.toTransformed? = .ok b₁' ∧ a₁'.mul? b₁' = .ok p' ∧ p.automorphism? k = .ok p' := by
  obtain ⟨hoa, hia⟩ := (automorphism?_eq_ok_iff hm hn hne ha hodd hlt).1 ha'
  obtain ⟨hob, hib⟩ := (automorphism?_eq_ok_iff hm hn hne hb hodd hlt).1 hb'
  obtain ⟨a₁, ha₁, hoa₁, hia₁⟩ := exists_toTransformed? hm ha
  obtain ⟨b₁, hb₁, hob₁, hib₁⟩ := exists_toTransformed? hm hb
  obtain ⟨p, hp, hop, hip⟩ := exists_mul? hm hoa₁ hob₁
  obtain ⟨a₁', ha₁', hoa₁', hia₁'⟩ := exists_toTransformed? hm hoa
  obtain ⟨b₁', hb₁', hob₁', hib₁'⟩ := exists_toTransformed? hm hob
  obtain ⟨p', hp', hop', hip'⟩ := exists_mul? hm hoa₁' hob₁'
  refine ⟨a₁, b₁, p, a₁', b₁', p', ha₁, hb₁, hp, ha₁', hb₁', hp', ?_⟩
  refine (automorphism?_eq_ok_iff hm hn hne hop hodd hlt).2 ⟨hop', fun i t ht => ?_⟩
  rw [hip' i t ht, hip i t ht, hia₁' i t ht, hib₁' i t ht, hia i t ht, hib i t ht, hia₁ i t ht,
    hib₁ i t ht, map_mul]

/-- One automorphism after another is the one of the product of their elements. -/
theorem exists_automorphism?_automorphism? (hoddl : l % 2 = 1) (hltl : l < 2 * n) :
    ∃ c, a'.automorphism? l = .ok c ∧ a.automorphism? (k * l % (2 * n)) = .ok c := by
  obtain ⟨hoa, hia⟩ := (automorphism?_eq_ok_iff hm hn hne ha hodd hlt).1 ha'
  obtain ⟨c, hc, hoc, hic⟩ := exists_automorphism? hm hn hne hoa hoddl hltl
  have hodd' : k * l % (2 * n) % 2 = 1 := by
    rw [Nat.mod_mod_of_dvd _ (Nat.dvd_mul_right 2 n), Nat.mul_mod, hodd, hoddl]
  have hlt' : k * l % (2 * n) < 2 * n := Nat.mod_lt _ (Nat.zero_lt_of_lt hlt)
  refine ⟨c, hc, (automorphism?_eq_ok_iff hm hn hne ha hodd' hlt').2 ⟨hoc, fun i t ht => ?_⟩⟩
  -- Two substitutions are one, whose exponent counts modulo twice the degree.
  have hmod : k * l ≡ k * l % (2 * n) [MOD 2 * t.degree] :=
    hn t (List.mem_of_getElem? ht) ▸ (Nat.mod_modEq _ _).symm
  rw [hic i t ht, hia i t ht, substitution_substitution, substitution_congr _ _ hmod]

/-- The automorphism of the inverse element undoes an automorphism. -/
theorem automorphism?_eq_self (hoddl : l % 2 = 1) (hltl : l < 2 * n)
    (hinverse : k * l % (2 * n) = 1) : a'.automorphism? l = .ok a := by
  obtain ⟨c, hc, hone⟩ := exists_automorphism?_automorphism? hm hn hne ha hodd hlt ha' hoddl hltl
  rw [hinverse] at hone
  rw [hc, ← hone, automorphism?_one hm hn hne ha (by omega)]

/-- The constant coefficient is unchanged. -/
theorem exists_constant_automorphism? : ∃ a₀ a₀' column, a.toCoefficient? = .ok a₀ ∧
    a'.toCoefficient? = .ok a₀' ∧ a₀.coefficient? 0 = .ok column ∧
    a₀'.coefficient? 0 = .ok column := by
  obtain ⟨hoa, hia⟩ := (automorphism?_eq_ok_iff hm hn hne ha hodd hlt).1 ha'
  obtain ⟨a₀, ha₀, hoa₀, hia₀⟩ := exists_toCoefficient? hm ha
  obtain ⟨a₀', ha₀', hoa₀', hia₀'⟩ := exists_toCoefficient? hm hoa
  -- In coefficient form the one is the automorphism of the other, which permutes its rows.
  have hauto : a₀.automorphism? k = .ok a₀' := by
    refine (automorphism?_eq_ok_iff hm hn hne hoa₀ hodd hlt).2 ⟨hoa₀', fun i t ht => ?_⟩
    rw [hia₀' i t ht, hia i t ht, hia₀ i t ht]
  obtain ⟨c, hc, -, hrow⟩ := exists_automorphism?_of_coefficient hm hn hne hoa₀ hodd hlt
  obtain rfl := Except.ok.inj (hauto.symm.trans hc)
  have hpos (t : RootTable) (ht : t ∈ moduli) : 0 < t.degree :=
    Nat.pos_of_ne_zero (hm t ht).degree_ne_zero
  obtain ⟨x, hx, hlength, hget⟩ := exists_coefficient? hpos hoa₀
  obtain ⟨x', hx', hlength', hget'⟩ := exists_coefficient? hpos hoa₀'
  have heq : x' = x := by
    apply List.ext_getElem?
    intro i
    rcases ht : moduli[i]? with _ | t
    · have hle := List.getElem?_eq_none_iff.1 ht
      rw [List.getElem?_eq_none (hlength'.trans_le hle),
        List.getElem?_eq_none (hlength.trans_le hle)]
    · have hmem := List.mem_of_getElem? ht
      rw [hget' i t ht, hget i t ht, hrow i t ht]
      exact getElem?_zero_substitute (Nat.odd_iff.2 hodd) (hn t hmem ▸ (hm t hmem).degree_eq)
        ((hoa₀.reduced ht).length.trans (hn t hmem))
  exact ⟨a₀, a₀', x, ha₀, ha₀', hx, heq ▸ hx'⟩

end Laws

/-- A row of automorphisms is the one of the product of their elements. -/
theorem foldlM_automorphism? (ha : a.Over moduli form) (hpos : 0 < n) {path : List ℕ}
    (hpath : ∀ k ∈ path, k % 2 = 1 ∧ k < 2 * n) :
    path.foldlM (fun b k => b.automorphism? k) a = a.automorphism? (path.prod % (2 * n)) := by
  -- By induction on the path, whatever polynomial has been reached.
  induction path generalizing a with
  | nil =>
    have hone : 1 % (2 * n) = 1 := Nat.mod_eq_of_lt (by omega)
    rw [List.foldlM_nil, List.prod_nil, hone, automorphism?_one hm hn hne ha hpos]
    rfl
  | cons k path ih =>
    obtain ⟨⟨hodd, hlt⟩, hrest⟩ := List.forall_mem_cons.1 hpath
    obtain ⟨a', ha', hoa, -⟩ := exists_automorphism? hm hn hne ha hodd hlt
    -- The rest of the path is itself one automorphism, by an odd element.
    have hoddp : path.prod % (2 * n) % 2 = 1 := by
      rw [Nat.mod_mod_of_dvd _ (Nat.dvd_mul_right 2 n), ← Nat.odd_iff]
      exact List.prod_induction Odd (fun _ _ => Odd.mul) odd_one fun l hl =>
        Nat.odd_iff.2 (hrest l hl).1
    obtain ⟨c, hc, hprod⟩ := exists_automorphism?_automorphism? hm hn hne ha hodd hlt ha' hoddp
      (Nat.mod_lt _ (by omega))
    rw [List.foldlM_cons, ha', ok_bind, ih hoa hrest, hc, List.prod_cons, ← hprod, Nat.mul_mod_mod]

end Sound

/-- Over tables of degree `N` that were built for primes below `2 ^ 63`, in either form, and for odd
elements `k` and `l` below `2 * N`: the automorphism of `k` keeps the form, and in every channel it
puts `X ^ k` for `X` in whichever integer polynomial is behind the residues. So it respects sums and
products, the automorphism of `l` behind it is that of `k * l` modulo `2 * N` and undoes it if this
is one, and the constant coefficient is unchanged. -/
theorem automorphism_of_build (hne : moduli ≠ [])
    (htables : ∀ t ∈ moduli, ∃ p : UInt64,
      p.toNat.Prime ∧ p.toNat < 2 ^ 63 ∧ RootTable.build p n = .ok t)
    (hk : k % 2 = 1 ∧ k < 2 * n) (hl : l % 2 = 1 ∧ l < 2 * n) (ha : a.Over moduli form)
    (hb : b.Over moduli form) :
    ∃ a' b', a.automorphism? k = .ok a' ∧ b.automorphism? k = .ok b' ∧ a'.Over moduli form ∧
      (∀ i < a.channels.length, (∃ F, a.CongruentAt i F) ∧
        ∀ F, a.CongruentAt i F → a'.CongruentAt i (F.comp (X ^ k))) ∧
      (∃ s s', a.add? b = .ok s ∧ a'.add? b' = .ok s' ∧ s.automorphism? k = .ok s') ∧
      (∃ a₁ b₁ p a₁' b₁' p', a.toTransformed? = .ok a₁ ∧ b.toTransformed? = .ok b₁ ∧
        a₁.mul? b₁ = .ok p ∧ a'.toTransformed? = .ok a₁' ∧ b'.toTransformed? = .ok b₁' ∧
        a₁'.mul? b₁' = .ok p' ∧ p.automorphism? k = .ok p') ∧
      (∃ c, a'.automorphism? l = .ok c ∧ a.automorphism? (k * l % (2 * n)) = .ok c) ∧
      (k * l % (2 * n) = 1 → a'.automorphism? l = .ok a) ∧
      ∃ a₀ a₀' column, a.toCoefficient? = .ok a₀ ∧ a'.toCoefficient? = .ok a₀' ∧
        a₀.coefficient? 0 = .ok column ∧ a₀'.coefficient? 0 = .ok column := by
  obtain ⟨hm, hn⟩ := RootTable.sound_of_forall_build htables
  obtain ⟨hodd, hlt⟩ := hk
  obtain ⟨a', ha', hoa, -⟩ := exists_automorphism? hm hn hne ha hodd hlt
  obtain ⟨b', hb', -, -⟩ := exists_automorphism? hm hn hne hb hodd hlt
  refine ⟨a', b', ha', hb', hoa, fun i hi => ⟨ha.exists_congruentAt hm hi, fun F hF => ?_⟩,
    ?_, ?_, ?_, ?_, ?_⟩
  · exact congruentAt_automorphism? hm hn hne ha hodd hlt ha' hi hF
  · exact exists_automorphism?_add hm hn hne ha hb hodd hlt ha' hb'
  · exact exists_automorphism?_mul hm hn hne ha hb hodd hlt ha' hb'
  · exact exists_automorphism?_automorphism? hm hn hne ha hodd hlt ha' hl.1 hl.2
  · exact automorphism?_eq_self hm hn hne ha hodd hlt ha' hl.1 hl.2
  · exact exists_constant_automorphism? hm hn hne ha hodd hlt ha'

/-- Modulo `17` and `X ^ 4 + 1`, putting `X ^ 3` for `X` takes `1 + 2 * X + 3 * X ^ 2 + 4 * X ^ 3`
to `1 + 4 * X - 3 * X ^ 2 + 2 * X ^ 3`, and since `3 * 3` is one modulo eight, back again. -/
theorem automorphism_seventeen :
    ∃ t, RootTable.build 17 4 = .ok t ∧
      automorphism? 3 ⟨[⟨t, [1, 2, 3, 4]⟩], .coefficient⟩ =
        .ok ⟨[⟨t, [1, 4, 14, 2]⟩], .coefficient⟩ ∧
      automorphism? 3 ⟨[⟨t, [1, 4, 14, 2]⟩], .coefficient⟩ =
        .ok ⟨[⟨t, [1, 2, 3, 4]⟩], .coefficient⟩ := by
  obtain ⟨t, ht⟩ : ∃ t, RootTable.build 17 4 = .ok t := ⟨_, rfl⟩
  obtain ⟨hprime, hdegree⟩ := RootTable.prime_of_build ht
  have htables : ∀ u ∈ [t], ∃ p : UInt64,
      p.toNat.Prime ∧ p.toNat < 2 ^ 63 ∧ RootTable.build p 4 = .ok u := by
    have hseventeen : Nat.Prime 17 := by norm_num
    exact List.forall_mem_singleton.2 ⟨17, hseventeen, by decide, ht⟩
  have ha : (⟨[⟨t, [1, 2, 3, 4]⟩], .coefficient⟩ : ResiduePoly).Over [t] .coefficient := by
    refine over_of_channels rfl fun {i u} hu => ?_
    obtain ⟨rfl, rfl⟩ : i = 0 ∧ t = u := by simpa [List.getElem?_singleton] using hu
    refine ⟨_, rfl, hdegree.symm, ?_⟩
    simp only [hprime, List.forall_mem_cons, List.not_mem_nil, false_imp_iff, implies_true,
      and_true]
    decide
  obtain ⟨a', -, haa, -, -, -, -, -, -, hback, -⟩ := automorphism_of_build (by simp) htables
    (⟨rfl, by decide⟩ : 3 % 2 = 1 ∧ 3 < 2 * 4) (⟨rfl, by decide⟩ : 3 % 2 = 1 ∧ 3 < 2 * 4) ha ha
  have hvalue : automorphism? 3 ⟨[⟨t, [1, 2, 3, 4]⟩], .coefficient⟩ =
      .ok ⟨[⟨t, [1, 4, 14, 2]⟩], .coefficient⟩ := by
    have hrow : substitute 4 3 t.prime [1, 2, 3, 4] = [1, 4, 14, 2] := by
      rw [hprime]
      rfl
    rw [← hrow]
    rfl
  obtain rfl := Except.ok.inj (hvalue.symm.trans haa)
  exact ⟨t, ht, hvalue, hback rfl⟩

end EncryptedArithmetic.ResiduePoly

import EncryptedArithmetic.Modular.Vector
import Mathlib.FieldTheory.Finite.Basic
import Mathlib.Data.List.GetD

/-!
# Words as residues

A word stands for its class modulo `m`, an element of `ZMod m`. Sums, differences, products, powers
and inverses of words are those of the classes, and vectors of reduced words are vectors over
`ZMod m`.

## Main results

* `residue_mul`, `residue_add`, `residue_sub`, `residue_neg`, `residue_ofInt`: what the operations
  on words do to the classes; sums need a modulus of at most `2 ^ 63`.
* `toNat_pow` and `residue_mul_of_inverse?`: square and multiply is exact, and the power `p - 2`
  inverts modulo a prime.
* `Reduced`: vectors of a given length with entries below the modulus, which all operations keep.
-/

namespace EncryptedArithmetic.Modular

/-- The class of a word. -/
def residue (m x : UInt64) : ZMod m.toNat :=
  (x.toNat : ZMod m.toNat)

/-- Reduced words are told apart by their classes. -/
theorem eq_of_residue_eq {m a b : UInt64} (ha : a < m) (hb : b < m)
    (h : residue m a = residue m b) : a = b := by
  rw [UInt64.lt_iff_toNat_lt] at ha hb
  have hmod := (ZMod.natCast_eq_natCast_iff' _ _ _).1 h
  rw [Nat.mod_eq_of_lt ha, Nat.mod_eq_of_lt hb] at hmod
  exact UInt64.toNat_inj.1 hmod

section Operations

variable {m a b : UInt64}

theorem pos_of_lt (h : a < m) : 0 < m := by
  rw [UInt64.lt_iff_toNat_lt] at h ⊢
  exact Nat.lt_of_le_of_lt (Nat.zero_le _) h

@[simp]
theorem residue_mul (a b : UInt64) (hm : 0 < m) :
    residue m (mul a b m) = residue m a * residue m b := by
  rw [residue, toNat_mul a b hm, ZMod.natCast_mod, Nat.cast_mul, residue, residue]

theorem residue_add (ha : a < m) (hb : b < m) (hm : m.toNat ≤ UInt64.size / 2) :
    residue m (add a b m) = residue m a + residue m b := by
  rw [residue, toNat_add ha hb hm, ZMod.natCast_mod, Nat.cast_add, residue, residue]

theorem residue_sub (ha : a < m) (hb : b < m) :
    residue m (sub a b m) = residue m a - residue m b := by
  rw [UInt64.lt_iff_toNat_lt] at hb
  rw [residue, toNat_sub ha (UInt64.lt_iff_toNat_lt.2 hb), ZMod.natCast_mod,
    Nat.cast_sub (by omega), Nat.cast_add, ZMod.natCast_self, add_zero, residue, residue]

theorem residue_neg (ha : a < m) : residue m (neg a m) = -residue m a := by
  rw [neg, residue_sub (pos_of_lt ha) ha]
  simp [residue]

theorem residue_ofInt (x : ℤ) (hm : 0 < m) : residue m (ofInt x m) = (x : ZMod m.toNat) := by
  have h := toNat_ofInt x hm
  rw [residue, ← Int.cast_natCast, h, ZMod.intCast_mod]

theorem toNat_pred (hm : 0 < m) : (m - 1).toNat = m.toNat - 1 := by
  have hle : (1 : UInt64) ≤ m := by
    rw [UInt64.lt_iff_toNat_lt] at hm
    rw [UInt64.le_iff_toNat_le]
    exact hm
  rw [UInt64.toNat_sub_of_le _ _ hle, UInt64.toNat_one]

theorem pred_lt (hm : 0 < m) : m - 1 < m := by
  have hpos : 0 < m.toNat := UInt64.lt_iff_toNat_lt.1 hm
  rw [UInt64.lt_iff_toNat_lt, toNat_pred hm]
  exact Nat.sub_lt hpos Nat.one_pos

/-- The largest reduced word is the class of minus one. -/
theorem residue_pred (hm : 0 < m) : residue m (m - 1) = -1 := by
  have hpos : 1 ≤ m.toNat := UInt64.lt_iff_toNat_lt.1 hm
  rw [residue, toNat_pred hm, Nat.cast_sub hpos, ZMod.natCast_self, Nat.cast_one, zero_sub]

theorem lt_of_toNat_eq_mod {r : UInt64} {x : ℕ} (hm : 0 < m) (h : r.toNat = x % m.toNat) :
    r < m := by
  rw [UInt64.lt_iff_toNat_lt, h]
  exact Nat.mod_lt _ (UInt64.lt_iff_toNat_lt.1 hm)

theorem mul_lt (a b : UInt64) (hm : 0 < m) : mul a b m < m :=
  lt_of_toNat_eq_mod hm (toNat_mul a b hm)

theorem add_lt (ha : a < m) (hb : b < m) (hm : m.toNat ≤ UInt64.size / 2) : add a b m < m :=
  lt_of_toNat_eq_mod (pos_of_lt ha) (toNat_add ha hb hm)

theorem sub_lt (ha : a < m) (hb : b < m) : sub a b m < m :=
  lt_of_toNat_eq_mod (pos_of_lt ha) (toNat_sub ha hb)

theorem neg_lt (ha : a < m) : neg a m < m :=
  sub_lt (pos_of_lt ha) ha

theorem ofInt_lt (x : ℤ) (hm : 0 < m) : ofInt x m < m := by
  have hpos : (0 : ℤ) < m.toNat := by exact_mod_cast UInt64.lt_iff_toNat_lt.1 hm
  have h := toNat_ofInt x hm
  have hlt := Int.emod_lt_of_pos x hpos
  rw [UInt64.lt_iff_toNat_lt]
  omega

end Operations

/-! ## Powers and inverses -/

theorem toNat_and_one (n : UInt64) : (n &&& 1).toNat = n.toNat % 2 := by
  rw [UInt64.toNat_and, UInt64.toNat_one, Nat.and_one_is_mod]

theorem toNat_shiftRight_one (n : UInt64) : (n >>> 1).toNat = n.toNat / 2 := by
  rw [UInt64.toNat_shiftRight]
  simp [Nat.shiftRight_eq_div_pow]

/-- Square and multiply over enough bits of the exponent. -/
theorem toNat_powFrom {m : UInt64} (hm : 1 < m.toNat) (bits : ℕ) (base exp acc : UInt64)
    (hexp : exp.toNat < 2 ^ bits) (hacc : acc.toNat < m.toNat) :
    (powFrom m bits base exp acc).toNat = acc.toNat * base.toNat ^ exp.toNat % m.toNat := by
  have hpos : 0 < m := UInt64.lt_iff_toNat_lt.2 (Nat.lt_of_succ_lt hm)
  -- By induction on the bits that are left; what is kept is `acc * base ^ exp`.
  induction bits generalizing base exp acc with
  | zero =>
    obtain hz : exp.toNat = 0 := by simpa using hexp
    rw [powFrom, hz, pow_zero, mul_one, Nat.mod_eq_of_lt hacc]
  | succ bits ih =>
    rw [powFrom]
    split
    · rename_i hz
      rw [hz]
      simp [Nat.mod_eq_of_lt hacc]
    · have hhalf := toNat_shiftRight_one exp
      have hlow : (exp &&& 1 = 1) ↔ exp.toNat % 2 = 1 := by
        rw [← UInt64.toNat_inj, toNat_and_one, UInt64.toNat_one]
      have hrest : (exp >>> 1).toNat < 2 ^ bits := by
        rw [hhalf]
        omega
      have hparity := Nat.div_add_mod exp.toNat 2
      by_cases hodd : exp &&& 1 = 1
      · -- The lowest bit of the exponent puts one more `base` into the accumulator.
        rw [if_pos hodd, ih _ _ _ hrest (UInt64.lt_iff_toNat_lt.1 (mul_lt acc base hpos)),
          toNat_mul acc base hpos, toNat_mul base base hpos, hhalf]
        have hexp : exp.toNat = 2 * (exp.toNat / 2) + 1 := by
          have := hlow.1 hodd
          omega
        conv_rhs => rw [hexp, pow_succ, pow_mul, pow_two]
        rw [Nat.mul_mod, Nat.mod_mod, ← Nat.pow_mod, ← Nat.mul_mod]
        ring_nf
      · rw [if_neg hodd, ih _ _ _ hrest hacc, toNat_mul base base hpos, hhalf]
        have hexp : exp.toNat = 2 * (exp.toNat / 2) := by
          have := mt hlow.2 hodd
          omega
        conv_rhs => rw [hexp, pow_mul, pow_two]
        rw [Nat.mul_mod, ← Nat.pow_mod, ← Nat.mul_mod]

/-- The power is exact for every base, exponent and positive modulus. -/
theorem toNat_pow (base exp : UInt64) {m : UInt64} (hm : 0 < m) :
    (pow base exp m).toNat = base.toNat ^ exp.toNat % m.toNat := by
  rw [UInt64.lt_iff_toNat_lt] at hm
  rw [pow]
  split
  · rename_i h
    simp [h, Nat.mod_one]
  · rename_i h
    have hone : m.toNat ≠ 1 := fun he => h (UInt64.toNat_inj.1 he)
    have h1 : 1 < m.toNat := by
      have : (0 : UInt64).toNat = 0 := rfl
      omega
    rw [toNat_powFrom h1 64 _ _ _ exp.toNat_lt (by simpa using h1), UInt64.toNat_mod]
    simp [← Nat.pow_mod]

theorem residue_pow (base exp : UInt64) {m : UInt64} (hm : 0 < m) :
    residue m (pow base exp m) = residue m base ^ exp.toNat := by
  rw [residue, toNat_pow base exp hm, ZMod.natCast_mod, Nat.cast_pow, residue]

/-- Modulo a prime, everything but the multiples of the prime has an inverse. -/
theorem exists_inverse? {p : UInt64} (hp : p.toNat.Prime) {a : UInt64} (ha : residue p a ≠ 0) :
    ∃ b, inverse? a p = .ok b := by
  have hp0 : p ≠ 0 := fun h => absurd hp (by simp [h, Nat.not_prime_zero])
  have hne : a % p ≠ 0 := by
    intro h
    have hmod := congrArg UInt64.toNat h
    rw [UInt64.toNat_mod] at hmod
    exact ha ((ZMod.natCast_eq_zero_iff _ _).2 (Nat.dvd_of_mod_eq_zero hmod))
  exact ⟨_, by rw [inverse?, if_neg hp0, if_neg hne]⟩

/-- What is answered modulo a prime is the inverse. -/
theorem residue_mul_of_inverse? {p : UInt64} (hp : p.toNat.Prime) {a b : UInt64}
    (h : inverse? a p = .ok b) : b < p ∧ residue p a * residue p b = 1 := by
  have : Fact p.toNat.Prime := ⟨hp⟩
  have hpos : 0 < p := UInt64.lt_iff_toNat_lt.2 hp.pos
  rw [inverse?] at h
  split at h
  · cases h
  split at h
  · cases h
  rename_i hne
  obtain rfl := Except.ok.inj h
  have hmod : residue p (a % p) = residue p a := by
    rw [residue, UInt64.toNat_mod, ZMod.natCast_mod, residue]
  have ha : residue p a ≠ 0 := by
    intro hzero
    have hdvd := (ZMod.natCast_eq_zero_iff _ _).1 hzero
    exact hne (UInt64.toNat_inj.1 (by rw [UInt64.toNat_mod, Nat.mod_eq_zero_of_dvd hdvd]; rfl))
  have h2 : (p - 2).toNat = p.toNat - 2 := by
    have hle : (2 : UInt64) ≤ p := UInt64.le_iff_toNat_le.2 hp.two_le
    rw [UInt64.toNat_sub_of_le _ _ hle]
    rfl
  have hexp : p.toNat - 2 + 1 = p.toNat - 1 := by
    have := hp.two_le
    omega
  -- The product with the base is the power `p - 1`, which is one modulo a prime.
  refine ⟨lt_of_toNat_eq_mod hpos (toNat_pow _ _ hpos), ?_⟩
  rw [residue_pow _ _ hpos, hmod, h2, ← pow_succ', hexp, ZMod.pow_card_sub_one_eq_one ha]

/-- Modulo a prime, every other prime has an inverse. -/
theorem exists_inverse?_of_prime {p q : UInt64} (hp : p.toNat.Prime) (hq : q.toNat.Prime)
    (hne : p ≠ q) :
    ∃ b, inverse? (p % q) q = .ok b ∧ (p.toNat : ZMod q.toNat) * residue q b = 1 := by
  have hclass : residue q (p % q) = p.toNat := by
    rw [residue, UInt64.toNat_mod, ZMod.natCast_mod]
  have hunit : residue q (p % q) ≠ 0 := by
    rw [hclass, Ne, ZMod.natCast_eq_zero_iff, Nat.prime_dvd_prime_iff_eq hq hp]
    exact fun h => hne (UInt64.toNat_inj.1 h.symm)
  obtain ⟨b, hb⟩ := exists_inverse? hq hunit
  exact ⟨b, hb, hclass ▸ (residue_mul_of_inverse? hq hb).2⟩

/-! ## Vectors -/

/-- `n` words below the modulus. -/
structure Reduced (m : UInt64) (n : ℕ) (xs : List UInt64) : Prop where
  length : xs.length = n
  lt : ∀ x ∈ xs, x < m

/-- The classes of the entries. -/
def residues (m : UInt64) (xs : List UInt64) : List (ZMod m.toNat) :=
  xs.map (residue m)

@[simp]
theorem length_residues (m : UInt64) (xs : List UInt64) :
    (residues m xs).length = xs.length :=
  List.length_map _

@[simp]
theorem residues_append (m : UInt64) (xs ys : List UInt64) :
    residues m (xs ++ ys) = residues m xs ++ residues m ys :=
  List.map_append

theorem getD_residues (m : UInt64) (xs : List UInt64) (k : ℕ) :
    (residues m xs).getD k 0 = residue m (xs.getD k 0) := by
  have h0 : residue m 0 = 0 := by simp [residue]
  rw [residues, ← h0, List.getD_map]

namespace Reduced

variable {m : UInt64} {n : ℕ} {xs ys : List UInt64}

/-- Reduced vectors are told apart by their classes. -/
theorem eq_of_residues_eq (hx : Reduced m n xs) (hy : Reduced m n ys)
    (h : residues m xs = residues m ys) : xs = ys := by
  apply List.ext_getElem (hx.length.trans hy.length.symm)
  intro i hi hj
  refine eq_of_residue_eq (hx.lt _ (List.getElem_mem hi)) (hy.lt _ (List.getElem_mem hj)) ?_
  have hget := List.getElem_of_eq h (i := i) (by simpa using hi)
  simpa [residues] using hget

theorem take (hx : Reduced m n xs) {k : ℕ} (hk : k ≤ n) : Reduced m k (xs.take k) :=
  ⟨by rw [List.length_take, hx.length, min_eq_left hk], fun x h => hx.lt x (List.mem_of_mem_take h)⟩

theorem drop (hx : Reduced m n xs) (k : ℕ) : Reduced m (n - k) (xs.drop k) :=
  ⟨by rw [List.length_drop, hx.length], fun x h => hx.lt x (List.mem_of_mem_drop h)⟩

theorem append {k : ℕ} (hx : Reduced m n xs) (hy : Reduced m k ys) : Reduced m (n + k) (xs ++ ys) :=
  ⟨by rw [List.length_append, hx.length, hy.length], fun x h =>
    (List.mem_append.1 h).elim (hx.lt x) (hy.lt x)⟩

theorem replicate {x : UInt64} (hx : x < m) (n : ℕ) : Reduced m n (List.replicate n x) :=
  ⟨List.length_replicate, fun _ h => (List.eq_of_mem_replicate h).symm ▸ hx⟩

/-- An operation on entries that keeps them reduced keeps vectors reduced. -/
theorem map {f : UInt64 → UInt64} (hf : ∀ a < m, f a < m) (hx : Reduced m n xs) :
    Reduced m n (xs.map f) := by
  refine ⟨by rw [List.length_map, hx.length], ?_⟩
  intro x h
  obtain ⟨y, hy, rfl⟩ := List.mem_map.1 h
  exact hf y (hx.lt y hy)

theorem zipWith {f : UInt64 → UInt64 → UInt64} (hf : ∀ a < m, ∀ b < m, f a b < m)
    (hx : Reduced m n xs) (hy : Reduced m n ys) : Reduced m n (xs.zipWith f ys) := by
  refine ⟨by simp [hx.length, hy.length], ?_⟩
  intro x h
  rw [← List.map_uncurry_zip_eq_zipWith] at h
  obtain ⟨⟨a, b⟩, hab, rfl⟩ := List.mem_map.1 h
  exact hf a (hx.lt a (List.of_mem_zip hab).1) b (hy.lt b (List.of_mem_zip hab).2)

/-- An operation on entries acts on the classes as one on classes does. -/
theorem residues_map {f : UInt64 → UInt64} {g : ZMod m.toNat → ZMod m.toNat}
    (hf : ∀ a < m, residue m (f a) = g (residue m a)) (hx : Reduced m n xs) :
    residues m (xs.map f) = (residues m xs).map g := by
  rw [residues, residues, List.map_map, List.map_map]
  exact List.map_congr_left fun a ha => hf a (hx.lt a ha)

theorem residues_zipWith {f : UInt64 → UInt64 → UInt64}
    {g : ZMod m.toNat → ZMod m.toNat → ZMod m.toNat}
    (hf : ∀ a < m, ∀ b < m, residue m (f a b) = g (residue m a) (residue m b))
    (hx : Reduced m n xs) (hy : Reduced m n ys) :
    residues m (xs.zipWith f ys) = (residues m xs).zipWith g (residues m ys) := by
  rw [residues, residues, residues, List.map_zipWith, List.zipWith_map,
    ← List.map_uncurry_zip_eq_zipWith, ← List.map_uncurry_zip_eq_zipWith]
  refine List.map_congr_left fun ⟨a, b⟩ hab => ?_
  exact hf a (hx.lt a (List.of_mem_zip hab).1) b (hy.lt b (List.of_mem_zip hab).2)

end Reduced

/-! ### Vector arithmetic -/

section Arithmetic

variable {m : UInt64} {n : ℕ} {xs ys : List UInt64}

/-- Products with a word; the entries need not be reduced. -/
theorem reduced_scaleEach (hm : 0 < m) (k : UInt64) (hx : xs.length = n) :
    Reduced m n (scaleEach m k xs) := by
  refine ⟨by rw [scaleEach, List.length_map, hx], ?_⟩
  intro x h
  obtain ⟨y, -, rfl⟩ := List.mem_map.1 h
  exact mul_lt y k hm

theorem residues_scaleEach (hm : 0 < m) (k : UInt64) (xs : List UInt64) :
    residues m (scaleEach m k xs) = (residues m xs).map (· * residue m k) := by
  rw [residues, residues, scaleEach, List.map_map, List.map_map]
  exact List.map_congr_left fun a _ => residue_mul a k hm

theorem reduced_mulEach (hm : 0 < m) (hx : Reduced m n xs) (hy : Reduced m n ys) :
    Reduced m n (mulEach m xs ys) :=
  Reduced.zipWith (fun a _ b _ => mul_lt a b hm) hx hy

theorem residues_mulEach (hm : 0 < m) (hx : Reduced m n xs) (hy : Reduced m n ys) :
    residues m (mulEach m xs ys) = (residues m xs).zipWith (· * ·) (residues m ys) :=
  Reduced.residues_zipWith (fun a _ b _ => residue_mul a b hm) hx hy

/-- Sums of reduced vectors over a modulus of at most `2 ^ 63` exist. -/
theorem exists_addEach? (hm : m.toNat ≤ UInt64.size / 2) (hx : Reduced m n xs)
    (hy : Reduced m n ys) :
    ∃ zs, addEach? m xs ys = .ok zs ∧ Reduced m n zs ∧
      residues m zs = (residues m xs).zipWith (· + ·) (residues m ys) :=
  ⟨_, addEach?_eq_ok hx.lt hy.lt hm, Reduced.zipWith (fun _ ha _ hb => add_lt ha hb hm) hx hy,
    Reduced.residues_zipWith (fun _ ha _ hb => residue_add ha hb hm) hx hy⟩

/-- Differences of reduced vectors exist. -/
theorem exists_subEach? (hx : Reduced m n xs) (hy : Reduced m n ys) :
    ∃ zs, subEach? m xs ys = .ok zs ∧ Reduced m n zs ∧
      residues m zs = (residues m xs).zipWith (· - ·) (residues m ys) :=
  ⟨_, subEach?_eq_ok hy.lt, Reduced.zipWith (fun _ ha _ hb => sub_lt ha hb) hx hy,
    Reduced.residues_zipWith (fun _ ha _ hb => residue_sub ha hb) hx hy⟩

theorem reduced_map_neg (hx : Reduced m n xs) : Reduced m n (xs.map (neg · m)) :=
  Reduced.map (fun _ ha => neg_lt ha) hx

theorem residues_map_neg (hx : Reduced m n xs) :
    residues m (xs.map (neg · m)) = (residues m xs).map (- ·) :=
  Reduced.residues_map (fun _ ha => residue_neg ha) hx

end Arithmetic

end EncryptedArithmetic.Modular

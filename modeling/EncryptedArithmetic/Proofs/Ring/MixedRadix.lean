import EncryptedArithmetic.Proofs.Ring.Reconstruction

/-!
# The integer behind its residues

The digits that are found one prime after the other are those of an integer below the product of the
primes, which has the residues they were found from. In 1024-bit arithmetic the integer and the
product are exact as long as the product is below `2 ^ 1023`, so what is formed in the end is the
integer nearest to zero, and there is no other one with these residues.

## Main definitions

* `value`: the integer that mixed-radix digits stand for.
* `Fits`: 1024-bit arithmetic is exact over some primes.
* `signed`: the integer of a sign and a magnitude.

## Main results

* `value_of_digitsFrom?`: the digits have the residues they were found from.
* `exists_centered?`: the integer that is formed, and its range.
* `eq_of_residue_eq`: it is the only one.
* `ResiduePoly.exists_centered?`: the coefficient of an integer polynomial that is kept over primes.
-/

namespace EncryptedArithmetic

open EncryptedArithmetic.Modular

namespace Reconstruction

/-! ## Mixed-radix digits -/

/-- The value of digits, each with its prime, the lowest first. -/
def value : List (UInt64 × UInt64) → ℕ
  | [] => 0
  | (d, q) :: rest => d.toNat + q.toNat * value rest

/-- The product of the primes. -/
def product (primes : List UInt64) : ℕ :=
  (primes.map UInt64.toNat).prod

variable {q : UInt64} {ds es known rest : List (UInt64 × UInt64)}

theorem product_append (ps qs : List UInt64) : product (ps ++ qs) = product ps * product qs := by
  rw [product, List.map_append, List.prod_append, product, product]

theorem product_pos {primes : List UInt64} (h : ∀ p ∈ primes, 0 < p.toNat) :
    0 < product primes := by
  apply List.prod_pos
  intro n hn
  obtain ⟨p, hp, rfl⟩ := List.mem_map.1 hn
  exact h p hp

/-- The first primes multiply to at most the product of all of them. -/
theorem product_take_le {primes : List UInt64} (h : ∀ p ∈ primes, 0 < p.toNat) (count : ℕ) :
    product (primes.take count) ≤ product primes := by
  have hsplit := product_append (primes.take count) (primes.drop count)
  rw [List.take_append_drop] at hsplit
  rw [hsplit]
  exact Nat.le_mul_of_pos_right _ (product_pos fun p hp => h p (List.mem_of_mem_drop hp))

/-- Further digits count in units of the product of the primes before them. -/
theorem value_append (ds es : List (UInt64 × UInt64)) :
    value (ds ++ es) = value ds + product (ds.map Prod.snd) * value es := by
  induction ds with
  | nil => simp [value, product]
  | cons e ds ih =>
    simp only [List.cons_append, value, ih, product, List.map_cons, List.prod_cons]
    ring

/-- Digits below their primes stand for an integer below the product. -/
theorem value_lt (h : ∀ e ∈ ds, e.1 < e.2) : value ds < product (ds.map Prod.snd) := by
  induction ds with
  | nil => exact one_pos
  | cons e ds ih =>
    obtain ⟨he, hds⟩ := List.forall_mem_cons.1 h
    have hlt := ih hds
    rw [UInt64.lt_iff_toNat_lt] at he
    simp only [value, product, List.map_cons, List.prod_cons] at hlt ⊢
    calc e.1.toNat + e.2.toNat * value ds < e.2.toNat + e.2.toNat * value ds := by omega
      _ = e.2.toNat * (value ds + 1) := by ring
      _ ≤ _ := Nat.mul_le_mul_left _ hlt

/-- Behind the known digits the digit gives the residue that was asked for. -/
theorem residue_of_digit? (hq : q.toNat.Prime) {t d : UInt64} (ht : t < q)
    (h : digit? q t known = .ok d) :
    d < q ∧ (value known + product (known.map Prod.snd) * residue q d : ZMod q.toNat) =
      residue q t := by
  have hpos : 0 < q := pos_of_lt ht
  -- By induction on the known digits: each one is taken off, and its prime is divided out.
  induction known generalizing t with
  | nil =>
    obtain rfl : t = d := Except.ok.inj h
    exact ⟨ht, by simp [value, product]⟩
  | cons e known ih =>
    obtain ⟨e, p⟩ := e
    rw [digit?] at h
    split at h
    swap
    · cases h
    rename_i hfits
    rw [bind_eq_ok_iff] at h
    obtain ⟨inverse, hinverse, h⟩ := h
    obtain ⟨hd, hvalue⟩ := ih (mul_lt _ _ hpos) h
    refine ⟨hd, ?_⟩
    have hunit : (p.toNat : ZMod q.toNat) * residue q inverse = 1 := by
      have hproduct := (residue_mul_of_inverse? hq hinverse).2
      rwa [residue, UInt64.toNat_mod, ZMod.natCast_mod] at hproduct
    -- The sum with the prime is a word, and it is not below the digit that is taken off.
    have hsum : (t + q).toNat = t.toNat + q.toNat := by
      rw [UInt64.toNat_add, Nat.mod_eq_of_lt (sumFits_iff.1 hfits)]
    have hle : (e % q).toNat ≤ q.toNat := by
      rw [UInt64.toNat_mod]
      exact (Nat.mod_lt _ (UInt64.lt_iff_toNat_lt.1 hpos)).le
    have hdifference : residue q ((t + q - e % q) % q) = residue q t - e.toNat := by
      have hsub : (t + q - e % q).toNat = t.toNat + q.toNat - (e % q).toNat := by
        rw [UInt64.toNat_sub_of_le _ _ (UInt64.le_iff_toNat_le.2 (by omega)), hsum]
      rw [residue, UInt64.toNat_mod, ZMod.natCast_mod, hsub, Nat.cast_sub (by omega),
        UInt64.toNat_mod, ZMod.natCast_mod, Nat.cast_add, ZMod.natCast_self, add_zero, residue]
    rw [residue_mul _ _ hpos, hdifference] at hvalue
    simp only [value, product, List.map_cons, List.prod_cons] at hvalue ⊢
    push_cast at hvalue ⊢
    linear_combination (p.toNat : ZMod q.toNat) * hvalue + (residue q t - e.toNat) * hunit

/-- The digits of all primes give the residues that were asked for. -/
theorem value_of_digitsFrom? (hprime : ∀ p ∈ rest.map Prod.snd, p.toNat.Prime)
    (h : digitsFrom? known rest = .ok ds) :
    ∃ new, ds = known ++ new ∧ new.map Prod.snd = rest.map Prod.snd ∧
      (∀ e ∈ new, e.1 < e.2) ∧
      ∀ e ∈ rest, (value ds : ZMod e.2.toNat) = residue e.2 e.1 := by
  -- By induction on the remaining primes, with the digits that are known by then.
  induction rest generalizing known with
  | nil =>
    obtain rfl : known = ds := Except.ok.inj h
    exact ⟨[], by simp, rfl, by simp, by simp⟩
  | cons entry rest ih =>
    obtain ⟨x, q⟩ := entry
    obtain ⟨hq, hrest⟩ := List.forall_mem_cons.1 hprime
    have hpos : 0 < q := UInt64.lt_iff_toNat_lt.2 (show 0 < q.toNat from hq.pos)
    rw [digitsFrom?] at h
    split at h
    · cases h
    rw [bind_eq_ok_iff] at h
    obtain ⟨d, hd, h⟩ := h
    obtain ⟨new, rfl, hprimes, hlt, hresidue⟩ := ih hrest h
    obtain ⟨hdlt, hdvalue⟩ := residue_of_digit? hq (UInt64.mod_lt x hpos) hd
    refine ⟨(d, q) :: new, by simp, by simp [hprimes], ?_, ?_⟩
    · exact List.forall_mem_cons.2 ⟨hdlt, hlt⟩
    · refine List.forall_mem_cons.2 ⟨?_, hresidue⟩
      -- The digits behind this one are multiples of its prime.
      have hzero : ((product ((known ++ [(d, q)]).map Prod.snd) : ℕ) : ZMod q.toNat) = 0 := by
        rw [List.map_append, product_append]
        simp [product]
      rw [value_append, Nat.cast_add, Nat.cast_mul, hzero, zero_mul, add_zero, value_append,
        Nat.cast_add, Nat.cast_mul]
      have hmod : residue q (x % q) = residue q x := by
        rw [residue, UInt64.toNat_mod, ZMod.natCast_mod, residue]
      rw [hmod] at hdvalue
      simpa [value, residue] using hdvalue

/-- The digits of some residues are below their primes, and they stand for an integer below the
product that has these residues. -/
theorem value_of_digitsFrom?_zip {residues primes : List UInt64}
    (hlength : residues.length = primes.length) (hprime : ∀ p ∈ primes, p.toNat.Prime)
    (h : digitsFrom? [] (residues.zip primes) = .ok ds) :
    (∀ e ∈ ds, e.1 < e.2) ∧ value ds < product primes ∧
      ∀ e ∈ residues.zip primes, (value ds : ZMod e.2.toNat) = residue e.2 e.1 := by
  have hsecond : (residues.zip primes).map Prod.snd = primes := List.map_snd_zip hlength.ge
  obtain ⟨new, hnew, hprimes, hlt, hresidue⟩ := value_of_digitsFrom? (by rwa [hsecond]) h
  obtain rfl : ds = new := hnew
  have hvalue := value_lt hlt
  rw [hprimes, hsecond] at hvalue
  exact ⟨hlt, hvalue, hresidue⟩

/-! ## 1024-bit arithmetic -/

theorem ofDigits_eq (ds : List (UInt64 × UInt64)) : ofDigits ds = BitVec.ofNat 1024 (value ds) := by
  induction ds with
  | nil => rfl
  | cons e ds ih =>
    rw [ofDigits, ih, value, BitVec.ofNat_add, BitVec.ofNat_mul, BitVec.mul_comm, BitVec.add_comm]

theorem modulus_eq (primes : List UInt64) :
    modulus primes = BitVec.ofNat 1024 (product primes) := by
  have hfold (m : ℕ) : primes.foldl (fun m q => m * BitVec.ofNat 1024 q.toNat)
      (BitVec.ofNat 1024 m) = BitVec.ofNat 1024 (m * product primes) := by
    induction primes generalizing m with
    | nil => simp [product]
    | cons p primes ih =>
      rw [List.foldl_cons, ← BitVec.ofNat_mul, ih, mul_assoc]
      rfl
  have hmodulus := hfold 1
  rwa [one_mul] at hmodulus

/-- Leading digits only add to the value of those behind them. -/
theorem value_drop_le (h : ∀ e ∈ ds, e.1 < e.2) (i : ℕ) : value (ds.drop i) ≤ value ds := by
  induction ds generalizing i with
  | nil => simp
  | cons e ds ih =>
    obtain ⟨he, hds⟩ := List.forall_mem_cons.1 h
    cases i with
    | zero => exact le_refl _
    | succ i =>
      have hpos : 0 < e.2.toNat := Nat.zero_lt_of_lt (UInt64.lt_iff_toNat_lt.1 he)
      calc value (ds.drop i) ≤ value ds := ih hds i
        _ ≤ e.2.toNat * value ds := Nat.le_mul_of_pos_left _ hpos
        _ ≤ e.1.toNat + e.2.toNat * value ds := Nat.le_add_left _ _

/-- Integers are read back over the primes without a wrap: the product of the primes is exact, and
whatever the residues are, their digits are found, every step of their evaluation is exact, and so
is the double of the result. -/
structure Fits (primes : List UInt64) : Prop where
  modulus_eq : (modulus primes).toNat = product primes
  exists_digits : ∀ residues : List UInt64, residues.length = primes.length →
    ∃ ds, digitsFrom? [] (residues.zip primes) = .ok ds ∧
      (∀ i, (ofDigits (ds.drop i)).toNat = value (ds.drop i)) ∧
      (ofDigits ds + ofDigits ds).toNat = 2 * value ds

/-- Distinct primes whose product is below `2 ^ 1023` leave room for a double. -/
theorem fits_of_product_lt {primes : List UInt64}
    (hprime : ∀ p ∈ primes, p.toNat.Prime ∧ p.toNat ≤ UInt64.size / 2) (hnodup : primes.Nodup)
    (hproduct : product primes < 2 ^ 1023) : Fits primes := by
  constructor
  · rw [modulus_eq, BitVec.toNat_ofNat, Nat.mod_eq_of_lt (by omega)]
  intro residues hlength
  have hsecond : (residues.zip primes).map Prod.snd = primes := List.map_snd_zip hlength.ge
  obtain ⟨ds, hds⟩ : ∃ ds, digitsFrom? [] (residues.zip primes) = .ok ds :=
    exists_digitsFrom? (by rwa [hsecond]) (by rwa [hsecond])
  obtain ⟨hlt, hvalue, -⟩ :=
    value_of_digitsFrom?_zip hlength (fun p hp => (hprime p hp).1) hds
  -- The value behind any digit is at most that of all of them.
  have hexact (i : ℕ) : (ofDigits (ds.drop i)).toNat = value (ds.drop i) := by
    have hle := value_drop_le hlt i
    rw [ofDigits_eq, BitVec.toNat_ofNat, Nat.mod_eq_of_lt (by omega)]
  refine ⟨ds, hds, hexact, ?_⟩
  have hwhole : (ofDigits ds).toNat = value ds := hexact 0
  rw [BitVec.toNat_add, hwhole, Nat.mod_eq_of_lt (by omega)]
  omega

/-! ## The integer nearest to zero -/

/-- The integer of a sign, which is set for negative integers, and a magnitude. -/
def signed : Bool × BitVec 1024 → ℤ
  | (true, w) => -w.toNat
  | (false, w) => w.toNat

/-- Over distinct primes whose product is below `2 ^ 1023`, the integer that is formed from residues
has these residues and lies within half the product, and zero has no sign. -/
theorem exists_centered? {residues primes : List UInt64} (hlength : residues.length = primes.length)
    (hprime : ∀ p ∈ primes, p.toNat.Prime ∧ p.toNat ≤ UInt64.size / 2) (hnodup : primes.Nodup)
    (hproduct : product primes < 2 ^ 1023) :
    ∃ r, centered? residues primes = .ok r ∧ r.1 = decide (signed r < 0) ∧
      -(product primes : ℤ) < 2 * signed r ∧ 2 * signed r ≤ product primes ∧
      ∀ e ∈ residues.zip primes, ((signed r : ℤ) : ZMod e.2.toNat) = residue e.2 e.1 := by
  -- Neither the value nor its double reaches `2 ^ 1024`.
  obtain ⟨hmodulus, hfits⟩ := fits_of_product_lt hprime hnodup hproduct
  obtain ⟨ds, hds, hexact, hdouble⟩ := hfits residues hlength
  have hofDigits : (ofDigits ds).toNat = value ds := hexact 0
  obtain ⟨-, hvalue, hresidue⟩ :=
    value_of_digitsFrom?_zip hlength (fun p hp => (hprime p hp).1) hds
  have hcentered : centered? residues primes = .ok
      (if modulus primes < ofDigits ds + ofDigits ds then
        (true, modulus primes - ofDigits ds) else (false, ofDigits ds)) := by
    simp only [centered?, hlength, ne_eq, not_true_eq_false, if_false, hds, ok_bind, pure_eq_ok]
  refine ⟨_, hcentered, ?_⟩
  split
  · rename_i hlarge
    rw [BitVec.lt_def, hmodulus, hdouble] at hlarge
    have hsub : (modulus primes - ofDigits ds).toNat = product primes - value ds := by
      rw [BitVec.toNat_sub_of_le (by rw [BitVec.le_def, hmodulus, hofDigits]; omega), hmodulus,
        hofDigits]
    refine ⟨?_, by rw [signed, hsub]; omega, by rw [signed, hsub]; omega, fun e he => ?_⟩
    · exact (decide_eq_true (by rw [signed, hsub]; omega)).symm
    -- The product is zero modulo each of the primes.
    have hzero : ((product primes : ℕ) : ZMod e.2.toNat) = 0 := by
      rw [ZMod.natCast_eq_zero_iff]
      exact List.dvd_prod (List.mem_map_of_mem (List.of_mem_zip he).2)
    rw [signed, hsub, ← hresidue e he, Nat.cast_sub hvalue.le]
    push_cast
    rw [hzero]
    ring
  · rename_i hsmall
    rw [BitVec.lt_def, hmodulus, hdouble] at hsmall
    refine ⟨?_, by rw [signed, hofDigits]; omega, by rw [signed, hofDigits]; omega, fun e he => ?_⟩
    · exact (decide_eq_false (by rw [signed, hofDigits]; omega)).symm
    rw [signed, hofDigits, ← hresidue e he]
    push_cast
    rfl

/-- Two integers with the same residues that are less than the product apart are equal. -/
theorem eq_of_residue_eq {primes : List UInt64} (hprime : ∀ p ∈ primes, p.toNat.Prime)
    (hnodup : primes.Nodup) {x y : ℤ} (h : ∀ p ∈ primes, (x : ZMod p.toNat) = y)
    (hlt : |x - y| < product primes) : x = y := by
  have hdvd : (product primes : ℤ) ∣ x - y := by
    clear hlt
    -- One prime after the other divides the difference, and each is coprime to the ones behind it.
    induction primes with
    | nil => exact one_dvd _
    | cons p primes ih =>
      obtain ⟨hp, hprimes⟩ := List.forall_mem_cons.1 hprime
      obtain ⟨hnotMem, hnodup⟩ := List.nodup_cons.1 hnodup
      obtain ⟨hx, hrest⟩ := List.forall_mem_cons.1 h
      have hcoprime : p.toNat.Coprime (product primes) := by
        refine Nat.coprime_list_prod_right_iff.2 fun n hn => ?_
        obtain ⟨q, hq, rfl⟩ := List.mem_map.1 hn
        refine (Nat.coprime_primes hp (hprimes q hq)).2 fun heq => hnotMem ?_
        rwa [UInt64.toNat_inj.1 heq]
      have hfirst : (p.toNat : ℤ) ∣ x - y := by
        rw [← ZMod.intCast_zmod_eq_zero_iff_dvd, Int.cast_sub, hx, sub_self]
      have hproduct : (product (p :: primes) : ℤ) = p.toNat * product primes := by
        rw [product, List.map_cons, List.prod_cons, product]
        push_cast
        rfl
      rw [hproduct]
      exact IsCoprime.mul_dvd (Nat.isCoprime_iff_coprime.2 hcoprime) hfirst
        (ih hprimes hnodup hrest)
  have hzero := Int.eq_zero_of_abs_lt_dvd hdvd hlt
  omega

end Reconstruction

/-! ## A coefficient from its residues -/

namespace ResiduePoly

open Polynomial

variable {moduli : List RootTable} {a : ResiduePoly} {F : ℤ[X]} {n index : ℕ}

/-- An entry of a polynomial in coefficient form is the residue of the coefficient. -/
theorem Over.residue_eq (ha : a.Over moduli .coefficient) {i : ℕ} {t : RootTable}
    (ht : moduli[i]? = some t) (hsound : t.Sound) (hF : a.image i t = t.ofInt F)
    (hindex : index < t.degree) {r : UInt64} (hr : (a.row i)[index]? = some r) :
    residue t.prime r = ((F %ₘ (X ^ t.degree + 1)).coeff index : ℤ) := by
  rw [ha.image_eq, RootTable.ofInt, NegacyclicRing.ofInt_apply,
    RootTable.read_eq_mk_iff hsound (ha.reduced ht), RootTable.entries_coefficient_map hsound] at hF
  have hentry := congrArg (·[index]?) hF
  simpa [Modular.residues, hr, hindex] using hentry

/-- An integer polynomial that is kept over distinct primes is known by its coefficients as long as
these are below half the product of the primes. -/
theorem exists_centered? (hm : ∀ t ∈ moduli, t.Sound) (hn : ∀ t ∈ moduli, t.degree = n)
    (hnodup : (moduli.map RootTable.prime).Nodup)
    (hproduct : Reconstruction.product (moduli.map RootTable.prime) < 2 ^ 1023)
    (ha : a.Over moduli .coefficient) (hF : ∀ i t, moduli[i]? = some t → a.image i t = t.ofInt F)
    (hindex : index < n) :
    ∃ column r, a.coefficient? index = .ok column ∧
      Reconstruction.centered? column a.primes = .ok r ∧
      (2 * |(F %ₘ (X ^ n + 1)).coeff index| < Reconstruction.product (moduli.map RootTable.prime) →
        Reconstruction.signed r = (F %ₘ (X ^ n + 1)).coeff index) := by
  set primes := moduli.map RootTable.prime with hprimes
  obtain ⟨column, hcolumn, hlength, hget⟩ :=
    exists_coefficient? (fun t ht => (hn t ht).symm ▸ hindex) ha
  have hprime : ∀ p ∈ primes, p.toNat.Prime ∧ p.toNat ≤ UInt64.size / 2 := by
    intro p hp
    obtain ⟨t, ht, rfl⟩ := List.mem_map.1 hp
    exact ⟨(hm t ht).prime, (hm t ht).prime_le⟩
  have hlength' : column.length = primes.length := by rw [hlength, hprimes, List.length_map]
  obtain ⟨r, hr, -, hlow, hhigh, hresidue⟩ :=
    Reconstruction.exists_centered? hlength' hprime hnodup hproduct
  refine ⟨column, r, hcolumn, by rw [ha.primes_eq, ← hprimes, hr], fun hsmall => ?_⟩
  -- Both integers have the residues of the column, and they are less than the product apart.
  refine Reconstruction.eq_of_residue_eq (fun p hp => (hprime p hp).1) hnodup (fun p hp => ?_) ?_
  · obtain ⟨t, ht, rfl⟩ := List.mem_map.1 hp
    obtain ⟨i, hi⟩ := List.getElem?_of_mem ht
    obtain ⟨x, hx⟩ : ∃ x, column[i]? = some x :=
      ⟨_, List.getElem?_eq_getElem (hlength ▸ (List.getElem?_eq_some_iff.1 hi).1)⟩
    have hzip : (column.zip primes)[i]? = some (x, t.prime) := by
      rw [List.getElem?_zip_eq_some, hprimes, List.getElem?_map, hi]
      exact ⟨hx, rfl⟩
    rw [hresidue _ (List.mem_of_getElem? hzip), ha.residue_eq hi (hm t ht) (hF i t hi)
      ((hn t ht).symm ▸ hindex) ((hget i t hi).symm.trans hx), hn t ht]
  · clear hproduct
    have hle := le_abs_self ((F %ₘ (X ^ n + 1)).coeff index)
    have hge := neg_abs_le ((F %ₘ (X ^ n + 1)).coeff index)
    rw [abs_lt]
    constructor <;> omega

end ResiduePoly

end EncryptedArithmetic

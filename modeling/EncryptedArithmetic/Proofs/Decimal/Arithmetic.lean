import EncryptedArithmetic.Proofs.Decimal.Nearest

/-!
# Arithmetic of floats that are not negative

Floats that are not negative are followed through products, quotients and differences by the numbers
that they denote: every operation rounds its exact result to nearest.

## Main definitions

* `Denotes`: a float that is not negative, and its number.

## Main results

* `eq_of_hasMagnitude`: a float is determined by its sign and its number.
* `Denotes.mul`, `Denotes.div`, `Denotes.abs_sub` and `denotes_toFloat`: one statement for each
  operation.
* `Denotes.abs_sub_of_le_two_mul`: numbers that are close have an exact distance.
-/

namespace EncryptedArithmetic

open Float.Model (Format UnpackedFloat totalExponent)
open Float.Model.UnpackedFloat

namespace Binary64

/-! ## Floats that are not negative -/

/-- Finite floats are below this number, which is too large to be computed with. -/
@[irreducible]
def limit : ℚ := 2 ^ (1024 : ℤ)

theorem two_pow_lt_limit {k : ℕ} (hk : k < 1024) : (2 : ℚ) ^ k < limit := by
  rw [limit, ← zpow_natCast]
  exact zpow_lt_zpow_right₀ one_lt_two (by omega)

/-- The float is not negative, and it is the number. -/
def Denotes (x : Float) (v : ℚ) : Prop :=
  HasMagnitude x.toModel.unpack .positive v

/-- A magnitude that does not overflow survives packing. -/
theorem HasMagnitude.pack {u : UnpackedFloat} {s : Sign} {v : ℚ} (h : HasMagnitude u s v)
    (hv : v < limit) : HasMagnitude (Float.Model.pack u).unpack s v := by
  rcases h with ⟨rfl, rfl⟩ | ⟨m, e, hcanonical, rfl, rfl⟩
  · exact Or.inl ⟨rfl, unpack_pack_zero s⟩
  · refine Or.inr ⟨m, e, hcanonical, ?_, rfl⟩
    rw [unpack_pack hcanonical, if_pos]
    -- With a larger exponent the significand is full, and the number is too large.
    by_contra hlarge
    have hfull : 2 ^ 52 ≤ m := hcanonical.full.resolve_right (by omega)
    refine absurd hv (not_lt.2 ?_)
    calc limit = 2 ^ 52 * 2 ^ (972 : ℤ) := by
          rw [limit, ← zpow_natCast, ← zpow_add₀ two_ne_zero]
          rfl
      _ ≤ (m : ℚ) * 2 ^ e := by
          gcongr
          · exact_mod_cast hfull
          · exact one_le_two
          · omega

theorem HasMagnitude.abs {u : UnpackedFloat} {s : Sign} {v : ℚ} (h : HasMagnitude u s v) :
    HasMagnitude u.abs .positive v := by
  rcases h with ⟨rfl, rfl⟩ | ⟨m, e, hcanonical, rfl, rfl⟩
  · exact Or.inl ⟨rfl, rfl⟩
  · exact Or.inr ⟨m, e, hcanonical, rfl, rfl⟩

theorem HasMagnitude.neg {u : UnpackedFloat} {s : Sign} {v : ℚ} (h : HasMagnitude u s v) :
    HasMagnitude u.neg (-s) v := by
  rcases h with ⟨rfl, rfl⟩ | ⟨m, e, hcanonical, rfl, rfl⟩
  · exact Or.inl ⟨rfl, rfl⟩
  · exact Or.inr ⟨m, e, hcanonical, rfl, rfl⟩

/-- A float is determined by its sign and its number. -/
theorem eq_of_hasMagnitude {x y : Float} {s : Sign} {v : ℚ}
    (hx : HasMagnitude x.toModel.unpack s v) (hy : HasMagnitude y.toModel.unpack s v) : x = y := by
  have hparts {z : Float} {b : Binary64} (h : ofUnpacked? z.toModel.unpack = some b) :
      ofFloat? z = some b := (ofFloat?_eq z).trans h
  -- Equal magnitudes have equal significands and exponents, as both forms are canonical.
  rcases hx with ⟨rfl, hx⟩ | ⟨m, e, h, hx, rfl⟩ <;>
    rcases hy with ⟨hzero, hy⟩ | ⟨m', e', h', hy, hvalue⟩
  · exact ofFloat?_injective (hparts (by rw [hx]; rfl)) (hparts (by rw [hy]; rfl))
  · have hpos := h'.pos
    exact absurd hvalue (by positivity)
  · have hpos := h.pos
    exact absurd hzero (by positivity)
  · have hle := (h.le_iff h').1 hvalue.ge
    have hge := (h'.le_iff h).1 hvalue.le
    obtain ⟨rfl, rfl⟩ : m = m' ∧ e = e' := by omega
    exact ofFloat?_injective (hparts (by rw [hx]; rfl)) (hparts (by rw [hy]; rfl))

theorem canonical_of_ofFloat? {x : Float} {b : Binary64} (h : ofFloat? x = some b)
    (hb : b.significand ≠ 0) : Canonical b.significand b.exponent := by
  obtain ⟨hzero, -⟩ | ⟨hm, hunpack⟩ := unpack_cases h
  · exact absurd hzero hb
  · exact (canonical_of_unpack hunpack).1

/-- The parts that are read off a finite float make up its number. -/
theorem hasMagnitude_of_ofFloat? {x : Float} {b : Binary64} (h : ofFloat? x = some b) :
    HasMagnitude x.toModel.unpack b.sign (b.significand * 2 ^ b.exponent) := by
  obtain ⟨hzero, hunpack⟩ | ⟨hm, hunpack⟩ := unpack_cases h
  · exact Or.inl ⟨by rw [hzero, Nat.cast_zero, zero_mul], hunpack⟩
  · exact Or.inr ⟨_, _, (canonical_of_unpack hunpack).1, hunpack, rfl⟩

namespace Denotes

variable {x y : Float} {v w : ℚ}

theorem nonneg (hx : Denotes x v) : 0 ≤ v := by
  rcases hx with ⟨rfl, -⟩ | ⟨m, e, -, -, rfl⟩
  · exact le_rfl
  · positivity

theorem exact_eq (hx : Denotes x v) : exact x = v := by
  have hsign : (if (Sign.positive == .negative) then -1 else 1 : ℚ) = 1 := rfl
  rcases hx with ⟨rfl, hunpack⟩ | ⟨m, e, h, hunpack, rfl⟩
  · exact exact_of_zero hunpack
  · rw [exact_of_finite hunpack, hsign, one_mul]

theorem nearest_eq (hx : Denotes x v) : nearest v = v := by
  rcases hx with ⟨rfl, -⟩ | ⟨m, e, h, -, rfl⟩
  · exact nearest_zero
  · exact nearest_eq_self h.lt h.least

theorem lt_limit (hx : Denotes x v) : v < limit := by
  rcases hx with ⟨rfl, -⟩ | ⟨m, e, h, hunpack, rfl⟩
  · rw [limit]
    exact zpow_pos two_pos _
  · have hfits := (canonical_of_unpack hunpack).2
    calc (m : ℚ) * 2 ^ e < 2 ^ 53 * 2 ^ e := by
          gcongr
          exact_mod_cast h.lt
      _ ≤ 2 ^ 53 * 2 ^ (971 : ℤ) := by
          gcongr
          exact one_le_two
      _ = limit := by
          rw [limit, ← zpow_natCast, ← zpow_add₀ two_ne_zero]
          rfl

theorem isFinite (hx : Denotes x v) : x.isFinite := by
  change UnpackedFloat.isFinite x.toModel.unpack = true
  rcases hx with ⟨-, hunpack⟩ | ⟨_, _, _, hunpack, -⟩ <;> rw [hunpack] <;> rfl

/-- Floats are in the order of their numbers. -/
theorem lt_iff (hx : Denotes x v) (hy : Denotes y w) : x < y ↔ v < w := by
  rw [show x < y ↔ x.toModel.unpack.lt y.toModel.unpack from decide_eq_true_iff]
  rcases hx with ⟨rfl, hx⟩ | ⟨m, e, h, hx, rfl⟩ <;>
    rcases hy with ⟨rfl, hy⟩ | ⟨m', e', h', hy, rfl⟩ <;> rw [hx, hy]
  · exact iff_of_false Bool.false_ne_true (lt_irrefl 0)
  · have hpos : (0 : ℚ) < m' * 2 ^ e' := by
      have := h'.pos
      positivity
    exact iff_of_true rfl hpos
  · have hpos : (0 : ℚ) ≤ m * 2 ^ e := by positivity
    exact iff_of_false Bool.false_ne_true (not_lt.2 hpos)
  · exact lt_finite_iff h h'

/-- Floats are in the order of their numbers, equal ones included. -/
theorem le_iff (hx : Denotes x v) (hy : Denotes y w) : x ≤ y ↔ v ≤ w := by
  rw [show x ≤ y ↔ x.toModel.unpack.le y.toModel.unpack from decide_eq_true_iff]
  rcases hx with ⟨rfl, hx⟩ | ⟨m, e, h, hx, rfl⟩ <;>
    rcases hy with ⟨rfl, hy⟩ | ⟨m', e', h', hy, rfl⟩ <;> rw [hx, hy]
  · exact iff_of_true rfl le_rfl
  · have hpos : (0 : ℚ) ≤ m' * 2 ^ e' := by positivity
    exact iff_of_true rfl hpos
  · have hpos : (0 : ℚ) < m * 2 ^ e := by
      have := h.pos
      positivity
    exact iff_of_false Bool.false_ne_true (not_le.2 hpos)
  · exact le_finite_iff h h'

/-- The larger of two floats. -/
theorem max (hx : Denotes x v) (hy : Denotes y w) :
    Denotes (if x < y then y else x) (max v w) := by
  split
  · rename_i hlt
    rw [max_eq_right ((hx.lt_iff hy).1 hlt).le]
    exact hy
  · rename_i hlt
    rw [max_eq_left (not_lt.1 (mt (hx.lt_iff hy).2 hlt))]
    exact hx

/-- A product that does not overflow. -/
theorem mul (hx : Denotes x v) (hy : Denotes y w) (hlt : nearest (v * w) < limit) :
    Denotes (x * y) (nearest (v * w)) := by
  refine HasMagnitude.pack (u := UnpackedFloat.mul Format.binary64 x.toModel.unpack
    y.toModel.unpack) ?_ hlt
  rcases hx with ⟨rfl, hx⟩ | ⟨m, e, h, hx, rfl⟩ <;>
    rcases hy with ⟨rfl, hy⟩ | ⟨m', e', h', hy, rfl⟩ <;> rw [hx, hy]
  · exact Or.inl ⟨by rw [zero_mul, nearest_zero], rfl⟩
  · exact Or.inl ⟨by rw [zero_mul, nearest_zero], rfl⟩
  · exact Or.inl ⟨by rw [mul_zero, nearest_zero], rfl⟩
  · -- A full significand on one side is enough to keep all bits of the product.
    refine hasMagnitude_mul h.pos h'.pos ?_
    rcases h.full with hm | he
    · exact Or.inr (hm.trans (Nat.le_mul_of_pos_right m h'.pos))
    rcases h'.full with hm | he'
    · exact Or.inr (hm.trans (Nat.le_mul_of_pos_left m' h.pos))
    exact Or.inl (by omega)

/-- A quotient that does not overflow. -/
theorem div (hx : Denotes x v) (hy : Denotes y w) (hw : 0 < w) (hlt : nearest (v / w) < limit) :
    Denotes (x / y) (nearest (v / w)) := by
  refine HasMagnitude.pack (u := UnpackedFloat.div Format.binary64 x.toModel.unpack
    y.toModel.unpack) ?_ hlt
  obtain ⟨m', e', h', hunpack, rfl⟩ := hy.resolve_left fun hzero => hw.ne' hzero.1
  rcases hx with ⟨rfl, hx⟩ | ⟨m, e, h, hx, rfl⟩ <;> rw [hx, hunpack]
  · exact Or.inl ⟨by rw [zero_div, nearest_zero], rfl⟩
  exact hasMagnitude_div h.pos h'.pos

/-- The distance of two floats is rounded to nearest. -/
theorem abs_sub (hx : Denotes x v) (hy : Denotes y w) :
    Denotes (x - y).abs (nearest |v - w|) := by
  have hlt : nearest |v - w| < limit := by
    have hle : |v - w| ≤ Max.max v w :=
      abs_sub_le_of_nonneg_of_le hx.nonneg (le_max_left v w) hy.nonneg (le_max_right v w)
    have hmax := hx.max hy
    calc nearest |v - w| ≤ nearest (Max.max v w) := nearest_mono (abs_nonneg _) hle
      _ = Max.max v w := hmax.nearest_eq
      _ < limit := hmax.lt_limit
  have hsub : ∃ s, HasMagnitude (UnpackedFloat.sub Format.binary64 x.toModel.unpack
      y.toModel.unpack) s (nearest |v - w|) := by
    have hmagnitude {m : ℕ} {e : ℤ} (h : Canonical m e) :
        nearest |(m : ℚ) * 2 ^ e| = m * 2 ^ e := by
      rw [abs_of_nonneg (by positivity), nearest_eq_self h.lt h.least]
    rcases hx with ⟨rfl, hx⟩ | ⟨m, e, h, hx, rfl⟩ <;>
      rcases hy with ⟨rfl, hy⟩ | ⟨m', e', h', hy, rfl⟩ <;> rw [hx, hy]
    · exact ⟨.positive, Or.inl ⟨by rw [sub_zero, abs_zero, nearest_zero], rfl⟩⟩
    · refine ⟨.negative, Or.inr ⟨m', e', h', rfl, ?_⟩⟩
      rw [zero_sub, abs_neg, hmagnitude h']
    · refine ⟨.positive, Or.inr ⟨m, e, h, rfl, ?_⟩⟩
      rw [sub_zero, hmagnitude h]
    -- Both significands are brought to the lower exponent and subtracted there.
    set t := min e e' with ht
    change ∃ s, HasMagnitude (UnpackedFloat.normalize Format.binary64
      ((m <<< (e - t).toNat : ℕ) - (m' <<< (e' - t).toNat : ℕ) : ℤ) t .positive) s _
    rw [← shiftLeft_mul_two_zpow m (min_le_left e e'),
      ← shiftLeft_mul_two_zpow m' (min_le_right e e'), ← sub_mul, abs_mul,
      abs_of_pos (by positivity : (0 : ℚ) < 2 ^ t)]
    have hnormalize := exists_hasMagnitude_normalize
      ((m <<< (e - t).toNat : ℕ) - (m' <<< (e' - t).toNat : ℕ) : ℤ) t .positive
    push_cast at hnormalize ⊢
    exact hnormalize
  obtain ⟨s, hsub⟩ := hsub
  exact (hsub.pack hlt).abs.pack hlt

/-- The difference of two floats that are at most a factor of two apart is a float. -/
theorem nearest_sub_eq (hx : Denotes x v) (hy : Denotes y w) (hle : v ≤ w) (htwo : w ≤ 2 * v) :
    nearest (w - v) = w - v := by
  rcases hx with ⟨rfl, -⟩ | ⟨m, e, h, -, rfl⟩
  · rw [show w = 0 by linarith, sub_zero, nearest_zero]
  rcases hy with ⟨rfl, -⟩ | ⟨m', e', h', -, rfl⟩
  · rw [show (m : ℚ) * 2 ^ e = 0 by linarith, sub_zero, nearest_zero]
  have hexponent : e ≤ e' := by
    have := (h.le_iff h').1 hle
    omega
  obtain ⟨k, rfl⟩ := Int.le.dest hexponent
  -- In units of the smaller one the difference is at most its significand.
  have hvalue : (m' : ℚ) * 2 ^ (e + k) = (m' * 2 ^ k : ℕ) * 2 ^ e := by
    rw [zpow_add₀ two_ne_zero, zpow_natCast]
    push_cast
    ring
  rw [hvalue] at hle htwo ⊢
  have hle' : m ≤ m' * 2 ^ k := by
    exact_mod_cast le_of_mul_le_mul_right hle (by positivity)
  have htwo' : m' * 2 ^ k ≤ 2 * m := by
    rw [← mul_assoc] at htwo
    exact_mod_cast le_of_mul_le_mul_right htwo (by positivity)
  have hlt := h.lt
  rw [← sub_mul, ← Nat.cast_sub hle']
  exact nearest_eq_self (by omega) h.least

/-- The distance of two floats that are at most a factor of two apart is exact. -/
theorem abs_sub_of_le_two_mul (hx : Denotes x v) (hy : Denotes y w) (hvw : v ≤ 2 * w)
    (hwv : w ≤ 2 * v) : Denotes (x - y).abs |v - w| := by
  have hsub := hx.abs_sub hy
  rcases le_total v w with hle | hle
  · rw [abs_sub_comm, abs_of_nonneg (sub_nonneg.2 hle)] at hsub ⊢
    rwa [hx.nearest_sub_eq hy hle hwv] at hsub
  · rw [abs_of_nonneg (sub_nonneg.2 hle)] at hsub ⊢
    rwa [hy.nearest_sub_eq hx hle hvw] at hsub

end Denotes

theorem denotes_zero : Denotes 0 0 :=
  Or.inl ⟨rfl, rfl⟩

/-- The magnitude of a finite float. -/
theorem denotes_abs {x : Float} (hx : x.isFinite) : Denotes x.abs |exact x| := by
  rcases unpack_cases_of_isFinite hx with ⟨s, hunpack⟩ | ⟨s, m, e, hm, hunpack⟩
  · rw [exact_of_zero hunpack, abs_zero]
    exact Or.inl ⟨rfl, unpack_abs_of_zero hunpack⟩
  · rw [abs_exact_of_finite hunpack]
    exact Or.inr ⟨m, e, (canonical_of_unpack hunpack).1, unpack_abs_of_finite hunpack, rfl⟩

theorem denotes_abs_of_ofFloat? {x : Float} {b : Binary64} (hx : x.isFinite)
    (hb : ofFloat? x = some b) : Denotes x.abs (b.significand * 2 ^ b.exponent) := by
  have hdenotes := denotes_abs hx
  rwa [exact, hb, Option.map_some, Option.getD_some, abs_value] at hdenotes

/-- A finite float is its signed significand times a power of two. -/
theorem exact_eq_apply {x : Float} {s : Sign} {m : ℕ} {e : ℤ} {h : 0 < m}
    (hx : x.toModel.unpack = .finite s m e h) : exact x = (s.apply (m : ℤ) : ℤ) * 2 ^ e := by
  rw [exact_of_finite hx]
  cases s with
  | negative =>
    have hsign : (if (Sign.negative == .negative) then -1 else 1 : ℚ) = -1 := rfl
    rw [hsign, Sign.apply, Int.cast_neg, Int.cast_natCast, neg_one_mul]
  | positive =>
    have hsign : (if (Sign.positive == .negative) then -1 else 1 : ℚ) = 1 := rfl
    rw [hsign, Sign.apply, one_mul, Int.cast_natCast]

theorem hasMagnitude_of_unpack {x : Float} {s : Sign} {m : ℕ} {e : ℤ} {h : 0 < m}
    (hx : x.toModel.unpack = .finite s m e h) :
    HasMagnitude (.finite s m e h) s (nearest |exact x|) := by
  obtain ⟨hcanonical, -⟩ := canonical_of_unpack hx
  rw [abs_exact_of_finite hx, nearest_eq_self hcanonical.lt hcanonical.least]
  exact Or.inr ⟨m, e, hcanonical, rfl, rfl⟩

/-- Two significands are brought to the lower exponent and added there. -/
theorem exists_hasMagnitude_add_finite {x y : Float} {s s' : Sign} {m m' : ℕ} {e e' : ℤ} {h : 0 < m}
    {h' : 0 < m'} (hx : x.toModel.unpack = .finite s m e h)
    (hy : y.toModel.unpack = .finite s' m' e' h') :
    ∃ t, HasMagnitude (UnpackedFloat.add Format.binary64 (.finite s m e h) (.finite s' m' e' h')) t
      (nearest |exact x + exact y|) := by
  set t := min e e' with ht
  have hnormalize := exists_hasMagnitude_normalize
    (s.apply ((m <<< (e - t).toNat : ℕ) : ℤ) + s'.apply ((m' <<< (e' - t).toNat : ℕ) : ℤ)) t
    .positive
  -- At the smaller exponent the two significands are added as integers.
  have hsum : exact x + exact y = ((s.apply ((m <<< (e - t).toNat : ℕ) : ℤ) +
      s'.apply ((m' <<< (e' - t).toNat : ℕ) : ℤ) : ℤ) : ℚ) * 2 ^ t := by
    have happly (s : Sign) (a : ℕ) : ((s.apply (a : ℤ) : ℤ) : ℚ) = s.apply 1 * a := by
      cases s <;> simp [Sign.apply]
    rw [exact_eq_apply hx, exact_eq_apply hy, Int.cast_add, happly, happly, happly, happly,
      mul_assoc, mul_assoc, ← shiftLeft_mul_two_zpow m (min_le_left e e'),
      ← shiftLeft_mul_two_zpow m' (min_le_right e e')]
    ring
  rw [hsum, abs_mul, abs_of_pos (by positivity : (0 : ℚ) < 2 ^ t)]
  exact hnormalize

/-- The unpacked sum of two finite floats has the magnitude of the sum, rounded. -/
theorem exists_hasMagnitude_add {x y : Float} (hx : x.isFinite) (hy : y.isFinite) :
    ∃ s, HasMagnitude (UnpackedFloat.add Format.binary64 x.toModel.unpack y.toModel.unpack) s
      (nearest |exact x + exact y|) := by
  rcases unpack_cases_of_isFinite hx with ⟨s, hx'⟩ | ⟨s, m, e, hm, hx'⟩ <;>
    rcases unpack_cases_of_isFinite hy with ⟨s', hy'⟩ | ⟨s', m', e', hm', hy'⟩ <;> rw [hx', hy']
  · rw [exact_of_zero hx', exact_of_zero hy', add_zero, abs_zero, nearest_zero]
    cases s <;> cases s' <;> exact ⟨_, Or.inl ⟨rfl, rfl⟩⟩
  · rw [exact_of_zero hx', zero_add]
    exact ⟨s', hasMagnitude_of_unpack hy'⟩
  · rw [exact_of_zero hy', add_zero]
    exact ⟨s, hasMagnitude_of_unpack hx'⟩
  · exact exists_hasMagnitude_add_finite hx' hy'

/-- The sum of two finite floats is rounded to nearest, whatever their signs are. -/
theorem denotes_abs_add {x y : Float} (hx : x.isFinite) (hy : y.isFinite)
    (hlt : nearest |exact x + exact y| < limit) :
    Denotes (x + y).abs (nearest |exact x + exact y|) := by
  obtain ⟨s, hadd⟩ := exists_hasMagnitude_add hx hy
  exact (hadd.pack hlt).abs.pack hlt

/-- A word is converted to the nearest float. -/
theorem denotes_toFloat (q : UInt64) : Denotes q.toFloat (nearest q.toNat) := by
  have hlt : nearest q.toNat < limit := by
    have hle : (q.toNat : ℚ) ≤ 2 ^ 64 := by
      exact_mod_cast q.toNat_lt.le
    calc nearest q.toNat ≤ nearest (2 ^ 64) := nearest_mono (by positivity) hle
      _ = 2 ^ 64 := nearest_two_pow 64
      _ < limit := two_pow_lt_limit (by norm_num)
  -- A word is normalized as an integer with the exponent zero.
  refine HasMagnitude.pack (u := UnpackedFloat.normalize Format.binary64 (q.toNat : ℤ) 0 .positive)
    ?_ hlt
  rw [UnpackedFloat.normalize]
  rcases q.toNat.eq_zero_or_pos with hzero | hpos
  · rw [hzero]
    exact Or.inl ⟨by rw [Nat.cast_zero, nearest_zero], rfl⟩
  · rw [Int.compare_eq_gt.2 (by omega)]
    have hround := hasMagnitude_round (s := .positive) (e := 0) hpos
    rwa [zpow_zero, mul_one] at hround

/-- A word that is a power of two is converted without rounding. -/
theorem denotes_toFloat_two_pow {q : UInt64} {k : ℕ} (h : q.toNat = 2 ^ k) :
    Denotes q.toFloat (2 ^ k) := by
  have hword := denotes_toFloat q
  rwa [h, Nat.cast_pow, Nat.cast_ofNat, nearest_two_pow] at hword

end Binary64

end EncryptedArithmetic

import EncryptedArithmetic.Decimal.Binary64
import Mathlib.Algebra.Order.Field.Power
import Mathlib.Data.Rat.Floor

/-!
# Binary64 values as rational numbers

The arithmetic of floats is defined on unpacked floats: a sign, a significand and an exponent. Here
the unpacked parts are shown to be those that `Binary64.ofFloat?` reads, packing is shown to keep
them, and finite floats are shown to be in the order of the numbers that they denote.

## Main results

* `ofFloat?_eq` and `ofFloat?_injective`: the reading agrees with the unpacking, and it tells apart
  all finite floats.
* `unpack_pack`: packing keeps a canonical number or overflows to infinity.
* `Canonical.lt_iff` and `le_finite_iff`: the order of canonical numbers.
* `nearestInteger?_eq`: the nearest integer of a finite float.
-/

namespace EncryptedArithmetic

open Float.Model (Format UnpackedFloat totalExponent)
open Float.Model.UnpackedFloat

namespace Binary64

/-- The number. -/
def value (b : Binary64) : ℚ :=
  (if b.negative then -1 else 1) * b.significand * 2 ^ b.exponent

/-- The sign, as unpacked floats have it. -/
def sign (b : Binary64) : Sign :=
  if b.negative then .negative else .positive

/-- The number that a finite float denotes; any other float reads as zero. -/
def exact (x : Float) : ℚ :=
  ((ofFloat? x).map value).getD 0

/-- The parts of an unpacked float. -/
def ofUnpacked? : UnpackedFloat → Option Binary64
  | .notANumber | .infinity _ => none
  | .zero s => some ⟨s == .negative, 0, -1074⟩
  | .finite s m e _ => some ⟨s == .negative, m, e⟩

@[simp]
theorem ofUnpacked?_infinity (s : Sign) : ofUnpacked? (.infinity s) = none := rfl

@[simp]
theorem ofUnpacked?_zero (s : Sign) :
    ofUnpacked? (.zero s) = some ⟨s == .negative, 0, -1074⟩ := rfl

@[simp]
theorem ofUnpacked?_finite (s : Sign) (m : ℕ) (e : ℤ) (h : 0 < m) :
    ofUnpacked? (.finite s m e h) = some ⟨s == .negative, m, e⟩ := rfl

/-! ## Reading the fields -/

section Fields

variable (b : BitVec Format.binary64.numBits)

theorem toNat_unpackMantissa : (unpackMantissa b).toNat = b.toNat % 2 ^ 52 := by
  simp [unpackMantissa]

theorem toNat_unpackExponent : (unpackExponent b).toNat = b.toNat / 2 ^ 52 % 2 ^ 11 := by
  simp [unpackExponent, Nat.shiftRight_eq_div_pow]

theorem toNat_unpackSign : (unpackSign b).toNat = b.toNat / 2 ^ 63 % 2 := by
  change (BitVec.extractLsb 63 63 b).toNat = _
  simp [Nat.shiftRight_eq_div_pow]

end Fields

/-- The mantissa of a normal float with its implicit bit. -/
theorem toNat_implicit (m : BitVec 52) : (1#1 ++ m).toNat = 2 ^ 52 + m.toNat := by
  rw [BitVec.toNat_append, ← Nat.shiftLeft_add_eq_or_of_lt m.isLt]
  rfl

/-- The unpacked float with the given fields: the highest exponent is for infinities and
not-a-numbers, and the lowest for numbers without an implicit bit. -/
def ofFields (s : Sign) (e : BitVec 11) (m : BitVec 52) : UnpackedFloat :=
  if e = -1#11 then if m = 0#52 then .infinity s else .notANumber
  else if e = 0#11 then
    if h : m = 0#52 then .zero s
    else
      .finite s m.toNat (e.toNat - 1075 + 1)
        (Nat.pos_of_ne_zero fun h0 => h (BitVec.toNat_inj.1 h0))
  else .finite s (1#1 ++ m).toNat (e.toNat - 1075) (by rw [toNat_implicit]; omega)

theorem unpack_eq_ofFields (b : BitVec Format.binary64.numBits) :
    unpack Format.binary64 b =
      ofFields (Sign.ofBitVec (unpackSign b)) (unpackExponent b) (unpackMantissa b) := rfl

theorem finite_eq_finite {s : Sign} {m m' : ℕ} {e e' : ℤ} {h : 0 < m} {h' : 0 < m'} (hm : m = m')
    (he : e = e') : UnpackedFloat.finite s m e h = .finite s m' e' h' := by
  subst hm he
  rfl

theorem ofFields_subnormal {s : Sign} {m : BitVec 52} (hm : m.toNat ≠ 0) :
    ofFields s 0#11 m = .finite s m.toNat (-1074) (Nat.pos_of_ne_zero hm) := by
  have hm' : m ≠ 0#52 := fun h => hm (h ▸ rfl)
  rw [ofFields, if_neg (by decide), if_pos rfl, dif_neg hm']
  exact finite_eq_finite rfl rfl

theorem ofFields_normal {s : Sign} {e : BitVec 11} {m : BitVec 52} (hall : e.toNat ≠ 2047)
    (hzero : e.toNat ≠ 0) :
    ofFields s e m = .finite s (2 ^ 52 + m.toNat) (e.toNat - 1075) (by omega) := by
  have hall' : e ≠ -1#11 := fun h => hall (h ▸ rfl)
  have hzero' : e ≠ 0#11 := fun h => hzero (h ▸ rfl)
  rw [ofFields, if_neg hall', if_neg hzero']
  exact finite_eq_finite (toNat_implicit m) rfl

/-- The parts of a float by its fields. -/
theorem ofUnpacked?_ofFields (s : Sign) (e : BitVec 11) (m : BitVec 52) :
    ofUnpacked? (ofFields s e m) =
      if e.toNat = 2047 then none
      else if e.toNat = 0 then some ⟨s == .negative, m.toNat, -1074⟩
      else some ⟨s == .negative, 2 ^ 52 + m.toNat, e.toNat - 1075⟩ := by
  by_cases hall : e.toNat = 2047
  · obtain rfl : e = -1#11 := BitVec.toNat_inj.1 hall
    rw [if_pos hall, ofFields, if_pos rfl]
    split <;> rfl
  by_cases hzero : e.toNat = 0
  · obtain rfl : e = 0#11 := BitVec.toNat_inj.1 hzero
    rw [if_neg hall, if_pos hzero]
    by_cases hm : m.toNat = 0
    · obtain rfl : m = 0#52 := BitVec.toNat_inj.1 hm
      rfl
    · rw [ofFields_subnormal hm]
      rfl
  · rw [if_neg hall, if_neg hzero, ofFields_normal hall hzero]
    rfl

/-- The reading of the bits agrees with the unpacking. -/
theorem ofFloat?_eq (x : Float) : ofFloat? x = ofUnpacked? x.toModel.unpack := by
  let b : BitVec Format.binary64.numBits := x.toModel.toBits.toBitVec
  have hb : b.toNat < 2 ^ 64 := b.isLt
  have hm := toNat_unpackMantissa b
  have he := toNat_unpackExponent b
  have hs := toNat_unpackSign b
  -- The reading takes the three fields by arithmetic on the bits.
  have hfraction : x.toBits.toNat % (1 <<< 52) = (unpackMantissa b).toNat := hm.symm
  have hbiased : (x.toBits.toNat >>> 52) % (1 <<< 11) = (unpackExponent b).toNat := by
    rw [he, Nat.shiftRight_eq_div_pow]
    rfl
  have hsign : decide (1 <<< 63 ≤ x.toBits.toNat) =
      (Sign.ofBitVec (unpackSign b) == .negative) := by
    have hpositive : (unpackSign b = 0#1) ↔ ¬1 <<< 63 ≤ x.toBits.toNat := by
      rw [← BitVec.toNat_inj, hs]
      change b.toNat / 2 ^ 63 % 2 = 0 ↔ ¬2 ^ 63 ≤ b.toNat
      omega
    rw [Sign.ofBitVec]
    by_cases h : unpackSign b = 0#1
    · rw [if_pos h, decide_eq_false (hpositive.1 h)]
      rfl
    · rw [if_neg h, decide_eq_true (not_not.1 (mt hpositive.2 h))]
      rfl
  have hunpack : x.toModel.unpack =
      ofFields (Sign.ofBitVec (unpackSign b)) (unpackExponent b) (unpackMantissa b) :=
    unpack_eq_ofFields b
  rw [hunpack, ofUnpacked?_ofFields, ofFloat?]
  simp only [hfraction, hbiased, hsign]
  rfl

/-- A finite float is determined by its parts. -/
theorem ofFloat?_injective {x y : Float} {b : Binary64} (hx : ofFloat? x = some b)
    (hy : ofFloat? y = some b) : x = y := by
  have hbits : x.toBits.toNat = y.toBits.toNat := by
    have hx64 : x.toBits.toNat < 2 ^ 64 := x.toBits.toNat_lt
    have hy64 : y.toBits.toNat < 2 ^ 64 := y.toBits.toNat_lt
    simp only [ofFloat?, Nat.shiftRight_eq_div_pow, Nat.one_shiftLeft] at hx hy
    -- The parts give back the sign, the exponent and the fraction.
    obtain ⟨hx, hsplit⟩ := Option.ite_none_left_eq_some.1 hx
    obtain ⟨hy, hsplit'⟩ := Option.ite_none_left_eq_some.1 hy
    split at hsplit <;> split at hsplit' <;>
    · simp only [← hsplit', Option.some.injEq, Binary64.mk.injEq, decide_eq_decide] at hsplit
      omega
  have hword : x.toBits = y.toBits := UInt64.toNat_inj.1 hbits
  obtain ⟨⟨xbits, hxvalid⟩⟩ := x
  obtain ⟨⟨ybits, hyvalid⟩⟩ := y
  obtain rfl : xbits = ybits := hword
  rfl

/-! ## Canonical numbers -/

/-- The form in which a positive finite number is kept: with a full significand, or else with the
least exponent. -/
structure Canonical (m : ℕ) (e : ℤ) : Prop where
  pos : 0 < m
  lt : m < 2 ^ 53
  least : -1074 ≤ e
  full : 2 ^ 52 ≤ m ∨ e = -1074

/-- A finite float is in canonical form and has an exponent that fits. -/
theorem canonical_of_unpack {x : Float} {s : Sign} {m : ℕ} {e : ℤ} {h : 0 < m}
    (hx : x.toModel.unpack = .finite s m e h) : Canonical m e ∧ e ≤ 971 := by
  have hread : ofFloat? x = some ⟨s == .negative, m, e⟩ := by
    rw [ofFloat?_eq, hx, ofUnpacked?_finite]
  rw [ofFloat?] at hread
  have hfraction : x.toBits.toNat % (1 <<< 52) < 2 ^ 52 := Nat.mod_lt _ (by decide)
  have hbiased : (x.toBits.toNat >>> 52) % (1 <<< 11) < 2048 := Nat.mod_lt _ (by decide)
  -- The highest exponent is for infinities and not-a-numbers, the lowest one for subnormal numbers.
  split at hread
  · cases hread
  · split at hread
    all_goals
      simp only [Option.some.injEq, Binary64.mk.injEq] at hread
      obtain ⟨-, rfl, rfl⟩ := hread
      constructor
      · constructor <;> omega
      · omega

namespace Canonical

variable {m m' : ℕ} {e e' : ℤ}

theorem log2_le (h : Canonical m e) : m.log2 ≤ 52 :=
  Nat.lt_succ_iff.1 ((Nat.log2_lt h.pos.ne').2 h.lt)

/-- Canonical numbers are in the order of their exponents, then of their significands. -/
theorem lt_iff (h : Canonical m e) (h' : Canonical m' e') :
    (m : ℚ) * 2 ^ e < m' * 2 ^ e' ↔ e < e' ∨ e = e' ∧ m < m' := by
  -- A number with the larger exponent is normal, so its significand makes up for the unit.
  have hstep {m m' : ℕ} {e e' : ℤ} (h : Canonical m e) (h' : Canonical m' e') (he : e < e') :
      (m : ℚ) * 2 ^ e < m' * 2 ^ e' := by
    have hfull : 2 ^ 52 ≤ m' := h'.full.resolve_right (by have := h.least; omega)
    calc (m : ℚ) * 2 ^ e < 2 ^ 53 * 2 ^ e := by
          gcongr
          exact_mod_cast h.lt
      _ = 2 ^ 52 * 2 ^ (e + 1) := by
          rw [zpow_add_one₀ (by norm_num)]
          ring
      _ ≤ m' * 2 ^ e' := by
          gcongr
          · exact_mod_cast hfull
          · norm_num
          · omega
  rcases lt_trichotomy e e' with he | rfl | he
  · exact ⟨fun _ => Or.inl he, fun _ => hstep h h' he⟩
  · rw [mul_lt_mul_iff_left₀ (by positivity), Nat.cast_lt]
    omega
  · have hgt := hstep h' h he
    exact ⟨fun hlt => absurd hlt hgt.not_gt, fun hor => by omega⟩

theorem le_iff (h : Canonical m e) (h' : Canonical m' e') :
    (m : ℚ) * 2 ^ e ≤ m' * 2 ^ e' ↔ e < e' ∨ e = e' ∧ m ≤ m' := by
  rw [← not_lt, h'.lt_iff h]
  omega

end Canonical

/-- Positive finite floats are compared as the numbers that they denote. -/
theorem le_finite_iff {m m' : ℕ} {e e' : ℤ} (h : Canonical m e) (h' : Canonical m' e') :
    (UnpackedFloat.finite .positive m e h.pos).le (.finite .positive m' e' h'.pos) ↔
      (m : ℚ) * 2 ^ e ≤ m' * 2 ^ e' := by
  rw [h.le_iff h']
  change ((compare e e').then (compare m m')).isLE = true ↔ _
  rw [Ordering.isLE_then_iff_or, compare_lt_iff_lt, compare_eq_iff_eq, Nat.isLE_compare]

theorem lt_finite_iff {m m' : ℕ} {e e' : ℤ} (h : Canonical m e) (h' : Canonical m' e') :
    (UnpackedFloat.finite .positive m e h.pos).lt (.finite .positive m' e' h'.pos) ↔
      (m : ℚ) * 2 ^ e < m' * 2 ^ e' := by
  rw [h.lt_iff h']
  change (some ((compare e e').then (compare m m')) == some .lt) = true ↔ _
  rw [beq_iff_eq, Option.some.injEq, Ordering.then_eq_lt, compare_lt_iff_lt, compare_eq_iff_eq,
    compare_lt_iff_lt]

/-! ## Packing -/

@[simp]
theorem sign_packComponents (s : Sign) (e : BitVec 11) (m : BitVec 52) :
    Sign.ofBitVec (unpackSign (packComponents Format.binary64 s e m)) = s := by
  -- The sign stands in front of the other two fields.
  change Sign.ofBitVec (BitVec.extractLsb' 63 1 ((s.toBitVec ++ e : BitVec 12) ++ m)) = s
  rw [BitVec.extractLsb'_append_eq_of_le (by decide), BitVec.extractLsb'_append_eq_left]
  cases s <;> rfl

theorem unpack_packComponents (s : Sign) (e : BitVec 11) (m : BitVec 52) :
    unpack Format.binary64 (packComponents Format.binary64 s e m) = ofFields s e m := by
  rw [unpack_eq_ofFields, sign_packComponents, unpackExponent_packComponents,
    unpackMantissa_packComponents]

theorem unpack_pack_infinity (s : Sign) :
    (Float.Model.pack (.infinity s)).unpack = .infinity s :=
  unpack_packComponents s (-1#11) 0#52

theorem unpack_pack_notANumber : (Float.Model.pack .notANumber).unpack = .notANumber :=
  rfl

theorem unpack_pack_zero (s : Sign) : (Float.Model.pack (.zero s)).unpack = .zero s :=
  unpack_packComponents s 0#11 0#52

/-- Packing tests the exponent for an overflow before it looks at the significand. -/
theorem pack_finite (s : Sign) (m : ℕ) (e : ℤ) (h : 0 < m) :
    pack Format.binary64 (.finite s m e h) =
      if 2 ^ 11 ≤ (e + 1023 + 52).toNat + 1 then packedInfinity Format.binary64 s
      else if m.log2 + 1 = 53 then
        packComponents Format.binary64 s (BitVec.ofNat 11 (e + 1023 + 52).toNat) (BitVec.ofNat 52 m)
      else packComponents Format.binary64 s 0#11 (BitVec.ofNat 52 m) := rfl

/-- Packing keeps a canonical number, unless its exponent does not fit. -/
theorem unpack_pack {s : Sign} {m : ℕ} {e : ℤ} (h : Canonical m e) :
    (Float.Model.pack (.finite s m e h.pos)).unpack =
      if e ≤ 971 then .finite s m e h.pos else .infinity s := by
  obtain ⟨hpos, hlt, hleast, hfull⟩ := h
  change unpack Format.binary64 (pack Format.binary64 (.finite s m e hpos)) = _
  rw [pack_finite]
  by_cases hfits : e ≤ 971
  · rw [if_pos hfits, if_neg (by omega)]
    by_cases hm : 2 ^ 52 ≤ m
    · -- A full significand loses its implicit bit and gets it back.
      have hlog : m.log2 = 52 := (Nat.log2_eq_iff (by omega)).2 ⟨hm, hlt⟩
      have he : (BitVec.ofNat 11 (e + 1023 + 52).toNat).toNat = (e + 1075).toNat := by
        rw [BitVec.toNat_ofNat, Nat.mod_eq_of_lt (by omega)]
        omega
      have hmantissa : 2 ^ 52 + (BitVec.ofNat 52 m).toNat = m := by
        rw [BitVec.toNat_ofNat]
        omega
      rw [if_pos (by rw [hlog]), unpack_packComponents, ofFields_normal (by omega) (by omega)]
      exact finite_eq_finite hmantissa (by omega)
    · have hlog : m.log2 < 52 := (Nat.log2_lt (by omega)).2 (by omega)
      have hmantissa : (BitVec.ofNat 52 m).toNat = m := by
        rw [BitVec.toNat_ofNat, Nat.mod_eq_of_lt (by omega)]
      rw [if_neg (by omega), unpack_packComponents, ofFields_subnormal (by omega)]
      exact finite_eq_finite hmantissa (by omega)
  · rw [if_neg hfits, if_pos (by omega)]
    exact unpack_pack_infinity s

/-! ## Floats by their unpacked parts -/

section Parts

variable {x : Float} {s : Sign} {m : ℕ} {e : ℤ} {h : 0 < m}

theorem exact_of_finite (hx : x.toModel.unpack = .finite s m e h) :
    exact x = (if s == .negative then -1 else 1) * m * 2 ^ e := by
  rw [exact, ofFloat?_eq, hx]
  rfl

theorem exact_of_zero (hx : x.toModel.unpack = .zero s) : exact x = 0 := by
  rw [exact, ofFloat?_eq, hx]
  simp [value]

theorem abs_exact_of_finite (hx : x.toModel.unpack = .finite s m e h) :
    |exact x| = m * 2 ^ e := by
  have hsign : |(if s == .negative then -1 else 1 : ℚ)| = 1 := by split <;> norm_num
  rw [exact_of_finite hx, abs_mul, abs_mul, hsign, one_mul, Nat.abs_cast,
    abs_of_nonneg (by positivity : (0 : ℚ) ≤ 2 ^ e)]

/-- A float that has parts is a zero or the finite float of these parts. -/
theorem unpack_cases {b : Binary64} (hx : ofFloat? x = some b) :
    b.significand = 0 ∧ x.toModel.unpack = .zero b.sign ∨
      ∃ h : 0 < b.significand, x.toModel.unpack = .finite b.sign b.significand b.exponent h := by
  rw [ofFloat?_eq] at hx
  rcases hunpack : x.toModel.unpack with s | _ | s | ⟨s, m, e, h⟩
  all_goals rw [hunpack] at hx
  · cases hx
  · cases hx
  · obtain rfl := Option.some.inj hx
    refine Or.inl ⟨rfl, ?_⟩
    cases s <;> rfl
  · obtain rfl := Option.some.inj hx
    refine Or.inr ⟨h, ?_⟩
    cases s <;> rfl

/-- A finite float is a zero or has a significand. -/
theorem unpack_cases_of_isFinite (hx : x.isFinite) :
    (∃ s, x.toModel.unpack = .zero s) ∨ ∃ s m e h, x.toModel.unpack = .finite s m e h := by
  change x.toModel.unpack.isFinite = true at hx
  rcases hunpack : x.toModel.unpack with s | _ | s | ⟨s, m, e, h⟩
  all_goals rw [hunpack] at hx
  · cases hx
  · cases hx
  · exact Or.inl ⟨s, rfl⟩
  · exact Or.inr ⟨s, m, e, h, rfl⟩

theorem exists_ofFloat? (hx : x.isFinite) : ∃ b, ofFloat? x = some b := by
  rw [ofFloat?_eq]
  rcases unpack_cases_of_isFinite hx with ⟨s, hunpack⟩ | ⟨s, m, e, h, hunpack⟩
  · exact ⟨_, by rw [hunpack, ofUnpacked?_zero]⟩
  · exact ⟨_, by rw [hunpack, ofUnpacked?_finite]⟩

/-- A float with positive parts is the positive finite float of these parts. -/
theorem unpack_of_ofFloat? (hx : ofFloat? x = some ⟨false, m, e⟩) (h : 0 < m) :
    x.toModel.unpack = .finite .positive m e h := by
  obtain ⟨hzero, -⟩ | ⟨_, hunpack⟩ := unpack_cases hx
  · exact absurd hzero h.ne'
  · exact hunpack

theorem unpack_abs_of_finite (hx : x.toModel.unpack = .finite s m e h) :
    x.abs.toModel.unpack = .finite .positive m e h := by
  obtain ⟨hcanonical, hfits⟩ := canonical_of_unpack hx
  change (Float.Model.pack x.toModel.unpack.abs).unpack = _
  rw [hx]
  exact (unpack_pack hcanonical).trans (if_pos hfits)

theorem unpack_abs_of_zero (hx : x.toModel.unpack = .zero s) :
    x.abs.toModel.unpack = .zero .positive := by
  change (Float.Model.pack x.toModel.unpack.abs).unpack = _
  rw [hx]
  exact unpack_pack_zero .positive

end Parts

/-! ## The nearest integer -/

/-- The nearest integer; a half goes away from zero. -/
def roundAway (v : ℚ) : ℤ :=
  if 0 ≤ v then ⌊v + 1 / 2⌋ else ⌈v - 1 / 2⌉

theorem abs_roundAway_le (v : ℚ) : (|roundAway v| : ℚ) ≤ |v| + 1 / 2 := by
  rw [roundAway]
  split
  · rename_i hv
    have hnonneg : 0 ≤ ⌊v + 1 / 2⌋ := Int.floor_nonneg.2 (by linarith)
    rw [abs_of_nonneg hv, abs_of_nonneg (by exact_mod_cast hnonneg)]
    exact Int.floor_le _
  · rename_i hv
    have hnonpos : ⌈v - 1 / 2⌉ ≤ 0 := Int.ceil_le.2 (by push_cast; linarith)
    have hle := Int.le_ceil (v - 1 / 2)
    rw [abs_of_neg (not_le.1 hv), abs_of_nonpos (by exact_mod_cast hnonpos)]
    linarith

theorem denominator_pos (b : Binary64) : 0 < b.denominator := by
  rw [denominator, Nat.one_shiftLeft]
  positivity

/-- The magnitude as a fraction. -/
theorem numerator_div_denominator (b : Binary64) :
    (b.numerator / b.denominator : ℚ) = b.significand * 2 ^ b.exponent := by
  rw [numerator, denominator, Nat.shiftLeft_eq, Nat.shiftLeft_eq]
  push_cast
  rw [one_mul]
  -- One of the two shifts is by nothing.
  rcases le_total 0 b.exponent with h | h
  · obtain ⟨n, hn⟩ := Int.eq_ofNat_of_zero_le h
    rw [hn, Int.toNat_natCast, Int.toNat_of_nonpos (by omega), pow_zero, div_one, zpow_natCast]
  · obtain ⟨n, hn⟩ := Int.exists_eq_neg_ofNat h
    rw [hn, neg_neg, Int.toNat_natCast, Int.toNat_of_nonpos (by omega), pow_zero, mul_one,
      zpow_neg, zpow_natCast, div_eq_mul_inv]

theorem value_eq (b : Binary64) :
    b.value = (if b.negative then -1 else 1) * (b.numerator / b.denominator) := by
  rw [value, mul_assoc, numerator_div_denominator]

theorem abs_value (b : Binary64) : |b.value| = b.significand * 2 ^ b.exponent := by
  have hsign : |(if b.negative then -1 else 1 : ℚ)| = 1 := by split <;> norm_num
  rw [value, abs_mul, abs_mul, hsign, one_mul, Nat.abs_cast, abs_of_pos (by positivity)]

/-- The rounding in integers is that of the number. -/
theorem round_eq (b : Binary64) : b.round = roundAway b.value := by
  have hden := b.denominator_pos
  have hden' : (b.denominator : ℚ) ≠ 0 := by exact_mod_cast hden.ne'
  -- The quotient of naturals is the floor of the magnitude and one half.
  have hfloor : ⌊(b.numerator / b.denominator + 1 / 2 : ℚ)⌋ =
      ((2 * b.numerator + b.denominator) / (2 * b.denominator) : ℕ) := by
    have hsum : (b.numerator / b.denominator + 1 / 2 : ℚ) =
        ((2 * b.numerator + b.denominator : ℕ) : ℤ) / ((2 * b.denominator : ℕ) : ℚ) := by
      push_cast
      field_simp
    rw [hsum, Rat.floor_intCast_div_natCast]
    rfl
  rw [round, value_eq, roundAway]
  split
  · rcases b.numerator.eq_zero_or_pos with hzero | hpos
    · rw [hzero, if_pos (by simp), Nat.mul_zero, Nat.zero_add, Nat.div_eq_of_lt (by omega)]
      norm_num
    · -- A negative value is rounded as its magnitude, so its floor is a ceiling.
      have hneg : ¬0 ≤ (-1 : ℚ) * (b.numerator / b.denominator) := by
        rw [neg_one_mul, not_le, neg_lt_zero]
        positivity
      rw [if_neg hneg, ← hfloor, ← Int.ceil_neg]
      ring_nf
  · rw [if_pos (by positivity), one_mul, hfloor]

/-- Every finite float has a nearest integer. -/
theorem nearestInteger?_eq {x : Float} (hx : x.isFinite) :
    nearestInteger? x = some (roundAway (exact x)) := by
  obtain ⟨b, hb⟩ := exists_ofFloat? hx
  rw [nearestInteger?, exact, hb, Option.map_some, Option.map_some, Option.getD_some, round_eq]

end Binary64

end EncryptedArithmetic

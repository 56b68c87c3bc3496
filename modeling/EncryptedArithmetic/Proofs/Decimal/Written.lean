import EncryptedArithmetic.Decimal.Written
import EncryptedArithmetic.Proofs.Decimal.Shortest
import Mathlib.Data.List.TakeWhile

/-!
# Written numbers read back

A magnitude is written positionally, with digits in front of a point and behind it. Such a text is
read as the number nearest to what its digits stand for, so the text of the shortest decimal of a
finite float is read as the magnitude of this float, to the last bit.

## Main definitions

* `Positional`: digits with at most one point among them, and the number they stand for.

## Main results

* `positional_positional`: digits are written as a text that stands for their number.
* `Positional.exists_eq_some`: such a text is read as the nearest float.
* `exists_toList_plain`: a finite float is written as a sign and a text that reads back.
-/

namespace EncryptedArithmetic.Decimal

open Binary64

/-- Digits with at most one point among them, and the number they stand for. -/
inductive Positional : List Char → ℚ → Prop
  /-- There is no point. -/
  | whole {digits : List Char} {v : ℚ} (hne : digits ≠ []) (hdigits : ∀ c ∈ digits, c.isDigit)
      (hv : v = Nat.ofDigitChars 10 digits 0) : Positional digits v
  /-- A point parts the digits. -/
  | point {whole fraction : List Char} {v : ℚ} (hne : whole ++ fraction ≠ [])
      (hdigits : ∀ c ∈ whole ++ fraction, c.isDigit)
      (hv : v = Nat.ofDigitChars 10 (whole ++ fraction) 0 * 10 ^ (-(fraction.length : ℤ))) :
      Positional (whole ++ '.' :: fraction) v

/-! ## Writing -/

theorem isDigit_of_mem_chars {d : Digits} {c : Char} (hc : c ∈ d.chars) : c.isDigit :=
  Nat.isDigit_of_mem_toDigits (by decide) (by decide) hc

theorem isDigit_of_mem_replicate {n : ℕ} {c : Char} (hc : c ∈ List.replicate n '0') :
    c.isDigit := by
  rw [List.eq_of_mem_replicate hc]
  rfl

theorem ofDigitChars_chars (d : Digits) : Nat.ofDigitChars 10 d.chars 0 = d.coefficient :=
  Nat.ofDigitChars_ten_toDigits

/-- All digits behind the point, after zeros. -/
theorem positional_behind (d : Digits) {n : ℕ} (h : (n : ℤ) + d.chars.length = -d.exponent) :
    Positional ('0' :: '.' :: (List.replicate n '0' ++ d.chars)) d.value := by
  -- The leading zeros are digits like any other and do not change the value.
  have hdigits : ∀ c ∈ ['0'] ++ (List.replicate n '0' ++ d.chars), c.isDigit := by
    intro c hc
    rw [List.singleton_append, List.mem_cons, List.mem_append] at hc
    rcases hc with rfl | hc | hc
    · rfl
    · exact isDigit_of_mem_replicate hc
    · exact isDigit_of_mem_chars hc
  have hvalue : Nat.ofDigitChars 10 (['0'] ++ (List.replicate n '0' ++ d.chars)) 0 =
      d.coefficient := by
    rw [Nat.ofDigitChars_append, Nat.ofDigitChars_append, Nat.ofDigitChars_replicate_zero]
    exact ofDigitChars_chars d
  have hlength : -(((List.replicate n '0' ++ d.chars).length : ℕ) : ℤ) = d.exponent := by
    rw [List.length_append, List.length_replicate]
    omega
  have hpositional : Positional (['0'] ++ '.' :: (List.replicate n '0' ++ d.chars)) d.value :=
    .point (List.cons_ne_nil _ _) hdigits (by rw [hvalue, hlength, Digits.value])
  exact hpositional

/-- All digits in front of the point, before zeros. -/
theorem positional_front (d : Digits) {n : ℕ} (h : (n : ℤ) = d.exponent) :
    Positional (d.chars ++ List.replicate n '0') d.value := by
  refine .whole (List.append_ne_nil_of_left_ne_nil Nat.toDigits_ne_nil _) ?_ ?_
  · intro c hc
    rcases List.mem_append.1 hc with hc | hc
    · exact isDigit_of_mem_chars hc
    · exact isDigit_of_mem_replicate hc
  · rw [Nat.ofDigitChars_append, ofDigitChars_chars, Nat.ofDigitChars_replicate_zero,
      Digits.value, ← h, zpow_natCast]
    push_cast
    ring

/-- Digits are written as a text that stands for their number. -/
theorem positional_positional (d : Digits) : Positional (positional d) d.value := by
  rw [positional]
  split
  · exact positional_behind d (by omega)
  split
  · exact positional_front d (by omega)
  · -- The point is among the digits.
    refine .point ?_ ?_ ?_
    · rw [List.take_append_drop]
      exact Nat.toDigits_ne_nil
    · rw [List.take_append_drop]
      exact fun c hc => isDigit_of_mem_chars hc
    · rw [List.take_append_drop, ofDigitChars_chars, List.length_drop, Digits.value]
      congr 2
      omega

/-! ## Reading -/

section Splitting

variable {text whole fraction : List Char}

theorem ne_point_of_isDigit {c : Char} (h : c.isDigit) : c ≠ '.' := by
  rintro rfl
  exact absurd h (by decide)

theorem decide_ne_point (h : ∀ c ∈ text, c.isDigit) : ∀ c ∈ text, decide (c ≠ '.') = true :=
  fun c hc => decide_eq_true (ne_point_of_isDigit (h c hc))

theorem splitPoint_of_digits (h : ∀ c ∈ text, c.isDigit) : splitPoint text = (text, []) := by
  rw [splitPoint, List.takeWhile_eq_self_iff.2 (decide_ne_point h),
    List.dropWhile_eq_nil_iff.2 (decide_ne_point h), List.drop_nil]

theorem splitPoint_of_point (h : ∀ c ∈ whole, c.isDigit) :
    splitPoint (whole ++ '.' :: fraction) = (whole, fraction) := by
  rw [splitPoint, List.takeWhile_append_of_pos (decide_ne_point h),
    List.dropWhile_append_of_pos (decide_ne_point h), List.takeWhile_cons_of_neg (by decide),
    List.dropWhile_cons_of_neg (by decide), List.append_nil, List.drop_one, List.tail_cons]

/-- Digits are read as the float nearest to the number they stand for. -/
theorem exists_ofNumeral? {v : ℚ} (hsplit : splitPoint text = (whole, fraction))
    (hne : whole ++ fraction ≠ []) (hdigits : ∀ c ∈ whole ++ fraction, c.isDigit)
    (hv : v = Nat.ofDigitChars 10 (whole ++ fraction) 0 * 10 ^ (-(fraction.length : ℤ)))
    (hlt : nearest v < limit) :
    ∃ x, ofNumeral? text 0 = some x ∧ Denotes x (nearest v) := by
  rw [ofNumeral?, hsplit]
  simp only
  rw [if_pos ⟨hne, List.all_eq_true.2 hdigits⟩]
  refine ⟨_, rfl, ?_⟩
  rw [← zero_sub] at hv
  rw [hv] at hlt ⊢
  exact denotes_ofScaled hlt

end Splitting

namespace Positional

variable {text : List Char} {v : ℚ}

theorem count_point_le (h : Positional text v) : text.count '.' ≤ 1 := by
  have hzero {digits : List Char} (hdigits : ∀ c ∈ digits, c.isDigit) : digits.count '.' = 0 :=
    List.count_eq_zero.2 fun hmem => ne_point_of_isDigit (hdigits _ hmem) rfl
  cases h with
  | whole hne hdigits hv => rw [hzero hdigits]; exact zero_le_one
  | point hne hdigits hv =>
    rw [List.count_append, List.count_cons_self,
      hzero fun c hc => hdigits c (List.mem_append_left _ hc),
      hzero fun c hc => hdigits c (List.mem_append_right _ hc)]

theorem isDigit_or_eq (h : Positional text v) {c : Char} (hc : c ∈ text) :
    c.isDigit ∨ c = '.' := by
  cases h with
  | whole hne hdigits hv => exact Or.inl (hdigits c hc)
  | point hne hdigits hv =>
    rcases List.mem_append.1 hc with hc | hc
    · exact Or.inl (hdigits c (List.mem_append_left _ hc))
    rcases List.mem_cons.1 hc with rfl | hc
    · exact Or.inr rfl
    · exact Or.inl (hdigits c (List.mem_append_right _ hc))

/-- The text is read as the float nearest to the number it stands for. -/
theorem exists_eq_some (h : Positional text v) (hlt : nearest v < limit) :
    ∃ x, ofNumeral? text 0 = some x ∧ Denotes x (nearest v) := by
  cases h with
  | whole hne hdigits hv =>
    refine exists_ofNumeral? (splitPoint_of_digits hdigits) ?_ ?_ ?_ hlt
    · rwa [List.append_nil]
    · rwa [List.append_nil]
    · rw [List.append_nil, List.length_nil, Nat.cast_zero, neg_zero, zpow_zero, mul_one, hv]
  | point hne hdigits hv =>
    refine exists_ofNumeral? (splitPoint_of_point ?_) hne hdigits hv hlt
    exact fun c hc => hdigits c (List.mem_append_left _ hc)

end Positional

/-! ## Reading back -/

section ReadingBack

variable {x : Float} {b : Binary64}

/-- The text of the shortest decimal is read as the magnitude of the float. -/
theorem ofNumeral?_shortest (hx : x.isFinite) (hb : ofFloat? x = some b) (tie : Tie) :
    ofNumeral? (positional (b.shortest tie)) 0 = some x.abs := by
  have habs := denotes_abs_of_ofFloat? hx hb
  have hnearest : nearest (b.shortest tie).value = b.significand * 2 ^ b.exponent := by
    by_cases hzero : b.significand = 0
    · rw [shortest, if_pos hzero, Digits.value, hzero, Nat.cast_zero, zero_mul, zero_mul,
        nearest_zero]
    · exact nearest_shortest (canonical_of_ofFloat? hb hzero)
  obtain ⟨y, hread, hy⟩ := (positional_positional (b.shortest tie)).exists_eq_some
    (hnearest ▸ habs.lt_limit)
  rw [hnearest] at hy
  rw [hread, eq_of_hasMagnitude hy habs]

/-- A finite float is its magnitude or, where the sign bit is set, the opposite of it. -/
theorem eq_neg_abs_or_eq_abs (hx : x.isFinite) (hb : ofFloat? x = some b) :
    x = if b.negative then -x.abs else x.abs := by
  have hmagnitude := hasMagnitude_of_ofFloat? hb
  have habs := denotes_abs_of_ofFloat? hx hb
  rw [sign] at hmagnitude
  split
  · rename_i hnegative
    rw [if_pos hnegative] at hmagnitude
    have hneg : HasMagnitude (-x.abs).toModel.unpack .negative (b.significand * 2 ^ b.exponent) :=
      (HasMagnitude.neg habs).pack habs.lt_limit
    exact eq_of_hasMagnitude hmagnitude hneg
  · rename_i hpositive
    rw [if_neg hpositive] at hmagnitude
    exact eq_of_hasMagnitude hmagnitude habs

/-- A finite float is written as its sign in front of a text that is read as its magnitude. -/
theorem exists_toList_plain (hx : x.isFinite) :
    ∃ text v, Positional text v ∧ ofNumeral? text 0 = some x.abs ∧
      ((plain x).toList = text ∧ x = x.abs ∨ (plain x).toList = '-' :: text ∧ x = -x.abs) := by
  obtain ⟨b, hb⟩ := exists_ofFloat? hx
  refine ⟨_, _, positional_positional (b.shortest .up), ofNumeral?_shortest hx hb .up, ?_⟩
  have hsign := eq_neg_abs_or_eq_abs hx hb
  rw [plain, signed, hb]
  simp only [String.toList_ofList]
  split at hsign
  · rename_i hnegative
    exact Or.inr ⟨if_pos hnegative, hsign⟩
  · rename_i hpositive
    exact Or.inl ⟨if_neg hpositive, hsign⟩

example : plain (-1e-7) = "-0.0000001" ∧ ofNumeral? "0.0000001".toList 0 = some 1e-7 := by
  decide +kernel

end ReadingBack

end EncryptedArithmetic.Decimal

import EncryptedArithmetic.Fault

/-!
# Arithmetic modulo a word

Residues and moduli are 64-bit words. Products are formed in the integers, so they never lose a
digit. Sums and differences are formed in words. `sumFits` says when the sum of two words is a word,
which holds for reduced operands whenever the modulus is at most `2 ^ 63`, and `differenceFits` when
a difference stays one, which holds for all reduced operands. Where the guard holds, `add` and `sub`
are residues of the sum and the difference; where it does not, a computation ends in a fault.
-/

namespace EncryptedArithmetic.Modular

/-- The residue of a product. -/
def mul (a b m : UInt64) : UInt64 :=
  UInt64.ofNat (a.toNat * b.toNat % m.toNat)

/-- The residue of a sum of two residues. -/
def add (a b m : UInt64) : UInt64 :=
  let sum := a + b
  if m ≤ sum then sum - m else sum

/-- The residue of a difference of two residues. -/
def sub (a b m : UInt64) : UInt64 :=
  if b ≤ a then a - b else m - (b - a)

/-- Whether the sum of two words is a word. -/
def sumFits (a b : UInt64) : Bool :=
  a ≤ a + b

/-- Whether `a - b`, or `a - b + m` where `a` is below `b`, is a word. -/
def differenceFits (a b m : UInt64) : Bool :=
  b ≤ a || b - a ≤ m

/-- The residue of a negated residue. -/
def neg (a m : UInt64) : UInt64 :=
  sub 0 a m

/-- The residue of an integer. -/
def ofInt (x : Int) (m : UInt64) : UInt64 :=
  UInt64.ofNat (x % m.toNat).toNat

/-! ### Residues as integers -/

theorem toNat_mul (a b : UInt64) {m : UInt64} (hm : 0 < m) :
    (mul a b m).toNat = a.toNat * b.toNat % m.toNat := by
  have hlt : a.toNat * b.toNat % m.toNat < m.toNat := Nat.mod_lt _ (UInt64.lt_iff_toNat_lt.1 hm)
  rw [mul, UInt64.toNat_ofNat_of_lt' (Nat.lt_trans hlt m.toNat_lt)]

theorem sumFits_iff {a b : UInt64} : sumFits a b ↔ a.toNat + b.toNat < UInt64.size := by
  have ha := a.toNat_lt
  have hb := b.toNat_lt
  have hsize : UInt64.size = 18446744073709551616 := rfl
  simp only [sumFits, decide_eq_true_eq, UInt64.le_iff_toNat_le, UInt64.toNat_add]
  omega

/-- Reduced operands have a sum that is a word when twice the modulus is one. -/
theorem sumFits_of_lt {a b m : UInt64} (ha : a < m) (hb : b < m)
    (hm : m.toNat ≤ UInt64.size / 2) : sumFits a b := by
  rw [UInt64.lt_iff_toNat_lt] at ha hb
  have hsize : UInt64.size = 18446744073709551616 := rfl
  exact sumFits_iff.2 (by omega)

/-- The sum of residues is exact where it is a word, whatever the modulus is. -/
theorem toNat_add_of_sumFits {a b m : UInt64} (ha : a < m) (hb : b < m) (hfits : sumFits a b) :
    (add a b m).toNat = (a.toNat + b.toNat) % m.toNat := by
  rw [UInt64.lt_iff_toNat_lt] at ha hb
  have hsum : (a + b).toNat = a.toNat + b.toNat := by
    rw [UInt64.toNat_add]
    exact Nat.mod_eq_of_lt (sumFits_iff.1 hfits)
  by_cases h : m ≤ a + b
  · have hle : m.toNat ≤ a.toNat + b.toNat := hsum ▸ UInt64.le_iff_toNat_le.1 h
    rw [add, if_pos h, UInt64.toNat_sub_of_le _ _ h, hsum, Nat.mod_eq_sub_mod hle,
      Nat.mod_eq_of_lt (by omega)]
  · have hlt : a.toNat + b.toNat < m.toNat := by
      rw [UInt64.le_iff_toNat_le, hsum] at h
      omega
    rw [add, if_neg h, hsum, Nat.mod_eq_of_lt hlt]

/-- The sum of residues is exact as long as twice the modulus is a word. -/
theorem toNat_add {a b m : UInt64} (ha : a < m) (hb : b < m) (hm : m.toNat ≤ UInt64.size / 2) :
    (add a b m).toNat = (a.toNat + b.toNat) % m.toNat :=
  toNat_add_of_sumFits ha hb (sumFits_of_lt ha hb hm)

theorem toNat_sub {a b m : UInt64} (ha : a < m) (hb : b < m) :
    (sub a b m).toNat = (a.toNat + m.toNat - b.toNat) % m.toNat := by
  rw [UInt64.lt_iff_toNat_lt] at ha hb
  by_cases h : b ≤ a
  · have hle := UInt64.le_iff_toNat_le.1 h
    rw [sub, if_pos h, UInt64.toNat_sub_of_le _ _ h, Nat.sub_add_comm hle, Nat.add_mod_right,
      Nat.mod_eq_of_lt (by omega)]
  · have hlt : a.toNat < b.toNat := Nat.lt_of_not_le fun hle => h (UInt64.le_iff_toNat_le.2 hle)
    have hab : a ≤ b := UInt64.le_iff_toNat_le.2 (Nat.le_of_lt hlt)
    have hdiff : b - a ≤ m := by
      rw [UInt64.le_iff_toNat_le, UInt64.toNat_sub_of_le _ _ hab]
      omega
    rw [sub, if_neg h, UInt64.toNat_sub_of_le _ _ hdiff, UInt64.toNat_sub_of_le _ _ hab,
      Nat.mod_eq_of_lt (by omega)]
    omega

/-- Reduced operands have a difference that is a word, whatever the modulus is. -/
theorem differenceFits_of_lt {a b m : UInt64} (hb : b < m) : differenceFits a b m := by
  by_cases h : b ≤ a
  · simp [differenceFits, h]
  · have hab : a ≤ b := UInt64.le_of_lt (UInt64.not_le.1 h)
    have hle : b - a ≤ m := by
      rw [UInt64.lt_iff_toNat_lt] at hb
      rw [UInt64.le_iff_toNat_le, UInt64.toNat_sub_of_le _ _ hab]
      omega
    simp [differenceFits, hle]

theorem toNat_ofInt (x : Int) {m : UInt64} (hm : 0 < m) :
    ((ofInt x m).toNat : Int) = x % m.toNat := by
  have hpos : (0 : Int) < m.toNat := by
    exact_mod_cast UInt64.lt_iff_toNat_lt.1 hm
  have hnonneg := Int.emod_nonneg x (Int.ne_of_gt hpos)
  have hlt := Int.emod_lt_of_pos x hpos
  have hword := m.toNat_lt
  rw [ofInt, UInt64.toNat_ofNat_of_lt' (by simp only [UInt64.size] at *; omega)]
  omega

/-! ### Powers and inverses -/

/-- Square and multiply: `acc * base ^ exp`, reading the exponent from its lowest bit. -/
def powFrom (m : UInt64) : Nat → UInt64 → UInt64 → UInt64 → UInt64
  | 0, _, _, acc => acc
  | bits + 1, base, exp, acc =>
    if exp = 0 then acc
    else
      let acc := if exp &&& 1 = 1 then mul acc base m else acc
      powFrom m bits (mul base base m) (exp >>> 1) acc

/-- The residue of a power, for a positive modulus. -/
def pow (base exp m : UInt64) : UInt64 :=
  if m = 1 then 0 else powFrom m 64 (base % m) exp 1

/-- The residue of a product, where there is one. -/
def mul? (a b m : UInt64) : Except Fault UInt64 :=
  if m = 0 then .error .divisionByZero else .ok (mul a b m)

/-- The residue of a power, where there is one. -/
def pow? (base exp m : UInt64) : Except Fault UInt64 :=
  if m = 0 then .error .zeroModulus else .ok (pow base exp m)

/-- The inverse modulo a prime, as the power with exponent `p - 2`. -/
def inverse? (a p : UInt64) : Except Fault UInt64 :=
  if p = 0 then .error .divisionByZero
  else if a % p = 0 then .error (.noInverse a p)
  else .ok (pow (a % p) (p - 2) p)

end EncryptedArithmetic.Modular

/-!
# The exact number behind a binary64 value

A finite binary64 value is an integer times a power of two. `Binary64.ofFloat?` takes the 64 bits
apart into that integer, the exponent and the sign, so that everything decided about the size of a
value (its digits, its nearest integer) is decided in exact arithmetic.
-/

namespace EncryptedArithmetic

/-- A finite binary64 value: a sign and the magnitude `significand * 2 ^ exponent`. -/
structure Binary64 where
  /-- The sign bit, which zero has too. -/
  negative : Bool
  /-- The integer part of the magnitude, below `2 ^ 53`. -/
  significand : Nat
  /-- The power of two that scales the significand, at least `-1074`. -/
  exponent : Int
deriving DecidableEq, Repr

namespace Binary64

/-- The parts of a finite value; infinities and not-a-number have none. -/
def ofFloat? (x : Float) : Option Binary64 :=
  let bits := x.toBits.toNat
  let fraction : Nat := bits % (1 <<< 52)
  let biased : Nat := (bits >>> 52) % (1 <<< 11)
  let negative := decide (1 <<< 63 ≤ bits)
  if biased = 2047 then none
  else if biased = 0 then some ⟨negative, fraction, -1074⟩
  else some ⟨negative, (1 <<< 52) + fraction, (biased : Int) - 1075⟩

/-- Numerator of the magnitude, over `denominator`. -/
def numerator (b : Binary64) : Nat :=
  b.significand <<< b.exponent.toNat

/-- Denominator of the magnitude, a power of two. -/
def denominator (b : Binary64) : Nat :=
  1 <<< (-b.exponent).toNat

/-- The nearest integer; a half goes away from zero. -/
def round (b : Binary64) : Int :=
  let magnitude : Nat := (2 * b.numerator + b.denominator) / (2 * b.denominator)
  if b.negative then -(magnitude : Int) else magnitude

end Binary64

/-- The integer nearest to a finite value, a half going away from zero. -/
def nearestInteger? (x : Float) : Option Int :=
  (Binary64.ofFloat? x).map Binary64.round

end EncryptedArithmetic

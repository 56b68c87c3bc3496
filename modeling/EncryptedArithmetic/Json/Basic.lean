import EncryptedArithmetic.Decimal.Reading

/-!
# JSON values

A number is kept by what it can be used for: an unsigned or negative integer of 64 bits, or a float.
Floats are formed from at most 64 bits of leading digits and a power of ten in one multiplication or
division, so a number with many digits can miss the nearest float in the last place. A float beyond
the range and a string with half a surrogate pair have no value; they only matter where they are
read.
-/

namespace EncryptedArithmetic

/-- What a JSON number can be used for. -/
inductive JsonNumber where
  | unsigned (n : UInt64)
  /-- The negated number, from one to `2 ^ 63`. -/
  | negative (n : UInt64)
  | float (x : Float)
  | outOfRange

/-- A JSON value. Keys and strings without a value are absent. -/
inductive JsonValue where
  | null
  | bool (b : Bool)
  | number (n : JsonNumber)
  | string (s : Option String)
  | array (items : List JsonValue)
  | object (members : List (Option String × JsonValue))

namespace JsonNumber

/-- Appends digits to a significand as long as it stays a 64-bit word. The answer is the significand
and how many digits did not come in: the one that did not fit and all behind it. -/
def appendDigits : List Char → Nat → Nat × Nat
  | [], significand => (significand, 0)
  | c :: rest, significand =>
    let next := 10 * significand + (c.toNat - '0'.toNat)
    if next < UInt64.size then appendDigits rest next else (significand, rest.length + 1)

/-- The float `significand * 10 ^ exponent`, formed step by step; none beyond the range. -/
def scaleFloat : Nat → Float → Int → Option Float
  | 0, x, _ => some x
  | fuel + 1, x, exponent =>
    if exponent.natAbs ≤ 308 then
      let power := Float.ofScientific 1 false exponent.natAbs
      if exponent < 0 then some (x / power)
      else if (x * power).isInf then none else some (x * power)
    else if x == 0 then some x
    else if 0 ≤ exponent then none
    else scaleFloat fuel (x / Float.ofScientific 1 false 308) (exponent + 308)

/-- A float with the given sign. -/
def ofFloat (isNegative : Bool) (x : Float) : JsonNumber :=
  float (if isNegative then -x else x)

/-- The float of a significand and a power of ten. -/
def ofParts (isNegative : Bool) (significand : Nat) (exponent : Int) : JsonNumber :=
  match scaleFloat 8 significand.toUInt64.toFloat exponent with
  | some x => ofFloat isNegative x
  | none => outOfRange

/-- The number with the given sign, digits, decimals and exponent, as far as they are written. -/
def classify (isNegative : Bool) (whole : List Char) (fraction : Option (List Char))
    (exponent : Option Int) : JsonNumber :=
  let n := Decimal.natOfDigits whole
  if fraction.isNone ∧ exponent.isNone ∧ n < UInt64.size then
    if ¬isNegative then unsigned n.toUInt64
    else if 0 < n ∧ n ≤ UInt64.size / 2 then negative n.toUInt64
    else ofFloat true n.toUInt64.toFloat
  else
    let (significand, skipped) := appendDigits whole 0
    let decimals := fraction.getD []
    let (significand, missing) := appendDigits decimals significand
    let shift : Int := skipped - (decimals.length - missing : Nat)
    match exponent with
    | none => ofParts isNegative significand shift
    | some power =>
      if power.natAbs < UInt32.size / 2 then ofParts isNegative significand (shift + power)
      else if 0 < power ∧ significand ≠ 0 then outOfRange
      else ofFloat isNegative 0

end JsonNumber

end EncryptedArithmetic

/-!
# Reading a number

`ofScaled` is the binary64 value nearest to `coefficient * 10 ^ exponent`. `parse?` reads the
general form of a number: an optional sign, digits with an optional point, an optional exponent, or
one of the words for infinity and not-a-number.
-/

namespace EncryptedArithmetic.Decimal

/-- The integer that a list of decimal digits denotes. -/
def natOfDigits (digits : List Char) : Nat :=
  digits.foldl (fun n c => 10 * n + (c.toNat - '0'.toNat)) 0

/-- The value nearest to `coefficient * 10 ^ exponent`, a tie going to the even significand. Beyond
the range of binary64 on either side the power of ten is not formed. -/
def ofScaled (coefficient : Nat) (exponent : Int) : Float :=
  let leading : Int := (Nat.toDigits 10 coefficient).length + exponent
  if coefficient = 0 ∨ leading < -330 then 0
  else if 310 < leading then 1 / 0
  else if exponent < 0 then Float.ofScientific coefficient true (-exponent).toNat
  else Float.ofScientific coefficient false exponent.toNat

/-- Splits a text at its first point: the digits before it, and those after it. -/
def splitPoint (text : List Char) : List Char × List Char :=
  (text.takeWhile (· ≠ '.'), (text.dropWhile (· ≠ '.')).drop 1)

/-- The value of digits with at most one point among them, at least one digit in all. -/
def ofNumeral? (text : List Char) (exponent : Int) : Option Float :=
  let (whole, fraction) := splitPoint text
  let digits := whole ++ fraction
  if digits ≠ [] ∧ digits.all Char.isDigit then
    some (ofScaled (natOfDigits digits) (exponent - fraction.length))
  else none

/-- An exponent: digits with an optional sign. -/
def exponent? (text : List Char) : Option Int :=
  let (negative, digits) :=
    match text with
    | '-' :: rest => (true, rest)
    | '+' :: rest => (false, rest)
    | rest => (false, rest)
  if digits ≠ [] ∧ digits.all Char.isDigit then
    let n : Int := natOfDigits digits
    some (if negative then -n else n)
  else none

/-- A number without a sign. The words are read whatever their case. -/
def unsigned? (text : List Char) : Option Float :=
  let word := text.map Char.toLower
  if word = ['i', 'n', 'f'] ∨ word = ['i', 'n', 'f', 'i', 'n', 'i', 't', 'y'] then some (1 / 0)
  else if word = ['n', 'a', 'n'] then some (0 / 0)
  else
    let mantissa := text.takeWhile fun c => c ≠ 'e' ∧ c ≠ 'E'
    match text.dropWhile fun c => c ≠ 'e' ∧ c ≠ 'E' with
    | [] => ofNumeral? mantissa 0
    | _ :: power => do ofNumeral? mantissa (← exponent? power)

/-- A number with an optional sign. -/
def parse? (text : String) : Option Float :=
  match text.toList with
  | '-' :: rest => (unsigned? rest).map Float.neg
  | '+' :: rest => unsigned? rest
  | rest => unsigned? rest

end EncryptedArithmetic.Decimal

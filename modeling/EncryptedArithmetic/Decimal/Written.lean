import EncryptedArithmetic.Decimal.Shortest

/-!
# Written forms of a number

Three ways to write a binary64 value: positionally with the fewest digits (`plain`), with the
fewest digits and an exponent (`scientific`), and with a fixed number of decimals (`fixed`).
Not-a-number is written `NaN` and the infinities `inf` and `-inf` in all of them, and a negative
zero keeps its sign.
-/

namespace EncryptedArithmetic.Decimal

/-- The written form of a value: `finite` writes the magnitude of a finite one. -/
def signed (x : Float) (finite : Binary64 → List Char) : String :=
  match Binary64.ofFloat? x with
  | some b => String.ofList (if b.negative then '-' :: finite b else finite b)
  | none => if x.isNaN then "NaN" else if x < 0 then "-inf" else "inf"

/-- Digits without an exponent. A point is written only where digits follow it, and a digit always
precedes it. -/
def positional (d : Digits) : List Char :=
  let digits := d.chars
  let point : Int := digits.length + d.exponent
  if point ≤ 0 then '0' :: '.' :: List.replicate (-point).toNat '0' ++ digits
  else if (digits.length : Int) ≤ point then
    digits ++ List.replicate (point - digits.length).toNat '0'
  else digits.take point.toNat ++ '.' :: digits.drop point.toNat

/-- One digit, the others after a point, and the power of ten. -/
def withExponent (d : Digits) : List Char :=
  let digits := d.chars
  let power : Int := digits.length - 1 + d.exponent
  let mantissa :=
    match digits with
    | leading :: next :: rest => leading :: '.' :: next :: rest
    | single => single
  mantissa ++ 'e' :: (toString power).toList

/-- The fewest digits that read back, without an exponent: `1`, `-0`, `0.0000001`. The upper of two
equally near decimals is taken. -/
def plain (x : Float) : String :=
  signed x fun b => positional (b.shortest .up)

/-- The fewest digits that read back, with an exponent: `1e-7`, `1.5e0`. The upper of two equally
near decimals is taken. -/
def scientific (x : Float) : String :=
  signed x fun b => withExponent (b.shortest .up)

/-- The integer nearest to `num / den`; a half goes to the even neighbour. -/
def roundHalfEven (num den : Nat) : Nat :=
  let down := num / den
  let rest := 2 * (num % den)
  if rest < den then down
  else if den < rest then down + 1
  else down + down % 2

/-- An integer number of units of the last of `places` decimals, written with all of them. -/
def withPlaces (places units : Nat) : List Char :=
  let digits := Nat.toDigits 10 units
  let padded := List.replicate (places + 1 - digits.length) '0' ++ digits
  let whole := padded.length - places
  if places = 0 then padded else padded.take whole ++ '.' :: padded.drop whole

/-- Exactly `places` decimals of the exact value; a half goes to the even neighbour. -/
def fixed (places : Nat) (x : Float) : String :=
  signed x fun b =>
    withPlaces places (roundHalfEven (b.numerator * Nat.pow 10 places) b.denominator)

end EncryptedArithmetic.Decimal

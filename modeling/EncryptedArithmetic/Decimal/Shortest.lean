import EncryptedArithmetic.Decimal.Binary64

/-!
# The fewest digits that read back

`Binary64.shortest` finds, for a positive magnitude, the decimal with the fewest digits among those
that round to it. A decimal rounds to the value when it lies in the value's rounding interval, which
ends half way to each neighbour and holds its ends when the significand is even. On the grid of
decimals with `n` digits only the two neighbours of the value can be nearest, so each grid is tested
at those two points and the first grid with a hit wins. Where both neighbours are equally near, a
`Tie` says which of them is taken.
-/

namespace EncryptedArithmetic

/-- The decimal `coefficient * 10 ^ exponent`. -/
structure Digits where
  /-- The digits, read as one integer. -/
  coefficient : Nat
  /-- The power of ten that scales them. -/
  exponent : Int
deriving DecidableEq, Repr

namespace Digits

/-- The digits of the coefficient, most significant first. -/
def chars (d : Digits) : List Char :=
  Nat.toDigits 10 d.coefficient

/-- Moves up to `fuel` trailing zeros of the coefficient into the exponent. -/
def strip : Nat → Digits → Digits
  | 0, d => d
  | fuel + 1, d =>
    if d.coefficient % 10 = 0 ∧ d.coefficient ≠ 0 then
      strip fuel ⟨d.coefficient / 10, d.exponent + 1⟩
    else d

end Digits

/-- Which of two equally near neighbours is taken. -/
inductive Tie where
  /-- The upper one. -/
  | up
  /-- The one whose last digit is even. -/
  | toEven
deriving DecidableEq, Repr

/-- Whether the upper neighbour of `down` is taken in a tie. -/
def Tie.takesUpper (tie : Tie) (down : Nat) : Bool :=
  match tie with
  | up => true
  | toEven => down % 2 == 1

namespace Binary64

/-- The exponent of the leading decimal digit of the positive fraction `num / den`: the `e` with
`10 ^ e ≤ num / den < 10 ^ (e + 1)`. -/
def leadingExponent (num den : Nat) : Int :=
  if den ≤ num then (Nat.toDigits 10 (num / den)).length - 1
  else -((Nat.toDigits 10 ((den + num - 1) / num - 1)).length : Int)

/-- Whether `point * 10 ^ k` lies in the rounding interval of the magnitude. All sides are scaled to
quarters of the unit in the last place and cleared of denominators. -/
def roundsTo (b : Binary64) (point : Nat) (k : Int) : Bool :=
  let place := (point * Nat.pow 10 k.toNat) <<< (2 - b.exponent).toNat
  let unit := Nat.pow 10 (-k).toNat <<< (b.exponent - 2).toNat
  let below := if b.significand = 1 <<< 52 ∧ -1074 < b.exponent then 1 else 2
  let low := (4 * b.significand - below) * unit
  let high := (4 * b.significand + 2) * unit
  if b.significand % 2 = 0 then low ≤ place && place ≤ high else low < place && place < high

/-- The better of the two neighbours of the magnitude among the multiples of `10 ^ k`, where one of
them reads back. The nearer wins. -/
def onGrid? (b : Binary64) (tie : Tie) (k : Int) : Option Digits :=
  let num := b.numerator * Nat.pow 10 (-k).toNat
  let den := b.denominator * Nat.pow 10 k.toNat
  let down := num / den
  let up := down + 1
  let twice := 2 * (num % den)
  let takeUp := den < twice || twice == den && tie.takesUpper down
  match b.roundsTo down k, b.roundsTo up k with
  | true, true => some ⟨if takeUp then up else down, k⟩
  | true, false => some ⟨down, k⟩
  | false, true => some ⟨up, k⟩
  | false, false => none

/-- Tries the grids from the exponent `k` downwards. -/
def firstGrid (b : Binary64) (tie : Tie) : Nat → Int → Digits
  | 0, _ => ⟨0, 0⟩
  | fuel + 1, k =>
    match b.onGrid? tie k with
    | some d => d
    | none => firstGrid b tie fuel (k - 1)

/-- The shortest decimal that rounds to the magnitude; zero has the single digit `0`. Seventeen
digits always suffice. -/
def shortest (b : Binary64) (tie : Tie) : Digits :=
  if b.significand = 0 then ⟨0, 0⟩
  else (b.firstGrid tie 18 (leadingExponent b.numerator b.denominator)).strip 20

end Binary64

end EncryptedArithmetic

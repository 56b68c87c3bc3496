import EncryptedArithmetic.Modular.Basic

/-!
# Integers from residues

`digits?` finds the mixed-radix digits of an integer from its residues:
`x = d_0 + d_1 q_0 + d_2 q_0 q_1 + …` with `d_i < q_i`. `centered?` forms the integer in 1024-bit
arithmetic and takes its representative nearest to zero modulo the product of the primes.
-/

namespace EncryptedArithmetic.Reconstruction

/-- The digit for the prime `q`, from the residue of the integer and the digits before it: each of
those is taken off and divided by its prime. Taking one off adds `q`, which has to give a word. -/
def digit? (q : UInt64) : UInt64 → List (UInt64 × UInt64) → Except Fault UInt64
  | t, [] => .ok t
  | t, (d, p) :: known =>
    if Modular.sumFits t q then do
      let inverse ← Modular.inverse? (p % q) q
      digit? q (Modular.mul ((t + q - d % q) % q) inverse q) known
    else .error .overflow

/-- The digits of the remaining primes behind the `known` ones, each with its prime. -/
def digitsFrom? (known : List (UInt64 × UInt64)) :
    List (UInt64 × UInt64) → Except Fault (List (UInt64 × UInt64))
  | [] => .ok known
  | (x, q) :: rest => do
    if q = 0 then .error .divisionByZero
    else
      let d ← digit? q (x % q) known
      digitsFrom? (known ++ [(d, q)]) rest

/-- The value of mixed-radix digits, in 1024-bit arithmetic. -/
def ofDigits : List (UInt64 × UInt64) → BitVec 1024
  | [] => 0
  | (d, q) :: rest => ofDigits rest * BitVec.ofNat 1024 q.toNat + BitVec.ofNat 1024 d.toNat

/-- The product of the primes, in 1024-bit arithmetic. -/
def modulus (primes : List UInt64) : BitVec 1024 :=
  primes.foldl (fun m q => m * BitVec.ofNat 1024 q.toNat) 1

/-- The sign and magnitude of the integer with the given residues that is nearest to zero; a
positive one wins a tie. The sign is set for negative integers. -/
def centered? (residues primes : List UInt64) : Except Fault (Bool × BitVec 1024) := do
  if residues.length ≠ primes.length then .error .residueCount
  else
    let value := ofDigits (← digitsFrom? [] (residues.zip primes))
    let q := modulus primes
    return if q < value + value then (true, q - value) else (false, value)

/-- The sum of the 64-bit words of a magnitude, from the lowest up, rounded at every step. -/
def magnitudeToFloat (w : BitVec 1024) : Float :=
  (List.range 16).foldl (fun sum i =>
    sum + (w.extractLsb' (64 * i) 64).toNat.toUInt64.toFloat * Float.ofNat (1 <<< (64 * i))) 0

/-- The integer with the given residues that is nearest to zero, as a float. -/
def toFloat? (residues primes : List UInt64) : Except Fault Float := do
  let (negative, magnitude) ← centered? residues primes
  let x := magnitudeToFloat magnitude
  return if negative then -x else x

end EncryptedArithmetic.Reconstruction

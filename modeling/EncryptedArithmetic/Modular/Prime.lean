import EncryptedArithmetic.Modular.Basic

/-!
# Primes of the modulus chain

Every modulus of a ring of degree `N` is a prime that leaves the remainder one modulo `2 * N`, which
gives the ring its roots of unity. Primality is the strong pseudoprime test to the first twelve
primes, which no composite word passes. The chain takes, for every requested width, the largest such
primes of that width, each of them once.
-/

namespace EncryptedArithmetic.Modular

/-- The bases of the primality test. -/
def testBases : List UInt64 := [2, 3, 5, 7, 11, 13, 17, 19, 23, 29, 31, 37]

/-- Takes up to `fuel` factors of two out of a word, counting them. -/
def oddPart : Nat → UInt64 → UInt64 × Nat
  | 0, odd => (odd, 0)
  | fuel + 1, n =>
    if n &&& 1 = 1 then (n, 0)
    else
      let (odd, count) := oddPart fuel (n >>> 1)
      (odd, count + 1)

/-- Whether one of the next `count` squarings of `x` gives minus one. -/
def reachesMinusOne (n : UInt64) : Nat → UInt64 → Bool
  | 0, _ => false
  | count + 1, x =>
    let y := mul x x n
    y == n - 1 || reachesMinusOne n count y

/-- Whether `n = odd * 2 ^ twos + 1` passes the test to one base. Multiples of `n` test nothing. -/
def passes (n odd : UInt64) (twos : Nat) (base : UInt64) : Bool :=
  base % n == 0 ||
    let x := pow base odd n
    x == 1 || x == n - 1 || reachesMinusOne n (twos - 1) x

/-- Whether a word is prime. -/
def isPrime (n : UInt64) : Bool :=
  if n < 2 then false
  else if n < 4 then true
  else if n &&& 1 = 0 then false
  else
    let (odd, twos) := oddPart 64 (n - 1)
    testBases.all (passes n odd twos)

/-- Whether `p` is a prime that leaves the remainder one modulo twice the degree. -/
def isFriendly? (p degree : UInt64) : Except Fault Bool :=
  if UInt64.size ≤ 2 * degree.toNat then .error .orderOverflow
  else if degree = 0 then .error .divisionByZero
  else .ok (p % (2 * degree) == 1 && isPrime p)

/-- The largest number up to `value` that leaves the remainder one modulo a positive `step`. The
distance to it is found from `value % step + step`, which has to be a word. -/
def candidateBelow? (value step : UInt64) : Except Fault (Option UInt64) :=
  if sumFits (value % step) step then
    let excess := (value % step + step - 1) % step
    .ok (if excess ≤ value then some (value - excess) else none)
  else .error .overflow

/-- The first prime among `candidate`, `candidate - step`, … above two. -/
def searchDown (step : UInt64) : Nat → UInt64 → Option UInt64
  | 0, _ => none
  | fuel + 1, candidate =>
    if candidate ≤ 2 then none
    else if isPrime candidate then some candidate
    else if candidate < step then none
    else searchDown step fuel (candidate - step)

/-- The largest prime below `bound` that leaves the remainder one modulo twice the degree. -/
def friendlyBelow? (bound degree : UInt64) : Except Fault (Option UInt64) :=
  if bound ≤ 2 then .ok none
  else if UInt64.size ≤ 2 * degree.toNat then .ok none
  else if degree = 0 then .error .divisionByZero
  else do
    let step := 2 * degree
    let start? ← candidateBelow? (bound - 1) step
    return start?.bind fun start => searchDown step (start.toNat / step.toNat + 1) start

/-- Extends the primes in `taken`, kept last first with the widths they were asked for, by one prime
for each width. A width goes on below the last prime it was given. Widths are positive, and the
bound `2 ^ bits` is a word. -/
def extendChain (degree : UInt64) (taken : List (UInt32 × UInt64)) :
    List UInt32 → Result UInt32 (List (UInt32 × UInt64))
  | [] => .ok taken
  | bits :: rest =>
    if bits = 0 ∨ 64 ≤ bits then .error (.fault .overflow)
    else do
      let floor : UInt64 := 1 <<< (bits - 1).toUInt64
      let bound := (taken.lookup bits).getD (1 <<< bits.toUInt64)
      match ← friendlyBelow? bound degree with
      | some p => if floor ≤ p then extendChain degree ((bits, p) :: taken) rest else .fail bits
      | none => .fail bits

/-- One prime for each requested width, in the order of the requests, or the first width that has
run out. -/
def largestPrimes (widths : List UInt32) (degree : UInt64) : Result UInt32 (List UInt64) := do
  return (← extendChain degree [] widths).reverse.map Prod.snd

end EncryptedArithmetic.Modular

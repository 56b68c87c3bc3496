import EncryptedArithmetic.Modular.Prime
import EncryptedArithmetic.Modular.Vector
import EncryptedArithmetic.Ring.Error

/-!
# The number-theoretic transform

For a prime `p` that leaves the remainder one modulo `2 * N` there is a `psi` with `psi ^ N = -1`,
and `X ^ N + 1` splits into linear factors modulo `p`. The transform goes there one factor of two
at a time: modulo `X ^ (2 * t) - psi ^ (2 * e)` a polynomial is known by its residues modulo
`X ^ t - psi ^ e` and `X ^ t + psi ^ e`. The first step has `e = N / 2`; where a step used `e`, the
first residue goes on with `e / 2` and the second, as `-1 = psi ^ N`, with `e / 2 + N / 2`. The
inverse undoes the steps in the opposite order and divides by `N` at the end.
-/

namespace EncryptedArithmetic

/-- What the transform over one prime needs. -/
structure RootTable where
  /-- The modulus. -/
  prime : UInt64
  /-- The degree `N` of the ring, a power of two. -/
  degree : Nat
  /-- The powers `psi ^ i` for `i < N`. -/
  powers : Array UInt64
  /-- The powers `psi ^ -i` for `i < N`. -/
  inversePowers : Array UInt64
  /-- The inverse of `N`. -/
  degreeInverse : UInt64

namespace RootTable

/-- The first of the `count` numbers from `g` on whose power `(p - 1) / 2N` has `N`-th power `-1`;
the answer is that power. -/
def searchRoot? (prime degree : UInt64) : Nat → UInt64 → Option UInt64
  | 0, _ => none
  | count + 1, g =>
    let psi := Modular.pow g ((prime - 1) / (2 * degree)) prime
    if Modular.pow psi degree prime = prime - 1 then some psi
    else searchRoot? prime degree count (g + 1)

/-- A `psi` with `psi ^ N = -1`, searched among the powers of the numbers below `2 ^ 20`. -/
def root? (prime degree : UInt64) : Option UInt64 :=
  searchRoot? prime degree (min prime.toNat (1 <<< 20) - 2) 2

/-- Appends `w`, `w * x`, `w * x ^ 2`, …, `count` of them. -/
def pushPowers (prime x : UInt64) : Nat → UInt64 → Array UInt64 → Array UInt64
  | 0, _, powers => powers
  | count + 1, w, powers => pushPowers prime x count (Modular.mul w x prime) (powers.push w)

/-- The first `count` powers of `x`. -/
def powersOf (prime x : UInt64) (count : Nat) : Array UInt64 :=
  pushPowers prime x count 1 (Array.emptyWithCapacity count)

/-- The table of a prime for a degree. -/
def build (prime : UInt64) (degree : Nat) : Result RingError RootTable := do
  if degree < 2 ∨ 1 <<< degree.log2 ≠ degree then .fail (.invalidDegree degree)
  else
    let word := degree.toUInt64
    if ← Modular.isFriendly? prime word then
      match root? prime word with
      | none => .fail (.notNttFriendly prime degree)
      | some psi =>
        let inverse ← Modular.inverse? psi prime
        let degreeInverse ← Modular.inverse? word prime
        return {
          prime, degree, degreeInverse
          powers := powersOf prime psi degree
          inversePowers := powersOf prime inverse degree }
    else .fail (.notNttFriendly prime degree)

/-- Splits a residue modulo `X ^ (2 ^ depth) - psi ^ (2 * e)` all the way down. -/
def split? (t : RootTable) : Nat → Nat → List UInt64 → Except Fault (List UInt64)
  | 0, _, xs => .ok xs
  | depth + 1, e, xs => do
    let low := xs.take (1 <<< depth)
    let high := Modular.scaleEach t.prime (t.powers.getD e 0) (xs.drop (1 <<< depth))
    let minus ← split? t depth (e / 2) (← Modular.addEach? t.prime low high)
    let plus ← split? t depth (e / 2 + t.degree / 2) (← Modular.subEach? t.prime low high)
    return minus ++ plus

/-- Joins what `split?` took apart, up to a factor of two for each step. -/
def join? (t : RootTable) : Nat → Nat → List UInt64 → Except Fault (List UInt64)
  | 0, _, xs => .ok xs
  | depth + 1, e, xs => do
    let minus ← join? t depth (e / 2) (xs.take (1 <<< depth))
    let plus ← join? t depth (e / 2 + t.degree / 2) (xs.drop (1 <<< depth))
    let low ← Modular.addEach? t.prime minus plus
    let high ← Modular.subEach? t.prime minus plus
    return low ++ Modular.scaleEach t.prime (t.inversePowers.getD e 0) high

/-- The transform of a coefficient vector, which has one entry for each coefficient. -/
def forward? (t : RootTable) (xs : List UInt64) : Except Fault (List UInt64) :=
  if xs.length = t.degree then t.split? t.degree.log2 (t.degree / 2) xs else .error .outOfRange

/-- The coefficient vector with a given transform, which has one entry for each root. -/
def inverse? (t : RootTable) (xs : List UInt64) : Except Fault (List UInt64) :=
  if xs.length = t.degree then do
    let joined ← t.join? t.degree.log2 (t.degree / 2) xs
    return Modular.scaleEach t.prime t.degreeInverse joined
  else .error .outOfRange

end RootTable

end EncryptedArithmetic

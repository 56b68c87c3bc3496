import EncryptedArithmetic.Key.Secret

/-!
# Key switching

A switching key for a target `t` holds a masked pair for each data prime `q_j`. Its pair hides the
error `e_j`, and modulo `q_j` alone it hides `e_j + P * t`. To switch `d`, the representatives of
`d` modulo `q_j` that are nearest to zero are multiplied into the pairs; the sum is divided by `P`,
which leaves `d * t` and something small under the secret.
-/

namespace EncryptedArithmetic

/-- A key that moves a multiple of its target under the secret. -/
structure SwitchingKey where
  /-- One masked pair for each data prime. -/
  digits : List MaskedPair

namespace SwitchingKey

/-- The pair for the data prime at `position`, from its draws `a` and `e`. -/
def digit? (chain : ModulusChain) (secret : SecretKey) (target : ResiduePoly) (position : Nat)
    (a e : ResiduePoly) : Except Fault MaskedPair := do
  let pair ← MaskedPair.ofError? secret.poly a e
  return { pair with b := ← ResiduePoly.addScaledAt? position pair.b target chain.specialPrime }

/-- Draws the pair for the data prime at `position`. -/
def generateDigit {σ : Type} (S : Sampler σ) (chain : ModulusChain) (secret : SecretKey)
    (target : ResiduePoly) (deviation : Float) (position : Nat) :
    Drawing σ KeyError MaskedPair := do
  let a ← S.drawPoly chain.tables
  let e ← ResiduePoly.ofSignedTransformed? (← S.drawGaussian chain.degree deviation) chain.tables
  digit? chain secret target position a e

/-- Draws a key for a target over the whole chain. -/
def generate {σ : Type} (S : Sampler σ) (chain : ModulusChain) (secret : SecretKey)
    (target : ResiduePoly) (deviation : Float) : Drawing σ KeyError SwitchingKey := do
  checkErrorStd deviation
  return ⟨← (List.range (chain.topLevel + 1)).mapM
    (generateDigit S chain secret target deviation)⟩

/-- The representative nearest to zero of a residue modulo `q`. -/
def centeredResidue (q r : UInt64) : Int :=
  if q / 2 < r then (r.toNat : Int) - q.toNat else r.toNat

/-- The digit of a polynomial in coefficient form for one of its channels, over `moduli`. -/
def lift? (moduli : List RootTable) (c : Channel) : Except Fault ResiduePoly :=
  ResiduePoly.ofSignedTransformed? (c.residues.map (centeredResidue c.prime)) moduli

/-- Adds the product of a digit with its pair, narrowed to `positions`, to two sums. -/
def accumulate? (moduli : List RootTable) (positions : List Nat) (sums : MaskedPair)
    (entry : MaskedPair × Channel) : Except Fault MaskedPair := do
  let (pair, channel) := entry
  let digit ← lift? moduli channel
  let b ← sums.b.add? (← (← pair.b.select? positions).mul? digit)
  let a ← sums.a.add? (← (← pair.a.select? positions).mul? digit)
  return ⟨b, a⟩

/-- Switches a polynomial over `q_0, …, q_l`: the pair `(b, a)` over the same primes with
`b + a * s` near its product with the target. -/
def switch? (key : SwitchingKey) (chain : ModulusChain) (input : ResiduePoly) :
    Except Fault MaskedPair := do
  let level := input.channels.length - 1
  let moduli := chain.extended level
  let zero := ResiduePoly.zero moduli .transformed
  let coefficients ← input.toCoefficient?
  let sums ← ((key.digits.take (level + 1)).zip coefficients.channels).foldlM
    (accumulate? moduli (chain.extendedPositions level)) ⟨zero, zero⟩
  return ⟨← sums.b.divideByLast?, ← sums.a.divideByLast?⟩

end SwitchingKey

/-- Draws the key for the square of the secret, which brings a product back to two components. -/
def generateRelinearization {σ : Type} (S : Sampler σ) (chain : ModulusChain) (secret : SecretKey)
    (deviation : Float) : Drawing σ KeyError SwitchingKey := do
  SwitchingKey.generate S chain secret (← secret.square?) deviation

end EncryptedArithmetic

import EncryptedArithmetic.Decimal.Written
import EncryptedArithmetic.Sampling.Basic

/-!
# Secret and public keys

The secret is a ternary polynomial `s` of a given weight, kept in transformed form over the whole
chain. A masked pair `(b, a)` hides an error `e` as `b = e - a * s`; the public key is one such pair
over the data primes.
-/

namespace EncryptedArithmetic

/-- Why a key cannot be generated. -/
inductive KeyError where
  | invalidHammingWeight (weight degree : Nat)
  | invalidErrorStd (value : Float)

/-- The wording of an error. -/
def KeyError.message : KeyError → String
  | invalidHammingWeight w n => s!"Hamming weight {w} exceeds ring dimension {n}"
  | invalidErrorStd x =>
    s!"Invalid error standard deviation: {Decimal.plain x} (must be positive)"

/-- A secret key. -/
structure SecretKey where
  /-- The secret polynomial over the whole chain, transformed. -/
  poly : ResiduePoly

namespace SecretKey

/-- The key whose secret has the given coefficients. -/
def ofCoefficients? (chain : ModulusChain) (coefficients : List Int) : Except Fault SecretKey :=
  return ⟨← ResiduePoly.ofSignedTransformed? coefficients chain.tables⟩

/-- Draws a secret with `weight` coefficients that are not zero. -/
def generate {σ : Type} (S : Sampler σ) (chain : ModulusChain) (weight : Nat) :
    Drawing σ KeyError SecretKey := do
  if weight = 0 ∨ chain.degree < weight then
    throw (.error (.invalidHammingWeight weight chain.degree))
  let coefficients ← S.drawTernary chain.degree weight
  ofCoefficients? chain coefficients

/-- The secret over the first `count` primes. -/
def leading? (count : Nat) (k : SecretKey) : Except Fault ResiduePoly :=
  k.poly.leading? count

/-- The square of the secret over the whole chain. -/
def square? (k : SecretKey) : Except Fault ResiduePoly :=
  k.poly.mul? k.poly

/-- How a secret key is shown: not at all. -/
def render (_ : SecretKey) : String := "SecretKey(..)"

end SecretKey

/-- A pair `(b, a)` that hides something small under a secret. -/
structure MaskedPair where
  b : ResiduePoly
  a : ResiduePoly

namespace MaskedPair

/-- The pair that hides the error `e`: `b = e - a * s`. -/
def ofError? (s a e : ResiduePoly) : Except Fault MaskedPair := do
  return ⟨← (← a.mul? s).neg.add? e, a⟩

end MaskedPair

/-- An error deviation has to be finite and positive. -/
def checkErrorStd (deviation : Float) : Result KeyError Unit :=
  if deviation.isFinite && 0 < deviation then .ok () else .fail (.invalidErrorStd deviation)

/-- A public key: a masked pair over the data primes. -/
abbrev PublicKey := MaskedPair

/-- Draws a public key. -/
def PublicKey.generate {σ : Type} (S : Sampler σ) (chain : ModulusChain) (secret : SecretKey)
    (deviation : Float) : Drawing σ KeyError PublicKey := do
  checkErrorStd deviation
  let moduli := chain.lower chain.topLevel
  let a ← S.drawPoly moduli
  let e ← ResiduePoly.ofSignedTransformed? (← S.drawGaussian chain.degree deviation) moduli
  MaskedPair.ofError? (← secret.leading? moduli.length) a e

end EncryptedArithmetic

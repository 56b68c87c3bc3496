import EncryptedArithmetic.Key.Secret
import EncryptedArithmetic.Ring.Error

/-!
# What can go wrong in the scheme
-/

namespace EncryptedArithmetic

/-- Why an operation of the scheme has no result. -/
inductive SchemeError where
  | invalidParameter (message : String)
  | insecureParameters (degree modulusBits maxBits : Nat)
  | primeSearch (bits : UInt32) (degree : Nat)
  | ring (cause : RingError)
  | key (cause : KeyError)
  | levelExhausted (depth : Nat)
  | scaleMismatch (expected actual : Float)
  | contextMismatch (expected actual : UInt64)
  | valueOutOfRange (value : Float)
  | missingGaloisKey (element : Nat)
  | serialization (message : String)

/-- The wording of an error. -/
def SchemeError.message : SchemeError → String
  | invalidParameter m => s!"Invalid parameter: {m}"
  | insecureParameters n total bound =>
    s!"Insecure parameters: {total} modulus bits exceed the 128-bit bound of {bound} for degree {n}"
  | primeSearch bits n => s!"Not enough NTT-friendly {bits}-bit primes for degree {n}"
  | ring e => s!"Ring setup failed: {e.message}"
  | key e => s!"Key generation failed: {e.message}"
  | levelExhausted d => s!"No modulus left to rescale; the chain supports {d} multiplications"
  | scaleMismatch expected actual =>
    s!"Scale mismatch: expected {Decimal.fixed 2 expected}, got {Decimal.fixed 2 actual}"
  | contextMismatch expected actual =>
    s!"Ciphertext belongs to context {actual}, expected {expected}"
  | valueOutOfRange x => s!"Value {Decimal.plain x} cannot be represented at the current scale"
  | missingGaloisKey k => s!"No Galois key for element {k}"
  | serialization m => s!"Serialization failed: {m}"

end EncryptedArithmetic

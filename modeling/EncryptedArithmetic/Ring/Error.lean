/-!
# What can be wrong with a ring
-/

namespace EncryptedArithmetic

/-- Why a ring cannot be set up. -/
inductive RingError where
  | invalidDegree (degree : Nat)
  | notNttFriendly (prime : UInt64) (degree : Nat)
  | tooFewPrimes (needed got : Nat)
deriving DecidableEq, Repr

/-- The wording of an error. -/
def RingError.message : RingError → String
  | invalidDegree n => s!"Ring degree {n} must be a power of two"
  | notNttFriendly p n => s!"Prime {p} is not NTT-friendly for degree {n}"
  | tooFewPrimes needed got => s!"RNS basis needs at least {needed} primes, got {got}"

end EncryptedArithmetic

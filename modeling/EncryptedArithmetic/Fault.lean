/-!
# Broken preconditions

The ring layer states what it needs from its callers. A call that does not provide it ends in a
`Fault`, which names the precondition. A fault is no outcome of a request: computations that can
also fail in the ordinary way end in a `Failure`, which keeps the two apart.
-/

namespace EncryptedArithmetic

/-- A precondition that a call did not meet. -/
inductive Fault where
  /-- A power modulo zero. -/
  | zeroModulus
  /-- The inverse of a multiple of the modulus. -/
  | noInverse (value modulus : UInt64)
  /-- A ring degree whose double is no 64-bit word. -/
  | orderOverflow
  /-- A uniform residue modulo zero. -/
  | emptyRange
  /-- A Gaussian sample with a deviation that is not finite and positive. -/
  | deviationNotPositive
  /-- A ternary sample with more non-zero entries than entries. -/
  | weightExceedsDegree
  /-- A coefficient vector whose length is not the ring degree. -/
  | coefficientCount
  /-- A coefficient of a polynomial that is in transformed form. -/
  | needsCoefficientForm
  /-- A modulus drop that keeps no channel, or more than there are. -/
  | cannotKeep (count channels : Nat)
  /-- Operands with different numbers of channels. -/
  | channelCountMismatch
  /-- Operands in different forms. -/
  | formMismatch
  /-- Operands over different primes. -/
  | primesMismatch
  /-- A product of polynomials that are not in transformed form. -/
  | needsTransformedForm
  /-- A division by the last prime of a single channel. -/
  | nothingToDivideBy
  /-- An automorphism by an element that is even or too large. -/
  | badGaloisElement
  /-- A reconstruction from lists of different lengths. -/
  | residueCount
  /-- A position outside a list. -/
  | outOfRange
  /-- A division of machine words by zero. -/
  | divisionByZero
  /-- A result in machine words that is no word of their width. -/
  | overflow
  /-- A vector of more words than memory can address. -/
  | tooManyEntries
deriving DecidableEq, Repr

namespace Fault

/-- The text of a documented precondition; the last four have none of their own. -/
def message? : Fault → Option String
  | zeroModulus => some "pow_mod: modulus must be positive"
  | noInverse a p => some s!"inv_mod_prime: {a} has no inverse modulo {p}"
  | orderOverflow => some "is_ntt_friendly_prime: 2 * degree must fit in u64"
  | emptyRange => some "uniform_residues: modulus must be positive"
  | deviationNotPositive => some "gaussian_coefficients: std_dev must be finite and positive"
  | weightExceedsDegree => some "ternary_coefficients: hamming_weight must be <= degree"
  | coefficientCount => some "coefficient count must match ring degree"
  | needsCoefficientForm => some "coefficient access requires coefficient form"
  | cannotKeep count n => some s!"cannot keep {count} of {n} channels"
  | channelCountMismatch => some "channel count mismatch"
  | formMismatch => some "representation mismatch"
  | primesMismatch => some "RNS basis mismatch"
  | needsTransformedForm => some "multiplication requires NTT form"
  | nothingToDivideBy => some "no channel left to divide by"
  | badGaloisElement => some "galois element must be odd and below 2N"
  | residueCount => some "one residue per prime"
  | outOfRange | divisionByZero | overflow | tooManyEntries => none

end Fault

/-- Why a computation has no result: a broken precondition, or an error of the domain. -/
inductive Failure (ε : Type) where
  | fault (cause : Fault)
  | error (cause : ε)
deriving DecidableEq, Repr

namespace Failure

/-- Rewords the domain error of a failure. -/
def map {ε δ : Type} (f : ε → δ) : Failure ε → Failure δ
  | fault cause => fault cause
  | error cause => error (f cause)

end Failure

/-- The result of a computation that can fail with a domain error `ε`. -/
abbrev Result (ε α : Type) := Except (Failure ε) α

instance {ε : Type} : MonadLift (Except Fault) (Except (Failure ε)) where
  monadLift x := x.mapError .fault

namespace Result

/-- Fails with a domain error. -/
def fail {ε α : Type} (cause : ε) : Result ε α := .error (.error cause)

/-- Rewords the domain error of a result. -/
def mapError {ε δ α : Type} (f : ε → δ) (x : Result ε α) : Result δ α :=
  Except.mapError (Failure.map f) x

end Result

end EncryptedArithmetic

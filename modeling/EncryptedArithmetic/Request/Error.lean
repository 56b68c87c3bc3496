import EncryptedArithmetic.Expression.ParseError
import EncryptedArithmetic.Scheme.Error

/-!
# What can go wrong with a request

A request fails for one of six reasons. Each has a full wording, and a wording for users that names
the problem and shows nothing of keys or contexts.
-/

namespace EncryptedArithmetic

/-- Why a request has no value. -/
inductive RequestError where
  | parse (cause : ParseError)
  | unsupportedOperation (operator : String)
  | divisionByZero (divisor : Float)
  | depthExceeded (available : Nat)
  | contextCreation (cause : SchemeError)
  | scheme (cause : SchemeError)

/-- The categories of failures. -/
inductive FailureKind where
  | parse
  | unsupportedOperation
  | divisionByZero
  | depthExceeded
  | contextCreation
  | scheme
deriving DecidableEq, Repr

namespace RequestError

/-- The failure of a request whose evaluation fails with an error of the scheme. Running out of
levels is a matter of the depth of the expression. -/
def ofScheme : SchemeError → RequestError
  | .levelExhausted depth => depthExceeded depth
  | e => scheme e

/-- The category of a failure. -/
def kind : RequestError → FailureKind
  | parse _ => .parse
  | unsupportedOperation _ => .unsupportedOperation
  | divisionByZero _ => .divisionByZero
  | depthExceeded _ => .depthExceeded
  | contextCreation _ => .contextCreation
  | scheme _ => .scheme

/-- The full wording of a failure. -/
def message : RequestError → String
  | parse e => s!"Parse error: {e.message}"
  | unsupportedOperation op => s!"Unsupported operation '{op}'"
  | divisionByZero d => s!"Division by zero (divisor decrypted to {Decimal.scientific d})"
  | depthExceeded n => s!"Expression needs more multiplications than the {n} the context supports"
  | contextCreation e => s!"Context creation failed: {e.message}"
  | scheme e => s!"Homomorphic operation failed: {e.message}"

/-- The wording of a failure for users. -/
def publicMessage : RequestError → String
  | parse e => s!"Invalid expression: {e.message}"
  | unsupportedOperation op => s!"Unsupported operation '{op}'"
  | divisionByZero _ => "Division by zero"
  | depthExceeded n =>
    s!"Expression too deep: at most {n} chained multiplications or divisions are supported"
  | contextCreation _ => "Encryption context could not be created"
  | scheme (.valueOutOfRange x) => s!"Value {Decimal.plain x} is outside the supported range"
  | scheme _ => "Encrypted evaluation failed"

end RequestError

end EncryptedArithmetic

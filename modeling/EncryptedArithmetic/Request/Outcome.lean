import EncryptedArithmetic.Request.Evaluation

/-!
# Outcomes

What a user sees of a request: a value with four decimals, or the wording of a failure.
-/

namespace EncryptedArithmetic

/-- The outcome of a request. -/
inductive Outcome where
  | success (value : Float)
  | failure (kind : FailureKind) (message : String)

namespace Outcome

/-- The outcome of a failed request. -/
def ofError (e : RequestError) : Outcome :=
  failure e.kind e.publicMessage

/-- Whether a request succeeded. -/
def succeeded : Outcome → Bool
  | success _ => true
  | failure .. => false

/-- The value of a successful request. -/
def value? : Outcome → Option Float
  | success x => some x
  | failure .. => none

/-- The category of a failed request. -/
def kind? : Outcome → Option FailureKind
  | success _ => none
  | failure k _ => some k

/-- The text of an outcome. A value that would show as zero is written without a sign. -/
def render : Outcome → String
  | success x => Decimal.fixed 4 (if x.abs < 5e-5 then 0 else x)
  | failure _ m => m

/-- Decrypts the result of an evaluation. A broken precondition has no outcome. -/
def ofResult (ctx : Context) (result : Result RequestError Ciphertext) : Except Fault Outcome :=
  match result.bind fun c => Result.mapError .ofScheme (ctx.decrypt c) with
  | .ok x => .ok (success x)
  | .error (.error e) => .ok (ofError e)
  | .error (.fault f) => .error f

end Outcome

end EncryptedArithmetic

import EncryptedArithmetic.Config
import EncryptedArithmetic.Request.Error
import EncryptedArithmetic.Scheme.Context

/-!
# Evaluation of an expression on ciphertexts

Literals are encrypted, and the operators act on ciphertexts. Ciphertexts cannot be divided: a
division decrypts its divisor and multiplies the dividend by the reciprocal. Before anything is
encrypted, the expression is checked twice: it must not need more levels than the chain has, and it
is replayed in plain arithmetic to refuse values that would not fit the modulus left at their
level.
-/

namespace EncryptedArithmetic

/-- A context with the tolerance for divisors. -/
structure Evaluator where
  context : Context
  /-- Divisors whose magnitude is at most this count as zero. -/
  zeroTolerance : Float

namespace Evaluator

/-- An evaluator with the magnitude of a tolerance. -/
def create (context : Context) (tolerance : Float) : Evaluator :=
  ⟨context, tolerance.abs⟩

/-! ### Checks in plain arithmetic -/

/-- The product of the primes up to a level, multiplied from the lowest up. -/
def modulusAt (ev : Evaluator) (level : Nat) : Float :=
  (ev.context.primes.take (level + 1)).foldl (fun m q => m * q.toFloat) 1

/-- Refuses a finite value that reaches half the modulus at its level once it is scaled. -/
def checkValue (ev : Evaluator) (value : Float) (level : Nat) :
    Result RequestError (Float × Nat) :=
  if value.isFinite && ev.modulusAt level / 2 ≤ value.abs * ev.context.scale then
    .fail (.ofScheme (.valueOutOfRange value))
  else .ok (value, level)

/-- The value and level of an operator's result. A zero divisor is left to the encrypted pass; its
quotient has no value. -/
def rehearseOperator (ev : Evaluator) (op : Operator) (l r : Float × Nat) :
    Result RequestError (Float × Nat) :=
  match op with
  | .add => ev.checkValue (l.1 + r.1) (min l.2 r.2)
  | .sub => ev.checkValue (l.1 - r.1) (min l.2 r.2)
  | .mul => ev.checkValue (l.1 * r.1) (min l.2 r.2 - 1)
  | .div =>
    if r.1.abs ≤ ev.zeroTolerance then .ok (0 / 0, l.2 - 1)
    else ev.checkValue (l.1 / r.1) (l.2 - 1)

/-- Replays an expression with the value and level of every node. -/
def rehearse (ev : Evaluator) (e : Expression) : Result RequestError (Float × Nat) :=
  e.foldM (fun value => .ok (value, ev.context.topLevel)) ev.rehearseOperator

/-- Refuses an expression that needs more levels than the chain has. -/
def checkDepth (ev : Evaluator) (e : Expression) : Result RequestError Unit :=
  if ev.context.topLevel < e.requiredLevels then
    .fail (.depthExceeded ev.context.topLevel)
  else .ok ()

/-! ### The encrypted pass -/

/-- The quotient of a ciphertext by a decrypted divisor. -/
def divide (ev : Evaluator) (x y : Ciphertext) : Result RequestError Ciphertext := do
  let divisor ← Result.mapError .ofScheme (ev.context.decrypt y)
  if !divisor.isFinite || divisor.abs ≤ ev.zeroTolerance then .fail (.divisionByZero divisor)
  else Result.mapError .ofScheme (ev.context.mulPlain x (1 / divisor))

/-- Applies an operator to two ciphertexts. -/
def apply (ev : Evaluator) (op : Operator) (x y : Ciphertext) : Result RequestError Ciphertext :=
  match op with
  | .add => Result.mapError .ofScheme (ev.context.add x y)
  | .sub => Result.mapError .ofScheme (ev.context.sub x y)
  | .mul => Result.mapError .ofScheme (ev.context.mul x y)
  | .div => ev.divide x y

/-- Encrypts a literal. -/
def encrypt {σ : Type} (S : Sampler σ) (ev : Evaluator) (value : Float) :
    Drawing σ RequestError Ciphertext :=
  ExceptT.adapt (Failure.map .ofScheme) (ev.context.encrypt S value)

/-- Evaluates an expression: the checks, then the encrypted pass. -/
def evaluate {σ : Type} (S : Sampler σ) (ev : Evaluator) (e : Expression) :
    Drawing σ RequestError Ciphertext := do
  ev.checkDepth e
  let _ ← ev.rehearse e
  e.foldM (ev.encrypt S) fun op x y => liftM (ev.apply op x y)

end Evaluator

end EncryptedArithmetic

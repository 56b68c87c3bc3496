import EncryptedArithmetic.Request.Outcome
import EncryptedArithmetic.Request.ContextCache

/-!
# The calculator

Requests in text, outcomes out. The context is built by the first request that gets as far as
needing one.
-/

namespace EncryptedArithmetic

/-- The state of a calculator. -/
structure Calculator (σ : Type) where
  config : Config
  cache : ContextCache σ
  /-- The source of the encryptions of each request. -/
  source : UInt64 → σ
  /-- Requests evaluated so far. -/
  requests : UInt64 := 0

/-- What the addition of two numbers shows. -/
structure SumReport where
  /-- The sizes of both serialized ciphertexts, where both could be encrypted. -/
  sizes? : Option (Nat × Nat)
  outcome : Outcome

namespace Calculator

variable {σ : Type}

/-- A calculator whose keys come from one source and whose encryptions come from others. -/
def create (config : Config) (keys : KeySource σ) (source : UInt64 → σ) : Calculator σ :=
  { config, source, cache := { params := config.context, source := keys } }

/-- The context, built where there is none. -/
def fetch (S : Sampler σ) (c : Calculator σ) : Result RequestError Context × Calculator σ :=
  let (result, cache) := c.cache.fetch S
  (result, { c with cache })

/-- An evaluator for the next request, and the source it draws from. -/
def evaluator (c : Calculator σ) (ctx : Context) : Evaluator × σ × Calculator σ :=
  (Evaluator.create ctx c.config.zeroTolerance, c.source c.requests,
    { c with requests := c.requests + 1 })

/-- The outcome of a request that got no context. -/
def refused (e : Failure RequestError) : Except Fault Outcome :=
  match e with
  | .error e => .ok (.ofError e)
  | .fault f => .error f

/-- Evaluates an expression. -/
def evaluateExpression (S : Sampler σ) (c : Calculator σ) (e : Expression) :
    Except Fault Outcome × Calculator σ :=
  match c.fetch S with
  | (.error e, c) => (refused e, c)
  | (.ok ctx, c) =>
    let (ev, state, c) := c.evaluator ctx
    (Outcome.ofResult ctx ((ev.evaluate S e).run state).1, c)

/-- Evaluates a text. What is no expression never touches the context. -/
def evaluate (S : Sampler σ) (c : Calculator σ) (text : String) :
    Except Fault Outcome × Calculator σ :=
  match Expression.parse c.config.limits text with
  | .error e => (.ok (.ofError (.parse e)), c)
  | .ok e => c.evaluateExpression S e

/-- Encrypts two numbers. -/
def encryptPair (S : Sampler σ) (ev : Evaluator) (a b : Float) :
    Drawing σ RequestError (Ciphertext × Ciphertext) := do
  let x ← ev.encrypt S a
  let y ← ev.encrypt S b
  return (x, y)

/-- Encrypts two numbers, measures their ciphertexts and adds them. -/
def add (S : Sampler σ) (c : Calculator σ) (a b : Float) :
    Except Fault SumReport × Calculator σ :=
  match c.fetch S with
  | (.error e, c) => ((refused e).map (⟨none, ·⟩), c)
  | (.ok ctx, c) =>
    let (ev, state, c) := c.evaluator ctx
    let report := match ((encryptPair S ev a b).run state).1 with
      | .error e => (refused e).map (⟨none, ·⟩)
      | .ok (x, y) =>
        (Outcome.ofResult ctx (ev.apply .add x y)).map
          (⟨some (x.toBytes.length, y.toBytes.length), ·⟩)
    (report, c)

/-- Releases the context; the answer is whether there was one. -/
def release (c : Calculator σ) : Bool × Calculator σ :=
  let (released, cache) := c.cache.release
  (released, { c with cache })

end Calculator

end EncryptedArithmetic

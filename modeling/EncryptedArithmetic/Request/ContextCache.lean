import EncryptedArithmetic.Request.Error
import EncryptedArithmetic.Scheme.Context

/-!
# The life of a context

Generating keys is most of the cost of a request, so a context is built when it is asked for first
and kept until it is released. A cache holds at most one. Whoever was given a context may go on
using it after its release. Every step is taken as a whole, so a number of clients is a sequence of
steps.
-/

namespace EncryptedArithmetic

/-- Where the randomness of keys comes from. -/
inductive KeySource (σ : Type) where
  /-- Every context is drawn from the same state. -/
  | fixed (start : σ)
  /-- Each context goes on where the one before stopped. -/
  | flowing (state : σ)

namespace KeySource

/-- The state that the next context is drawn from. -/
def start {σ : Type} : KeySource σ → σ
  | fixed s => s
  | flowing s => s

/-- The source after a context whose draws ended in `state`. -/
def advance {σ : Type} (source : KeySource σ) (state : σ) : KeySource σ :=
  match source with
  | fixed s => fixed s
  | flowing _ => flowing state

end KeySource

/-- The state of a cache. -/
structure ContextCache (σ : Type) where
  params : Parameters
  source : KeySource σ
  /-- The context that is held. -/
  held? : Option Context := none
  /-- Contexts built so far. -/
  built : Nat := 0
  /-- The id of the next context. -/
  nextId : UInt64 := 1

namespace ContextCache

variable {σ : Type}

/-- Whether a context is held. -/
def isHolding (c : ContextCache σ) : Bool :=
  c.held?.isSome

/-- The context that is held, or a new one. A failed attempt to build one leaves nothing behind. -/
def fetch (S : Sampler σ) (c : ContextCache σ) : Result RequestError Context × ContextCache σ :=
  match c.held? with
  | some ctx => (.ok ctx, c)
  | none =>
    let (built, state) := (Context.generate S c.params c.nextId).run c.source.start
    let source := c.source.advance state
    match built with
    | .ok ctx =>
      (.ok ctx,
        { c with source, held? := some ctx, built := c.built + 1, nextId := c.nextId + 1 })
    | .error e => (.error (e.map .contextCreation), { c with source })

/-- Releases the context; the answer is whether there was one. -/
def release (c : ContextCache σ) : Bool × ContextCache σ :=
  (c.isHolding, { c with held? := none })

end ContextCache

end EncryptedArithmetic

import EncryptedArithmetic.Key.Galois
import EncryptedArithmetic.Scheme.Ciphertext
import EncryptedArithmetic.Scheme.Encoding
import EncryptedArithmetic.Scheme.Parameters

/-!
# Encryption contexts

A context fixes the modulus chain, the scale and all keys. It never changes once it is built.
Ciphertexts remember their context and are refused by any other. Sums need operands of nearly the
same scale and are taken at the lower of their levels; products spend a level.
-/

namespace EncryptedArithmetic

/-- A modulus chain with its scale and keys. -/
structure Context where
  /-- What tells this context from all others. -/
  id : UInt64
  params : Parameters
  chain : ModulusChain
  /-- The scale of a fresh ciphertext. -/
  scale : Float
  secretKey : SecretKey
  publicKey : PublicKey
  /-- The key for the square of the secret. -/
  relinearizationKey : SwitchingKey
  galoisKeys? : Option GaloisKeySet

namespace Context

/-- A power of two as a float. -/
def powerOfTwo (n : Nat) : Float :=
  Float.ofNat (1 <<< n)

/-- The primes of the chain for some parameters. -/
def choosePrimes (params : Parameters) : Result SchemeError (List UInt64) :=
  Result.mapError (.primeSearch · params.degree)
    (Modular.largestPrimes params.widths params.degree.toUInt64)

/-- Builds the context of valid parameters: the chain, then the secret, public, relinearization and
Galois keys. -/
def generate {σ : Type} (S : Sampler σ) (params : Parameters) (id : UInt64) :
    Drawing σ SchemeError Context := do
  params.check.mapError Failure.error
  let primes ← choosePrimes params
  let chain ← Result.mapError SchemeError.ring (ModulusChain.build primes params.degree)
  let key {α : Type} (draw : Drawing σ KeyError α) : Drawing σ SchemeError α :=
    ExceptT.adapt (Failure.map SchemeError.key) draw
  let secretKey ← key (SecretKey.generate S chain params.weight)
  let publicKey ← key (PublicKey.generate S chain secretKey params.errorStd)
  let relinearizationKey ← key (generateRelinearization S chain secretKey params.errorStd)
  let galoisKeys? ←
    if params.galoisKeys then some <$> key (GaloisKeySet.generate S chain secretKey params.errorStd)
    else pure none
  return {
    id, params, chain, secretKey, publicKey, relinearizationKey, galoisKeys?
    scale := powerOfTwo params.scaleBits.toNat }

/-- The primes of the chain, the special one last. -/
def primes (ctx : Context) : List UInt64 :=
  ctx.chain.primes

/-- The level of a fresh ciphertext, which is how many multiplications it supports. -/
def topLevel (ctx : Context) : Nat :=
  ctx.chain.topLevel

/-- How a context is shown: without its keys. -/
def render (ctx : Context) : String :=
  let widths := ", ".intercalate (ctx.params.widths.map toString)
  s!"EncryptionContext \x7b id: {ctx.id}, degree: {ctx.params.degree}, " ++
    s!"coeff_mod_bit_sizes: [{widths}], scale_bits: {ctx.params.scaleBits}, .. \x7d"

/-! ### Encryption -/

/-- The ciphertext of an encoded scalar, from the draws of the encryption: `c0 = b * u + e0 + m` and
`c1 = a * u + e1`. -/
def encryptWith? (ctx : Context) (m u e0 e1 : ResiduePoly) : Except Fault Ciphertext := do
  let c0 ← (← (← ctx.publicKey.b.mul? u).add? e0).add? m
  let c1 ← (← ctx.publicKey.a.mul? u).add? e1
  return { c0, c1, scale := ctx.scale, contextId := ctx.id }

/-- Encrypts a scalar at the top level. -/
def encrypt {σ : Type} (S : Sampler σ) (ctx : Context) (value : Float) :
    Drawing σ SchemeError Ciphertext := do
  let moduli := ctx.chain.lower ctx.topLevel
  let lowest := (ctx.primes.head?).getD 0
  let m ← Encoding.encode value ctx.scale moduli lowest
  let u ← S.drawTernary ctx.chain.degree ctx.params.weight
  let e0 ← S.drawGaussian ctx.chain.degree ctx.params.errorStd
  let e1 ← S.drawGaussian ctx.chain.degree ctx.params.errorStd
  ctx.encryptWith? m (← ResiduePoly.ofSignedTransformed? u moduli)
    (← ResiduePoly.ofSignedTransformed? e0 moduli) (← ResiduePoly.ofSignedTransformed? e1 moduli)

/-- Refuses a ciphertext of another context. -/
def requireOwn (ctx : Context) (c : Ciphertext) : Result SchemeError Unit :=
  if c.contextId = ctx.id then .ok () else .fail (.contextMismatch ctx.id c.contextId)

/-- The polynomial `c0 + c1 * s`, which carries the scaled value and an error. -/
def phase? (ctx : Context) (c : Ciphertext) : Except Fault ResiduePoly := do
  let s ← ctx.secretKey.leading? c.c1.channels.length
  (← c.c1.mul? s).add? c.c0

/-- The scalar of a ciphertext. -/
def decrypt (ctx : Context) (c : Ciphertext) : Result SchemeError Float := do
  ctx.requireOwn c
  Encoding.decode (← ctx.phase? c) c.scale

/-! ### Sums -/

/-- How far the scales of two summands may be apart, relative to the larger one. -/
def scaleSlack : Float := 1e-3

/-- A ciphertext without the primes above a level. -/
def lowered? (c : Ciphertext) (level : Nat) : Except Fault Ciphertext := do
  if c.level = level then return c
  else return { c with c0 := ← c.c0.leading? (level + 1), c1 := ← c.c1.leading? (level + 1) }

/-- Whether two scales are too far apart. -/
def scalesDiffer (x y : Float) : Bool :=
  scaleSlack < (x - y).abs / (if x < y then y else x)

/-- Two summands at the lower of their levels. -/
def levelled (ctx : Context) (x y : Ciphertext) : Result SchemeError (Ciphertext × Ciphertext) := do
  ctx.requireOwn x
  ctx.requireOwn y
  if scalesDiffer x.scale y.scale then .fail (.scaleMismatch x.scale y.scale)
  else
    let level := min x.level y.level
    return (← lowered? x level, ← lowered? y level)

/-- The sum of two ciphertexts, at the scale of the left one. -/
def add (ctx : Context) (x y : Ciphertext) : Result SchemeError Ciphertext := do
  let (x, y) ← ctx.levelled x y
  return { x with c0 := ← x.c0.add? y.c0, c1 := ← x.c1.add? y.c1 }

/-- The difference of two ciphertexts, at the scale of the left one. -/
def sub (ctx : Context) (x y : Ciphertext) : Result SchemeError Ciphertext := do
  let (x, y) ← ctx.levelled x y
  return { x with c0 := ← x.c0.sub? y.c0, c1 := ← x.c1.sub? y.c1 }

/-! ### Products -/

/-- The prime that a rescale at a level divides by; the lowest level has none to spare. -/
def rescalingPrime (ctx : Context) (level : Nat) : Result SchemeError UInt64 :=
  if level = 0 then .fail (.levelExhausted ctx.topLevel)
  else
    match ctx.primes[level]? with
    | some q => .ok q
    | none => .error (.fault .outOfRange)

/-- Divides both components by the last prime. -/
def rescaled? (c : Ciphertext) : Except Fault Ciphertext :=
  return { c with c0 := ← c.c0.divideByLast?, c1 := ← c.c1.divideByLast? }

/-- The components of `(c0 + c1 * s) * (c0' + c1' * s)` for `1`, `s` and `s ^ 2`. -/
def tensor? (x y : Ciphertext) : Except Fault (ResiduePoly × ResiduePoly × ResiduePoly) := do
  let d0 ← x.c0.mul? y.c0
  let d1 ← (← x.c0.mul? y.c1).add? (← x.c1.mul? y.c0)
  let d2 ← x.c1.mul? y.c1
  return (d0, d1, d2)

/-- The product of two ciphertexts, one level below the lower of them. -/
def mul (ctx : Context) (x y : Ciphertext) : Result SchemeError Ciphertext := do
  ctx.requireOwn x
  ctx.requireOwn y
  let level := min x.level y.level
  let dropped ← ctx.rescalingPrime level
  let x ← lowered? x level
  let y ← lowered? y level
  let (d0, d1, d2) ← tensor? x y
  let switched ← ctx.relinearizationKey.switch? ctx.chain d2
  rescaled? {
    c0 := ← d0.add? switched.b
    c1 := ← d1.add? switched.a
    scale := x.scale * y.scale / dropped.toFloat
    contextId := ctx.id }

/-- The integer nearest to a scaled factor, where it is below `2 ^ 120`. -/
def factorInteger? (factor prime : Float) : Option Int :=
  (nearestInteger? (factor * prime)).filter fun k => k.natAbs < 1 <<< 120

/-- The product with a plain factor, one level lower. The factor is applied as the integer `k`
nearest to its product with the dropped prime `q`. Unless `k` is zero the scale is corrected by
`k / (q * factor)`, so that the result decodes to the product with the factor itself. -/
def mulPlain (ctx : Context) (c : Ciphertext) (factor : Float) :
    Result SchemeError Ciphertext := do
  ctx.requireOwn c
  let dropped := (← ctx.rescalingPrime c.level).toFloat
  match factorInteger? factor dropped with
  | none => .fail (.valueOutOfRange factor)
  | some k =>
    rescaled? { c with
      c0 := c.c0.scale k
      c1 := c.c1.scale k
      scale := if k = 0 then c.scale else c.scale * Float.ofInt k / (dropped * factor) }

/-! ### Automorphisms -/

/-- The image of a ciphertext under `X -> X ^ element`, under the same secret. -/
def automorphism (ctx : Context) (c : Ciphertext) (element : Nat) :
    Result SchemeError Ciphertext := do
  ctx.requireOwn c
  match ctx.galoisKeys?.bind (·.get? element) with
  | none => .fail (.missingGaloisKey element)
  | some key =>
    let c0 ← c.c0.automorphism? element
    let switched ← key.switch? ctx.chain (← c.c1.automorphism? element)
    return { c with c0 := ← c0.add? switched.b, c1 := switched.a, contextId := ctx.id }

/-- The complex conjugate in every slot. -/
def conjugate (ctx : Context) (c : Ciphertext) : Result SchemeError Ciphertext :=
  ctx.automorphism c (GaloisKeySet.conjugation ctx.chain.degree)

/-! ### Serialization -/

/-- The moduli of a serialized ciphertext, which must be the lowest primes of the chain. -/
def wireModuli (ctx : Context) (primes : List UInt64) : Except WireError (List RootTable) :=
  if primes.length = 0 ∨ ctx.topLevel + 1 < primes.length then .error (.channelCount primes.length)
  else
    let moduli := ctx.chain.lower (primes.length - 1)
    if moduli.map RootTable.prime = primes then .ok moduli else .error .primes

/-- The component with the given residues. -/
def wirePoly (moduli : List RootTable) (rows : List (List UInt64)) : Except WireError ResiduePoly :=
  match ResiduePoly.ofResidues? rows moduli .transformed with
  | some a => .ok a
  | none => .error .residues

/-- The ciphertext of this context with the given content. -/
def ofWire (ctx : Context) (form : WireForm) : Except WireError Ciphertext := do
  let moduli ← ctx.wireModuli form.primes
  if form.scale.isFinite && 0 < form.scale then
    return {
      c0 := ← wirePoly moduli form.c0
      c1 := ← wirePoly moduli form.c1
      scale := form.scale
      contextId := ctx.id }
  else throw (.scale form.scale)

/-- An error in serialized bytes as an error of the scheme. -/
def ofWireError (e : WireError) : Failure SchemeError :=
  .error (.serialization e.message)

/-- Restores a serialized ciphertext. Its context is checked before anything else it holds. -/
def ofBytes (ctx : Context) (bytes : List UInt8) : Result SchemeError Ciphertext := do
  let form ← (Wire.decode bytes).mapError ofWireError
  if form.contextId ≠ ctx.id then .fail (.contextMismatch ctx.id form.contextId)
  else (ctx.ofWire form).mapError ofWireError

end Context

end EncryptedArithmetic

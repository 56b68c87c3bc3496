import EncryptedArithmetic.Ring.ResiduePoly
import EncryptedArithmetic.Scheme.Error

/-!
# Ciphertexts and their bytes

A ciphertext of a scalar `v` is a pair with `c0 + c1 * s` near `v` times the scale. Its byte form
holds the context, the scale, the primes and the residues of both components, in this order.
Integers and list lengths take one byte below 251, else a marker byte and two, four or eight bytes,
the lowest first; the reader does not insist on the shortest form. The scale takes eight bytes.
-/

namespace EncryptedArithmetic

/-- A ciphertext of one scalar. -/
structure Ciphertext where
  /-- The component that carries the value, transformed, over `q_0, …, q_level`. -/
  c0 : ResiduePoly
  /-- The component that is multiplied by the secret, likewise. -/
  c1 : ResiduePoly
  /-- What the value was multiplied by. -/
  scale : Float
  /-- The context that it belongs to. -/
  contextId : UInt64

namespace Ciphertext

/-- Divisions by a prime that are left before the chain runs out. -/
def level (c : Ciphertext) : Nat :=
  c.c0.channels.length - 1

end Ciphertext

/-- The content of a serialized ciphertext. -/
structure WireForm where
  contextId : UInt64
  scale : Float
  primes : List UInt64
  c0 : List (List UInt64)
  c1 : List (List UInt64)

/-- Why bytes are not a ciphertext of a context. -/
inductive WireError where
  | unexpectedEnd
  | badMarker (marker : UInt8)
  | trailingBytes (count : Nat)
  | channelCount (channels : Nat)
  | primes
  | scale (value : Float)
  | residues

namespace WireError

/-- The wording of an error. -/
def message : WireError → String
  | unexpectedEnd => "unexpected end of data"
  | badMarker marker => s!"byte {marker} begins no integer"
  | trailingBytes n => s!"{n} trailing bytes after ciphertext"
  | channelCount n => s!"ciphertext has {n} channels"
  | primes => "ciphertext primes do not match the context"
  | scale x => s!"invalid scale {Decimal.plain x}"
  | residues => "malformed residues"

end WireError

namespace Wire

/-! ### Writing -/

/-- The `count` lowest bytes of a number, the lowest byte leading. -/
def littleEndian : Nat → Nat → List UInt8
  | 0, _ => []
  | count + 1, n => UInt8.ofNat (n % 256) :: littleEndian count (n / 256)

/-- The shortest form of an integer. -/
def putWord (w : UInt64) : List UInt8 :=
  let n := w.toNat
  if n < 251 then [UInt8.ofNat n]
  else if n < UInt16.size then 251 :: littleEndian 2 n
  else if n < UInt32.size then 252 :: littleEndian 4 n
  else 253 :: littleEndian 8 n

/-- A list: its length and its items. -/
def putList {α : Type} (put : α → List UInt8) (xs : List α) : List UInt8 :=
  putWord xs.length.toUInt64 ++ xs.flatMap put

/-- The bits of a float. -/
def putFloat (x : Float) : List UInt8 :=
  littleEndian 8 x.toBits.toNat

/-- The bytes of a ciphertext. -/
def encode (w : WireForm) : List UInt8 :=
  putWord w.contextId ++ putFloat w.scale ++ putList putWord w.primes ++
    putList (putList putWord) w.c0 ++ putList (putList putWord) w.c1

/-! ### Reading -/

/-- A reader takes a value from the front of the bytes and leaves the rest. -/
abbrev Reader (α : Type) := StateT (List UInt8) (Except WireError) α

/-- Takes one byte. -/
def getByte : Reader UInt8 := fun bytes =>
  match bytes with
  | b :: rest => .ok (b, rest)
  | [] => .error .unexpectedEnd

/-- Takes a number of `count` bytes, the lowest byte leading. -/
def getLittleEndian : Nat → Reader Nat
  | 0 => pure 0
  | count + 1 => do
    let low ← getByte
    let high ← getLittleEndian count
    return low.toNat + 256 * high

/-- Takes an integer. -/
def getWord : Reader UInt64 := do
  let marker ← getByte
  if marker < 251 then return marker.toUInt64
  else if marker = 251 then return (← getLittleEndian 2).toUInt64
  else if marker = 252 then return (← getLittleEndian 4).toUInt64
  else if marker = 253 then return (← getLittleEndian 8).toUInt64
  else throw (.badMarker marker)

/-- Takes `count` items, behind those in `taken`, which are kept last first. -/
def getItems {α : Type} (get : Reader α) : Nat → List α → Reader (List α)
  | 0, taken => return taken.reverse
  | count + 1, taken => do
    let x ← get
    getItems get count (x :: taken)

/-- Takes a list. -/
def getList {α : Type} (get : Reader α) : Reader (List α) := do
  getItems get (← getWord).toNat []

/-- Takes a float. -/
def getFloat : Reader Float :=
  return Float.ofBits (← getLittleEndian 8).toUInt64

/-- Takes the content of a ciphertext. -/
def getForm : Reader WireForm := do
  let contextId ← getWord
  let scale ← getFloat
  let primes ← getList getWord
  let c0 ← getList (getList getWord)
  let c1 ← getList (getList getWord)
  return { contextId, scale, primes, c0, c1 }

/-- The content of a serialized ciphertext, with nothing behind it. -/
def decode (bytes : List UInt8) : Except WireError WireForm := do
  let (form, rest) ← getForm.run bytes
  if rest.isEmpty then return form else throw (.trailingBytes rest.length)

end Wire

namespace Ciphertext

/-- What is serialized of a ciphertext. -/
def toWire (c : Ciphertext) : WireForm where
  contextId := c.contextId
  scale := c.scale
  primes := c.c0.primes
  c0 := c.c0.residues
  c1 := c.c1.residues

/-- The bytes of a ciphertext. -/
def toBytes (c : Ciphertext) : List UInt8 :=
  Wire.encode c.toWire

end Ciphertext

end EncryptedArithmetic

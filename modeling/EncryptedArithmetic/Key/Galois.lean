import EncryptedArithmetic.Key.Switching

/-!
# Galois keys

The automorphism `X -> X ^ k` turns a ciphertext under `s` into one under the image of `s`; the key
for `k` brings it back. There is a key for each rotation by a power of two and one for the
conjugation.
-/

namespace EncryptedArithmetic

/-- Switching keys by the element of their automorphism, in ascending order. -/
structure GaloisKeySet where
  keys : List (Nat × SwitchingKey)

namespace GaloisKeySet

/-- The element that rotates by `step` slots: `5 ^ step` modulo twice the degree. -/
def rotation (step degree : Nat) : Nat :=
  step.repeat (fun k => k * 5 % (2 * degree)) 1

/-- The element of the conjugation, minus one modulo twice the degree. -/
def conjugation (degree : Nat) : Nat :=
  2 * degree - 1

/-- Twice the degree, which has to be a word. -/
def order? (degree : Nat) : Except Fault Nat :=
  if 2 * degree < UInt64.size then .ok (2 * degree) else .error .overflow

/-- The residue of `5 * k` modulo the order. The product has to be a word. -/
def quintuple? (order k : Nat) : Except Fault Nat :=
  if UInt64.size ≤ k * 5 then .error .overflow
  else if order = 0 then .error .divisionByZero
  else .ok (k * 5 % order)

/-- `rotation` for a degree of any size, computed in words. -/
def rotation? (step degree : Nat) : Except Fault Nat := do
  let order ← order? degree
  step.repeat (fun k => k.bind (quintuple? order)) (.ok 1)

/-- `conjugation` for a degree of any size, computed in words. -/
def conjugation? (degree : Nat) : Except Fault Nat := do
  let order ← order? degree
  if order = 0 then .error .overflow else return order - 1

/-- The elements that get a key, in the order of their generation: the rotations by powers of two
below half the degree, then the conjugation. -/
def keyElements (degree : Nat) : List Nat :=
  (List.range (degree / 2).log2).map (fun i => rotation (1 <<< i) degree) ++
    [conjugation degree]

/-- Puts a key at its place; a key for the same element gives way. -/
def insert (element : Nat) (key : SwitchingKey) :
    List (Nat × SwitchingKey) → List (Nat × SwitchingKey)
  | [] => [(element, key)]
  | entry :: rest =>
    if element < entry.1 then (element, key) :: entry :: rest
    else if element = entry.1 then (element, key) :: rest
    else entry :: insert element key rest

/-- Draws the key for one element. -/
def generateKey {σ : Type} (S : Sampler σ) (chain : ModulusChain) (secret : SecretKey)
    (deviation : Float) (g : GaloisKeySet) (element : Nat) : Drawing σ KeyError GaloisKeySet := do
  let target ← secret.poly.automorphism? element
  let key ← SwitchingKey.generate S chain secret target deviation
  return ⟨insert element key g.keys⟩

/-- Draws all keys. -/
def generate {σ : Type} (S : Sampler σ) (chain : ModulusChain) (secret : SecretKey)
    (deviation : Float) : Drawing σ KeyError GaloisKeySet :=
  (keyElements chain.degree).foldlM (generateKey S chain secret deviation) ⟨[]⟩

/-- The key for an element. -/
def get? (g : GaloisKeySet) (element : Nat) : Option SwitchingKey :=
  g.keys.lookup element

/-- The number of keys. -/
def size (g : GaloisKeySet) : Nat :=
  g.keys.length

/-- The elements that have a key, in ascending order. -/
def elements (g : GaloisKeySet) : List Nat :=
  g.keys.map Prod.fst

end GaloisKeySet

end EncryptedArithmetic

import EncryptedArithmetic.Decimal.Binary64
import EncryptedArithmetic.Sampling.Basic

/-!
# A seeded source

A 64-bit counter generator with a finalising mix, and the sampler it gives: residues from 128 bits
each, Gaussian integers by the polar form of two uniform values, ternary vectors by shuffling the
positions.
-/

namespace EncryptedArithmetic

/-- The state of the generator. -/
structure Generator where
  counter : UInt64
deriving Repr

namespace Generator

/-- The generator started from a seed. -/
def ofSeed (seed : UInt64) : Generator := ⟨seed⟩

/-- The next word. -/
def next (g : Generator) : UInt64 × Generator :=
  let counter := g.counter + 0x9e3779b97f4a7c15
  let z := (counter ^^^ (counter >>> 30)) * 0xbf58476d1ce4e5b9
  let z := (z ^^^ (z >>> 27)) * 0x94d049bb133111eb
  (z ^^^ (z >>> 31), ⟨counter⟩)

/-- A number below `bound`, from 128 bits. -/
def below (bound : Nat) (g : Generator) : Nat × Generator :=
  let (high, g) := g.next
  let (low, g) := g.next
  ((((high.toNat <<< 64) + low.toNat) * bound) >>> 128, g)

/-- A value in `(0, 1]` with 53 bits. -/
def unit (g : Generator) : Float × Generator :=
  let (word, g) := g.next
  (((word >>> 11) + 1).toFloat / 9007199254740992, g)

/-- An integer moved into the range of a signed word. -/
def clamp (x : Int) : Int :=
  max Int64.minValue.toInt (min x Int64.maxValue.toInt)

/-- The signed word nearest to a value; zero stands for not-a-number. -/
def nearestWord (x : Float) : Int :=
  match nearestInteger? x with
  | some n => clamp n
  | none => if 0 < x then Int64.maxValue.toInt else if x < 0 then Int64.minValue.toInt else 0

/-- A rounded Gaussian value. -/
def gaussianValue (deviation : Float) (g : Generator) : Int × Generator :=
  let (u, g) := g.unit
  let (v, g) := g.unit
  let z := Float.sqrt (-2 * Float.log u) * Float.cos (6.283185307179586 * v)
  (nearestWord (deviation * z), g)

/-- Draws `count` values one after the other, behind those in `drawn`, which are kept last first. -/
def drawMany {α : Type} (value : Generator → α × Generator) :
    Nat → List α → Generator → List α × Generator
  | 0, drawn, g => (drawn.reverse, g)
  | count + 1, drawn, g =>
    let (x, g) := value g
    drawMany value count (x :: drawn) g

/-- Shuffles the first `count` entries of a list of positions, with numbers that `below` draws. -/
def shuffle {σ : Type} (below : Nat → σ → Nat × σ) : Nat → Array Nat → σ → Array Nat × σ
  | 0, positions, s => (positions, s)
  | count + 1, positions, s =>
    let (other, s) := below (count + 1) s
    shuffle below count (positions.swapIfInBounds count other) s

/-- Puts a sign at each of the positions, the highest bit of a word that `next` draws. -/
def putSigns {σ : Type} (next : σ → UInt64 × σ) : List Nat → Array Int → σ → Array Int × σ
  | [], vector, s => (vector, s)
  | position :: rest, vector, s =>
    let (word, s) := next s
    putSigns next rest (vector.setIfInBounds position (if word >>> 63 = 0 then 1 else -1)) s

/-- The sampler of the generator. -/
def sampler : Sampler Generator where
  uniform count modulus g :=
    drawMany (fun g => let (n, g) := g.below modulus.toNat; (n.toUInt64, g)) count [] g
  gaussian count deviation g := drawMany (gaussianValue deviation) count [] g
  ternary count weight g :=
    let (positions, g) := shuffle below count (Array.range count) g
    let (vector, g) := putSigns next (positions.toList.take weight) (Array.replicate count 0) g
    (vector.toList, g)

end Generator

end EncryptedArithmetic

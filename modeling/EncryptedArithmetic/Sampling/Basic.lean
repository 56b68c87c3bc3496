import EncryptedArithmetic.Ring.ResiduePoly

/-!
# Sources of randomness

A `Sampler` says how the three distributions of the scheme are drawn from a source whose state has
type `σ`: uniform residues, rounded Gaussian integers and ternary vectors of a given weight.
Nothing else in the library depends on where the draws come from, so what is true of every sampler
is true of every key and every encryption.
-/

namespace EncryptedArithmetic

/-- How vectors are drawn from a source with states in `σ`. -/
structure Sampler (σ : Type) where
  /-- `uniform count modulus` draws residues below the modulus. -/
  uniform : Nat → UInt64 → σ → List UInt64 × σ
  /-- `gaussian count deviation` draws integers near zero. -/
  gaussian : Nat → Float → σ → List Int × σ
  /-- `ternary count weight` draws a vector over `-1, 0, 1` with `weight` entries that are not
  zero. -/
  ternary : Nat → Nat → σ → List Int × σ

/-- A computation that draws from a source and can fail with a domain error. -/
abbrev Drawing (σ ε : Type) := ExceptT (Failure ε) (StateM σ)

namespace Sampler

/-- What every sampler promises about its draws. -/
structure Lawful {σ : Type} (S : Sampler σ) : Prop where
  uniform_length : ∀ n q s, (S.uniform n q s).1.length = n
  uniform_lt : ∀ n q s, 0 < q → ∀ r ∈ (S.uniform n q s).1, r < q
  gaussian_length : ∀ n d s, (S.gaussian n d s).1.length = n
  gaussian_word : ∀ n d s, ∀ x ∈ (S.gaussian n d s).1,
    Int64.minValue.toInt ≤ x ∧ x ≤ Int64.maxValue.toInt
  ternary_length : ∀ n w s, (S.ternary n w s).1.length = n
  ternary_mem : ∀ n w s, ∀ x ∈ (S.ternary n w s).1, x = -1 ∨ x = 0 ∨ x = 1
  ternary_weight : ∀ n w s, w ≤ n → (S.ternary n w s).1.countP (· ≠ 0) = w

variable {σ ε : Type} (S : Sampler σ)

/-- Whether memory can address a vector of so many 64-bit words, whose bytes a positive signed word
has to count. -/
def addressable (count : Nat) : Bool :=
  8 * count < 1 <<< 63

/-- Draws a vector of `count` entries. -/
def drawVector {α : Type} (count : Nat) (draw : σ → List α × σ) : Drawing σ ε (List α) :=
  if addressable count then ExceptT.lift draw else throw (.fault .tooManyEntries)

/-- Draws residues below a positive modulus. -/
def drawUniform (count : Nat) (modulus : UInt64) : Drawing σ ε (List UInt64) :=
  if modulus = 0 then throw (.fault .emptyRange)
  else drawVector count (S.uniform count modulus)

/-- Draws rounded Gaussian integers with a finite positive deviation. -/
def drawGaussian (count : Nat) (deviation : Float) : Drawing σ ε (List Int) :=
  if deviation.isFinite && 0 < deviation then drawVector count (S.gaussian count deviation)
  else throw (.fault .deviationNotPositive)

/-- Draws a ternary vector whose weight is at most its length. -/
def drawTernary (count weight : Nat) : Drawing σ ε (List Int) :=
  if weight ≤ count then drawVector count (S.ternary count weight)
  else throw (.fault .weightExceedsDegree)

/-- Draws a uniform polynomial, directly in transformed form. -/
def drawPoly (moduli : List RootTable) : Drawing σ ε ResiduePoly := do
  let degree := (moduli.head?.map RootTable.degree).getD 0
  let channels ← moduli.mapM fun t => return ⟨t, ← S.drawUniform degree t.prime⟩
  return ⟨channels, .transformed⟩

end Sampler

/-- The transformed polynomial with the given integer coefficients. -/
def ResiduePoly.ofSignedTransformed? (coefficients : List Int) (moduli : List RootTable) :
    Except Fault ResiduePoly :=
  (ResiduePoly.ofSigned? coefficients moduli).bind ResiduePoly.toTransformed?

end EncryptedArithmetic

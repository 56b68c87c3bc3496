import EncryptedArithmetic.Ring.Chain

/-!
# Polynomials in residue channels

An element of `Z_Q[X] / (X ^ N + 1)` is kept as its residues modulo each prime of `Q`: one channel
for each prime, either as coefficients or as values of the transform. Sums are taken in either
form, as long as both operands agree, and products in transformed form. An operation that needs
more than it is given ends in a fault.
-/

namespace EncryptedArithmetic

/-- How the entries of a channel are to be read. -/
inductive Form where
  /-- One entry for each power of `X`. -/
  | coefficient
  /-- One entry for each root of `X ^ N + 1`. -/
  | transformed
deriving DecidableEq, Repr

/-- The residues of a polynomial modulo one prime. -/
structure Channel where
  /-- The table of the prime. -/
  table : RootTable
  /-- One residue for each coefficient or root. -/
  residues : List UInt64

namespace Channel

/-- The prime of a channel. -/
def prime (c : Channel) : UInt64 :=
  c.table.prime

/-- Replaces every residue. -/
def map (f : UInt64 → UInt64) (c : Channel) : Channel :=
  { c with residues := c.residues.map f }

/-- Computes new residues from the old ones. -/
def update? (f : List UInt64 → Except Fault (List UInt64)) (c : Channel) : Except Fault Channel :=
  return { c with residues := ← f c.residues }

/-- Combines two channels over the prime of the left one. -/
def combine? (f : UInt64 → List UInt64 → List UInt64 → Except Fault (List UInt64))
    (c d : Channel) : Except Fault Channel :=
  c.update? (f c.prime · d.residues)

end Channel

/-- A polynomial as its residues modulo each prime of a chain. -/
structure ResiduePoly where
  /-- One channel for each prime. -/
  channels : List Channel
  /-- How all channels are to be read. -/
  form : Form

namespace ResiduePoly

/-- The primes of the channels. -/
def primes (a : ResiduePoly) : List UInt64 :=
  a.channels.map Channel.prime

/-- The residues of the channels. -/
def residues (a : ResiduePoly) : List (List UInt64) :=
  a.channels.map Channel.residues

/-- The number of entries of a channel. -/
def degree (a : ResiduePoly) : Nat :=
  (a.channels.head?.map (·.residues.length)).getD 0

/-! ### Construction -/

/-- The polynomial whose channels are computed from their tables. -/
def ofTables (form : Form) (moduli : List RootTable) (f : RootTable → List UInt64) : ResiduePoly :=
  ⟨moduli.map fun t => ⟨t, f t⟩, form⟩

/-- The zero polynomial. -/
def zero (moduli : List RootTable) (form : Form) : ResiduePoly :=
  ofTables form moduli fun t => List.replicate t.degree 0

/-- The constant polynomial, transformed: a constant has the same value at every root. -/
def constant (value : Int) (moduli : List RootTable) : ResiduePoly :=
  ofTables .transformed moduli fun t => List.replicate t.degree (Modular.ofInt value t.prime)

/-- The residue of a signed word. The modulus is read as a signed word too, so primes from `2 ^ 63`
on count as negative and give the residue modulo their distance to `2 ^ 64`. -/
def signedResidue (p : UInt64) (c : Int) : UInt64 :=
  UInt64.ofNat (c % p.toInt64.toInt).toNat

/-- The polynomial with the given integer coefficients, one for each power of `X`. -/
def ofSigned? (coefficients : List Int) (moduli : List RootTable) : Except Fault ResiduePoly :=
  match moduli with
  | [] => .error .outOfRange
  | table :: _ =>
    if coefficients.length = table.degree then
      .ok (ofTables .coefficient moduli fun t => coefficients.map (signedResidue t.prime))
    else .error .coefficientCount

/-- The polynomial with the given residues, where they fit the moduli in number and size. -/
def ofResidues? (rows : List (List UInt64)) (moduli : List RootTable) (form : Form) :
    Option ResiduePoly :=
  let degree := (moduli.head?.map RootTable.degree).getD 0
  let fits (row : List UInt64) (t : RootTable) := row.length == degree && row.all (· < t.prime)
  if rows.length = moduli.length ∧ (rows.zipWith fits moduli).all id then
    some ⟨moduli.zipWith Channel.mk rows, form⟩
  else none

/-- The tables at the given positions. A polynomial has at least one channel. -/
def selectModuli? (tables : List RootTable) (positions : List Nat) :
    Except Fault (List RootTable) :=
  match positions.mapM (tables[·]?) with
  | some (t :: ts) => .ok (t :: ts)
  | _ => .error .outOfRange

/-! ### Change of form -/

/-- The transformed form. -/
def toTransformed? (a : ResiduePoly) : Except Fault ResiduePoly :=
  match a.form with
  | .transformed => .ok a
  | .coefficient =>
    return ⟨← a.channels.mapM fun c => c.update? c.table.forward?, .transformed⟩

/-- The coefficient form. -/
def toCoefficient? (a : ResiduePoly) : Except Fault ResiduePoly :=
  match a.form with
  | .coefficient => .ok a
  | .transformed =>
    return ⟨← a.channels.mapM fun c => c.update? c.table.inverse?, .coefficient⟩

/-- The given form. -/
def toForm? (form : Form) (a : ResiduePoly) : Except Fault ResiduePoly :=
  match form with
  | .coefficient => a.toCoefficient?
  | .transformed => a.toTransformed?

/-! ### Ring operations -/

/-- The negated polynomial. -/
def neg (a : ResiduePoly) : ResiduePoly :=
  { a with channels := a.channels.map fun c => c.map (Modular.neg · c.prime) }

/-- The multiple by an integer. -/
def scale (k : Int) (a : ResiduePoly) : ResiduePoly :=
  { a with
    channels := a.channels.map fun c =>
      let factor := Modular.ofInt k c.prime
      { c with residues := Modular.scaleEach c.prime factor c.residues } }

/-- Combines two polynomials channel by channel. -/
def combine? (f : UInt64 → List UInt64 → List UInt64 → Except Fault (List UInt64))
    (a b : ResiduePoly) : Except Fault ResiduePoly :=
  return { a with
    channels := ← (a.channels.zip b.channels).mapM fun (c, d) => c.combine? f d }

/-- Two polynomials can be combined when they have equally many channels, the same form and the same
primes; the conditions are checked in this order. -/
def compatible? (a b : ResiduePoly) : Except Fault Unit :=
  if a.channels.length ≠ b.channels.length then .error .channelCountMismatch
  else if a.form ≠ b.form then .error .formMismatch
  else if a.primes ≠ b.primes then .error .primesMismatch
  else .ok ()

/-- The sum. -/
def add? (a b : ResiduePoly) : Except Fault ResiduePoly := do
  a.compatible? b
  a.combine? Modular.addEach? b

/-- The difference. -/
def sub? (a b : ResiduePoly) : Except Fault ResiduePoly := do
  a.compatible? b
  a.combine? Modular.subEach? b

/-- The product, of polynomials in transformed form. -/
def mul? (a b : ResiduePoly) : Except Fault ResiduePoly := do
  a.compatible? b
  if a.form = .transformed then a.combine? (fun p xs ys => .ok (Modular.mulEach p xs ys)) b
  else .error .needsTransformedForm

/-- Adds the multiple of `other` by a word in the channel at `position` alone. -/
def addScaledAt? (position : Nat) (a other : ResiduePoly) (scalar : UInt64) :
    Except Fault ResiduePoly :=
  if a.form ≠ other.form then .error .formMismatch
  else
    match a.channels[position]?, other.channels[position]? with
    | some c, some d =>
      if c.prime ≠ d.prime then .error .primesMismatch
      else do
        let scaled := Modular.scaleEach c.prime (scalar % c.prime) d.residues
        let sum ← c.update? (Modular.addEach? c.prime · scaled)
        return { a with channels := a.channels.set position sum }
    | _, _ => .error .outOfRange

/-! ### Channels -/

/-- Keeps the first `count` channels and drops the others. -/
def keep? (count : Nat) (a : ResiduePoly) : Except Fault ResiduePoly :=
  if 1 ≤ count ∧ count ≤ a.channels.length then
    .ok { a with channels := a.channels.take count }
  else .error (.cannotKeep count a.channels.length)

/-- The first `count` channels. -/
def leading? (count : Nat) (a : ResiduePoly) : Except Fault ResiduePoly :=
  if 1 ≤ count ∧ count ≤ a.channels.length then
    .ok { a with channels := a.channels.take count }
  else .error .outOfRange

/-- The channels at the given positions, in the given order. -/
def select? (positions : List Nat) (a : ResiduePoly) : Except Fault ResiduePoly :=
  match positions.mapM (a.channels[·]?) with
  | some (c :: cs) => .ok { a with channels := c :: cs }
  | _ => .error .outOfRange

/-- The residues of one coefficient. -/
def coefficient? (index : Nat) (a : ResiduePoly) : Except Fault (List UInt64) :=
  if a.form ≠ .coefficient then .error .needsCoefficientForm
  else
    match a.residues.mapM (·[index]?) with
    | some column => .ok column
    | none => .error .outOfRange

/-! ### Division by the last prime -/

/-- The residue of the integer nearest to `x / last`, where `x` has the residue `value` modulo the
prime `q` of this channel and `r` modulo `last`: the representative of `r` nearest to zero is taken
off, and what is left is an exact multiple of `last`. -/
def quotientResidue (q last inverse value r : UInt64) : UInt64 :=
  let centered := if last / 2 < r then Modular.sub (r % q) (last % q) q else r % q
  Modular.mul (Modular.sub value centered q) inverse q

/-- Divides by the last prime, rounding to the nearest polynomial, and drops its channel. The form
is kept. -/
def divideByLast? (a : ResiduePoly) : Except Fault ResiduePoly :=
  if a.channels.length < 2 then .error .nothingToDivideBy
  else do
    let work ← a.toCoefficient?
    match work.channels.getLast? with
    | none => .error .nothingToDivideBy
    | some last =>
      let channels ← work.channels.dropLast.mapM fun c => do
        let inverse ← Modular.inverse? (last.prime % c.prime) c.prime
        let quotient := quotientResidue c.prime last.prime inverse
        return { c with residues := c.residues.zipWith quotient last.residues }
      toForm? a.form { work with channels }

/-! ### Automorphisms -/

/-- The inverse of an odd `k` modulo `2 * n`, for a power of two `n`: the `n`-th power of `k` is
one. -/
def inverseElement (n k : Nat) : Nat :=
  (n - 1).repeat (fun w => w * k % (2 * n)) 1

/-- The coefficients after `X -> X ^ k`. The power `X ^ j` of the result comes from the power
`X ^ i` with `i = j / k` modulo `2 * n`; from `n` on that is `-X ^ (i - n)`. -/
def substitute (n k : Nat) (p : UInt64) (coefficients : List UInt64) : List UInt64 :=
  let source := coefficients.toArray
  let inverse := inverseElement n k
  (List.range n).map fun j =>
    let i := j * inverse % (2 * n)
    if i < n then source.getD i 0 else Modular.neg (source.getD (i - n) 0) p

/-- The image under `X -> X ^ k`, for an odd `k` below twice the degree. The form is kept. -/
def automorphism? (k : Nat) (a : ResiduePoly) : Except Fault ResiduePoly :=
  if k % 2 = 1 ∧ k < 2 * a.degree then do
    let work ← a.toCoefficient?
    toForm? a.form { work with
      channels := work.channels.map fun c =>
        { c with residues := substitute a.degree k c.prime c.residues } }
  else .error .badGaloisElement

/-! ### Written form -/

/-- Writes the degree, the form, the number of channels and the residues of the first three entries,
one bracket for each entry. -/
def render (a : ResiduePoly) : String :=
  let form := match a.form with
    | .coefficient => "COEFF"
    | .transformed => "NTT"
  let column (i : Nat) : String :=
    "[" ++ ", ".intercalate (a.residues.map fun row => toString (row.getD i 0)) ++ "]"
  let shown := (List.range (min a.degree 3)).map column
  let more := if 3 < a.degree then ["…"] else []
  s!"RnsPoly<{a.degree}>[{form}; {a.channels.length} channels](" ++
    ", ".intercalate (shown ++ more) ++ ")"

end ResiduePoly

end EncryptedArithmetic

import EncryptedArithmetic.Scheme.Error

/-!
# Parameters of a context

The modulus chain is given by the widths of its primes: the data primes, then the special prime. A
chain of widths `60, 40, 40, 60` has three data primes and supports two multiplications. Every data
prime after the first is as wide as the scale, so that a product, whose scale is the square, comes
back to the scale when the prime is divided out.
-/

namespace EncryptedArithmetic

/-- Whether the size of the modulus is bounded for security. -/
inductive Security where
  /-- At most the modulus that gives 128 bits of classical security with a ternary secret. -/
  | tc128
  /-- No bound. -/
  | none
deriving DecidableEq, Repr

/-- Parameters of an encryption context. -/
structure Parameters where
  /-- The ring degree. -/
  degree : Nat := 8192
  /-- The widths of the primes in bits, the special prime last. -/
  widths : List UInt32 := [60, 40, 40, 60]
  /-- The scale of an encrypted value is two to this power. -/
  scaleBits : UInt32 := 40
  /-- The bound on the size of the modulus. -/
  security : Security := .tc128
  /-- Coefficients of the secret that are not zero, half the degree where none is given. -/
  weight? : Option Nat := .none
  /-- The deviation of the errors. -/
  errorStd : Float := 3.2
  /-- Whether the context gets Galois keys. -/
  galoisKeys : Bool := true

/-- A rule that parameters can break. -/
inductive ParameterDefect where
  | degree (degree : Nat)
  | chainLength (got : Nat)
  | primeWidth (bits : UInt32)
  | scale (bits widest : UInt32)
  | rescalingPrime (bits scale : UInt32)
  | specialPrime (special widest : UInt32)
  | modulusBits (total : Nat)
  | weight (weight degree : Nat)
  | errorStd (value : Float)

namespace Parameters

/-- The smallest ring degree. -/
def leastDegree : Nat := 8
/-- The largest ring degree. -/
def greatestDegree : Nat := 32768
/-- The smallest width of a prime. -/
def leastWidth : UInt32 := 20
/-- The largest width of a prime. -/
def greatestWidth : UInt32 := 60
/-- The largest modulus from which values are reconstructed. -/
def greatestModulusBits : Nat := 1000

/-- The widest moduli with 128 bits of security, by ring degree. -/
def securityBounds : List (Nat × Nat) :=
  [(1024, 27), (2048, 54), (4096, 109), (8192, 218), (16384, 438), (32768, 881)]

/-- The widest modulus with 128 bits of security, zero for degrees without one. -/
def secureBits (degree : Nat) : Nat :=
  (securityBounds.lookup degree).getD 0

/-- The number of coefficients of the secret that are not zero. -/
def weight (p : Parameters) : Nat :=
  p.weight?.getD (p.degree / 2)

/-- The width of the whole modulus. -/
def modulusBits (p : Parameters) : Nat :=
  p.widths.foldl (fun total bits => total + bits.toNat) 0

/-- The width of the whole modulus, which has to be a 32-bit word. -/
def modulusBits? (p : Parameters) : Except Fault Nat :=
  if p.modulusBits < UInt32.size then .ok p.modulusBits else .error .overflow

/-- Multiplications that the chain supports: one for each data prime after the first. -/
def depth (p : Parameters) : Nat :=
  p.widths.length - 2

end Parameters

namespace ParameterDefect

/-- The wording of a defect. -/
def message : ParameterDefect → String
  | degree n =>
    s!"polynomial modulus degree {n} must be a power of two in " ++
      s!"[{Parameters.leastDegree}, {Parameters.greatestDegree}]"
  | chainLength got => s!"coefficient modulus needs at least two primes, got {got}"
  | primeWidth bits =>
    s!"prime bit size {bits} outside [{Parameters.leastWidth}, {Parameters.greatestWidth}]"
  | scale bits widest =>
    s!"scale of {bits} bits must be positive and below the first prime ({widest} bits)"
  | rescalingPrime bits expected =>
    s!"rescaling prime of {bits} bits does not match the {expected}-bit scale"
  | specialPrime special widest =>
    s!"special prime ({special} bits) must be at least as wide as every data prime ({widest} bits)"
  | modulusBits bits =>
    s!"total modulus of {bits} bits exceeds the supported {Parameters.greatestModulusBits}"
  | weight w n => s!"hamming weight {w} must be in [1, {n}]"
  | errorStd x => s!"error standard deviation {Decimal.plain x} must be positive"

/-- A defect as an error of the scheme. -/
def toError (d : ParameterDefect) : SchemeError :=
  .invalidParameter d.message

end ParameterDefect

namespace Parameters

/-- The degree is a power of two in its range. -/
def checkDegree (p : Parameters) : Except ParameterDefect Unit :=
  if 1 <<< p.degree.log2 = p.degree ∧ leastDegree ≤ p.degree ∧ p.degree ≤ greatestDegree then .ok ()
  else .error (.degree p.degree)

/-- The chain has two primes, all of them of a width in the range, data primes after the first as
wide as the scale, which is below the first, and a special prime as wide as the widest. -/
def checkChain (p : Parameters) : Except ParameterDefect Unit :=
  match p.widths with
  | [] => .error (.chainLength 0)
  | [_] => .error (.chainLength 1)
  | leading :: rest =>
    match p.widths.find? (fun b => b < leastWidth || greatestWidth < b) with
    | some b => .error (.primeWidth b)
    | none =>
      if p.scaleBits = 0 ∨ leading ≤ p.scaleBits then .error (.scale p.scaleBits leading)
      else
        match rest.dropLast.find? (· ≠ p.scaleBits) with
        | some b => .error (.rescalingPrime b p.scaleBits)
        | none =>
          let special := rest.getLastD 0
          let widest := (leading :: rest.dropLast).foldl max 0
          if special < widest then .error (.specialPrime special widest)
          else if greatestModulusBits < p.modulusBits then .error (.modulusBits p.modulusBits)
          else .ok ()

/-- The modulus keeps to the bound of the security level. -/
def checkSecurity (p : Parameters) : Except SchemeError Unit :=
  if p.security = .tc128 ∧ secureBits p.degree < p.modulusBits then
    .error (.insecureParameters p.degree p.modulusBits (secureBits p.degree))
  else .ok ()

/-- Secret and errors can be drawn. -/
def checkSampling (p : Parameters) : Except ParameterDefect Unit :=
  if p.weight = 0 ∨ p.degree < p.weight then .error (.weight p.weight p.degree)
  else if p.errorStd.isFinite && 0 < p.errorStd then .ok ()
  else .error (.errorStd p.errorStd)

/-- Checks all rules; the first broken one is reported. -/
def check (p : Parameters) : Except SchemeError Unit := do
  p.checkDegree.mapError ParameterDefect.toError
  p.checkChain.mapError ParameterDefect.toError
  p.checkSecurity
  p.checkSampling.mapError ParameterDefect.toError

/-- Equality by the equality of numbers. -/
protected def beq (p q : Parameters) : Bool :=
  p.degree == q.degree && p.widths == q.widths && p.scaleBits == q.scaleBits &&
    p.security == q.security && p.weight? == q.weight? && p.errorStd == q.errorStd &&
    p.galoisKeys == q.galoisKeys

instance : BEq Parameters := ⟨Parameters.beq⟩

end Parameters

end EncryptedArithmetic

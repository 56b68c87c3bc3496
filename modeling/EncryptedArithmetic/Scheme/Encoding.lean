import EncryptedArithmetic.Ring.ResiduePoly
import EncryptedArithmetic.Ring.Reconstruction
import EncryptedArithmetic.Scheme.Error

/-!
# Scalars as polynomials

A scalar is encoded as a constant polynomial, which has the same value in every slot. Its integer is
the scalar times the scale, rounded to nearest. Decoding reconstructs the constant coefficient from
its residues and divides by the scale.
-/

namespace EncryptedArithmetic.Encoding

/-- The integer of a scalar at a scale. The scaled value has to be finite and below half the lowest
prime, so that it survives the loss of all others. -/
def integer? (value scale : Float) (lowest : UInt64) : Option Int :=
  let scaled := value * scale
  if scaled.isFinite && scaled.abs < (lowest / 2).toFloat then nearestInteger? scaled else none

/-- The polynomial of a scalar. -/
def encode (value scale : Float) (moduli : List RootTable) (lowest : UInt64) :
    Result SchemeError ResiduePoly :=
  match integer? value scale lowest with
  | some m => .ok (ResiduePoly.constant m moduli)
  | none => .fail (.valueOutOfRange value)

/-- The scalar of a polynomial. -/
def decode (plain : ResiduePoly) (scale : Float) : Except Fault Float := do
  let work ← plain.toCoefficient?
  let coefficient ← Reconstruction.toFloat? (← work.coefficient? 0) work.primes
  return coefficient / scale

end EncryptedArithmetic.Encoding

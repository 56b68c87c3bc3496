import EncryptedArithmetic.Decimal.Written
import EncryptedArithmetic.Expression.Parse
import EncryptedArithmetic.Json.Record
import EncryptedArithmetic.Scheme.Parameters

/-!
# Configuration

The settings of a calculator and their JSON form.
-/

namespace EncryptedArithmetic

/-- Divisors whose magnitude is at most this count as zero, unless the configuration says
otherwise. -/
def standardTolerance : Float := 1e-6

/-- The settings of a calculator. -/
structure Config where
  /-- The parameters of its context. -/
  context : Parameters := {}
  /-- Divisors whose magnitude is at most this count as zero. -/
  zeroTolerance : Float := standardTolerance
  /-- The bounds on expressions. -/
  limits : ParseBounds := {}

/-! ### Reading -/

/-- The security level with a name. -/
def Security.ofName? : String → Option Security
  | "tc128" => some .tc128
  | "none" => some .none
  | _ => Option.none

/-- The name of a security level. -/
def Security.name : Security → String
  | .tc128 => "tc128"
  | .none => "none"

namespace Parameters

/-- The fields of the parameters, in their order in an array. -/
def fields : List (RecordField Parameters) := [
  ⟨"poly_modulus_degree", fun v p => v.count?.map fun n => { p with degree := n }⟩,
  ⟨"coeff_mod_bit_sizes", fun v p =>
    (v.list? JsonValue.word32?).map fun bits => { p with widths := bits }⟩,
  ⟨"scale_bits", fun v p => v.word32?.map fun b => { p with scaleBits := b }⟩,
  ⟨"security", fun v p =>
    (v.alternative?.bind Security.ofName?).map fun level => { p with security := level }⟩,
  ⟨"hamming_weight", fun v p =>
    (v.optional? JsonValue.count?).map fun w => { p with weight? := w }⟩,
  ⟨"error_std", fun v p => v.float?.map fun x => { p with errorStd := x }⟩,
  ⟨"galois_keys", fun v p => v.bool?.map fun b => { p with galoisKeys := b }⟩]

/-- The parameters that a JSON value gives. -/
def ofJson? (v : JsonValue) : Option Parameters :=
  v.record? fields {}

/-- The parameters that a JSON text gives. -/
def ofText? (text : String) : Option Parameters :=
  (JsonValue.parse? text).bind ofJson?

end Parameters

namespace ParseBounds

/-- The fields of the limits, in their order in an array. -/
def fields : List (RecordField ParseBounds) := [
  ⟨"max_depth", fun v l => v.count?.map fun n => { l with maxDepth := n }⟩,
  ⟨"max_operators", fun v l => v.count?.map fun n => { l with maxOperators := n }⟩]

end ParseBounds

namespace Config

/-- The fields of a configuration, in their order in an array. -/
def fields : List (RecordField Config) := [
  ⟨"context", fun v c => (Parameters.ofJson? v).map fun p => { c with context := p }⟩,
  ⟨"zero_tolerance", fun v c => v.float?.map fun x => { c with zeroTolerance := x }⟩,
  ⟨"limits", fun v c => (v.record? ParseBounds.fields {}).map fun l => { c with limits := l }⟩]

/-- The configuration that a JSON text gives. -/
def ofText? (text : String) : Option Config :=
  (JsonValue.parse? text).bind (·.record? fields {})

/-- Equality by the equality of numbers. -/
protected def beq (c d : Config) : Bool :=
  c.context == d.context && c.zeroTolerance == d.zeroTolerance && c.limits == d.limits

instance : BEq Config := ⟨Config.beq⟩

/-! ### Writing -/

/-- A finite float with the fewest digits that read back: positional with a decimal up to sixteen
digits before the point and four zeros behind it, else with an exponent. Of two equally near
decimals the one with an even last digit is taken. -/
def writeFloat (x : Float) : String :=
  Decimal.signed x fun b =>
    let d := b.shortest .toEven
    let point : Int := d.chars.length + d.exponent
    if -5 < point ∧ point ≤ 16 then
      let digits := Decimal.positional d
      if digits.contains '.' then digits else digits ++ ['.', '0']
    else Decimal.withExponent d

/-- Writes an object from its members. -/
def writeObject (members : List (String × String)) : String :=
  let member (key value : String) : String := "\"" ++ key ++ "\":" ++ value
  "\x7b" ++ ",".intercalate (members.map fun (key, value) => member key value) ++ "\x7d"

/-- The JSON text of some parameters. -/
def writeParams (p : Parameters) : String :=
  writeObject [
    ("poly_modulus_degree", toString p.degree),
    ("coeff_mod_bit_sizes", "[" ++ ",".intercalate (p.widths.map toString) ++ "]"),
    ("scale_bits", toString p.scaleBits),
    ("security", "\"" ++ p.security.name ++ "\""),
    ("hamming_weight", (p.weight?.map toString).getD "null"),
    ("error_std", writeFloat p.errorStd),
    ("galois_keys", toString p.galoisKeys)]

/-- The JSON text of a configuration. -/
def toText (c : Config) : String :=
  writeObject [
    ("context", writeParams c.context),
    ("zero_tolerance", writeFloat c.zeroTolerance),
    ("limits", writeObject [
      ("max_depth", toString c.limits.maxDepth),
      ("max_operators", toString c.limits.maxOperators)])]

end Config

end EncryptedArithmetic

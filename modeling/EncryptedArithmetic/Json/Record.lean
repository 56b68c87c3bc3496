import EncryptedArithmetic.Json.Parse

/-!
# Records from JSON

A record is read from an object by the names of its fields, or from an array by their positions.
Fields that are missing keep their defaults, and members with other names mean nothing; a field that
is given twice, or an array with too many items, is refused.
-/

namespace EncryptedArithmetic

/-- A field of a record: its name and how its value is taken over. -/
structure RecordField (α : Type) where
  name : String
  put : JsonValue → α → Option α

namespace JsonValue

/-- An unsigned integer below a bound. -/
def natBelow? (bound : Nat) : JsonValue → Option Nat
  | .number (.unsigned n) => if n.toNat < bound then some n.toNat else none
  | _ => none

/-- A 32-bit word. -/
def word32? (v : JsonValue) : Option UInt32 :=
  (v.natBelow? UInt32.size).map Nat.toUInt32

/-- A count, which is a 64-bit word. -/
def count? (v : JsonValue) : Option Nat :=
  v.natBelow? UInt64.size

/-- A float; integers are converted. -/
def float? : JsonValue → Option Float
  | .number (.unsigned n) => some n.toFloat
  | .number (.negative n) => some (-n.toFloat)
  | .number (.float x) => some x
  | _ => none

/-- A truth value. -/
def bool? : JsonValue → Option Bool
  | .bool b => some b
  | _ => none

/-- A list. -/
def list? {α : Type} (item? : JsonValue → Option α) : JsonValue → Option (List α)
  | .array items => items.mapM item?
  | _ => none

/-- A value that may be `null`. -/
def optional? {α : Type} (item? : JsonValue → Option α) : JsonValue → Option (Option α)
  | .null => some none
  | v => (item? v).map some

/-- The name of an alternative: a string, or an object whose only member has that name and is
`null`. -/
def alternative? : JsonValue → Option String
  | .string s => s
  | .object [(key, .null)] => key
  | _ => none

/-- The fields of a record from the members of an object. -/
def members? {α : Type} (fields : List (RecordField α)) :
    List String → List (Option String × JsonValue) → α → Option α
  | _, [], record => some record
  | _, (none, _) :: _, _ => none
  | seen, (some key, value) :: rest, record =>
    match fields.find? (·.name == key) with
    | none => members? fields seen rest record
    | some field =>
      if seen.contains key then none
      else do members? fields (key :: seen) rest (← field.put value record)

/-- The fields of a record from the items of an array. -/
def items? {α : Type} : List (RecordField α) → List JsonValue → α → Option α
  | _, [], record => some record
  | [], _ :: _, _ => none
  | field :: fields, value :: rest, record => do items? fields rest (← field.put value record)

/-- A record with the given fields and defaults. -/
def record? {α : Type} (fields : List (RecordField α)) (defaults : α) : JsonValue → Option α
  | .object members => members? fields [] members defaults
  | .array items => items? fields items defaults
  | _ => none

end JsonValue

end EncryptedArithmetic

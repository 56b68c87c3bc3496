import EncryptedArithmetic.Json.Basic

/-!
# Reading JSON

The strict grammar: no comments, no trailing commas, no leading zeros, no control characters in
strings. Each scanner takes its part from the front of the characters and leaves the rest. Arrays
and objects call the scanner of values with less fuel, of which the number of characters is enough.
-/

namespace EncryptedArithmetic.JsonValue

/-- Space, tab, line feed and carriage return. -/
def isSpace (c : Char) : Bool :=
  c == ' ' || c == '\t' || c == '\n' || c == '\r'

/-- Leaves out the spaces in front. -/
def skipSpace (text : List Char) : List Char :=
  text.dropWhile isSpace

/-! ### Strings -/

/-- The value of a hexadecimal digit. -/
def hexDigit? (c : Char) : Option Nat :=
  if c.isDigit then some (c.toNat - '0'.toNat)
  else if 'a' ≤ c ∧ c ≤ 'f' then some (c.toNat - 'a'.toNat + 10)
  else if 'A' ≤ c ∧ c ≤ 'F' then some (c.toNat - 'A'.toNat + 10)
  else none

/-- The value of four hexadecimal digits. -/
def hexUnit? (a b c d : Char) : Option Nat := do
  return ((← hexDigit? a) * 16 + (← hexDigit? b)) * 256 + (← hexDigit? c) * 16 + (← hexDigit? d)

/-- The character behind a backslash that stands for one character. -/
def escape? : Char → Option Char
  | '"' => some '"'
  | '\\' => some '\\'
  | '/' => some '/'
  | 'b' => some '\x08'
  | 'f' => some '\x0c'
  | 'n' => some '\n'
  | 'r' => some '\r'
  | 't' => some '\t'
  | _ => none

/-- Takes the characters of a string and its closing quote, behind the code units in `taken`, which
are kept last first. Escapes of halves of a surrogate pair stay halves. -/
def scanUnits (taken : List Nat) : List Char → Option (List Nat × List Char)
  | [] => none
  | '"' :: rest => some (taken.reverse, rest)
  | '\\' :: 'u' :: a :: b :: c :: d :: rest => do scanUnits ((← hexUnit? a b c d) :: taken) rest
  | '\\' :: c :: rest => do scanUnits ((← escape? c).toNat :: taken) rest
  | c :: rest => if c.toNat < 32 then none else scanUnits (c.toNat :: taken) rest

/-- Joins the halves of surrogate pairs; a half alone has no character. -/
def joinSurrogates : List Nat → Option (List Char)
  | [] => some []
  | high :: rest =>
    if 0xdc00 ≤ high ∧ high < 0xe000 then none
    else if 0xd800 ≤ high ∧ high < 0xdc00 then
      match rest with
      | low :: rest =>
        if 0xdc00 ≤ low ∧ low < 0xe000 then
          (joinSurrogates rest).map
            (Char.ofNat (0x10000 + (high - 0xd800) * 0x400 + (low - 0xdc00)) :: ·)
        else none
      | [] => none
    else (joinSurrogates rest).map (Char.ofNat high :: ·)

/-- Takes a string behind its opening quote. -/
def scanString (text : List Char) : Option (Option String × List Char) := do
  let (units, rest) ← scanUnits [] text
  return ((joinSurrogates units).map String.ofList, rest)

/-! ### Numbers -/

/-- Takes digits, at least one. -/
def scanDigits (text : List Char) : Option (List Char × List Char) :=
  let digits := text.takeWhile Char.isDigit
  if digits.isEmpty then none else some (digits, text.dropWhile Char.isDigit)

/-- Takes the digits before the point: a zero alone, or no zero in front. -/
def scanWhole (text : List Char) : Option (List Char × List Char) := do
  let (digits, rest) ← scanDigits text
  if digits.head? = some '0' ∧ digits.length ≠ 1 then none else return (digits, rest)

/-- Takes a point and digits, where there is a point. -/
def scanFraction : List Char → Option (Option (List Char) × List Char)
  | '.' :: rest => (scanDigits rest).map fun (digits, rest) => (some digits, rest)
  | text => some (none, text)

/-- Takes an exponent, where there is one. -/
def scanExponent (text : List Char) : Option (Option Int × List Char) :=
  let behindMark :=
    match text with
    | 'e' :: rest => some rest
    | 'E' :: rest => some rest
    | _ => none
  match behindMark with
  | none => some (none, text)
  | some rest => do
    let (isNegative, rest) := match rest with
      | '-' :: rest => (true, rest)
      | '+' :: rest => (false, rest)
      | rest => (false, rest)
    let (digits, rest) ← scanDigits rest
    let power : Int := Decimal.natOfDigits digits
    return (some (if isNegative then -power else power), rest)

/-- Takes a number behind its sign. -/
def scanNumeral (isNegative : Bool) (text : List Char) : Option (JsonValue × List Char) := do
  let (whole, rest) ← scanWhole text
  let (fraction, rest) ← scanFraction rest
  let (exponent, rest) ← scanExponent rest
  return (.number (JsonNumber.classify isNegative whole fraction exponent), rest)

/-! ### Values -/

mutual

/-- Takes a value and the spaces in front of it. -/
def scanValue : Nat → List Char → Option (JsonValue × List Char)
  | 0, _ => none
  | fuel + 1, text =>
    match skipSpace text with
    | 'n' :: 'u' :: 'l' :: 'l' :: rest => some (.null, rest)
    | 't' :: 'r' :: 'u' :: 'e' :: rest => some (.bool true, rest)
    | 'f' :: 'a' :: 'l' :: 's' :: 'e' :: rest => some (.bool false, rest)
    | '"' :: rest => (scanString rest).map fun (s, rest) => (.string s, rest)
    | '-' :: rest => scanNumeral true rest
    | '[' :: rest =>
      match skipSpace rest with
      | ']' :: rest => some (.array [], rest)
      | rest => scanItems fuel [] rest
    | '{' :: rest =>
      match skipSpace rest with
      | '}' :: rest => some (.object [], rest)
      | rest => scanMembers fuel [] rest
    | rest => scanNumeral false rest

/-- Takes the items of an array and its closing bracket, behind those in `taken`. -/
def scanItems : Nat → List JsonValue → List Char → Option (JsonValue × List Char)
  | 0, _, _ => none
  | fuel + 1, taken, text => do
    let (item, rest) ← scanValue fuel text
    match skipSpace rest with
    | ',' :: rest => scanItems fuel (item :: taken) rest
    | ']' :: rest => some (.array (item :: taken).reverse, rest)
    | _ => none

/-- Takes the members of an object and its closing brace, behind those in `taken`. -/
def scanMembers : Nat → List (Option String × JsonValue) → List Char →
    Option (JsonValue × List Char)
  | 0, _, _ => none
  | fuel + 1, taken, text =>
    match skipSpace text with
    | '"' :: rest => do
      let (key, rest) ← scanString rest
      match skipSpace rest with
      | ':' :: rest => do
        let (value, rest) ← scanValue fuel rest
        match skipSpace rest with
        | ',' :: rest => scanMembers fuel ((key, value) :: taken) rest
        | '}' :: rest => some (.object ((key, value) :: taken).reverse, rest)
        | _ => none
      | _ => none
    | _ => none

end

/-- The value that a text denotes. -/
def parse? (text : String) : Option JsonValue := do
  let cs := text.toList
  let (value, rest) ← scanValue (2 * cs.length + 2) cs
  if (skipSpace rest).isEmpty then some value else none

end EncryptedArithmetic.JsonValue

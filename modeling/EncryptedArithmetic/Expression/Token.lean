import EncryptedArithmetic.Decimal.Written
import EncryptedArithmetic.Decimal.Reading
import EncryptedArithmetic.Expression.Basic
import EncryptedArithmetic.Expression.ParseError

/-!
# Tokens

A text is cut into operators, parentheses and numerals; blanks separate them and mean nothing. A
numeral is the longest run of digits and points at its place, and it is well formed when it has at
least one digit, at most one point and a finite value. Positions are byte offsets into the UTF-8
form of the text.
-/

namespace EncryptedArithmetic

/-- What a token is. -/
inductive Lexeme where
  | number (value : Float)
  | operator (op : Operator)
  | opening
  | closing

/-- A lexeme and the byte offset at which it begins. -/
structure Token where
  lexeme : Lexeme
  position : Nat

/-- The tokens of a text and the byte offset of its end. -/
structure TokenList where
  tokens : List Token
  stop : Nat

namespace Lexeme

/-- How a lexeme is named to a reader. -/
def spelling : Lexeme → String
  | number value => Decimal.plain value
  | operator op => op.symbol.toString
  | opening => "("
  | closing => ")"

/-- The lexeme that is a single character. -/
def ofChar? (c : Char) : Option Lexeme :=
  match c with
  | '(' => some opening
  | ')' => some closing
  | c => (Operator.ofSymbol? c).map operator

end Lexeme

namespace TokenList

/-- How the end of a text is named to a reader. -/
def stopName : String := "end of input"

/-- The blanks of ASCII: space, tab, line feed, form feed and carriage return. -/
def isBlank (c : Char) : Bool :=
  c == ' ' || c == '\t' || c == '\n' || c == '\x0c' || c == '\r'

/-- The characters that numerals are made of. -/
def isNumeric (c : Char) : Bool :=
  c.isDigit || c == '.'

/-- The value of a run of digits and points, where it is a well-formed numeral. -/
def numeral? (run : List Char) : Option Float :=
  if run.count '.' ≤ 1 then (Decimal.ofNumeral? run 0).filter Float.isFinite else none

/-- Cuts the characters from byte offset `pos` on into tokens, behind those already in `seen`, which
are kept last first. -/
def scanFrom (pos : Nat) (seen : List Token) (text : List Char) : Except ParseError TokenList :=
  match text with
  | [] => .ok ⟨seen.reverse, pos⟩
  | c :: rest =>
    if isBlank c then scanFrom (pos + 1) seen rest
    else if isNumeric c then
      let run := c :: rest.takeWhile isNumeric
      match numeral? run with
      | some value =>
        scanFrom (pos + run.length) (⟨.number value, pos⟩ :: seen) (rest.dropWhile isNumeric)
      | none => .error (.invalidNumber (String.ofList run) pos)
    else
      match Lexeme.ofChar? c with
      | some lexeme => scanFrom (pos + 1) (⟨lexeme, pos⟩ :: seen) rest
      | none => .error (.invalidCharacter c pos)
termination_by text.length
decreasing_by
  · simp
  · have := (List.dropWhile_suffix isNumeric (l := rest)).length_le
    simp only [List.length_cons]
    omega
  · simp

/-- The tokens of a text. -/
def ofText (text : String) : Except ParseError TokenList :=
  scanFrom 0 [] text.toList

end TokenList

end EncryptedArithmetic

import EncryptedArithmetic.Decimal.Written
import EncryptedArithmetic.Expression.Basic

/-!
# The written form of an expression

Every operator is written between its operands inside a pair of parentheses of its own, and a
literal is written with the fewest digits that read back: `(1.5 - (-2 / 4))`.
-/

namespace EncryptedArithmetic.Expression

/-- Writes an expression in front of the characters `rest`. -/
def renderOnto : Expression → List Char → List Char
  | literal value, rest => (Decimal.plain value).toList ++ rest
  | binary op left right, rest =>
    '(' :: renderOnto left (' ' :: op.symbol :: ' ' :: renderOnto right (')' :: rest))

/-- The written form of an expression. -/
def render (e : Expression) : String :=
  String.ofList (renderOnto e [])

end EncryptedArithmetic.Expression

/-!
# What can be wrong with a text

Each cause carries the byte offset of the character or token it is about; only a text without any
token has no place to point at.
-/

namespace EncryptedArithmetic

/-- Why a text is not an expression. -/
inductive ParseError where
  | empty
  | invalidCharacter (character : Char) (position : Nat)
  | invalidNumber (text : String) (position : Nat)
  | expectedOperand (found : String) (position : Nat)
  | missingOperand (position : Nat)
  | expectedOperator (position : Nat)
  | unclosedParenthesis (position : Nat)
  | unmatchedParenthesis (position : Nat)
  | unaryOperator (position : Nat)
  | nestingTooDeep (limit position : Nat)
  | tooManyOperators (limit position : Nat)
deriving DecidableEq, Repr

namespace ParseError

/-- The byte offset that an error points at. -/
def position? : ParseError → Option Nat
  | empty => none
  | invalidCharacter _ p | invalidNumber _ p | expectedOperand _ p | missingOperand p
  | expectedOperator p | unclosedParenthesis p | unmatchedParenthesis p | unaryOperator p
  | nestingTooDeep _ p | tooManyOperators _ p => some p

/-- The wording of an error. -/
def message : ParseError → String
  | empty => "Empty expression"
  | invalidCharacter c p => s!"Invalid character '{c}' at position {p}"
  | invalidNumber t p => s!"Malformed number '{t}' at position {p}"
  | expectedOperand f p => s!"Expected a number or '(' at position {p}, found '{f}'"
  | missingOperand p => s!"Operator at position {p} has no right operand"
  | expectedOperator p => s!"Expected an operator at position {p}"
  | unclosedParenthesis p => s!"Parenthesis opened at position {p} is never closed"
  | unmatchedParenthesis p => s!"Unmatched ')' at position {p}"
  | unaryOperator p => s!"Unary operator at position {p} must be followed by a number"
  | nestingTooDeep n p => s!"Parentheses nested deeper than {n} at position {p}"
  | tooManyOperators n p => s!"More than {n} operators (position {p})"

end ParseError

end EncryptedArithmetic

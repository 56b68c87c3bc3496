import EncryptedArithmetic.Expression.Token

/-!
# Reading an expression

The grammar, with both binary levels folded to the left:

    expression := term (('+' | '-') term)*
    term       := factor (('*' | '/') factor)*
    factor     := NUMBER | '-' NUMBER | '(' expression ')'

The reader takes one token at a time. Its state holds what has been read of the innermost open
expression, the expressions suspended at each open parenthesis, and what may come next. Two limits
bound the input: how many parentheses may be open at once, and how many binary operators there are.
-/

namespace EncryptedArithmetic

/-- Bounds on the size of an expression that is read from text. -/
structure ParseBounds where
  /-- Parentheses that may be open at once. -/
  maxDepth : Nat := 64
  /-- Binary operators in one text; the sign of a literal is none. -/
  maxOperators : Nat := 256
deriving DecidableEq, Repr

namespace Parse

/-- The part of an expression in front of the factor that is read next. -/
structure Pending where
  /-- The terms so far and the operator behind them. -/
  sum : Option (Expression × Operator) := none
  /-- The factors so far of the current term and the operator behind them. -/
  product : Option (Expression × Operator) := none

namespace Pending

/-- The current term, when `factor` is its last factor. -/
def term (p : Pending) (factor : Expression) : Expression :=
  match p.product with
  | none => factor
  | some (left, op) => .binary op left factor

/-- The whole expression, when `factor` is its last factor. -/
def total (p : Pending) (factor : Expression) : Expression :=
  match p.sum with
  | none => p.term factor
  | some (left, op) => .binary op left (p.term factor)

/-- What is pending once `factor` and the operator behind it are read. -/
def push (p : Pending) (factor : Expression) (op : Operator) : Pending :=
  if op.bindsTighter then { p with product := some (p.term factor, op) }
  else { sum := some (p.total factor, op) }

end Pending

/-- What may come next. -/
inductive Expecting where
  /-- A factor; `after` is the position of the operator it belongs to. -/
  | operand (after : Option Nat)
  /-- The digits of a literal whose sign is at `sign`. -/
  | digits (sign : Nat)
  /-- An operator or the end of the expression, behind a complete factor. -/
  | operator (factor : Expression)

/-- The state of the reader between two tokens. -/
structure State where
  /-- The expressions suspended at open parentheses, innermost first, with the positions of those.
  -/
  enclosing : List (Pending × Nat) := []
  /-- The innermost expression. -/
  pending : Pending := {}
  /-- Binary operators read so far. -/
  operators : Nat := 0
  /-- What may come next. -/
  expecting : Expecting := .operand none

/-- Reads one token. -/
def step (limits : ParseBounds) (s : State) (t : Token) : Except ParseError State :=
  match s.expecting, t.lexeme with
  | .operand _, .number value => .ok { s with expecting := .operator (.literal value) }
  | .operand _, .operator .sub => .ok { s with expecting := .digits t.position }
  | .operand _, .opening =>
    if limits.maxDepth < s.enclosing.length + 1 then
      .error (.nestingTooDeep limits.maxDepth t.position)
    else
      .ok { s with
        enclosing := (s.pending, t.position) :: s.enclosing
        pending := {}
        expecting := .operand none }
  | .operand _, found => .error (.expectedOperand found.spelling t.position)
  | .digits _, .number value => .ok { s with expecting := .operator (.literal (-value)) }
  | .digits sign, _ => .error (.unaryOperator sign)
  | .operator factor, .operator op =>
    if limits.maxOperators < s.operators + 1 then
      .error (.tooManyOperators limits.maxOperators t.position)
    else
      .ok { s with
        pending := s.pending.push factor op
        operators := s.operators + 1
        expecting := .operand (some t.position) }
  | .operator factor, .closing =>
    match s.enclosing with
    | [] => .error (.unmatchedParenthesis t.position)
    | (outer, _) :: enclosing =>
      .ok { s with enclosing, pending := outer, expecting := .operator (s.pending.total factor) }
  | .operator _, .number _ | .operator _, .opening => .error (.expectedOperator t.position)

/-- The expression read, when the text ends at byte offset `stop`. -/
def finish (s : State) (stop : Nat) : Except ParseError Expression :=
  match s.expecting with
  | .operand after => .error (.missingOperand (after.getD stop))
  | .digits sign => .error (.unaryOperator sign)
  | .operator factor =>
    match s.enclosing with
    | [] => .ok (s.pending.total factor)
    | (_, opened) :: _ => .error (.unclosedParenthesis opened)

/-- Reads a list of tokens. -/
def ofTokens (limits : ParseBounds) (list : TokenList) : Except ParseError Expression :=
  if list.tokens.isEmpty then .error .empty
  else do finish (← list.tokens.foldlM (step limits) {}) list.stop

end Parse

/-- Reads an expression from a text. -/
def Expression.parse (limits : ParseBounds) (text : String) : Except ParseError Expression := do
  Parse.ofTokens limits (← TokenList.ofText text)

end EncryptedArithmetic

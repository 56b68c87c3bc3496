import EncryptedArithmetic.Expression.Basic

/-!
# Postfix form

The postfix form of an expression lists its literals and operators with every operator behind its
operands. `Postfix.build` reads such a list back with a stack of finished expressions.
-/

namespace EncryptedArithmetic

/-- An entry of a postfix list. An operator is still the character it is written as. -/
inductive Postfix where
  | literal (value : Float)
  | symbol (character : Char)

namespace Postfix

/-- Why a postfix list does not denote one expression. -/
inductive Defect where
  | unknownSymbol (character : Char)
  | underflow
  | notOne
deriving DecidableEq, Repr

/-- Reads one entry on a stack whose top is the most recent expression. The symbol is looked up
before its operands are taken. -/
def push (stack : List Expression) : Postfix → Except Defect (List Expression)
  | literal value => .ok (.literal value :: stack)
  | symbol c =>
    match Operator.ofSymbol? c with
    | none => .error (.unknownSymbol c)
    | some op =>
      match stack with
      | right :: left :: rest => .ok (.binary op left right :: rest)
      | _ => .error .underflow

/-- The expression that a postfix list denotes. -/
def build (entries : List Postfix) : Except Defect Expression := do
  match ← entries.foldlM push [] with
  | [e] => .ok e
  | _ => .error .notOne

end Postfix

namespace Expression

/-- The postfix form of an expression, in front of `rest`. -/
def toPostfixOnto : Expression → List Postfix → List Postfix
  | literal value, rest => .literal value :: rest
  | binary op left right, rest =>
    toPostfixOnto left (toPostfixOnto right (.symbol op.symbol :: rest))

/-- The postfix form of an expression. -/
def toPostfix (e : Expression) : List Postfix :=
  toPostfixOnto e []

/-- A chain of `count` operators that grows from `start` on one side, every other operand being
`value`: `grow` puts the operator around the chain built so far. -/
def chain (grow : Expression → Expression) (start : Float) (count : Nat) : Expression :=
  count.repeat grow (.literal start)

end Expression

end EncryptedArithmetic

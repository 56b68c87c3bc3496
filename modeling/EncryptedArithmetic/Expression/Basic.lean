/-!
# Arithmetic expressions

An expression is a literal or one of the four operators over two expressions. `foldM` reduces an
expression bottom up in any monad: the left operand first, then the right one, then the operator. It
keeps what remains to be done and the values of finished operands in two lists, so the depth of an
expression costs no call stack. Everything else that is computed from an expression is a fold.
-/

namespace EncryptedArithmetic

/-- The four operators. -/
inductive Operator where
  | add
  | sub
  | mul
  | div
deriving DecidableEq, Repr

namespace Operator

/-- The character an operator is written as. -/
def symbol : Operator → Char
  | add => '+'
  | sub => '-'
  | mul => '*'
  | div => '/'

/-- The operator written as a character. -/
def ofSymbol? : Char → Option Operator
  | '+' => some add
  | '-' => some sub
  | '*' => some mul
  | '/' => some div
  | _ => none

/-- Multiplication and division bind tighter than addition and subtraction. -/
def bindsTighter : Operator → Bool
  | mul | div => true
  | add | sub => false

/-- What an operator does to plain numbers. -/
def apply : Operator → Float → Float → Float
  | add => (· + ·)
  | sub => (· - ·)
  | mul => (· * ·)
  | div => (· / ·)

@[simp]
theorem ofSymbol?_symbol (op : Operator) : ofSymbol? op.symbol = some op := by
  cases op <;> rfl

end Operator

/-- An arithmetic expression. -/
inductive Expression where
  | literal (value : Float)
  | binary (operator : Operator) (left right : Expression)

/-- What a walk over an expression still has to do. -/
inductive Task where
  /-- Reduce an expression to a value. -/
  | visit (e : Expression)
  /-- Apply an operator to the two values on top of the stack. -/
  | combine (operator : Operator)

namespace Task

/-- With so many values on the stack every operator finds its two operands, and in the end one value
is left. -/
inductive Fit : List Task → Nat → Prop where
  | done : Fit [] 1
  | visit {e : Expression} {tasks : List Task} {count : Nat} (rest : Fit tasks (count + 1)) :
      Fit (.visit e :: tasks) count
  | combine {op : Operator} {tasks : List Task} {count : Nat} (rest : Fit tasks (count + 1)) :
      Fit (.combine op :: tasks) (count + 2)

theorem Fit.of_visit {e : Expression} {tasks : List Task} {count : Nat} :
    Fit (.visit e :: tasks) count → Fit tasks (count + 1)
  | .visit rest => rest

theorem Fit.of_combine {op : Operator} {tasks : List Task} {count : Nat} :
    Fit (.combine op :: tasks) (count + 2) → Fit tasks (count + 1)
  | .combine rest => rest

/-- How many tasks a walk takes on account of an expression: one for each literal and two for each
operator, before its operands and behind them. -/
def stepsOf : Expression → Nat
  | .literal _ => 1
  | .binary _ left right => stepsOf left + stepsOf right + 2

/-- How many tasks a walk takes to work off a list of them. -/
def steps : List Task → Nat
  | [] => 0
  | visit e :: tasks => stepsOf e + steps tasks
  | combine _ :: tasks => 1 + steps tasks

end Task

namespace Expression

section Walk

variable {m : Type → Type} [Monad m] {α : Type}

/-- Works off a list of tasks with a stack of values whose top is the most recent one. It stays
reducible, so that what is folded from a given expression can be computed in a proof. -/
@[specialize, semireducible]
def walk (leaf : Float → m α) (branch : Operator → α → α → m α) :
    (tasks : List Task) → (values : List α) → Task.Fit tasks values.length → m α
  | [], [value], _ => pure value
  | .visit (.literal value) :: tasks, values, h => do
    let x ← leaf value
    walk leaf branch tasks (x :: values) h.of_visit
  | .visit (.binary op left right) :: tasks, values, h =>
    walk leaf branch (.visit left :: .visit right :: .combine op :: tasks) values
      (.visit (.visit (.combine h.of_visit)))
  | .combine op :: tasks, right :: left :: values, h => do
    let x ← branch op left right
    walk leaf branch tasks (x :: values) h.of_combine
termination_by tasks => Task.steps tasks
decreasing_by all_goals
  simp only [Task.steps, Task.stepsOf]
  omega

/-- Reduces an expression bottom up, the left operand before the right one. -/
@[specialize]
def foldM (leaf : Float → m α) (branch : Operator → α → α → m α) (e : Expression) : m α :=
  walk leaf branch [.visit e] [] (.visit .done)

variable [LawfulMonad m] (leaf : Float → m α) (branch : Operator → α → α → m α)

/-- What a walk does first is the reduction of the expression on top, whatever the rest. -/
theorem walk_visit (e : Expression) (tasks : List Task) (values : List α)
    (h : Task.Fit (.visit e :: tasks) values.length) :
    walk leaf branch (.visit e :: tasks) values h =
      foldM leaf branch e >>= fun x => walk leaf branch tasks (x :: values) h.of_visit := by
  induction e generalizing tasks values with
  | literal value => simp [foldM, walk]
  | binary op left right ihl ihr =>
    -- Both sides reduce the operands first; only what follows the operator differs.
    rw [walk, foldM, walk, ihl, ihl, bind_assoc]
    refine bind_congr fun l => ?_
    rw [ihr, ihr, bind_assoc]
    refine bind_congr fun r => ?_
    simp [walk]

theorem foldM_literal (value : Float) : foldM leaf branch (literal value) = leaf value := by
  simp [foldM, walk]

/-- The left operand is reduced before the right one, and the operator comes last. -/
theorem foldM_binary (op : Operator) (left right : Expression) :
    foldM leaf branch (binary op left right) =
      (do branch op (← foldM leaf branch left) (← foldM leaf branch right)) := by
  rw [foldM, walk, walk_visit]
  refine bind_congr fun l => ?_
  rw [walk_visit]
  refine bind_congr fun r => ?_
  simp [walk]

end Walk

/-- Reduces an expression with pure functions. -/
def fold {α : Type} (leaf : Float → α) (branch : Operator → α → α → α) (e : Expression) : α :=
  foldM (m := Id) leaf branch e

@[simp]
theorem fold_literal {α : Type} (leaf : Float → α) (branch : Operator → α → α → α)
    (value : Float) : fold leaf branch (literal value) = leaf value :=
  foldM_literal (m := Id) leaf branch value

@[simp]
theorem fold_binary {α : Type} (leaf : Float → α) (branch : Operator → α → α → α) (op : Operator)
    (left right : Expression) :
    fold leaf branch (binary op left right) =
      branch op (fold leaf branch left) (fold leaf branch right) := by
  simp only [fold, foldM_binary]
  rfl

/-- Levels of a modulus chain that an evaluation needs. A product spends a level on top of its
operands. A quotient spends one on its dividend; its divisor is decrypted and only has to be
computable. -/
def requiredLevels : Expression → Nat :=
  fold (fun _ => 0) fun
    | .add, l, r | .sub, l, r => max l r
    | .mul, l, r => max l r + 1
    | .div, l, r => max (l + 1) r

/-- Literals and operators in an expression. -/
def size : Expression → Nat :=
  fold (fun _ => 1) fun _ l r => 1 + l + r

/-- The value of an expression in plain arithmetic. -/
def plainValue : Expression → Float :=
  fold id Operator.apply

/-- Equality by the equality of numbers: zeros are equal, not-a-number differs from itself. -/
protected def beq : Expression → Expression → Bool
  | literal x, literal y => x == y
  | binary op l r, binary op' l' r' => op == op' && Expression.beq l l' && Expression.beq r r'
  | _, _ => false

instance : BEq Expression := ⟨Expression.beq⟩

end Expression

end EncryptedArithmetic

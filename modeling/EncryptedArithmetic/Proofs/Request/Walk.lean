import EncryptedArithmetic.Proofs.Sampling
import EncryptedArithmetic.Request.Evaluation

/-!
# Walks over an expression

An expression is reduced by a loop with two stacks, one of tasks and one of values. Here the loop is
compared with the recursion that it stands for: first the left operand, then the right one, then the
operator, each with the state that the one before leaves, until something fails. The states may
count calls or hold the draws that are still to come, so equal outcomes for every state say that the
same calls are made in the same order.

## Main definitions

* `Expression.loop`: the loop on any stack, with an answer of its own where a value is missing.
* `Expression.postorder`: the recursion.

## Main results

* `loop_eq_walk`: no value is ever missing.
* `run_foldM`: the loop does what the recursion does.
* `walk_spec`: so do the replay and the encrypted pass of an evaluation.
-/

namespace EncryptedArithmetic

namespace Expression

/-! ## The loop on any stack -/

section Loop

variable {m : Type → Type} [Monad m] {α : Type}

/-- The loop of `walk` without its promise: `stuck` is what happens where an operator lacks an
operand, and where no value is left in the end. -/
def loop (stuck : m α) (leaf : Float → m α) (branch : Operator → α → α → m α) :
    List Task → List α → m α
  | [], [] => stuck
  | [], value :: _ => pure value
  | .visit (.literal value) :: tasks, values => do
    let x ← leaf value
    loop stuck leaf branch tasks (x :: values)
  | .visit (.binary op left right) :: tasks, values =>
    loop stuck leaf branch (.visit left :: .visit right :: .combine op :: tasks) values
  | .combine op :: tasks, right :: left :: values => do
    let x ← branch op left right
    loop stuck leaf branch tasks (x :: values)
  | .combine _ :: _, _ => stuck
termination_by tasks => Task.steps tasks
decreasing_by all_goals
  simp only [Task.steps, Task.stepsOf]
  omega

variable (stuck : m α) (leaf : Float → m α) (branch : Operator → α → α → m α)

/-- As long as the values suffice for the tasks, nothing depends on `stuck`. -/
theorem loop_eq_walk (tasks : List Task) (values : List α) (h : Task.Fit tasks values.length) :
    loop stuck leaf branch tasks values = walk leaf branch tasks values h := by
  -- Along the cases of the loop; with every task the promise is kept for the rest.
  fun_induction walk leaf branch tasks values h with
  | case1 value => rw [loop]
  | case2 value tasks values h _ ih =>
    rw [loop]
    exact bind_congr ih
  | case3 op left right tasks values h _ ih => rw [loop, ih]
  | case4 op tasks right left values h _ ih =>
    rw [loop]
    exact bind_congr ih

/-- The walk over an expression starts without values, and they suffice. -/
theorem loop_eq_foldM (e : Expression) :
    loop stuck leaf branch [.visit e] [] = foldM leaf branch e :=
  loop_eq_walk stuck leaf branch _ _ _

end Loop

/-! ## The recursion -/

section Recursion

variable {σ ε α : Type}

/-- Reduces an expression by recursion on its operands. Every call takes the state that the one
before it leaves, and after an error there are no more calls. -/
def postorder (leaf : Float → σ → Except ε α × σ)
    (branch : Operator → α → α → σ → Except ε α × σ) : Expression → σ → Except ε α × σ
  | literal value, s => leaf value s
  | binary op left right, s =>
    match postorder leaf branch left s with
    | (.ok l, s) =>
      match postorder leaf branch right s with
      | (.ok r, s) => branch op l r s
      | (.error e, s) => (.error e, s)
    | (.error e, s) => (.error e, s)

/-- The second of two computations starts in the state that the first one leaves. -/
theorem run_bind {β : Type} {x : ExceptT ε (StateM σ) α} {f : α → ExceptT ε (StateM σ) β} {s : σ} :
    (x >>= f).run.run s =
      match x.run.run s with
      | (.ok a, t) => (f a).run.run t
      | (.error e, t) => (.error e, t) := by
  change (ExceptT.bindCont f (x.run.run s).1).run (x.run.run s).2 = _
  rcases x.run.run s with ⟨a | a, t⟩ <;> rfl

/-- The loop has the result of the recursion and leaves the state that it leaves. -/
theorem run_foldM (leaf : Float → ExceptT ε (StateM σ) α)
    (branch : Operator → α → α → ExceptT ε (StateM σ) α) (e : Expression) (s : σ) :
    (foldM leaf branch e).run.run s =
      postorder (fun value => (leaf value).run.run) (fun op l r => (branch op l r).run.run) e
        s := by
  induction e generalizing s with
  | literal value => rw [foldM_literal, postorder]
  | binary op left right ihl ihr =>
    rw [foldM_binary, run_bind, postorder, ihl]
    rcases postorder _ _ left s with ⟨e | l, t⟩
    · rfl
    · simp only [run_bind, ihr]
      rcases postorder _ _ right t with ⟨e | r, u⟩ <;> rfl

/-- Calls without a state leave it as it is. -/
theorem postorder_of_pure (leaf : Float → Except ε α) (branch : Operator → α → α → Except ε α)
    (e : Expression) (s : σ) :
    postorder (fun value s => (leaf value, s)) (fun op l r s => (branch op l r, s)) e s =
      (foldM leaf branch e, s) := by
  induction e with
  | literal value => rw [foldM_literal, postorder]
  | binary op left right ihl ihr =>
    rw [foldM_binary, postorder, ihl]
    rcases foldM leaf branch left with e | l
    · rfl
    · simp only [ihr, ok_bind]
      rcases foldM leaf branch right with e | r <;> rfl

end Recursion

end Expression

namespace Evaluator

open Expression

variable {σ : Type}

/-- The replay draws nothing, and the encrypted pass draws for the literals alone. -/
theorem outcome_evaluate_eq (S : Sampler σ) (ev : Evaluator) (e : Expression) (s : σ) :
    (ev.evaluate S e).outcome s =
      if ev.context.topLevel < e.requiredLevels then
        (Result.fail (.depthExceeded ev.context.topLevel), s)
      else
        match postorder (fun value s => (.ok (value, ev.context.topLevel), s))
          (fun op l r s => (ev.rehearseOperator op l r, s)) e s with
        | (.ok _, s) =>
          postorder (fun value => (ev.encrypt S value).outcome)
            (fun op x y s => (ev.apply op x y, s)) e s
        | (.error failure, s) => (.error failure, s) := by
  rw [postorder_of_pure, ← rehearse, evaluate, checkDepth]
  split
  · rfl
  · rcases ev.rehearse e with failure | replayed
    · rfl
    · exact run_foldM (ev.encrypt S) (fun op x y => liftM (ev.apply op x y)) e s

/-- The loop with two stacks is the recursion: for whatever literals and operators do to a state, it
makes the same calls in the same order, ends with the first error, and never lacks a value. The
evaluation of an expression checks the depth, then walks through it once in plain arithmetic, and
then once, by the same loop, with encryptions for literals and operations on ciphertexts. -/
theorem walk_spec :
    (∀ {σ ε α : Type} (leaf : Float → ExceptT ε (StateM σ) α)
        (branch : Operator → α → α → ExceptT ε (StateM σ) α) (e : Expression),
      (∀ s, (foldM leaf branch e).run.run s =
        postorder (fun value => (leaf value).run.run) (fun op l r => (branch op l r).run.run) e s) ∧
      ∀ stuck, loop stuck leaf branch [.visit e] [] = foldM leaf branch e) ∧
    ∀ {σ : Type} (S : Sampler σ) (ev : Evaluator) (e : Expression),
      (∀ s, (ev.evaluate S e).outcome s =
        if ev.context.topLevel < e.requiredLevels then
          (Result.fail (.depthExceeded ev.context.topLevel), s)
        else
          match postorder (fun value s => (.ok (value, ev.context.topLevel), s))
            (fun op l r s => (ev.rehearseOperator op l r, s)) e s with
          | (.ok _, s) =>
            postorder (fun value => (ev.encrypt S value).outcome)
              (fun op x y s => (ev.apply op x y, s)) e s
          | (.error failure, s) => (.error failure, s)) ∧
      ∀ stuck, ev.evaluate S e = (do
        ev.checkDepth e
        let _ ← ev.rehearse e
        loop stuck (ev.encrypt S) (fun op x y => liftM (ev.apply op x y)) [.visit e] []) := by
  refine ⟨fun leaf branch e => ⟨run_foldM leaf branch e, fun stuck => loop_eq_foldM stuck _ _ e⟩,
    fun S ev e => ⟨outcome_evaluate_eq S ev e, fun stuck => ?_⟩⟩
  rw [loop_eq_foldM, evaluate]

end Evaluator

end EncryptedArithmetic

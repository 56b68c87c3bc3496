import EncryptedArithmetic.Proofs.Sampling
import EncryptedArithmetic.Request.Calculator
import Mathlib.Logic.Function.Basic

/-!
# Requests in small steps

A calculator serves any number of clients at once. A request reads its text, asks the cache for the
context, takes a number and works on what it was given. Each of these steps is taken as a whole, and
steps of other clients may come between any two of them. Clients may also acquire the context on
their own, release it and look whether there is one, and other caches of the process take ids from
the same count.

## Main definitions

* `Calculator.perform`: a whole request.
* `Service`: a calculator with how far each of its clients is.
* `Service.Step` and `Service.Steps`: one step of some client, and runs.

## Main results

* `ContextCache.fetch_cases`: the three ways in which the cache is asked for the context.
* `Service.Step.acts`: what a step does to the calculator can be told from its event.
* `Service.exists_steps_perform`: without interruption a request is a run of its steps.
-/

namespace EncryptedArithmetic

/-! ## The cache -/

/-- The context that is held is handed out; where there is none, it is built with the next id, or
the attempt leaves everything but the source of randomness as it was. -/
theorem ContextCache.fetch_cases {σ : Type} (S : Sampler σ) (c : ContextCache σ) :
    (∃ ctx, c.held? = some ctx ∧ c.fetch S = (.ok ctx, c)) ∨
      (∃ ctx t, c.held? = none ∧
        Answers (Context.generate S c.params c.nextId) c.source.start ctx t ∧
        c.fetch S = (.ok ctx,
          { c with
            source := c.source.advance t, held? := some ctx, built := c.built + 1
            nextId := c.nextId + 1 })) ∨
      ∃ e t, c.held? = none ∧
        (Context.generate S c.params c.nextId).outcome c.source.start = (.error e, t) ∧
        c.fetch S = (.error (e.map .contextCreation), { c with source := c.source.advance t }) := by
  rw [ContextCache.fetch]
  rcases hheld : c.held? with _ | ctx
  · rcases hrun : (Context.generate S c.params c.nextId).run c.source.start with ⟨e | ctx, t⟩
    · exact .inr (.inr ⟨e, t, rfl, hrun, rfl⟩)
    · exact .inr (.inl ⟨ctx, t, rfl, hrun, rfl⟩)
  · exact .inl ⟨ctx, rfl, rfl⟩

/-- A calculator whose cache is empty keeps the context that is built. -/
theorem Calculator.fetch_of_answers {σ : Type} {S : Sampler σ} {c : Calculator σ} {ctx : Context}
    {t : σ} (hnone : c.cache.held? = none)
    (h : Answers (Context.generate S c.cache.params c.cache.nextId) c.cache.source.start ctx t) :
    c.fetch S = (.ok ctx,
      { c with
        cache :=
          { c.cache with
            source := c.cache.source.advance t, held? := some ctx, built := c.cache.built + 1
            nextId := c.cache.nextId + 1 } }) := by
  have hrun : (Context.generate S c.cache.params c.cache.nextId).run c.cache.source.start =
      (.ok ctx, t) := h
  rw [fetch, ContextCache.fetch, hnone]
  dsimp only
  rw [hrun]

/-! ## Requests and their jobs -/

/-- What a client asks a calculator for. -/
inductive Request where
  | text (text : String)
  | expression (e : Expression)
  | sum (a b : Float)

/-- What is worked out once there is a context. -/
inductive Job where
  | expression (e : Expression)
  | sum (a b : Float)

/-- What a client is told in the end. -/
inductive Reply where
  | outcome (o : Outcome)
  | report (r : SumReport)

variable {σ : Type} {S : Sampler σ}

/-- The job of a request. A text has to be read for it. -/
def Request.job (limits : ParseBounds) : Request → Except ParseError Job
  | text t => (Expression.parse limits t).map .expression
  | expression e => .ok (.expression e)
  | sum a b => .ok (.sum a b)

namespace Job

/-- What is told where there is no context. -/
def refuse (e : Failure RequestError) : Job → Except Fault Reply
  | expression _ => (Calculator.refused e).map .outcome
  | sum _ _ => (Calculator.refused e).map fun o => .report ⟨none, o⟩

/-- What is told of a job that an evaluator works out with the draws from a state. -/
def run (S : Sampler σ) (ev : Evaluator) (state : σ) : Job → Except Fault Reply
  | expression e => (Outcome.ofResult ev.context ((ev.evaluate S e).run state).1).map .outcome
  | sum a b =>
    match ((Calculator.encryptPair S ev a b).run state).1 with
    | .error e => (Calculator.refused e).map fun o => .report ⟨none, o⟩
    | .ok (x, y) =>
      (Outcome.ofResult ev.context (ev.apply .add x y)).map fun o =>
        .report ⟨some (x.toBytes.length, y.toBytes.length), o⟩

end Job

namespace Calculator

/-- A whole request, and the calculator that it leaves. -/
def perform (S : Sampler σ) (c : Calculator σ) : Request → Except Fault Reply × Calculator σ
  | .text t => (c.evaluate S t).map (Except.map .outcome) id
  | .expression e => (c.evaluateExpression S e).map (Except.map .outcome) id
  | .sum a b => (c.add S a b).map (Except.map .report) id

/-- A job that gets as far as the cache. -/
theorem perform_of_job {c : Calculator σ} {request : Request} {job : Job}
    (h : request.job c.config.limits = .ok job) :
    c.perform S request =
      match c.fetch S with
      | (.error e, c) => (job.refuse e, c)
      | (.ok ctx, c) =>
        (job.run S (c.evaluator ctx).1 (c.evaluator ctx).2.1, (c.evaluator ctx).2.2) := by
  have hexpression (e : Expression) : c.perform S (.expression e) =
      match c.fetch S with
      | (.error e', c) => ((Job.expression e).refuse e', c)
      | (.ok ctx, c) =>
        ((Job.expression e).run S (c.evaluator ctx).1 (c.evaluator ctx).2.1,
          (c.evaluator ctx).2.2) := by
    rw [perform, evaluateExpression]
    rcases c.fetch S with ⟨_ | ctx, c'⟩ <;> rfl
  cases request with
  | text t =>
    rcases hparse : Expression.parse c.config.limits t with e | e
    · rw [Request.job, hparse] at h
      cases h
    · -- A text that was read is evaluated as its tree.
      rw [Request.job, hparse] at h
      obtain rfl := Except.ok.inj h
      rw [← hexpression e, perform, evaluate, hparse, perform]
  | expression e =>
    obtain rfl := Except.ok.inj h
    exact hexpression e
  | sum a b =>
    obtain rfl := Except.ok.inj h
    rw [perform, add]
    rcases c.fetch S with ⟨e | ctx, c'⟩
    · rcases e with _ | _ <;> rfl
    · -- Either operand may be refused, and then there are no sizes to tell.
      simp only [Job.run, evaluator, Evaluator.create, Prod.map, id]
      rcases ((encryptPair S ⟨ctx, c'.config.zeroTolerance.abs⟩ a b).run
        (c'.source c'.requests)).1 with (_ | _) | ⟨x, y⟩
      · rfl
      · rfl
      · dsimp only
        rcases Outcome.ofResult ctx _ with _ | _ <;> rfl

/-- A text that is no expression never gets to the cache. -/
theorem perform_of_parseError {c : Calculator σ} {request : Request} {e : ParseError}
    (h : request.job c.config.limits = .error e) :
    c.perform S request = (.ok (.outcome (.ofError (.parse e))), c) := by
  cases request with
  | text t =>
    rcases hparse : Expression.parse c.config.limits t with e' | tree
    · rw [Request.job, hparse] at h
      obtain rfl : e' = e := Except.error.inj h
      rw [perform, evaluate, hparse]
      rfl
    · rw [Request.job, hparse] at h
      cases h
  | expression e => cases h
  | sum a b => cases h

end Calculator

/-! ## Steps -/

/-- How far a client is with its request. -/
inductive Stage (σ : Type) where
  | idle
  | waiting (job : Job)
  | given (job : Job) (ctx : Context)
  | started (job : Job) (ev : Evaluator) (state : σ)
  | told (reply : Except Fault Reply)

namespace Stage

/-- Where a request is once its text was read. -/
def opening (limits : ParseBounds) (request : Request) : Stage σ :=
  match request.job limits with
  | .ok job => waiting job
  | .error e => told (.ok (.outcome (.ofError (.parse e))))

theorem opening_of_job {limits : ParseBounds} {request : Request} {job : Job}
    (h : request.job limits = .ok job) : (opening limits request : Stage σ) = waiting job := by
  rw [opening, h]

theorem opening_of_parseError {limits : ParseBounds} {request : Request} {e : ParseError}
    (h : request.job limits = .error e) :
    (opening limits request : Stage σ) = told (.ok (.outcome (.ofError (.parse e)))) := by
  rw [opening, h]

/-- Where a job is once the cache was asked. -/
def behind (job : Job) : Result RequestError Context → Stage σ
  | .ok ctx => given job ctx
  | .error e => told (job.refuse e)

end Stage

/-- What can be seen of a step, and the client who took it. -/
inductive Event where
  | fetched (client : ℕ) (result : Result RequestError Context)
  | released (client : ℕ) (was : Bool)
  | probed (client : ℕ) (holds : Bool)
  | asked (client : ℕ) (request : Request)
  | numbered (client : ℕ) (number : UInt64)
  | answered (client : ℕ) (reply : Except Fault Reply)
  /-- Another cache of the process takes an id. -/
  | elsewhere

/-- The client of a step. -/
def Event.client? : Event → Option ℕ
  | fetched k _ | released k _ | probed k _ | asked k _ | numbered k _ | answered k _ => some k
  | elsewhere => none

/-- The calculator after another cache took an id. -/
def Calculator.skipId (c : Calculator σ) : Calculator σ :=
  { c with cache := { c.cache with nextId := c.cache.nextId + 1 } }

/-- What a step does to the calculator. -/
def Event.Acts (S : Sampler σ) (c c' : Calculator σ) : Event → Prop
  | fetched _ result => c.fetch S = (result, c')
  | released _ was => c.release = (was, c')
  | probed _ holds => c.cache.isHolding = holds ∧ c' = c
  | numbered _ number => c.requests = number ∧ c' = { c with requests := c.requests + 1 }
  | asked .. | answered .. => c' = c
  | elsewhere => c' = c.skipId

/-- A calculator, and how far each of its clients is. -/
structure Service (σ : Type) where
  calculator : Calculator σ
  stages : ℕ → Stage σ

namespace Service

/-- A new calculator. Nobody has asked for anything. -/
def start (config : Config) (keys : KeySource σ) (source : UInt64 → σ) : Service σ :=
  ⟨Calculator.create config keys source, fun _ => .idle⟩

/-- The cache of the calculator. -/
def cache (s : Service σ) : ContextCache σ :=
  s.calculator.cache

/-- The service once a client got to another stage. -/
def move (s : Service σ) (c : Calculator σ) (k : ℕ) (stage : Stage σ) : Service σ :=
  ⟨c, Function.update s.stages k stage⟩

@[simp]
theorem stages_move_self (s : Service σ) (c : Calculator σ) (k : ℕ) (stage : Stage σ) :
    (s.move c k stage).stages k = stage :=
  Function.update_self ..

theorem stages_move_of_ne (s : Service σ) (c : Calculator σ) {j k : ℕ} (stage : Stage σ)
    (h : j ≠ k) : (s.move c k stage).stages j = s.stages j :=
  Function.update_of_ne h _ _

/-- Of two moves of one client the last one counts. -/
@[simp]
theorem move_move (s : Service σ) (c c' : Calculator σ) (k : ℕ) (stage stage' : Stage σ) :
    (s.move c k stage).move c' k stage' = s.move c' k stage' := by
  rw [move, move, Function.update_idem, move]

/-- One step of some client, or of another cache of the process. -/
inductive Step (S : Sampler σ) (s : Service σ) : Event → Service σ → Prop
  | acquire (k : ℕ) {result : Result RequestError Context} {c : Calculator σ}
      (h : s.calculator.fetch S = (result, c)) : Step S s (.fetched k result) ⟨c, s.stages⟩
  | release (k : ℕ) {was : Bool} {c : Calculator σ} (h : s.calculator.release = (was, c)) :
      Step S s (.released k was) ⟨c, s.stages⟩
  | probe (k : ℕ) : Step S s (.probed k s.cache.isHolding) s
  | ask {k : ℕ} (request : Request) (hk : s.stages k = .idle) :
      Step S s (.asked k request)
        (s.move s.calculator k (.opening s.calculator.config.limits request))
  | fetch {k : ℕ} {job : Job} {result : Result RequestError Context} {c : Calculator σ}
      (hk : s.stages k = .waiting job) (h : s.calculator.fetch S = (result, c)) :
      Step S s (.fetched k result) (s.move c k (.behind job result))
  | number {k : ℕ} {job : Job} {ctx : Context} {ev : Evaluator} {state : σ} {c : Calculator σ}
      (hk : s.stages k = .given job ctx) (h : s.calculator.evaluator ctx = (ev, state, c)) :
      Step S s (.numbered k s.calculator.requests) (s.move c k (.started job ev state))
  | finish {k : ℕ} {job : Job} {ev : Evaluator} {state : σ}
      (hk : s.stages k = .started job ev state) :
      Step S s (.answered k (job.run S ev state)) (s.move s.calculator k .idle)
  | tell {k : ℕ} {reply : Except Fault Reply} (hk : s.stages k = .told reply) :
      Step S s (.answered k reply) (s.move s.calculator k .idle)
  | elsewhere : Step S s .elsewhere ⟨s.calculator.skipId, s.stages⟩

/-- A run, with its events, the last one first. -/
inductive Steps (S : Sampler σ) (s : Service σ) : List Event → Service σ → Prop
  | refl : Steps S s [] s
  | step {history : List Event} {event : Event} {s' s'' : Service σ} (h : Steps S s history s')
      (hstep : Step S s' event s'') : Steps S s (event :: history) s''

variable {s s' : Service σ} {event : Event} {k : ℕ}

/-- What a step does to the calculator can be told from its event. -/
theorem Step.acts (h : Step S s event s') : event.Acts S s.calculator s'.calculator := by
  cases h with
  | acquire _ h => exact h
  | release _ h => exact h
  | probe => exact ⟨rfl, rfl⟩
  | ask => rfl
  | fetch _ h => exact h
  | number _ h =>
    obtain ⟨-, -, rfl⟩ : _ ∧ _ ∧ _ := by simpa only [Calculator.evaluator, Prod.mk.injEq] using h
    exact ⟨rfl, rfl⟩
  | finish => rfl
  | tell => rfl
  | elsewhere => rfl

/-- Only the client of a step gets to another stage. -/
theorem Step.stages_eq (h : Step S s event s') (hk : event.client? ≠ some k) :
    s'.stages k = s.stages k := by
  cases h with
  | acquire | release | probe | elsewhere => rfl
  | ask | fetch | number | finish | tell =>
    exact stages_move_of_ne _ _ _ fun h => hk (congrArg some h.symm)

/-- Without interruption, a request of an idle client is a run of its own steps, and the client is
idle again. -/
theorem exists_steps_perform (hk : s.stages k = .idle) (request : Request) :
    ∃ history, Steps S s history ⟨(s.calculator.perform S request).2, s.stages⟩ ∧
      history.head? = some (.answered k (s.calculator.perform S request).1) ∧
      ∀ event ∈ history, event.client? = some k := by
  have hidle (c : Calculator σ) : s.move c k .idle = ⟨c, s.stages⟩ := by
    rw [move, ← hk, Function.update_eq_self]
  have hask := Steps.refl.step (Step.ask (S := S) request hk)
  rcases hjob : request.job s.calculator.config.limits with e | job
  · rw [Stage.opening_of_parseError hjob] at hask
    rw [Calculator.perform_of_parseError hjob]
    have htell := hask.step (.tell (stages_move_self ..))
    rw [move_move, hidle] at htell
    exact ⟨_, htell, rfl, by simp [Event.client?]⟩
  · rw [Stage.opening_of_job hjob] at hask
    rw [Calculator.perform_of_job hjob]
    -- The calculator that a step leaves is the one that the next step is taken with.
    rcases hfetch : s.calculator.fetch S with ⟨e | ctx, c⟩
    · have hfetched := hask.step (.fetch (stages_move_self ..) hfetch)
      rw [move_move] at hfetched
      have htell := hfetched.step (.tell (stages_move_self ..))
      rw [move_move, hidle] at htell
      exact ⟨_, htell, rfl, by simp [Event.client?]⟩
    · have hfetched := hask.step (.fetch (stages_move_self ..) hfetch)
      rw [move_move] at hfetched
      have hnumber := hfetched.step (.number (stages_move_self ..) rfl)
      rw [move_move] at hnumber
      have hfinish := hnumber.step (.finish (stages_move_self ..))
      rw [move_move, hidle] at hfinish
      exact ⟨_, hfinish, rfl, by simp [Event.client?]⟩

end Service

end EncryptedArithmetic

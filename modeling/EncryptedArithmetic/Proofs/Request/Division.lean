import EncryptedArithmetic.Proofs.Decimal.Exceptional
import EncryptedArithmetic.Proofs.Request.Evaluation
import EncryptedArithmetic.Proofs.Scheme.Decryption

/-!
# Divisions by zero

The replay in plain arithmetic lets every division by zero pass and leaves it to the encrypted pass.
There the divisor is decrypted, and what is compared with the tolerance is a number with an error:
that of the encryptions and of the rounding of literals and products. A division by zero therefore
fails, with the decrypted divisor in its error, as long as the error keeps the divisor within the
tolerance, and beyond that the dividend is divided by the error.

## Main definitions

* `Expression.Within`: an expression occurs in another one.
* `Evaluator.Reaches`: the encrypted pass over an expression comes to one of its occurrences.
* `Evaluator.Decrypts`: the divisor that the encrypted pass sees in a division.
* `Evaluator.Admits`: the divisors that are divided by.

## Main results

* `delivers_evaluate`: an evaluation ends in an error of the domain or in a valid ciphertext.
* `zero_division_of_evaluate`: what becomes of a division by zero, wherever it occurs.
-/

namespace EncryptedArithmetic

open Binary64 EncryptedArithmetic.Modular

/-- The expression occurs in another one, or it is that expression. -/
inductive Expression.Within (d : Expression) : Expression → Prop
  | refl : Within d d
  | left {op : Operator} {l r : Expression} : Within d l → Within d (.binary op l r)
  | right {op : Operator} {l r : Expression} : Within d r → Within d (.binary op l r)

namespace Evaluator

variable {σ : Type} {sampler : Sampler σ} {ev : Evaluator} {e d l r : Expression} {s s' t : σ}

/-! ## The replay -/

/-- The replay of an operator gives its plain value, unless a divisor counts as zero. -/
theorem value_of_rehearseOperator {op : Operator} {v w replayed : Float × ℕ}
    (h : ev.rehearseOperator op v w = .ok replayed) :
    replayed.1 = op.apply v.1 w.1 ∨ replayed.1.isNaN := by
  rcases ev.rehearseOperator_cases op v w with heq | heq <;> rw [heq] at h
  · rw [eq_of_checkValue h]
    exact Or.inl rfl
  · have hnan : (0 / 0 : Float).isNaN := by decide +kernel
    obtain rfl := Except.ok.inj h
    exact Or.inr hnan

theorem rehearse_binary (op : Operator) {v w : Float × ℕ} (hl : ev.rehearse l = .ok v)
    (hr : ev.rehearse r = .ok w) :
    ev.rehearse (.binary op l r) = ev.rehearseOperator op v w := by
  rw [rehearse] at hl hr ⊢
  rw [Expression.foldM_binary, hl, ok_bind, hr, ok_bind]

/-- The replay follows plain arithmetic until a divisor counts as zero. From there on it has no
number. -/
theorem plainValue_or_isNaN_of_rehearse {v : Float × ℕ} (h : ev.rehearse e = .ok v) :
    v.1 = e.plainValue ∨ v.1.isNaN := by
  -- By induction on the expression: an operand without a number leaves the result without one.
  induction e generalizing v with
  | literal value =>
    rw [rehearse, Expression.foldM_literal] at h
    exact Or.inl (congrArg Prod.fst (Except.ok.inj h).symm)
  | binary op l r ihl ihr =>
    rw [rehearse, Expression.foldM_binary] at h
    simp only [bind_eq_ok_iff] at h
    obtain ⟨vl, hl, vr, hr, hop⟩ := h
    rcases value_of_rehearseOperator hop with hv | hnan
    swap
    · exact Or.inr hnan
    rw [hv]
    rcases ihl hl with hvl | hnan
    swap
    · exact Or.inr (Operator.isNaN_apply op (Or.inl hnan))
    rcases ihr hr with hvr | hnan
    swap
    · exact Or.inr (Operator.isNaN_apply op (Or.inr hnan))
    rw [hvl, hvr, Expression.plainValue, Expression.fold_binary]
    exact Or.inl rfl

/-- The replay lets a division by zero pass, and the quotient has no finite value there. -/
theorem exists_rehearse_div (hzero : (r.plainValue == 0) = true) {v w : Float × ℕ}
    (hl : ev.rehearse l = .ok v) (hr : ev.rehearse r = .ok w) :
    ∃ q : Float, ev.rehearse (.binary .div l r) = .ok (q, v.2 - 1) ∧ ¬q.isFinite := by
  have hdivisor : w.1.isNaN ∨ (w.1 == 0) = true := by
    rcases plainValue_or_isNaN_of_rehearse hr with hw | hnan
    · exact Or.inr (hw ▸ hzero)
    · exact Or.inl hnan
  have hquotient : ¬(v.1 / w.1).isFinite := not_isFinite_div hdivisor
  rw [rehearse_binary .div hl hr, rehearseOperator]
  split
  · exact ⟨0 / 0, rfl, by decide +kernel⟩
  · refine ⟨v.1 / w.1, ?_, hquotient⟩
    rw [checkValue, Bool.eq_false_iff.2 hquotient]
    rfl

/-! ## The encrypted pass, operator by operator -/

theorem pass_binary (op : Operator) :
    ev.pass sampler (.binary op l r) = (do
      let x ← ev.pass sampler l
      let y ← ev.pass sampler r
      liftM (ev.apply op x y)) :=
  Expression.foldM_binary _ _ op l r

theorem answers_pass_binary {op : Operator} {c : Ciphertext} :
    Answers (ev.pass sampler (.binary op l r)) s c s' ↔
      ∃ x t y, Answers (ev.pass sampler l) s x t ∧ Answers (ev.pass sampler r) t y s' ∧
        ev.apply op x y = .ok c := by
  simp only [pass_binary, answers_bind, answers_liftM_result]
  constructor
  · rintro ⟨x, t, hx, y, u, hy, hop, rfl⟩
    exact ⟨x, t, y, hx, hy, hop⟩
  · rintro ⟨x, t, y, hx, hy, hop⟩
    exact ⟨x, t, hx, y, s', hy, hop, rfl⟩

/-- The encrypted pass over an expression that is begun in the state `s` comes to an occurrence of
`d` in the state `t`. -/
inductive Reaches (sampler : Sampler σ) (ev : Evaluator) (d : Expression) (t : σ) :
    Expression → σ → Prop
  | here : Reaches sampler ev d t d t
  | left {op : Operator} {l r : Expression} {s : σ} :
    Reaches sampler ev d t l s → Reaches sampler ev d t (.binary op l r) s
  | right {op : Operator} {l r : Expression} {s u : σ} {x : Ciphertext} :
    Answers (ev.pass sampler l) s x u → Reaches sampler ev d t r u →
      Reaches sampler ev d t (.binary op l r) s

/-- A pass that succeeds comes to everything that occurs. -/
theorem exists_reaches (hd : d.Within e) {c : Ciphertext}
    (h : Answers (ev.pass sampler e) s c s') : ∃ t, ev.Reaches sampler d t e s := by
  induction hd generalizing s s' c with
  | refl => exact ⟨s, .here⟩
  | left _ ih =>
    obtain ⟨x, u, y, hx, -, -⟩ := answers_pass_binary.1 h
    obtain ⟨t, ht⟩ := ih hx
    exact ⟨t, ht.left⟩
  | right _ ih =>
    obtain ⟨x, u, y, hx, hy, -⟩ := answers_pass_binary.1 h
    obtain ⟨t, ht⟩ := ih hy
    exact ⟨t, ht.right hx⟩

namespace Reaches

/-- A pass that succeeds does so at every occurrence. -/
theorem exists_answers (hd : ev.Reaches sampler d t e s) {c : Ciphertext}
    (h : Answers (ev.pass sampler e) s c s') : ∃ x t', Answers (ev.pass sampler d) t x t' := by
  induction hd generalizing s' c with
  | here => exact ⟨c, s', h⟩
  | left _ ih =>
    obtain ⟨x, u, y, hx, -, -⟩ := answers_pass_binary.1 h
    exact ih hx
  | right hl _ ih =>
    obtain ⟨x, u, y, hx, hy, -⟩ := answers_pass_binary.1 h
    -- The pass over the left operand has one outcome only.
    obtain ⟨-, rfl⟩ := Prod.mk.inj (hl.symm.trans hx)
    exact ih hy

/-- A failure at an occurrence is the failure of the pass. -/
theorem outcome_eq (hd : ev.Reaches sampler d t e s) {failure : Failure RequestError} {t' : σ}
    (h : (ev.pass sampler d).outcome t = (.error failure, t')) :
    (ev.pass sampler e).outcome s = (.error failure, t') := by
  induction hd with
  | here => exact h
  | left _ ih =>
    rw [pass_binary, outcome_bind, ih]
  | right hl _ ih =>
    rw [Answers] at hl
    rw [pass_binary, outcome_bind, hl]
    simp only [outcome_bind, ih]

end Reaches

/-! ## Divisors -/

/-- Divisors that are divided by: they are finite and not within the tolerance. -/
def Admits (ev : Evaluator) (divisor : Float) : Prop :=
  divisor.isFinite ∧ ¬divisor.abs ≤ ev.zeroTolerance

/-- The encrypted pass over a division of `l` by `r` that is begun in the state `t` decrypts the
divisor in the state `t'`. -/
def Decrypts (sampler : Sampler σ) (ev : Evaluator) (l r : Expression) (t : σ) (divisor : Float)
    (t' : σ) : Prop :=
  ∃ x u y, Answers (ev.pass sampler l) t x u ∧ Answers (ev.pass sampler r) u y t' ∧
    ev.context.decrypt y = .ok divisor

/-- Any other divisor is refused and named. -/
theorem divide_of_not_admits {x y : Ciphertext} {divisor : Float}
    (hy : ev.context.decrypt y = .ok divisor) (h : ¬ev.Admits divisor) :
    ev.divide x y = .fail (.divisionByZero divisor) := by
  have htest : (!divisor.isFinite || decide (divisor.abs ≤ ev.zeroTolerance)) = true := by
    rw [Admits, not_and_or, not_not] at h
    simpa using h
  rw [divide, hy]
  exact if_pos htest

/-- A division that succeeds has decrypted a divisor that is divided by. -/
theorem exists_decrypts_of_answers {c : Ciphertext}
    (h : Answers (ev.pass sampler (.binary .div l r)) s c s') :
    ∃ divisor, ev.Decrypts sampler l r s divisor s' ∧ ev.Admits divisor := by
  obtain ⟨x, u, y, hx, hy, hop⟩ := answers_pass_binary.1 h
  have hdivide : ev.divide x y = .ok c := hop
  obtain ⟨divisor, hdivisor, -⟩ := exists_of_divide hdivide
  refine ⟨divisor, ⟨x, u, y, hx, hy, hdivisor⟩, ?_⟩
  by_contra hadmits
  rw [divide_of_not_admits hdivisor hadmits] at hdivide
  exact fail_ne_ok hdivide

/-- A division whose divisor is not divided by fails and names the divisor. -/
theorem outcome_of_decrypts {divisor : Float} {t' : σ}
    (h : ev.Decrypts sampler l r t divisor t') (hadmits : ¬ev.Admits divisor) :
    (ev.pass sampler (.binary .div l r)).outcome t =
      (Result.fail (.divisionByZero divisor), t') := by
  obtain ⟨x, u, y, hx, hy, hdivisor⟩ := h
  have happly : ev.apply .div x y = .fail (.divisionByZero divisor) :=
    divide_of_not_admits hdivisor hadmits
  rw [Answers] at hx hy
  rw [pass_binary, outcome_bind, hx]
  simp only [outcome_bind, hy, happly]
  rfl

/-! ## Evaluations have no fault -/

section Delivery

variable (hctx : ev.context.Working)

theorem delivers_rehearse : (ev.rehearse e).Delivers fun _ => True := by
  have hcheck (value : Float) (level : ℕ) : (ev.checkValue value level).Delivers fun _ => True := by
    rw [checkValue]
    split
    · exact Result.delivers_fail _
    · exact Result.delivers_ok trivial
  -- No replayed operation can fault, whatever the operands.
  induction e with
  | literal value =>
    rw [rehearse, Expression.foldM_literal]
    exact Result.delivers_ok trivial
  | binary op l r ihl ihr =>
    rw [rehearse, Expression.foldM_binary]
    refine ihl.bind fun v _ => ihr.bind fun w _ => ?_
    rcases ev.rehearseOperator_cases op v w with heq | heq <;> rw [heq]
    · exact hcheck _ _
    · exact Result.delivers_ok trivial

include hctx

theorem delivers_divide {x y : Ciphertext} (hx : x.Valid ev.context) (hy : y.Valid ev.context) :
    (ev.divide x y).Delivers fun c => c.Valid ev.context := by
  rw [divide]
  refine ((Context.delivers_decrypt hctx fun _ => hy).mapError _).bind fun divisor _ => ?_
  split
  · exact Result.delivers_fail _
  · exact (Context.delivers_mulPlain hctx (fun _ => hx) _).mapError _

theorem delivers_apply (op : Operator) {x y : Ciphertext} (hx : x.Valid ev.context)
    (hy : y.Valid ev.context) : (ev.apply op x y).Delivers fun c => c.Valid ev.context := by
  cases op with
  | add => exact (Context.delivers_add hctx (fun _ => hx) fun _ => hy).mapError _
  | sub => exact (Context.delivers_sub hctx (fun _ => hx) fun _ => hy).mapError _
  | mul => exact (Context.delivers_mul hctx (fun _ => hx) fun _ => hy).mapError _
  | div => exact delivers_divide hctx hx hy

theorem delivers_pass (hsampler : sampler.Lawful) (e : Expression) :
    (ev.pass sampler e).Delivers fun c => c.Valid ev.context := by
  induction e with
  | literal value =>
    rw [pass, Expression.foldM_literal]
    exact (Context.delivers_encrypt hsampler hctx value).adapt _
  | binary op l r ihl ihr =>
    rw [pass_binary]
    refine ihl.bind fun x hx => ihr.bind fun y hy => ?_
    exact Drawing.delivers_liftM (delivers_apply hctx op hx hy)

/-- An evaluation ends in an error of the domain or in a valid ciphertext. -/
theorem delivers_evaluate (hsampler : sampler.Lawful) (e : Expression) :
    (ev.evaluate sampler e).Delivers fun c => c.Valid ev.context := by
  have hdepth : (ev.checkDepth e).Delivers fun _ => True := by
    rw [checkDepth]
    split
    · exact Result.delivers_fail _
    · exact Result.delivers_ok trivial
  rw [evaluate]
  refine (Drawing.delivers_liftM hdepth).bind fun _ _ => ?_
  refine (Drawing.delivers_liftM delivers_rehearse).bind fun _ _ => ?_
  exact delivers_pass hctx hsampler e

end Delivery

/-- Behind the checks an evaluation is the encrypted pass. -/
theorem outcome_evaluate {replayed : Float × ℕ} (hdepth : ev.checkDepth e = .ok ())
    (hreplayed : ev.rehearse e = .ok replayed) :
    (ev.evaluate sampler e).outcome s = (ev.pass sampler e).outcome s := by
  rw [evaluate, hdepth, hreplayed]
  rfl

/-! ## Divisions by zero -/

/-- In every context of accepted parameters, for every tolerance and whatever is drawn: a division
by an expression that is zero in plain arithmetic passes the replay, so the encrypted pass alone can
stop it. The evaluation ends in an error of the domain, or it gives a ciphertext; then every
occurrence of the division has decrypted its divisor to a finite number that is not within the
tolerance. An evaluation that passes the checks and comes to a divisor within the tolerance, or to
one that is not finite, fails with this divisor in its error. -/
theorem zero_division_of_evaluate {τ : Type} {source : Sampler τ} (hsource : source.Lawful)
    (hsampler : sampler.Lawful) {params : Parameters} {id : UInt64} {u u' : τ}
    (hcontext : Answers (Context.generate source params id) u ev.context u')
    (htest : ∀ q ∈ ev.context.primes, TestExact q) (hwithin : (Expression.binary .div l r).Within e)
    (hzero : (r.plainValue == 0) = true) (s : σ) :
    (∀ v w, ev.rehearse l = .ok v → ev.rehearse r = .ok w →
      ∃ q : Float, ev.rehearse (.binary .div l r) = .ok (q, v.2 - 1) ∧ ¬q.isFinite) ∧
    ((∃ cause s', (ev.evaluate sampler e).outcome s = (Result.fail cause, s')) ∨
      ∃ out s', Answers (ev.evaluate sampler e) s out s' ∧
        (∃ t, ev.Reaches sampler (.binary .div l r) t e s) ∧
        ∀ t, ev.Reaches sampler (.binary .div l r) t e s →
          ∃ divisor t', ev.Decrypts sampler l r t divisor t' ∧ ev.Admits divisor) ∧
    ∀ t divisor t', ev.checkDepth e = .ok () → (∃ replayed, ev.rehearse e = .ok replayed) →
      ev.Reaches sampler (.binary .div l r) t e s → ev.Decrypts sampler l r t divisor t' →
      ¬ev.Admits divisor →
        (ev.evaluate sampler e).outcome s = (Result.fail (.divisionByZero divisor), t') := by
  have hctx := Context.working_of_generate hsource hcontext htest
  refine ⟨fun v w hl hr => exists_rehearse_div hzero hl hr, ?_, ?_⟩
  · have hdelivers := delivers_evaluate hctx hsampler e s
    rcases hrun : (ev.evaluate sampler e).outcome s with ⟨(cause | cause) | out, s'⟩
    · exact absurd (congrArg Prod.fst hrun) (hdelivers.ne_fault cause)
    · exact Or.inl ⟨cause, s', rfl⟩
    · have hpass := (answers_evaluate_iff.1 hrun).2.2
      refine Or.inr ⟨out, s', hrun, exists_reaches hwithin hpass, fun t ht => ?_⟩
      obtain ⟨x, t', hx⟩ := ht.exists_answers hpass
      obtain ⟨divisor, hdivisor, hadmits⟩ := exists_decrypts_of_answers hx
      exact ⟨divisor, t', hdivisor, hadmits⟩
  · rintro t divisor t' hdepth ⟨replayed, hreplayed⟩ ht hdivisor hadmits
    rw [outcome_evaluate hdepth hreplayed]
    exact ht.outcome_eq (outcome_of_decrypts hdivisor hadmits)

/-- One divided by zero. -/
def reciprocalOfZero : Expression :=
  .binary .div (.literal 1) (.literal 0)

/-- In the smallest ring and with the standard tolerance one is divided by zero: the errors of the
encryption of zero are above the tolerance. -/
theorem reciprocal_of_zero_smallest :
    ∃ (ev : Evaluator) (out : Ciphertext) (divisor : Float),
      Answers (Context.generate Sampler.steady Context.smallest 7) () ev.context () ∧
      ev.zeroTolerance = standardTolerance ∧ ((Expression.literal 0).plainValue == 0) = true ∧
      Answers (ev.evaluate Sampler.steady reciprocalOfZero) () out () ∧
      ev.Decrypts Sampler.steady (.literal 1) (.literal 0) () divisor () ∧ ev.Admits divisor := by
  obtain ⟨ctx, hctx, -, htest⟩ := Context.exists_smallest 7
  let ev : Evaluator := ⟨ctx, standardTolerance⟩
  have hcontext : Answers (Context.generate Sampler.steady Context.smallest 7) () ev.context () :=
    hctx
  have hwithin : (Expression.binary .div (.literal 1) (.literal 0)).Within reciprocalOfZero := .refl
  have hzero : ((Expression.literal 0).plainValue == 0) = true := by decide +kernel
  obtain ⟨-, houtcome, -⟩ := zero_division_of_evaluate Sampler.lawful_steady Sampler.lawful_steady
    hcontext htest hwithin hzero ()
  -- The run is evaluated to see that it succeeds.
  have hrun : ((Context.generate Sampler.steady Context.smallest 7).outcome ()).1.toOption.any
      (fun ctx => (((⟨ctx, standardTolerance⟩ : Evaluator).evaluate Sampler.steady
        reciprocalOfZero).outcome ()).1.isOk) = true := by
    decide +kernel
  rw [hctx] at hrun
  have hok : ((ev.evaluate Sampler.steady reciprocalOfZero).outcome ()).1.isOk = true := hrun
  rcases houtcome with ⟨cause, _, hfail⟩ | ⟨out, ⟨⟩, hout, ⟨⟨⟩, hreached⟩, hdivisors⟩
  · rw [hfail] at hok
    cases hok
  · obtain ⟨divisor, ⟨⟩, hdivisor, hadmits⟩ := hdivisors () hreached
    exact ⟨ev, out, divisor, hctx, rfl, hzero, hout, hdivisor, hadmits⟩

end Evaluator

end EncryptedArithmetic

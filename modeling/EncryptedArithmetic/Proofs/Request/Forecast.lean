import EncryptedArithmetic.Proofs.Request.Scale

/-!
# Outcomes that are foretold

Nothing that an evaluation without divisions compares depends on what is drawn. The depth, the
values and the literals are read off the expression, and levels and scales off the primes and the
scale of the context. The outcome can therefore be foretold without keys: the error, or the level
and the scale of the ciphertext. Two contexts of the same parameters foretell the same, whatever
their keys are and whatever the encryptions draw.

## Main definitions

* `Expression.DivisionFree`: no divisor is decrypted.
* `Context.Alike`: two contexts with the same primes and the same scale.
* `Evaluator.foretell`: the outcome of an evaluation, from primes and scale alone.
* `Context.Fulfils`: a run ends as it was foretold.

## Main results

* `fulfils_evaluate`: an evaluation ends as it was foretold.
* `foretell_eq_of_alike`: contexts that are alike foretell the same.
* `same_outcome_of_generate`: two evaluations in two contexts of the same parameters.
-/

namespace EncryptedArithmetic

open Expression EncryptedArithmetic.Modular

/-- There is no division in the expression. -/
def Expression.DivisionFree : Expression → Prop
  | .literal _ => True
  | .binary op l r => op ≠ .div ∧ l.DivisionFree ∧ r.DivisionFree

namespace Context

/-! ## Contexts that are alike -/

/-- The contexts have the same primes and the same scale; their keys may differ. -/
structure Alike (ctx ctx' : Context) : Prop where
  primes_eq : ctx.primes = ctx'.primes
  scale_eq : ctx.scale = ctx'.scale

theorem Alike.topLevel_eq {ctx ctx' : Context} (h : ctx.Alike ctx') :
    ctx.topLevel = ctx'.topLevel := by
  have htop' : ctx'.topLevel = ctx'.primes.length - 2 := topLevel_of_primes rfl
  rw [topLevel_of_primes h.primes_eq, htop']

/-- Contexts of the same parameters are alike, whatever was drawn for their keys. -/
theorem alike_of_generate {σ τ : Type} {source : Sampler σ} {source' : Sampler τ}
    {params : Parameters} {id id' : UInt64} {ctx ctx' : Context} {s t : σ} {s' t' : τ}
    (h : Answers (generate source params id) s ctx t)
    (h' : Answers (generate source' params id') s' ctx' t') : ctx.Alike ctx' := by
  obtain ⟨-, -, hscale, -, ⟨primes, hprimes, hchain⟩, -⟩ := generate_cases h
  obtain ⟨-, -, hscale', -, ⟨primes', hprimes', hchain'⟩, -⟩ := generate_cases h'
  obtain rfl : primes = primes' := Except.ok.inj (hprimes.symm.trans hprimes')
  refine ⟨?_, hscale.trans hscale'.symm⟩
  rw [Context.primes, Context.primes, ModulusChain.primes_of_build hchain,
    ModulusChain.primes_of_build hchain']

/-! ## What is foretold of the encrypted pass -/

/-- The scale and level of a literal that has an integer. -/
def foretellLiteral (ctx : Context) (value : Float) : Result RequestError (Float × ℕ) :=
  if (Encoding.integer? value ctx.scale ((ctx.primes.head?).getD 0)).isSome then
    .ok (ctx.scale, ctx.topLevel)
  else .fail (.scheme (.valueOutOfRange value))

/-- An operator whose result was tracked to an error, as a request. -/
def mismatch (scales : Float × Float) : Failure RequestError :=
  .error (.scheme (.scaleMismatch scales.1 scales.2))

/-- The scale and level of an operator's result, if there is a level to spend and the scales are
close enough. -/
def foretellOperator (ctx : Context) (op : Operator) (x y : Float × ℕ) :
    Result RequestError (Float × ℕ) :=
  if op.Affordable x.2 y.2 then (ctx.trackOperator op x y).mapError mismatch
  else .fail (.depthExceeded ctx.topLevel)

/-- The scale and level of an expression, or the first error on the way to it. -/
def foretell (ctx : Context) (e : Expression) : Result RequestError (Float × ℕ) :=
  e.foldM ctx.foretellLiteral ctx.foretellOperator

/-- The run ends as it was foretold: in a valid ciphertext of this scale and level, or with this
error. It does not end in a fault. -/
def Fulfils {σ : Type} (ctx : Context) (run : Result RequestError Ciphertext × σ) :
    Result RequestError (Float × ℕ) → Prop
  | .ok (scale, level) =>
    ∃ c s, run = (.ok c, s) ∧ c.Valid ctx ∧ c.scale = scale ∧ c.level = level
  | .error (.error cause) => ∃ s, run = (Result.fail cause, s)
  | .error (.fault _) => False

section Fulfils

variable {σ : Type} {ctx : Context} {s : σ} {run : Result RequestError Ciphertext × σ}
  {foretold : Result RequestError (Float × ℕ)}

/-- What follows the tracked scales fulfils them, with two that are too far apart as an error. -/
theorem Follows.fulfils {tracked : Except (Float × Float) (Float × ℕ)}
    (h : ctx.Follows run tracked) :
    ctx.Fulfils run (tracked.mapError mismatch) := by
  rcases tracked with ⟨a, b⟩ | ⟨scale, level⟩
  · exact h
  · exact h

/-- Sequences end as foretold if each of their steps does. -/
theorem Fulfils.bind {x : Drawing σ RequestError Ciphertext}
    {f : Ciphertext → Drawing σ RequestError Ciphertext}
    {g : Float × ℕ → Result RequestError (Float × ℕ)} (hx : ctx.Fulfils (x.outcome s) foretold)
    (hf : ∀ c t, c.Valid ctx → ctx.Fulfils ((f c).outcome t) (g (c.scale, c.level))) :
    ctx.Fulfils ((x >>= f).outcome s) (foretold >>= g) := by
  rw [outcome_bind]
  rcases foretold with (cause | cause) | ⟨scale, level⟩
  · exact hx.elim
  · obtain ⟨t, ht⟩ := hx
    exact ⟨t, by rw [ht]; rfl⟩
  · obtain ⟨c, t, hc, hvalid, rfl, rfl⟩ := hx
    rw [hc]
    exact hf c t hvalid

/-- Two runs that fulfil the same end in ciphertexts of one level and one scale or with one
error. -/
theorem Fulfils.same_outcome {τ : Type} {ctx' : Context} {run' : Result RequestError Ciphertext × τ}
    (h : ctx.Fulfils run foretold) (h' : ctx'.Fulfils run' foretold) :
    (∃ c t c' t', run = (.ok c, t) ∧ run' = (.ok c', t') ∧ c.level = c'.level ∧
      c.scale = c'.scale) ∨
    ∃ cause t t', run = (Result.fail cause, t) ∧ run' = (Result.fail cause, t') := by
  rcases foretold with (cause | cause) | ⟨scale, level⟩
  · exact h.elim
  · obtain ⟨t, ht⟩ := h
    obtain ⟨t', ht'⟩ := h'
    exact Or.inr ⟨cause, t, t', ht, ht'⟩
  · obtain ⟨c, t, hc, -, hscale, hlevel⟩ := h
    obtain ⟨c', t', hc', -, hscale', hlevel'⟩ := h'
    exact Or.inl ⟨c, t, c', t', hc, hc', hlevel.trans hlevel'.symm, hscale.trans hscale'.symm⟩

end Fulfils

/-- At the lowest level there is nothing left for a product. -/
theorem mul_of_level_eq_zero {ctx : Context} {x y : Ciphertext} (hx : x.contextId = ctx.id)
    (hy : y.contextId = ctx.id) (hlevel : min x.level y.level = 0) :
    ctx.mul x y = .fail (.levelExhausted ctx.topLevel) := by
  rw [mul, requireOwn_of_eq hx, ok_bind, requireOwn_of_eq hy, ok_bind, hlevel]
  rfl

/-- A scalar without an integer is not encrypted. -/
theorem outcome_encrypt_of_integer?_eq_none {σ : Type} {sampler : Sampler σ} {ctx : Context}
    {value : Float} (h : Encoding.integer? value ctx.scale ((ctx.primes.head?).getD 0) = none)
    (s : σ) :
    (encrypt sampler ctx value).outcome s = (Result.fail (.valueOutOfRange value), s) := by
  rw [encrypt, Encoding.encode, h]
  rfl

end Context

namespace Evaluator

variable {σ : Type} {sampler : Sampler σ} {ev ev' : Evaluator} {e : Expression} {op : Operator}
  {x y : Ciphertext}

/-! ## Runs end as foretold -/

/-- What the checks and the encrypted pass lead to, from the primes and the scale alone. -/
def foretell (ev : Evaluator) (e : Expression) : Result RequestError (Float × ℕ) := do
  ev.checkDepth e
  let _ ← ev.rehearse e
  ev.context.foretell e

theorem fulfils_encrypt (hsampler : sampler.Lawful) (hctx : ev.context.Working) (value : Float)
    (s : σ) :
    ev.context.Fulfils ((ev.encrypt sampler value).outcome s)
      (ev.context.foretellLiteral value) := by
  rw [Context.foretellLiteral]
  rcases hinteger : Encoding.integer? value ev.context.scale ((ev.context.primes.head?).getD 0) with
    _ | m
  · refine ⟨s, ?_⟩
    have hrun : (ev.context.encrypt sampler value).outcome s = _ :=
      Context.outcome_encrypt_of_integer?_eq_none hinteger s
    change (Except.mapError _ ((ev.context.encrypt sampler value).outcome s).1,
      ((ev.context.encrypt sampler value).outcome s).2) = _
    rw [hrun]
    rfl
  · obtain ⟨c, hc, hvalid, hlevel, hscale, -⟩ := hctx.answers_encrypt hsampler hinteger s
    exact ⟨c, _, answers_adapt.2 hc, hvalid, hscale, hlevel⟩

theorem fulfils_apply (hctx : ev.context.Working) (hdiv : op ≠ .div) (hx : x.Valid ev.context)
    (hy : y.Valid ev.context) (s : σ) :
    ev.context.Fulfils (ev.apply op x y, s)
      (ev.context.foretellOperator op (x.scale, x.level) (y.scale, y.level)) := by
  rw [Context.foretellOperator]
  split
  · rename_i hop
    exact (follows_apply hctx hdiv hx hy hop s).fulfils
  · rename_i hop
    -- Of the operators that are left only a product spends a level.
    cases op with
    | add | sub => exact absurd trivial hop
    | mul =>
      have hlevel : min x.level y.level = 0 := Nat.lt_one_iff.1 (not_le.1 hop)
      rw [apply, Context.mul_of_level_eq_zero hx.contextId_eq hy.contextId_eq hlevel]
      exact ⟨s, rfl⟩
    | div => exact absurd rfl hdiv

/-- The encrypted pass over an expression without divisions ends as foretold. -/
theorem fulfils_pass (hsampler : sampler.Lawful) (hctx : ev.context.Working)
    (he : e.DivisionFree) (s : σ) :
    ev.context.Fulfils ((ev.pass sampler e).outcome s) (ev.context.foretell e) := by
  induction e generalizing s with
  | literal value =>
    rw [pass, Context.foretell, foldM_literal, foldM_literal]
    exact fulfils_encrypt hsampler hctx value s
  | binary op l r ihl ihr =>
    obtain ⟨hdiv, hl, hr⟩ := he
    rw [pass_binary, Context.foretell, foldM_binary]
    refine (ihl hl s).bind fun x t hx => ?_
    refine (ihr hr t).bind fun y u hy => ?_
    exact fulfils_apply hctx hdiv hx hy u

/-- An evaluation of an expression without divisions ends as foretold. -/
theorem fulfils_evaluate (hsampler : sampler.Lawful) (hctx : ev.context.Working)
    (he : e.DivisionFree) (s : σ) :
    ev.context.Fulfils ((ev.evaluate sampler e).outcome s) (ev.foretell e) := by
  rw [foretell, evaluate, checkDepth]
  split
  · exact ⟨s, rfl⟩
  · rcases hreplay : ev.rehearse e with (cause | cause) | replayed
    · exact absurd hreplay (delivers_rehearse.ne_fault cause)
    · exact ⟨s, rfl⟩
    · exact fulfils_pass hsampler hctx he s

/-! ## Alike contexts foretell the same -/

/-- The replay reads primes and scale, and the tolerance only at a division. -/
theorem rehearse_eq_of_alike (h : ev.context.Alike ev'.context) (he : e.DivisionFree) :
    ev.rehearse e = ev'.rehearse e := by
  have hcheck (value : Float) (level : ℕ) :
      ev.checkValue value level = ev'.checkValue value level := by
    rw [checkValue, checkValue, modulusAt, modulusAt, h.primes_eq, h.scale_eq]
  induction e with
  | literal value => rw [rehearse, rehearse, foldM_literal, foldM_literal, h.topLevel_eq]
  | binary op l r ihl ihr =>
    obtain ⟨hdiv, hl, hr⟩ := he
    have hoperator : ev.rehearseOperator op = ev'.rehearseOperator op := by
      funext v w
      cases op with
      | add | sub | mul => exact hcheck _ _
      | div => exact absurd rfl hdiv
    have ihl := ihl hl
    have ihr := ihr hr
    rw [rehearse] at ihl ihr ⊢
    rw [foldM_binary, ihl, ihr, hoperator, rehearse, rehearse, rehearse, foldM_binary]

theorem foretell_eq_of_alike (h : ev.context.Alike ev'.context) (he : e.DivisionFree) :
    ev.foretell e = ev'.foretell e := by
  have hliteral : ev.context.foretellLiteral = ev'.context.foretellLiteral := by
    funext value
    rw [Context.foretellLiteral, Context.foretellLiteral, h.primes_eq, h.scale_eq, h.topLevel_eq]
  have hoperator : ev.context.foretellOperator = ev'.context.foretellOperator := by
    funext op v w
    have htrack : ev.context.trackOperator op v w = ev'.context.trackOperator op v w := by
      cases op <;> simp only [Context.trackOperator, Context.productScale, h.primes_eq]
    rw [Context.foretellOperator, Context.foretellOperator, htrack, h.topLevel_eq]
  rw [foretell, foretell, checkDepth, checkDepth, h.topLevel_eq, rehearse_eq_of_alike h he,
    Context.foretell, Context.foretell, hliteral, hoperator]

/-! ## Two evaluations -/

/-- Two contexts of the same parameters, with whatever keys and ids, two tolerances and two sources
of encryptions in whatever states: an expression without divisions is evaluated to ciphertexts of
the same level and the same scale in both, or it fails with the same error in both. -/
theorem same_outcome_of_generate {α β τ : Type} {source : Sampler α} {source' : Sampler β}
    {sampler' : Sampler τ} (hsource : source.Lawful) (hsource' : source'.Lawful)
    (hsampler : sampler.Lawful) (hsampler' : sampler'.Lawful) {params : Parameters}
    {id id' : UInt64} {u v : α} {u' v' : β}
    (hcontext : Answers (Context.generate source params id) u ev.context v)
    (hcontext' : Answers (Context.generate source' params id') u' ev'.context v')
    (htest : ∀ q ∈ ev.context.primes, TestExact q) (he : e.DivisionFree) (s : σ) (s' : τ) :
    (∃ c t c' t', Answers (ev.evaluate sampler e) s c t ∧
      Answers (ev'.evaluate sampler' e) s' c' t' ∧ c.level = c'.level ∧ c.scale = c'.scale) ∨
    ∃ cause t t', (ev.evaluate sampler e).outcome s = (Result.fail cause, t) ∧
      (ev'.evaluate sampler' e).outcome s' = (Result.fail cause, t') := by
  have halike := Context.alike_of_generate hcontext hcontext'
  have htest' : ∀ q ∈ ev'.context.primes, TestExact q := halike.primes_eq ▸ htest
  have hctx := Context.working_of_generate hsource hcontext htest
  have hctx' := Context.working_of_generate hsource' hcontext' htest'
  have hrun := fulfils_evaluate hsampler hctx he s
  have hrun' := fulfils_evaluate hsampler' hctx' he s'
  rw [foretell_eq_of_alike halike he] at hrun
  exact hrun.same_outcome hrun'

/-- The steady source without errors. -/
def silent : Sampler Unit :=
  { Sampler.steady with gaussian := fun n _ _ => (List.replicate n 0, ()) }

theorem lawful_silent : silent.Lawful where
  uniform_length := Sampler.lawful_steady.uniform_length
  uniform_lt := Sampler.lawful_steady.uniform_lt
  gaussian_length _ _ _ := List.length_replicate
  gaussian_word n d s x hx := by
    rw [(List.mem_replicate.1 hx).2]
    decide
  ternary_length := Sampler.lawful_steady.ternary_length
  ternary_mem := Sampler.lawful_steady.ternary_mem
  ternary_weight := Sampler.lawful_steady.ternary_weight

/-- A product in two contexts of the smallest ring, one of them with keys and encryptions that have
no errors. -/
theorem same_outcome_product :
    ∃ (ev ev' : Evaluator) (c c' : Ciphertext),
      Answers (Context.generate Sampler.steady Context.smallest 7) () ev.context () ∧
      Answers (Context.generate silent Context.smallest 8) () ev'.context () ∧
      Answers (ev.evaluate Sampler.steady product) () c () ∧
      Answers (ev'.evaluate silent product) () c' () ∧ c.level = c'.level ∧ c.scale = c'.scale := by
  have hok : ((Context.generate silent Context.smallest 8).outcome ()).1.isOk := by decide +kernel
  obtain ⟨ctx', ⟨⟩, hctx'⟩ := exists_answers_of_isOk hok
  -- The first evaluation is run only to see that it succeeds.
  have hproduct : ((do
      let ctx ← ExceptT.adapt (Failure.map RequestError.scheme)
        (Context.generate Sampler.steady Context.smallest 7)
      (⟨ctx, 0⟩ : Evaluator).evaluate Sampler.steady product :
        Drawing Unit RequestError Ciphertext).outcome ()).1.isOk := by
    decide +kernel
  obtain ⟨c, ⟨⟩, hrun⟩ := exists_answers_of_isOk hproduct
  obtain ⟨ctx, ⟨⟩, hctx, hc⟩ := answers_bind.1 hrun
  rw [answers_adapt] at hctx
  obtain ⟨ctx₀, hctx₀, -, htest⟩ := Context.exists_smallest 7
  obtain rfl : ctx₀ = ctx := Except.ok.inj (Prod.mk.inj (hctx₀.symm.trans hctx)).1
  have hfree : product.DivisionFree := ⟨nofun, trivial, trivial⟩
  have hcontext : Answers (Context.generate Sampler.steady Context.smallest 7) ()
      (⟨ctx₀, 0⟩ : Evaluator).context () := hctx
  have hcontext' : Answers (Context.generate silent Context.smallest 8) ()
      (⟨ctx', 0⟩ : Evaluator).context () := hctx'
  rcases same_outcome_of_generate Sampler.lawful_steady lawful_silent Sampler.lawful_steady
      lawful_silent hcontext hcontext' htest hfree () () with
    ⟨d, ⟨⟩, d', ⟨⟩, hd, hd', hlevel, hscale⟩ | ⟨cause, ⟨⟩, ⟨⟩, hfail, -⟩
  · exact ⟨⟨ctx₀, 0⟩, ⟨ctx', 0⟩, d, d', hctx, hctx', hd, hd', hlevel, hscale⟩
  · exact absurd (hfail.symm.trans hc) (by simp [Result.fail])

end Evaluator

end EncryptedArithmetic

import EncryptedArithmetic.Proofs.Request.Depth
import EncryptedArithmetic.Proofs.Scheme.Drift
import EncryptedArithmetic.Proofs.Scheme.Encryption

/-!
# Scales that an evaluation meets

Summands are only added if their scales are nearly the same. The scale of a ciphertext depends on
the products behind it alone, not on what is drawn or encrypted, so the scales of an expression
without divisions can be tracked before it is evaluated. The checks before an evaluation look at
depths, values and literals. An expression that passes them is evaluated unless its scales are too
far apart somewhere, and the context decides whether that happens to any expression at all.

## Main definitions

* `Context.track`: the scale and level of an expression, or two scales that are too far apart.
* `Evaluator.Legal`: an expression without divisions that passes all checks.
* `Expression.squares`: the expression whose scale drifts the most.

## Main results

* `follows_pass`: the encrypted pass ends as it was tracked.
* `exists_track_of_steady`: in a steady context all scales stay close.
* `scales_of_evaluate`: when an evaluation fails on scales, and in which contexts one does.
-/

namespace EncryptedArithmetic

open Binary64 Expression EncryptedArithmetic.Modular

/-! ## Tracking scales -/

namespace Context

/-- The scale and level of the result of an operator, or the two scales that are too far apart. The
scale of a quotient depends on its divisor; that of the dividend stands in for it. -/
def trackOperator (ctx : Context) (op : Operator) (x y : Float × ℕ) :
    Except (Float × Float) (Float × ℕ) :=
  match op with
  | .add | .sub =>
    if scalesDiffer x.1 y.1 then .error (x.1, y.1) else .ok (x.1, op.level x.2 y.2)
  | .mul => .ok (ctx.productScale (min x.2 y.2) x.1 y.1, op.level x.2 y.2)
  | .div => .ok (x.1, op.level x.2 y.2)

/-- The scale and level of an expression, or the first two scales that are too far apart. -/
def track (ctx : Context) (e : Expression) : Except (Float × Float) (Float × ℕ) :=
  e.foldM (fun _ => .ok (ctx.scale, ctx.topLevel)) ctx.trackOperator

theorem track_binary {ctx : Context} {l r : Expression} {x y : Float × ℕ} (op : Operator)
    (hl : ctx.track l = .ok x) (hr : ctx.track r = .ok y) :
    ctx.track (.binary op l r) = ctx.trackOperator op x y := by
  rw [track] at hl hr ⊢
  rw [foldM_binary, hl, ok_bind, hr, ok_bind]

/-- There is no division, and every literal has an integer at the scale of the context. -/
def Takes (ctx : Context) : Expression → Prop
  | .literal value => ∃ m, Encoding.integer? value ctx.scale ((ctx.primes.head?).getD 0) = some m
  | .binary op l r => op ≠ .div ∧ ctx.Takes l ∧ ctx.Takes r

/-- The run ends as it was tracked: in a valid ciphertext of this scale and level, or with an error
that names the two scales. -/
def Follows {σ : Type} (ctx : Context) (run : Result RequestError Ciphertext × σ) :
    Except (Float × Float) (Float × ℕ) → Prop
  | .ok (scale, level) =>
    ∃ c s, run = (.ok c, s) ∧ c.Valid ctx ∧ c.scale = scale ∧ c.level = level
  | .error (a, b) => ∃ s, run = (Result.fail (.scheme (.scaleMismatch a b)), s)

/-- Sequences follow what was tracked step by step. -/
theorem Follows.bind {σ : Type} {ctx : Context} {s : σ} {x : Drawing σ RequestError Ciphertext}
    {f : Ciphertext → Drawing σ RequestError Ciphertext}
    {tracked : Except (Float × Float) (Float × ℕ)}
    {g : Float × ℕ → Except (Float × Float) (Float × ℕ)} (hx : ctx.Follows (x.outcome s) tracked)
    (hf : ∀ c t, Answers x s c t → c.Valid ctx →
      ctx.Follows ((f c).outcome t) (g (c.scale, c.level))) :
    ctx.Follows ((x >>= f).outcome s) (tracked >>= g) := by
  rw [outcome_bind]
  rcases tracked with ⟨a, b⟩ | ⟨scale, level⟩
  · obtain ⟨t, ht⟩ := hx
    exact ⟨t, by rw [ht]; rfl⟩
  · obtain ⟨c, t, hc, hvalid, rfl, rfl⟩ := hx
    rw [hc]
    exact hf c t hc hvalid

end Context

namespace Evaluator

variable {σ : Type} {sampler : Sampler σ} {ev : Evaluator} {e : Expression} {op : Operator}
  {x y : Ciphertext} {s : σ} {level k : ℕ}

/-! ## The encrypted pass -/

/-- A sum, a difference or a product that can be afforded. -/
theorem follows_apply (hctx : ev.context.Working) (hdiv : op ≠ .div) (hx : x.Valid ev.context)
    (hy : y.Valid ev.context) (hop : op.Affordable x.level y.level) (s : σ) :
    ev.context.Follows (ev.apply op x y, s)
      (ev.context.trackOperator op (x.scale, x.level) (y.scale, y.level)) := by
  -- Sums and differences compare the scales, a product only multiplies them.
  have hcombined {f : ResiduePoly → ResiduePoly → Except Fault ResiduePoly}
      (hf : ev.context.Combines f) :
      ev.context.Follows (Result.mapError RequestError.ofScheme (ev.context.combined f x y), s)
        (if Context.scalesDiffer x.scale y.scale then .error (x.scale, y.scale)
          else .ok (x.scale, min x.level y.level)) := by
    rcases hdiffer : Context.scalesDiffer x.scale y.scale with _ | _
    · obtain ⟨c, hc, hvalid, hscale, hlevel⟩ := hctx.exists_combined hf hx hy hdiffer
      rw [hc]
      exact ⟨c, s, rfl, hvalid, hscale, hlevel⟩
    · rw [Context.combined_of_scalesDiffer hx.contextId_eq hy.contextId_eq hdiffer]
      exact ⟨s, rfl⟩
  cases op with
  | add =>
    rw [apply, Context.add_eq_combined]
    exact hcombined hctx.combines_add?
  | sub =>
    rw [apply, Context.sub_eq_combined]
    exact hcombined hctx.combines_sub?
  | mul =>
    obtain ⟨c, hc, hvalid, hlevel, hscale⟩ := hctx.exists_mul hx hy hop
    rw [apply, hc]
    exact ⟨c, s, rfl, hvalid, hscale, hlevel⟩
  | div => exact absurd rfl hdiv

/-- The encrypted pass over an expression whose literals are taken ends as it was tracked, as long
as there are enough levels. -/
theorem follows_pass (hsampler : sampler.Lawful) (hctx : ev.context.Working)
    (he : ev.context.Takes e) (hwalk : e.walk? ev.context.topLevel = some level) (s : σ) :
    ev.context.Follows ((ev.pass sampler e).outcome s) (ev.context.track e) := by
  induction e generalizing s level with
  | literal value =>
    obtain ⟨m, hm⟩ := he
    obtain ⟨c, hc, hvalid, hlevel, hscale, -⟩ := hctx.answers_encrypt hsampler hm s
    rw [pass, Context.track, foldM_literal, foldM_literal]
    exact ⟨c, _, answers_adapt.2 hc, hvalid, hscale, hlevel⟩
  | binary op l r ihl ihr =>
    obtain ⟨hdiv, hl, hr⟩ := he
    obtain ⟨m, n, hm, hn, hop, -⟩ := walk?_binary_eq_some_iff.1 hwalk
    rw [pass_binary, Context.track, foldM_binary]
    refine (ihl hl hm s).bind fun x t hx hvalidx => ?_
    refine (ihr hr hn t).bind fun y u hy hvalidy => ?_
    -- The operands are at the levels of the walk.
    rw [walk?_of_answers_pass hx, Option.some.injEq] at hm
    rw [walk?_of_answers_pass hy, Option.some.injEq] at hn
    rw [← hm, ← hn] at hop
    exact follows_apply hctx hdiv hvalidx hvalidy hop u

/-! ## Expressions that pass all checks -/

/-- There is no division, and the depth, the values and the literals pass their checks. -/
structure Legal (ev : Evaluator) (e : Expression) : Prop where
  takes : ev.context.Takes e
  depth : ev.checkDepth e = .ok ()
  replay : ∃ replayed, ev.rehearse e = .ok replayed

theorem Legal.exists_walk? (he : ev.Legal e) :
    ∃ level, e.walk? ev.context.topLevel = some level :=
  ⟨_, walk?_of_requiredLevels_le (checkDepth_eq_ok_iff.1 he.depth)⟩

theorem Legal.follows_evaluate (he : ev.Legal e) (hsampler : sampler.Lawful)
    (hctx : ev.context.Working) (s : σ) :
    ev.context.Follows ((ev.evaluate sampler e).outcome s) (ev.context.track e) := by
  obtain ⟨level, hwalk⟩ := he.exists_walk?
  obtain ⟨replayed, hreplayed⟩ := he.replay
  rw [outcome_evaluate he.depth hreplayed]
  exact follows_pass hsampler hctx he.takes hwalk s

end Evaluator

/-! ## Steady contexts -/

namespace Context

variable {ctx : Context} {b k : ℕ} {e : Expression} {level : ℕ}

/-- In a steady context no scales are too far apart: every expression has one, between that of a
fresh ciphertext and that of the squares at its level. -/
theorem exists_track_of_steady (hsteady : ctx.Steady) (h : ctx.Calibrated b) (he : ctx.Takes e)
    (hwalk : e.walk? ctx.topLevel = some level) :
    ∃ scale, ctx.track e = .ok (scale, level) ∧ ctx.Within b scale level := by
  induction e generalizing level with
  | literal value =>
    rw [walk?_literal] at hwalk
    obtain rfl := Option.some.inj hwalk
    exact ⟨ctx.scale, foldM_literal _ _ value, h.within_scale⟩
  | binary op l r ihl ihr =>
    obtain ⟨hdiv, hl, hr⟩ := he
    obtain ⟨m, n, hm, hn, hop, rfl⟩ := walk?_binary_eq_some_iff.1 hwalk
    obtain ⟨x, hx, hinx⟩ := ihl hl hm
    obtain ⟨y, hy, hiny⟩ := ihr hr hn
    -- Both operands are looked at where they meet.
    have hlx := hinx.lower hsteady h (min_le_left m n)
    have hly := hiny.lower hsteady h (min_le_right m n)
    rw [track_binary op hx hy]
    cases op with
    | add | sub =>
      have hclose := hlx.scalesDiffer_eq_false hly hsteady h
      exact ⟨x, by rw [trackOperator, hclose]; rfl, hlx⟩
    | mul => exact ⟨_, rfl, hlx.product hly hsteady h hop⟩
    | div => exact absurd rfl hdiv

end Context

/-! ## Squares and a summand -/

namespace Expression

/-- Zero, squared again and again. -/
def squares : ℕ → Expression
  | 0 => .literal 0
  | k + 1 => .binary .mul (squares k) (squares k)

/-- A square and a literal that is added to it. -/
def squaresPlusLiteral (k : ℕ) : Expression :=
  .binary .add (squares k) (.literal 0)

theorem requiredLevels_squares (k : ℕ) : (squares k).requiredLevels = k := by
  induction k with
  | zero => rfl
  | succ k ih => rw [squares, requiredLevels_binary, ih, max_self]

theorem requiredLevels_squaresPlusLiteral (k : ℕ) :
    (squaresPlusLiteral k).requiredLevels = k := by
  rw [squaresPlusLiteral, requiredLevels_binary, requiredLevels_squares]
  exact max_eq_left (Nat.zero_le k)

end Expression

namespace Context

variable {ctx : Context} {k : ℕ}

/-- The squares have the scale that drifts the most. -/
theorem track_squares (hk : k ≤ ctx.topLevel) :
    ctx.track (squares k) = .ok (ctx.drifted k, ctx.topLevel - k) := by
  induction k with
  | zero => exact foldM_literal _ _ 0
  | succ k ih =>
    have ih := ih (Nat.le_of_succ_le hk)
    rw [squares, track_binary .mul ih ih, trackOperator, min_self, Operator.level, min_self,
      Nat.sub_sub, drifted]

theorem track_squaresPlusLiteral (hk : k ≤ ctx.topLevel)
    (hdiffer : scalesDiffer (ctx.drifted k) ctx.scale = true) :
    ctx.track (squaresPlusLiteral k) = .error (ctx.drifted k, ctx.scale) := by
  rw [squaresPlusLiteral, track_binary .add (track_squares hk) (foldM_literal _ _ 0), trackOperator,
    hdiffer]
  rfl

theorem takes_squares
    (h : ∃ m, Encoding.integer? 0 ctx.scale ((ctx.primes.head?).getD 0) = some m) (k : ℕ) :
    ctx.Takes (squares k) := by
  induction k with
  | zero => exact h
  | succ k ih => exact ⟨nofun, ih, ih⟩

/-- Zero has an integer in every context. -/
theorem Working.exists_integer?_zero (hctx : ctx.Working) {b : ℕ} (h : ctx.Calibrated b) :
    ∃ m, Encoding.integer? 0 ctx.scale ((ctx.primes.head?).getD 0) = some m := by
  obtain ⟨t, ht, hhead⟩ := hctx.sound.exists_head?_primes
  rw [primes, hhead, Option.getD_some]
  exact Encoding.exists_integer?_zero h.denotes_scale (hctx.sound.table_sound t ht).prime.two_le

end Context

namespace Evaluator

variable {σ : Type} {sampler : Sampler σ} {ev : Evaluator} {e : Expression} {s : σ} {level k : ℕ}

/-- Zero passes the check of values at every level. -/
theorem checkValue_zero {b : ℕ} (hscaled : ev.context.Scaled b) (level : ℕ) :
    ev.checkValue 0 level = .ok (0, level) := by
  obtain ⟨v, -, hceiling⟩ := exists_eq_largestBelow_half (atLeastOne_modulusAt hscaled level)
    (hscaled.bits_lt.trans (by norm_num))
  rw [checkValue_eq_ok_iff hscaled denotes_zero.isFinite, denotes_zero.exact_eq, abs_zero, zero_mul,
    ceiling, ← hceiling]
  positivity

theorem rehearse_squares {b : ℕ} (hscaled : ev.context.Scaled b) (k : ℕ) :
    ev.rehearse (squares k) = .ok (0, ev.context.topLevel - k) := by
  have hproduct : (0 : Float) * 0 = 0 := by decide +kernel
  induction k with
  | zero => exact foldM_literal _ _ 0
  | succ k ih =>
    rw [squares, rehearse_binary .mul ih ih, rehearseOperator, hproduct, min_self, Nat.sub_sub]
    exact checkValue_zero hscaled _

theorem legal_squaresPlusLiteral (hctx : ev.context.Working) {b : ℕ}
    (h : ev.context.Calibrated b) (hk : k ≤ ev.context.topLevel) :
    ev.Legal (squaresPlusLiteral k) where
  takes := by
    have hzero := hctx.exists_integer?_zero h
    exact ⟨nofun, Context.takes_squares hzero k, hzero⟩
  depth := checkDepth_eq_ok_iff.2 ((requiredLevels_squaresPlusLiteral k).trans_le hk)
  replay := by
    have hsum : (0 : Float) + 0 = 0 := by decide +kernel
    rw [squaresPlusLiteral, rehearse_binary .add (rehearse_squares h.scaled k)
      (foldM_literal _ _ 0), rehearseOperator, hsum]
    exact ⟨_, checkValue_zero h.scaled _⟩

/-! ## Which evaluations fail on scales -/

/-- In every context of accepted parameters and whatever is drawn: an expression without divisions
whose depth, values and literals pass their checks is evaluated to a ciphertext of the scale and
level that are tracked for it, or it fails with the two scales that are tracked. None fails if every
square of a fresh ciphertext may be added to a fresh ciphertext, and then all scales are at least
that of the context and at most that of the squares. Otherwise such a sum fails itself. -/
theorem scales_of_evaluate {τ : Type} {source : Sampler τ} (hsource : source.Lawful)
    (hsampler : sampler.Lawful) {params : Parameters} {id : UInt64} {u u' : τ}
    (hcontext : Answers (Context.generate source params id) u ev.context u')
    (htest : ∀ q ∈ ev.context.primes, TestExact q) (s : σ) :
    (∀ e, ev.Legal e →
      (∀ a b, (∃ s', (ev.evaluate sampler e).outcome s =
          (Result.fail (.scheme (.scaleMismatch a b)), s')) ↔
        ev.context.track e = .error (a, b)) ∧
      ∀ scale level, ev.context.track e = .ok (scale, level) →
        ∃ c s', Answers (ev.evaluate sampler e) s c s' ∧ c.scale = scale ∧ c.level = level) ∧
    (ev.context.Steady → ∀ e, ev.Legal e → ∃ c s', Answers (ev.evaluate sampler e) s c s' ∧
      2 ^ params.scaleBits.toNat ≤ exact c.scale ∧
      exact c.scale ≤ exact (ev.context.drifted (ev.context.topLevel - c.level))) ∧
    (ev.context.Steady ↔ ∀ e, ev.Legal e → ∀ a b s', (ev.evaluate sampler e).outcome s ≠
      (Result.fail (.scheme (.scaleMismatch a b)), s')) := by
  have hctx := Context.working_of_generate hsource hcontext htest
  have hcalibrated := Context.calibrated_of_generate hcontext
  have hfollows {e : Expression} (he : ev.Legal e) := he.follows_evaluate hsampler hctx s
  have hmismatch {e : Expression} (he : ev.Legal e) (a b : Float) :
      (∃ s', (ev.evaluate sampler e).outcome s =
        (Result.fail (.scheme (.scaleMismatch a b)), s')) ↔ ev.context.track e = .error (a, b) := by
    have hrun := hfollows he
    rcases htrack : ev.context.track e with ⟨a', b'⟩ | ⟨scale, level⟩
    · rw [htrack] at hrun
      obtain ⟨t, ht⟩ := hrun
      rw [ht]
      simp [Result.fail]
    · rw [htrack] at hrun
      obtain ⟨c, t, ht, -⟩ := hrun
      rw [ht]
      simp [Result.fail]
  have hsteadyRun (hsteady : ev.context.Steady) {e : Expression} (he : ev.Legal e) :
      ∃ c s', Answers (ev.evaluate sampler e) s c s' ∧
        ev.context.Within params.scaleBits.toNat c.scale c.level := by
    obtain ⟨level, hwalk⟩ := he.exists_walk?
    obtain ⟨scale, htrack, hwithin⟩ :=
      Context.exists_track_of_steady hsteady hcalibrated he.takes hwalk
    have hrun := hfollows he
    rw [htrack] at hrun
    obtain ⟨c, t, hc, -, rfl, rfl⟩ := hrun
    exact ⟨c, t, hc, hwithin⟩
  refine ⟨fun e he => ⟨hmismatch he, fun scale level htrack => ?_⟩, fun hsteady e he => ?_,
    fun hsteady e he a b s' hrun => ?_, fun hnone k hk => ?_⟩
  · have hrun := hfollows he
    rw [htrack] at hrun
    obtain ⟨c, t, hc, -, hscale, hlevel⟩ := hrun
    exact ⟨c, t, hc, hscale, hlevel⟩
  · obtain ⟨c, t, hc, hwithin⟩ := hsteadyRun hsteady he
    exact ⟨c, t, hc, hwithin.ge, hwithin.le⟩
  · obtain ⟨c, t, hc, -⟩ := hsteadyRun hsteady he
    exact absurd (hrun.symm.trans hc) (by simp [Result.fail])
  · -- Otherwise the square of this depth cannot be added to a literal.
    by_contra hdiffer
    rw [Bool.not_eq_false] at hdiffer
    have hlegal := legal_squaresPlusLiteral hctx hcalibrated hk
    obtain ⟨s', hfail⟩ :=
      (hmismatch hlegal _ _).2 (Context.track_squaresPlusLiteral hk hdiffer)
    exact hnone _ hlegal _ _ s' hfail

/-- The smallest ring with four data primes. -/
def fourPrimes : Parameters :=
  { Context.smallest with widths := [22, 20, 20, 20, 22] }

/-- With four data primes in the smallest ring the square of a square cannot be added to a literal,
although the parameters are accepted and the sum passes all checks. -/
theorem square_of_square_fails :
    ∃ ev : Evaluator, Answers (Context.generate Sampler.steady fourPrimes 7) () ev.context () ∧
      ¬ev.context.Steady ∧ ev.Legal (squaresPlusLiteral 2) ∧
      (ev.evaluate Sampler.steady (squaresPlusLiteral 2)).outcome () =
        (Result.fail (.scheme (.scaleMismatch (ev.context.drifted 2) ev.context.scale)), ()) := by
  have hok : ((Context.generate Sampler.steady fourPrimes 7).outcome ()).1.isOk := by
    decide +kernel
  have hchosen : (Context.choosePrimes fourPrimes).toOption =
      some [4193633, 1048433, 1048273, 1048193, 4193569] := by
    decide +kernel
  obtain ⟨ctx, hgenerate, heq, htest⟩ :=
    Context.exists_of_isOk hok hchosen (by norm_num [UInt64.toNat_ofNat])
  obtain ⟨-, -, hscale, -⟩ := Context.generate_cases hgenerate
  have htop : ctx.topLevel = 3 := Context.topLevel_of_primes heq
  have hdiffer : Context.scalesDiffer (ctx.drifted 2) ctx.scale = true := by
    rw [Context.drifted, Context.drifted, Context.drifted, Context.productScale,
      Context.productScale, htop, heq, hscale]
    decide +kernel
  have hle : 2 ≤ ctx.topLevel := by omega
  have hcontext : Answers (Context.generate Sampler.steady fourPrimes 7) ()
      (⟨ctx, 0⟩ : Evaluator).context () := hgenerate
  have hlegal : Legal ⟨ctx, 0⟩ (squaresPlusLiteral 2) :=
    legal_squaresPlusLiteral (Context.working_of_generate Sampler.lawful_steady hgenerate htest)
      (Context.calibrated_of_generate hgenerate) hle
  obtain ⟨hends, -, hsteady⟩ :=
    scales_of_evaluate Sampler.lawful_steady Sampler.lawful_steady hcontext htest ()
  have htrack := Context.track_squaresPlusLiteral hle hdiffer
  obtain ⟨⟨⟩, hfail⟩ := ((hends _ hlegal).1 _ _).2 htrack
  exact ⟨⟨ctx, 0⟩, hgenerate, fun h => hsteady.1 h _ hlegal _ _ () hfail, hlegal, hfail⟩

end Evaluator

end EncryptedArithmetic

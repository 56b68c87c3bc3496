import EncryptedArithmetic.Proofs.Request.Forecast
import EncryptedArithmetic.Request.Calculator

/-!
# The addition of two numbers

A calculator adds two numbers by encrypting both and adding the ciphertexts. It can also evaluate
the sum as an expression. Both requests draw the same and end in the same outcome, unless the check
of values refuses the sum: the addition does not run it. With at least two data primes the check
never refuses the sum of two numbers that can be encrypted. With only one it may, and there the
addition succeeds with a value that has wrapped around.

## Main definitions

* `Calculator.Reachable`: a calculator of a configuration, after some requests.
* `Evaluator.Overlooks`: both numbers can be encrypted, but the check refuses their sum.

## Main results

* `checkValue_add`: with two data primes the check refuses no sum.
* `Reachable.configured`: the context of a calculator is one of its configuration.
* `add_agrees_iff`: when the two requests have the same outcome.
-/

namespace EncryptedArithmetic

open Binary64 Expression EncryptedArithmetic.Modular

/-- The sum of two literals. -/
def Expression.sum (a b : Float) : Expression :=
  .binary .add (.literal a) (.literal b)

/-! ## The product of the primes as a float -/

namespace Context

theorem foldl_add_toNat (ws : List UInt32) (total : ℕ) :
    ws.foldl (fun total bits => total + bits.toNat) total =
      total + (ws.map UInt32.toNat).sum := by
  induction ws generalizing total with
  | nil => rfl
  | cons w ws ih => rw [List.foldl_cons, ih, List.map_cons, List.sum_cons, Nat.add_assoc]

/-- A product of primes of given widths is at least a power of two, with one bit less for each of
the primes. -/
theorem denotes_foldl_primes {ws : List UInt32} {ps : List UInt64} (h : List.Forall₂ OfWidth ws ps)
    {x : Float} {v : ℚ} (hx : Denotes x v) {i j : ℕ} (hlower : 2 ^ i ≤ v) (hupper : v ≤ 2 ^ j)
    (hj : j + (ws.map UInt32.toNat).sum < 1024) :
    ∃ v', Denotes (ps.foldl (fun m q => m * q.toFloat) x) v' ∧
      2 ^ (i + (ws.map fun w => w.toNat - 1).sum) ≤ v' := by
  -- By induction on the primes, with both bounds for the product that was reached.
  induction h generalizing x v i j with
  | nil => exact ⟨v, hx, hlower⟩
  | @cons w p ws ps hwidth _ ih =>
    rw [List.map_cons, List.sum_cons] at hj ⊢
    have hp := denotes_toFloat p
    have hplower : (2 : ℚ) ^ (w.toNat - 1) ≤ nearest p.toNat := by
      have hle : (2 : ℚ) ^ (w.toNat - 1) ≤ p.toNat := by exact_mod_cast hwidth.lower
      exact (nearest_two_pow _).symm.trans_le (nearest_mono (by positivity) hle)
    have hpupper : nearest p.toNat ≤ 2 ^ w.toNat := by
      have hle : (p.toNat : ℚ) ≤ 2 ^ w.toNat := by exact_mod_cast hwidth.upper.le
      exact (nearest_mono (Nat.cast_nonneg _) hle).trans_eq (nearest_two_pow _)
    have hge : (2 : ℚ) ^ (i + (w.toNat - 1)) ≤ nearest (v * nearest p.toNat) := by
      have hle : (2 : ℚ) ^ (i + (w.toNat - 1)) ≤ v * nearest p.toNat := by
        rw [pow_add]
        exact mul_le_mul hlower hplower (by positivity) hx.nonneg
      exact (nearest_two_pow _).symm.trans_le (nearest_mono (by positivity) hle)
    have hle : nearest (v * nearest p.toNat) ≤ 2 ^ (j + w.toNat) := by
      have hle : v * nearest p.toNat ≤ 2 ^ (j + w.toNat) := by
        rw [pow_add]
        exact mul_le_mul hupper hpupper hp.nonneg (by positivity)
      exact (nearest_mono (mul_nonneg hx.nonneg hp.nonneg) hle).trans_eq (nearest_two_pow _)
    have hlt : nearest (v * nearest p.toNat) < limit := hle.trans_lt (two_pow_lt_limit (by omega))
    obtain ⟨v', hv', hge'⟩ := ih (hx.mul hp hlt) hge hle (by omega)
    exact ⟨v', hv', by rwa [← Nat.add_assoc]⟩

end Context

namespace Evaluator

variable {σ : Type} {sampler : Sampler σ} {ev : Evaluator} {a b : Float} {s : σ}

/-! ## Sums that the check lets pass -/

/-- With two data primes the modulus at the top level is a few bits wider than the lowest prime. -/
theorem denotes_modulusAt {τ : Type} {source : Sampler τ} {params : Parameters} {id : UInt64}
    {u u' : τ} (hcontext : Answers (Context.generate source params id) u ev.context u')
    (htop : 0 < ev.context.topLevel) :
    ∃ (w : ℕ) (v : ℚ), params.scaleBits.toNat ≤ w ∧ w < 64 ∧
      ((ev.context.primes.head?).getD 0).toNat < 2 ^ (w + 1) ∧
      Denotes (ev.modulusAt ev.context.topLevel) v ∧ 2 ^ (w + 3) ≤ v := by
  obtain ⟨-, -, -, hcheck, ⟨primes, hprimes, hchain⟩, -⟩ := Context.generate_cases hcontext
  have hparams := Parameters.accepted_of_check hcheck
  obtain ⟨leading, middle, special, hshape⟩ := hparams.shape
  have hchosen : ev.context.primes = primes := ModulusChain.primes_of_build hchain
  have hwidths := (Context.primes_of_choosePrimes hprimes).2
  have hlength := hwidths.length_eq
  have htopLevel : ev.context.topLevel = primes.length - 2 := Context.topLevel_of_primes hchosen
  have hbits := hparams.modulusBits_le
  have hmem := hparams.width_mem
  have hscale := UInt32.lt_iff_toNat_lt.1 hshape.scale_lt
  rw [Parameters.modulusBits, Context.foldl_add_toNat] at hbits
  rw [hshape.widths_eq] at hwidths hlength hbits hmem
  rw [List.length_cons, List.length_append, List.length_singleton] at hlength
  -- The data primes are those of the leading width and of the widths in the middle.
  have htake : (leading :: (middle ++ [special])).take (ev.context.topLevel + 1) =
      leading :: middle := by
    rw [List.take_succ_cons, List.take_left' (by omega)]
  have hdata := List.forall₂_take (ev.context.topLevel + 1) hwidths
  rw [htake] at hdata
  obtain ⟨second, rest, rfl⟩ : ∃ second rest, middle = second :: rest :=
    List.exists_cons_of_length_pos (by omega)
  have hle (w : UInt32) (hw : w ∈ leading :: (second :: rest ++ [special])) :
      20 ≤ w.toNat ∧ w.toNat ≤ 60 :=
    ⟨UInt32.le_iff_toNat_le.1 (hmem w hw).1, UInt32.le_iff_toNat_le.1 (hmem w hw).2⟩
  have hleading := hle leading (by simp)
  have hsecond := hle second (by simp)
  have hone : Denotes (1 : UInt64).toFloat (2 ^ 0) := denotes_toFloat_two_pow rfl
  rw [show (1 : UInt64).toFloat = 1 by decide +kernel] at hone
  have hbound : Parameters.greatestModulusBits = 1000 := rfl
  obtain ⟨v, hv, hge⟩ := Context.denotes_foldl_primes hdata hone le_rfl le_rfl (by
    simp only [List.map_cons, List.map_append, List.sum_cons, List.sum_append, List.map_nil,
      List.sum_nil] at hbits ⊢
    omega)
  refine ⟨leading.toNat - 1, v, by omega, by omega, ?_, ?_, ?_⟩
  · rw [hchosen, Nat.sub_add_cancel (by omega)]
    obtain ⟨p, ps, hwidth, -, rfl⟩ := List.forall₂_cons_left_iff.1 hwidths
    exact hwidth.upper
  · rwa [modulusAt, hchosen]
  · refine le_trans (pow_le_pow_right₀ one_le_two ?_) hge
    simp only [List.map_cons, List.sum_cons]
    omega

/-- Two numbers that can be encrypted add up to at most twice the bound of either, also when the sum
is rounded and scaled. -/
theorem exists_denotes_scaled_sum {τ : Type} {source : Sampler τ} {params : Parameters}
    {id : UInt64} {u u' : τ}
    (hcontext : Answers (Context.generate source params id) u ev.context u') {w : ℕ}
    (hscale : params.scaleBits.toNat ≤ w) (hw : w < 64)
    (hhead : ((ev.context.primes.head?).getD 0).toNat < 2 ^ (w + 1)) {m n : ℤ}
    (ha : Encoding.integer? a ev.context.scale ((ev.context.primes.head?).getD 0) = some m)
    (hb : Encoding.integer? b ev.context.scale ((ev.context.primes.head?).getD 0) = some n) :
    ∃ v, Denotes ((a + b).abs * ev.context.scale) v ∧ v ≤ 2 ^ (w + 1) := by
  have hscaled := Context.scaled_of_generate hcontext
  set k := params.scaleBits.toNat
  have habound := Encoding.abs_mul_lt_of_integer? hscaled.unpack_scale ha hhead
  have hbbound := Encoding.abs_mul_lt_of_integer? hscaled.unpack_scale hb hhead
  obtain ⟨hafinite, -⟩ := Encoding.integer?_spec hscaled.unpack_scale ha
  obtain ⟨hbfinite, -⟩ := Encoding.integer?_spec hscaled.unpack_scale hb
  -- Both numbers are below `2 ^ (w - k)`, so their sum is at most `2 ^ (w + 1 - k)`.
  have hpower : (2 : ℚ) ^ (w + 1) = 2 ^ (w + 1 - k) * 2 ^ k := by
    rw [← pow_add]
    congr 1
    omega
  have hsum : |exact a + exact b| ≤ 2 ^ (w + 1 - k) := by
    have htriangle := abs_add_le (exact a) (exact b)
    refine le_of_mul_le_mul_right ?_ (by positivity : (0 : ℚ) < 2 ^ k)
    calc |exact a + exact b| * 2 ^ k ≤ (|exact a| + |exact b|) * 2 ^ k := by gcongr
      _ ≤ 2 ^ w + 2 ^ w := by
        rw [add_mul]
        exact add_le_add habound.le hbbound.le
      _ = 2 ^ (w + 1 - k) * 2 ^ k := by rw [← hpower, pow_succ, mul_two]
  -- These powers of two are floats, so rounding does not pass them.
  have hnearest : nearest |exact a + exact b| ≤ 2 ^ (w + 1 - k) :=
    (nearest_mono (abs_nonneg _) hsum).trans_eq (nearest_two_pow _)
  have habs := denotes_abs_add hafinite hbfinite (hnearest.trans_lt (two_pow_lt_limit (by omega)))
  have hproduct : nearest (nearest |exact a + exact b| * 2 ^ k) ≤ 2 ^ (w + 1) := by
    have hle : nearest |exact a + exact b| * 2 ^ k ≤ 2 ^ (w + 1) := by
      rw [hpower]
      gcongr
    exact (nearest_mono (mul_nonneg habs.nonneg (by positivity)) hle).trans_eq (nearest_two_pow _)
  exact ⟨_, habs.mul (Context.calibrated_of_generate hcontext).denotes_scale
    (hproduct.trans_lt (two_pow_lt_limit (by omega))), hproduct⟩

/-- Half of a float is rounded to at least half of a power of two below it. -/
theorem exists_denotes_half {x : Float} {v : ℚ} (hx : Denotes x v) {k : ℕ} (h : 2 ^ (k + 1) ≤ v) :
    ∃ v', Denotes (x / 2) v' ∧ 2 ^ k ≤ v' := by
  have htwo : Denotes (2 : UInt64).toFloat (2 ^ 1) := denotes_toFloat_two_pow rfl
  rw [show (2 : UInt64).toFloat = 2 by decide +kernel, pow_one] at htwo
  have hhalf : 2 ^ k ≤ nearest (v / 2) := by
    have hle : (2 : ℚ) ^ k ≤ v / 2 := by
      rw [le_div_iff₀ two_pos, ← pow_succ]
      exact h
    exact (nearest_two_pow _).symm.trans_le (nearest_mono (by positivity) hle)
  refine ⟨_, hx.div htwo two_pos ?_, hhalf⟩
  have hmono := nearest_mono (div_nonneg hx.nonneg two_pos.le) (half_le_self hx.nonneg)
  rw [hx.nearest_eq] at hmono
  exact hmono.trans_lt hx.lt_limit

/-- With two data primes the check refuses no sum of numbers that can be encrypted. -/
theorem checkValue_add {τ : Type} {source : Sampler τ} {params : Parameters} {id : UInt64}
    {u u' : τ} (hcontext : Answers (Context.generate source params id) u ev.context u')
    (htop : 0 < ev.context.topLevel) {m n : ℤ}
    (ha : Encoding.integer? a ev.context.scale ((ev.context.primes.head?).getD 0) = some m)
    (hb : Encoding.integer? b ev.context.scale ((ev.context.primes.head?).getD 0) = some n) :
    ev.checkValue (a + b) ev.context.topLevel = .ok (a + b, ev.context.topLevel) := by
  obtain ⟨w, v, hscale, hw, hhead, hmodulus, hge⟩ := denotes_modulusAt hcontext htop
  obtain ⟨sum, hsum, hsumle⟩ := exists_denotes_scaled_sum hcontext hscale hw hhead ha hb
  obtain ⟨half, hhalf, hhalfge⟩ := exists_denotes_half hmodulus hge
  rw [checkValue, if_neg]
  rw [Bool.and_eq_true, decide_eq_true_eq, hhalf.le_iff hsum]
  rintro ⟨-, hle⟩
  -- The sum is below `2 ^ (w + 2)`, and half of the modulus is not.
  have hlt : (2 : ℚ) ^ (w + 1) < 2 ^ (w + 2) := pow_lt_pow_right₀ one_lt_two (by omega)
  exact absurd ((hhalfge.trans hle).trans hsumle) (not_le.2 hlt)

/-! ## The evaluation of a sum -/

/-- Both numbers can be encrypted, but the check refuses their sum. -/
def Overlooks (ev : Evaluator) (a b : Float) : Prop :=
  (∃ m, Encoding.integer? a ev.context.scale ((ev.context.primes.head?).getD 0) = some m) ∧
  (∃ n, Encoding.integer? b ev.context.scale ((ev.context.primes.head?).getD 0) = some n) ∧
  (a + b).isFinite ∧ ev.modulusAt ev.context.topLevel / 2 ≤ (a + b).abs * ev.context.scale

theorem checkDepth_sum : ev.checkDepth (sum a b) = .ok () :=
  checkDepth_eq_ok_iff.2 (Nat.zero_le _)

theorem rehearse_sum :
    ev.rehearse (sum a b) = ev.checkValue (a + b) ev.context.topLevel := by
  rw [sum, rehearse_binary .add (foldM_literal _ _ a) (foldM_literal _ _ b), rehearseOperator,
    min_self]

/-- The encrypted pass over a sum encrypts both numbers and adds. -/
theorem pass_sum :
    ev.pass sampler (sum a b) = (do
      let p ← Calculator.encryptPair sampler ev a b
      liftM (ev.apply .add p.1 p.2)) := by
  rw [sum, pass_binary, Calculator.encryptPair, pass, pass, foldM_literal, foldM_literal]
  simp only [bind_assoc, pure_bind]

/-- A sum that passes the check is evaluated by the encrypted pass. -/
theorem outcome_evaluate_sum
    (h : ev.checkValue (a + b) ev.context.topLevel = .ok (a + b, ev.context.topLevel)) :
    (ev.evaluate sampler (sum a b)).outcome s = (ev.pass sampler (sum a b)).outcome s :=
  outcome_evaluate checkDepth_sum (rehearse_sum.trans h)

/-- A sum that is refused is not encrypted. -/
theorem outcome_evaluate_sum_of_refused (hfinite : (a + b).isFinite)
    (h : ev.modulusAt ev.context.topLevel / 2 ≤ (a + b).abs * ev.context.scale) :
    (ev.evaluate sampler (sum a b)).outcome s =
      (Result.fail (.scheme (.valueOutOfRange (a + b))), s) := by
  have hcheck : ev.rehearse (sum a b) = .fail (.scheme (.valueOutOfRange (a + b))) := by
    rw [rehearse_sum, checkValue, hfinite, decide_eq_true h]
    rfl
  rw [evaluate, checkDepth_sum, hcheck]
  rfl

/-- With two data primes no sum is overlooked. -/
theorem topLevel_of_overlooks {τ : Type} {source : Sampler τ} {params : Parameters} {id : UInt64}
    {u u' : τ} (hcontext : Answers (Context.generate source params id) u ev.context u')
    (h : ev.Overlooks a b) : ev.context.topLevel = 0 := by
  obtain ⟨⟨m, ha⟩, ⟨n, hb⟩, hfinite, hle⟩ := h
  by_contra htop
  have hcheck := checkValue_add hcontext (Nat.pos_of_ne_zero htop) ha hb
  rw [checkValue, hfinite, decide_eq_true hle] at hcheck
  exact fail_ne_ok hcheck

/-- Two numbers that can be encrypted are encrypted and added. -/
theorem exists_sum (hsampler : sampler.Lawful) (hctx : ev.context.Working) {k : ℕ}
    (hcalibrated : ev.context.Calibrated k) {m n : ℤ}
    (ha : Encoding.integer? a ev.context.scale ((ev.context.primes.head?).getD 0) = some m)
    (hb : Encoding.integer? b ev.context.scale ((ev.context.primes.head?).getD 0) = some n)
    (s : σ) :
    ∃ x y t c, Answers (Calculator.encryptPair sampler ev a b) s (x, y) t ∧
      ev.apply .add x y = .ok c ∧ c.Valid ev.context := by
  obtain ⟨x, hx, hvalidx, -, hscalex, -⟩ := hctx.answers_encrypt hsampler ha s
  obtain ⟨y, hy, hvalidy, -, hscaley, -⟩ :=
    hctx.answers_encrypt hsampler hb (ev.context.encryptionDraws sampler s).2
  have hclose : Context.scalesDiffer x.scale y.scale = false := by
    rw [hscalex, hscaley]
    exact Context.scalesDiffer_self hcalibrated.denotes_scale (by positivity)
  obtain ⟨c, hc, hvalid, -⟩ := hctx.exists_combined hctx.combines_add? hvalidx hvalidy hclose
  refine ⟨x, y, _, c, answers_bind.2 ⟨x, _, answers_adapt.2 hx, answers_bind.2 ⟨y, _,
    answers_adapt.2 hy, answers_pure.2 ⟨rfl, rfl⟩⟩⟩, ?_, hvalid⟩
  rw [apply, Context.add_eq_combined, hc]
  rfl

/-- The encrypted pass over a sum fails with the first number that cannot be encrypted. -/
theorem exists_pass_sum_eq_fail (hsampler : sampler.Lawful) (hctx : ev.context.Working)
    (h : ¬((∃ m, Encoding.integer? a ev.context.scale ((ev.context.primes.head?).getD 0) = some m) ∧
      ∃ n, Encoding.integer? b ev.context.scale ((ev.context.primes.head?).getD 0) = some n))
    (s : σ) :
    ∃ x t, (ev.pass sampler (sum a b)).outcome s =
      (Result.fail (.scheme (.valueOutOfRange x)), t) := by
  have hfree : (sum a b).DivisionFree := ⟨nofun, trivial, trivial⟩
  have hrun := fulfils_pass hsampler hctx hfree s
  rw [sum, Context.foretell, foldM_binary, foldM_literal, foldM_literal, Context.foretellLiteral,
    Context.foretellLiteral] at hrun
  rcases ha : Encoding.integer? a ev.context.scale ((ev.context.primes.head?).getD 0) with _ | m
  · rw [ha] at hrun
    exact ⟨a, hrun⟩
  rcases hb : Encoding.integer? b ev.context.scale ((ev.context.primes.head?).getD 0) with _ | n
  · rw [ha, hb] at hrun
    exact ⟨b, hrun⟩
  · exact absurd ⟨⟨m, ha⟩, n, hb⟩ h

end Evaluator

namespace Calculator

variable {σ : Type} {S : Sampler σ} {config : Config} {c : Calculator σ} {a b : Float}
  {ctx : Context}

/-! ## Calculators of a configuration -/

/-- A calculator of a configuration, after some requests. -/
inductive Reachable (S : Sampler σ) (config : Config) : Calculator σ → Prop
  | create (keys : KeySource σ) (source : UInt64 → σ) :
    Reachable S config (create config keys source)
  | evaluate {c : Calculator σ} (h : Reachable S config c) (text : String) :
    Reachable S config (c.evaluate S text).2
  | evaluateExpression {c : Calculator σ} (h : Reachable S config c) (e : Expression) :
    Reachable S config (c.evaluateExpression S e).2
  | add {c : Calculator σ} (h : Reachable S config c) (a b : Float) :
    Reachable S config (c.add S a b).2
  | release {c : Calculator σ} (h : Reachable S config c) : Reachable S config c.release.2

/-- The calculator has the configuration, and a context that it holds was generated from its
parameters. -/
structure Configured (S : Sampler σ) (config : Config) (c : Calculator σ) : Prop where
  config_eq : c.config = config
  params_eq : c.cache.params = config.context
  held : ∀ ctx, c.cache.held? = some ctx →
    ∃ id s s', Answers (Context.generate S config.context id) s ctx s'

/-- The context that a request gets is one of the configuration, and so is the calculator that it
leaves. -/
theorem Configured.fetch (h : c.Configured S config) :
    (c.fetch S).2.Configured S config ∧ ∀ ctx, (c.fetch S).1 = .ok ctx →
      ∃ id s s', Answers (Context.generate S config.context id) s ctx s' := by
  obtain ⟨hconfig, hparams, hheld⟩ := h
  rw [Calculator.fetch, ContextCache.fetch]
  rcases hctx : c.cache.held? with _ | ctx
  · -- With nothing held, the context is generated from the configured parameters.
    rcases hbuilt : (Context.generate S c.cache.params c.cache.nextId).run c.cache.source.start with
      ⟨e | ctx, t⟩
    · exact ⟨⟨hconfig, hparams, nofun⟩, nofun⟩
    · have hanswer : ∃ id s s', Answers (Context.generate S config.context id) s ctx s' :=
        ⟨c.cache.nextId, c.cache.source.start, t, hparams ▸ hbuilt⟩
      refine ⟨⟨hconfig, hparams, ?_⟩, ?_⟩
      · rintro ctx' ⟨⟩
        exact hanswer
      · rintro ctx' ⟨⟩
        exact hanswer
  · refine ⟨⟨hconfig, hparams, hheld⟩, ?_⟩
    rintro ctx' ⟨⟩
    exact hheld ctx hctx

/-- What a request leaves: nothing but a context and the number of requests has changed. -/
theorem Configured.evaluator (h : c.Configured S config) (ctx : Context) :
    (c.evaluator ctx).2.2.Configured S config :=
  ⟨h.config_eq, h.params_eq, h.held⟩

theorem Configured.evaluateExpression (h : c.Configured S config) (e : Expression) :
    (c.evaluateExpression S e).2.Configured S config := by
  have hfetch := h.fetch.1
  rw [Calculator.evaluateExpression]
  rcases hc : c.fetch S with ⟨_ | ctx, c'⟩ <;> rw [hc] at hfetch
  · exact hfetch
  · exact hfetch.evaluator ctx

/-- Both requests leave the same calculator. -/
theorem add_snd_eq (e : Expression) : (c.add S a b).2 = (c.evaluateExpression S e).2 := by
  rw [add, Calculator.evaluateExpression]
  rcases c.fetch S with ⟨_ | ctx, c'⟩ <;> rfl

/-- Every calculator of a configuration stays one. -/
theorem Reachable.configured (h : c.Reachable S config) : c.Configured S config := by
  induction h with
  | create => exact ⟨rfl, rfl, nofun⟩
  | @evaluate c _ text ih =>
    rw [Calculator.evaluate]
    split
    · exact ih
    · exact ih.evaluateExpression _
  | evaluateExpression _ e ih => exact ih.evaluateExpression e
  | add _ a b ih =>
    rw [add_snd_eq (sum a b)]
    exact ih.evaluateExpression _
  | release _ ih => exact ⟨ih.config_eq, ih.params_eq, nofun⟩

/-! ## Adding and evaluating a sum -/

/-- The two requests end in the same value or in the same kind of failure. -/
def Agree (added : Except Fault SumReport) (evaluated : Except Fault Outcome) : Prop :=
  (added.map fun report => (report.outcome.value?, report.outcome.kind?)) =
    evaluated.map fun outcome => (outcome.value?, outcome.kind?)

theorem evaluateExpression_fst {c' : Calculator σ} (hc : c.fetch S = (.ok ctx, c'))
    (e : Expression) :
    (c.evaluateExpression S e).1 = Outcome.ofResult ctx
      (((Evaluator.create ctx c'.config.zeroTolerance).evaluate S e).outcome
        (c'.source c'.requests)).1 := by
  rw [Calculator.evaluateExpression, hc]
  rfl

/-- An addition whose numbers can be encrypted tells the sizes of both ciphertexts. -/
theorem add_fst_of_answers {c' : Calculator σ} (hc : c.fetch S = (.ok ctx, c'))
    {x y : Ciphertext} {t : σ}
    (hpair : Answers (encryptPair S (Evaluator.create ctx c'.config.zeroTolerance) a b)
      (c'.source c'.requests) (x, y) t) :
    (c.add S a b).1 =
      (Outcome.ofResult ctx ((Evaluator.create ctx c'.config.zeroTolerance).apply .add x y)).map
        (⟨some (x.toBytes.length, y.toBytes.length), ·⟩) := by
  have hrun : (encryptPair S (c'.evaluator ctx).1 a b).run (c'.evaluator ctx).2.1 = _ := hpair
  rw [add, hc]
  dsimp only
  rw [hrun]
  rfl

/-- The outcome of an addition is that of the encrypted pass over the sum. -/
theorem add_outcome {c' : Calculator σ} (hc : c.fetch S = (.ok ctx, c')) :
    (c.add S a b).1.map SumReport.outcome = Outcome.ofResult ctx
      (((Evaluator.create ctx c'.config.zeroTolerance).pass S (sum a b)).outcome
        (c'.source c'.requests)).1 := by
  rw [Evaluator.pass_sum, outcome_bind]
  rcases hpair : (encryptPair S (Evaluator.create ctx c'.config.zeroTolerance) a b).outcome
    (c'.source c'.requests) with ⟨e | ⟨x, y⟩, t⟩
  · have hrun : (encryptPair S (c'.evaluator ctx).1 a b).run (c'.evaluator ctx).2.1 = _ := hpair
    rw [add, hc]
    dsimp only
    rw [hrun]
    cases e <;> rfl
  · rw [add_fst_of_answers hc hpair]
    change _ = Outcome.ofResult ctx
      ((Evaluator.create ctx c'.config.zeroTolerance).apply .add x y)
    rcases Outcome.ofResult ctx _ with f | outcome <;> rfl

theorem agree_iff {added : Except Fault SumReport} {evaluated : Except Fault Outcome} :
    Agree added evaluated ↔
      ((added.map SumReport.outcome).map fun outcome => (outcome.value?, outcome.kind?)) =
        evaluated.map fun outcome => (outcome.value?, outcome.kind?) := by
  rw [Agree]
  rcases added with f | report <;> rfl

theorem ofResult_ok {out : Ciphertext} {value : Float} (h : ctx.decrypt out = .ok value) :
    Outcome.ofResult ctx (.ok out) = .ok (.success value) := by
  have hvalue : ((.ok out : Result RequestError Ciphertext).bind fun out =>
      Result.mapError RequestError.ofScheme (ctx.decrypt out)) = .ok value :=
    Result.mapError_eq_ok_iff.2 h
  rw [Outcome.ofResult, hvalue]

/-- An overlooked sum is added, although its evaluation refuses it. -/
theorem add_of_overlooks {c' : Calculator σ} (hS : S.Lawful) (hc : c.fetch S = (.ok ctx, c'))
    (hctx : ctx.Working) {k : ℕ} (hcalibrated : ctx.Calibrated k)
    (h : (Evaluator.create ctx c'.config.zeroTolerance).Overlooks a b) :
    (∃ sizes value, (c.add S a b).1 = .ok ⟨some sizes, .success value⟩) ∧
      (c.evaluateExpression S (sum a b)).1 =
        .ok (.ofError (.scheme (.valueOutOfRange (a + b)))) := by
  obtain ⟨⟨m, ha⟩, ⟨n, hb⟩, hfinite, hle⟩ := h
  constructor
  · obtain ⟨x, y, t, out, hpair, hout, hvalid⟩ :=
      Evaluator.exists_sum hS hctx hcalibrated ha hb (c'.source c'.requests)
    obtain ⟨value, hvalue⟩ := hctx.exists_decrypt hvalid
    refine ⟨(x.toBytes.length, y.toBytes.length), value, ?_⟩
    rw [add_fst_of_answers hc hpair, hout, ofResult_ok hvalue]
    rfl
  · rw [evaluateExpression_fst hc, Evaluator.outcome_evaluate_sum_of_refused hfinite hle]
    rfl

/-- Any other sum ends in the same way when it is added and when it is evaluated. -/
theorem agree_of_not_overlooks {c' : Calculator σ} (hS : S.Lawful)
    (hc : c.fetch S = (.ok ctx, c')) (hctx : ctx.Working)
    (h : ¬(Evaluator.create ctx c'.config.zeroTolerance).Overlooks a b) :
    Agree (c.add S a b).1 (c.evaluateExpression S (sum a b)).1 := by
  rw [agree_iff, add_outcome hc, evaluateExpression_fst hc]
  set ev := Evaluator.create ctx c'.config.zeroTolerance
  by_cases hrefused : (a + b).isFinite ∧
      ev.modulusAt ev.context.topLevel / 2 ≤ (a + b).abs * ev.context.scale
  · -- One of the numbers cannot be encrypted, so the addition fails as well.
    obtain ⟨x, t, hfail⟩ := Evaluator.exists_pass_sum_eq_fail hS hctx
      (fun hboth => h ⟨hboth.1, hboth.2, hrefused⟩) (c'.source c'.requests)
    rw [hfail, Evaluator.outcome_evaluate_sum_of_refused hrefused.1 hrefused.2]
    rfl
  · have hpass : ev.checkValue (a + b) ev.context.topLevel = .ok (a + b, ev.context.topLevel) := by
      rw [Evaluator.checkValue, if_neg]
      rwa [Bool.and_eq_true, decide_eq_true_eq]
    rw [Evaluator.outcome_evaluate_sum hpass]

/-- A calculator of a configuration, whatever it was asked before, ends an addition and the
evaluation of the same sum in the same value or in the same kind of failure, and in the same state,
unless its context overlooks the sum. That takes a context with one data prime. There both numbers
are encrypted and added to some value, while the evaluation refuses the sum. -/
theorem add_agrees_iff (hS : S.Lawful) (hc : c.Reachable S config)
    (htest : ∀ primes, Context.choosePrimes config.context = .ok primes →
      ∀ q ∈ primes, TestExact q) (a b : Float) :
    (c.add S a b).2 = (c.evaluateExpression S (sum a b)).2 ∧
    (Agree (c.add S a b).1 (c.evaluateExpression S (sum a b)).1 ↔
      ∀ ctx, (c.fetch S).1 = .ok ctx →
        ¬(Evaluator.create ctx config.zeroTolerance).Overlooks a b) ∧
    ∀ ctx, (c.fetch S).1 = .ok ctx →
      (Evaluator.create ctx config.zeroTolerance).Overlooks a b →
        config.context.widths.length = 2 ∧
        (∃ sizes value, (c.add S a b).1 = .ok ⟨some sizes, .success value⟩) ∧
        (c.evaluateExpression S (sum a b)).1 =
          .ok (.ofError (.scheme (.valueOutOfRange (a + b)))) := by
  obtain ⟨hconfigured, hgenerated⟩ := hc.configured.fetch
  refine ⟨add_snd_eq _, ?_⟩
  rcases hfetch : c.fetch S with ⟨e | ctx, c'⟩
  · -- Without a context both requests are refused.
    refine ⟨⟨fun _ _ h => (nomatch h), fun _ => ?_⟩, fun _ h => (nomatch h)⟩
    rw [agree_iff, add, Calculator.evaluateExpression, hfetch]
    cases e <;> rfl
  rw [hfetch] at hconfigured hgenerated
  obtain ⟨id, s, s', hcontext⟩ := hgenerated ctx rfl
  obtain ⟨-, -, -, hcheck, ⟨primes, hprimes, hchain⟩, -⟩ := Context.generate_cases hcontext
  have hchosen : ctx.primes = primes := ModulusChain.primes_of_build hchain
  have hworking := Context.working_of_generate hS hcontext (hchosen ▸ htest primes hprimes)
  have hcalibrated := Context.calibrated_of_generate hcontext
  rw [← hconfigured.config_eq]
  have hadd := fun h => add_of_overlooks (a := a) (b := b) hS hfetch hworking hcalibrated h
  refine ⟨⟨?_, ?_⟩, ?_⟩
  · rintro hagree ctx' ⟨⟩ h
    obtain ⟨⟨sizes, value, hvalue⟩, hrefused⟩ := hadd h
    rw [Agree, hvalue, hrefused] at hagree
    cases hagree
  · intro hnone
    exact agree_of_not_overlooks hS hfetch hworking (hnone ctx rfl)
  · rintro ctx' ⟨⟩ h
    refine ⟨?_, hadd h⟩
    -- The top level is the lowest one, and it counts the primes.
    have htop : ctx.topLevel = 0 := Evaluator.topLevel_of_overlooks
      (show Answers _ s (Evaluator.create ctx c'.config.zeroTolerance).context s' from hcontext) h
    obtain ⟨leading, middle, special, hshape⟩ := (Parameters.accepted_of_check hcheck).shape
    have hlength := (Context.primes_of_choosePrimes hprimes).2.length_eq
    rw [Context.topLevel_of_primes hchosen] at htop
    rw [hconfigured.config_eq]
    rw [hshape.widths_eq, List.length_cons, List.length_append, List.length_singleton]
      at hlength ⊢
    omega

/-- The smallest ring with one data prime. -/
def onePrime : Config where
  context := { Context.smallest with widths := [22, 22] }

/-- In the smallest ring with one data prime the sum of `3 / 2` and `3 / 2` is overlooked. -/
theorem add_disagrees_onePrime :
    ∃ (c : Calculator Unit) (sizes : ℕ × ℕ) (value : Float),
      c.Reachable Sampler.steady onePrime ∧
      (c.add Sampler.steady 1.5 1.5).1 = .ok ⟨some sizes, .success value⟩ ∧
      (c.evaluateExpression Sampler.steady (sum 1.5 1.5)).1 =
        .ok (.ofError (.scheme (.valueOutOfRange (1.5 + 1.5)))) ∧
      ¬Agree (c.add Sampler.steady 1.5 1.5).1
        (c.evaluateExpression Sampler.steady (sum 1.5 1.5)).1 := by
  have hok : ((Context.generate Sampler.steady onePrime.context 1).outcome ()).1.isOk := by
    decide +kernel
  have hchosen : (Context.choosePrimes onePrime.context).toOption = some [4193633, 4193569] := by
    decide +kernel
  obtain ⟨ctx, hctx, hprimes, htest⟩ :=
    Context.exists_of_isOk hok hchosen (by norm_num [UInt64.toNat_ofNat])
  obtain ⟨-, -, hscale, -⟩ := Context.generate_cases hctx
  have htop : ctx.topLevel = 0 := Context.topLevel_of_primes hprimes
  let c : Calculator Unit := create onePrime (.fixed ()) fun _ => ()
  have hreach : c.Reachable Sampler.steady onePrime := .create _ _
  have hfetch : (c.fetch Sampler.steady).1 = .ok ctx := by
    have hrun : (Context.generate Sampler.steady c.cache.params c.cache.nextId).run
        c.cache.source.start = (.ok ctx, ()) := hctx
    rw [fetch, ContextCache.fetch, show c.cache.held? = none from rfl]
    dsimp only
    rw [hrun]
  have hoverlooks : (Evaluator.create ctx onePrime.zeroTolerance).Overlooks 1.5 1.5 := by
    have hinteger : (Encoding.integer? 1.5 ctx.scale ((ctx.primes.head?).getD 0)).isSome := by
      rw [hscale, hprimes]
      decide +kernel
    have hsome := Option.isSome_iff_exists.1 hinteger
    refine ⟨hsome, hsome, by decide +kernel, ?_⟩
    rw [Evaluator.modulusAt, Evaluator.create, hscale, hprimes, htop]
    decide +kernel
  have htestAll : ∀ primes, Context.choosePrimes onePrime.context = .ok primes →
      ∀ q ∈ primes, TestExact q := by
    intro primes hprimes'
    rw [hprimes'] at hchosen
    obtain rfl : primes = _ := Option.some.inj hchosen
    exact hprimes ▸ htest
  obtain ⟨-, hagree, hadd⟩ :=
    add_agrees_iff Sampler.lawful_steady hreach htestAll 1.5 1.5
  obtain ⟨-, ⟨sizes, value, hvalue⟩, hrefused⟩ := hadd ctx hfetch hoverlooks
  exact ⟨c, sizes, value, hreach, hvalue, hrefused,
    fun h => hagree.1 h ctx hfetch hoverlooks⟩

end Calculator

end EncryptedArithmetic

import EncryptedArithmetic.Proofs.Decimal.Arithmetic
import EncryptedArithmetic.Proofs.Scheme.Scale

/-!
# How far the scales of products drift

A product has the product of the scales divided by the prime that is dropped. The primes that are
dropped are as wide as the scale of a fresh ciphertext but smaller, so the scales of products grow,
and they grow fastest when a fresh ciphertext is squared again and again. Whatever else is added or
multiplied has a scale between that of a fresh ciphertext and that of the squares at its level. If
every square may be added to a fresh ciphertext, the scales of all summands are close enough.

## Main definitions

* `Context.drifted`: the scale of a fresh ciphertext that was squared some times.
* `Context.Steady`: every such square may be added to a fresh ciphertext.
* `Context.Calibrated`: the primes that are dropped are as wide as the scale.
* `Context.Within`: a scale between that of a fresh ciphertext and that of the squares.

## Main results

* `calibrated_of_generate`: every context that was generated is calibrated.
* `Within.product` and `Within.scalesDiffer_eq_false`: the scales of products and of summands.
-/

namespace EncryptedArithmetic

open Binary64

/-! ## Rounded quotients of products -/

namespace Binary64

/-- The product of two numbers divided by a third one, rounded after either step. -/
def rescaled (q v w : ℚ) : ℚ :=
  nearest (nearest (v * w) / q)

variable {q v w v' w' : ℚ} {x y : Float}

theorem rescaled_mono (hq : 0 < q) (hv : 0 ≤ v) (hw : 0 ≤ w) (hvv : v ≤ v') (hww : w ≤ w') :
    rescaled q v w ≤ rescaled q v' w' := by
  have hproduct : nearest (v * w) ≤ nearest (v' * w') :=
    nearest_mono (mul_nonneg hv hw) (mul_le_mul hvv hww hw (hv.trans hvv))
  have hnonneg : 0 ≤ nearest (v * w) / q := div_nonneg (nearest_nonneg (mul_nonneg hv hw)) hq.le
  exact nearest_mono hnonneg (div_le_div_of_nonneg_right hproduct hq.le)

/-- Of numbers within a range none are relatively further apart than its ends. -/
theorem div_max_le {s d : ℚ} (hs : 0 < s) (hsv : s ≤ v) (hsw : s ≤ w) (hvd : v ≤ d) (hwd : w ≤ d) :
    |v - w| / max v w ≤ (d - s) / d := by
  wlog hle : v ≤ w generalizing v w
  · rw [abs_sub_comm, max_comm]
    exact this hsw hsv hwd hvd (le_of_not_ge hle)
  have hproduct : s * w ≤ v * d := mul_le_mul hsv hwd (by linarith) (by linarith)
  rw [max_eq_right hle, abs_of_nonpos (sub_nonpos.2 hle),
    div_le_div_iff₀ (by linarith) (by linarith)]
  linarith

namespace Denotes

/-- Multiples by powers of two are not rounded. -/
theorem nearest_two_pow_mul (hx : Denotes x v) (k : ℕ) : nearest (2 ^ k * v) = 2 ^ k * v := by
  rcases hx with ⟨rfl, -⟩ | ⟨m, e, h, -, rfl⟩
  · rw [mul_zero, nearest_zero]
  · have hvalue : (2 : ℚ) ^ k * (m * 2 ^ e) = m * 2 ^ (e + k) := by
      rw [zpow_add₀ two_ne_zero, zpow_natCast]
      ring
    have hleast := h.least
    rw [hvalue, nearest_eq_self h.lt (by omega)]

/-- A float is not decreased by a larger power of two that is divided by a smaller number. -/
theorem le_rescaled (hx : Denotes x v) {k : ℕ} (hq : 0 < q) (hle : q ≤ 2 ^ k) :
    v ≤ rescaled q (2 ^ k) v := by
  have hquotient : v ≤ 2 ^ k * v / q := by
    rw [le_div_iff₀ hq, mul_comm]
    exact mul_le_mul_of_nonneg_right hle hx.nonneg
  rw [rescaled, hx.nearest_two_pow_mul]
  exact hx.nearest_eq.symm.le.trans (nearest_mono hx.nonneg hquotient)

end Denotes

end Binary64

namespace Context

variable {ctx : Context} {b level : ℕ} {x y : Float}

/-! ## The primes that are dropped -/

/-- The scale of a product at a level. -/
def productScale (ctx : Context) (level : ℕ) (x y : Float) : Float :=
  x * y / (ctx.primes.getD level 0).toFloat

/-- The scale is `2 ^ b`, and so is the width of every prime that products divide by. -/
structure Calibrated (ctx : Context) (b : ℕ) : Prop where
  scaled : ctx.Scaled b
  prime_le : ∀ level, 0 < level → level ≤ ctx.topLevel → (ctx.primes.getD level 0).toNat ≤ 2 ^ b
  le_prime : ∀ level, 0 < level → level ≤ ctx.topLevel →
    2 ^ b ≤ 2 * (ctx.primes.getD level 0).toNat

/-- A context of parameters that were accepted is calibrated. -/
theorem calibrated_of_generate {σ : Type} {sampler : Sampler σ} {params : Parameters}
    {id : UInt64} {s s' : σ} (h : Answers (generate sampler params id) s ctx s') :
    ctx.Calibrated params.scaleBits.toNat := by
  have hscaled := scaled_of_generate h
  obtain ⟨-, -, -, hcheck, ⟨primes, hprimes, hchain⟩, -⟩ := generate_cases h
  obtain ⟨leading, middle, special, hshape⟩ := (Parameters.accepted_of_check hcheck).shape
  have hwidths := (primes_of_choosePrimes hprimes).2
  have hchosen : ctx.primes = primes := ModulusChain.primes_of_build hchain
  have hlength := hwidths.length_eq
  rw [hshape.widths_eq, List.length_cons, List.length_append, List.length_singleton] at hlength
  -- The primes between the first one and the special one have the width of the scale.
  have hwidth {level : ℕ} (hpos : 0 < level) (hle : level ≤ ctx.topLevel) :
      Modular.OfWidth params.scaleBits (ctx.primes.getD level 0) := by
    have htop : ctx.topLevel = middle.length := by
      rw [topLevel_of_primes hchosen]
      omega
    obtain ⟨j, rfl⟩ := Nat.exists_eq_add_of_lt hpos
    rw [Nat.zero_add] at hle ⊢
    have hj : j < middle.length := by omega
    have hlt : j + 1 < primes.length := by omega
    have hget : params.widths[j + 1]? = some middle[j] := by
      rw [hshape.widths_eq, List.getElem?_cons_succ, List.getElem?_append_left hj,
        List.getElem?_eq_getElem hj]
    obtain ⟨hlt', hget⟩ := List.getElem?_eq_some_iff.1 hget
    have hofWidth := (List.forall₂_iff_get.1 hwidths).2 (j + 1) hlt' hlt
    rw [List.get_eq_getElem, List.get_eq_getElem, hget,
      hshape.middle_eq _ (List.getElem_mem hj)] at hofWidth
    rwa [hchosen, List.getD_eq_getElem?_getD, List.getElem?_eq_getElem hlt, Option.getD_some]
  refine ⟨hscaled, fun level hpos hle => (hwidth hpos hle).upper.le, fun level hpos hle => ?_⟩
  obtain ⟨hbits, hlower, -, -⟩ := hwidth hpos hle
  calc 2 ^ params.scaleBits.toNat = 2 * 2 ^ (params.scaleBits.toNat - 1) := by
        rw [← pow_succ', Nat.sub_add_cancel hbits]
    _ ≤ _ := Nat.mul_le_mul_left 2 hlower

namespace Calibrated

variable {v w : ℚ}

/-- The prime that is dropped at a level, as a float. -/
theorem nearest_prime (h : ctx.Calibrated b) (hpos : 0 < level) (hle : level ≤ ctx.topLevel) :
    nearest (ctx.primes.getD level 0).toNat ≤ 2 ^ b ∧
      2 ^ b ≤ 2 * nearest (ctx.primes.getD level 0).toNat := by
  have hupper : ((ctx.primes.getD level 0).toNat : ℚ) ≤ 2 ^ b := by
    exact_mod_cast h.prime_le level hpos hle
  have hlower : (2 : ℚ) ^ b ≤ 2 * (ctx.primes.getD level 0).toNat := by
    exact_mod_cast h.le_prime level hpos hle
  have hhalf : (2 : ℚ) ^ b / 2 = (1 : ℕ) * 2 ^ ((b : ℤ) - 1) := by
    rw [zpow_sub_one₀ two_ne_zero, zpow_natCast, Nat.cast_one, one_mul, div_eq_mul_inv]
  constructor
  · exact (nearest_mono (Nat.cast_nonneg _) hupper).trans_eq (nearest_two_pow b)
  · have hhalfle : (2 : ℚ) ^ b / 2 ≤ (ctx.primes.getD level 0).toNat := by linarith
    have hmono := nearest_mono (by positivity) hhalfle
    rw [hhalf, nearest_eq_self (by norm_num) (by omega), ← hhalf] at hmono
    linarith

theorem denotes_scale (h : ctx.Calibrated b) : Denotes ctx.scale (2 ^ b) := by
  have hvalue : ((2 ^ 52 : ℕ) : ℚ) * 2 ^ ((b : ℤ) - 52) = 2 ^ b := by
    rw [zpow_sub₀ two_ne_zero, zpow_natCast]
    norm_num
    ring
  have hfull : Canonical (2 ^ 52) ((b : ℤ) - 52) :=
    ⟨by norm_num, by norm_num, by omega, Or.inl le_rfl⟩
  exact Or.inr ⟨_, _, hfull, h.scaled.unpack_scale, hvalue⟩

/-- The scale of a product whose factors are at most twice the scale of the context. -/
theorem denotes_productScale (h : ctx.Calibrated b) (hpos : 0 < level) (hle : level ≤ ctx.topLevel)
    (hx : Denotes x v) (hy : Denotes y w) (hv : v ≤ 2 * 2 ^ b) (hw : w ≤ 2 * 2 ^ b) :
    Denotes (ctx.productScale level x y) (rescaled (nearest (ctx.primes.getD level 0).toNat) v w) ∧
      rescaled (nearest (ctx.primes.getD level 0).toNat) v w ≤ 8 * 2 ^ b := by
  obtain ⟨-, hlower⟩ := h.nearest_prime hpos hle
  have hbits := h.scaled.bits_lt
  have hone : (1 : ℚ) ≤ 2 ^ b := one_le_pow₀ (by norm_num)
  set q := nearest (ctx.primes.getD level 0).toNat with hq
  have hqpos : 0 < q := by linarith
  -- The product is at most `2 ^ (2 * b + 2)`, and its quotient at most `2 ^ (b + 3)`.
  have hproduct : nearest (v * w) ≤ 2 ^ (2 * b + 2) := by
    have hvw : v * w ≤ 2 ^ (2 * b + 2) := by
      calc v * w ≤ 2 * 2 ^ b * (2 * 2 ^ b) := mul_le_mul hv hw hy.nonneg (by positivity)
        _ = 2 ^ (2 * b + 2) := by ring
    exact (nearest_mono (mul_nonneg hx.nonneg hy.nonneg) hvw).trans_eq (nearest_two_pow _)
  have hnonneg : 0 ≤ nearest (v * w) := nearest_nonneg (mul_nonneg hx.nonneg hy.nonneg)
  have hrescaled : rescaled q v w ≤ 2 ^ (b + 3) := by
    have hquotient : nearest (v * w) / q ≤ 2 ^ (b + 3) := by
      rw [div_le_iff₀ hqpos]
      calc nearest (v * w) ≤ 2 ^ (2 * b + 2) := hproduct
        _ = 4 * 2 ^ b * 2 ^ b := by ring
        _ ≤ 4 * 2 ^ b * (2 * q) := by gcongr
        _ = 2 ^ (b + 3) * q := by ring
    exact (nearest_mono (div_nonneg hnonneg hqpos.le) hquotient).trans_eq (nearest_two_pow _)
  refine ⟨?_, hrescaled.trans_eq (by ring)⟩
  have hmul := hx.mul hy (hproduct.trans_lt (two_pow_lt_limit (by omega)))
  exact hmul.div (denotes_toFloat _) hqpos (hrescaled.trans_lt (two_pow_lt_limit (by omega)))

end Calibrated

/-! ## Scales that may be added -/

/-- The tolerance for the scales of summands. -/
theorem denotes_scaleSlack : Denotes scaleSlack (exact scaleSlack) ∧ exact scaleSlack < 1 / 8 := by
  have hunpack : scaleSlack.toModel.unpack = .finite .positive 4611686018427388 (-62) (by decide) :=
    unpack_of_ofFloat? (by decide +kernel) (by decide)
  have hfull : Canonical 4611686018427388 (-62) :=
    ⟨by norm_num, by norm_num, by norm_num, Or.inl (by norm_num)⟩
  have hdenotes : Denotes scaleSlack ((4611686018427388 : ℕ) * 2 ^ (-62 : ℤ)) :=
    Or.inr ⟨_, _, hfull, hunpack, rfl⟩
  rw [hdenotes.exact_eq]
  exact ⟨hdenotes, by norm_num⟩

/-- The test of two scales compares their relative distance, rounded after every step, with the
tolerance. -/
theorem scalesDiffer_eq_false_iff {v w : ℚ} (hx : Denotes x v) (hy : Denotes y w) (hv : 0 < v) :
    scalesDiffer x y = false ↔ nearest (nearest |v - w| / max v w) ≤ exact scaleSlack := by
  have hpos : 0 < max v w := lt_max_of_lt_left hv
  have hmax := hx.max hy
  have hdistance := hx.abs_sub hy
  -- The distance is at most the larger of the two.
  have hle : nearest |v - w| ≤ max v w := by
    have habs : |v - w| ≤ max v w :=
      abs_sub_le_of_nonneg_of_le hx.nonneg (le_max_left v w) hy.nonneg (le_max_right v w)
    exact (nearest_mono (abs_nonneg _) habs).trans_eq hmax.nearest_eq
  have hlt : nearest (nearest |v - w| / max v w) < limit := by
    have hone := nearest_mono (div_nonneg hdistance.nonneg hpos.le) ((div_le_one hpos).2 hle)
    refine hone.trans_lt ?_
    rw [show (1 : ℚ) = 2 ^ 0 from rfl, nearest_two_pow, limit, pow_zero]
    exact one_lt_zpow₀ one_lt_two (by norm_num)
  have hquotient := hdistance.div hmax hpos hlt
  rw [scalesDiffer, decide_eq_false_iff_not, denotes_scaleSlack.1.lt_iff hquotient, not_lt]

/-- A scale is not too far apart from itself. -/
theorem scalesDiffer_self {v : ℚ} (hx : Denotes x v) (hv : 0 < v) : scalesDiffer x x = false := by
  rw [scalesDiffer_eq_false_iff hx hx hv, sub_self, abs_zero, nearest_zero, zero_div, nearest_zero]
  exact denotes_scaleSlack.1.nonneg

/-- A scale that may be added to that of the context is at most twice as large. -/
theorem Calibrated.le_of_scalesDiffer_eq_false (h : ctx.Calibrated b) {v : ℚ} (hx : Denotes x v)
    (hge : 2 ^ b ≤ v) (hle : v ≤ 8 * 2 ^ b) (hclose : scalesDiffer x ctx.scale = false) :
    v ≤ 2 * 2 ^ b := by
  have hpos : (0 : ℚ) < 2 ^ b := by positivity
  rw [scalesDiffer_eq_false_iff hx h.denotes_scale (hpos.trans_le hge), max_eq_left hge,
    abs_of_nonneg (sub_nonneg.2 hge)] at hclose
  -- Otherwise the relative distance would be at least an eighth.
  by_contra! hlarge
  have hdistance : 2 ^ b ≤ nearest (v - 2 ^ b) := by
    have hmono := nearest_mono hpos.le (show 2 ^ b ≤ v - 2 ^ b by linarith)
    rwa [nearest_two_pow] at hmono
  have hquotient : (1 : ℕ) * 2 ^ (-3 : ℤ) ≤ nearest (v - 2 ^ b) / v := by
    rw [le_div_iff₀ (hpos.trans_le hge), Nat.cast_one, one_mul]
    norm_num
    linarith
  have hmono := nearest_mono (by positivity) hquotient
  rw [nearest_eq_self (by norm_num) (by norm_num)] at hmono
  have hslack := denotes_scaleSlack.2
  norm_num at hmono
  linarith

/-! ## Squares of a fresh ciphertext -/

/-- The scale of a fresh ciphertext after it was squared some times, each time one level lower. -/
def drifted (ctx : Context) : ℕ → Float
  | 0 => ctx.scale
  | k + 1 => ctx.productScale (ctx.topLevel - k) (ctx.drifted k) (ctx.drifted k)

/-- Every square of a fresh ciphertext may be added to a fresh ciphertext. -/
def Steady (ctx : Context) : Prop :=
  ∀ k ≤ ctx.topLevel, scalesDiffer (ctx.drifted k) ctx.scale = false

instance (ctx : Context) : Decidable ctx.Steady :=
  inferInstanceAs (Decidable (∀ k ≤ ctx.topLevel, scalesDiffer (ctx.drifted k) ctx.scale = false))

namespace Steady

/-- The scales of squares are at least that of the context and at most twice as large, and every
further square has a larger one. -/
theorem drifted_spec (hsteady : ctx.Steady) (h : ctx.Calibrated b) {k : ℕ} (hk : k ≤ ctx.topLevel) :
    Denotes (ctx.drifted k) (exact (ctx.drifted k)) ∧ 2 ^ b ≤ exact (ctx.drifted k) ∧
      exact (ctx.drifted k) ≤ 2 * 2 ^ b ∧
      (k < ctx.topLevel → exact (ctx.drifted k) ≤ exact (ctx.drifted (k + 1))) := by
  -- What is known of one square tells what the next one is.
  have hnext {k : ℕ} {v : ℚ} (hk : k < ctx.topLevel) (hv : Denotes (ctx.drifted k) v)
      (hge : 2 ^ b ≤ v) (hle : v ≤ 2 * 2 ^ b) :
      ∃ w, Denotes (ctx.drifted (k + 1)) w ∧ v ≤ w ∧ w ≤ 8 * 2 ^ b := by
    have hpos : 0 < ctx.topLevel - k := by omega
    obtain ⟨hdenotes, hbound⟩ :=
      h.denotes_productScale hpos (Nat.sub_le _ _) hv hv hle hle
    obtain ⟨hupper, hlower⟩ := h.nearest_prime hpos (Nat.sub_le _ _)
    have hqpos : 0 < nearest (ctx.primes.getD (ctx.topLevel - k) 0).toNat := by
      have : (0 : ℚ) < 2 ^ b := by positivity
      linarith
    have hgrows := (hv.le_rescaled hqpos hupper).trans
      (rescaled_mono hqpos (by positivity) hv.nonneg hge le_rfl)
    exact ⟨_, hdenotes, hgrows, hbound⟩
  have hspec : Denotes (ctx.drifted k) (exact (ctx.drifted k)) ∧ 2 ^ b ≤ exact (ctx.drifted k) ∧
      exact (ctx.drifted k) ≤ 2 * 2 ^ b := by
    induction k with
    | zero =>
      have hscale := h.denotes_scale
      have hpos : (0 : ℚ) < 2 ^ b := by positivity
      rw [drifted, hscale.exact_eq]
      exact ⟨hscale, le_rfl, by linarith⟩
    | succ k ih =>
      obtain ⟨hv, hge, hle⟩ := ih (by omega)
      obtain ⟨w, hw, hvw, hbound⟩ := hnext (by omega) hv hge hle
      rw [hw.exact_eq]
      exact ⟨hw, hge.trans hvw,
        h.le_of_scalesDiffer_eq_false hw (hge.trans hvw) hbound (hsteady (k + 1) hk)⟩
  refine ⟨hspec.1, hspec.2.1, hspec.2.2, fun hlt => ?_⟩
  obtain ⟨w, hw, hvw, -⟩ := hnext hlt hspec.1 hspec.2.1 hspec.2.2
  rwa [hw.exact_eq]

/-- More squares have a larger scale. -/
theorem exact_drifted_mono (hsteady : ctx.Steady) (h : ctx.Calibrated b) {j k : ℕ} (hjk : j ≤ k)
    (hk : k ≤ ctx.topLevel) : exact (ctx.drifted j) ≤ exact (ctx.drifted k) := by
  induction k, hjk using Nat.le_induction with
  | base => exact le_rfl
  | succ k hjk ih =>
    obtain ⟨-, -, -, hgrows⟩ := hsteady.drifted_spec h (show k ≤ ctx.topLevel by omega)
    exact (ih (by omega)).trans (hgrows (by omega))

end Steady

/-! ## All other scales -/

/-- The scale of a ciphertext at a level: at least that of a fresh ciphertext, and at most that of
the squares at this level. -/
structure Within (ctx : Context) (b : ℕ) (x : Float) (level : ℕ) : Prop where
  level_le : level ≤ ctx.topLevel
  denotes : Denotes x (exact x)
  ge : 2 ^ b ≤ exact x
  le : exact x ≤ exact (ctx.drifted (ctx.topLevel - level))

theorem Calibrated.within_scale (h : ctx.Calibrated b) : ctx.Within b ctx.scale ctx.topLevel := by
  have hscale := h.denotes_scale
  have hexact := hscale.exact_eq
  refine ⟨le_rfl, hexact.symm ▸ hscale, hexact.ge, ?_⟩
  rw [Nat.sub_self, drifted]

namespace Within

/-- The squares have a larger scale at a lower level. -/
theorem lower (hx : ctx.Within b x level) (hsteady : ctx.Steady) (h : ctx.Calibrated b)
    {level' : ℕ} (hle : level' ≤ level) : ctx.Within b x level' where
  level_le := hle.trans hx.level_le
  denotes := hx.denotes
  ge := hx.ge
  le := hx.le.trans (hsteady.exact_drifted_mono h (by omega) (Nat.sub_le _ _))

theorem le_two_mul (hx : ctx.Within b x level) (hsteady : ctx.Steady) (h : ctx.Calibrated b) :
    exact x ≤ 2 * 2 ^ b := by
  obtain ⟨-, -, hle, -⟩ := hsteady.drifted_spec h (Nat.sub_le ctx.topLevel level)
  exact hx.le.trans hle

/-- A product is one level lower, and its scale is below that of the squares there. -/
theorem product (hx : ctx.Within b x level) (hy : ctx.Within b y level) (hsteady : ctx.Steady)
    (h : ctx.Calibrated b) (hpos : 0 < level) :
    ctx.Within b (ctx.productScale level x y) (level - 1) := by
  have hlevel := hx.level_le
  obtain ⟨hupper, hlower⟩ := h.nearest_prime hpos hlevel
  have hscale := h.denotes_scale
  have hpower : (0 : ℚ) < 2 ^ b := by positivity
  obtain ⟨hdrifted, -, hbound, -⟩ := hsteady.drifted_spec h (Nat.sub_le ctx.topLevel level)
  -- The product, and the square that it is compared with.
  obtain ⟨hproduct, -⟩ := h.denotes_productScale hpos hlevel hx.denotes hy.denotes
    (hx.le_two_mul hsteady h) (hy.le_two_mul hsteady h)
  obtain ⟨hsquare, -⟩ := h.denotes_productScale hpos hlevel hdrifted hdrifted hbound hbound
  have hnext : ctx.drifted (ctx.topLevel - (level - 1)) = ctx.productScale level
      (ctx.drifted (ctx.topLevel - level)) (ctx.drifted (ctx.topLevel - level)) := by
    rw [show ctx.topLevel - (level - 1) = ctx.topLevel - level + 1 by omega, drifted,
      show ctx.topLevel - (ctx.topLevel - level) = level by omega]
  set q := nearest (ctx.primes.getD level 0).toNat with hq
  have hqpos : 0 < q := by linarith
  refine ⟨by omega, hproduct.exact_eq.symm ▸ hproduct, ?_, ?_⟩
  · rw [hproduct.exact_eq]
    calc 2 ^ b ≤ rescaled q (2 ^ b) (2 ^ b) := hscale.le_rescaled hqpos hupper
      _ ≤ rescaled q (exact x) (exact y) := rescaled_mono hqpos hpower.le hpower.le hx.ge hy.ge
  · rw [hnext, hproduct.exact_eq, hsquare.exact_eq]
    exact rescaled_mono hqpos hx.denotes.nonneg hy.denotes.nonneg hx.le hy.le

/-- Summands at one level may be added: they are not further apart than the square and the fresh
ciphertext. -/
theorem scalesDiffer_eq_false (hx : ctx.Within b x level) (hy : ctx.Within b y level)
    (hsteady : ctx.Steady) (h : ctx.Calibrated b) : scalesDiffer x y = false := by
  have hpower : (0 : ℚ) < 2 ^ b := by positivity
  obtain ⟨hdrifted, hge, hle, -⟩ := hsteady.drifted_spec h (Nat.sub_le ctx.topLevel level)
  have hclose := hsteady _ (Nat.sub_le ctx.topLevel level)
  rw [scalesDiffer_eq_false_iff hdrifted h.denotes_scale (hpower.trans_le hge)] at hclose
  rw [scalesDiffer_eq_false_iff hx.denotes hy.denotes (hpower.trans_le hx.ge)]
  -- Both distances are exact, because no number is more than twice another.
  have hextreme := hdrifted.abs_sub_of_le_two_mul h.denotes_scale hle (by linarith)
  have hdistance := hx.denotes.abs_sub_of_le_two_mul hy.denotes
    (by linarith [hx.le_two_mul hsteady h, hy.ge]) (by linarith [hy.le_two_mul hsteady h, hx.ge])
  rw [hextreme.nearest_eq, max_eq_left hge, abs_of_nonneg (sub_nonneg.2 hge)] at hclose
  rw [hdistance.nearest_eq]
  have hnonneg : 0 ≤ |exact x - exact y| / max (exact x) (exact y) :=
    div_nonneg (abs_nonneg _) (le_max_of_le_left hx.denotes.nonneg)
  exact (nearest_mono hnonneg (div_max_le hpower hx.ge hy.ge hx.le hy.le)).trans hclose

end Within

end Context

end EncryptedArithmetic

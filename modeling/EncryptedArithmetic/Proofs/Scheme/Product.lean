import EncryptedArithmetic.Proofs.Scheme.Context

/-!
# Products of ciphertexts

The phase of a product is that of its factors multiplied, up to two errors that are given exactly:
the noise of the key switch that brings the square of the secret back to the secret, and the
remainder of the division by the last prime of the level.

## Main results

* `exists_lowered?`, `exists_tensor?`, `exists_rescaled?`: the three parts of a product.
* `exists_relinearized`: the tensor product with its third component switched.
* `exists_mul`: the product under a context that is keyed.
* `mul_of_generate`: the product under every context that was generated.
-/

namespace EncryptedArithmetic

open Polynomial EncryptedArithmetic.Modular

/-- What a ciphertext holds in a channel under the secret with integer coefficients `S`. -/
noncomputable def Ciphertext.phase (c : Ciphertext) (S : ℤ[X]) (i : ℕ) (t : RootTable) :
    NegacyclicRing t.degree (ZMod t.prime.toNat) :=
  c.c0.image i t + c.c1.image i t * t.ofInt S

/-- Both components of a ciphertext are kept over the primes of a level, transformed. -/
structure Ciphertext.Over (c : Ciphertext) (chain : ModulusChain) (level : ℕ) : Prop where
  c0 : c.c0.Over (chain.lower level) .transformed
  c1 : c.c1.Over (chain.lower level) .transformed

namespace Context

variable {chain : ModulusChain} {level : ℕ} {x y c : Ciphertext} {S : ℤ[X]}

/-! ## Levels -/

theorem level_eq (hc : chain.Sound) (hl : level ≤ chain.topLevel) (h : c.Over chain level) :
    c.level = level := by
  rw [Ciphertext.level, h.c0.length_eq, hc.length_lower hl, Nat.add_sub_cancel]

/-- A ciphertext without the primes above a level keeps its images at the others. -/
theorem exists_lowered? (hc : chain.Sound) (hl : level ≤ chain.topLevel) (h : c.Over chain level)
    {level' : ℕ} (hle : level' ≤ level) :
    ∃ d, lowered? c level' = .ok d ∧ d.Over chain level' ∧ d.scale = c.scale ∧
      ∀ i t, (chain.lower level')[i]? = some t → d.phase S i t = c.phase S i t := by
  have hlevel := level_eq hc hl h
  rcases eq_or_ne level level' with rfl | hne
  · exact ⟨c, by rw [lowered?, if_pos hlevel, pure_eq_ok], h, rfl, fun _ _ _ => rfl⟩
  -- The primes of the lower level are the leading ones of the upper level.
  have htake : (chain.lower level).take (level' + 1) = chain.lower level' := by
    rw [ModulusChain.lower, ModulusChain.lower, List.take_take, min_eq_left (by omega)]
  have hlength : level' + 1 ≤ (chain.lower level).length := by
    rw [hc.length_lower hl]
    omega
  obtain ⟨c0, hc0, ho0, hi0⟩ := ResiduePoly.exists_leading? (by omega) hlength h.c0
  obtain ⟨c1, hc1, ho1, hi1⟩ := ResiduePoly.exists_leading? (by omega) hlength h.c1
  rw [htake] at ho0 ho1 hi0 hi1
  refine ⟨{ c with c0, c1 }, ?_, ⟨ho0, ho1⟩, rfl, ?_⟩
  · rw [lowered?, if_neg (hlevel ▸ hne), hc0, hc1]
    rfl
  · intro i t ht
    rw [Ciphertext.phase, Ciphertext.phase, hi0 i t ht, hi1 i t ht]

/-! ## The tensor product -/

/-- The three components belong to the powers of the secret in the product of the phases. -/
theorem exists_tensor? (hc : chain.Sound) (hx : x.Over chain level) (hy : y.Over chain level)
    (S : ℤ[X]) :
    ∃ d0 d1 d2, tensor? x y = .ok (d0, d1, d2) ∧ d0.Over (chain.lower level) .transformed ∧
      d1.Over (chain.lower level) .transformed ∧ d2.Over (chain.lower level) .transformed ∧
      ∀ i t, (chain.lower level)[i]? = some t →
        d0.image i t + d1.image i t * t.ofInt S + d2.image i t * t.ofInt S ^ 2 =
          x.phase S i t * y.phase S i t := by
  have hm : ∀ t ∈ chain.lower level, t.Sound := fun _ ht =>
    hc.sound_of_mem_lower ht
  obtain ⟨d0, hd0, ho0, hi0⟩ := ResiduePoly.exists_mul? hm hx.c0 hy.c0
  obtain ⟨left, hleft, hol, hil⟩ := ResiduePoly.exists_mul? hm hx.c0 hy.c1
  obtain ⟨right, hright, hor, hir⟩ := ResiduePoly.exists_mul? hm hx.c1 hy.c0
  obtain ⟨d1, hd1, ho1, hi1⟩ := ResiduePoly.exists_add? hm hol hor
  obtain ⟨d2, hd2, ho2, hi2⟩ := ResiduePoly.exists_mul? hm hx.c1 hy.c1
  refine ⟨d0, d1, d2, ?_, ho0, ho1, ho2, ?_⟩
  · rw [tensor?, hd0, hleft, hright, ok_bind, ok_bind, ok_bind, hd1, hd2]
    rfl
  · -- Both phases are linear in the secret, and this is their product by powers of it.
    intro i t ht
    rw [hi0 i t ht, (hi1 i t ht).2, hil i t ht, hir i t ht, hi2 i t ht, Ciphertext.phase,
      Ciphertext.phase]
    ring

/-! ## Division by the last prime of a level -/

/-- The primes of the next level are those of a level and one more. -/
theorem lower_succ {last : RootTable} (hlast : chain.tables[level + 1]? = some last) :
    chain.lower (level + 1) = chain.lower level ++ [last] := by
  rw [ModulusChain.lower, ModulusChain.lower, List.take_add_one, hlast]
  rfl

/-- Rescaling divides the phase by the last prime, up to a remainder with small coefficients. -/
theorem exists_rescaled? (hc : chain.Sound) (h : c.Over chain (level + 1)) {last : RootTable}
    (hlast : chain.tables[level + 1]? = some last) (hS : S.degree < chain.degree) {w : ℤ}
    (hw : ∑ i ∈ Finset.range chain.degree, |S.coeff i| ≤ w) :
    ∃ (out : Ciphertext) (R : ℤ[X]), rescaled? c = .ok out ∧ out.Over chain level ∧
      out.scale = c.scale ∧ out.contextId = c.contextId ∧ R.degree < chain.degree ∧
      (∀ k, |R.coeff k| ≤ (1 + w) * (((last.prime.toNat : ℤ) - 1) / 2)) ∧
      c.phase S (level + 1) last = last.ofInt R ∧
      ∀ i t, (chain.lower level)[i]? = some t →
        (last.prime.toNat : ℤ) * out.phase S i t = c.phase S i t - t.ofInt R := by
  have hN := hc.degree_ne_zero
  have hdegree := hc.table_degree last (List.mem_of_getElem? hlast)
  have hsplit := lower_succ hlast
  obtain ⟨c0, hc0, ho0, r₀, hd₀, hr₀, hend₀, hi0⟩ :=
    SwitchingKey.exists_divideByLast_lower? hc hlast (Nat.lt_succ_self level) (hsplit ▸ h.c0)
  obtain ⟨c1, hc1, ho1, r₁, hd₁, hr₁, hend₁, hi1⟩ :=
    SwitchingKey.exists_divideByLast_lower? hc hlast (Nat.lt_succ_self level) (hsplit ▸ h.c1)
  -- The remainder of the phase, reduced to a polynomial of degree below `N`.
  have hR {t : RootTable} (ht : t.degree = chain.degree) :
      t.ofInt ((r₀ + r₁ * S) %ₘ (X ^ chain.degree + 1)) = t.ofInt r₀ + t.ofInt r₁ * t.ofInt S := by
    rw [← ht, RootTable.ofInt, NegacyclicRing.ofInt_modByMonic _ (ht ▸ hN), map_add, map_mul]
  refine ⟨{ c with c0 := c0, c1 := c1 }, (r₀ + r₁ * S) %ₘ (X ^ chain.degree + 1), ?_, ⟨ho0, ho1⟩,
    rfl, rfl, NegacyclicRing.degree_modByMonic_lt hN _, ?_, ?_, ?_⟩
  · rw [rescaled?, hc0, hc1]
    rfl
  -- The first remainder is reduced, and the second meets the secret, whose weight is `w`.
  · intro k
    have hr₀' : r₀ %ₘ (X ^ chain.degree + 1) = r₀ :=
      (modByMonic_eq_self_iff (NegacyclicRing.monic_modulus hN)).2
        (by rwa [NegacyclicRing.degree_modulus hN])
    have hproduct : |(r₁ * S %ₘ (X ^ chain.degree + 1)).coeff k| ≤
        w * (((last.prime.toNat : ℤ) - 1) / 2) := by
      rw [mul_comm r₁]
      refine (NegacyclicRing.abs_coeff_mul_modByMonic_le hN hS hd₁ hr₁ k).trans ?_
      exact mul_le_mul_of_nonneg_right hw ((abs_nonneg _).trans (hr₁ 0))
    rw [add_modByMonic, coeff_add, hr₀', add_mul, one_mul]
    exact (abs_add_le _ _).trans (add_le_add (hr₀ k) hproduct)
  · rw [hR hdegree, Ciphertext.phase, hend₀, hend₁]
  · intro i t ht
    have htd := hc.degree_of_mem_lower (List.mem_of_getElem? ht)
    rw [hR htd, Ciphertext.phase, Ciphertext.phase, mul_add, ← mul_assoc, hi0 i t ht, hi1 i t ht]
    ring

/-! ## The product -/

/-- The switched third component of the tensor product, added to the first two: the phase is the
product of the phases and the noise of the switch. -/
theorem exists_relinearized {ctx : Context} {cs : List ℤ} {e : ℕ → List ℤ} (hctx : ctx.Keyed cs e)
    (hl : level ≤ ctx.chain.topLevel) (hx : x.Over ctx.chain level) (hy : y.Over ctx.chain level) :
    ∃ d0 d1 d2 switched c0 c1, ∃ V : ℤ[X], tensor? x y = .ok (d0, d1, d2) ∧
      ctx.relinearizationKey.switch? ctx.chain d2 = .ok switched ∧
      d0.add? switched.b = .ok c0 ∧ d1.add? switched.a = .ok c1 ∧
      c0.Over (ctx.chain.lower level) .transformed ∧
      c1.Over (ctx.chain.lower level) .transformed ∧ V.degree < ctx.chain.degree ∧
      (∀ i t, (ctx.chain.lower level)[i]? = some t →
        c0.image i t + c1.image i t * t.ofInt (ofCoefficients cs) =
          x.phase (ofCoefficients cs) i t * y.phase (ofCoefficients cs) i t + t.ofInt V) ∧
      ∀ B : ℤ, (∀ j ≤ level, ∀ z ∈ e j, |z| ≤ B) → ∀ k,
        ctx.chain.specialPrime.toNat * |V.coeff k| ≤
          ∑ j ∈ Finset.range (level + 1),
            ctx.chain.degree * B * ((((ctx.chain.primes.getD j 0).toNat : ℤ) - 1) / 2) +
          (1 + cs.countP (· ≠ 0)) * (((ctx.chain.specialPrime.toNat : ℤ) - 1) / 2) := by
  obtain ⟨hc, hlen, hternary, -, hlength, target, -, hitarget, hhides⟩ := hctx
  have hm : ∀ t ∈ ctx.chain.lower level, t.Sound := fun _ ht => hc.sound_of_mem_lower ht
  obtain ⟨d0, d1, d2, htensor, ho0, ho1, ho2, hitensor⟩ :=
    exists_tensor? hc hx hy (ofCoefficients cs)
  obtain ⟨d, switched, V, -, hod, hswitched, hos, hnoise, hiswitched⟩ :=
    SwitchingKey.exists_switch? hc hl hhides ho2
  obtain ⟨c0, hc0, hoc0, hic0⟩ := ResiduePoly.exists_add? hm ho0 hos.b
  obtain ⟨c1, hc1, hoc1, hic1⟩ := ResiduePoly.exists_add? hm ho1 hos.a
  refine ⟨d0, d1, d2, switched, c0, c1, V, htensor, hswitched, hc0, hc1, hoc0, hoc1, hnoise.1,
    ?_, ?_⟩
  · intro i t ht
    have hswitch := hiswitched i t ht
    rw [MaskedPair.phase, hitarget i t (ModulusChain.Sound.getElem?_lower_iff.1 ht).2] at hswitch
    calc c0.image i t + c1.image i t * t.ofInt (ofCoefficients cs)
        = d0.image i t + d1.image i t * t.ofInt (ofCoefficients cs) +
            (switched.b.image i t + switched.a.image i t * t.ofInt (ofCoefficients cs)) := by
          rw [(hic0 i t ht).2, (hic1 i t ht).2]
          ring
      _ = x.phase (ofCoefficients cs) i t * y.phase (ofCoefficients cs) i t + t.ofInt V := by
          rw [hswitch, ← hitensor i t ht]
          ring
  · intro B hB k
    exact SwitchingKey.abs_coeff_noise_le hc hl hod hlen hternary hlength hnoise hB k

/-- The product in a context that is keyed, at the lower of two levels that are not both zero. -/
theorem exists_mul {ctx : Context} {cs : List ℤ} {e : ℕ → List ℤ} (hctx : ctx.Keyed cs e)
    {lx ly : ℕ} (hlx : lx ≤ ctx.chain.topLevel) (hly : ly ≤ ctx.chain.topLevel)
    (hidx : x.contextId = ctx.id) (hidy : y.contextId = ctx.id) (hx : x.Over ctx.chain lx)
    (hy : y.Over ctx.chain ly) (hlevel : min lx ly = level + 1) {last : RootTable}
    (hlast : ctx.chain.tables[level + 1]? = some last) :
    ∃ (out : Ciphertext) (V R : ℤ[X]), ctx.mul x y = .ok out ∧ out.contextId = ctx.id ∧
      out.scale = x.scale * y.scale / last.prime.toFloat ∧ out.Over ctx.chain level ∧
      V.degree < ctx.chain.degree ∧ R.degree < ctx.chain.degree ∧
      (∀ i t, (ctx.chain.lower level)[i]? = some t →
        (last.prime.toNat : ℤ) * out.phase (ofCoefficients cs) i t =
          x.phase (ofCoefficients cs) i t * y.phase (ofCoefficients cs) i t + t.ofInt V -
            t.ofInt R) ∧
      x.phase (ofCoefficients cs) (level + 1) last * y.phase (ofCoefficients cs) (level + 1) last +
        last.ofInt V - last.ofInt R = 0 ∧
      (∀ k, |R.coeff k| ≤ (1 + cs.countP (· ≠ 0)) * (((last.prime.toNat : ℤ) - 1) / 2)) ∧
      ∀ B : ℤ, (∀ j ≤ level + 1, ∀ z ∈ e j, |z| ≤ B) → ∀ k,
        ctx.chain.specialPrime.toNat * |V.coeff k| ≤
          ∑ j ∈ Finset.range (level + 2),
            ctx.chain.degree * B * ((((ctx.chain.primes.getD j 0).toNat : ℤ) - 1) / 2) +
          (1 + cs.countP (· ≠ 0)) * (((ctx.chain.specialPrime.toNat : ℤ) - 1) / 2) := by
  have hc := hctx.sound
  set chain := ctx.chain
  set S := ofCoefficients cs
  have htop : level + 1 ≤ chain.topLevel := by omega
  have hS : S.degree < chain.degree := hctx.length_secret ▸ degree_ofCoefficients_lt cs
  have hweight : ∑ i ∈ Finset.range chain.degree, |S.coeff i| ≤ cs.countP (· ≠ 0) := by
    rw [← hctx.length_secret]
    exact (NegacyclicRing.sum_abs_coeff_ternary hctx.ternary).le
  -- The parts of the product, in the order in which they are computed.
  obtain ⟨x', hx', hox, hsx, hix⟩ := exists_lowered? (S := S) hc hlx hx (hlevel ▸ min_le_left lx ly)
  obtain ⟨y', hy', hoy, hsy, hiy⟩ :=
    exists_lowered? (S := S) hc hly hy (hlevel ▸ min_le_right lx ly)
  obtain ⟨d0, d1, d2, switched, c0, c1, V, htensor, hswitched, hc0, hc1, hoc0, hoc1, hdV, hsum,
    hV⟩ := exists_relinearized hctx htop hox hoy
  let relinearized : Ciphertext :=
    { c0, c1, scale := x'.scale * y'.scale / last.prime.toFloat, contextId := ctx.id }
  have hover : relinearized.Over chain (level + 1) := ⟨hoc0, hoc1⟩
  obtain ⟨out, R, hout, hoout, hsout, hidout, hdR, hbR, hend, hiout⟩ :=
    exists_rescaled? hc hover hlast hS hweight
  have hphase {i : ℕ} {t : RootTable} (ht : (chain.lower (level + 1))[i]? = some t) :
      relinearized.phase S i t = x.phase S i t * y.phase S i t + t.ofInt V := by
    rw [Ciphertext.phase, hsum i t ht, hix i t ht, hiy i t ht]
  refine ⟨out, V, R, ?_, hidout, ?_, hoout, hdV, hdR, ?_, ?_, hbR, hV⟩
  · have hprime : ctx.primes[level + 1]? = some last.prime := by
      rw [Context.primes, ModulusChain.primes, List.getElem?_map, hlast, Option.map_some]
    rw [mul, level_eq hc hlx hx, level_eq hc hly hy, hlevel]
    simp only [requireOwn, hidx, hidy, if_true, rescalingPrime, Nat.succ_ne_zero, if_false, hprime,
      hx', hy', htensor, liftM_ok, ok_bind]
    rw [show ctx.relinearizationKey.switch? ctx.chain d2 = .ok switched from hswitched, liftM_ok,
      ok_bind, hc0, liftM_ok, ok_bind, hc1, liftM_ok, ok_bind]
    exact liftM_eq_ok_iff.2 hout
  · rw [hsout, ← hsx, ← hsy]
  · intro i t ht
    -- The primes of the result are among those of the factors.
    obtain ⟨hi, htable⟩ := ModulusChain.Sound.getElem?_lower_iff.1 ht
    have hfront := ModulusChain.Sound.getElem?_lower_iff.2 ⟨Nat.le_succ_of_le hi, htable⟩
    rw [hiout i t ht, hphase hfront]
  · rw [← hphase (ModulusChain.Sound.getElem?_lower_iff.2 ⟨le_refl _, hlast⟩), hend, sub_self]

/-- The product in every context that was generated, for all ciphertexts over its primes whose lower
level is above zero: it is one level down, and it decrypts to the product of the phases up to two
integer polynomials of degree below `N`, the noise `V` of the switch and the remainder `R` of the
division, whose coefficients are bounded. -/
theorem mul_of_generate {σ : Type} {sampler : Sampler σ} (hsampler : sampler.Lawful)
    {params : Parameters} {id : UInt64} {ctx : Context} {s s' : σ}
    (hctx : Answers (generate sampler params id) s ctx s') (htest : ∀ q ∈ ctx.primes, TestExact q) :
    ∃ (cs : List ℤ) (e : ℕ → List ℤ), ctx.Keyed cs e ∧ cs.countP (· ≠ 0) = params.weight ∧
      (∃ u, cs = (sampler.ternary params.degree params.weight u).1) ∧
      (∀ j, ∃ u, e j = (sampler.gaussian params.degree params.errorStd u).1) ∧
      ∀ (x y : Ciphertext) (lx ly level : ℕ), x.contextId = ctx.id → y.contextId = ctx.id →
        lx ≤ ctx.chain.topLevel → ly ≤ ctx.chain.topLevel → x.Over ctx.chain lx →
        y.Over ctx.chain ly → min lx ly = level + 1 →
        ∃ (last : RootTable) (out : Ciphertext) (V R : ℤ[X]),
          ctx.chain.tables[level + 1]? = some last ∧ ctx.mul x y = .ok out ∧
          out.contextId = ctx.id ∧ out.Over ctx.chain level ∧
          V.degree < params.degree ∧ R.degree < params.degree ∧
          (∀ i t, (ctx.chain.lower level)[i]? = some t →
            (last.prime.toNat : ℤ) * out.phase (ofCoefficients cs) i t =
              x.phase (ofCoefficients cs) i t * y.phase (ofCoefficients cs) i t + t.ofInt V -
                t.ofInt R) ∧
          x.phase (ofCoefficients cs) (level + 1) last *
            y.phase (ofCoefficients cs) (level + 1) last + last.ofInt V - last.ofInt R = 0 ∧
          (∀ k, |R.coeff k| ≤ (1 + params.weight) * (((last.prime.toNat : ℤ) - 1) / 2)) ∧
          ∀ B : ℤ, (∀ j ≤ level + 1, ∀ z ∈ e j, |z| ≤ B) → ∀ k,
            ctx.chain.specialPrime.toNat * |V.coeff k| ≤
              ∑ j ∈ Finset.range (level + 2),
                params.degree * B * ((((ctx.chain.primes.getD j 0).toNat : ℤ) - 1) / 2) +
              (1 + params.weight) * (((ctx.chain.specialPrime.toNat : ℤ) - 1) / 2) := by
  obtain ⟨hdegree, cs, e, hkeyed, hweight, hcs, he⟩ := keyed_of_generate hsampler hctx htest
  refine ⟨cs, e, hkeyed, hweight, hcs, he, ?_⟩
  intro x y lx ly level hidx hidy hlx hly hx hy hlevel
  have hlt : level + 1 < ctx.chain.tables.length := by
    have htop := hkeyed.sound.topLevel_add_two
    have hmin := min_le_left lx ly
    omega
  have hlast := List.getElem?_eq_getElem hlt
  obtain ⟨out, V, R, hout, hidout, -, hoout, hdV, hdR, hphase, hend, hR, hV⟩ :=
    exists_mul hkeyed hlx hly hidx hidy hx hy hlevel hlast
  rw [hweight] at hR hV
  rw [hdegree] at hdV hdR hV
  exact ⟨_, out, V, R, hlast, hout, hidout, hoout, hdV, hdR, hphase, hend, hR, hV⟩

/-- The square of the ciphertext `(1, X)` in the smallest ring, where the secret is one and all
errors are ones: the division by `q_1` and the switch of the key leave remainders that are
small. -/
theorem square_smallest :
    ∃ (ctx : Context) (x out : Ciphertext) (V R : ℤ[X]),
      Answers (generate Sampler.steady smallest 7) () ctx () ∧
      ResiduePoly.ofSignedTransformed? [1, 0, 0, 0, 0, 0, 0, 0] (ctx.chain.lower 1) = .ok x.c0 ∧
      ResiduePoly.ofSignedTransformed? [0, 1, 0, 0, 0, 0, 0, 0] (ctx.chain.lower 1) = .ok x.c1 ∧
      ctx.mul x x = .ok out ∧ out.Over ctx.chain 0 ∧ V.degree < 8 ∧ R.degree < 8 ∧
      (∀ i t, (ctx.chain.lower 0)[i]? = some t →
        (1048433 : ℤ) * out.phase 1 i t =
          x.phase 1 i t * x.phase 1 i t + t.ofInt V - t.ofInt R) ∧
      (∀ k, |R.coeff k| ≤ 1048432) ∧
      ∀ k, 4193569 * |V.coeff k| ≤ 8 * 2096816 + 8 * 524216 + 4193568 := by
  obtain ⟨ctx, hctx, hprimes, htest⟩ := exists_smallest 7
  obtain ⟨cs, e, hkeyed, -, ⟨u, hcs⟩, he, hmul⟩ :=
    mul_of_generate Sampler.lawful_steady hctx htest
  have hc := hkeyed.sound
  have hdegree : ctx.chain.degree = 8 := (keyed_of_generate Sampler.lawful_steady hctx htest).1
  have htop : ctx.topLevel = 1 := topLevel_of_primes hprimes
  have hone : ofCoefficients cs = 1 := by
    obtain rfl : cs = [1, 0, 0, 0, 0, 0, 0, 0] := hcs
    simp
  have hcomponent (zs : List ℤ) (hzs : zs.length = 8) := ResiduePoly.exists_ofSignedTransformed?
    (fun _ ht => hc.sound_of_mem_lower ht) (fun _ ht => hc.degree_of_mem_lower ht)
    (show ctx.chain.lower 1 ≠ [] from hc.lower_ne_nil) (hzs.trans hdegree.symm)
  obtain ⟨c0, hc0, ho0, -⟩ := hcomponent [1, 0, 0, 0, 0, 0, 0, 0] rfl
  obtain ⟨c1, hc1, ho1, -⟩ := hcomponent [0, 1, 0, 0, 0, 0, 0, 0] rfl
  obtain ⟨last, out, V, R, hlast, hout, -, hoout, hdV, hdR, hphase, -, hR, hV⟩ :=
    hmul ⟨c0, c1, 1, ctx.id⟩ ⟨c0, c1, 1, ctx.id⟩ 1 1 0 rfl rfl htop.ge htop.ge ⟨ho0, ho1⟩
      ⟨ho0, ho1⟩ rfl
  have hq : (last.prime.toNat : ℤ) = 1048433 := by
    have hsecond : ctx.primes[1]? = some last.prime := by
      rw [Context.primes, ModulusChain.primes, List.getElem?_map, hlast, Option.map_some]
    rw [hprimes] at hsecond
    rw [← Option.some.inj hsecond]
    rfl
  have hP : (ctx.chain.specialPrime.toNat : ℤ) = 4193569 := by
    rw [ModulusChain.specialPrime, show ctx.chain.primes = _ from hprimes]
    rfl
  -- The errors of the key are all ones, so their bound is one.
  have herror : ∀ j ≤ 1, ∀ z ∈ e j, |z| ≤ 1 := by
    intro j _ z hz
    obtain ⟨v, hv⟩ := he j
    rw [hv] at hz
    obtain rfl : z = 1 := (List.mem_replicate.1 hz).2
    exact abs_one.le
  have hbound := hV 1 herror
  rw [hP, show ctx.chain.primes = _ from hprimes] at hbound
  rw [hone, hq] at hphase
  rw [hq] at hR
  exact ⟨ctx, _, out, V, R, hctx, hc0, hc1, hout, hoout, hdV, hdR, hphase, hR, hbound⟩

end Context

end EncryptedArithmetic

import EncryptedArithmetic.Proofs.Sampling
import EncryptedArithmetic.Scheme.Context

/-!
# Levels of results

The level of a ciphertext is the number of its channels less one, so it is followed through every
operation by counting channels. Whatever an operation is given, the level of its result is known
from the levels of its operands as soon as there is a result.

## Main results

* `level_of_encrypt`: a fresh ciphertext is at the top level.
* `level_of_add` and `level_of_sub`: the lower of the levels.
* `level_of_mul` and `level_of_mulPlain`: one level less.
* `mul_ne_levelExhausted` and `mulPlain_ne_levelExhausted`: products run out of levels only at the
  lowest one, and nothing else does.
-/

namespace EncryptedArithmetic

/-! ## Numbers of channels -/

namespace ResiduePoly

variable {a b c : ResiduePoly}

theorem length_of_combine? {f : UInt64 → List UInt64 → List UInt64 → Except Fault (List UInt64)}
    (hlength : a.channels.length = b.channels.length) (h : a.combine? f b = .ok c) :
    c.channels.length = a.channels.length := by
  simp only [combine?, bind_eq_ok_iff, pure_eq_ok, Except.ok.injEq] at h
  obtain ⟨channels, hchannels, rfl⟩ := h
  rw [length_of_mapM_eq_ok hchannels, List.length_zip, hlength, min_self]

theorem length_eq_of_compatible? (h : a.compatible? b = .ok ()) :
    a.channels.length = b.channels.length := by
  unfold compatible? at h
  by_contra hlength
  rw [if_pos hlength] at h
  cases h

theorem length_of_add? (h : a.add? b = .ok c) :
    c.channels.length = a.channels.length ∧ c.channels.length = b.channels.length := by
  simp only [add?, bind_eq_ok_iff] at h
  obtain ⟨_, hcompatible, h⟩ := h
  have hlength := length_eq_of_compatible? hcompatible
  have hleft := length_of_combine? hlength h
  exact ⟨hleft, hleft.trans hlength⟩

theorem length_of_sub? (h : a.sub? b = .ok c) : c.channels.length = a.channels.length := by
  simp only [sub?, bind_eq_ok_iff] at h
  obtain ⟨_, hcompatible, h⟩ := h
  exact length_of_combine? (length_eq_of_compatible? hcompatible) h

theorem length_of_mul? (h : a.mul? b = .ok c) : c.channels.length = a.channels.length := by
  simp only [mul?, bind_eq_ok_iff] at h
  obtain ⟨_, hcompatible, h⟩ := h
  split at h
  · exact length_of_combine? (length_eq_of_compatible? hcompatible) h
  · cases h

theorem length_of_leading? {count : ℕ} (h : a.leading? count = .ok c) :
    c.channels.length = count := by
  unfold leading? at h
  split at h
  · rename_i hcount
    obtain rfl := Except.ok.inj h
    rw [List.length_take]
    omega
  · cases h

theorem length_of_divideByLast? (h : a.divideByLast? = .ok c) :
    c.channels.length = a.channels.length - 1 := by
  unfold divideByLast? at h
  split at h
  · cases h
  rw [bind_eq_ok_iff] at h
  obtain ⟨work, hwork, h⟩ := h
  split at h
  · cases h
  rw [bind_eq_ok_iff] at h
  obtain ⟨channels, hchannels, h⟩ := h
  have hwork' : work.channels.length = a.channels.length :=
    length_of_toForm? (show a.toForm? .coefficient = .ok work from hwork)
  rw [length_of_toForm? h, length_of_mapM_eq_ok hchannels, List.length_dropLast, hwork']

end ResiduePoly

theorem Encoding.length_of_encode {value scale : Float} {moduli : List RootTable} {lowest : UInt64}
    {m : ResiduePoly} (h : encode value scale moduli lowest = .ok m) :
    m.channels.length = moduli.length := by
  unfold encode at h
  split at h
  · obtain rfl := Except.ok.inj h
    exact List.length_map _
  · exact absurd h fail_ne_ok

/-! ## Levels -/

namespace Context

variable {ctx : Context} {x y c : Ciphertext} {level : ℕ}

theorem level_of_lowered? (h : lowered? x level = .ok c) : c.level = level := by
  unfold lowered? at h
  split at h
  · rename_i hlevel
    obtain rfl := Except.ok.inj h
    exact hlevel
  · simp only [bind_eq_ok_iff, pure_eq_ok, Except.ok.injEq] at h
    obtain ⟨c0, hc0, c1, -, rfl⟩ := h
    show c0.channels.length - 1 = level
    rw [ResiduePoly.length_of_leading? hc0, Nat.add_sub_cancel]

theorem level_of_rescaled? (h : rescaled? x = .ok c) : c.level = x.level - 1 := by
  simp only [rescaled?, bind_eq_ok_iff, pure_eq_ok, Except.ok.injEq] at h
  obtain ⟨c0, hc0, c1, -, rfl⟩ := h
  show c0.channels.length - 1 = x.level - 1
  rw [ResiduePoly.length_of_divideByLast? hc0, Ciphertext.level]

/-- A fresh ciphertext is at the top level. -/
theorem level_of_encrypt {σ : Type} {sampler : Sampler σ} {value : Float} {s s' : σ}
    (h : Answers (ctx.encrypt sampler value) s c s') : c.level = ctx.topLevel := by
  simp only [encrypt, answers_bind, answers_liftM_result, answers_liftM_fault] at h
  obtain ⟨m, _, ⟨hm, rfl⟩, u, _, -, e0, _, -, e1, _, -, u', _, -, e0', _, -, e1', _, -, h, -⟩ := h
  simp only [encryptWith?, bind_eq_ok_iff, pure_eq_ok, Except.ok.injEq] at h
  obtain ⟨product, -, sum, -, c0, hc0, _, -, _, -, rfl⟩ := h
  -- The component that carries the value has the channels of its encoding.
  have hlength := (ResiduePoly.length_of_add? hc0).2.trans (Encoding.length_of_encode hm)
  show c0.channels.length - 1 = ctx.chain.topLevel
  rw [hlength, ModulusChain.lower, List.length_take, topLevel, ModulusChain.topLevel]
  omega

theorem level_of_levelled {x' y' : Ciphertext} (h : ctx.levelled x y = .ok (x', y')) :
    x'.level = min x.level y.level ∧ y'.level = min x.level y.level := by
  simp only [levelled, bind_eq_ok_iff] at h
  obtain ⟨_, -, _, -, h⟩ := h
  split at h
  · exact absurd h fail_ne_ok
  · simp only [bind_eq_ok_iff, liftM_eq_ok_iff, pure_eq_ok, Except.ok.injEq, Prod.mk.injEq] at h
    obtain ⟨_, hx, _, hy, rfl, rfl⟩ := h
    exact ⟨level_of_lowered? hx, level_of_lowered? hy⟩

theorem level_of_add (h : ctx.add x y = .ok c) : c.level = min x.level y.level := by
  simp only [add, bind_eq_ok_iff, liftM_eq_ok_iff, pure_eq_ok, Except.ok.injEq] at h
  obtain ⟨⟨x', y'⟩, hlevelled, c0, hc0, c1, -, rfl⟩ := h
  rw [← (level_of_levelled hlevelled).1]
  exact congrArg (· - 1) (ResiduePoly.length_of_add? hc0).1

theorem level_of_sub (h : ctx.sub x y = .ok c) : c.level = min x.level y.level := by
  simp only [sub, bind_eq_ok_iff, liftM_eq_ok_iff, pure_eq_ok, Except.ok.injEq] at h
  obtain ⟨⟨x', y'⟩, hlevelled, c0, hc0, c1, -, rfl⟩ := h
  rw [← (level_of_levelled hlevelled).1]
  exact congrArg (· - 1) (ResiduePoly.length_of_sub? hc0)

theorem level_of_mul (h : ctx.mul x y = .ok c) : c.level = min x.level y.level - 1 := by
  simp only [mul, tensor?, bind_eq_ok_iff, liftM_eq_ok_iff, pure_eq_ok, Except.ok.injEq] at h
  obtain ⟨_, -, _, -, dropped, -, x', hx', y', -, ⟨d0, d1, d2⟩, htensor, switched, -, c0, hc0, c1,
    -, hrescaled⟩ := h
  obtain ⟨d0', hd0, _, -, _, -, _, -, _, -, hd⟩ := htensor
  obtain ⟨rfl, -⟩ := Prod.mk.inj hd
  -- Up to the division the channels are those of the left operand at the common level.
  have hlength := (ResiduePoly.length_of_add? hc0).1.trans (ResiduePoly.length_of_mul? hd0)
  rw [level_of_rescaled? hrescaled, ← level_of_lowered? hx']
  exact congrArg (· - 1 - 1) hlength

theorem level_of_mulPlain {factor : Float} (h : ctx.mulPlain x factor = .ok c) :
    c.level = x.level - 1 := by
  simp only [mulPlain, bind_eq_ok_iff] at h
  obtain ⟨_, -, dropped, -, h⟩ := h
  split at h
  · exact absurd h fail_ne_ok
  · rw [level_of_rescaled? (liftM_eq_ok_iff.1 h)]
    exact congrArg (· - 1 - 1) (List.length_map _)

/-! ## Running out of levels -/

/-- A prime can be spared above the lowest level only. -/
theorem pos_of_rescalingPrime {q : UInt64} (h : ctx.rescalingPrime level = .ok q) : 0 < level := by
  rw [Nat.pos_iff_ne_zero]
  rintro rfl
  exact fail_ne_ok h

theorem pos_of_mul (h : ctx.mul x y = .ok c) : 0 < min x.level y.level := by
  simp only [mul, bind_eq_ok_iff] at h
  obtain ⟨_, -, _, -, dropped, hdropped, -⟩ := h
  exact pos_of_rescalingPrime hdropped

theorem pos_of_mulPlain {factor : Float} (h : ctx.mulPlain x factor = .ok c) : 0 < x.level := by
  simp only [mulPlain, bind_eq_ok_iff] at h
  obtain ⟨_, -, dropped, hdropped, -⟩ := h
  exact pos_of_rescalingPrime hdropped

theorem requireOwn_ne_levelExhausted {depth : ℕ} :
    ctx.requireOwn c ≠ Result.fail (.levelExhausted depth) := by
  rw [requireOwn]
  split
  · exact ok_ne_fail
  · simp

theorem rescalingPrime_ne_fail (hlevel : 0 < level) {cause : SchemeError} :
    ctx.rescalingPrime level ≠ Result.fail cause := by
  rw [rescalingPrime, if_neg hlevel.ne']
  split
  · exact ok_ne_fail
  · exact fun h => nomatch h

theorem levelled_ne_levelExhausted {depth : ℕ} :
    ctx.levelled x y ≠ Result.fail (.levelExhausted depth) := by
  rw [levelled]
  intro h
  simp only [bind_eq_fail_iff, requireOwn_ne_levelExhausted, false_or] at h
  obtain ⟨_, -, _, -, h⟩ := h
  split at h
  · simp at h
  · simp only [bind_eq_fail_iff, liftM_ne_fail, pure_eq_ok, ok_ne_fail, and_false, exists_false,
      or_self] at h

theorem add_ne_levelExhausted {depth : ℕ} :
    ctx.add x y ≠ Result.fail (.levelExhausted depth) := by
  simp [add, bind_eq_fail_iff, levelled_ne_levelExhausted]

theorem sub_ne_levelExhausted {depth : ℕ} :
    ctx.sub x y ≠ Result.fail (.levelExhausted depth) := by
  simp [sub, bind_eq_fail_iff, levelled_ne_levelExhausted]

/-- A product above the lowest level does not run out of levels. -/
theorem mul_ne_levelExhausted (hlevel : 0 < min x.level y.level) {depth : ℕ} :
    ctx.mul x y ≠ Result.fail (.levelExhausted depth) := by
  simp [mul, bind_eq_fail_iff, requireOwn_ne_levelExhausted, rescalingPrime_ne_fail hlevel]

theorem mulPlain_ne_levelExhausted (hlevel : 0 < x.level) {factor : Float} {depth : ℕ} :
    ctx.mulPlain x factor ≠ Result.fail (.levelExhausted depth) := by
  intro h
  simp only [mulPlain, bind_eq_fail_iff, requireOwn_ne_levelExhausted,
    rescalingPrime_ne_fail hlevel, false_or] at h
  obtain ⟨_, -, _, -, h⟩ := h
  split at h
  · simp at h
  · exact liftM_ne_fail h

theorem encrypt_ne_levelExhausted {σ : Type} {sampler : Sampler σ} {value : Float} {s s' : σ}
    {depth : ℕ} :
    (ctx.encrypt sampler value).outcome s ≠ (Result.fail (.levelExhausted depth), s') := by
  have hlift {α : Type} {x : Except Fault α} {t : σ} :
      (liftM x : Drawing σ SchemeError α).outcome t ≠
        (Result.fail (.levelExhausted depth), s') := fun h =>
    liftM_ne_fail (congrArg Prod.fst h)
  intro h
  rw [encrypt, outcome_bind_eq_fail_iff] at h
  rcases h with h | ⟨m, t, -, h⟩
  · -- An encoding that fails is out of range.
    have h : Encoding.encode value ctx.scale (ctx.chain.lower ctx.topLevel)
        ((ctx.primes.head?).getD 0) = Result.fail (.levelExhausted depth) := congrArg Prod.fst h
    rw [Encoding.encode] at h
    split at h
    · exact ok_ne_fail h
    · exact nomatch fail_eq_fail_iff.1 h
  · -- Behind the encoding everything is a draw or a step of the ring layer.
    simp only [outcome_bind_eq_fail_iff, Sampler.outcome_drawTernary_ne_fail,
      Sampler.outcome_drawGaussian_ne_fail, hlift, and_false, exists_false, or_self] at h

theorem decrypt_ne_levelExhausted {depth : ℕ} :
    ctx.decrypt c ≠ Result.fail (.levelExhausted depth) := by
  simp [decrypt, bind_eq_fail_iff, requireOwn_ne_levelExhausted]

end Context

end EncryptedArithmetic

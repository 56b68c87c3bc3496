import EncryptedArithmetic.Proofs.Request.Division

/-!
# Levels that an expression needs

Products and quotients spend levels, and an evaluation runs out of levels at an operator whose
operands have none left to spend. The walk through the levels of an expression shows where that
happens. It is followed by the encrypted pass and, as long as it completes, by the replay.

Before an evaluation begins, the depth of the expression is compared with the top level. The depth
is never below the levels that the walk needs, so no evaluation that passes the check runs out of
levels. It is above them where a divisor is deeper than its quotient and the quotient is multiplied
or divided further: the depth adds the levels of that product to those of the divisor, although the
divisor is decrypted by then.

## Main definitions

* `Expression.walk?`: the level of an expression, if every operator can be afforded.
* `Expression.spentLevels`, `Expression.neededLevels`: how far an expression is below the top level,
  and the lowest top level at which the walk completes.
* `Expression.Settled`: no quotient with a deeper divisor is multiplied or divided further.

## Main results

* `Expression.walk?_eq`: the walk from any top level.
* `walk?_of_answers_pass` and `outcome_pass_ne_depthExceeded`: the encrypted pass follows the walk.
* `levels_of_evaluate`: the check refuses an expression or levels never run out.
* `depth_check_spec`: when the check refuses more than it has to.
-/

namespace EncryptedArithmetic

namespace Operator

/-- The operands have the level that the operator spends. -/
def Affordable : Operator → ℕ → ℕ → Prop
  | add, _, _ | sub, _, _ => True
  | mul, l, r => 1 ≤ min l r
  | div, l, _ => 1 ≤ l

instance : (op : Operator) → (l r : ℕ) → Decidable (op.Affordable l r)
  | add, _, _ | sub, _, _ => inferInstanceAs (Decidable True)
  | mul, l, r => inferInstanceAs (Decidable (1 ≤ min l r))
  | div, l, _ => inferInstanceAs (Decidable (1 ≤ l))

/-- How far the result is below the top level, from how far the operands are. -/
def spent : Operator → ℕ → ℕ → ℕ
  | add, l, r | sub, l, r => max l r
  | mul, l, r => max l r + 1
  | div, l, _ => l + 1

/-- An operator can be afforded if the top level leaves what it spends. -/
theorem affordable_iff {top l r : ℕ} (hl : l ≤ top) (hr : r ≤ top) (op : Operator) :
    op.Affordable (top - l) (top - r) ↔ op.spent l r ≤ top := by
  cases op <;> simp only [Affordable, spent, true_iff] <;> omega

theorem level_sub (top l r : ℕ) (op : Operator) :
    op.level (top - l) (top - r) = top - op.spent l r := by
  cases op <;> simp only [level, spent] <;> omega

end Operator

namespace Expression

variable {d e l r : Expression} {op : Operator} {top : ℕ}

/-! ## The walk through the levels -/

/-- The level of an expression whose literals are at the level `top`. -/
def levelFrom (top : ℕ) : Expression → ℕ :=
  fold (fun _ => top) Operator.level

/-- The level of an expression, if every operator can be afforded. -/
def walk? (top : ℕ) (e : Expression) : Option ℕ :=
  e.foldM (fun _ => some top) fun op l r =>
    if op.Affordable l r then some (op.level l r) else none

@[simp]
theorem walk?_literal (value : Float) : (literal value).walk? top = some top := by
  rw [walk?, foldM_literal]

theorem walk?_binary_eq_some_iff {level : ℕ} :
    (binary op l r).walk? top = some level ↔ ∃ m n, l.walk? top = some m ∧ r.walk? top = some n ∧
      op.Affordable m n ∧ op.level m n = level := by
  simp only [walk?, foldM_binary, Option.bind_eq_bind, Option.bind_eq_some_iff,
    Option.ite_none_right_eq_some, Option.some.injEq]
  constructor
  · rintro ⟨m, hm, n, hn, hop, hlevel⟩
    exact ⟨m, n, hm, hn, hop, hlevel⟩
  · rintro ⟨m, n, hm, hn, hop, hlevel⟩
    exact ⟨m, hm, n, hn, hop, hlevel⟩

/-- A walk that completes gives the level of the expression. -/
theorem levelFrom_of_walk? {level : ℕ} (h : e.walk? top = some level) :
    e.levelFrom top = level := by
  induction e generalizing level with
  | literal value => exact Option.some.inj ((walk?_literal value).symm.trans h)
  | binary op l r ihl ihr =>
    obtain ⟨m, n, hm, hn, -, rfl⟩ := walk?_binary_eq_some_iff.1 h
    have hl := ihl hm
    have hr := ihr hn
    rw [levelFrom] at hl hr ⊢
    rw [fold_binary, hl, hr]

/-- A walk that completes does so for everything that occurs. -/
theorem Within.exists_walk? (hd : d.Within e) {level : ℕ} (h : e.walk? top = some level) :
    ∃ m, d.walk? top = some m := by
  induction hd generalizing level with
  | refl => exact ⟨level, h⟩
  | left _ ih =>
    obtain ⟨m, -, hm, -⟩ := walk?_binary_eq_some_iff.1 h
    exact ih hm
  | right _ ih =>
    obtain ⟨-, n, -, hn, -⟩ := walk?_binary_eq_some_iff.1 h
    exact ih hn

/-! ## Levels that the walk needs -/

/-- How far an expression is below the level of its literals. -/
def spentLevels : Expression → ℕ :=
  fold (fun _ => 0) Operator.spent

theorem spentLevels_binary (op : Operator) (l r : Expression) :
    (binary op l r).spentLevels = op.spent l.spentLevels r.spentLevels := by
  rw [spentLevels, fold_binary]

/-- The most levels that anything within an expression spends. -/
def neededLevels : Expression → ℕ
  | literal _ => 0
  | binary op l r => max (max l.neededLevels r.neededLevels) (binary op l r).spentLevels

theorem spentLevels_le_neededLevels (e : Expression) : e.spentLevels ≤ e.neededLevels := by
  cases e with
  | literal value => exact le_rfl
  | binary op l r => exact le_max_right _ _

/-- The walk completes from the top levels that leave enough for everything within an
expression. -/
theorem walk?_eq (top : ℕ) (e : Expression) :
    e.walk? top = if e.neededLevels ≤ top then some (top - e.spentLevels) else none := by
  -- By induction on the expression. An operator adds what it spends to the needs of its operands.
  induction e with
  | literal value => simp [neededLevels, spentLevels]
  | binary op l r ihl ihr =>
    have hl := l.spentLevels_le_neededLevels
    have hr := r.spentLevels_le_neededLevels
    ext level
    rw [walk?_binary_eq_some_iff, ihl, ihr, neededLevels, spentLevels_binary]
    simp only [Option.ite_none_right_eq_some, Option.some.injEq, max_le_iff]
    constructor
    · rintro ⟨m, n, ⟨hm, rfl⟩, ⟨hn, rfl⟩, hop, rfl⟩
      rw [Operator.affordable_iff (hl.trans hm) (hr.trans hn)] at hop
      exact ⟨⟨⟨hm, hn⟩, hop⟩, (Operator.level_sub _ _ _ op).symm⟩
    · rintro ⟨⟨⟨hm, hn⟩, hop⟩, rfl⟩
      rw [← Operator.affordable_iff (hl.trans hm) (hr.trans hn)] at hop
      exact ⟨_, _, ⟨hm, rfl⟩, ⟨hn, rfl⟩, hop, Operator.level_sub _ _ _ op⟩

/-! ## The depth -/

theorem requiredLevels_binary (op : Operator) (l r : Expression) :
    (binary op l r).requiredLevels =
      match op with
      | .add | .sub => max l.requiredLevels r.requiredLevels
      | .mul => max l.requiredLevels r.requiredLevels + 1
      | .div => max (l.requiredLevels + 1) r.requiredLevels := by
  cases op <;> simp only [requiredLevels, fold_binary]

/-- The depth leaves enough levels for the walk. -/
theorem neededLevels_le_requiredLevels (e : Expression) : e.neededLevels ≤ e.requiredLevels := by
  induction e with
  | literal value => exact le_rfl
  | binary op l r ihl ihr =>
    have hl := l.spentLevels_le_neededLevels
    have hr := r.spentLevels_le_neededLevels
    rw [neededLevels, spentLevels_binary, requiredLevels_binary]
    cases op <;> simp only [Operator.spent] <;> omega

theorem walk?_of_requiredLevels_le (h : e.requiredLevels ≤ top) :
    e.walk? top = some (top - e.spentLevels) :=
  (walk?_eq top e).trans (if_pos (e.neededLevels_le_requiredLevels.trans h))

/-- No divisor is deeper than the levels that its quotient spends. -/
def Shallow : Expression → Prop
  | literal _ => True
  | binary op l r =>
    l.Shallow ∧ r.Shallow ∧ (op = .div → r.requiredLevels ≤ l.spentLevels + 1)

/-- No quotient with a deeper divisor is multiplied or divided further. -/
def Settled : Expression → Prop
  | literal _ => True
  | binary .add l r | binary .sub l r => l.Settled ∧ r.Settled
  | binary .mul l r => l.Shallow ∧ r.Shallow
  | binary .div l r => l.Shallow ∧ r.Settled

theorem Shallow.requiredLevels_eq (h : e.Shallow) : e.requiredLevels = e.spentLevels := by
  induction e with
  | literal value => rfl
  | binary op l r ihl ihr =>
    obtain ⟨hl, hr, hdivisor⟩ := h
    have hl := ihl hl
    have hr := ihr hr
    rw [requiredLevels_binary, spentLevels_binary]
    cases op with
    | add | sub | mul => simp only [Operator.spent, hl, hr]
    | div =>
      -- The divisor is no deeper than the quotient, which needs just what it spends.
      have hle := hdivisor rfl
      simp only [Operator.spent]
      omega

/-- The depth of a settled expression is what the walk needs. -/
theorem Settled.requiredLevels_eq (h : e.Settled) : e.requiredLevels = e.neededLevels := by
  -- One side is known, so it is enough that the depth is spent somewhere within the expression.
  refine le_antisymm ?_ e.neededLevels_le_requiredLevels
  induction e with
  | literal value => exact le_rfl
  | binary op l r ihl ihr =>
    rw [neededLevels, requiredLevels_binary, spentLevels_binary]
    cases op with
    | add | sub =>
      have hl := ihl h.1
      have hr := ihr h.2
      simp only [Operator.spent]
      omega
    | mul =>
      obtain ⟨hl, hr⟩ := h
      simp only [Operator.spent, hl.requiredLevels_eq, hr.requiredLevels_eq]
      omega
    | div =>
      obtain ⟨hl, hr⟩ := h
      have hr := ihr hr
      simp only [Operator.spent, hl.requiredLevels_eq]
      omega

end Expression

namespace Evaluator

open Expression

variable {σ : Type} {sampler : Sampler σ} {ev : Evaluator} {d e l r : Expression} {op : Operator}
  {x y c : Ciphertext} {s s' : σ} {depth : ℕ}

/-! ## The replay -/

/-- The replay subtracts levels without looking whether there are any. -/
theorem level_of_rehearse {replayed : Float × ℕ} (h : ev.rehearse e = .ok replayed) :
    replayed.2 = e.levelFrom ev.context.topLevel := by
  -- The replay's level follows the same fold as `levelFrom`.
  induction e generalizing replayed with
  | literal value =>
    rw [rehearse, foldM_literal] at h
    rw [← Except.ok.inj h]
    rfl
  | binary op l r ihl ihr =>
    rw [rehearse, foldM_binary] at h
    simp only [bind_eq_ok_iff] at h
    obtain ⟨v, hv, w, hw, hop⟩ := h
    have hl := ihl hv
    have hr := ihr hw
    rw [levelFrom] at hl hr ⊢
    rw [fold_binary, (rehearseOperator_spec hop).1, hl, hr]

/-- A replay that completes does so for everything that occurs. -/
theorem exists_rehearse_of_within (hd : d.Within e) {replayed : Float × ℕ}
    (h : ev.rehearse e = .ok replayed) : ∃ w, ev.rehearse d = .ok w := by
  induction hd generalizing replayed with
  | refl => exact ⟨replayed, h⟩
  | left _ ih =>
    rw [rehearse, foldM_binary] at h
    simp only [bind_eq_ok_iff] at h
    obtain ⟨v, hv, -⟩ := h
    exact ih hv
  | right _ ih =>
    rw [rehearse, foldM_binary] at h
    simp only [bind_eq_ok_iff] at h
    obtain ⟨-, -, w, hw, -⟩ := h
    exact ih hw

theorem rehearse_ne_depthExceeded : ev.rehearse e ≠ Result.fail (.depthExceeded depth) := by
  have hcheck (value : Float) (level : ℕ) :
      ev.checkValue value level ≠ Result.fail (.depthExceeded depth) := by
    rw [checkValue]
    split
    · intro h
      cases fail_eq_fail_iff.1 h
    · exact ok_ne_fail
  -- A replay only checks values, and a value is out of range but never too deep.
  induction e with
  | literal value =>
    rw [rehearse, foldM_literal]
    exact ok_ne_fail
  | binary op l r ihl ihr =>
    rw [rehearse, foldM_binary]
    intro h
    rw [bind_eq_fail_iff] at h
    rcases h with h | ⟨v, -, h⟩
    · exact ihl h
    rw [bind_eq_fail_iff] at h
    rcases h with h | ⟨w, -, h⟩
    · exact ihr h
    rcases ev.rehearseOperator_cases op v w with heq | heq <;> rw [heq] at h
    · exact hcheck _ _ h
    · exact ok_ne_fail h

/-! ## The encrypted pass -/

/-- An operator that succeeds was afforded. -/
theorem affordable_of_apply (h : ev.apply op x y = .ok c) : op.Affordable x.level y.level := by
  cases op with
  | add | sub => trivial
  | mul => exact Context.pos_of_mul (Result.mapError_eq_ok_iff.1 h)
  | div =>
    obtain ⟨divisor, -, hproduct⟩ := exists_of_divide h
    exact Context.pos_of_mulPlain hproduct

/-- Only running out of levels is reported as a matter of depth. -/
theorem mapError_ofScheme_ne_depthExceeded {α : Type} {run : Result SchemeError α}
    (h : run ≠ Result.fail (.levelExhausted depth)) :
    Result.mapError RequestError.ofScheme run ≠ Result.fail (RequestError.depthExceeded depth) := by
  intro hrun
  obtain ⟨cause, hcause, hword⟩ := Result.mapError_eq_fail_iff.1 hrun
  cases cause with
  | levelExhausted n =>
    obtain rfl := RequestError.depthExceeded.inj hword
    exact h hcause
  | _ => cases hword

/-- An operator that can be afforded does not run out of levels. -/
theorem apply_ne_depthExceeded (h : op.Affordable x.level y.level) :
    ev.apply op x y ≠ Result.fail (.depthExceeded depth) := by
  cases op with
  | add => exact mapError_ofScheme_ne_depthExceeded Context.add_ne_levelExhausted
  | sub => exact mapError_ofScheme_ne_depthExceeded Context.sub_ne_levelExhausted
  | mul => exact mapError_ofScheme_ne_depthExceeded (Context.mul_ne_levelExhausted h)
  | div =>
    intro hdivide
    rw [apply, divide, bind_eq_fail_iff] at hdivide
    rcases hdivide with hdecrypt | ⟨divisor, -, hdivide⟩
    · exact mapError_ofScheme_ne_depthExceeded Context.decrypt_ne_levelExhausted hdecrypt
    split at hdivide
    · cases fail_eq_fail_iff.1 hdivide
    · exact mapError_ofScheme_ne_depthExceeded (Context.mulPlain_ne_levelExhausted h) hdivide

/-- An encrypted pass that completes has gone through the levels of the walk. -/
theorem walk?_of_answers_pass (h : Answers (ev.pass sampler e) s c s') :
    e.walk? ev.context.topLevel = some c.level := by
  induction e generalizing s s' c with
  | literal value =>
    rw [pass, foldM_literal, encrypt, answers_adapt] at h
    rw [walk?_literal, Context.level_of_encrypt h]
  | binary op l r ihl ihr =>
    obtain ⟨x, t, y, hx, hy, hop⟩ := answers_pass_binary.1 h
    exact walk?_binary_eq_some_iff.2
      ⟨_, _, ihl hx, ihr hy, affordable_of_apply hop, (level_of_apply hop).symm⟩

/-- An encrypted pass does not run out of levels if the walk completes. -/
theorem outcome_pass_ne_depthExceeded {level : ℕ}
    (h : e.walk? ev.context.topLevel = some level) :
    (ev.pass sampler e).outcome s ≠ (Result.fail (.depthExceeded depth), s') := by
  induction e generalizing s s' level with
  | literal value =>
    intro hrun
    have hencrypt : Result.mapError RequestError.ofScheme
        ((ev.context.encrypt sampler value).outcome s).1 =
          Result.fail (RequestError.depthExceeded depth) := by
      rw [pass, foldM_literal] at hrun
      exact congrArg Prod.fst hrun
    refine mapError_ofScheme_ne_depthExceeded (fun hfail => ?_) hencrypt
    exact Context.encrypt_ne_levelExhausted (Prod.ext hfail rfl)
  | binary op l r ihl ihr =>
    obtain ⟨m, n, hm, hn, hop, -⟩ := walk?_binary_eq_some_iff.1 h
    intro hrun
    rw [pass_binary, outcome_bind_eq_fail_iff] at hrun
    rcases hrun with hrun | ⟨x, t, hx, hrun⟩
    · exact ihl hm hrun
    rw [outcome_bind_eq_fail_iff] at hrun
    rcases hrun with hrun | ⟨y, t', hy, hrun⟩
    · exact ihr hn hrun
    -- The operands are at the levels of the walk.
    rw [walk?_of_answers_pass hx, Option.some.injEq] at hm
    rw [walk?_of_answers_pass hy, Option.some.injEq] at hn
    subst hm hn
    exact apply_ne_depthExceeded hop (congrArg Prod.fst hrun)

/-! ## The check -/

theorem checkDepth_eq_ok_iff :
    ev.checkDepth e = .ok () ↔ e.requiredLevels ≤ ev.context.topLevel := by
  rw [checkDepth]
  split
  · rename_i h
    exact ⟨fun hfail => absurd hfail fail_ne_ok, fun hle => absurd h (not_lt.2 hle)⟩
  · rename_i h
    exact ⟨fun _ => not_lt.1 h, fun _ => rfl⟩

/-- An evaluation answers that the depth is exceeded exactly if it is, and before anything is
drawn. -/
theorem outcome_evaluate_eq_depthExceeded_iff :
    (ev.evaluate sampler e).outcome s = (Result.fail (.depthExceeded depth), s') ↔
      ev.context.topLevel < e.requiredLevels ∧ depth = ev.context.topLevel ∧ s' = s := by
  by_cases hdepth : ev.context.topLevel < e.requiredLevels
  · have hrun : (ev.evaluate sampler e).outcome s =
        (Result.fail (.depthExceeded ev.context.topLevel), s) := by
      rw [evaluate, checkDepth, if_pos hdepth]
      rfl
    rw [hrun, Prod.mk.injEq, fail_eq_fail_iff, RequestError.depthExceeded.injEq]
    exact ⟨fun h => ⟨hdepth, h.1.symm, h.2.symm⟩, fun h => ⟨h.2.1.symm, h.2.2.symm⟩⟩
  · -- Once the check lets the expression pass, no later stage gives this error.
    refine ⟨fun hrun => ?_, fun h => absurd h.1 hdepth⟩
    have hwalk := walk?_of_requiredLevels_le (not_lt.1 hdepth)
    have hcheck := checkDepth_eq_ok_iff.2 (not_lt.1 hdepth)
    rcases hreplay : ev.rehearse e with (cause | cause) | replayed
    · rw [evaluate, hcheck, hreplay] at hrun
      cases congrArg Prod.fst hrun
    · rw [evaluate, hcheck, hreplay] at hrun
      have hcause : (Result.fail cause : Result RequestError Ciphertext) =
          Result.fail (.depthExceeded depth) := congrArg Prod.fst hrun
      obtain rfl := fail_eq_fail_iff.1 hcause
      exact absurd hreplay rehearse_ne_depthExceeded
    · rw [outcome_evaluate hcheck hreplay] at hrun
      exact absurd hrun (outcome_pass_ne_depthExceeded hwalk)

/-- Whatever the context, the expression and the draws: an evaluation answers that the depth is
exceeded exactly if the depth of the expression is above the top level. Behind the check everything
that occurs in the expression has one level, in the replay and in the encrypted pass, the operands
of every operator have a level to spend, and no product within the pass runs out of levels. -/
theorem levels_of_evaluate (sampler : Sampler σ) (ev : Evaluator) (e : Expression) (s : σ) :
    (∀ depth s', (ev.evaluate sampler e).outcome s = (Result.fail (.depthExceeded depth), s') ↔
      ev.context.topLevel < e.requiredLevels ∧ depth = ev.context.topLevel ∧ s' = s) ∧
    (e.requiredLevels ≤ ev.context.topLevel → ∀ d : Expression, d.Within e →
      ((∃ replayed, ev.rehearse e = .ok replayed) → ∃ replayed, ev.rehearse d = .ok replayed) ∧
      (∀ replayed, ev.rehearse d = .ok replayed →
        replayed.2 = d.levelFrom ev.context.topLevel) ∧
      (∀ t c t', Answers (ev.pass sampler d) t c t' →
        c.level = d.levelFrom ev.context.topLevel) ∧
      ∀ op l r, d = .binary op l r →
        op.Affordable (l.levelFrom ev.context.topLevel) (r.levelFrom ev.context.topLevel) ∧
        ∀ t x u y t', Answers (ev.pass sampler l) t x u → Answers (ev.pass sampler r) u y t' →
          (op = .mul → ∀ depth, ev.context.mul x y ≠ Result.fail (.levelExhausted depth)) ∧
          (op = .div → ∀ factor depth,
            ev.context.mulPlain x factor ≠ Result.fail (.levelExhausted depth))) := by
  refine ⟨fun depth s' => outcome_evaluate_eq_depthExceeded_iff, fun hdepth d hd => ?_⟩
  have hlevel {d : Expression} {t t' : σ} {c : Ciphertext}
      (h : Answers (ev.pass sampler d) t c t') : c.level = d.levelFrom ev.context.topLevel :=
    (levelFrom_of_walk? (walk?_of_answers_pass h)).symm
  -- The walk completes, so it does so at every operator that occurs.
  have hwalk := walk?_of_requiredLevels_le hdepth
  refine ⟨fun ⟨replayed, h⟩ => exists_rehearse_of_within hd h, fun replayed => level_of_rehearse,
    fun t c t' => hlevel, ?_⟩
  rintro op l r rfl
  obtain ⟨level, hoperator⟩ := hd.exists_walk? hwalk
  obtain ⟨m, n, hm, hn, hop, -⟩ := walk?_binary_eq_some_iff.1 hoperator
  rw [← levelFrom_of_walk? hm, ← levelFrom_of_walk? hn] at hop
  refine ⟨hop, fun t x u y t' hx hy => ?_⟩
  rw [← hlevel hx, ← hlevel hy] at hop
  constructor
  · rintro rfl depth
    exact Context.mul_ne_levelExhausted hop
  · rintro rfl factor depth
    exact Context.mulPlain_ne_levelExhausted hop

/-- The product of `4095 / 2048` and one spends the only level of the smallest ring. -/
theorem levels_of_product_smallest :
    ∃ (ev : Evaluator) (out : Ciphertext),
      Answers (Context.generate Sampler.steady Context.smallest 7) () ev.context () ∧
      product.requiredLevels ≤ ev.context.topLevel ∧
      Answers (ev.evaluate Sampler.steady product) () out () ∧ out.level = 0 := by
  obtain ⟨ctx, hctx, -, -⟩ := Context.exists_smallest 7
  have hrun : ((Context.generate Sampler.steady Context.smallest 7).outcome ()).1.toOption.any
      (fun ctx => ctx.topLevel == 1 && (((⟨ctx, 0⟩ : Evaluator).evaluate Sampler.steady
        product).outcome ()).1.isOk) = true := by
    decide +kernel
  rw [hctx] at hrun
  obtain ⟨htop, hok⟩ := Bool.and_eq_true_iff.1 hrun
  have htop : ctx.topLevel = 1 := beq_iff_eq.1 htop
  obtain ⟨out, ⟨⟩, hout⟩ := exists_answers_of_isOk hok
  have hdepth : product.requiredLevels ≤ ctx.topLevel := by
    rw [htop]
    decide
  obtain ⟨-, hlevels⟩ := levels_of_evaluate Sampler.steady ⟨ctx, 0⟩ product ()
  obtain ⟨-, -, hlevel, -⟩ := hlevels hdepth product .refl
  refine ⟨⟨ctx, 0⟩, out, hctx, hdepth, hout, ?_⟩
  rw [hlevel _ _ _ (answers_evaluate_iff.1 hout).2.2]
  show product.levelFrom ctx.topLevel = 0
  rw [htop]
  decide

/-- Whatever the context, the expression and the draws: the walk completes exactly from the top
levels that are at least what the expression needs. An encrypted pass completes from no other, and
from these it never runs out of levels. The check compares the top level with the depth, which is at
least what the expression needs and, if the expression is settled, no more. -/
theorem depth_check_spec (sampler : Sampler σ) (ev : Evaluator) (e : Expression) (s : σ) :
    (∀ top level, e.walk? top = some level ↔
      e.neededLevels ≤ top ∧ level = top - e.spentLevels) ∧
    (∀ c s', Answers (ev.pass sampler e) s c s' → e.neededLevels ≤ ev.context.topLevel) ∧
    (e.neededLevels ≤ ev.context.topLevel → ∀ depth s',
      (ev.pass sampler e).outcome s ≠ (Result.fail (.depthExceeded depth), s')) ∧
    e.neededLevels ≤ e.requiredLevels ∧
    ((∃ depth s', (ev.evaluate sampler e).outcome s = (Result.fail (.depthExceeded depth), s')) ↔
      ev.context.topLevel < e.requiredLevels) ∧
    (e.Settled → e.requiredLevels = e.neededLevels) := by
  have hwalk (top level : ℕ) : e.walk? top = some level ↔
      e.neededLevels ≤ top ∧ level = top - e.spentLevels := by
    rw [walk?_eq, Option.ite_none_right_eq_some, Option.some.injEq, eq_comm (a := level)]
  refine ⟨hwalk, fun c s' h => ((hwalk _ _).1 (walk?_of_answers_pass h)).1, fun h depth s' => ?_,
    e.neededLevels_le_requiredLevels, ?_, Settled.requiredLevels_eq⟩
  · exact outcome_pass_ne_depthExceeded ((hwalk _ _).2 ⟨h, rfl⟩)
  · simp only [outcome_evaluate_eq_depthExceeded_iff]
    exact ⟨fun ⟨_, _, h, _⟩ => h, fun h => ⟨_, _, h, rfl, rfl⟩⟩

/-- The quotient of one by `2 * 3 * 4`, times five. -/
def productOfQuotient : Expression :=
  .binary .mul
    (.binary .div (.literal 1)
      (.binary .mul (.binary .mul (.literal 2) (.literal 3)) (.literal 4)))
    (.literal 5)

/-- A ring with three data primes. -/
def threeLevels : Parameters :=
  { Context.smallest with widths := [30, 20, 20, 30] }

/-- With two levels to spend the product of the quotient is refused, although they are all that the
walk and the encrypted pass need. -/
theorem product_of_quotient_refused :
    ∃ (ev : Evaluator) (out : Ciphertext),
      Answers (Context.generate Sampler.steady threeLevels 7) () ev.context () ∧
      productOfQuotient.walk? ev.context.topLevel = some 0 ∧
      ev.context.topLevel < productOfQuotient.requiredLevels ∧
      (ev.evaluate Sampler.steady productOfQuotient).outcome () =
        (Result.fail (.depthExceeded 2), ()) ∧
      Answers (ev.pass Sampler.steady productOfQuotient) () out () ∧ out.level = 0 := by
  have hrun : ((Context.generate Sampler.steady threeLevels 7).outcome ()).1.toOption.any
      (fun ctx => ctx.topLevel == 2 && (((⟨ctx, 0⟩ : Evaluator).pass Sampler.steady
        productOfQuotient).outcome ()).1.isOk) = true := by
    decide +kernel
  rcases hctx : (Context.generate Sampler.steady threeLevels 7).outcome () with ⟨_ | ctx, ⟨⟩⟩
  · rw [hctx] at hrun
    cases hrun
  rw [hctx] at hrun
  obtain ⟨htop, hok⟩ := Bool.and_eq_true_iff.1 hrun
  have htop : ctx.topLevel = 2 := beq_iff_eq.1 htop
  obtain ⟨out, ⟨⟩, hout⟩ := exists_answers_of_isOk hok
  obtain ⟨hwalk, -, -, -, hrefused, -⟩ :=
    depth_check_spec Sampler.steady ⟨ctx, 0⟩ productOfQuotient ()
  have hcompletes : productOfQuotient.walk? 2 = some 0 := (hwalk 2 0).2 (by decide)
  have hdepth : (2 : ℕ) < productOfQuotient.requiredLevels := by decide
  refine ⟨⟨ctx, 0⟩, out, hctx, ?_, ?_, ?_, hout, ?_⟩
  · rw [htop]; exact hcompletes
  · rw [htop]; exact hdepth
  · obtain ⟨depth, s', h⟩ := hrefused.2 (by rw [htop]; exact hdepth)
    obtain ⟨-, hd, hs⟩ := outcome_evaluate_eq_depthExceeded_iff.1 h
    rw [h, hd, htop]
  · have := walk?_of_answers_pass hout
    rw [htop, hcompletes] at this
    exact (Option.some.inj this).symm

end Evaluator

end EncryptedArithmetic

import EncryptedArithmetic.Proofs.Scheme.Level
import EncryptedArithmetic.Proofs.Scheme.Scale
import EncryptedArithmetic.Request.Evaluation

/-!
# What the replay guards

Before an expression is evaluated on ciphertexts it is replayed in plain arithmetic, and a value is
refused that reaches half the modulus at its level once it is scaled. The replay scales by the scale
of the context, while a ciphertext carries a scale of its own, which drifts with every product. An
evaluation is therefore recorded node by node, with what the replay and what the encrypted pass say
of the node, and the two are compared.
-/

namespace EncryptedArithmetic

open Binary64

/-- The level of a result from the levels of the operands. -/
def Operator.level : Operator → ℕ → ℕ → ℕ
  | add, l, r | sub, l, r => min l r
  | mul, l, r => min l r - 1
  | div, l, _ => l - 1

/-! ## The record of an evaluation -/

/-- What is known of an expression after its evaluation. -/
structure NodeRecord where
  /-- The value of the replay. -/
  value : Float
  /-- The level of the replay. -/
  level : ℕ
  /-- The ciphertext of the encrypted pass. -/
  cipher : Ciphertext

/-- What is known of an expression and of all its operators. -/
structure EvaluationRecord where
  /-- The expression itself. -/
  root : NodeRecord
  /-- Its operators, operands first. -/
  nodes : List NodeRecord

/-! ## Values that fit -/

namespace Context

/-- The value, scaled as the ciphertext is, does not reach half the modulus at the level of the
ciphertext. -/
def Fits (ctx : Context) (value : Float) (c : Ciphertext) : Prop :=
  c.scale.isFinite ∧ |exact value| * exact c.scale < (ctx.modulus c.level : ℚ) / 2

instance (ctx : Context) (value : Float) (c : Ciphertext) : Decidable (ctx.Fits value c) :=
  inferInstanceAs (Decidable (_ ∧ _))

end Context

namespace Evaluator

variable {σ : Type} {sampler : Sampler σ} {ev : Evaluator} {s s' : σ}

/-- The record of an operator over two recorded operands. -/
def recordOperator (ev : Evaluator) (op : Operator) (l r : EvaluationRecord) :
    Result RequestError EvaluationRecord := do
  let (value, level) ←
    ev.rehearseOperator op (l.root.value, l.root.level) (r.root.value, r.root.level)
  let cipher ← ev.apply op l.root.cipher r.root.cipher
  return ⟨⟨value, level, cipher⟩, l.nodes ++ r.nodes ++ [⟨value, level, cipher⟩]⟩

/-- The record of a literal. -/
def recordLiteral (sampler : Sampler σ) (ev : Evaluator) (value : Float) :
    Drawing σ RequestError EvaluationRecord :=
  (fun cipher => ⟨⟨value, ev.context.topLevel, cipher⟩, []⟩) <$> ev.encrypt sampler value

/-- Replays and evaluates an expression in one pass that keeps a record of every operator. -/
def record (sampler : Sampler σ) (ev : Evaluator) (e : Expression) :
    Drawing σ RequestError EvaluationRecord :=
  e.foldM (ev.recordLiteral sampler) fun op l r => liftM (ev.recordOperator op l r)

/-- The encrypted pass. -/
def pass (sampler : Sampler σ) (ev : Evaluator) (e : Expression) :
    Drawing σ RequestError Ciphertext :=
  e.foldM (ev.encrypt sampler) fun op x y => liftM (ev.apply op x y)

/-- A record is what the replay and the encrypted pass give of the same expression. -/
theorem exists_answers_record_iff (e : Expression) (root : NodeRecord) :
    (∃ nodes, Answers (ev.record sampler e) s ⟨root, nodes⟩ s') ↔
      ev.rehearse e = .ok (root.value, root.level) ∧
        Answers (ev.pass sampler e) s root.cipher s' := by
  -- By induction on the expression: the two passes and the record walk through it in the same
  -- order.
  induction e generalizing s s' root with
  | literal value =>
    simp only [record, pass, rehearse, Expression.foldM_literal, recordLiteral, answers_map]
    constructor
    · rintro ⟨nodes, cipher, hcipher, hroot⟩
      obtain ⟨rfl, -⟩ := EvaluationRecord.mk.inj hroot
      exact ⟨rfl, hcipher⟩
    · rintro ⟨hroot, hcipher⟩
      obtain ⟨hvalue, hlevel⟩ := Prod.mk.inj (Except.ok.inj hroot)
      exact ⟨[], root.cipher, hcipher, by rw [hvalue, hlevel]⟩
  | binary op left right ihl ihr =>
    rw [record, pass, rehearse, Expression.foldM_binary, Expression.foldM_binary,
      Expression.foldM_binary]
    simp only [answers_bind, answers_liftM_result, bind_eq_ok_iff, recordOperator, pure_eq_ok,
      Except.ok.injEq, EvaluationRecord.mk.injEq]
    constructor
    · rintro ⟨nodes, l, t, hl, r, t', hr, ⟨replayed, hreplayed, cipher, hcipher, rfl, -⟩, rfl⟩
      obtain ⟨hleft, hx⟩ := (ihl l.root).1 ⟨l.nodes, hl⟩
      obtain ⟨hright, hy⟩ := (ihr r.root).1 ⟨r.nodes, hr⟩
      exact ⟨⟨_, hleft, _, hright, hreplayed⟩, _, t, hx, _, _, hy, hcipher, rfl⟩
    · rintro ⟨⟨vl, hleft, vr, hright, hreplayed⟩, x, t, hx, y, t', hy, hcipher, rfl⟩
      obtain ⟨nl, hl⟩ := (ihl ⟨vl.1, vl.2, x⟩).2 ⟨hleft, hx⟩
      obtain ⟨nr, hr⟩ := (ihr ⟨vr.1, vr.2, y⟩).2 ⟨hright, hy⟩
      exact ⟨_, _, t, hl, _, t', hr, ⟨_, hreplayed, _, hcipher, rfl, rfl⟩, rfl⟩

theorem answers_evaluate_iff {e : Expression} {out : Ciphertext} :
    Answers (ev.evaluate sampler e) s out s' ↔
      ev.checkDepth e = .ok () ∧ (∃ replayed, ev.rehearse e = .ok replayed) ∧
        Answers (ev.pass sampler e) s out s' := by
  simp only [evaluate, answers_bind, answers_liftM_result]
  constructor
  · rintro ⟨_, _, ⟨hdepth, rfl⟩, replayed, _, ⟨hreplayed, rfl⟩, hout⟩
    exact ⟨hdepth, ⟨replayed, hreplayed⟩, hout⟩
  · rintro ⟨hdepth, ⟨replayed, hreplayed⟩, hout⟩
    exact ⟨(), s, ⟨hdepth, rfl⟩, replayed, s, ⟨hreplayed, rfl⟩, hout⟩

/-! ## Levels and checks of the nodes -/

/-- The ciphertext is at the level of the replay, and a finite value passes the check there. -/
structure Consistent (ev : Evaluator) (node : NodeRecord) : Prop where
  level_eq : node.cipher.level = node.level
  checked : node.value.isFinite →
    ev.checkValue node.value node.level = .ok (node.value, node.level)

theorem eq_of_checkValue {value : Float} {level : ℕ} {replayed : Float × ℕ}
    (h : ev.checkValue value level = .ok replayed) : replayed = (value, level) := by
  unfold checkValue at h
  split at h
  · exact absurd h fail_ne_ok
  · exact (Except.ok.inj h).symm

/-- An operator is replayed by a check of its value, unless a divisor counts as zero. -/
theorem rehearseOperator_cases (ev : Evaluator) (op : Operator) (l r : Float × ℕ) :
    ev.rehearseOperator op l r = ev.checkValue (op.apply l.1 r.1) (op.level l.2 r.2) ∨
      ev.rehearseOperator op l r = .ok (0 / 0, op.level l.2 r.2) := by
  cases op with
  | add | sub | mul => exact Or.inl rfl
  | div =>
    rw [rehearseOperator]
    split
    · exact Or.inr rfl
    · exact Or.inl rfl

/-- The replay of an operator ends with a check of its value, unless the value is that of a zero
divisor. -/
theorem rehearseOperator_spec {op : Operator} {l r replayed : Float × ℕ}
    (h : ev.rehearseOperator op l r = .ok replayed) :
    replayed.2 = op.level l.2 r.2 ∧
      (replayed.1.isFinite → ev.checkValue replayed.1 replayed.2 = .ok replayed) := by
  rcases ev.rehearseOperator_cases op l r with heq | heq <;> rw [heq] at h
  · obtain rfl := eq_of_checkValue h
    exact ⟨rfl, fun _ => h⟩
  · -- The one value that is not checked is a not-a-number.
    obtain rfl := Except.ok.inj h
    have hnan : ¬(0 / 0 : Float).isFinite := by decide +kernel
    exact ⟨rfl, fun hfinite => absurd hfinite hnan⟩

/-- A quotient is a product with the reciprocal of the decrypted divisor. -/
theorem exists_of_divide {x y c : Ciphertext} (h : ev.divide x y = .ok c) :
    ∃ divisor, ev.context.decrypt y = .ok divisor ∧
      ev.context.mulPlain x (1 / divisor) = .ok c := by
  simp only [divide, bind_eq_ok_iff] at h
  obtain ⟨divisor, hdivisor, h⟩ := h
  split at h
  · exact absurd h fail_ne_ok
  · exact ⟨divisor, Result.mapError_eq_ok_iff.1 hdivisor, Result.mapError_eq_ok_iff.1 h⟩

/-- The encrypted pass moves through the levels as the replay does. -/
theorem level_of_apply {op : Operator} {x y c : Ciphertext} (h : ev.apply op x y = .ok c) :
    c.level = op.level x.level y.level := by
  cases op with
  | add => exact Context.level_of_add (Result.mapError_eq_ok_iff.1 h)
  | sub => exact Context.level_of_sub (Result.mapError_eq_ok_iff.1 h)
  | mul => exact Context.level_of_mul (Result.mapError_eq_ok_iff.1 h)
  | div =>
    obtain ⟨divisor, -, hproduct⟩ := exists_of_divide h
    exact Context.level_of_mulPlain hproduct

theorem consistent_of_recordOperator {op : Operator} {l r out : EvaluationRecord}
    (hl : l.root.cipher.level = l.root.level) (hr : r.root.cipher.level = r.root.level)
    (h : ev.recordOperator op l r = .ok out) :
    ev.Consistent out.root ∧ out.nodes = l.nodes ++ r.nodes ++ [out.root] := by
  simp only [recordOperator, bind_eq_ok_iff, pure_eq_ok, Except.ok.injEq] at h
  obtain ⟨⟨value, level⟩, hreplayed, cipher, hcipher, rfl⟩ := h
  obtain ⟨hlevel, hcheck⟩ := rehearseOperator_spec hreplayed
  refine ⟨⟨?_, hcheck⟩, rfl⟩
  show cipher.level = level
  rw [level_of_apply hcipher, hl, hr, ← hlevel]

/-- Every operator that is recorded is consistent. -/
theorem consistent_of_record {e : Expression} {out : EvaluationRecord}
    (h : Answers (ev.record sampler e) s out s') :
    out.root.cipher.level = out.root.level ∧ ∀ node ∈ out.nodes, ev.Consistent node := by
  -- By induction on the expression; the levels of the operands give that of the result.
  induction e generalizing s s' out with
  | literal value =>
    simp only [record, Expression.foldM_literal, recordLiteral, answers_map, encrypt,
      answers_adapt] at h
    obtain ⟨cipher, hcipher, rfl⟩ := h
    exact ⟨Context.level_of_encrypt hcipher, fun node hnode => absurd hnode List.not_mem_nil⟩
  | binary op left right ihl ihr =>
    rw [record, Expression.foldM_binary] at h
    simp only [answers_bind, answers_liftM_result] at h
    obtain ⟨l, t, hl, r, t', hr, hout, -⟩ := h
    obtain ⟨hlevell, hnodesl⟩ := ihl hl
    obtain ⟨hlevelr, hnodesr⟩ := ihr hr
    obtain ⟨hroot, hnodes⟩ := consistent_of_recordOperator hlevell hlevelr hout
    refine ⟨hroot.level_eq, ?_⟩
    intro node hnode
    rw [hnodes, List.mem_append, List.mem_append, List.mem_singleton] at hnode
    rcases hnode with (hnode | hnode) | rfl
    · exact hnodesl node hnode
    · exact hnodesr node hnode
    · exact hroot

/-! ## What the check guards -/

/-- The largest scaled magnitude that the check lets pass at a level. -/
def ceiling (ev : Evaluator) (level : ℕ) : ℚ :=
  largestBelow (ev.modulusAt level / 2)

/-- The scale of a ciphertext leaves room for every value that the check lets pass at its level. -/
def Guards (ev : Evaluator) (c : Ciphertext) : Prop :=
  c.scale.isFinite ∧
    2 * ev.ceiling c.level * exact c.scale < exact ev.context.scale * ev.context.modulus c.level

theorem atLeastOne_modulusAt {b : ℕ} (hscaled : ev.context.Scaled b) (level : ℕ) :
    AtLeastOne (ev.modulusAt level) := by
  have hone : AtLeastOne 1 := by
    refine Or.inr ⟨2 ^ 52, -52, by decide, ?_, le_rfl, le_rfl⟩
    exact unpack_of_ofFloat? (by decide +kernel) (by decide)
  have hprimes : ∀ p ∈ ev.context.primes.take (level + 1), 0 < p.toNat := fun p hp =>
    hscaled.prime_pos p (List.mem_of_mem_take hp)
  rw [modulusAt]
  -- By induction on the primes, for every product that was reached.
  generalize ev.context.primes.take (level + 1) = primes at hprimes
  generalize (1 : Float) = m at hone
  induction primes generalizing m with
  | nil => exact hone
  | cons p primes ih =>
    refine ih (fun q hq => hprimes q (List.mem_cons_of_mem p hq)) _ (hone.mul ?_)
    exact AtLeastOne.toFloat (hprimes p List.mem_cons_self)

/-- A finite value passes the check exactly if its scaled magnitude is below the ceiling. -/
theorem checkValue_eq_ok_iff {b : ℕ} (hscaled : ev.context.Scaled b) {value : Float}
    (hvalue : value.isFinite) (level : ℕ) :
    ev.checkValue value level = .ok (value, level) ↔
      |exact value| * exact ev.context.scale ≤ ev.ceiling level := by
  rw [ceiling, hscaled.exact_scale,
    ← not_half_le_iff (atLeastOne_modulusAt hscaled level) hscaled.unpack_scale hvalue, checkValue,
    hvalue, Bool.true_and]
  split
  · rename_i hle
    exact ⟨fun h => absurd h fail_ne_ok, fun h => absurd (of_decide_eq_true hle) h⟩
  · rename_i hle
    exact ⟨fun _ h => hle (decide_eq_true h), fun _ => rfl⟩

/-- The scale leaves room exactly if every finite value that passes the check fits. -/
theorem guards_iff {b : ℕ} (hscaled : ev.context.Scaled b) (c : Ciphertext) :
    ev.Guards c ↔ ∀ value : Float, value.isFinite →
      ev.checkValue value c.level = .ok (value, c.level) → ev.context.Fits value c := by
  have hpos : 0 < exact ev.context.scale := by
    rw [hscaled.exact_scale]
    positivity
  have hmodulus : (0 : ℚ) < ev.context.modulus c.level := by
    exact_mod_cast hscaled.modulus_pos c.level
  constructor
  · rintro ⟨hfinite, hroom⟩ value hvalue hcheck
    rw [checkValue_eq_ok_iff hscaled hvalue] at hcheck
    refine ⟨hfinite, ?_⟩
    -- A scale below zero leaves room for everything.
    by_cases hsign : 0 ≤ exact c.scale
    · have hscaledCheck := mul_le_mul_of_nonneg_right hcheck hsign
      rw [lt_div_iff₀ two_pos]
      refine lt_of_mul_lt_mul_left ?_ hpos.le
      calc exact ev.context.scale * (|exact value| * exact c.scale * 2)
          = 2 * (|exact value| * exact ev.context.scale * exact c.scale) := by ring
        _ ≤ 2 * (ev.ceiling c.level * exact c.scale) := by gcongr
        _ = 2 * ev.ceiling c.level * exact c.scale := by ring
        _ < exact ev.context.scale * ev.context.modulus c.level := hroom
    · have hneg : |exact value| * exact c.scale ≤ 0 :=
        mul_nonpos_of_nonneg_of_nonpos (abs_nonneg _) (not_le.1 hsign).le
      exact hneg.trans_lt (by positivity)
  · intro hfits
    -- The ceiling is reached by a value, which fits as well.
    obtain ⟨value, hvalue, hceiling⟩ :=
      exists_eq_largestBelow_half (atLeastOne_modulusAt hscaled c.level)
        (hscaled.bits_lt.trans (by norm_num))
    rw [← hscaled.exact_scale] at hceiling
    obtain ⟨hfinite, hlt⟩ :=
      hfits value hvalue ((checkValue_eq_ok_iff hscaled hvalue c.level).2 hceiling.le)
    refine ⟨hfinite, ?_⟩
    rw [lt_div_iff₀ two_pos] at hlt
    calc 2 * ev.ceiling c.level * exact c.scale
        = exact ev.context.scale * (|exact value| * exact c.scale * 2) := by
          rw [ceiling, ← hceiling]
          ring
      _ < exact ev.context.scale * ev.context.modulus c.level := by gcongr

/-- In every context of accepted parameters, whatever the expression and the draws: an evaluation
that succeeds has a record in which each operator's ciphertext is at the level of the replay and no
finite value is scaled by the context beyond the ceiling. The value fits at the scale that the
ciphertext carries if that scale leaves room for the ceiling, and otherwise the check lets values
pass there that do not fit. -/
theorem guards_of_evaluate {τ : Type} {source : Sampler τ} {params : Parameters} {id : UInt64}
    {t t' : τ} (hcontext : Answers (Context.generate source params id) t ev.context t')
    {e : Expression} {out : Ciphertext} (hrun : Answers (ev.evaluate sampler e) s out s') :
    ∃ recorded, Answers (ev.record sampler e) s recorded s' ∧ recorded.root.cipher = out ∧
      ∀ node ∈ recorded.nodes, node.cipher.level = node.level ∧
        (node.value.isFinite →
          |exact node.value| * exact ev.context.scale ≤ ev.ceiling node.level) ∧
        (node.value.isFinite → ev.Guards node.cipher → ev.context.Fits node.value node.cipher) ∧
        (ev.Guards node.cipher ↔ ∀ value : Float, value.isFinite →
          ev.checkValue value node.level = .ok (value, node.level) →
            ev.context.Fits value node.cipher) := by
  have hscaled := Context.scaled_of_generate hcontext
  -- The two passes that succeeded are put together to one record.
  obtain ⟨-, ⟨⟨value, level⟩, hreplayed⟩, hpass⟩ := answers_evaluate_iff.1 hrun
  obtain ⟨nodes, hrecord⟩ := (exists_answers_record_iff e ⟨value, level, out⟩).2 ⟨hreplayed, hpass⟩
  refine ⟨_, hrecord, rfl, ?_⟩
  intro node hnode
  obtain ⟨hlevel, hchecked⟩ := (consistent_of_record hrecord).2 node hnode
  have hguards := guards_iff hscaled node.cipher
  rw [hlevel] at hguards
  refine ⟨hlevel, ?_, ?_, hguards⟩
  · intro hvalue
    exact (checkValue_eq_ok_iff hscaled hvalue node.level).1 (hchecked hvalue)
  · intro hvalue hroom
    exact hguards.1 hroom node.value hvalue (hchecked hvalue)

/-- Whether an evaluation succeeds although the value of one of its operators does not fit. -/
def misses (sampler : Sampler σ) (ev : Evaluator) (e : Expression) (s : σ) : Bool :=
  match (ev.evaluate sampler e).outcome s, (ev.record sampler e).outcome s with
  | (.ok _, _), (.ok recorded, _) => recorded.nodes.any fun node =>
      node.value.isFinite && !decide (ev.context.Fits node.value node.cipher)
  | _, _ => false

theorem exists_of_misses {e : Expression} (h : ev.misses sampler e s) :
    ∃ (out : Ciphertext) (s' : σ), Answers (ev.evaluate sampler e) s out s' ∧
      ∀ (recorded : EvaluationRecord) (t : σ), Answers (ev.record sampler e) s recorded t →
        ∃ node ∈ recorded.nodes, node.value.isFinite ∧ ¬ev.context.Fits node.value node.cipher := by
  unfold misses at h
  rcases hout : (ev.evaluate sampler e).outcome s with ⟨_ | out, s'⟩
  · rw [hout] at h
    cases h
  refine ⟨out, s', hout, ?_⟩
  intro recorded t hrecorded
  have hrecorded' : (ev.record sampler e).outcome s = (.ok recorded, t) := hrecorded
  rw [hout, hrecorded'] at h
  obtain ⟨node, hnode, hmiss⟩ := List.any_eq_true.1 h
  simp only [Bool.and_eq_true, Bool.not_eq_true', decide_eq_false_iff_not] at hmiss
  exact ⟨node, hnode, hmiss⟩

/-- The product of `4095 / 2048` and one. -/
def product : Expression :=
  .binary .mul (.literal 1.99951171875) (.literal 1)

/-- In the smallest ring the product of `4095 / 2048` and one is evaluated, although its value
reaches half the prime that is left at the scale of the result. -/
theorem product_not_guarded :
    ∃ (ev : Evaluator) (out : Ciphertext) (recorded : EvaluationRecord) (node : NodeRecord),
      Answers (Context.generate Sampler.steady Context.smallest 7) () ev.context () ∧
      Answers (ev.evaluate Sampler.steady product) () out () ∧
      Answers (ev.record Sampler.steady product) () recorded () ∧ node ∈ recorded.nodes ∧
      node.value.isFinite ∧ ¬ev.Guards node.cipher ∧ ¬ev.context.Fits node.value node.cipher := by
  -- The scale is `2 ^ 20`, and the prime that the product is divided by is below it.
  have hrun : (match (Context.generate Sampler.steady Context.smallest 7).outcome () with
      | (.ok ctx, ()) => misses Sampler.steady ⟨ctx, 0⟩ product ()
      | _ => false) = true := by
    decide +kernel
  rcases hctx : (Context.generate Sampler.steady Context.smallest 7).outcome () with ⟨_ | ctx, ⟨⟩⟩
  · rw [hctx] at hrun
    cases hrun
  rw [hctx] at hrun
  obtain ⟨out, ⟨⟩, hout, hmissed⟩ := exists_of_misses hrun
  have hcontext : Answers (Context.generate Sampler.steady Context.smallest 7) ()
      (⟨ctx, 0⟩ : Evaluator).context () := hctx
  obtain ⟨recorded, hrecorded, -, hnodes⟩ := guards_of_evaluate hcontext hout
  obtain ⟨node, hnode, hfinite, hmiss⟩ := hmissed recorded () hrecorded
  obtain ⟨-, -, hfits, -⟩ := hnodes node hnode
  exact ⟨⟨ctx, 0⟩, out, recorded, node, hcontext, hout, hrecorded, hnode, hfinite,
    fun hguards => hmiss (hfits hfinite hguards), hmiss⟩

end Evaluator

end EncryptedArithmetic

import EncryptedArithmetic.Proofs.Fault
import EncryptedArithmetic.Proofs.Ring.Polynomial
import EncryptedArithmetic.Sampling.Basic

/-!
# What a source of randomness answers

`Answers` relates a computation that draws to a value it can answer, from one state of the source to
the next. A sequence answers what its parts do one after the other, so a key or a ciphertext that
was drawn is one that the computations below it give for some draws.

## Main results

* `answers_bind` and `answers_mapM`: sequences, and one computation for each entry of a list.
* `answers_drawGaussian`, `answers_drawTernary` and `over_of_drawPoly`: what a lawful sampler
  promises of its draws.
-/

namespace EncryptedArithmetic

open EncryptedArithmetic.Modular

/-- What a computation gives from a state of the source, and the state it leaves. -/
def Drawing.outcome {σ ε α : Type} (x : Drawing σ ε α) (s : σ) : Except (Failure ε) α × σ :=
  x.run.run s

/-- The computation answers `a` and takes the source from `s` to `s'`. -/
def Answers {σ ε α : Type} (x : Drawing σ ε α) (s : σ) (a : α) (s' : σ) : Prop :=
  x.outcome s = (.ok a, s')

section Laws

variable {σ ε δ α β : Type} {s s' : σ}

/-- A run that was seen to succeed has an answer. -/
theorem exists_answers_of_isOk {x : Drawing σ ε α} (h : (x.outcome s).1.isOk) :
    ∃ a s', Answers x s a s' := by
  rcases hrun : x.outcome s with ⟨_ | a, s'⟩
  · rw [hrun] at h
    cases h
  · exact ⟨a, s', hrun⟩

@[simp]
theorem answers_pure {a b : α} : Answers (pure a : Drawing σ ε α) s b s' ↔ a = b ∧ s = s' := by
  have hrun : (pure a : Drawing σ ε α).outcome s = (.ok a, s) := rfl
  rw [Answers, hrun, Prod.mk.injEq, Except.ok.injEq]

theorem outcome_bind {x : Drawing σ ε α} {f : α → Drawing σ ε β} :
    (x >>= f).outcome s =
      match x.outcome s with
      | (.ok a, t) => (f a).outcome t
      | (.error e, t) => (.error e, t) := by
  change (ExceptT.bindCont f (x.outcome s).1).run (x.outcome s).2 = _
  rcases x.outcome s with ⟨a | a, t⟩ <;> rfl

theorem answers_bind {x : Drawing σ ε α} {f : α → Drawing σ ε β} {b : β} :
    Answers (x >>= f) s b s' ↔ ∃ a t, Answers x s a t ∧ Answers (f a) t b s' := by
  simp only [Answers, outcome_bind]
  rcases x.outcome s with ⟨a | a, t⟩ <;> simp

/-- A sequence fails with its first part, or behind an answer of it with the second. -/
theorem outcome_bind_eq_fail_iff {x : Drawing σ ε α} {f : α → Drawing σ ε β} {e : ε} :
    (x >>= f).outcome s = (Result.fail e, s') ↔ x.outcome s = (Result.fail e, s') ∨
      ∃ a t, Answers x s a t ∧ (f a).outcome t = (Result.fail e, s') := by
  simp only [Answers, outcome_bind]
  rcases x.outcome s with ⟨a | a, t⟩ <;> simp [Result.fail]

@[simp]
theorem answers_map {x : Drawing σ ε α} {f : α → β} {b : β} :
    Answers (f <$> x) s b s' ↔ ∃ a, Answers x s a s' ∧ f a = b := by
  rw [← bind_pure_comp, answers_bind]
  simp only [answers_pure]
  constructor
  · rintro ⟨a, _, ha, hb, rfl⟩
    exact ⟨a, ha, hb⟩
  · rintro ⟨a, ha, hb⟩
    exact ⟨a, s', ha, hb, rfl⟩

/-- A step without draws answers its result and leaves the source as it is. -/
@[simp]
theorem answers_liftM_result {x : Result ε α} {a : α} :
    Answers (liftM x : Drawing σ ε α) s a s' ↔ x = .ok a ∧ s = s' := by
  have hrun : (liftM x : Drawing σ ε α).outcome s = (x, s) := rfl
  rw [Answers, hrun, Prod.mk.injEq]

@[simp]
theorem answers_liftM_fault {x : Except Fault α} {a : α} :
    Answers (liftM x : Drawing σ ε α) s a s' ↔ x = .ok a ∧ s = s' := by
  have hrun : (liftM x : Drawing σ ε α).outcome s = (liftM x, s) := rfl
  rw [Answers, hrun, Prod.mk.injEq, liftM_eq_ok_iff]

@[simp]
theorem not_answers_throw {e : Failure ε} {a : α} :
    ¬Answers (throw e : Drawing σ ε α) s a s' := by
  have hrun : (throw e : Drawing σ ε α).outcome s = (.error e, s) := rfl
  rw [Answers, hrun, Prod.mk.injEq]
  exact fun h => nomatch h.1

/-- Rewording errors does not change what is answered. -/
@[simp]
theorem answers_adapt {f : Failure ε → Failure δ} {x : Drawing σ ε α} {a : α} :
    Answers (ExceptT.adapt f x : Drawing σ δ α) s a s' ↔ Answers x s a s' := by
  have hrun : Drawing.outcome (ExceptT.adapt f x) s =
      ((x.outcome s).1.mapError f, (x.outcome s).2) := rfl
  rw [Answers, Answers, hrun]
  rcases x.outcome s with ⟨b, t⟩
  rw [Prod.mk.injEq, Prod.mk.injEq, mapError_eq_ok_iff]

/-- One computation for each entry: every answer was given at some point of the run. -/
theorem answers_mapM {f : α → Drawing σ ε β} {as : List α} {bs : List β}
    (h : Answers (as.mapM f) s bs s') :
    bs.length = as.length ∧ ∀ (i : ℕ) (a : α) (b : β), as[i]? = some a → bs[i]? = some b →
      ∃ t t', Answers (f a) t b t' := by
  -- By induction on the entries, with the state that each of them leaves.
  induction as generalizing s s' bs with
  | nil =>
    rw [List.mapM_nil, answers_pure] at h
    obtain ⟨rfl, -⟩ := h
    exact ⟨rfl, fun i a b ha => by simp at ha⟩
  | cons a as ih =>
    simp only [List.mapM_cons, answers_bind, answers_pure] at h
    obtain ⟨b, t, hb, bs, t', hbs, rfl, -⟩ := h
    obtain ⟨hlen, hget⟩ := ih hbs
    refine ⟨by simp [hlen], ?_⟩
    intro i a' b' ha hb'
    cases i with
    | zero =>
      obtain rfl := Option.some.inj ha
      obtain rfl := Option.some.inj hb'
      exact ⟨s, t, hb⟩
    | succ i => exact hget i a' b' ha hb'

/-- A computation that answers on every entry, whatever the state, answers on the list. -/
theorem exists_answers_mapM {f : α → Drawing σ ε β} {as : List α}
    (h : ∀ a ∈ as, ∀ s, ∃ b s', Answers (f a) s b s') (s : σ) :
    ∃ bs s', Answers (as.mapM f) s bs s' := by
  induction as generalizing s with
  | nil => exact ⟨[], s, by rw [List.mapM_nil, answers_pure]; exact ⟨rfl, rfl⟩⟩
  | cons a as ih =>
    obtain ⟨b, t, hb⟩ := h a List.mem_cons_self s
    obtain ⟨bs, t', hbs⟩ := ih (fun a' ha => h a' (List.mem_cons_of_mem a ha)) t
    refine ⟨b :: bs, t', ?_⟩
    rw [List.mapM_cons, answers_bind]
    refine ⟨b, t, hb, ?_⟩
    rw [answers_bind]
    exact ⟨bs, t', hbs, answers_pure.2 ⟨rfl, rfl⟩⟩

/-- What every step of a fold keeps, given the entries that are left, holds when none is left. -/
theorem Answers.of_foldlM {f : β → α → Drawing σ ε β} {P : List α → β → Prop}
    (hstep : ∀ {a as b b' t t'}, P (a :: as) b → Answers (f b a) t b' t' → P as b')
    {as : List α} {b b' : β} (hb : P as b) (h : Answers (as.foldlM f b) s b' s') : P [] b' := by
  induction as generalizing b s with
  | nil =>
    rw [List.foldlM_nil, answers_pure] at h
    exact h.1 ▸ hb
  | cons a as ih =>
    rw [List.foldlM_cons, answers_bind] at h
    obtain ⟨b₁, t, hhead, htail⟩ := h
    exact ih (hstep hb hhead) htail

/-- A fold has an answer when each of its steps has one, whatever went before. -/
theorem exists_answers_foldlM {f : β → α → Drawing σ ε β} {as : List α}
    (h : ∀ a ∈ as, ∀ b s, ∃ b' s', Answers (f b a) s b' s') (b : β) (s : σ) :
    ∃ b' s', Answers (as.foldlM f b) s b' s' := by
  induction as generalizing b s with
  | nil => exact ⟨b, s, by rw [List.foldlM_nil, answers_pure]; exact ⟨rfl, rfl⟩⟩
  | cons a as ih =>
    obtain ⟨hhead, htail⟩ := List.forall_mem_cons.1 h
    obtain ⟨b₁, t, hb₁⟩ := hhead b s
    obtain ⟨b', s', hb'⟩ := ih htail b₁ t
    exact ⟨b', s', by rw [List.foldlM_cons, answers_bind]; exact ⟨b₁, t, hb₁, hb'⟩⟩

end Laws

/-! ## Draws -/

namespace Sampler

variable {σ ε : Type} {S : Sampler σ} {s s' : σ}

/-- A vector that is drawn is the one that the source gave. -/
theorem answers_drawVector {α : Type} {count : ℕ} {draw : σ → List α × σ} {xs : List α}
    (h : Answers (drawVector count draw : Drawing σ ε (List α)) s xs s') : xs = (draw s).1 := by
  unfold drawVector at h
  split at h
  · have hrun : Drawing.outcome (ExceptT.lift draw : Drawing σ ε (List α)) s =
        (.ok (draw s).1, (draw s).2) := rfl
    rw [Answers, hrun, Prod.mk.injEq] at h
    exact (Except.ok.inj h.1).symm
  · exact absurd h not_answers_throw

theorem answers_drawGaussian {count : ℕ} {deviation : Float} {xs : List Int}
    (h : Answers (S.drawGaussian count deviation : Drawing σ ε (List Int)) s xs s') :
    xs = (S.gaussian count deviation s).1 := by
  unfold drawGaussian at h
  split at h
  · exact answers_drawVector h
  · exact absurd h not_answers_throw

theorem answers_drawTernary {count weight : ℕ} {xs : List Int}
    (h : Answers (S.drawTernary count weight : Drawing σ ε (List Int)) s xs s') :
    weight ≤ count ∧ xs = (S.ternary count weight s).1 := by
  unfold drawTernary at h
  split at h
  · rename_i hle
    exact ⟨hle, answers_drawVector h⟩
  · exact absurd h not_answers_throw

/-- Uniform residues of a lawful sampler are reduced. -/
theorem reduced_of_drawUniform (hS : S.Lawful) {count : ℕ} {modulus : UInt64} {xs : List UInt64}
    (h : Answers (S.drawUniform count modulus : Drawing σ ε (List UInt64)) s xs s') :
    Reduced modulus count xs := by
  unfold drawUniform at h
  split at h
  · exact absurd h not_answers_throw
  · rename_i hne
    have hpos : 0 < modulus := by
      rw [UInt64.lt_iff_toNat_lt]
      exact Nat.pos_of_ne_zero fun h0 => hne (UInt64.toNat_inj.1 h0)
    rw [answers_drawVector h]
    exact ⟨hS.uniform_length _ _ _, hS.uniform_lt _ _ _ hpos⟩

/-- The degree is read off the table that leads the list; all tables have the same. -/
theorem leadingDegree_eq {moduli : List RootTable} {n : ℕ} (hn : ∀ t ∈ moduli, t.degree = n)
    (hne : moduli ≠ []) : (moduli.head?.map RootTable.degree).getD 0 = n := by
  obtain ⟨table, rest, rfl⟩ := List.exists_cons_of_ne_nil hne
  rw [List.head?_cons, Option.map_some, Option.getD_some, hn table List.mem_cons_self]

/-- A uniform polynomial is kept over its moduli. -/
theorem over_of_drawPoly (hS : S.Lawful) {moduli : List RootTable} {n : ℕ}
    (hn : ∀ t ∈ moduli, t.degree = n) {a : ResiduePoly}
    (h : Answers (S.drawPoly moduli : Drawing σ ε ResiduePoly) s a s') :
    a.Over moduli .transformed := by
  simp only [drawPoly, answers_bind, answers_pure] at h
  obtain ⟨cs, t, hcs, rfl, -⟩ := h
  -- One channel for each table, and each of them a draw of its own.
  obtain ⟨hlen, hget⟩ := answers_mapM hcs
  apply ResiduePoly.over_of_channels hlen
  intro i t ht
  have hc := List.getElem?_eq_getElem (l := cs) (hlen ▸ (List.getElem?_eq_some_iff.1 ht).1)
  obtain ⟨u, u', hdraw⟩ := hget i t _ ht hc
  simp only [answers_bind, answers_pure] at hdraw
  obtain ⟨xs, v, hxs, hchannel, -⟩ := hdraw
  refine ⟨xs, by rw [hc, ← hchannel], ?_⟩
  have hmem := List.mem_of_getElem? ht
  have hdegree : (moduli.head?.map RootTable.degree).getD 0 = t.degree :=
    (leadingDegree_eq hn (List.ne_nil_of_mem hmem)).trans (hn t hmem).symm
  exact hdegree ▸ reduced_of_drawUniform hS hxs

/-! ### Draws have no errors of the domain -/

theorem outcome_drawVector_ne_fail {α : Type} {count : ℕ} {draw : σ → List α × σ} {e : ε} :
    (drawVector count draw : Drawing σ ε (List α)).outcome s ≠ (Result.fail e, s') := by
  unfold drawVector
  split <;> exact fun h => nomatch congrArg Prod.fst h

theorem outcome_drawGaussian_ne_fail {count : ℕ} {deviation : Float} {e : ε} :
    (S.drawGaussian count deviation : Drawing σ ε (List Int)).outcome s ≠ (Result.fail e, s') := by
  unfold drawGaussian
  split
  · exact outcome_drawVector_ne_fail
  · exact fun h => nomatch congrArg Prod.fst h

theorem outcome_drawTernary_ne_fail {count weight : ℕ} {e : ε} :
    (S.drawTernary count weight : Drawing σ ε (List Int)).outcome s ≠ (Result.fail e, s') := by
  unfold drawTernary
  split
  · exact outcome_drawVector_ne_fail
  · exact fun h => nomatch congrArg Prod.fst h

/-! ### Draws that have an answer -/

theorem addressable_of_le {count : ℕ} (h : count ≤ 32768) : addressable count := by
  have hpow : 1 <<< 63 = 9223372036854775808 := rfl
  exact decide_eq_true (by omega)

theorem answers_drawVector_of_addressable {α : Type} {count : ℕ} (h : addressable count)
    (draw : σ → List α × σ) (s : σ) :
    Answers (drawVector count draw : Drawing σ ε (List α)) s (draw s).1 (draw s).2 := by
  rw [drawVector, if_pos h]
  rfl

theorem answers_drawUniform_of_addressable {count : ℕ} {modulus : UInt64}
    (hcount : addressable count) (hmodulus : modulus ≠ 0) (s : σ) :
    Answers (S.drawUniform count modulus : Drawing σ ε (List UInt64)) s
      (S.uniform count modulus s).1 (S.uniform count modulus s).2 := by
  rw [drawUniform, if_neg hmodulus]
  exact answers_drawVector_of_addressable hcount _ s

theorem answers_drawGaussian_of_addressable {count : ℕ} {deviation : Float}
    (hcount : addressable count) (hdeviation : (deviation.isFinite && 0 < deviation) = true)
    (s : σ) :
    Answers (S.drawGaussian count deviation : Drawing σ ε (List Int)) s
      (S.gaussian count deviation s).1 (S.gaussian count deviation s).2 := by
  rw [drawGaussian, if_pos hdeviation]
  exact answers_drawVector_of_addressable hcount _ s

theorem answers_drawTernary_of_addressable {count weight : ℕ} (hcount : addressable count)
    (hweight : weight ≤ count) (s : σ) :
    Answers (S.drawTernary count weight : Drawing σ ε (List Int)) s
      (S.ternary count weight s).1 (S.ternary count weight s).2 := by
  rw [drawTernary, if_pos hweight]
  exact answers_drawVector_of_addressable hcount _ s

theorem exists_answers_drawGaussian {count : ℕ} {deviation : Float} (hcount : addressable count)
    (hdeviation : (deviation.isFinite && 0 < deviation) = true) (s : σ) :
    ∃ xs s', Answers (S.drawGaussian count deviation : Drawing σ ε (List Int)) s xs s' :=
  ⟨_, _, answers_drawGaussian_of_addressable hcount hdeviation s⟩

theorem exists_answers_drawTernary {count weight : ℕ} (hcount : addressable count)
    (hweight : weight ≤ count) (s : σ) :
    ∃ xs s', Answers (S.drawTernary count weight : Drawing σ ε (List Int)) s xs s' :=
  ⟨_, _, answers_drawTernary_of_addressable hcount hweight s⟩

theorem exists_answers_drawPoly {moduli : List RootTable} (hm : ∀ t ∈ moduli, 0 < t.prime)
    (hcount : addressable ((moduli.head?.map RootTable.degree).getD 0)) (s : σ) :
    ∃ a s', Answers (S.drawPoly moduli : Drawing σ ε ResiduePoly) s a s' := by
  have hchannel : ∀ t ∈ moduli, ∀ s, ∃ c s', Answers (do
      return ⟨t, ← S.drawUniform ((moduli.head?.map RootTable.degree).getD 0) t.prime⟩ :
        Drawing σ ε Channel) s c s' := by
    intro t ht s
    have hne : t.prime ≠ 0 := by
      rintro h0
      exact absurd (hm t ht) (by rw [h0]; decide)
    have huniform : Answers (S.drawUniform _ t.prime : Drawing σ ε (List UInt64)) s _ _ :=
      answers_drawUniform_of_addressable hcount hne s
    exact ⟨_, _, answers_bind.2 ⟨_, _, huniform, answers_pure.2 ⟨rfl, rfl⟩⟩⟩
  obtain ⟨cs, s', hcs⟩ := exists_answers_mapM hchannel s
  exact ⟨_, s', answers_bind.2 ⟨cs, s', hcs, answers_pure.2 ⟨rfl, rfl⟩⟩⟩

/-! ### A source that always gives the same -/

/-- Zeros for residues, ones for errors, and secrets that start with their ones. -/
def steady : Sampler Unit where
  uniform n _ _ := (List.replicate n 0, ())
  gaussian n _ _ := (List.replicate n 1, ())
  ternary n w _ := (List.replicate (min w n) 1 ++ List.replicate (n - w) 0, ())

theorem lawful_steady : steady.Lawful where
  uniform_length n q s := List.length_replicate
  uniform_lt n q s hq r hr := (List.mem_replicate.1 hr).2 ▸ hq
  gaussian_length n d s := List.length_replicate
  gaussian_word n d s x hx := by
    rw [(List.mem_replicate.1 hx).2]
    decide
  ternary_length n w s := by
    simp only [steady, List.length_append, List.length_replicate]
    omega
  ternary_mem n w s x hx := by
    rcases List.mem_append.1 hx with hx | hx
    · exact .inr (.inr (List.mem_replicate.1 hx).2)
    · exact .inr (.inl (List.mem_replicate.1 hx).2)
  ternary_weight n w s hw := by
    simp [steady, List.countP_append, List.countP_replicate, hw]

end Sampler

end EncryptedArithmetic

import EncryptedArithmetic.Proofs.Sampling

/-!
# Computations without faults

A computation delivers a property when it never ends in a fault and every answer it gives has the
property; an error of the domain is allowed. This is what the layers above the ring promise, and it
is passed on from the parts of a sequence to the whole.

## Main definitions

* `Result.Delivers`, `Drawing.Delivers`: no fault, and every answer has the property.

## Main results

* `Result.Delivers.bind`, `Drawing.Delivers.bind`: sequences.
* `Drawing.delivers_drawGaussian`, `Drawing.delivers_drawTernary`: draws whose preconditions hold.
-/

namespace EncryptedArithmetic

namespace Result

/-- The computation has no fault, and its answer has the property. -/
structure Delivers {ε α : Type} (x : Result ε α) (P : α → Prop) : Prop where
  of_ok : ∀ a, x = .ok a → P a
  ne_fault : ∀ f, x ≠ .error (.fault f)

variable {ε δ α β : Type} {P : α → Prop} {Q : β → Prop}

theorem delivers_ok {a : α} (h : P a) : Delivers (.ok a : Result ε α) P where
  of_ok _ ha := Except.ok.inj ha ▸ h
  ne_fault _ := nofun

theorem delivers_fail (e : ε) : Delivers (.fail e) P where
  of_ok _ := nofun
  ne_fault _ := nofun

/-- A computation of the ring layer that succeeds. -/
theorem delivers_liftM {x : Except Fault α} {a : α} (hx : x = .ok a) (h : P a) :
    Delivers (liftM x : Result ε α) P := by
  rw [hx]
  exact delivers_ok h

/-- The second part of a sequence may use what the first one delivers. -/
theorem Delivers.bind {x : Result ε α} {f : α → Result ε β} (hx : x.Delivers P)
    (hf : ∀ a, P a → (f a).Delivers Q) : Delivers (x >>= f) Q := by
  cases x with
  | ok a => exact hf a (hx.of_ok a rfl)
  | error e =>
    cases e with
    | fault cause => exact absurd rfl (hx.ne_fault cause)
    | error cause => exact delivers_fail cause

/-- A step of the ring layer that succeeds is passed over. -/
theorem delivers_liftM_bind {x : Except Fault α} {a : α} {f : α → Result ε β} (hx : x = .ok a)
    (hf : (f a).Delivers Q) : Delivers (liftM x >>= f) Q := by
  rw [hx]
  exact hf

/-- Rewording errors makes no fault. -/
theorem Delivers.mapError {x : Result ε α} (hx : x.Delivers P) (f : ε → δ) :
    Delivers (x.mapError f) P := by
  cases x with
  | ok a => exact delivers_ok (hx.of_ok a rfl)
  | error e =>
    cases e with
    | fault cause => exact absurd rfl (hx.ne_fault cause)
    | error cause => exact delivers_fail (f cause)

end Result

namespace Drawing

/-- The computation delivers the property from every state of the source. -/
def Delivers {σ ε α : Type} (x : Drawing σ ε α) (P : α → Prop) : Prop :=
  ∀ s, Result.Delivers (x.outcome s).1 P

variable {σ ε α β : Type} {P : α → Prop} {Q : β → Prop}

/-- A step without draws delivers what it delivers alone. -/
theorem delivers_liftM {x : Result ε α} (hx : x.Delivers P) :
    Delivers (liftM x : Drawing σ ε α) P := fun _ => hx

theorem delivers_liftM_fault {x : Except Fault α} {a : α} (hx : x = .ok a) (h : P a) :
    Delivers (liftM x : Drawing σ ε α) P := fun _ => Result.delivers_liftM hx h

theorem Delivers.bind {x : Drawing σ ε α} {f : α → Drawing σ ε β} (hx : x.Delivers P)
    (hf : ∀ a, P a → (f a).Delivers Q) : Delivers (x >>= f) Q := by
  intro s
  have h := hx s
  rw [outcome_bind]
  generalize x.outcome s = r at h ⊢
  rcases r with ⟨e | a, t⟩
  · refine ⟨nofun, ?_⟩
    rintro cause ⟨⟩
    exact h.ne_fault cause rfl
  · exact hf a (h.of_ok a rfl) t

/-- Rewording errors makes no fault. -/
theorem Delivers.adapt {δ : Type} {x : Drawing σ ε α} (hx : x.Delivers P) (f : ε → δ) :
    Delivers (ExceptT.adapt (Failure.map f) x : Drawing σ δ α) P := fun s =>
  (hx s).mapError f

/-- A step of the ring layer that succeeds is passed over. -/
theorem delivers_liftM_bind {x : Except Fault α} {a : α} {f : α → Drawing σ ε β} (hx : x = .ok a)
    (hf : (f a).Delivers Q) : Delivers (liftM x >>= f) Q := by
  rw [hx]
  exact hf

/-- Errors can be drawn with a deviation that is accepted. -/
theorem delivers_drawGaussian {sampler : Sampler σ} (hsampler : sampler.Lawful) {count : ℕ}
    {deviation : Float} (hcount : Sampler.addressable count)
    (hdeviation : (deviation.isFinite && 0 < deviation) = true) :
    Delivers (sampler.drawGaussian count deviation : Drawing σ ε (List Int))
      fun xs => xs.length = count := by
  intro s
  obtain ⟨xs, s', h⟩ : ∃ xs s', Answers (sampler.drawGaussian count deviation :
      Drawing σ ε (List Int)) s xs s' := sampler.exists_answers_drawGaussian hcount hdeviation s
  have hlength : xs.length = count := by
    rw [Sampler.answers_drawGaussian h, hsampler.gaussian_length]
  rw [h]
  exact Result.delivers_ok hlength

/-- A ternary vector can be drawn with a weight up to its length. -/
theorem delivers_drawTernary {sampler : Sampler σ} (hsampler : sampler.Lawful) {count weight : ℕ}
    (hcount : Sampler.addressable count) (hweight : weight ≤ count) :
    Delivers (sampler.drawTernary count weight : Drawing σ ε (List Int))
      fun xs => xs.length = count := by
  intro s
  obtain ⟨xs, s', h⟩ : ∃ xs s', Answers (sampler.drawTernary count weight :
      Drawing σ ε (List Int)) s xs s' := sampler.exists_answers_drawTernary hcount hweight s
  have hlength : xs.length = count := by
    rw [(Sampler.answers_drawTernary h).2, hsampler.ternary_length]
  rw [h]
  exact Result.delivers_ok hlength

end Drawing

end EncryptedArithmetic

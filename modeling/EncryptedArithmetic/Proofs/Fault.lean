import EncryptedArithmetic.Fault
import Mathlib.Data.List.Forall2

/-!
# Computations that succeed

Laws of `Except` for taking apart computations that may end in a fault: what a successful sequence
says about its parts, and when a computation over a list succeeds.
-/

namespace EncryptedArithmetic

section Except

variable {ε α β : Type}

@[simp]
theorem ok_bind (a : α) (f : α → Except ε β) : (Except.ok a >>= f) = f a := rfl

@[simp]
theorem error_bind (e : ε) (f : α → Except ε β) : (Except.error e >>= f) = .error e := rfl

@[simp]
theorem pure_eq_ok (a : α) : (pure a : Except ε α) = .ok a := rfl

@[simp]
theorem mapError_ok {δ : Type} (f : ε → δ) (a : α) :
    (Except.ok a : Except ε α).mapError f = .ok a := rfl

/-- A sequence succeeds when both of its parts do. -/
theorem bind_eq_ok_iff {x : Except ε α} {f : α → Except ε β} {b : β} :
    x >>= f = .ok b ↔ ∃ a, x = .ok a ∧ f a = .ok b := by
  cases x <;> simp

theorem exists_eq_ok_of_isOk {x : Except ε α} (h : x.isOk) : ∃ a, x = .ok a := by
  cases x with
  | error e => cases h
  | ok a => exact ⟨a, rfl⟩

/-- A computation on every entry succeeds when it does on each of them. -/
theorem mapM_eq_ok_iff {f : α → Except ε β} {as : List α} {bs : List β} :
    as.mapM f = .ok bs ↔ List.Forall₂ (fun a b => f a = .ok b) as bs := by
  induction as generalizing bs with
  | nil => simp [eq_comm]
  | cons a as ih =>
    rw [List.mapM_cons, bind_eq_ok_iff]
    simp only [bind_eq_ok_iff, pure_eq_ok, Except.ok.injEq, ih]
    constructor
    · rintro ⟨b, hb, bs', hbs, rfl⟩
      exact .cons hb hbs
    · intro h
      cases h with
      | cons hb hbs => exact ⟨_, hb, _, hbs, rfl⟩

/-- The entries of the answer are the answers for the entries. -/
theorem getElem?_of_mapM_eq_ok {f : α → Except ε β} {as : List α} {bs : List β}
    (h : as.mapM f = .ok bs) {i : Nat} {a : α} {b : β} (ha : as[i]? = some a)
    (hb : bs[i]? = some b) : f a = .ok b := by
  have hall := mapM_eq_ok_iff.1 h
  induction hall generalizing i with
  | nil => cases ha
  | cons hab hall ih =>
    cases i with
    | zero =>
      obtain rfl := Option.some.inj ha
      obtain rfl := Option.some.inj hb
      exact hab
    | succ i => exact ih (mapM_eq_ok_iff.2 hall) ha hb

theorem length_of_mapM_eq_ok {f : α → Except ε β} {as : List α} {bs : List β}
    (h : as.mapM f = .ok bs) : bs.length = as.length :=
  (mapM_eq_ok_iff.1 h).length_eq.symm

theorem exists_mapM_eq_ok {f : α → Except ε β} {as : List α} (h : ∀ a ∈ as, ∃ b, f a = .ok b) :
    ∃ bs, as.mapM f = .ok bs := by
  induction as with
  | nil => exact ⟨[], rfl⟩
  | cons a as ih =>
    obtain ⟨b, hb⟩ := h a List.mem_cons_self
    obtain ⟨bs, hbs⟩ := ih fun a' ha => h a' (List.mem_cons_of_mem a ha)
    exact ⟨b :: bs, mapM_eq_ok_iff.2 (.cons hb (mapM_eq_ok_iff.1 hbs))⟩

/-- A computation that gives the values of a function gives their list. -/
theorem mapM_eq_ok_map {f : α → Except ε β} {g : α → β} {as : List α}
    (h : ∀ a ∈ as, f a = .ok (g a)) : as.mapM f = .ok (as.map g) :=
  mapM_eq_ok_iff.2 (List.forall₂_map_right_iff.2 (List.forall₂_same.2 h))

/-- An error comes from one of the entries. -/
theorem exists_of_mapM_eq_error {f : α → Except ε β} {as : List α} {e : ε}
    (h : as.mapM f = .error e) : ∃ a ∈ as, f a = .error e := by
  -- The first member that fails gives its error; a later one is reached only past answers.
  induction as with
  | nil => cases h
  | cons a as ih =>
    rw [List.mapM_cons] at h
    rcases hfirst : f a with e' | b
    · rw [hfirst, error_bind] at h
      obtain rfl := Except.error.inj h
      exact ⟨a, List.mem_cons_self, hfirst⟩
    rcases hrest : as.mapM f with e' | bs
    · rw [hfirst, hrest, ok_bind, error_bind] at h
      obtain rfl := Except.error.inj h
      obtain ⟨a', ha', he⟩ := ih hrest
      exact ⟨a', List.mem_cons_of_mem a ha', he⟩
    · rw [hfirst, hrest] at h
      cases h

end Except

section Result

variable {ε δ α : Type}

@[simp]
theorem liftM_ok (a : α) : (liftM (Except.ok a : Except Fault α) : Result ε α) = .ok a := rfl

/-- A computation of the ring layer succeeds within a request exactly when it does alone. -/
@[simp]
theorem liftM_eq_ok_iff {x : Except Fault α} {a : α} :
    (liftM x : Result ε α) = .ok a ↔ x = .ok a := by
  cases x with
  | ok b => simp
  | error e => exact ⟨nofun, nofun⟩

@[simp]
theorem mapError_eq_ok_iff {f : ε → δ} {x : Except ε α} {a : α} :
    x.mapError f = .ok a ↔ x = .ok a := by
  cases x with
  | ok b => simp
  | error e => exact ⟨nofun, nofun⟩

@[simp]
theorem Result.mapError_eq_ok_iff {f : ε → δ} {x : Result ε α} {a : α} :
    Result.mapError f x = .ok a ↔ x = .ok a :=
  EncryptedArithmetic.mapError_eq_ok_iff

@[simp]
theorem fail_ne_ok {e : ε} {a : α} : (Result.fail e : Result ε α) ≠ .ok a := nofun

/-- A sequence fails with an error of the domain of its first part, or behind an answer of it with
one of the second. -/
theorem bind_eq_fail_iff {β : Type} {x : Result ε α} {f : α → Result ε β} {e : ε} :
    x >>= f = .fail e ↔ x = .fail e ∨ ∃ a, x = .ok a ∧ f a = .fail e := by
  cases x <;> simp [Result.fail]

@[simp]
theorem ok_ne_fail {e : ε} {a : α} : (Except.ok a : Result ε α) ≠ Result.fail e := nofun

@[simp]
theorem fail_eq_fail_iff {e e' : ε} : (Result.fail e : Result ε α) = .fail e' ↔ e = e' := by
  simp [Result.fail]

/-- The ring layer knows no errors of the domain. -/
@[simp]
theorem liftM_ne_fail {x : Except Fault α} {e : ε} : (liftM x : Result ε α) ≠ Result.fail e := by
  cases x <;> nofun

theorem Result.mapError_eq_fail_iff {f : ε → δ} {x : Result ε α} {e : δ} :
    Result.mapError f x = .fail e ↔ ∃ cause, x = .fail cause ∧ f cause = e := by
  rcases x with (cause | cause) | a <;>
    simp [Result.mapError, Except.mapError, Failure.map, Result.fail]

end Result

end EncryptedArithmetic

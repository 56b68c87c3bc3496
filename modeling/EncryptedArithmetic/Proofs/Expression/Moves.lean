import EncryptedArithmetic.Expression.Parse
import EncryptedArithmetic.Proofs.Fault

/-!
# Moves of the reader

`Move` is what a token does to the reader where it fits, with no limits in force. A limit only
decides whether a move is taken: the reader succeeds on a list of tokens exactly when there are
moves for it and each state on the way stays within the limits. What the limits bound can be told
from the tokens alone, by counting parentheses and the operators that stand behind a factor.

## Main definitions

* `Move`, `Moves`: what one token does, and what a list of tokens does.
* `opened`, `closed`, `binaryOperators`: what the limits count, in a list of tokens.
* `Affordable`: a list of tokens stays within the limits.

## Main results

* `step_eq_ok_iff`: one step of the reader is a move that stays within the limits.
* `Moves.counts`: the counters of the reader are those of the tokens.
* `foldlM_step_eq_ok_iff`: the reader succeeds on the tokens that have moves and are affordable.
-/

namespace EncryptedArithmetic

namespace Lexeme

/-- Whether a lexeme is an operator, as a binary one or as a sign. -/
def isOperator : Lexeme → Bool
  | .operator _ => true
  | _ => false

/-- Whether a lexeme opens a parenthesis. -/
def isOpening : Lexeme → Bool
  | .opening => true
  | _ => false

/-- Whether a lexeme closes a parenthesis. -/
def isClosing : Lexeme → Bool
  | .closing => true
  | _ => false

/-- Whether a factor can end with a lexeme. -/
def endsFactor : Lexeme → Bool
  | .number _ | .closing => true
  | _ => false

end Lexeme

namespace Parse

/-- What a token does to the reader where it fits. -/
inductive Move (s : State) (t : Token) : State → Prop
  /-- A number where a factor may come. -/
  | number {after : Option Nat} {value : Float} (hs : s.expecting = .operand after)
      (ht : t.lexeme = .number value) :
      Move s t { s with expecting := .operator (.literal value) }
  /-- A sign where a factor may come. -/
  | sign {after : Option Nat} (hs : s.expecting = .operand after)
      (ht : t.lexeme = .operator .sub) :
      Move s t { s with expecting := .digits t.position }
  /-- A parenthesis opened where a factor may come. -/
  | opening {after : Option Nat} (hs : s.expecting = .operand after) (ht : t.lexeme = .opening) :
      Move s t { s with
        enclosing := (s.pending, t.position) :: s.enclosing
        pending := {}
        expecting := .operand none }
  /-- The number behind a sign. -/
  | digits {sign : Nat} {value : Float} (hs : s.expecting = .digits sign)
      (ht : t.lexeme = .number value) :
      Move s t { s with expecting := .operator (.literal (-value)) }
  /-- An operator behind a factor. -/
  | operator {factor : Expression} {op : Operator} (hs : s.expecting = .operator factor)
      (ht : t.lexeme = .operator op) :
      Move s t { s with
        pending := s.pending.push factor op
        operators := s.operators + 1
        expecting := .operand (some t.position) }
  /-- A parenthesis closed behind a factor. -/
  | closing {factor : Expression} {outer : Pending} {opened : Nat}
      {enclosing : List (Pending × Nat)} (hs : s.expecting = .operator factor)
      (ht : t.lexeme = .closing) (henclosing : s.enclosing = (outer, opened) :: enclosing) :
      Move s t { s with
        enclosing := enclosing
        pending := outer
        expecting := .operator (s.pending.total factor) }

/-- What a list of tokens does to the reader, when every token fits. -/
inductive Moves : State → List Token → State → Prop
  | refl {s : State} : Moves s [] s
  | cons {s s₁ s' : State} {t : Token} {ts : List Token} (hmove : Move s t s₁)
      (hmoves : Moves s₁ ts s') : Moves s (t :: ts) s'

/-! ## One token -/

/-- The state is within the limits. -/
structure State.Within (limits : ParseBounds) (s : State) : Prop where
  depth : s.enclosing.length ≤ limits.maxDepth
  operators : s.operators ≤ limits.maxOperators

variable {limits : ParseBounds} {s s₁ s₂ s' : State} {t : Token} {ts us : List Token}

/-- A step that succeeds is a move, and the limits that it checks are kept. -/
theorem move_of_step_eq_ok (hs : s.Within limits) (h : step limits s t = .ok s') :
    Move s t s' ∧ s'.Within limits := by
  unfold step at h
  -- The cases are those of the definition; the ones that only report an error are void.
  split at h
  case h_1 after value hexpecting ht =>
    obtain rfl := Except.ok.inj h
    exact ⟨.number hexpecting ht, hs.depth, hs.operators⟩
  case h_2 after hexpecting ht =>
    obtain rfl := Except.ok.inj h
    exact ⟨.sign hexpecting ht, hs.depth, hs.operators⟩
  case h_3 after hexpecting ht =>
    split at h
    · cases h
    · rename_i hdepth
      obtain rfl := Except.ok.inj h
      exact ⟨.opening hexpecting ht, Nat.le_of_not_lt hdepth, hs.operators⟩
  case h_4 => cases h
  case h_5 sign value hexpecting ht =>
    obtain rfl := Except.ok.inj h
    exact ⟨.digits hexpecting ht, hs.depth, hs.operators⟩
  case h_6 => cases h
  case h_7 factor op hexpecting ht =>
    split at h
    · cases h
    · rename_i hoperators
      obtain rfl := Except.ok.inj h
      exact ⟨.operator hexpecting ht, hs.depth, Nat.le_of_not_lt hoperators⟩
  case h_8 factor hexpecting ht =>
    split at h
    · cases h
    · rename_i outer opened enclosing henclosing
      obtain rfl := Except.ok.inj h
      have hdepth := hs.depth
      rw [henclosing, List.length_cons] at hdepth
      exact ⟨.closing hexpecting ht henclosing, Nat.le_of_succ_le hdepth, hs.operators⟩
  case h_9 => cases h
  case h_10 => cases h

/-- A move into a state within the limits is taken. -/
theorem Move.step_eq_ok (h : Move s t s') (hs' : s'.Within limits) : step limits s t = .ok s' := by
  cases h with
  | number hexpecting ht => simp only [step, hexpecting, ht]
  | sign hexpecting ht => simp only [step, hexpecting, ht]
  | opening hexpecting ht =>
    simp only [step, hexpecting, ht]
    exact if_neg (Nat.not_lt.2 hs'.depth)
  | digits hexpecting ht => simp only [step, hexpecting, ht]
  | operator hexpecting ht =>
    simp only [step, hexpecting, ht]
    exact if_neg (Nat.not_lt.2 hs'.operators)
  | closing hexpecting ht henclosing => simp only [step, hexpecting, ht, henclosing]

/-- A step of the reader is a move that stays within the limits. -/
theorem step_eq_ok_iff (hs : s.Within limits) :
    step limits s t = .ok s' ↔ Move s t s' ∧ s'.Within limits :=
  ⟨move_of_step_eq_ok hs, fun ⟨hmove, hs'⟩ => hmove.step_eq_ok hs'⟩

/-- A token fits in one way at most. -/
theorem Move.unique (h₁ : Move s t s₁) (h₂ : Move s t s₂) : s₁ = s₂ := by
  cases h₁ <;> cases h₂ <;> simp_all

/-- The reader is behind a complete factor. -/
def State.behind (s : State) : Bool :=
  match s.expecting with
  | .operator _ => true
  | _ => false

/-- What a move does to what the limits bound. -/
theorem Move.counts (h : Move s t s') :
    s'.enclosing.length + t.lexeme.isClosing.toNat =
        s.enclosing.length + t.lexeme.isOpening.toNat ∧
      s'.operators = s.operators + (s.behind && t.lexeme.isOperator).toNat ∧
      s'.behind = t.lexeme.endsFactor := by
  cases h with
  | number hs ht => rw [ht, State.behind, hs]; exact ⟨rfl, rfl, rfl⟩
  | sign hs ht => rw [ht, State.behind, hs]; exact ⟨rfl, rfl, rfl⟩
  | opening hs ht => rw [ht, State.behind, hs]; exact ⟨rfl, rfl, rfl⟩
  | digits hs ht => rw [ht, State.behind, hs]; exact ⟨rfl, rfl, rfl⟩
  | operator hs ht => rw [ht, State.behind, hs]; exact ⟨rfl, rfl, rfl⟩
  | closing hs ht henclosing => rw [ht, State.behind, hs, henclosing]; exact ⟨rfl, rfl, rfl⟩

/-! ## Lists of tokens -/

theorem moves_nil_iff : Moves s [] s' ↔ s' = s := by
  constructor
  · rintro ⟨⟩
    rfl
  · rintro rfl
    exact .refl

theorem moves_cons_iff : Moves s (t :: ts) s' ↔ ∃ s₁, Move s t s₁ ∧ Moves s₁ ts s' := by
  constructor
  · rintro ⟨⟩
    exact ⟨_, ‹_›, ‹_›⟩
  · rintro ⟨s₁, hmove, hmoves⟩
    exact .cons hmove hmoves

theorem moves_singleton_iff : Moves s [t] s' ↔ Move s t s' := by
  simp [moves_cons_iff, moves_nil_iff]

/-- Moves compose. -/
theorem moves_append_iff : Moves s (ts ++ us) s' ↔ ∃ s₁, Moves s ts s₁ ∧ Moves s₁ us s' := by
  induction ts generalizing s with
  | nil => simp [moves_nil_iff]
  | cons t ts ih =>
    simp only [List.cons_append, moves_cons_iff, ih]
    constructor
    · rintro ⟨s₁, hmove, s₂, hts, hus⟩
      exact ⟨s₂, ⟨s₁, hmove, hts⟩, hus⟩
    · rintro ⟨s₂, ⟨s₁, hmove, hts⟩, hus⟩
      exact ⟨s₁, hmove, s₂, hts, hus⟩

theorem Moves.unique (h₁ : Moves s ts s₁) (h₂ : Moves s ts s₂) : s₁ = s₂ := by
  induction h₁ with
  | refl => exact (moves_nil_iff.1 h₂).symm
  | cons hmove _ ih =>
    obtain ⟨_, hmove', hmoves'⟩ := moves_cons_iff.1 h₂
    obtain rfl := hmove.unique hmove'
    exact ih hmoves'

/-- The parentheses that are opened in a list of tokens. -/
def opened (ts : List Token) : Nat := ts.countP fun t => t.lexeme.isOpening

/-- The parentheses that are closed in a list of tokens. -/
def closed (ts : List Token) : Nat := ts.countP fun t => t.lexeme.isClosing

@[simp]
theorem opened_nil : opened [] = 0 := rfl

@[simp]
theorem closed_nil : closed [] = 0 := rfl

theorem opened_cons : opened (t :: ts) = opened ts + t.lexeme.isOpening.toNat := by
  rw [opened, List.countP_cons]
  cases t.lexeme.isOpening <;> rfl

theorem closed_cons : closed (t :: ts) = closed ts + t.lexeme.isClosing.toNat := by
  rw [closed, List.countP_cons]
  cases t.lexeme.isClosing <;> rfl

/-- The binary operators in a list of tokens: those that stand behind a factor. The flag says
whether one stands in front of the list. -/
def binaryOperators : Bool → List Token → Nat
  | _, [] => 0
  | behind, t :: ts =>
    (behind && t.lexeme.isOperator).toNat + binaryOperators t.lexeme.endsFactor ts

/-- The counters of the reader are those of the tokens. -/
theorem Moves.counts (h : Moves s ts s') :
    s'.enclosing.length + closed ts = s.enclosing.length + opened ts ∧
      s'.operators = s.operators + binaryOperators s.behind ts := by
  induction h with
  | refl => exact ⟨rfl, rfl⟩
  | cons hmove _ ih =>
    obtain ⟨hdepth, hoperators, hbehind⟩ := hmove.counts
    obtain ⟨ihdepth, ihoperators⟩ := ih
    rw [hbehind] at ihoperators
    rw [opened_cons, closed_cons, binaryOperators]
    omega

/-- A list of tokens stays within the limits, from a state on. -/
structure Affordable (limits : ParseBounds) (s : State) (ts : List Token) : Prop where
  depth : ∀ us, us <+: ts → s.enclosing.length + opened us ≤ closed us + limits.maxDepth
  operators : s.operators + binaryOperators s.behind ts ≤ limits.maxOperators

/-- A list is affordable exactly when its first token keeps the limits and the others are affordable
from there. -/
theorem affordable_cons_iff (hs : s.Within limits) (hmove : Move s t s₁) :
    Affordable limits s (t :: ts) ↔ s₁.Within limits ∧ Affordable limits s₁ ts := by
  obtain ⟨hdepth, hoperators, hbehind⟩ := hmove.counts
  have hcount : s.operators + binaryOperators s.behind (t :: ts) =
      s₁.operators + binaryOperators s₁.behind ts := by
    rw [hoperators, hbehind, binaryOperators, Nat.add_assoc]
  constructor
  · intro h
    have hall : ∀ us, us <+: ts →
        s₁.enclosing.length + opened us ≤ closed us + limits.maxDepth := by
      intro us hus
      have := h.depth (t :: us) (List.cons_prefix_cons.2 ⟨rfl, hus⟩)
      rw [opened_cons, closed_cons] at this
      omega
    have htotal := hcount ▸ h.operators
    -- The empty prefix is the condition on the new state itself.
    have hnow := hall [] List.nil_prefix
    rw [opened_nil, closed_nil] at hnow
    exact ⟨⟨by omega, by omega⟩, hall, htotal⟩
  · rintro ⟨hwithin, h⟩
    refine ⟨?_, hcount ▸ h.operators⟩
    intro us hus
    rcases us with _ | ⟨u, us⟩
    · have := hs.depth
      rw [opened_nil, closed_nil]
      omega
    · obtain ⟨rfl, hprefix⟩ := List.cons_prefix_cons.1 hus
      have := h.depth us hprefix
      rw [opened_cons, closed_cons]
      omega

/-- The reader succeeds on the tokens that have moves and are affordable. -/
theorem foldlM_step_eq_ok_iff (hs : s.Within limits) :
    ts.foldlM (step limits) s = .ok s' ↔ Moves s ts s' ∧ Affordable limits s ts := by
  -- By induction on the tokens: every state on the way is within the limits.
  induction ts generalizing s with
  | nil =>
    simp only [List.foldlM_nil, pure_eq_ok, Except.ok.injEq, moves_nil_iff]
    constructor
    · rintro rfl
      refine ⟨rfl, ?_, hs.operators⟩
      intro us hus
      obtain rfl := List.prefix_nil.1 hus
      exact Nat.le_add_left_of_le hs.depth
    · rintro ⟨rfl, -⟩
      rfl
  | cons t ts ih =>
    rw [List.foldlM_cons, bind_eq_ok_iff]
    constructor
    · rintro ⟨s₁, hstep, hrest⟩
      obtain ⟨hmove, hs₁⟩ := (step_eq_ok_iff hs).1 hstep
      obtain ⟨hmoves, hafford⟩ := (ih hs₁).1 hrest
      exact ⟨.cons hmove hmoves, (affordable_cons_iff hs hmove).2 ⟨hs₁, hafford⟩⟩
    · rintro ⟨hmoves, hafford⟩
      obtain ⟨s₁, hmove, hmoves⟩ := moves_cons_iff.1 hmoves
      obtain ⟨hs₁, hafford⟩ := (affordable_cons_iff hs hmove).1 hafford
      exact ⟨s₁, (step_eq_ok_iff hs).2 ⟨hmove, hs₁⟩, (ih hs₁).2 ⟨hmoves, hafford⟩⟩

end Parse

end EncryptedArithmetic

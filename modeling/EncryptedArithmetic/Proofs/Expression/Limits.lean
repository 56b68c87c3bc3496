import EncryptedArithmetic.Proofs.Expression.Positions

/-!
# Larger limits

The limits decide whether an opening parenthesis and a binary operator are read, and nothing else.
So two readers with different limits agree on every text, up to the first token at which the one
with the smaller limits gives up; and that token is the parenthesis or the operator that is one too
many.

## Main definitions

* `ParseError.isLimit`: the errors that are about a limit.
* `binaryTokens`: the binary operators of a list of tokens.

## Main results

* `step_eq_or_isLimit`, `foldlM_step_eq_or_isLimit`: one token, and a list of tokens.
* `exists_front_of_nestingTooDeep`: the parenthesis that is one too many.
* `getElem?_binaryTokens`: the operator that is one too many.
* `parse_of_le`: what larger limits change.
-/

namespace EncryptedArithmetic

open TokenList

/-- The error is about one of the limits. -/
def ParseError.isLimit : ParseError → Bool
  | .nestingTooDeep _ _ | .tooManyOperators _ _ => true
  | _ => false

namespace Parse

/-- The binary operators in a list of tokens, in their order. The flag says whether a factor stands
in front of the list. -/
def binaryTokens : Bool → List Token → List Token
  | _, [] => []
  | behind, t :: ts =>
    if behind && t.lexeme.isOperator then t :: binaryTokens t.lexeme.endsFactor ts
    else binaryTokens t.lexeme.endsFactor ts

variable {limits limits' : ParseBounds} {s s' : State} {t : Token} {ts before after : List Token}
  {e : ParseError} {stop : ℕ} {text : String}

/-! ## Two readers side by side -/

/-- With larger limits a step does the same, unless the smaller ones stop it. -/
theorem step_eq_or_isLimit (hdepth : limits.maxDepth ≤ limits'.maxDepth)
    (hoperators : limits.maxOperators ≤ limits'.maxOperators) (s : State) (t : Token) :
    step limits' s t = step limits s t ∨ ∃ e, step limits s t = .error e ∧ e.isLimit := by
  rcases hs : s.expecting with after | sign | factor <;>
    rcases ht : t.lexeme with value | op | _ | _
  -- Only here the limits are looked at.
  case operand.opening =>
    by_cases h : limits.maxDepth < s.enclosing.length + 1
    · exact .inr ⟨.nestingTooDeep limits.maxDepth t.position,
        by simp only [step, hs, ht, if_pos h], rfl⟩
    · have h' : ¬limits'.maxDepth < s.enclosing.length + 1 := by omega
      exact .inl (by simp only [step, hs, ht, if_neg h, if_neg h'])
  case operator.operator =>
    by_cases h : limits.maxOperators < s.operators + 1
    · exact .inr ⟨.tooManyOperators limits.maxOperators t.position,
        by simp only [step, hs, ht, if_pos h], rfl⟩
    · have h' : ¬limits'.maxOperators < s.operators + 1 := by omega
      exact .inl (by simp only [step, hs, ht, if_neg h, if_neg h'])
  case operand.operator => cases op <;> exact .inl (by simp only [step, hs, ht])
  all_goals exact .inl (by simp only [step, hs, ht])

/-- So does a run. -/
theorem foldlM_step_eq_or_isLimit (hdepth : limits.maxDepth ≤ limits'.maxDepth)
    (hoperators : limits.maxOperators ≤ limits'.maxOperators) (ts : List Token) (s : State) :
    ts.foldlM (step limits') s = ts.foldlM (step limits) s ∨
      ∃ e, ts.foldlM (step limits) s = .error e ∧ e.isLimit := by
  induction ts generalizing s with
  | nil => exact .inl rfl
  | cons t ts ih =>
    rw [List.foldlM_cons, List.foldlM_cons]
    rcases step_eq_or_isLimit hdepth hoperators s t with heq | ⟨e, he, hlimit⟩
    · rw [heq]
      rcases step limits s t with e | s₁
      · exact .inl rfl
      · exact ih s₁
    · exact .inr ⟨e, by rw [he, error_bind], hlimit⟩

/-- And so does the reading of a text: cutting it into tokens and the end of the text do not depend
on the limits. -/
theorem parse_eq_or_isLimit (hdepth : limits.maxDepth ≤ limits'.maxDepth)
    (hoperators : limits.maxOperators ≤ limits'.maxOperators) (text : String) :
    Expression.parse limits' text = Expression.parse limits text ∨
      ∃ e, Expression.parse limits text = .error e ∧ e.isLimit := by
  rw [Expression.parse, Expression.parse]
  rcases ofText text with e | list
  · exact .inl rfl
  rw [ok_bind, ok_bind, ofTokens, ofTokens]
  split
  · exact .inl rfl
  rcases foldlM_step_eq_or_isLimit hdepth hoperators list.tokens {} with heq | ⟨e, he, hlimit⟩
  · exact .inl (by rw [heq])
  · exact .inr ⟨e, by rw [he, error_bind], hlimit⟩

/-! ## The token that is one too many -/

/-- A step that stops for the depth stops at a parenthesis, with as many open already as may be. -/
theorem of_step_eq_nestingTooDeep {limit position : ℕ}
    (h : step limits s t = .error (.nestingTooDeep limit position)) :
    limit = limits.maxDepth ∧ position = t.position ∧ t.lexeme = .opening ∧
      limits.maxDepth ≤ s.enclosing.length := by
  unfold step at h
  split at h
  case h_3 ht =>
    split at h
    · rename_i hlt
      obtain ⟨rfl, rfl⟩ := ParseError.nestingTooDeep.inj (Except.error.inj h)
      exact ⟨rfl, rfl, ht, Nat.le_of_lt_succ hlt⟩
    · cases h
  case h_7 => split at h <;> cases h
  case h_8 => split at h <;> cases h
  all_goals cases h

/-- A step that stops for the operators stops at one behind a factor, with as many read already as
may be. -/
theorem of_step_eq_tooManyOperators {limit position : ℕ}
    (h : step limits s t = .error (.tooManyOperators limit position)) :
    limit = limits.maxOperators ∧ position = t.position ∧
      (s.behind && t.lexeme.isOperator) = true ∧ limits.maxOperators ≤ s.operators := by
  unfold step at h
  -- Only the branch of a binary operator counts, and only its limit gives this error.
  split at h
  case h_3 => split at h <;> cases h
  case h_7 hs ht =>
    split at h
    · rename_i hlt
      obtain ⟨rfl, rfl⟩ := ParseError.tooManyOperators.inj (Except.error.inj h)
      refine ⟨rfl, rfl, ?_, Nat.le_of_lt_succ hlt⟩
      rw [State.behind, hs, ht]
      rfl
    · cases h
  case h_8 => split at h <;> cases h
  all_goals cases h

/-- Cutting a text into tokens knows no limits. -/
theorem isLimit_of_ofText (h : ofText text = .error e) : e.isLimit = false := by
  obtain ⟨tokens, p, rest, -, hstop⟩ := exists_cuts_of_scanFrom h
  cases hstop <;> rfl

/-- Neither does the end of a text. -/
theorem isLimit_of_finish (h : finish s stop = .error e) : e.isLimit = false := by
  unfold finish at h
  split at h
  case h_3 =>
    split at h
    · cases h
    · obtain rfl := Except.error.inj h
      rfl
  all_goals
    obtain rfl := Except.error.inj h
    rfl

/-- An error about a limit arises at a token that the reader has moves up to. -/
theorem exists_step_of_isLimit (h : Expression.parse limits text = .error e) (he : e.isLimit) :
    ∃ (list : TokenList) (before : List Token) (t : Token) (after : List Token) (s : State),
      Lexes 0 text.toList list.tokens list.stop ∧ list.tokens = before ++ t :: after ∧
      Moves {} before s ∧ Affordable limits {} before ∧ step limits s t = .error e := by
  have hstart : State.Within limits {} := ⟨Nat.zero_le _, Nat.zero_le _⟩
  rw [Expression.parse] at h
  -- Neither cutting the text nor finishing reports a limit, so the error is one token's.
  rcases hlist : ofText text with e' | list
  · rw [hlist, error_bind] at h
    obtain rfl := Except.error.inj h
    rw [isLimit_of_ofText hlist] at he
    cases he
  rw [hlist, ok_bind, ofTokens] at h
  split at h
  · obtain rfl := Except.error.inj h
    cases he
  rcases hrun : list.tokens.foldlM (step limits) {} with e' | s
  · rw [hrun, error_bind] at h
    obtain rfl := Except.error.inj h
    obtain ⟨before, t, after, s, htokens, hmoves, hafford, hfails⟩ :=
      exists_of_foldlM_step_eq_error hstart hrun
    exact ⟨list, before, t, after, s, ofText_eq_ok_iff.1 hlist, htokens, hmoves, hafford, hfails⟩
  · rw [hrun, ok_bind] at h
    rw [isLimit_of_finish h] at he
    cases he

/-- Behind moves, an operator that follows a factor is the next binary operator. -/
theorem getElem?_binaryTokens (h : Moves s before s')
    (ht : (s'.behind && t.lexeme.isOperator) = true) :
    (binaryTokens s.behind (before ++ t :: after))[binaryOperators s.behind before]? = some t := by
  -- Each move shifts the index by one exactly when its token is a binary operator.
  induction h with
  | refl => rw [List.nil_append, binaryTokens, if_pos ht]; rfl
  | @cons s s₁ s' u us hmove _ ih =>
    obtain ⟨-, -, hbehind⟩ := hmove.counts
    have hrest := hbehind ▸ ih ht
    rw [List.cons_append, binaryTokens, binaryOperators]
    split
    case isTrue hu =>
      rw [hu, Bool.toNat_true, Nat.add_comm, List.getElem?_cons_succ]
      exact hrest
    case isFalse hu =>
      rw [Bool.eq_false_of_not_eq_true hu, Bool.toNat_false, Nat.zero_add]
      exact hrest

/-- The parenthesis that is one too many is the first one in the text with more open than may be. -/
theorem exists_front_of_nestingTooDeep {limit position : ℕ}
    (h : Expression.parse limits text = .error (.nestingTooDeep limit position)) :
    limit = limits.maxDepth ∧ ∃ front behind, text.toList = front ++ '(' :: behind ∧
      position = (String.ofList front).utf8ByteSize ∧
      front.count '(' = front.count ')' + limits.maxDepth ∧
      ∀ us, us <+: front → us.count ')' ≤ us.count '(' ∧
        us.count '(' ≤ us.count ')' + limits.maxDepth := by
  obtain ⟨list, before, t, after, s, hlexes, htokens, hmoves, hafford, hstep⟩ :=
    exists_step_of_isLimit h rfl
  obtain ⟨rfl, rfl, ht, hdepth⟩ := of_step_eq_nestingTooDeep hstep
  -- The text in front of the parenthesis has the parentheses of the tokens that were read.
  rw [htokens] at hlexes
  obtain ⟨part, behind, hcuts, hwritten, -⟩ := exists_cuts_of_lexes hlexes
  rw [ht] at hwritten
  obtain rfl : part = ['('] := part_of_written hwritten
  obtain ⟨front, htext, hposition, hopened, hclosed, -⟩ := hcuts.exists_front
  obtain ⟨front', htext', hfront⟩ := hcuts.exists_lexes
  obtain rfl := List.append_cancel_right (htext.symm.trans htext')
  have hopen : s.enclosing.length + closed before = opened before := by
    simpa using hmoves.counts.1
  have hle : opened before ≤ closed before + limits.maxDepth := by
    simpa using hafford.depth before (List.prefix_refl before)
  refine ⟨rfl, front, behind, htext, by rw [hposition, Nat.zero_add], by omega, ?_⟩
  intro us hus
  obtain ⟨ts, hts, hopened, hclosed⟩ := exists_prefix_of_lexes hfront hus
  rw [← hopened, ← hclosed]
  refine ⟨?_, by simpa using hafford.depth ts hts⟩
  obtain ⟨ws, rfl⟩ := hts
  obtain ⟨s₁, hmoves₁, -⟩ := moves_append_iff.1 hmoves
  have hopen₁ : s₁.enclosing.length + closed ts = opened ts := by
    simpa using hmoves₁.counts.1
  omega

/-- Larger limits keep every tree and every error that is not about a limit. An error about the
depth is about the first parenthesis in the text with more of them open than the limit allows, and
an error about the operators is about the first binary operator that the limit does not allow; the
sign of a literal is none. -/
theorem parse_of_le (hdepth : limits.maxDepth ≤ limits'.maxDepth)
    (hoperators : limits.maxOperators ≤ limits'.maxOperators) (text : String) :
    (∀ tree, Expression.parse limits text = .ok tree → Expression.parse limits' text = .ok tree) ∧
    (∀ e, Expression.parse limits text = .error e → e.isLimit = false →
      Expression.parse limits' text = .error e) ∧
    (∀ limit position, Expression.parse limits text = .error (.nestingTooDeep limit position) →
      limit = limits.maxDepth ∧ ∃ front behind, text.toList = front ++ '(' :: behind ∧
        position = (String.ofList front).utf8ByteSize ∧
        front.count '(' = front.count ')' + limits.maxDepth ∧
        ∀ us, us <+: front → us.count ')' ≤ us.count '(' ∧
          us.count '(' ≤ us.count ')' + limits.maxDepth) ∧
    ∀ limit position, Expression.parse limits text = .error (.tooManyOperators limit position) →
      limit = limits.maxOperators ∧ ∃ (list : TokenList) (t : Token),
        Lexes 0 text.toList list.tokens list.stop ∧
        (binaryTokens false list.tokens)[limits.maxOperators]? = some t ∧
        position = t.position := by
  have hagree := parse_eq_or_isLimit hdepth hoperators text
  refine ⟨?_, ?_, fun _ _ => exists_front_of_nestingTooDeep, ?_⟩
  · intro tree h
    rcases hagree with heq | ⟨e, he, -⟩
    · rw [heq, h]
    · rw [h] at he
      cases he
  · intro e h hlimit
    rcases hagree with heq | ⟨e', he, hlimit'⟩
    · rw [heq, h]
    · obtain rfl := Except.error.inj (h.symm.trans he)
      rw [hlimit] at hlimit'
      cases hlimit'
  · intro limit position h
    obtain ⟨list, before, t, after, s, hlexes, htokens, hmoves, hafford, hstep⟩ :=
      exists_step_of_isLimit h rfl
    obtain ⟨rfl, rfl, ht, hfull⟩ := of_step_eq_tooManyOperators hstep
    -- All operators in front were read and are within the limit, so it is used up exactly.
    have hcount : s.operators = binaryOperators false before := by
      simpa [State.behind] using hmoves.counts.2
    have hle : binaryOperators false before ≤ limits.maxOperators := by
      simpa [State.behind] using hafford.operators
    have hexact : limits.maxOperators = binaryOperators false before := by omega
    refine ⟨rfl, list, t, hlexes, ?_, rfl⟩
    rw [hexact, htokens]
    exact getElem?_binaryTokens hmoves ht

/-- Of two opening parentheses the second is one too many where one may be open; where both may be,
the text ends too early. -/
theorem parse_two_openings :
    Expression.parse ⟨1, 0⟩ "((" = .error (.nestingTooDeep 1 1) ∧
      Expression.parse {} "((" = .error (.missingOperand 2) ∧
      ∃ front behind, "((".toList = front ++ '(' :: behind ∧
        1 = (String.ofList front).utf8ByteSize ∧ front.count '(' = front.count ')' + 1 := by
  have hlist : ofText "((" = .ok ⟨[⟨.opening, 0⟩, ⟨.opening, 1⟩], 2⟩ :=
    ofText_eq_ok_iff.2 (.symbol rfl (.symbol rfl .stop))
  have hsmall : Expression.parse ⟨1, 0⟩ "((" = .error (.nestingTooDeep 1 1) := by
    rw [Expression.parse, hlist]
    rfl
  have hlarge : Expression.parse {} "((" = .error (.missingOperand 2) := by
    rw [Expression.parse, hlist]
    rfl
  have hle : (⟨1, 0⟩ : ParseBounds).maxDepth ≤ ({} : ParseBounds).maxDepth ∧
      (⟨1, 0⟩ : ParseBounds).maxOperators ≤ ({} : ParseBounds).maxOperators := by decide
  obtain ⟨-, front, behind, htext, hposition, hcount, -⟩ :=
    (parse_of_le hle.1 hle.2 "((").2.2.1 1 1 hsmall
  exact ⟨hsmall, hlarge, front, behind, htext, hposition, hcount⟩

end Parse

end EncryptedArithmetic

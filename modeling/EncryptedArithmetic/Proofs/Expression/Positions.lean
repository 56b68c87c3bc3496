import EncryptedArithmetic.Proofs.Expression.Grammar
import EncryptedArithmetic.Proofs.Expression.Places

/-!
# What errors point at

An error points at the byte offset where what it names begins in the text. The scanner stops where
it is, so its errors do. The reader keeps positions of tokens that it has left behind: that of the
last operator, of a sign and of every open parenthesis. `State.Tracks` says which tokens these
belong to.

There is one exception. When the text ends behind an opening parenthesis, the factor that is missing
belongs to no operator, and the end of the text stands in for one.

## Main definitions

* `ParseError.Names`, `ParseError.PointsInto`: what stands where an error points.
* `Balanced`, `Opens`: which parentheses are closed, and which are still open.
* `State.Tracks`: the tokens whose positions the reader keeps.
* `Blames`: an error is about one of the tokens.
* `Place`: where a token is written in the text.

## Main results

* `State.Tracks.of_moves`: the positions that are kept, along every run.
* `blames_of_step` and `blames_of_finish`: the errors of the reader.
* `pointsInto_of_parse`: the errors of every text, and when the exception arises.
-/

namespace EncryptedArithmetic

open TokenList

/-! ## What an error names -/

namespace ParseError

/-- What an error says of the place that it points at: of what stands there, and of the text in
front of it and behind it. -/
def Names (e : ParseError) (front part behind : List Char) : Prop :=
  match e with
  | .empty => False
  | .invalidCharacter c _ =>
    part = [c] ∧ isBlank c = false ∧ isNumeric c = false ∧ Lexeme.ofChar? c = none
  | .invalidNumber run _ =>
    part = run.toList ∧ part ≠ [] ∧ (∀ c ∈ part, isNumeric c) ∧
      (∀ c ∈ front.getLast?, isNumeric c = false) ∧ (∀ c ∈ behind.head?, isNumeric c = false) ∧
      numeral? part = none
  | .expectedOperand found _ => part = found.toList ∧ part ∈ [['+'], ['*'], ['/'], [')']]
  | .missingOperand _ | .tooManyOperators _ _ => part ∈ [['+'], ['-'], ['*'], ['/']]
  | .expectedOperator _ =>
    part = ['('] ∨ ((∃ value, IsNumeral part value) ∧
      (∀ c ∈ front.getLast?, isNumeric c = false) ∧ ∀ c ∈ behind.head?, isNumeric c = false)
  | .unclosedParenthesis _ => part = ['('] ∧ ∀ us, us <+: behind → us.count ')' ≤ us.count '('
  | .unmatchedParenthesis _ => part = [')'] ∧ front.count '(' = front.count ')'
  | .unaryOperator _ => part = ['-']
  | .nestingTooDeep _ _ => part = ['(']

/-- The error points into the text, at the byte offset where what it names begins. -/
def PointsInto (e : ParseError) (text : String) : Prop :=
  ∃ front part behind : List Char, text.toList = front ++ part ++ behind ∧
    e.position? = some (String.ofList front).utf8ByteSize ∧ e.Names front part behind

end ParseError

namespace Parse

variable {limits : ParseBounds} {s s' : State} {t : Token} {ts us before after : List Token}
  {enclosing : List (Pending × ℕ)} {e : ParseError} {stop : ℕ}

/-! ## Parentheses that are closed -/

@[simp]
theorem opened_append : opened (ts ++ us) = opened ts + opened us :=
  List.countP_append ..

@[simp]
theorem closed_append : closed (ts ++ us) = closed ts + closed us :=
  List.countP_append ..

/-- Every parenthesis in the list is closed, and none is closed that was opened before. -/
structure Balanced (ts : List Token) : Prop where
  closed_le : ∀ us, us <+: ts → closed us ≤ opened us
  closed_eq : closed ts = opened ts

namespace Balanced

theorem nil : Balanced [] := by
  refine ⟨fun us hus => ?_, rfl⟩
  rw [List.prefix_nil.1 hus]
  exact le_refl 0

/-- A token that is no parenthesis. -/
theorem singleton (hopening : t.lexeme.isOpening = false) (hclosing : t.lexeme.isClosing = false) :
    Balanced [t] := by
  constructor
  · intro us hus
    rcases us with _ | ⟨u, us⟩
    · exact le_refl 0
    · obtain ⟨rfl, hnil⟩ := List.cons_prefix_cons.1 hus
      rw [List.prefix_nil.1 hnil, opened_cons, closed_cons, hopening, hclosing]
      exact le_refl 0
  · rw [opened_cons, closed_cons, hopening, hclosing]
    rfl

theorem append (hts : Balanced ts) (hus : Balanced us) : Balanced (ts ++ us) := by
  constructor
  · intro vs hvs
    rcases prefix_append_cases hvs with hvs | ⟨ws, rfl, hws⟩
    · exact hts.closed_le vs hvs
    · rw [opened_append, closed_append, hts.closed_eq]
      exact Nat.add_le_add_left (hus.closed_le ws hws) _
  · rw [opened_append, closed_append, hts.closed_eq, hus.closed_eq]

/-- Parentheses around a balanced list. -/
theorem wrap {opening closing : Token} (hopening : opening.lexeme = .opening)
    (hclosing : closing.lexeme = .closing) (hts : Balanced ts) :
    Balanced (opening :: (ts ++ [closing])) := by
  constructor
  · intro us hus
    rcases us with _ | ⟨u, us⟩
    · exact le_refl 0
    obtain ⟨rfl, htail⟩ := List.cons_prefix_cons.1 hus
    rw [opened_cons, closed_cons, hopening]
    simp only [Lexeme.isOpening, Lexeme.isClosing, Bool.toNat_true, Bool.toNat_false, Nat.add_zero]
    rcases prefix_append_cases htail with hwithin | ⟨vs, rfl, hvs⟩
    · exact Nat.le_succ_of_le (hts.closed_le us hwithin)
    · -- Only the last parenthesis can be one more than those that were opened within.
      have hlast : closed vs ≤ 1 :=
        (List.countP_le_length).trans (by simpa using hvs.length_le)
      rw [opened_append, closed_append, hts.closed_eq]
      omega
  · rw [opened_cons, closed_cons, opened_append, closed_append, opened_cons, closed_cons, hopening,
      hclosing, hts.closed_eq]
    simp [Lexeme.isOpening, Lexeme.isClosing]

end Balanced

/-! ## Parentheses that are open -/

/-- The positions that the reader keeps for the expressions it has suspended, innermost first, are
those of the parentheses that are open in the list. -/
inductive Opens : List (Pending × ℕ) → List Token → Prop
  | nil {ts : List Token} (hts : Balanced ts) : Opens [] ts
  | cons {p : Pending} {t : Token} {enclosing : List (Pending × ℕ)} {ts us : List Token}
      (houter : Opens enclosing ts) (ht : t.lexeme = .opening) (hus : Balanced us) :
      Opens ((p, t.position) :: enclosing) (ts ++ t :: us)

/-- What is balanced changes nothing about what is open. -/
theorem Opens.append (h : Opens enclosing ts) (hus : Balanced us) : Opens enclosing (ts ++ us) := by
  cases h with
  | nil hts => exact .nil (hts.append hus)
  | cons houter ht hinner =>
    rw [List.append_assoc, List.cons_append]
    exact .cons houter ht (hinner.append hus)

/-! ## Positions that the reader keeps -/

/-- The tokens behind which something may come next: a factor is missing behind an operator, behind
a parenthesis or at the start, and digits are missing behind a sign. -/
inductive Expecting.Follows : Expecting → List Token → Prop
  | start : (Expecting.operand none).Follows []
  | opening {ts : List Token} {t : Token} (ht : t.lexeme = .opening) :
      (Expecting.operand none).Follows (ts ++ [t])
  | operand {ts : List Token} {t : Token} (ht : t.lexeme.isOperator = true) :
      (Expecting.operand (some t.position)).Follows (ts ++ [t])
  | digits {ts : List Token} {t : Token} (ht : t.lexeme = .operator .sub) :
      (Expecting.digits t.position).Follows (ts ++ [t])
  | operator {ts : List Token} {factor : Expression} : (Expecting.operator factor).Follows ts

/-- The positions that the reader keeps are those of the tokens that it has read. -/
structure State.Tracks (s : State) (ts : List Token) : Prop where
  opens : Opens s.enclosing ts
  follows : s.expecting.Follows ts

theorem State.tracks_nil : State.Tracks {} [] :=
  ⟨.nil .nil, .start⟩

/-- A move keeps the positions of the tokens. -/
theorem State.Tracks.of_move (hs : s.Tracks ts) (h : Move s t s') : s'.Tracks (ts ++ [t]) := by
  -- A token that is no parenthesis leaves the open ones as they are.
  have hneutral (hopening : t.lexeme.isOpening = false) (hclosing : t.lexeme.isClosing = false) :
      Opens s.enclosing (ts ++ [t]) :=
    hs.opens.append (.singleton hopening hclosing)
  cases h with
  | number _ ht => exact ⟨hneutral (by rw [ht]; rfl) (by rw [ht]; rfl), .operator⟩
  | sign _ ht => exact ⟨hneutral (by rw [ht]; rfl) (by rw [ht]; rfl), .digits ht⟩
  | opening _ ht => exact ⟨.cons hs.opens ht .nil, .opening ht⟩
  | digits _ ht => exact ⟨hneutral (by rw [ht]; rfl) (by rw [ht]; rfl), .operator⟩
  | operator _ ht =>
    exact ⟨hneutral (by rw [ht]; rfl) (by rw [ht]; rfl), .operand (by rw [ht]; rfl)⟩
  | closing _ ht henclosing =>
    -- The innermost parenthesis is closed, so what it encloses is balanced from now on.
    have hopens := hs.opens
    rw [henclosing] at hopens
    cases hopens with
    | cons houter hopening hinner =>
      refine ⟨?_, .operator⟩
      rw [List.append_assoc, List.cons_append]
      exact houter.append (hinner.wrap hopening ht)

/-- So does a run. -/
theorem State.Tracks.of_moves (hs : s.Tracks ts) (h : Moves s us s') : s'.Tracks (ts ++ us) := by
  induction h generalizing ts with
  | refl => rwa [List.append_nil]
  | cons hmove _ ih => simpa using ih (hs.of_move hmove)

/-! ## Errors of the reader -/

/-- The error is about one of the tokens. -/
inductive Blames : List Token → ParseError → Prop
  | expectedOperand {before after : List Token} {t : Token}
      (ht : t.lexeme = .closing ∨ ∃ op, op ≠ .sub ∧ t.lexeme = .operator op) :
      Blames (before ++ t :: after) (.expectedOperand t.lexeme.spelling t.position)
  | missingOperand {before after : List Token} {t : Token} (ht : t.lexeme.isOperator = true) :
      Blames (before ++ t :: after) (.missingOperand t.position)
  | expectedOperator {before after : List Token} {t : Token}
      (ht : t.lexeme = .opening ∨ ∃ value, t.lexeme = .number value) :
      Blames (before ++ t :: after) (.expectedOperator t.position)
  | unclosedParenthesis {before after : List Token} {t : Token} (ht : t.lexeme = .opening)
      (hafter : ∀ us, us <+: after → closed us ≤ opened us) :
      Blames (before ++ t :: after) (.unclosedParenthesis t.position)
  | unmatchedParenthesis {before after : List Token} {t : Token} (ht : t.lexeme = .closing)
      (hbefore : opened before = closed before) :
      Blames (before ++ t :: after) (.unmatchedParenthesis t.position)
  | unaryOperator {before after : List Token} {t : Token} (ht : t.lexeme = .operator .sub) :
      Blames (before ++ t :: after) (.unaryOperator t.position)
  | nestingTooDeep {before after : List Token} {t : Token} {limit : ℕ} (ht : t.lexeme = .opening) :
      Blames (before ++ t :: after) (.nestingTooDeep limit t.position)
  | tooManyOperators {before after : List Token} {t : Token} {limit : ℕ}
      (ht : t.lexeme.isOperator = true) :
      Blames (before ++ t :: after) (.tooManyOperators limit t.position)

/-- A step that fails is about its own token, or about the sign in front of it. -/
theorem blames_of_step (hs : s.Tracks before) (h : step limits s t = .error e) :
    Blames (before ++ t :: after) e := by
  -- One case for each branch of the step: at a missing factor, behind a sign, behind a factor.
  unfold step at h
  split at h
  case h_1 => cases h
  case h_2 => cases h
  case h_3 after ht =>
    split at h
    · obtain rfl := Except.error.inj h
      exact .nestingTooDeep ht
    · cases h
  case h_4 _ hnumber hsub hopening =>
    obtain rfl := Except.error.inj h
    refine .expectedOperand ?_
    rcases hlexeme : t.lexeme with value | op | _ | _
    · exact absurd hlexeme (hnumber value)
    · refine .inr ⟨op, ?_, rfl⟩
      rintro rfl
      exact hsub hlexeme
    · exact absurd hlexeme hopening
    · exact .inl rfl
  case h_5 => cases h
  case h_6 sign hexpecting _ =>
    obtain rfl := Except.error.inj h
    have hfollows := hs.follows
    rw [hexpecting] at hfollows
    cases hfollows with
    | digits ht =>
      rw [List.append_assoc, List.singleton_append]
      exact .unaryOperator ht
  case h_7 ht =>
    split at h
    · obtain rfl := Except.error.inj h
      exact .tooManyOperators (by rw [ht]; rfl)
    · cases h
  case h_8 ht =>
    split at h
    · rename_i henclosing
      obtain rfl := Except.error.inj h
      have hopens := hs.opens
      rw [henclosing] at hopens
      cases hopens with
      | nil hbalanced => exact .unmatchedParenthesis ht hbalanced.closed_eq.symm
    · cases h
  case h_9 value _ ht =>
    obtain rfl := Except.error.inj h
    exact .expectedOperator (.inr ⟨value, ht⟩)
  case h_10 ht =>
    obtain rfl := Except.error.inj h
    exact .expectedOperator (.inl ht)

/-- At the end of a text the error is about one of its tokens, or a parenthesis was opened last. -/
theorem blames_of_finish (hs : s.Tracks ts) (hne : ts ≠ []) (h : finish s stop = .error e) :
    Blames ts e ∨ (e = .missingOperand stop ∧
      ∃ (before : List Token) (t : Token), ts = before ++ [t] ∧ t.lexeme = .opening) := by
  -- A factor is missing, digits are missing behind a sign, or a parenthesis is still open.
  have hfollows := hs.follows
  unfold finish at h
  split at h
  case h_1 after hexpecting =>
    rw [hexpecting] at hfollows
    obtain rfl := Except.error.inj h
    cases hfollows with
    | start => exact absurd rfl hne
    | opening ht => exact .inr ⟨rfl, _, _, rfl, ht⟩
    | operand ht => exact .inl (.missingOperand ht)
  case h_2 sign hexpecting =>
    rw [hexpecting] at hfollows
    obtain rfl := Except.error.inj h
    cases hfollows with
    | digits ht => exact .inl (.unaryOperator ht)
  case h_3 factor hexpecting =>
    split at h
    · cases h
    · rename_i henclosing
      obtain rfl := Except.error.inj h
      have hopens := hs.opens
      rw [henclosing] at hopens
      cases hopens with
      | cons houter ht hinner => exact .inl (.unclosedParenthesis ht hinner.closed_le)

/-- A run that fails has moves, within the limits, up to the token at which it fails. -/
theorem exists_of_foldlM_step_eq_error (hs : s.Within limits)
    (h : ts.foldlM (step limits) s = .error e) :
    ∃ before t after s', ts = before ++ t :: after ∧ Moves s before s' ∧
      Affordable limits s before ∧ step limits s' t = .error e := by
  -- The tokens before the failing one are moves, each within the limits by the fold's equation.
  induction ts generalizing s with
  | nil => cases h
  | cons t ts ih =>
    rw [List.foldlM_cons] at h
    rcases hstep : step limits s t with e' | s₁
    · rw [hstep, error_bind] at h
      obtain rfl := Except.error.inj h
      have hnil : Moves s [] s ∧ Affordable limits s [] := (foldlM_step_eq_ok_iff hs).1 rfl
      exact ⟨[], t, ts, s, rfl, .refl, hnil.2, hstep⟩
    · rw [hstep, ok_bind] at h
      obtain ⟨hmove, hwithin⟩ := (step_eq_ok_iff hs).1 hstep
      obtain ⟨before, u, after, s', rfl, hmoves, hafford, hfails⟩ := ih hwithin h
      exact ⟨t :: before, u, after, s', rfl, .cons hmove hmoves,
        (affordable_cons_iff hs hmove).2 ⟨hwithin, hafford⟩, hfails⟩

/-! ## From tokens to the text -/

/-- What is written for a lexeme. -/
theorem part_of_written {lexeme : Lexeme} {part behind : List Char}
    (h : lexeme.Written part behind) :
    match lexeme with
    | .opening => part = ['(']
    | .closing => part = [')']
    | .operator op => part = [op.symbol]
    | .number value => IsNumeral part value ∧ ∀ c ∈ behind.head?, isNumeric c = false := by
  cases h with
  | @symbol _ c _ hc =>
    have hmem := mem_of_ofChar? hc
    simp only [List.mem_cons, List.not_mem_nil, or_false] at hmem
    rcases hmem with rfl | rfl | rfl | rfl | rfl | rfl <;> obtain rfl := Option.some.inj hc <;> rfl
  | numeral hrun hend => exact ⟨hrun, hend⟩

/-- An operator is written with one of its symbols. -/
theorem part_mem_of_isOperator {lexeme : Lexeme} {part behind : List Char}
    (h : lexeme.Written part behind) (hoperator : lexeme.isOperator = true) :
    part ∈ [['+'], ['-'], ['*'], ['/']] := by
  cases lexeme with
  | operator op =>
    obtain rfl : part = [op.symbol] := part_of_written h
    cases op <;> decide
  | _ => cases hoperator

/-- Where a token of a text is written: the text in front, the token itself and the text behind. -/
structure Place (text : String) (before : List Token) (t : Token) (after : List Token)
    (front part behind : List Char) : Prop where
  text_eq : text.toList = front ++ part ++ behind
  position_eq : t.position = (String.ofList front).utf8ByteSize
  written : t.lexeme.Written part behind
  opened_eq : front.count '(' = opened before
  closed_eq : front.count ')' = closed before
  separates : Separates front (part ++ behind)
  prefixes : ∀ us, us <+: behind →
    ∃ ts, ts <+: after ∧ opened ts = us.count '(' ∧ closed ts = us.count ')'

theorem Place.written_of {text : String} {front part behind : List Char} {lexeme : Lexeme}
    (h : Place text before t after front part behind) (ht : t.lexeme = lexeme) :
    lexeme.Written part behind :=
  ht ▸ h.written

/-- Every token of a text has a place. -/
theorem exists_place {text : String} (h : Lexes 0 text.toList (before ++ t :: after) stop) :
    ∃ front part behind, Place text before t after front part behind := by
  obtain ⟨part, behind, hcuts, hwritten, hlexes⟩ := exists_cuts_of_lexes h
  obtain ⟨front, htext, hposition, hopened, hclosed, hend⟩ := hcuts.exists_front
  rw [Nat.zero_add] at hposition
  exact ⟨front, part, behind, by rw [htext, List.append_assoc], hposition, hwritten, hopened,
    hclosed, hend, fun _ => exists_prefix_of_lexes hlexes⟩

/-- An error with the position of a token points at the place of the token. -/
theorem Place.pointsInto {text : String} {front part behind : List Char}
    (h : Place text before t after front part behind) (hposition : e.position? = some t.position)
    (hnames : e.Names front part behind) : e.PointsInto text :=
  ⟨front, part, behind, h.text_eq, h.position_eq ▸ hposition, hnames⟩

/-- An error that is about a token points at it. -/
theorem pointsInto_of_blames {text : String} (hlexes : Lexes 0 text.toList ts stop)
    (h : Blames ts e) : e.PointsInto text := by
  -- Each kind of error asks for one kind of lexeme, and this is written at the position.
  cases h with
  | expectedOperand ht =>
    obtain ⟨front, part, behind, hplace⟩ := exists_place hlexes
    refine hplace.pointsInto rfl ?_
    have hwritten := hplace.written
    rcases ht with ht | ⟨op, hne, ht⟩ <;> rw [ht] at hwritten ⊢
    · obtain rfl : part = [')'] := part_of_written hwritten
      exact ⟨rfl, by decide⟩
    · obtain rfl : part = [op.symbol] := part_of_written hwritten
      cases op with
      | sub => exact absurd rfl hne
      | _ => exact ⟨rfl, by decide⟩
  | missingOperand ht =>
    obtain ⟨front, part, behind, hplace⟩ := exists_place hlexes
    exact hplace.pointsInto rfl (part_mem_of_isOperator hplace.written ht)
  | expectedOperator ht =>
    obtain ⟨front, part, behind, hplace⟩ := exists_place hlexes
    refine hplace.pointsInto rfl ?_
    have hwritten := hplace.written
    rcases ht with ht | ⟨value, ht⟩ <;> rw [ht] at hwritten
    · exact .inl (part_of_written hwritten)
    · obtain ⟨hrun, hend⟩ := part_of_written hwritten
      have hfront := hplace.separates.front_of_isNumeric hrun.ne_nil hrun.numeric
      exact .inr ⟨⟨value, hrun⟩, hfront, hend⟩
  | unclosedParenthesis ht hafter =>
    obtain ⟨front, part, behind, hplace⟩ := exists_place hlexes
    have hwritten := hplace.written_of ht
    refine hplace.pointsInto rfl ⟨part_of_written hwritten, ?_⟩
    intro us hus
    obtain ⟨ts, hts, hopened, hclosed⟩ := hplace.prefixes us hus
    rw [← hopened, ← hclosed]
    exact hafter ts hts
  | unmatchedParenthesis ht hbefore =>
    obtain ⟨front, part, behind, hplace⟩ := exists_place hlexes
    have hwritten := hplace.written_of ht
    have hcount : front.count '(' = front.count ')' := by
      rw [hplace.opened_eq, hplace.closed_eq, hbefore]
    exact hplace.pointsInto rfl ⟨part_of_written hwritten, hcount⟩
  | unaryOperator ht =>
    obtain ⟨front, part, behind, hplace⟩ := exists_place hlexes
    have hwritten := hplace.written_of ht
    exact hplace.pointsInto rfl (part_of_written hwritten)
  | nestingTooDeep ht =>
    obtain ⟨front, part, behind, hplace⟩ := exists_place hlexes
    have hwritten := hplace.written_of ht
    exact hplace.pointsInto rfl (part_of_written hwritten)
  | tooManyOperators ht =>
    obtain ⟨front, part, behind, hplace⟩ := exists_place hlexes
    exact hplace.pointsInto rfl (part_mem_of_isOperator hplace.written ht)

/-- The scanner points at what stops it. -/
theorem pointsInto_of_ofText {text : String} (h : ofText text = .error e) : e.PointsInto text := by
  obtain ⟨tokens, p, rest, hcuts, hstop⟩ := exists_cuts_of_scanFrom h
  obtain ⟨front, htext, hposition, -, -, hseparates⟩ := hcuts.exists_front
  rw [Nat.zero_add] at hposition
  cases hstop with
  | @character c behind hblank hnumeric hc =>
    exact ⟨front, [c], behind, by rw [htext, List.append_assoc, List.singleton_append],
      congrArg some hposition, rfl, hblank, hnumeric, hc⟩
  | @number run behind hne hrun hend hvalue =>
    exact ⟨front, run, behind, by rw [htext, List.append_assoc], congrArg some hposition,
      String.toList_ofList.symm, hne, hrun, hseparates.front_of_isNumeric hne hrun, hend, hvalue⟩

/-! ## Reading a text -/

/-- The tokens can be read within the limits, and a parenthesis is opened last. -/
def EndsOpen (limits : ParseBounds) (ts : List Token) : Prop :=
  (∃ s, Moves {} ts s) ∧ Affordable limits {} ts ∧
    ∃ (before : List Token) (t : Token), ts = before ++ [t] ∧ t.lexeme = .opening

/-- What can be wrong with a text. -/
theorem parse_error_cases {text : String} (h : Expression.parse limits text = .error e) :
    (e = .empty ∧ ∀ c ∈ text.toList, isBlank c) ∨ e.PointsInto text ∨
      (e = .missingOperand text.utf8ByteSize ∧
        ∃ list : TokenList, Lexes 0 text.toList list.tokens list.stop ∧
          EndsOpen limits list.tokens) := by
  have hstart : State.Within limits {} := ⟨Nat.zero_le _, Nat.zero_le _⟩
  rw [Expression.parse] at h
  rcases hlist : ofText text with e' | list
  · rw [hlist, error_bind] at h
    obtain rfl := Except.error.inj h
    exact .inr (.inl (pointsInto_of_ofText hlist))
  rw [hlist, ok_bind, ofTokens] at h
  rw [ofText_eq_ok_iff] at hlist
  split at h
  · rename_i hempty
    rw [List.isEmpty_iff] at hempty
    rw [hempty] at hlist
    exact .inl ⟨(Except.error.inj h).symm, isBlank_of_lexes hlist⟩
  rename_i hne
  rw [List.isEmpty_iff] at hne
  rcases hrun : list.tokens.foldlM (step limits) {} with e' | s
  · -- A step failed, at a token that the moves lead up to.
    rw [hrun, error_bind] at h
    obtain rfl := Except.error.inj h
    obtain ⟨before, t, after, s, htokens, hmoves, -, hfails⟩ :=
      exists_of_foldlM_step_eq_error hstart hrun
    have htracks := State.tracks_nil.of_moves hmoves
    rw [htokens] at hlist
    exact .inr (.inl (pointsInto_of_blames hlist (blames_of_step htracks hfails)))
  · -- All tokens were read, and the text ends too early.
    rw [hrun, ok_bind] at h
    obtain ⟨hmoves, hafford⟩ := (foldlM_step_eq_ok_iff hstart).1 hrun
    rcases blames_of_finish (State.tracks_nil.of_moves hmoves) hne h with hblames | ⟨rfl, hopening⟩
    · exact .inr (.inl (pointsInto_of_blames hlist hblames))
    · have hstop := stop_eq_of_lexes hlist
      rw [Nat.zero_add, String.ofList_toList] at hstop
      rw [hstop]
      exact .inr (.inr ⟨rfl, list, hstop ▸ hlist, ⟨s, hmoves⟩, hafford, hopening⟩)

/-- No operator begins where the text ends. -/
theorem not_pointsInto_end (text : String) :
    ¬(ParseError.missingOperand text.utf8ByteSize).PointsInto text := by
  rintro ⟨front, part, behind, htext, hposition, hpart⟩
  have hsize := congrArg (fun cs => (String.ofList cs).utf8ByteSize) htext
  simp only [String.ofList_toList, String.ofList_append, String.utf8ByteSize_append] at hsize
  have hend : text.utf8ByteSize = (String.ofList front).utf8ByteSize := Option.some.inj hposition
  -- What is named takes up no space there, and an operator takes up some.
  have hzero : (String.ofList part).utf8ByteSize = 0 := by omega
  obtain rfl := String.ofList_eq_empty_iff.1 (String.utf8ByteSize_eq_zero_iff.1 hzero)
  have hmem : ([] : List Char) ∈ [['+'], ['-'], ['*'], ['/']] := hpart
  exact absurd hmem (by decide)

/-- The text is blank exactly when there is nothing to point at. -/
theorem parse_eq_empty_iff {text : String} :
    Expression.parse limits text = .error .empty ↔ ∀ c ∈ text.toList, isBlank c := by
  constructor
  · intro h
    rcases parse_error_cases h with ⟨-, hblank⟩ | ⟨_, _, _, _, hposition, -⟩ | ⟨heq, -⟩
    · exact hblank
    · cases hposition
    · cases heq
  · intro hblank
    have hlist : TokenList.ofText text = .ok ⟨[], 0 + text.toList.length⟩ :=
      ofText_eq_ok_iff.2 (lexes_of_isBlank hblank)
    rw [Expression.parse, hlist, ok_bind, ofTokens]
    rfl

/-- The reader takes the end of the text for an operator exactly when a parenthesis is opened
last. -/
theorem parse_eq_missingOperand_end_iff {text : String} :
    Expression.parse limits text = .error (.missingOperand text.utf8ByteSize) ↔
      ∃ list : TokenList, Lexes 0 text.toList list.tokens list.stop ∧
        EndsOpen limits list.tokens := by
  have hstart : State.Within limits {} := ⟨Nat.zero_le _, Nat.zero_le _⟩
  constructor
  · intro h
    rcases parse_error_cases h with ⟨heq, -⟩ | hpoints | ⟨-, hopen⟩
    · cases heq
    · exact absurd hpoints (not_pointsInto_end text)
    · exact hopen
  · rintro ⟨list, hlist, ⟨s, hmoves⟩, hafford, before, t, htokens, ht⟩
    have hstop := stop_eq_of_lexes hlist
    rw [Nat.zero_add, String.ofList_toList] at hstop
    have hrun := (foldlM_step_eq_ok_iff hstart).2 ⟨hmoves, hafford⟩
    have hne : list.tokens.isEmpty = false := by simp [htokens]
    -- Behind the last parenthesis a factor is missing that belongs to no operator.
    rw [htokens, moves_append_iff] at hmoves
    obtain ⟨s₁, -, hlast⟩ := hmoves
    have hexpecting : s.expecting = .operand none := by
      have hmove := moves_singleton_iff.1 hlast
      generalize s = s' at hmove
      cases hmove <;> simp_all
    rw [Expression.parse, ofText_eq_ok_iff.2 hlist, ok_bind, ofTokens, hne,
      if_neg Bool.false_ne_true, hrun, ok_bind, finish, hexpecting, hstop]
    rfl

/-- Every error of a text points into it, at the byte offset where what it names begins, and only a
blank text has nothing to point at. The one exception is a text that ends, with all limits kept,
behind an opening parenthesis: for want of an operator its end is named as one. -/
theorem pointsInto_of_parse (limits : ParseBounds) (text : String) :
    (Expression.parse limits text = .error .empty ↔ ∀ c ∈ text.toList, isBlank c) ∧
    (∀ e, Expression.parse limits text = .error e → e ≠ .empty →
      (e.PointsInto text ↔ e ≠ .missingOperand text.utf8ByteSize)) ∧
    (Expression.parse limits text = .error (.missingOperand text.utf8ByteSize) ↔
      ∃ list : TokenList, Lexes 0 text.toList list.tokens list.stop ∧
        EndsOpen limits list.tokens) := by
  refine ⟨parse_eq_empty_iff, ?_, parse_eq_missingOperand_end_iff⟩
  intro e h hne
  constructor
  · rintro hpoints rfl
    exact not_pointsInto_end text hpoints
  · intro hend
    rcases parse_error_cases h with ⟨heq, -⟩ | hpoints | ⟨heq, -⟩
    · exact absurd heq hne
    · exact hpoints
    · exact absurd heq hend

/-- An opening parenthesis alone: the error names an operator at its end, and there is none. -/
theorem parse_opening :
    Expression.parse {} "(" = .error (.missingOperand 1) ∧
      ¬(ParseError.missingOperand 1).PointsInto "(" := by
  have hlist : ofText "(" = .ok ⟨[⟨.opening, 0⟩], 1⟩ := ofText_eq_ok_iff.2 (.symbol rfl .stop)
  have hparse : Expression.parse {} "(" = .error (.missingOperand 1) := by
    rw [Expression.parse, hlist]
    rfl
  have hne : ParseError.missingOperand 1 ≠ .empty := by simp
  refine ⟨hparse, ?_⟩
  rw [(pointsInto_of_parse {} "(").2.1 _ hparse hne]
  exact fun hne => hne rfl

end Parse

end EncryptedArithmetic

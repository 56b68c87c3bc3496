import EncryptedArithmetic.Expression.Render
import EncryptedArithmetic.Proofs.Decimal.Written
import EncryptedArithmetic.Proofs.Expression.Lexing
import EncryptedArithmetic.Proofs.Expression.Moves

/-!
# Written expressions read back

The written form of an expression puts every operator into parentheses of its own, so as many
parentheses are open at once as operators stand above a literal. `Bracketed` says which tokens such
a form is cut into. Reading them either gives the expression or stops at the first token that a
limit does not allow.

## Main definitions

* `height`, `operatorCount`: what the limits bound.
* `Bracketed`: the tokens of the written form of an expression.
* `AnswersWithin`: an answer within the limits, or an error about one that is exceeded.

## Main results

* `exists_lexes`: a written form with finite literals is cut into such tokens.
* `answersWithin_step` and `answersWithin_foldlM_step`: what the reader does with one token, and
  with the tokens of an expression.
* `parse_render`: an expression is read back exactly if it keeps the limits.
-/

namespace EncryptedArithmetic

namespace Expression

/-- Operators one inside another, at most. -/
def height : Expression → Nat :=
  fold (fun _ => 0) fun _ l r => 1 + max l r

/-- Operators in an expression. -/
def operatorCount : Expression → Nat :=
  fold (fun _ => 0) fun _ l r => l + 1 + r

/-- All literals are finite. -/
def isFinite : Expression → Bool :=
  fold Float.isFinite fun _ l r => l && r

section Counts

variable {value : Float} {op : Operator} {left right : Expression}

@[simp]
theorem height_literal : (literal value).height = 0 := rfl

@[simp]
theorem height_binary : (binary op left right).height = 1 + max left.height right.height := by
  simp [height]

@[simp]
theorem operatorCount_literal : (literal value).operatorCount = 0 := rfl

@[simp]
theorem operatorCount_binary :
    (binary op left right).operatorCount = left.operatorCount + 1 + right.operatorCount := by
  simp [operatorCount]

theorem isFinite_literal : (literal value).isFinite = value.isFinite := rfl

theorem isFinite_binary : (binary op left right).isFinite = (left.isFinite && right.isFinite) := by
  simp [isFinite]

end Counts

end Expression

open TokenList (Lexes IsNumeral isNumeric)

/-! ## Tokens of a written form -/

/-- The tokens of an expression with every operator in parentheses of its own. -/
inductive Bracketed : Expression → List Token → Prop
  /-- A literal without a sign. -/
  | number {t : Token} {value : Float} (ht : t.lexeme = .number value) :
      Bracketed (.literal value) [t]
  /-- A literal with a sign. -/
  | signed {sign t : Token} {value : Float} (hsign : sign.lexeme = .operator .sub)
      (ht : t.lexeme = .number value) : Bracketed (.literal (-value)) [sign, t]
  /-- An operator between its operands. -/
  | binary {opening t closing : Token} {op : Operator} {left right : Expression}
      {ls rs : List Token} (hopening : opening.lexeme = .opening) (hleft : Bracketed left ls)
      (ht : t.lexeme = .operator op) (hright : Bracketed right rs)
      (hclosing : closing.lexeme = .closing) :
      Bracketed (.binary op left right) (opening :: (ls ++ t :: (rs ++ [closing])))

theorem Lexeme.ofChar?_symbol (op : Operator) :
    Lexeme.ofChar? op.symbol = some (.operator op) := by
  cases op <;> rfl

/-- A text in positional notation is a numeral. -/
theorem isNumeral_of_positional {text : List Char} {v : ℚ} {x : Float}
    (htext : Decimal.Positional text v) (hread : Decimal.ofNumeral? text 0 = some x)
    (hx : x.isFinite) : IsNumeral text x where
  numeric c hc := by
    rw [isNumeric, Bool.or_eq_true, beq_iff_eq]
    exact htext.isDigit_or_eq hc
  digit := TokenList.exists_digit_of_ofNumeral? hread
  point := htext.count_point_le
  value_eq := hread
  finite := hx

/-- The written form of an expression is cut into its tokens, whatever follows it. -/
theorem exists_lexes {e : Expression} (he : e.isFinite) (pos : Nat) {rest : List Char}
    (hend : ∀ c ∈ rest.head?, isNumeric c = false) :
    ∃ ts next, Bracketed e ts ∧ ∀ tail stop, Lexes next rest tail stop →
      Lexes pos (e.renderOnto rest) (ts ++ tail) stop := by
  -- What is read behind the rendering is left open, since an operand stands inside a longer text.
  induction e generalizing pos rest with
  | literal x =>
    rw [Expression.isFinite_literal] at he
    obtain ⟨text, v, htext, hread, hplain⟩ := Decimal.exists_toList_plain he
    have hnumeral := isNumeral_of_positional htext hread (Binary64.denotes_abs he).isFinite
    rw [Expression.renderOnto]
    rcases hplain with ⟨hplain, hx⟩ | ⟨hplain, hx⟩
    · rw [← hx] at hnumeral
      refine ⟨[⟨.number x, pos⟩], pos + text.length, .number rfl, ?_⟩
      intro tail stop htail
      rw [hplain]
      exact .numeral hnumeral hend htail
    · refine ⟨[⟨.operator .sub, pos⟩, ⟨.number x.abs, pos + 1⟩], pos + 1 + text.length, ?_, ?_⟩
      · have hsigned : Bracketed (.literal (-x.abs))
            [⟨.operator .sub, pos⟩, ⟨.number x.abs, pos + 1⟩] := .signed rfl rfl
        rwa [← hx] at hsigned
      · intro tail stop htail
        rw [hplain]
        exact .symbol rfl (.numeral hnumeral hend htail)
  | binary op left right ihl ihr =>
    rw [Expression.isFinite_binary, Bool.and_eq_true] at he
    have hblank : ∀ c ∈ (' ' :: op.symbol :: ' ' :: right.renderOnto (')' :: rest)).head?,
        isNumeric c = false := by
      rintro c ⟨⟩
      rfl
    have hclosing : ∀ c ∈ (')' :: rest).head?, isNumeric c = false := by
      rintro c ⟨⟩
      rfl
    obtain ⟨ls, afterLeft, hls, hleft⟩ := ihl he.1 (pos + 1) hblank
    obtain ⟨rs, afterRight, hrs, hright⟩ := ihr he.2 (afterLeft + 3) hclosing
    refine ⟨⟨.opening, pos⟩ :: (ls ++ ⟨.operator op, afterLeft + 1⟩ ::
      (rs ++ [⟨.closing, afterRight⟩])), afterRight + 1, .binary rfl hls rfl hrs rfl, ?_⟩
    intro tail stop htail
    have hbehind := hright _ _ (.symbol rfl htail)
    have hmiddle : Lexes afterLeft (' ' :: op.symbol :: ' ' :: right.renderOnto (')' :: rest)) _
      stop := .blank rfl (.symbol (Lexeme.ofChar?_symbol op) (.blank rfl hbehind))
    have hall : Lexes pos ('(' :: left.renderOnto
      (' ' :: op.symbol :: ' ' :: right.renderOnto (')' :: rest))) _ stop :=
        .symbol rfl (hleft _ _ hmiddle)
    simpa [Expression.renderOnto] using hall

/-! ## Reading the tokens -/

namespace Parse

/-- The result is an error about a limit, and the limit is exceeded. -/
def Exceeds (limits : ParseBounds) (depth operators : Nat) {α : Type}
    (result : Except ParseError α) : Prop :=
  ∃ position,
    (limits.maxDepth < depth ∧ result = .error (.nestingTooDeep limits.maxDepth position)) ∨
    (limits.maxOperators < operators ∧
      result = .error (.tooManyOperators limits.maxOperators position))

/-- What is read with so many parentheses open at once and so many operators: the answer where both
are within the limits, and an error about a limit otherwise. -/
def AnswersWithin (limits : ParseBounds) (depth operators : Nat) {α : Type} (answer : α)
    (result : Except ParseError α) : Prop :=
  (depth ≤ limits.maxDepth ∧ operators ≤ limits.maxOperators ∧ result = .ok answer) ∨
    Exceeds limits depth operators result

/-- A reading goes on from what has been read, unless a limit is exceeded already. -/
theorem AnswersWithin.bind {α β : Type} {limits : ParseBounds}
    {depth operators depth' operators' : Nat} {answer : α} {answer' : β}
    {result : Except ParseError α} {next : α → Except ParseError β}
    (h : AnswersWithin limits depth operators answer result)
    (hdepth : depth ≤ depth') (hoperators : operators ≤ operators')
    (hnext : depth ≤ limits.maxDepth → operators ≤ limits.maxOperators →
      AnswersWithin limits depth' operators' answer' (next answer)) :
    AnswersWithin limits depth' operators' answer' (result >>= next) := by
  rcases h with ⟨hd, ho, rfl⟩ | ⟨position, ⟨hlt, rfl⟩ | ⟨hlt, rfl⟩⟩
  · exact hnext hd ho
  · exact Or.inr ⟨position, Or.inl ⟨hlt.trans_le hdepth, rfl⟩⟩
  · exact Or.inr ⟨position, Or.inr ⟨hlt.trans_le hoperators, rfl⟩⟩

variable {limits : ParseBounds} {s s' : State} {t : Token} {e : Expression} {ts : List Token}

/-- A token that fits is read, unless it exceeds a limit. -/
theorem answersWithin_step (hs : s.Within limits) (h : Move s t s') :
    AnswersWithin limits s'.enclosing.length s'.operators s' (step limits s t) := by
  by_cases hwithin : s'.Within limits
  · exact Or.inl ⟨hwithin.depth, hwithin.operators, (step_eq_ok_iff hs).2 ⟨h, hwithin⟩⟩
  refine Or.inr ?_
  -- Only an opened parenthesis and a binary operator are counted.
  cases h with
  | number hexpecting ht => exact absurd ⟨hs.depth, hs.operators⟩ hwithin
  | sign hexpecting ht => exact absurd ⟨hs.depth, hs.operators⟩ hwithin
  | opening hexpecting ht =>
    have hdeep : limits.maxDepth < s.enclosing.length + 1 :=
      not_le.1 fun hle => hwithin ⟨hle, hs.operators⟩
    refine ⟨t.position, Or.inl ⟨hdeep, ?_⟩⟩
    simp only [step, hexpecting, ht]
    exact if_pos hdeep
  | digits hexpecting ht => exact absurd ⟨hs.depth, hs.operators⟩ hwithin
  | operator hexpecting ht =>
    have hmany : limits.maxOperators < s.operators + 1 :=
      not_le.1 fun hle => hwithin ⟨hs.depth, hle⟩
    refine ⟨t.position, Or.inr ⟨hmany, ?_⟩⟩
    simp only [step, hexpecting, ht]
    exact if_pos hmany
  | closing hexpecting ht henclosing =>
    refine absurd ⟨?_, hs.operators⟩ hwithin
    have hdepth := hs.depth
    rw [henclosing, List.length_cons] at hdepth
    exact Nat.le_of_succ_le hdepth

/-- A list is read by taking its first token and reading the others from there. -/
theorem answersWithin_foldlM_cons {depth operators : Nat} {answer : State} (hs : s.Within limits)
    (hmove : Move s t s') (hdepth : s'.enclosing.length ≤ depth)
    (hoperators : s'.operators ≤ operators)
    (hrest : s'.Within limits →
      AnswersWithin limits depth operators answer (ts.foldlM (step limits) s')) :
    AnswersWithin limits depth operators answer ((t :: ts).foldlM (step limits) s) := by
  rw [List.foldlM_cons]
  exact (answersWithin_step hs hmove).bind hdepth hoperators fun hd ho => hrest ⟨hd, ho⟩

/-- Inside a pair of parentheses there is nothing but the operands and the operator. -/
theorem Pending.total_push (op : Operator) (left right : Expression) :
    (({} : Pending).push left op).total right = .binary op left right := by
  cases op <;> rfl

/-- Where an operand may come, the tokens of an expression are read to this expression, unless a
limit is exceeded. -/
theorem answersWithin_foldlM_step (h : Bracketed e ts) (hs : s.Within limits) {after : Option Nat}
    (hexpecting : s.expecting = .operand after) :
    AnswersWithin limits (s.enclosing.length + e.height) (s.operators + e.operatorCount)
      { s with operators := s.operators + e.operatorCount, expecting := .operator e }
      (ts.foldlM (step limits) s) := by
  induction h generalizing s after with
  | number ht =>
    refine answersWithin_foldlM_cons hs (.number hexpecting ht) le_rfl le_rfl fun hw => ?_
    exact Or.inl ⟨hw.depth, hw.operators, rfl⟩
  | signed hsign ht =>
    refine answersWithin_foldlM_cons hs (.sign hexpecting hsign) le_rfl le_rfl fun hw => ?_
    refine answersWithin_foldlM_cons hw (.digits rfl ht) le_rfl le_rfl fun hw => ?_
    exact Or.inl ⟨hw.depth, hw.operators, rfl⟩
  | @binary opening t closing op left right ls rs hopening hleft ht hright hclosing ihl ihr =>
    rw [Expression.height_binary, Expression.operatorCount_binary]
    have hinside : ((s.pending, opening.position) :: s.enclosing).length =
      s.enclosing.length + 1 := List.length_cons
    -- Inside the parenthesis the left operand is read as it would be on its own.
    refine answersWithin_foldlM_cons hs (.opening hexpecting hopening) (by dsimp only; omega)
      (by dsimp only; omega) fun hopened => ?_
    rw [List.foldlM_append]
    refine (ihl hopened rfl).bind (by dsimp only; omega) (by dsimp only; omega) fun hdl hol => ?_
    -- The operator counts, and behind it the right operand is read the same way.
    refine answersWithin_foldlM_cons ⟨hopened.depth, hol⟩ (.operator rfl ht) (by dsimp only; omega)
      (by dsimp only; omega) fun hcounted => ?_
    rw [List.foldlM_append]
    refine (ihr hcounted rfl).bind (by dsimp only; omega) (by dsimp only; omega) fun hdr hor => ?_
    -- The parenthesis that closes takes the reader back to where it was.
    refine answersWithin_foldlM_cons ⟨hcounted.depth, hor⟩ (.closing rfl hclosing rfl)
      (by dsimp only; omega) (by dsimp only; omega) fun _ => ?_
    rw [Pending.total_push]
    refine Or.inl ⟨by dsimp only at hdl hdr; omega, by dsimp only at hor; omega, ?_⟩
    rw [← Nat.add_assoc, ← Nat.add_assoc]
    rfl

/-- A written form is read back to its expression, unless a limit is exceeded. -/
theorem answersWithin_parse_render (limits : ParseBounds) (he : e.isFinite) :
    AnswersWithin limits e.height e.operatorCount e (Expression.parse limits e.render) := by
  have hend : ∀ c ∈ ([] : List Char).head?, isNumeric c = false := by
    rintro c ⟨⟩
  obtain ⟨ts, stop, hts, hlexes⟩ := exists_lexes he 0 hend
  have htext : TokenList.ofText e.render = .ok ⟨ts, stop⟩ := by
    rw [TokenList.ofText_eq_ok_iff, Expression.render, String.toList_ofList]
    have hall := hlexes [] stop .stop
    rwa [List.append_nil] at hall
  -- Every rendering has a token, so the early refusal of an empty text is not taken.
  have hne : ts.isEmpty = false := by
    cases hts <;> rfl
  have hfold : AnswersWithin limits e.height e.operatorCount
      { operators := e.operatorCount, expecting := .operator e }
      (ts.foldlM (step limits) {}) := by
    have hstart : State.Within limits {} := ⟨Nat.zero_le _, Nat.zero_le _⟩
    have hread := answersWithin_foldlM_step hts hstart rfl
    rwa [List.length_nil, Nat.zero_add, Nat.zero_add] at hread
  rw [Expression.parse, htext, ok_bind, ofTokens, hne, if_neg Bool.false_ne_true]
  exact hfold.bind le_rfl le_rfl fun hd ho => Or.inl ⟨hd, ho, rfl⟩

/-- An expression with finite literals is read back from its written form, down to the last bit of
every literal and the sign of zero, exactly if it is no higher than parentheses may be nested and
has no more operators than are allowed. Otherwise the error names a limit that is exceeded. -/
theorem parse_render (limits : ParseBounds) (e : Expression) (he : e.isFinite) :
    (∀ e', Expression.parse limits e.render = .ok e' ↔
      e' = e ∧ e.height ≤ limits.maxDepth ∧ e.operatorCount ≤ limits.maxOperators) ∧
    (¬(e.height ≤ limits.maxDepth ∧ e.operatorCount ≤ limits.maxOperators) → ∃ position,
      limits.maxDepth < e.height ∧
        Expression.parse limits e.render = .error (.nestingTooDeep limits.maxDepth position) ∨
      limits.maxOperators < e.operatorCount ∧
        Expression.parse limits e.render =
          .error (.tooManyOperators limits.maxOperators position)) := by
  rcases answersWithin_parse_render limits he with ⟨hdepth, hoperators, hparse⟩ | hexceeds
  · constructor
    · intro e'
      rw [hparse, Except.ok.injEq]
      exact ⟨fun heq => ⟨heq.symm, hdepth, hoperators⟩, fun h => h.1.symm⟩
    · exact fun hnot => absurd ⟨hdepth, hoperators⟩ hnot
  · refine ⟨fun e' => ?_, fun _ => hexceeds⟩
    obtain ⟨position, ⟨hlt, hparse⟩ | ⟨hlt, hparse⟩⟩ := hexceeds
    · simp only [hparse, reduceCtorEq, false_iff]
      exact fun h => absurd h.2.1 hlt.not_ge
    · simp only [hparse, reduceCtorEq, false_iff]
      exact fun h => absurd h.2.2 hlt.not_ge

/-- A difference with negative literals behind its operators is read back with two parentheses, and
with one parenthesis it is not. -/
theorem parse_render_signs :
    let e : Expression := .binary .sub (.literal 1.5)
      (.binary .div (.literal (-0.0)) (.literal (-1e-7)))
    e.isFinite ∧ Expression.parse ⟨2, 2⟩ e.render = .ok e ∧
      ∃ position, Expression.parse ⟨1, 2⟩ e.render = .error (.nestingTooDeep 1 position) := by
  intro e
  have he : e.isFinite := by decide +kernel
  have hheight : e.height = 2 := rfl
  have hcount : e.operatorCount = 2 := rfl
  refine ⟨he, ((parse_render ⟨2, 2⟩ e he).1 e).2 ⟨rfl, hheight.le, hcount.le⟩, ?_⟩
  obtain ⟨position, ⟨-, herror⟩ | ⟨hmany, -⟩⟩ := (parse_render ⟨1, 2⟩ e he).2 fun h =>
    absurd h.1 (by rw [hheight]; decide)
  · exact ⟨position, herror⟩
  · exact absurd hmany (by rw [hcount]; exact lt_irrefl 2)

end Parse

end EncryptedArithmetic

import Mathlib.Data.List.TakeWhile
import EncryptedArithmetic.Expression.Token

/-!
# Texts cut into tokens

`Lexes` says what it means to cut a text: blanks separate, a symbol is a token of its own, and a
numeral ends where the run of digits and points ends. The scanner answers exactly the tokens that
this relation allows, so a text can be cut in one way at most.

## Main definitions

* `IsNumeral`: a run of digits and points that is well formed, with its value.
* `Lexes`: a text from a byte offset on, its tokens, and the byte offset of its end.

## Main results

* `lexes_cons_iff`: the character that leads a text decides how the text goes on.
* `ofText_eq_ok_iff`: the scanner answers the tokens of the text.
-/

namespace EncryptedArithmetic.TokenList

/-- A well-formed numeral: digits with at most one point among them, at least one digit, and a
finite value. -/
structure IsNumeral (run : List Char) (value : Float) : Prop where
  numeric : ∀ c ∈ run, isNumeric c
  digit : ∃ c ∈ run, c.isDigit
  point : run.count '.' ≤ 1
  value_eq : Decimal.ofNumeral? run 0 = some value
  finite : value.isFinite

/-- The text that begins at a byte offset is cut into the tokens and ends at another one. -/
inductive Lexes : Nat → List Char → List Token → Nat → Prop
  /-- Nothing is left. -/
  | stop {pos : Nat} : Lexes pos [] [] pos
  /-- A blank is skipped. -/
  | blank {pos stop : Nat} {c : Char} {rest : List Char} {tokens : List Token}
      (hc : isBlank c) (htail : Lexes (pos + 1) rest tokens stop) :
      Lexes pos (c :: rest) tokens stop
  /-- A symbol is a token. -/
  | symbol {pos stop : Nat} {c : Char} {lexeme : Lexeme} {rest : List Char} {tokens : List Token}
      (hc : Lexeme.ofChar? c = some lexeme) (htail : Lexes (pos + 1) rest tokens stop) :
      Lexes pos (c :: rest) (⟨lexeme, pos⟩ :: tokens) stop
  /-- A numeral is a token that goes as far as there are digits and points. -/
  | numeral {pos stop : Nat} {run rest : List Char} {value : Float} {tokens : List Token}
      (hrun : IsNumeral run value) (hend : ∀ c ∈ rest.head?, isNumeric c = false)
      (htail : Lexes (pos + run.length) rest tokens stop) :
      Lexes pos (run ++ rest) (⟨.number value, pos⟩ :: tokens) stop

/-! ## Classes of characters -/

theorem isBlank_eq_false_of_isNumeric {c : Char} (h : isNumeric c) : isBlank c = false := by
  rw [isBlank]
  simp only [Bool.or_eq_false_iff, beq_eq_false_iff_ne]
  refine ⟨⟨⟨⟨?_, ?_⟩, ?_⟩, ?_⟩, ?_⟩ <;>
  · rintro rfl
    revert h
    decide

/-- The characters that are a lexeme are the operators and the parentheses. -/
theorem mem_of_ofChar? {c : Char} {lexeme : Lexeme} (h : Lexeme.ofChar? c = some lexeme) :
    c ∈ ['(', ')', '+', '-', '*', '/'] := by
  unfold Lexeme.ofChar? at h
  split at h
  · decide
  · decide
  · obtain ⟨op, hop, -⟩ := Option.map_eq_some_iff.1 h
    unfold Operator.ofSymbol? at hop
    split at hop
    · decide
    · decide
    · decide
    · decide
    · cases hop

/-- A symbol is neither blank nor part of a numeral. -/
theorem class_of_ofChar? {c : Char} {lexeme : Lexeme} (h : Lexeme.ofChar? c = some lexeme) :
    isBlank c = false ∧ isNumeric c = false := by
  have hmem := mem_of_ofChar? h
  simp only [List.mem_cons, List.not_mem_nil, or_false] at hmem
  rcases hmem with rfl | rfl | rfl | rfl | rfl | rfl <;> decide

/-! ## Numerals -/

theorem IsNumeral.ne_nil {run : List Char} {value : Float} (h : IsNumeral run value) :
    run ≠ [] := by
  obtain ⟨c, hc, -⟩ := h.digit
  exact List.ne_nil_of_mem hc

/-- What is read as a numeral has a digit. -/
theorem exists_digit_of_ofNumeral? {run : List Char} {exponent : Int} {value : Float}
    (h : Decimal.ofNumeral? run exponent = some value) : ∃ c ∈ run, c.isDigit := by
  obtain ⟨⟨hne, hall⟩, -⟩ := Option.ite_none_right_eq_some.1 h
  obtain ⟨c, hc⟩ := List.exists_mem_of_ne_nil _ hne
  refine ⟨c, ?_, List.all_eq_true.1 hall c hc⟩
  -- The digits before the point and those after it are taken from the run.
  rcases List.mem_append.1 hc with hc | hc
  · exact (List.takeWhile_sublist _).mem hc
  · exact (List.dropWhile_sublist _).mem (List.mem_of_mem_drop hc)

theorem numeral?_eq_some_iff {run : List Char} (hrun : ∀ c ∈ run, isNumeric c) {value : Float} :
    numeral? run = some value ↔ IsNumeral run value := by
  rw [numeral?]
  constructor
  · intro h
    split at h
    · rename_i hpoint
      obtain ⟨hvalue, hfinite⟩ := Option.filter_eq_some_iff.1 h
      exact ⟨hrun, exists_digit_of_ofNumeral? hvalue, hpoint, hvalue, hfinite⟩
    · cases h
  · intro h
    rw [if_pos h.point, h.value_eq, Option.filter_some, if_pos h.finite]

/-- The run of characters of a class that leads a text is cut off where it ends. -/
theorem takeWhile_append_rest {p : Char → Bool} {run rest : List Char} (hrun : ∀ c ∈ run, p c)
    (hend : ∀ c ∈ rest.head?, p c = false) :
    (run ++ rest).takeWhile p = run ∧ (run ++ rest).dropWhile p = rest := by
  rw [List.takeWhile_append_of_pos hrun, List.dropWhile_append_of_pos hrun]
  rcases rest with _ | ⟨c, rest⟩
  · simp
  · have hc : ¬p c := by simp [hend c rfl]
    simp [List.takeWhile_cons_of_neg hc, List.dropWhile_cons_of_neg hc]

theorem isNumeric_head?_dropWhile (rest : List Char) :
    ∀ c ∈ (rest.dropWhile isNumeric).head?, isNumeric c = false := by
  intro c hc
  have hnot := List.head?_dropWhile_not isNumeric rest
  rw [Option.mem_def.1 hc] at hnot
  exact hnot

/-! ## Cutting a text -/

variable {pos stop : Nat} {tokens : List Token}

theorem lexes_nil_iff : Lexes pos [] tokens stop ↔ tokens = [] ∧ stop = pos := by
  constructor
  · intro h
    generalize htext : ([] : List Char) = text at h
    cases h with
    | stop => exact ⟨rfl, rfl⟩
    | blank => cases htext
    | symbol => cases htext
    | numeral hrun => exact absurd (List.append_eq_nil_iff.1 htext.symm).1 hrun.ne_nil
  · rintro ⟨rfl, rfl⟩
    exact .stop

/-- The character that leads a text decides how it goes on. -/
theorem lexes_cons_iff {c : Char} {rest : List Char} :
    Lexes pos (c :: rest) tokens stop ↔
      if isBlank c then Lexes (pos + 1) rest tokens stop
      else if isNumeric c then
        ∃ value tail, IsNumeral (c :: rest.takeWhile isNumeric) value ∧
          tokens = ⟨.number value, pos⟩ :: tail ∧
          Lexes (pos + (c :: rest.takeWhile isNumeric).length) (rest.dropWhile isNumeric) tail stop
      else ∃ lexeme tail, Lexeme.ofChar? c = some lexeme ∧ tokens = ⟨lexeme, pos⟩ :: tail ∧
        Lexes (pos + 1) rest tail stop := by
  constructor
  · intro h
    generalize htext : c :: rest = text at h
    cases h with
    | stop => cases htext
    | blank hc htail =>
      obtain ⟨rfl, rfl⟩ := List.cons.inj htext
      rwa [if_pos hc]
    | symbol hc htail =>
      obtain ⟨rfl, rfl⟩ := List.cons.inj htext
      obtain ⟨hblank, hnumeric⟩ := class_of_ofChar? hc
      rw [hblank, hnumeric, if_neg Bool.false_ne_true, if_neg Bool.false_ne_true]
      exact ⟨_, _, hc, rfl, htail⟩
    | @numeral _ _ run rest' value tail hrun hend htail =>
      -- The run is not empty, so the text begins with its first character.
      obtain ⟨d, run, rfl⟩ := List.exists_cons_of_ne_nil hrun.ne_nil
      rw [List.cons_append] at htext
      obtain ⟨rfl, rfl⟩ := List.cons.inj htext
      have hc := hrun.numeric c List.mem_cons_self
      obtain ⟨htake, hdrop⟩ := takeWhile_append_rest
        (fun d hd => hrun.numeric d (List.mem_cons_of_mem c hd)) hend
      rw [isBlank_eq_false_of_isNumeric hc, if_neg Bool.false_ne_true, if_pos hc, htake, hdrop]
      exact ⟨value, tail, hrun, rfl, htail⟩
  · intro h
    split at h
    · rename_i hblank
      exact .blank hblank h
    split at h
    · obtain ⟨value, tail, hrun, rfl, htail⟩ := h
      have hcut := Lexes.numeral hrun (isNumeric_head?_dropWhile rest) htail
      rwa [List.cons_append, List.takeWhile_append_dropWhile] at hcut
    · obtain ⟨lexeme, tail, hc, rfl, htail⟩ := h
      exact .symbol hc htail

/-- The scanner puts the tokens of the text behind those it has seen. -/
theorem scanFrom_eq_ok_iff {pos : Nat} {seen : List Token} {text : List Char} {list : TokenList} :
    scanFrom pos seen text = .ok list ↔
      ∃ tokens, Lexes pos text tokens list.stop ∧ list.tokens = seen.reverse ++ tokens := by
  -- By induction along the scan: each step is one of the cases of `lexes_cons_iff`.
  fun_induction scanFrom pos seen text with
  | case1 pos seen =>
    obtain ⟨tokens, stop⟩ := list
    simp only [lexes_nil_iff, Except.ok.injEq, TokenList.mk.injEq]
    constructor
    · rintro ⟨rfl, rfl⟩
      exact ⟨[], ⟨rfl, rfl⟩, (List.append_nil _).symm⟩
    · rintro ⟨_, ⟨rfl, rfl⟩, rfl⟩
      exact ⟨(List.append_nil _).symm, rfl⟩
  | case2 pos seen c rest hblank ih =>
    simp only [ih, lexes_cons_iff, hblank, if_true]
  | case3 pos seen c rest hblank hnumeric run value hvalue ih =>
    have hrun : ∀ d ∈ run, isNumeric d := by
      intro d hd
      rcases List.mem_cons.1 hd with rfl | hd
      · exact hnumeric
      · exact List.mem_takeWhile_imp hd
    rw [numeral?_eq_some_iff hrun] at hvalue
    simp only [ih, lexes_cons_iff, hblank, hnumeric, if_false, if_true, Bool.false_eq_true]
    constructor
    · rintro ⟨tail, htail, htokens⟩
      exact ⟨_, ⟨value, tail, hvalue, rfl, htail⟩, by simpa using htokens⟩
    · rintro ⟨_, ⟨value', tail, hvalue', rfl, htail⟩, htokens⟩
      obtain rfl := Option.some.inj (hvalue.value_eq.symm.trans hvalue'.value_eq)
      exact ⟨tail, htail, by simpa using htokens⟩
  | case4 pos seen c rest hblank hnumeric run hvalue =>
    simp only [reduceCtorEq, false_iff]
    rintro ⟨_, hcut, -⟩
    rw [lexes_cons_iff, if_neg hblank, if_pos hnumeric] at hcut
    obtain ⟨value, tail, hrun, -⟩ := hcut
    rw [(numeral?_eq_some_iff hrun.numeric).2 hrun] at hvalue
    cases hvalue
  | case5 pos seen c rest hblank hnumeric lexeme hlexeme ih =>
    simp only [ih, lexes_cons_iff, hblank, hnumeric, if_false, Bool.false_eq_true]
    constructor
    · rintro ⟨tail, htail, htokens⟩
      exact ⟨_, ⟨lexeme, tail, hlexeme, rfl, htail⟩, by simpa using htokens⟩
    · rintro ⟨_, ⟨lexeme', tail, hlexeme', rfl, htail⟩, htokens⟩
      obtain rfl := Option.some.inj (hlexeme.symm.trans hlexeme')
      exact ⟨tail, htail, by simpa using htokens⟩
  | case6 pos seen c rest hblank hnumeric hlexeme =>
    simp only [reduceCtorEq, false_iff]
    rintro ⟨_, hcut, -⟩
    rw [lexes_cons_iff, if_neg hblank, if_neg hnumeric] at hcut
    obtain ⟨lexeme, tail, hc, -⟩ := hcut
    rw [hlexeme] at hc
    cases hc

/-- The scanner answers the tokens of the text and the byte offset of its end. -/
theorem ofText_eq_ok_iff {text : String} {list : TokenList} :
    ofText text = .ok list ↔ Lexes 0 text.toList list.tokens list.stop := by
  rw [ofText, scanFrom_eq_ok_iff]
  constructor
  · rintro ⟨tokens, htokens, heq⟩
    rwa [heq, List.reverse_nil, List.nil_append]
  · intro h
    exact ⟨list.tokens, h, rfl⟩

end EncryptedArithmetic.TokenList

import EncryptedArithmetic.Proofs.Expression.Lexing
import EncryptedArithmetic.Proofs.Expression.Moves

/-!
# Where the tokens of a text stand

`Cuts` follows the scanner through the front of a text while the characters that are left stay
present, so that no numeral is split. Every character that becomes part of a token or separates two
of them takes one byte, so byte offsets can be told from what was cut off; and a parenthesis of the
text is a token, so parentheses can be counted in the text as well as among the tokens.

## Main definitions

* `Cuts`: the front of a text is cut into tokens, and a rest is left.
* `Lexeme.Written`: a lexeme is written in a text, in front of what stands behind it.
* `Unreadable`: what stops the scanner at the front of a text.

## Main results

* `Cuts.exists_front`: the byte offset and the parentheses of what was cut off.
* `exists_cuts_of_lexes`: where a token of a text is written.
* `exists_cuts_of_scanFrom`: where the scanner stops.
-/

namespace EncryptedArithmetic

open Parse TokenList

/-- A lexeme is written in a text, in front of what stands behind it: as its own character, or as a
numeral that goes as far as there are digits and points. -/
inductive Lexeme.Written : Lexeme → List Char → List Char → Prop
  | symbol {lexeme : Lexeme} {c : Char} {behind : List Char}
      (hc : Lexeme.ofChar? c = some lexeme) : Written lexeme [c] behind
  | numeral {value : Float} {run behind : List Char} (hrun : IsNumeral run value)
      (hend : ∀ c ∈ behind.head?, isNumeric c = false) : Written (.number value) run behind

namespace TokenList

/-- The text from a byte offset on is cut into the tokens up to another byte offset, where a rest is
left. -/
inductive Cuts : ℕ → List Char → List Token → ℕ → List Char → Prop
  | done {pos : ℕ} {rest : List Char} : Cuts pos rest [] pos rest
  | blank {pos p : ℕ} {c : Char} {text rest : List Char} {tokens : List Token}
      (hc : isBlank c) (htail : Cuts (pos + 1) text tokens p rest) :
      Cuts pos (c :: text) tokens p rest
  | symbol {pos p : ℕ} {c : Char} {lexeme : Lexeme} {text rest : List Char} {tokens : List Token}
      (hc : Lexeme.ofChar? c = some lexeme) (htail : Cuts (pos + 1) text tokens p rest) :
      Cuts pos (c :: text) (⟨lexeme, pos⟩ :: tokens) p rest
  | numeral {pos p : ℕ} {run text rest : List Char} {value : Float} {tokens : List Token}
      (hrun : IsNumeral run value) (hend : ∀ c ∈ text.head?, isNumeric c = false)
      (htail : Cuts (pos + run.length) text tokens p rest) :
      Cuts pos (run ++ text) (⟨.number value, pos⟩ :: tokens) p rest

variable {pos p stop : ℕ} {text rest front behind run : List Char}
  {tokens before after : List Token}
  {t : Token} {c : Char} {lexeme : Lexeme} {e : ParseError}

/-! ## Characters -/

theorem utf8Size_of_isBlank (h : isBlank c) : c.utf8Size = 1 := by
  simp only [isBlank, Bool.or_eq_true, beq_iff_eq] at h
  rcases h with (((rfl | rfl) | rfl) | rfl) | rfl <;> decide

theorem utf8Size_of_isNumeric (h : isNumeric c) : c.utf8Size = 1 := by
  simp only [isNumeric, Bool.or_eq_true, beq_iff_eq] at h
  rcases h with h | rfl
  · rw [Char.utf8Size_eq_one_iff]
    have hdigit := Char.isDigit_iff_toNat.1 h
    rw [UInt32.le_iff_toNat_le]
    exact le_trans hdigit.2 (by decide)
  · decide

theorem utf8Size_of_ofChar? (h : Lexeme.ofChar? c = some lexeme) : c.utf8Size = 1 := by
  have hmem := mem_of_ofChar? h
  simp only [List.mem_cons, List.not_mem_nil, or_false] at hmem
  rcases hmem with rfl | rfl | rfl | rfl | rfl | rfl <;> decide

/-- A run of digits and points takes one byte for each character. -/
theorem utf8ByteSize_of_isNumeric (h : ∀ c ∈ run, isNumeric c) :
    (String.ofList run).utf8ByteSize = run.length := by
  induction run with
  | nil => rfl
  | cons c run ih =>
    obtain ⟨hc, hrun⟩ := List.forall_mem_cons.1 h
    rw [String.ofList_cons, String.utf8ByteSize_append, String.utf8ByteSize_singleton,
      utf8Size_of_isNumeric hc, ih hrun, List.length_cons, Nat.add_comm]

/-- A symbol is the character of a parenthesis exactly when its lexeme is this parenthesis. -/
theorem parentheses_of_ofChar? (h : Lexeme.ofChar? c = some lexeme) :
    (if c == '(' then 1 else 0) = lexeme.isOpening.toNat ∧
      (if c == ')' then 1 else 0) = lexeme.isClosing.toNat := by
  have hmem := mem_of_ofChar? h
  simp only [List.mem_cons, List.not_mem_nil, or_false] at hmem
  rcases hmem with rfl | rfl | rfl | rfl | rfl | rfl <;> obtain rfl := Option.some.inj h <;> decide

/-- There is no parenthesis among blanks, digits and points. -/
theorem count_parentheses (run : List Char) (h : ∀ c ∈ run, isBlank c ∨ isNumeric c) :
    run.count '(' = 0 ∧ run.count ')' = 0 := by
  rw [List.count_eq_zero, List.count_eq_zero]
  constructor
  · intro hmem
    exact absurd (h _ hmem) (by decide)
  · intro hmem
    exact absurd (h _ hmem) (by decide)

/-! ## What was cut off -/

/-- No run of digits and points goes on from one list of characters into the next one. -/
def Separates (front rest : List Char) : Prop :=
  ∀ c ∈ front.getLast?, isNumeric c → ∀ d ∈ rest.head?, isNumeric d = false

theorem separates_nil : Separates [] rest :=
  fun _ hc => by cases hc

theorem separates_singleton (hc : isNumeric c = false) : Separates [c] rest := by
  rintro d hd hnumeric
  obtain rfl : c = d := Option.some.inj hd
  rw [hc] at hnumeric
  cases hnumeric

/-- Only the end of what is in front matters. -/
theorem separates_append {front' : List Char} (h : Separates front rest)
    (hnil : front = [] → Separates front' rest) : Separates (front' ++ front) rest := by
  rcases front.eq_nil_or_concat with rfl | ⟨init, last, rfl⟩
  · rw [List.append_nil]
    exact hnil rfl
  · simpa [Separates] using h

/-- What stands in front of a run of digits and points does not belong to it. -/
theorem Separates.front_of_isNumeric (h : Separates front (run ++ behind)) (hne : run ≠ [])
    (hrun : ∀ c ∈ run, isNumeric c) : ∀ c ∈ front.getLast?, isNumeric c = false := by
  obtain ⟨d, run, rfl⟩ := List.exists_cons_of_ne_nil hne
  intro c hc
  by_contra hnumeric
  have hd := h c hc (by simpa using hnumeric) d rfl
  rw [hrun d List.mem_cons_self] at hd
  cases hd

/-- What was cut off takes the bytes up to the rest, and it has the parentheses of the tokens. It
does not end within a run of digits and points. -/
theorem Cuts.exists_front (h : Cuts pos text tokens p rest) :
    ∃ front, text = front ++ rest ∧ p = pos + (String.ofList front).utf8ByteSize ∧
      front.count '(' = opened tokens ∧ front.count ')' = closed tokens ∧
      Separates front rest := by
  induction h with
  | done => exact ⟨[], rfl, rfl, rfl, rfl, separates_nil⟩
  | @blank pos p c text rest tokens hc _ ih =>
    obtain ⟨front, rfl, rfl, hopened, hclosed, hend⟩ := ih
    obtain ⟨hcount, hcount'⟩ := count_parentheses [c] (by simp [hc])
    have hnumeric : isNumeric c = false := by
      by_contra hnumeric
      rw [isBlank_eq_false_of_isNumeric (by simpa using hnumeric)] at hc
      cases hc
    refine ⟨[c] ++ front, rfl, ?_, ?_, ?_,
      separates_append hend fun _ => separates_singleton hnumeric⟩
    · rw [List.singleton_append, String.ofList_cons, String.utf8ByteSize_append,
        String.utf8ByteSize_singleton, utf8Size_of_isBlank hc, Nat.add_assoc]
    · rw [List.count_append, hcount, hopened, Nat.zero_add]
    · rw [List.count_append, hcount', hclosed, Nat.zero_add]
  | @symbol pos p c lexeme text rest tokens hc _ ih =>
    obtain ⟨front, rfl, rfl, hopened, hclosed, hend⟩ := ih
    obtain ⟨hopening, hclosing⟩ := parentheses_of_ofChar? hc
    refine ⟨[c] ++ front, rfl, ?_, ?_, ?_,
      separates_append hend fun _ => separates_singleton (class_of_ofChar? hc).2⟩
    · rw [List.singleton_append, String.ofList_cons, String.utf8ByteSize_append,
        String.utf8ByteSize_singleton, utf8Size_of_ofChar? hc, Nat.add_assoc]
    · rw [List.singleton_append, List.count_cons, hopened, hopening, opened_cons]
    · rw [List.singleton_append, List.count_cons, hclosed, hclosing, closed_cons]
  | @numeral pos p run text rest value tokens hrun hbehind _ ih =>
    obtain ⟨front, rfl, rfl, hopened, hclosed, hend⟩ := ih
    obtain ⟨hcount, hcount'⟩ := count_parentheses run fun c hc => .inr (hrun.numeric c hc)
    -- The numeral ends where the text behind it begins, and with it what was cut off may end.
    have hnil : front = [] → Separates run rest := by
      rintro rfl
      exact fun _ _ _ => hbehind
    refine ⟨run ++ front, (List.append_assoc ..).symm, ?_, ?_, ?_, separates_append hend hnil⟩
    · rw [String.ofList_append, String.utf8ByteSize_append, utf8ByteSize_of_isNumeric hrun.numeric,
        Nat.add_assoc]
    · rw [List.count_append, hcount, hopened, opened_cons]
      exact Nat.zero_add _
    · rw [List.count_append, hcount', hclosed, closed_cons]
      exact Nat.zero_add _

/-- What was cut off is cut into the same tokens when it stands alone. -/
theorem Cuts.exists_lexes (h : Cuts pos text tokens p rest) :
    ∃ front, text = front ++ rest ∧ Lexes pos front tokens p := by
  induction h with
  | done => exact ⟨[], rfl, .stop⟩
  | blank hc _ ih =>
    obtain ⟨front, rfl, hlexes⟩ := ih
    exact ⟨_ :: front, rfl, .blank hc hlexes⟩
  | symbol hc _ ih =>
    obtain ⟨front, rfl, hlexes⟩ := ih
    exact ⟨_ :: front, rfl, .symbol hc hlexes⟩
  | numeral hrun hbehind _ ih =>
    obtain ⟨front, rfl, hlexes⟩ := ih
    -- What follows the run in the shorter text also follows it in the whole text.
    refine ⟨_ ++ front, (List.append_assoc ..).symm, .numeral hrun ?_ hlexes⟩
    intro c hc
    refine hbehind c ?_
    rw [List.head?_append, Option.mem_def.1 hc]
    rfl

/-! ## Where a token is written -/

/-- The tokens up to one of them are cut off in front of it. -/
theorem exists_cuts_of_lexes (h : Lexes pos text (before ++ t :: after) stop) :
    ∃ part behind, Cuts pos text before t.position (part ++ behind) ∧
      t.lexeme.Written part behind ∧ Lexes (t.position + part.length) behind after stop := by
  generalize htokens : before ++ t :: after = tokens at h
  -- By induction along the text, for every list of tokens in front.
  induction h generalizing before with
  | stop => cases before <;> cases htokens
  | blank hc _ ih =>
    obtain ⟨part, behind, hcuts, hwritten, hlexes⟩ := ih htokens
    exact ⟨part, behind, .blank hc hcuts, hwritten, hlexes⟩
  | symbol hc hrest ih =>
    cases before with
    | nil =>
      obtain ⟨rfl, rfl⟩ := List.cons.inj htokens
      exact ⟨[_], _, .done, .symbol hc, hrest⟩
    | cons u before =>
      obtain ⟨rfl, htail⟩ := List.cons.inj htokens
      obtain ⟨part, behind, hcuts, hwritten, hlexes⟩ := ih htail
      exact ⟨part, behind, .symbol hc hcuts, hwritten, hlexes⟩
  | numeral hrun hend hrest ih =>
    cases before with
    | nil =>
      obtain ⟨rfl, rfl⟩ := List.cons.inj htokens
      exact ⟨_, _, .done, .numeral hrun hend, hrest⟩
    | cons u before =>
      obtain ⟨rfl, htail⟩ := List.cons.inj htokens
      obtain ⟨part, behind, hcuts, hwritten, hlexes⟩ := ih htail
      exact ⟨part, behind, .numeral hrun hend hcuts, hwritten, hlexes⟩

/-- A text that is cut into tokens is cut off as a whole. -/
theorem cuts_of_lexes (h : Lexes pos text tokens stop) : Cuts pos text tokens stop [] := by
  induction h with
  | stop => exact .done
  | blank hc _ ih => exact .blank hc ih
  | symbol hc _ ih => exact .symbol hc ih
  | numeral hrun hend _ ih => exact .numeral hrun hend ih

/-- The end of a text is as many bytes away as it has. -/
theorem stop_eq_of_lexes (h : Lexes pos text tokens stop) :
    stop = pos + (String.ofList text).utf8ByteSize := by
  obtain ⟨front, rfl, hstop, -⟩ := (cuts_of_lexes h).exists_front
  rwa [List.append_nil]

/-- A text without tokens is blank. -/
theorem isBlank_of_lexes (h : Lexes pos text [] stop) : ∀ c ∈ text, isBlank c := by
  generalize htokens : ([] : List Token) = tokens at h
  induction h with
  | stop => simp
  | blank hc _ ih => exact List.forall_mem_cons.2 ⟨hc, ih htokens⟩
  | symbol => cases htokens
  | numeral => cases htokens

/-- A blank text has no tokens. -/
theorem lexes_of_isBlank (h : ∀ c ∈ text, isBlank c) : Lexes pos text [] (pos + text.length) := by
  induction text generalizing pos with
  | nil => exact .stop
  | cons c text ih =>
    obtain ⟨hc, htext⟩ := List.forall_mem_cons.1 h
    have htail : Lexes (pos + 1) text [] (pos + 1 + text.length) := ih htext
    rw [Nat.add_right_comm, Nat.add_assoc] at htail
    exact .blank hc htail

/-- A prefix of two lists ends in the first or in the second one. -/
theorem prefix_append_cases {α : Type} {as bs cs : List α} (h : as <+: bs ++ cs) :
    as <+: bs ∨ ∃ ds, as = bs ++ ds ∧ ds <+: cs := by
  rcases List.prefix_or_prefix_of_prefix h (List.prefix_append bs cs) with hwithin | ⟨ds, rfl⟩
  · exact .inl hwithin
  · exact .inr ⟨ds, rfl, (List.prefix_append_right_inj bs).1 h⟩

/-- What leads a text leads the tokens, as far as parentheses are concerned. -/
theorem exists_prefix_of_lexes (h : Lexes pos text tokens stop) {us : List Char}
    (hus : us <+: text) :
    ∃ ts, ts <+: tokens ∧ opened ts = us.count '(' ∧ closed ts = us.count ')' := by
  induction h generalizing us with
  | stop =>
    obtain rfl := List.prefix_nil.1 hus
    exact ⟨[], List.nil_prefix, rfl, rfl⟩
  | @blank pos stop c text tokens hc _ ih =>
    rcases us with _ | ⟨d, us⟩
    · exact ⟨[], List.nil_prefix, rfl, rfl⟩
    obtain ⟨rfl, htail⟩ := List.cons_prefix_cons.1 hus
    obtain ⟨ts, hts, hopened, hclosed⟩ := ih htail
    obtain ⟨hcount, hcount'⟩ := count_parentheses [d] (by simp [hc])
    rw [← List.singleton_append, List.count_append, List.count_append, hcount, hcount', ← hopened,
      ← hclosed, Nat.zero_add, Nat.zero_add]
    exact ⟨ts, hts, rfl, rfl⟩
  | @symbol pos stop c lexeme text tokens hc _ ih =>
    rcases us with _ | ⟨d, us⟩
    · exact ⟨[], List.nil_prefix, rfl, rfl⟩
    obtain ⟨rfl, htail⟩ := List.cons_prefix_cons.1 hus
    obtain ⟨ts, hts, hopened, hclosed⟩ := ih htail
    obtain ⟨hopening, hclosing⟩ := parentheses_of_ofChar? hc
    refine ⟨⟨lexeme, pos⟩ :: ts, List.cons_prefix_cons.2 ⟨rfl, hts⟩, ?_, ?_⟩
    · rw [opened_cons, List.count_cons, hopened, hopening]
    · rw [closed_cons, List.count_cons, hclosed, hclosing]
  | @numeral pos stop run text value tokens hrun hend _ ih =>
    have hnone {vs : List Char} (hvs : vs <+: run) := count_parentheses vs fun c hc =>
      .inr (hrun.numeric c (hvs.mem hc))
    rcases prefix_append_cases hus with hwithin | ⟨vs, rfl, hvs⟩
    · -- Within the numeral there is no parenthesis yet.
      obtain ⟨hcount, hcount'⟩ := hnone hwithin
      exact ⟨[], List.nil_prefix, hcount.symm, hcount'.symm⟩
    · obtain ⟨ts, hts, hopened, hclosed⟩ := ih hvs
      obtain ⟨hcount, hcount'⟩ := hnone (List.prefix_refl run)
      refine ⟨⟨.number value, pos⟩ :: ts, List.cons_prefix_cons.2 ⟨rfl, hts⟩, ?_, ?_⟩
      · rw [opened_cons, List.count_append, hcount, hopened, Nat.zero_add]
        rfl
      · rw [closed_cons, List.count_append, hcount', hclosed, Nat.zero_add]
        rfl

/-! ## Where the scanner stops -/

/-- What stops the scanner at the front of a text: a character that is nothing it knows, or a run of
digits and points that is no numeral. -/
inductive Unreadable (p : ℕ) : List Char → ParseError → Prop
  | character {c : Char} {behind : List Char} (hblank : isBlank c = false)
      (hnumeric : isNumeric c = false) (hc : Lexeme.ofChar? c = none) :
      Unreadable p (c :: behind) (.invalidCharacter c p)
  | number {run behind : List Char} (hne : run ≠ []) (hrun : ∀ c ∈ run, isNumeric c)
      (hend : ∀ c ∈ behind.head?, isNumeric c = false) (hvalue : numeral? run = none) :
      Unreadable p (run ++ behind) (.invalidNumber (String.ofList run) p)

/-- The scanner stops behind the tokens that it has cut off. -/
theorem exists_cuts_of_scanFrom {seen : List Token} (h : scanFrom pos seen text = .error e) :
    ∃ tokens p rest, Cuts pos text tokens p rest ∧ Unreadable p rest e := by
  have hrun {c : Char} {rest : List Char} (hc : isNumeric c) :
      ∀ d ∈ c :: rest.takeWhile isNumeric, isNumeric d := by
    intro d hd
    rcases List.mem_cons.1 hd with rfl | hd
    · exact hc
    · exact List.mem_takeWhile_imp hd
  -- Cases 4 and 6 stop the scan; the others cut one piece off and go on.
  fun_induction scanFrom pos seen text with
  | case1 => cases h
  | case2 pos seen c rest hblank ih =>
    obtain ⟨tokens, p, rest', hcuts, hstop⟩ := ih h
    exact ⟨tokens, p, rest', .blank hblank hcuts, hstop⟩
  | case3 pos seen c rest hblank hnumeric run value hvalue ih =>
    obtain ⟨tokens, p, rest', hcuts, hstop⟩ := ih h
    have hnumeral := (numeral?_eq_some_iff (hrun hnumeric)).1 hvalue
    have hcut := Cuts.numeral hnumeral (isNumeric_head?_dropWhile rest) hcuts
    rw [List.cons_append, List.takeWhile_append_dropWhile] at hcut
    exact ⟨_, p, rest', hcut, hstop⟩
  | case4 pos seen c rest hblank hnumeric run hvalue =>
    obtain rfl := Except.error.inj h
    have hstop := Unreadable.number (p := pos) (List.cons_ne_nil c _) (hrun hnumeric)
      (isNumeric_head?_dropWhile rest) hvalue
    rw [List.cons_append, List.takeWhile_append_dropWhile] at hstop
    exact ⟨[], pos, _, .done, hstop⟩
  | case5 pos seen c rest hblank hnumeric lexeme hlexeme ih =>
    obtain ⟨tokens, p, rest', hcuts, hstop⟩ := ih h
    exact ⟨_, p, rest', .symbol hlexeme hcuts, hstop⟩
  | case6 pos seen c rest hblank hnumeric hlexeme =>
    obtain rfl := Except.error.inj h
    exact ⟨[], pos, _, .done, .character (by simpa using hblank) (by simpa using hnumeric) hlexeme⟩

end TokenList

end EncryptedArithmetic

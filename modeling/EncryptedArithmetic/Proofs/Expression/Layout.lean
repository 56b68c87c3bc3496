import EncryptedArithmetic.Proofs.Expression.Places

/-!
# The layout of a text

A text is a row of pieces, each a token with the blanks in front of it, and a rest. `Layout` says so
without following the scanner: a symbol takes one byte, and a number fills a run of digits and
points that cannot be made longer on either side. Two layouts of a text agree as far as both of them
go. The scanner answers the tokens of a layout that leaves nothing but blanks, and it fails where no
layout goes any further.

## Main definitions

* `IsRun`: a run of digits and points that cannot be made longer.
* `Piece`, `Layout`: a text as a row of pieces and a rest.
* `Obstructs`: an error names what stands where no token can be cut off.
* `IsSlice`: characters as the bytes of a text between two boundaries of characters.

## Main results

* `Row.isPrefix_or_isPrefix`: two rows in one text agree as far as both of them go.
* `Layout.isPrefix_of_stuck`: no layout goes further than one that is stuck.
* `exists_row_of_cuts`: what the scanner cuts off is a row of pieces.
* `ofText_layout`: the answers and the errors of the scanner, for every text.
-/

namespace EncryptedArithmetic.TokenList

/-! ## Pieces -/

/-- A run of digits and points that cannot be made longer, between what stands in front of it and
what stands behind. -/
structure IsRun (front run behind : List Char) : Prop where
  ne_nil : run ≠ []
  numeric : ∀ c ∈ run, isNumeric c
  front_end : ∀ c ∈ front.getLast?, isNumeric c = false
  behind_start : ∀ c ∈ behind.head?, isNumeric c = false

/-- What a lexeme is written with: a symbol takes one byte, and a number fills a run of digits and
points. -/
inductive Fills (front behind : List Char) : Lexeme → List Char → Prop
  | symbol {lexeme : Lexeme} {c : Char} (hc : Lexeme.ofChar? c = some lexeme)
      (hbyte : c.utf8Size = 1) : Fills front behind lexeme [c]
  | number {value : Float} {run : List Char} (hrun : IsRun front run behind)
      (hnumeral : IsNumeral run value) : Fills front behind (.number value) run

/-- A token of a text, with the blanks in front of it and the characters it is written with. -/
structure Piece where
  blanks : List Char
  part : List Char
  token : Token

/-- A piece fits between what stands in front of it and what stands behind. -/
structure Piece.Fits (p : Piece) (front behind : List Char) : Prop where
  blank : ∀ c ∈ p.blanks, isBlank c
  fills : Fills (front ++ p.blanks) behind p.token.lexeme p.part
  position_eq : p.token.position = (String.ofList (front ++ p.blanks)).utf8ByteSize

/-- The characters of a row of pieces. -/
def source (pieces : List Piece) : List Char :=
  pieces.flatMap fun p => p.blanks ++ p.part

/-- A row of pieces, each of which fits, between what stands in front of the row and what stands
behind. -/
def Row : List Char → List Piece → List Char → Prop
  | _, [], _ => True
  | front, p :: pieces, rest =>
    p.Fits front (source pieces ++ rest) ∧ Row (front ++ p.blanks ++ p.part) pieces rest

/-- A text is a row of pieces and a rest. -/
structure Layout (text : String) (pieces : List Piece) (rest : List Char) : Prop where
  text_eq : text.toList = source pieces ++ rest
  row : Row [] pieces rest

/-- An error names what stands behind a front, where no token can be cut off: a character that no
token begins with, or a run of digits and points that is no numeral. -/
inductive Obstructs (front : List Char) : List Char → List Char → ParseError → Prop
  | character {c : Char} {behind : List Char} (hblank : isBlank c = false)
      (hnumeric : isNumeric c = false) (hc : Lexeme.ofChar? c = none) :
      Obstructs front [c] behind (.invalidCharacter c (String.ofList front).utf8ByteSize)
  | number {run behind : List Char} (hrun : IsRun front run behind)
      (hvalue : ∀ value, ¬IsNumeral run value) :
      Obstructs front run behind
        (.invalidNumber (String.ofList run) (String.ofList front).utf8ByteSize)

/-- The bytes of a text from a byte offset on are those of the given characters, and they begin and
end between characters of the text. -/
structure IsSlice (text : String) (start : ℕ) (part : List Char) : Prop where
  start_valid : String.Pos.Raw.IsValid text ⟨start⟩
  stop_valid : String.Pos.Raw.IsValid text ⟨start + (String.ofList part).utf8ByteSize⟩
  bytes_eq : text.toByteArray.extract start (start + (String.ofList part).utf8ByteSize) =
    (String.ofList part).toByteArray

variable {text : String} {front behind part rest blanks : List Char} {p : Piece}
  {pieces : List Piece} {e : ParseError}

@[simp]
theorem source_nil : source [] = [] := rfl

@[simp]
theorem source_cons : source (p :: pieces) = p.blanks ++ p.part ++ source pieces :=
  List.flatMap_cons

theorem source_append {row : List Piece} : source (pieces ++ row) = source pieces ++ source row :=
  List.flatMap_append

/-- Characters between others are a slice. -/
theorem isSlice_of_toList_eq (h : text.toList = front ++ part ++ behind) :
    IsSlice text (String.ofList front).utf8ByteSize part := by
  -- Splitting the string itself, and not its characters, makes both ends character boundaries.
  obtain rfl : text = String.ofList front ++ String.ofList part ++ String.ofList behind := by
    rw [← String.ofList_append, ← String.ofList_append, ← h, String.ofList_toList]
  refine ⟨?_, ?_, ?_⟩
  · rw [String.Pos.Raw.isValid_iff_exists_append]
    exact ⟨String.ofList front, String.ofList part ++ String.ofList behind, String.append_assoc,
      rfl⟩
  · rw [String.Pos.Raw.isValid_iff_exists_append]
    refine ⟨String.ofList front ++ String.ofList part, String.ofList behind, rfl, ?_⟩
    rw [← String.utf8ByteSize_append]
    rfl
  · rw [String.toByteArray_append, ← String.utf8ByteSize_append,
      ← String.size_toByteArray (s := _ ++ _), ByteArray.extract_append_size_left,
      String.toByteArray_append]
    exact ByteArray.extract_append_eq_right rfl ByteArray.size_append

/-! ## What fits in one way -/

theorem Fills.ne_nil {lexeme : Lexeme} (h : Fills front behind lexeme part) : part ≠ [] := by
  cases h with
  | symbol => exact List.cons_ne_nil _ _
  | number hrun => exact hrun.ne_nil

theorem IsRun.isBlank_head {run : List Char} (h : IsRun front run behind) :
    ∀ c ∈ (run ++ rest).head?, isBlank c = false := by
  obtain ⟨d, run, rfl⟩ := List.exists_cons_of_ne_nil h.ne_nil
  rintro c ⟨⟩
  exact isBlank_eq_false_of_isNumeric (h.numeric d List.mem_cons_self)

/-- No token begins with a blank. -/
theorem Fills.isBlank_head {lexeme : Lexeme} (h : Fills front behind lexeme part) :
    ∀ c ∈ (part ++ rest).head?, isBlank c = false := by
  cases h with
  | symbol hc =>
    rintro c ⟨⟩
    exact (class_of_ofChar? hc).1
  | number hrun => exact hrun.isBlank_head

/-- Nothing that obstructs begins with a blank either. -/
theorem Obstructs.isBlank_head (h : Obstructs front part behind e) :
    ∀ c ∈ (part ++ rest).head?, isBlank c = false := by
  cases h with
  | character hblank =>
    rintro c ⟨⟩
    exact hblank
  | number hrun => exact hrun.isBlank_head

/-- Blanks are told from what follows them. -/
theorem blanks_inj {blanks' rest' : List Char} (hblanks : ∀ c ∈ blanks, isBlank c)
    (hblanks' : ∀ c ∈ blanks', isBlank c) (hrest : ∀ c ∈ rest.head?, isBlank c = false)
    (hrest' : ∀ c ∈ rest'.head?, isBlank c = false) (h : blanks ++ rest = blanks' ++ rest') :
    blanks = blanks' ∧ rest = rest' := by
  obtain ⟨htake, hdrop⟩ := takeWhile_append_rest hblanks hrest
  obtain ⟨htake', hdrop'⟩ := takeWhile_append_rest hblanks' hrest'
  rw [h] at htake hdrop
  exact ⟨htake.symm.trans htake', hdrop.symm.trans hdrop'⟩

/-- So are the digits and points of a run. -/
theorem IsRun.inj {front' run run' behind' : List Char} (h : IsRun front run behind)
    (h' : IsRun front' run' behind') (heq : run ++ behind = run' ++ behind') :
    run = run' ∧ behind = behind' := by
  obtain ⟨htake, hdrop⟩ := takeWhile_append_rest h.numeric h.behind_start
  obtain ⟨htake', hdrop'⟩ := takeWhile_append_rest h'.numeric h'.behind_start
  rw [heq] at htake hdrop
  exact ⟨htake.symm.trans htake', hdrop.symm.trans hdrop'⟩

/-- A run does not begin with a symbol or another character that is no digit or point. -/
theorem IsRun.head_ne {run rest' : List Char} {c : Char} (h : IsRun front run behind)
    (hc : isNumeric c = false) : run ++ rest ≠ c :: rest' := by
  obtain ⟨d, run, rfl⟩ := List.exists_cons_of_ne_nil h.ne_nil
  intro heq
  obtain rfl : d = c := (List.cons.inj heq).1
  rw [h.numeric d List.mem_cons_self] at hc
  cases hc

/-- A token is told from what follows it. -/
theorem Fills.inj {lexeme lexeme' : Lexeme} {front' part' behind' : List Char}
    (h : Fills front behind lexeme part) (h' : Fills front' behind' lexeme' part')
    (heq : part ++ behind = part' ++ behind') :
    lexeme = lexeme' ∧ part = part' ∧ behind = behind' := by
  -- The first character tells a symbol from a numeral, and only a maximal run is a numeral.
  cases h with
  | symbol hc =>
    cases h' with
    | symbol hc' =>
      obtain ⟨rfl, rfl⟩ := List.cons.inj heq
      exact ⟨Option.some.inj (hc.symm.trans hc'), rfl, rfl⟩
    | number hrun' => exact absurd heq.symm (hrun'.head_ne (class_of_ofChar? hc).2)
  | number hrun hnumeral =>
    cases h' with
    | symbol hc' => exact absurd heq (hrun.head_ne (class_of_ofChar? hc').2)
    | number hrun' hnumeral' =>
      obtain ⟨rfl, rfl⟩ := hrun.inj hrun' heq
      obtain rfl := Option.some.inj (hnumeral.value_eq.symm.trans hnumeral'.value_eq)
      exact ⟨rfl, rfl, rfl⟩

/-- What obstructs is no token. -/
theorem Fills.not_obstructs {lexeme : Lexeme} {front' part' behind' : List Char}
    (h : Fills front behind lexeme part) (h' : Obstructs front' part' behind' e) :
    part ++ behind ≠ part' ++ behind' := by
  intro heq
  -- An obstruction begins like no symbol, or is a whole run that is no numeral.
  cases h with
  | symbol hc =>
    cases h' with
    | character _ _ hnone =>
      obtain ⟨rfl, rfl⟩ := List.cons.inj heq
      rw [hc] at hnone
      cases hnone
    | number hrun' => exact hrun'.head_ne (class_of_ofChar? hc).2 heq.symm
  | number hrun hnumeral =>
    cases h' with
    | character _ hnumeric => exact hrun.head_ne hnumeric heq
    | number hrun' hvalue =>
      obtain ⟨rfl, rfl⟩ := hrun.inj hrun' heq
      exact hvalue _ hnumeral

/-- One thing only obstructs at a place. -/
theorem Obstructs.inj {part' behind' : List Char} {e' : ParseError}
    (h : Obstructs front part behind e) (h' : Obstructs front part' behind' e')
    (heq : part ++ behind = part' ++ behind') : e = e' := by
  -- Obstructions of the two kinds differ in their first character.
  cases h with
  | character _ hnumeric =>
    cases h' with
    | character =>
      obtain ⟨rfl, rfl⟩ := List.cons.inj heq
      rfl
    | number hrun' => exact absurd heq.symm (hrun'.head_ne hnumeric)
  | number hrun =>
    cases h' with
    | character _ hnumeric' => exact absurd heq (hrun.head_ne hnumeric')
    | number hrun' =>
      obtain ⟨rfl, rfl⟩ := hrun.inj hrun' heq
      rfl

/-- A piece is told from what follows it. -/
theorem Piece.Fits.inj {q : Piece} {behind' : List Char} (hp : p.Fits front behind)
    (hq : q.Fits front behind')
    (heq : p.blanks ++ p.part ++ behind = q.blanks ++ q.part ++ behind') :
    p = q ∧ behind = behind' := by
  rw [List.append_assoc, List.append_assoc] at heq
  -- No lexeme begins with a blank, so the blanks end at the same place.
  obtain ⟨hblanks, heq⟩ :=
    blanks_inj hp.blank hq.blank hp.fills.isBlank_head hq.fills.isBlank_head heq
  obtain ⟨hlexeme, hpart, rfl⟩ := hp.fills.inj hq.fills heq
  have hposition : p.token.position = q.token.position := by
    rw [hp.position_eq, hq.position_eq, hblanks]
  obtain ⟨pblanks, ppart, ⟨plexeme, pposition⟩⟩ := p
  obtain ⟨qblanks, qpart, ⟨qlexeme, qposition⟩⟩ := q
  obtain rfl : pblanks = qblanks := hblanks
  obtain rfl : ppart = qpart := hpart
  obtain rfl : plexeme = qlexeme := hlexeme
  obtain rfl : pposition = qposition := hposition
  exact ⟨rfl, rfl⟩

/-- Two rows in one text agree as far as both of them go. -/
theorem Row.isPrefix_or_isPrefix {row : List Piece} {rest' : List Char} (h : Row front pieces rest)
    (h' : Row front row rest') (heq : source pieces ++ rest = source row ++ rest') :
    pieces <+: row ∨ row <+: pieces := by
  -- By induction on one row, piece by piece; where one of them ends it is a prefix of the other.
  induction pieces generalizing front row with
  | nil => exact .inl List.nil_prefix
  | cons p pieces ih =>
    rcases row with _ | ⟨q, row⟩
    · exact .inr List.nil_prefix
    rw [source_cons, source_cons, List.append_assoc, List.append_assoc _ (source row)] at heq
    obtain ⟨rfl, htail⟩ := h.1.inj h'.1 heq
    rcases ih h.2 h'.2 htail with hprefix | hprefix
    · exact .inl (List.cons_prefix_cons.2 ⟨rfl, hprefix⟩)
    · exact .inr (List.cons_prefix_cons.2 ⟨rfl, hprefix⟩)

/-! ## Where a row cannot go on -/

/-- No piece fits behind a front. -/
def Stuck (front rest : List Char) : Prop :=
  ∀ (p : Piece) (behind : List Char), rest = p.blanks ++ p.part ++ behind → ¬p.Fits front behind

/-- Where there are only blanks, no piece fits. -/
theorem stuck_of_isBlank (hblanks : ∀ c ∈ blanks, isBlank c) : Stuck front blanks := by
  intro p behind heq hp
  have hnil : blanks ++ [] = p.blanks ++ (p.part ++ behind) := by
    rw [List.append_nil, heq, List.append_assoc]
  obtain ⟨-, hpart⟩ := blanks_inj hblanks hp.blank (by simp) hp.fills.isBlank_head hnil
  exact hp.fills.ne_nil (List.append_eq_nil_iff.1 hpart.symm).1

/-- Neither does one where something obstructs behind the blanks. -/
theorem stuck_of_obstructs (hblanks : ∀ c ∈ blanks, isBlank c)
    (h : Obstructs (front ++ blanks) part behind e) : Stuck front (blanks ++ part ++ behind) := by
  intro p behind' heq hp
  rw [List.append_assoc, List.append_assoc] at heq
  obtain ⟨-, hpart⟩ := blanks_inj hblanks hp.blank h.isBlank_head hp.fills.isBlank_head heq
  exact hp.fills.not_obstructs h hpart.symm

theorem row_append_iff {row : List Piece} :
    Row front (pieces ++ row) rest ↔
      Row front pieces (source row ++ rest) ∧ Row (front ++ source pieces) row rest := by
  induction pieces generalizing front with
  | nil => simp [Row]
  | cons p pieces ih =>
    simp only [List.cons_append, Row, ih, source_append, source_cons, List.append_assoc, and_assoc]

/-- No layout goes further than one that is stuck. -/
theorem Layout.isPrefix_of_stuck {row : List Piece} {rest' : List Char}
    (h : Layout text pieces rest) (hstuck : Stuck (source pieces) rest)
    (h' : Layout text row rest') : row <+: pieces := by
  have heq := h.text_eq.symm.trans h'.text_eq
  rcases h.row.isPrefix_or_isPrefix h'.row heq with ⟨tail, rfl⟩ | hprefix
  · rcases tail with _ | ⟨q, tail⟩
    · simp
    -- The first piece of the longer row would fit where the other one is stuck.
    obtain ⟨-, hq, -⟩ := row_append_iff.1 h'.row
    refine absurd hq (hstuck q _ ?_)
    rw [source_append, List.append_assoc, source_cons, List.append_assoc] at heq
    exact List.append_cancel_left heq
  · exact hprefix

/-- Where something obstructs, there are not only blanks. -/
theorem Obstructs.not_forall_isBlank (h : Obstructs front part behind e) :
    ¬∀ c ∈ blanks ++ part ++ behind, isBlank c := by
  have hpart : ∃ c ∈ part, isBlank c = false := by
    cases h with
    | character hblank => exact ⟨_, List.mem_singleton_self _, hblank⟩
    | number hrun =>
      obtain ⟨c, hc⟩ := List.exists_mem_of_ne_nil _ hrun.ne_nil
      exact ⟨c, hc, isBlank_eq_false_of_isNumeric (hrun.numeric c hc)⟩
  intro hall
  obtain ⟨c, hc, hblank⟩ := hpart
  rw [hall c (List.mem_append_left _ (List.mem_append_right _ hc))] at hblank
  cases hblank

/-- Two layouts that are stuck are the same. -/
theorem Layout.unique_of_stuck {row : List Piece} {rest' : List Char} (h : Layout text pieces rest)
    (hstuck : Stuck (source pieces) rest) (h' : Layout text row rest')
    (hstuck' : Stuck (source row) rest') : pieces = row ∧ rest = rest' := by
  have hle := (h.isPrefix_of_stuck hstuck h').length_le
  obtain rfl := (h'.isPrefix_of_stuck hstuck' h).eq_of_length_le hle
  exact ⟨rfl, List.append_cancel_left (h.text_eq.symm.trans h'.text_eq)⟩

/-! ## Where the pieces of a row stand -/

/-- A piece of a row is a slice of the text at its position. -/
theorem Row.exists_toList_eq (h : Row front pieces rest) (hp : p ∈ pieces) :
    ∃ front' behind, front ++ source pieces ++ rest = front' ++ p.part ++ behind ∧
      p.token.position = (String.ofList front').utf8ByteSize := by
  induction pieces generalizing front with
  | nil => cases hp
  | cons q pieces ih =>
    rcases List.mem_cons.1 hp with rfl | hp
    · exact ⟨front ++ p.blanks, source pieces ++ rest, by simp, h.1.position_eq⟩
    · obtain ⟨front', behind, heq, hposition⟩ := ih h.2 hp
      exact ⟨front', behind, by simpa using heq, hposition⟩

/-- A piece ends behind the place where its token begins. -/
theorem Piece.Fits.position_lt (h : p.Fits front behind) :
    p.token.position < (String.ofList (front ++ p.blanks ++ p.part)).utf8ByteSize := by
  rw [@String.ofList_append (front ++ p.blanks), String.utf8ByteSize_append, ← h.position_eq]
  refine Nat.lt_add_of_pos_right (Nat.pos_of_ne_zero ?_)
  rw [Ne, String.utf8ByteSize_eq_zero_iff, String.ofList_eq_empty_iff]
  exact h.fills.ne_nil

/-- The pieces of a row begin behind its front and before its end. -/
theorem Row.position_bounds (h : Row front pieces rest) (hp : p ∈ pieces) :
    (String.ofList front).utf8ByteSize ≤ p.token.position ∧
      p.token.position < (String.ofList (front ++ source pieces)).utf8ByteSize := by
  -- The text in front grows with each piece.
  induction pieces generalizing front with
  | nil => cases hp
  | cons q pieces ih =>
    rw [source_cons, ← List.append_assoc, ← List.append_assoc]
    rcases List.mem_cons.1 hp with rfl | hp
    · have hlt := h.1.position_lt
      rw [@String.ofList_append _ (source pieces), String.utf8ByteSize_append]
      refine ⟨?_, Nat.lt_add_right _ hlt⟩
      rw [h.1.position_eq, String.ofList_append, String.utf8ByteSize_append]
      exact Nat.le_add_right _ _
    · obtain ⟨hle, hlt⟩ := ih h.2 hp
      rw [String.ofList_append, String.ofList_append, String.utf8ByteSize_append,
        String.utf8ByteSize_append] at hle
      exact ⟨by omega, hlt⟩

/-- From one piece to the next, positions grow. -/
theorem Row.pairwise_position (h : Row front pieces rest) :
    (pieces.map fun p => p.token.position).Pairwise (· < ·) := by
  induction pieces generalizing front with
  | nil => exact List.Pairwise.nil
  | cons p pieces ih =>
    rw [List.map_cons, List.pairwise_cons]
    refine ⟨?_, ih h.2⟩
    intro position hposition
    obtain ⟨q, hq, rfl⟩ := List.mem_map.1 hposition
    exact h.1.position_lt.trans_le (h.2.position_bounds hq).1

/-- The tokens of a layout begin in the text, each behind the one before it, and each is a slice of
the text. -/
theorem Layout.tokens_spec (h : Layout text pieces rest) :
    (pieces.map (fun p => p.token.position) ++ [text.utf8ByteSize]).Pairwise (· < ·) ∧
      ∀ p ∈ pieces, IsSlice text p.token.position p.part := by
  constructor
  · rw [List.pairwise_append]
    refine ⟨h.row.pairwise_position, List.pairwise_singleton _ _, ?_⟩
    rintro position hposition stop hstop
    obtain ⟨p, hp, rfl⟩ := List.mem_map.1 hposition
    obtain rfl := List.mem_singleton.1 hstop
    refine (h.row.position_bounds hp).2.trans_le ?_
    rw [← String.ofList_toList (s := text), h.text_eq, List.nil_append, String.ofList_append,
      String.utf8ByteSize_append]
    exact Nat.le_add_right _ _
  · intro p hp
    obtain ⟨front, behind, heq, hposition⟩ := h.row.exists_toList_eq hp
    rw [List.nil_append, ← h.text_eq] at heq
    exact hposition ▸ isSlice_of_toList_eq heq

/-! ## What the scanner cuts off -/

/-- The scanner is at a byte offset of a text, behind a front and the blanks that it has skipped
since. -/
structure Skipped (front blanks : List Char) (pos : ℕ) (cs : List Char) : Prop where
  blank : ∀ c ∈ blanks, isBlank c
  pos_eq : pos = (String.ofList (front ++ blanks)).utf8ByteSize
  separates : Separates (front ++ blanks) cs

section Skipped

variable {pos : ℕ} {c : Char} {cs run : List Char} {lexeme : Lexeme} {value : Float}

theorem utf8ByteSize_snoc : (String.ofList (front ++ [c])).utf8ByteSize =
    (String.ofList front).utf8ByteSize + c.utf8Size := by
  rw [String.ofList_append, String.utf8ByteSize_append, ← String.singleton_eq_ofList,
    String.utf8ByteSize_singleton]

/-- One blank more is skipped. -/
theorem Skipped.skip (h : Skipped front blanks pos (c :: cs)) (hc : isBlank c) :
    Skipped front (blanks ++ [c]) (pos + 1) cs := by
  refine ⟨?_, ?_, ?_⟩
  · intro d hd
    rcases List.mem_append.1 hd with hd | hd
    · exact h.blank d hd
    · exact List.mem_singleton.1 hd ▸ hc
  · rw [← List.append_assoc, utf8ByteSize_snoc, ← h.pos_eq, utf8Size_of_isBlank hc]
  · rw [← List.append_assoc]
    refine separates_append (separates_singleton ?_) (fun hnil => by cases hnil)
    by_contra hnumeric
    rw [isBlank_eq_false_of_isNumeric (by simpa using hnumeric)] at hc
    cases hc

/-- A symbol takes the blanks. -/
theorem Skipped.symbol (h : Skipped front blanks pos (c :: cs))
    (hc : Lexeme.ofChar? c = some lexeme) :
    Piece.Fits ⟨blanks, [c], ⟨lexeme, pos⟩⟩ front cs ∧
      Skipped (front ++ blanks ++ [c]) [] (pos + 1) cs := by
  refine ⟨⟨h.blank, .symbol hc (utf8Size_of_ofChar? hc), h.pos_eq⟩, ⟨by simp, ?_, ?_⟩⟩
  · rw [List.append_nil, utf8ByteSize_snoc, ← h.pos_eq, utf8Size_of_ofChar? hc]
  · rw [List.append_nil]
    exact separates_append (separates_singleton (class_of_ofChar? hc).2) (fun hnil => by cases hnil)

/-- So does a numeral. -/
theorem Skipped.numeral (h : Skipped front blanks pos (run ++ cs)) (hrun : IsNumeral run value)
    (hend : ∀ c ∈ cs.head?, isNumeric c = false) :
    Piece.Fits ⟨blanks, run, ⟨.number value, pos⟩⟩ front cs ∧
      Skipped (front ++ blanks ++ run) [] (pos + run.length) cs := by
  have hmaximal : IsRun (front ++ blanks) run cs :=
    ⟨hrun.ne_nil, hrun.numeric, h.separates.front_of_isNumeric hrun.ne_nil hrun.numeric, hend⟩
  refine ⟨⟨h.blank, .number hmaximal hrun, h.pos_eq⟩, ⟨by simp, ?_, ?_⟩⟩
  · rw [List.append_nil, @String.ofList_append _ run, String.utf8ByteSize_append, ← h.pos_eq,
      utf8ByteSize_of_isNumeric hrun.numeric]
  · rw [List.append_nil]
    exact separates_append (fun _ _ _ => hend) (fun hnil => absurd hnil hrun.ne_nil)

/-- What the scanner cuts off is a row of pieces with blanks behind it. The blanks that it has
skipped already belong to the first piece. -/
theorem exists_row_of_cuts {stop : ℕ} {tokens : List Token} (h : Cuts pos cs tokens stop rest)
    (hskipped : Skipped front blanks pos cs) :
    ∃ pieces blanks', blanks ++ cs = source pieces ++ (blanks' ++ rest) ∧
      pieces.map Piece.token = tokens ∧ Row front pieces (blanks' ++ rest) ∧
      Skipped (front ++ source pieces) blanks' stop rest := by
  -- By induction along the scan: blanks are collected until a token takes them.
  induction h generalizing front blanks with
  | done => exact ⟨[], blanks, rfl, rfl, trivial, by rwa [source_nil, List.append_nil]⟩
  | blank hc _ ih =>
    obtain ⟨pieces, blanks', heq, hrest⟩ := ih (hskipped.skip hc)
    exact ⟨pieces, blanks', by rw [← heq, List.append_assoc, List.singleton_append], hrest⟩
  | symbol hc _ ih =>
    obtain ⟨hfits, hskipped⟩ := hskipped.symbol hc
    obtain ⟨pieces, blanks', heq, htokens, hrow, hend⟩ := ih hskipped
    rw [List.nil_append] at heq
    refine ⟨_ :: pieces, blanks', ?_, congrArg _ htokens, ⟨heq ▸ hfits, hrow⟩, ?_⟩
    · rw [source_cons, List.append_assoc _ (source pieces), ← heq, List.append_assoc,
        List.singleton_append]
    · rwa [source_cons, ← List.append_assoc, ← List.append_assoc]
  | numeral hrun hbehind _ ih =>
    obtain ⟨hfits, hskipped⟩ := hskipped.numeral hrun hbehind
    obtain ⟨pieces, blanks', heq, htokens, hrow, hend⟩ := ih hskipped
    rw [List.nil_append] at heq
    refine ⟨_ :: pieces, blanks', ?_, congrArg _ htokens, ⟨heq ▸ hfits, hrow⟩, ?_⟩
    · rw [source_cons, List.append_assoc _ (source pieces), ← heq, List.append_assoc]
    · rwa [source_cons, ← List.append_assoc, ← List.append_assoc]

theorem skipped_nil : Skipped [] [] 0 cs :=
  ⟨by simp, rfl, separates_nil⟩

end Skipped

/-- The answer of the scanner is a layout with nothing but blanks behind it. -/
theorem exists_layout_of_ok {list : TokenList} (h : ofText text = .ok list) :
    ∃ pieces blanks, Layout text pieces blanks ∧ (∀ c ∈ blanks, isBlank c) ∧
      list = ⟨pieces.map Piece.token, text.utf8ByteSize⟩ := by
  have hlexes := ofText_eq_ok_iff.1 h
  obtain ⟨pieces, blanks, heq, htokens, hrow, hskipped⟩ :=
    exists_row_of_cuts (cuts_of_lexes hlexes) skipped_nil
  rw [List.append_nil] at heq hrow
  refine ⟨pieces, blanks, ⟨heq, hrow⟩, hskipped.blank, ?_⟩
  have hstop := stop_eq_of_lexes hlexes
  rw [Nat.zero_add, String.ofList_toList] at hstop
  obtain ⟨tokens, stop⟩ := list
  obtain rfl : stop = text.utf8ByteSize := hstop
  rw [htokens]

/-- An error of the scanner is about what stands behind a layout and its blanks. -/
theorem exists_layout_of_error (h : ofText text = .error e) :
    ∃ pieces blanks part behind, Layout text pieces (blanks ++ part ++ behind) ∧
      (∀ c ∈ blanks, isBlank c) ∧ Obstructs (source pieces ++ blanks) part behind e := by
  obtain ⟨tokens, p, rest, hcuts, hstop⟩ := exists_cuts_of_scanFrom h
  obtain ⟨pieces, blanks, heq, -, hrow, hskipped⟩ := exists_row_of_cuts hcuts skipped_nil
  obtain rfl := hskipped.pos_eq
  cases hstop with
  | @character c behind hblank hnumeric hc =>
    refine ⟨pieces, blanks, [c], behind, ⟨?_, ?_⟩, hskipped.blank, .character hblank hnumeric hc⟩
    · rw [List.append_assoc]
      exact heq
    · rw [List.append_assoc]
      exact hrow
  | @number run behind hne hrun hend hvalue =>
    -- Blanks in front of the run end the token before it, so the run is not a part of a longer one.
    have hmaximal : IsRun (source pieces ++ blanks) run behind :=
      ⟨hne, hrun, hskipped.separates.front_of_isNumeric hne hrun, hend⟩
    have hnumeral (value : Float) : ¬IsNumeral run value := by
      rw [← numeral?_eq_some_iff hrun, hvalue]
      exact fun h => by cases h
    refine ⟨pieces, blanks, run, behind, ⟨?_, ?_⟩, hskipped.blank, .number hmaximal hnumeral⟩
    · rw [List.append_assoc]
      exact heq
    · rw [List.append_assoc]
      exact hrow

/-- The scanner answers the tokens of a text exactly when the text is a row of them, with blanks in
front of each and at the end. Otherwise it fails, and exactly at the first place where the row
cannot be continued: with the character that stands there, or with the run of digits and points if
that is no numeral. Tokens begin one behind the other, in front of the end, and whatever is cut out
of the text begins and ends between two characters. -/
theorem ofText_layout (text : String) :
    (∀ list, ofText text = .ok list ↔ ∃ pieces blanks, Layout text pieces blanks ∧
      (∀ c ∈ blanks, isBlank c) ∧ list = ⟨pieces.map Piece.token, text.utf8ByteSize⟩) ∧
    (∀ e, ofText text = .error e ↔ ∃ pieces blanks part behind,
      Layout text pieces (blanks ++ part ++ behind) ∧ (∀ c ∈ blanks, isBlank c) ∧
      Obstructs (source pieces ++ blanks) part behind e ∧
      IsSlice text (String.ofList (source pieces ++ blanks)).utf8ByteSize part ∧
      ∀ row rest, Layout text row rest → row <+: pieces) ∧
    ∀ pieces rest, Layout text pieces rest →
      (pieces.map (fun p => p.token.position) ++ [text.utf8ByteSize]).Pairwise (· < ·) ∧
      ∀ p ∈ pieces, IsSlice text p.token.position p.part := by
  refine ⟨?_, ?_, fun pieces rest h => h.tokens_spec⟩
  · intro list
    refine ⟨exists_layout_of_ok, ?_⟩
    rintro ⟨pieces, blanks, hlayout, hblanks, rfl⟩
    have hstuck : Stuck (source pieces) blanks := stuck_of_isBlank hblanks
    rcases hanswer : ofText text with e | list
    · -- What the scanner complains about would have to be blank.
      obtain ⟨row, blanks', part, behind, hlayout', hblanks', hobstructs⟩ :=
        exists_layout_of_error hanswer
      obtain ⟨rfl, hrest⟩ := hlayout.unique_of_stuck hstuck hlayout'
        (stuck_of_obstructs hblanks' hobstructs)
      exact absurd (hrest ▸ hblanks) hobstructs.not_forall_isBlank
    · obtain ⟨row, blanks', hlayout', hblanks', rfl⟩ := exists_layout_of_ok hanswer
      obtain ⟨rfl, -⟩ := hlayout.unique_of_stuck hstuck hlayout' (stuck_of_isBlank hblanks')
      rfl
  · intro e
    constructor
    · intro hanswer
      obtain ⟨pieces, blanks, part, behind, hlayout, hblanks, hobstructs⟩ :=
        exists_layout_of_error hanswer
      have htext : text.toList = source pieces ++ blanks ++ part ++ behind := by
        rw [hlayout.text_eq, List.append_assoc blanks, ← List.append_assoc, ← List.append_assoc]
      exact ⟨pieces, blanks, part, behind, hlayout, hblanks, hobstructs, isSlice_of_toList_eq htext,
        fun row rest h => hlayout.isPrefix_of_stuck (stuck_of_obstructs hblanks hobstructs) h⟩
    · rintro ⟨pieces, blanks, part, behind, hlayout, hblanks, hobstructs, -, -⟩
      have hstuck := stuck_of_obstructs hblanks hobstructs
      rcases hanswer : ofText text with e' | list
      · obtain ⟨row, blanks', part', behind', hlayout', hblanks', hobstructs'⟩ :=
          exists_layout_of_error hanswer
        obtain ⟨rfl, hrest⟩ := hlayout.unique_of_stuck hstuck hlayout'
          (stuck_of_obstructs hblanks' hobstructs')
        rw [List.append_assoc, List.append_assoc] at hrest
        obtain ⟨rfl, hpart⟩ :=
          blanks_inj hblanks hblanks' hobstructs.isBlank_head hobstructs'.isBlank_head hrest
        rw [hobstructs.inj hobstructs' hpart]
      · obtain ⟨row, blanks', hlayout', hblanks', rfl⟩ := exists_layout_of_ok hanswer
        obtain ⟨rfl, hrest⟩ := hlayout.unique_of_stuck hstuck hlayout' (stuck_of_isBlank hblanks')
        exact absurd (hrest ▸ hblanks') hobstructs.not_forall_isBlank

end EncryptedArithmetic.TokenList

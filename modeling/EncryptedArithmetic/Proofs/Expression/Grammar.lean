import Mathlib.Data.Set.Subsingleton
import EncryptedArithmetic.Proofs.Expression.Lexing
import EncryptedArithmetic.Proofs.Expression.Moves

/-!
# The grammar of expressions

    expression := term (('+' | '-') term)*
    term       := factor (('*' | '/') factor)*
    factor     := NUMBER | '-' NUMBER | '(' expression ')'

`Spells` is this grammar, each derivation with the tree it stands for. The reader takes a list of
tokens to a tree exactly when the list spells that tree. In one direction, `State.Reads` says what a
state has read so far, and a move reads one token more. In the other direction, a derivation is
followed by moves, category by category.

## Main definitions

* `Spells`: a list of tokens is derived from a category and stands for a tree.
* `State.Reads`: what the reader has read of a list of tokens.
* `Category.Ready`, `Category.Done`: a category is read between two states.

## Main results

* `State.Reads.of_moves`: whatever the reader has read is derived from the grammar.
* `Spells.exists_moves`: the reader can read whatever is derived from the grammar.
* `ofTokens_eq_ok_iff`: the reader answers the tree that the tokens spell, within the limits.
* `parse_accepts_grammar`: the texts that are accepted, and their trees.
-/

namespace EncryptedArithmetic.Parse

/-- The categories of the grammar, and the repetitions in them with the tree of what stands in front
of the repetition. -/
inductive Category where
  | expression
  /-- `(('+' | '-') term)*` -/
  | sums (left : Expression)
  | term
  /-- `(('*' | '/') factor)*` -/
  | products (left : Expression)
  | factor

/-- A list of tokens is derived from a category and stands for a tree. Both levels of binary
operators are folded to the left, and a signed number is one literal. -/
inductive Spells : Category → List Token → Expression → Prop
  | expression {ts us : List Token} {first e : Expression} (hfirst : Spells .term ts first)
      (hrest : Spells (.sums first) us e) : Spells .expression (ts ++ us) e
  | sumsEnd {left : Expression} : Spells (.sums left) [] left
  | sum {t : Token} {ts us : List Token} {op : Operator} {left right e : Expression}
      (ht : t.lexeme = .operator op) (hop : op = .add ∨ op = .sub)
      (hright : Spells .term ts right) (hrest : Spells (.sums (.binary op left right)) us e) :
      Spells (.sums left) (t :: (ts ++ us)) e
  | term {ts us : List Token} {first e : Expression} (hfirst : Spells .factor ts first)
      (hrest : Spells (.products first) us e) : Spells .term (ts ++ us) e
  | productsEnd {left : Expression} : Spells (.products left) [] left
  | product {t : Token} {ts us : List Token} {op : Operator} {left right e : Expression}
      (ht : t.lexeme = .operator op) (hop : op = .mul ∨ op = .div)
      (hright : Spells .factor ts right) (hrest : Spells (.products (.binary op left right)) us e) :
      Spells (.products left) (t :: (ts ++ us)) e
  | number {t : Token} {value : Float} (ht : t.lexeme = .number value) :
      Spells .factor [t] (.literal value)
  | signed {sign t : Token} {value : Float} (hsign : sign.lexeme = .operator .sub)
      (ht : t.lexeme = .number value) : Spells .factor [sign, t] (.literal (-value))
  | parenthesized {opening closing : Token} {ts : List Token} {e : Expression}
      (hopening : opening.lexeme = .opening) (hinner : Spells .expression ts e)
      (hclosing : closing.lexeme = .closing) : Spells .factor (opening :: (ts ++ [closing])) e

variable {s s' : State} {t : Token} {ts us : List Token} {op : Operator} {e left right : Expression}

theorem bindsTighter_iff : op.bindsTighter = true ↔ op = .mul ∨ op = .div := by
  cases op <;> decide

theorem not_bindsTighter_iff : ¬op.bindsTighter = true ↔ op = .add ∨ op = .sub := by
  cases op <;> decide

/-! ## Longer chains -/

theorem Spells.products_snoc {first : Expression} (h : Spells (.products first) ts left)
    (ht : t.lexeme = .operator op) (hop : op = .mul ∨ op = .div)
    (hright : Spells .factor us right) :
    Spells (.products first) (ts ++ t :: us) (.binary op left right) := by
  generalize hc : Category.products first = c at h
  induction h generalizing first with
  | productsEnd =>
    cases hc
    simpa using Spells.product ht hop hright .productsEnd
  | product ht' hop' hright' _ _ ih =>
    cases hc
    simpa using Spells.product ht' hop' hright' (ih rfl)
  | _ => cases hc

theorem Spells.sums_snoc {first : Expression} (h : Spells (.sums first) ts left)
    (ht : t.lexeme = .operator op) (hop : op = .add ∨ op = .sub) (hright : Spells .term us right) :
    Spells (.sums first) (ts ++ t :: us) (.binary op left right) := by
  generalize hc : Category.sums first = c at h
  induction h generalizing first with
  | sumsEnd =>
    cases hc
    simpa using Spells.sum ht hop hright .sumsEnd
  | sum ht' hop' hright' _ _ ih =>
    cases hc
    simpa using Spells.sum ht' hop' hright' (ih rfl)
  | _ => cases hc

/-- One factor more makes a longer term. -/
theorem Spells.term_snoc (h : Spells .term ts left) (ht : t.lexeme = .operator op)
    (hop : op = .mul ∨ op = .div) (hright : Spells .factor us right) :
    Spells .term (ts ++ t :: us) (.binary op left right) := by
  cases h with
  | term hfirst hrest =>
    rw [List.append_assoc]
    exact .term hfirst (hrest.products_snoc ht hop hright)

/-- One term more makes a longer expression. -/
theorem Spells.expression_snoc (h : Spells .expression ts left) (ht : t.lexeme = .operator op)
    (hop : op = .add ∨ op = .sub) (hright : Spells .term us right) :
    Spells .expression (ts ++ t :: us) (.binary op left right) := by
  cases h with
  | expression hfirst hrest =>
    rw [List.append_assoc]
    exact .expression hfirst (hrest.sums_snoc ht hop hright)

/-- A factor is a term. -/
theorem Spells.term_of_factor (h : Spells .factor ts e) : Spells .term ts e := by
  simpa using Spells.term h .productsEnd

/-- A term is an expression. -/
theorem Spells.expression_of_term (h : Spells .term ts e) : Spells .expression ts e := by
  simpa using Spells.expression h .sumsEnd

/-- No category but a repetition is empty. -/
theorem Spells.expression_ne_nil (h : Spells .expression ts e) : ts ≠ [] := by
  rintro rfl
  generalize hts : ([] : List Token) = us at h
  cases h with
  | expression hterm _ =>
    obtain ⟨rfl, -⟩ := List.append_eq_nil_iff.1 hts.symm
    generalize hus : ([] : List Token) = vs at hterm
    cases hterm with
    | term hfactor _ =>
      obtain ⟨rfl, -⟩ := List.append_eq_nil_iff.1 hus.symm
      cases hfactor

/-! ## What the reader has read -/

/-- What a list of tokens says of a chain that the next operand belongs to: its left part, derived
from a category, and the operator behind that. -/
inductive Leads (category : Category) (ops : Operator → Prop) :
    Option (Expression × Operator) → List Token → Prop
  | none : Leads category ops none []
  | some {ts : List Token} {t : Token} {left : Expression} {op : Operator}
      (hleft : Spells category ts left) (ht : t.lexeme = .operator op) (hop : ops op) :
      Leads category ops (some (left, op)) (ts ++ [t])

/-- What is pending of an expression has been read from a list of tokens. -/
inductive Pending.Reads (p : Pending) : List Token → Prop
  | intro {ts us : List Token} (hsum : Leads .expression (fun op => op = .add ∨ op = .sub) p.sum ts)
      (hproduct : Leads .term (fun op => op = .mul ∨ op = .div) p.product us) : p.Reads (ts ++ us)

theorem Pending.reads_nil : Pending.Reads {} [] :=
  show Pending.Reads {} ([] ++ []) from .intro .none .none

/-- The suspended expressions, innermost first, and the parentheses behind them have been read from
a list of tokens. -/
inductive Encloses : List (Pending × Nat) → List Token → Prop
  | nil : Encloses [] []
  | cons {p : Pending} {position : Nat} {enclosing : List (Pending × Nat)} {ts us : List Token}
      {t : Token} (houter : Encloses enclosing ts) (hp : p.Reads us) (ht : t.lexeme = .opening) :
      Encloses ((p, position) :: enclosing) (ts ++ us ++ [t])

/-- What has been read of a factor. -/
inductive Expecting.Reads : Expecting → List Token → Prop
  | operand {after : Option Nat} : (Expecting.operand after).Reads []
  | digits {position : Nat} {t : Token} (ht : t.lexeme = .operator .sub) :
      (Expecting.digits position).Reads [t]
  | operator {factor : Expression} {ts : List Token} (hfactor : Spells .factor ts factor) :
      (Expecting.operator factor).Reads ts

/-- What the reader has read. -/
inductive State.Reads (s : State) : List Token → Prop
  | intro {ts us vs : List Token} (henclosing : Encloses s.enclosing ts)
      (hpending : s.pending.Reads us) (hexpecting : s.expecting.Reads vs) :
      s.Reads (ts ++ us ++ vs)

theorem State.reads_nil : State.Reads {} [] :=
  show State.Reads {} ([] ++ [] ++ []) from .intro .nil Pending.reads_nil .operand

/-- With its last factor, what is pending makes an expression, and its current term makes one with
the terms in front of it. -/
theorem Pending.Reads.spells {p : Pending} {factor : Expression} (hp : p.Reads ts)
    (hfactor : Spells .factor us factor) :
    (∃ vs ws, ts ++ us = vs ++ ws ∧ Leads .expression (fun op => op = .add ∨ op = .sub) p.sum vs ∧
      Spells .term ws (p.term factor)) ∧
    Spells .expression (ts ++ us) (p.total factor) := by
  obtain @⟨vs, ws, hsum, hproduct⟩ := hp
  -- The factor closes the pending product, which closes the pending sum.
  have hterm : Spells .term (ws ++ us) (p.term factor) := by
    rw [Pending.term]
    generalize p.product = product at hproduct ⊢
    cases hproduct with
    | none => exact hfactor.term_of_factor
    | some hleft ht hop => simpa using hleft.term_snoc ht hop hfactor
  refine ⟨⟨vs, ws ++ us, List.append_assoc .., hsum, hterm⟩, ?_⟩
  rw [Pending.total, List.append_assoc]
  generalize p.sum = sum at hsum ⊢
  cases hsum with
  | none => exact hterm.expression_of_term
  | some hleft ht hop => simpa using hleft.expression_snoc ht hop hterm

/-- An operator behind a factor leaves the chain that it belongs to pending. -/
theorem Pending.Reads.push {p : Pending} {factor : Expression} (hp : p.Reads ts)
    (hfactor : Spells .factor us factor) (ht : t.lexeme = .operator op) :
    (p.push factor op).Reads (ts ++ us ++ [t]) := by
  obtain ⟨⟨vs, ws, heq, hsum, hterm⟩, htotal⟩ := hp.spells hfactor
  rw [Pending.push]
  split
  case isTrue hop =>
    rw [heq, List.append_assoc]
    exact .intro hsum (.some hterm ht (bindsTighter_iff.1 hop))
  case isFalse hop =>
    have hreads := Pending.Reads.intro (p := { sum := some (p.total factor, op) })
      (.some htotal ht (not_bindsTighter_iff.1 hop)) .none
    rwa [List.append_nil] at hreads

/-- A move reads its token. -/
theorem State.Reads.of_move (hs : s.Reads ts) (h : Move s t s') : s'.Reads (ts ++ [t]) := by
  obtain @⟨ts, us, vs, henclosing, hpending, hexpecting⟩ := hs
  cases h with
  | number hs ht =>
    rw [hs] at hexpecting
    cases hexpecting
    rw [List.append_nil]
    exact .intro henclosing hpending (.operator (.number ht))
  | sign hs ht =>
    rw [hs] at hexpecting
    cases hexpecting
    rw [List.append_nil]
    exact .intro henclosing hpending (.digits ht)
  | opening hs ht =>
    rw [hs] at hexpecting
    cases hexpecting
    have hreads := State.Reads.intro
      (s := { s with
        enclosing := (s.pending, t.position) :: s.enclosing, pending := {}
        expecting := .operand none })
      (.cons henclosing hpending ht) Pending.reads_nil .operand
    simpa using hreads
  | digits hs ht =>
    rw [hs] at hexpecting
    cases hexpecting with
    | digits hsign =>
      rw [List.append_assoc]
      exact .intro henclosing hpending (.operator (.signed hsign ht))
  | operator hs ht =>
    rw [hs] at hexpecting
    cases hexpecting with
    | operator hfactor =>
      have hreads := State.Reads.intro
        (s := { s with
          pending := s.pending.push _ _, operators := s.operators + 1
          expecting := .operand (some t.position) })
        henclosing (hpending.push hfactor ht) .operand
      simpa using hreads
  | closing hs ht hsuspended =>
    rw [hs] at hexpecting
    rw [hsuspended] at henclosing
    cases hexpecting with
    | operator hfactor =>
      cases henclosing with
      | cons houter hp hopening =>
        -- The expression between the parentheses is a factor of the one around them.
        have hinner := (hpending.spells hfactor).2
        have hreads := State.Reads.intro
          (s := { s with
            enclosing := _, pending := _, expecting := .operator (s.pending.total _) })
          houter hp (.operator (.parenthesized hopening hinner ht))
        simpa using hreads

/-- Whatever the reader has read is derived from the grammar. -/
theorem State.Reads.of_moves (hs : s.Reads ts) (h : Moves s us s') : s'.Reads (ts ++ us) := by
  induction h generalizing ts with
  | refl => rwa [List.append_nil]
  | cons hmove _ ih => simpa using ih (hs.of_move hmove)

/-! ## How the reader follows a derivation -/

/-- A category can be read from a state on. -/
def Category.Ready : Category → State → Prop
  | .expression, s => (∃ after, s.expecting = .operand after) ∧ s.pending = {}
  | .sums left, s => ∃ factor, s.expecting = .operator factor ∧ s.pending.total factor = left
  | .term, s => (∃ after, s.expecting = .operand after) ∧ s.pending.product = none
  | .products left, s => ∃ factor, s.expecting = .operator factor ∧ s.pending.term factor = left
  | .factor, s => ∃ after, s.expecting = .operand after

/-- A tree of a category has been read between two states. -/
def Category.Done (category : Category) (s s' : State) (e : Expression) : Prop :=
  s'.enclosing = s.enclosing ∧ ∃ factor, s'.expecting = .operator factor ∧
    match category with
    | .expression | .sums _ => s'.pending.total factor = e
    | .term | .products _ => s'.pending.sum = s.pending.sum ∧ s'.pending.term factor = e
    | .factor => s'.pending = s.pending ∧ factor = e

/-- Behind a factor, an operator can be read. -/
theorem exists_move_operator {factor : Expression} (hs : s.expecting = .operator factor)
    (ht : t.lexeme = .operator op) :
    ∃ s₁, Move s t s₁ ∧ s₁.enclosing = s.enclosing ∧ s₁.pending = s.pending.push factor op ∧
      ∃ after, s₁.expecting = .operand after :=
  ⟨_, .operator hs ht, rfl, rfl, _, rfl⟩

/-- The reader can read whatever is derived from the grammar. -/
theorem Spells.exists_moves {category : Category} (h : Spells category ts e)
    (hs : category.Ready s) : ∃ s', Moves s ts s' ∧ category.Done s s' e := by
  induction h generalizing s with
  | @expression _ _ first _ hfirst hrest ihfirst ihrest =>
    obtain ⟨hexpecting, hpending⟩ := hs
    obtain ⟨s₁, hmoves₁, henclosing₁, factor, hfactor, hsum, hterm⟩ :=
      ihfirst ⟨hexpecting, by rw [hpending]⟩
    -- Nothing is pending in front of the first term.
    have htotal : s₁.pending.total factor = first := by
      rw [Pending.total, hsum, hpending]
      exact hterm
    obtain ⟨s₂, hmoves₂, henclosing₂, hdone⟩ := ihrest ⟨factor, hfactor, htotal⟩
    exact ⟨s₂, moves_append_iff.2 ⟨s₁, hmoves₁, hmoves₂⟩, henclosing₂.trans henclosing₁, hdone⟩
  | sumsEnd => exact ⟨s, .refl, rfl, hs⟩
  | @sum t ts us op left right e ht hop hright hrest ihright ihrest =>
    obtain ⟨factor, hfactor, htotal⟩ := hs
    obtain ⟨s₁, hmove, henclosing₁, hpending₁, hexpecting₁⟩ := exists_move_operator hfactor ht
    rw [Pending.push, if_neg (not_bindsTighter_iff.2 hop), htotal] at hpending₁
    obtain ⟨s₂, hmoves₂, henclosing₂, factor₂, hfactor₂, hsum₂, hterm₂⟩ :=
      ihright ⟨hexpecting₁, by rw [hpending₁]⟩
    have htotal₂ : s₂.pending.total factor₂ = .binary op left right := by
      rw [Pending.total, hsum₂, hpending₁, hterm₂]
    obtain ⟨s₃, hmoves₃, henclosing₃, hdone⟩ := ihrest ⟨factor₂, hfactor₂, htotal₂⟩
    exact ⟨s₃, .cons hmove (moves_append_iff.2 ⟨s₂, hmoves₂, hmoves₃⟩),
      henclosing₃.trans (henclosing₂.trans henclosing₁), hdone⟩
  | term hfirst hrest ihfirst ihrest =>
    obtain ⟨hexpecting, hproduct⟩ := hs
    obtain ⟨s₁, hmoves₁, henclosing₁, factor, hfactor, hpending, rfl⟩ := ihfirst hexpecting
    have hterm : s₁.pending.term factor = factor := by rw [Pending.term, hpending, hproduct]
    obtain ⟨s₂, hmoves₂, henclosing₂, factor₂, hfactor₂, hsum₂, hdone⟩ :=
      ihrest ⟨factor, hfactor, hterm⟩
    exact ⟨s₂, moves_append_iff.2 ⟨s₁, hmoves₁, hmoves₂⟩, henclosing₂.trans henclosing₁, factor₂,
      hfactor₂, hsum₂.trans (by rw [hpending]), hdone⟩
  | productsEnd =>
    obtain ⟨factor, hfactor, hterm⟩ := hs
    exact ⟨s, .refl, rfl, factor, hfactor, rfl, hterm⟩
  | @product t ts us op left right e ht hop hright hrest ihright ihrest =>
    obtain ⟨factor, hfactor, hterm⟩ := hs
    obtain ⟨s₁, hmove, henclosing₁, hpending₁, hexpecting₁⟩ := exists_move_operator hfactor ht
    rw [Pending.push, if_pos (bindsTighter_iff.2 hop), hterm] at hpending₁
    obtain ⟨s₂, hmoves₂, henclosing₂, factor₂, hfactor₂, hpending₂, rfl⟩ := ihright hexpecting₁
    have hterm₂ : s₂.pending.term factor₂ = .binary op left factor₂ := by
      rw [Pending.term, hpending₂, hpending₁]
    obtain ⟨s₃, hmoves₃, henclosing₃, factor₃, hfactor₃, hsum₃, hdone⟩ :=
      ihrest ⟨factor₂, hfactor₂, hterm₂⟩
    have hsum₁ : s₂.pending.sum = s.pending.sum := by rw [hpending₂, hpending₁]
    exact ⟨s₃, .cons hmove (moves_append_iff.2 ⟨s₂, hmoves₂, hmoves₃⟩),
      henclosing₃.trans (henclosing₂.trans henclosing₁), factor₃, hfactor₃, hsum₃.trans hsum₁,
      hdone⟩
  | number ht =>
    obtain ⟨after, hexpecting⟩ := hs
    exact ⟨_, moves_singleton_iff.2 (.number hexpecting ht), rfl, _, rfl, rfl, rfl⟩
  | signed hsign ht =>
    obtain ⟨after, hexpecting⟩ := hs
    exact ⟨_, .cons (.sign hexpecting hsign) (moves_singleton_iff.2 (.digits rfl ht)), rfl, _, rfl,
      rfl, rfl⟩
  | parenthesized hopening hinner hclosing ihinner =>
    obtain ⟨after, hexpecting⟩ := hs
    have hmove := Move.opening hexpecting hopening
    -- The parentheses are read as an expression of their own, which then is the factor.
    obtain ⟨s₂, hmoves₂, henclosing₂, factor, hfactor, htotal⟩ :=
      ihinner (s := { s with
        enclosing := (s.pending, _) :: s.enclosing, pending := {}, expecting := .operand none })
        ⟨⟨none, rfl⟩, rfl⟩
    have hmove₂ := Move.closing hfactor hclosing henclosing₂
    exact ⟨_, .cons hmove (moves_append_iff.2 ⟨s₂, hmoves₂, moves_singleton_iff.2 hmove₂⟩), rfl, _,
      rfl, rfl, htotal⟩

/-! ## Reading a text -/

/-- The tokens that the reader has moves for, down to an expression that ends there, are those that
are derived from the grammar. -/
theorem spells_iff_moves :
    Spells .expression ts e ↔ ∃ s factor, Moves {} ts s ∧ s.enclosing = [] ∧
      s.expecting = .operator factor ∧ s.pending.total factor = e := by
  constructor
  · intro h
    obtain ⟨s, hmoves, henclosing, factor, hfactor, htotal⟩ :=
      h.exists_moves (s := {}) ⟨⟨none, rfl⟩, rfl⟩
    exact ⟨s, factor, hmoves, henclosing, hfactor, htotal⟩
  · -- With no parenthesis open, all that was read is the pending part.
    rintro ⟨s, factor, hmoves, henclosing, hfactor, rfl⟩
    have hreads := State.reads_nil.of_moves hmoves
    rw [List.nil_append] at hreads
    obtain @⟨us, vs, ws, hnil, hpending, hexpecting⟩ := hreads
    rw [henclosing] at hnil
    rw [hfactor] at hexpecting
    cases hnil with
    | nil =>
      cases hexpecting with
      | operator hspells => exact (hpending.spells hspells).2

/-- A list of tokens spells one tree at most. -/
theorem Spells.unique {e' : Expression} (h : Spells .expression ts e)
    (h' : Spells .expression ts e') : e = e' := by
  obtain ⟨s, factor, hmoves, -, hfactor, rfl⟩ := spells_iff_moves.1 h
  obtain ⟨s', factor', hmoves', -, hfactor', rfl⟩ := spells_iff_moves.1 h'
  obtain rfl := hmoves.unique hmoves'
  obtain rfl := Expecting.operator.inj (hfactor.symm.trans hfactor')
  rfl

/-- The end of the text is accepted behind a complete expression. -/
theorem finish_eq_ok_iff {stop : Nat} :
    finish s stop = .ok e ↔ s.enclosing = [] ∧
      ∃ factor, s.expecting = .operator factor ∧ s.pending.total factor = e := by
  rw [finish]
  split
  · simp_all
  · simp_all
  · split <;> simp_all

/-- The reader answers the tree that the tokens spell, where they are affordable. -/
theorem ofTokens_eq_ok_iff {limits : ParseBounds} {list : TokenList} :
    ofTokens limits list = .ok e ↔
      Spells .expression list.tokens e ∧ Affordable limits {} list.tokens := by
  have hstart : State.Within limits {} := ⟨Nat.zero_le _, Nat.zero_le _⟩
  rw [ofTokens]
  split
  -- No tokens spell no expression, so the early refusal agrees with the grammar.
  case isTrue hempty =>
    rw [List.isEmpty_iff] at hempty
    simp only [reduceCtorEq, false_iff]
    rintro ⟨hspells, -⟩
    exact hspells.expression_ne_nil hempty
  case isFalse =>
    simp only [bind_eq_ok_iff, foldlM_step_eq_ok_iff hstart, finish_eq_ok_iff, spells_iff_moves]
    constructor
    · rintro ⟨s, ⟨hmoves, hafford⟩, henclosing, factor, hfactor, htotal⟩
      exact ⟨⟨s, factor, hmoves, henclosing, hfactor, htotal⟩, hafford⟩
    · rintro ⟨⟨s, factor, hmoves, henclosing, hfactor, htotal⟩, hafford⟩
      exact ⟨s, ⟨hmoves, hafford⟩, henclosing, factor, hfactor, htotal⟩

/-- A text is read as a tree exactly when it is cut into tokens that spell the tree, with no more
parentheses open at once and no more binary operators than the limits allow. Whatever the limits, a
text is cut into tokens in one way at most, and these spell one tree at most. -/
theorem parse_accepts_grammar (text : String) :
    (∀ (limits : ParseBounds) (e : Expression), Expression.parse limits text = .ok e ↔
      ∃ list : TokenList, TokenList.Lexes 0 text.toList list.tokens list.stop ∧
        Spells .expression list.tokens e ∧
        (∀ us, us <+: list.tokens → opened us ≤ closed us + limits.maxDepth) ∧
        binaryOperators false list.tokens ≤ limits.maxOperators) ∧
    {p : TokenList × Expression | TokenList.Lexes 0 text.toList p.1.tokens p.1.stop ∧
      Spells .expression p.1.tokens p.2}.Subsingleton := by
  constructor
  · intro limits e
    simp only [Expression.parse, bind_eq_ok_iff, TokenList.ofText_eq_ok_iff, ofTokens_eq_ok_iff]
    refine exists_congr fun list => and_congr_right fun _ => and_congr_right fun _ => ?_
    constructor
    · rintro ⟨hdepth, hoperators⟩
      exact ⟨by simpa using hdepth, by simpa [State.behind] using hoperators⟩
    · rintro ⟨hdepth, hoperators⟩
      exact ⟨by simpa using hdepth, by simpa [State.behind] using hoperators⟩
  · rintro ⟨list, e⟩ ⟨hlex, hspells⟩ ⟨list', e'⟩ ⟨hlex', hspells'⟩
    obtain rfl : list = list' := by
      rw [← TokenList.ofText_eq_ok_iff] at hlex hlex'
      exact Except.ok.inj (hlex.symm.trans hlex')
    exact Prod.ext rfl (hspells.unique hspells')

end EncryptedArithmetic.Parse

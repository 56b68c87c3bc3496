import EncryptedArithmetic.Proofs.Scheme.Decryption
import EncryptedArithmetic.Proofs.Scheme.Level

/-!
# Sums and differences across levels

Every sum and every difference is taken at the lower level of its two operands, so the channels in
which an addition happens depend on how a sum is grouped. What comes out does not: the primes of a
lower level are among those of a higher one and a channel that is kept is kept as it was. The phase
of the result is the signed sum of the phases of its ciphertexts, in every channel that is left, and
two groupings of the same signed ciphertexts leave the same residues.

Ciphertexts are values here, so an operand is what it was before. A grouping names its ciphertexts
and is evaluated in a family that stays as it is.

## Main definitions

* `Grouping`: sums and differences of named ciphertexts, grouped in any way.
* `Grouping.terms`: the names with their signs, from the left to the right.
* `Context.total`: the ciphertext that a grouping is evaluated to.

## Main results

* `Working.totals_combined`: one sum or difference.
* `Working.totals_total`: a grouping of sums and differences.
* `total_of_generate`: groupings in every context that was generated.
-/

namespace EncryptedArithmetic

open Polynomial EncryptedArithmetic.Modular

/-! ## Groupings -/

/-- Sums and differences of named ciphertexts. -/
inductive Grouping (ι : Type) where
  | leaf (name : ι)
  | add (left right : Grouping ι)
  | sub (left right : Grouping ι)

namespace Grouping

variable {ι : Type} {M : Type} [AddCommGroup M]

/-- The names with their signs, from the left to the right. -/
def terms : Grouping ι → List (ℤ × ι)
  | leaf name => [(1, name)]
  | add l r => l.terms ++ r.terms
  | sub l r => l.terms ++ r.terms.map fun p => (-1 * p.1, p.2)

/-- The sum of what the names stand for, with their signs. -/
def signedSum (f : ι → M) (terms : List (ℤ × ι)) : M :=
  (terms.map fun p => p.1 • f p.2).sum

variable {f : ι → M} {ps qs : List (ℤ × ι)}

theorem signedSum_append : signedSum f (ps ++ qs) = signedSum f ps + signedSum f qs := by
  rw [signedSum, List.map_append, List.sum_append, signedSum, signedSum]

theorem signedSum_scale (k : ℤ) :
    signedSum f (ps.map fun p => (k * p.1, p.2)) = k • signedSum f ps := by
  induction ps with
  | nil => exact (smul_zero k).symm
  | cons p ps ih =>
    simp only [signedSum, List.map_cons, List.sum_cons, List.map_map] at ih ⊢
    rw [ih, mul_smul, smul_add]

/-- Nothing is changed by another order of the terms. -/
theorem signedSum_perm (h : ps.Perm qs) : signedSum f ps = signedSum f qs :=
  (h.map _).sum_eq

end Grouping

namespace Context

variable {ctx : Context} {x y c : Ciphertext} {level : ℕ}

/-- The ciphertext that a grouping is evaluated to. -/
def total {ι : Type} (ctx : Context) (family : ι → Ciphertext) :
    Grouping ι → Result SchemeError Ciphertext
  | .leaf name => return family name
  | .add l r => do ctx.add (← ctx.total family l) (← ctx.total family r)
  | .sub l r => do ctx.sub (← ctx.total family l) (← ctx.total family r)

/-! ## One sum or difference -/

/-- A ciphertext without the primes above a level has the same phase in the channels that are left,
whatever the secret is. -/
theorem phase_of_lowered? {chain : ModulusChain} {level' : ℕ} (hc : chain.Sound)
    (hl : level ≤ chain.topLevel) (h : c.Over chain level) (hle : level' ≤ level) {d : Ciphertext}
    (hd : lowered? c level' = .ok d) :
    d.Over chain level' ∧ d.scale = c.scale ∧
      ∀ S i t, (chain.lower level')[i]? = some t → d.phase S i t = c.phase S i t := by
  have hlowered (S : ℤ[X]) : d.Over chain level' ∧ d.scale = c.scale ∧
      ∀ i t, (chain.lower level')[i]? = some t → d.phase S i t = c.phase S i t := by
    obtain ⟨d', hd', hover, hscale, hphase⟩ := exists_lowered? (S := S) hc hl h hle
    obtain rfl : d' = d := Except.ok.inj (hd'.symm.trans hd)
    exact ⟨hover, hscale, hphase⟩
  exact ⟨(hlowered 0).1, (hlowered 0).2.1, fun S => (hlowered S).2.2⟩

/-- What an operation does to the images of two components of one level: it adds a multiple of the
right one. -/
def Adds (ctx : Context) (f : ResiduePoly → ResiduePoly → Except Fault ResiduePoly) (k : ℤ) :
    Prop :=
  ∀ level a b c, a.Over (ctx.chain.lower level) .transformed →
    b.Over (ctx.chain.lower level) .transformed → f a b = .ok c →
    c.Over (ctx.chain.lower level) .transformed ∧
      ∀ i t, (ctx.chain.lower level)[i]? = some t → c.image i t = a.image i t + k • b.image i t

theorem Working.adds_add? (hctx : ctx.Working) : ctx.Adds ResiduePoly.add? 1 := by
  intro level a b c ha hb h
  obtain ⟨c', hc', hover, himage⟩ :=
    ResiduePoly.exists_add? (fun _ ht => hctx.sound.sound_of_mem_lower ht) ha hb
  obtain rfl : c' = c := Except.ok.inj (hc'.symm.trans h)
  refine ⟨hover, fun i t ht => ?_⟩
  rw [(himage i t ht).2, one_smul]

theorem Working.adds_sub? (hctx : ctx.Working) : ctx.Adds ResiduePoly.sub? (-1) := by
  intro level a b c ha hb h
  obtain ⟨c', hc', hover, himage⟩ :=
    ResiduePoly.exists_sub? (fun _ ht => hctx.sound.sound_of_mem_lower ht) ha hb
  obtain rfl : c' = c := Except.ok.inj (hc'.symm.trans h)
  refine ⟨hover, fun i t ht => ?_⟩
  rw [(himage i t ht).2, neg_smul, one_smul, sub_eq_add_neg]

/-- A sum or difference that succeeds: it is valid, at the lower level and the left scale, and under
every secret its phase is that of the left operand and the multiple of that of the right one. -/
theorem Working.phase_combined (hctx : ctx.Working)
    {f : ResiduePoly → ResiduePoly → Except Fault ResiduePoly} {k : ℤ} (hf : ctx.Adds f k)
    (hx : x.Valid ctx) (hy : y.Valid ctx) (h : ctx.combined f x y = .ok c) :
    c.Valid ctx ∧ c.level = min x.level y.level ∧ c.scale = x.scale ∧
      ∀ S i t, (ctx.chain.lower c.level)[i]? = some t →
        c.phase S i t = x.phase S i t + k • y.phase S i t := by
  simp only [combined, levelled, bind_eq_ok_iff] at h
  obtain ⟨⟨_, _⟩, ⟨-, -, -, -, hlowered⟩, hcomponents⟩ := h
  split at hlowered
  · exact absurd hlowered fail_ne_ok
  simp only [bind_eq_ok_iff, liftM_eq_ok_iff, pure_eq_ok, Except.ok.injEq, Prod.mk.injEq]
    at hlowered hcomponents
  obtain ⟨x', hx', y', hy', rfl, rfl⟩ := hlowered
  obtain ⟨c0, hc0, c1, hc1, rfl⟩ := hcomponents
  -- Dropping channels keeps the phase in those that are left.
  obtain ⟨hox, hscale, hpx⟩ :=
    phase_of_lowered? hctx.sound hx.level_le hx.kept (min_le_left _ _) hx'
  obtain ⟨hoy, -, hpy⟩ :=
    phase_of_lowered? hctx.sound hy.level_le hy.kept (min_le_right _ _) hy'
  obtain ⟨hoc0, hi0⟩ := hf _ _ _ _ hox.c0 hoy.c0 hc0
  obtain ⟨hoc1, hi1⟩ := hf _ _ _ _ hox.c1 hoy.c1 hc1
  have hl : min x.level y.level ≤ ctx.topLevel := (min_le_left _ _).trans hx.level_le
  have hover : Ciphertext.Over { x' with c0, c1 } ctx.chain (min x.level y.level) := ⟨hoc0, hoc1⟩
  have hlevel := level_eq hctx.sound hl hover
  have hid := (contextId_of_lowered? hx').trans hx.contextId_eq
  refine ⟨hctx.valid hid hl hover, hlevel, hscale, fun S i t ht => ?_⟩
  rw [hlevel] at ht
  calc Ciphertext.phase { x' with c0, c1 } S i t
      = (x'.c0.image i t + k • y'.c0.image i t) +
          (x'.c1.image i t + k • y'.c1.image i t) * t.ofInt S := by
        rw [Ciphertext.phase, hi0 i t ht, hi1 i t ht]
    _ = x'.phase S i t + k • y'.phase S i t := by
        rw [Ciphertext.phase, Ciphertext.phase, add_mul, smul_add, smul_mul_assoc]
        abel
    _ = x.phase S i t + k • y.phase S i t := by rw [hpx S i t ht, hpy S i t ht]

/-! ## Groupings -/

section Total

open Grouping

variable {ι : Type} {family : ι → Ciphertext} {e e' : Grouping ι} {l r : List (ℤ × ι)}

/-- The ciphertext is what the signed ciphertexts come to. -/
structure Totals (ctx : Context) (family : ι → Ciphertext) (terms : List (ℤ × ι))
    (out : Ciphertext) : Prop where
  valid : out.Valid ctx
  /-- No ciphertext is at a lower level. -/
  level_le : ∀ p ∈ terms, out.level ≤ (family p.2).level
  /-- One of them is at this level. -/
  level_eq : ∃ p ∈ terms, out.level = (family p.2).level
  /-- The leftmost one gives the scale. -/
  scale_eq : ∃ name rest, terms = (1, name) :: rest ∧ out.scale = (family name).scale
  phase_eq : ∀ S i t, (ctx.chain.lower out.level)[i]? = some t →
    out.phase S i t = signedSum (fun name => (family name).phase S i t) terms

/-- A ciphertext stands for itself. -/
theorem totals_leaf {name : ι} (h : (family name).Valid ctx) :
    ctx.Totals family (leaf name).terms (family name) where
  valid := h
  level_le := by simp [terms]
  level_eq := by simp [terms]
  scale_eq := ⟨name, [], rfl, rfl⟩
  phase_eq := by simp [terms, signedSum]

/-- Two totals are combined to that of all their ciphertexts, with the signs on the right multiplied
by that of the operation. -/
theorem Working.totals_combined (hctx : ctx.Working)
    {f : ResiduePoly → ResiduePoly → Except Fault ResiduePoly} {k : ℤ} (hf : ctx.Adds f k)
    (hx : ctx.Totals family l x) (hy : ctx.Totals family r y) (h : ctx.combined f x y = .ok c) :
    ctx.Totals family (l ++ r.map fun p => (k * p.1, p.2)) c := by
  obtain ⟨hvalid, hlevel, hscale, hphase⟩ := hctx.phase_combined hf hx.valid hy.valid h
  refine ⟨hvalid, ?_, ?_, ?_, ?_⟩
  · simp only [List.mem_append, List.mem_map]
    rintro p (hp | ⟨p, hp, rfl⟩)
    · exact hlevel.le.trans ((min_le_left _ _).trans (hx.level_le p hp))
    · exact hlevel.le.trans ((min_le_right _ _).trans (hy.level_le p hp))
  · -- The lower operand has a ciphertext of its level.
    rcases min_choice x.level y.level with hmin | hmin
    · obtain ⟨p, hp, hpx⟩ := hx.level_eq
      exact ⟨p, List.mem_append_left _ hp, (hlevel.trans hmin).trans hpx⟩
    · obtain ⟨p, hp, hpy⟩ := hy.level_eq
      exact ⟨_, List.mem_append_right _ (List.mem_map_of_mem hp), (hlevel.trans hmin).trans hpy⟩
  · obtain ⟨name, rest, rfl, hname⟩ := hx.scale_eq
    exact ⟨name, _, List.cons_append, hscale.trans hname⟩
  · intro S i t ht
    obtain ⟨hi, htable⟩ := ModulusChain.Sound.getElem?_lower_iff.1 ht
    -- The channels of the result are channels of both operands.
    have hchannel {d : Ciphertext} (hle : c.level ≤ d.level) :
        (ctx.chain.lower d.level)[i]? = some t :=
      ModulusChain.Sound.getElem?_lower_iff.2 ⟨hi.trans hle, htable⟩
    rw [hphase S i t ht, hx.phase_eq S i t (hchannel (hlevel.le.trans (min_le_left _ _))),
      hy.phase_eq S i t (hchannel (hlevel.le.trans (min_le_right _ _))), signedSum_append,
      signedSum_scale]

/-- A grouping whose calls all succeed comes to its signed ciphertexts. -/
theorem Working.totals_total (hctx : ctx.Working) (hfamily : ∀ name, (family name).Valid ctx)
    (h : ctx.total family e = .ok c) : ctx.Totals family e.terms c := by
  induction e generalizing c with
  | leaf name =>
    obtain rfl := Except.ok.inj h
    exact totals_leaf (hfamily name)
  | add l r ihl ihr =>
    simp only [total, bind_eq_ok_iff] at h
    obtain ⟨x, hx, y, hy, h⟩ := h
    have htotals := hctx.totals_combined hctx.adds_add? (ihl hx) (ihr hy) h
    simpa only [terms, one_mul, List.map_id'] using htotals
  | sub l r ihl ihr =>
    simp only [total, bind_eq_ok_iff] at h
    obtain ⟨x, hx, y, hy, h⟩ := h
    exact hctx.totals_combined hctx.adds_sub? (ihl hx) (ihr hy) h

/-- The level depends on the ciphertexts, not on their order. -/
theorem Totals.level_eq_of_perm {x y : Ciphertext} (hx : ctx.Totals family l x)
    (hy : ctx.Totals family r y) (h : l.Perm r) : x.level = y.level := by
  obtain ⟨p, hp, hpx⟩ := hx.level_eq
  obtain ⟨p', hp', hpy⟩ := hy.level_eq
  refine le_antisymm ?_ ?_
  · rw [hpy]
    exact hx.level_le p' (h.mem_iff.2 hp')
  · rw [hpx]
    exact hy.level_le p (h.mem_iff.1 hp)

/-- Totals of the same signed ciphertexts have the same residues. -/
theorem Totals.residues_eq_of_perm (hctx : ctx.Working) (hx : ctx.Totals family l x)
    (hy : ctx.Totals family r y) (h : l.Perm r) : x.c0 = y.c0 ∧ x.c1 = y.c1 := by
  have hlevel := hx.level_eq_of_perm hy h
  have hkept := hlevel ▸ hy.valid.kept
  have hs : ∀ t ∈ ctx.chain.lower x.level, t.Sound := fun _ ht => hctx.sound.sound_of_mem_lower ht
  have hphase (S : ℤ[X]) (i : ℕ) (t : RootTable) (ht : (ctx.chain.lower x.level)[i]? = some t) :
      x.phase S i t = y.phase S i t := by
    rw [hx.phase_eq S i t ht, hy.phase_eq S i t (hlevel ▸ ht), signedSum_perm h]
  -- The phase under zero is the left component, and under one the sum of both.
  have hc0 (i : ℕ) (t : RootTable) (ht : (ctx.chain.lower x.level)[i]? = some t) :
      x.c0.image i t = y.c0.image i t := by
    simpa [Ciphertext.phase] using hphase 0 i t ht
  refine ⟨ResiduePoly.eq_of_image_eq hs hx.valid.kept.c0 hkept.c0 hc0,
    ResiduePoly.eq_of_image_eq hs hx.valid.kept.c1 hkept.c1 fun i t ht => ?_⟩
  simpa [Ciphertext.phase, hc0 i t ht] using hphase 1 i t ht

/-- In every context that was generated, for the secret `S` of its key: a grouping of ciphertexts at
whatever levels whose calls all succeed has a valid result at the lowest of these levels and at the
scale of the leftmost ciphertext. In every channel that is left, the phase of the result is the
signed sum of the phases of the ciphertexts. Another grouping of the same signed ciphertexts that
succeeds has the same residues. The phases are those that decryption computes. -/
theorem total_of_generate {σ : Type} {sampler : Sampler σ} (hsampler : sampler.Lawful)
    {params : Parameters} {id : UInt64} {s s' : σ}
    (hctx : Answers (generate sampler params id) s ctx s') (htest : ∀ q ∈ ctx.primes, TestExact q) :
    ∃ S : ℤ[X], ctx.secretKey.Holds ctx.chain S ∧
      (∀ c : Ciphertext, c.Valid ctx → ∃ plain, ctx.phase? c = .ok plain ∧
        plain.Over (ctx.chain.lower c.level) .transformed ∧
        ∀ i t, (ctx.chain.lower c.level)[i]? = some t → plain.image i t = c.phase S i t) ∧
      ∀ {ι : Type} (family : ι → Ciphertext), (∀ name, (family name).Valid ctx) →
        ∀ (e : Grouping ι) (out : Ciphertext), ctx.total family e = .ok out →
          out.Valid ctx ∧
          (∀ p ∈ e.terms, out.level ≤ (family p.2).level) ∧
          (∃ p ∈ e.terms, out.level = (family p.2).level) ∧
          (∃ name rest, e.terms = (1, name) :: rest ∧ out.scale = (family name).scale) ∧
          (∀ i t, (ctx.chain.lower out.level)[i]? = some t →
            out.phase S i t = signedSum (fun name => (family name).phase S i t) e.terms) ∧
          ∀ (e' : Grouping ι) (out' : Ciphertext), e'.terms.Perm e.terms →
            ctx.total family e' = .ok out' → out'.c0 = out.c0 ∧ out'.c1 = out.c1 := by
  have hworking := working_of_generate hsampler hctx htest
  obtain ⟨cs, e, hkeyed⟩ := hworking.keyed
  refine ⟨ofCoefficients cs, hkeyed.holds, fun c hc => hworking.exists_phase? hkeyed.holds hc, ?_⟩
  intro ι family hfamily e out hout
  have htotals := hworking.totals_total hfamily hout
  refine ⟨htotals.valid, htotals.level_le, htotals.level_eq, htotals.scale_eq, htotals.phase_eq _,
    fun e' out' hperm hout' => ?_⟩
  exact (hworking.totals_total hfamily hout').residues_eq_of_perm hworking htotals hperm

/-- A ciphertext, and its square if so. -/
def orSquare (x square : Ciphertext) (squared : Bool) : Ciphertext :=
  if squared then square else x

/-- In the smallest ring a ciphertext and its square are at two levels. Whether the ciphertext is
taken from their sum or the square is added to a difference of equals, the same is left. -/
theorem total_smallest :
    ∃ (ctx : Context) (x square out out' : Ciphertext),
      Answers (generate Sampler.steady smallest 7) () ctx () ∧
      Answers (encrypt Sampler.steady ctx 1) () x () ∧ ctx.mul x x = .ok square ∧
      square.level < x.level ∧
      ctx.total (orSquare x square) (.sub (.add (.leaf false) (.leaf true)) (.leaf false)) =
        .ok out ∧
      ctx.total (orSquare x square) (.add (.sub (.leaf false) (.leaf false)) (.leaf true)) =
        .ok out' ∧
      out'.c0 = out.c0 ∧ out'.c1 = out.c1 := by
  -- The run is evaluated only to see that it succeeds.
  have hok : ((do
      let ctx ← generate Sampler.steady smallest 7
      let x ← encrypt Sampler.steady ctx 1
      let square ← ctx.mul x x
      let out ← ctx.total (orSquare x square) (.sub (.add (.leaf false) (.leaf true)) (.leaf false))
      let out' ← ctx.total (orSquare x square)
        (.add (.sub (.leaf false) (.leaf false)) (.leaf true))
      return (out, out')).outcome ()).1.isOk := by
    decide +kernel
  obtain ⟨_, ⟨⟩, hrun⟩ := exists_answers_of_isOk hok
  simp only [answers_bind, answers_liftM_result] at hrun
  obtain ⟨ctx, ⟨⟩, hctx, x, ⟨⟩, hx, square, ⟨⟩, ⟨hsquare, -⟩, out, ⟨⟩, ⟨hout, -⟩, out', ⟨⟩,
    ⟨hout', -⟩, -⟩ := hrun
  obtain ⟨ctx', hctx', -, htest⟩ := exists_smallest 7
  obtain rfl : ctx = ctx' := Except.ok.inj (Prod.mk.inj (hctx.symm.trans hctx')).1
  have hworking := working_of_generate Sampler.lawful_steady hctx htest
  have hvalid : x.Valid ctx :=
    (delivers_encrypt Sampler.lawful_steady hworking 1 ()).of_ok x (congrArg Prod.fst hx)
  have hvalid' : square.Valid ctx :=
    (delivers_mul hworking (fun _ => hvalid) (fun _ => hvalid)).of_ok square hsquare
  have hlevel : square.level < x.level := by
    have hpos := pos_of_mul hsquare
    rw [level_of_mul hsquare]
    rw [min_self] at hpos ⊢
    omega
  obtain ⟨S, -, -, htotal⟩ := total_of_generate Sampler.lawful_steady hctx htest
  have hfamily : ∀ squared, (orSquare x square squared).Valid ctx := by
    intro squared
    cases squared
    exacts [hvalid, hvalid']
  obtain ⟨-, -, -, -, -, hresidues⟩ := htotal (orSquare x square) hfamily _ out hout
  have hperm : (Grouping.terms (.add (.sub (.leaf false) (.leaf false)) (.leaf true))).Perm
      (Grouping.terms (.sub (.add (.leaf false) (.leaf true)) (.leaf false))) := by
    decide
  exact ⟨ctx, x, square, out, out', hctx, hx, hsquare, hlevel, hout, hout',
    hresidues _ out' hperm hout'⟩

end Total

end Context

end EncryptedArithmetic

import EncryptedArithmetic.Proofs.Delivery
import EncryptedArithmetic.Proofs.Key.Galois
import EncryptedArithmetic.Proofs.Scheme.Serialization

/-!
# Operations that deliver valid ciphertexts

In a context that was generated, every operation on ciphertexts delivers a valid ciphertext: it ends
in an error of the scheme or in a valid ciphertext, and no precondition of the ring layer is ever
broken. An operand only has to be valid if it carries the id of the context, since any other one is
refused before it is looked at.

## Main definitions

* `Context.Working`: what the operations need of a context.
* `Ciphertext.Genuine`: a ciphertext that is valid for a context unless it is refused there.
* `Context.combined`: what sums and differences have in common.

## Main results

* `working_of_generate`: every context that was generated is working.
* `delivers_encrypt`, `delivers_ofBytes`, `delivers_add`, `delivers_sub`, `delivers_mul`,
  `delivers_mulPlain`, `delivers_automorphism`: one statement for each operation.
* `Working.exists_combined` and `Working.exists_mul`: operands that are not refused, and the scale
  and level of what they are combined to.
-/

namespace EncryptedArithmetic

open Polynomial EncryptedArithmetic.Modular

namespace Context

/-- The chain is sound, the keys are kept over it, and secrets and errors can be drawn. -/
structure Working (ctx : Context) : Prop where
  shaped : ctx.Shaped
  keyed : ∃ cs e, ctx.Keyed cs e
  publicKey : MaskedPair.Over ctx.publicKey (ctx.chain.lower ctx.topLevel)
  galoisKeys : ∀ keys, ctx.galoisKeys? = some keys → ∃ S, keys.Usable ctx.chain S
  weight_le : ctx.params.weight ≤ ctx.chain.degree
  errorStd_pos : (ctx.params.errorStd.isFinite && 0 < ctx.params.errorStd) = true

/-- A context that was generated is working. -/
theorem working_of_generate {σ : Type} {sampler : Sampler σ} (hsampler : sampler.Lawful)
    {params : Parameters} {id : UInt64} {ctx : Context} {s s' : σ}
    (h : Answers (generate sampler params id) s ctx s') (htest : ∀ q ∈ ctx.primes, TestExact q) :
    ctx.Working := by
  have hshaped := shaped_of_generate h
  obtain ⟨hdegree, cs, e, hkeyed, -⟩ := keyed_of_generate hsampler h htest
  obtain ⟨-, rfl, -, hcheck, -, s₁, s₂, s₃, -, hpublic, -, hgalois⟩ := generate_cases h
  have hparams := Parameters.accepted_of_check hcheck
  refine ⟨hshaped, ⟨cs, e, hkeyed⟩, ?_, ?_, hdegree ▸ hparams.weight_le, hparams.errorStd_pos⟩
  · exact (PublicKey.hides_of_generate hsampler hkeyed.sound hkeyed.holds hpublic).1
  · -- There are keys for automorphisms only if they were asked for, and then they were generated.
    intro keys hkeys
    split at hgalois
    · obtain ⟨keys', hkeys', hrun⟩ := hgalois
      obtain rfl := Option.some.inj (hkeys'.symm.trans hkeys)
      exact ⟨_, GaloisKeySet.usable_of_generate hsampler hkeyed.sound hkeyed.holds hrun⟩
    · rw [hgalois.1] at hkeys
      cases hkeys

theorem Working.sound {ctx : Context} (hctx : ctx.Working) : ctx.chain.Sound := by
  obtain ⟨cs, e, hkeyed⟩ := hctx.keyed
  exact hkeyed.sound

end Context

/-- The ciphertext is valid for the context if it carries its id. -/
def Ciphertext.Genuine (ctx : Context) (c : Ciphertext) : Prop :=
  c.contextId = ctx.id → c.Valid ctx

namespace Context

variable {ctx : Context} {x y c : Ciphertext} {level : ℕ}

/-- Components over the primes of a level make a ciphertext of this level. -/
theorem Working.valid (hctx : ctx.Working) (hid : c.contextId = ctx.id) (hl : level ≤ ctx.topLevel)
    (hc : c.Over ctx.chain level) : c.Valid ctx := by
  obtain rfl : c.level = level := level_eq hctx.sound hl hc
  exact ⟨hid, hl, hc⟩

/-! ## Operands -/

theorem delivers_requireOwn (hc : c.Genuine ctx) :
    (ctx.requireOwn c).Delivers fun _ => c.Valid ctx := by
  rw [requireOwn]
  split
  · rename_i hid
    exact Result.delivers_ok (hc hid)
  · exact Result.delivers_fail _

/-- A ciphertext of another context is refused. -/
theorem requireOwn_of_ne (h : c.contextId ≠ ctx.id) :
    ctx.requireOwn c = .fail (.contextMismatch ctx.id c.contextId) :=
  if_neg h

theorem requireOwn_of_eq (h : c.contextId = ctx.id) : ctx.requireOwn c = .ok () :=
  if_pos h

theorem contextId_of_lowered? {d : Ciphertext} (h : lowered? c level = .ok d) :
    d.contextId = c.contextId := by
  rw [lowered?] at h
  split at h
  · rw [← Except.ok.inj h]
  · simp only [bind_eq_ok_iff, pure_eq_ok, Except.ok.injEq] at h
    obtain ⟨c0, -, c1, -, rfl⟩ := h
    rfl

/-- A valid ciphertext without the primes above a level. -/
theorem Working.exists_lowered? (hctx : ctx.Working) (hc : c.Valid ctx) (hle : level ≤ c.level) :
    ∃ d, lowered? c level = .ok d ∧ d.Over ctx.chain level ∧ d.contextId = ctx.id ∧
      d.scale = c.scale := by
  obtain ⟨d, hd, hod, hscale, -⟩ :=
    Context.exists_lowered? (S := 0) hctx.sound hc.level_le hc.kept hle
  exact ⟨d, hd, hod, (contextId_of_lowered? hd).trans hc.contextId_eq, hscale⟩

/-- Summands whose scales are too far apart are refused. -/
theorem levelled_of_scalesDiffer (hx : x.contextId = ctx.id) (hy : y.contextId = ctx.id)
    (h : scalesDiffer x.scale y.scale = true) :
    ctx.levelled x y = .fail (.scaleMismatch x.scale y.scale) := by
  rw [levelled, requireOwn_of_eq hx, ok_bind, requireOwn_of_eq hy, ok_bind, if_pos h]

/-- Summands of nearly the same scale have a common level, and the left one keeps its scale. -/
theorem Working.exists_levelled (hctx : ctx.Working) (hx : x.Valid ctx) (hy : y.Valid ctx)
    (h : scalesDiffer x.scale y.scale = false) :
    ∃ x' y', ctx.levelled x y = .ok (x', y') ∧ x'.contextId = ctx.id ∧ x'.scale = x.scale ∧
      x'.Over ctx.chain (min x.level y.level) ∧ y'.Over ctx.chain (min x.level y.level) := by
  obtain ⟨x', hx', hox, hid, hscale⟩ := hctx.exists_lowered? hx (min_le_left x.level y.level)
  obtain ⟨y', hy', hoy, -⟩ := hctx.exists_lowered? hy (min_le_right x.level y.level)
  refine ⟨x', y', ?_, hid, hscale, hox, hoy⟩
  simp only [levelled, requireOwn_of_eq hx.contextId_eq, requireOwn_of_eq hy.contextId_eq, ok_bind,
    h, Bool.false_eq_true, if_false, hx', hy', liftM_ok, pure_eq_ok]

/-- Two summands are brought to a common level. -/
theorem delivers_levelled (hctx : ctx.Working) (hx : x.Genuine ctx) (hy : y.Genuine ctx) :
    (ctx.levelled x y).Delivers fun p => ∃ level ≤ ctx.topLevel, p.1.contextId = ctx.id ∧
      p.1.Over ctx.chain level ∧ p.2.Over ctx.chain level := by
  by_cases hidx : x.contextId = ctx.id
  swap
  · rw [levelled, requireOwn_of_ne hidx]
    exact Result.delivers_fail _
  by_cases hidy : y.contextId = ctx.id
  swap
  · rw [levelled, requireOwn_of_eq hidx, ok_bind, requireOwn_of_ne hidy]
    exact Result.delivers_fail _
  -- Operands of the context are brought to one level, unless their scales differ.
  rcases hdiffer : scalesDiffer x.scale y.scale with _ | _
  · obtain ⟨x', y', hlevelled, hid, -, hox, hoy⟩ :=
      hctx.exists_levelled (hx hidx) (hy hidy) hdiffer
    have hle : min x.level y.level ≤ ctx.topLevel := (min_le_left _ _).trans (hx hidx).level_le
    rw [hlevelled]
    exact Result.delivers_ok ⟨_, hle, hid, hox, hoy⟩
  · rw [levelled_of_scalesDiffer hidx hidy hdiffer]
    exact Result.delivers_fail _

/-! ## Fresh ciphertexts -/

/-- The ciphertext of an encoding and the draws of an encryption. Under a secret it carries the
product of what the public key hides with `u`, the encoding and the errors. -/
theorem Working.exists_encryptWith? (hctx : ctx.Working) {m u e0 e1 : ResiduePoly}
    (hm : m.Over (ctx.chain.lower ctx.topLevel) .transformed)
    (hu : u.Over (ctx.chain.lower ctx.topLevel) .transformed)
    (he0 : e0.Over (ctx.chain.lower ctx.topLevel) .transformed)
    (he1 : e1.Over (ctx.chain.lower ctx.topLevel) .transformed) :
    ∃ c, ctx.encryptWith? m u e0 e1 = .ok c ∧ c.Valid ctx ∧ c.level = ctx.topLevel ∧
      c.scale = ctx.scale ∧ ∀ S i t, (ctx.chain.lower ctx.topLevel)[i]? = some t →
        c.phase S i t = MaskedPair.phase ctx.publicKey S i t * u.image i t + e0.image i t +
          m.image i t + e1.image i t * t.ofInt S := by
  have hs : ∀ t ∈ ctx.chain.lower ctx.topLevel, t.Sound := fun _ ht =>
    hctx.sound.sound_of_mem_lower ht
  obtain ⟨bu, hbu, hobu, hibu⟩ := ResiduePoly.exists_mul? hs hctx.publicKey.b hu
  obtain ⟨noisy, hnoisy, honoisy, hinoisy⟩ := ResiduePoly.exists_add? hs hobu he0
  obtain ⟨c0, hc0, hoc0, hic0⟩ := ResiduePoly.exists_add? hs honoisy hm
  obtain ⟨au, hau, hoau, hiau⟩ := ResiduePoly.exists_mul? hs hctx.publicKey.a hu
  obtain ⟨c1, hc1, hoc1, hic1⟩ := ResiduePoly.exists_add? hs hoau he1
  have hover : Ciphertext.Over ⟨c0, c1, ctx.scale, ctx.id⟩ ctx.chain ctx.topLevel := ⟨hoc0, hoc1⟩
  refine ⟨{ c0, c1, scale := ctx.scale, contextId := ctx.id }, ?_,
    hctx.valid rfl (le_refl _) hover, level_eq hctx.sound (le_refl _) hover, rfl, ?_⟩
  · simp only [encryptWith?, hbu, hnoisy, hc0, hau, hc1, ok_bind, pure_eq_ok]
  · intro S i t ht
    rw [Ciphertext.phase, MaskedPair.phase, (hic0 i t ht).2, (hinoisy i t ht).2, hibu i t ht,
      (hic1 i t ht).2, hiau i t ht]
    ring

/-- A scalar is encoded over the moduli, or it is out of range. -/
theorem delivers_encode {moduli : List RootTable} (hm : ∀ t ∈ moduli, t.Sound) (value scale : Float)
    (lowest : UInt64) :
    (Encoding.encode value scale moduli lowest).Delivers fun m => m.Over moduli .transformed := by
  rw [Encoding.encode]
  split
  · exact Result.delivers_ok (ResiduePoly.over_constant hm _)
  · exact Result.delivers_fail _

/-- Encryption of a scalar. -/
theorem delivers_encrypt {σ : Type} {sampler : Sampler σ} (hsampler : sampler.Lawful)
    (hctx : ctx.Working) (value : Float) :
    (encrypt sampler ctx value).Delivers fun c => c.Valid ctx := by
  have hc := hctx.sound
  have hs : ∀ t ∈ ctx.chain.lower ctx.topLevel, t.Sound := fun _ ht => hc.sound_of_mem_lower ht
  have hn : ∀ t ∈ ctx.chain.lower ctx.topLevel, t.degree = ctx.chain.degree := fun _ ht =>
    hc.degree_of_mem_lower ht
  have hcount : Sampler.addressable ctx.chain.degree :=
    Sampler.addressable_of_le (hctx.shaped.chain_degree.trans_le hctx.shaped.degree_le)
  have hgaussian := Drawing.delivers_drawGaussian (ε := SchemeError) hsampler hcount
    hctx.errorStd_pos
  rw [encrypt]
  refine (Drawing.delivers_liftM (delivers_encode hs value _ _)).bind fun m hm => ?_
  refine (Drawing.delivers_drawTernary hsampler hcount hctx.weight_le).bind fun us hus => ?_
  refine hgaussian.bind fun es0 hes0 => ?_
  refine hgaussian.bind fun es1 hes1 => ?_
  -- What was drawn has a transformed form over the primes of the top level.
  obtain ⟨u, hu, hou, -⟩ :=
    ResiduePoly.exists_ofSignedTransformed? hs hn hc.lower_ne_nil hus
  obtain ⟨e0, he0, hoe0, -⟩ :=
    ResiduePoly.exists_ofSignedTransformed? hs hn hc.lower_ne_nil hes0
  obtain ⟨e1, he1, hoe1, -⟩ :=
    ResiduePoly.exists_ofSignedTransformed? hs hn hc.lower_ne_nil hes1
  obtain ⟨c, hc, hvalid, -⟩ := hctx.exists_encryptWith? hm hou hoe0 hoe1
  refine Drawing.delivers_liftM_bind hu ?_
  refine Drawing.delivers_liftM_bind he0 ?_
  refine Drawing.delivers_liftM_bind he1 ?_
  exact Drawing.delivers_liftM_fault hc hvalid

/-- Restoring bytes, whatever they are. -/
theorem delivers_ofBytes (hctx : ctx.Working) (bytes : List UInt8) :
    (ctx.ofBytes bytes).Delivers fun c => c.Valid ctx := by
  -- Everything that can be wrong with bytes is an error of the scheme.
  have hreword {α : Type} {x : Except WireError α} {P : α → Prop} (h : ∀ a, x = .ok a → P a) :
      Result.Delivers (x.mapError ofWireError) P := by
    cases x with
    | ok a => exact Result.delivers_ok (h a rfl)
    | error e => exact Result.delivers_fail (SchemeError.serialization e.message)
  have hpoly {rows : List (List UInt64)} {level : ℕ} {a : ResiduePoly}
      (h : wirePoly (ctx.chain.lower level) rows = .ok a) :
      a.Over (ctx.chain.lower level) .transformed := by
    rw [wirePoly] at h
    split at h
    · rename_i a' ha
      rw [← Except.ok.inj h]
      exact ResiduePoly.over_of_ofResidues? (fun _ ht => hctx.shaped.degree_of_mem_lower ht) ha
    · cases h
  rw [ofBytes]
  refine (hreword fun _ _ => trivial).bind (P := fun _ => True) fun form _ => ?_
  split
  · exact Result.delivers_fail _
  refine hreword fun c hc => ?_
  simp only [ofWire, bind_eq_ok_iff] at hc
  obtain ⟨moduli, hmoduli, hc⟩ := hc
  split at hc
  swap
  · cases hc
  simp only [bind_eq_ok_iff, pure_eq_ok, Except.ok.injEq] at hc
  obtain ⟨c0, hc0, c1, hc1, rfl⟩ := hc
  obtain ⟨level, hl, rfl⟩ := exists_level_of_wireModuli hmoduli
  exact hctx.valid rfl hl ⟨hpoly hc0, hpoly hc1⟩

/-! ## Sums and products -/

/-- Two ciphertexts that are brought to a common level and combined, component by component. -/
def combined (ctx : Context) (f : ResiduePoly → ResiduePoly → Except Fault ResiduePoly)
    (x y : Ciphertext) : Result SchemeError Ciphertext := do
  let (x, y) ← ctx.levelled x y
  return { x with c0 := ← f x.c0 y.c0, c1 := ← f x.c1 y.c1 }

theorem add_eq_combined : ctx.add x y = ctx.combined ResiduePoly.add? x y := rfl

theorem sub_eq_combined : ctx.sub x y = ctx.combined ResiduePoly.sub? x y := rfl

/-- The operation succeeds on components of one level. -/
def Combines (ctx : Context) (f : ResiduePoly → ResiduePoly → Except Fault ResiduePoly) : Prop :=
  ∀ level a b, a.Over (ctx.chain.lower level) .transformed →
    b.Over (ctx.chain.lower level) .transformed →
    ∃ c, f a b = .ok c ∧ c.Over (ctx.chain.lower level) .transformed

theorem Working.combines_add? (hctx : ctx.Working) : ctx.Combines ResiduePoly.add? := by
  intro level a b ha hb
  obtain ⟨c, hc, hoc, -⟩ :=
    ResiduePoly.exists_add? (fun _ ht => hctx.sound.sound_of_mem_lower ht) ha hb
  exact ⟨c, hc, hoc⟩

theorem Working.combines_sub? (hctx : ctx.Working) : ctx.Combines ResiduePoly.sub? := by
  intro level a b ha hb
  obtain ⟨c, hc, hoc, -⟩ :=
    ResiduePoly.exists_sub? (fun _ ht => hctx.sound.sound_of_mem_lower ht) ha hb
  exact ⟨c, hc, hoc⟩

section Combined

variable {f : ResiduePoly → ResiduePoly → Except Fault ResiduePoly}

theorem delivers_combined (hctx : ctx.Working) (hf : ctx.Combines f) (hx : x.Genuine ctx)
    (hy : y.Genuine ctx) : (ctx.combined f x y).Delivers fun c => c.Valid ctx := by
  refine (delivers_levelled hctx hx hy).bind ?_
  rintro ⟨x', y'⟩ ⟨level, hl, hid, hox, hoy⟩
  obtain ⟨c0, hc0, hoc0⟩ := hf level _ _ hox.c0 hoy.c0
  obtain ⟨c1, hc1, hoc1⟩ := hf level _ _ hox.c1 hoy.c1
  refine Result.delivers_liftM_bind hc0 ?_
  refine Result.delivers_liftM_bind hc1 ?_
  exact Result.delivers_ok (hctx.valid hid hl ⟨hoc0, hoc1⟩)

/-- Operands of nearly the same scale are combined at the lower level and at the left scale. -/
theorem Working.exists_combined (hctx : ctx.Working) (hf : ctx.Combines f) (hx : x.Valid ctx)
    (hy : y.Valid ctx) (hclose : scalesDiffer x.scale y.scale = false) :
    ∃ c, ctx.combined f x y = .ok c ∧ c.Valid ctx ∧ c.scale = x.scale ∧
      c.level = min x.level y.level := by
  obtain ⟨x', y', hlevelled, hid, hscale, hox, hoy⟩ := hctx.exists_levelled hx hy hclose
  obtain ⟨c0, hc0, hoc0⟩ := hf _ _ _ hox.c0 hoy.c0
  obtain ⟨c1, hc1, hoc1⟩ := hf _ _ _ hox.c1 hoy.c1
  have hl : min x.level y.level ≤ ctx.topLevel := (min_le_left _ _).trans hx.level_le
  have hover : Ciphertext.Over { x' with c0, c1 } ctx.chain (min x.level y.level) := ⟨hoc0, hoc1⟩
  refine ⟨{ x' with c0, c1 }, ?_, hctx.valid hid hl hover, hscale, level_eq hctx.sound hl hover⟩
  simp only [combined, hlevelled, ok_bind, hc0, hc1, liftM_ok, pure_eq_ok]

/-- Operands whose scales are too far apart are not combined. -/
theorem combined_of_scalesDiffer (hx : x.contextId = ctx.id) (hy : y.contextId = ctx.id)
    (h : scalesDiffer x.scale y.scale = true) :
    ctx.combined f x y = .fail (.scaleMismatch x.scale y.scale) := by
  rw [combined, levelled_of_scalesDiffer hx hy h]
  rfl

end Combined

theorem delivers_add (hctx : ctx.Working) (hx : x.Genuine ctx) (hy : y.Genuine ctx) :
    (ctx.add x y).Delivers fun c => c.Valid ctx := by
  rw [add_eq_combined]
  exact delivers_combined hctx hctx.combines_add? hx hy

theorem delivers_sub (hctx : ctx.Working) (hx : x.Genuine ctx) (hy : y.Genuine ctx) :
    (ctx.sub x y).Delivers fun c => c.Valid ctx := by
  rw [sub_eq_combined]
  exact delivers_combined hctx hctx.combines_sub? hx hy

/-- The product of valid ciphertexts above the lowest level. -/
theorem Working.exists_mul (hctx : ctx.Working) (hx : x.Valid ctx) (hy : y.Valid ctx)
    (hpos : 0 < min x.level y.level) :
    ∃ c, ctx.mul x y = .ok c ∧ c.Valid ctx ∧ c.level = min x.level y.level - 1 ∧
      c.scale = x.scale * y.scale / (ctx.primes.getD (min x.level y.level) 0).toFloat := by
  obtain ⟨cs, e, hkeyed⟩ := hctx.keyed
  obtain ⟨level, hlevel⟩ := Nat.exists_eq_add_of_lt hpos
  rw [Nat.zero_add] at hlevel
  have htop : level + 1 ≤ ctx.topLevel := hlevel ▸ (min_le_left _ _).trans hx.level_le
  have hlt : level + 1 < ctx.chain.tables.length := by
    have := hctx.shaped.topLevel_add_two
    omega
  have hlast := List.getElem?_eq_getElem hlt
  -- The product is relinearized and rescaled, which takes one level.
  obtain ⟨out, _, _, hout, hid, hscale, hover, -⟩ := Context.exists_mul hkeyed hx.level_le
    hy.level_le hx.contextId_eq hy.contextId_eq hx.kept hy.kept hlevel hlast
  have hprime : ctx.primes.getD (level + 1) 0 = _ := ModulusChain.Sound.prime_eq_getD hlast
  have hle : level ≤ ctx.topLevel := Nat.le_of_succ_le htop
  refine ⟨out, hout, hctx.valid hid hle hover, ?_, by rw [hscale, hlevel, hprime]⟩
  rw [level_eq hctx.sound hle hover, hlevel, Nat.add_sub_cancel]

/-- The prime that is divided out at a level is that of the table there. -/
theorem delivers_rescalingPrime (hctx : ctx.Working) (hl : level ≤ ctx.topLevel) :
    (ctx.rescalingPrime level).Delivers fun q => 0 < level ∧ ∃ last,
      ctx.chain.tables[level]? = some last ∧ q = last.prime := by
  rw [rescalingPrime]
  split
  · exact Result.delivers_fail _
  rename_i hne
  have hlt : level < ctx.chain.tables.length := by
    have htop := hctx.shaped.topLevel_add_two
    omega
  obtain ⟨last, hlast⟩ : ∃ last, ctx.chain.tables[level]? = some last :=
    ⟨_, List.getElem?_eq_getElem hlt⟩
  have hprime : ctx.primes[level]? = some last.prime := by
    rw [primes, ModulusChain.primes, List.getElem?_map, hlast, Option.map_some]
  rw [hprime]
  exact Result.delivers_ok ⟨Nat.pos_of_ne_zero hne, _, hlast, rfl⟩

/-- The product spends a level, so it fails at the lowest one. -/
theorem delivers_mul (hctx : ctx.Working) (hx : x.Genuine ctx) (hy : y.Genuine ctx) :
    (ctx.mul x y).Delivers fun c => c.Valid ctx := by
  by_cases hidx : x.contextId = ctx.id
  swap
  · rw [mul, requireOwn_of_ne hidx]
    exact Result.delivers_fail _
  by_cases hidy : y.contextId = ctx.id
  swap
  · rw [mul, requireOwn_of_eq hidx, ok_bind, requireOwn_of_ne hidy]
    exact Result.delivers_fail _
  -- At level zero there is no prime to rescale by.
  rcases (min x.level y.level).eq_zero_or_pos with hzero | hpos
  · rw [mul, requireOwn_of_eq hidx, ok_bind, requireOwn_of_eq hidy, ok_bind, hzero]
    exact Result.delivers_fail (SchemeError.levelExhausted ctx.topLevel)
  · obtain ⟨out, hout, hvalid, -⟩ := hctx.exists_mul (hx hidx) (hy hidy) hpos
    rw [hout]
    exact Result.delivers_ok hvalid

theorem delivers_mulPlain (hctx : ctx.Working) (hc : c.Genuine ctx) (factor : Float) :
    (ctx.mulPlain c factor).Delivers fun c => c.Valid ctx := by
  rw [mulPlain]
  refine (delivers_requireOwn hc).bind fun _ hc => ?_
  refine (delivers_rescalingPrime hctx hc.level_le).bind ?_
  rintro q ⟨hpos, last, hlast, rfl⟩
  dsimp only
  split
  · exact Result.delivers_fail _
  · rename_i k _
    obtain ⟨level, hlevel⟩ := Nat.exists_eq_add_of_lt hpos
    rw [Nat.zero_add] at hlevel
    have hs : ∀ t ∈ ctx.chain.lower c.level, t.Sound := fun _ ht =>
      hctx.sound.sound_of_mem_lower ht
    have htop := hc.level_le
    have hover := hc.kept
    rw [hlevel] at hs hlast hover
    -- Nothing is said about what the division leaves, so any secret will do, and zero is one.
    have hscaled : Ciphertext.Over
        { c with
          c0 := c.c0.scale k, c1 := c.c1.scale k
          scale := if k = 0 then c.scale
            else c.scale * Float.ofInt k / (last.prime.toFloat * factor) }
        ctx.chain (level + 1) :=
      ⟨(ResiduePoly.over_scale hs k hover.c0).1, (ResiduePoly.over_scale hs k hover.c1).1⟩
    obtain ⟨out, _, hout, hoout, -, hid, -⟩ := exists_rescaled? hctx.sound hscaled hlast (S := 0)
      (w := 0) (by rw [degree_zero]; exact WithBot.bot_lt_coe _) (by simp)
    exact Result.delivers_liftM hout (hctx.valid (hid.trans hc.contextId_eq) (by omega) hoout)

theorem delivers_automorphism (hctx : ctx.Working) (hc : c.Genuine ctx) (element : ℕ) :
    (ctx.automorphism c element).Delivers fun c => c.Valid ctx := by
  rw [automorphism]
  refine (delivers_requireOwn hc).bind fun _ hc => ?_
  split
  · exact Result.delivers_fail _
  · rename_i key hkey
    obtain ⟨keys, hkeys, hget⟩ := Option.bind_eq_some_iff.1 hkey
    obtain ⟨S, husable⟩ := hctx.galoisKeys keys hkeys
    obtain ⟨hodd, hlt, target, e, hhides⟩ := husable.of_get? hget
    have hs : ∀ t ∈ ctx.chain.lower c.level, t.Sound := fun _ ht =>
      hctx.sound.sound_of_mem_lower ht
    have hn : ∀ t ∈ ctx.chain.lower c.level, t.degree = ctx.chain.degree := fun _ ht =>
      hctx.sound.degree_of_mem_lower ht
    obtain ⟨c0, hc0, hoc0, -⟩ := ResiduePoly.exists_automorphism? hs hn hctx.sound.lower_ne_nil
      hc.kept.c0 hodd hlt
    obtain ⟨c1, hc1, hoc1, -⟩ := ResiduePoly.exists_automorphism? hs hn hctx.sound.lower_ne_nil
      hc.kept.c1 hodd hlt
    -- The key takes the image of the secret back to the secret.
    obtain ⟨_, switched, _, -, -, hswitched, hos, -⟩ :=
      SwitchingKey.exists_switch? hctx.sound hc.level_le hhides hoc1
    obtain ⟨sum, hsum, hosum, -⟩ := ResiduePoly.exists_add? hs hoc0 hos.b
    refine Result.delivers_liftM_bind hc0 ?_
    refine Result.delivers_liftM_bind hc1 ?_
    refine Result.delivers_liftM_bind hswitched ?_
    refine Result.delivers_liftM_bind hsum ?_
    exact Result.delivers_ok (hctx.valid rfl hc.level_le ⟨hosum, hos.a⟩)

end Context

end EncryptedArithmetic

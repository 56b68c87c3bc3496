import EncryptedArithmetic.Proofs.Ring.Representation
import EncryptedArithmetic.Proofs.Scheme.Operations

/-!
# Transparent ciphertexts

A constant with nothing under the secret is a ciphertext that anyone can write down. To multiply by
it is to multiply by the constant: the component for the square of the secret is zero, and switching
zero leaves zero whatever the key holds. So a product of ciphertexts and a product with a plain
factor divide the same polynomials.

## Main definitions

* `Context.transparent`: the ciphertext of a constant that needs no key.
* `SwitchingKey.Over`: all that is asked of a key that has nothing to switch.

## Main results

* `SwitchingKey.switch?_zero`: switching zero leaves zero, under every key over the chain.
* `tensor?_transparent`: the tensor product is the multiple by the constant, in either order.
* `mul_transparent_of_generate`: both products and the product with a plain factor.
-/

namespace EncryptedArithmetic

open Polynomial EncryptedArithmetic.Modular

/-! ## The zero polynomial -/

namespace ResiduePoly

variable {moduli : List RootTable} {form : Form} {a b : ResiduePoly}

/-- Only the zero polynomial has the image zero everywhere. -/
theorem eq_zero_of_image_eq_zero (hm : ∀ t ∈ moduli, t.Sound) (ha : a.Over moduli form)
    (h : ∀ i t, moduli[i]? = some t → a.image i t = 0) : a = zero moduli form := by
  obtain ⟨hover, hzero⟩ := over_zero hm form
  exact eq_of_image_eq hm ha hover fun i t ht => (h i t ht).trans (hzero i t ht).symm

theorem toCoefficient?_zero (hm : ∀ t ∈ moduli, t.Sound) (form : Form) :
    (zero moduli form).toCoefficient? = .ok (zero moduli .coefficient) := by
  obtain ⟨hover, hzero⟩ := over_zero hm form
  obtain ⟨b, hb, hob, hib⟩ := exists_toCoefficient? hm hover
  rw [hb, eq_zero_of_image_eq_zero hm hob fun i t ht => (hib i t ht).trans (hzero i t ht)]

theorem add?_zero (hm : ∀ t ∈ moduli, t.Sound) (ha : a.Over moduli form) :
    a.add? (zero moduli form) = .ok a := by
  obtain ⟨hover, hzero⟩ := over_zero hm form
  obtain ⟨b, hb, hob, hib⟩ := exists_add? hm ha hover
  rw [hb, eq_of_image_eq hm hob ha fun i t ht => by rw [(hib i t ht).2, hzero i t ht, add_zero]]

theorem zero_add? (hm : ∀ t ∈ moduli, t.Sound) (ha : a.Over moduli form) :
    (zero moduli form).add? a = .ok a := by
  obtain ⟨hover, hzero⟩ := over_zero hm form
  obtain ⟨b, hb, hob, hib⟩ := exists_add? hm hover ha
  rw [hb, eq_of_image_eq hm hob ha fun i t ht => by rw [(hib i t ht).2, hzero i t ht, zero_add]]

theorem mul?_zero (hm : ∀ t ∈ moduli, t.Sound) (ha : a.Over moduli .transformed) :
    a.mul? (zero moduli .transformed) = .ok (zero moduli .transformed) := by
  obtain ⟨hover, hzero⟩ := over_zero hm .transformed
  obtain ⟨b, hb, hob, hib⟩ := exists_mul? hm ha hover
  rw [hb, eq_zero_of_image_eq_zero hm hob fun i t ht => by rw [hib i t ht, hzero i t ht, mul_zero]]

theorem zero_mul? (hm : ∀ t ∈ moduli, t.Sound) (ha : a.Over moduli .transformed) :
    (zero moduli .transformed).mul? a = .ok (zero moduli .transformed) := by
  obtain ⟨hover, hzero⟩ := over_zero hm .transformed
  obtain ⟨b, hb, hob, hib⟩ := exists_mul? hm hover ha
  rw [hb, eq_zero_of_image_eq_zero hm hob fun i t ht => by rw [hib i t ht, hzero i t ht, zero_mul]]

/-- A polynomial that has the image zero everywhere leaves zero when it is divided. -/
theorem divideByLast?_of_image_eq_zero {last : RootTable} (hne : moduli ≠ [])
    (hm : ∀ t ∈ moduli, t.Sound) (hlast : last.Sound) (hn : ∀ t ∈ moduli, t.degree = last.degree)
    (hdistinct : ∀ t ∈ moduli, t.prime ≠ last.prime) (ha : a.Over (moduli ++ [last]) form)
    (h : ∀ i t, (moduli ++ [last])[i]? = some t → a.image i t = 0) :
    a.divideByLast? = .ok (zero moduli form) := by
  obtain ⟨b, hb, hob, G, -, hib, hnear⟩ := exists_nearest_divideByLast? (F := 0) hne hm hlast hn
    hdistinct ha fun i t ht => by rw [h i t ht, map_zero]
  -- A multiple of the prime that is nearer to zero than the prime is zero.
  have hG : G = 0 := by
    ext k
    have hlt := hnear k
    rw [zero_modByMonic, coeff_zero, zero_sub, abs_neg, abs_mul, Nat.abs_cast] at hlt
    have hpos : (0 : ℤ) < last.prime.toNat := by exact_mod_cast hlast.prime.pos
    rw [coeff_zero, ← abs_nonpos_iff]
    by_contra hne
    have hone : 1 ≤ |G.coeff k| := by omega
    nlinarith
  rw [hb, eq_zero_of_image_eq_zero hm hob fun i t ht => by rw [hib i t ht, hG, map_zero]]

/-- The product with a constant is the multiple by it. -/
theorem mul?_constant (hm : ∀ t ∈ moduli, t.Sound) (k : ℤ) (ha : a.Over moduli .transformed) :
    a.mul? (constant k moduli) = .ok (a.scale k) ∧
      (constant k moduli).mul? a = .ok (a.scale k) := by
  have hconstant := over_constant hm k
  obtain ⟨hover, hscale⟩ := over_scale hm k ha
  have himage {i : ℕ} {t : RootTable} (ht : moduli[i]? = some t) :
      (constant k moduli).image i t = k := by
    rw [image_constant hm k ht, eq_intCast C, map_intCast]
  obtain ⟨b, hb, hob, hib⟩ := exists_mul? hm ha hconstant
  obtain ⟨c, hc, hoc, hic⟩ := exists_mul? hm hconstant ha
  constructor
  · rw [hb, eq_of_image_eq hm hob hover fun i t ht => by
      rw [hib i t ht, himage ht, (hscale i t ht).2, mul_comm]]
  · rw [hc, eq_of_image_eq hm hoc hover fun i t ht => by
      rw [hic i t ht, himage ht, (hscale i t ht).2]]

/-- The leading channels of a polynomial that is computed from its tables. -/
theorem leading?_ofTables {f : RootTable → List UInt64} {count : ℕ} (hpos : 1 ≤ count)
    (hle : count ≤ moduli.length) :
    (ofTables form moduli f).leading? count = .ok (ofTables form (moduli.take count) f) := by
  rw [leading?, ofTables, if_pos ⟨hpos, by rwa [List.length_map]⟩, ofTables, List.map_take]

end ResiduePoly

/-! ## Switching zero -/

/-- A pair under whose phases there is nothing, whatever the secret, is the zero pair. -/
theorem MaskedPair.eq_zero_of_phase_eq_zero {moduli : List RootTable} {m : MaskedPair}
    (hm : ∀ t ∈ moduli, t.Sound) (hover : m.Over moduli)
    (h : ∀ (S : ℤ[X]) i t, moduli[i]? = some t → m.phase S i t = 0) :
    m = ⟨.zero moduli .transformed, .zero moduli .transformed⟩ := by
  -- Under the secret zero the first component is left, under the secret one their sum.
  have hb {i : ℕ} {t : RootTable} (ht : moduli[i]? = some t) : m.b.image i t = 0 := by
    have hphase := h 0 i t ht
    rwa [phase, map_zero, mul_zero, add_zero] at hphase
  have ha {i : ℕ} {t : RootTable} (ht : moduli[i]? = some t) : m.a.image i t = 0 := by
    have hphase := h 1 i t ht
    rwa [phase, map_one, mul_one, hb ht, zero_add] at hphase
  obtain ⟨b, a⟩ := m
  congr
  · exact ResiduePoly.eq_zero_of_image_eq_zero hm hover.b fun _ _ ht => hb ht
  · exact ResiduePoly.eq_zero_of_image_eq_zero hm hover.a fun _ _ ht => ha ht

namespace SwitchingKey

variable {chain : ModulusChain} {level : ℕ} {key : SwitchingKey}

/-- Every pair of the key is kept over the whole chain. Nothing is said of what the pairs hide, or
of how many there are. -/
def Over (key : SwitchingKey) (chain : ModulusChain) : Prop :=
  ∀ m ∈ key.digits, m.Over chain.tables

/-- The sum of the pairs stays zero while the digits are. -/
theorem foldlM_accumulate?_zero (hc : chain.Sound) (hl : level ≤ chain.topLevel)
    {entries : List (MaskedPair × Channel)}
    (hentries : ∀ e ∈ entries, e.1.Over chain.tables ∧ e.2.residues.length = chain.degree ∧
      e.2.table.centered e.2.residues = 0) :
    entries.foldlM (accumulate? (chain.extended level) (chain.extendedPositions level))
        ⟨.zero (chain.extended level) .transformed, .zero (chain.extended level) .transformed⟩ =
      .ok ⟨.zero (chain.extended level) .transformed,
        .zero (chain.extended level) .transformed⟩ := by
  have hm : ∀ t ∈ chain.extended level, t.Sound := fun _ ht => hc.sound_of_mem_extended ht
  obtain ⟨hzero, hizero⟩ := ResiduePoly.over_zero hm .transformed
  have hzeros : MaskedPair.Over ⟨.zero (chain.extended level) .transformed,
      .zero (chain.extended level) .transformed⟩ (chain.extended level) := ⟨hzero, hzero⟩
  have hrun := exists_foldlM_accumulate? hc hl hzeros fun e he =>
    ⟨(hentries e he).1, (hentries e he).2.1⟩
  obtain ⟨out, hout, hoo, -⟩ := hrun 0
  rw [hout, MaskedPair.eq_zero_of_phase_eq_zero hm hoo]
  intro S i t ht
  obtain ⟨out', hout', -, hphase⟩ := hrun S
  obtain rfl := Except.ok.inj (hout.symm.trans hout')
  obtain ⟨p, hp, -⟩ := hc.exists_position hl ht
  -- The run starts with the phase zero, and every digit is a factor zero.
  rw [hphase i p t hp ht, MaskedPair.phase, hizero i t ht, zero_mul, zero_add, zero_add]
  refine List.sum_eq_zero ?_
  simp only [List.mem_map]
  rintro z ⟨e, he, rfl⟩
  rw [(hentries e he).2.2, map_zero, mul_zero]

/-- Zero divided by the special prime is zero over the primes of the level. -/
theorem divideByLast?_zero (hc : chain.Sound) (hl : level ≤ chain.topLevel) :
    (ResiduePoly.zero (chain.extended level) .transformed).divideByLast? =
      .ok (.zero (chain.lower level) .transformed) := by
  have hm : ∀ t ∈ chain.lower level, t.Sound := fun _ ht => hc.sound_of_mem_lower ht
  have hme : ∀ t ∈ chain.extended level, t.Sound := fun _ ht => hc.sound_of_mem_extended ht
  obtain ⟨last, hlast, -, hextended, -⟩ := hc.exists_extended hl
  have hmem := List.mem_of_getElem? hlast
  have htop := hc.topLevel_add_two
  obtain ⟨hzero, hizero⟩ := ResiduePoly.over_zero hme .transformed
  rw [hextended] at hzero hizero ⊢
  refine ResiduePoly.divideByLast?_of_image_eq_zero hc.lower_ne_nil hm (hc.table_sound last hmem)
    ?_ ?_ hzero hizero
  · exact fun t ht => (hc.degree_of_mem_lower ht).trans (hc.table_degree last hmem).symm
  · exact fun t ht => hc.prime_ne_of_mem_lower hlast (by omega) ht

/-- Switching zero leaves zero in both components, whatever the key holds. -/
theorem switch?_zero (hc : chain.Sound) (hl : level ≤ chain.topLevel) (hkey : key.Over chain) :
    key.switch? chain (.zero (chain.lower level) .transformed) =
      .ok ⟨.zero (chain.lower level) .transformed, .zero (chain.lower level) .transformed⟩ := by
  have hm : ∀ t ∈ chain.lower level, t.Sound := fun _ ht => hc.sound_of_mem_lower ht
  have hlevel :
      (ResiduePoly.zero (chain.lower level) .transformed).channels.length - 1 = level := by
    rw [(ResiduePoly.over_zero hm .transformed).1.length_eq, hc.length_lower hl,
      Nat.add_sub_cancel]
  -- All digits are zero, so every multiple of a key that is added is zero.
  have hentries : ∀ e ∈ (key.digits.take (level + 1)).zip
      (ResiduePoly.zero (chain.lower level) .coefficient).channels,
      e.1.Over chain.tables ∧ e.2.residues.length = chain.degree ∧
        e.2.table.centered e.2.residues = 0 := by
    rintro ⟨m, c⟩ he
    obtain ⟨hmem, hchannel⟩ := List.of_mem_zip he
    obtain ⟨t, ht, rfl⟩ := List.mem_map.1 hchannel
    refine ⟨hkey m (List.mem_of_mem_take hmem), ?_, ?_⟩
    · rw [List.length_replicate, hc.degree_of_mem_lower ht]
    · rw [RootTable.centered, List.map_replicate]
      refine ofCoefficients_eq_zero fun x hx => ?_
      rw [List.eq_of_mem_replicate hx]
      simp [centeredResidue]
  rw [switch?, hlevel]
  simp only [ResiduePoly.toCoefficient?_zero hm, foldlM_accumulate?_zero hc hl hentries,
    divideByLast?_zero hc hl, ok_bind, pure_eq_ok]

end SwitchingKey

namespace Context

variable {ctx : Context} {x y : Ciphertext} {level level' : ℕ} {k : ℤ}

/-- The ciphertext that anyone can make of a constant: no key is needed for it, and it hides
nothing. -/
def transparent (ctx : Context) (k : ℤ) (level : ℕ) (scale : Float) : Ciphertext where
  c0 := .constant k (ctx.chain.lower level)
  c1 := .zero (ctx.chain.lower level) .transformed
  scale := scale
  contextId := ctx.id

theorem over_transparent (hc : ctx.chain.Sound) (k : ℤ) (level : ℕ) (scale : Float) :
    (ctx.transparent k level scale).Over ctx.chain level :=
  ⟨ResiduePoly.over_constant (fun _ ht => hc.sound_of_mem_lower ht) k,
    (ResiduePoly.over_zero (fun _ ht => hc.sound_of_mem_lower ht) .transformed).1⟩

/-- At a lower level a transparent ciphertext is the transparent one of that level. -/
theorem lowered?_transparent (hc : ctx.chain.Sound) (hle : level ≤ level')
    (hl : level' ≤ ctx.chain.topLevel) (k : ℤ) (scale : Float) :
    lowered? (ctx.transparent k level' scale) level = .ok (ctx.transparent k level scale) := by
  have hlevel := level_eq hc hl (over_transparent hc k level' scale)
  rcases eq_or_ne level' level with rfl | hne
  · rw [lowered?, if_pos hlevel, pure_eq_ok]
  have hlength : level + 1 ≤ (ctx.chain.lower level').length := by
    rw [hc.length_lower hl]
    omega
  have htake : (ctx.chain.lower level').take (level + 1) = ctx.chain.lower level := by
    rw [ModulusChain.lower, ModulusChain.lower, List.take_take, min_eq_left (by omega)]
  rw [lowered?, if_neg (hlevel.trans_ne hne), transparent, ResiduePoly.constant, ResiduePoly.zero,
    ResiduePoly.leading?_ofTables (by omega) hlength,
    ResiduePoly.leading?_ofTables (by omega) hlength, htake]
  rfl

/-- The tensor product with a transparent ciphertext is the multiple by its constant, in either
order: nothing is left for the square of the secret. -/
theorem tensor?_transparent (hc : ctx.chain.Sound) (hx : x.Over ctx.chain level) (k : ℤ)
    (scale : Float) :
    tensor? x (ctx.transparent k level scale) =
        .ok (x.c0.scale k, x.c1.scale k, .zero (ctx.chain.lower level) .transformed) ∧
      tensor? (ctx.transparent k level scale) x =
        .ok (x.c0.scale k, x.c1.scale k, .zero (ctx.chain.lower level) .transformed) := by
  have hm : ∀ t ∈ ctx.chain.lower level, t.Sound := fun _ ht => hc.sound_of_mem_lower ht
  obtain ⟨hleft0, hright0⟩ := ResiduePoly.mul?_constant hm k hx.c0
  obtain ⟨hleft1, hright1⟩ := ResiduePoly.mul?_constant hm k hx.c1
  have hscaled := (ResiduePoly.over_scale hm k hx.c1).1
  constructor
  · simp only [tensor?, transparent, hleft0, hleft1, ResiduePoly.mul?_zero hm hx.c0,
      ResiduePoly.mul?_zero hm hx.c1, ResiduePoly.zero_add? hm hscaled, ok_bind, pure_eq_ok]
  · simp only [tensor?, transparent, hright0, hright1, ResiduePoly.zero_mul? hm hx.c0,
      ResiduePoly.zero_mul? hm hx.c1, ResiduePoly.add?_zero hm hscaled, ok_bind, pure_eq_ok]

/-- A product whose tensor product has nothing for the square of the secret is that tensor product
divided by the last prime: the key has nothing to add. -/
theorem mul_of_tensor?_zero (hc : ctx.chain.Sound) (hkey : ctx.relinearizationKey.Over ctx.chain)
    (hidx : x.contextId = ctx.id) (hidy : y.contextId = ctx.id)
    (hlevel : min x.level y.level = level + 1) (htop : level + 1 ≤ ctx.chain.topLevel)
    {last : RootTable} (hlast : ctx.chain.tables[level + 1]? = some last) {x' y' : Ciphertext}
    (hx' : lowered? x (level + 1) = .ok x') (hy' : lowered? y (level + 1) = .ok y')
    {d0 d1 c0 c1 : ResiduePoly} (h0 : d0.Over (ctx.chain.lower (level + 1)) .transformed)
    (h1 : d1.Over (ctx.chain.lower (level + 1)) .transformed)
    (htensor : tensor? x' y' =
      .ok (d0, d1, .zero (ctx.chain.lower (level + 1)) .transformed))
    (hc0 : d0.divideByLast? = .ok c0) (hc1 : d1.divideByLast? = .ok c1) :
    ctx.mul x y = .ok ⟨c0, c1, x'.scale * y'.scale / last.prime.toFloat, ctx.id⟩ := by
  have hm : ∀ t ∈ ctx.chain.lower (level + 1), t.Sound := fun _ ht => hc.sound_of_mem_lower ht
  have hprime : ctx.primes[level + 1]? = some last.prime := by
    rw [primes, ModulusChain.primes, List.getElem?_map, hlast, Option.map_some]
  rw [mul, requireOwn_of_eq hidx, ok_bind, requireOwn_of_eq hidy, ok_bind, hlevel]
  simp only [rescalingPrime, Nat.succ_ne_zero, if_false, hprime, hx', hy', htensor, liftM_ok,
    ok_bind, SwitchingKey.switch?_zero hc htop hkey, ResiduePoly.add?_zero hm h0,
    ResiduePoly.add?_zero hm h1, rescaled?, hc0, hc1, pure_eq_ok]

/-- The multiple by an integer, divided by the last prime: the coefficients of any integer
polynomial behind the residues are multiplied, divided and rounded. -/
theorem exists_divided_scale (hc : ctx.chain.Sound) {last : RootTable}
    (hlast : ctx.chain.tables[level + 1]? = some last) (k : ℤ) {a : ResiduePoly}
    (ha : a.Over (ctx.chain.lower (level + 1)) .transformed) :
    ∃ b, (a.scale k).divideByLast? = .ok b ∧ b.Over (ctx.chain.lower level) .transformed ∧
      ∀ F : ℤ[X], a.Congruent F → ∃ G : ℤ[X], G.degree < ctx.chain.degree ∧ b.Congruent G ∧
        ∀ j < ctx.chain.degree, G.coeff j =
          round ((k * (F %ₘ (X ^ ctx.chain.degree + 1)).coeff j : ℚ) / last.prime.toNat) := by
  have hm : ∀ t ∈ ctx.chain.lower (level + 1), t.Sound := fun _ ht => hc.sound_of_mem_lower ht
  have hmlow : ∀ t ∈ ctx.chain.lower level, t.Sound := fun _ ht => hc.sound_of_mem_lower ht
  have hsound := hc.table_sound last (List.mem_of_getElem? hlast)
  have hdegree := hc.table_degree last (List.mem_of_getElem? hlast)
  have hn : ∀ t ∈ ctx.chain.lower level, t.degree = last.degree := fun t ht =>
    (hc.degree_of_mem_lower ht).trans hdegree.symm
  have hdistinct : ∀ t ∈ ctx.chain.lower level, t.prime ≠ last.prime := fun t ht =>
    hc.prime_ne_of_mem_lower hlast (Nat.lt_succ_self level) ht
  obtain ⟨hover, hscale⟩ := ResiduePoly.over_scale hm k ha
  -- The prime that is divided out is that of the last channel.
  rw [lower_succ hlast] at hover
  obtain ⟨b, hb, hob, -⟩ :=
    SwitchingKey.exists_divideByLast_lower? hc hlast (Nat.lt_succ_self level) hover
  refine ⟨b, hb, hob, ?_⟩
  intro F hF
  have himage : ∀ i t, (ctx.chain.lower level ++ [last])[i]? = some t →
      (a.scale k).image i t = t.ofInt (C k * F) := by
    intro i t ht
    rw [← lower_succ hlast] at ht
    rw [(hscale i t ht).2, (ha.congruent_iff hm).1 hF i t ht, map_mul, eq_intCast C, map_intCast]
  obtain ⟨b', hb', -, G, hG, hib, hnear⟩ := ResiduePoly.exists_nearest_divideByLast? hc.lower_ne_nil
    hmlow hsound hn hdistinct hover himage
  obtain rfl := Except.ok.inj (hb.symm.trans hb')
  rw [hdegree] at hG hnear
  refine ⟨G, hG, (hob.congruent_iff hmlow).2 hib, fun j _ => ?_⟩
  have hcoeff := hnear j
  rw [← smul_eq_C_mul, smul_modByMonic, coeff_smul, smul_eq_mul] at hcoeff
  rw [← ResiduePoly.round_div_eq hcoeff, Int.cast_mul]

/-- The products with a transparent ciphertext, in either order. -/
theorem mul_transparent (ctx : Context) (hc : ctx.chain.Sound)
    (hkey : ctx.relinearizationKey.Over ctx.chain) (hid : x.contextId = ctx.id)
    (hx : x.Over ctx.chain (level + 1)) (hle : level + 1 ≤ level')
    (hl : level' ≤ ctx.chain.topLevel) {last : RootTable}
    (hlast : ctx.chain.tables[level + 1]? = some last) {c0 c1 : ResiduePoly}
    (hc0 : (x.c0.scale k).divideByLast? = .ok c0) (hc1 : (x.c1.scale k).divideByLast? = .ok c1)
    (scale : Float) :
    ctx.mul x (ctx.transparent k level' scale) =
        .ok ⟨c0, c1, x.scale * scale / last.prime.toFloat, ctx.id⟩ ∧
      ctx.mul (ctx.transparent k level' scale) x =
        .ok ⟨c0, c1, scale * x.scale / last.prime.toFloat, ctx.id⟩ := by
  have hm : ∀ t ∈ ctx.chain.lower (level + 1), t.Sound := fun _ ht => hc.sound_of_mem_lower ht
  have htop : level + 1 ≤ ctx.chain.topLevel := hle.trans hl
  have hlevelx := level_eq hc htop hx
  have hlevely := level_eq hc hl (over_transparent hc k level' scale)
  have hlowered : lowered? x (level + 1) = .ok x := by rw [lowered?, if_pos hlevelx, pure_eq_ok]
  have htransparent := lowered?_transparent hc hle hl k scale
  have h0 := (ResiduePoly.over_scale hm k hx.c0).1
  have h1 := (ResiduePoly.over_scale hm k hx.c1).1
  -- Only the transparent factor has to be brought down, and its tensor product is known.
  obtain ⟨hright, hleft⟩ := tensor?_transparent hc hx k scale
  constructor
  · exact mul_of_tensor?_zero hc hkey hid rfl (by rw [hlevelx, hlevely, min_eq_left hle]) htop
      hlast hlowered htransparent h0 h1 hright hc0 hc1
  · exact mul_of_tensor?_zero hc hkey rfl hid (by rw [hlevelx, hlevely, min_eq_right hle]) htop
      hlast htransparent hlowered h0 h1 hleft hc0 hc1

/-- The product with a plain factor that is applied as the integer `k`. -/
theorem mulPlain_of_factorInteger? (hid : x.contextId = ctx.id) (hlevel : x.level = level + 1)
    {last : RootTable} (hlast : ctx.chain.tables[level + 1]? = some last) {c0 c1 : ResiduePoly}
    (hc0 : (x.c0.scale k).divideByLast? = .ok c0) (hc1 : (x.c1.scale k).divideByLast? = .ok c1)
    {factor : Float} (hfactor : factorInteger? factor last.prime.toFloat = some k) :
    ctx.mulPlain x factor =
      .ok ⟨c0, c1, if k = 0 then x.scale
        else x.scale * Float.ofInt k / (last.prime.toFloat * factor), ctx.id⟩ := by
  have hprime : ctx.primes[level + 1]? = some last.prime := by
    rw [primes, ModulusChain.primes, List.getElem?_map, hlast, Option.map_some]
  rw [mulPlain, requireOwn_of_eq hid, ok_bind, hlevel]
  simp only [rescalingPrime, Nat.succ_ne_zero, if_false, hprime, ok_bind, hfactor, rescaled?, hc0,
    hc1, pure_eq_ok, liftM_ok, hid]

/-- In a context that was generated, for every ciphertext above the lowest level, every integer `k`
and every key over the chain in place of the relinearization key: the products with the transparent
ciphertext of `k` hold the components times `k`, divided by the last prime and rounded, and so does
the product with every plain factor that is applied as `k`. The key is switched at zero, which
leaves zero. -/
theorem mul_transparent_of_generate {σ : Type} {sampler : Sampler σ} (hsampler : sampler.Lawful)
    {params : Parameters} {id : UInt64} {s s' : σ}
    (hctx : Answers (generate sampler params id) s ctx s') (htest : ∀ q ∈ ctx.primes, TestExact q)
    (hx : x.Valid ctx) (hlevel : x.level = level + 1) (k : ℤ) :
    ctx.relinearizationKey.Over ctx.chain ∧
    ∃ (q : UInt64) (c0 c1 : ResiduePoly), ctx.primes[x.level]? = some q ∧
      (x.c0.scale k).divideByLast? = .ok c0 ∧ (x.c1.scale k).divideByLast? = .ok c1 ∧
      (∀ F : ℤ[X], x.c0.Congruent F → ∃ G : ℤ[X], G.degree < params.degree ∧ c0.Congruent G ∧
        ∀ j < params.degree,
          G.coeff j = round ((k * (F %ₘ (X ^ params.degree + 1)).coeff j : ℚ) / q.toNat)) ∧
      (∀ F : ℤ[X], x.c1.Congruent F → ∃ G : ℤ[X], G.degree < params.degree ∧ c1.Congruent G ∧
        ∀ j < params.degree,
          G.coeff j = round ((k * (F %ₘ (X ^ params.degree + 1)).coeff j : ℚ) / q.toNat)) ∧
      (∀ (key : SwitchingKey) (level' : ℕ) (scale : Float), key.Over ctx.chain →
        x.level ≤ level' → level' ≤ ctx.topLevel →
        key.switch? ctx.chain (.zero (ctx.chain.lower x.level) .transformed) =
          .ok ⟨.zero (ctx.chain.lower x.level) .transformed,
            .zero (ctx.chain.lower x.level) .transformed⟩ ∧
        ({ ctx with relinearizationKey := key }).mul x (ctx.transparent k level' scale) =
          .ok ⟨c0, c1, x.scale * scale / q.toFloat, ctx.id⟩ ∧
        ({ ctx with relinearizationKey := key }).mul (ctx.transparent k level' scale) x =
          .ok ⟨c0, c1, scale * x.scale / q.toFloat, ctx.id⟩) ∧
      ∀ factor, factorInteger? factor q.toFloat = some k → ctx.mulPlain x factor =
        .ok ⟨c0, c1, if k = 0 then x.scale
          else x.scale * Float.ofInt k / (q.toFloat * factor), ctx.id⟩ := by
  obtain ⟨hdegree, cs, e, hkeyed, -⟩ := keyed_of_generate hsampler hctx htest
  have hc := hkeyed.sound
  obtain ⟨target, -, -, hhides⟩ := hkeyed.square
  have hkept := hx.kept
  have htop := hx.level_le
  rw [hlevel] at hkept htop
  have hlt : level + 1 < ctx.chain.tables.length := by
    have hlength := hc.topLevel_add_two
    rw [Context.topLevel] at htop
    omega
  have hlast := List.getElem?_eq_getElem hlt
  set last := ctx.chain.tables[level + 1]
  obtain ⟨c0, hc0, -, hnear0⟩ := exists_divided_scale hc hlast k hkept.c0
  obtain ⟨c1, hc1, -, hnear1⟩ := exists_divided_scale hc hlast k hkept.c1
  rw [hdegree] at hnear0 hnear1
  refine ⟨?_, last.prime, c0, c1, ?_, hc0, hc1, hnear0, hnear1, ?_, ?_⟩
  · intro m hm
    obtain ⟨j, hj⟩ := List.getElem?_of_mem hm
    exact hhides.digits_over hj
  · rw [hlevel, primes, ModulusChain.primes, List.getElem?_map, hlast, Option.map_some]
  · intro key level' scale hkey hle hl
    rw [hlevel] at hle ⊢
    refine ⟨SwitchingKey.switch?_zero hc htop hkey, ?_⟩
    exact mul_transparent { ctx with relinearizationKey := key } hc hkey hx.contextId_eq hkept hle
      hl hlast hc0 hc1 scale
  · intro factor hfactor
    exact mulPlain_of_factorInteger? hx.contextId_eq hlevel hlast hc0 hc1 hfactor

/-- Three times the ciphertext `(349478, X)` in the smallest ring, under a key without any pair. The
prime `1048433` is divided out, which is one less than three times `349478`. -/
theorem mul_transparent_smallest :
    ∃ (ctx : Context) (x : Ciphertext) (c0 c1 : ResiduePoly) (G : ℤ[X]),
      Answers (generate Sampler.steady smallest 7) () ctx () ∧
      ResiduePoly.ofSignedTransformed? [349478, 0, 0, 0, 0, 0, 0, 0] (ctx.chain.lower 1) =
        .ok x.c0 ∧
      ResiduePoly.ofSignedTransformed? [0, 1, 0, 0, 0, 0, 0, 0] (ctx.chain.lower 1) = .ok x.c1 ∧
      (x.c0.scale 3).divideByLast? = .ok c0 ∧ (x.c1.scale 3).divideByLast? = .ok c1 ∧
      c0.Congruent G ∧ G.coeff 0 = 1 ∧
      ({ ctx with relinearizationKey := ⟨[]⟩ }).mul x (ctx.transparent 3 1 2) =
        .ok ⟨c0, c1, 1 * 2 / (1048433 : UInt64).toFloat, ctx.id⟩ := by
  obtain ⟨ctx, hctx, hprimes, htest⟩ := exists_smallest 7
  have hworking := working_of_generate Sampler.lawful_steady hctx htest
  have hc := hworking.sound
  have htop : ctx.topLevel = 1 := topLevel_of_primes hprimes
  have hdegree : ctx.chain.degree = 8 := (keyed_of_generate Sampler.lawful_steady hctx htest).1
  have hm : ∀ t ∈ ctx.chain.lower 1, t.Sound := fun _ ht => hc.sound_of_mem_lower ht
  have hcomponent (zs : List ℤ) (hzs : zs.length = 8) := ResiduePoly.exists_ofSignedTransformed?
    hm (fun _ ht => hc.degree_of_mem_lower ht) hc.lower_ne_nil (hzs.trans hdegree.symm)
  obtain ⟨a0, ha0, ho0, hi0⟩ := hcomponent [349478, 0, 0, 0, 0, 0, 0, 0] rfl
  obtain ⟨a1, ha1, ho1, -⟩ := hcomponent [0, 1, 0, 0, 0, 0, 0, 0] rfl
  have hover : Ciphertext.Over ⟨a0, a1, 1, ctx.id⟩ ctx.chain 1 := ⟨ho0, ho1⟩
  have hvalid : Ciphertext.Valid ctx ⟨a0, a1, 1, ctx.id⟩ :=
    hworking.valid rfl htop.ge hover
  have hlevel : Ciphertext.level ⟨a0, a1, 1, ctx.id⟩ = 0 + 1 := level_eq hc htop.ge hover
  obtain ⟨-, q, c0, c1, hq, hc0, hc1, hnear, -, hproducts, -⟩ :=
    mul_transparent_of_generate Sampler.lawful_steady hctx htest hvalid hlevel 3
  rw [hlevel, hprimes] at hq
  obtain rfl : 1048433 = q := Option.some.inj hq
  obtain ⟨G, -, hG, hcoeff⟩ := hnear _ ((ho0.congruent_iff hm).2 hi0)
  have hzero := hcoeff 0 (by decide)
  -- The polynomial has less than eight coefficients, so it is its own remainder.
  have hreduced : (ofCoefficients [349478, 0, 0, 0, 0, 0, 0, 0] %ₘ (X ^ 8 + 1) : ℤ[X]).coeff 0 =
      349478 := by
    rw [(modByMonic_eq_self_iff (NegacyclicRing.monic_modulus (by decide))).2,
      coeff_ofCoefficients]
    · rfl
    · rw [NegacyclicRing.degree_modulus (by decide)]
      exact degree_ofCoefficients_lt _
  have hround : round (((3 * 349478 : ℤ) : ℚ) / (1048433 : UInt64).toNat) = 1 :=
    ResiduePoly.round_div_eq (by decide)
  rw [show smallest.degree = 8 from rfl, hreduced] at hzero
  obtain ⟨-, hmul, -⟩ := hproducts ⟨[]⟩ 1 2 (fun m hm => by cases hm) (by rw [hlevel]) htop.ge
  refine ⟨ctx, _, c0, c1, G, hctx, ha0, ha1, hc0, hc1, hG, ?_, hmul⟩
  rw [hzero, ← hround]
  norm_cast

end Context

end EncryptedArithmetic

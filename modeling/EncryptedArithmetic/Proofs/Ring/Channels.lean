import EncryptedArithmetic.Proofs.Ring.Lift

/-!
# Choosing channels and dividing one out

Operations that do not treat all channels alike. Channels can be dropped or put in another order,
and a multiple can be added to one of them alone. Division by the last prime takes the polynomial
nearest to zero in the last channel off all others, which leaves multiples of the prime, and divides
those.

## Main results

* `exists_leading?` and `exists_select?`: a choice of channels keeps their images.
* `exists_addScaledAt?`: the image changes at one position only.
* `exists_divideByLast?`: `P` times the quotient is the polynomial less a remainder with
  coefficients of at most `(P - 1) / 2`.
-/

namespace EncryptedArithmetic

open Polynomial EncryptedArithmetic.Modular

/-- A lookup of several positions succeeds when each of them exists. -/
theorem exists_mapM_eq_some {α β : Type} {f : α → Option β} {as : List α}
    (h : ∀ a ∈ as, ∃ b, f a = some b) :
    ∃ bs, as.mapM f = some bs ∧ bs.length = as.length ∧
      ∀ (i : ℕ) (a : α), as[i]? = some a → bs[i]? = f a := by
  -- By induction on the positions that are looked up.
  induction as with
  | nil => exact ⟨[], rfl, rfl, fun i a ha => by simp at ha⟩
  | cons a as ih =>
    obtain ⟨b, hb⟩ := h a List.mem_cons_self
    obtain ⟨bs, hbs, hlen, hget⟩ := ih fun a' ha => h a' (List.mem_cons_of_mem a ha)
    refine ⟨b :: bs, by simp [List.mapM_cons, hb, hbs], by simp [hlen], ?_⟩
    intro i a' ha
    cases i with
    | zero =>
      obtain rfl : a = a' := by simpa using ha
      simpa using hb.symm
    | succ i => exact hget i a' (by simpa using ha)

namespace ResiduePoly

variable {moduli : List RootTable} {form : Form} {a b : ResiduePoly}

/-- The zero polynomial has the image zero everywhere. -/
theorem over_zero (hm : ∀ t ∈ moduli, t.Sound) (form : Form) :
    (zero moduli form).Over moduli form ∧
      ∀ i t, moduli[i]? = some t → (zero moduli form).image i t = 0 := by
  have hover : (zero moduli form).Over moduli form :=
    over_ofTables fun t ht => .replicate (hm t ht).prime_pos _
  refine ⟨hover, ?_⟩
  intro i t ht
  have hsound := hm t (List.mem_of_getElem? ht)
  have hred := hover.reduced ht
  rw [hover.image_eq, ← map_zero (AdjoinRoot.mk _), RootTable.read_eq_mk_iff hsound hred, zero,
    row_ofTables ht]
  -- Entries are linear, so those of zero are multiples by zero.
  have hzero : t.entries form 0 = (t.entries form 0).map ((0 : ZMod t.prime.toNat) * ·) := by
    rw [← RootTable.entries_C_mul, map_zero, zero_mul]
  rw [hzero]
  simp [Modular.residues, residue, List.map_replicate, List.map_const',
    RootTable.length_entries hsound]

/-! ## Choosing channels -/

theorem exists_leading? {count : ℕ} (hpos : 1 ≤ count) (hle : count ≤ moduli.length)
    (ha : a.Over moduli form) :
    ∃ b, a.leading? count = .ok b ∧ b.Over (moduli.take count) form ∧
      ∀ i t, (moduli.take count)[i]? = some t → b.image i t = a.image i t := by
  have hchannel {i : ℕ} {t : RootTable} (ht : (moduli.take count)[i]? = some t) :
      moduli[i]? = some t ∧ (a.channels.take count)[i]? = some ⟨t, a.row i⟩ := by
    obtain ⟨hi, -⟩ := List.getElem?_eq_some_iff.1 ht
    have hlt : i < count := lt_of_lt_of_le hi (List.length_take_le _ _)
    -- Below the count nothing is cut off, from the tables or from the channels.
    rw [List.getElem?_take_of_lt hlt] at ht ⊢
    exact ⟨ht, ha.getElem?_eq ht⟩
  have hover : ResiduePoly.Over ⟨a.channels.take count, form⟩ (moduli.take count) form :=
    over_of_channels (by rw [List.length_take, List.length_take, ha.length_eq]) fun ht =>
      ⟨_, (hchannel ht).2, ha.reduced (hchannel ht).1⟩
  refine ⟨_, ?_, hover, ?_⟩
  · rw [leading?, if_pos ⟨hpos, ha.length_eq ▸ hle⟩, ha.form_eq]
  · intro i t ht
    rw [hover.image_eq, ha.image_eq, row_of_getElem? (hchannel ht).2]

/-- Channels at positions that exist, over the tables that stand there. -/
theorem exists_select? {positions : List ℕ} {moduli' : List RootTable}
    (hlen : positions.length = moduli'.length) (hne : positions ≠ [])
    (hpos : ∀ {i : ℕ} {t : RootTable}, moduli'[i]? = some t →
      ∃ p, positions[i]? = some p ∧ moduli[p]? = some t) (ha : a.Over moduli form) :
    ∃ b, a.select? positions = .ok b ∧ b.Over moduli' form ∧
      ∀ i p t, positions[i]? = some p → moduli'[i]? = some t → b.image i t = a.image p t := by
  have hlookup : ∀ p ∈ positions, ∃ c, a.channels[p]? = some c := by
    intro p hp
    obtain ⟨i, hi, rfl⟩ := List.getElem_of_mem hp
    obtain ⟨p', hp', ht'⟩ := hpos (List.getElem?_eq_getElem (hlen ▸ hi))
    obtain rfl := Option.some.inj ((List.getElem?_eq_getElem hi).symm.trans hp')
    exact ⟨_, ha.getElem?_eq ht'⟩
  -- The lookups name the channels, and the tables of the result stand at the same positions.
  obtain ⟨cs, hcs, hlen', hget⟩ := exists_mapM_eq_some hlookup
  have hchannel {i p : ℕ} {t : RootTable} (hp : positions[i]? = some p)
      (ht : moduli'[i]? = some t) : moduli[p]? = some t ∧ cs[i]? = some ⟨t, a.row p⟩ := by
    obtain ⟨p', hp', ht'⟩ := hpos ht
    obtain rfl := Option.some.inj (hp.symm.trans hp')
    exact ⟨ht', (hget i p hp).trans (ha.getElem?_eq ht')⟩
  have hover : ResiduePoly.Over ⟨cs, form⟩ moduli' form :=
    over_of_channels (hlen'.trans hlen) fun ht => by
      obtain ⟨p, hp, -⟩ := hpos ht
      exact ⟨_, (hchannel hp ht).2, ha.reduced (hchannel hp ht).1⟩
  refine ⟨_, ?_, hover, ?_⟩
  · obtain ⟨c, cs, rfl⟩ := List.exists_cons_of_length_pos
      (hlen' ▸ List.length_pos_iff.2 hne : 0 < cs.length)
    rw [select?, hcs, ← ha.form_eq]
  · intro i p t hp ht
    rw [hover.image_eq, ha.image_eq, row_of_getElem? (hchannel hp ht).2]

/-! ## One channel alone -/

/-- A multiple that is added in one channel. -/
theorem exists_addScaledAt? (hm : ∀ t ∈ moduli, t.Sound) {position : ℕ}
    (hposition : position < moduli.length) (scalar : UInt64) (ha : a.Over moduli form)
    (hb : b.Over moduli form) :
    ∃ c, a.addScaledAt? position b scalar = .ok c ∧ c.Over moduli form ∧
      ∀ i t, moduli[i]? = some t → c.image i t =
        a.image i t + if i = position then (scalar.toNat : ℤ) * b.image i t else 0 := by
  have ht := List.getElem?_eq_getElem hposition
  set t := moduli[position] with htable
  have hsound : t.Sound := hm t (List.mem_of_getElem? ht)
  have hscaled := reduced_scaleEach hsound.prime_pos (scalar % t.prime) (hb.reduced ht).length
  obtain ⟨sum, hsum, hsumr, hsumv⟩ := exists_addEach? hsound.prime_le (ha.reduced ht) hscaled
  have hscalar : residue t.prime (scalar % t.prime) = ((scalar.toNat : ℤ) : ZMod _) := by
    rw [residue, UInt64.toNat_mod, ZMod.natCast_mod, Int.cast_natCast]
  -- The channel at the position holds the sum, and every other one is left alone.
  have hself : (a.channels.set position ⟨t, sum⟩)[position]? = some ⟨t, sum⟩ :=
    List.getElem?_set_self (ha.length_eq ▸ hposition)
  have hchannel {i : ℕ} {t' : RootTable} (ht' : moduli[i]? = some t') (hi : i ≠ position) :
      (a.channels.set position ⟨t, sum⟩)[i]? = some ⟨t', a.row i⟩ := by
    rw [List.getElem?_set_ne hi.symm, ha.getElem?_eq ht']
  have hover : ResiduePoly.Over ⟨a.channels.set position ⟨t, sum⟩, form⟩ moduli form := by
    apply over_of_channels (List.length_set.trans ha.length_eq)
    intro i t' ht'
    rcases eq_or_ne i position with rfl | hi
    · obtain rfl := Option.some.inj (ht.symm.trans ht')
      exact ⟨sum, hself, hsumr⟩
    · exact ⟨_, hchannel ht' hi, ha.reduced ht'⟩
  refine ⟨_, ?_, hover, ?_⟩
  · rw [addScaledAt?, if_neg (not_not.2 (ha.form_eq.trans hb.form_eq.symm)), ha.getElem?_eq ht,
      hb.getElem?_eq ht]
    simp only [Channel.prime, Channel.update?, ne_eq, not_true_eq_false, if_false, hsum, ok_bind,
      pure_eq_ok, ha.form_eq]
  · intro i t' ht'
    rcases eq_or_ne i position with rfl | hi
    · obtain rfl := Option.some.inj (ht.symm.trans ht')
      rw [if_pos rfl, hover.image_eq, ha.image_eq, hb.image_eq, row_of_getElem? hself,
        RootTable.read_add hsound (ha.reduced ht) hscaled hsumr hsumv]
      congr 1
      rw [RootTable.read_scale hsound (hb.reduced ht) hscaled
        (residues_scaleEach hsound.prime_pos _ _), hscalar, map_intCast]
    · rw [if_neg hi, add_zero, hover.image_eq, ha.image_eq, row_of_getElem? (hchannel ht' hi)]

/-! ## Division by the last prime -/

/-- In a channel, the remainder is taken off and the inverse of the last prime is multiplied in. -/
theorem residue_quotientResidue {q last inverse value r : UInt64} (hpos : 0 < q)
    (hvalue : value < q) :
    quotientResidue q last inverse value r < q ∧
      residue q (quotientResidue q last inverse value r) =
        (residue q value - (SwitchingKey.centeredResidue last r : ZMod q.toNat)) *
          residue q inverse := by
  have hmod (x : UInt64) : x % q < q ∧ residue q (x % q) = x.toNat := by
    constructor
    · rw [UInt64.lt_iff_toNat_lt, UInt64.toNat_mod]
      exact Nat.mod_lt _ (UInt64.lt_iff_toNat_lt.1 hpos)
    · rw [residue, UInt64.toNat_mod, ZMod.natCast_mod]
  obtain ⟨hr, hrv⟩ := hmod r
  obtain ⟨hlast, hlastv⟩ := hmod last
  refine ⟨mul_lt _ _ hpos, ?_⟩
  rw [quotientResidue, residue_mul _ _ hpos]
  -- The centred residue of the last channel is the residue itself or the residue less the prime.
  congr 1
  unfold SwitchingKey.centeredResidue
  split
  · rw [residue_sub hvalue (sub_lt hr hlast), residue_sub hr hlast, hrv, hlastv]
    push_cast
    rfl
  · rw [residue_sub hvalue hr, hrv]
    push_cast
    rfl

/-- The quotient in a channel of the prime `t.prime`, where the last channel holds `ys`. -/
theorem read_zipWith_quotientResidue {t last : RootTable} (ht : t.Sound)
    (hdegree : last.degree = t.degree) {inverse : UInt64}
    (hinverse : (last.prime.toNat : ZMod t.prime.toNat) * residue t.prime inverse = 1)
    {xs ys : List UInt64} (hx : Reduced t.prime t.degree xs) (hy : ys.length = last.degree) :
    Reduced t.prime t.degree (xs.zipWith (quotientResidue t.prime last.prime inverse) ys) ∧
      (last.prime.toNat : ℤ) *
          t.read .coefficient (xs.zipWith (quotientResidue t.prime last.prime inverse) ys) =
        t.read .coefficient xs - t.ofInt (last.centered ys) := by
  have hlen : xs.length = ys.length := by rw [hx.length, hy, hdegree]
  have hpos := ht.prime_pos
  -- The vector is reduced, entry by entry; its classes are those of the formula.
  constructor
  · refine ⟨by rw [List.length_zipWith, ← hlen, min_self, hx.length], ?_⟩
    intro z hz
    rw [← List.map_uncurry_zip_eq_zipWith] at hz
    obtain ⟨⟨x, y⟩, hxy, rfl⟩ := List.mem_map.1 hz
    exact (residue_quotientResidue hpos (hx.lt x (List.of_mem_zip hxy).1)).1
  have hclasses : Modular.residues t.prime
      (xs.zipWith (quotientResidue t.prime last.prime inverse) ys) =
      ((Modular.residues t.prime xs).zipWith (· - ·)
        ((ys.map (SwitchingKey.centeredResidue last.prime)).map
          (Int.castRingHom (ZMod t.prime.toNat)))).map (· * residue t.prime inverse) := by
    rw [Modular.residues, Modular.residues, List.map_map, List.map_zipWith, List.zipWith_map,
      List.map_zipWith, ← List.map_uncurry_zip_eq_zipWith, ← List.map_uncurry_zip_eq_zipWith]
    apply List.map_congr_left
    intro xy hxy
    obtain ⟨x, y⟩ := xy
    exact (residue_quotientResidue hpos (hx.lt x (List.of_mem_zip hxy).1)).2
  rw [RootTable.read, RootTable.read, hclasses, ofCoefficients_map_mul,
    ofCoefficients_zipWith_sub (by simpa using hlen), ← map_ofCoefficients, map_mul, map_sub,
    ← mul_assoc, AdjoinRoot.mk_C]
  -- The factor in front cancels the inverse that every entry was multiplied by.
  have hcancel : ((last.prime.toNat : ℤ) : NegacyclicRing t.degree (ZMod t.prime.toNat)) *
      AdjoinRoot.of _ (residue t.prime inverse) = 1 := by
    rw [← map_intCast (AdjoinRoot.of (X ^ t.degree + 1 : (ZMod t.prime.toNat)[X])), ← map_mul,
      Int.cast_natCast, hinverse, map_one]
  rw [hcancel, one_mul]
  rfl

/-- The quotients in all channels in front of the last one, whose prime has an inverse modulo the
others since the primes are distinct. -/
theorem exists_mapM_quotientResidue {work : ResiduePoly} {last : RootTable} {ys : List UInt64}
    (hm : ∀ t ∈ moduli, t.Sound) (hlast : last.Sound) (hn : ∀ t ∈ moduli, t.degree = last.degree)
    (hdistinct : ∀ t ∈ moduli, t.prime ≠ last.prime) (hys : ys.length = last.degree)
    (hwork : work.Over (moduli ++ [last]) .coefficient) :
    ∃ cs, (work.channels.dropLast.mapM fun c => do
        let inverse ← Modular.inverse? (last.prime % c.prime) c.prime
        let quotient := quotientResidue c.prime last.prime inverse
        return { c with residues := c.residues.zipWith quotient ys }) = .ok cs ∧
      (⟨cs, .coefficient⟩ : ResiduePoly).Over moduli .coefficient ∧
      ∀ i t, moduli[i]? = some t →
        (last.prime.toNat : ℤ) * (⟨cs, .coefficient⟩ : ResiduePoly).image i t =
          work.image i t - t.ofInt (last.centered ys) := by
  have hlen : work.channels.dropLast.length = moduli.length := by
    simp [List.length_dropLast, hwork.length_eq]
  have hfront {i : ℕ} {t : RootTable} (ht : moduli[i]? = some t) :
      (moduli ++ [last])[i]? = some t := by
    rwa [List.getElem?_append_left (List.getElem?_eq_some_iff.1 ht).1]
  obtain ⟨cs, hcs, hoc, hrow⟩ := exists_mapM_over
    (f := fun c : Channel => do
      let inverse ← Modular.inverse? (last.prime % c.prime) c.prime
      let quotient := quotientResidue c.prime last.prime inverse
      return { c with residues := c.residues.zipWith quotient ys })
    (P := fun i t zs => (last.prime.toNat : ℤ) * t.read .coefficient zs =
      t.read .coefficient (work.row i) - t.ofInt (last.centered ys)) hlen
    (fun {i t e} ht he => by
      obtain ⟨hi, -⟩ := List.getElem?_eq_some_iff.1 ht
      rw [List.getElem?_dropLast, if_pos (by rw [hwork.length_eq]; simpa using hi),
        hwork.getElem?_eq (hfront ht)] at he
      obtain rfl := Option.some.inj he
      have hmem := List.mem_of_getElem? ht
      -- The primes differ, so the last one has an inverse in this channel.
      obtain ⟨inverse, hinverse, hunit⟩ := Modular.exists_inverse?_of_prime hlast.prime
        (hm t hmem).prime (hdistinct t hmem).symm
      obtain ⟨hzred, hzread⟩ := read_zipWith_quotientResidue (hm t hmem) (hn t hmem).symm hunit
        (hwork.reduced (hfront ht)) hys
      refine ⟨_, ?_, hzred, hzread⟩
      simp only [Channel.prime, hinverse, ok_bind, pure_eq_ok]) .coefficient
  refine ⟨cs, hcs, hoc, ?_⟩
  intro i t ht
  rw [hoc.image_eq, hrow i t ht, hwork.image_eq]

/-- Division by the last prime, in either form: `P` times the quotient is what is left when the
remainder, which is nearest to zero in the last channel, is taken off. -/
theorem exists_divideByLast? {last : RootTable} (hne : moduli ≠ [])
    (hm : ∀ t ∈ moduli, t.Sound) (hlast : last.Sound) (hn : ∀ t ∈ moduli, t.degree = last.degree)
    (hdistinct : ∀ t ∈ moduli, t.prime ≠ last.prime) (ha : a.Over (moduli ++ [last]) form) :
    ∃ b, a.divideByLast? = .ok b ∧ b.Over moduli form ∧ ∃ r : ℤ[X], r.degree < last.degree ∧
      (∀ k, |r.coeff k| ≤ ((last.prime.toNat : ℤ) - 1) / 2) ∧
      a.image moduli.length last = last.ofInt r ∧
      ∀ i t, moduli[i]? = some t →
        (last.prime.toNat : ℤ) * b.image i t = a.image i t - t.ofInt r := by
  have hm' : ∀ t ∈ moduli ++ [last], t.Sound := by
    intro t ht
    rcases List.mem_append.1 ht with ht | ht
    · exact hm t ht
    · rwa [List.mem_singleton.1 ht]
  have hend : (moduli ++ [last])[moduli.length]? = some last := by simp
  -- The division is done on coefficients, whose last channel holds the remainder.
  obtain ⟨work, hwork, how, hiw⟩ := exists_toCoefficient? hm' ha
  have hred := how.reduced hend
  set ys := work.row moduli.length
  have hlast? : work.channels.getLast? = some ⟨last, ys⟩ := by
    rw [List.getLast?_eq_getElem?, how.length_eq, List.length_append, List.length_singleton,
      Nat.add_sub_cancel]
    exact how.getElem?_eq hend
  obtain ⟨cs, hcs, hoc, hic⟩ :=
    exists_mapM_quotientResidue hm hlast hn hdistinct hred.length how
  -- The quotient goes back to the form of the polynomial, which keeps its images.
  obtain ⟨b, hb, hob, hib⟩ := exists_toForm? hm hoc form
  refine ⟨b, ?_, hob, last.centered ys, RootTable.degree_centered_lt hred.length,
    RootTable.abs_coeff_centered_le hlast hred, ?_, ?_⟩
  · have htwo : ¬a.channels.length < 2 := by
      have := List.length_pos_iff.2 hne
      rw [ha.length_eq, List.length_append, List.length_singleton]
      omega
    rw [divideByLast?, if_neg htwo, hwork, ok_bind, hlast?]
    simp only [Channel.prime, how.form_eq, ha.form_eq]
    simp only [Channel.prime] at hcs
    rw [hcs, ok_bind]
    exact hb
  · rw [← hiw _ _ hend, how.image_eq, RootTable.ofInt_centered]
  · intro i t ht
    have hfront : (moduli ++ [last])[i]? = some t := by
      rwa [List.getElem?_append_left (List.getElem?_eq_some_iff.1 ht).1]
    rw [hib i t ht, hic i t ht, ← hiw i t hfront]

end ResiduePoly

end EncryptedArithmetic

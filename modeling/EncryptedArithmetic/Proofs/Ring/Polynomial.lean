import EncryptedArithmetic.Proofs.Ring.Reading

/-!
# Polynomials in residue channels as ring elements

`Over` says that a polynomial is kept over given moduli in a given form with reduced residues, and
`image` is the ring element in one of its channels. On such polynomials every operation has a
result of the same kind, and the images of the result are those of the operands combined in the
ring, whatever the form is.

## Main results

* `exists_toForm?`: a change of form has a result and keeps the images.
* `exists_add?`, `exists_sub?`, `exists_mul?`, `over_neg`, `over_scale`: the ring operations, entry
  by entry and in the ring.
* `eq_of_image_eq`: a polynomial is known by its images.
-/

namespace EncryptedArithmetic

open Polynomial EncryptedArithmetic.Modular

namespace ResiduePoly

/-- The residues in the channel at a position. -/
def row (a : ResiduePoly) (i : ℕ) : List UInt64 :=
  (a.channels[i]?.map Channel.residues).getD []

/-- Kept over the given moduli in the given form, with one reduced residue for each entry. -/
structure Over (a : ResiduePoly) (moduli : List RootTable) (form : Form) : Prop where
  form_eq : a.form = form
  length_eq : a.channels.length = moduli.length
  getElem?_eq : ∀ {i : ℕ} {t : RootTable}, moduli[i]? = some t →
    a.channels[i]? = some ⟨t, a.row i⟩
  reduced : ∀ {i : ℕ} {t : RootTable}, moduli[i]? = some t → Reduced t.prime t.degree (a.row i)

/-- The classes of the residues in the channel at a position, over its table. -/
abbrev classes (a : ResiduePoly) (i : ℕ) (t : RootTable) : List (ZMod t.prime.toNat) :=
  Modular.residues t.prime (a.row i)

/-- The ring element in the channel at a position, over its table. -/
noncomputable def image (a : ResiduePoly) (i : ℕ) (t : RootTable) :
    NegacyclicRing t.degree (ZMod t.prime.toNat) :=
  t.read a.form (a.row i)

theorem row_of_getElem? {a : ResiduePoly} {i : ℕ} {t : RootTable} {xs : List UInt64}
    (h : a.channels[i]? = some ⟨t, xs⟩) : a.row i = xs := by
  rw [row, h, Option.map_some, Option.getD_some]

variable {moduli : List RootTable} {form : Form} {a b : ResiduePoly}

theorem Over.exists_of_getElem? {i : ℕ} {c : Channel} (ha : a.Over moduli form)
    (hc : a.channels[i]? = some c) : ∃ t, moduli[i]? = some t ∧ c = ⟨t, a.row i⟩ := by
  obtain ⟨hlt, -⟩ := List.getElem?_eq_some_iff.1 hc
  have ht := List.getElem?_eq_getElem (ha.length_eq ▸ hlt)
  exact ⟨_, ht, Option.some.inj (hc.symm.trans (ha.getElem?_eq ht))⟩

theorem Over.exists_of_mem {c : Channel} (ha : a.Over moduli form) (hc : c ∈ a.channels) :
    ∃ i t, moduli[i]? = some t ∧ c = ⟨t, a.row i⟩ := by
  obtain ⟨i, hi⟩ := List.getElem?_of_mem hc
  exact ⟨i, ha.exists_of_getElem? hi⟩

/-- Channels over the moduli, one after the other. -/
theorem over_of_channels {cs : List Channel} (hlen : cs.length = moduli.length)
    (h : ∀ {i : ℕ} {t : RootTable}, moduli[i]? = some t →
      ∃ xs, cs[i]? = some ⟨t, xs⟩ ∧ Reduced t.prime t.degree xs) :
    (⟨cs, form⟩ : ResiduePoly).Over moduli form where
  form_eq := rfl
  length_eq := hlen
  getElem?_eq ht := by
    obtain ⟨xs, hxs, -⟩ := h ht
    rw [row_of_getElem? hxs]
    exact hxs
  reduced ht := by
    obtain ⟨xs, hxs, hred⟩ := h ht
    rwa [row_of_getElem? hxs]

theorem row_ofTables {f : RootTable → List UInt64} {i : ℕ} {t : RootTable}
    (ht : moduli[i]? = some t) : (ofTables form moduli f).row i = f t :=
  row_of_getElem? (by rw [ofTables, List.getElem?_map, ht, Option.map_some])

/-- Rows that are computed from the tables. -/
theorem over_ofTables {f : RootTable → List UInt64}
    (h : ∀ t ∈ moduli, Reduced t.prime t.degree (f t)) :
    (ofTables form moduli f).Over moduli form :=
  over_of_channels (List.length_map _) fun {i t} ht =>
    ⟨f t, by rw [List.getElem?_map, ht, Option.map_some], h t (List.mem_of_getElem? ht)⟩

/-- A computation that succeeds on every channel gives a polynomial over the moduli, whose channels
have what the computation promises. -/
theorem exists_mapM_over {α : Type} {as : List α} {f : α → Except Fault Channel}
    {P : ℕ → RootTable → List UInt64 → Prop} (hlen : as.length = moduli.length)
    (h : ∀ {i : ℕ} {t : RootTable} {e : α}, moduli[i]? = some t → as[i]? = some e →
      ∃ xs, f e = .ok ⟨t, xs⟩ ∧ Reduced t.prime t.degree xs ∧ P i t xs) (form : Form) :
    ∃ cs, as.mapM f = .ok cs ∧ (⟨cs, form⟩ : ResiduePoly).Over moduli form ∧
      ∀ i t, moduli[i]? = some t → P i t (ResiduePoly.row ⟨cs, form⟩ i) := by
  have hpair {i : ℕ} {t : RootTable} (ht : moduli[i]? = some t) : ∃ e, as[i]? = some e := by
    obtain ⟨hi, -⟩ := List.getElem?_eq_some_iff.1 ht
    exact ⟨_, List.getElem?_eq_getElem (hlen ▸ hi)⟩
  -- No entry fails, so the whole list is computed; the answers are then looked up by position.
  have hok : ∀ e ∈ as, ∃ c, f e = .ok c := by
    intro e he
    obtain ⟨i, hi, rfl⟩ := List.getElem_of_mem he
    obtain ⟨xs, hxs, -⟩ :=
      h (List.getElem?_eq_getElem (hlen ▸ hi)) (List.getElem?_eq_getElem hi)
    exact ⟨_, hxs⟩
  obtain ⟨cs, hcs⟩ := exists_mapM_eq_ok hok
  have hlen' : cs.length = moduli.length := (length_of_mapM_eq_ok hcs).trans hlen
  have hchannel {i : ℕ} {t : RootTable} (ht : moduli[i]? = some t) :
      ∃ xs, cs[i]? = some ⟨t, xs⟩ ∧ Reduced t.prime t.degree xs ∧ P i t xs := by
    obtain ⟨e, he⟩ := hpair ht
    obtain ⟨xs, hxs, hred, hP⟩ := h ht he
    obtain ⟨hi, -⟩ := List.getElem?_eq_some_iff.1 ht
    have hget := List.getElem?_eq_getElem (l := cs) (hlen' ▸ hi)
    have hc := getElem?_of_mapM_eq_ok hcs he hget
    rw [← Except.ok.inj (hxs.symm.trans hc)] at hget
    exact ⟨xs, hget, hred, hP⟩
  refine ⟨cs, hcs, over_of_channels hlen' ?_, ?_⟩
  · intro i t ht
    obtain ⟨xs, hxs, hred, -⟩ := hchannel ht
    exact ⟨xs, hxs, hred⟩
  · intro i t ht
    obtain ⟨xs, hxs, -, hP⟩ := hchannel ht
    rwa [row_of_getElem? (a := ⟨cs, form⟩) hxs]

/-- The same for a computation that cannot fail. -/
theorem over_map {f : Channel → Channel} {P : ℕ → RootTable → List UInt64 → Prop}
    (ha : a.Over moduli form)
    (h : ∀ {i : ℕ} {t : RootTable}, moduli[i]? = some t →
      ∃ xs, f ⟨t, a.row i⟩ = ⟨t, xs⟩ ∧ Reduced t.prime t.degree xs ∧ P i t xs) :
    ({ a with channels := a.channels.map f } : ResiduePoly).Over moduli form ∧
      ∀ i t, moduli[i]? = some t →
        P i t (ResiduePoly.row { a with channels := a.channels.map f } i) := by
  have hchannel {i : ℕ} {t : RootTable} (ht : moduli[i]? = some t) :
      ∃ xs, (a.channels.map f)[i]? = some ⟨t, xs⟩ ∧ Reduced t.prime t.degree xs ∧ P i t xs := by
    obtain ⟨xs, hxs, hred, hP⟩ := h ht
    exact ⟨xs, by rw [List.getElem?_map, ha.getElem?_eq ht, Option.map_some, hxs], hred, hP⟩
  -- The update keeps the form, which is put in place of the given one before the channels are
  -- listed.
  have hform := ha.form_eq
  obtain ⟨channels, form'⟩ := a
  obtain rfl : form' = form := hform
  refine ⟨over_of_channels ((List.length_map _).trans ha.length_eq) ?_, ?_⟩
  · intro i t ht
    obtain ⟨xs, hxs, hred, -⟩ := hchannel ht
    exact ⟨xs, hxs, hred⟩
  · intro i t ht
    obtain ⟨xs, hxs, -, hP⟩ := hchannel ht
    rwa [row_of_getElem? hxs]

namespace Over

theorem primes_eq (ha : a.Over moduli form) : a.primes = moduli.map RootTable.prime := by
  apply List.ext_getElem?
  intro i
  rw [primes, List.getElem?_map, List.getElem?_map]
  rcases h : moduli[i]? with _ | t
  · have hlen : a.channels.length ≤ i := ha.length_eq ▸ List.getElem?_eq_none_iff.1 h
    rw [List.getElem?_eq_none hlen]
    rfl
  · rw [ha.getElem?_eq h]
    rfl

/-- Polynomials over the same moduli in the same form can be combined. -/
theorem compatible? (ha : a.Over moduli form) (hb : b.Over moduli form) :
    a.compatible? b = .ok () := by
  rw [ResiduePoly.compatible?, if_neg (not_not.2 (ha.length_eq.trans hb.length_eq.symm)),
    if_neg (not_not.2 (ha.form_eq.trans hb.form_eq.symm)),
    if_neg (not_not.2 (ha.primes_eq.trans hb.primes_eq.symm))]

theorem image_eq (ha : a.Over moduli form) (i : ℕ) (t : RootTable) :
    a.image i t = t.read form (a.row i) := by
  rw [image, ha.form_eq]

end Over

/-- A polynomial is known by its rows. -/
theorem eq_of_row_eq (ha : a.Over moduli form) (hb : b.Over moduli form)
    (h : ∀ i t, moduli[i]? = some t → a.row i = b.row i) : a = b := by
  have hchannels : a.channels = b.channels := by
    apply List.ext_getElem?
    intro i
    rcases ht : moduli[i]? with _ | t
    · have hlen := List.getElem?_eq_none_iff.1 ht
      rw [List.getElem?_eq_none (ha.length_eq ▸ hlen), List.getElem?_eq_none (hb.length_eq ▸ hlen)]
    · rw [ha.getElem?_eq ht, hb.getElem?_eq ht, h i t ht]
  have hform := ha.form_eq.trans hb.form_eq.symm
  cases a
  cases b
  simp_all

section Sound

variable (hm : ∀ t ∈ moduli, t.Sound)
include hm

/-- A polynomial is known by its images. -/
theorem eq_of_image_eq (ha : a.Over moduli form) (hb : b.Over moduli form)
    (h : ∀ i t, moduli[i]? = some t → a.image i t = b.image i t) : a = b := by
  apply eq_of_row_eq ha hb
  intro i t ht
  have himage := h i t ht
  rw [ha.image_eq, hb.image_eq] at himage
  exact RootTable.eq_of_read_eq (hm t (List.mem_of_getElem? ht)) (ha.reduced ht) (hb.reduced ht)
    himage

/-! ## Change of form -/

theorem exists_toTransformed? (ha : a.Over moduli form) :
    ∃ b, a.toTransformed? = .ok b ∧ b.Over moduli .transformed ∧
      ∀ i t, moduli[i]? = some t → b.image i t = a.image i t := by
  cases form with
  | transformed => exact ⟨a, by rw [toTransformed?, ha.form_eq], ha, fun _ _ _ => rfl⟩
  | coefficient =>
    obtain ⟨cs, hcs, hover, hread⟩ := exists_mapM_over
      (f := fun c => c.update? c.table.forward?)
      (P := fun i t xs => t.read .transformed xs = t.read .coefficient (a.row i)) ha.length_eq
      (fun {i t e} ht he => by
        -- The entry is the channel that `Over` names, so its residues are reduced and are
        -- transformed.
        obtain rfl := Option.some.inj ((ha.getElem?_eq ht).symm.trans he)
        have hsound := hm t (List.mem_of_getElem? ht)
        obtain ⟨ys, hys, hred, -⟩ := RootTable.exists_forward? hsound (ha.reduced ht)
        exact ⟨ys, by simp only [Channel.update?, hys, ok_bind, pure_eq_ok], hred,
          RootTable.read_forward? hsound (ha.reduced ht) hys⟩) .transformed
    refine ⟨⟨cs, .transformed⟩, by simp only [toTransformed?, ha.form_eq, hcs, ok_bind, pure_eq_ok],
      hover, ?_⟩
    intro i t ht
    rw [hover.image_eq, ha.image_eq, hread i t ht]

theorem exists_toCoefficient? (ha : a.Over moduli form) :
    ∃ b, a.toCoefficient? = .ok b ∧ b.Over moduli .coefficient ∧
      ∀ i t, moduli[i]? = some t → b.image i t = a.image i t := by
  cases form with
  | coefficient => exact ⟨a, by rw [toCoefficient?, ha.form_eq], ha, fun _ _ _ => rfl⟩
  | transformed =>
    -- Channel by channel, the inverse transform keeps what is read.
    obtain ⟨cs, hcs, hover, hread⟩ := exists_mapM_over
      (f := fun c => c.update? c.table.inverse?)
      (P := fun i t xs => t.read .coefficient xs = t.read .transformed (a.row i)) ha.length_eq
      (fun {i t e} ht he => by
        obtain rfl := Option.some.inj ((ha.getElem?_eq ht).symm.trans he)
        have hsound := hm t (List.mem_of_getElem? ht)
        obtain ⟨ys, hys, hred, -⟩ := RootTable.exists_inverse? hsound (ha.reduced ht)
        exact ⟨ys, by simp only [Channel.update?, hys, ok_bind, pure_eq_ok], hred,
          RootTable.read_inverse? hys⟩) .coefficient
    refine ⟨⟨cs, .coefficient⟩, by simp only [toCoefficient?, ha.form_eq, hcs, ok_bind, pure_eq_ok],
      hover, ?_⟩
    intro i t ht
    rw [hover.image_eq, ha.image_eq, hread i t ht]

/-- Either form can be reached, and the images stay. -/
theorem exists_toForm? (ha : a.Over moduli form) (target : Form) :
    ∃ b, a.toForm? target = .ok b ∧ b.Over moduli target ∧
      ∀ i t, moduli[i]? = some t → b.image i t = a.image i t := by
  cases target with
  | coefficient => exact exists_toCoefficient? hm ha
  | transformed => exact exists_toTransformed? hm ha

omit hm in
/-- A change of form keeps the number of channels. -/
theorem length_of_toForm? {target : Form} (h : a.toForm? target = .ok b) :
    b.channels.length = a.channels.length := by
  -- The form stays as it is, or every channel is transformed.
  unfold toForm? toCoefficient? toTransformed? at h
  split at h <;> split at h
  · obtain rfl := Except.ok.inj h
    rfl
  · simp only [bind_eq_ok_iff, pure_eq_ok, Except.ok.injEq] at h
    obtain ⟨channels, hchannels, rfl⟩ := h
    exact length_of_mapM_eq_ok hchannels
  · obtain rfl := Except.ok.inj h
    rfl
  · simp only [bind_eq_ok_iff, pure_eq_ok, Except.ok.injEq] at h
    obtain ⟨channels, hchannels, rfl⟩ := h
    exact length_of_mapM_eq_ok hchannels

/-! ## Ring operations -/

/-- The negated polynomial. -/
theorem over_neg (ha : a.Over moduli form) :
    a.neg.Over moduli form ∧ ∀ i t, moduli[i]? = some t →
      a.neg.classes i t = (a.classes i t).map (- ·) ∧
        a.neg.image i t = -a.image i t := by
  obtain ⟨hover, hrow⟩ := over_map ha (f := fun c => c.map (Modular.neg · c.prime))
    (P := fun i t xs => Modular.residues t.prime xs = (a.classes i t).map (- ·))
    (fun ht => ⟨_, rfl, reduced_map_neg (ha.reduced ht), residues_map_neg (ha.reduced ht)⟩)
  change a.neg.Over moduli form at hover
  refine ⟨hover, fun i t ht => ⟨hrow i t ht, ?_⟩⟩
  rw [hover.image_eq, ha.image_eq]
  exact RootTable.read_neg (hm t (List.mem_of_getElem? ht)) (ha.reduced ht) (hover.reduced ht)
    (hrow i t ht)

/-- The multiple by an integer. -/
theorem over_scale (k : ℤ) (ha : a.Over moduli form) :
    (a.scale k).Over moduli form ∧ ∀ i t, moduli[i]? = some t →
      (a.scale k).classes i t =
          (a.classes i t).map (· * (k : ZMod t.prime.toNat)) ∧
        (a.scale k).image i t = k * a.image i t := by
  have hpos {i : ℕ} {t : RootTable} (ht : moduli[i]? = some t) : 0 < t.prime :=
    (hm t (List.mem_of_getElem? ht)).prime_pos
  obtain ⟨hover, hrow⟩ := over_map ha
    (f := fun c => { c with
      residues := Modular.scaleEach c.prime (Modular.ofInt k c.prime) c.residues })
    (P := fun i t xs => Modular.residues t.prime xs =
      (a.classes i t).map (· * (k : ZMod t.prime.toNat)))
    (fun {i t} ht => by
      refine ⟨_, rfl, reduced_scaleEach (hpos ht) _ (ha.reduced ht).length, ?_⟩
      rw [← residue_ofInt k (hpos ht)]
      exact residues_scaleEach (hpos ht) _ _)
  change (a.scale k).Over moduli form at hover
  refine ⟨hover, fun i t ht => ⟨hrow i t ht, ?_⟩⟩
  rw [hover.image_eq, ha.image_eq, RootTable.read_scale (hm t (List.mem_of_getElem? ht))
    (ha.reduced ht) (hover.reduced ht) (hrow i t ht), map_intCast]

omit hm in
/-- An operation on pairs of channels that succeeds on the rows of two polynomials. -/
theorem exists_combine? {f : UInt64 → List UInt64 → List UInt64 → Except Fault (List UInt64)}
    {P : RootTable → List UInt64 → List UInt64 → List UInt64 → Prop}
    (hf : ∀ i t, moduli[i]? = some t → ∃ zs, f t.prime (a.row i) (b.row i) = .ok zs ∧
      Reduced t.prime t.degree zs ∧ P t (a.row i) (b.row i) zs)
    (ha : a.Over moduli form) (hb : b.Over moduli form) :
    ∃ c, a.combine? f b = .ok c ∧ c.Over moduli form ∧
      ∀ i t, moduli[i]? = some t → P t (a.row i) (b.row i) (c.row i) := by
  have hlen : (a.channels.zip b.channels).length = moduli.length := by
    rw [List.length_zip, ha.length_eq, hb.length_eq, min_self]
  obtain ⟨cs, hcs, hover, hrow⟩ := exists_mapM_over (f := fun e => e.1.combine? f e.2)
    (P := fun i t xs => P t (a.row i) (b.row i) xs) hlen
    (fun {i t e} ht he => by
      -- A pair of channels has one table, that of the position.
      rw [List.getElem?_zip_eq_some, ha.getElem?_eq ht, hb.getElem?_eq ht] at he
      obtain ⟨hc, hd⟩ := he
      obtain ⟨c, d⟩ := e
      obtain rfl := Option.some.inj hc
      obtain rfl := Option.some.inj hd
      obtain ⟨zs, hzs, hred, hP⟩ := hf i t ht
      refine ⟨zs, ?_, hred, hP⟩
      simp only [Channel.combine?, Channel.update?, Channel.prime, hzs, ok_bind, pure_eq_ok]) form
  refine ⟨⟨cs, form⟩, ?_, hover, hrow⟩
  rw [combine?]
  show ((a.channels.zip b.channels).mapM (fun e => e.1.combine? f e.2) >>= _) = _
  rw [hcs, ok_bind, pure_eq_ok, ha.form_eq]

/-- Sums exist in either form. -/
theorem exists_add? (ha : a.Over moduli form) (hb : b.Over moduli form) :
    ∃ c, a.add? b = .ok c ∧ c.Over moduli form ∧ ∀ i t, moduli[i]? = some t →
      c.classes i t =
          (a.classes i t).zipWith (· + ·) (b.classes i t) ∧
        c.image i t = a.image i t + b.image i t := by
  obtain ⟨c, hc, hover, hrow⟩ := exists_combine? (f := Modular.addEach?)
    (P := fun t xs ys zs => Modular.residues t.prime zs =
      (Modular.residues t.prime xs).zipWith (· + ·) (Modular.residues t.prime ys))
    (fun i t ht => exists_addEach? (hm t (List.mem_of_getElem? ht)).prime_le (ha.reduced ht)
      (hb.reduced ht)) ha hb
  refine ⟨c, by rw [add?, ha.compatible? hb, ok_bind, hc], hover, fun i t ht => ⟨hrow i t ht, ?_⟩⟩
  rw [hover.image_eq, ha.image_eq, hb.image_eq]
  exact RootTable.read_add (hm t (List.mem_of_getElem? ht)) (ha.reduced ht) (hb.reduced ht)
    (hover.reduced ht) (hrow i t ht)

/-- Differences exist in either form. -/
theorem exists_sub? (ha : a.Over moduli form) (hb : b.Over moduli form) :
    ∃ c, a.sub? b = .ok c ∧ c.Over moduli form ∧ ∀ i t, moduli[i]? = some t →
      c.classes i t =
          (a.classes i t).zipWith (· - ·) (b.classes i t) ∧
        c.image i t = a.image i t - b.image i t := by
  obtain ⟨c, hc, hover, hrow⟩ := exists_combine? (f := Modular.subEach?)
    (P := fun t xs ys zs => Modular.residues t.prime zs =
      (Modular.residues t.prime xs).zipWith (· - ·) (Modular.residues t.prime ys))
    (fun i t ht => exists_subEach? (ha.reduced ht) (hb.reduced ht)) ha hb
  refine ⟨c, by rw [sub?, ha.compatible? hb, ok_bind, hc], hover, fun i t ht => ⟨hrow i t ht, ?_⟩⟩
  rw [hover.image_eq, ha.image_eq, hb.image_eq]
  exact RootTable.read_sub (hm t (List.mem_of_getElem? ht)) (ha.reduced ht) (hb.reduced ht)
    (hover.reduced ht) (hrow i t ht)

/-- Products exist in transformed form. -/
theorem exists_mul? (ha : a.Over moduli .transformed) (hb : b.Over moduli .transformed) :
    ∃ c, a.mul? b = .ok c ∧ c.Over moduli .transformed ∧ ∀ i t, moduli[i]? = some t →
      c.image i t = a.image i t * b.image i t := by
  obtain ⟨c, hc, hover, hrow⟩ := exists_combine?
    (f := fun p xs ys => .ok (Modular.mulEach p xs ys))
    (P := fun t xs ys zs => Modular.residues t.prime zs =
      (Modular.residues t.prime xs).zipWith (· * ·) (Modular.residues t.prime ys))
    (fun i t ht => by
      have hpos := (hm t (List.mem_of_getElem? ht)).prime_pos
      exact ⟨_, rfl, reduced_mulEach hpos (ha.reduced ht) (hb.reduced ht),
        residues_mulEach hpos (ha.reduced ht) (hb.reduced ht)⟩) ha hb
  refine ⟨c, by rw [mul?, ha.compatible? hb, ok_bind, if_pos ha.form_eq, hc], hover, ?_⟩
  intro i t ht
  rw [hover.image_eq, ha.image_eq, hb.image_eq]
  exact RootTable.read_mul (hm t (List.mem_of_getElem? ht)) (ha.reduced ht) (hb.reduced ht)
    (hover.reduced ht) (hrow i t ht)

end Sound

end ResiduePoly

end EncryptedArithmetic

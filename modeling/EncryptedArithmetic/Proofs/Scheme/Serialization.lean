import EncryptedArithmetic.Proofs.Scheme.Validity
import EncryptedArithmetic.Proofs.Scheme.Wire

/-!
# Ciphertexts that are serialized

A valid ciphertext with a usable scale is restored from its bytes as it was. A part of the bytes and
more than the bytes are both refused, since the reader knows where a ciphertext ends.

## Main results

* `ofWire_toWire`: the content of valid bytes is checked against the context and taken.
* `ofBytes_toBytes`: bytes, parts of them and more than them.
-/

namespace EncryptedArithmetic

open EncryptedArithmetic.Modular

namespace Ciphertext

variable {ctx : Context} {c : Ciphertext}

/-- The lists in a valid ciphertext are short. -/
theorem Valid.countable (hctx : ctx.Shaped) (hc : c.Valid ctx) : c.toWire.Countable := by
  have hcomponents := hc.components hctx
  have hdegree := hctx.degree_le
  have hlength := hctx.length_le
  have htop := hctx.topLevel_add_two
  have hlevel := hc.level_le
  have hsize : 32768 < UInt64.size := by decide
  -- There are at most fifty rows of at most 32768 entries.
  have hchannels {a : ResiduePoly} (ha : a.Over (ctx.chain.lower c.level) .transformed) :
      a.channels.length < UInt64.size := by
    rw [ha.length_eq, hctx.length_lower hlevel]
    omega
  have hrows {a : ResiduePoly} (ha : a ∈ [c.c0, c.c1]) :
      ∀ row ∈ a.residues, row.length < UInt64.size := by
    intro row hrow
    obtain ⟨channel, hchannel, rfl⟩ := List.mem_map.1 hrow
    rw [((hcomponents a ha).2.2 channel hchannel).1]
    omega
  constructor
  · exact (List.length_map _).trans_lt (hchannels hc.kept.c0)
  · exact (List.length_map _).trans_lt (hchannels hc.kept.c0)
  · exact hrows List.mem_cons_self
  · exact (List.length_map _).trans_lt (hchannels hc.kept.c1)
  · exact hrows (List.mem_cons_of_mem _ List.mem_cons_self)

end Ciphertext

namespace Context

variable {ctx : Context} {c : Ciphertext}

/-- The primes of a valid ciphertext name the moduli of its level. -/
theorem wireModuli_primes (hctx : ctx.Shaped) (hc : c.Valid ctx) :
    ctx.wireModuli c.c0.primes = .ok (ctx.chain.lower c.level) := by
  have hprimes := hc.kept.c0.primes_eq
  have hlen : c.c0.primes.length = c.level + 1 := by
    rw [hprimes, List.length_map, hctx.length_lower hc.level_le]
  have hlevel := hc.level_le
  rw [wireModuli, hlen, Nat.add_sub_cancel, if_neg (by omega), if_pos hprimes.symm]

/-- Primes that are taken name the moduli of a level. -/
theorem exists_level_of_wireModuli {primes : List UInt64} {moduli : List RootTable}
    (h : ctx.wireModuli primes = .ok moduli) :
    ∃ level ≤ ctx.topLevel, moduli = ctx.chain.lower level := by
  rw [wireModuli] at h
  dsimp only at h
  split at h
  · cases h
  split at h
  · refine ⟨primes.length - 1, ?_, (Except.ok.inj h).symm⟩
    omega
  · cases h

/-- The rows of a polynomial over moduli of the context give it back. -/
theorem wirePoly_residues (hctx : ctx.Shaped) {level : ℕ} {a : ResiduePoly}
    (ha : a.Over (ctx.chain.lower level) .transformed) :
    wirePoly (ctx.chain.lower level) a.residues = .ok a := by
  rw [wirePoly, ResiduePoly.ofResidues?_residues (fun _ ht => hctx.degree_of_mem_lower ht) ha]

/-- The content of a valid ciphertext with a usable scale is taken as it is. -/
theorem ofWire_toWire (hctx : ctx.Shaped) (hc : c.Valid ctx)
    (hscale : (c.scale.isFinite && 0 < c.scale) = true) : ctx.ofWire c.toWire = .ok c := by
  have hmoduli : ctx.wireModuli c.toWire.primes = .ok (ctx.chain.lower c.level) :=
    wireModuli_primes hctx hc
  have hc0 : wirePoly (ctx.chain.lower c.level) c.toWire.c0 = .ok c.c0 :=
    wirePoly_residues hctx hc.kept.c0
  have hc1 : wirePoly (ctx.chain.lower c.level) c.toWire.c1 = .ok c.c1 :=
    wirePoly_residues hctx hc.kept.c1
  have hscale' : (c.toWire.scale.isFinite && 0 < c.toWire.scale) = true := hscale
  rw [ofWire, hmoduli, ok_bind, if_pos hscale', hc0, ok_bind, hc1, ok_bind, ← hc.contextId_eq]
  rfl

/-- Under every context that was generated, a valid ciphertext with a finite positive scale is
restored from its bytes as it was; a part of its bytes is refused, and so is more than its bytes. -/
theorem ofBytes_toBytes {σ : Type} {sampler : Sampler σ} {params : Parameters} {id : UInt64}
    {s s' : σ} (hctx : Answers (generate sampler params id) s ctx s') (hc : c.Valid ctx)
    (hfinite : c.scale.isFinite) (hpos : 0 < c.scale) :
    ctx.ofBytes c.toBytes = .ok c ∧
      (∀ part rest, c.toBytes = part ++ rest → rest ≠ [] →
        ctx.ofBytes part = .fail (.serialization WireError.unexpectedEnd.message)) ∧
      ∀ rest, rest ≠ [] → ctx.ofBytes (c.toBytes ++ rest) =
        .fail (.serialization (WireError.trailingBytes rest.length).message) := by
  have hshaped := shaped_of_generate hctx
  have hcountable := hc.countable hshaped
  have hscale : (c.scale.isFinite && 0 < c.scale) = true := by simp [hfinite, hpos]
  refine ⟨?_, ?_, ?_⟩
  · have hid : c.toWire.contextId = ctx.id := hc.contextId_eq
    rw [ofBytes, Ciphertext.toBytes, Wire.decode_encode hcountable, mapError_ok, ok_bind,
      if_neg (not_not.2 hid), ofWire_toWire hshaped hc hscale, mapError_ok]
  · intro part rest hbytes hrest
    rw [ofBytes, Wire.decode_cut hcountable hbytes hrest]
    rfl
  · intro rest hrest
    rw [ofBytes, Ciphertext.toBytes, Wire.decode_append hcountable hrest]
    rfl

/-- The bytes of a ciphertext at the upper level of the smallest ring, with an identifier of eight
bytes and residues of one, two and four: it is restored, without its last byte it is refused, and so
it is with one more. -/
theorem ofBytes_toBytes_smallest :
    ∃ (ctx : Context) (c : Ciphertext),
      Answers (generate Sampler.steady smallest 1099511627776) () ctx () ∧
      c.contextId = 1099511627776 ∧ c.scale = 1048576 ∧ c.level = 1 ∧
      c.c0.primes = [4193633, 1048433] ∧
      c.c0.residues = [[0, 1, 250, 251, 252, 65535, 65536, 4193632],
        [1048432, 65537, 65534, 256, 255, 254, 253, 249]] ∧
      c.c1.residues = [[4193632, 0, 0, 0, 0, 0, 0, 250], [251, 0, 0, 0, 0, 0, 0, 65536]] ∧
      ctx.ofBytes c.toBytes = .ok c ∧
      ctx.ofBytes c.toBytes.dropLast =
        .fail (.serialization WireError.unexpectedEnd.message) ∧
      ctx.ofBytes (c.toBytes ++ [0]) =
        .fail (.serialization (WireError.trailingBytes 1).message) := by
  obtain ⟨ctx, hctx, hprimes, htest⟩ := exists_smallest 1099511627776
  obtain ⟨hdegree, cs, e, hkeyed, -⟩ := keyed_of_generate Sampler.lawful_steady hctx htest
  have htop : ctx.topLevel = 1 := topLevel_of_primes hprimes
  have hid : ctx.id = 1099511627776 := (generate_cases hctx).1
  -- The first two of the tables carry the residues.
  obtain ⟨t₀, t₁, special, htables, hp₀, hp₁⟩ : ∃ t₀ t₁ special,
      ctx.chain.tables = [t₀, t₁, special] ∧ t₀.prime = 4193633 ∧ t₁.prime = 1048433 := by
    obtain ⟨t₀, ts, htables, hp₀, hts⟩ := List.map_eq_cons_iff.1 hprimes
    obtain ⟨t₁, us, rfl, hp₁, hus⟩ := List.map_eq_cons_iff.1 hts
    obtain ⟨special, vs, rfl, -, hvs⟩ := List.map_eq_cons_iff.1 hus
    obtain rfl := List.map_eq_nil_iff.1 hvs
    exact ⟨t₀, t₁, special, htables, hp₀, hp₁⟩
  have hlower : ctx.chain.lower 1 = [t₀, t₁] := by
    rw [ModulusChain.lower, htables]
    rfl
  have hdegrees : ∀ t ∈ [t₀, t₁], t.degree = 8 := fun t ht =>
    (hkeyed.sound.degree_of_mem_lower (hlower.symm ▸ ht)).trans hdegree
  have hover (xs ys : List UInt64) (hx : xs.length = 8 ∧ ∀ x ∈ xs, x < 4193633)
      (hy : ys.length = 8 ∧ ∀ y ∈ ys, y < 1048433) :
      (⟨[⟨t₀, xs⟩, ⟨t₁, ys⟩], .transformed⟩ : ResiduePoly).Over (ctx.chain.lower 1)
        .transformed := by
    have hfits : ResiduePoly.ofResidues? [xs, ys] [t₀, t₁] .transformed =
        some ⟨[⟨t₀, xs⟩, ⟨t₁, ys⟩], .transformed⟩ := by
      simpa [ResiduePoly.ofResidues?, hdegrees, hp₀, hp₁, hx, hy] using ⟨hx.2, hy.2⟩
    exact hlower ▸ ResiduePoly.over_of_ofResidues? hdegrees hfits
  let c : Ciphertext :=
    { c0 := ⟨[⟨t₀, [0, 1, 250, 251, 252, 65535, 65536, 4193632]⟩,
        ⟨t₁, [1048432, 65537, 65534, 256, 255, 254, 253, 249]⟩], .transformed⟩
      c1 := ⟨[⟨t₀, [4193632, 0, 0, 0, 0, 0, 0, 250]⟩, ⟨t₁, [251, 0, 0, 0, 0, 0, 0, 65536]⟩],
        .transformed⟩
      scale := 1048576, contextId := ctx.id }
  have hc : c.Over ctx.chain 1 :=
    ⟨hover _ _ (by simp) (by simp), hover _ _ (by simp) (by simp)⟩
  have hvalid : c.Valid ctx := ⟨rfl, htop.ge, hc⟩
  obtain ⟨hwhole, hpart, hlonger⟩ :=
    ofBytes_toBytes hctx hvalid (show (1048576 : Float).isFinite by decide +kernel)
      (show (0 : Float) < 1048576 by decide +kernel)
  have hne : c.toBytes ≠ [] := by
    intro hnil
    rw [hnil] at hwhole
    cases hwhole
  refine ⟨ctx, c, hctx, hid, rfl, rfl, ?_, rfl, rfl, hwhole, ?_, hlonger [0] (by simp)⟩
  · simp [c, ResiduePoly.primes, Channel.prime, hp₀, hp₁]
  · exact hpart _ _ (List.dropLast_append_getLast hne).symm (List.cons_ne_nil _ _)

end Context

end EncryptedArithmetic

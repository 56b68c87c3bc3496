import EncryptedArithmetic.Proofs.Ring.Reconstruction
import EncryptedArithmetic.Proofs.Scheme.Operations

/-!
# Decryption delivers a number

A valid ciphertext of a context that was generated decrypts to some number, and a ciphertext of
another context is refused. What the number is worth depends on the noise, the scale and the primes
that are left, and it need not even be finite.

## Main results

* `delivers_decrypt`: decryption never breaks a precondition.
-/

namespace EncryptedArithmetic

open Polynomial

/-- A polynomial that is kept over distinct primes has a scalar. -/
theorem Encoding.exists_decode {moduli : List RootTable} (hm : ∀ t ∈ moduli, t.Sound)
    (hnodup : (moduli.map RootTable.prime).Nodup) {a : ResiduePoly} {form : Form}
    (ha : a.Over moduli form) (scale : Float) : ∃ x, decode a scale = .ok x := by
  obtain ⟨work, hwork, how, -⟩ := ResiduePoly.exists_toCoefficient? hm ha
  have hindex : ∀ t ∈ moduli, 0 < t.degree := fun t ht =>
    Nat.pos_of_ne_zero (hm t ht).degree_ne_zero
  obtain ⟨column, hcolumn, hlength, -⟩ := ResiduePoly.exists_coefficient? hindex how
  have hprime : ∀ p ∈ moduli.map RootTable.prime, p.toNat.Prime ∧ p.toNat ≤ UInt64.size / 2 := by
    intro p hp
    obtain ⟨t, ht, rfl⟩ := List.mem_map.1 hp
    exact ⟨(hm t ht).prime, (hm t ht).prime_le⟩
  obtain ⟨x, hx⟩ := Reconstruction.exists_toFloat?
    (show column.length = (moduli.map RootTable.prime).length by rw [hlength, List.length_map])
    hprime hnodup
  exact ⟨x / scale, by simp only [decode, hwork, hcolumn, how.primes_eq, hx, ok_bind, pure_eq_ok]⟩

namespace Context

variable {ctx : Context} {c : Ciphertext}

/-- The phase of a valid ciphertext is kept over the primes of its level. -/
theorem Working.exists_phase? (hctx : ctx.Working) {S : ℤ[X]}
    (hS : ctx.secretKey.Holds ctx.chain S) (hc : c.Valid ctx) :
    ∃ a, ctx.phase? c = .ok a ∧ a.Over (ctx.chain.lower c.level) .transformed ∧
      ∀ i t, (ctx.chain.lower c.level)[i]? = some t → a.image i t = c.phase S i t := by
  have hs : ∀ t ∈ ctx.chain.lower c.level, t.Sound := fun _ ht => hctx.sound.sound_of_mem_lower ht
  obtain ⟨s, hs', hos, his⟩ := hS.exists_leading? hctx.sound hc.level_le
  obtain ⟨product, hproduct, hop, hip⟩ := ResiduePoly.exists_mul? hs hc.kept.c1 hos
  obtain ⟨sum, hsum, hosum, hisum⟩ := ResiduePoly.exists_add? hs hop hc.kept.c0
  refine ⟨sum, by simp only [phase?, hc.kept.c1.length_eq, hs', hproduct, hsum, ok_bind], hosum, ?_⟩
  intro i t ht
  rw [(hisum i t ht).2, hip i t ht, his i t ht, Ciphertext.phase, add_comm]

/-- A valid ciphertext decrypts to a number. -/
theorem Working.exists_decrypt (hctx : ctx.Working) (hc : c.Valid ctx) :
    ∃ x, ctx.decrypt c = .ok x := by
  obtain ⟨cs, e, hkeyed⟩ := hctx.keyed
  obtain ⟨a, ha, hoa, -⟩ := hctx.exists_phase? hkeyed.holds hc
  have hs : ∀ t ∈ ctx.chain.lower c.level, t.Sound := fun _ ht => hctx.sound.sound_of_mem_lower ht
  obtain ⟨x, hx⟩ := Encoding.exists_decode hs hctx.sound.nodup_primes_lower hoa c.scale
  exact ⟨x, by simp only [decrypt, requireOwn_of_eq hc.contextId_eq, ha, hx, liftM_ok, ok_bind]⟩

/-- A ciphertext that is valid where it is accepted decrypts to a number, or it is refused. -/
theorem delivers_decrypt (hctx : ctx.Working) (hc : c.Genuine ctx) :
    (ctx.decrypt c).Delivers fun _ => c.Valid ctx := by
  by_cases hid : c.contextId = ctx.id
  · obtain ⟨x, hx⟩ := hctx.exists_decrypt (hc hid)
    rw [hx]
    exact Result.delivers_ok (hc hid)
  · rw [decrypt, requireOwn_of_ne hid]
    exact Result.delivers_fail _

end Context

end EncryptedArithmetic

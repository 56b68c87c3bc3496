import EncryptedArithmetic.Proofs.Decimal.Rounding
import EncryptedArithmetic.Proofs.Ring.MixedRadix
import EncryptedArithmetic.Proofs.Scheme.Context

/-!
# The modulus and the scale of a context

The primes up to a level multiply to the modulus of the level. Parameters that were accepted keep it
within 1000 bits, and they give a context a scale that is a power of two.

## Main definitions

* `Context.modulus`: the product of the primes up to a level.
* `Context.Scaled`: the scale is a given power of two.

## Main results

* `scaled_of_generate`: every context that was generated is scaled.
* `modulus_lt_of_generate`: its moduli are small enough for 1024-bit arithmetic.
-/

namespace EncryptedArithmetic

open Binary64

namespace Context

/-- The product of the primes up to a level. -/
def modulus (ctx : Context) (level : ℕ) : ℕ :=
  ((ctx.primes.take (level + 1)).map UInt64.toNat).prod

/-- The primes are not zero, and the scale is a power of two. -/
structure Scaled (ctx : Context) (b : ℕ) : Prop where
  prime_pos : ∀ p ∈ ctx.primes, 0 < p.toNat
  unpack_scale : ctx.scale.toModel.unpack = .finite .positive (2 ^ 52) (b - 52) (by decide)
  bits_lt : b < 60

/-- A context of parameters that were accepted is scaled. -/
theorem scaled_of_generate {σ : Type} {sampler : Sampler σ} {params : Parameters} {id : UInt64}
    {ctx : Context} {s s' : σ} (h : Answers (generate sampler params id) s ctx s') :
    ctx.Scaled params.scaleBits.toNat := by
  obtain ⟨-, -, hscale, hcheck, ⟨primes, hprimes, hchain⟩, -⟩ := generate_cases h
  have hparams := Parameters.accepted_of_check hcheck
  obtain ⟨leading, middle, special, hshape⟩ := hparams.shape
  have hbits : params.scaleBits.toNat < 60 := by
    have hlt := UInt32.lt_iff_toNat_lt.1 hshape.scale_lt
    have hle := UInt32.le_iff_toNat_le.1 (hparams.width_mem leading (by simp [hshape.widths_eq])).2
    change leading.toNat ≤ 60 at hle
    omega
  refine ⟨?_, ?_, hbits⟩
  · intro p hp
    rw [Context.primes, ModulusChain.primes_of_build hchain] at hp
    obtain ⟨w, -, hwidth⟩ := exists_ofWidth hprimes hp
    exact (Nat.two_pow_pos _).trans_le hwidth.lower
  · -- The conversion of a power of two is run for each of the widths.
    have hpowers : ∀ b < 60, ofFloat? (powerOfTwo b) = some ⟨false, 2 ^ 52, (b : ℤ) - 52⟩ := by
      decide +kernel
    rw [hscale]
    exact unpack_of_ofFloat? (hpowers _ hbits) (by decide)

namespace Scaled

variable {ctx : Context} {b : ℕ}

theorem exact_scale (h : ctx.Scaled b) : exact ctx.scale = 2 ^ b := by
  have hsign : (if (Float.Model.UnpackedFloat.Sign.positive == .negative) then -1 else 1 : ℚ) = 1 :=
    rfl
  have htwo : (2 : ℚ) ^ (52 : ℤ) = 2 ^ 52 := by norm_num
  rw [exact_of_finite h.unpack_scale, hsign, zpow_sub₀ (by norm_num), zpow_natCast, htwo]
  push_cast
  field_simp
  norm_num

theorem modulus_pos (h : ctx.Scaled b) (level : ℕ) : 0 < ctx.modulus level :=
  Reconstruction.product_pos fun p hp => h.prime_pos p (List.mem_of_mem_take hp)

end Scaled

/-! ## The size of the modulus -/

/-- Primes of given widths multiply to at most the power of two of their total width. -/
theorem product_le_of_ofWidth {ws : List UInt32} {ps : List UInt64}
    (h : List.Forall₂ Modular.OfWidth ws ps) (total : ℕ) :
    2 ^ total * Reconstruction.product ps ≤
      2 ^ ws.foldl (fun total bits => total + bits.toNat) total := by
  induction h generalizing total with
  | nil => simp [Reconstruction.product]
  | @cons w p ws ps hwidth _ ih =>
    calc 2 ^ total * Reconstruction.product (p :: ps)
        = 2 ^ total * p.toNat * Reconstruction.product ps := by
          rw [Reconstruction.product, List.map_cons, List.prod_cons, ← mul_assoc]
          rfl
      _ ≤ 2 ^ (total + w.toNat) * Reconstruction.product ps := by
          rw [pow_add]
          gcongr
          exact hwidth.upper.le
      _ ≤ _ := ih (total + w.toNat)

/-- The modulus of a level is a product of some of the primes. -/
theorem modulus_le {ctx : Context} (hpos : ∀ p ∈ ctx.primes, 0 < p.toNat) (level : ℕ) :
    ctx.modulus level ≤ Reconstruction.product ctx.primes :=
  Reconstruction.product_take_le hpos (level + 1)

/-- The moduli of a context that was generated have at most 1000 bits. -/
theorem modulus_lt_of_generate {σ : Type} {sampler : Sampler σ} {params : Parameters} {id : UInt64}
    {ctx : Context} {s s' : σ} (h : Answers (generate sampler params id) s ctx s') (level : ℕ) :
    ctx.modulus level < 2 ^ 1023 := by
  have hpos := (scaled_of_generate h).prime_pos
  obtain ⟨-, -, -, hcheck, ⟨primes, hprimes, hchain⟩, -⟩ := generate_cases h
  have hbits := (Parameters.accepted_of_check hcheck).modulusBits_le
  have hproduct := product_le_of_ofWidth (primes_of_choosePrimes hprimes).2 0
  rw [pow_zero, one_mul] at hproduct
  have hchosen : ctx.primes = primes := ModulusChain.primes_of_build hchain
  rw [← hchosen] at hproduct
  have hwide : params.modulusBits < 1023 := hbits.trans_lt (by decide)
  have hlt := hproduct.trans_lt (pow_lt_pow_right₀ one_lt_two hwide)
  exact (modulus_le hpos level).trans_lt hlt

end Context

end EncryptedArithmetic

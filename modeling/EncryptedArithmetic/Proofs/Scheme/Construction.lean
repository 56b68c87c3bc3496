import EncryptedArithmetic.Proofs.Key.Galois
import EncryptedArithmetic.Proofs.Scheme.Scale
import EncryptedArithmetic.Proofs.Scheme.Validity
import Mathlib.Data.Nat.Size

/-!
# Accepted parameters have a context

The rules for parameters ask for what the layers below need of them: widths that the search for
primes can shift by, a degree with tables, at least one data prime beside the special one, a weight
and a deviation that can be drawn, and a modulus that leaves room in 1024-bit arithmetic. So where
the primes are found and each of them has a root, the context is built, whatever is drawn.

## Main definitions

* `Parameters.RealizedBy`: what some primes are for parameters.

## Main results

* `realizedBy_of_choosePrimes`: the primes that are chosen for accepted parameters.
* `exists_answers_generate`: the run that builds a context has an answer.
* `generate_of_check`: accepted parameters get their context.
-/

namespace EncryptedArithmetic

open EncryptedArithmetic.Modular Binary64

/-! ## The sum of the widths -/

namespace Parameters

variable {params : Parameters}

/-- The sum of up to `2 ^ 26` widths in range is a 32-bit word. -/
theorem modulusBits?_eq_ok (hwidth : ∀ w ∈ params.widths, w ≤ greatestWidth)
    (hlength : params.widths.length ≤ 2 ^ 26) :
    params.modulusBits? = .ok params.modulusBits := by
  -- No width is above sixty, so the fold adds at most sixty for each.
  have hfold {ws : List UInt32} (hws : ∀ w ∈ ws, w ≤ greatestWidth) (total : ℕ) :
      ws.foldl (fun total bits => total + bits.toNat) total ≤ total + 60 * ws.length := by
    induction ws generalizing total with
    | nil => exact Nat.le_refl _
    | cons w ws ih =>
      obtain ⟨hw, hws⟩ := List.forall_mem_cons.1 hws
      have hle : w.toNat ≤ 60 := UInt32.le_iff_toNat_le.1 hw
      have hrest := ih hws (total + w.toNat)
      rw [List.foldl_cons, List.length_cons]
      omega
  have hsum : params.modulusBits ≤ 0 + 60 * params.widths.length := hfold hwidth 0
  have hsize : UInt32.size = 2 ^ 32 := rfl
  rw [modulusBits?, if_pos (by omega)]

/-! ## The primes -/

/-- The degree of accepted parameters is a word. -/
theorem Accepted.toNat_degree (hparams : params.Accepted) :
    params.degree.toUInt64.toNat = params.degree := by
  have hle : params.degree ≤ 32768 := hparams.degree_le
  have hsize : UInt64.size = 18446744073709551616 := rfl
  exact UInt64.toNat_ofNat_of_lt' (by omega)

/-- The primes that some parameters ask for: one for each width, exactly as wide, that leaves the
remainder one modulo twice the degree. None of them is taken twice, and their product has at most
1000 bits. -/
structure RealizedBy (params : Parameters) (primes : List UInt64) : Prop where
  nodup : primes.Nodup
  prime : ∀ q ∈ primes, q.toNat.Prime
  size_eq : List.Forall₂ (fun w q => q.toNat.size = w.toNat) params.widths primes
  mod_eq : ∀ q ∈ primes, q.toNat % (2 * params.degree) = 1
  product_lt : Reconstruction.product primes < 2 ^ 1000

/-- Integers can be read back over the primes of any level: their product leaves room for a double,
also on the way. -/
theorem RealizedBy.fits {primes : List UInt64} (h : params.RealizedBy primes)
    (hlt : ∀ q ∈ primes, q.toNat < 2 ^ 63) (count : ℕ) :
    Reconstruction.Fits (primes.take count) := by
  have hle : Reconstruction.product (primes.take count) ≤ Reconstruction.product primes :=
    Reconstruction.product_take_le (fun q hq => (h.prime q hq).pos) count
  have hpow : 2 ^ 1000 < 2 ^ 1023 := pow_lt_pow_right₀ one_lt_two (by omega)
  refine Reconstruction.fits_of_product_lt ?_ (h.nodup.sublist (List.take_sublist _ _))
    ((hle.trans_lt h.product_lt).trans hpow)
  intro q hq
  have hmem := List.mem_of_mem_take hq
  exact ⟨h.prime q hmem, (hlt q hmem).le⟩

end Parameters

/-- A word of `w` bits has the size `w`. -/
theorem Modular.OfWidth.size_eq {w : UInt32} {p : UInt64} (h : OfWidth w p) :
    p.toNat.size = w.toNat := by
  have hle : p.toNat.size ≤ w.toNat := Nat.size_le.2 h.upper
  have hlt : w.toNat - 1 < p.toNat.size := Nat.lt_size.2 h.lower
  have hpos := h.pos
  omega

namespace Context

variable {params : Parameters} {primes : List UInt64}

/-- The product of the primes stays strictly below the power of two of their total width. -/
theorem product_lt_of_choosePrimes (hparams : params.Accepted)
    (hprimes : choosePrimes params = .ok primes) : Reconstruction.product primes < 2 ^ 1000 := by
  obtain ⟨leading, middle, special, hshape⟩ := hparams.shape
  have hwidths := (primes_of_choosePrimes hprimes).2
  have hbits : params.modulusBits ≤ 1000 := hparams.modulusBits_le
  rw [Parameters.modulusBits, hshape.widths_eq, List.foldl_cons, Nat.zero_add] at hbits
  rw [hshape.widths_eq] at hwidths
  -- The bound of the first prime is strict, and the others multiply to at most their bound.
  cases hwidths with
  | @cons _ p _ rest hleading hrest =>
    have hpos : 0 < Reconstruction.product rest := by
      apply Reconstruction.product_pos
      intro q hq
      obtain ⟨w, -, hwidth⟩ := exists_ofWidth hprimes (List.mem_cons_of_mem p hq)
      exact (Nat.two_pow_pos _).trans_le hwidth.lower
    calc Reconstruction.product (p :: rest)
        = p.toNat * Reconstruction.product rest := by
          rw [Reconstruction.product, List.map_cons, List.prod_cons, Reconstruction.product]
      _ < 2 ^ leading.toNat * Reconstruction.product rest :=
          Nat.mul_lt_mul_of_pos_right hleading.upper hpos
      _ ≤ _ := product_le_of_ofWidth hrest leading.toNat
      _ ≤ 2 ^ 1000 := pow_le_pow_right₀ one_le_two hbits

/-- The primes that are chosen are those that accepted parameters ask for. -/
theorem realizedBy_of_choosePrimes (hparams : params.Accepted)
    (hprimes : choosePrimes params = .ok primes) (htest : ∀ q ∈ primes, TestExact q) :
    params.RealizedBy primes := by
  obtain ⟨hnodup, hwidths⟩ := primes_of_choosePrimes hprimes
  refine ⟨hnodup, ?_, hwidths.imp fun _ _ h => h.size_eq, ?_,
    product_lt_of_choosePrimes hparams hprimes⟩
  · intro q hq
    obtain ⟨w, -, hwidth⟩ := exists_ofWidth hprimes hq
    exact prime_of_isPrime (htest q hq) hwidth.isPrime
  · intro q hq
    rw [choosePrimes, Result.mapError_eq_ok_iff] at hprimes
    have hmod := mod_of_largestPrimes hprimes hq
    rwa [hparams.toNat_degree] at hmod

/-- The scale is below the lowest prime: it has fewer bits or as many less one, and the prime is
odd. -/
theorem exists_scale_lt (hparams : params.Accepted) (hprimes : choosePrimes params = .ok primes)
    (hreal : params.RealizedBy primes) :
    ∃ q, primes.head? = some q ∧ 2 ^ params.scaleBits.toNat < q.toNat := by
  obtain ⟨leading, middle, special, hshape⟩ := hparams.shape
  have hwidths := (primes_of_choosePrimes hprimes).2
  have hlt := UInt32.lt_iff_toNat_lt.1 hshape.scale_lt
  have hpos : params.scaleBits.toNat ≠ 0 := fun h0 => hshape.scale_pos (UInt32.toNat_inj.1 h0)
  rw [hshape.widths_eq] at hwidths
  cases hwidths with
  | @cons _ q _ rest hleading _ =>
    refine ⟨q, rfl, ?_⟩
    have hle : 2 ^ params.scaleBits.toNat ≤ q.toNat :=
      (Nat.pow_le_pow_right two_pos (by omega)).trans hleading.lower
    -- The lowest prime is odd and the scale is not, so they differ.
    have hodd : q.toNat % 2 = 1 := by
      rw [← Nat.mod_mod_of_dvd _ (Nat.dvd_mul_right 2 params.degree),
        hreal.mod_eq q List.mem_cons_self]
    have heven : 2 ^ params.scaleBits.toNat % 2 = 0 :=
      Nat.mod_eq_zero_of_dvd (dvd_pow_self 2 hpos)
    omega

/-! ## The run -/

/-- The chain of accepted parameters can be built. -/
theorem exists_build (hparams : params.Accepted) (hprimes : choosePrimes params = .ok primes)
    (hreal : params.RealizedBy primes)
    (hroot : ∀ q ∈ primes, (RootTable.root? q params.degree.toUInt64).isSome) :
    ∃ chain, ModulusChain.build primes params.degree = .ok chain := by
  obtain ⟨leading, middle, special, hshape⟩ := hparams.shape
  have hlength : 2 ≤ primes.length := by
    rw [← hreal.size_eq.length_eq, hshape.widths_eq]
    simp
  refine ModulusChain.exists_build hlength fun q hq => ?_
  -- The bounds of the degree keep the arithmetic of words in range.
  obtain ⟨w, -, hwidth⟩ := exists_ofWidth hprimes hq
  have hge : 8 ≤ params.degree := hparams.le_degree
  have hle : params.degree ≤ 32768 := hparams.degree_le
  have hsize : UInt64.size = 18446744073709551616 := rfl
  exact RootTable.exists_build (hreal.prime q hq) (by omega) hparams.degree_eq (by omega)
    (hreal.mod_eq q hq) hwidth.isPrime (hroot q hq)

variable {σ : Type} {sampler : Sampler σ}

/-- The Galois keys are drawn where the parameters ask for them. Either way there is an answer, and
the context is completed with it. -/
theorem exists_answers_galoisKeys (hsampler : sampler.Lawful) {chain : ModulusChain}
    (hc : chain.Sound) {secret : SecretKey} {S : Polynomial ℤ} (hsecret : secret.Holds chain S)
    (hcount : Sampler.addressable chain.degree)
    (hstd : (params.errorStd.isFinite && 0 < params.errorStd) = true) (wanted : Bool)
    (complete : Option GaloisKeySet → Context) (s : σ) :
    ∃ keys? s', Answers
      (if wanted then do
        let keys? ← some <$> ExceptT.adapt (Failure.map SchemeError.key)
          (GaloisKeySet.generate sampler chain secret params.errorStd)
        pure (complete keys?)
      else do
        let keys? ← pure none
        pure (complete keys?)) s (complete keys?) s' := by
  cases wanted with
  | true =>
    obtain ⟨keys, s', hkeys⟩ :=
      GaloisKeySet.exists_answers_generate hsampler hc hsecret hcount hstd s
    refine ⟨some keys, s', ?_⟩
    simp only [if_true, answers_bind, answers_map, answers_adapt]
    exact ⟨some keys, s', ⟨keys, hkeys, rfl⟩, answers_pure.2 ⟨rfl, rfl⟩⟩
  | false => exact ⟨none, s, answers_pure.2 ⟨rfl, rfl⟩⟩

/-- Every step of the run has an answer once the chain is built, so the run has one. -/
theorem exists_answers_generate (hsampler : sampler.Lawful) (hcheck : params.check = .ok ())
    (hprimes : choosePrimes params = .ok primes) {chain : ModulusChain}
    (hchain : ModulusChain.build primes params.degree = .ok chain) (hc : chain.Sound)
    (id : UInt64) (s : σ) : ∃ ctx s', Answers (generate sampler params id) s ctx s' := by
  have hparams := Parameters.accepted_of_check hcheck
  have hdegree := (ModulusChain.tables_of_build hchain).1
  have hcount : Sampler.addressable chain.degree :=
    Sampler.addressable_of_le (hdegree.trans_le hparams.degree_le)
  have hstd := hparams.errorStd_pos
  -- The keys, each drawn from the state that the one before left.
  obtain ⟨secret, s₁, hsecret⟩ := SecretKey.exists_answers_generate hsampler hc hcount
    hparams.weight_pos (hdegree.symm ▸ hparams.weight_le) s
  have hholds := (SecretKey.holds_of_generate hsampler hc hsecret).2
  obtain ⟨publicKey, s₂, hpublic⟩ :=
    PublicKey.exists_answers_generate hsampler hc hholds hcount hstd s₁
  obtain ⟨square, hsquare, hosquare, -⟩ := hholds.exists_square? hc.table_sound
  obtain ⟨relinearizationKey, s₃, hrelinearization⟩ :=
    SwitchingKey.exists_answers_generate hsampler hc hholds hosquare hcount hstd s₂
  obtain ⟨galoisKeys?, s₄, hgalois⟩ :=
    exists_answers_galoisKeys hsampler hc hholds hcount hstd params.galoisKeys
      (Context.mk id params chain (powerOfTwo params.scaleBits.toNat) secret publicKey
        relinearizationKey) s₃
  simp only [generate, generateRelinearization, answers_bind, answers_liftM_result,
    answers_liftM_fault, answers_adapt, mapError_eq_ok_iff, Result.mapError_eq_ok_iff]
  exact ⟨_, s₄, (), s, ⟨hcheck, rfl⟩, primes, s, ⟨hprimes, rfl⟩, chain, s, ⟨hchain, rfl⟩, secret,
    s₁, hsecret, publicKey, s₂, hpublic, relinearizationKey, s₃,
    ⟨square, s₂, ⟨hsquare, rfl⟩, hrelinearization⟩, hgalois⟩

/-- Accepted parameters whose primes are found get a context from every source: no draw leads to an
error or to a broken precondition. The primes are those that the parameters ask for, reading
integers back over the primes of any level leaves room for a double, the top level is the number of
multiplications that the parameters announce, and the scale is below the lowest prime. -/
theorem generate_of_check (hsampler : sampler.Lawful) (hcheck : params.check = .ok ())
    (hprimes : choosePrimes params = .ok primes) (htest : ∀ q ∈ primes, TestExact q)
    (hroot : ∀ q ∈ primes, (RootTable.root? q params.degree.toUInt64).isSome) (id : UInt64) :
    params.modulusBits? = .ok params.modulusBits ∧
      params.RealizedBy primes ∧ (∀ count, Reconstruction.Fits (primes.take count)) ∧
      ∀ s, ∃ ctx s', Answers (generate sampler params id) s ctx s' ∧
        ctx.id = id ∧ ctx.params = params ∧ ctx.primes = primes ∧ ctx.topLevel = params.depth ∧
        exact ctx.scale = 2 ^ params.scaleBits.toNat ∧
        ∃ q, ctx.primes.head? = some q ∧ exact ctx.scale < q.toNat := by
  have hparams := Parameters.accepted_of_check hcheck
  have hreal := realizedBy_of_choosePrimes hparams hprimes htest
  have hword : ∀ q ∈ primes, q.toNat.Prime ∧ q.toNat < 2 ^ 63 := by
    intro q hq
    obtain ⟨w, hw, hwidth⟩ := exists_ofWidth hprimes hq
    exact ⟨hreal.prime q hq, toNat_lt_of_ofWidth hparams hw hwidth⟩
  obtain ⟨chain, hchain⟩ := exists_build hparams hprimes hreal hroot
  obtain ⟨-, -, hc⟩ := ModulusChain.build_sound hchain hword hreal.nodup
  refine ⟨?_, hreal, hreal.fits fun q hq => (hword q hq).2, ?_⟩
  · -- Far fewer widths than that fit into 1000 bits.
    have hlength := hparams.length_widths_le
    exact Parameters.modulusBits?_eq_ok (fun w hw => (hparams.width_mem w hw).2) (by omega)
  · intro s
    obtain ⟨ctx, s', hctx⟩ := exists_answers_generate hsampler hcheck hprimes hchain hc id s
    obtain ⟨hid, hsame, -, -, ⟨primes', hprimes', hchain'⟩, -⟩ := generate_cases hctx
    obtain rfl : primes' = primes := Except.ok.inj (hprimes'.symm.trans hprimes)
    have heq : ctx.primes = primes' := ModulusChain.primes_of_build hchain'
    have hscale := (scaled_of_generate hctx).exact_scale
    obtain ⟨q, hq, hlt⟩ := exists_scale_lt hparams hprimes hreal
    refine ⟨ctx, s', hctx, hid, hsame, heq, ?_, hscale, q, heq ▸ hq, ?_⟩
    · rw [topLevel_of_primes heq, ← hreal.size_eq.length_eq, Parameters.depth]
    · rw [hscale]
      exact_mod_cast hlt

/-- The smallest ring with its Galois keys: three primes of 22, 20 and 22 bits, so one
multiplication is supported, and the scale of 20 bits is below the first of them. -/
theorem generate_of_check_smallest :
    ({ smallest with galoisKeys := true } : Parameters).check = .ok () ∧
      ∃ ctx, Answers (generate Sampler.steady { smallest with galoisKeys := true } 7) () ctx () ∧
        ctx.id = 7 ∧ ctx.primes = [4193633, 1048433, 4193569] ∧ ctx.topLevel = 1 ∧
        Reconstruction.Fits [4193633, 1048433] ∧ exact ctx.scale = 2 ^ 20 ∧
        exact ctx.scale < 4193633 := by
  have hchecked : ({ smallest with galoisKeys := true } : Parameters).check.isOk := by
    decide +kernel
  have hcheck : ({ smallest with galoisKeys := true } : Parameters).check = .ok () := by
    rcases h : ({ smallest with galoisKeys := true } : Parameters).check with _ | ⟨⟩
    · rw [h] at hchecked
      cases hchecked
    · rfl
  have hchosen : (choosePrimes { smallest with galoisKeys := true }).toOption =
      some [4193633, 1048433, 4193569] := by
    decide +kernel
  have hprimes : choosePrimes { smallest with galoisKeys := true } =
      .ok [4193633, 1048433, 4193569] := by
    rcases h : choosePrimes { smallest with galoisKeys := true } with _ | ps
    · rw [h] at hchosen
      cases hchosen
    · rw [h] at hchosen
      exact congrArg Except.ok (Option.some.inj hchosen)
  have htest : ∀ q ∈ ([4193633, 1048433, 4193569] : List UInt64), TestExact q := by
    have hprime : ∀ q ∈ ([4193633, 1048433, 4193569] : List UInt64), q.toNat.Prime := by
      norm_num [UInt64.toNat_ofNat]
    exact fun q hq _ => hprime q hq
  have hroots : ([4193633, 1048433, 4193569] : List UInt64).all fun q =>
      (RootTable.root? q (8 : ℕ).toUInt64).isSome := by
    decide +kernel
  have hroot : ∀ q ∈ ([4193633, 1048433, 4193569] : List UInt64),
      (RootTable.root? q (8 : ℕ).toUInt64).isSome :=
    List.all_eq_true.1 hroots
  obtain ⟨-, -, hfits, hrun⟩ :=
    generate_of_check Sampler.lawful_steady hcheck hprimes htest hroot 7
  obtain ⟨ctx, ⟨⟩, hctx, hid, -, heq, htop, hscale, q, hq, hlt⟩ := hrun ()
  rw [heq] at hq
  obtain rfl := Option.some.inj hq
  have hnat : (4193633 : UInt64).toNat = 4193633 := rfl
  rw [hnat] at hlt
  exact ⟨hcheck, ctx, hctx, hid, heq, htop, hfits 2, hscale, by exact_mod_cast hlt⟩

end Context

end EncryptedArithmetic

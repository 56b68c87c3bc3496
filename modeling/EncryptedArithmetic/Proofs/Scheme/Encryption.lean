import EncryptedArithmetic.Proofs.Scheme.Decryption
import EncryptedArithmetic.Proofs.Scheme.Encoding
import EncryptedArithmetic.Proofs.Scheme.Scale

/-!
# Fresh ciphertexts and their decryption

A fresh ciphertext carries the integer of its scalar, the error of the public key times the mask of
the encryption, and the two errors of the encryption, the second one times the secret. Decryption
finds the constant coefficient of this integer polynomial, unless it reaches half the modulus, and
converts it to a float. Without errors it is the integer that the scalar was encoded as.

## Main definitions

* `EncryptionDraws`: what an encryption draws.
* `freshPhase`: what a fresh ciphertext carries.

## Main results

* `Working.answers_encrypt`: the ciphertext of a scalar that is taken.
* `Working.exists_centered?`: the integer that decryption finds.
* `decrypt_encrypt_of_generate`: both in every context that was generated.
-/

namespace EncryptedArithmetic

open Polynomial Binary64 EncryptedArithmetic.Modular

namespace Context

variable {σ : Type} {sampler : Sampler σ} {ctx : Context}

/-! ## What an encryption draws -/

/-- A ternary mask and the two errors of the components. -/
structure EncryptionDraws where
  mask : List ℤ
  error0 : List ℤ
  error1 : List ℤ

/-- What the source gives for an encryption, and the state that it is left in. -/
def encryptionDraws (S : Sampler σ) (ctx : Context) (t : σ) : EncryptionDraws × σ :=
  let (mask, t) := S.ternary ctx.chain.degree ctx.params.weight t
  let (error0, t) := S.gaussian ctx.chain.degree ctx.params.errorStd t
  let (error1, t) := S.gaussian ctx.chain.degree ctx.params.errorStd t
  (⟨mask, error0, error1⟩, t)

/-- What a fresh ciphertext of the integer `m` carries under the secret `S`, where `E` is the error
of the public key. -/
noncomputable def freshPhase (m : ℤ) (E S : ℤ[X]) (d : EncryptionDraws) : ℤ[X] :=
  C m + E * ofCoefficients d.mask + ofCoefficients d.error0 + ofCoefficients d.error1 * S

/-! ## Encryption -/

/-- A scalar that has an integer is encrypted, and the ciphertext carries what it should in every
channel of the top level. -/
theorem Working.answers_encrypt (hsampler : sampler.Lawful) (hctx : ctx.Working) {value : Float}
    {m : ℤ} (hm : Encoding.integer? value ctx.scale ((ctx.primes.head?).getD 0) = some m) (t : σ) :
    ∃ c, Answers (encrypt sampler ctx value) t c (ctx.encryptionDraws sampler t).2 ∧
      c.Valid ctx ∧ c.level = ctx.topLevel ∧ c.scale = ctx.scale ∧
      ∀ E S : ℤ[X], (∀ i q, (ctx.chain.lower ctx.topLevel)[i]? = some q →
          MaskedPair.phase ctx.publicKey S i q = q.ofInt E) →
        ∀ i q, (ctx.chain.lower ctx.topLevel)[i]? = some q →
          c.phase S i q = q.ofInt (freshPhase m E S (ctx.encryptionDraws sampler t).1) := by
  have hc := hctx.sound
  have hs : ∀ q ∈ ctx.chain.lower ctx.topLevel, q.Sound := fun _ hq => hc.sound_of_mem_lower hq
  have hn : ∀ q ∈ ctx.chain.lower ctx.topLevel, q.degree = ctx.chain.degree := fun _ hq =>
    hc.degree_of_mem_lower hq
  have hcount : Sampler.addressable ctx.chain.degree :=
    Sampler.addressable_of_le (hctx.shaped.chain_degree.trans_le hctx.shaped.degree_le)
  -- The three draws, and their transformed forms over the primes of the top level.
  set mask := sampler.ternary ctx.chain.degree ctx.params.weight t with hmask
  set error0 := sampler.gaussian ctx.chain.degree ctx.params.errorStd mask.2 with herror0
  set error1 := sampler.gaussian ctx.chain.degree ctx.params.errorStd error0.2 with herror1
  obtain ⟨u, hu, hou, hiu⟩ := ResiduePoly.exists_ofSignedTransformed? hs hn hc.lower_ne_nil
    (hsampler.ternary_length ctx.chain.degree ctx.params.weight t)
  obtain ⟨e0, he0, hoe0, hie0⟩ := ResiduePoly.exists_ofSignedTransformed? hs hn hc.lower_ne_nil
    (hsampler.gaussian_length ctx.chain.degree ctx.params.errorStd mask.2)
  obtain ⟨e1, he1, hoe1, hie1⟩ := ResiduePoly.exists_ofSignedTransformed? hs hn hc.lower_ne_nil
    (hsampler.gaussian_length ctx.chain.degree ctx.params.errorStd error0.2)
  obtain ⟨c, hcipher, hvalid, hlevel, hscale, hphase⟩ :=
    hctx.exists_encryptWith? (ResiduePoly.over_constant hs m) hou hoe0 hoe1
  refine ⟨c, ?_, hvalid, hlevel, hscale, ?_⟩
  · have hencode : Encoding.encode value ctx.scale (ctx.chain.lower ctx.topLevel)
        ((ctx.primes.head?).getD 0) = .ok (.constant m (ctx.chain.lower ctx.topLevel)) := by
      rw [Encoding.encode, hm]
    simp only [encrypt, answers_bind, answers_liftM_result, answers_liftM_fault]
    exact ⟨_, t, ⟨hencode, rfl⟩,
      _, _, Sampler.answers_drawTernary_of_addressable hcount hctx.weight_le t,
      _, _, Sampler.answers_drawGaussian_of_addressable hcount hctx.errorStd_pos mask.2,
      _, _, Sampler.answers_drawGaussian_of_addressable hcount hctx.errorStd_pos error0.2,
      u, _, ⟨hu, rfl⟩, e0, _, ⟨he0, rfl⟩, e1, _, ⟨he1, rfl⟩, hcipher, rfl⟩
  · intro E S hhides i q hq
    rw [hphase S i q hq, hhides i q hq, hiu i q hq, hie0 i q hq, hie1 i q hq,
      ResiduePoly.image_constant hs m hq, freshPhase]
    simp only [map_add, map_mul]
    change _ = q.ofInt (C m) + q.ofInt E * q.ofInt (ofCoefficients mask.1) +
      q.ofInt (ofCoefficients error0.1) + q.ofInt (ofCoefficients error1.1) * q.ofInt S
    ring

/-! ## Decryption -/

/-- Decryption finds the constant coefficient of the integer polynomial that a ciphertext carries,
if it is below half the modulus of the level. -/
theorem Working.exists_centered? (hctx : ctx.Working) {S : ℤ[X]}
    (hS : ctx.secretKey.Holds ctx.chain S) {c : Ciphertext} (hc : c.Valid ctx)
    (hmodulus : ctx.modulus c.level < 2 ^ 1023) {F : ℤ[X]}
    (hF : ∀ i q, (ctx.chain.lower c.level)[i]? = some q → c.phase S i q = q.ofInt F) :
    ∃ plain r, ctx.phase? c = .ok plain ∧
      (∀ i q, (ctx.chain.lower c.level)[i]? = some q → plain.image i q = q.ofInt F) ∧
      Encoding.centered? plain = .ok r ∧
      ctx.decrypt c = .ok (Encoding.signedToFloat r / c.scale) ∧
      (2 * |(F %ₘ (X ^ ctx.chain.degree + 1)).coeff 0| < ctx.modulus c.level →
        Reconstruction.signed r = (F %ₘ (X ^ ctx.chain.degree + 1)).coeff 0) := by
  have hs : ∀ q ∈ ctx.chain.lower c.level, q.Sound := fun _ hq => hctx.sound.sound_of_mem_lower hq
  have hn : ∀ q ∈ ctx.chain.lower c.level, q.degree = ctx.chain.degree := fun _ hq =>
    hctx.sound.degree_of_mem_lower hq
  have hproduct : Reconstruction.product ((ctx.chain.lower c.level).map RootTable.prime) =
      ctx.modulus c.level := by
    rw [ModulusChain.lower, List.map_take]
    rfl
  obtain ⟨plain, hplain, hoplain, hiplain⟩ := hctx.exists_phase? hS hc
  have himage : ∀ i q, (ctx.chain.lower c.level)[i]? = some q → plain.image i q = q.ofInt F :=
    fun i q hq => (hiplain i q hq).trans (hF i q hq)
  obtain ⟨r, hr, hsigned⟩ := Encoding.exists_centered? hs hn
    (Nat.pos_of_ne_zero hctx.sound.degree_ne_zero) hctx.sound.nodup_primes_lower
    (hproduct ▸ hmodulus) hoplain himage
  refine ⟨plain, r, hplain, himage, hr, ?_, hproduct ▸ hsigned⟩
  simp only [decrypt, requireOwn_of_eq hc.contextId_eq, hplain, liftM_ok, ok_bind,
    Encoding.decode_eq, hr]
  rfl

/-! ## Without errors -/

/-- Without errors a fresh ciphertext carries the integer of its scalar. -/
theorem coeff_freshPhase_of_errors_zero {n : ℕ} (hn : n ≠ 0) {m : ℤ} {es : List ℤ} {S : ℤ[X]}
    {d : EncryptionDraws} (h : ∀ x ∈ es ++ d.error0 ++ d.error1, x = 0) :
    (freshPhase m (ofCoefficients es) S d %ₘ (X ^ n + 1)).coeff 0 = m := by
  simp only [List.mem_append] at h
  have hphase : freshPhase m (ofCoefficients es) S d = C m := by
    rw [freshPhase, ofCoefficients_eq_zero fun x hx => h x (.inl (.inl hx)),
      ofCoefficients_eq_zero fun x hx => h x (.inl (.inr hx)),
      ofCoefficients_eq_zero fun x hx => h x (.inr hx), zero_mul, zero_mul, add_zero, add_zero,
      add_zero]
  have hdegree : (C m).degree < (X ^ n + 1 : ℤ[X]).degree := by
    rw [NegacyclicRing.degree_modulus hn]
    exact degree_C_le.trans_lt (by exact_mod_cast Nat.pos_of_ne_zero hn)
  rw [hphase, (modByMonic_eq_self_iff (NegacyclicRing.monic_modulus hn)).2 hdegree, coeff_C_zero]

/-- The integer of a scalar is below half of every modulus, because the lowest prime is odd. -/
theorem two_mul_abs_lt_modulus (hc : ctx.chain.Sound) {m : ℤ}
    (hm : 2 * |m| ≤ ((ctx.primes.head?).getD 0).toNat) (level : ℕ) :
    2 * |m| < ctx.modulus level := by
  obtain ⟨q, rest, htables⟩ := List.exists_cons_of_ne_nil hc.tables_ne_nil
  have hsound : ∀ t ∈ q :: rest, t.Sound := htables ▸ hc.table_sound
  have hprimes : ctx.primes = q.prime :: rest.map RootTable.prime := by
    rw [Context.primes, ModulusChain.primes, htables, List.map_cons]
  rw [hprimes, List.head?_cons, Option.getD_some] at hm
  have hrest : 0 < Reconstruction.product ((rest.map RootTable.prime).take level) := by
    apply Reconstruction.product_pos
    intro p hp
    obtain ⟨t, ht, rfl⟩ := List.mem_map.1 (List.mem_of_mem_take hp)
    exact (hsound t (List.mem_cons_of_mem q ht)).prime.pos
  -- The lowest prime is a factor of every modulus, and it is odd.
  have hle : q.prime.toNat ≤ ctx.modulus level := by
    rw [modulus, hprimes, List.take_succ_cons, List.map_cons, List.prod_cons]
    exact Nat.le_mul_of_pos_right _ hrest
  have hodd := (hsound q List.mem_cons_self).odd_prime
  omega

/-! ## Contexts that were generated -/

/-- In every context that was generated, a scalar that has an integer `m` is encrypted, whatever is
drawn. In every channel of the top level the ciphertext carries `m + e * u + e0 + e1 * S`, with the
error `e` of the public key and the secret `S`. The integer that decryption converts to a float is
the constant coefficient of this polynomial if that is below half the modulus, and it is `m` if all
errors are zero. -/
theorem decrypt_encrypt_of_generate {source : Sampler σ} (hsource : source.Lawful)
    {params : Parameters} {id : UInt64} {s s' : σ}
    (hctx : Answers (generate source params id) s ctx s') (htest : ∀ q ∈ ctx.primes, TestExact q) :
    ∃ cs es : List ℤ, cs = (source.ternary params.degree params.weight s).1 ∧
      (∃ u, es = (source.gaussian params.degree params.errorStd u).1) ∧
      ctx.secretKey.Holds ctx.chain (ofCoefficients cs) ∧
      ∀ {τ : Type} (sampler : Sampler τ), sampler.Lawful → ∀ (value : Float) (m : ℤ),
        Encoding.integer? value ctx.scale ((ctx.primes.head?).getD 0) = some m →
        m = roundAway (exact value * 2 ^ params.scaleBits.toNat) ∧
        ∀ t : τ,
          let draws := (ctx.encryptionDraws sampler t).1
          let F := freshPhase m (ofCoefficients es) (ofCoefficients cs) draws
          let w := (F %ₘ (X ^ params.degree + 1)).coeff 0
          ∃ c plain r, Answers (encrypt sampler ctx value) t c (ctx.encryptionDraws sampler t).2 ∧
            c.level = ctx.topLevel ∧ ctx.phase? c = .ok plain ∧
            (∀ i q, (ctx.chain.lower ctx.topLevel)[i]? = some q →
              c.phase (ofCoefficients cs) i q = q.ofInt F ∧ plain.image i q = q.ofInt F) ∧
            Encoding.centered? plain = .ok r ∧
            ctx.decrypt c = .ok (Encoding.signedToFloat r / ctx.scale) ∧
            (2 * |w| < ctx.modulus ctx.topLevel → Reconstruction.signed r = w) ∧
            ((∀ x ∈ es ++ draws.error0 ++ draws.error1, x = 0) → Reconstruction.signed r = m) := by
  have hworking := working_of_generate hsource hctx htest
  have hc := hworking.sound
  have hscaled := scaled_of_generate hctx
  have hmodulus := modulus_lt_of_generate hctx
  obtain ⟨hdegree, -⟩ := keyed_of_generate hsource hctx htest
  obtain ⟨-, rfl, -, -, -, s₁, s₂, -, hsecret, hpublic, -, -⟩ := generate_cases hctx
  obtain ⟨-, hholds⟩ := SecretKey.holds_of_generate hsource hc hsecret
  obtain ⟨-, u, hhides⟩ := PublicKey.hides_of_generate hsource hc hholds hpublic
  rw [← hdegree]
  refine ⟨_, _, rfl, ⟨u, rfl⟩, hholds, ?_⟩
  intro τ sampler hsampler value m hm
  obtain ⟨-, hround, hrange⟩ := Encoding.integer?_spec hscaled.unpack_scale hm
  refine ⟨hround, ?_⟩
  intro t draws F w
  obtain ⟨c, hanswer, hvalid, hlevel, hscale, hphase⟩ := hworking.answers_encrypt hsampler hm t
  have hF := hphase _ _ hhides
  rw [← hlevel] at hF
  obtain ⟨plain, r, hplain, himage, hr, hdecrypt, hsigned⟩ :=
    hworking.exists_centered? hholds hvalid (hmodulus c.level) hF
  rw [hlevel] at hF himage hsigned
  rw [hscale] at hdecrypt
  refine ⟨c, plain, r, hanswer, hlevel, hplain, fun i q hq => ⟨hF i q hq, himage i q hq⟩, hr,
    hdecrypt, hsigned, fun hzero => ?_⟩
  have hw : w = m := coeff_freshPhase_of_errors_zero hc.degree_ne_zero hzero
  have hsmall : 2 * |w| < ctx.modulus ctx.topLevel := by
    rw [hw]
    exact two_mul_abs_lt_modulus hc hrange ctx.topLevel
  exact (hsigned hsmall).trans hw

/-- One in the smallest ring, where the mask and the secret are one and the errors are all ones: the
integer that decryption finds is the scale and three errors. -/
theorem decrypt_encrypt_one_smallest :
    ∃ ctx c plain r, Answers (generate Sampler.steady smallest 7) () ctx () ∧
      Answers (encrypt Sampler.steady ctx 1) () c () ∧ ctx.phase? c = .ok plain ∧
      Encoding.centered? plain = .ok r ∧ Reconstruction.signed r = 2 ^ 20 + 3 ∧
      ctx.decrypt c = .ok (Encoding.signedToFloat r / ctx.scale) := by
  obtain ⟨ctx, hctx, hprimes, htest⟩ := exists_smallest 7
  obtain ⟨hdegree, -⟩ := keyed_of_generate Sampler.lawful_steady hctx htest
  obtain ⟨-, hparams, hscale, -⟩ := generate_cases hctx
  obtain ⟨cs, es, hcs, ⟨u, hes⟩, -, hall⟩ :=
    decrypt_encrypt_of_generate Sampler.lawful_steady hctx htest
  have hm : Encoding.integer? 1 ctx.scale ((ctx.primes.head?).getD 0) = some (2 ^ 20) := by
    rw [hscale, hprimes]
    decide +kernel
  obtain ⟨-, hdecrypt⟩ := hall Sampler.steady Sampler.lawful_steady 1 (2 ^ 20) hm
  obtain ⟨c, plain, r, hanswer, -, hplain, -, hr, hfloat, hsigned, -⟩ := hdecrypt ()
  refine ⟨ctx, c, plain, r, hctx, hanswer, hplain, hr, ?_, hfloat⟩
  -- The mask and the secret are one, so the three errors are added up.
  have hdraws : (ctx.encryptionDraws Sampler.steady ()).1 =
      ⟨[1, 0, 0, 0, 0, 0, 0, 0], List.replicate 8 1, List.replicate 8 1⟩ := by
    rw [encryptionDraws, hparams, hdegree]
    rfl
  have hphase : freshPhase (2 ^ 20) (ofCoefficients es) (ofCoefficients cs)
      (ctx.encryptionDraws Sampler.steady ()).1 =
        ofCoefficients [2 ^ 20 + 3, 3, 3, 3, 3, 3, 3, 3] := by
    have hcs' : cs = [1, 0, 0, 0, 0, 0, 0, 0] := hcs
    have hes' : es = List.replicate 8 1 := hes
    have hone : ofCoefficients [(1 : ℤ), 0, 0, 0, 0, 0, 0, 0] = 1 := by simp
    rw [hdraws, freshPhase, hcs', hes', hone]
    simp only [List.replicate, ofCoefficients_cons, ofCoefficients_nil, map_add, map_pow, map_one,
      map_ofNat]
    ring
  have hw : (freshPhase (2 ^ 20) (ofCoefficients es) (ofCoefficients cs)
      (ctx.encryptionDraws Sampler.steady ()).1 %ₘ (X ^ smallest.degree + 1)).coeff 0 =
        2 ^ 20 + 3 := by
    have hne : smallest.degree ≠ 0 := by decide
    have hlt : (ofCoefficients [(2 ^ 20 + 3 : ℤ), 3, 3, 3, 3, 3, 3, 3]).degree <
        (X ^ smallest.degree + 1 : ℤ[X]).degree := by
      rw [NegacyclicRing.degree_modulus hne]
      exact degree_ofCoefficients_lt _
    rw [hphase, (modByMonic_eq_self_iff (NegacyclicRing.monic_modulus hne)).2 hlt,
      coeff_ofCoefficients]
    rfl
  have hmodulus : ctx.modulus ctx.topLevel = 4193633 * 1048433 := by
    have htop : ctx.topLevel = 1 := topLevel_of_primes hprimes
    rw [modulus, htop, hprimes]
    rfl
  rw [hsigned (by rw [hw, hmodulus]; decide), hw]

end Context

end EncryptedArithmetic

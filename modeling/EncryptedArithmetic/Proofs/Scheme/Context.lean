import EncryptedArithmetic.Proofs.Key.Secret
import EncryptedArithmetic.Proofs.Modular.Prime
import EncryptedArithmetic.Proofs.Modular.StrongTest
import EncryptedArithmetic.Proofs.Scheme.Parameters
import EncryptedArithmetic.Scheme.Context
import Mathlib.Tactic.NormNum.Prime

/-!
# Contexts that were generated

A context is the answer of a run that checks the parameters, takes the primes, builds the tables and
draws the keys one after the other.

## Main results

* `generate_cases`: the steps of the run, each with what it answered.
* `keyed_of_generate`: the chain is sound, and the keys are those of a ternary secret.
* `exists_smallest`: the steady source gives contexts of the smallest ring.
-/

namespace EncryptedArithmetic

open Polynomial EncryptedArithmetic.Modular

namespace Context

/-- The primes of a context tell its top level. -/
theorem topLevel_of_primes {ctx : Context} {ps : List UInt64} (h : ctx.primes = ps) :
    ctx.topLevel = ps.length - 2 := by
  rw [← h, Context.primes, ModulusChain.primes, List.length_map]
  rfl

/-! ## The run that generates a context -/

section Generate

variable {σ : Type} {sampler : Sampler σ} {params : Parameters} {id : UInt64} {ctx : Context}
  {s s' : σ}

/-- The steps of a run that answers a context. -/
theorem generate_cases (h : Answers (generate sampler params id) s ctx s') :
    ctx.id = id ∧ ctx.params = params ∧ ctx.scale = powerOfTwo params.scaleBits.toNat ∧
      params.check = .ok () ∧
      (∃ primes, choosePrimes params = .ok primes ∧
        ModulusChain.build primes params.degree = .ok ctx.chain) ∧
      ∃ s₁ s₂ s₃,
        Answers (SecretKey.generate sampler ctx.chain params.weight) s ctx.secretKey s₁ ∧
        Answers (PublicKey.generate sampler ctx.chain ctx.secretKey params.errorStd) s₁
          ctx.publicKey s₂ ∧
        Answers (generateRelinearization sampler ctx.chain ctx.secretKey params.errorStd) s₂
          ctx.relinearizationKey s₃ ∧
        if params.galoisKeys then
          ∃ keys, ctx.galoisKeys? = some keys ∧
            Answers (GaloisKeySet.generate sampler ctx.chain ctx.secretKey params.errorStd) s₃ keys
              s'
        else ctx.galoisKeys? = none ∧ s₃ = s' := by
  simp only [generate, answers_bind, answers_liftM_result, answers_adapt, mapError_eq_ok_iff,
    Result.mapError_eq_ok_iff] at h
  obtain ⟨⟨⟩, _, ⟨hcheck, rfl⟩, primes, _, ⟨hprimes, rfl⟩, chain, _, ⟨hchain, rfl⟩, secretKey, s₁,
    hsecret, publicKey, s₂, hpublic, relinearizationKey, s₃, hrelinearization, h⟩ := h
  -- Only the keys for automorphisms are optional.
  split at h
  · rename_i hgalois
    simp only [answers_bind, answers_map, answers_adapt, answers_pure] at h
    obtain ⟨_, _, ⟨keys, hkeys, rfl⟩, rfl, rfl⟩ := h
    refine ⟨rfl, rfl, rfl, hcheck, ⟨primes, hprimes, hchain⟩, s₁, s₂, s₃, hsecret, hpublic,
      hrelinearization, ?_⟩
    rw [if_pos hgalois]
    exact ⟨keys, rfl, hkeys⟩
  · rename_i hgalois
    simp only [answers_bind, answers_pure] at h
    obtain ⟨_, _, ⟨rfl, rfl⟩, rfl, rfl⟩ := h
    refine ⟨rfl, rfl, rfl, hcheck, ⟨primes, hprimes, hchain⟩, s₁, s₂, s₃, hsecret, hpublic,
      hrelinearization, ?_⟩
    rw [if_neg hgalois]
    exact ⟨rfl, rfl⟩

/-- The primes of a context are as wide as the parameters ask for, and distinct. -/
theorem primes_of_choosePrimes {primes : List UInt64} (h : choosePrimes params = .ok primes) :
    primes.Nodup ∧ List.Forall₂ OfWidth params.widths primes := by
  rw [choosePrimes, Result.mapError_eq_ok_iff] at h
  exact largestPrimes_spec h

/-- Every prime of a context has one of the widths. -/
theorem exists_ofWidth {primes : List UInt64} (h : choosePrimes params = .ok primes) {p : UInt64}
    (hp : p ∈ primes) : ∃ w ∈ params.widths, OfWidth w p := by
  have hwidths := (primes_of_choosePrimes h).2
  generalize params.widths = widths at hwidths
  clear h
  induction hwidths with
  | nil => exact absurd hp List.not_mem_nil
  | cons hwidth _ ih =>
    rcases List.mem_cons.1 hp with rfl | hp
    · exact ⟨_, List.mem_cons_self, hwidth⟩
    · obtain ⟨w, hw, hwidth'⟩ := ih hp
      exact ⟨w, List.mem_cons_of_mem _ hw, hwidth'⟩

/-- Primes of accepted widths are below `2 ^ 63`. -/
theorem toNat_lt_of_ofWidth (hparams : params.Accepted) {w : UInt32} (hw : w ∈ params.widths)
    {p : UInt64} (hp : OfWidth w p) : p.toNat < 2 ^ 63 := by
  have hle := UInt32.le_iff_toNat_le.1 (hparams.width_mem w hw).2
  change w.toNat ≤ 60 at hle
  exact hp.upper.trans_le (Nat.pow_le_pow_right two_pos (by omega))

end Generate

/-- The chain of a context is sound and all its keys belong to one secret: the relinearization key
hides the errors `e` and the square of the secret. -/
structure Keyed (ctx : Context) (cs : List ℤ) (e : ℕ → List ℤ) : Prop where
  sound : ctx.chain.Sound
  length_secret : cs.length = ctx.chain.degree
  ternary : ∀ c ∈ cs, c = -1 ∨ c = 0 ∨ c = 1
  holds : ctx.secretKey.Holds ctx.chain (ofCoefficients cs)
  length_error : ∀ j, (e j).length = ctx.chain.degree
  square : ∃ target, target.Over ctx.chain.tables .transformed ∧
    (∀ i t, ctx.chain.tables[i]? = some t → target.image i t = t.ofInt (ofCoefficients cs) ^ 2) ∧
    ctx.relinearizationKey.Hides ctx.chain (ofCoefficients cs) target fun j => ofCoefficients (e j)

/-- A context that was generated is keyed by the draws of the source. Its primes are those that
passed the strong test, which has to be exact for them. -/
theorem keyed_of_generate {σ : Type} {sampler : Sampler σ} (hsampler : sampler.Lawful)
    {params : Parameters} {id : UInt64} {ctx : Context} {s s' : σ}
    (h : Answers (generate sampler params id) s ctx s') (htest : ∀ q ∈ ctx.primes, TestExact q) :
    ctx.chain.degree = params.degree ∧ ∃ (cs : List ℤ) (e : ℕ → List ℤ), ctx.Keyed cs e ∧
      cs.countP (· ≠ 0) = params.weight ∧
      (∃ u, cs = (sampler.ternary params.degree params.weight u).1) ∧
      ∀ j, ∃ u, e j = (sampler.gaussian params.degree params.errorStd u).1 := by
  obtain ⟨-, -, -, hcheck, ⟨primes, hprimes, hchain⟩, s₁, s₂, s₃, hsecret, -, hrelinearization,
    -⟩ := generate_cases h
  have hparams := Parameters.accepted_of_check hcheck
  have hnodup := (primes_of_choosePrimes hprimes).1
  -- A prime of the chain passed the test and is as wide as one of the widths, at most 60 bits.
  have hword : ∀ p ∈ primes, p.toNat.Prime ∧ p.toNat < 2 ^ 63 := by
    intro p hp
    obtain ⟨w, hw, hwidth⟩ := exists_ofWidth hprimes hp
    refine ⟨prime_of_isPrime (htest p ?_) hwidth.isPrime, toNat_lt_of_ofWidth hparams hw hwidth⟩
    rwa [Context.primes, ModulusChain.primes_of_build hchain]
  obtain ⟨-, hdegree, hc⟩ := ModulusChain.build_sound hchain hword hnodup
  obtain ⟨hle, hholds⟩ := SecretKey.holds_of_generate hsampler hc hsecret
  -- The target of the relinearization key is the square of the secret.
  obtain ⟨target, hsquare, htarget, hitarget⟩ := hholds.exists_square? hc.table_sound
  simp only [generateRelinearization, answers_bind, answers_liftM_fault] at hrelinearization
  obtain ⟨target', _, ⟨htarget', rfl⟩, hkey⟩ := hrelinearization
  obtain rfl : target = target' := Except.ok.inj (hsquare.symm.trans htarget')
  obtain ⟨e, hdrawn, hhides⟩ := SwitchingKey.hides_of_generate hsampler hc hholds htarget hkey
  refine ⟨hdegree, (sampler.ternary ctx.chain.degree params.weight s).1, e,
    ⟨hc, hsampler.ternary_length _ _ _, hsampler.ternary_mem _ _ _, hholds, ?_,
      target, htarget, hitarget, hhides⟩, hsampler.ternary_weight _ _ _ hle, ?_, ?_⟩
  · intro j
    obtain ⟨u, hu⟩ := hdrawn j
    rw [hu, hsampler.gaussian_length]
  · rw [hdegree]
    exact ⟨_, rfl⟩
  · rwa [hdegree] at hdrawn

/-! ## Contexts of the smallest ring -/

/-- The smallest ring, with two data primes and a secret with one coefficient that is not zero. -/
def smallest : Parameters where
  degree := 8
  widths := [22, 20, 22]
  scaleBits := 20
  security := .none
  weight? := some 1
  errorStd := 1
  galoisKeys := false

/-- The id of a context is a label: no draw depends on it. -/
theorem generate_id {σ : Type} (S : Sampler σ) (params : Parameters) (id id' : UInt64) :
    generate S params id' = (fun ctx => { ctx with id := id' }) <$> generate S params id := by
  simp only [generate, map_bind]
  -- The steps up to the Galois keys are the same on both sides.
  refine bind_congr fun _ => bind_congr fun _ => bind_congr fun _ => bind_congr fun _ =>
    bind_congr fun _ => bind_congr fun _ => ?_
  split <;> simp

/-- A run that was seen to succeed answers a context of the primes that were chosen. -/
theorem exists_of_isOk {params : Parameters} {id : UInt64} {primes : List UInt64}
    (hok : ((generate Sampler.steady params id).outcome ()).1.isOk)
    (hchosen : (choosePrimes params).toOption = some primes)
    (hprime : ∀ q ∈ primes, q.toNat.Prime) :
    ∃ ctx, Answers (generate Sampler.steady params id) () ctx () ∧ ctx.primes = primes ∧
      ∀ q ∈ ctx.primes, TestExact q := by
  obtain ⟨ctx, ⟨⟩, hctx⟩ := exists_answers_of_isOk hok
  obtain ⟨-, -, -, -, ⟨primes', hprimes, hchain⟩, -⟩ := generate_cases hctx
  rw [hprimes] at hchosen
  obtain rfl : primes' = primes := Option.some.inj hchosen
  have heq : ctx.primes = primes' := ModulusChain.primes_of_build hchain
  exact ⟨ctx, hctx, heq, fun q hq _ => hprime q (heq ▸ hq)⟩

/-- The steady source gives contexts of the smallest ring, over primes that are prime. -/
theorem exists_smallest (id : UInt64) :
    ∃ ctx, Answers (generate Sampler.steady smallest id) () ctx () ∧
      ctx.primes = [4193633, 1048433, 4193569] ∧ ∀ q ∈ ctx.primes, TestExact q := by
  have hok : ((generate Sampler.steady smallest 0).outcome ()).1.isOk := by decide +kernel
  have hchosen : (choosePrimes smallest).toOption = some [4193633, 1048433, 4193569] := by
    decide +kernel
  obtain ⟨ctx, hctx, heq, htest⟩ := exists_of_isOk hok hchosen (by norm_num [UInt64.toNat_ofNat])
  -- The run was evaluated for one id, only to see that it succeeds.
  refine ⟨{ ctx with id := id }, ?_, heq, htest⟩
  rw [generate_id Sampler.steady smallest 0 id, answers_map]
  exact ⟨ctx, hctx, rfl⟩

end Context

end EncryptedArithmetic

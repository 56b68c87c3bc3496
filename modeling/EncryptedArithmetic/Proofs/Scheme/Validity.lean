import EncryptedArithmetic.Proofs.Ring.Rows
import EncryptedArithmetic.Proofs.Scheme.Product

/-!
# Valid ciphertexts

A ciphertext is valid for a context when it carries the id of the context and both components are
kept in transformed form over the primes of one level of its chain.

## Main definitions

* `Context.Shaped`: the sizes of a context that was generated.
* `Ciphertext.Valid`: a ciphertext is one of a context.

## Main results

* `shaped_of_generate`: every context that was generated is shaped.
* `Valid.components`: what validity says of the components, one by one.
-/

namespace EncryptedArithmetic

open EncryptedArithmetic.Modular

namespace Context

/-- The tables of a context have the degree of its parameters, and degree and number of tables are
bounded. -/
structure Shaped (ctx : Context) : Prop where
  chain_degree : ctx.chain.degree = ctx.params.degree
  table_degree : ∀ t ∈ ctx.chain.tables, t.degree = ctx.params.degree
  two_le_length : 2 ≤ ctx.chain.tables.length
  length_le : ctx.chain.tables.length ≤ 50
  degree_le : ctx.params.degree ≤ 32768

/-- A context that was generated is shaped. -/
theorem shaped_of_generate {σ : Type} {sampler : Sampler σ} {params : Parameters} {id : UInt64}
    {ctx : Context} {s s' : σ} (h : Answers (generate sampler params id) s ctx s') :
    ctx.Shaped := by
  obtain ⟨-, rfl, -, hcheck, ⟨primes, hprimes, hchain⟩, -⟩ := generate_cases h
  have hparams := Parameters.accepted_of_check hcheck
  obtain ⟨hdegree, htwo, hlen, hbuilt⟩ := ModulusChain.tables_of_build hchain
  have hwidths := (primes_of_choosePrimes hprimes).2.length_eq
  have hbound := hparams.length_widths_le
  refine ⟨hdegree, ?_, by omega, by omega, hparams.degree_le⟩
  intro t ht
  obtain ⟨i, hi⟩ := List.getElem?_of_mem ht
  have hp := List.getElem?_eq_getElem (l := primes) (hlen ▸ (List.getElem?_eq_some_iff.1 hi).1)
  exact (RootTable.prime_of_build (hbuilt i _ t hp hi)).2

namespace Shaped

variable {ctx : Context} {level : ℕ}

theorem topLevel_add_two (hctx : ctx.Shaped) : ctx.topLevel + 2 = ctx.chain.tables.length := by
  have hlen := hctx.two_le_length
  rw [topLevel, ModulusChain.topLevel]
  omega

theorem length_lower (hctx : ctx.Shaped) (hl : level ≤ ctx.topLevel) :
    (ctx.chain.lower level).length = level + 1 := by
  have hlen := hctx.topLevel_add_two
  rw [ModulusChain.lower, List.length_take]
  omega

theorem degree_of_mem_lower (hctx : ctx.Shaped) {t : RootTable} (ht : t ∈ ctx.chain.lower level) :
    t.degree = ctx.params.degree :=
  hctx.table_degree t (ModulusChain.Sound.mem_of_mem_lower ht)

end Shaped

end Context

namespace Ciphertext

/-- The ciphertext is one of the context: it carries its id, and both components are kept over the
primes of its level, transformed. -/
structure Valid (ctx : Context) (c : Ciphertext) : Prop where
  contextId_eq : c.contextId = ctx.id
  level_le : c.level ≤ ctx.topLevel
  kept : c.Over ctx.chain c.level

variable {ctx : Context} {c : Ciphertext}

/-- The components of a valid ciphertext: transformed, over the same primes, with as many residues
in each channel as the degree, all of them reduced. -/
theorem Valid.components (hctx : ctx.Shaped) (hc : c.Valid ctx) :
    ∀ a ∈ [c.c0, c.c1], a.form = .transformed ∧ a.primes = ctx.primes.take (c.level + 1) ∧
      ∀ channel ∈ a.channels, channel.residues.length = ctx.params.degree ∧
        ∀ r ∈ channel.residues, r < channel.prime := by
  have hcomponent {a : ResiduePoly} (ha : a.Over (ctx.chain.lower c.level) .transformed) :
      a.form = .transformed ∧ a.primes = ctx.primes.take (c.level + 1) ∧
        ∀ channel ∈ a.channels, channel.residues.length = ctx.params.degree ∧
          ∀ r ∈ channel.residues, r < channel.prime := by
    refine ⟨ha.form_eq, ?_, ?_⟩
    · rw [ha.primes_eq, Context.primes, ModulusChain.primes, ModulusChain.lower, List.map_take]
    · intro channel hmem
      obtain ⟨i, t, ht, rfl⟩ := ha.exists_of_mem hmem
      have hred := ha.reduced ht
      rw [hctx.degree_of_mem_lower (List.mem_of_getElem? ht)] at hred
      exact ⟨hred.length, hred.lt⟩
  intro a ha
  rcases List.mem_cons.1 ha with rfl | ha
  · exact hcomponent hc.kept.c0
  · rw [List.mem_singleton.1 ha]
    exact hcomponent hc.kept.c1

end Ciphertext

end EncryptedArithmetic

import EncryptedArithmetic.Proofs.Ring.Operations
import EncryptedArithmetic.Proofs.Sampling

/-!
# Runs of operations on polynomials

Polynomials are built from integers or draws over some of the tables of one degree, and then changed
and combined in any order; channels may be cut off, permuted and repeated. Whatever is called on
what was returned before, every polynomial keeps what one operation preserves.

## Main definitions

* `Reachable` and `ReachableVectors`: what some run of operations returns, as channels and as two
  vectors of rows and tables.

## Main results

* `Reachable.kept`: a run of operations.
* `ReachableVectors.exists_reachable`: a run on rows and tables is one on channels.
* `reachable_reduced`: residues and words in every run over tables that `RootTable.build` answers.
-/

namespace EncryptedArithmetic.ResiduePoly

variable {tables : List RootTable} {n : ℕ}

/-! ## Stores -/

/-- What a run returns, the latest first. Operands are polynomials that were returned before, in any
order and as often as wanted, so an operation in place is one whose operand is not used again. -/
inductive Reachable {σ : Type} (S : Sampler σ) (tables : List RootTable) : List ResiduePoly → Prop
  | start : Reachable S tables []
  | uniform {ε : Type} {store : List ResiduePoly} {moduli : List RootTable} {a : ResiduePoly}
      {s s' : σ} (hstore : Reachable S tables store) (hmoduli : ∀ t ∈ moduli, t ∈ tables)
      (ha : Answers (S.drawPoly moduli : Drawing σ ε ResiduePoly) s a s') :
      Reachable S tables (a :: store)
  | call {store : List ResiduePoly} {op : Operation ResiduePoly} {a : ResiduePoly}
      (hstore : Reachable S tables store) (hoperands : ∀ b ∈ op.operands, b ∈ store)
      (hmoduli : ∀ t ∈ op.moduli, t ∈ tables) (ha : op.run? = .ok a) :
      Reachable S tables (a :: store)

/-- What a run on rows and tables returns, the latest first. -/
inductive ReachableVectors {σ : Type} (S : Sampler σ) (tables : List RootTable) :
    List Vectors → Prop
  | start : ReachableVectors S tables []
  | uniform {ε : Type} {store : List Vectors} {moduli : List RootTable} {a : ResiduePoly}
      {s s' : σ} (hstore : ReachableVectors S tables store) (hmoduli : ∀ t ∈ moduli, t ∈ tables)
      (ha : Answers (S.drawPoly moduli : Drawing σ ε ResiduePoly) s a s') :
      ReachableVectors S tables (a.vectors :: store)
  | call {store : List Vectors} {op : Operation Vectors} {v : Vectors}
      (hstore : ReachableVectors S tables store) (hoperands : ∀ w ∈ op.operands, w ∈ store)
      (hmoduli : ∀ t ∈ op.moduli, t ∈ tables) (hv : op.onVectors? = .ok v) :
      ReachableVectors S tables (v :: store)

/-! ## What runs preserve -/

section Tables

variable (hT : Tables tables n) {σ : Type} {S : Sampler σ} (hS : S.Lawful)
include hT hS

/-- Every run keeps its polynomials over the tables. -/
theorem Reachable.kept {store : List ResiduePoly} (h : Reachable S tables store) :
    ∀ a ∈ store, a.Kept tables := by
  induction h with
  | start => exact fun a ha => absurd ha List.not_mem_nil
  | uniform _ hmoduli ha ih =>
    have hover := Sampler.over_of_drawPoly hS (fun t ht => hT.degree_eq t (hmoduli t ht)) ha
    exact List.forall_mem_cons.2 ⟨hover.kept hmoduli, ih⟩
  | call _ hoperands hmoduli ha ih =>
    have hyields := Operation.yields hT (fun b hb => ih b (hoperands b hb)) hmoduli
    exact List.forall_mem_cons.2 ⟨(hyields.of_ok _ ha).1, ih⟩

/-- Every run on rows and tables is a run on polynomials. -/
theorem ReachableVectors.exists_reachable {vs : List Vectors}
    (h : ReachableVectors S tables vs) :
    ∃ store, Reachable S tables store ∧ vs = store.map vectors := by
  induction h with
  | start => exact ⟨[], .start, rfl⟩
  | @uniform ε _ _ a _ _ _ hmoduli ha ih =>
    obtain ⟨store, hstore, rfl⟩ := ih
    exact ⟨a :: store, hstore.uniform hmoduli ha, rfl⟩
  | @call _ op v _ hoperands hmoduli hv ih =>
    obtain ⟨store, hstore, rfl⟩ := ih
    -- The operands are the vectors of polynomials, which are read off them again.
    have hread (w : Vectors) (hw : w ∈ op.operands) : w.poly ∈ store ∧ w.poly.vectors = w := by
      obtain ⟨a, ha, rfl⟩ := List.mem_map.1 (hoperands w hw)
      rw [Vectors.poly_vectors]
      exact ⟨ha, rfl⟩
    have hoperands' : ∀ a ∈ (op.map Vectors.poly).operands, a ∈ store := by
      rw [Operation.operands_map, List.forall_mem_map]
      exact fun w hw => (hread w hw).1
    have hmoduli' : ∀ t ∈ (op.map Vectors.poly).moduli, t ∈ tables := by
      rwa [Operation.moduli_map]
    rw [← Operation.map_map_eq_self fun w hw => (hread w hw).2,
      Operation.onVectors?_map fun t ht => hT.degree_eq t (hmoduli' t ht),
      Operation.guarded?_eq hT fun a ha => hstore.kept hT hS a (hoperands' a ha)] at hv
    rcases hrun : (op.map Vectors.poly).run? with e | a
    · rw [hrun] at hv
      cases hv
    · rw [hrun] at hv
      obtain rfl := Except.ok.inj hv
      exact ⟨a :: store, hstore.call hoperands' hmoduli' hrun, rfl⟩

end Tables

/-- Over tables of one degree that were built for primes below `2 ^ 63`, and whatever a lawful
sampler draws: every channel of every polynomial of a run has one residue for each entry, below the
prime of its channel. An operation on such polynomials gives one with exactly the primes that it is
to have, and on two vectors of rows and tables it computes the rows and the tables of that one. No
sum and no difference of residues in it leaves the range of a word, also where only a guard would
show it. So in a run on rows and tables there are as many of the one as of the other, and each row
is as long as the degree and below the prime of the table beside it. -/
theorem reachable_reduced {σ : Type} {S : Sampler σ} (hS : S.Lawful)
    (htables : ∀ t ∈ tables, ∃ p : UInt64,
      p.toNat.Prime ∧ p.toNat < 2 ^ 63 ∧ RootTable.build p n = .ok t)
    {store : List ResiduePoly} (h : Reachable S tables store) :
    (∀ a ∈ store, ∀ c ∈ a.channels,
      c.table ∈ tables ∧ c.residues.length = n ∧ ∀ r ∈ c.residues, r < c.prime) ∧
    (∀ op : Operation ResiduePoly, (∀ a ∈ op.operands, a ∈ store) →
      (∀ t ∈ op.moduli, t ∈ tables) →
      (∀ a, op.run? = .ok a → a.primes = op.primes) ∧
      (op.map vectors).onVectors? = vectors <$> op.run? ∧
      op.guarded? = op.run? ∧ op.run? ≠ .error .overflow) ∧
    ∀ vs, ReachableVectors S tables vs → ∀ v ∈ vs,
      List.Forall₂ (fun row t => row.length = n ∧ ∀ r ∈ row, r < RootTable.prime t)
        v.rows v.tables := by
  have hT := tables_of_forall_build htables
  have hkept := h.kept hT hS
  refine ⟨?_, ?_, ?_⟩
  · intro a ha c hc
    obtain ⟨htable, hreduced⟩ := hkept a ha c hc
    exact ⟨htable, hreduced.length.trans (hT.degree_eq _ htable), hreduced.lt⟩
  · intro op hoperands hmoduli
    have hoperands' := fun a ha => hkept a (hoperands a ha)
    have hyields := Operation.yields hT hoperands' hmoduli
    have hguarded := Operation.guarded?_eq hT hoperands'
    have hvectors := Operation.onVectors?_map fun t ht => hT.degree_eq t (hmoduli t ht)
    exact ⟨fun a ha => (hyields.of_ok a ha).2, hguarded ▸ hvectors, hguarded, hyields.ne_overflow⟩
  · intro vs hvs v hv
    obtain ⟨polys, hpolys, rfl⟩ := hvs.exists_reachable hT hS
    obtain ⟨a, ha, rfl⟩ := List.mem_map.1 hv
    rw [Vectors.rows_vectors, Vectors.tables_vectors, List.forall₂_map_left_iff,
      List.forall₂_map_right_iff, List.forall₂_same]
    intro c hc
    obtain ⟨htable, hreduced⟩ := hpolys.kept hT hS a ha c hc
    exact ⟨hreduced.length.trans (hT.degree_eq _ htable), hreduced.lt⟩

/-- Modulo `17` and `X ^ 2 + 1`: a polynomial, its channel taken twice, the transform of that, its
square and the image of the square under `X -> X ^ 3`, which two vectors give as well. -/
theorem reachable_reduced_seventeen :
    ∃ a b c d e : ResiduePoly, Reachable Sampler.steady [seventeen] [e, d, c, b, a] ∧
      (Operation.select [0, 0] a).run? = .ok b ∧ b.primes = [17, 17] ∧
      (Operation.automorphism 3 d).run? = .ok e ∧ e.primes = d.primes ∧
      (Operation.automorphism 3 d.vectors).onVectors? = .ok e.vectors ∧
      (∀ channel ∈ e.channels, channel.residues.length = 2 ∧
        ∀ r ∈ channel.residues, r < channel.prime) ∧
      (Operation.neg e).guarded? = .ok e.neg := by
  have htables : ∀ t ∈ [seventeen], ∃ p : UInt64,
      p.toNat.Prime ∧ p.toNat < 2 ^ 63 ∧ RootTable.build p 2 = .ok t :=
    List.forall_mem_singleton.2 built_seventeen
  obtain ⟨a, b, c, d, e, ha, hb, hc, hd, he⟩ : ∃ a b c d e,
      (Operation.ofSigned [1, -2] [seventeen]).run? = .ok a ∧
      (Operation.select [0, 0] a).run? = .ok b ∧ (Operation.toTransformed b).run? = .ok c ∧
      (Operation.mul c c).run? = .ok d ∧ (Operation.automorphism 3 d).run? = .ok e :=
    ⟨_, _, _, _, _, rfl, rfl, rfl, rfl, rfl⟩
  have hrun : Reachable Sampler.steady [seventeen] [e, d, c, b, a] := by
    have hstart : Reachable Sampler.steady [seventeen] [a] :=
      .call .start (by simp) (by simp) ha
    have hselect := hstart.call (by simp) (by simp) hb
    have htransform := hselect.call (by simp) (by simp) hc
    have hsquare := htransform.call (by simp) (by simp) hd
    exact hsquare.call (by simp) (by simp) he
  obtain ⟨hstore, hcalls, -⟩ := reachable_reduced Sampler.lawful_steady htables hrun
  have hprimes := (hcalls (.select [0, 0] a) (by simp) (by simp)).1 b hb
  have hlength : a.primes = [17] := by
    obtain rfl := Except.ok.inj ha
    rfl
  obtain ⟨hprimes', hvectors, -⟩ := hcalls (.automorphism 3 d) (by simp) (by simp)
  refine ⟨a, b, c, d, e, hrun, hb, ?_, he, hprimes' e he, ?_, ?_, ?_⟩
  · rw [hprimes, Operation.primes, hlength]
    rfl
  · rwa [he] at hvectors
  · exact fun channel hchannel => (hstore e (by simp) channel hchannel).2
  · exact (hcalls (.neg e) (by simp) (by simp)).2.2.1

end EncryptedArithmetic.ResiduePoly

import EncryptedArithmetic.Proofs.Ring.Polynomial
import EncryptedArithmetic.Proofs.Ring.Table
import EncryptedArithmetic.Ring.Chain

/-!
# Sound modulus chains

A chain is sound when its tables are, share the degree of the chain and have distinct primes, at
least two of them. Then the special prime is the last one, a level names the primes up to its own,
and the tables of `extended` stand at the positions that `extendedPositions` lists.

## Main results

* `build_sound`: a chain that is built over distinct primes below `2 ^ 63` is sound.
* `exists_position`: the two ways to narrow the chain to a level agree.
-/

namespace EncryptedArithmetic

namespace ModulusChain

/-- The tables are sound and share the degree, and the primes are distinct. -/
structure Sound (c : ModulusChain) : Prop where
  table_sound : ∀ t ∈ c.tables, t.Sound
  table_degree : ∀ t ∈ c.tables, t.degree = c.degree
  two_le_length : 2 ≤ c.tables.length
  nodup_primes : c.primes.Nodup

/-- The tables of a chain are those of its primes, one by one. -/
theorem tables_of_build {primes : List UInt64} {n : ℕ} {c : ModulusChain}
    (h : build primes n = .ok c) : c.degree = n ∧ 2 ≤ primes.length ∧
      c.tables.length = primes.length ∧ ∀ (i : ℕ) (p : UInt64) (t : RootTable),
        primes[i]? = some p → c.tables[i]? = some t → RootTable.build p n = .ok t := by
  rw [build] at h
  split at h
  · exact absurd h fail_ne_ok
  rename_i hlength
  simp only [bind_eq_ok_iff, pure_eq_ok] at h
  obtain ⟨tables, htables, h⟩ := h
  obtain rfl := Except.ok.inj h
  exact ⟨rfl, by omega, length_of_mapM_eq_ok htables, fun i p t hp ht =>
    getElem?_of_mapM_eq_ok htables hp ht⟩

/-- The degree of a chain is a power of two above one. -/
theorem exists_degree_of_build {primes : List UInt64} {n : ℕ} {c : ModulusChain}
    (h : build primes n = .ok c) : ∃ d, n = 2 ^ (d + 1) := by
  obtain ⟨-, htwo, hlen, hbuilt⟩ := tables_of_build h
  have hprime := List.getElem?_eq_getElem (l := primes) (i := 0) (by omega)
  have htable := List.getElem?_eq_getElem (l := c.tables) (i := 0) (by omega)
  obtain ⟨d, hd, -⟩ := RootTable.mod_of_build (hbuilt 0 _ _ hprime htable)
  exact ⟨d, hd⟩

theorem primes_of_build {primes : List UInt64} {n : ℕ} {c : ModulusChain}
    (h : build primes n = .ok c) : c.primes = primes := by
  obtain ⟨-, -, hlen, hbuilt⟩ := tables_of_build h
  apply List.ext_getElem?
  intro i
  rw [ModulusChain.primes, List.getElem?_map]
  rcases ht : c.tables[i]? with _ | t
  · rw [List.getElem?_eq_none (hlen ▸ List.getElem?_eq_none_iff.1 ht)]
    rfl
  · have hp := List.getElem?_eq_getElem (l := primes) (hlen ▸ (List.getElem?_eq_some_iff.1 ht).1)
    rw [hp, Option.map_some, (RootTable.prime_of_build (hbuilt i _ t hp ht)).1]

/-- The tables of a chain that is built over primes below `2 ^ 63` are sound and have its degree,
also where a prime comes twice. -/
theorem tables_sound_of_build {primes : List UInt64} {n : ℕ} {c : ModulusChain}
    (h : build primes n = .ok c) (hprime : ∀ p ∈ primes, p.toNat.Prime ∧ p.toNat < 2 ^ 63) :
    (∀ t ∈ c.tables, t.Sound) ∧ ∀ t ∈ c.tables, t.degree = n := by
  obtain ⟨-, -, hlen, hbuilt⟩ := tables_of_build h
  -- Every table was built for the prime at its position.
  refine RootTable.sound_of_forall_build fun t ht => ?_
  obtain ⟨i, hi⟩ := List.getElem?_of_mem ht
  have hp := List.getElem?_eq_getElem (l := primes) (hlen ▸ (List.getElem?_eq_some_iff.1 hi).1)
  obtain ⟨hprime', hlt⟩ := hprime _ (List.mem_of_getElem? hp)
  exact ⟨_, hprime', hlt, hbuilt i _ t hp hi⟩

/-- A chain that can be built over distinct primes below `2 ^ 63` is sound. -/
theorem build_sound {primes : List UInt64} {n : ℕ} {c : ModulusChain}
    (h : build primes n = .ok c) (hprime : ∀ p ∈ primes, p.toNat.Prime ∧ p.toNat < 2 ^ 63)
    (hnodup : primes.Nodup) : c.primes = primes ∧ c.degree = n ∧ c.Sound := by
  obtain ⟨hdegree, htwo, hlen, -⟩ := tables_of_build h
  obtain ⟨hsound, hn⟩ := tables_sound_of_build h hprime
  have hprimes := primes_of_build h
  exact ⟨hprimes, hdegree, hsound, fun t ht => (hn t ht).trans hdegree.symm, hlen ▸ htwo,
    hprimes.symm ▸ hnodup⟩

/-- A chain can be built where every prime has a table. -/
theorem exists_build {primes : List UInt64} {n : ℕ} (htwo : 2 ≤ primes.length)
    (h : ∀ p ∈ primes, ∃ t, RootTable.build p n = .ok t) : ∃ c, build primes n = .ok c := by
  obtain ⟨tables, htables⟩ := exists_mapM_eq_ok h
  exact ⟨⟨n, tables⟩, by rw [build, if_neg (Nat.not_lt.2 htwo), htables, ok_bind, pure_eq_ok]⟩

namespace Sound

variable {c : ModulusChain} {level : ℕ}

theorem prime_eq_getD {i : ℕ} {t : RootTable} (ht : c.tables[i]? = some t) :
    c.primes.getD i 0 = t.prime := by
  rw [primes, List.getD_eq_getElem?_getD, List.getElem?_map, ht, Option.map_some, Option.getD_some]

theorem tables_ne_nil (hc : c.Sound) : c.tables ≠ [] := by
  intro h
  have hlen := hc.two_le_length
  rw [h, List.length_nil] at hlen
  omega

/-- The lowest prime has a table. -/
theorem exists_head?_primes (hc : c.Sound) : ∃ t ∈ c.tables, c.primes.head? = some t.prime := by
  obtain ⟨t, rest, htables⟩ := List.exists_cons_of_ne_nil hc.tables_ne_nil
  exact ⟨t, htables ▸ List.mem_cons_self, by rw [primes, htables]; rfl⟩

theorem degree_ne_zero (hc : c.Sound) : c.degree ≠ 0 := by
  obtain ⟨t, ht⟩ := List.exists_mem_of_ne_nil _ hc.tables_ne_nil
  exact hc.table_degree t ht ▸ (hc.table_sound t ht).degree_ne_zero

/-- Positions are told apart by their primes. -/
theorem eq_of_prime_eq (hc : c.Sound) {i j : ℕ} {t t' : RootTable} (ht : c.tables[i]? = some t)
    (ht' : c.tables[j]? = some t') (h : t.prime = t'.prime) : i = j := by
  have hi : c.primes[i]? = some t.prime := by rw [primes, List.getElem?_map, ht, Option.map_some]
  have hj : c.primes[j]? = some t.prime := by
    rw [primes, List.getElem?_map, ht', Option.map_some, h]
  have hlt := (List.getElem?_eq_some_iff.1 hi).1
  exact (List.getElem?_inj hlt hc.nodup_primes).1 (hi.trans hj.symm)

/-- The special prime is that of the last table. -/
theorem exists_special (hc : c.Sound) : ∃ last, c.tables[c.tables.length - 1]? = some last ∧
    c.special = [last] ∧ c.specialPrime = last.prime := by
  have hlen := hc.two_le_length
  have hlt : c.tables.length - 1 < c.tables.length := by omega
  have hlast := List.getElem?_eq_getElem hlt
  refine ⟨_, hlast, ?_, ?_⟩
  · rw [special, List.drop_eq_getElem_cons hlt, List.drop_eq_nil_of_le (by omega)]
  · rw [specialPrime, List.getLast?_eq_getElem?, primes, List.length_map, List.getElem?_map, hlast,
      Option.map_some, Option.getD_some]

theorem topLevel_add_two (hc : c.Sound) : c.topLevel + 2 = c.tables.length := by
  have hlen := hc.two_le_length
  rw [topLevel]
  omega

theorem length_lower (hc : c.Sound) (hl : level ≤ c.topLevel) :
    (c.lower level).length = level + 1 := by
  have hlen := hc.topLevel_add_two
  rw [lower, List.length_take]
  omega

/-- The tables of a level are the leading ones of the chain. -/
theorem getElem?_lower_iff {i : ℕ} {t : RootTable} :
    (c.lower level)[i]? = some t ↔ i ≤ level ∧ c.tables[i]? = some t := by
  rw [lower, List.getElem?_take]
  split
  · rename_i h
    exact ⟨fun ht => ⟨Nat.le_of_lt_succ h, ht⟩, fun ht => ht.2⟩
  · rename_i h
    exact ⟨nofun, fun ht => absurd (Nat.lt_succ_of_le ht.1) h⟩

theorem mem_of_mem_lower {t : RootTable} (ht : t ∈ c.lower level) : t ∈ c.tables :=
  List.mem_of_mem_take ht

theorem sound_of_mem_lower (hc : c.Sound) {t : RootTable} (ht : t ∈ c.lower level) : t.Sound :=
  hc.table_sound t (mem_of_mem_lower ht)

theorem degree_of_mem_lower (hc : c.Sound) {t : RootTable} (ht : t ∈ c.lower level) :
    t.degree = c.degree :=
  hc.table_degree t (mem_of_mem_lower ht)

theorem nodup_primes_lower (hc : c.Sound) : ((c.lower level).map RootTable.prime).Nodup := by
  rw [lower, List.map_take]
  exact hc.nodup_primes.sublist (List.take_sublist _ _)

theorem lower_ne_nil (hc : c.Sound) : c.lower level ≠ [] := by
  have hlen := hc.two_le_length
  apply List.ne_nil_of_length_pos
  rw [lower, List.length_take]
  omega

/-- The primes of a level are told apart from any prime above it. -/
theorem prime_ne_of_mem_lower (hc : c.Sound) {i : ℕ} {last : RootTable}
    (hlast : c.tables[i]? = some last) (hi : level < i) {t : RootTable} (ht : t ∈ c.lower level) :
    t.prime ≠ last.prime := by
  intro h
  obtain ⟨j, hj⟩ := List.getElem?_of_mem ht
  obtain ⟨hjl, htable⟩ := getElem?_lower_iff.1 hj
  have hij := hc.eq_of_prime_eq htable hlast h
  omega

/-- Up to the level the extended chain is that of the level, and every table stands at its own
position. -/
theorem getElem?_extended_of_lower {i : ℕ} {t : RootTable} (ht : (c.lower level)[i]? = some t) :
    (c.extended level)[i]? = some t ∧ (c.extendedPositions level)[i]? = some i := by
  obtain ⟨hi, -⟩ := getElem?_lower_iff.1 ht
  rw [extended, List.getElem?_append_left (List.getElem?_eq_some_iff.1 ht).1, ht,
    extendedPositions, List.getElem?_append_left (by simpa using hi)]
  simp [Nat.lt_succ_of_le hi]

/-- After the primes of a level comes the special one, from the end of the chain. -/
theorem exists_extended (hc : c.Sound) (hl : level ≤ c.topLevel) :
    ∃ last, c.tables[c.tables.length - 1]? = some last ∧ c.specialPrime = last.prime ∧
      c.extended level = c.lower level ++ [last] ∧ (c.extended level)[level + 1]? = some last ∧
      (c.extendedPositions level)[level + 1]? = some (c.tables.length - 1) := by
  obtain ⟨last, hlast, hspecial, hprime⟩ := hc.exists_special
  have hextended : c.extended level = c.lower level ++ [last] := by rw [extended, hspecial]
  refine ⟨last, hlast, hprime, hextended, ?_, by simp [extendedPositions]⟩
  have hlower := hc.length_lower hl
  rw [hextended, List.getElem?_append_right (by omega), hlower, Nat.sub_self]
  rfl

/-- A table of `q_0, …, q_level, P` stands at the position that is listed for it. -/
theorem exists_position (hc : c.Sound) (hl : level ≤ c.topLevel) {i : ℕ} {t : RootTable}
    (ht : (c.extended level)[i]? = some t) :
    ∃ p, (c.extendedPositions level)[i]? = some p ∧ c.tables[p]? = some t := by
  obtain ⟨last, hlast, -, hextended, hend, hposition⟩ := hc.exists_extended hl
  have hlower := hc.length_lower hl
  have hlt := (List.getElem?_eq_some_iff.1 ht).1
  rw [hextended, List.length_append, hlower, List.length_singleton] at hlt
  -- Either a table of the level, or the special one.
  rcases Nat.lt_succ_iff_lt_or_eq.1 hlt with hi | rfl
  · rw [hextended, List.getElem?_append_left (hlower.symm ▸ hi)] at ht
    exact ⟨i, (getElem?_extended_of_lower ht).2, (getElem?_lower_iff.1 ht).2⟩
  · obtain rfl := Option.some.inj (ht.symm.trans hend)
    exact ⟨_, hposition, hlast⟩

theorem length_extendedPositions (hc : c.Sound) (hl : level ≤ c.topLevel) :
    (c.extendedPositions level).length = (c.extended level).length := by
  obtain ⟨last, -, hspecial, -⟩ := hc.exists_special
  simp [extendedPositions, extended, hspecial, hc.length_lower hl]

theorem extendedPositions_ne_nil : c.extendedPositions level ≠ [] := by
  simp [extendedPositions]

theorem mem_of_mem_extended {t : RootTable} (ht : t ∈ c.extended level) : t ∈ c.tables := by
  rcases List.mem_append.1 ht with ht | ht
  · exact mem_of_mem_lower ht
  · exact List.mem_of_mem_drop ht

theorem sound_of_mem_extended (hc : c.Sound) {t : RootTable} (ht : t ∈ c.extended level) :
    t.Sound :=
  hc.table_sound t (mem_of_mem_extended ht)

end Sound

end ModulusChain

end EncryptedArithmetic

import EncryptedArithmetic.Proofs.Sampling
import EncryptedArithmetic.Sampling.Seeded

/-!
# Ternary vectors from shuffled positions

A ternary vector is drawn in two steps: the positions are shuffled, and the leading ones, as many as
the weight says, get a sign each. Nothing is asked of the shuffle but that it permutes the
positions, and nothing at all of the signs. No position comes twice, so no sign is put over another,
and the vector has the signs at these positions and zeros everywhere else.

## Main definitions

* `Generator.signs`: the signs that a source of words gives.
* `Sampler.shuffling`: a sampler with ternary vectors from a given shuffle and a given source of
  words; `Generator.sampler_eq_shuffling` says that the sampler of the generator is one.

## Main results

* `Generator.perm_shuffle`: the shuffle of the generator permutes the positions.
* `Generator.getElem?_putSigns`: which sign is at which position.
* `Generator.countP_putSigns`: every sign that is put at a position of its own adds one to the
  weight.
* `Sampler.ternary_shuffling`: the length, the entries and the weight of a vector.
-/

namespace EncryptedArithmetic

variable {σ : Type}

namespace Generator

/-- A shuffle permutes the positions. -/
theorem perm_shuffle (below : ℕ → σ → ℕ × σ) (count : ℕ) (positions : Array ℕ) (s : σ) :
    (shuffle below count positions s).1.toList.Perm positions.toList := by
  induction count generalizing positions s with
  | zero => exact .refl _
  | succ count ih =>
    refine (ih _ _).trans ?_
    rw [Array.swapIfInBounds_def]
    split_ifs
    · exact (Array.swap_perm _ _).toList
    · exact .refl _
    · exact .refl _

/-! ## Signs -/

section Signs

variable (next : σ → UInt64 × σ)

/-- The signs in the highest bits of the next words. -/
def signs : ℕ → σ → List ℤ
  | 0, _ => []
  | count + 1, s => (if (next s).1 >>> 63 = 0 then 1 else -1) :: signs count (next s).2

/-- Signs change entries, never how many there are. -/
theorem size_putSigns (positions : List ℕ) (vector : Array ℤ) (s : σ) :
    (putSigns next positions vector s).1.size = vector.size := by
  induction positions generalizing vector s with
  | nil => rfl
  | cons position rest ih => rw [putSigns, ih, Array.size_setIfInBounds]

/-- Entries of a ternary vector stay ternary. -/
theorem ternary_putSigns (positions : List ℕ) {vector : Array ℤ} (s : σ)
    (hvector : ∀ x ∈ vector, x = -1 ∨ x = 0 ∨ x = 1) :
    ∀ x ∈ (putSigns next positions vector s).1, x = -1 ∨ x = 0 ∨ x = 1 := by
  induction positions generalizing vector s with
  | nil => exact hvector
  | cons position rest ih =>
    apply ih _
    intro x hx
    rcases Array.mem_or_eq_of_mem_setIfInBounds hx with hx | rfl
    · exact hvector x hx
    · split_ifs
      · exact .inr (.inr rfl)
      · exact .inl rfl

/-- A position that gets no sign keeps its entry. -/
theorem getElem?_putSigns_of_notMem {positions : List ℕ} {p : ℕ} (hp : p ∉ positions)
    (vector : Array ℤ) (s : σ) : (putSigns next positions vector s).1[p]? = vector[p]? := by
  induction positions generalizing vector s with
  | nil => rfl
  | cons position rest ih =>
    obtain ⟨hne, hrest⟩ := not_or.1 (List.mem_cons.not.1 hp)
    rw [putSigns, ih hrest, Array.getElem?_setIfInBounds_ne (Ne.symm hne)]

/-- The position that is listed as number `i` gets the sign that is drawn as number `i`. -/
theorem getElem?_putSigns {positions : List ℕ} (hnodup : positions.Nodup) {vector : Array ℤ}
    (hlt : ∀ p ∈ positions, p < vector.size) (s : σ) {i p : ℕ} (hi : positions[i]? = some p) :
    (signs next positions.length s)[i]? = (putSigns next positions vector s).1[p]? := by
  induction positions generalizing vector s i with
  | nil => cases hi
  | cons position rest ih =>
    obtain ⟨hnew, hrest⟩ := List.nodup_cons.1 hnodup
    rw [List.length_cons, signs, putSigns]
    cases i with
    | zero =>
      -- The sign in front is put first, and none of the others is put over it.
      obtain rfl := Option.some.inj hi
      rw [List.getElem?_cons_zero, getElem?_putSigns_of_notMem next hnew,
        Array.getElem?_setIfInBounds_self_of_lt (hlt _ List.mem_cons_self)]
    | succ i =>
      rw [List.getElem?_cons_succ]
      exact ih hrest (fun q hq => (Array.size_setIfInBounds ..).symm ▸
        hlt q (List.mem_cons_of_mem position hq)) _ hi

/-- A sign at a position where the vector is zero adds one to the weight. -/
theorem countP_setIfInBounds {vector : Array ℤ} {position : ℕ} {x : ℤ} (hx : x ≠ 0)
    (hzero : vector[position]? = some 0) :
    (vector.setIfInBounds position x).toList.countP (· ≠ 0) =
      vector.toList.countP (· ≠ 0) + 1 := by
  obtain ⟨hlt, hentry⟩ := Array.getElem?_eq_some_iff.1 hzero
  have hlength : position < vector.toList.length := hlt
  rw [Array.toList_setIfInBounds, List.countP_set hlength, Array.getElem_toList, hentry]
  simp [hx]

/-- Every sign that is put at a position of its own adds one to the weight. -/
theorem countP_putSigns {positions : List ℕ} (hnodup : positions.Nodup) {vector : Array ℤ} (s : σ)
    (hzero : ∀ p ∈ positions, vector[p]? = some 0) :
    (putSigns next positions vector s).1.toList.countP (· ≠ 0) =
      vector.toList.countP (· ≠ 0) + positions.length := by
  induction positions generalizing vector s with
  | nil => rfl
  | cons position rest ih =>
    obtain ⟨hnew, hrest⟩ := List.nodup_cons.1 hnodup
    have hsign : (if (next s).1 >>> 63 = 0 then 1 else -1 : ℤ) ≠ 0 := by
      split_ifs <;> decide
    -- The other positions are still zero, as no position comes twice.
    have hlater : ∀ p ∈ rest, (vector.setIfInBounds position
        (if (next s).1 >>> 63 = 0 then 1 else -1))[p]? = some 0 := by
      intro p hp
      have hne : position ≠ p := fun heq => hnew (heq ▸ hp)
      rw [Array.getElem?_setIfInBounds_ne hne]
      exact hzero p (List.mem_cons_of_mem _ hp)
    rw [putSigns, ih hrest _ hlater, countP_setIfInBounds hsign (hzero _ List.mem_cons_self),
      List.length_cons, add_right_comm, add_assoc]

end Signs

end Generator

/-! ## Samplers -/

namespace Sampler

open Generator

/-- The sampler whose ternary vectors get signs at the leading positions of a shuffle. -/
def shuffling (S : Sampler σ) (shuffle : ℕ → σ → List ℕ × σ) (next : σ → UInt64 × σ) :
    Sampler σ :=
  { S with
    ternary := fun count weight s =>
      let (positions, s) := shuffle count s
      let (vector, s) := putSigns next (positions.take weight) (Array.replicate count 0) s
      (vector.toList, s) }

variable {S : Sampler σ} {shuffle : ℕ → σ → List ℕ × σ} {next : σ → UInt64 × σ} {n : ℕ} {s : σ}

theorem fst_ternary_shuffling (weight : ℕ) :
    ((S.shuffling shuffle next).ternary n weight s).1 =
      (putSigns next ((shuffle n s).1.take weight) (Array.replicate n 0)
        (shuffle n s).2).1.toList :=
  rfl

/-- The leading positions of a shuffle, as many as the weight says. -/
theorem take_shuffled {positions : List ℕ} (hperm : positions.Perm (List.range n)) (weight : ℕ) :
    (positions.take weight).Nodup ∧ (∀ p ∈ positions.take weight, p < n) ∧
      (positions.take weight).length = min weight n := by
  refine ⟨(hperm.nodup_iff.2 List.nodup_range).sublist (List.take_sublist _ _), fun p hp => ?_, ?_⟩
  · exact List.mem_range.1 (hperm.mem_iff.1 (List.mem_of_mem_take hp))
  · rw [List.length_take, hperm.length_eq, List.length_range]

/-- Whatever the signs are, a vector from shuffled positions has the length that was asked for, is
ternary, and has as many entries that are not zero as the weight says. -/
theorem ternary_shuffling (S : Sampler σ) (next : σ → UInt64 × σ)
    (hperm : (shuffle n s).1.Perm (List.range n)) (weight : ℕ) :
    ((S.shuffling shuffle next).ternary n weight s).1.length = n ∧
      (∀ x ∈ ((S.shuffling shuffle next).ternary n weight s).1, x = -1 ∨ x = 0 ∨ x = 1) ∧
      (weight ≤ n →
        ((S.shuffling shuffle next).ternary n weight s).1.countP (· ≠ 0) = weight) := by
  obtain ⟨hnodup, hlt, hlength⟩ := take_shuffled hperm weight
  rw [fst_ternary_shuffling]
  refine ⟨?_, fun x hx => ?_, fun hle => ?_⟩
  · rw [Array.length_toList, size_putSigns, Array.size_replicate]
  · refine ternary_putSigns next _ _ (fun y hy => ?_) x (Array.mem_toList_iff.1 hx)
    exact .inr (.inl (Array.mem_replicate.1 hy).2)
  · have hzero : ∀ p ∈ (shuffle n s).1.take weight, (Array.replicate n (0 : ℤ))[p]? = some 0 := by
      intro p hp
      rw [Array.getElem?_replicate, if_pos (hlt p hp)]
    rw [countP_putSigns next hnodup _ hzero, hlength, min_eq_left hle, Array.toList_replicate]
    simp [List.countP_replicate]

/-- The position that the shuffle puts at number `i` gets the sign that is drawn as number `i`. -/
theorem getElem?_ternary_shuffling {positions : List ℕ} {u : σ}
    (hshuffle : shuffle n s = (positions, u)) (hperm : positions.Perm (List.range n)) {weight : ℕ}
    (hle : weight ≤ n) {i p : ℕ} (hi : i < weight) (hp : positions[i]? = some p) :
    (signs next weight u)[i]? = ((S.shuffling shuffle next).ternary n weight s).1[p]? := by
  obtain ⟨hnodup, hlt, hlength⟩ := take_shuffled hperm weight
  have htake : (positions.take weight)[i]? = some p := by rwa [List.getElem?_take_of_lt hi]
  have hsize : ∀ q ∈ positions.take weight, q < (Array.replicate n (0 : ℤ)).size := by
    rwa [Array.size_replicate]
  have hsigned := getElem?_putSigns next hnodup hsize u htake
  rw [hlength, min_eq_left hle] at hsigned
  rw [hsigned, fst_ternary_shuffling, hshuffle, Array.getElem?_toList]

end Sampler

namespace Generator

/-- The positions as the generator shuffles them. -/
def shufflePositions (count : ℕ) (g : Generator) : List ℕ × Generator :=
  let (positions, g) := shuffle below count (Array.range count) g
  (positions.toList, g)

theorem perm_shufflePositions (count : ℕ) (g : Generator) :
    (shufflePositions count g).1.Perm (List.range count) :=
  (perm_shuffle below count _ g).trans (.of_eq Array.toList_range)

/-- The ternary vectors of the generator come from positions that it shuffles. -/
theorem sampler_eq_shuffling : sampler = sampler.shuffling shufflePositions next :=
  rfl

end Generator

end EncryptedArithmetic

import EncryptedArithmetic.Proofs.Sampling.Ternary

/-!
# The seeded source is lawful

The seeded source keeps what every sampler promises, from every state of its generator and for every
value that the floating-point functions may give: vectors have the length that was asked for,
residues are below the modulus, Gaussian integers are signed words, and ternary vectors come from
shuffled positions, so they have exactly the weight that was asked for.

## Main results

* `below_lt`: residues that are drawn are below the bound.
* `nearestWord_mem`: Gaussian integers are signed words.
* `lawful_sampler`: the sampler of the generator is lawful.
-/

namespace EncryptedArithmetic.Generator

/-! ## Values drawn one after the other -/

section DrawMany

variable {α : Type} {value : Generator → α × Generator}

theorem length_drawMany (count : ℕ) (drawn : List α) (g : Generator) :
    (drawMany value count drawn g).1.length = count + drawn.length := by
  induction count generalizing drawn g with
  | zero => rw [drawMany, List.length_reverse, zero_add]
  | succ count ih =>
    rw [drawMany, ih, List.length_cons]
    omega

/-- What holds of every value that is drawn holds of all entries. -/
theorem forall_mem_drawMany {p : α → Prop} (hvalue : ∀ g, p (value g).1) (count : ℕ)
    (drawn : List α) (g : Generator) (hdrawn : ∀ x ∈ drawn, p x) :
    ∀ x ∈ (drawMany value count drawn g).1, p x := by
  induction count generalizing drawn g with
  | zero =>
    intro x hx
    exact hdrawn x (List.mem_reverse.1 hx)
  | succ count ih =>
    apply ih _ _
    intro x hx
    rcases List.mem_cons.1 hx with rfl | hx
    · exact hvalue g
    · exact hdrawn x hx

end DrawMany

/-! ## Residues and Gaussian integers -/

/-- The upper half of a product of 128 bits with the bound. -/
theorem below_lt {bound : ℕ} (hbound : 0 < bound) (g : Generator) : (below bound g).1 < bound := by
  have hhigh := g.next.1.toNat_lt
  have hlow := g.next.2.next.1.toNat_lt
  have hbits : (g.next.1.toNat <<< 64) + g.next.2.next.1.toNat < 2 ^ 128 := by
    rw [Nat.shiftLeft_eq]
    omega
  change (((g.next.1.toNat <<< 64) + g.next.2.next.1.toNat) * bound) >>> 128 < bound
  rw [Nat.shiftRight_eq_div_pow]
  exact Nat.div_lt_of_lt_mul (Nat.mul_lt_mul_of_pos_right hbits hbound)

theorem toUInt64_below_lt {modulus : UInt64} (hmodulus : 0 < modulus) (g : Generator) :
    (below modulus.toNat g).1.toUInt64 < modulus := by
  have hlt := below_lt (UInt64.lt_iff_toNat_lt.1 hmodulus) g
  rw [UInt64.lt_iff_toNat_lt]
  exact lt_of_eq_of_lt (UInt64.toNat_ofNat_of_lt' (hlt.trans modulus.toNat_lt)) hlt

/-- A signed word, whatever the value is: the nearest integer is moved into the range. -/
theorem nearestWord_mem (x : Float) :
    Int64.minValue.toInt ≤ nearestWord x ∧ nearestWord x ≤ Int64.maxValue.toInt := by
  have hle : Int64.minValue.toInt ≤ Int64.maxValue.toInt := by decide
  rw [nearestWord]
  split
  · exact ⟨le_max_left _ _, max_le hle (min_le_right _ _)⟩
  · split_ifs
    · exact ⟨hle, le_rfl⟩
    · exact ⟨le_rfl, hle⟩
    · decide

/-! ## The sampler -/

/-- The sampler of the generator is lawful. -/
theorem lawful_sampler : sampler.Lawful where
  uniform_length n q g := length_drawMany n [] g
  uniform_lt n q g hq := forall_mem_drawMany (fun g => toUInt64_below_lt hq g) n [] g (by simp)
  gaussian_length n d g := length_drawMany n [] g
  gaussian_word n d g := forall_mem_drawMany (fun g => nearestWord_mem _) n [] g (by simp)
  ternary_length n w g := by
    rw [sampler_eq_shuffling]
    exact (Sampler.ternary_shuffling sampler next (perm_shufflePositions n g) w).1
  ternary_mem n w g := by
    rw [sampler_eq_shuffling]
    exact (Sampler.ternary_shuffling sampler next (perm_shufflePositions n g) w).2.1
  ternary_weight n w g := by
    rw [sampler_eq_shuffling]
    exact (Sampler.ternary_shuffling sampler next (perm_shufflePositions n g) w).2.2

end EncryptedArithmetic.Generator

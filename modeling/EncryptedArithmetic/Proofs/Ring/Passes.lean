import EncryptedArithmetic.Proofs.Ring.BitReversal

/-!
# The transform in passes over the whole vector

The recursion of the transform takes one half of a vector all the way down before it turns to the
other. The same butterflies can be taken level by level: pass `k` goes once over the whole vector
and splits each of its `2 ^ k` blocks, block `i` with the power `bitReverse (2 ^ k + i)` of `psi`.
The inverse joins the blocks in passes of the opposite order. Both ways compute the same, and no
pass leaves an entry that is not reduced.

## Main definitions

* `forwardPass?` and `inversePass?`: one pass over the whole vector.
* `passes?`: the first passes, one after the other.

## Main results

* `exists_forwardPasses` and `exists_inversePasses`: what a vector holds between two passes.
* `inverse_forward_of_build`: the transforms undo each other, and all vectors on the way are
  reduced.
-/

namespace EncryptedArithmetic

open EncryptedArithmetic.Modular

namespace RootTable

/-! ## Blocks of a vector -/

/-- Replaces the blocks of a vector, each of them by its own rule. -/
def eachBlock? {α : Type} (size : ℕ) (f : α → List UInt64 → Except Fault (List UInt64)) :
    List α → List UInt64 → Except Fault (List UInt64)
  | [], _ => .ok []
  | a :: as, xs => do
    let block ← f a (xs.take size)
    let rest ← eachBlock? size f as (xs.drop size)
    return block ++ rest

section Blocks

variable {α β : Type} {size : ℕ} {f : α → List UInt64 → Except Fault (List UInt64)} {as : List α}
  {p : UInt64} {xs : List UInt64}

theorem eachBlock?_map (g : β → α) (bs : List β) (xs : List UInt64) :
    eachBlock? size f (bs.map g) xs = eachBlock? size (fun b => f (g b)) bs xs := by
  induction bs generalizing xs with
  | nil => rfl
  | cons b bs ih => simp only [List.map_cons, eachBlock?, ih]

/-- A leading block is replaced on its own. -/
theorem eachBlock?_cons_append {a : α} {block rest : List UInt64} (h : block.length = size) :
    eachBlock? size f (a :: as) (block ++ rest) = (do
      let block ← f a block
      let rest ← eachBlock? size f as rest
      return block ++ rest) := by
  rw [eachBlock?, List.take_left' h, List.drop_left' h]

/-- A single block is the whole vector. -/
theorem eachBlock?_singleton {a : α} (h : xs.length = size) :
    eachBlock? size f [a] xs = f a xs := by
  rw [eachBlock?, List.take_of_length_le h.le]
  rcases f a xs with e | ys
  · rfl
  · simp [eachBlock?]

/-- Blocks that stay as they are make up the vector. -/
theorem eachBlock?_ok (as : List α) (h : xs.length = as.length * size) :
    eachBlock? size (fun _ block => .ok block) as xs = .ok xs := by
  induction as generalizing xs with
  | nil =>
    rw [List.length_nil, zero_mul, List.length_eq_zero_iff] at h
    rw [h, eachBlock?]
  | cons a as ih =>
    rw [List.length_cons, add_mul, one_mul] at h
    rw [eachBlock?, ok_bind, ih (by rw [List.length_drop]; omega), ok_bind,
      List.take_append_drop, pure_eq_ok]

end Blocks

/-! ## One pass -/

variable {t : RootTable}

/-- The butterflies that split one block, with the power `e` of `psi`. -/
def splitBlock? (t : RootTable) (depth e : ℕ) (xs : List UInt64) : Except Fault (List UInt64) := do
  let low := xs.take (2 ^ depth)
  let high := scaleEach t.prime (t.powers.getD e 0) (xs.drop (2 ^ depth))
  let minus ← addEach? t.prime low high
  let plus ← subEach? t.prime low high
  return minus ++ plus

/-- The butterflies that join one block. -/
def joinBlock? (t : RootTable) (depth e : ℕ) (xs : List UInt64) : Except Fault (List UInt64) := do
  let minus := xs.take (2 ^ depth)
  let plus := xs.drop (2 ^ depth)
  let low ← addEach? t.prime minus plus
  let high ← subEach? t.prime minus plus
  return low ++ scaleEach t.prime (t.inversePowers.getD e 0) high

/-- The powers of `psi` that a pass over `2 ^ k` blocks multiplies with. -/
def twiddles (t : RootTable) (k : ℕ) : List ℕ :=
  (List.range (2 ^ k)).map fun i => bitReverse t.degree.log2 (2 ^ k + i)

/-- The pass that splits each of `2 ^ k` blocks. -/
def forwardPass? (t : RootTable) (k : ℕ) (xs : List UInt64) : Except Fault (List UInt64) :=
  eachBlock? (2 ^ (t.degree.log2 - k)) (t.splitBlock? (t.degree.log2 - k - 1)) (t.twiddles k) xs

/-- The pass that joins blocks of `2 ^ k` entries by two. -/
def inversePass? (t : RootTable) (k : ℕ) (xs : List UInt64) : Except Fault (List UInt64) :=
  eachBlock? (2 ^ (k + 1)) (t.joinBlock? k) (t.twiddles (t.degree.log2 - (k + 1))) xs

/-- The first `count` passes. -/
def passes? (pass : ℕ → List UInt64 → Except Fault (List UInt64)) :
    ℕ → List UInt64 → Except Fault (List UInt64)
  | 0, xs => .ok xs
  | count + 1, xs => do pass count (← passes? pass count xs)

/-! ## The factors between two passes -/

/-- The factors that the ones with the exponents `rs` split into. -/
def factors (t : RootTable) (rs : List ℕ) : List ℕ :=
  rs.flatMap fun r => [r / 2, r / 2 + t.degree]

theorem exponents_succ_eq_factors (k r : ℕ) :
    t.exponents (k + 1) r = t.factors (t.exponents k r) := by
  induction k generalizing r with
  | zero => rfl
  | succ k ih =>
    rw [exponents, ih, ih, exponents, factors, factors, factors, List.flatMap_append]

theorem splits_of_mem_exponents {depth k r s : ℕ} (h : t.Splits (depth + k) r)
    (hs : s ∈ t.exponents k r) : t.Splits depth s := by
  induction k generalizing r with
  | zero => exact List.mem_singleton.1 hs ▸ h
  | succ k ih =>
    rw [exponents, List.mem_append] at hs
    rcases hs with hs | hs
    · exact ih (show t.Splits (depth + k + 1) r from h).first hs
    · exact ih (show t.Splits (depth + k + 1) r from h).second hs

/-- The powers that a pass multiplies with belong to the factors that it splits. -/
theorem twiddles_eq (ht : t.Sound) {k : ℕ} (hk : k < t.degree.log2) :
    t.twiddles k = (t.exponents k t.degree).map (· / 2) := by
  obtain ⟨more, hmore⟩ : ∃ more, t.degree.log2 = k + 1 + more :=
    ⟨t.degree.log2 - (k + 1), by omega⟩
  have hdegree : t.degree / 2 ^ k = 2 * 2 ^ more := by
    rw [ht.degree_eq, hmore, add_assoc, pow_add, Nat.mul_div_cancel_left _ (Nat.two_pow_pos k),
      pow_add, pow_one]
  have hsplits : t.Splits k t.degree := by
    refine ⟨?_, ?_, by have := ht.one_lt_degree; omega⟩ <;>
      exact ht.degree_eq ▸ pow_dvd_pow 2 hk.le
  rw [twiddles, exponents_eq hsplits, List.map_map, hmore]
  apply List.map_congr_left
  intro i hi
  have hlt := List.mem_range.1 hi
  -- The leading one of `2 ^ k + i` marks the pass, and its reversed digits are those of the block.
  rw [bitReverse_add (by rw [pow_succ]; omega), bitReverse_succ_two_pow_add hlt,
    Function.comp_apply, hdegree]
  have hhalf : 2 * 2 ^ more + 2 * (2 * 2 ^ more) * bitReverse k i =
      2 * (2 ^ more * (2 * bitReverse k i + 1)) := by ring
  rw [hhalf, Nat.mul_div_cancel_left _ two_pos]

/-! ## A pass and the recursion -/

section Step

variable {depth : ℕ} {rs : List ℕ} {xs : List UInt64}

theorem reduced_blocks {count size : ℕ} (hx : Reduced t.prime ((count + 1) * size) xs) :
    Reduced t.prime size (xs.take size) ∧ Reduced t.prime (count * size) (xs.drop size) := by
  have hdrop := hx.drop size
  rw [add_mul, one_mul, Nat.add_sub_cancel] at hdrop
  exact ⟨hx.take (by rw [add_mul, one_mul]; omega), hdrop⟩

/-- A pass that splits every block leaves the rest of the recursion to do. -/
theorem exists_splitPass (ht : t.Sound) (hrs : ∀ r ∈ rs, t.Splits (depth + 1) r)
    (hx : Reduced t.prime (rs.length * 2 ^ (depth + 1)) xs) :
    ∃ ys, eachBlock? (2 ^ (depth + 1)) (fun r => t.splitBlock? depth (r / 2)) rs xs = .ok ys ∧
      Reduced t.prime (rs.length * 2 ^ (depth + 1)) ys ∧
      eachBlock? (2 ^ depth) (fun r => t.split? depth (r / 2)) (t.factors rs) ys =
        eachBlock? (2 ^ (depth + 1)) (fun r => t.split? (depth + 1) (r / 2)) rs xs := by
  -- By induction on the blocks: the butterflies of one, then those of the others.
  induction rs generalizing xs with
  | nil => exact ⟨[], rfl, ⟨by simp, by simp⟩, rfl⟩
  | cons r rs ih =>
    have hr := hrs r List.mem_cons_self
    obtain ⟨hblock, hrest⟩ := reduced_blocks hx
    obtain ⟨hlow, hdrop⟩ := reduced_halves hblock
    have hhigh := reduced_scaleEach ht.prime_pos (t.powers.getD (r / 2) 0) hdrop.length
    obtain ⟨minus, hminus, hminusr, -⟩ := exists_addEach? ht.prime_le hlow hhigh
    obtain ⟨plus, hplus, hplusr, -⟩ := exists_subEach? hlow hhigh
    obtain ⟨ys, hys, hysr, heq⟩ := ih (fun s hs => hrs s (List.mem_cons_of_mem r hs)) hrest
    have hpow : 2 ^ (depth + 1) = 2 ^ depth + 2 ^ depth := by ring
    refine ⟨minus ++ plus ++ ys, ?_, ?_, ?_⟩
    · simp only [eachBlock?, splitBlock?, hminus, hplus, hys, ok_bind, pure_eq_ok]
    · have hall := (hminusr.append hplusr).append hysr
      rwa [← hpow, add_comm, ← Nat.succ_mul] at hall
    · have hfactors : t.factors (r :: rs) = r / 2 :: (r / 2 + t.degree) :: t.factors rs := rfl
      rw [hfactors, List.append_assoc, eachBlock?_cons_append hminusr.length,
        eachBlock?_cons_append hplusr.length, heq, hr.second_half]
      -- The two parts of the block are split, put together and followed by the rest.
      simp only [eachBlock?, split?, Nat.one_shiftLeft, hminus, hplus, ok_bind]
      simp [bind_assoc]

/-- A pass that joins every block comes behind the recursion on both of its halves. -/
theorem exists_joinPass (ht : t.Sound) (hrs : ∀ r ∈ rs, t.Splits (depth + 1) r)
    (hx : Reduced t.prime (rs.length * 2 ^ (depth + 1)) xs) :
    ∃ ys zs, eachBlock? (2 ^ depth) (fun r => t.join? depth (r / 2)) (t.factors rs) xs = .ok ys ∧
      eachBlock? (2 ^ (depth + 1)) (fun r => t.joinBlock? depth (r / 2)) rs ys = .ok zs ∧
      Reduced t.prime (rs.length * 2 ^ (depth + 1)) zs ∧
      eachBlock? (2 ^ (depth + 1)) (fun r => t.join? (depth + 1) (r / 2)) rs xs = .ok zs := by
  -- By induction on the blocks: the recursion goes down to two halves first, which are blocks of
  -- their own in the vector that the pass is given.
  induction rs generalizing xs with
  | nil => exact ⟨[], [], rfl, rfl, ⟨by simp, by simp⟩, rfl⟩
  | cons r rs ih =>
    have hr := hrs r List.mem_cons_self
    obtain ⟨hblock, hrest⟩ := reduced_blocks hx
    obtain ⟨hfirst, hsecond⟩ := reduced_halves hblock
    obtain ⟨minus, hminus, hminusr, -⟩ := exists_join? ht hr.first hfirst
    obtain ⟨plus, hplus, hplusr, -⟩ := exists_join? ht hr.second hsecond
    obtain ⟨low, hlow, hlowr, -⟩ := exists_addEach? ht.prime_le hminusr hplusr
    obtain ⟨diff, hdiff, hdiffr, -⟩ := exists_subEach? hminusr hplusr
    have hhighr := reduced_scaleEach ht.prime_pos (t.inversePowers.getD (r / 2) 0) hdiffr.length
    obtain ⟨ys, zs, hys, hzs, hzsr, heq⟩ :=
      ih (fun s hs => hrs s (List.mem_cons_of_mem r hs)) hrest
    have hpow : 2 ^ (depth + 1) = 2 ^ depth + 2 ^ depth := by ring
    have hlength : (minus ++ plus).length = 2 ^ (depth + 1) := by
      rw [List.length_append, hminusr.length, hplusr.length, hpow]
    have hfactors : t.factors (r :: rs) = r / 2 :: (r / 2 + t.degree) :: t.factors rs := rfl
    -- The vector is cut into the two halves of the block and the blocks behind it.
    have hcut : xs = (xs.take (2 ^ (depth + 1))).take (2 ^ depth) ++
        ((xs.take (2 ^ (depth + 1))).drop (2 ^ depth) ++ xs.drop (2 ^ (depth + 1))) := by
      rw [← List.append_assoc, List.take_append_drop, List.take_append_drop]
    refine ⟨minus ++ plus ++ ys,
      low ++ scaleEach t.prime (t.inversePowers.getD (r / 2) 0) diff ++ zs, ?_, ?_, ?_, ?_⟩
    · rw [hfactors, hcut, eachBlock?_cons_append hfirst.length,
        eachBlock?_cons_append hsecond.length, hys, hminus, hplus]
      simp [List.append_assoc]
    · rw [eachBlock?_cons_append hlength, hzs, joinBlock?, List.take_left' hminusr.length,
        List.drop_left' hminusr.length]
      simp only [hlow, hdiff, ok_bind, pure_eq_ok]
    · have hall := (hlowr.append hhighr).append hzsr
      rwa [← hpow, add_comm, ← Nat.succ_mul] at hall
    · rw [hr.second_half] at hplus
      rw [eachBlock?, heq]
      simp only [join?, Nat.one_shiftLeft, hminus, hplus, hlow, hdiff, ok_bind, pure_eq_ok]

end Step

/-! ## All passes -/

section Passes

variable {xs : List UInt64} {k : ℕ}

theorem length_exponents (k r : ℕ) : (t.exponents k r).length = 2 ^ k := by
  induction k generalizing r with
  | zero => rfl
  | succ k ih => rw [exponents, List.length_append, ih, ih, pow_succ, mul_two]

/-- `2 ^ k` blocks make up a vector. -/
theorem degree_eq_mul (ht : t.Sound) (hk : k ≤ t.degree.log2) :
    t.degree = (t.exponents k t.degree).length * 2 ^ (t.degree.log2 - k) := by
  rw [length_exponents, ← pow_add, Nat.add_sub_cancel' hk]
  exact ht.degree_eq

/-- The factors behind `k` passes split as often as there are passes left. -/
theorem splits_of_mem_exponents_degree (ht : t.Sound) (hk : k ≤ t.degree.log2) {r : ℕ}
    (hr : r ∈ t.exponents k t.degree) : t.Splits (t.degree.log2 - k) r := by
  refine splits_of_mem_exponents ?_ hr
  rw [Nat.sub_add_cancel hk]
  exact splits_degree ht

/-- The first passes of the transform leave a reduced vector. What is left to do is the recursion on
each of its blocks. -/
theorem exists_forwardPasses (ht : t.Sound) (hx : Reduced t.prime t.degree xs)
    (hk : k ≤ t.degree.log2) :
    ∃ ys, passes? t.forwardPass? k xs = .ok ys ∧ Reduced t.prime t.degree ys ∧
      eachBlock? (2 ^ (t.degree.log2 - k)) (fun r => t.split? (t.degree.log2 - k) (r / 2))
        (t.exponents k t.degree) ys = t.forward? xs := by
  -- By induction on the passes: each of them takes one level off what is left of the recursion.
  induction k with
  | zero =>
    refine ⟨xs, rfl, hx, ?_⟩
    rw [exponents, Nat.sub_zero, eachBlock?_singleton (hx.length.trans ht.degree_eq), forward?,
      if_pos hx.length]
  | succ k ih =>
    obtain ⟨ys, hys, hy, hrest⟩ := ih (Nat.le_of_succ_le hk)
    obtain ⟨depth, hdepth⟩ : ∃ depth, t.degree.log2 - k = depth + 1 :=
      ⟨t.degree.log2 - (k + 1), by omega⟩
    have hleft : t.degree.log2 - (k + 1) = depth := by omega
    have hsize := degree_eq_mul ht (Nat.le_of_succ_le hk)
    have hsplits := fun r hr => splits_of_mem_exponents_degree ht (Nat.le_of_succ_le hk) (r := r) hr
    rw [hdepth] at hrest hsize hsplits
    obtain ⟨zs, hzs, hz, hpass⟩ := exists_splitPass ht hsplits (hsize ▸ hy)
    refine ⟨zs, ?_, hsize ▸ hz, ?_⟩
    · rw [passes?, hys, ok_bind, forwardPass?, twiddles_eq ht hk, eachBlock?_map, hdepth,
        Nat.add_sub_cancel]
      exact hzs
    · rw [hleft, exponents_succ_eq_factors, hpass, hrest]

/-- The first passes of the inverse leave a reduced vector. They have joined each of its blocks. -/
theorem exists_inversePasses (ht : t.Sound) (hx : Reduced t.prime t.degree xs)
    (hk : k ≤ t.degree.log2) :
    ∃ ys, passes? t.inversePass? k xs = .ok ys ∧ Reduced t.prime t.degree ys ∧
      eachBlock? (2 ^ k) (fun r => t.join? k (r / 2))
        (t.exponents (t.degree.log2 - k) t.degree) xs = .ok ys := by
  -- By induction on the passes. The first one joins the shortest blocks, so the factors that a pass
  -- puts together are counted from the last level.
  induction k with
  | zero =>
    refine ⟨xs, rfl, hx, ?_⟩
    have hsize := degree_eq_mul ht (le_refl t.degree.log2)
    rw [Nat.sub_self] at hsize
    exact eachBlock?_ok _ (hx.length.trans hsize)
  | succ k ih =>
    obtain ⟨ys, hys, hy, hjoined⟩ := ih (Nat.le_of_succ_le hk)
    obtain ⟨left, hleft⟩ : ∃ left, t.degree.log2 - k = left + 1 :=
      ⟨t.degree.log2 - (k + 1), by omega⟩
    have hlevel : t.degree.log2 - (k + 1) = left := by omega
    have hlt : left < t.degree.log2 := by omega
    have hsize := degree_eq_mul ht hlt.le
    have hsplits := fun r hr => splits_of_mem_exponents_degree ht hlt.le (r := r) hr
    have hdepth : t.degree.log2 - left = k + 1 := by omega
    rw [hdepth] at hsize hsplits
    obtain ⟨ys', zs, hys', hzs, hz, hpass⟩ := exists_joinPass ht hsplits (hsize ▸ hx)
    rw [hleft, exponents_succ_eq_factors] at hjoined
    obtain rfl : ys' = ys := Except.ok.inj (hys'.symm.trans hjoined)
    refine ⟨zs, ?_, hsize ▸ hz, hlevel ▸ hpass⟩
    rw [passes?, hys, ok_bind, inversePass?, hlevel, twiddles_eq ht hlt, eachBlock?_map]
    exact hzs

/-- The transform is the passes, one after the other. -/
theorem forward?_eq_passes? (ht : t.Sound) (hx : Reduced t.prime t.degree xs) :
    t.forward? xs = passes? t.forwardPass? t.degree.log2 xs := by
  obtain ⟨ys, hys, hy, hrest⟩ := exists_forwardPasses ht hx le_rfl
  have hsize := degree_eq_mul ht (le_refl t.degree.log2)
  rw [Nat.sub_self] at hrest hsize
  rw [← hrest, hys]
  exact eachBlock?_ok _ (hy.length.trans hsize)

/-- The inverse is the passes, one after the other, and the division by the degree. -/
theorem inverse?_eq_passes? (ht : t.Sound) (hx : Reduced t.prime t.degree xs) :
    t.inverse? xs =
      (passes? t.inversePass? t.degree.log2 xs).map (scaleEach t.prime t.degreeInverse) := by
  obtain ⟨ys, hys, -, hjoined⟩ := exists_inversePasses ht hx le_rfl
  rw [Nat.sub_self, exponents, eachBlock?_singleton (hx.length.trans ht.degree_eq)] at hjoined
  rw [inverse?, if_pos hx.length, hjoined, hys]
  rfl

end Passes

/-- Over a table that is built for a prime below `2 ^ 63`, the transform and its inverse undo each
other on every vector of `N` residues, in either order. Both can be taken in passes over the whole
vector, and behind every pass, as at the end, the entries are reduced. -/
theorem inverse_forward_of_build {p : UInt64} {n : ℕ} (h : build p n = .ok t)
    (hp : p.toNat.Prime) (hlt : p.toNat < 2 ^ 63) {xs : List UInt64} (hlength : xs.length = n)
    (hreduced : ∀ x ∈ xs, x < p) :
    (∃ ys, t.forward? xs = .ok ys ∧ t.inverse? ys = .ok xs ∧ ys.length = n ∧ ∀ y ∈ ys, y < p) ∧
    (∃ ys, t.inverse? xs = .ok ys ∧ t.forward? ys = .ok xs ∧ ys.length = n ∧ ∀ y ∈ ys, y < p) ∧
    t.forward? xs = passes? t.forwardPass? n.log2 xs ∧
    t.inverse? xs = (passes? t.inversePass? n.log2 xs).map (scaleEach p t.degreeInverse) ∧
    ∀ pass ∈ [t.forwardPass?, t.inversePass?], ∀ k ≤ n.log2,
      ∃ ys, passes? pass k xs = .ok ys ∧ ys.length = n ∧ ∀ y ∈ ys, y < p := by
  obtain ⟨rfl, rfl, ht⟩ := build_sound h hp hlt.le
  have hx : Reduced t.prime t.degree xs := ⟨hlength, hreduced⟩
  obtain ⟨ys, hys, hy, -⟩ := exists_forward? ht hx
  obtain ⟨zs, hzs, hz, -⟩ := exists_inverse? ht hx
  refine ⟨⟨ys, hys, inverse?_of_forward? ht hx hys, hy.length, hy.lt⟩,
    ⟨zs, hzs, forward?_of_inverse? ht hx hzs, hz.length, hz.lt⟩,
    forward?_eq_passes? ht hx, inverse?_eq_passes? ht hx, ?_⟩
  intro pass hpass k hk
  simp only [List.mem_cons, List.not_mem_nil, or_false] at hpass
  rcases hpass with rfl | rfl
  · obtain ⟨ys, hys, hy, -⟩ := exists_forwardPasses ht hx hk
    exact ⟨ys, hys, hy.length, hy.lt⟩
  · obtain ⟨ys, hys, hy, -⟩ := exists_inversePasses ht hx hk
    exact ⟨ys, hys, hy.length, hy.lt⟩

/-- Modulo `17`, in both orders, for a vector of four residues. -/
theorem inverse_forward_seventeen :
    ∃ (t : RootTable) (ys zs : List UInt64), build 17 4 = .ok t ∧
      t.forward? [1, 2, 3, 16] = .ok ys ∧ t.inverse? ys = .ok [1, 2, 3, 16] ∧
      t.inverse? [1, 2, 3, 16] = .ok zs ∧ t.forward? zs = .ok [1, 2, 3, 16] ∧
      ∀ y ∈ ys ++ zs, y < 17 := by
  have hprime : Nat.Prime 17 := by norm_num
  obtain ⟨t, ht⟩ : ∃ t, build 17 4 = .ok t := ⟨_, rfl⟩
  obtain ⟨⟨ys, hys, hback, -, hy⟩, ⟨zs, hzs, hforth, -, hz⟩, -⟩ :=
    inverse_forward_of_build ht hprime (by decide) (show [1, 2, 3, 16].length = 4 from rfl)
      (by simp)
  exact ⟨t, ys, zs, ht, hys, hback, hzs, hforth,
    fun y hmem => (List.mem_append.1 hmem).elim (hy y) (hz y)⟩

end RootTable

end EncryptedArithmetic

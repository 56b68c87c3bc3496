import EncryptedArithmetic.Modular.Basic

/-!
# Vectors of residues

The arithmetic of residues entry by entry, on vectors of one length. A sum or difference of vectors
ends in a fault where that of two entries is no word; `addEach?_eq_ok` and `subEach?_eq_ok` say that
reduced vectors never get there, sums as long as the modulus is at most `2 ^ 63`.
-/

namespace EncryptedArithmetic.Modular

/-- Whether all pairs of entries pass a test. -/
@[specialize]
def allPairs (test : UInt64 → UInt64 → Bool) : List UInt64 → List UInt64 → Bool
  | x :: xs, y :: ys => test x y && allPairs test xs ys
  | _, _ => true

/-- The residues of the products of entries. -/
def mulEach (m : UInt64) (xs ys : List UInt64) : List UInt64 :=
  xs.zipWith (mul · · m) ys

/-- The residues of the entries times a word. -/
def scaleEach (m k : UInt64) (xs : List UInt64) : List UInt64 :=
  xs.map (mul · k m)

/-- The residues of the sums of entries. -/
def addEach? (m : UInt64) (xs ys : List UInt64) : Except Fault (List UInt64) :=
  if allPairs sumFits xs ys then .ok (xs.zipWith (add · · m) ys) else .error .overflow

/-- The residues of the differences of entries. -/
def subEach? (m : UInt64) (xs ys : List UInt64) : Except Fault (List UInt64) :=
  if allPairs (differenceFits · · m) xs ys then .ok (xs.zipWith (sub · · m) ys)
  else .error .overflow

/-- All pairs pass when those of entries at one position do. -/
theorem allPairs_iff {test : UInt64 → UInt64 → Bool} {xs ys : List UInt64} :
    allPairs test xs ys ↔
      ∀ (k : Nat) (x y : UInt64), xs[k]? = some x → ys[k]? = some y → test x y := by
  induction xs generalizing ys with
  | nil => simp [allPairs]
  | cons a xs ih =>
    cases ys with
    | nil => simp [allPairs]
    | cons b ys =>
      rw [allPairs, Bool.and_eq_true, ih]
      constructor
      · intro ⟨hhead, htail⟩ k x y hx hy
        cases k with
        | zero =>
          cases hx
          cases hy
          exact hhead
        | succ k => exact htail k x y hx hy
      · intro h
        exact ⟨h 0 a b rfl rfl, fun k x y hx hy => h (k + 1) x y hx hy⟩

theorem allPairs_of_forall {test : UInt64 → UInt64 → Bool} {xs ys : List UInt64}
    (h : ∀ x ∈ xs, ∀ y ∈ ys, test x y) : allPairs test xs ys :=
  allPairs_iff.2 fun _ x y hx hy => h x (List.mem_of_getElem? hx) y (List.mem_of_getElem? hy)

theorem addEach?_eq_ok {m : UInt64} {xs ys : List UInt64} (hx : ∀ x ∈ xs, x < m)
    (hy : ∀ y ∈ ys, y < m) (hm : m.toNat ≤ UInt64.size / 2) :
    addEach? m xs ys = .ok (xs.zipWith (add · · m) ys) :=
  if_pos (allPairs_of_forall fun x hxm y hym => sumFits_of_lt (hx x hxm) (hy y hym) hm)

theorem subEach?_eq_ok {m : UInt64} {xs ys : List UInt64} (hy : ∀ y ∈ ys, y < m) :
    subEach? m xs ys = .ok (xs.zipWith (sub · · m) ys) :=
  if_pos (allPairs_of_forall fun _ _ y hym => differenceFits_of_lt (hy y hym))

end EncryptedArithmetic.Modular

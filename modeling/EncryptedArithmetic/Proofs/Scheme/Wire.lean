import EncryptedArithmetic.Proofs.Fault
import EncryptedArithmetic.Scheme.Ciphertext
import Mathlib

/-!
# Bytes that are read back

A reader belongs to a writer when it takes from the bytes what was written there, leaves alone
whatever stands behind them, and misses something in every shorter part. Readers of this kind can be
put one after the other, so the reader of a ciphertext is of this kind because those of its fields
are. That a float is the one of its bits, `Float.ofBits_toBits`, comes with `Mathlib` as a whole and
with no module of it alone.

## Main definitions

* `Reads`: a reader takes a value from bytes, and from no shorter part of them.
* `WireForm.Countable`: all lists have a length that is a word.

## Main results

* `Reads.bind`: readers in sequence.
* `reads_getWord`, `reads_getList`: integers of every size, and lists.
* `decode_encode`, `decode_cut`, `decode_append`: what is read of a ciphertext, of a part of it, and
  of more than it.
-/

namespace EncryptedArithmetic

/-- All lists have a length that is a word. -/
structure WireForm.Countable (w : WireForm) : Prop where
  primes : w.primes.length < UInt64.size
  c0 : w.c0.length < UInt64.size
  c0_row : ∀ row ∈ w.c0, row.length < UInt64.size
  c1 : w.c1.length < UInt64.size
  c1_row : ∀ row ∈ w.c1, row.length < UInt64.size

namespace Wire

variable {α β : Type}

/-- The reader takes the value from the bytes, whatever stands behind them, and finds that data is
missing where only a part of them is there. -/
structure Reads (get : Reader α) (bytes : List UInt8) (x : α) : Prop where
  whole : ∀ rest, get.run (bytes ++ rest) = .ok (x, rest)
  cut : ∀ part rest, bytes = part ++ rest → rest ≠ [] → get.run part = .error .unexpectedEnd

/-! ## Readers in sequence -/

theorem reads_pure (x : α) : Reads (pure x) [] x where
  whole _ := rfl
  cut _ _ h hrest := absurd (List.append_eq_nil_iff.1 h.symm).2 hrest

/-- The bytes of a sequence are those of its parts, one after the other. -/
theorem Reads.bind {get : Reader α} {f : α → Reader β} {bs cs : List UInt8} {x : α} {y : β}
    (hx : Reads get bs x) (hy : Reads (f x) cs y) : Reads (get >>= f) (bs ++ cs) y where
  whole rest := by
    rw [StateT.run_bind, List.append_assoc, hx.whole, ok_bind]
    exact hy.whole rest
  cut part rest h hrest := by
    rw [StateT.run_bind]
    -- The part ends behind the first value or within it.
    rcases List.append_eq_append_iff.1 h with ⟨as, rfl, hcs⟩ | ⟨as, hbs, hrest'⟩
    · rw [hx.whole, ok_bind]
      exact hy.cut as rest hcs hrest
    · by_cases has : as = []
      · subst has
        rw [List.append_nil] at hbs
        have hempty := hx.whole []
        rw [List.append_nil, hbs] at hempty
        rw [hempty, ok_bind]
        exact hy.cut [] rest (by simpa using hrest'.symm) hrest
      · rw [hx.cut part as hbs has]
        rfl

/-! ## Integers and floats -/

theorem reads_getByte (b : UInt8) : Reads getByte [b] b where
  whole _ := rfl
  cut part rest h hrest := by
    rcases part with _ | ⟨c, part⟩
    · rfl
    · obtain ⟨-, htail⟩ := List.cons.inj h
      exact absurd (List.append_eq_nil_iff.1 htail.symm).2 hrest

/-- The bytes of a number, the lowest first, give back as much of it as they hold. -/
theorem reads_getLittleEndian (count n : Nat) :
    Reads (getLittleEndian count) (littleEndian count n) (n % 256 ^ count) := by
  -- The lowest byte comes first, and the induction is on the bytes behind it.
  induction count generalizing n with
  | zero =>
    rw [Nat.pow_zero, Nat.mod_one]
    exact reads_pure 0
  | succ count ih =>
    have hbyte : (UInt8.ofNat (n % 256)).toNat = n % 256 := by
      rw [UInt8.toNat_ofNat']
      exact Nat.mod_mod n 256
    have hsplit : n % 256 + 256 * (n / 256 % 256 ^ count) = n % 256 ^ (count + 1) := by
      rw [Nat.pow_succ', Nat.mod_mul]
    have h := (reads_getByte (UInt8.ofNat (n % 256))).bind
      (f := fun low => do return low.toNat + 256 * (← getLittleEndian count))
      ((ih (n / 256)).bind (reads_pure _))
    rw [hbyte, hsplit, List.append_nil] at h
    exact h

theorem toUInt64_mod {w : UInt64} {m : Nat} (h : w.toNat < m) : (w.toNat % m).toUInt64 = w := by
  rw [Nat.mod_eq_of_lt h]
  exact UInt64.ofNat_toNat

/-- A word is read back from as many bytes as it needs. -/
theorem reads_getLittleEndian_word {count : Nat} {w : UInt64} (h : w.toNat < 256 ^ count) :
    Reads (do return (← getLittleEndian count).toUInt64) (littleEndian count w.toNat) w := by
  have hread := (reads_getLittleEndian count w.toNat).bind
    (f := fun n => pure n.toUInt64) (reads_pure _)
  rwa [List.append_nil, toUInt64_mod h] at hread

/-- Every integer is read back from its shortest form. -/
theorem reads_getWord (w : UInt64) : Reads getWord (putWord w) w := by
  unfold getWord
  simp only [putWord]
  split
  case isTrue hlt =>
    -- A small integer is its own marker.
    have hbyte : (UInt8.ofNat w.toNat).toNat = w.toNat := by
      rw [UInt8.toNat_ofNat']
      exact Nat.mod_eq_of_lt (by omega)
    have hword : (UInt8.ofNat w.toNat).toUInt64 = w := by
      rw [← UInt64.toNat_inj, UInt8.toNat_toUInt64, hbyte]
    have hmarker : UInt8.ofNat w.toNat < 251 := by
      rw [UInt8.lt_iff_toNat_lt, hbyte]
      exact hlt
    refine Reads.bind (reads_getByte (UInt8.ofNat w.toNat)) ?_
    rw [if_pos hmarker, hword]
    exact reads_pure w
  case isFalse =>
    split
    case isTrue hlt => exact (reads_getByte 251).bind (reads_getLittleEndian_word hlt)
    case isFalse =>
      split
      case isTrue hlt => exact (reads_getByte 252).bind (reads_getLittleEndian_word hlt)
      case isFalse => exact (reads_getByte 253).bind (reads_getLittleEndian_word w.toNat_lt)

/-- Every float is read back, bit by bit. -/
theorem reads_getFloat (x : Float) : Reads getFloat (putFloat x) x := by
  have h := (reads_getLittleEndian 8 x.toBits.toNat).bind
    (f := fun n => pure (Float.ofBits n.toUInt64)) (reads_pure _)
  have hlt : x.toBits.toNat < 256 ^ 8 := x.toBits.toNat_lt
  rwa [List.append_nil, toUInt64_mod hlt, Float.ofBits_toBits] at h

/-! ## Lists -/

theorem reads_getItems {get : Reader α} {put : α → List UInt8} {xs : List α} (taken : List α)
    (h : ∀ x ∈ xs, Reads get (put x) x) :
    Reads (getItems get xs.length taken) (xs.flatMap put) (taken.reverse ++ xs) := by
  induction xs generalizing taken with
  | nil =>
    rw [List.append_nil]
    exact reads_pure _
  | cons x xs ih =>
    have hrest := ih (x :: taken) fun y hy => h y (List.mem_cons_of_mem x hy)
    rw [List.reverse_cons, List.append_assoc] at hrest
    exact (h x List.mem_cons_self).bind hrest

/-- A list is read back when its items are and its length is a word. -/
theorem reads_getList {get : Reader α} {put : α → List UInt8} {xs : List α}
    (hlength : xs.length < UInt64.size) (h : ∀ x ∈ xs, Reads get (put x) x) :
    Reads (getList get) (putList put xs) xs := by
  have hitems := reads_getItems [] h
  rw [List.reverse_nil, List.nil_append] at hitems
  refine (reads_getWord _).bind ?_
  rwa [UInt64.toNat_ofNat_of_lt' hlength]

/-! ## Ciphertexts -/

/-- The content of a ciphertext is read back field by field. -/
theorem reads_getForm {w : WireForm} (hw : w.Countable) : Reads getForm (encode w) w := by
  have hrows {rows : List (List UInt64)} (hlength : rows.length < UInt64.size)
      (hrow : ∀ row ∈ rows, row.length < UInt64.size) :
      Reads (getList (getList getWord)) (putList (putList putWord) rows) rows :=
    reads_getList hlength fun row hmem => reads_getList (hrow row hmem) fun x _ => reads_getWord x
  rw [← List.append_nil (encode w)]
  simp only [encode, List.append_assoc]
  refine (reads_getWord w.contextId).bind ?_
  refine (reads_getFloat w.scale).bind ?_
  refine (reads_getList hw.primes fun x _ => reads_getWord x).bind ?_
  refine (hrows hw.c0 hw.c0_row).bind ?_
  refine (hrows hw.c1 hw.c1_row).bind ?_
  exact reads_pure w

/-- What was written is read back. -/
theorem decode_encode {w : WireForm} (hw : w.Countable) : decode (encode w) = .ok w := by
  have h := (reads_getForm hw).whole []
  rw [List.append_nil] at h
  rw [decode, h]
  rfl

/-- A part of what was written is too short. -/
theorem decode_cut {w : WireForm} (hw : w.Countable) {part rest : List UInt8}
    (h : encode w = part ++ rest) (hrest : rest ≠ []) : decode part = .error .unexpectedEnd := by
  rw [decode, (reads_getForm hw).cut part rest h hrest]
  rfl

/-- More than what was written is too long. -/
theorem decode_append {w : WireForm} (hw : w.Countable) {rest : List UInt8} (hrest : rest ≠ []) :
    decode (encode w ++ rest) = .error (.trailingBytes rest.length) := by
  rw [decode, (reads_getForm hw).whole rest, ok_bind]
  exact if_neg (by simpa using hrest)

end Wire

end EncryptedArithmetic

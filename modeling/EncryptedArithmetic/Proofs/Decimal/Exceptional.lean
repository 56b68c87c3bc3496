import EncryptedArithmetic.Expression.Basic
import EncryptedArithmetic.Proofs.Decimal.Binary64

/-!
# Divisions without a finite value

A quotient of which the divisor is zero or no number is not finite, and what is computed from
something that is no number is no number either.

## Main results

* `Operator.isNaN_apply`: all four operators keep what is no number.
* `not_isFinite_div`: quotients by zero and by what is no number.
-/

namespace EncryptedArithmetic

open Float.Model (Format UnpackedFloat)
open Float.Model.UnpackedFloat

namespace Binary64

variable {x y : Float}

theorem isNaN_iff_unpack : x.isNaN ↔ x.toModel.unpack = .notANumber := by
  change x.toModel.unpack.isNaN = true ↔ _
  cases x.toModel.unpack with
  | notANumber => exact iff_of_true rfl rfl
  | _ => exact iff_of_false Bool.false_ne_true nofun

theorem not_isFinite_of_isNaN (h : x.isNaN) : ¬x.isFinite := by
  change ¬x.toModel.unpack.isFinite = true
  rw [isNaN_iff_unpack.1 h]
  exact Bool.false_ne_true

/-- What equals zero is one of the two zeros. -/
theorem exists_zero_of_beq (h : (y == 0) = true) : ∃ s, y.toModel.unpack = .zero s := by
  have hzero : (0 : Float).toModel.unpack = .zero .positive := by rfl
  change (y.toModel.unpack.compare (0 : Float).toModel.unpack == some .eq) = true at h
  rw [hzero] at h
  rcases hy : y.toModel.unpack with s | _ | s | ⟨s, m, e, hm⟩
  all_goals rw [hy] at h
  · cases s <;> cases h
  · cases h
  · exact ⟨s, rfl⟩
  · cases s <;> cases h

end Binary64

open Binary64

theorem Operator.isNaN_apply (op : Operator) {x y : Float} (h : x.isNaN ∨ y.isNaN) :
    (op.apply x y).isNaN := by
  -- An operation that keeps what is no number does so after packing.
  have hkeep {f : Format → UnpackedFloat → UnpackedFloat → UnpackedFloat}
      (hf : ∀ u, f Format.binary64 .notANumber u = .notANumber ∧
        f Format.binary64 u .notANumber = .notANumber) :
      (Float.Model.pack (f Format.binary64 x.toModel.unpack y.toModel.unpack)).unpack =
        .notANumber := by
    rcases h with h | h
    · rw [isNaN_iff_unpack.1 h, (hf _).1, unpack_pack_notANumber]
    · rw [isNaN_iff_unpack.1 h, (hf _).2, unpack_pack_notANumber]
  rw [isNaN_iff_unpack]
  cases op with
  | add => exact hkeep (f := UnpackedFloat.add) fun u => by cases u <;> exact ⟨rfl, rfl⟩
  | sub => exact hkeep (f := UnpackedFloat.sub) fun u => by cases u <;> exact ⟨rfl, rfl⟩
  | mul => exact hkeep (f := UnpackedFloat.mul) fun u => by cases u <;> exact ⟨rfl, rfl⟩
  | div => exact hkeep (f := UnpackedFloat.div) fun u => by cases u <;> exact ⟨rfl, rfl⟩

namespace Binary64

theorem not_isFinite_div {x y : Float} (h : y.isNaN ∨ (y == 0) = true) : ¬(x / y).isFinite := by
  rcases h with h | h
  · exact not_isFinite_of_isNaN (Operator.isNaN_apply .div (Or.inr h))
  obtain ⟨s, hy⟩ := exists_zero_of_beq h
  change ¬(Float.Model.pack (UnpackedFloat.div Format.binary64 x.toModel.unpack
    y.toModel.unpack)).unpack.isFinite = true
  rw [hy]
  -- The quotient is infinite, unless the dividend is zero or no number itself.
  have hinfinite (s : Sign) : ¬(Float.Model.pack (.infinity s)).unpack.isFinite = true := by
    rw [unpack_pack_infinity]
    exact Bool.false_ne_true
  have hnone : ¬(Float.Model.pack .notANumber).unpack.isFinite = true := by
    rw [unpack_pack_notANumber]
    exact Bool.false_ne_true
  rcases x.toModel.unpack with s' | _ | s' | ⟨s', m, e, hm⟩
  · exact hinfinite (s' / s)
  · exact hnone
  · exact hnone
  · exact hinfinite (s' / s)

end Binary64

end EncryptedArithmetic

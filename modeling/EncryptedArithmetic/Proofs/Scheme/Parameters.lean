import EncryptedArithmetic.Proofs.Fault
import EncryptedArithmetic.Scheme.Parameters

/-!
# Accepted parameters

What the rules say about parameters that pass all of them.

## Main results

* `accepted_of_check`: the facts behind a successful check.
-/

namespace EncryptedArithmetic.Parameters

/-- The first prime is wider than the scale, the primes between it and the special one are as wide
as the scale, and the special prime is as wide as any other. -/
structure ChainShape (p : Parameters) (leading : UInt32) (middle : List UInt32)
    (special : UInt32) : Prop where
  widths_eq : p.widths = leading :: (middle ++ [special])
  scale_pos : p.scaleBits ≠ 0
  scale_lt : p.scaleBits < leading
  middle_eq : ∀ w ∈ middle, w = p.scaleBits
  leading_le : leading ≤ special

/-- What holds of parameters that are accepted. -/
structure Accepted (p : Parameters) : Prop where
  degree_eq : 1 <<< p.degree.log2 = p.degree
  le_degree : leastDegree ≤ p.degree
  degree_le : p.degree ≤ greatestDegree
  width_mem : ∀ w ∈ p.widths, leastWidth ≤ w ∧ w ≤ greatestWidth
  shape : ∃ leading middle special, p.ChainShape leading middle special
  modulusBits_le : p.modulusBits ≤ greatestModulusBits
  weight_pos : p.weight ≠ 0
  weight_le : p.weight ≤ p.degree
  errorStd_pos : (p.errorStd.isFinite && 0 < p.errorStd) = true

theorem le_max_words (a b : UInt32) : a ≤ max a b ∧ b ≤ max a b := by
  have hmax : max a b = if a ≤ b then b else a := rfl
  rw [hmax]
  split
  · rename_i h
    exact ⟨h, UInt32.le_refl b⟩
  · rename_i h
    exact ⟨UInt32.le_refl a, UInt32.le_of_lt (UInt32.not_le.1 h)⟩

theorem le_foldl_max {ws : List UInt32} {w acc : UInt32} (h : w ∈ ws ∨ w ≤ acc) :
    w ≤ ws.foldl max acc := by
  induction ws generalizing acc with
  | nil => exact h.resolve_left List.not_mem_nil
  | cons v ws ih =>
    refine ih ?_
    rcases h with hmem | hle
    · rcases List.mem_cons.1 hmem with rfl | hmem
      · exact .inr (le_max_words acc w).2
      · exact .inl hmem
    · exact .inr (UInt32.le_trans hle (le_max_words acc v).1)

/-- The chain rules, read off their check. -/
theorem chain_of_check {p : Parameters} (h : p.checkChain = .ok ()) :
    (∀ w ∈ p.widths, leastWidth ≤ w ∧ w ≤ greatestWidth) ∧
      (∃ leading middle special, p.ChainShape leading middle special) ∧
      p.modulusBits ≤ greatestModulusBits := by
  -- The rules are checked one after the other, so each check that is passed is one of the facts.
  rw [checkChain] at h
  rcases hwidths : p.widths with _ | ⟨leading, _ | ⟨second, rest⟩⟩
  · rw [hwidths] at h
    cases h
  · rw [hwidths] at h
    cases h
  simp only [hwidths] at h
  split at h
  · cases h
  rename_i hnone
  split at h
  · cases h
  rename_i hscale
  split at h
  · cases h
  rename_i hmiddle
  split at h
  · cases h
  rename_i hspecial
  split at h
  · cases h
  rename_i hbits
  rw [not_or] at hscale
  rw [List.find?_eq_none] at hnone hmiddle
  have hlast : second :: rest = (second :: rest).dropLast ++ [(second :: rest).getLastD 0] := by
    rw [List.getLastD_eq_getLast?, List.getLast?_eq_some_getLast (List.cons_ne_nil _ _),
      Option.getD_some, List.dropLast_append_getLast]
  have hshape : p.ChainShape leading (second :: rest).dropLast ((second :: rest).getLastD 0) := by
    refine ⟨by rw [hwidths, ← hlast], hscale.1, UInt32.not_le.1 hscale.2, ?_, ?_⟩
    · intro w hw
      simpa using hmiddle w hw
    · exact UInt32.le_trans (le_foldl_max (.inl List.mem_cons_self)) (UInt32.not_lt.1 hspecial)
  refine ⟨fun w hw => ?_, ⟨_, _, _, hshape⟩, Nat.le_of_not_lt hbits⟩
  simpa [not_or, UInt32.not_lt] using hnone w hw

/-- Parameters that pass the check are as the rules say. -/
theorem accepted_of_check {p : Parameters} (h : p.check = .ok ()) : p.Accepted := by
  simp only [check, bind_eq_ok_iff, mapError_eq_ok_iff] at h
  obtain ⟨⟨⟩, hdegree, ⟨⟩, hchain, ⟨⟩, -, hsampling⟩ := h
  -- The degree, the chain and the sampling are checked in turn.
  unfold checkDegree at hdegree
  split at hdegree
  swap
  · cases hdegree
  rename_i hrange
  unfold checkSampling at hsampling
  split at hsampling
  · cases hsampling
  rename_i hweight
  rw [not_or] at hweight
  split at hsampling
  swap
  · cases hsampling
  rename_i hstd
  obtain ⟨hwidth, hshape, hbits⟩ := chain_of_check hchain
  exact ⟨hrange.1, hrange.2.1, hrange.2.2, hwidth, hshape, hbits, hweight.1,
    Nat.le_of_not_lt hweight.2, hstd⟩

theorem le_foldl_add {ws : List UInt32} (h : ∀ w ∈ ws, leastWidth ≤ w) (total : Nat) :
    total + 20 * ws.length ≤ ws.foldl (fun total bits => total + bits.toNat) total := by
  induction ws generalizing total with
  | nil => exact Nat.le_refl total
  | cons w ws ih =>
    have hle : 20 ≤ w.toNat := UInt32.le_iff_toNat_le.1 (h w List.mem_cons_self)
    have hrest := ih (fun v hv => h v (List.mem_cons_of_mem w hv)) (total + w.toNat)
    rw [List.length_cons, List.foldl_cons]
    omega

/-- The width of the modulus bounds the number of primes. -/
theorem Accepted.length_widths_le {p : Parameters} (hp : p.Accepted) : p.widths.length ≤ 50 := by
  have hsum := le_foldl_add (fun w hw => (hp.width_mem w hw).1) 0
  have hle : p.modulusBits ≤ 1000 := hp.modulusBits_le
  rw [modulusBits] at hle
  omega

end EncryptedArithmetic.Parameters

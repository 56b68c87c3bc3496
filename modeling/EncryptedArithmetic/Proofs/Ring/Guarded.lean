import EncryptedArithmetic.Proofs.Ring.Automorphism

/-!
# Differences that stay words

Sums and differences of vectors, and with them the transform, end in a fault where an entry would
leave the range of a word. Negation and division by the last prime form single differences, in words
and without such a guard. Here each of them is written once more with the guard, and on reduced
residues the guard never matters.

## Main results

* `neg?_eq_ok`, `divideByLastGuarded?_eq`: the guarded operations are the operations themselves.
-/

namespace EncryptedArithmetic

namespace Modular

/-- The residue of a difference, where it is formed in words. -/
def sub? (a b m : UInt64) : Except Fault UInt64 :=
  if differenceFits a b m then .ok (sub a b m) else .error .overflow

theorem sub?_eq_ok {a b m : UInt64} (hb : b < m) : sub? a b m = .ok (sub a b m) :=
  if_pos (differenceFits_of_lt hb)

end Modular

namespace ResiduePoly

variable {a : ResiduePoly}

/-! ## Negation -/

/-- The negated polynomial, as long as every difference is a word. -/
def neg? (a : ResiduePoly) : Except Fault ResiduePoly :=
  return { a with
    channels := ← a.channels.mapM fun c => c.update? (·.mapM (Modular.sub? 0 · c.prime)) }

theorem neg?_eq_ok (ha : ∀ c ∈ a.channels, ∀ r ∈ c.residues, r < c.prime) :
    a.neg? = .ok a.neg := by
  have hchannel (c : Channel) (hc : c ∈ a.channels) :
      c.update? (·.mapM (Modular.sub? 0 · c.prime)) = .ok (c.map (Modular.neg · c.prime)) := by
    rw [Channel.update?, mapM_eq_ok_map fun r hr => Modular.sub?_eq_ok (ha c hc r hr)]
    rfl
  rw [neg?, mapM_eq_ok_map hchannel]
  rfl

/-! ## Division by the last prime -/

/-- `quotientResidue`, as long as both differences are words. -/
def quotientResidue? (q last inverse value r : UInt64) : Except Fault UInt64 := do
  let centered ← if last / 2 < r then Modular.sub? (r % q) (last % q) q else .ok (r % q)
  return Modular.mul (← Modular.sub? value centered q) inverse q

/-- The remainder that is taken off is reduced, whatever the residues are. -/
theorem quotientResidue?_eq_ok {q : UInt64} (hq : 0 < q) (last inverse value r : UInt64) :
    quotientResidue? q last inverse value r = .ok (quotientResidue q last inverse value r) := by
  have hmod (x : UInt64) : x % q < q := UInt64.mod_lt x hq
  rw [quotientResidue?, quotientResidue]
  split
  · have hcentered := Modular.sub_lt (hmod r) (hmod last)
    simp only [Modular.sub?_eq_ok (hmod last), Modular.sub?_eq_ok hcentered, ok_bind, pure_eq_ok]
  · simp only [Modular.sub?_eq_ok (hmod r), ok_bind, pure_eq_ok]

/-- The residues of the quotient over the prime `q`, as long as every difference is a word. -/
def quotientRow? (last : UInt64) (remainders : List UInt64) (q : UInt64) (xs : List UInt64) :
    Except Fault (List UInt64) := do
  let inverse ← Modular.inverse? (last % q) q
  (xs.zip remainders).mapM fun e => quotientResidue? q last inverse e.1 e.2

/-- The channel of the quotient over the prime of a channel, as long as every difference is a
word. -/
def quotientChannel? (last c : Channel) : Except Fault Channel :=
  c.update? (quotientRow? last.prime last.residues c.prime)

theorem quotientChannel?_eq (last c : Channel) :
    quotientChannel? last c = (do
      let inverse ← Modular.inverse? (last.prime % c.prime) c.prime
      let quotient := quotientResidue c.prime last.prime inverse
      return { c with residues := c.residues.zipWith quotient last.residues }) := by
  rw [quotientChannel?, Channel.update?, quotientRow?]
  rcases hinverse : Modular.inverse? (last.prime % c.prime) c.prime with e | inverse
  · rfl
  -- Where there is an inverse, the prime is not zero.
  have hpos : 0 < c.prime := by
    refine UInt64.pos_iff_ne_zero.2 fun hzero => ?_
    rw [hzero, Modular.inverse?, if_pos rfl] at hinverse
    cases hinverse
  rw [ok_bind, ok_bind,
    mapM_eq_ok_map fun e _ => quotientResidue?_eq_ok hpos last.prime inverse e.1 e.2,
    List.map_zip_eq_zipWith]
  rfl

/-- The quotient by the last prime, as long as every difference is a word. -/
def divideByLastGuarded? (a : ResiduePoly) : Except Fault ResiduePoly :=
  if a.channels.length < 2 then .error .nothingToDivideBy
  else do
    let work ← a.toCoefficient?
    match work.channels.getLast? with
    | none => .error .nothingToDivideBy
    | some last =>
      let channels ← work.channels.dropLast.mapM (quotientChannel? last)
      toForm? a.form { work with channels }

theorem divideByLastGuarded?_eq (a : ResiduePoly) : a.divideByLastGuarded? = a.divideByLast? := by
  rw [divideByLastGuarded?, divideByLast?]
  split
  · rfl
  · refine bind_congr fun work => ?_
    rcases work.channels.getLast? with _ | last
    · rfl
    · simp only [funext (quotientChannel?_eq last)]

end ResiduePoly

end EncryptedArithmetic

import EncryptedArithmetic.Proofs.Ring.Rows
import EncryptedArithmetic.Proofs.Ring.Schoolbook
import EncryptedArithmetic.Proofs.Ring.Vectors

/-!
# Operations on polynomials

An operation with all its arguments, among them polynomials over some of the tables of one degree.
Whatever it is, its result keeps one reduced residue for each entry in each channel, over tables of
the same degree, and no sum or difference of residues leaves the range of a word. It can as well be
performed on two vectors of rows and tables, which stay in step.

## Main definitions

* `Operation`: an operation with its arguments; `Operation.primes` are the primes that its result is
  to have.
* `Operation.run?`, `Operation.guarded?` and `Operation.onVectors?`: an operation on channels, with
  guards, and on rows and tables.
* `Kept`: what every operation preserves.

## Main results

* `Operation.yields`: one operation on polynomials that are kept.
* `Operation.guarded?_eq` and `Operation.onVectors?_map`: the three ways to perform it agree.
-/

namespace EncryptedArithmetic.ResiduePoly

open EncryptedArithmetic.Modular

/-- An operation with its arguments, on polynomials of whatever representation; uniform draws stand
apart. -/
inductive Operation (P : Type) where
  | ofSigned (coefficients : List ℤ) (moduli : List RootTable)
  | constant (value : ℤ) (moduli : List RootTable)
  | zero (moduli : List RootTable) (form : Form)
  | toTransformed (a : P)
  | toCoefficient (a : P)
  | neg (a : P)
  | scale (k : ℤ) (a : P)
  | keep (count : ℕ) (a : P)
  | divideByLast (a : P)
  | add (a b : P)
  | sub (a b : P)
  | mul (a b : P)
  | leading (count : ℕ) (a : P)
  | select (positions : List ℕ) (a : P)
  | automorphism (k : ℕ) (a : P)
  | copy (a : P)

namespace Operation

variable {P Q : Type}

/-- The tables among the arguments. -/
@[simp]
def moduli : Operation P → List RootTable
  | ofSigned _ moduli | constant _ moduli | zero moduli _ => moduli
  | _ => []

/-- The polynomials among the arguments. -/
@[simp]
def operands : Operation P → List P
  | ofSigned _ _ | constant _ _ | zero _ _ => []
  | toTransformed a | toCoefficient a | neg a | scale _ a | keep _ a | divideByLast a | leading _ a
  | select _ a | automorphism _ a | copy a => [a]
  | add a b | sub a b | mul a b => [a, b]

/-- The operation on other representations of its operands. -/
def map (f : P → Q) : Operation P → Operation Q
  | ofSigned coefficients moduli => ofSigned coefficients moduli
  | constant value moduli => constant value moduli
  | zero moduli form => zero moduli form
  | toTransformed a => toTransformed (f a)
  | toCoefficient a => toCoefficient (f a)
  | neg a => neg (f a)
  | scale k a => scale k (f a)
  | keep count a => keep count (f a)
  | divideByLast a => divideByLast (f a)
  | add a b => add (f a) (f b)
  | sub a b => sub (f a) (f b)
  | mul a b => mul (f a) (f b)
  | leading count a => leading count (f a)
  | select positions a => select positions (f a)
  | automorphism k a => automorphism k (f a)
  | copy a => copy (f a)

@[simp]
theorem moduli_map (f : P → Q) (op : Operation P) : (op.map f).moduli = op.moduli := by
  cases op <;> rfl

@[simp]
theorem operands_map (f : P → Q) (op : Operation P) :
    (op.map f).operands = op.operands.map f := by
  cases op <;> rfl

theorem map_map_eq_self {f : P → Q} {g : Q → P} {op : Operation P}
    (h : ∀ a ∈ op.operands, g (f a) = a) : (op.map f).map g = op := by
  cases op <;> simp_all [map]

/-- The primes that the result is to have, one for each channel. -/
def primes : Operation ResiduePoly → List UInt64
  | ofSigned _ moduli | constant _ moduli | zero moduli _ => moduli.map RootTable.prime
  | toTransformed a | toCoefficient a | neg a | scale _ a | automorphism _ a | copy a => a.primes
  | add a _ | sub a _ | mul a _ => a.primes
  | keep count a | leading count a => a.primes.take count
  | divideByLast a => a.primes.dropLast
  | select positions a => positions.map (a.primes.getD · 0)

/-- Performs an operation. No leading channels at all are a polynomial too, which only has no degree
to be asked for. -/
def run? : Operation ResiduePoly → Except Fault ResiduePoly
  | ofSigned coefficients moduli => ofSigned? coefficients moduli
  | constant value moduli => .ok (ResiduePoly.constant value moduli)
  | zero moduli form => .ok (ResiduePoly.zero moduli form)
  | toTransformed a => a.toTransformed?
  | toCoefficient a => a.toCoefficient?
  | neg a => .ok a.neg
  | scale k a => .ok (a.scale k)
  | keep count a => a.keep? count
  | divideByLast a => a.divideByLast?
  | add a b => a.add? b
  | sub a b => a.sub? b
  | mul a b => a.mul? b
  | leading count a => if count = 0 then .ok { a with channels := [] } else a.leading? count
  | select positions a => a.select? positions
  | automorphism k a => a.automorphism? k
  | copy a => .ok a

/-- Performs an operation with a fault wherever a sum or a difference of residues is no word. -/
def guarded? : Operation ResiduePoly → Except Fault ResiduePoly
  | neg a => a.neg?
  | divideByLast a => a.divideByLastGuarded?
  | automorphism k a => a.automorphismGuarded? wrappedPlace? k
  | op => op.run?

/-- Performs an operation on rows and tables, with the same faults. -/
def onVectors? : Operation Vectors → Except Fault Vectors
  | ofSigned coefficients moduli => Vectors.ofSigned? coefficients moduli
  | constant value moduli => .ok (Vectors.constant value moduli)
  | zero moduli form => .ok (Vectors.zero moduli form)
  | toTransformed v => v.toTransformed?
  | toCoefficient v => v.toCoefficient?
  | neg v => v.neg?
  | scale k v => v.scale? k
  | keep count v => v.keep? count
  | divideByLast v => v.divideByLast?
  | add v w => v.add? w
  | sub v w => v.sub? w
  | mul v w => v.mul? w
  | leading count v => v.leading? count
  | select positions v => v.select? positions
  | automorphism k v => v.automorphism? wrappedPlace? k
  | copy v => .ok v

/-- On the rows and tables of polynomials an operation computes those of its result: the two vectors
never get out of step. -/
theorem onVectors?_map {op : Operation ResiduePoly} {n : ℕ} (hn : ∀ t ∈ op.moduli, t.degree = n) :
    (op.map vectors).onVectors? = vectors <$> op.guarded? := by
  cases op with
  | ofSigned coefficients moduli => exact Vectors.ofSigned?_eq_vectors coefficients
  | constant value moduli => exact congrArg Except.ok (Vectors.constant_eq_vectors hn value)
  | zero moduli form => exact congrArg Except.ok (Vectors.zero_eq_vectors hn form)
  | toTransformed a => exact Vectors.toTransformed?_vectors a
  | toCoefficient a => exact Vectors.toCoefficient?_vectors a
  | neg a => exact Vectors.neg?_vectors a
  | scale k a => exact Vectors.scale?_vectors a k
  | keep count a => exact Vectors.keep?_vectors a count
  | divideByLast a => exact Vectors.divideByLast?_vectors a
  | add a b => exact Vectors.add?_vectors a b
  | sub a b => exact Vectors.sub?_vectors a b
  | mul a b => exact Vectors.mul?_vectors a b
  | leading count a => exact Vectors.leading?_vectors a count
  | select positions a => exact Vectors.select?_vectors a positions
  | automorphism k a => exact Vectors.automorphism?_vectors a wrappedPlace? k
  | copy a => rfl

end Operation

/-! ## What is preserved -/

/-- Every channel has one of the tables, and one reduced residue for each entry. -/
def Kept (tables : List RootTable) (a : ResiduePoly) : Prop :=
  ∀ c ∈ a.channels, c.table ∈ tables ∧ Reduced c.table.prime c.table.degree c.residues

variable {tables moduli : List RootTable} {primes : List UInt64} {form : Form} {n : ℕ}
  {a b : ResiduePoly} {x : Except Fault ResiduePoly} {e : Fault}

theorem Over.kept (ha : a.Over moduli form) (hsub : ∀ t ∈ moduli, t ∈ tables) : a.Kept tables := by
  intro c hc
  obtain ⟨i, t, ht, rfl⟩ := ha.exists_of_mem hc
  exact ⟨hsub t (List.mem_of_getElem? ht), ha.reduced ht⟩

theorem Kept.exists_over (ha : a.Kept tables) :
    ∃ moduli, (∀ t ∈ moduli, t ∈ tables) ∧ a.Over moduli a.form := by
  refine ⟨a.channels.map Channel.table, ?_, over_of_channels (List.length_map _).symm ?_⟩
  · intro t ht
    obtain ⟨c, hc, rfl⟩ := List.mem_map.1 ht
    exact (ha c hc).1
  · intro i t ht
    rw [List.getElem?_map, Option.map_eq_some_iff] at ht
    obtain ⟨c, hc, rfl⟩ := ht
    exact ⟨c.residues, hc, (ha c (List.mem_of_getElem? hc)).2⟩

/-- Some of the channels are kept as all of them are. -/
theorem Kept.of_subset {cs : List Channel} (ha : a.Kept tables) (hcs : ∀ c ∈ cs, c ∈ a.channels) :
    Kept tables { a with channels := cs } :=
  fun c hc => ha c (hcs c hc)

/-- A computation that stays in the range of words, and gives nothing but a polynomial that is kept
and has the given primes. -/
structure Yields (tables : List RootTable) (primes : List UInt64)
    (x : Except Fault ResiduePoly) : Prop where
  ne_overflow : x ≠ .error .overflow
  of_ok : ∀ a, x = .ok a → a.Kept tables ∧ a.primes = primes

namespace Yields

theorem ok (ha : a.Kept tables) (hprimes : a.primes = primes) : Yields tables primes (.ok a) where
  ne_overflow := nofun
  of_ok := by
    rintro b hb
    obtain rfl := Except.ok.inj hb
    exact ⟨ha, hprimes⟩

theorem error (he : e ≠ .overflow) : Yields tables primes (.error e) where
  ne_overflow h := he (Except.error.inj h)
  of_ok := nofun

theorem of_over (hx : x = .ok b) (hb : b.Over moduli form) (hsub : ∀ t ∈ moduli, t ∈ tables) :
    Yields tables (moduli.map RootTable.prime) x :=
  hx ▸ ok (hb.kept hsub) hb.primes_eq

end Yields

/-- Sound tables of one degree that are told apart by their primes. -/
structure Tables (tables : List RootTable) (n : ℕ) : Prop where
  sound : ∀ t ∈ tables, t.Sound
  degree_eq : ∀ t ∈ tables, t.degree = n
  eq_of_prime_eq : ∀ t ∈ tables, ∀ u ∈ tables, t.prime = u.prime → t = u

/-- Tables that are built for primes below `2 ^ 63`: the prime and the degree determine a table. -/
theorem tables_of_forall_build (h : ∀ t ∈ tables, ∃ p : UInt64,
    p.toNat.Prime ∧ p.toNat < 2 ^ 63 ∧ RootTable.build p n = .ok t) : Tables tables n where
  sound := (RootTable.sound_of_forall_build h).1
  degree_eq := (RootTable.sound_of_forall_build h).2
  eq_of_prime_eq := by
    intro t ht u hu heq
    obtain ⟨p, -, -, hp⟩ := h t ht
    obtain ⟨q, -, -, hq⟩ := h u hu
    obtain rfl : p = q := by
      rw [← (RootTable.prime_of_build hp).1, ← (RootTable.prime_of_build hq).1, heq]
    exact Except.ok.inj (hp.symm.trans hq)

/-! ## One operation -/

/-! ### Channels -/

theorem yields_take (count : ℕ) (ha : a.Kept tables) :
    Yields tables (a.primes.take count) (.ok { a with channels := a.channels.take count }) :=
  .ok (ha.of_subset fun _ hc => List.mem_of_mem_take hc) List.map_take

theorem yields_keep? (count : ℕ) (ha : a.Kept tables) :
    Yields tables (a.primes.take count) (a.keep? count) := by
  rw [keep?]
  split
  · exact yields_take count ha
  · exact .error (by simp)

theorem yields_leading? (count : ℕ) (ha : a.Kept tables) :
    Yields tables (a.primes.take count)
      (if count = 0 then .ok { a with channels := [] } else a.leading? count) := by
  split
  · rename_i hzero
    exact hzero ▸ yields_take 0 ha
  rw [leading?]
  split
  · exact yields_take count ha
  · exact .error (by simp)

/-- Channels that are looked up are among those that there are, with the primes that stand at their
positions. -/
theorem of_mapM_getElem? {positions : List ℕ} {cs : List Channel}
    (h : positions.mapM (a.channels[·]?) = some cs) :
    (∀ c ∈ cs, c ∈ a.channels) ∧ cs.map Channel.prime = positions.map (a.primes.getD · 0) := by
  -- A position may come twice, so this is about the channels that are listed, one by one.
  induction positions generalizing cs with
  | nil =>
    obtain rfl := Option.some.inj h
    exact ⟨fun c hc => absurd hc List.not_mem_nil, rfl⟩
  | cons i positions ih =>
    simp only [List.mapM_cons, Option.bind_eq_bind, Option.bind_eq_some_iff, Option.pure_def,
      Option.some.injEq] at h
    obtain ⟨c, hc, cs, hcs, rfl⟩ := h
    obtain ⟨hmem, hprimes⟩ := ih hcs
    have hprime : a.primes.getD i 0 = c.prime := by
      rw [primes, List.getD_eq_getElem?_getD, List.getElem?_map, hc]
      rfl
    refine ⟨List.forall_mem_cons.2 ⟨List.mem_of_getElem? hc, hmem⟩, ?_⟩
    rw [List.map_cons, List.map_cons, hprimes, hprime]

theorem yields_select? (positions : List ℕ) (ha : a.Kept tables) :
    Yields tables (positions.map (a.primes.getD · 0)) (a.select? positions) := by
  rw [select?]
  rcases hcs : positions.mapM (a.channels[·]?) with _ | _ | ⟨c, cs⟩
  · exact .error (by simp)
  · exact .error (by simp)
  · obtain ⟨hmem, hprimes⟩ := of_mapM_getElem? hcs
    exact .ok (ha.of_subset hmem) hprimes

/-! ### Refusals -/

/-- Operands that cannot be combined are refused, and others agree in their form and primes. -/
theorem compatible?_cases (a b : ResiduePoly) :
    a.form = b.form ∧ a.primes = b.primes ∨
      ∃ e, a.compatible? b = .error e ∧ e ≠ .overflow := by
  rw [compatible?]
  split
  · exact .inr ⟨_, rfl, by simp⟩
  split
  · exact .inr ⟨_, rfl, by simp⟩
  split
  · exact .inr ⟨_, rfl, by simp⟩
  · rename_i hform hprimes
    exact .inl ⟨not_not.1 hform, not_not.1 hprimes⟩

theorem ne_overflow_of_inverse? {p q : UInt64} (h : Modular.inverse? p q = .error e) :
    e ≠ .overflow := by
  rw [Modular.inverse?] at h
  split at h
  · obtain rfl := Except.error.inj h
    simp
  split at h
  · obtain rfl := Except.error.inj h
    simp
  · cases h

theorem ne_overflow_of_quotientChannel? {last c : Channel}
    (h : quotientChannel? last c = .error e) : e ≠ .overflow := by
  rw [quotientChannel?_eq] at h
  rcases hinverse : Modular.inverse? (last.prime % c.prime) c.prime with e' | inverse
  · rw [hinverse, error_bind] at h
    obtain rfl := Except.error.inj h
    exact ne_overflow_of_inverse? hinverse
  · rw [hinverse] at h
    cases h

theorem quotientChannel?_of_prime_eq {last c : Channel} (hpos : 0 < c.prime)
    (h : c.prime = last.prime) : quotientChannel? last c = .error (.noInverse 0 c.prime) := by
  have hzero : Modular.inverse? (last.prime % c.prime) c.prime = .error (.noInverse 0 c.prime) := by
    rw [← h, UInt64.mod_self, Modular.inverse?, if_neg (UInt64.pos_iff_ne_zero.1 hpos),
      if_pos UInt64.zero_mod]
  rw [quotientChannel?_eq, hzero, error_bind]

/-- The last prime has no inverse in a channel of the same prime, and the division ends there. -/
theorem divideByLast?_of_prime_eq {front : List RootTable} {last t : RootTable}
    (hm : ∀ u ∈ front ++ [last], u.Sound) (ha : a.Over (front ++ [last]) form) (ht : t ∈ front)
    (hprime : t.prime = last.prime) : ∃ e, a.divideByLast? = .error e ∧ e ≠ .overflow := by
  obtain ⟨work, hwork, how, -⟩ := exists_toCoefficient? hm ha
  have hlen : work.channels.length = front.length + 1 := by simp [how.length_eq]
  have hlast : work.channels.getLast? = some ⟨last, work.row front.length⟩ := by
    rw [List.getLast?_eq_getElem?, hlen, Nat.add_sub_cancel]
    exact how.getElem?_eq (by simp)
  have htwo : ¬a.channels.length < 2 := by
    have := List.length_pos_of_mem ht
    rw [ha.length_eq, List.length_append, List.length_singleton]
    omega
  rw [← divideByLastGuarded?_eq, divideByLastGuarded?, if_neg htwo, hwork, ok_bind, hlast]
  rcases hcs : work.channels.dropLast.mapM (quotientChannel? ⟨last, work.row front.length⟩) with
    e | cs
  · refine ⟨e, by simp only [hcs, error_bind], ?_⟩
    obtain ⟨c, -, hc⟩ := exists_of_mapM_eq_error hcs
    exact ne_overflow_of_quotientChannel? hc
  · -- All channels in front cannot have been divided: one of them has the same prime.
    exfalso
    obtain ⟨i, hi⟩ := List.getElem?_of_mem ht
    obtain ⟨hlt, -⟩ := List.getElem?_eq_some_iff.1 hi
    have hchannel : work.channels.dropLast[i]? = some ⟨t, work.row i⟩ := by
      rw [List.getElem?_dropLast, if_pos (by omega)]
      exact how.getElem?_eq (by rwa [List.getElem?_append_left hlt])
    have hcount : cs.length = front.length := by
      rw [length_of_mapM_eq_ok hcs, List.length_dropLast, hlen, Nat.add_sub_cancel]
    have hquotient := getElem?_of_mapM_eq_ok hcs hchannel (List.getElem?_eq_getElem (hcount ▸ hlt))
    have hpos := (hm t (List.mem_append_left _ ht)).prime_pos
    have hrefused : quotientChannel? ⟨last, work.row front.length⟩ ⟨t, work.row i⟩ =
        .error (.noInverse 0 t.prime) := quotientChannel?_of_prime_eq hpos hprime
    cases hrefused.symm.trans hquotient

section Tables

variable (hT : Tables tables n)
include hT

theorem yields_ofSigned? (coefficients : List ℤ) (hmoduli : ∀ t ∈ moduli, t ∈ tables) :
    Yields tables (moduli.map RootTable.prime) (ofSigned? coefficients moduli) := by
  rcases moduli with _ | ⟨table, rest⟩
  · exact .error (by simp)
  by_cases hlen : coefficients.length = n
  · obtain ⟨a, ha, hoa, -⟩ := exists_ofSigned? (fun t ht => hT.sound t (hmoduli t ht))
      (fun t ht => hT.degree_eq t (hmoduli t ht)) (List.cons_ne_nil _ _) hlen
    exact .of_over ha hoa hmoduli
  · rw [← hT.degree_eq table (hmoduli table List.mem_cons_self)] at hlen
    rw [ofSigned?, if_neg hlen]
    exact .error (by simp)

theorem yields_toForm? (target : Form) (ha : a.Kept tables) :
    Yields tables a.primes (a.toForm? target) := by
  obtain ⟨moduli, hsub, hoa⟩ := ha.exists_over
  obtain ⟨b, hb, hob, -⟩ := exists_toForm? (fun t ht => hT.sound t (hsub t ht)) hoa target
  exact hoa.primes_eq ▸ .of_over hb hob hsub

theorem yields_neg (ha : a.Kept tables) : Yields tables a.primes (.ok a.neg) := by
  obtain ⟨moduli, hsub, hoa⟩ := ha.exists_over
  exact hoa.primes_eq ▸
    .of_over rfl (over_neg (fun t ht => hT.sound t (hsub t ht)) hoa).1 hsub

theorem yields_scale (k : ℤ) (ha : a.Kept tables) : Yields tables a.primes (.ok (a.scale k)) := by
  obtain ⟨moduli, hsub, hoa⟩ := ha.exists_over
  exact hoa.primes_eq ▸
    .of_over rfl (over_scale (fun t ht => hT.sound t (hsub t ht)) k hoa).1 hsub

/-! ### Two operands -/

/-- Tables are told apart by their primes, and so are lists of tables. -/
theorem eq_of_map_prime_eq {ts us : List RootTable} (hts : ∀ t ∈ ts, t ∈ tables)
    (hus : ∀ u ∈ us, u ∈ tables) (h : ts.map RootTable.prime = us.map RootTable.prime) :
    ts = us := by
  induction ts generalizing us with
  | nil => exact (List.map_eq_nil_iff.1 h.symm).symm
  | cons t ts ih =>
    obtain ⟨u, us', rfl, hprime, hprimes⟩ := List.map_eq_cons_iff.1 h.symm
    rw [List.forall_mem_cons] at hts hus
    rw [hT.eq_of_prime_eq t hts.1 u hus.1 hprime.symm, ih hts.2 hus.2 hprimes.symm]

/-- Operands of equal form and primes are kept over the same tables. -/
theorem Kept.exists_common (ha : a.Kept tables) (hb : b.Kept tables) (hform : a.form = b.form)
    (hprimes : a.primes = b.primes) :
    ∃ moduli, (∀ t ∈ moduli, t ∈ tables) ∧ a.Over moduli a.form ∧ b.Over moduli a.form := by
  obtain ⟨moduli, hsub, hoa⟩ := ha.exists_over
  obtain ⟨moduli', hsub', hob⟩ := hb.exists_over
  obtain rfl : moduli' = moduli :=
    eq_of_map_prime_eq hT hsub' hsub (by rw [← hoa.primes_eq, ← hob.primes_eq, hprimes])
  exact ⟨moduli', hsub, hoa, hform ▸ hob⟩

/-- What combines two operands has to be looked at only where they are kept over the same tables. -/
theorem yields_of_compatible {rest : Except Fault ResiduePoly} (ha : a.Kept tables)
    (hb : b.Kept tables)
    (h : ∀ moduli, (∀ t ∈ moduli, t ∈ tables) → a.Over moduli a.form → b.Over moduli a.form →
      Yields tables (moduli.map RootTable.prime) (do a.compatible? b; rest)) :
    Yields tables a.primes (do a.compatible? b; rest) := by
  rcases compatible?_cases a b with ⟨hform, hprimes⟩ | ⟨e, he, hne⟩
  · obtain ⟨moduli, hsub, hoa, hob⟩ := ha.exists_common hT hb hform hprimes
    exact hoa.primes_eq ▸ h moduli hsub hoa hob
  · rw [he]
    exact .error hne

theorem yields_add? (ha : a.Kept tables) (hb : b.Kept tables) :
    Yields tables a.primes (a.add? b) := by
  refine yields_of_compatible hT ha hb fun moduli hsub hoa hob => ?_
  obtain ⟨c, hc, hoc, -⟩ := exists_add? (fun t ht => hT.sound t (hsub t ht)) hoa hob
  exact .of_over hc hoc hsub

theorem yields_sub? (ha : a.Kept tables) (hb : b.Kept tables) :
    Yields tables a.primes (a.sub? b) := by
  refine yields_of_compatible hT ha hb fun moduli hsub hoa hob => ?_
  obtain ⟨c, hc, hoc, -⟩ := exists_sub? (fun t ht => hT.sound t (hsub t ht)) hoa hob
  exact .of_over hc hoc hsub

theorem yields_mul? (ha : a.Kept tables) (hb : b.Kept tables) :
    Yields tables a.primes (a.mul? b) := by
  refine yields_of_compatible hT ha hb fun moduli hsub hoa hob => ?_
  by_cases hform : a.form = .transformed
  · rw [hform] at hoa hob
    obtain ⟨c, hc, hoc, -⟩ := exists_mul? (fun t ht => hT.sound t (hsub t ht)) hoa hob
    exact .of_over hc hoc hsub
  · rw [hoa.compatible? hob, ok_bind, if_neg hform]
    exact .error (by simp)

/-! ### Division and automorphisms -/

/-- A prime that comes up once more has no inverse, and then the division ends. -/
theorem yields_divideByLast? (ha : a.Kept tables) :
    Yields tables a.primes.dropLast a.divideByLast? := by
  by_cases hlen : a.channels.length < 2
  · rw [divideByLast?, if_pos hlen]
    exact .error (by simp)
  obtain ⟨moduli, hsub, hoa⟩ := ha.exists_over
  obtain ⟨front, last, rfl⟩ : ∃ front last, moduli = front ++ [last] := by
    rcases List.eq_nil_or_concat' moduli with rfl | h
    · have := hoa.length_eq
      rw [List.length_nil] at this
      omega
    · exact h
  have hm (t : RootTable) (ht : t ∈ front ++ [last]) : t.Sound := hT.sound t (hsub t ht)
  have hfront (t : RootTable) (ht : t ∈ front) : t ∈ front ++ [last] := List.mem_append_left _ ht
  have hprimes : a.primes.dropLast = front.map RootTable.prime := by
    rw [hoa.primes_eq, List.map_append, List.map_singleton, List.dropLast_concat]
  rw [hprimes]
  by_cases hdistinct : ∀ t ∈ front, t.prime ≠ last.prime
  · have hne : front ≠ [] := by
      rintro rfl
      exact hlen (by rw [hoa.length_eq]; exact Nat.one_lt_two)
    have hn (t : RootTable) (ht : t ∈ front) : t.degree = last.degree :=
      (hT.degree_eq t (hsub t (hfront t ht))).trans (hT.degree_eq last (hsub last (by simp))).symm
    obtain ⟨b, hb, hob, -⟩ := exists_divideByLast? hne (fun t ht => hm t (hfront t ht))
      (hm last (by simp)) hn hdistinct hoa
    exact .of_over hb hob fun t ht => hsub t (hfront t ht)
  · -- A channel of the same prime has no inverse of it, which is an error but no overflow.
    obtain ⟨t, ht, hprime⟩ : ∃ t ∈ front, t.prime = last.prime := by
      simpa using hdistinct
    obtain ⟨e, he, hne⟩ := divideByLast?_of_prime_eq hm hoa ht hprime
    exact he ▸ .error hne

theorem yields_automorphism? (k : ℕ) (ha : a.Kept tables) :
    Yields tables a.primes (a.automorphism? k) := by
  by_cases hk : k % 2 = 1 ∧ k < 2 * a.degree
  · obtain ⟨moduli, hsub, hoa⟩ := ha.exists_over
    have hn (t : RootTable) (ht : t ∈ moduli) : t.degree = n := hT.degree_eq t (hsub t ht)
    have hne := hoa.ne_nil_of_lt_degree hk.2
    obtain ⟨b, hb, hob, -⟩ := exists_automorphism? (fun t ht => hT.sound t (hsub t ht)) hn hne hoa
      hk.1 (hoa.degree_eq hn hne ▸ hk.2)
    exact hoa.primes_eq ▸ .of_over hb hob hsub
  · rw [automorphism?, if_neg hk]
    exact .error (by simp)

/-- An operation on polynomials that are kept gives one that is kept, with the primes that it is to
have, and no sum or difference on the way leaves the range of a word. -/
theorem Operation.yields {op : Operation ResiduePoly} (hoperands : ∀ a ∈ op.operands, a.Kept tables)
    (hmoduli : ∀ t ∈ op.moduli, t ∈ tables) : Yields tables op.primes op.run? := by
  have hm : ∀ t ∈ op.moduli, t.Sound := fun t ht => hT.sound t (hmoduli t ht)
  cases op with
  | ofSigned coefficients moduli => exact yields_ofSigned? hT coefficients hmoduli
  | constant value moduli => exact .of_over rfl (over_constant hm value) hmoduli
  | zero moduli form => exact .of_over rfl (over_zero hm form).1 hmoduli
  | toTransformed a => exact yields_toForm? hT .transformed (hoperands a (by simp))
  | toCoefficient a => exact yields_toForm? hT .coefficient (hoperands a (by simp))
  | neg a => exact yields_neg hT (hoperands a (by simp))
  | scale k a => exact yields_scale hT k (hoperands a (by simp))
  | keep count a => exact yields_keep? count (hoperands a (by simp))
  | divideByLast a => exact yields_divideByLast? hT (hoperands a (by simp))
  | add a b =>
    exact yields_add? hT (hoperands a (by simp)) (hoperands b (by simp))
  | sub a b =>
    exact yields_sub? hT (hoperands a (by simp)) (hoperands b (by simp))
  | mul a b =>
    exact yields_mul? hT (hoperands a (by simp)) (hoperands b (by simp))
  | leading count a => exact yields_leading? count (hoperands a (by simp))
  | select positions a => exact yields_select? positions (hoperands a (by simp))
  | automorphism k a => exact yields_automorphism? hT k (hoperands a (by simp))
  | copy a => exact .ok (hoperands a (by simp)) rfl

/-- The guards of an operation never matter on polynomials that are kept. -/
theorem Operation.guarded?_eq {op : Operation ResiduePoly}
    (hoperands : ∀ a ∈ op.operands, a.Kept tables) : op.guarded? = op.run? := by
  cases op with
  | neg a =>
    exact neg?_eq_ok fun c hc => (hoperands a (by simp) c hc).2.lt
  | divideByLast a => exact divideByLastGuarded?_eq a
  | automorphism k a =>
    obtain ⟨moduli, hsub, hoa⟩ := (hoperands a (by simp)).exists_over
    exact automorphismGuarded?_wrappedPlace? (fun t ht => hT.sound t (hsub t ht))
      (fun t ht => hT.degree_eq t (hsub t ht)) hoa
  | _ => rfl

end Tables

end EncryptedArithmetic.ResiduePoly

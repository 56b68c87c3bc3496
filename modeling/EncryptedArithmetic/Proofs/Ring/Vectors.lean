import EncryptedArithmetic.Proofs.Ring.Scatter

/-!
# Rows and tables in step

A polynomial can be kept as two vectors, one of rows of residues and one of tables, with nothing
that ties the one to the other. A loop then goes over both side by side and ends with the shorter
one, without a word about rows that are left over. Here the operations are written once more on two
such vectors, each with the same loops and the same guards. On the rows and the tables of a
polynomial they compute the rows and the tables of the result, or end in the same fault. So a row is
never left over, and the two vectors stay in step.

## Main definitions

* `Vectors`: rows and tables; `ResiduePoly.vectors` are those of the channels.
* `beside?`: a loop over two vectors side by side.

## Main results

* `beside?_map`, `vectors_mapM`: a loop over channels is one over their rows and tables.
* `toTransformed?_vectors` to `automorphism?_vectors`: the operations, one by one.
-/

namespace EncryptedArithmetic

/-- Rows of residues, and tables for them. -/
structure Vectors where
  /-- One row for each table, as long as the two are in step. -/
  rows : List (List UInt64)
  /-- The table of each row. -/
  tables : List RootTable
  /-- How all rows are to be read. -/
  form : Form

/-- The rows and the tables of the channels. -/
def ResiduePoly.vectors (a : ResiduePoly) : Vectors :=
  ⟨a.residues, a.channels.map Channel.table, a.form⟩

namespace Vectors

/-! ## Operations -/

/-- Replaces each row by means of the entry beside it. Rows past the last entry stay as they are. -/
def beside? {α : Type} (f : α → List UInt64 → Except Fault (List UInt64)) :
    List (List UInt64) → List α → Except Fault (List (List UInt64))
  | row :: rows, a :: as => do
    let row ← f a row
    let rows ← beside? f rows as
    return row :: rows
  | rows, _ => .ok rows

/-- The degree of the first table. -/
def tableDegree (moduli : List RootTable) : ℕ :=
  (moduli.head?.map RootTable.degree).getD 0

/-- The number of entries of the first row. -/
def degree (v : Vectors) : ℕ :=
  (v.rows.head?.map List.length).getD 0

/-- As many zeros for each table as the first one has entries. -/
def zero (moduli : List RootTable) (form : Form) : Vectors :=
  ⟨List.replicate moduli.length (List.replicate (tableDegree moduli) 0), moduli, form⟩

def constant (value : ℤ) (moduli : List RootTable) : Vectors :=
  ⟨moduli.map fun t => List.replicate (tableDegree moduli) (Modular.ofInt value t.prime), moduli,
    .transformed⟩

def ofSigned? (coefficients : List ℤ) (moduli : List RootTable) : Except Fault Vectors :=
  match moduli with
  | [] => .error .outOfRange
  | table :: _ =>
    if coefficients.length = table.degree then
      .ok ⟨moduli.map fun t => coefficients.map (ResiduePoly.signedResidue t.prime), moduli,
        .coefficient⟩
    else .error .coefficientCount

/-- Replaces each row by means of its table. -/
def update? (f : RootTable → List UInt64 → Except Fault (List UInt64)) (v : Vectors) :
    Except Fault Vectors :=
  return { v with rows := ← beside? f v.rows v.tables }

def toTransformed? (v : Vectors) : Except Fault Vectors :=
  match v.form with
  | .transformed => .ok v
  | .coefficient => return { ← v.update? RootTable.forward? with form := .transformed }

def toCoefficient? (v : Vectors) : Except Fault Vectors :=
  match v.form with
  | .coefficient => .ok v
  | .transformed => return { ← v.update? RootTable.inverse? with form := .coefficient }

def toForm? (form : Form) (v : Vectors) : Except Fault Vectors :=
  match form with
  | .coefficient => v.toCoefficient?
  | .transformed => v.toTransformed?

def neg? (v : Vectors) : Except Fault Vectors :=
  v.update? fun t xs => xs.mapM (Modular.sub? 0 · t.prime)

def scale? (k : ℤ) (v : Vectors) : Except Fault Vectors :=
  v.update? fun t xs => .ok (Modular.scaleEach t.prime (Modular.ofInt k t.prime) xs)

/-- Cuts off both vectors behind as many entries as there are to be rows. -/
def keep? (count : ℕ) (v : Vectors) : Except Fault Vectors :=
  if 1 ≤ count ∧ count ≤ v.rows.length then
    .ok { v with rows := v.rows.take count, tables := v.tables.take count }
  else .error (.cannotKeep count v.rows.length)

def leading? (count : ℕ) (v : Vectors) : Except Fault Vectors :=
  if count ≤ v.rows.length ∧ count ≤ v.tables.length then
    .ok { v with rows := v.rows.take count, tables := v.tables.take count }
  else .error .outOfRange

/-- Looks up the rows, and then the tables. -/
def select? (positions : List ℕ) (v : Vectors) : Except Fault Vectors :=
  match positions.mapM (v.rows[·]?), positions.mapM (v.tables[·]?) with
  | some (row :: rows), some tables => .ok { v with rows := row :: rows, tables }
  | _, _ => .error .outOfRange

/-- The rows are counted and the tables are compared, as far as there are two of them. -/
def compatible? (v w : Vectors) : Except Fault Unit :=
  if v.rows.length ≠ w.rows.length then .error .channelCountMismatch
  else if v.form ≠ w.form then .error .formMismatch
  else if (v.tables.zip w.tables).all fun (t, u) => t.prime = u.prime then .ok ()
  else .error .primesMismatch

/-- Combines the rows, where there is one of each operand and a table. -/
def combine? (f : UInt64 → List UInt64 → List UInt64 → Except Fault (List UInt64))
    (v w : Vectors) : Except Fault Vectors :=
  return { v with
    rows := ← beside? (fun (ys, t) xs => f t.prime xs ys) v.rows (w.rows.zip v.tables) }

def add? (v w : Vectors) : Except Fault Vectors := do
  v.compatible? w
  v.combine? Modular.addEach? w

def sub? (v w : Vectors) : Except Fault Vectors := do
  v.compatible? w
  v.combine? Modular.subEach? w

def mul? (v w : Vectors) : Except Fault Vectors := do
  v.compatible? w
  if v.form = .transformed then v.combine? (fun p xs ys => .ok (Modular.mulEach p xs ys)) w
  else .error .needsTransformedForm

/-- The last row and the last table are taken off first. -/
def divideByLast? (v : Vectors) : Except Fault Vectors :=
  if v.rows.length < 2 then .error .nothingToDivideBy
  else do
    let work ← v.toCoefficient?
    match work.rows.getLast?, work.tables.getLast? with
    | some remainders, some last =>
      let quotient (t : RootTable) := ResiduePoly.quotientRow? last.prime remainders t.prime
      let rows ← beside? quotient work.rows.dropLast work.tables.dropLast
      toForm? v.form { work with rows, tables := work.tables.dropLast }
    | _, _ => .error .nothingToDivideBy

/-- Scatters into rows of zeros, which stay zeros where there is no row or no table beside them. -/
def automorphism? (place? : ℕ → ℕ → ℕ → Except Fault ℕ) (k : ℕ) (v : Vectors) :
    Except Fault Vectors :=
  if k % 2 = 1 ∧ k < 2 * v.degree then do
    let work ← v.toCoefficient?
    let zeros := List.replicate v.rows.length (List.replicate v.degree 0)
    let scattered := fun (xs, t) out =>
      ResiduePoly.scatter? (place? v.degree k) v.degree (RootTable.prime t) xs out
    let rows ← beside? scattered zeros (work.rows.zip work.tables)
    toForm? v.form { work with rows }
  else .error .badGaloisElement

/-! ## Loops -/

section Loops

variable {α β : Type}

/-- A loop over rows and what stands beside them is one over what both are made of. -/
theorem beside?_map (f : α → List UInt64 → Except Fault (List UInt64)) (row : β → List UInt64)
    (g : β → α) (bs : List β) :
    beside? f (bs.map row) (bs.map g) = bs.mapM fun b => f (g b) (row b) := by
  induction bs with
  | nil => rfl
  | cons b bs ih => simp only [List.map_cons, beside?, ih, List.mapM_cons]

/-- Channels that are computed one by one have the rows that are computed, and their tables. -/
theorem vectors_mapM (table : β → RootTable) (f : β → Except Fault (List UInt64)) (bs : List β)
    (form : Form) :
    (do return ⟨← bs.mapM f, bs.map table, form⟩ : Except Fault Vectors) =
      ResiduePoly.vectors <$>
        (do return ⟨← bs.mapM fun b => return ⟨table b, ← f b⟩, form⟩) := by
  rw [bind_pure_comp, bind_pure_comp, Functor.map_map]
  induction bs with
  | nil => rfl
  | cons b bs ih =>
    rw [List.mapM_cons, List.mapM_cons]
    rcases f b with e | xs
    · rfl
    -- Behind the first row both loops end alike, and with the same tables.
    rcases hrows : bs.mapM f with e | rows <;>
    rcases hchannels : bs.mapM fun b => (do return ⟨table b, ← f b⟩ : Except Fault Channel) with
      e' | channels <;>
    simp_all [ResiduePoly.vectors, ResiduePoly.residues]

end Loops

/-! ## The vectors of a polynomial -/

section Polynomial

variable (a b : ResiduePoly) {moduli : List RootTable} {n : ℕ}

@[simp]
theorem rows_vectors : a.vectors.rows = a.channels.map Channel.residues := rfl

@[simp]
theorem tables_vectors : a.vectors.tables = a.channels.map Channel.table := rfl

@[simp]
theorem form_vectors : a.vectors.form = a.form := rfl

/-- Rows and tables, paired up as channels. -/
def poly (v : Vectors) : ResiduePoly :=
  ⟨v.tables.zipWith Channel.mk v.rows, v.form⟩

@[simp]
theorem poly_vectors : a.vectors.poly = a := by
  rw [poly, rows_vectors, tables_vectors, List.zipWith_map, List.zipWith_self]
  exact congrArg (ResiduePoly.mk · a.form) (List.map_id a.channels)

theorem degree_vectors : a.vectors.degree = a.degree := by
  rw [degree, rows_vectors, List.head?_map, Option.map_map]
  rfl

/-! ### Construction -/

theorem tableDegree_eq (hn : ∀ t ∈ moduli, t.degree = n) (hne : moduli ≠ []) :
    tableDegree moduli = n := by
  obtain ⟨table, rest, rfl⟩ := List.exists_cons_of_ne_nil hne
  exact hn table List.mem_cons_self

theorem vectors_ofTables (form : Form) (f : RootTable → List UInt64) :
    (ResiduePoly.ofTables form moduli f).vectors = ⟨moduli.map f, moduli, form⟩ := by
  simp only [ResiduePoly.ofTables, ResiduePoly.vectors, ResiduePoly.residues, List.map_map]
  congr 1
  exact List.map_id moduli

/-- The first table has the degree of each of them. -/
theorem map_tableDegree (hn : ∀ t ∈ moduli, t.degree = n) (f : ℕ → RootTable → List UInt64) :
    moduli.map (f (tableDegree moduli)) = moduli.map fun t => f t.degree t := by
  refine List.map_congr_left fun t ht => ?_
  rw [hn t ht, tableDegree_eq hn (List.ne_nil_of_mem ht)]

theorem zero_eq_vectors (hn : ∀ t ∈ moduli, t.degree = n) (form : Form) :
    zero moduli form = (ResiduePoly.zero moduli form).vectors := by
  rw [zero, ResiduePoly.zero, vectors_ofTables,
    ← map_tableDegree hn fun degree _ => List.replicate degree 0, List.map_const']

theorem constant_eq_vectors (hn : ∀ t ∈ moduli, t.degree = n) (value : ℤ) :
    constant value moduli = (ResiduePoly.constant value moduli).vectors := by
  rw [constant, ResiduePoly.constant, vectors_ofTables, ← map_tableDegree hn fun degree t =>
    List.replicate degree (Modular.ofInt value t.prime)]

theorem ofSigned?_eq_vectors (coefficients : List ℤ) :
    ofSigned? coefficients moduli =
      ResiduePoly.vectors <$> ResiduePoly.ofSigned? coefficients moduli := by
  rcases moduli with _ | ⟨table, rest⟩
  · rfl
  rw [ofSigned?, ResiduePoly.ofSigned?]
  split
  · exact congrArg Except.ok (vectors_ofTables _ _).symm
  · rfl

/-! ### Change of form and single operands -/

/-- A loop over the rows with their tables is one over the channels. -/
theorem beside?_vectors (f : RootTable → List UInt64 → Except Fault (List UInt64)) (form : Form) :
    (do return ⟨← beside? f a.vectors.rows a.vectors.tables, a.vectors.tables, form⟩) =
      ResiduePoly.vectors <$>
        (do return ⟨← a.channels.mapM fun c => c.update? (f c.table), form⟩) := by
  rw [rows_vectors, tables_vectors, beside?_map, vectors_mapM]
  rfl

theorem toTransformed?_vectors :
    a.vectors.toTransformed? = ResiduePoly.vectors <$> a.toTransformed? := by
  have hloop := beside?_vectors a RootTable.forward? .transformed
  rw [toTransformed?, ResiduePoly.toTransformed?, form_vectors]
  cases a.form with
  | transformed => rfl
  | coefficient => simpa [update?] using hloop

theorem toCoefficient?_vectors :
    a.vectors.toCoefficient? = ResiduePoly.vectors <$> a.toCoefficient? := by
  have hloop := beside?_vectors a RootTable.inverse? .coefficient
  rw [toCoefficient?, ResiduePoly.toCoefficient?, form_vectors]
  cases a.form with
  | coefficient => rfl
  | transformed => simpa [update?] using hloop

theorem toForm?_vectors (form : Form) :
    a.vectors.toForm? form = ResiduePoly.vectors <$> a.toForm? form := by
  cases form with
  | coefficient => exact toCoefficient?_vectors a
  | transformed => exact toTransformed?_vectors a

theorem neg?_vectors : a.vectors.neg? = ResiduePoly.vectors <$> a.neg? :=
  beside?_vectors a (fun t xs => xs.mapM (Modular.sub? 0 · t.prime)) a.form

theorem scale?_vectors (k : ℤ) : a.vectors.scale? k = .ok (a.scale k).vectors := by
  let scaleRow (t : RootTable) (xs : List UInt64) :=
    Modular.scaleEach t.prime (Modular.ofInt k t.prime) xs
  have hchannels : (a.channels.mapM fun c => c.update? fun xs => .ok (scaleRow c.table xs)) =
      .ok (a.scale k).channels :=
    mapM_eq_ok_map fun c _ => rfl
  refine (beside?_vectors a (fun t xs => .ok (scaleRow t xs)) a.form).trans ?_
  rw [hchannels]
  rfl

/-! ### Channels -/

theorem keep?_vectors (count : ℕ) :
    a.vectors.keep? count = ResiduePoly.vectors <$> a.keep? count := by
  rw [keep?, ResiduePoly.keep?, rows_vectors, tables_vectors, List.length_map, ← List.map_take,
    ← List.map_take]
  split <;> rfl

theorem leading?_vectors (count : ℕ) :
    a.vectors.leading? count = ResiduePoly.vectors <$>
      if count = 0 then .ok { a with channels := [] } else a.leading? count := by
  rw [leading?, ResiduePoly.leading?, rows_vectors, tables_vectors, List.length_map,
    List.length_map, ← List.map_take, ← List.map_take]
  rcases count with _ | count
  · rfl
  · simp only [and_self, if_neg count.succ_ne_zero, Nat.le_add_left, true_and]
    split <;> rfl

/-- Lookups in a mapped list are mapped lookups. -/
theorem mapM_getElem?_map {α β : Type} (g : α → β) (as : List α) (positions : List ℕ) :
    positions.mapM ((as.map g)[·]?) = (positions.mapM (as[·]?)).map (List.map g) := by
  induction positions with
  | nil => rfl
  | cons i positions ih =>
    rw [List.mapM_cons, List.mapM_cons, ih, List.getElem?_map]
    rcases as[i]? with _ | a
    · rfl
    · rcases positions.mapM (as[·]?) with _ | bs <;> rfl

theorem select?_vectors (positions : List ℕ) :
    a.vectors.select? positions = ResiduePoly.vectors <$> a.select? positions := by
  rw [select?, ResiduePoly.select?, rows_vectors, tables_vectors, mapM_getElem?_map,
    mapM_getElem?_map]
  rcases positions.mapM (a.channels[·]?) with _ | _ | ⟨c, cs⟩ <;> rfl

/-! ### Two operands -/

/-- Tables of two vectors of one length are compared by all of their primes. -/
theorem all_zip_prime_iff {ts us : List RootTable} (h : ts.length = us.length) :
    (ts.zip us).all (fun (t, u) => t.prime = u.prime) ↔
      ts.map RootTable.prime = us.map RootTable.prime := by
  induction ts generalizing us with
  | nil =>
    obtain rfl := List.length_eq_zero_iff.1 h.symm
    exact iff_of_true rfl rfl
  | cons t ts ih =>
    obtain ⟨u, us, rfl⟩ := List.exists_cons_of_length_eq_add_one h.symm
    rw [List.zip_cons_cons, List.all_cons, Bool.and_eq_true, ih (Nat.succ.inj h), List.map_cons,
      List.map_cons, List.cons.injEq, decide_eq_true_iff]

theorem compatible?_vectors : a.vectors.compatible? b.vectors = a.compatible? b := by
  rw [compatible?, ResiduePoly.compatible?, rows_vectors, rows_vectors, List.length_map,
    List.length_map]
  split
  · rfl
  rename_i hlen
  have hprimes : ((a.vectors.tables.zip b.vectors.tables).all fun (t, u) => t.prime = u.prime) ↔
      a.primes = b.primes := by
    rw [all_zip_prime_iff (by simpa using hlen), tables_vectors, tables_vectors, List.map_map,
      List.map_map]
    rfl
  simp only [form_vectors, hprimes, ne_eq, ite_not]

/-- Operands that can be combined have equally many channels, so only those are looked at. -/
theorem compatible?_bind_vectors {x : Except Fault Vectors} {y : Except Fault ResiduePoly}
    (h : a.channels.length = b.channels.length → x = ResiduePoly.vectors <$> y) :
    (do a.vectors.compatible? b.vectors; x) = ResiduePoly.vectors <$> (do a.compatible? b; y) := by
  rw [compatible?_vectors, map_bind]
  by_cases hlen : a.channels.length = b.channels.length
  · rw [h hlen]
  · rw [ResiduePoly.compatible?, if_pos hlen]
    rfl

theorem combine?_vectors (f : UInt64 → List UInt64 → List UInt64 → Except Fault (List UInt64))
    (hlen : a.channels.length = b.channels.length) :
    a.vectors.combine? f b.vectors = ResiduePoly.vectors <$> a.combine? f b := by
  have hleft : (a.channels.zip b.channels).map Prod.fst = a.channels := List.map_fst_zip hlen.le
  have hright : (a.channels.zip b.channels).map Prod.snd = b.channels := List.map_snd_zip hlen.ge
  rw [combine?, ResiduePoly.combine?, rows_vectors, rows_vectors, tables_vectors]
  -- Rows, rows and tables are all read off the pairs of channels.
  generalize a.channels.zip b.channels = pairs at hleft hright
  rw [← hleft, ← hright, List.map_map, List.map_map, List.map_map, List.zip_map', beside?_map,
    vectors_mapM]
  rfl

theorem add?_vectors : a.vectors.add? b.vectors = ResiduePoly.vectors <$> a.add? b :=
  compatible?_bind_vectors a b (combine?_vectors a b _)

theorem sub?_vectors : a.vectors.sub? b.vectors = ResiduePoly.vectors <$> a.sub? b :=
  compatible?_bind_vectors a b (combine?_vectors a b _)

theorem mul?_vectors : a.vectors.mul? b.vectors = ResiduePoly.vectors <$> a.mul? b := by
  refine compatible?_bind_vectors a b fun hlen => ?_
  rw [form_vectors]
  split
  · exact combine?_vectors a b _ hlen
  · rfl

/-! ### Division and automorphisms -/

theorem divideByLast?_vectors :
    a.vectors.divideByLast? = ResiduePoly.vectors <$> a.divideByLastGuarded? := by
  rw [divideByLast?, ResiduePoly.divideByLastGuarded?, rows_vectors, List.length_map,
    toCoefficient?_vectors, bind_map_left]
  split
  · rfl
  rw [map_bind]
  refine bind_congr fun work => ?_
  rw [rows_vectors, tables_vectors, List.getLast?_map, List.getLast?_map]
  rcases work.channels.getLast? with _ | last
  · rfl
  have hquotient : ResiduePoly.quotientChannel? last = fun c =>
      c.update? (ResiduePoly.quotientRow? last.table.prime last.residues c.table.prime) := rfl
  have hloop := beside?_vectors ⟨work.channels.dropLast, work.form⟩
    (fun t => ResiduePoly.quotientRow? last.table.prime last.residues t.prime) work.form
  rw [← hquotient] at hloop
  have hforms := congrArg (· >>= toForm? a.form) hloop
  simpa [toForm?_vectors] using hforms

theorem automorphism?_vectors (place? : ℕ → ℕ → ℕ → Except Fault ℕ) (k : ℕ) :
    a.vectors.automorphism? place? k = ResiduePoly.vectors <$> a.automorphismGuarded? place? k := by
  rw [automorphism?, ResiduePoly.automorphismGuarded?, degree_vectors, toCoefficient?_vectors]
  split
  swap
  · rfl
  rcases hwork : a.toCoefficient? with e | work
  · rfl
  have hlength : work.channels.length = a.channels.length :=
    ResiduePoly.length_of_toForm? (show a.toForm? .coefficient = .ok work from hwork)
  have hzeros : List.replicate a.vectors.rows.length (List.replicate a.degree (0 : UInt64)) =
      work.channels.map fun _ => List.replicate a.degree 0 := by
    rw [rows_vectors, List.length_map, ← hlength, List.map_const']
  let scattered (e : List UInt64 × RootTable) (out : List UInt64) :=
    ResiduePoly.scatter? (place? a.degree k) a.degree e.2.prime e.1 out
  -- Rows, tables and zeros are all read off the channels.
  have hloop := vectors_mapM Channel.table
    (fun c => scattered (c.residues, c.table) (List.replicate a.degree 0)) work.channels work.form
  rw [← beside?_map scattered, ← hzeros, ← List.zip_map'] at hloop
  have hforms := congrArg (· >>= toForm? a.form) hloop
  simpa [toForm?_vectors, scattered, Channel.update?, Channel.prime] using hforms

end Polynomial

end Vectors

end EncryptedArithmetic

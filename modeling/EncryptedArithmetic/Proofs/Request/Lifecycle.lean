import EncryptedArithmetic.Proofs.Request.Service
import EncryptedArithmetic.Proofs.Scheme.Validity
import Mathlib.Data.Set.Card

/-!
# The life of a context under any interleaving

What the events of a run say of the context that is held, of the number of contexts that were built
and of their ids. A history lists events with the last one first. The context that was handed out
last is the one that is held, until it is released. Every event of a run follows from those before
it, and all that is said of whole runs is read off this.

## Main definitions

* `lastHanded` and `HandedSince`: the context that was handed out last, and whether there is one.
* `builds` and `drawn`: the contexts that were built, and the number of ids that were taken.
* `Event.Follows` and `Coherent`: how an event depends on the history before it.
* `Calculator.Tracks`: how a calculator depends on the history.
* `Stage.Backed`: where what a client works with comes from.

## Main results

* `Coherent.id_ne_of_released` and `Coherent.ncard_handed`: ids and numbers of contexts.
* `Calculator.Tracks.acts` and `Service.Steps.tracks`: what a step and a run preserve.
* `Service.Step.keeps`: what a step leaves as it is.
* `Service.lifecycle_of_steps`: the life of a context.
-/

namespace EncryptedArithmetic

variable {σ : Type} {S : Sampler σ} {params : Parameters} {history older newer : List Event}
  {x y : Context}

/-! ## Histories -/

/-- The context that was handed out last, unless it was released since. -/
def lastHanded : List Event → Option Context
  | [] => none
  | event :: older =>
    match event with
    | .fetched _ (.ok ctx) => some ctx
    | .released .. => none
    | _ => lastHanded older

/-- A context was handed out since the last release. -/
def HandedSince (history : List Event) : Prop :=
  ∃ newer k ctx older, history = newer ++ .fetched k (.ok ctx) :: older ∧
    ∀ l was, .released l was ∉ newer

/-- The contexts that were built: those that were handed out while there was none. -/
def builds : List Event → List Context
  | [] => []
  | event :: older =>
    match event with
    | .fetched _ (.ok ctx) =>
      if (lastHanded older).isSome then builds older else ctx :: builds older
    | _ => builds older

/-- The number of ids that were taken, by contexts that were built and by other caches of the
process. -/
def drawn : List Event → ℕ
  | [] => 0
  | event :: older =>
    match event with
    | .fetched _ (.ok _) => if (lastHanded older).isSome then drawn older else drawn older + 1
    | .elsewhere => drawn older + 1
    | _ => drawn older

/-- What an event says of the history before it: a context that is held is handed out again, and a
new one was generated with the next id. -/
def Event.Follows (S : Sampler σ) (params : Parameters) (older : List Event) : Event → Prop
  | .fetched _ (.ok ctx) =>
    match lastHanded older with
    | some held => ctx = held
    | none => ∃ s s', Answers (Context.generate S params (.ofNat (1 + drawn older))) s ctx s'
  | .fetched _ (.error _) => lastHanded older = none
  | .released _ was => was = (lastHanded older).isSome
  | .probed _ holds => holds = (lastHanded older).isSome
  | .asked .. | .numbered .. | .answered .. | .elsewhere => True

/-- Every event follows from those before it. -/
def Coherent (S : Sampler σ) (params : Parameters) : List Event → Prop
  | [] => True
  | event :: older => event.Follows S params older ∧ Coherent S params older

theorem Coherent.of_append (h : Coherent S params (newer ++ older)) : Coherent S params older := by
  induction newer with
  | nil => exact h
  | cons event newer ih => exact ih h.2

/-- A context that was handed out while one was held is the one that was held. -/
theorem Coherent.eq_of_lastHanded {k : ℕ} (h : Coherent S params (.fetched k (.ok y) :: older))
    (hlast : lastHanded older = some x) : y = x := by
  have hfollows := h.1
  rw [Event.Follows, hlast] at hfollows
  exact hfollows

/-- A context that was handed out while none was held is new. -/
theorem Coherent.id_eq {k : ℕ} (h : Coherent S params (.fetched k (.ok y) :: older))
    (hlast : lastHanded older = none) : y.id = .ofNat (1 + drawn older) := by
  have hfollows := h.1
  rw [Event.Follows, hlast] at hfollows
  obtain ⟨s, s', hctx⟩ := hfollows
  exact (Context.generate_cases hctx).1

/-- Without a release the same context goes on being held. -/
theorem Coherent.lastHanded_append (h : Coherent S params (newer ++ older))
    (hlast : lastHanded older = some x) (hkept : ∀ k was, .released k was ∉ newer) :
    lastHanded (newer ++ older) = some x := by
  induction newer with
  | nil => exact hlast
  | cons event newer ih =>
    have hrest := ih h.2 fun k was hmem => hkept k was (List.mem_cons_of_mem _ hmem)
    cases event with
    | fetched k result =>
      cases result with
      | error e => exact hrest
      | ok y => exact congrArg some (Coherent.eq_of_lastHanded h hrest)
    | released k was => exact absurd List.mem_cons_self (hkept k was)
    | probed | asked | numbered | answered | elsewhere => exact hrest

theorem exists_fetched_of_lastHanded (h : lastHanded history = some x) :
    ∃ k, .fetched k (.ok x) ∈ history := by
  induction history with
  | nil => cases h
  | cons event older ih =>
    -- An event that hands no context out passes the question on to the older ones.
    have hrest (h : lastHanded older = some x) : ∃ k, .fetched k (.ok x) ∈ event :: older :=
      (ih h).imp fun _ => List.mem_cons_of_mem event
    cases event with
    | fetched k result =>
      cases result with
      | error e => exact hrest h
      | ok y =>
        obtain rfl := Option.some.inj h
        exact ⟨k, List.mem_cons_self⟩
    | released k was => cases h
    | probed | asked | numbered | answered | elsewhere => exact hrest h

theorem isSome_lastHanded_iff : (lastHanded history).isSome ↔ HandedSince history := by
  induction history with
  | nil =>
    refine ⟨nofun, ?_⟩
    rintro ⟨newer, k, ctx, older, heq, -⟩
    exact absurd heq.symm (List.append_ne_nil_of_right_ne_nil _ (List.cons_ne_nil _ _))
  | cons event older ih =>
    -- An event that hands out nothing and is no release leaves both sides as they are.
    have hrest (hfetched : ∀ k ctx, event ≠ .fetched k (.ok ctx))
        (hreleased : ∀ l was, event ≠ .released l was) :
        (lastHanded older).isSome ↔ HandedSince (event :: older) := by
      rw [ih]
      constructor
      · rintro ⟨newer, k, ctx, rest, rfl, hkept⟩
        refine ⟨event :: newer, k, ctx, rest, rfl, ?_⟩
        intro l was hmem
        exact (List.mem_cons.1 hmem).elim (fun h => hreleased l was h.symm) (hkept l was)
      · rintro ⟨_ | ⟨e, newer⟩, k, ctx, rest, heq, hkept⟩
        · exact absurd (List.cons.inj heq).1 (hfetched k ctx)
        · exact ⟨newer, k, ctx, rest, (List.cons.inj heq).2, fun l was hmem =>
            hkept l was (List.mem_cons_of_mem e hmem)⟩
    cases event with
    | fetched k result =>
      cases result with
      | error e => exact hrest nofun nofun
      | ok ctx => exact ⟨fun _ => ⟨[], k, ctx, older, rfl, nofun⟩, fun _ => rfl⟩
    | released l was =>
      refine ⟨nofun, ?_⟩
      rintro ⟨_ | ⟨e, newer⟩, k, ctx, rest, heq, hkept⟩
      · cases (List.cons.inj heq).1
      · obtain rfl := (List.cons.inj heq).1
        exact absurd List.mem_cons_self (hkept l was)
    | probed | asked | numbered | answered | elsewhere => exact hrest nofun nofun

/-! ## The contexts that were built -/

/-- An event builds a context, which takes an id, or it leaves those that were built. -/
theorem builds_cons_cases (event : Event) (older : List Event) :
    (∃ k ctx, event = .fetched k (.ok ctx) ∧ lastHanded older = none ∧
      builds (event :: older) = ctx :: builds older ∧ drawn (event :: older) = drawn older + 1) ∨
    builds (event :: older) = builds older ∧ drawn older ≤ drawn (event :: older) := by
  cases event with
  | fetched k result =>
    cases result with
    | error e => exact .inr ⟨rfl, le_refl _⟩
    | ok ctx =>
      rw [builds, drawn]
      rcases hlast : lastHanded older with _ | held
      · exact .inl ⟨k, ctx, rfl, rfl, rfl, rfl⟩
      · exact .inr ⟨rfl, le_refl _⟩
  | elsewhere => exact .inr ⟨rfl, Nat.le_succ _⟩
  | released | probed | asked | numbered | answered => exact .inr ⟨rfl, le_refl _⟩

/-- Ids are never given back. -/
theorem drawn_le_cons (event : Event) (older : List Event) :
    drawn older ≤ drawn (event :: older) := by
  obtain ⟨-, -, -, -, -, hdrawn⟩ | ⟨-, hdrawn⟩ := builds_cons_cases event older
  · exact hdrawn ▸ Nat.le_succ _
  · exact hdrawn

theorem drawn_le_append (newer older : List Event) : drawn older ≤ drawn (newer ++ older) := by
  induction newer with
  | nil => exact le_refl _
  | cons event newer ih => exact ih.trans (drawn_le_cons event _)

theorem mem_builds_cons (event : Event) (h : x ∈ builds older) : x ∈ builds (event :: older) := by
  obtain ⟨-, ctx, -, -, hbuilds, -⟩ | ⟨hbuilds, -⟩ := builds_cons_cases event older
  · exact hbuilds ▸ List.mem_cons_of_mem ctx h
  · exact hbuilds ▸ h

/-- What was built was handed out. -/
theorem exists_fetched_of_mem_builds (h : x ∈ builds history) :
    ∃ k, .fetched k (.ok x) ∈ history := by
  induction history with
  | nil => cases h
  | cons event older ih =>
    have hrest (h : x ∈ builds older) : ∃ k, .fetched k (.ok x) ∈ event :: older :=
      (ih h).imp fun _ => List.mem_cons_of_mem event
    obtain ⟨k, ctx, rfl, -, hbuilds, -⟩ | ⟨hbuilds, -⟩ := builds_cons_cases event older
    · rw [hbuilds] at h
      rcases List.mem_cons.1 h with rfl | h
      · exact ⟨k, List.mem_cons_self⟩
      · exact hrest h
    · exact hrest (hbuilds ▸ h)

/-- What was handed out was built. -/
theorem Coherent.mem_builds (h : Coherent S params history) {k : ℕ}
    (hmem : .fetched k (.ok x) ∈ history) : x ∈ builds history := by
  induction history generalizing k with
  | nil => cases hmem
  | cons event older ih =>
    rcases List.mem_cons.1 hmem with rfl | hmem
    · rcases hlast : lastHanded older with _ | held
      · rw [builds, hlast]
        exact List.mem_cons_self
      · -- The context was held, so it had been handed out before.
        obtain rfl := h.eq_of_lastHanded hlast
        obtain ⟨j, hj⟩ := exists_fetched_of_lastHanded hlast
        exact mem_builds_cons _ (ih h.2 hj)
    · exact mem_builds_cons _ (ih h.2 hmem)

/-! ## Ids -/

/-- Up to `2 ^ 64` ids are told apart. -/
theorem ofNat_ne_of_lt {a b : ℕ} (hab : a < b) (hb : b < UInt64.size) :
    UInt64.ofNat (1 + a) ≠ UInt64.ofNat (1 + b) := by
  have hsize : UInt64.size = 18446744073709551616 := rfl
  intro h
  have hnat := congrArg UInt64.toNat h
  rw [UInt64.toNat_ofNat', UInt64.toNat_ofNat'] at hnat
  omega

/-- A context that was built took one of the ids. -/
theorem Coherent.exists_id_of_mem_builds (h : Coherent S params history)
    (hx : x ∈ builds history) : ∃ d < drawn history, x.id = .ofNat (1 + d) := by
  induction history with
  | nil => cases hx
  | cons event older ih =>
    have hrest (hx : x ∈ builds older) : ∃ d < drawn (event :: older), x.id = .ofNat (1 + d) := by
      obtain ⟨d, hd, hid⟩ := ih h.2 hx
      exact ⟨d, hd.trans_le (drawn_le_cons event older), hid⟩
    obtain ⟨k, ctx, rfl, hlast, hbuilds, hdrawn⟩ | ⟨hbuilds, -⟩ := builds_cons_cases event older
    · rw [hbuilds] at hx
      rcases List.mem_cons.1 hx with rfl | hx
      · exact ⟨drawn older, hdrawn ▸ Nat.lt_succ_self _, h.id_eq hlast⟩
      · exact hrest hx
    · exact hrest (hbuilds ▸ hx)

/-- While ids do not run out, no two contexts that were built have the same id. -/
theorem Coherent.nodup_ids (h : Coherent S params history) (hdrawn : drawn history ≤ UInt64.size) :
    ((builds history).map Context.id).Nodup := by
  induction history with
  | nil => exact List.nodup_nil
  | cons event older ih =>
    have hrest := ih h.2 ((drawn_le_cons event older).trans hdrawn)
    obtain ⟨k, ctx, rfl, hlast, hbuilds, hnext⟩ | ⟨hbuilds, -⟩ := builds_cons_cases event older
    · rw [hbuilds, List.map_cons, List.nodup_cons]
      refine ⟨?_, hrest⟩
      -- The ids that were taken before are those below the one of the new context.
      intro hmem
      obtain ⟨x, hx, hid⟩ := List.mem_map.1 hmem
      obtain ⟨d, hd, hxid⟩ := Coherent.exists_id_of_mem_builds h.2 hx
      rw [hxid, h.id_eq hlast] at hid
      rw [hnext] at hdrawn
      exact ofNat_ne_of_lt hd hdrawn hid
    · rwa [hbuilds]

/-- A context that is held although there was a release took one of the ids behind the release. -/
theorem Coherent.exists_id_of_lastHanded (h : Coherent S params (newer ++ older))
    (hreleased : ∃ k was, .released k was ∈ newer) (hlast : lastHanded (newer ++ older) = some x) :
    ∃ d, drawn older ≤ d ∧ d < drawn (newer ++ older) ∧ x.id = .ofNat (1 + d) := by
  -- The induction is from the release on: the first context handed out behind it is newly drawn.
  induction newer with
  | nil =>
    obtain ⟨k, was, hmem⟩ := hreleased
    cases hmem
  | cons event newer ih =>
    have hrest (hne : ∀ k was, event ≠ .released k was)
        (hlast : lastHanded (newer ++ older) = some x) :
        ∃ d, drawn older ≤ d ∧ d < drawn (event :: (newer ++ older)) ∧ x.id = .ofNat (1 + d) := by
      obtain ⟨k, was, hmem⟩ := hreleased
      have hmem' := (List.mem_cons.1 hmem).resolve_left fun heq => hne k was heq.symm
      obtain ⟨d, hle, hlt, hid⟩ := ih h.2 ⟨k, was, hmem'⟩ hlast
      exact ⟨d, hle, hlt.trans_le (drawn_le_cons event _), hid⟩
    cases event with
    | fetched k result =>
      cases result with
      | error e => exact hrest nofun hlast
      | ok y =>
        obtain rfl : y = x := Option.some.inj hlast
        rcases hbefore : lastHanded (newer ++ older) with _ | held
        · refine ⟨drawn (newer ++ older), drawn_le_append newer older, ?_,
            Coherent.id_eq h hbefore⟩
          rw [List.cons_append, drawn, hbefore]
          exact Nat.lt_succ_self _
        · obtain rfl := Coherent.eq_of_lastHanded h hbefore
          exact hrest nofun hbefore
    | released k was => cases hlast
    | probed | asked | numbered | answered | elsewhere => exact hrest nofun hlast

/-- While ids do not run out, an id stands for one context. -/
theorem Coherent.eq_of_id_eq (h : Coherent S params history) (hdrawn : drawn history ≤ UInt64.size)
    {j k : ℕ} (hx : .fetched j (.ok x) ∈ history) (hy : .fetched k (.ok y) ∈ history)
    (hid : x.id = y.id) : x = y :=
  List.inj_on_of_nodup_map (h.nodup_ids hdrawn) (h.mem_builds hx) (h.mem_builds hy) hid

/-- While ids do not run out, as many contexts were built as different ones were handed out. -/
theorem Coherent.ncard_handed (h : Coherent S params history)
    (hdrawn : drawn history ≤ UInt64.size) :
    {x | ∃ k, .fetched k (.ok x) ∈ history}.ncard = (builds history).length := by
  classical
  have hset : {x | ∃ k, .fetched k (.ok x) ∈ history} =
      ((builds history).toFinset : Set Context) := by
    ext x
    simp only [Set.mem_ofPred_eq, List.coe_toFinset]
    exact ⟨fun ⟨k, hk⟩ => h.mem_builds hk, exists_fetched_of_mem_builds⟩
  rw [hset, Set.ncard_coe_finset, List.toFinset_card_of_nodup (h.nodup_ids hdrawn).of_map]

/-- While ids do not run out, a context that was handed out behind a release has another id than
those that were handed out before it: they took theirs before the release, and it took one behind
it. -/
theorem Coherent.id_ne_of_released {j k : ℕ}
    (h : Coherent S params ((.fetched j (.ok y) :: newer) ++ .fetched k (.ok x) :: older))
    (hreleased : ∃ l was, .released l was ∈ newer)
    (hdrawn : drawn ((.fetched j (.ok y) :: newer) ++ .fetched k (.ok x) :: older) ≤
      UInt64.size) : y.id ≠ x.id := by
  obtain ⟨l, was, hmem⟩ := hreleased
  have hearlier := h.of_append
  obtain ⟨a, ha, hxid⟩ :=
    hearlier.exists_id_of_mem_builds (hearlier.mem_builds List.mem_cons_self)
  obtain ⟨b, hab, hb, hyid⟩ :=
    h.exists_id_of_lastHanded ⟨l, was, List.mem_cons_of_mem _ hmem⟩ rfl
  rw [hxid, hyid]
  exact (ofNat_ne_of_lt (ha.trans_le hab) (hb.trans_le hdrawn)).symm

/-! ## What runs preserve -/

section Runs

variable {config : Config} {source : UInt64 → σ} {keys : KeySource σ} {event : Event}
  {c c' : Calculator σ}

/-- The calculator is what its history says: it holds the context that was handed out last, it goes
on with the next id, and it has counted the contexts that were built. -/
structure Calculator.Tracks (c : Calculator σ) (config : Config) (source : UInt64 → σ)
    (history : List Event) : Prop where
  config_eq : c.config = config
  params_eq : c.cache.params = config.context
  source_eq : c.source = source
  held : c.cache.held? = lastHanded history
  nextId : c.cache.nextId = .ofNat (1 + drawn history)
  built : c.cache.built = (builds history).length

theorem ofNat_add_one (n : ℕ) : UInt64.ofNat n + 1 = UInt64.ofNat (n + 1) := by
  apply UInt64.toNat_inj.1
  rw [UInt64.toNat_add, UInt64.toNat_ofNat', UInt64.toNat_ofNat', Nat.mod_add_mod]
  rfl

/-- An attempt to get the context follows from the history, which goes on with its result. -/
theorem Calculator.Tracks.fetched (h : c.Tracks config source history) (k : ℕ) :
    (Event.fetched k (c.cache.fetch S).1).Follows S config.context history ∧
      Calculator.Tracks { c with cache := (c.cache.fetch S).2 } config source
        (.fetched k (c.cache.fetch S).1 :: history) := by
  obtain ⟨hconfig, hparams, hsource, hheld, hnext, hbuilt⟩ := h
  obtain ⟨ctx, hctx, hrun⟩ | ⟨ctx, t, hnone, hctx, hrun⟩ | ⟨e, t, hnone, -, hrun⟩ :=
    c.cache.fetch_cases S
  · -- The context that is held is handed out again.
    rw [hheld] at hctx
    rw [hrun]
    refine ⟨by rw [Event.Follows, hctx], hconfig, hparams, hsource, hheld.trans hctx, ?_, ?_⟩
    · rw [drawn, hctx]
      exact hnext
    · rw [builds, hctx]
      exact hbuilt
  · -- A context is built.
    rw [hheld] at hnone
    rw [hrun]
    refine ⟨?_, hconfig, hparams, hsource, rfl, ?_, ?_⟩
    · rw [Event.Follows, hnone]
      exact ⟨_, t, hparams ▸ hnext ▸ hctx⟩
    · rw [drawn, hnone]
      exact (congrArg (· + 1) hnext).trans (ofNat_add_one _)
    · rw [builds, hnone]
      exact congrArg (· + 1) hbuilt
  · -- The attempt to build one failed.
    rw [hheld] at hnone
    rw [hrun]
    exact ⟨hnone, hconfig, hparams, hsource, hheld, hnext, hbuilt⟩

/-- What a step does to a calculator follows from the history, and the history goes on to say what
the calculator is. -/
theorem Calculator.Tracks.acts (h : c.Tracks config source history) (hacts : event.Acts S c c') :
    event.Follows S config.context history ∧ c'.Tracks config source (event :: history) := by
  obtain ⟨hconfig, hparams, hsource, hheld, hnext, hbuilt⟩ := h
  -- Only fetching, releasing and what happens elsewhere change the calculator.
  cases event with
  | fetched k result =>
    have hfetch : ((c.cache.fetch S).1, { c with cache := (c.cache.fetch S).2 }) = (result, c') :=
      hacts
    obtain ⟨rfl, rfl⟩ := Prod.mk.inj hfetch
    exact Calculator.Tracks.fetched ⟨hconfig, hparams, hsource, hheld, hnext, hbuilt⟩ k
  | released k was =>
    have hrelease : (c.cache.held?.isSome, { c with cache := { c.cache with held? := none } }) =
        (was, c') := hacts
    obtain ⟨rfl, rfl⟩ := Prod.mk.inj hrelease
    exact ⟨congrArg Option.isSome hheld, hconfig, hparams, hsource, rfl, hnext, hbuilt⟩
  | probed k holds =>
    obtain ⟨rfl, rfl⟩ := hacts
    exact ⟨congrArg Option.isSome hheld, hconfig, hparams, hsource, hheld, hnext, hbuilt⟩
  | numbered k number =>
    obtain ⟨-, rfl⟩ := hacts
    exact ⟨trivial, hconfig, hparams, hsource, hheld, hnext, hbuilt⟩
  | asked | answered =>
    obtain rfl := hacts
    exact ⟨trivial, hconfig, hparams, hsource, hheld, hnext, hbuilt⟩
  | elsewhere =>
    obtain rfl := hacts
    exact ⟨trivial, hconfig, hparams, hsource, hheld,
      (congrArg (· + 1) hnext).trans (ofNat_add_one _), hbuilt⟩

/-- What a client works with comes from its own steps: the context is one that it was given, and the
draws are those of a number that it took. -/
def Stage.Backed (config : Config) (source : UInt64 → σ) (history : List Event) (k : ℕ) :
    Stage σ → Prop
  | given _ ctx => .fetched k (.ok ctx) ∈ history
  | started _ ev state => ∃ ctx number, .fetched k (.ok ctx) ∈ history ∧
      .numbered k number ∈ history ∧ ev = .create ctx config.zeroTolerance ∧ state = source number
  | idle | waiting _ | told _ => True

theorem Stage.Backed.cons {stage : Stage σ} {k : ℕ} (h : stage.Backed config source history k)
    (event : Event) : stage.Backed config source (event :: history) k := by
  cases stage with
  | given job ctx => exact List.mem_cons_of_mem event h
  | started job ev state =>
    obtain ⟨ctx, number, hfetched, hnumbered, hev, hstate⟩ := h
    exact ⟨ctx, number, List.mem_cons_of_mem event hfetched,
      List.mem_cons_of_mem event hnumbered, hev, hstate⟩
  | idle | waiting | told => trivial

namespace Service

variable {s s' : Service σ} {k : ℕ}

/-- Every history of a run is coherent, and the calculator is what it says. -/
theorem Steps.tracks (h : Steps S (start config keys source) history s) :
    Coherent S config.context history ∧ s.calculator.Tracks config source history := by
  -- By induction on the run. What a step does to the calculator follows from its event alone.
  induction h with
  | refl => exact ⟨trivial, rfl, rfl, rfl, rfl, rfl, rfl⟩
  | step _ hstep ih =>
    obtain ⟨hcoherent, htracks⟩ := ih
    obtain ⟨hfollows, htracks'⟩ := htracks.acts hstep.acts
    exact ⟨⟨hfollows, hcoherent⟩, htracks'⟩

/-- A step leaves every client with what comes from its own steps. -/
theorem Step.backed (h : Step S s event s') (hs : s.calculator.Tracks config source history)
    (hbacked : ∀ k, (s.stages k).Backed config source history k) (k : ℕ) :
    (s'.stages k).Backed config source (event :: history) k := by
  by_cases hk : event.client? = some k
  swap
  · rw [h.stages_eq hk]
    exact (hbacked k).cons event
  -- A client that moves is at the stage that the step says.
  have hmoved {c : Calculator σ} {stage : Stage σ}
      (hstage : stage.Backed config source (event :: history) k) :
      ((s.move c k stage).stages k).Backed config source (event :: history) k := by
    rwa [stages_move_self]
  cases h with
  | acquire | release | probe => exact (hbacked k).cons _
  | elsewhere => cases hk
  | ask request =>
    obtain rfl := Option.some.inj hk
    refine hmoved ?_
    rcases hjob : request.job s.calculator.config.limits with e | job
    · rw [Stage.opening_of_parseError hjob]
      trivial
    · rw [Stage.opening_of_job hjob]
      trivial
  | @fetch _ job result =>
    obtain rfl := Option.some.inj hk
    refine hmoved ?_
    -- The client works with what this very step was handed.
    cases result with
    | ok ctx => exact List.mem_cons_self
    | error e => trivial
  | @number j job ctx ev state c hstage h =>
    obtain rfl : j = k := Option.some.inj hk
    refine hmoved ⟨ctx, s.calculator.requests, ?_, List.mem_cons_self, ?_⟩
    · have hgiven := hbacked j
      rw [hstage] at hgiven
      exact List.mem_cons_of_mem _ hgiven
    · obtain ⟨rfl, rfl, -⟩ : _ ∧ _ ∧ _ := by
        simpa only [Calculator.evaluator, Prod.mk.injEq] using h
      exact ⟨by rw [hs.config_eq], by rw [hs.source_eq]⟩
  | finish | tell =>
    obtain rfl := Option.some.inj hk
    exact hmoved trivial

theorem Steps.backed (h : Steps S (start config keys source) history s) (k : ℕ) :
    (s.stages k).Backed config source history k := by
  induction h generalizing k with
  | refl => trivial
  | step hsteps hstep ih => exact hstep.backed hsteps.tracks.2 ih k

/-! ## What a step leaves as it is -/

/-- What every step keeps. A failed attempt to build a context found none, leaves none and counts
none. Only a release takes away the context that is held. Asking and being told do nothing to the
calculator, and no step does anything to the requests of other clients. -/
structure Keeps (s : Service σ) (event : Event) (s' : Service σ) : Prop where
  failed : ∀ k e, event = .fetched k (.error e) →
    s.cache.held? = none ∧ s'.cache.held? = none ∧ s'.cache.built = s.cache.built
  held : ∀ ctx, s.cache.held? = some ctx → (∀ k was, event ≠ .released k was) →
    s'.cache.held? = some ctx ∧ s'.cache.built = s.cache.built
  quiet : (∃ k request, event = .asked k request) ∨ (∃ k reply, event = .answered k reply) →
    s'.calculator = s.calculator
  others : ∀ k, event.client? ≠ some k → s'.stages k = s.stages k

/-- An attempt to get the context changes the cache only where it builds one. -/
theorem keeps_of_fetched {result : Result RequestError Context}
    (hacts : (Event.fetched k result).Acts S s.calculator s'.calculator)
    (hothers : ∀ j, (Event.fetched k result).client? ≠ some j → s'.stages j = s.stages j) :
    s.Keeps (.fetched k result) s' := by
  have hfetch : ((s.cache.fetch S).1, { s.calculator with cache := (s.cache.fetch S).2 }) =
      (result, s'.calculator) := hacts
  obtain ⟨hresult, hcalculator⟩ := Prod.mk.inj hfetch
  have hcache : (s.cache.fetch S).2 = s'.cache := congrArg Calculator.cache hcalculator
  obtain ⟨ctx, hctx, hrun⟩ | ⟨ctx, t, hnone, -, hrun⟩ | ⟨e, t, hnone, -, hrun⟩ :=
    s.cache.fetch_cases S
  · -- The context that is held stays.
    rw [hrun] at hresult hcache
    subst hresult
    refine ⟨nofun, ?_, nofun, hothers⟩
    intro ctx' hctx' _
    rw [← hcache]
    exact ⟨hctx', rfl⟩
  · -- None was held, so there is none to lose.
    rw [hrun] at hresult
    subst hresult
    refine ⟨nofun, ?_, nofun, hothers⟩
    intro ctx' hctx' _
    rw [hnone] at hctx'
    cases hctx'
  · -- The attempt to build one failed and left the cache as it was.
    rw [hrun] at hcache
    refine ⟨?_, ?_, nofun, hothers⟩
    · intro k e _
      rw [← hcache]
      exact ⟨hnone, hnone, rfl⟩
    · intro ctx' hctx' _
      rw [hnone] at hctx'
      cases hctx'

theorem Step.keeps (h : Step S s event s') : s.Keeps event s' := by
  have hacts := h.acts
  have hothers (k : ℕ) (hk : event.client? ≠ some k) := h.stages_eq hk
  -- Only an attempt to get the context and a release touch what the cache holds.
  cases event with
  | fetched k result => exact keeps_of_fetched hacts hothers
  | released k was => exact ⟨nofun, fun _ _ h => absurd rfl (h k was), nofun, hothers⟩
  | probed | numbered =>
    have hcache : s'.cache = s.cache := by rw [cache, hacts.2, cache]
    refine ⟨nofun, fun ctx hctx _ => ?_, nofun, hothers⟩
    rw [hcache]
    exact ⟨hctx, rfl⟩
  | asked | answered =>
    have hsame : s'.calculator = s.calculator := hacts
    refine ⟨nofun, fun ctx hctx _ => ?_, fun _ => hsame, hothers⟩
    rw [cache, hsame]
    exact ⟨hctx, rfl⟩
  | elsewhere =>
    have hsame : s'.calculator = s.calculator.skipId := hacts
    refine ⟨nofun, fun ctx hctx _ => ?_, nofun, hothers⟩
    rw [cache, hsame]
    exact ⟨hctx, rfl⟩

/-! ## The life of a context -/

/-- In every run, whatever the clients do and in whatever order their steps are taken:

* the context that is held is the one that was handed out last, unless it was released since;
* two successful attempts to get it answer the same context if there was no release between them,
  and contexts with different ids if there was one;
* the number of contexts that were built is the number of different ones that were handed out, and
  an id stands for one context only;
* a release answers whether a context was handed out since the one before, and so does a look;
* whatever step comes next keeps what `Keeps` says, and a text that is no expression leaves the
  calculator as it is;
* a request works with a context that its client was given, and with the draws of a number of its
  own;
* the request of an idle client is a run of such steps.

Ids are words, so those of different contexts are told apart as long as fewer than `2 ^ 64` of them
were taken. -/
theorem lifecycle_of_steps (h : Steps S (start config keys source) history s) :
    s.cache.held? = lastHanded history ∧
    (∀ newer between older j k x y,
      history = newer ++ .fetched j (.ok y) :: (between ++ .fetched k (.ok x) :: older) →
        ((∀ l was, .released l was ∉ between) → y = x) ∧
        ((∃ l was, .released l was ∈ between) → drawn history < UInt64.size → y.id ≠ x.id)) ∧
    (drawn history < UInt64.size →
      s.cache.built = {x | ∃ k, .fetched k (.ok x) ∈ history}.ncard ∧
      ∀ j k x y, .fetched j (.ok x) ∈ history → .fetched k (.ok y) ∈ history → x.id = y.id →
        x = y) ∧
    (∀ newer older k was, history = newer ++ .released k was :: older →
      (was = true ↔ HandedSince older)) ∧
    (∀ newer older k holds, history = newer ++ .probed k holds :: older →
      (holds = true ↔ HandedSince older)) ∧
    (∀ event s', Step S s event s' → s.Keeps event s') ∧
    (∀ text e, Expression.parse config.limits text = .error e →
      (s.calculator.evaluate S text).2 = s.calculator ∧
      ∀ k s', Step S s (.asked k (.text text)) s' →
        s'.calculator = s.calculator ∧ s'.stages k = .told (.ok (.outcome (.ofError (.parse e))))) ∧
    (∀ k job ev state, s.stages k = .started job ev state → ∃ ctx number,
      .fetched k (.ok ctx) ∈ history ∧ .numbered k number ∈ history ∧
      ev = .create ctx config.zeroTolerance ∧ state = source number) ∧
    (∀ k request, s.stages k = .idle →
      ∃ events, Steps S s events ⟨(s.calculator.perform S request).2, s.stages⟩ ∧
        events.head? = some (.answered k (s.calculator.perform S request).1) ∧
        ∀ event ∈ events, event.client? = some k) := by
  obtain ⟨hcoherent, htracks⟩ := h.tracks
  refine ⟨htracks.held, ?_, ?_, ?_, ?_, fun _ _ hstep => hstep.keeps, ?_, ?_, ?_⟩
  · -- Two contexts that were handed out, with what came between.
    rintro newer between older j k x y rfl
    have hlater := hcoherent.of_append
    refine ⟨?_, ?_⟩
    · intro hkept
      exact hlater.eq_of_lastHanded (hlater.2.lastHanded_append rfl hkept)
    · intro hreleased hdrawn
      exact Coherent.id_ne_of_released hlater hreleased
        ((drawn_le_append newer _).trans hdrawn.le)
  · -- The number of contexts.
    intro hdrawn
    refine ⟨htracks.built.trans (hcoherent.ncard_handed hdrawn.le).symm, ?_⟩
    intro j k x y hx hy hid
    exact hcoherent.eq_of_id_eq hdrawn.le hx hy hid
  · -- A release and a look, each with the history before it.
    rintro newer older k was rfl
    have hwas : was = (lastHanded older).isSome := hcoherent.of_append.1
    rw [hwas, isSome_lastHanded_iff]
  · rintro newer older k holds rfl
    have hholds : holds = (lastHanded older).isSome := hcoherent.of_append.1
    rw [hholds, isSome_lastHanded_iff]
  · -- A text that is no expression, as a whole request and as the step that reads it.
    intro text e hparse
    have hlimits : Expression.parse s.calculator.config.limits text = .error e := by
      rwa [htracks.config_eq]
    refine ⟨by rw [Calculator.evaluate, hlimits], ?_⟩
    intro k s' hstep
    cases hstep with
    | ask =>
      refine ⟨rfl, ?_⟩
      rw [stages_move_self]
      exact Stage.opening_of_parseError (by rw [Request.job, hlimits]; rfl)
  · intro k job ev state hstage
    have hbacked := h.backed k
    rwa [hstage] at hbacked
  · intro k request hidle
    exact exists_steps_perform hidle request

/-- The first client gets a context of the smallest ring, the second one releases it, the third one
asks for what is no expression, and the fourth one gets another context. -/
theorem lifecycle_of_steps_smallest :
    ∃ (one two : Context) (s : Service Unit),
      Steps Sampler.steady (start { context := Context.smallest } (.fixed ()) fun _ => ())
        [.fetched 4 (.ok two), .asked 3 (.text "2+*3"), .released 2 true, .fetched 1 (.ok one)] s ∧
      s.cache.held? = some two ∧ s.cache.built = 2 ∧ two.id ≠ one.id ∧
      HandedSince [.fetched 1 (.ok one)] := by
  obtain ⟨one, hone, -, -⟩ := Context.exists_smallest 1
  obtain ⟨two, htwo, -, -⟩ := Context.exists_smallest 2
  have hfirst := Steps.refl.step (.acquire (S := Sampler.steady) 1
    (Calculator.fetch_of_answers
      (c := (start { context := Context.smallest } (.fixed ()) fun _ => ()).calculator) rfl hone))
  have hreleased := hfirst.step (.release 2 rfl)
  have hasked := hreleased.step (.ask (k := 3) (.text "2+*3") rfl)
  have hrun := hasked.step (.acquire 4 (Calculator.fetch_of_answers rfl htwo))
  obtain ⟨hheld, hids, -, hreleases, -⟩ := lifecycle_of_steps hrun
  have hdrawn : 2 < UInt64.size := by decide
  refine ⟨one, two, _, hrun, hheld, rfl, ?_, ?_⟩
  · exact (hids [] [.asked 3 (.text "2+*3"), .released 2 true] [] 4 1 one two rfl).2
      ⟨2, true, by simp⟩ hdrawn
  · exact (hreleases [.fetched 4 (.ok two), .asked 3 (.text "2+*3")] _ 2 true rfl).1 rfl

end Service

end Runs

end EncryptedArithmetic

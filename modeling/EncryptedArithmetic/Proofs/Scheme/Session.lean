import EncryptedArithmetic.Proofs.Scheme.Operations

/-!
# Sessions of several contexts

A session builds contexts, each with the next id, and calls their operations on values that were
returned before, by the same context or by others. Whatever is called, all values stay valid for
the context that returned them, no call ends in a fault, and a value of another context is refused.

## Main definitions

* `Call`: an operation of a context with its arguments.
* `Session.Reachable`: the contexts and values that some run of calls leaves.
* `Session.Consistent`: what every run preserves.

## Main results

* `delivers_perform`, `perform_foreign`: one call.
* `Session.Reachable.consistent`: a run of calls.
* `reachable_spec`: validity, absence of faults and refusal in every session.
-/

namespace EncryptedArithmetic

open EncryptedArithmetic.Modular

/-- An operation of a context with its arguments. -/
inductive Call where
  | encrypt (value : Float)
  | load (bytes : List UInt8)
  | add (x y : Ciphertext)
  | sub (x y : Ciphertext)
  | mul (x y : Ciphertext)
  | mulPlain (x : Ciphertext) (factor : Float)
  | automorphism (x : Ciphertext) (element : ℕ)

/-- The ciphertexts among the arguments, in order. -/
def Call.operands : Call → List Ciphertext
  | .encrypt _ | .load _ => []
  | .add x y | .sub x y | .mul x y => [x, y]
  | .mulPlain x _ | .automorphism x _ => [x]

namespace Context

variable {σ : Type}

/-- Performs an operation. Only an encryption draws from the source. -/
def perform (S : Sampler σ) (ctx : Context) : Call → Drawing σ SchemeError Ciphertext
  | .encrypt value => encrypt S ctx value
  | .load bytes => liftM (ctx.ofBytes bytes)
  | .add x y => liftM (ctx.add x y)
  | .sub x y => liftM (ctx.sub x y)
  | .mul x y => liftM (ctx.mul x y)
  | .mulPlain x factor => liftM (ctx.mulPlain x factor)
  | .automorphism x element => liftM (ctx.automorphism x element)

variable {S : Sampler σ} {ctx : Context} {call : Call}

/-! ## One call -/

/-- A call whose operands are valid unless they are refused delivers a valid ciphertext. -/
theorem delivers_perform (hS : S.Lawful) (hctx : ctx.Working)
    (hoperands : ∀ x ∈ call.operands, x.Genuine ctx) :
    (ctx.perform S call).Delivers fun c => c.Valid ctx := by
  cases call with
  | encrypt value => exact delivers_encrypt hS hctx value
  | load bytes => exact Drawing.delivers_liftM (delivers_ofBytes hctx bytes)
  | add x y =>
    exact Drawing.delivers_liftM (delivers_add hctx (hoperands x (by simp [Call.operands]))
      (hoperands y (by simp [Call.operands])))
  | sub x y =>
    exact Drawing.delivers_liftM (delivers_sub hctx (hoperands x (by simp [Call.operands]))
      (hoperands y (by simp [Call.operands])))
  | mul x y =>
    exact Drawing.delivers_liftM (delivers_mul hctx (hoperands x (by simp [Call.operands]))
      (hoperands y (by simp [Call.operands])))
  | mulPlain x factor =>
    exact Drawing.delivers_liftM (delivers_mulPlain hctx (hoperands x (by simp [Call.operands])) _)
  | automorphism x element =>
    exact Drawing.delivers_liftM
      (delivers_automorphism hctx (hoperands x (by simp [Call.operands])) _)

/-- An operation that asks for both of its operands first is refused for the first foreign one. -/
theorem requireOwn_foreign {α : Type} {x y foreign : Ciphertext} (rest : Result SchemeError α)
    (h : [x, y].find? (·.contextId ≠ ctx.id) = some foreign) :
    (do
      ctx.requireOwn x
      ctx.requireOwn y
      rest) = Result.fail (.contextMismatch ctx.id foreign.contextId) := by
  rw [List.find?_cons] at h
  split at h
  case h_1 hx =>
    obtain rfl := Option.some.inj h
    rw [requireOwn_of_ne (of_decide_eq_true hx)]
    rfl
  case h_2 hx =>
    rw [List.find?_singleton, Option.ite_none_right_eq_some] at h
    obtain ⟨hy, h⟩ := h
    obtain rfl := Option.some.inj h
    rw [requireOwn_of_eq (not_not.1 (of_decide_eq_false hx)), ok_bind,
      requireOwn_of_ne (of_decide_eq_true hy)]
    rfl

/-- A call is refused for the first of its operands that belongs to another context. -/
theorem perform_foreign {foreign : Ciphertext}
    (h : call.operands.find? (·.contextId ≠ ctx.id) = some foreign) (s : σ) :
    (ctx.perform S call).outcome s =
      (Result.fail (.contextMismatch ctx.id foreign.contextId), s) := by
  have hlift {x : Result SchemeError Ciphertext} {e : SchemeError} (hx : x = Result.fail e) :
      (liftM x : Drawing σ SchemeError Ciphertext).outcome s = (Result.fail e, s) := by
    rw [hx]
    rfl
  have hunary {x : Ciphertext} (hx : [x].find? (·.contextId ≠ ctx.id) = some foreign) :
      ctx.requireOwn x = .fail (.contextMismatch ctx.id foreign.contextId) := by
    rw [List.find?_singleton, Option.ite_none_right_eq_some] at hx
    obtain ⟨hne, hx⟩ := hx
    obtain rfl := Option.some.inj hx
    exact requireOwn_of_ne (of_decide_eq_true hne)
  -- Every operation looks at the owners before it computes anything.
  cases call with
  | encrypt value => cases h
  | load bytes => cases h
  | add x y =>
    refine hlift ?_
    rw [add, levelled, requireOwn_foreign _ h]
    rfl
  | sub x y =>
    refine hlift ?_
    rw [sub, levelled, requireOwn_foreign _ h]
    rfl
  | mul x y =>
    refine hlift ?_
    rw [mul, requireOwn_foreign _ h]
  | mulPlain x factor =>
    refine hlift ?_
    rw [mulPlain, hunary h]
    rfl
  | automorphism x element =>
    refine hlift ?_
    rw [automorphism, hunary h]
    rfl

/-- Bytes of a valid ciphertext are refused by every other context. -/
theorem ofBytes_foreign {owner : Context} {c : Ciphertext} (howner : owner.Shaped)
    (hc : c.Valid owner) (hne : owner.id ≠ ctx.id) :
    ctx.ofBytes c.toBytes = .fail (.contextMismatch ctx.id owner.id) := by
  have hid : c.toWire.contextId = owner.id := hc.contextId_eq
  rw [ofBytes, Ciphertext.toBytes, Wire.decode_encode (hc.countable howner), mapError_ok, ok_bind,
    hid, if_pos hne]

end Context

/-! ## Runs of calls -/

/-- The contexts that were built, the latest first, and the values that were returned, each with the
context that returned it. -/
structure Session where
  contexts : List Context := []
  values : List (Context × Ciphertext) := []

namespace Session

/-- What a run leaves. Contexts are numbered from one on, parameters and draws are arbitrary, and
operands are values that were returned before. A call that fails leaves nothing. -/
inductive Reachable {σ : Type} (S : Sampler σ) : Session → Prop
  | start : Reachable S {}
  | build {session : Session} {params : Parameters} {ctx : Context} {s s' : σ}
      (hsession : Reachable S session)
      (hctx : Answers (Context.generate S params (session.contexts.length + 1).toUInt64) s ctx s') :
      Reachable S { session with contexts := ctx :: session.contexts }
  | call {session : Session} {ctx : Context} {call : Call} {c : Ciphertext} {s s' : σ}
      (hsession : Reachable S session) (hctx : ctx ∈ session.contexts)
      (hoperands : ∀ x ∈ call.operands, x ∈ session.values.map Prod.snd)
      (hanswer : Answers (ctx.perform S call) s c s') :
      Reachable S { session with values := (ctx, c) :: session.values }

/-- The ids tell contexts apart, every context is working, and every value is valid for the context
that returned it. -/
structure Consistent (session : Session) : Prop where
  id_le : ∀ ctx ∈ session.contexts, ctx.id.toNat ≤ session.contexts.length
  nodup : (session.contexts.map Context.id).Nodup
  working : ∀ ctx ∈ session.contexts, ctx.Working
  valid : ∀ v ∈ session.values, v.1 ∈ session.contexts ∧ v.2.Valid v.1

variable {σ : Type} {S : Sampler σ} {session : Session} {ctx owner : Context} {c : Ciphertext}

theorem Consistent.eq_of_id_eq (h : session.Consistent) (hctx : ctx ∈ session.contexts)
    (howner : owner ∈ session.contexts) (hid : owner.id = ctx.id) : owner = ctx :=
  List.inj_on_of_nodup_map h.nodup howner hctx hid

/-- A value that was returned is valid for a context unless it is refused there. -/
theorem Consistent.genuine (h : session.Consistent) (hctx : ctx ∈ session.contexts)
    (hc : c ∈ session.values.map Prod.snd) : c.Genuine ctx := by
  intro hid
  obtain ⟨⟨owner, _⟩, hmem, rfl⟩ := List.mem_map.1 hc
  obtain ⟨howner, hvalid⟩ := h.valid _ hmem
  obtain rfl := h.eq_of_id_eq hctx howner (hvalid.contextId_eq.symm.trans hid)
  exact hvalid

/-- A context that is built keeps the session consistent, as long as its id is a word. -/
theorem Consistent.build (hS : S.Lawful) (h : session.Consistent) {params : Parameters} {s s' : σ}
    (hctx : Answers (Context.generate S params (session.contexts.length + 1).toUInt64) s ctx s')
    (hcount : session.contexts.length + 1 < UInt64.size) (htest : ∀ q ∈ ctx.primes, TestExact q) :
    Consistent { session with contexts := ctx :: session.contexts } := by
  obtain ⟨hid, -⟩ := Context.generate_cases hctx
  have hnew : ctx.id.toNat = session.contexts.length + 1 := by
    rw [hid]
    exact UInt64.toNat_ofNat_of_lt' hcount
  refine ⟨?_, ?_, ?_, fun v hv => ⟨List.mem_cons_of_mem _ (h.valid v hv).1, (h.valid v hv).2⟩⟩
  · intro c hc
    rcases List.mem_cons.1 hc with rfl | hc
    · exact hnew.le
    · exact (h.id_le c hc).trans (Nat.le_succ _)
  · -- The new identifier is above all that were given.
    rw [List.map_cons, List.nodup_cons]
    refine ⟨?_, h.nodup⟩
    intro hmem
    obtain ⟨c, hc, hcid⟩ := List.mem_map.1 hmem
    have := h.id_le c hc
    rw [hcid, hnew] at this
    omega
  · intro c hc
    rcases List.mem_cons.1 hc with rfl | hc
    · exact Context.working_of_generate hS hctx htest
    · exact h.working c hc

/-- A call that returns keeps the session consistent. -/
theorem Consistent.call (hS : S.Lawful) (h : session.Consistent) {call : Call} {s s' : σ}
    (hctx : ctx ∈ session.contexts)
    (hoperands : ∀ x ∈ call.operands, x ∈ session.values.map Prod.snd)
    (hanswer : Answers (ctx.perform S call) s c s') :
    Consistent { session with values := (ctx, c) :: session.values } := by
  have hdelivers := Context.delivers_perform hS (h.working ctx hctx)
    (fun x hx => h.genuine hctx (hoperands x hx)) s
  rw [show (ctx.perform S call).outcome s = (.ok c, s') from hanswer] at hdelivers
  refine ⟨h.id_le, h.nodup, h.working, ?_⟩
  intro v hv
  rcases List.mem_cons.1 hv with rfl | hv
  · exact ⟨hctx, hdelivers.of_ok c rfl⟩
  · exact h.valid v hv

/-- Every run is consistent while ids do not run out. -/
theorem Reachable.consistent (hS : S.Lawful) (h : session.Reachable S)
    (hcount : session.contexts.length < UInt64.size)
    (htest : ∀ ctx ∈ session.contexts, ∀ q ∈ ctx.primes, TestExact q) : session.Consistent := by
  induction h with
  | start =>
    exact ⟨fun _ h => absurd h List.not_mem_nil, List.nodup_nil,
      fun _ h => absurd h List.not_mem_nil, fun _ h => absurd h List.not_mem_nil⟩
  | build _ hctx ih =>
    have hbefore := ih (Nat.lt_of_succ_lt hcount) fun c hc => htest c (List.mem_cons_of_mem _ hc)
    exact hbefore.build hS hctx hcount (htest _ List.mem_cons_self)
  | call _ hctx hoperands hanswer ih => exact (ih hcount htest).call hS hctx hoperands hanswer

/-- In every session with fewer contexts than ids, the ids tell the contexts apart. Every value
carries the id of the context that returned it, and both of its components are transformed, over the
same leading data primes, with as many residues as the degree in each channel, all of them reduced.
No call on such values ends in a fault, and every context refuses a value of another one, as an
operand and in serialized form. -/
theorem reachable_spec (hS : S.Lawful) (h : session.Reachable S)
    (hcount : session.contexts.length < UInt64.size)
    (htest : ∀ ctx ∈ session.contexts, ∀ q ∈ ctx.primes, TestExact q) :
    (session.contexts.map Context.id).Nodup ∧
    (∀ owner c, (owner, c) ∈ session.values → owner ∈ session.contexts ∧
      c.contextId = owner.id ∧ c.level ≤ owner.topLevel ∧
      ∀ a ∈ [c.c0, c.c1], a.form = .transformed ∧ a.primes = owner.primes.take (c.level + 1) ∧
        ∀ channel ∈ a.channels, channel.residues.length = owner.params.degree ∧
          ∀ r ∈ channel.residues, r < channel.prime) ∧
    ∀ ctx ∈ session.contexts,
      (∀ call : Call, (∀ x ∈ call.operands, x ∈ session.values.map Prod.snd) → ∀ s,
        (∀ f, ((ctx.perform S call).outcome s).1 ≠ .error (.fault f)) ∧
        ∀ owner x, (owner, x) ∈ session.values → owner ≠ ctx → x ∈ call.operands →
          ∃ foreign ∈ call.operands, foreign.contextId ≠ ctx.id ∧
            (ctx.perform S call).outcome s =
              (Result.fail (.contextMismatch ctx.id foreign.contextId), s)) ∧
      ∀ owner x, (owner, x) ∈ session.values → owner ≠ ctx →
        ctx.ofBytes x.toBytes = .fail (.contextMismatch ctx.id owner.id) := by
  have hconsistent := h.consistent hS hcount htest
  -- The id of a value is that of its owner, and two contexts differ in their ids.
  have hforeign {ctx owner : Context} {x : Ciphertext} (hctx : ctx ∈ session.contexts)
      (hx : (owner, x) ∈ session.values) (hne : owner ≠ ctx) : owner.id ≠ ctx.id := fun hid =>
    hne (hconsistent.eq_of_id_eq hctx (hconsistent.valid _ hx).1 hid)
  refine ⟨hconsistent.nodup, ?_, ?_⟩
  · intro owner c hc
    obtain ⟨howner, hvalid⟩ := hconsistent.valid _ hc
    exact ⟨howner, hvalid.contextId_eq, hvalid.level_le,
      hvalid.components (hconsistent.working owner howner).shaped⟩
  · intro ctx hctx
    refine ⟨?_, ?_⟩
    · intro call hoperands s
      refine ⟨?_, ?_⟩
      · exact (Context.delivers_perform hS (hconsistent.working ctx hctx)
          (fun x hx => hconsistent.genuine hctx (hoperands x hx)) s).ne_fault
      · intro owner x hx hne hmem
        have hid : x.contextId ≠ ctx.id :=
          (hconsistent.valid _ hx).2.contextId_eq ▸ hforeign hctx hx hne
        have hsome : (call.operands.find? (·.contextId ≠ ctx.id)).isSome :=
          List.find?_isSome.2 ⟨x, hmem, decide_eq_true hid⟩
        obtain ⟨foreign, hfind⟩ := Option.isSome_iff_exists.1 hsome
        have hne := List.find?_some hfind
        exact ⟨foreign, List.mem_of_find?_eq_some hfind, of_decide_eq_true hne,
          Context.perform_foreign hfind s⟩
    · intro owner x hx hne
      obtain ⟨howner, hvalid⟩ := hconsistent.valid _ hx
      exact Context.ofBytes_foreign (hconsistent.working owner howner).shaped hvalid
        (hforeign hctx hx hne)

/-- Two contexts of the smallest ring, and a value of the first one that the second one refuses. -/
theorem reachable_spec_smallest :
    ∃ (one two : Context) (c : Ciphertext),
      Session.Reachable Sampler.steady ⟨[two, one], [(one, c)]⟩ ∧ c.contextId = one.id ∧
      c.level ≤ one.topLevel ∧ two.ofBytes c.toBytes = .fail (.contextMismatch two.id one.id) := by
  obtain ⟨one, hone, -, htest₁⟩ := Context.exists_smallest 1
  obtain ⟨two, htwo, -, htest₂⟩ := Context.exists_smallest 2
  -- Both steps are evaluated only to see that the encryption succeeds.
  have hok : ((do
      let ctx ← Context.generate Sampler.steady Context.smallest 1
      Context.encrypt Sampler.steady ctx 0).outcome ()).1.isOk := by decide +kernel
  rw [outcome_bind, show Drawing.outcome _ () = (.ok one, ()) from hone] at hok
  obtain ⟨c, ⟨⟩, hc⟩ := exists_answers_of_isOk hok
  have hreach : Session.Reachable Sampler.steady ⟨[two, one], [(one, c)]⟩ := by
    have hone' := (Reachable.start (S := Sampler.steady)).build hone
    have hboth := hone'.build htwo
    have hoperands : ∀ x ∈ (Call.encrypt 0).operands,
        x ∈ ([] : List (Context × Ciphertext)).map Prod.snd := nofun
    have hanswer : Answers (one.perform Sampler.steady (.encrypt 0)) () c () := hc
    exact hboth.call (by simp) hoperands hanswer
  have htest : ∀ ctx ∈ [two, one], ∀ q ∈ ctx.primes, TestExact q := by
    intro ctx hctx
    simp only [List.mem_cons, List.not_mem_nil, or_false] at hctx
    rcases hctx with rfl | rfl
    exacts [htest₂, htest₁]
  obtain ⟨hnodup, hvalues, hcalls⟩ :=
    reachable_spec Sampler.lawful_steady hreach (show 2 < UInt64.size by decide) htest
  obtain ⟨-, hid, hlevel, -⟩ := hvalues one c List.mem_cons_self
  have hne : one ≠ two := by
    rintro rfl
    simp at hnodup
  exact ⟨one, two, c, hreach, hid, hlevel,
    (hcalls two List.mem_cons_self).2 one c List.mem_cons_self hne⟩

end Session

end EncryptedArithmetic

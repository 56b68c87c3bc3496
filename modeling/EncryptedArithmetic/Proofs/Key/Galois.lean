import EncryptedArithmetic.Key.Galois
import EncryptedArithmetic.Proofs.Key.Generation
import EncryptedArithmetic.Proofs.Ring.Automorphism

/-!
# Public and Galois keys that were drawn

A public key is kept over the data primes. A set of Galois keys holds switching keys only for
elements that have an automorphism, because each key was drawn for the image of the secret.

## Main definitions

* `Sampler.IsError`: errors that a source can give.
* `GaloisKeySet.Usable`: every key of a set hides something and has an element that is accepted.
* `GaloisKeySet.HidesImages`: what it hides is the image of the secret under its element.

## Main results

* `PublicKey.hides_of_generate`: a public key that was drawn.
* `GaloisKeySet.hidesImages_of_generate`: a set of Galois keys that was drawn.
* `GaloisKeySet.elements_of_generate`: it has a key for every element that was asked for and for no
  other.
* `PublicKey.exists_answers_generate` and `GaloisKeySet.exists_answers_generate`: both can be drawn.
-/

namespace EncryptedArithmetic

open Polynomial

variable {σ : Type} {sampler : Sampler σ} {chain : ModulusChain} {secret : SecretKey} {S : ℤ[X]}
  {deviation : Float} {s s' : σ}

/-- A public key that was drawn is kept over the data primes, and it hides an error that the source
gave. -/
theorem PublicKey.hides_of_generate (hsampler : sampler.Lawful) (hc : chain.Sound)
    (hsecret : secret.Holds chain S) {key : PublicKey}
    (h : Answers (PublicKey.generate sampler chain secret deviation) s key s') :
    MaskedPair.Over key (chain.lower chain.topLevel) ∧
      ∃ u, ∀ i t, (chain.lower chain.topLevel)[i]? = some t → MaskedPair.phase key S i t =
        t.ofInt (ofCoefficients (sampler.gaussian chain.degree deviation u).1) := by
  have hm : ∀ t ∈ chain.lower chain.topLevel, t.Sound := fun _ ht => hc.sound_of_mem_lower ht
  have hn : ∀ t ∈ chain.lower chain.topLevel, t.degree = chain.degree := fun _ ht =>
    hc.degree_of_mem_lower ht
  -- The steps of the draw, each compared with what is known to exist.
  simp only [PublicKey.generate, answers_bind, answers_liftM_fault, answers_liftM_result] at h
  obtain ⟨⟨⟩, _, -, a, u, ha, es, v, hes, e, _, ⟨he, rfl⟩, k, _, ⟨hk, rfl⟩, hkey, -⟩ := h
  have hoa := Sampler.over_of_drawPoly hsampler hn ha
  obtain rfl := Sampler.answers_drawGaussian hes
  obtain ⟨e', he', hoe, hie⟩ := ResiduePoly.exists_ofSignedTransformed? hm hn hc.lower_ne_nil
    (hsampler.gaussian_length chain.degree deviation u)
  obtain rfl : e' = e := Except.ok.inj (he'.symm.trans he)
  obtain ⟨k', hk', hok, hik⟩ := hsecret.exists_leading? hc (le_refl chain.topLevel)
  obtain rfl : k' = k := Except.ok.inj (hk'.symm.trans hk)
  obtain ⟨m, hm', hom, hpm⟩ := MaskedPair.exists_ofError? hm hok hoa hoe hik
  obtain rfl : m = key := Except.ok.inj (hm'.symm.trans hkey)
  exact ⟨hom, u, fun i t ht => (hpm i t ht).trans (hie i t ht)⟩

/-- A public key can be drawn for every deviation that is accepted. -/
theorem PublicKey.exists_answers_generate (hsampler : sampler.Lawful) (hc : chain.Sound)
    (hsecret : secret.Holds chain S) (hcount : Sampler.addressable chain.degree)
    (hdeviation : (deviation.isFinite && 0 < deviation) = true) (s : σ) :
    ∃ key s', Answers (PublicKey.generate sampler chain secret deviation) s key s' := by
  have hm : ∀ t ∈ chain.lower chain.topLevel, t.Sound := fun _ ht => hc.sound_of_mem_lower ht
  have hn : ∀ t ∈ chain.lower chain.topLevel, t.degree = chain.degree := fun _ ht =>
    hc.degree_of_mem_lower ht
  have hhead := Sampler.leadingDegree_eq hn hc.lower_ne_nil
  -- Each part is drawn or transformed in turn, and the sampler only needs an addressable degree.
  obtain ⟨a, u, ha⟩ := sampler.exists_answers_drawPoly (ε := KeyError)
    (fun t ht => (hm t ht).prime_pos) (hhead ▸ hcount) s
  obtain ⟨es, v, hes⟩ := sampler.exists_answers_drawGaussian hcount hdeviation u
  have hoa := Sampler.over_of_drawPoly hsampler hn ha
  have hlen : es.length = chain.degree := by
    rw [Sampler.answers_drawGaussian hes, hsampler.gaussian_length]
  obtain ⟨e, he, hoe, -⟩ := ResiduePoly.exists_ofSignedTransformed? hm hn hc.lower_ne_nil hlen
  obtain ⟨k, hk, hok, hik⟩ := hsecret.exists_leading? hc (le_refl chain.topLevel)
  obtain ⟨m, hmask, -⟩ := MaskedPair.exists_ofError? hm hok hoa hoe hik
  refine ⟨m, v, ?_⟩
  simp only [PublicKey.generate, answers_bind, answers_liftM_fault, answers_liftM_result]
  exact ⟨(), s, ⟨if_pos hdeviation, rfl⟩, a, u, ha, es, v, hes, e, v, ⟨he, rfl⟩, k, v, ⟨hk, rfl⟩,
    hmask, rfl⟩

/-- The vector of errors is one that the source can give. -/
def Sampler.IsError (sampler : Sampler σ) (count : ℕ) (deviation : Float) (es : List ℤ) : Prop :=
  ∃ u, es = (sampler.gaussian count deviation u).1

namespace GaloisKeySet

/-- Every key of the set hides something under the secret, and its element is odd and below twice
the degree. -/
def Usable (g : GaloisKeySet) (chain : ModulusChain) (S : ℤ[X]) : Prop :=
  ∀ entry ∈ g.keys, entry.1 % 2 = 1 ∧ entry.1 < 2 * chain.degree ∧
    ∃ target e, entry.2.Hides chain S target e

/-- What a key of the set is for: it hides the image of the secret under the automorphism of its
element, with errors of a given kind. -/
def HidesImages (g : GaloisKeySet) (chain : ModulusChain) (S : ℤ[X]) (drawn : List ℤ → Prop) :
    Prop :=
  ∀ entry ∈ g.keys, entry.1 % 2 = 1 ∧ entry.1 < 2 * chain.degree ∧
    ∃ (target : ResiduePoly) (e : ℕ → List ℤ), (∀ j, drawn (e j)) ∧
      (∀ i t, chain.tables[i]? = some t → target.image i t = t.ofInt (S.comp (X ^ entry.1))) ∧
      entry.2.Hides chain S target fun j => ofCoefficients (e j)

theorem HidesImages.usable {g : GaloisKeySet} {drawn : List ℤ → Prop}
    (hg : g.HidesImages chain S drawn) : g.Usable chain S := by
  intro entry hentry
  obtain ⟨hodd, hlt, target, e, -, -, hhides⟩ := hg entry hentry
  exact ⟨hodd, hlt, target, _, hhides⟩

/-- A key that is put at its place is the only new one. -/
theorem mem_insert {element : ℕ} {key : SwitchingKey} {keys : List (ℕ × SwitchingKey)}
    {entry : ℕ × SwitchingKey} (h : entry ∈ insert element key keys) :
    entry = (element, key) ∨ entry ∈ keys := by
  -- The new entry goes in front of the first larger element, or takes the place of an equal one.
  induction keys with
  | nil => exact .inl (List.mem_singleton.1 h)
  | cons head rest ih =>
    rw [insert] at h
    split at h
    · exact List.mem_cons.1 h
    · split at h
      · rcases List.mem_cons.1 h with h | h
        · exact .inl h
        · exact .inr (List.mem_cons_of_mem head h)
      · rcases List.mem_cons.1 h with rfl | h
        · exact .inr List.mem_cons_self
        · exact (ih h).imp_right (List.mem_cons_of_mem head)

/-- One more key that was drawn hides the image of the secret under its element. -/
theorem hidesImages_of_generateKey (hsampler : sampler.Lawful) (hc : chain.Sound)
    (hsecret : secret.Holds chain S) {g g' : GaloisKeySet} {element : ℕ}
    (hg : g.HidesImages chain S (sampler.IsError chain.degree deviation))
    (h : Answers (generateKey sampler chain secret deviation g element) s g' s') :
    g'.HidesImages chain S (sampler.IsError chain.degree deviation) := by
  simp only [generateKey, answers_bind, answers_pure, answers_liftM_fault] at h
  obtain ⟨target, _, ⟨htarget, rfl⟩, key, _, hkey, rfl, -⟩ := h
  -- The image of the secret exists, so the element was accepted.
  have hdegree := hsecret.poly_over.degree_eq hc.table_degree hc.tables_ne_nil
  have hrange : element % 2 = 1 ∧ element < 2 * chain.degree := by
    rw [ResiduePoly.automorphism?, hdegree] at htarget
    split at htarget
    · assumption
    · cases htarget
  obtain ⟨target', htarget', hot, hit⟩ := ResiduePoly.exists_automorphism? hc.table_sound
    hc.table_degree hc.tables_ne_nil hsecret.poly_over hrange.1 hrange.2
  obtain rfl : target' = target := Except.ok.inj (htarget'.symm.trans htarget)
  obtain ⟨e, hdrawn, hhides⟩ := SwitchingKey.hides_of_generate hsampler hc hsecret hot hkey
  intro entry hentry
  rcases mem_insert hentry with rfl | hentry
  · refine ⟨hrange.1, hrange.2, _, e, hdrawn, fun i t ht => ?_, hhides⟩
    rw [hit i t ht, hsecret.image_eq ht]
    exact NegacyclicRing.substitution_ofInt _ S
  · exact hg entry hentry

/-- The keys of a set that was drawn hide the images of the secret. -/
theorem hidesImages_of_generate (hsampler : sampler.Lawful) (hc : chain.Sound)
    (hsecret : secret.Holds chain S) {g : GaloisKeySet}
    (h : Answers (generate sampler chain secret deviation) s g s') :
    g.HidesImages chain S (sampler.IsError chain.degree deviation) := by
  refine Answers.of_foldlM (P := fun _ g =>
    g.HidesImages chain S (sampler.IsError chain.degree deviation)) (fun hg hkey => ?_) ?_ h
  · exact hidesImages_of_generateKey hsampler hc hsecret hg hkey
  · exact fun _ hentry => absurd hentry List.not_mem_nil

/-- A set of Galois keys that was drawn is usable. -/
theorem usable_of_generate (hsampler : sampler.Lawful) (hc : chain.Sound)
    (hsecret : secret.Holds chain S) {g : GaloisKeySet}
    (h : Answers (generate sampler chain secret deviation) s g s') : g.Usable chain S :=
  (hidesImages_of_generate hsampler hc hsecret h).usable

/-- The entry of an element is one of the set. -/
theorem mem_of_get? {g : GaloisKeySet} {element : ℕ} {key : SwitchingKey}
    (h : g.get? element = some key) : (element, key) ∈ g.keys := by
  obtain ⟨before, behind, hkeys, -⟩ := List.lookup_eq_some_iff.1 h
  exact hkeys ▸ List.mem_append_right before List.mem_cons_self

/-- The key for an element is one of the set. -/
theorem Usable.of_get? {g : GaloisKeySet} (hg : g.Usable chain S) {element : ℕ}
    {key : SwitchingKey} (h : g.get? element = some key) :
    element % 2 = 1 ∧ element < 2 * chain.degree ∧ ∃ target e, key.Hides chain S target e :=
  hg (element, key) (mem_of_get? h)

/-! ### Which elements have a key -/

/-- A key is found for its element once it is put at its place, and the others are found as
before. -/
theorem lookup_insert (element : ℕ) (key : SwitchingKey) (keys : List (ℕ × SwitchingKey)) (k : ℕ) :
    (insert element key keys).lookup k = if k = element then some key else keys.lookup k := by
  induction keys with
  | nil =>
    rw [insert, List.lookup_cons]
    split <;> simp_all
  | cons head rest ih =>
    obtain ⟨element', key'⟩ := head
    rw [insert]
    -- The key is in front, in the place of the head or behind it.
    split
    · rw [List.lookup_cons]
      split <;> simp_all
    · split
      · rename_i heq
        obtain rfl : element = element' := heq
        rw [List.lookup_cons, List.lookup_cons]
        split <;> simp_all
      · rw [List.lookup_cons, List.lookup_cons, ih]
        split
        · -- The element of the head is not that of the key.
          simp_all
          omega
        · rfl

/-- A draw puts one key at its place. -/
theorem exists_eq_insert_of_generateKey {g g' : GaloisKeySet} {element : ℕ}
    (h : Answers (generateKey sampler chain secret deviation g element) s g' s') :
    ∃ key, g' = ⟨insert element key g.keys⟩ := by
  simp only [generateKey, answers_bind, answers_pure] at h
  obtain ⟨target, _, -, key, _, -, rfl, -⟩ := h
  exact ⟨key, rfl⟩

theorem isSome_get?_iff {g : GaloisKeySet} {k : ℕ} : (g.get? k).isSome ↔ k ∈ g.elements := by
  rw [get?, List.lookup_isSome_iff, elements, List.mem_map]
  exact exists_congr fun entry => and_congr_right fun _ => by rw [beq_iff_eq, eq_comm]

/-- A key that is put at its place adds its element. -/
theorem mem_elements_insert {g : GaloisKeySet} {element k : ℕ} {key : SwitchingKey} :
    k ∈ elements ⟨insert element key g.keys⟩ ↔ k = element ∨ k ∈ g.elements := by
  rw [← isSome_get?_iff, ← isSome_get?_iff, get?, get?, lookup_insert]
  split <;> simp_all

/-- A key that is put at its place keeps the order. -/
theorem pairwise_elements_insert {g : GaloisKeySet} {element : ℕ} {key : SwitchingKey}
    (h : g.elements.Pairwise (· < ·)) :
    (elements ⟨insert element key g.keys⟩).Pairwise (· < ·) := by
  obtain ⟨keys⟩ := g
  induction keys with
  | nil => exact List.pairwise_singleton _ _
  | cons head rest ih =>
    obtain ⟨hhead, hrest⟩ := List.pairwise_cons.1 h
    simp only [insert]
    split
    · -- In front of the head it is in front of all the others.
      rename_i hlt
      refine List.pairwise_cons.2 ⟨fun k hk => ?_, h⟩
      rcases List.mem_cons.1 hk with rfl | hk
      · exact hlt
      · exact hlt.trans (hhead k hk)
    · split
      · rename_i heq
        obtain rfl := heq
        exact List.pairwise_cons.2 ⟨hhead, hrest⟩
      · -- The head stays in front of the others, and it is in front of the new one.
        refine List.pairwise_cons.2 ⟨fun k hk => ?_, ih hrest⟩
        rcases (mem_elements_insert (g := ⟨rest⟩)).1 hk with rfl | hk
        · omega
        · exact hhead k hk

/-- The elements of a set that was drawn are those that were asked for, in ascending order. -/
theorem elements_of_generate {g : GaloisKeySet}
    (h : Answers (generate sampler chain secret deviation) s g s') :
    g.elements.Pairwise (· < ·) ∧ ∀ k, k ∈ g.elements ↔ k ∈ keyElements chain.degree := by
  -- The elements that are left and those of the set are together the ones that were asked for.
  have hkept : g.elements.Pairwise (· < ·) ∧
      ∀ k, (k ∈ [] ∨ k ∈ g.elements) ↔ k ∈ keyElements chain.degree := by
    refine Answers.of_foldlM (P := fun requested g => g.elements.Pairwise (· < ·) ∧
      ∀ k, (k ∈ requested ∨ k ∈ g.elements) ↔ k ∈ keyElements chain.degree) (fun hg hkey => ?_)
      ⟨List.Pairwise.nil, fun k => or_iff_left List.not_mem_nil⟩ h
    obtain ⟨hpairwise, hmem⟩ := hg
    obtain ⟨key, rfl⟩ := exists_eq_insert_of_generateKey hkey
    refine ⟨pairwise_elements_insert hpairwise, fun k => ?_⟩
    rw [← hmem, mem_elements_insert, List.mem_cons, or_left_comm, or_assoc]
  exact ⟨hkept.1, fun k => (or_iff_right List.not_mem_nil).symm.trans (hkept.2 k)⟩

/-- The element of a rotation is odd and below twice the degree: reducing modulo an even number
keeps the parity. -/
theorem rotation_spec (step : ℕ) {degree : ℕ} (hdegree : degree ≠ 0) :
    rotation step degree % 2 = 1 ∧ rotation step degree < 2 * degree := by
  induction step with
  | zero =>
    change 1 % 2 = 1 ∧ 1 < 2 * degree
    omega
  | succ step ih =>
    have hsucc : rotation (step + 1) degree = rotation step degree * 5 % (2 * degree) := rfl
    rw [hsucc, Nat.mod_mod_of_dvd _ (Nat.dvd_mul_right 2 degree)]
    exact ⟨by omega, Nat.mod_lt _ (by omega)⟩

/-- Every element that gets a key has an automorphism. -/
theorem mem_keyElements {degree element : ℕ} (hdegree : degree ≠ 0)
    (h : element ∈ keyElements degree) : element % 2 = 1 ∧ element < 2 * degree := by
  rcases List.mem_append.1 h with hrotation | hconjugation
  · obtain ⟨i, -, rfl⟩ := List.mem_map.1 hrotation
    exact rotation_spec _ hdegree
  · rw [List.mem_singleton.1 hconjugation, conjugation]
    omega

/-- The key of an element that has an automorphism can be drawn. -/
theorem exists_answers_generateKey (hsampler : sampler.Lawful) (hc : chain.Sound)
    (hsecret : secret.Holds chain S) (hcount : Sampler.addressable chain.degree)
    (hdeviation : (deviation.isFinite && 0 < deviation) = true) {element : ℕ}
    (hodd : element % 2 = 1) (hlt : element < 2 * chain.degree) (g : GaloisKeySet) (s : σ) :
    ∃ g' s', Answers (generateKey sampler chain secret deviation g element) s g' s' := by
  obtain ⟨target, htarget, hot, -⟩ := ResiduePoly.exists_automorphism? hc.table_sound
    hc.table_degree hc.tables_ne_nil hsecret.poly_over hodd hlt
  obtain ⟨key, s', hkey⟩ :=
    SwitchingKey.exists_answers_generate hsampler hc hsecret hot hcount hdeviation s
  refine ⟨⟨insert element key g.keys⟩, s', ?_⟩
  simp only [generateKey, answers_bind, answers_pure, answers_liftM_fault]
  exact ⟨target, s, ⟨htarget, rfl⟩, key, s', hkey, rfl, rfl⟩

/-- All Galois keys can be drawn. -/
theorem exists_answers_generate (hsampler : sampler.Lawful) (hc : chain.Sound)
    (hsecret : secret.Holds chain S) (hcount : Sampler.addressable chain.degree)
    (hdeviation : (deviation.isFinite && 0 < deviation) = true) (s : σ) :
    ∃ g s', Answers (generate sampler chain secret deviation) s g s' := by
  refine exists_answers_foldlM (fun element helement g s => ?_) (⟨[]⟩ : GaloisKeySet) s
  obtain ⟨hodd, hlt⟩ := mem_keyElements hc.degree_ne_zero helement
  exact exists_answers_generateKey hsampler hc hsecret hcount hdeviation hodd hlt g s

end GaloisKeySet

end EncryptedArithmetic

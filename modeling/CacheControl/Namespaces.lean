import CacheControl.Acceptance
import CacheControl.Memory

/-!
# Namespaces

The bytes that are hashed for a list of namespaces, and what the digest tells of the
list.
-/

open PyText

namespace CacheControl

section

variable [Runtime] {σ τ : Type} {namespaces xs ys : List (Option Str)} {data data' : Bytes}

/-- `namespace_identity` hashes these bytes; where there are no namespaces, it hashes
none. -/
structure HashedFor (namespaces : List (Option Str)) (data : Bytes) : Prop where
  frames : encodeFrames namespaces.reduceOption = .ok data
  identity : namespaceIdentity namespaces =
    .ok (if namespaces.reduceOption = [] then none else some (Runtime.sha256 data))

theorem exists_hashedFor (h : ∀ n ∈ namespaces.reduceOption, Encodable n) :
    ∃ data, HashedFor namespaces data := by
  obtain ⟨data, hdata⟩ := exists_encodeFrames_iff.mpr h
  refine ⟨data, hdata, ?_⟩
  rw [namespaceIdentity, namespaceDigest, hdata]
  split <;> rfl

/-- The length in front of each encoded namespace makes the bytes unambiguous. -/
theorem HashedFor.eq_iff (hx : HashedFor xs data) (hy : HashedFor ys data') :
    data = data' ↔ xs.reduceOption = ys.reduceOption := by
  constructor
  · rintro rfl
    exact encodeFrames_inj hx.frames hy.frames
  · intro hsame
    have hframes := hx.frames
    rw [hsame, hy.frames] at hframes
    exact (Except.ok.inj hframes).symm

theorem namespaceIdentity_eq_none_iff :
    namespaceIdentity namespaces = .ok none ↔ namespaces.reduceOption = [] :=
  namespaceDigest_eq_none_iff

/-! ## Requests -/

variable {g : Gateway σ} {g' : Gateway τ} {fragments fragments' : List Fragment}
  {statuses statuses' : List FragmentStatus} {i j : ℕ} {st st' : FragmentStatus}

/-- A status reports the digest of the namespaces that were supplied up to its position. -/
theorem Reported.digest (h : Reported g fragments statuses) (hat : statuses[i]? = some st) :
    namespaceDigest (namespacesOf (fragments.take (i + 1))) = .ok st.namespaceIdentity := by
  obtain ⟨f, -, ⟨hbare, rfl⟩ | ⟨eff, hgoverns⟩⟩ := h.at_position hat
  · rw [namespacesOf, hbare]
    rfl
  · rw [hgoverns.identity]
    exact namespaceDigest_of_policy hgoverns.policy

theorem Reported.digest_eq_iff (hcf : CollisionFree) (h : Reported g fragments statuses)
    (h' : Reported g' fragments' statuses') (hat : statuses[i]? = some st)
    (hat' : statuses'[j]? = some st') :
    st.namespaceIdentity = st'.namespaceIdentity ↔
      namespacesOf (fragments.take (i + 1)) = namespacesOf (fragments'.take (j + 1)) := by
  have hdigest := h.digest hat
  have hdigest' := h'.digest hat'
  constructor
  · intro hsame
    exact namespaceDigest_inj hcf hdigest (hsame ▸ hdigest')
  · intro hsame
    rw [hsame, hdigest'] at hdigest
    exact (Except.ok.inj hdigest).symm

end

/-- The bytes that are hashed, and without collisions the reported digests, are equal for
equal lists of namespaces only. -/
theorem digest_identifies [Runtime] :
    (∀ xs ys : List (Option Str), (∀ n ∈ xs.reduceOption, Encodable n) →
      (∀ n ∈ ys.reduceOption, Encodable n) → ∃ data data', HashedFor xs data ∧
        HashedFor ys data' ∧ (data = data' ↔ xs.reduceOption = ys.reduceOption)) ∧
    (∀ namespaces : List (Option Str),
      namespaceIdentity namespaces = .ok none ↔ namespaces.reduceOption = []) ∧
    (CollisionFree → ∀ (σ τ : Type) (g : Gateway σ) (g' : Gateway τ) (c c' : Call) (s : σ) (t : τ)
      (r r' : Result), (g.answer c s).1 = .ok r → (g'.answer c' t).1 = .ok r' →
        ∃ ordered ordered', c.ordered = .ok ordered ∧ c'.ordered = .ok ordered' ∧
          ∀ (i j : ℕ) (st st' : FragmentStatus), r.statuses[i]? = some st →
            r'.statuses[j]? = some st' → (st.namespaceIdentity = st'.namespaceIdentity ↔
              namespacesOf (ordered.take (i + 1)) = namespacesOf (ordered'.take (j + 1)))) := by
  refine ⟨fun xs ys hxs hys => ?_, fun _ => namespaceIdentity_eq_none_iff, ?_⟩
  · obtain ⟨data, hdata⟩ := exists_hashedFor hxs
    obtain ⟨data', hdata'⟩ := exists_hashedFor hys
    exact ⟨data, data', hdata, hdata', hdata.eq_iff hdata'⟩
  · intro hcf σ τ g g' c c' s t r r' hanswer hanswer'
    obtain ⟨ordered, -, hordered, -⟩ := loop_of_answer hanswer
    obtain ⟨ordered', -, hordered', -⟩ := loop_of_answer hanswer'
    refine ⟨ordered, ordered', hordered, hordered', fun i j st st' hat hat' => ?_⟩
    exact (reported_of_answer hanswer hordered).digest_eq_iff hcf
      (reported_of_answer hanswer' hordered') hat hat'

section

attribute [local instance] reference

def namespaceText (name : String) : Str :=
  intentDocument (.obj [(lit "version", .int 1), (lit "constraints", .obj
    [(lit "retention", .obj [(lit "mode", .str (lit "allow"))]), (lit "reuse", .str (lit "exact")),
      (lit "share_max", .str (lit "tenant")), (lit "namespace", .str (lit name))])])

/-- Two prompts in these namespaces. -/
def namespaceCall (first second : String) : Call :=
  sampleCall alice 0 [sampleFragment "p" (some (namespaceText first)) none,
    sampleFragment "q" (some (namespaceText second)) none]

/-- The same letters in another split are other bytes and another digest. -/
theorem digest_identifies_namespaceCall :
    (∃ data data', HashedFor [some (lit "a"), none, some (lit "bc")] data ∧
      HashedFor [some (lit "ab"), some (lit "c")] data' ∧ data ≠ data') ∧
    namespaceIdentity [none] = .ok none ∧
    ∃ (r r' : Result) (st st' : FragmentStatus),
      ((inMemoryGateway .bypass).answer (namespaceCall "a" "bc") ∅).1 = .ok r ∧
      ((saltOnlyGateway .reject).answer (namespaceCall "ab" "c") ∅).1 = .ok r' ∧
      r.statuses[1]? = some st ∧ r'.statuses[1]? = some st' ∧
      st.namespaceIdentity ≠ st'.namespaceIdentity := by
  obtain ⟨hbytes, hnone, hrequests⟩ := digest_identifies
  refine ⟨?_, (hnone _).mpr rfl, ?_⟩
  · obtain ⟨data, data', hdata, hdata', hiff⟩ :=
      hbytes [some (lit "a"), none, some (lit "bc")] [some (lit "ab"), some (lit "c")]
        (by simp [List.reduceOption, encodable_lit]) (by simp [List.reduceOption, encodable_lit])
    refine ⟨data, data', hdata, hdata', fun hsame => ?_⟩
    exact absurd (hiff.mp hsame) (by decide +kernel)
  · have hanswers : (((inMemoryGateway .bypass).answer (namespaceCall "a" "bc") ∅).1.toOption.map
          fun r => r.statuses[1]?.isSome) = some true ∧
        (((saltOnlyGateway .reject).answer (namespaceCall "ab" "c") ∅).1.toOption.map
          fun r => r.statuses[1]?.isSome) = some true := by decide +kernel
    obtain ⟨r, hr, hat⟩ := Option.map_eq_some_iff.mp hanswers.1
    obtain ⟨r', hr', hat'⟩ := Option.map_eq_some_iff.mp hanswers.2
    obtain ⟨st, hst⟩ := Option.isSome_iff_exists.mp hat
    obtain ⟨st', hst'⟩ := Option.isSome_iff_exists.mp hat'
    have hanswer := toOption_eq_some_iff.mp hr
    have hanswer' := toOption_eq_some_iff.mp hr'
    obtain ⟨ordered, ordered', ⟨⟩, ⟨⟩, hiff⟩ := hrequests collisionFree_reference _ _ _ _ _ _ _ _ r r'
      hanswer hanswer'
    refine ⟨r, r', st, st', hanswer, hanswer', hst, hst', fun hsame => ?_⟩
    exact absurd ((hiff 1 1 st st' hst hst').mp hsame) (by decide +kernel)

end

end CacheControl

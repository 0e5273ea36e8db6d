import CacheControl.Parse
import CacheControl.Policy
import CacheControl.Reference

/-!
# Composition is a meet

Policies are ordered by what they permit.  Composition takes the greatest lower
bound of its contributors in the product of the three orders, so only the set of
contributors matters for it; the namespace identity alone depends on their order.
-/

open PyText

namespace CacheControl

/-! ## The order of retention -/

namespace Retention

/-- Forbidding is least, and an absent bound is the largest. -/
def ladderIndex : Retention → WithBot (WithTop ℕ)
  | forbid => ⊥
  | allow none => ((⊤ : WithTop ℕ) : WithBot (WithTop ℕ))
  | allow (some m) => ((m : WithTop ℕ) : WithBot (WithTop ℕ))

theorem ladderIndex_injective : Function.Injective ladderIndex := by
  rintro ((_ | m) | _) ((_ | n) | _) h <;> simp_all [ladderIndex]

instance : LinearOrder Retention := LinearOrder.lift' ladderIndex ladderIndex_injective

theorem le_iff_ladderIndex {r s : Retention} : r ≤ s ↔ r.ladderIndex ≤ s.ladderIndex := Iff.rfl

theorem forbid_le (r : Retention) : forbid ≤ r := by
  rw [le_iff_ladderIndex]
  exact bot_le

theorem le_allow_none (r : Retention) : r ≤ allow none := by
  rw [le_iff_ladderIndex]
  rcases r with (_ | m) | _ <;> simp [ladderIndex]

theorem allow_some_le_iff {m n : ℕ} : allow (some m) ≤ allow (some n) ↔ m ≤ n := by
  simp [le_iff_ladderIndex, ladderIndex]

theorem eq_forbid_iff {r : Retention} : r = forbid ↔ r.mode = .forbid := by
  cases r <;> simp

theorem eq_allow_of_mode {r : Retention} (h : r.mode = .allow) : r = allow r.maxAge := by
  cases r with
  | allow m => rfl
  | forbid => cases h

end Retention

/-! ## Grades -/

/-- What a policy permits, apart from its namespaces. -/
abbrev Grade := Retention × Reuse × Share

def Constraints.grade (c : Constraints) : Grade := (c.retention, c.reuse, c.shareMax)

def Effective.grade (eff : Effective) : Grade := (eff.retention, eff.reuse, eff.shareMax)

def grades (cs : List Constraints) : Set Grade := {x | ∃ c ∈ cs, c.grade = x}

theorem grades_append (cs ds : List Constraints) : grades (cs ++ ds) = grades cs ∪ grades ds := by
  ext x
  simp [grades, or_and_right, exists_or]

section

variable [Runtime] {cs ds : List Constraints} {eff eff' : Effective}

theorem Composes.isLeast_retention (h : Composes cs eff) :
    IsLeast {r | ∃ c ∈ cs, c.retention = r} eff.retention := by
  cases hmode : eff.retention.mode with
  | forbid =>
      obtain ⟨c, hc, hforbid⟩ := h.forbids.mp hmode
      rw [Retention.eq_forbid_iff.mpr hmode]
      refine ⟨⟨c, hc, Retention.eq_forbid_iff.mpr hforbid⟩, ?_⟩
      rintro r -
      exact Retention.forbid_le r
  | allow =>
      have hall : ∀ c ∈ cs, c.retention.mode = .allow := by
        intro c hc
        cases hm : c.retention.mode with
        | allow => rfl
        | forbid => cases hmode.symm.trans (h.forbids.mpr ⟨c, hc, hm⟩)
      have hage := h.maxAge hmode
      rw [Retention.eq_allow_of_mode hmode]
      cases hm : eff.retention.maxAge with
      | none =>
          rw [hm] at hage
          obtain ⟨c, hc⟩ := List.exists_mem_of_ne_nil cs h.ne_nil
          refine ⟨⟨c, hc, ?_⟩, ?_⟩
          · rw [Retention.eq_allow_of_mode (hall c hc), hage c hc]
          · rintro r ⟨d, hd, rfl⟩
            rw [Retention.eq_allow_of_mode (hall d hd), hage d hd]
      | some m =>
          rw [hm] at hage
          obtain ⟨c, hc, hcm⟩ := hage.1
          refine ⟨⟨c, hc, ?_⟩, ?_⟩
          · rw [Retention.eq_allow_of_mode (hall c hc), hcm]
          · rintro r ⟨d, hd, rfl⟩
            rw [Retention.eq_allow_of_mode (hall d hd)]
            cases hdm : d.retention.maxAge with
            | none => exact Retention.le_allow_none _
            | some n => exact Retention.allow_some_le_iff.mpr (hage.2 ⟨d, hd, hdm⟩)

theorem Composes.isGLB_grade (h : Composes cs eff) : IsGLB (grades cs) eff.grade := by
  have hfst : Prod.fst '' grades cs = {r | ∃ c ∈ cs, c.retention = r} := by
    ext r
    simp [grades, Constraints.grade]
  have hreuse : Prod.fst '' (Prod.snd '' grades cs) = {r | ∃ c ∈ cs, c.reuse = r} := by
    ext r
    simp [grades, Constraints.grade]
  have hshare : Prod.snd '' (Prod.snd '' grades cs) = {s | ∃ c ∈ cs, c.shareMax = s} := by
    ext s
    simp [grades, Constraints.grade]
  apply isGLB_prod.mpr
  rw [hfst]
  refine ⟨h.isLeast_retention.isGLB, isGLB_prod.mpr ?_⟩
  rw [hreuse, hshare]
  exact ⟨h.reuse.isGLB, h.shareMax.isGLB⟩

/-! ## When composition returns -/

omit [Runtime] in
theorem error_of_encodeFrames {ss : List Str} {e : PyError} (h : encodeFrames ss = .error e) :
    e = .unicodeEncodeError := by
  induction ss with
  | nil => cases h
  | cons s ss ih =>
      unfold encodeFrames encode at h
      cases hs : encode? s with
      | none =>
          rw [hs] at h
          cases h
          rfl
      | some raw =>
          rw [hs] at h
          cases hrest : encodeFrames ss with
          | error e' =>
              rw [hrest] at h
              cases h
              exact ih hrest
          | ok rest =>
              rw [hrest] at h
              cases h

theorem namespaceDigest_cases (xs : List Str) :
    (∃ d, namespaceDigest xs = .ok d) ∧ (∀ n ∈ xs, Encodable n) ∨
      namespaceDigest xs = .error .unicodeEncodeError ∧ ¬ ∀ n ∈ xs, Encodable n := by
  unfold namespaceDigest
  split
  · rename_i hnil
    subst hnil
    exact .inl ⟨⟨none, rfl⟩, by simp⟩
  · rw [← exists_encodeFrames_iff]
    cases h : encodeFrames xs with
    | ok data => exact .inl ⟨⟨_, rfl⟩, data, rfl⟩
    | error e =>
        rw [error_of_encodeFrames h]
        exact .inr ⟨rfl, by simp⟩

/-- Every namespace that the constraints supply can be encoded. -/
def NamespacesEncodable (cs : List Constraints) : Prop :=
  ∀ c ∈ cs, ∀ n, c.ns = some n → Encodable n

omit [Runtime] in
theorem namespacesEncodable_iff {cs : List Constraints} : NamespacesEncodable cs ↔
    ∀ n ∈ cs.filterMap Constraints.ns, Encodable n := by
  simp only [NamespacesEncodable, List.mem_filterMap]
  constructor
  · rintro h n ⟨c, hc, hn⟩
    exact h c hc n hn
  · intro h c hc n hn
    exact h n ⟨c, hc, hn⟩

theorem compose_cases (hne : cs ≠ []) :
    (∃ eff, compose cs = .ok eff) ∧ NamespacesEncodable cs ∨
      compose cs = .error .unicodeEncodeError ∧ ¬ NamespacesEncodable cs := by
  rw [namespacesEncodable_iff]
  cases cs with
  | nil => exact absurd rfl hne
  | cons c cs =>
      rw [compose, namespaceIdentity_map_some]
      rcases namespaceDigest_cases ((c :: cs).filterMap Constraints.ns) with
        ⟨⟨d, hd⟩, henc⟩ | ⟨hd, hnot⟩
      · rw [hd]
        exact .inl ⟨⟨_, rfl⟩, henc⟩
      · rw [hd]
        exact .inr ⟨rfl, hnot⟩

theorem policy_of_constraintsOf {p : List Fragment} (hcs : constraintsOf p = some cs)
    (hencodable : NamespacesEncodable cs) :
    constraintsOf p = some [] ∨ ∃ eff, policy p = some eff := by
  by_cases hnil : cs = []
  · exact .inl (by rw [hcs, hnil])
  · rcases compose_cases hnil with ⟨⟨eff, hcompose⟩, -⟩ | ⟨-, hnot⟩
    · exact .inr ⟨eff, policy_eq_some_iff.mpr ⟨cs, hcs, hcompose⟩⟩
    · exact absurd hencodable hnot

/-- In front of a fragment with a policy every prefix has one, or no intent at all. -/
theorem policy_of_prefix {p q : List Fragment} (h : policy q = some eff) (hp : p <+: q) :
    constraintsOf p = some [] ∨ ∃ eff, policy p = some eff := by
  obtain ⟨ds, hds, hcompose⟩ := policy_eq_some_iff.mp h
  have hencodable : NamespacesEncodable ds := by
    rcases compose_cases (composes_of_compose hcompose).ne_nil with ⟨-, henc⟩ | ⟨herror, -⟩
    · exact henc
    · cases hcompose.symm.trans herror
  obtain ⟨r, rfl⟩ := hp
  rw [constraintsOf_append] at hds
  obtain ⟨cs, hcs, hds⟩ := Option.bind_eq_some_iff.mp hds
  obtain ⟨es, -, rfl⟩ := Option.map_eq_some_iff.mp hds
  exact policy_of_constraintsOf hcs fun c hc => hencodable c (List.mem_append_left es hc)

theorem compose_append (h : compose cs = .ok eff) (h' : compose ds = .ok eff') :
    ∃ both, compose (cs ++ ds) = .ok both := by
  have hcs := (composes_of_compose h).ne_nil
  have hds := (composes_of_compose h').ne_nil
  have henc : ∀ {es : List Constraints} {e : Effective}, es ≠ [] → compose es = .ok e →
      NamespacesEncodable es := by
    intro es e hes he
    rcases compose_cases hes with ⟨-, henc⟩ | ⟨herror, -⟩
    · exact henc
    · cases he.symm.trans herror
  have hne : cs ++ ds ≠ [] := by simp [hcs]
  rcases compose_cases hne with ⟨hboth, -⟩ | ⟨-, hnot⟩
  · exact hboth
  · exfalso
    apply hnot
    intro c hc
    rcases List.mem_append.mp hc with hc | hc
    · exact henc hcs h c hc
    · exact henc hds h' c hc

end

/-- The policy `eff` is the greatest that no contributor rules out, and its
identity is that of all namespaces in order. -/
structure IsMeet [Runtime] (cs : List Constraints) (eff : Effective) : Prop where
  below : ∀ c ∈ cs, eff.grade ≤ c.grade
  greatest : ∀ x : Grade, (∀ c ∈ cs, x ≤ c.grade) → x ≤ eff.grade
  identity : namespaceDigest (cs.filterMap Constraints.ns) = .ok eff.namespaceIdentity
  supplied : eff.namespaceIdentity.isSome = true ↔ ∃ c ∈ cs, c.ns.isSome = true

theorem Composes.isMeet [Runtime] {cs : List Constraints} {eff : Effective} (h : Composes cs eff) :
    IsMeet cs eff := by
  refine ⟨fun c hc => h.isGLB_grade.1 ⟨c, hc, rfl⟩, fun x hx => h.isGLB_grade.2 ?_,
    h.namespaceIdentity, ?_⟩
  · rintro y ⟨c, hc, rfl⟩
    exact hx c hc
  · have hdigest := h.namespaceIdentity
    unfold namespaceDigest at hdigest
    split at hdigest
    · rename_i hnil
      rw [List.filterMap_eq_nil_iff] at hnil
      rw [← Except.ok.inj hdigest]
      simp only [Option.isSome_none, Bool.false_eq_true, false_iff, not_exists, not_and]
      intro c hc
      simp [hnil c hc]
    · rename_i hne
      obtain ⟨data, -, hsome⟩ := bind_eq_ok_iff.mp hdigest
      rw [← Except.ok.inj hsome]
      simp only [Option.isSome_some, true_iff]
      by_contra hno
      apply hne
      rw [List.filterMap_eq_nil_iff]
      intro c hc
      by_contra hcns
      exact hno ⟨c, hc, Option.isSome_iff_ne_none.mpr hcns⟩

/-- Composition returns when all namespaces can be encoded, and then the meet of
its contributors: composing two lists together takes the meet of their results,
whatever the order and however often a contributor occurs. -/
theorem compose_isMeet [Runtime] :
    (∀ cs, cs ≠ [] → (∃ eff, compose cs = .ok eff) ∧ NamespacesEncodable cs ∨
      compose cs = .error .unicodeEncodeError ∧ ¬ NamespacesEncodable cs) ∧
    (∀ cs eff, compose cs = .ok eff → IsMeet cs eff) ∧
    (∀ xs ys ex ey, compose xs = .ok ex → compose ys = .ok ey →
      ∃ e, compose (xs ++ ys) = .ok e ∧ e.grade = ex.grade ⊓ ey.grade) ∧
    (∀ xs ys ex ey, compose xs = .ok ex → compose ys = .ok ey → (∀ c, c ∈ xs ↔ c ∈ ys) →
      ex.grade = ey.grade) ∧
    ∀ xs ys ex e, compose xs = .ok ex → compose (xs ++ ys) = .ok e → e.grade ≤ ex.grade := by
  refine ⟨fun cs => compose_cases, fun cs eff h => (composes_of_compose h).isMeet,
    fun xs ys ex ey hx hy => ?_, fun xs ys ex ey hx hy hsame => ?_, fun xs ys ex e hx he => ?_⟩
  · obtain ⟨e, he⟩ := compose_append hx hy
    have hboth := (composes_of_compose he).isGLB_grade
    rw [grades_append] at hboth
    exact ⟨e, he, hboth.unique
      ((composes_of_compose hx).isGLB_grade.union (composes_of_compose hy).isGLB_grade)⟩
  · have hgrades : grades xs = grades ys := by
      ext x
      simp [grades, hsame]
    have hglb := (composes_of_compose hx).isGLB_grade
    rw [hgrades] at hglb
    exact hglb.unique (composes_of_compose hy).isGLB_grade
  · apply (composes_of_compose hx).isGLB_grade.2
    rintro x ⟨c, hc, rfl⟩
    exact (composes_of_compose he).isGLB_grade.1 ⟨c, by simp [hc], rfl⟩

section

attribute [local instance] reference

/-- A namespace that is a string of one lone surrogate. -/
def surrogateConstraints : Value :=
  .obj [(lit "retention", .obj [(lit "mode", .str (lit "allow"))]),
    (lit "reuse", .str (lit "exact")), (lit "share_max", .str (lit "tenant")),
    (lit "namespace", .str [.surrogate 0])]

/-- On constraints that the schema accepts composition can raise. -/
theorem not_compose_isMeet :
    ¬ ∀ (v : Value) (c : Constraints), decodeConstraints v = some c →
      ∃ eff, compose [c] = .ok eff ∧ IsMeet [c] eff := by
  intro h
  have hraises : (decodeConstraints surrogateConstraints).any (fun c => !(compose [c]).isOk) =
      true := by decide +kernel
  obtain ⟨c, hc, hnot⟩ := (Option.any_eq_true _ _).mp hraises
  obtain ⟨eff, heff, -⟩ := h surrogateConstraints c hc
  rw [heff] at hnot
  cases hnot

end

end CacheControl

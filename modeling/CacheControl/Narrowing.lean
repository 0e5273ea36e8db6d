import CacheControl.Acceptance
import CacheControl.Enforcement

/-!
# Sharing only narrows

From the first intent of a request on, no fragment is shared more widely than one
in front of it, and what is kept to the request is published with nothing that
depends on it.  In front of the first intent there is no policy to narrow.
-/

open PyText

namespace CacheControl

section

variable [Runtime] {σ : Type} {g : Gateway σ} {c : Call} {s : σ} {fragments : List Fragment}
  {i j : ℕ} {st st' : FragmentStatus}

/-- A fragment up to position `i` carries an intent. -/
def GovernedAt (fragments : List Fragment) (i : ℕ) : Prop :=
  ∃ f ∈ fragments.take (i + 1), f.intentJson ≠ none

def Access.publishes : Access → Bool
  | .get _ _ => false
  | .put _ _ _ _ => true

theorem shared_of_publishes {v : Event (σ × List Access)} (h : Follows v.done v.acc) {a : Access}
    (ha : a ∈ v.accesses g) (hput : a.publishes) :
    ∃ eff, policy v.sent = some eff ∧ eff.shareMax ≠ .request := by
  obtain ⟨eff, hpolicy, -, hshared⟩ := of_mem_accesses
    (P := fun eff a => a.publishes → eff.shareMax ≠ .request) (fun _ _ _ hput => by cases hput)
    (fun _ _ _ _ _ hshare _ => hshare) h ha
  exact ⟨eff, hpolicy, hshared hput⟩

theorem shareMax_anti_of_prefix {p q : List Fragment} {eff eff' : Effective} (hp : p <+: q)
    (h : policy p = some eff) (h' : policy q = some eff') : eff'.shareMax ≤ eff.shareMax := by
  obtain ⟨cs, hcs, hcomposes⟩ := composes_of_policy h
  obtain ⟨ds, hds, hcomposes'⟩ := composes_of_policy h'
  exact hcomposes.shareMax_anti hcomposes' (constraintsOf_subset hp hcs hds)

theorem GovernedAt.mono (h : GovernedAt fragments i) (hij : i ≤ j) : GovernedAt fragments j := by
  obtain ⟨f, hf, hcarries⟩ := h
  have hprefix : fragments.take (i + 1) <+: fragments.take (j + 1) :=
    List.take_prefix_take_left (by omega)
  exact ⟨f, hprefix.subset hf, hcarries⟩

theorem Reported.governs_at {statuses : List FragmentStatus} (h : Reported g fragments statuses)
    (hat : statuses[i]? = some st) (hgov : GovernedAt fragments i) :
    ∃ eff, Governs g (fragments.take (i + 1)) st eff := by
  obtain ⟨f, -, ⟨hbare, -⟩ | hgoverns⟩ := h.at_position hat
  · obtain ⟨f', hf', hcarries⟩ := hgov
    exact absurd (constraintsOf_ne_nil hbare f' hf') hcarries
  · exact hgoverns

theorem constraintsOf_of_bare {p : List Fragment} (h : ∀ f ∈ p, f.intentJson = none) :
    constraintsOf p = some [] := by
  induction p with
  | nil => rfl
  | cons f p ih =>
      have hf := h f (by simp)
      rw [constraintsOf, hf]
      exact ih fun f' hf' => h f' (by simp [hf'])

/-- What is reported of the sharing of a request, and what is published for it. -/
structure SharingNarrows (g : Gateway σ) (c : Call) (s : σ) (ordered : List Fragment)
    (statuses : List FragmentStatus) : Prop where
  recorded : Prog.Sim (fun s t => t.1 = s) (g.answer c) (g.recorded.answer c)
  onBehalf : (g.recorded.answer c (s, [])).2.2 =
    (g.recorded.trace [c] (s, [])).flatMap (Event.accesses g)
  narrows : ∀ i j st st', i < j → GovernedAt ordered i → statuses[i]? = some st →
    statuses[j]? = some st' → st'.effectiveShare ≤ st.effectiveShare
  unpublished : ∀ i st, GovernedAt ordered i → statuses[i]? = some st →
    st.effectiveShare = .request → ∀ v ∈ g.recorded.trace [c] (s, []), i < v.sent.length →
      ∀ a ∈ v.accesses g, ¬ a.publishes
  leading : ∀ i f, ¬ GovernedAt ordered i → ordered[i]? = some f →
    statuses[i]? = some (Gateway.bareStatus f) ∧
      ∀ v ∈ g.recorded.trace [c] (s, []), v.sent.length = i + 1 → v.accesses g = []

theorem sent_eq_take {v : Event (σ × List Access)} {n : ℕ} (hsent : v.sent <+: fragments)
    (hlen : v.sent.length = n) : v.sent = fragments.take n := by
  rw [List.prefix_iff_eq_take.mp hsent, hlen]

theorem Reported.sharingNarrows {r : Result} (h : Reported g fragments r.statuses)
    (hord : c.ordered = .ok fragments) : SharingNarrows g c s fragments r.statuses := by
  have hsent : ∀ v ∈ g.recorded.trace [c] (s, []), v.sent <+: fragments := fun v hv => by
    obtain ⟨ordered, hordered, hprefix⟩ := sent_prefix_of_mem hv
    cases hord.symm.trans hordered
    exact hprefix
  refine ⟨sim_recorded g c, ?_, ?_, ?_, ?_⟩
  · have hrun := record_eq g [c] (s, [])
    rwa [List.nil_append] at hrun
  · intro i j st st' hij hgov hi hj
    obtain ⟨eff, hgoverns⟩ := h.governs_at hi hgov
    obtain ⟨eff', hgoverns'⟩ := h.governs_at hj (hgov.mono hij.le)
    rw [hgoverns.share, hgoverns'.share]
    exact shareMax_anti_of_prefix (List.take_prefix_take_left (by omega)) hgoverns.policy
      hgoverns'.policy
  · intro i st hgov hi hrequest v hv hlt a ha hput
    obtain ⟨eff, hgoverns⟩ := h.governs_at hi hgov
    obtain ⟨eff', hpolicy, hshared⟩ := shared_of_publishes (follows_of_mem hv) ha hput
    have hprefix : fragments.take (i + 1) <+: v.sent := by
      rw [sent_eq_take (hsent v hv) rfl]
      exact List.take_prefix_take_left hlt
    have hle := shareMax_anti_of_prefix hprefix hgoverns.policy hpolicy
    rw [← hgoverns.share, hrequest] at hle
    exact hshared (le_antisymm hle (Share.request_le _))
  · intro i f hnot hf
    have hbare : constraintsOf (fragments.take (i + 1)) = some [] := by
      refine constraintsOf_of_bare fun f' hf' => ?_
      by_contra hcarries
      exact hnot ⟨f', hf', hcarries⟩
    have hnone := policy_eq_none_of_bare hbare
    obtain ⟨hlt, -⟩ := List.getElem?_eq_some_iff.mp hf
    have hlt' : i < r.statuses.length := h.length_eq ▸ hlt
    have hat : r.statuses[i]? = some r.statuses[i] := List.getElem?_eq_getElem hlt'
    refine ⟨?_, fun v hv hlen => ?_⟩
    · obtain ⟨f', hf', ⟨-, hst⟩ | ⟨eff, hgoverns⟩⟩ := h.at_position hat
      · cases hf.symm.trans hf'
        rw [hat, hst]
      · cases hnone.symm.trans hgoverns.policy
    · rw [← sent_eq_take (hsent v hv) hlen] at hnone
      rw [List.eq_nil_iff_forall_not_mem]
      intro a ha
      obtain ⟨eff, hpolicy, -⟩ := carries_of_mem_accesses (follows_of_mem hv) ha
      cases hnone.symm.trans hpolicy

end

/-- Behind the first intent the reported boundaries never widen, and nothing is
published that depends on a fragment kept to the request. -/
theorem sharing_narrows [Runtime] {σ : Type} (g : Gateway σ) (c : Call) (s : σ) {r : Result}
    (h : (g.answer c s).1 = .ok r) :
    ∃ ordered, c.ordered = .ok ordered ∧ SharingNarrows g c s ordered r.statuses := by
  obtain ⟨ordered, t, hord, -⟩ := loop_of_answer h
  exact ⟨ordered, hord, (reported_of_answer h hord).sharingNarrows hord⟩

section

attribute [local instance] reference

/-- A bare fragment in front of a public one. -/
def leadingBareCall : Call :=
  sampleCall alice 0 [sampleFragment "hi" none none,
    sampleFragment "sys" (some (intentText (.allow none) "exact" "public")) none,
    sampleFragment "user" none none]

theorem exists_ok {α ε : Type} {x : Except ε α} (h : x.toBool = true) : ∃ a, x = .ok a := by
  cases x with
  | ok a => exact ⟨a, rfl⟩
  | error e => cases h

theorem exists_answer_leadingBareCall :
    ∃ r, ((inMemoryGateway .bypass).answer leadingBareCall ∅).1 = .ok r :=
  exists_ok (by decide +kernel)

theorem sharing_narrows_leadingBareCall : ∃ r ordered,
    ((inMemoryGateway .bypass).answer leadingBareCall ∅).1 = .ok r ∧
      SharingNarrows (inMemoryGateway .bypass) leadingBareCall ∅ ordered r.statuses := by
  obtain ⟨r, hr⟩ := exists_answer_leadingBareCall
  obtain ⟨ordered, -, hnarrows⟩ := sharing_narrows (inMemoryGateway .bypass) leadingBareCall ∅ hr
  exact ⟨r, ordered, hr, hnarrows⟩

/-- The leading fragment is reported as kept to the request, and is part of what the
public fragment behind it publishes. -/
theorem not_sharing_narrows :
    (¬ ∀ (mode : OnUnenforceable) (c : Call) (s : Entries) (r : Result),
      ((inMemoryGateway mode).answer c s).1 = .ok r →
        ∀ (i j : ℕ) (st st' : FragmentStatus), i < j → r.statuses[i]? = some st →
          r.statuses[j]? = some st' → st'.effectiveShare ≤ st.effectiveShare) ∧
    ¬ ∀ (mode : OnUnenforceable) (c : Call) (s : Entries) (r : Result),
      ((inMemoryGateway mode).answer c s).1 = .ok r →
        ∀ (i : ℕ) (st : FragmentStatus), r.statuses[i]? = some st → st.effectiveShare = .request →
          st.retention = .declined ∨ st.retention = .forbidden →
            ∀ v ∈ (inMemoryGateway mode).recorded.trace [c] (s, []), i < v.sent.length →
              ∀ a ∈ v.accesses (inMemoryGateway mode), ¬ a.publishes := by
  obtain ⟨r, hr⟩ := exists_answer_leadingBareCall
  have hshares : (((inMemoryGateway .bypass).answer leadingBareCall ∅).1.map fun r =>
      r.statuses.map fun st => (st.effectiveShare, st.retention)).toOption =
        some [(.request, .declined), (.public, .retained), (.public, .retained)] := by
    decide +kernel
  rw [hr, toOption_eq_some_iff] at hshares
  have hstatuses : r.statuses.map (fun st => (st.effectiveShare, st.retention)) =
      [(.request, .declined), (.public, .retained), (.public, .retained)] :=
    Except.ok.inj hshares
  have hat : ∀ i x, ([(.request, .declined), (.public, .retained), (.public, .retained)] :
      List (Share × RetentionStatus))[i]? = some x →
        ∃ st : FragmentStatus, r.statuses[i]? = some st ∧
          (st.effectiveShare, st.retention) = x := fun i x hx => by
    rw [← hstatuses, List.getElem?_map] at hx
    exact Option.map_eq_some_iff.mp hx
  obtain ⟨st, hst, hfirst⟩ := hat 0 _ rfl
  obtain ⟨st', hst', hsecond⟩ := hat 1 _ rfl
  obtain ⟨hshare, hretention⟩ := Prod.mk.inj hfirst
  obtain ⟨hshare', -⟩ := Prod.mk.inj hsecond
  constructor
  · intro h
    have hle := h .bypass leadingBareCall ∅ r hr 0 1 st st' (by decide) hst hst'
    rw [hshare, hshare'] at hle
    revert hle
    decide
  · intro h
    have hpublished : ∃ v ∈ (inMemoryGateway .bypass).recorded.trace [leadingBareCall] (∅, []),
        0 < v.sent.length ∧ ∃ a ∈ v.accesses (inMemoryGateway .bypass), a.publishes = true := by
      decide +kernel
    obtain ⟨v, hv, hlt, a, ha, hput⟩ := hpublished
    exact h .bypass leadingBareCall ∅ r hr 0 st hst hshare (.inl hretention) v hv hlt a ha hput

end

end CacheControl

import CacheControl.Memory
import CacheControl.Submissions

/-!
# Forbidden retention

A status says `forbidden` where the policy of its prefix forbids retention,
except on the one path that does not ask the policy: state that is found under
the exact key is reported as retained.
-/

open PyText

namespace CacheControl

section

variable [Runtime] {σ : Type} {g : Gateway σ} {p : List Fragment} {f : Fragment}
  {st : FragmentStatus} {eff : Effective} {v : Event σ} {s t : σ}

/-- Retention is reported as forbidden exactly when an intent of the prefix forbids
it. -/
def ForbiddenTrue (p : List Fragment) (st : FragmentStatus) : Prop :=
  st.retention = .forbidden ↔ ∃ cs, Supplies p cs ∧ cs.retention.mode = .forbid

/-- The policy forbids retention and permits reuse, and the backend has an entry
under the exact key of the prefix. -/
def FindsForbidden (g : Gateway σ) (v : Event σ) : Prop :=
  ∃ eff k e t, policy v.sent = some eff ∧ checkEnforceable g.backend.capabilities eff = .ok () ∧
    eff.retention.mode = .forbid ∧ eff.reuse ≠ .none ∧ g.backend.observesOutcomes = true ∧
    cacheKey execution (contentsOf v.sent) (namespacesOf v.sent) (v.partition eff) true = .ok k ∧
    g.backend.get k v.call.now v.state = (.ok (some e), t)

theorem forbids_iff (h : policy p = some eff) :
    eff.retention.mode = .forbid ↔ ∃ cs, Supplies p cs ∧ cs.retention.mode = .forbid := by
  obtain ⟨ds, hds, hcomposes⟩ := composes_of_policy h
  rw [hcomposes.forbids]
  simp only [supplies_iff hds]

/-- The five ways to a retention status, and the one that goes wrong. -/
theorem forbiddenTrue_iff (hfollows : Follows v.done v.acc) (hst : v.status g = some st)
    (hpolicy : policy v.sent = some eff) :
    ForbiddenTrue v.sent st ↔ ¬ FindsForbidden g v := by
  have hfinds : FindsForbidden g v → ∃ k e t,
      checkEnforceable g.backend.capabilities eff = .ok () ∧ eff.retention.mode = .forbid ∧
      eff.reuse ≠ .none ∧ g.backend.observesOutcomes = true ∧
      cacheKey execution (contentsOf v.sent) (namespacesOf v.sent) (v.partition eff) true = .ok k ∧
      g.backend.get k v.call.now v.state = (.ok (some e), t) := by
    rintro ⟨eff', k, e, t, hpolicy', hrest⟩
    cases hpolicy.symm.trans hpolicy'
    exact ⟨k, e, t, hrest⟩
  unfold ForbiddenTrue
  rw [← forbids_iff hpolicy]
  cases reports_of_status hfollows hst with
  | bare hcs => cases hpolicy.symm.trans (policy_eq_none_of_bare hcs)
  | bypassed hints eff' e hpolicy' hcheck hmode =>
      cases hpolicy.symm.trans hpolicy'
      have hnot : ¬ FindsForbidden g v := by
        intro h
        obtain ⟨k, e', t, hcheck', -⟩ := hfinds h
        cases hcheck.symm.trans hcheck'
      refine ⟨fun _ => hnot, fun _ => ?_⟩
      by_cases hforbid : eff.retention.mode = .forbid <;> simp [Gateway.statusOf, hforbid]
  | served hints eff' o a r t hpolicy' hcheck hlookup hretain =>
      cases hpolicy.symm.trans hpolicy'
      have hr := retention_of_retain hretain
      have hresolves := resolves_of_resolve hlookup
      have hhit : FindsForbidden g v ↔ eff.retention.mode = .forbid ∧ o = .exactHit := by
        constructor
        · intro h
          obtain ⟨k, e, u, -, hforbid, hreuse, hobs, hk, hget⟩ := hfinds h
          refine ⟨hforbid, ?_⟩
          cases hresolves with
          | unobserved hnot => rw [hobs] at hnot; cases hnot
          | bypass _ hnone => exact absurd hnone hreuse
          | exactHit => rfl
          | approximateHit k' c dk e' u' _ _ _ hk' _ hget' =>
              cases hk.symm.trans hk'
              cases hget.symm.trans hget'
          | missDonor k' c dk u' _ _ _ hk' _ hget' =>
              cases hk.symm.trans hk'
              cases hget.symm.trans hget'
          | miss k' _ _ _ hk' hget' =>
              cases hk.symm.trans hk'
              cases hget.symm.trans hget'
        · rintro ⟨hforbid, rfl⟩
          cases hresolves with
          | exactHit k e hobs hreuse hk hget =>
              exact ⟨eff, k, e, t, hpolicy, hcheck, hforbid, hreuse, hobs, hk, hget⟩
      have hreported : (Gateway.statusOf v.item eff hints o r
          (!(v.acc.taintedApproximate || a))).retention = r := rfl
      rw [hhit, hreported, hr, retentionOf_eq_forbidden_iff]
      tauto

/-! ## After the lowering -/

/-- Lowering keeps a request with a forbidding policy to itself and reports it
anew, so nothing is left of what was found. -/
theorem forbiddenTrue_lowerStatus {fragments : List Fragment} {b : Share}
    (hgoverns : Governs g p st eff) (hp : p <+: fragments)
    (hboundary : IsBoundary g.backend.capabilities fragments b)
    (hforbidden : st.retention = .forbidden → eff.retention.mode = .forbid) :
    ForbiddenTrue p (lowerStatus b st) := by
  unfold ForbiddenTrue
  rw [← forbids_iff hgoverns.policy]
  obtain ⟨-, hlowered⟩ := lowerStatus_governs hgoverns b
  by_cases hb : b = .request
  · rw [(hlowered hb).2]
    by_cases hmode : eff.retention.mode = .forbid <;> simp [hmode]
  · have hallow : eff.retention.mode ≠ .forbid := by
      intro hmode
      obtain ⟨cs, ⟨f, hf, hsupplied⟩, hforbid⟩ := (forbids_iff hgoverns.policy).mp hmode
      exact hb (hboundary.kept (.inr ⟨cs, ⟨f, hp.subset hf, hsupplied⟩, .inr (.inl hforbid)⟩))
    have hkeep : (lowerStatus b st).retention = st.retention := by
      unfold lowerStatus
      rw [if_neg hb]
    rw [hkeep]
    exact ⟨hforbidden, fun hmode => absurd hmode hallow⟩

theorem forbids_of_forbidden (hfollows : Follows v.done v.acc) (hst : v.status g = some st)
    (hpolicy : policy v.sent = some eff) (hforbidden : st.retention = .forbidden) :
    eff.retention.mode = .forbid := by
  cases reports_of_status hfollows hst with
  | bare hcs => cases hpolicy.symm.trans (policy_eq_none_of_bare hcs)
  | bypassed hints eff' e hpolicy' hcheck hmode =>
      cases hpolicy.symm.trans hpolicy'
      by_contra hallow
      simp [Gateway.statusOf, hallow] at hforbidden
  | served hints eff' o a r t hpolicy' hcheck hlookup hretain =>
      cases hpolicy.symm.trans hpolicy'
      have hr := (retention_of_retain hretain).symm.trans hforbidden
      exact (retentionOf_eq_forbidden_iff.mp hr).1

theorem forbiddenTrue_of_submit {x : Submission} {upstream : List (Str × Value)} {result : Result}
    (h : g.submit x s = (.ok (.accepted upstream result), t)) :
    ∃ members fragments, readBody x.body = .ok (members, fragments) ∧
      ∀ v ∈ g.trace [callFor fragments x.auth x.now x.requestId] s, ∀ eff,
        policy v.sent = some eff → ∃ st, result.statuses[v.done.length]? = some st ∧
          (ForbiddenTrue v.sent st ↔ ¬ (g.backend.saltFor = none ∧ FindsForbidden g v)) := by
  obtain ⟨members, fragments, r, hread, hhandled, hfinish⟩ := handled_of_accepted h
  have hanswer := congrArg Prod.fst hhandled
  have hord := ordered_callFor hanswer
  have hreported := reported_of_answer hanswer hord
  refine ⟨members, fragments, hread, fun v hv eff hpolicy => ?_⟩
  have hfollows := follows_of_mem hv
  obtain ⟨ordered, hord', hsent⟩ := sent_prefix_of_mem hv
  cases hord.symm.trans hord'
  obtain ⟨st, hat, hcases⟩ := hreported.status v.done v.item hsent
  have hst : v.status g = some st := by rw [← status_of_event hanswer hv, hat]
  have hgoverns : Governs g v.sent st eff := by
    rcases hcases with ⟨hbare, -⟩ | ⟨eff', hgoverns⟩
    · cases hpolicy.symm.trans (policy_eq_none_of_bare hbare)
    · cases hpolicy.symm.trans hgoverns.policy
      exact hgoverns
  cases hsalt : g.backend.saltFor with
  | none =>
      cases finished_of_finish hfinish with
      | unsalted => exact ⟨st, hat, by simpa using forbiddenTrue_iff hfollows hst hpolicy⟩
      | salted saltFor status governed salt hsome => cases hsalt.symm.trans hsome
  | some saltFor =>
      have hmem : st ∈ r.statuses.filter FragmentStatus.isGoverned :=
        List.mem_filter.mpr ⟨List.mem_of_getElem? hat, hgoverns.isGoverned⟩
      obtain ⟨init, last, whole, hfilter, hlast⟩ :=
        hreported.exists_last (exists_intent_of_policy hpolicy hsent)
      cases finished_of_finish hfinish with
      | unsalted hnone =>
          rcases hnone with hnone | hnone
          · cases hsalt.symm.trans hnone
          · rw [hnone] at hmem
            cases hmem
      | salted saltFor' status governed salt hsome hcons hsaltFor =>
          have hboundary := isBoundary_narrowestShare hreported hfilter hlast
            (hfilter.symm.trans hcons)
          refine ⟨lowerStatus (narrowestShare status governed) st, ?_, ?_⟩
          · simp [hat, hgoverns.isGoverned]
          · have htrue := forbiddenTrue_lowerStatus hgoverns hsent hboundary
              (forbids_of_forbidden hfollows hst hpolicy)
            simp [htrue]

end

/-- Whatever came before, a governed fragment's status tells whether its policy
forbids retention, unless that policy permits reuse and the state was found.  A
request that is lowered onto one salt is always told right. -/
theorem forbidden_reported_iff [Runtime] {σ : Type} (g : Gateway σ) (s : σ) :
    (∀ calls, ∀ v ∈ g.trace calls s, ∀ st eff, v.status g = some st → policy v.sent = some eff →
      (ForbiddenTrue v.sent st ↔ ¬ FindsForbidden g v)) ∧
    ∀ x upstream result t, g.submit x s = (.ok (.accepted upstream result), t) →
      ∃ members fragments, readBody x.body = .ok (members, fragments) ∧
        ∀ v ∈ g.trace [callFor fragments x.auth x.now x.requestId] s, ∀ eff,
          policy v.sent = some eff → ∃ st, result.statuses[v.done.length]? = some st ∧
            (ForbiddenTrue v.sent st ↔ ¬ (g.backend.saltFor = none ∧ FindsForbidden g v)) :=
  ⟨fun _ _ hv _ _ hst hpolicy => forbiddenTrue_iff (follows_of_mem hv) hst hpolicy,
    fun _ _ _ _ h => forbiddenTrue_of_submit h⟩

section

attribute [local instance] reference

def warmingCall : Call :=
  sampleCall alice 0 [sampleFragment "a" (some (intentText (.allow none) "exact" "tenant")) none]

/-- The same text under an intent that forbids to retain it. -/
def forbiddingCall : Call :=
  sampleCall alice 1 [sampleFragment "a" (some (intentText .forbid "exact" "tenant")) none]

/-- What another request stored is reported as retained by one that forbids it. -/
theorem not_forbidden_reported :
    ¬ ∀ (mode : OnUnenforceable) (calls : List Call),
      ∀ v ∈ (inMemoryGateway mode).trace calls ∅, ∀ st eff,
        v.status (inMemoryGateway mode) = some st → policy v.sent = some eff →
        ForbiddenTrue v.sent st := by
  intro h
  have hany : ((inMemoryGateway .bypass).trace [warmingCall, forbiddingCall] ∅).any (fun v =>
      (policy v.sent).any (fun eff => decide (eff.retention.mode = .forbid)) &&
        (v.status (inMemoryGateway .bypass)).any fun st => decide (st.retention = .retained)) =
      true := by decide +kernel
  obtain ⟨v, hv, hmis⟩ := List.any_eq_true.mp hany
  rw [Bool.and_eq_true, Option.any_eq_true, Option.any_eq_true] at hmis
  obtain ⟨⟨eff, hpolicy, hforbid⟩, st, hst, hretained⟩ := hmis
  have htrue := h .bypass [warmingCall, forbiddingCall] v hv st eff hst hpolicy
  rw [ForbiddenTrue, ← forbids_iff hpolicy, of_decide_eq_true hretained] at htrue
  cases htrue.mpr (of_decide_eq_true hforbid)

end

end CacheControl

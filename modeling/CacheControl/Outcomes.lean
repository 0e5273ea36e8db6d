import CacheControl.Enforcement
import CacheControl.Lowering
import CacheControl.Vanishing

/-!
# Outcomes that tell what happened

A status tells its caller whether the cache was asked for the state of its prefix
and what was found there.  On a backend that does not observe outcomes the gateway
says so before it asks whether the policy permits reuse at all.
-/

open PyText ExpiringStore

namespace CacheControl

section

variable [Runtime] {σ : Type} {g : Gateway σ} {eff : Effective} {contents namespaces : List Str}
  {partition : Str} {now : Time} {approxClass : Option Str} {s t : σ × List Access} {o : Outcome}
  {a : Bool}

/-! ## What a lookup asks -/

/-- The key under which a donor for the prefix `p ++ [f]` would stand. -/
def Call.donorKey (c : Call) (p : List Fragment) (f : Fragment) (eff : Effective) (cls : Str) :
    Except PyError Str :=
  cacheKey execution [cls] (namespacesOf (p ++ [f]))
    (partitionFor eff.shareMax c.auth c.requestId) false

/-- The backend was asked for `k` on behalf of the event's fragment, and holds nothing
there. -/
structure Event.Absent (g : Gateway σ) (v : Event (σ × List Access)) (k : Str) : Prop where
  asked : .get k v.call.now ∈ v.accesses g
  found : (g.backend.get k v.call.now v.state.1).1 = .ok none

/-- The backend was asked for the state of the event's prefix, and everything that the
composed reuse permits to ask for is absent. -/
structure Event.Missed (g : Gateway σ) (v : Event (σ × List Access)) (eff : Effective) :
    Prop where
  policy : policy v.sent = some eff
  exact : ∃ k, v.call.exactKey v.done v.item eff = .ok k ∧ v.Absent g k
  donor : eff.reuse = .approximate → ∀ cls, v.item.approxClass = some cls →
    ∃ dk, v.call.donorKey v.done v.item eff cls = .ok dk ∧ v.Absent g dk

/-- No reuse is permitted or possible for a fragment: there is no intent at or before
it, its composed policy cannot be enforced, or it composes to no reuse. -/
def NoReuse (caps : Capabilities) (p : List Fragment) : Prop :=
  (∀ f ∈ p, f.intentJson = none) ∨ Fails caps p ∨ ∃ eff, policy p = some eff ∧ eff.reuse = .none

/-- The outcome that is reported for the event's fragment tells what happened. -/
structure Event.Honest (g : Gateway σ) (v : Event (σ × List Access)) (o : Outcome) : Prop where
  bypass : o = .bypass ↔ NoReuse g.backend.capabilities v.sent
  miss : o = .miss ↔ ∃ eff, v.Missed g eff
  unobserved : o = .unobserved → g.backend.observesOutcomes = false ∧
    ∃ eff, policy v.sent = some eff ∧ eff.reuse ≠ .none

/-- The policy of the prefix can be enforced and permits no reuse. -/
def Withheld (caps : Capabilities) (p : List Fragment) : Prop :=
  ∃ eff, policy p = some eff ∧ checkEnforceable caps eff = .ok () ∧ eff.reuse = .none

/-! ## One status -/

/-- A read does not change what another read at the same time finds. -/
def Backend.Steady (b : Backend σ) : Prop :=
  ∀ k k' now s, (b.get k' now (b.get k now s).2).1 = (b.get k' now s).1

theorem steady_inMemory (k k' : Str) (now : Time) (s : Entries) :
    (InMemoryCache.get k' now (InMemoryCache.get k now s).2).1 =
      (InMemoryCache.get k' now s).1 := by
  have hsame : SameFrom Entry.expiresAt now s (InMemoryCache.get k now s).2 := by
    rw [InMemoryCache.get_eq_read]
    exact SameFrom.of_prunes (prunes_read s k now)
  exact (sim_sameFrom_get k' now s _ hsame).1.symm

theorem Shipped.steady {b : Backend σ} {refuses : Time → ℕ → Prop} (h : Shipped b refuses) :
    b.Steady := by
  cases h with
  | inMemory caps => exact steady_inMemory
  | saltOnly caps => exact steady_inMemory
  | null caps => exact fun _ _ _ _ => rfl
  | vllm caps => exact fun _ _ _ _ => rfl

variable {v : Event (σ × List Access)} {r : RetentionStatus} {st : FragmentStatus}

theorem recorded_get {k : Str} {found : Except PyError (Option Entry)}
    (h : g.recorded.backend.get k now s = (found, t)) :
    (g.backend.get k now s.1).1 = found ∧ t.1 = (g.backend.get k now s.1).2 ∧
      t.2 = s.2 ++ [.get k now] := by
  obtain ⟨hfound, rfl⟩ := Prod.mk.inj h
  exact ⟨hfound, rfl, rfl⟩

/-- Storing asks the backend for nothing. -/
theorem get_mem_accesses_iff {exact : Bool} (h : Follows v.done v.acc)
    (hretain : g.recorded.retain o eff contents namespaces partition now exact approxClass t =
      (.ok r, v.after g.recorded)) {asked : List Access} (hasked : t.2 = v.state.2 ++ asked)
    (k : Str) : .get k v.call.now ∈ v.accesses g ↔ .get k v.call.now ∈ asked := by
  have hstores : Appends (fun a => ∀ k now, a ≠ .get k now) t (v.after g.recorded) := by
    have hwithin : Prog.Within (Appends fun a => ∀ k now, a ≠ .get k now)
        (g.recorded.retain o eff contents namespaces partition now exact approxClass) :=
      within_retain_of_put Appends.refl Appends.trans fun _ _ k exact s =>
        ⟨[.put k now eff.retention.maxAge exact], rfl, by simp⟩
    simpa [hretain] using hwithin t
  obtain ⟨puts, hputs, hall⟩ := hstores
  have hlog := accesses_eq (g := g) h
  rw [hputs, hasked, List.append_assoc, List.append_cancel_left_eq] at hlog
  rw [← hlog, List.mem_append]
  exact or_iff_left fun hmem => hall _ hmem k v.call.now rfl

/-- A fragment that was served reports a miss exactly where everything it may ask for is
absent. -/
theorem missed_iff (hsteady : g.backend.Steady) (hfollows : Follows v.done v.acc)
    (hpolicy : policy v.sent = some eff) (hlookup : v.lookup g.recorded eff = (.ok (o, a), t))
    {exact : Bool}
    (hretain : g.recorded.retain o eff contents namespaces partition now exact approxClass t =
      (.ok r, v.after g.recorded)) :
    o = .miss ↔ v.Missed g eff := by
  have hresolves := resolves_of_resolve hlookup
  have hasked : ∀ asked, t.2 = v.state.2 ++ asked → ∀ k,
      (.get k v.call.now ∈ v.accesses g ↔ .get k v.call.now ∈ asked) :=
    fun asked => get_mem_accesses_iff hfollows hretain
  cases hresolves with
  | unobserved hobs ht =>
      refine iff_of_false (by simp) fun hmissed => ?_
      obtain ⟨k, -, habsent⟩ := hmissed.exact
      have hmem := (hasked [] (by simp [ht]) k).mp habsent.asked
      cases hmem
  | bypass hobs hreuse ht =>
      refine iff_of_false (by simp) fun hmissed => ?_
      obtain ⟨k, -, habsent⟩ := hmissed.exact
      have hmem := (hasked [] (by simp [ht]) k).mp habsent.asked
      cases hmem
  | exactHit k entry hobs hreuse hk hget =>
      refine iff_of_false (by simp) fun hmissed => ?_
      obtain ⟨k', hk', habsent⟩ := hmissed.exact
      cases hk.symm.trans hk'
      cases (recorded_get hget).1.symm.trans habsent.found
  | approximateHit k cls dk entry u hobs hreuse hcls hk hdk hget hdonor =>
      refine iff_of_false (by simp) fun hmissed => ?_
      obtain ⟨dk', hdk', habsent⟩ := hmissed.donor hreuse cls hcls
      cases hdk.symm.trans hdk'
      obtain ⟨-, hstate, -⟩ := recorded_get hget
      have hfound := (recorded_get hdonor).1
      rw [hstate, hsteady] at hfound
      cases hfound.symm.trans habsent.found
  | missDonor k cls dk u hobs hreuse hcls hk hdk hget hdonor =>
      refine iff_of_true rfl ⟨hpolicy, ⟨k, hk, ?_⟩, fun _ cls' hcls' => ?_⟩
      · obtain ⟨hfound, -, hlog⟩ := recorded_get hget
        obtain ⟨-, -, hlog'⟩ := recorded_get hdonor
        rw [hlog, List.append_assoc] at hlog'
        exact ⟨(hasked _ hlog' k).mpr (by simp), hfound⟩
      · cases hcls.symm.trans hcls'
        obtain ⟨-, hstate, hlog⟩ := recorded_get hget
        obtain ⟨hfound, -, hlog'⟩ := recorded_get hdonor
        rw [hlog, List.append_assoc] at hlog'
        rw [hstate, hsteady] at hfound
        exact ⟨dk, hdk, (hasked _ hlog' dk).mpr (by simp), hfound⟩
  | miss k hobs hreuse hcls hk hget =>
      obtain ⟨hfound, -, hlog⟩ := recorded_get hget
      refine iff_of_true rfl
        ⟨hpolicy, ⟨k, hk, (hasked _ hlog k).mpr (by simp), hfound⟩, fun happrox cls' hcls' => ?_⟩
      cases (hcls happrox).symm.trans hcls'

/-- Where a policy is enforced, reuse is out of the question only if it composes to none. -/
theorem noReuse_iff {caps : Capabilities} {p : List Fragment} (hpolicy : policy p = some eff)
    (hcheck : checkEnforceable caps eff = .ok ()) : NoReuse caps p ↔ eff.reuse = .none := by
  constructor
  · rintro (hbare | hfails | ⟨eff', hpolicy', hreuse⟩)
    · obtain ⟨f, hf, hintent⟩ := exists_intent_of_policy hpolicy List.prefix_rfl
      exact absurd (hbare f hf) hintent
    · exact absurd hfails (not_fails_of_enforceable hpolicy hcheck)
    · cases hpolicy.symm.trans hpolicy'
      exact hreuse
  · exact fun hreuse => .inr (.inr ⟨eff, hpolicy, hreuse⟩)

theorem Event.Missed.enforced (h : v.Missed g eff) (hfollows : Follows v.done v.acc) :
    checkEnforceable g.backend.capabilities eff = .ok () := by
  obtain ⟨k, -, habsent⟩ := h.exact
  obtain ⟨eff', hpolicy, hcheck, -⟩ := carries_of_mem_accesses hfollows habsent.asked
  cases h.policy.symm.trans hpolicy
  exact hcheck

theorem withheld_iff {caps : Capabilities} {p : List Fragment} (hpolicy : policy p = some eff)
    (hcheck : checkEnforceable caps eff = .ok ()) : Withheld caps p ↔ eff.reuse = .none := by
  constructor
  · rintro ⟨eff', hpolicy', -, hreuse⟩
    cases hpolicy.symm.trans hpolicy'
    exact hreuse
  · exact fun hreuse => ⟨eff, hpolicy, hcheck, hreuse⟩

theorem not_withheld_of_fails {caps : Capabilities} {p : List Fragment} (h : Fails caps p) :
    ¬Withheld caps p := by
  rintro ⟨eff, hpolicy, hcheck, -⟩
  exact not_fails_of_enforceable hpolicy hcheck h

/-- A fragment that is not served is honestly reported as bypassed. -/
theorem honest_bypass (hfollows : Follows v.done v.acc)
    (h : constraintsOf v.sent = some [] ∨ Fails g.backend.capabilities v.sent) :
    v.Honest g .bypass := by
  refine ⟨iff_of_true rfl ?_, iff_of_false (by simp) ?_, by rintro ⟨⟩⟩
  · exact h.imp constraintsOf_ne_nil .inl
  · rintro ⟨eff, hmissed⟩
    rcases h with hcs | hfails
    · cases hmissed.policy.symm.trans (policy_eq_none_of_bare hcs)
    · exact not_fails_of_enforceable hmissed.policy (hmissed.enforced hfollows) hfails

/-- What is reported of a fragment that was served. -/
theorem honest_served_iff (hsteady : g.backend.Steady) (hfollows : Follows v.done v.acc)
    (hpolicy : policy v.sent = some eff)
    (hcheck : checkEnforceable g.backend.capabilities eff = .ok ())
    (hlookup : v.lookup g.recorded eff = (.ok (o, a), t)) {exact : Bool}
    (hretain : g.recorded.retain o eff contents namespaces partition now exact approxClass t =
      (.ok r, v.after g.recorded)) :
    v.Honest g o ↔ (g.backend.observesOutcomes = true ∨ eff.reuse ≠ .none) := by
  have hresolves := resolves_of_resolve hlookup
  have hunobserved : o = .unobserved ↔ g.backend.observesOutcomes = false :=
    hresolves.unobserved_iff
  constructor
  · intro h
    refine or_iff_not_imp_left.mpr fun hobs => ?_
    have ho := hunobserved.mpr (Bool.eq_false_iff.mpr hobs)
    obtain ⟨-, eff', hpolicy', hreuse⟩ := h.unobserved ho
    cases hpolicy.symm.trans hpolicy'
    exact hreuse
  · intro h
    refine ⟨?_, ?_, fun ho => ?_⟩
    · rw [noReuse_iff hpolicy hcheck]
      by_cases hobs : g.backend.observesOutcomes = true
      · exact hresolves.bypass_iff hobs
      · rw [hunobserved.mpr (Bool.eq_false_iff.mpr hobs)]
        exact iff_of_false (by simp) (h.resolve_left hobs)
    · rw [missed_iff hsteady hfollows hpolicy hlookup hretain]
      refine ⟨fun hmissed => ⟨eff, hmissed⟩, ?_⟩
      rintro ⟨eff', hmissed⟩
      cases hpolicy.symm.trans hmissed.policy
      exact hmissed
    · have hobs := hunobserved.mp ho
      rw [hobs] at h
      exact ⟨hobs, eff, hpolicy, h.resolve_left (by simp)⟩

/-- A status is honest unless its policy is enforced without reuse on a backend that does
not observe outcomes. -/
theorem honest_iff (hsteady : g.backend.Steady) (hfollows : Follows v.done v.acc)
    (hst : v.status g.recorded = some st) : v.Honest g st.outcome ↔
      (g.backend.observesOutcomes = true ∨ ¬Withheld g.backend.capabilities v.sent) := by
  cases reports_of_status hfollows hst with
  | bare hcs =>
      refine iff_of_true (honest_bypass hfollows (.inl hcs)) (.inr ?_)
      rintro ⟨eff, hpolicy, -⟩
      cases hpolicy.symm.trans (policy_eq_none_of_bare hcs)
  | bypassed hints eff e hpolicy hcheck hmode =>
      have hfails : Fails g.backend.capabilities v.sent := ⟨eff, e, hpolicy, hcheck⟩
      apply iff_of_true (honest_bypass hfollows (.inr hfails))
      exact .inr (not_withheld_of_fails hfails)
  | served hints eff o a r t hpolicy hcheck hlookup hretain =>
      have hwithheld : Withheld g.backend.capabilities v.sent ↔ _ := withheld_iff hpolicy hcheck
      rw [hwithheld]
      exact honest_served_iff hsteady hfollows hpolicy hcheck hlookup hretain

/-! ## One request -/

/-- Every status of an answer tells what happened. -/
def HonestOutcomes (g : Gateway σ) (c : Call) (s : σ) (r : Result) : Prop :=
  ∀ i st, r.statuses[i]? = some st →
    ∃ v ∈ g.recorded.trace [c] (s, []), v.done.length = i ∧ v.Honest g st.outcome

end

/-- Statuses tell what happened exactly if the backend observes outcomes, or no prefix
has a policy that is enforced and permits no reuse. -/
theorem honestOutcomes_iff [Runtime] {σ : Type} {b : Backend σ} {refuses : Time → ℕ → Prop}
    (hb : Shipped b refuses) (mode : OnUnenforceable) (c : Call) (s : σ) {r : Result}
    (h : ((⟨b, mode⟩ : Gateway σ).answer c s).1 = .ok r) :
    HonestOutcomes ⟨b, mode⟩ c s r ↔ (b.observesOutcomes = true ∨
      ∀ ordered, c.ordered = .ok ordered → ∀ p, p <+: ordered → ¬Withheld b.capabilities p) := by
  have hrecorded : ((⟨b, mode⟩ : Gateway σ).recorded.answer c (s, [])).1 = .ok r :=
    (sim_recorded ⟨b, mode⟩ c s (s, []) rfl).1.symm.trans h
  have honest : ∀ v ∈ (⟨b, mode⟩ : Gateway σ).recorded.trace [c] (s, []), ∀ st,
      v.status (⟨b, mode⟩ : Gateway σ).recorded = some st →
      (v.Honest ⟨b, mode⟩ st.outcome ↔
        (b.observesOutcomes = true ∨ ¬Withheld b.capabilities v.sent)) :=
    fun v hv st => honest_iff hb.steady (follows_of_mem hv)
  constructor
  · intro hall
    refine or_iff_not_imp_left.mpr fun hobs ordered hordered p hp hwithheld => ?_
    have hne : p ≠ [] := by
      obtain ⟨eff, hpolicy, -⟩ := hwithheld
      exact ne_nil_of_policy hpolicy
    obtain ⟨q, f, rfl⟩ := (List.eq_nil_or_concat' p).resolve_left hne
    obtain ⟨-, -, -, st, -, hat⟩ := event_of_answer hrecorded hordered hp
    obtain ⟨v, hv, hlength, hhonest⟩ := hall q.length st hat
    have hstatus : v.status (⟨b, mode⟩ : Gateway σ).recorded = some st := by
      rw [← status_of_event hrecorded hv, hlength, hat]
    obtain ⟨ordered', hordered', hsent⟩ := sent_prefix_of_mem hv
    cases hordered.symm.trans hordered'
    have hlengths : v.sent.length = (q ++ [f]).length := by
      rw [sent_length, hlength, List.length_append, List.length_singleton]
    have heq : v.sent = q ++ [f] :=
      (List.prefix_of_prefix_length_le hsent hp hlengths.le).eq_of_length hlengths
    rw [honest v hv st hstatus, heq] at hhonest
    exact hhonest.resolve_left hobs hwithheld
  · intro hcondition i st hst
    obtain ⟨v, hv, hlength, hstatus⟩ := exists_event_of_status hrecorded hst
    refine ⟨v, hv, hlength, (honest v hv st hstatus).mpr ?_⟩
    refine hcondition.imp_right fun hnone => ?_
    obtain ⟨ordered, hordered, hsent⟩ := sent_prefix_of_mem hv
    exact hnone ordered hordered v.sent hsent

section

attribute [local instance] reference

/-- A request that is to be retained and reuses nothing. -/
def primingCall : Call :=
  sampleCall alice 0 [sampleFragment "X" (some (intentText (.allow none) "none" "tenant")) none]

def outcomesOf (x : Except PyError Result) : Option (List Outcome) :=
  x.toOption.map fun r => r.statuses.map FragmentStatus.outcome

theorem exists_statuses {x : Except PyError Result} {outcomes : List Outcome}
    (h : outcomesOf x = some outcomes) :
    ∃ r, x = .ok r ∧ r.statuses.map FragmentStatus.outcome = outcomes := by
  obtain ⟨r, hr, houtcomes⟩ := Option.map_eq_some_iff.mp h
  exact ⟨r, toOption_eq_some_iff.mp hr, houtcomes⟩

theorem honestOutcomes_iff_primingCall : ∃ r,
    ((inMemoryGateway .bypass).answer primingCall ∅).1 = .ok r ∧
      r.statuses.map FragmentStatus.outcome = [.bypass] ∧
      HonestOutcomes (inMemoryGateway .bypass) primingCall ∅ r := by
  have houtcomes : outcomesOf ((inMemoryGateway .bypass).answer primingCall ∅).1 =
      some [.bypass] := by decide +kernel
  obtain ⟨r, hanswer, hstatuses⟩ := exists_statuses houtcomes
  exact ⟨r, hanswer, hstatuses, (honestOutcomes_iff (.inMemory inMemoryBackend.capabilities)
    .bypass primingCall ∅ hanswer).mpr (.inl rfl)⟩

/-- On an engine that does not report outcomes a request that permits no reuse is said
to have attempted it. -/
theorem not_honestOutcomes :
    ¬ ∀ (mode : OnUnenforceable) (c : Call) (r : Result),
      ((vllmGateway mode).answer c ()).1 = .ok r → HonestOutcomes (vllmGateway mode) c () r := by
  intro h
  have houtcomes : outcomesOf ((vllmGateway .bypass).answer primingCall ()).1 =
      some [.unobserved] := by decide +kernel
  obtain ⟨r, hanswer, hstatuses⟩ := exists_statuses houtcomes
  obtain ⟨st, hst, ho⟩ := List.map_eq_singleton_iff.mp hstatuses
  obtain ⟨v, hv, hlength, hhonest⟩ := h .bypass primingCall r hanswer 0 st (by rw [hst]; rfl)
  obtain ⟨ordered, hordered, hsent⟩ := sent_prefix_of_mem hv
  cases eq_of_ordered rfl hordered
  have heq : v.sent = primingCall.fragments :=
    hsent.eq_of_length (by rw [sent_length, hlength]; rfl)
  obtain ⟨-, eff, hpolicy, hreuse⟩ := hhonest.unobserved ho
  have hnone : ∀ eff ∈ policy primingCall.fragments, eff.reuse = .none := by decide +kernel
  exact hreuse (hnone eff (heq ▸ hpolicy))

end

end CacheControl

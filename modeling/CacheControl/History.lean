import CacheControl.Memory
import CacheControl.Reference

/-!
# The history of an in-memory run

Over a memory-backed gateway the events of a run are the writes of an expiring
store, so an entry tells which event published it, and an exact hit is
determined by the events before it.
-/

open PyText ExpiringStore

namespace CacheControl

section Ledger

variable [Runtime] {g : Gateway Entries} {calls : List Call} {pre post : List (Event Entries)}
  {v w : Event Entries} {k : Str} {e : Entry} {eff : Effective}

def Writes (g : Gateway Entries) (v : Event Entries) (k : Str) (e : Entry) : Prop :=
  (insertAll Entry.key (v.published g) ∅).lookup k = some e

theorem Writes.mem (h : Writes g v k e) : e ∈ v.published g ∧ e.key = k :=
  mem_of_lookup_insertAll h

theorem exists_writes (h : e ∈ v.published g) : ∃ e', Writes g v e.key e' :=
  exists_lookup_insertAll h

theorem Writes.exists_computes (h : Writes g v k e) :
    ∃ eff o a t, v.Computes g eff o a t ∧
      StoredUnder eff (contentsOf v.sent) (namespacesOf v.sent) (v.partition eff) v.call.now
        (!(v.acc.taintedApproximate || a)) v.item.approxClass e :=
  Event.exists_computes h.mem.1

theorem MemoryBacked.step (hg : MemoryBacked g) (h : Follows v.done v.acc) :
    Step Entry.expiresAt (Writes g) v.call.now v v.state (v.after g) := by
  obtain ⟨t, hprunes, hafter⟩ := hg.after_eq h
  rw [hafter]
  exact step_insertAll hprunes fun _ _ => Iff.rfl

/-- The store in front of every event is the ledger of the events before it. -/
theorem MemoryBacked.ledger (hg : MemoryBacked g) (calls : List Call) :
    (∀ pre v post, g.trace calls ∅ = pre ++ v :: post →
      Sound (Writes g) pre v.state ∧
      ∀ bound, (∀ u ∈ pre, u.call.now ≤ bound) →
        Complete Entry.expiresAt (Writes g) pre bound v.state) ∧
    Sound (Writes g) (g.trace calls ∅) (g.run calls ∅).2 := by
  have hinv := Prog.Chained.invariant (fun hist s =>
    Sound (Writes g) hist s ∧ ∀ bound, (∀ u ∈ hist, u.call.now ≤ bound) →
      Complete Entry.expiresAt (Writes g) hist bound s) [] (chained_traceFrom g 0 calls ∅)
    ⟨sound_nil, fun _ _ => complete_nil⟩ (by
      rintro pre v post hsplit ⟨hsound, hcomplete⟩
      have hstep := hg.step (follows_of_split hsplit)
      refine ⟨hsound.step hstep, fun bound hbound => ?_⟩
      have hnow : v.call.now ≤ bound := hbound v (by simp)
      have hearlier := hcomplete bound fun u hu => hbound u (List.mem_append_left _ hu)
      exact hearlier.step (hstep.mono hnow))
  refine ⟨fun pre v post hsplit => ?_, ?_⟩
  · simpa using hinv.2 pre v post hsplit
  · simpa [Gateway.trace] using hinv.1.1

/-! ## Every entry carries the policy of its prefix -/

/-- The entry `e`, stored under `k`, is what the policy of the event's prefix
permits, `cs` being the constraints of that prefix. -/
structure CarriesPolicy (v : Event Entries) (cs : List Constraints) (k : Str) (e : Entry) :
    Prop where
  constraints : constraintsOf v.sent = some cs
  permitted : ∀ c ∈ cs, c.retention.mode = .allow ∧ c.shareMax ≠ .request
  key : ∃ scope, IsLeast {s | ∃ c ∈ cs, c.shareMax = s} scope ∧
    (cacheKey execution (contentsOf v.sent) (cs.filterMap Constraints.ns)
        (partitionFor scope v.call.auth v.call.requestId) e.exact = .ok k ∨
      e.exact = false ∧ ∃ c, v.item.approxClass = some c ∧
        cacheKey execution [c] (cs.filterMap Constraints.ns)
          (partitionFor scope v.call.auth v.call.requestId) false = .ok k)
  materializedAt : e.materializedAt = v.call.now
  expiresAt : ∃ age, IsSmallestAge cs age ∧
    InMemoryCache.expiry v.call.now age = .ok e.expiresAt

theorem Writes.carriesPolicy (h : Writes g v k e) : ∃ cs, CarriesPolicy v cs k e := by
  obtain ⟨eff, o, a, t, hcomputes, hstored⟩ := h.exists_computes
  obtain ⟨cs, hcs, hcomposes⟩ := composes_of_policy hcomputes.policy
  have hns : namespacesOf v.sent = cs.filterMap Constraints.ns := by simp [namespacesOf, hcs]
  refine ⟨cs, hcs, fun c hc => ⟨?_, ?_⟩, ⟨eff.shareMax, hcomposes.shareMax, ?_⟩,
    hstored.materializedAt, eff.retention.maxAge, hcomposes.maxAge hstored.allows,
    hstored.expiresAt⟩
  · cases hm : c.retention.mode with
    | allow => rfl
    | forbid =>
        have hforbid := hcomposes.forbids.mpr ⟨c, hc, hm⟩
        rw [hstored.allows] at hforbid
        cases hforbid
  · intro hreq
    have hle := hcomposes.shareMax_le hc
    rw [hreq] at hle
    exact hstored.shared (le_antisymm hle (Share.request_le _))
  · rw [← hns, ← h.mem.2]
    rcases hstored.key with ⟨hkey, hexact⟩ | hdonor
    · rw [← hexact] at hkey
      exact .inl hkey
    · exact .inr hdonor

theorem published_eq_nil {cs : List Constraints} {c : Constraints}
    (hcs : constraintsOf v.sent = some cs) (hc : c ∈ cs)
    (hnot : c.retention.mode = .forbid ∨ c.shareMax = .request) : v.published g = [] := by
  apply List.eq_nil_iff_forall_not_mem.mpr
  intro e he
  obtain ⟨e', hwrites⟩ := exists_writes he
  obtain ⟨cs', hcarries⟩ := hwrites.carriesPolicy
  cases hcs.symm.trans hcarries.constraints
  obtain ⟨hallow, hshare⟩ := hcarries.permitted c hc
  rcases hnot with hforbid | hreq
  · rw [hforbid] at hallow
    cases hallow
  · exact hshare hreq

/-! ## Exact hits -/

/-- The event `w` computed, and could retain, the state that `v` asks for under
its policy `eff`. -/
structure ComputedFor (g : Gateway Entries) (trace : List (Event Entries)) (v : Event Entries)
    (eff : Effective) (w : Event Entries) (weff : Effective) : Prop where
  computed : ∃ o a t, w.Computes g weff o a t ∧ o ≠ .approximateHit
  untainted : Untainted g trace w
  allows : weff.retention.mode = .allow
  shared : weff.shareMax ≠ .request
  dated : ∃ d, InMemoryCache.expiry w.call.now weff.retention.maxAge = .ok d
  contents : contentsOf w.sent = contentsOf v.sent
  namespaces : namespacesOf w.sent = namespacesOf v.sent
  partition : w.partition weff = v.partition eff

variable {t : Entries} {o : Outcome} {a : Bool}

theorem not_approximate_iff (h : w.Computes g eff o a t) : o ≠ .approximateHit ↔ a = false := by
  rw [← Bool.not_eq_true, not_iff_not, flag_of_lookup h.lookup]

theorem computedFor_of_writes (hcf : CollisionFree) (hv : v.call.auth.Plain)
    (hw : w.call.auth.Plain) (hwmem : w ∈ g.trace calls ∅)
    (hk : cacheKey execution (contentsOf v.sent) (namespacesOf v.sent) (v.partition eff) true =
      .ok k)
    (hwrites : Writes g w k e) :
    ∃ weff, ComputedFor g (g.trace calls ∅) v eff w weff ∧
      InMemoryCache.expiry w.call.now weff.retention.maxAge = .ok e.expiresAt := by
  obtain ⟨weff, o, a, t, hcomputes, hstored⟩ := hwrites.exists_computes
  rw [← hwrites.mem.2] at hk
  obtain ⟨-, hpartition, hns, -, hexact⟩ := hstored.agrees hcf hw hv hk
  rcases hexact with ⟨hexact, hcontents⟩ | ⟨hfalse, -⟩
  · simp only [Bool.not_eq_true', Bool.or_eq_false_iff] at hexact
    obtain ⟨pre, post, hsplit⟩ := List.append_of_mem hwmem
    refine ⟨weff, ⟨⟨o, a, t, hcomputes, (not_approximate_iff hcomputes).mpr hexact.2⟩,
      (untainted_iff hsplit).mpr hexact.1, hstored.allows, hstored.shared,
      ⟨_, hstored.expiresAt⟩, hcontents, hns, hpartition⟩, hstored.expiresAt⟩
  · cases hfalse

theorem writes_of_computedFor (hwmem : w ∈ g.trace calls ∅) {weff : Effective}
    (hk : cacheKey execution (contentsOf v.sent) (namespacesOf v.sent) (v.partition eff) true =
      .ok k)
    (h : ComputedFor g (g.trace calls ∅) v eff w weff) : ∃ e, Writes g w k e := by
  obtain ⟨o, a, t, hcomputes, ho⟩ := h.computed
  obtain ⟨d, hd⟩ := h.dated
  obtain ⟨pre, post, hsplit⟩ := List.append_of_mem hwmem
  have hclean := (untainted_iff hsplit).mp h.untainted
  have ha := (not_approximate_iff hcomputes).mp ho
  rw [← h.contents, ← h.namespaces, ← h.partition] at hk
  have hmem : (⟨k, w.call.now, d, true⟩ : Entry) ∈ w.published g := by
    rw [hcomputes.published, hclean, ha]
    exact exists_mem_stored h.allows h.shared hk hd
  exact exists_writes hmem

theorem index_lt_of_computedFor (hsplit : g.trace calls ∅ = pre ++ v :: post) (hw : w ∈ pre)
    {weff : Effective} (h : ComputedFor g (g.trace calls ∅) v eff w weff) :
    w.index < v.index := by
  refine lt_of_le_of_ne (index_le_of_mem_pre hsplit hw) fun hidx => ?_
  have hlen := (sent_prefix_of_mem_pre hsplit hw hidx).1.length_le
  have hcontents := congrArg List.length h.contents
  simp only [contentsOf, List.length_map, sent_length] at hcontents hlen
  omega

/-- What a lookup under the exact key finds, told from the events of the run. -/
theorem MemoryBacked.eligible_exact_iff (hg : MemoryBacked g) (hcf : CollisionFree)
    (hplain : ∀ c ∈ calls, c.auth.Plain) (hmono : calls.Pairwise fun c d => c.now ≤ d.now)
    (hsplit : g.trace calls ∅ = pre ++ v :: post)
    (hk : cacheKey execution (contentsOf v.sent) (namespacesOf v.sent) (v.partition eff) true =
      .ok k) :
    (∃ e, eligible Entry.expiresAt v.state k v.call.now = some e) ↔ ∃ w weff,
      IsLatest (fun w => w.index < v.index ∧
        ∃ weff, ComputedFor g (g.trace calls ∅) v eff w weff) (g.trace calls ∅) w ∧
      CacheControl.policy w.sent = some weff ∧
      ∀ m, weff.retention.maxAge = some m →
        ∃ d, Runtime.plus w.call.now m = some d ∧ v.call.now < d := by
  have hpremem : ∀ {u}, u ∈ pre → u ∈ g.trace calls ∅ := fun hu => by simp [hsplit, hu]
  have hvmem : v ∈ g.trace calls ∅ := by simp [hsplit]
  have hvplain := hplain _ (call_mem_of_mem hvmem)
  have huplain : ∀ {u}, u ∈ pre → u.call.auth.Plain :=
    fun hu => hplain _ (call_mem_of_mem (hpremem hu))
  -- on the events before `v` the two ways to describe a publication agree
  have hsame : ∀ u ∈ pre, (∃ e, Writes g u k e) ↔ u.index < v.index ∧
      ∃ weff, ComputedFor g (g.trace calls ∅) v eff u weff := by
    intro u hu
    constructor
    · rintro ⟨e, hwrites⟩
      obtain ⟨weff, hcomputed, -⟩ :=
        computedFor_of_writes hcf hvplain (huplain hu) (hpremem hu) hk hwrites
      exact ⟨index_lt_of_computedFor hsplit hu hcomputed, weff, hcomputed⟩
    · rintro ⟨-, weff, hcomputed⟩
      exact writes_of_computedFor (hpremem hu) hk hcomputed
  -- and no event from `v` on belongs to an earlier request
  have hlater : ∀ u ∈ v :: post, ¬ (u.index < v.index ∧
      ∃ weff, ComputedFor g (g.trace calls ∅) v eff u weff) := by
    rintro u hu ⟨hlt, -⟩
    rcases List.mem_cons.mp hu with rfl | hu
    · exact lt_irrefl _ hlt
    · obtain ⟨x, y, rfl⟩ := List.append_of_mem hu
      have hsplit' : g.trace calls ∅ = (pre ++ v :: x) ++ u :: y := by rw [hsplit]; simp
      have hle : v.index ≤ u.index := index_le_of_mem_pre hsplit' (by simp)
      omega
  have htrace : ∀ w, IsLatest _ (pre ++ v :: post) w ↔ IsLatest _ pre w :=
    fun w => isLatest_append_iff w hlater
  rw [← hsplit] at htrace
  obtain ⟨hsound, hcomplete⟩ := (hg.ledger calls).1 pre v post hsplit
  have hcomplete := hcomplete v.call.now fun u hu => now_le_of_mem_pre hmono hsplit hu
  constructor
  · rintro ⟨e, he⟩
    obtain ⟨w, hlatest, hwrites, hlive⟩ := (eligible_eq_some_iff_latest hsound hcomplete).mp he
    have hwpre := hlatest.mem
    obtain ⟨weff, hcomputed, hexpiry⟩ :=
      computedFor_of_writes hcf hvplain (huplain hwpre) (hpremem hwpre) hk hwrites
    obtain ⟨o, a, t, hcomputes, -⟩ := hcomputed.computed
    refine ⟨w, weff, ?_, hcomputes.policy, fun m hm => ?_⟩
    · exact (htrace w).mpr (hlatest.congr hsame)
    · rw [hm, InMemoryCache.expiry_some_eq_ok_iff] at hexpiry
      obtain ⟨d, hplus, hd⟩ := hexpiry
      rw [hd, expired_some] at hlive
      exact ⟨d, hplus, not_le.mp hlive⟩
  · rintro ⟨w, weff, hlatest, hwpolicy, hlive⟩
    have hpre := (htrace w).mp hlatest
    have hwpre := hpre.mem
    have hwlatest := hpre.congr fun u hu => (hsame u hu).symm
    obtain ⟨e, hwrites⟩ := hwlatest.holds
    obtain ⟨weff', hcomputed, hexpiry⟩ :=
      computedFor_of_writes hcf hvplain (huplain hwpre) (hpremem hwpre) hk hwrites
    obtain ⟨o, a, t, hcomputes, -⟩ := hcomputed.computed
    cases hwpolicy.symm.trans hcomputes.policy
    refine ⟨e, (eligible_eq_some_iff_latest hsound hcomplete).mpr
      ⟨w, hwlatest, hwrites, fun hexpired => ?_⟩⟩
    obtain ⟨d, hd, hdnow⟩ := hexpired
    cases hm : weff.retention.maxAge with
    | none =>
        rw [hm, InMemoryCache.expiry_none_eq_ok_iff] at hexpiry
        rw [hexpiry] at hd
        cases hd
    | some m =>
        obtain ⟨d', hplus, hlt⟩ := hlive m hm
        rw [hm, InMemoryCache.expiry_some_eq_ok_iff] at hexpiry
        obtain ⟨d'', hplus', hd''⟩ := hexpiry
        cases hplus.symm.trans hplus'
        cases hd.symm.trans hd''
        exact absurd hdnow (not_le.mpr hlt)

end Ledger

/-- After any run every entry was put by an event whose whole prefix permits it,
under the partition of the narrowest scope and with the smallest bound; and an
event behind an intent that forbids retention or is request-scoped leaves
nothing new in the store. -/
theorem entries_carry_policy [Runtime] (mode : OnUnenforceable) (calls : List Call) :
    (∀ k e, ((inMemoryGateway mode).run calls ∅).2.lookup k = some e →
      ∃ v ∈ (inMemoryGateway mode).trace calls ∅, ∃ cs, CarriesPolicy v cs k e) ∧
    ∀ v ∈ (inMemoryGateway mode).trace calls ∅,
      ∀ f ∈ v.sent, ∀ text intent, f.intentJson = some text → parseCacheIntent text = .ok intent →
        intent.constraints.retention.mode = .forbid ∨ intent.constraints.shareMax = .request →
        Prunes Entry.expiresAt v.call.now v.state (v.after (inMemoryGateway mode)) := by
  have hg := memoryBacked_inMemory mode
  refine ⟨fun k e hk => ?_, fun v hv f hf text intent htext hparse hnot => ?_⟩
  · obtain ⟨w, hlatest, hwrites⟩ := (hg.ledger calls).2 k e hk
    exact ⟨w, hlatest.mem, hwrites.carriesPolicy⟩
  · obtain ⟨t, hprunes, hafter⟩ := hg.after_eq (follows_of_mem hv)
    have hnil : v.published (inMemoryGateway mode) = [] := by
      cases hcs : constraintsOf v.sent with
      | none => exact Event.published_of_policy_none (by simp [policy, hcs])
      | some cs =>
          have hc := (mem_constraintsOf hcs).mpr ⟨f, hf, text, intent, htext, hparse, rfl⟩
          exact published_eq_nil hcs hc hnot
    rw [hafter, hnil]
    exact hprunes

/-- A fragment with a policy is an exact hit if and only if the policy permits
reuse and the last earlier request that computed the same prefix for the same
partition, untainted and retained, has not expired. -/
theorem exact_hit_iff_history [Runtime] (hcf : CollisionFree) (mode : OnUnenforceable)
    (calls : List Call) (hplain : ∀ c ∈ calls, c.auth.Plain)
    (hmono : calls.Pairwise fun c d => c.now ≤ d.now) {v : Event Entries}
    (hv : v ∈ (inMemoryGateway mode).trace calls ∅) {st : FragmentStatus}
    (hst : v.status (inMemoryGateway mode) = some st) {eff : Effective}
    (hpolicy : policy v.sent = some eff) :
    st.outcome = .exactHit ↔ eff.reuse ≠ .none ∧ ∃ w weff,
      IsLatest (fun w => w.index < v.index ∧ ∃ weff, ComputedFor (inMemoryGateway mode)
        ((inMemoryGateway mode).trace calls ∅) v eff w weff)
        ((inMemoryGateway mode).trace calls ∅) w ∧
      policy w.sent = some weff ∧
      ∀ m, weff.retention.maxAge = some m →
        ∃ d, Runtime.plus w.call.now m = some d ∧ v.call.now < d := by
  have hg := memoryBacked_inMemory mode
  obtain ⟨pre, post, hsplit⟩ := List.append_of_mem hv
  obtain ⟨hints, o, a, r, t, hlookup, -, rfl⟩ :=
    served_of_status (follows_of_mem hv) hst hpolicy (checkEnforceable_inMemory eff)
  have hresolves := resolves_of_resolve hlookup
  show o = .exactHit ↔ _
  rw [hg.exactHit_iff hresolves]
  refine and_congr_right fun hreuse => ?_
  obtain ⟨k, hk⟩ := hresolves.exists_key hg.observes hreuse
  rw [← hg.eligible_exact_iff hcf hplain hmono hsplit hk]
  constructor
  · rintro ⟨k', e, hk', he⟩
    cases hk.symm.trans hk'
    exact ⟨e, he⟩
  · rintro ⟨e, he⟩
    exact ⟨k, e, hk, he⟩

section

attribute [local instance] reference

/-- A request, and the same request five seconds later. -/
def warmRun : List Call :=
  [sampleCall alice 0
    [sampleFragment "a" (some (intentText (.allow (some 10)) "exact" "tenant")) none],
  sampleCall alice 5
    [sampleFragment "a" (some (intentText (.allow (some 10)) "exact" "tenant")) none]]

theorem plain_warmRun : ∀ c ∈ warmRun, c.auth.Plain := by
  simp only [warmRun, List.mem_cons, List.not_mem_nil, or_false, forall_eq_or_imp, forall_eq]
  exact ⟨plain_alice, plain_alice⟩

theorem exact_hit_iff_history_warm :
    ∃ v ∈ (inMemoryGateway .bypass).trace warmRun ∅, ∃ eff, policy v.sent = some eff ∧
      ∃ w weff, IsLatest (fun w => w.index < v.index ∧ ∃ weff,
          ComputedFor (inMemoryGateway .bypass) ((inMemoryGateway .bypass).trace warmRun ∅)
            v eff w weff)
          ((inMemoryGateway .bypass).trace warmRun ∅) w ∧
        policy w.sent = some weff := by
  have hany : ((inMemoryGateway .bypass).trace warmRun ∅).any (fun v =>
      (v.status (inMemoryGateway .bypass)).any (fun st => st.outcome = .exactHit) &&
        (policy v.sent).isSome) = true := by decide +kernel
  obtain ⟨v, hv, hhit⟩ := List.any_eq_true.mp hany
  obtain ⟨hstatus, hpolicy⟩ := Bool.and_eq_true_iff.mp hhit
  obtain ⟨st, hst, hout⟩ := (Option.any_eq_true _ _).mp hstatus
  obtain ⟨eff, heff⟩ := Option.isSome_iff_exists.mp hpolicy
  obtain ⟨-, w, weff, hlatest, hw, -⟩ := (exact_hit_iff_history collisionFree_reference .bypass
    warmRun plain_warmRun (by decide +kernel) hv hst heff).mp (of_decide_eq_true hout)
  exact ⟨v, hv, eff, heff, w, weff, hlatest, hw⟩

end

end CacheControl

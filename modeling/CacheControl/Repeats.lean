import CacheControl.Consent
import CacheControl.Atomicity
import CacheControl.Isolation
import CacheControl.Boundary

/-!
# Asking again

A request that is repeated while its entries last finds again what its first run
found or stored.  What its first run stored under an inexact key is found only by
way of the similarity class, so a fragment without a class, or one that does not
permit approximation, is retained to no use behind a donor.
-/

open PyText ExpiringStore

namespace CacheControl

section

variable [Runtime]

/-- A later time stays later when the same bound is added to both. -/
def ClockMonotone : Prop :=
  ∀ (t t' : Time) (m : ℕ) (d d' : Time), t ≤ t' → Runtime.plus t m = some d →
    Runtime.plus t' m = some d' → d ≤ d'

/-- The call `d` asks for what `c` asked for, not before it and under whatever
request id. -/
structure Repeats (c d : Call) : Prop where
  fragments : d.fragments = c.fragments
  auth : d.auth = c.auth
  equivalenceDeclared : d.equivalenceDeclared = c.equivalenceDeclared
  now : c.now ≤ d.now

/-- Every fragment reported as retained, and permitting reuse, is a hit in the
second answer. -/
def RetainedFound (r r' : Result) : Prop :=
  ∀ (i : ℕ) (st : FragmentStatus), r.statuses[i]? = some st → st.retention = .retained →
    st.effectiveReuse ≠ some .none → ∃ st', r'.statuses[i]? = some st' ∧
      (st'.outcome = .exactHit ∨ st'.outcome = .approximateHit)

theorem Repeats.ordered {c d : Call} (h : Repeats c d) : d.ordered = c.ordered := by
  unfold Call.ordered
  rw [h.fragments, h.equivalenceDeclared]

/-! ## The two runs -/

section Again

variable {σ : Type} {g : Gateway σ} {c d : Call} {s t : σ} {v w : Event σ} {k : Str}
  {eff : Effective}

def Event.ExactKey (v : Event σ) (k : Str) : Prop :=
  ∃ eff, policy v.sent = some eff ∧
    cacheKey execution (contentsOf v.sent) (namespacesOf v.sent) (v.partition eff) true = .ok k

/-- `w` reaches in the second run the fragment that `v` reached in the first. -/
structure Again (v w : Event σ) : Prop where
  sent : w.sent = v.sent
  auth : w.call.auth = v.call.auth
  now : v.call.now ≤ w.call.now

namespace Again

theorem item (h : Again v w) : w.item = v.item := by
  have hsent := h.sent
  unfold Event.sent at hsent
  exact (List.cons.inj (List.append_inj' hsent rfl).2).1

theorem partition (h : Again v w) (hshare : eff.shareMax ≠ .request) :
    w.partition eff = v.partition eff := by
  unfold Event.partition
  rw [h.auth]
  cases hs : eff.shareMax with
  | request => exact absurd hs hshare
  | session | principal | tenant | «public» => rfl

theorem exactKey (h : Again v w) (hpolicy : policy v.sent = some eff)
    (hshare : eff.shareMax ≠ .request) (hk : v.ExactKey k) :
    cacheKey execution (contentsOf w.sent) (namespacesOf w.sent) (w.partition eff) true =
      .ok k := by
  obtain ⟨eff', hpolicy', hk⟩ := hk
  cases hpolicy.symm.trans hpolicy'
  rw [h.sent, h.partition hshare]
  exact hk

end Again

/-- Every fragment that the second run reaches the first one reached as well. -/
theorem exists_again (hrepeats : Repeats c d) {r : Result} (h : (g.answer c s).1 = .ok r)
    (hw : w ∈ g.trace [d] t) : ∃ v ∈ g.trace [c] s, Again v w := by
  obtain ⟨ordered, hord, hsent⟩ := sent_prefix_of_mem hw
  rw [hrepeats.ordered] at hord
  obtain ⟨v, hv, hvsent, -⟩ := event_of_answer h hord hsent
  have hvcall := (mem_trace_single.mp hv).2.2
  have hwcall := (mem_trace_single.mp hw).2.2
  refine ⟨v, hv, hvsent.symm, ?_, ?_⟩
  · rw [hvcall, hwcall, hrepeats.auth]
  · rw [hvcall, hwcall]
    exact hrepeats.now

theorem exists_second (hrepeats : Repeats c d) {r' : Result}
    (h' : (g.answer d (g.answer c s).2).1 = .ok r') (hv : v ∈ g.trace [c] s) :
    ∃ w ∈ g.trace [d] (g.answer c s).2, Again v w ∧
      ∃ st', w.status g = some st' ∧ r'.statuses[v.done.length]? = some st' := by
  obtain ⟨ordered, hord, hsent⟩ := sent_prefix_of_mem hv
  rw [← hrepeats.ordered] at hord
  obtain ⟨w, hw, hwsent, st', hst', hat'⟩ := event_of_answer h' hord hsent
  have hvcall := (mem_trace_single.mp hv).2.2
  have hwcall := (mem_trace_single.mp hw).2.2
  refine ⟨w, hw, ⟨hwsent, ?_, ?_⟩, st', hst', hat'⟩
  · rw [hvcall, hwcall, hrepeats.auth]
  · rw [hvcall, hwcall]
    exact hrepeats.now

end Again

variable {g : Gateway Entries} {c d : Call} {s t : Entries} {u v w : Event Entries} {k : Str}
  {e : Entry} {eff : Effective} {later : Time} {keys : Str → Prop}

/-- Nothing that the call stored, and nothing that served it, has run out. -/
def StillFresh (g : Gateway Entries) (trace : List (Event Entries)) (later : Time) : Prop :=
  ∀ v ∈ trace, (∀ e ∈ v.published g, ¬ Expired e.expiresAt later) ∧
    (v.outcome g = some .exactHit → ∀ k, v.ExactKey k →
      ∀ e, eligible Entry.expiresAt v.state k v.call.now = some e → ¬ Expired e.expiresAt later)

/-- Whatever is to be stored behind a donor can be asked for again: its policy
permits approximation and it has a similarity class. -/
def Addressable (g : Gateway Entries) (trace : List (Event Entries)) : Prop :=
  ∀ v ∈ trace, ∀ u ∈ trace, u.sent <+: v.done → DonorAtHand g u →
    ∀ eff, Storable g v.call v.state v.done v.item eff → eff.reuse ≠ .none →
      eff.reuse = .approximate ∧ v.item.approxClass ≠ none

/-! ## What stays served -/

/-- The keys that the event found, or under which it stored. -/
def Settles (g : Gateway Entries) (v : Event Entries) (k : Str) : Prop :=
  (∃ e ∈ v.published g, e.key = k) ∨ v.outcome g = some .exactHit ∧ v.ExactKey k

theorem serves_after (hg : MemoryBacked g) (hfollows : Follows v.done v.acc)
    (hnow : v.call.now ≤ later) (h : Serves Entry.expiresAt later keys v.state)
    (hfresh : ∀ e ∈ v.published g, ¬ Expired e.expiresAt later) :
    Serves Entry.expiresAt later (fun k => keys k ∨ ∃ e ∈ v.published g, e.key = k)
      (v.after g) := by
  obtain ⟨t, hprunes, hafter⟩ := hg.after_eq hfollows
  rw [hafter]
  exact (h.prunes hprunes hnow).insertAll hfresh

theorem eligible_of_exactHit (hg : MemoryBacked g) (hfollows : Follows v.done v.acc)
    (hhit : v.outcome g = some .exactHit) (hk : v.ExactKey k) :
    ∃ e, eligible Entry.expiresAt v.state k v.call.now = some e := by
  obtain ⟨eff, hpolicy, hk⟩ := hk
  obtain ⟨eff', a, t, hpolicy', hcheck, hlookup⟩ := lookup_of_outcome hfollows hhit (by simp)
  cases hpolicy.symm.trans hpolicy'
  obtain ⟨-, k', e, hk', he⟩ := (hg.exactHit_iff (resolves_of_resolve hlookup)).mp rfl
  cases hk.symm.trans hk'
  exact ⟨e, he⟩

/-- Behind the first run every key that it settled is served. -/
theorem MemoryBacked.serves_settled (hg : MemoryBacked g) (hnow : c.now ≤ later)
    (hfresh : StillFresh g (g.trace [c] s) later) :
    Serves Entry.expiresAt later (fun k => ∃ v ∈ g.trace [c] s, Settles g v k)
      (g.answer c s).2 := by
  have hinv := Prog.Chained.invariant
    (fun hist s => Serves Entry.expiresAt later (fun k => ∃ v ∈ hist, Settles g v k) s) []
    (chained_traceFrom g 0 [c] s) (by rintro k ⟨v, hv, -⟩; cases hv) (by
      rintro pre v post hsplit hserved
      have hv : v ∈ g.trace [c] s := by rw [Gateway.trace, hsplit]; simp
      have hcall := (mem_trace_single.mp hv).2.2
      have hfollows := follows_of_split hsplit
      have hall : Serves Entry.expiresAt later (fun k => (∃ u ∈ [] ++ pre, Settles g u k) ∨
          v.outcome g = some .exactHit ∧ v.ExactKey k) v.state := by
        rintro k (hk | ⟨hhit, hk⟩)
        · exact hserved k hk
        · obtain ⟨e, he⟩ := eligible_of_exactHit hg hfollows hhit hk
          have hlive := (hfresh v hv).2 hhit k hk e he
          have hlater := eligible_eq_some_iff.mpr ⟨(eligible_eq_some_iff.mp he).1, hlive⟩
          rw [hlater]
          simp
      have hafter := serves_after hg hfollows (by rw [hcall]; exact hnow) hall (hfresh v hv).1
      rintro k ⟨u, hu, hsettles⟩
      apply hafter k
      rcases List.mem_append.mp hu with hu | hu
      · exact .inl (.inl ⟨u, hu, hsettles⟩)
      · rw [List.mem_singleton.mp hu] at hsettles
        rcases hsettles with hpublished | hhit
        · exact .inr hpublished
        · exact .inl (.inr hhit))
  simpa [Gateway.trace, Gateway.run] using hinv.1

/-! ## What the second run stores -/

/-- What the first run computed and may retain, it stored. -/
theorem mem_published (hg : MemoryBacked g) (hfollows : Follows v.done v.acc) {st : FragmentStatus}
    (hst : v.status g = some st) (hpolicy : policy v.sent = some eff)
    (hcheck : checkEnforceable g.backend.capabilities eff = .ok ())
    (hallow : eff.retention.mode = .allow) (hshare : eff.shareMax ≠ .request)
    (ho : st.outcome ≠ .exactHit) :
    ∃ x, InMemoryCache.expiry v.call.now eff.retention.maxAge = .ok x ∧
      (∃ k, cacheKey execution (contentsOf v.sent) (namespacesOf v.sent) (v.partition eff)
          st.exact = .ok k ∧ (⟨k, v.call.now, x, st.exact⟩ : Entry) ∈ v.published g) ∧
      ∀ c, v.item.approxClass = some c → ∀ dk,
        cacheKey execution [c] (namespacesOf v.sent) (v.partition eff) false = .ok dk →
          (⟨dk, v.call.now, x, false⟩ : Entry) ∈ v.published g := by
  obtain ⟨hints, o, a, r, t, hlookup, hretain, rfl⟩ := served_of_status hfollows hst hpolicy hcheck
  have ho : o ≠ .exactHit := ho
  have hobs := hg.ne_unobserved (resolves_of_resolve hlookup)
  obtain ⟨⟨k, hk⟩, x, hx⟩ := hg.stored_of_retain hcheck hobs ho hallow hshare hretain
  have hcomputes : v.Computes g eff o a t := ⟨hpolicy, hcheck, hlookup, ho⟩
  refine ⟨x, hx, ⟨k, hk, ?_⟩, fun c hc dk hdk => ?_⟩
  · rw [hcomputes.published]
    exact exists_mem_stored hallow hshare hk hx
  · rw [hcomputes.published, hc]
    exact donor_mem_stored hallow hshare hk hdk hx

/-- What the second run stores has not run out at its own time. -/
theorem Again.published_fresh (hg : MemoryBacked g) (hclock : ClockMonotone) (h : Again v w)
    (hfollows : Follows v.done v.acc) {st : FragmentStatus} (hst : v.status g = some st)
    (hfresh : ∀ e ∈ v.published g, ¬ Expired e.expiresAt w.call.now)
    (hserved : Serves Entry.expiresAt w.call.now (Settles g v) w.state) :
    ∀ e ∈ w.published g, ¬ Expired e.expiresAt w.call.now := by
  intro e he
  obtain ⟨eff, o, a, t, hcomputes, hstored⟩ := Event.exists_computes he
  have hpolicy : policy v.sent = some eff := by
    rw [← h.sent]
    exact hcomputes.policy
  have hout : st.outcome ≠ .exactHit := by
    intro hhit
    have hhit' : v.outcome g = some .exactHit := by rw [Event.outcome, hst, Option.map_some, hhit]
    obtain ⟨eff', a', t', hpolicy', hcheck', hlookup'⟩ := lookup_of_outcome hfollows hhit' (by simp)
    cases hpolicy.symm.trans hpolicy'
    obtain ⟨hreuse, k, e', hk, -⟩ := (hg.exactHit_iff (resolves_of_resolve hlookup')).mp rfl
    have hkey : v.ExactKey k := ⟨eff, hpolicy, hk⟩
    obtain ⟨e'', he''⟩ := Option.ne_none_iff_exists'.mp (hserved k (.inr ⟨hhit', hkey⟩))
    exact hcomputes.fresh ((hg.exactHit_iff (resolves_of_resolve hcomputes.lookup)).mpr
      ⟨hreuse, k, e'', h.exactKey hpolicy hstored.shared hkey, he''⟩)
  obtain ⟨x, hx, ⟨k, -, hmem⟩, -⟩ :=
    mem_published hg hfollows hst hpolicy hcomputes.enforceable hstored.allows hstored.shared hout
  have hlive := hfresh _ hmem
  have hexpiry := hstored.expiresAt
  cases hm : eff.retention.maxAge with
  | none =>
      rw [hm, InMemoryCache.expiry_none_eq_ok_iff] at hexpiry
      simp [Expired, hexpiry]
  | some m =>
      rw [hm, InMemoryCache.expiry_some_eq_ok_iff] at hexpiry hx
      obtain ⟨d', hplus', hd'⟩ := hexpiry
      obtain ⟨d, hplus, rfl⟩ := hx
      rw [expired_some, not_le] at hlive
      rw [hd', expired_some, not_le]
      exact hlive.trans_le (hclock _ _ m d d' h.now hplus hplus')

/-- Whatever the first run settled is served in front of every event of the
second. -/
theorem MemoryBacked.serves_again (hg : MemoryBacked g) (hclock : ClockMonotone)
    (hrepeats : Repeats c d) {r : Result} (h : (g.answer c s).1 = .ok r)
    (hfresh : StillFresh g (g.trace [c] s) d.now) (hw : w ∈ g.trace [d] (g.answer c s).2) :
    Serves Entry.expiresAt d.now (fun k => ∃ v ∈ g.trace [c] s, Settles g v k) w.state := by
  have hinv := Prog.Chained.invariant
    (fun _ s' => Serves Entry.expiresAt d.now (fun k => ∃ v ∈ g.trace [c] s, Settles g v k) s') []
    (chained_traceFrom g 0 [d] (g.answer c s).2) (hg.serves_settled hrepeats.now hfresh) (by
      rintro pre w post hsplit hserved
      have hw : w ∈ g.trace [d] (g.answer c s).2 := by rw [Gateway.trace, hsplit]; simp
      have hwcall := (mem_trace_single.mp hw).2.2
      obtain ⟨v, hv, hagain⟩ := exists_again hrepeats h hw
      obtain ⟨st, hst⟩ := exists_status ⟨r, h⟩ hv
      have hnow : w.call.now = d.now := by rw [hwcall]
      have hpublished := hagain.published_fresh hg hclock (follows_of_mem hv) hst
        (by rw [hnow]; exact (hfresh v hv).1)
        (by rw [hnow]; exact fun k hk => hserved k ⟨v, hv, hk⟩)
      rw [hnow] at hpublished
      have hafter := serves_after hg (follows_of_split hsplit) hnow.le hserved hpublished
      exact fun k hk => hafter k (.inl hk))
  obtain ⟨pre, post, hsplit⟩ := List.append_of_mem hw
  exact hinv.2 pre w post hsplit

/-! ## Found again -/

theorem MemoryBacked.avoids_run (hg : MemoryBacked g) (hcf : CollisionFree) (calls : List Call)
    (h : Avoids OfRequest s) :
    Avoids OfRequest (g.run calls s).2 ∧ ∀ v ∈ g.trace calls s, Avoids OfRequest v.state := by
  have hinv := Prog.Chained.invariant (fun _ s => Avoids OfRequest s) []
    (chained_traceFrom g 0 calls s) h (by
      rintro pre v post hsplit havoids
      have hturn := turn_handleFragment g v.call.auth v.call.now v.call.requestId
        (follows_of_split hsplit) v.item
      exact hturn.within (fun _ h => h) (fun _ _ _ _ hcheck => hg.avoids_serve hcf hcheck)
        v.state havoids)
  refine ⟨hinv.1, fun v hv => ?_⟩
  obtain ⟨pre, post, hsplit⟩ := List.append_of_mem hv
  exact hinv.2 pre v post hsplit

/-- A fragment reported as retained is not request-scoped, where nothing is stored
for one request only. -/
theorem share_of_retained (hg : MemoryBacked g)
    (havoids : Avoids OfRequest v.state) (hfollows : Follows v.done v.acc) {st : FragmentStatus}
    (hst : v.status g = some st) (hretained : st.retention = .retained) :
    ∃ eff, policy v.sent = some eff ∧ checkEnforceable g.backend.capabilities eff = .ok () ∧
      st.effectiveReuse = some eff.reuse ∧ eff.shareMax ≠ .request ∧
      (st.outcome ≠ .exactHit → eff.retention.mode = .allow) := by
  cases reports_of_status hfollows hst with
  | bare hcs => cases hretained
  | bypassed hints eff e hpolicy hcheck hmode =>
      by_cases hforbid : eff.retention.mode = .forbid <;>
        simp [Gateway.statusOf, hforbid] at hretained
  | served hints eff o a r t hpolicy hcheck hlookup hretain =>
      refine ⟨eff, hpolicy, hcheck, rfl, ?_⟩
      have hr := (retention_of_retain hretain).symm.trans hretained
      rcases retentionOf_eq_retained_iff.mp hr with rfl | ⟨-, hallow, hshare⟩
      · refine ⟨fun hreq => ?_, fun ho => absurd rfl ho⟩
        obtain ⟨-, k, e, hk, he⟩ := (hg.exactHit_iff (resolves_of_resolve hlookup)).mp rfl
        have hkind : OfRequest k := ⟨v.call.auth, _, _, _, _, by rw [← hreq]; exact hk⟩
        have hnone := havoids k hkind
        rw [(eligible_eq_some_iff.mp he).1] at hnone
        cases hnone
      · exact ⟨hshare, fun _ => hallow⟩

/-- A lookup that finds an entry under its exact key, or under its donor key where
it may use that, is a hit. -/
theorem hit_of_lookup (hg : MemoryBacked g) (hfollows : Follows v.done v.acc) {st : FragmentStatus}
    (hst : v.status g = some st) (hpolicy : policy v.sent = some eff)
    (hcheck : checkEnforceable g.backend.capabilities eff = .ok ()) (hreuse : eff.reuse ≠ .none)
    (h : (∃ k, cacheKey execution (contentsOf v.sent) (namespacesOf v.sent) (v.partition eff)
          true = .ok k ∧ eligible Entry.expiresAt v.state k v.call.now ≠ none) ∨
      eff.reuse = .approximate ∧ ∃ c dk, v.item.approxClass = some c ∧
        cacheKey execution [c] (namespacesOf v.sent) (v.partition eff) false = .ok dk ∧
        eligible Entry.expiresAt v.state dk v.call.now ≠ none) :
    st.outcome = .exactHit ∨ st.outcome = .approximateHit := by
  obtain ⟨hints, o, a, r, t, hlookup, -, rfl⟩ := served_of_status hfollows hst hpolicy hcheck
  have hresolves := resolves_of_resolve hlookup
  show o = .exactHit ∨ o = .approximateHit
  rcases h with ⟨k, hk, hne⟩ | ⟨happrox, c, dk, hc, hdk, hne⟩
  · obtain ⟨e, he⟩ := Option.ne_none_iff_exists'.mp hne
    exact .inl ((hg.exactHit_iff hresolves).mpr ⟨hreuse, k, e, hk, he⟩)
  · obtain ⟨k, hk⟩ := hresolves.exists_key hg.observes hreuse
    obtain ⟨e, he⟩ := Option.ne_none_iff_exists'.mp hne
    cases hmissing : eligible Entry.expiresAt v.state k v.call.now with
    | some e' => exact .inl ((hg.exactHit_iff hresolves).mpr ⟨hreuse, k, e', hk, hmissing⟩)
    | none =>
        exact .inr ((hg.approximateHit_iff hresolves).mpr
          ⟨happrox, ⟨k, hk, hmissing⟩, c, dk, e, hc, hdk, he⟩)

theorem settles_donor (hg : MemoryBacked g) (hfollows : Follows v.done v.acc) {st : FragmentStatus}
    (hst : v.status g = some st) (hpolicy : policy v.sent = some eff)
    (hcheck : checkEnforceable g.backend.capabilities eff = .ok ())
    (hallow : eff.retention.mode = .allow) (hshare : eff.shareMax ≠ .request)
    (ho : st.outcome ≠ .exactHit) (happrox : eff.reuse = .approximate) {c : Str}
    (hc : v.item.approxClass = some c) :
    ∃ dk, cacheKey execution [c] (namespacesOf v.sent) (v.partition eff) false = .ok dk ∧
      Settles g v dk := by
  obtain ⟨x, -, -, hdonor⟩ := mem_published hg hfollows hst hpolicy hcheck hallow hshare ho
  obtain ⟨hints, o, a, r, t, hlookup, -, rfl⟩ := served_of_status hfollows hst hpolicy hcheck
  obtain ⟨dk, hdk⟩ :=
    donorKeyed_of_resolves hg.observes (resolves_of_resolve hlookup) ho happrox c hc
  exact ⟨dk, hdk, .inl ⟨_, hdonor c hc dk hdk, rfl⟩⟩

/-- The status of the second run, from that of the first. -/
theorem Again.found (hg : MemoryBacked g) (h : Again v w) (havoids : Avoids OfRequest v.state)
    (hserved : Serves Entry.expiresAt w.call.now (Settles g v) w.state)
    (hv : Follows v.done v.acc) (hw : Follows w.done w.acc) {st st' : FragmentStatus}
    (hst : v.status g = some st) (hst' : w.status g = some st') (hretained : st.retention = .retained)
    (hreuse : st.effectiveReuse ≠ some .none)
    (hclass : ∀ eff, policy v.sent = some eff → st.exact = false → st.outcome ≠ .exactHit →
      eff.reuse = .approximate ∧ v.item.approxClass ≠ none) :
    st'.outcome = .exactHit ∨ st'.outcome = .approximateHit := by
  obtain ⟨eff, hpolicy, hcheck, heff, hshare, hallow⟩ :=
    share_of_retained hg havoids hv hst hretained
  have hreuse : eff.reuse ≠ .none := fun hnone => hreuse (by rw [heff, hnone])
  have hpolicy' : policy w.sent = some eff := by rw [h.sent, hpolicy]
  apply hit_of_lookup hg hw hst' hpolicy' hcheck hreuse
  rw [h.sent, h.partition hshare, h.item]
  by_cases ho : st.outcome = .exactHit
  · have hhit : v.outcome g = some .exactHit := by rw [Event.outcome, hst, Option.map_some, ho]
    obtain ⟨eff', a, t, hpolicy'', -, hlookup⟩ := lookup_of_outcome hv hhit (by simp)
    cases hpolicy.symm.trans hpolicy''
    obtain ⟨-, k, e, hk, -⟩ := (hg.exactHit_iff (resolves_of_resolve hlookup)).mp rfl
    exact .inl ⟨k, hk, hserved k (.inr ⟨hhit, eff, hpolicy, hk⟩)⟩
  · have hallow := hallow ho
    cases hexact : st.exact with
    | true =>
        obtain ⟨x, -, ⟨k, hk, hmem⟩, -⟩ :=
          mem_published hg hv hst hpolicy hcheck hallow hshare ho
        rw [hexact] at hk
        exact .inl ⟨k, hk, hserved k (.inl ⟨_, hmem, rfl⟩)⟩
    | false =>
        obtain ⟨happrox, hsome⟩ := hclass eff hpolicy hexact ho
        obtain ⟨c, hc⟩ := Option.ne_none_iff_exists'.mp hsome
        obtain ⟨dk, hdk, hsettles⟩ :=
          settles_donor hg hv hst hpolicy hcheck hallow hshare ho happrox hc
        exact .inr ⟨happrox, c, dk, hc, hdk, hserved dk hsettles⟩

/-! ## Not found again -/

/-- Only the untainted computation of the same prefix stores under its exact
key. -/
theorem exact_of_published (hcf : CollisionFree) (hauth : u.call.auth = v.call.auth)
    (hshare : eff.shareMax ≠ .request)
    (hk : cacheKey execution (contentsOf v.sent) (namespacesOf v.sent) (v.partition eff) true =
      .ok k) (he : e ∈ u.published g) (hkey : e.key = k) :
    u.sent.length = v.sent.length ∧ u.acc.taintedApproximate = false := by
  obtain ⟨eff', o, a, t, hcomputes, hstored⟩ := Event.exists_computes he
  subst hkey
  unfold Event.partition at hk
  rcases hstored.key with ⟨hkey, -⟩ | ⟨-, c, -, hkey⟩
  · unfold Event.partition at hkey
    rw [hauth] at hkey
    obtain ⟨hexact, -, hcontents⟩ := cacheKey_inj_of_auth hcf hshare hk hkey
    have hlength := congrArg List.length hcontents
    simp only [contentsOf, List.length_map] at hlength
    simp only [Bool.true_eq, Bool.not_eq_true', Bool.or_eq_false_iff] at hexact
    exact ⟨hlength.symm, hexact.1⟩
  · unfold Event.partition at hkey
    rw [hauth] at hkey
    cases (cacheKey_inj_of_auth hcf hshare hk hkey).1

theorem eligible_after (hg : MemoryBacked g) (hfollows : Follows v.done v.acc)
    (hnow : v.call.now ≤ later) (hnone : eligible Entry.expiresAt v.state k later = none)
    (hne : ∀ e ∈ v.published g, e.key ≠ k) : eligible Entry.expiresAt (v.after g) k later = none := by
  obtain ⟨t, hprunes, hafter⟩ := hg.after_eq hfollows
  rw [hafter, eligible_insertAll_of_ne hne, hprunes.eligible_eq hnow]
  exact hnone

/-- The exact state of a fragment that was computed behind a donor is not there
when it is asked for again. -/
theorem MemoryBacked.unserved_again (hg : MemoryBacked g) (hcf : CollisionFree)
    (hrepeats : Repeats c d) (hv : v ∈ g.trace [c] s) (hshare : eff.shareMax ≠ .request)
    (hk : cacheKey execution (contentsOf v.sent) (namespacesOf v.sent) (v.partition eff) true =
      .ok k)
    (hnone : eligible Entry.expiresAt v.state k v.call.now = none)
    (htaint : v.acc.taintedApproximate = true) (hw : w ∈ g.trace [d] (g.answer c s).2)
    (hsent : w.sent = v.sent) : eligible Entry.expiresAt w.state k w.call.now = none := by
  have hvcall := (mem_trace_single.mp hv).2.2
  have hwcall := (mem_trace_single.mp hw).2.2
  rw [hvcall] at hnone
  -- in the first run `v` is the only event that could store the state, and it is tainted
  have hfirst := Prog.Chained.invariant
    (fun hist s => v ∈ hist → eligible Entry.expiresAt s k d.now = none) []
    (chained_traceFrom g 0 [c] s) (fun h => by cases h) (by
      rintro pre u post hsplit hpre hmem
      have hu : u ∈ g.trace [c] s := by rw [Gateway.trace, hsplit]; simp
      have hucall := (mem_trace_single.mp hu).2.2
      refine eligible_after hg (follows_of_split hsplit) (by rw [hucall]; exact hrepeats.now) ?_ ?_
      · rcases List.mem_append.mp hmem with hmem | hmem
        · exact hpre hmem
        · rw [← List.mem_singleton.mp hmem]
          exact eligible_none_mono hnone hrepeats.now
      · intro e he hkey
        obtain ⟨hlength, hclean⟩ := exact_of_published hcf (hucall.symm ▸ hvcall.symm ▸ rfl)
          hshare hk he hkey
        rcases List.mem_append.mp hmem with hmem | hmem
        · have hle := (sent_prefix_of_mem_pre hsplit hmem (by
            rw [(mem_trace_single.mp hv).2.1, (mem_trace_single.mp hu).2.1])).1.length_le
          rw [sent_length u] at hlength
          omega
        · rw [← List.mem_singleton.mp hmem, htaint] at hclean
          cases hclean)
  have hbetween : eligible Entry.expiresAt (g.answer c s).2 k d.now = none := by
    simpa [Gateway.run] using hfirst.1 (by simpa [Gateway.trace] using hv)
  -- in the second run no shorter prefix stores it
  have hsecond := Prog.Chained.invariant
    (fun hist s => (∀ u ∈ hist, u.sent.length < v.sent.length) →
      eligible Entry.expiresAt s k d.now = none) []
    (chained_traceFrom g 0 [d] (g.answer c s).2) (fun _ => hbetween) (by
      rintro pre u post hsplit hpre hshort
      have hu : u ∈ g.trace [d] (g.answer c s).2 := by rw [Gateway.trace, hsplit]; simp
      have hucall := (mem_trace_single.mp hu).2.2
      refine eligible_after hg (follows_of_split hsplit) (by rw [hucall]) ?_ ?_
      · exact hpre fun x hx => hshort x (List.mem_append_left _ hx)
      · intro e he hkey
        have hauth : u.call.auth = v.call.auth := by rw [hucall, hvcall, hrepeats.auth]
        have hlength := (exact_of_published hcf hauth hshare hk he hkey).1
        have hlt := hshort u (by simp)
        omega)
  obtain ⟨pre, post, hsplit⟩ := List.append_of_mem hw
  rw [hwcall]
  refine hsecond.2 pre w post hsplit fun u hu => ?_
  have hu : u ∈ pre := by simpa using hu
  have humem : u ∈ g.trace [d] (g.answer c s).2 := by simp [hsplit, hu]
  have hle := (sent_prefix_of_mem_pre hsplit hu (by
    rw [(mem_trace_single.mp humem).2.1, (mem_trace_single.mp hw).2.1])).1.length_le
  rw [← hsent, sent_length w]
  omega

/-! ## Both runs -/

theorem MemoryBacked.addressable_of_found (hg : MemoryBacked g) (hcf : CollisionFree)
    (hrepeats : Repeats c d) {r r' : Result} (h : (g.answer c s).1 = .ok r)
    (h' : (g.answer d (g.answer c s).2).1 = .ok r') (hfound : RetainedFound r r') :
    Addressable g (g.trace [c] s) := by
  intro v hv u hu hsent hdonor eff hstorable hreuse
  obtain ⟨st, hst⟩ := exists_status ⟨r, h⟩ hv
  obtain ⟨pre, post, hsplit⟩ := List.append_of_mem hv
  have hidx : u.index = v.index := by
    rw [(mem_trace_single.mp hu).2.1, (mem_trace_single.mp hv).2.1]
  have htaint : v.acc.taintedApproximate = true := by
    rw [← Bool.not_eq_false, untainted_iff_donors hsplit]
    exact fun hnone => hnone u hu hidx hsent hdonor
  have hpublished := hg.published_ne_nil_iff.mpr ⟨eff, hstorable⟩
  obtain ⟨e, he⟩ := List.exists_mem_of_ne_nil _ hpublished
  obtain ⟨eff', o, a, t, hcomputes, -⟩ := Event.exists_computes he
  have hpolicy : policy v.sent = some eff := hstorable.policy
  cases hpolicy.symm.trans hcomputes.policy
  obtain ⟨w, hw, hagain, st', hst', hat'⟩ := exists_second hrepeats h' hv
  obtain ⟨k, hk, hmissing⟩ := hstorable.key
  have hunserved := hg.unserved_again hcf hrepeats hv hstorable.shared hk
    (hmissing.resolve_left hreuse) htaint hw hagain.sent
  have hretained : st.retention = .retained ∧ st.effectiveReuse ≠ some .none := by
    obtain ⟨hints, o', a', r, t', hlookup, hretain, rfl⟩ :=
      served_of_status (follows_of_mem hv) hst hpolicy hstorable.enforceable
    cases hlookup.symm.trans hcomputes.lookup
    have hobs := hg.ne_unobserved (resolves_of_resolve hlookup)
    refine ⟨(retention_of_retain hretain).trans (retentionOf_eq_retained_iff.mpr
      (.inr ⟨hobs, hstorable.allows, hstorable.shared⟩)), fun hnone => ?_⟩
    exact hreuse (Option.some.inj hnone)
  obtain ⟨st'', hat'', hhit⟩ := hfound v.done.length st
    (by rw [status_of_event h hv, hst]) hretained.1 hretained.2
  cases hat'.symm.trans hat''
  have hwpolicy : policy w.sent = some eff := by rw [hagain.sent, hpolicy]
  rcases hhit with hhit | hhit
  · have hout : w.outcome g = some .exactHit := by rw [Event.outcome, hst', Option.map_some, hhit]
    obtain ⟨eff', a', t', hpolicy', -, hlookup⟩ :=
      lookup_of_outcome (follows_of_mem hw) hout (by simp)
    cases hwpolicy.symm.trans hpolicy'
    obtain ⟨-, k', e', hk', he'⟩ := (hg.exactHit_iff (resolves_of_resolve hlookup)).mp rfl
    rw [hagain.sent, hagain.partition hstorable.shared] at hk'
    cases hk.symm.trans hk'
    cases hunserved.symm.trans he'
  · have hout : w.outcome g = some .approximateHit := by
      rw [Event.outcome, hst', Option.map_some, hhit]
    obtain ⟨eff', a', t', hpolicy', -, hlookup⟩ :=
      lookup_of_outcome (follows_of_mem hw) hout (by simp)
    cases hwpolicy.symm.trans hpolicy'
    obtain ⟨happrox, -, c', dk, e', hc', -⟩ :=
      (hg.approximateHit_iff (resolves_of_resolve hlookup)).mp rfl
    rw [hagain.item] at hc'
    exact ⟨happrox, by simp [hc']⟩

theorem MemoryBacked.found_of_addressable (hg : MemoryBacked g) (hcf : CollisionFree)
    (hclock : ClockMonotone) (havoids : Avoids OfRequest s) (hrepeats : Repeats c d)
    {r r' : Result} (h : (g.answer c s).1 = .ok r) (h' : (g.answer d (g.answer c s).2).1 = .ok r')
    (hfresh : StillFresh g (g.trace [c] s) d.now) (haddressable : Addressable g (g.trace [c] s)) :
    RetainedFound r r' := by
  intro i st hat hretained hreuse
  obtain ⟨v, hv, rfl, hst⟩ := exists_event_of_status h hat
  obtain ⟨w, hw, hagain, st', hst', hat'⟩ := exists_second hrepeats h' hv
  have hwcall := (mem_trace_single.mp hw).2.2
  have hserved := hg.serves_again hclock hrepeats h hfresh hw
  have hvavoids := (hg.avoids_run hcf [c] havoids).2 v hv
  refine ⟨st', hat', hagain.found hg hvavoids
    (by rw [hwcall]; exact fun k hk => hserved k ⟨v, hv, hk⟩)
    (follows_of_mem hv) (follows_of_mem hw) hst hst' hretained hreuse
    fun eff hpolicy hexact ho => ?_⟩
  obtain ⟨eff', hpolicy', hcheck, heff, hshare, hallow⟩ :=
    share_of_retained hg hvavoids (follows_of_mem hv) hst hretained
  cases hpolicy.symm.trans hpolicy'
  have hnone : eff.reuse ≠ .none := fun hnone => hreuse (by rw [heff, hnone])
  by_cases happrox : st.outcome = .approximateHit
  · have hout : v.outcome g = some .approximateHit := by
      rw [Event.outcome, hst, Option.map_some, happrox]
    obtain ⟨eff', a, t, hpolicy', -, hlookup⟩ :=
      lookup_of_outcome (follows_of_mem hv) hout (by simp)
    cases hpolicy.symm.trans hpolicy'
    obtain ⟨hreuse', -, c', dk, e', hc', -⟩ :=
      (hg.approximateHit_iff (resolves_of_resolve hlookup)).mp rfl
    exact ⟨hreuse', by simp [hc']⟩
  · -- the fragment itself took no donor, so an earlier one did
    have htaint : v.acc.taintedApproximate = true := by
      obtain ⟨hints, o, a, r, t, hlookup, -, rfl⟩ :=
        served_of_status (follows_of_mem hv) hst hpolicy hcheck
      have hflag : a = false := by
        rw [← Bool.not_eq_true, flag_of_lookup hlookup]
        exact happrox
      simpa [Gateway.statusOf, hflag] using hexact
    obtain ⟨pre, post, hsplit⟩ := List.append_of_mem hv
    have hdonors := mt (untainted_iff_donors hsplit).mpr (by simp [htaint])
    push Not at hdonors
    obtain ⟨u, hu, -, hsent, hdonor⟩ := hdonors
    obtain ⟨x, -, ⟨k, -, hmem⟩, -⟩ :=
      mem_published hg (follows_of_mem hv) hst hpolicy hcheck (hallow ho) hshare ho
    obtain ⟨eff', hstorable⟩ := hg.published_ne_nil_iff.mp (List.ne_nil_of_mem hmem)
    have hsame : policy v.sent = some eff' := hstorable.policy
    cases hpolicy.symm.trans hsame
    exact haddressable v hv u hu hsent hdonor eff hstorable hnone

/-! ## A backend that stores nothing -/

def nullGateway (mode : OnUnenforceable) : Gateway Unit := ⟨nullBackend, mode⟩

theorem checkEnforceable_null (eff : Effective) :
    checkEnforceable nullBackend.capabilities eff = .ok () := by
  refine checkEnforceable_eq_ok_iff.mpr ⟨?_, fun _ => rfl, ?_, ?_, fun _ => rfl⟩
  · cases eff.retention.mode <;> simp [nullBackend]
  · cases eff.reuse <;> simp [nullBackend]
  · cases eff.shareMax <;> simp [nullBackend, allScopes]

theorem null_lookup {mode : OnUnenforceable} {contents namespaces : List Str} {partition : Str}
    {now : Time} {approxClass : Option Str} {x y : Unit} {o : Outcome} {a : Bool}
    (h : Resolves (nullGateway mode) eff contents namespaces partition now approxClass x y o a) :
    o = .bypass ∨ o = .miss := by
  cases h with
  | unobserved hobs => cases hobs
  | bypass => exact .inl rfl
  | exactHit k e _ _ _ hget => cases hget
  | approximateHit k c dk e u _ _ _ _ _ _ hdonor => cases hdonor
  | missDonor => exact .inr rfl
  | miss => exact .inr rfl

/-- The policy asks to keep what it then wants to find. -/
def WantsKeeping (eff : Effective) : Prop :=
  eff.retention.mode = .allow ∧ eff.shareMax ≠ .request ∧ eff.reuse ≠ .none

theorem null_status_iff {mode : OnUnenforceable} {v : Event Unit} (hfollows : Follows v.done v.acc)
    {st : FragmentStatus} (hst : v.status (nullGateway mode) = some st) :
    (st.retention = .retained ∧ st.effectiveReuse ≠ some .none ↔
      ∃ eff, policy v.sent = some eff ∧ WantsKeeping eff) ∧
    st.outcome ≠ .exactHit ∧ st.outcome ≠ .approximateHit := by
  cases reports_of_status hfollows hst with
  | bare hcs =>
      refine ⟨⟨fun h => ?_, fun h => ?_⟩, by simp [Gateway.bareStatus],
        by simp [Gateway.bareStatus]⟩
      · cases h.1
      · obtain ⟨eff, hpolicy, -⟩ := h
        cases hpolicy.symm.trans (policy_eq_none_of_bare hcs)
  | bypassed hints eff e hpolicy hcheck hmode => cases (checkEnforceable_null eff).symm.trans hcheck
  | served hints eff o a r t hpolicy hcheck hlookup hretain =>
      have hout := null_lookup (resolves_of_resolve hlookup)
      have hr := retention_of_retain hretain
      have hretained : r = .retained ↔ eff.retention.mode = .allow ∧ eff.shareMax ≠ .request := by
        rw [hr, retentionOf_eq_retained_iff]
        rcases hout with rfl | rfl <;> simp
      refine ⟨?_, ?_⟩
      · show r = .retained ∧ some eff.reuse ≠ some .none ↔ _
        rw [hretained]
        simp [hpolicy, WantsKeeping, and_assoc]
      · show o ≠ .exactHit ∧ o ≠ .approximateHit
        rcases hout with rfl | rfl <;> simp

end

/-- The two answers of a gateway to a call and to its repetition, from the state
`s`. -/
structure AnswersTwice [Runtime] {σ : Type} (g : Gateway σ) (s : σ) (c d : Call) (r r' : Result) :
    Prop where
  repeats : Repeats c d
  first : (g.answer c s).1 = .ok r
  second : (g.answer d (g.answer c s).2).1 = .ok r'

/-- From every reachable state, and while nothing has run out, what was reported
as retained is found again if and only if whatever is to be stored behind a donor
permits approximation and has a class.  On a backend that stores nothing it must
not be asked for. -/
theorem retained_found_iff [Runtime] (hcf : CollisionFree) (hclock : ClockMonotone)
    (mode : OnUnenforceable) :
    (∀ g, g = inMemoryGateway mode ∨ g = saltOnlyGateway mode → ∀ calls s c d r r',
      (g.run calls ∅).2 = s → AnswersTwice g s c d r r' → StillFresh g (g.trace [c] s) d.now →
        (RetainedFound r r' ↔ Addressable g (g.trace [c] s))) ∧
    ∀ s c d r r', AnswersTwice (nullGateway mode) s c d r r' →
      (RetainedFound r r' ↔ ∀ v ∈ (nullGateway mode).trace [c] s, ∀ eff,
        policy v.sent = some eff → ¬ WantsKeeping eff) := by
  constructor
  · rintro g hg calls s c d r r' rfl ⟨hrepeats, h, h'⟩ hfresh
    have hbacked : MemoryBacked g := by
      rcases hg with rfl | rfl
      · exact memoryBacked_inMemory mode
      · exact memoryBacked_saltOnly mode
    have havoids := (hbacked.avoids_run hcf calls (avoids_empty OfRequest)).1
    exact ⟨hbacked.addressable_of_found hcf hrepeats h h',
      hbacked.found_of_addressable hcf hclock havoids hrepeats h h' hfresh⟩
  · rintro s c d r r' ⟨hrepeats, h, h'⟩
    constructor
    · intro hfound v hv eff hpolicy hwants
      obtain ⟨st, hst⟩ := exists_status ⟨r, h⟩ hv
      obtain ⟨w, hw, hagain, st', hst', hat'⟩ := exists_second hrepeats h' hv
      obtain ⟨hretained, hreuse⟩ :=
        (null_status_iff (follows_of_mem hv) hst).1.mpr ⟨eff, hpolicy, hwants⟩
      obtain ⟨st'', hat'', hhit⟩ := hfound v.done.length st
        (by rw [status_of_event h hv, hst]) hretained hreuse
      cases hat'.symm.trans hat''
      obtain ⟨-, hexact, happrox⟩ := null_status_iff (follows_of_mem hw) hst'
      exact hhit.elim hexact happrox
    · intro hnone i st hat hretained hreuse
      obtain ⟨v, hv, -, hst⟩ := exists_event_of_status h hat
      obtain ⟨eff, hpolicy, hwants⟩ :=
        (null_status_iff (follows_of_mem hv) hst).1.mp ⟨hretained, hreuse⟩
      exact absurd hwants (hnone v hv eff hpolicy)

section

attribute [local instance] reference

theorem clockMonotone_reference : ClockMonotone := by
  intro (t : ℕ) (t' : ℕ) m d d' (hle : t ≤ t') hd hd'
  cases hd
  cases hd'
  exact Nat.add_le_add_right hle m

def donorCall : Call :=
  sampleCall alice 0
    [sampleFragment "a" (some (intentText (.allow none) "approximate" "tenant"))
      (some (lit "k"))]

/-- The first fragment is served by a donor, and the second one, computed on top of it, has
a class of its own. -/
def classedCall (now : ℕ) : Call :=
  sampleCall alice now
    [sampleFragment "b" (some (intentText (.allow none) "approximate" "tenant")) (some (lit "k")),
      sampleFragment "c" (some (intentText (.allow none) "approximate" "tenant"))
        (some (lit "m"))]

theorem retained_found_iff_classedCall :
    ∃ r r', AnswersTwice (inMemoryGateway .bypass) ((inMemoryGateway .bypass).run [donorCall] ∅).2
        (classedCall 1) (classedCall 2) r r' ∧
      r.statuses.map FragmentStatus.outcome = [.approximateHit, .miss] ∧ RetainedFound r r' := by
  generalize hs : ((inMemoryGateway .bypass).run [donorCall] ∅).2 = s
  have hfirst : ((inMemoryGateway .bypass).answer (classedCall 1) s).1.toOption.map (fun r =>
      r.statuses.map FragmentStatus.outcome) = some [.approximateHit, .miss] := by
    subst hs
    decide +kernel
  have hsecond : ((inMemoryGateway .bypass).answer (classedCall 2)
      ((inMemoryGateway .bypass).answer (classedCall 1) s).2).1.toOption.isSome = true := by
    subst hs
    decide +kernel
  have hevents : ∀ v ∈ (inMemoryGateway .bypass).trace [classedCall 1] s,
      (∀ e ∈ v.published (inMemoryGateway .bypass), ¬ Expired e.expiresAt (2 : ℕ)) ∧
      v.outcome (inMemoryGateway .bypass) ≠ some .exactHit ∧
      (policy v.sent).all (fun eff => eff.reuse = .approximate) = true ∧
      v.item.approxClass ≠ none := by
    subst hs
    decide +kernel
  obtain ⟨r, hr, houtcomes⟩ := Option.map_eq_some_iff.mp hfirst
  obtain ⟨r', hr'⟩ := Option.isSome_iff_exists.mp hsecond
  have htwice : AnswersTwice (inMemoryGateway .bypass) s (classedCall 1) (classedCall 2) r r' :=
    ⟨⟨rfl, rfl, rfl, by decide⟩, toOption_eq_some_iff.mp hr, toOption_eq_some_iff.mp hr'⟩
  refine ⟨r, r', htwice, houtcomes, ((retained_found_iff collisionFree_reference
    clockMonotone_reference .bypass).1 _ (.inl rfl) [donorCall] s _ _ r r' hs htwice ?_).mpr ?_⟩
  · exact fun v hv => ⟨(hevents v hv).1, fun hhit => absurd hhit (hevents v hv).2.1⟩
  · intro v hv u hu hsent hdonor eff hstorable hreuse
    obtain ⟨-, -, happrox, hclass⟩ := hevents v hv
    have hpolicy : policy v.sent = some eff := hstorable.policy
    rw [hpolicy] at happrox
    exact ⟨of_decide_eq_true happrox, hclass⟩

/-- The first fragment is served by a donor, and the second is computed on top of
it although it asks for exact state. -/
def behindDonorCall (now : ℕ) : Call :=
  sampleCall alice now
    [sampleFragment "b" (some (intentText (.allow none) "approximate" "tenant")) (some (lit "k")),
      sampleFragment "c" (some (intentText (.allow none) "exact" "tenant")) none]

theorem not_retained_found :
    ¬ ∀ (mode : OnUnenforceable) calls s c d r r',
      ((inMemoryGateway mode).run calls ∅).2 = s → AnswersTwice (inMemoryGateway mode) s c d r r' →
      StillFresh (inMemoryGateway mode) ((inMemoryGateway mode).trace [c] s) d.now →
        RetainedFound r r' := by
  intro h
  generalize hs : ((inMemoryGateway .bypass).run [donorCall] ∅).2 = s at *
  have hfirst : (((inMemoryGateway .bypass).answer (behindDonorCall 1) s).1.toOption.map fun r =>
      r.statuses[1]?.map fun st => (st.retention, st.effectiveReuse)) =
      some (some (.retained, some .exact)) := by
    subst hs
    decide +kernel
  have hsecond : (((inMemoryGateway .bypass).answer (behindDonorCall 2)
      ((inMemoryGateway .bypass).answer (behindDonorCall 1) s).2).1.toOption.map fun r =>
        r.statuses[1]?.map FragmentStatus.outcome) = some (some .miss) := by
    subst hs
    decide +kernel
  have hfresh : ∀ v ∈ (inMemoryGateway .bypass).trace [behindDonorCall 1] s,
      (∀ e ∈ v.published (inMemoryGateway .bypass), ¬ Expired e.expiresAt (2 : ℕ)) ∧
      v.outcome (inMemoryGateway .bypass) ≠ some .exactHit := by
    subst hs
    decide +kernel
  obtain ⟨r, hr, hat⟩ := Option.map_eq_some_iff.mp hfirst
  obtain ⟨st, hst, hretained⟩ := Option.map_eq_some_iff.mp hat
  obtain ⟨hretained, hreuse⟩ := Prod.mk.inj hretained
  obtain ⟨r', hr', hat'⟩ := Option.map_eq_some_iff.mp hsecond
  have htwice : AnswersTwice (inMemoryGateway .bypass) s (behindDonorCall 1) (behindDonorCall 2)
      r r' := ⟨⟨rfl, rfl, rfl, by decide⟩, toOption_eq_some_iff.mp hr, toOption_eq_some_iff.mp hr'⟩
  obtain ⟨st', hst', hhit⟩ := h .bypass [donorCall] s _ _ r r' hs htwice
    (fun v hv => ⟨(hfresh v hv).1, fun hhit => absurd hhit (hfresh v hv).2⟩) 1 st hst hretained
    (by simp [hreuse])
  rw [hst', Option.map_some, Option.some.injEq] at hat'
  simp [hat'] at hhit

end

end CacheControl

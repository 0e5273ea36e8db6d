import CacheControl.History

/-!
# Where served state comes from

Every hit finds an entry that an earlier event published.  Following these
sources backwards tells what served state was derived from: state served as
exact never rests on a donor, while the bound of a donor follows what was
derived from it only where each approximate hit keeps within it.
-/

open PyText ExpiringStore

namespace CacheControl

section Sources

variable [Runtime] {g : Gateway Entries} {calls : List Call} {pre post : List (Event Entries)}
  {trace : List (Event Entries)} {u v w x : Event Entries} {k : Str} {e : Entry}
  {eff weff : Effective}

/-- The lookup of `v` under `k` finds the entry `e`, which `w` published. -/
def FoundBy (g : Gateway Entries) (trace : List (Event Entries)) (v : Event Entries) (k : Str)
    (e : Entry) (w : Event Entries) : Prop :=
  ∃ pre post, trace = pre ++ v :: post ∧
    IsLatest (fun w => ∃ e, Writes g w k e) pre w ∧ Writes g w k e ∧
    eligible Entry.expiresAt v.state k v.call.now = some e

theorem MemoryBacked.exists_foundBy (hg : MemoryBacked g) (hv : v ∈ g.trace calls ∅)
    (he : eligible Entry.expiresAt v.state k v.call.now = some e) :
    ∃ w, FoundBy g (g.trace calls ∅) v k e w := by
  obtain ⟨pre, post, hsplit⟩ := List.append_of_mem hv
  obtain ⟨w, hlatest, hwrites⟩ :=
    ((hg.ledger calls).1 pre v post hsplit).1 k e (eligible_eq_some_iff.mp he).1
  exact ⟨w, pre, post, hsplit, hlatest, hwrites, he⟩

theorem FoundBy.mem (h : FoundBy g trace v k e w) : w ∈ trace := by
  obtain ⟨pre, post, rfl, hlatest, -⟩ := h
  simp [hlatest.mem]

theorem FoundBy.earlier (h : FoundBy g (g.trace calls ∅) v k e w) :
    w.index ≤ v.index ∧ w ≠ v := by
  obtain ⟨pre, post, hsplit, hlatest, -⟩ := h
  refine ⟨index_le_of_mem_pre hsplit hlatest.mem, ?_⟩
  rintro rfl
  have hlen := (sent_prefix_of_mem_pre hsplit hlatest.mem rfl).1.length_le
  rw [sent_length] at hlen
  omega

theorem FoundBy.writes (h : FoundBy g trace v k e w) : Writes g w k e := by
  obtain ⟨pre, post, -, -, hwrites, -⟩ := h
  exact hwrites

theorem FoundBy.eligible (h : FoundBy g trace v k e w) :
    eligible Entry.expiresAt v.state k v.call.now = some e := by
  obtain ⟨pre, post, -, -, -, he⟩ := h
  exact he

/-! ## Exact state -/

/-- `v` is an exact hit on the entry that `w` published. -/
def ExactSource (g : Gateway Entries) (trace : List (Event Entries)) (v w : Event Entries) :
    Prop :=
  v.outcome g = some .exactHit ∧ ∃ eff k e, policy v.sent = some eff ∧
    cacheKey execution (contentsOf v.sent) (namespacesOf v.sent) (v.partition eff) true = .ok k ∧
    FoundBy g trace v k e w

/-- The state of `x` depends on that of `y`: `x` was served the state of `y`, or
`y` is an earlier fragment of the same request. -/
def RestsOn (g : Gateway Entries) (trace : List (Event Entries)) (x y : Event Entries) : Prop :=
  ExactSource g trace x y ∨ y ∈ trace ∧ y.index = x.index ∧ y.sent <+: x.done

/-- Neither the fragment nor an earlier one of its request was served by a
donor. -/
def Clean (g : Gateway Entries) (trace : List (Event Entries)) (v : Event Entries) : Prop :=
  Untainted g trace v ∧ v.outcome g ≠ some .approximateHit

theorem MemoryBacked.exists_exactSource (hg : MemoryBacked g) (hv : v ∈ g.trace calls ∅)
    (hhit : v.outcome g = some .exactHit) : ∃ w, ExactSource g (g.trace calls ∅) v w := by
  obtain ⟨eff, a, t, hpolicy, hcheck, hlookup⟩ :=
    lookup_of_outcome (follows_of_mem hv) hhit (by simp)
  obtain ⟨-, k, e, hk, he⟩ := (hg.exactHit_iff (resolves_of_resolve hlookup)).mp rfl
  obtain ⟨w, hw⟩ := hg.exists_foundBy hv he
  exact ⟨w, hhit, eff, k, e, hpolicy, hk, hw⟩

theorem ExactSource.clean (hcf : CollisionFree) (hplain : ∀ c ∈ calls, c.auth.Plain)
    (h : ExactSource g (g.trace calls ∅) v w) :
    w ∈ g.trace calls ∅ ∧ w.index < v.index ∧ Clean g (g.trace calls ∅) w := by
  obtain ⟨-, eff, k, e, -, hk, hfound⟩ := h
  have hwmem := hfound.mem
  obtain ⟨pre, post, hsplit, hlatest, hwrites, -⟩ := hfound
  have hvmem : v ∈ g.trace calls ∅ := by simp [hsplit]
  obtain ⟨weff, hcomputed, -⟩ := computedFor_of_writes hcf
    (hplain _ (call_mem_of_mem hvmem)) (hplain _ (call_mem_of_mem hwmem)) hwmem hk hwrites
  refine ⟨hwmem, index_lt_of_computedFor hsplit hlatest.mem hcomputed, hcomputed.untainted, ?_⟩
  intro hout
  obtain ⟨o, a, t, hcomputes, ho⟩ := hcomputed.computed
  obtain ⟨weff', a', t', hpolicy, -, hlookup⟩ :=
    lookup_of_outcome (follows_of_mem hwmem) hout (by simp)
  cases hpolicy.symm.trans hcomputes.policy
  rw [hcomputes.lookup] at hlookup
  simp only [Prod.mk.injEq, Except.ok.injEq] at hlookup
  exact ho hlookup.1.1

theorem RestsOn.clean (hcf : CollisionFree) (hplain : ∀ c ∈ calls, c.auth.Plain)
    (h : RestsOn g (g.trace calls ∅) v w) (hv : Clean g (g.trace calls ∅) v) :
    Clean g (g.trace calls ∅) w := by
  rcases h with h | ⟨hwmem, hidx, hsent⟩
  · exact (h.clean hcf hplain).2.2
  · refine ⟨fun u hu huidx husent => ?_, hv.1 w hwmem hidx hsent⟩
    have hdone : w.done <+: w.sent := List.prefix_append _ _
    exact hv.1 u hu (huidx.trans hidx) (husent.trans (hdone.trans hsent))

/-! ## Donors -/

/-- The store in front of the fragment holds no eligible exact state for it, but
an eligible entry `e` of its similarity class, and its policy permits to use
that. -/
structure TakesDonor (v : Event Entries) (eff : Effective) (dk : Str) (e : Entry) : Prop where
  policy : policy v.sent = some eff
  approximate : eff.reuse = .approximate
  missing : ∃ k, cacheKey execution (contentsOf v.sent) (namespacesOf v.sent)
      (v.partition eff) true = .ok k ∧
    ExpiringStore.eligible Entry.expiresAt v.state k v.call.now = none
  key : ∃ c, v.item.approxClass = some c ∧
    cacheKey execution [c] (namespacesOf v.sent) (v.partition eff) false = .ok dk
  eligible : ExpiringStore.eligible Entry.expiresAt v.state dk v.call.now = some e

/-- The donor that a fragment takes, computed from its inputs and the store. -/
def Event.donor (v : Event Entries) : Option (Effective × Str × Entry) :=
  match CacheControl.policy v.sent, v.item.approxClass with
  | some eff, some c =>
      match cacheKey execution (contentsOf v.sent) (namespacesOf v.sent) (v.partition eff) true,
        cacheKey execution [c] (namespacesOf v.sent) (v.partition eff) false with
      | .ok k, .ok dk =>
          if eff.reuse = .approximate ∧
              (ExpiringStore.eligible Entry.expiresAt v.state k v.call.now).isNone then
            (ExpiringStore.eligible Entry.expiresAt v.state dk v.call.now).map
              fun e => (eff, dk, e)
          else none
      | _, _ => none
  | _, _ => none

theorem donor_eq_some_iff {dk : Str} : v.donor = some (eff, dk, e) ↔ TakesDonor v eff dk e := by
  constructor
  · intro h
    unfold Event.donor at h
    split at h
    · rename_i eff' c hpolicy hc
      split at h
      · rename_i k dk' hk hdk
        split at h
        · rename_i hcond
          obtain ⟨e', he', heq⟩ := Option.map_eq_some_iff.mp h
          cases heq
          exact ⟨hpolicy, hcond.1, ⟨k, hk, Option.isNone_iff_eq_none.mp hcond.2⟩,
            ⟨c, hc, hdk⟩, he'⟩
        · cases h
      · cases h
    · cases h
  · rintro ⟨hpolicy, happrox, ⟨k, hk, hnone⟩, ⟨c, hc, hdk⟩, he⟩
    simp [Event.donor, hpolicy, hc, hk, hdk, happrox, hnone, he]

def DonorSource (g : Gateway Entries) (trace : List (Event Entries)) (v w : Event Entries) :
    Prop :=
  ∃ eff dk e, TakesDonor v eff dk e ∧ FoundBy g trace v dk e w

/-- The chain of donors behind `v`: the donor it takes, and the donors that a
member of the chain, or an earlier fragment of its request, was served by. -/
inductive DonorChain (g : Gateway Entries) (trace : List (Event Entries)) (v : Event Entries) :
    Event Entries → Prop
  | found (w : Event Entries) : DonorSource g trace v w → DonorChain g trace v w
  | behind (w u x : Event Entries) : DonorChain g trace v w →
      u = w ∨ u ∈ trace ∧ u.index = w.index ∧ u.sent <+: w.done →
      DonorSource g trace u x → DonorChain g trace v x

/-- At every approximate hit every member of the chain of donors is still
within the bound under which it was computed. -/
def BoundsFollowDonors (g : Gateway Entries) (trace : List (Event Entries)) : Prop :=
  ∀ v ∈ trace, v.outcome g = some .approximateHit → ∀ w, DonorChain g trace v w →
    ∀ weff m, policy w.sent = some weff → weff.retention.maxAge = some m →
      ∃ d, Runtime.plus w.call.now m = some d ∧ v.call.now < d

/-- Every fragment that takes a donor and is retained in its turn has a deadline
of its own, no later than the donor's. -/
def DonorsBound (trace : List (Event Entries)) : Prop :=
  ∀ u ∈ trace, ∀ eff dk e, TakesDonor u eff dk e → eff.retention.mode = .allow →
    eff.shareMax ≠ .request → ∀ d, e.expiresAt = some d →
      ∀ x, InMemoryCache.expiry u.call.now eff.retention.maxAge = .ok x → ∃ d' ∈ x, d' ≤ d

theorem donorsBound_iff : DonorsBound trace ↔ ∀ u ∈ trace, ∀ p ∈ u.donor,
    p.1.retention.mode = .allow → p.1.shareMax ≠ .request → ∀ d ∈ p.2.2.expiresAt,
      ∀ x ∈ (InMemoryCache.expiry u.call.now p.1.retention.maxAge).toOption,
        ∃ d' ∈ x, d' ≤ d := by
  constructor
  · rintro h u hu ⟨eff, dk, e⟩ hp hallow hshare d hd x hx
    exact h u hu eff dk e (donor_eq_some_iff.mp hp) hallow hshare d hd x
      (toOption_eq_some_iff.mp hx)
  · intro h u hu eff dk e htakes hallow hshare d hd x hx
    exact h u hu (eff, dk, e) (donor_eq_some_iff.mpr htakes) hallow hshare d hd x
      (toOption_eq_some_iff.mpr hx)

instance (trace : List (Event Entries)) : Decidable (DonorsBound trace) :=
  decidable_of_iff _ donorsBound_iff.symm

/-- What takes a donor is answered as an approximate hit, and nothing else is. -/
theorem MemoryBacked.takesDonor_iff (hg : MemoryBacked g) (hpolicy : policy v.sent = some eff)
    {o : Outcome} {a : Bool} {t : Entries} (hlookup : v.lookup g eff = (.ok (o, a), t)) :
    o = .approximateHit ↔ ∃ dk e, TakesDonor v eff dk e := by
  rw [hg.approximateHit_iff (resolves_of_resolve hlookup)]
  constructor
  · rintro ⟨happrox, hmissing, c, dk, e, hc, hdk, he⟩
    exact ⟨dk, e, hpolicy, happrox, hmissing, ⟨c, hc, hdk⟩, he⟩
  · rintro ⟨dk, e, h⟩
    obtain ⟨c, hc, hdk⟩ := h.key
    exact ⟨h.approximate, h.missing, c, dk, e, hc, hdk, h.eligible⟩

theorem deadline_of_behind (hg : MemoryBacked g)
    (hall : ∀ eff, checkEnforceable g.backend.capabilities eff = .ok ()) {dk : Str} {d : Time}
    (hbound : DonorsBound (g.trace calls ∅)) (hw : w ∈ g.trace calls ∅) (hwrites : Writes g w k e)
    (hu : u = w ∨ u ∈ g.trace calls ∅ ∧ u.index = w.index ∧ u.sent <+: w.done) {donor : Entry}
    (htakes : TakesDonor u eff dk donor) (hd : donor.expiresAt = some d)
    (hwpolicy : policy w.sent = some weff) :
    ∃ d' ≤ d, InMemoryCache.expiry w.call.now weff.retention.maxAge = .ok (some d') := by
  obtain ⟨weff', o, a, t, hcomputes, hstored⟩ := hwrites.exists_computes
  cases hwpolicy.symm.trans hcomputes.policy
  rcases hu with rfl | ⟨humem, hidx, hsent⟩
  · cases hwpolicy.symm.trans htakes.policy
    obtain ⟨d', hd', hle⟩ := hbound u hw _ dk donor htakes hstored.allows hstored.shared d hd
      _ hstored.expiresAt
    refine ⟨d', hle, ?_⟩
    rw [hstored.expiresAt, hd']
  · obtain ⟨pre, post, hsplit⟩ := List.append_of_mem hw
    have hupre := mem_pre_of_sent_prefix hsplit humem hidx hsent
    have hcall := (sent_prefix_of_mem_pre hsplit hupre hidx).2
    obtain ⟨cs, hcs, hcomposes⟩ := composes_of_policy htakes.policy
    obtain ⟨ds, hds, hcomposes'⟩ := composes_of_policy hwpolicy
    have hsub : cs ⊆ ds := constraintsOf_subset (hsent.trans (List.prefix_append _ _)) hcs hds
    have hallow : eff.retention.mode = .allow := by
      cases hm : eff.retention.mode with
      | allow => rfl
      | forbid =>
          have hforbid := hcomposes.forbids_mono hcomposes' hsub hm
          rw [hstored.allows] at hforbid
          cases hforbid
    have hshare : eff.shareMax ≠ .request := by
      intro hreq
      have hle := hcomposes.shareMax_anti hcomposes' hsub
      rw [hreq] at hle
      exact hstored.shared (le_antisymm hle (Share.request_le _))
    -- the loop went on behind `u`, so its own entry was stored
    obtain ⟨st, hst⟩ := exists_status_of_mem_pre hsplit hupre hidx
    obtain ⟨x, hx⟩ : ∃ x, InMemoryCache.expiry u.call.now eff.retention.maxAge = .ok x := by
      obtain ⟨hints, o', a', r, t', hlookup, hretain, -⟩ :=
        served_of_status (follows_of_mem humem) hst htakes.policy (hall eff)
      obtain rfl := (hg.takesDonor_iff htakes.policy hlookup).mpr ⟨dk, donor, htakes⟩
      exact (hg.stored_of_retain (hall eff) (by simp) (by simp) hallow hshare hretain).2
    obtain ⟨du, hdu, hle⟩ := hbound u humem eff dk donor htakes hallow hshare d hd x hx
    cases hm : eff.retention.maxAge with
    | none =>
        rw [hm, InMemoryCache.expiry_none_eq_ok_iff] at hx
        rw [hx] at hdu
        cases hdu
    | some m =>
        rw [hm, InMemoryCache.expiry_some_eq_ok_iff] at hx
        obtain ⟨d₁, hplus, rfl⟩ := hx
        cases hdu
        obtain ⟨m', hm'le, hm'⟩ := hcomposes.maxAge_anti hcomposes' hsub hallow hstored.allows hm
        obtain ⟨d', hplus', hd'le⟩ := Runtime.plus_mono _ hm'le hplus
        refine ⟨d', hd'le.trans hle, ?_⟩
        rw [hm', ← hcall]
        exact InMemoryCache.expiry_some_eq_ok_iff.mpr ⟨d', hplus', rfl⟩

/-- Along the chain of donors no deadline has passed. -/
theorem DonorChain.within_deadline (hg : MemoryBacked g)
    (hall : ∀ eff, checkEnforceable g.backend.capabilities eff = .ok ())
    (hbound : DonorsBound (g.trace calls ∅)) (h : DonorChain g (g.trace calls ∅) v w) :
    w ∈ g.trace calls ∅ ∧ (∃ k e, Writes g w k e) ∧ ∀ weff d, policy w.sent = some weff →
      InMemoryCache.expiry w.call.now weff.retention.maxAge = .ok (some d) → v.call.now < d := by
  induction h with
  | found w hsource =>
      obtain ⟨eff, dk, e, htakes, hfound⟩ := hsource
      refine ⟨hfound.mem, ⟨dk, e, hfound.writes⟩, fun weff d hpolicy hd => ?_⟩
      obtain ⟨weff', o, a, t, hcomputes, hstored⟩ := hfound.writes.exists_computes
      cases hpolicy.symm.trans hcomputes.policy
      have hexpires : e.expiresAt = some d := Except.ok.inj (hstored.expiresAt.symm.trans hd)
      have hlive := (eligible_eq_some_iff.mp hfound.eligible).2
      rw [hexpires, expired_some] at hlive
      exact not_le.mp hlive
  | behind w u x _ hvia hsource ih =>
      obtain ⟨hw, ⟨k, e, hwrites⟩, hwithin⟩ := ih
      obtain ⟨eff, dk, donor, htakes, hfound⟩ := hsource
      refine ⟨hfound.mem, ⟨dk, donor, hfound.writes⟩, fun xeff d hpolicy hd => ?_⟩
      obtain ⟨xeff', o, a, t, hcomputes, hstored⟩ := hfound.writes.exists_computes
      cases hpolicy.symm.trans hcomputes.policy
      have hexpires : donor.expiresAt = some d := Except.ok.inj (hstored.expiresAt.symm.trans hd)
      obtain ⟨weff, o', a', t', hwcomputes, -⟩ := hwrites.exists_computes
      obtain ⟨d', hle, hd'⟩ := deadline_of_behind hg hall hbound hw hwrites hvia htakes hexpires
        hwcomputes.policy
      exact (hwithin weff d' hwcomputes.policy hd').trans_le hle

theorem MemoryBacked.exists_donorSource (hg : MemoryBacked g) (hv : v ∈ g.trace calls ∅)
    (hhit : v.outcome g = some .approximateHit) :
    ∃ w, DonorSource g (g.trace calls ∅) v w := by
  obtain ⟨eff, a, t, hpolicy, hcheck, hlookup⟩ :=
    lookup_of_outcome (follows_of_mem hv) hhit (by simp)
  obtain ⟨dk, e, htakes⟩ := (hg.takesDonor_iff hpolicy hlookup).mp rfl
  obtain ⟨w, hw⟩ := hg.exists_foundBy hv htakes.eligible
  exact ⟨w, eff, dk, e, htakes, hw⟩

end Sources

/-- An exact hit is served by an event of an earlier request that no donor
served, directly or through an earlier fragment of its request, and nothing that
event rests on through further exact hits was served by a donor either. -/
theorem exact_hit_derivation [Runtime] (hcf : CollisionFree) (mode : OnUnenforceable)
    (calls : List Call) (hplain : ∀ c ∈ calls, c.auth.Plain) {v : Event Entries}
    (hv : v ∈ (inMemoryGateway mode).trace calls ∅)
    (hhit : v.outcome (inMemoryGateway mode) = some .exactHit) :
    ∃ w, ExactSource (inMemoryGateway mode) ((inMemoryGateway mode).trace calls ∅) v w ∧
      w.index < v.index ∧
      Clean (inMemoryGateway mode) ((inMemoryGateway mode).trace calls ∅) w ∧
      ∀ x, Relation.ReflTransGen
          (RestsOn (inMemoryGateway mode) ((inMemoryGateway mode).trace calls ∅)) w x →
        x.outcome (inMemoryGateway mode) ≠ some .approximateHit := by
  have hg := memoryBacked_inMemory mode
  obtain ⟨w, hw⟩ := hg.exists_exactSource hv hhit
  obtain ⟨-, hlt, hclean⟩ := hw.clean hcf hplain
  refine ⟨w, hw, hlt, hclean, fun x hx => ?_⟩
  have hxclean : Clean (inMemoryGateway mode) ((inMemoryGateway mode).trace calls ∅) x := by
    induction hx with
    | refl => exact hclean
    | tail _ hstep ih => exact hstep.clean hcf hplain ih
  exact hxclean.2

section

attribute [local instance] reference

theorem exact_hit_derivation_warm :
    ∃ v ∈ (inMemoryGateway .bypass).trace warmRun ∅, ∃ w,
      ExactSource (inMemoryGateway .bypass) ((inMemoryGateway .bypass).trace warmRun ∅) v w ∧
      w.index < v.index := by
  have hany : ((inMemoryGateway .bypass).trace warmRun ∅).any (fun v =>
      v.outcome (inMemoryGateway .bypass) = some .exactHit) = true := by decide +kernel
  obtain ⟨v, hv, hhit⟩ := List.any_eq_true.mp hany
  obtain ⟨w, hsource, hlt, -⟩ := exact_hit_derivation collisionFree_reference .bypass warmRun
    plain_warmRun hv (of_decide_eq_true hhit)
  exact ⟨v, hv, w, hsource, hlt⟩

end

/-- In a run in which every donor bounds what is stored from it, every chain of
donors is within its bounds. -/
theorem bounds_follow_donors [Runtime] (mode : OnUnenforceable) (calls : List Call)
    (hbound : DonorsBound ((inMemoryGateway mode).trace calls ∅)) :
    BoundsFollowDonors (inMemoryGateway mode) ((inMemoryGateway mode).trace calls ∅) := by
  intro v hv hhit w hchain weff m hpolicy hm
  have hg := memoryBacked_inMemory mode
  obtain ⟨hw, ⟨k, e, hwrites⟩, hwithin⟩ :=
    hchain.within_deadline hg checkEnforceable_inMemory hbound
  obtain ⟨weff', o, a, t, hcomputes, hstored⟩ := hwrites.exists_computes
  cases hpolicy.symm.trans hcomputes.policy
  have hexpiry := hstored.expiresAt
  rw [hm, InMemoryCache.expiry_some_eq_ok_iff] at hexpiry
  obtain ⟨d, hplus, hd⟩ := hexpiry
  refine ⟨d, hplus, hwithin weff d hpolicy ?_⟩
  rw [hm]
  exact InMemoryCache.expiry_some_eq_ok_iff.mpr ⟨d, hplus, rfl⟩

section

attribute [local instance] reference

/-- A donor with ten seconds to live, and a request it serves that asks for three. -/
def donorRun : List Call :=
  [sampleCall alice 0
    [sampleFragment "a" (some (intentText (.allow (some 10)) "approximate" "tenant"))
      (some (lit "k"))],
  sampleCall alice 5
    [sampleFragment "b" (some (intentText (.allow (some 3)) "approximate" "tenant"))
      (some (lit "k"))]]

theorem bounds_follow_donors_donorRun :
    (∃ v ∈ (inMemoryGateway .bypass).trace donorRun ∅,
      v.outcome (inMemoryGateway .bypass) = some .approximateHit) ∧
    BoundsFollowDonors (inMemoryGateway .bypass) ((inMemoryGateway .bypass).trace donorRun ∅) := by
  have hany : ((inMemoryGateway .bypass).trace donorRun ∅).any (fun v =>
      v.outcome (inMemoryGateway .bypass) = some .approximateHit) = true := by decide +kernel
  obtain ⟨v, hv, hhit⟩ := List.any_eq_true.mp hany
  refine ⟨⟨v, hv, of_decide_eq_true hhit⟩, bounds_follow_donors .bypass donorRun ?_⟩
  decide +kernel

/-- The second request is served by the first one's state, which expires at ten,
and stores its own without a bound; the third is served by that at fifty. -/
def rollingRun : List Call :=
  [sampleCall alice 0
    [sampleFragment "a" (some (intentText (.allow (some 10)) "approximate" "tenant"))
      (some (lit "k"))],
  sampleCall alice 5
    [sampleFragment "b" (some (intentText (.allow none) "approximate" "tenant"))
      (some (lit "k"))],
  sampleCall alice 50
    [sampleFragment "c" (some (intentText (.allow none) "approximate" "tenant"))
      (some (lit "k"))]]

theorem not_bounds_follow_donors :
    ¬ ∀ (mode : OnUnenforceable) (calls : List Call),
      (calls.Pairwise fun c d => c.now ≤ d.now) →
        BoundsFollowDonors (inMemoryGateway mode) ((inMemoryGateway mode).trace calls ∅) := by
  intro h
  have hfollow := h .bypass rollingRun (by decide +kernel)
  have hg := memoryBacked_inMemory .bypass
  have hlength : ((inMemoryGateway .bypass).trace rollingRun ∅).length = 3 := by decide +kernel
  have hreport : ((inMemoryGateway .bypass).trace rollingRun ∅).map (fun v =>
      (v.index, v.outcome (inMemoryGateway .bypass), (v.call.now : ℕ),
        (policy v.sent).map fun eff => eff.retention.maxAge)) =
      [(0, some .miss, 0, some (some 10)), (1, some .approximateHit, 5, some none),
        (2, some .approximateHit, 50, some none)] := by decide +kernel
  obtain ⟨a, b, c, htrace⟩ := List.length_eq_three.mp hlength
  simp only [htrace, List.map_cons, List.map_nil, List.cons.injEq, Prod.mk.injEq, and_true]
    at hreport
  obtain ⟨⟨haidx, -, hanow, hamax⟩, ⟨hbidx, hbhit, hbnow, -⟩, hcidx, hchit, hcnow, -⟩ := hreport
  have hmem : ∀ {x}, x ∈ (inMemoryGateway .bypass).trace rollingRun ∅ ↔ x = a ∨ x = b ∨ x = c := by
    intro x
    simp [htrace]
  -- state computed at zero for ten seconds is no donor at fifty
  have hnota : ¬ DonorChain (inMemoryGateway .bypass)
      ((inMemoryGateway .bypass).trace rollingRun ∅) c a := by
    intro hchain
    obtain ⟨eff, hpolicy, hmax⟩ := Option.map_eq_some_iff.mp hamax
    obtain ⟨d, hd, hlt⟩ := hfollow c (by simp [hmem]) hchit a hchain eff 10 hpolicy hmax
    rw [show a.call.now = (0 : ℕ) from hanow] at hd
    rw [show c.call.now = (50 : ℕ) from hcnow] at hlt
    obtain rfl : (10 : ℕ) = d := Option.some.inj hd
    exact absurd hlt (by decide)
  obtain ⟨w, hw⟩ := hg.exists_donorSource (hmem.mpr (.inr (.inr rfl))) hchit
  have hchain : DonorChain (inMemoryGateway .bypass) _ c w := .found w hw
  obtain ⟨eff, dk, e, -, hfound⟩ := hw
  rcases hmem.mp hfound.mem with rfl | rfl | rfl
  · exact hnota hchain
  · obtain ⟨x, hx⟩ := hg.exists_donorSource (hmem.mpr (.inr (.inl rfl))) hbhit
    have hchain' : DonorChain (inMemoryGateway .bypass) _ c x := .behind _ _ x hchain (.inl rfl) hx
    obtain ⟨eff', dk', e', -, hfound'⟩ := hx
    obtain ⟨hle, hne⟩ := hfound'.earlier
    rcases hmem.mp hfound'.mem with rfl | rfl | rfl
    · exact hnota hchain'
    · exact hne rfl
    · omega
  · exact hfound.earlier.2 rfl

end

end CacheControl

import CacheControl.Binding
import CacheControl.Memory
import CacheControl.Reference

/-!
# What a rejected request leaves behind

The loop stores the state of one fragment before it reads the next, so a request
that fails part-way has published what came before.  It leaves the store as it
was exactly when none of the fragments it reached was to be stored, and whether
one is can be told from the request and the store it came to.
-/

open PyText ExpiringStore

namespace CacheControl

section Store

variable [Runtime] {g : Gateway Entries} {eff : Effective} {contents namespaces : List Str}
  {partition : Str} {now : Time} {approxClass : Option Str} {v : Event Entries} {c : Call}
  {s t : Entries} {p : List Fragment} {f : Fragment}

/-! ## Keys and stored entries -/

omit [Runtime] in
theorem exists_encodeField_lit (name word : String) :
    ∃ b, encodeField name (lit word) = .ok b := by
  simp [encodeField, encode, encode?_append, encode?_lit]

theorem cacheKey_ok_of_ok {ex : Execution} {exact : Bool} {k : Str} (exact' : Bool)
    (h : cacheKey ex contents namespaces partition exact = .ok k) :
    ∃ k', cacheKey ex contents namespaces partition exact' = .ok k' := by
  obtain ⟨m, hm, h⟩ := bind_eq_ok_iff.mp h
  obtain ⟨t, ht, h⟩ := bind_eq_ok_iff.mp h
  obtain ⟨fp, hfp, h⟩ := bind_eq_ok_iff.mp h
  obtain ⟨fe, -, h⟩ := bind_eq_ok_iff.mp h
  obtain ⟨d, hd, h⟩ := bind_eq_ok_iff.mp h
  obtain ⟨fi, hfi, h⟩ := bind_eq_ok_iff.mp h
  obtain ⟨ct, hc, -⟩ := bind_eq_ok_iff.mp h
  have hword : ∃ fe', encodeField "exact" (if exact' then lit "True" else lit "False") =
      .ok fe' := by
    cases exact'
    · exact exists_encodeField_lit "exact" "False"
    · exact exists_encodeField_lit "exact" "True"
  obtain ⟨fe', hfe'⟩ := hword
  refine ⟨Runtime.sha256 (m ++ t ++ fp ++ fe' ++ fi ++ ct), ?_⟩
  rw [cacheKey, hm, ht, hfp, hfe', hd]
  simp only [bind, Except.bind, hfi, hc]
  rfl

theorem stored_ne_nil_iff {exact : Bool} :
    stored eff contents namespaces partition now exact approxClass ≠ [] ↔
      eff.retention.mode = .allow ∧ eff.shareMax ≠ .request ∧
      (∃ k, cacheKey execution contents namespaces partition exact = .ok k) ∧
      ∃ d, InMemoryCache.expiry now eff.retention.maxAge = .ok d := by
  constructor
  · intro h
    obtain ⟨e, he⟩ := List.exists_mem_of_ne_nil _ h
    have hunder := storedUnder_of_mem he
    refine ⟨hunder.allows, hunder.shared, ?_, _, hunder.expiresAt⟩
    cases hk : cacheKey execution contents namespaces partition exact with
    | ok k => exact ⟨k, rfl⟩
    | error e' => simp [stored, hk] at h
  · rintro ⟨hallow, hshare, ⟨k, hk⟩, d, hd⟩
    exact List.ne_nil_of_mem (exists_mem_stored hallow hshare hk hd)

/-! ## What a fragment is to do -/

def Call.exactKey (c : Call) (p : List Fragment) (f : Fragment) (eff : Effective) :
    Except PyError Str :=
  cacheKey execution (contentsOf (p ++ [f])) (namespacesOf (p ++ [f]))
    (partitionFor eff.shareMax c.auth c.requestId) true

def Call.DonorKeyed (c : Call) (p : List Fragment) (f : Fragment) (eff : Effective) : Prop :=
  eff.reuse = .approximate → ∀ cls, f.approxClass = some cls →
    ∃ dk, cacheKey execution [cls] (namespacesOf (p ++ [f]))
      (partitionFor eff.shareMax c.auth c.requestId) false = .ok dk

/-- The state of the prefix `p ++ [f]` is to be stored: by its policy, its keys
and its deadline, and because no eligible exact state takes its place. -/
structure Storable (g : Gateway Entries) (c : Call) (s : Entries) (p : List Fragment)
    (f : Fragment) (eff : Effective) : Prop where
  policy : policy (p ++ [f]) = some eff
  enforceable : checkEnforceable g.backend.capabilities eff = .ok ()
  allows : eff.retention.mode = .allow
  shared : eff.shareMax ≠ .request
  key : ∃ k, c.exactKey p f eff = .ok k ∧
    (eff.reuse = .none ∨ eligible Entry.expiresAt s k c.now = none)
  donorKey : c.DonorKeyed p f eff
  dated : ∃ d, InMemoryCache.expiry c.now eff.retention.maxAge = .ok d

/-- The fragment behind `p` is answered without an error and stores nothing. -/
inductive Passes (g : Gateway Entries) (c : Call) (s : Entries) (p : List Fragment)
    (f : Fragment) : Prop
  | bare : constraintsOf (p ++ [f]) = some [] → Passes g c s p f
  | bypassed (eff : Effective) (e : PyError) : policy (p ++ [f]) = some eff →
      checkEnforceable g.backend.capabilities eff = .error e → g.onUnenforceable = .bypass →
      Passes g c s p f
  | fresh (eff : Effective) : policy (p ++ [f]) = some eff →
      checkEnforceable g.backend.capabilities eff = .ok () → eff.reuse = .none →
      (eff.retention.mode = .forbid ∨ eff.shareMax = .request) → Passes g c s p f
  | hit (eff : Effective) (k : Str) (e : Entry) : policy (p ++ [f]) = some eff →
      checkEnforceable g.backend.capabilities eff = .ok () → eff.reuse ≠ .none →
      c.exactKey p f eff = .ok k → eligible Entry.expiresAt s k c.now = some e → Passes g c s p f
  | missed (eff : Effective) (k : Str) : policy (p ++ [f]) = some eff →
      checkEnforceable g.backend.capabilities eff = .ok () → eff.reuse ≠ .none →
      c.exactKey p f eff = .ok k → eligible Entry.expiresAt s k c.now = none →
      c.DonorKeyed p f eff → (eff.retention.mode = .forbid ∨ eff.shareMax = .request) →
      Passes g c s p f

theorem Storable.congr (h : Storable g c s p f eff)
    (heq : ∀ k, eligible Entry.expiresAt t k c.now = eligible Entry.expiresAt s k c.now) :
    Storable g c t p f eff := by
  obtain ⟨k, hk, hlive⟩ := h.key
  refine ⟨h.policy, h.enforceable, h.allows, h.shared, ⟨k, hk, ?_⟩, h.donorKey, h.dated⟩
  rwa [heq k]

theorem Passes.congr (h : Passes g c s p f)
    (heq : ∀ k, eligible Entry.expiresAt t k c.now = eligible Entry.expiresAt s k c.now) :
    Passes g c t p f := by
  cases h with
  | bare hcs => exact .bare hcs
  | bypassed eff e hpolicy hcheck hmode => exact .bypassed eff e hpolicy hcheck hmode
  | fresh eff hpolicy hcheck hreuse hnot => exact .fresh eff hpolicy hcheck hreuse hnot
  | hit eff k e hpolicy hcheck hreuse hk he =>
      exact .hit eff k e hpolicy hcheck hreuse hk ((heq k).trans he)
  | missed eff k hpolicy hcheck hreuse hk he hdonor hnot =>
      exact .missed eff k hpolicy hcheck hreuse hk ((heq k).trans he) hdonor hnot

/-! ## What an event does -/

theorem MemoryBacked.lookup_ok (hg : MemoryBacked g) {k : Str}
    (hk : v.call.exactKey v.done v.item eff = .ok k)
    (hdonor : v.call.DonorKeyed v.done v.item eff) :
    ∃ o a t, v.lookup g eff = (.ok (o, a), t) := by
  refine resolve_ok (fun key s => ?_) ⟨k, hk⟩ hdonor v.state
  rw [hg.get]
  exact ⟨_, get_apply key v.call.now s⟩

theorem donorKeyed_of_resolves {o : Outcome} {a : Bool} (hobs : g.backend.observesOutcomes = true)
    (h : Resolves g eff (contentsOf (p ++ [f])) (namespacesOf (p ++ [f]))
      (partitionFor eff.shareMax c.auth c.requestId) c.now f.approxClass s t o a)
    (ho : o ≠ .exactHit) : c.DonorKeyed p f eff := by
  intro happrox cls hc
  cases h with
  | unobserved hnot => simp [hobs] at hnot
  | bypass _ hreuse => simp [happrox] at hreuse
  | exactHit => exact absurd rfl ho
  | approximateHit k₁ c₁ dk e₁ u _ hreuse hclass hk₁ hdk =>
      cases hc.symm.trans hclass
      exact ⟨dk, hdk⟩
  | missDonor k₁ c₁ dk u _ hreuse hclass hk₁ hdk =>
      cases hc.symm.trans hclass
      exact ⟨dk, hdk⟩
  | miss k₁ _ hreuse hclass => cases hc.symm.trans (hclass happrox)

/-- A fragment publishes exactly when it is to be stored. -/
theorem MemoryBacked.published_ne_nil_iff (hg : MemoryBacked g) :
    v.published g ≠ [] ↔ ∃ eff, Storable g v.call v.state v.done v.item eff := by
  constructor
  · intro h
    obtain ⟨e, he⟩ := List.exists_mem_of_ne_nil _ h
    obtain ⟨eff, o, a, t, hcomputes, -⟩ := Event.exists_computes he
    rw [hcomputes.published, stored_ne_nil_iff] at h
    obtain ⟨hallow, hshare, ⟨k, hk⟩, hdated⟩ := h
    obtain ⟨k', hk'⟩ := cacheKey_ok_of_ok true hk
    have hresolves := resolves_of_resolve hcomputes.lookup
    refine ⟨eff, hcomputes.policy, hcomputes.enforceable, hallow, hshare, ⟨k', hk', ?_⟩,
      donorKeyed_of_resolves hg.observes hresolves hcomputes.fresh, hdated⟩
    by_contra hnot
    obtain ⟨hreuse, hlive⟩ := not_or.mp hnot
    obtain ⟨e', he'⟩ := Option.ne_none_iff_exists'.mp hlive
    exact hcomputes.fresh ((hg.exactHit_iff hresolves).mpr ⟨hreuse, k', e', hk', he'⟩)
  · rintro ⟨eff, h⟩
    obtain ⟨k, hk, hlive⟩ := h.key
    obtain ⟨o, a, t, hlookup⟩ := hg.lookup_ok hk h.donorKey
    have hfresh : o ≠ .exactHit := by
      intro ho
      obtain ⟨hreuse, k', e, hk', he⟩ := (hg.exactHit_iff (resolves_of_resolve hlookup)).mp ho
      cases hk.symm.trans hk'
      rcases hlive with hnone | hnone
      · exact hreuse hnone
      · rw [hnone] at he
        cases he
    have hcomputes : v.Computes g eff o a t := ⟨h.policy, h.enforceable, hlookup, hfresh⟩
    rw [hcomputes.published, stored_ne_nil_iff]
    exact ⟨h.allows, h.shared, cacheKey_ok_of_ok _ hk, h.dated⟩

theorem MemoryBacked.published_eq_nil_iff (hg : MemoryBacked g) :
    v.published g = [] ↔ ∀ eff, ¬ Storable g v.call v.state v.done v.item eff := by
  rw [← not_iff_not, ← ne_eq, hg.published_ne_nil_iff]
  simp

theorem Passes.not_storable (h : Passes g c s p f) : ¬ Storable g c s p f eff := by
  intro hst
  have hneither : ∀ {eff'}, policy (p ++ [f]) = some eff' →
      ¬ (eff'.retention.mode = .forbid ∨ eff'.shareMax = .request) := by
    rintro eff' hpolicy hor
    cases hst.policy.symm.trans hpolicy
    rcases hor with hforbid | hrequest
    · cases hst.allows.symm.trans hforbid
    · exact hst.shared hrequest
  cases h with
  | bare hcs => cases hst.policy.symm.trans (policy_eq_none_of_bare hcs)
  | bypassed eff' e hpolicy hcheck hmode =>
      cases hst.policy.symm.trans hpolicy
      cases hst.enforceable.symm.trans hcheck
  | fresh eff' hpolicy hcheck hreuse hnot => exact hneither hpolicy hnot
  | hit eff' k e hpolicy hcheck hreuse hk he =>
      cases hst.policy.symm.trans hpolicy
      obtain ⟨k', hk', hlive⟩ := hst.key
      cases hk.symm.trans hk'
      rcases hlive with hnone | hnone
      · exact hreuse hnone
      · cases he.symm.trans hnone
  | missed eff' k hpolicy hcheck hreuse hk he hdonor hnot => exact hneither hpolicy hnot

theorem Passes.enters (h : Passes g c s p f) :
    constraintsOf (p ++ [f]) = some [] ∨ ∃ eff, policy (p ++ [f]) = some eff ∧
      (checkEnforceable g.backend.capabilities eff = .ok () ∨ g.onUnenforceable = .bypass) := by
  cases h with
  | bare hcs => exact .inl hcs
  | bypassed eff e hpolicy hcheck hmode => exact .inr ⟨eff, hpolicy, .inr hmode⟩
  | fresh eff hpolicy hcheck => exact .inr ⟨eff, hpolicy, .inl hcheck⟩
  | hit eff k e hpolicy hcheck => exact .inr ⟨eff, hpolicy, .inl hcheck⟩
  | missed eff k hpolicy hcheck => exact .inr ⟨eff, hpolicy, .inl hcheck⟩

theorem MemoryBacked.lookup_of_passes (hg : MemoryBacked g)
    (h : Passes g v.call v.state v.done v.item) (hpolicy : policy v.sent = some eff)
    (hcheck : checkEnforceable g.backend.capabilities eff = .ok ()) :
    ∃ o a t, v.lookup g eff = (.ok (o, a), t) ∧
      (o = .exactHit ∨ eff.retention.mode = .forbid ∨ eff.shareMax = .request) := by
  cases h with
  | bare hcs => cases hpolicy.symm.trans (policy_eq_none_of_bare hcs)
  | bypassed eff' e hpolicy' hcheck' hmode =>
      cases hpolicy.symm.trans hpolicy'
      cases hcheck.symm.trans hcheck'
  | fresh eff' hpolicy' hcheck' hreuse hnot =>
      cases hpolicy.symm.trans hpolicy'
      refine ⟨.bypass, false, v.state, ?_, .inr hnot⟩
      unfold Event.lookup Gateway.resolve
      rw [if_neg (by simp [hg.observes]), if_pos hreuse]
      rfl
  | hit eff' k e hpolicy' hcheck' hreuse hk he =>
      cases hpolicy.symm.trans hpolicy'
      obtain ⟨t, ht⟩ := get_apply k v.call.now v.state
      rw [he] at ht
      refine ⟨.exactHit, false, t, ?_, .inl rfl⟩
      unfold Call.exactKey at hk
      unfold Event.lookup Gateway.resolve
      rw [hg.get]
      simp only [hg.observes, not_true_eq_false, if_false, hreuse, Event.sent, Event.partition, hk,
        Prog.lift_ok_bind]
      rw [Prog.bind_of_ok ht]
      rfl
  | missed eff' k hpolicy' hcheck' hreuse hk he hdonor hnot =>
      cases hpolicy.symm.trans hpolicy'
      obtain ⟨o, a, t, hlookup⟩ := hg.lookup_ok hk hdonor
      exact ⟨o, a, t, hlookup, .inr hnot⟩

theorem retain_of_not_stored {o : Outcome} {exact : Bool}
    (h : o = .exactHit ∨ eff.retention.mode = .forbid ∨ eff.shareMax = .request) :
    ∃ r, g.retain o eff contents namespaces partition now exact approxClass s = (.ok r, s) := by
  have hmaterialize : eff.retention.mode = .forbid ∨ eff.shareMax = .request →
      ∃ r, g.materialize eff contents namespaces partition now exact approxClass s =
        (.ok r, s) := by
    intro hnot
    unfold Gateway.materialize
    split
    · exact ⟨_, rfl⟩
    · rename_i hforbid
      rw [if_pos (hnot.resolve_left hforbid)]
      exact ⟨_, rfl⟩
  cases o with
  | unobserved => exact ⟨_, rfl⟩
  | exactHit => exact ⟨_, rfl⟩
  | bypass => exact hmaterialize (h.resolve_left (by decide))
  | miss => exact hmaterialize (h.resolve_left (by decide))
  | approximateHit => exact hmaterialize (h.resolve_left (by decide))

theorem MemoryBacked.status_of_passes (hg : MemoryBacked g) (hfollows : Follows v.done v.acc)
    (h : Passes g v.call v.state v.done v.item) : ∃ st, v.status g = some st := by
  have hcases := turn_handleFragment g v.call.auth v.call.now v.call.requestId hfollows v.item
  unfold Event.status Prog.Visit.emits Gateway.turn
  generalize g.handleFragment v.call.auth v.call.now v.call.requestId v.acc v.item = prog
    at hcases ⊢
  cases hcases with
  | unread e hpolicy hcs =>
      rcases h.enters with hcs' | ⟨eff, hpolicy', -⟩
      · exact absurd hcs' hcs
      · cases hpolicy.symm.trans hpolicy'
  | rejected eff e hpolicy hcheck hmode =>
      rcases h.enters with hcs | ⟨eff', hpolicy', hcheck' | hmode'⟩
      · cases hpolicy.symm.trans (policy_eq_none_of_bare hcs)
      · cases hpolicy.symm.trans hpolicy'
        cases hcheck.symm.trans hcheck'
      · cases hmode.symm.trans hmode'
  | bare vars => exact ⟨_, rfl⟩
  | bypassed vars hints eff e => exact ⟨_, rfl⟩
  | served vars hints eff hfollows' htaint hpolicy hcheck =>
      obtain ⟨o, a, t, hlookup, hnot⟩ := hg.lookup_of_passes h hpolicy hcheck
      have hresolve : g.resolve eff vars.contentsSoFar vars.namespacesSoFar
          (partitionFor eff.shareMax v.call.auth v.call.requestId) v.call.now v.item.approxClass
          v.state = (.ok (o, a), t) := by
        rw [hfollows'.contents, hfollows'.namespaces]
        exact hlookup
      obtain ⟨r, hr⟩ : ∃ r, g.retain o eff vars.contentsSoFar vars.namespacesSoFar
          (partitionFor eff.shareMax v.call.auth v.call.requestId) v.call.now
          (!(vars.taintedApproximate || a)) v.item.approxClass t = (.ok r, t) :=
        retain_of_not_stored hnot
      rw [serve_of_ok hresolve hr]
      exact ⟨_, rfl⟩

theorem MemoryBacked.passes_iff (hg : MemoryBacked g) (hfollows : Follows v.done v.acc) :
    Passes g v.call v.state v.done v.item ↔
      (∃ st, v.status g = some st) ∧ v.published g = [] := by
  constructor
  · intro h
    refine ⟨hg.status_of_passes hfollows h, hg.published_eq_nil_iff.mpr fun eff => ?_⟩
    exact h.not_storable
  · rintro ⟨⟨st, hst⟩, hnil⟩
    cases reports_of_status hfollows hst with
    | bare hcs => exact .bare hcs
    | bypassed hints eff e hpolicy hcheck hmode => exact .bypassed eff e hpolicy hcheck hmode
    | served hints eff o a r t hpolicy hcheck hlookup hretain =>
        have hresolves := resolves_of_resolve hlookup
        have ho : o ≠ .unobserved := by
          rw [ne_eq, hresolves.unobserved_iff, hg.observes]
          decide
        have hnot : o ≠ .exactHit → eff.retention.mode = .forbid ∨ eff.shareMax = .request := by
          intro ho'
          by_contra hneither
          obtain ⟨hforbid, hshare⟩ := not_or.mp hneither
          have hallow : eff.retention.mode = .allow := by
            cases hm : eff.retention.mode with
            | allow => rfl
            | forbid => exact absurd hm hforbid
          obtain ⟨hk, hdated⟩ := hg.stored_of_retain hcheck ho ho' hallow hshare hretain
          rw [Event.published_of_lookup hpolicy hcheck hlookup, if_neg ho'] at hnil
          exact stored_ne_nil_iff.mpr ⟨hallow, hshare, hk, hdated⟩ hnil
        by_cases hreuse : eff.reuse = .none
        · refine .fresh eff hpolicy hcheck hreuse (hnot ?_)
          rintro rfl
          exact hresolves.reuse_of_exactHit rfl hreuse
        obtain ⟨k, hk⟩ := hresolves.exists_key hg.observes hreuse
        cases he : eligible Entry.expiresAt v.state k v.call.now with
        | some e => exact .hit eff k e hpolicy hcheck hreuse hk he
        | none =>
            have ho' : o ≠ .exactHit := by
              intro hhit
              obtain ⟨-, k', e, hk', he'⟩ := (hg.exactHit_iff hresolves).mp hhit
              cases hk.symm.trans hk'
              cases he.symm.trans he'
            exact .missed eff k hpolicy hcheck hreuse hk he
              (donorKeyed_of_resolves hg.observes hresolves ho') (hnot ho')

/-! ## Calls -/

/-- Every fragment of the prefix `p` passes. -/
def Reached (g : Gateway Entries) (c : Call) (s : Entries) (p : List Fragment) : Prop :=
  ∀ q f, q ++ [f] <+: p → Passes g c s q f

/-- No fragment that the loop reaches is to be stored. -/
def StoresNothing (g : Gateway Entries) (c : Call) (s : Entries) : Prop :=
  ∀ fragments, c.ordered = .ok fragments → ∀ p f, p ++ [f] <+: fragments → Reached g c s p →
    ∀ eff, ¬ Storable g c s p f eff

def Silent (g : Gateway Entries) (c : Call) (s : Entries) : Prop :=
  ∀ v ∈ g.trace [c] s, v.published g = []

theorem MemoryBacked.prunes_after (hg : MemoryBacked g) (hv : v ∈ g.trace [c] s)
    (hnil : v.published g = []) (h : Prunes Entry.expiresAt c.now s v.state) :
    Prunes Entry.expiresAt c.now s (v.after g) := by
  obtain ⟨u, hprunes, hafter⟩ := hg.after_eq (follows_of_mem hv)
  rw [(mem_trace_single.mp hv).2.2] at hprunes
  rw [hafter, hnil]
  exact h.trans hprunes

theorem MemoryBacked.prunes_of_silent (hg : MemoryBacked g) (h : Silent g c s) :
    Prunes Entry.expiresAt c.now s (g.answer c s).2 ∧
      ∀ v ∈ g.trace [c] s, Prunes Entry.expiresAt c.now s v.state := by
  obtain ⟨hend, hall⟩ := (chained_traceFrom g 0 [c] s).invariant
    (fun _ t => Prunes Entry.expiresAt c.now s t) [] (Prunes.refl s) (by
      intro pre v post hsplit hprunes
      have hv : v ∈ g.trace [c] s := by
        rw [Gateway.trace, hsplit]
        simp
      exact hg.prunes_after hv (h v hv) hprunes)
  refine ⟨by simpa [Gateway.run] using hend, fun v hv => ?_⟩
  obtain ⟨pre, post, hsplit⟩ := List.append_of_mem hv
  exact hall pre v post hsplit

theorem MemoryBacked.silent_of_storesNothing (hg : MemoryBacked g) (h : StoresNothing g c s) :
    Silent g c s := by
  -- in front of an event the store was only pruned, so what passed there passes at `s`
  have hinv := ((chained_traceFrom g 0 [c] s).invariant
    (fun hist t => Prunes Entry.expiresAt c.now s t ∧
      ∀ u ∈ hist, u.published g = [] ∧ Prunes Entry.expiresAt c.now s u.state)
    [] ⟨Prunes.refl s, by simp⟩ (by
      rintro pre v post hsplit ⟨hprunes, hpre⟩
      have hmem : ∀ u ∈ pre ++ v :: post, u ∈ g.trace [c] s := by
        intro u hu
        rwa [Gateway.trace, hsplit]
      have hv := hmem v (by simp)
      have hcall : v.call = c := (mem_trace_single.mp hv).2.2
      have hreached : Reached g c s v.done := by
        intro q f hq
        obtain ⟨u, hu, hidx, rfl, rfl⟩ := exists_event_of_done hsplit hq
        have humem := hmem u (by simp [hu])
        obtain ⟨hnil, huprunes⟩ := hpre u hu
        have hpasses := (hg.passes_iff (follows_of_mem humem)).mpr
          ⟨exists_status_of_mem_pre hsplit hu hidx, hnil⟩
        rw [(mem_trace_single.mp humem).2.2] at hpasses
        exact hpasses.congr fun k => (huprunes.eligible_eq le_rfl).symm
      have hnil : v.published g = [] := by
        apply hg.published_eq_nil_iff.mpr
        intro eff hstorable
        rw [hcall] at hstorable
        obtain ⟨fragments, hord, hsent⟩ := sent_prefix_of_mem hv
        refine h fragments hord v.done v.item hsent hreached eff (hstorable.congr fun k => ?_)
        exact (hprunes.eligible_eq le_rfl).symm
      refine ⟨hg.prunes_after hv hnil hprunes, fun u hu => ?_⟩
      rcases List.mem_append.mp hu with hu | hu
      · exact hpre u hu
      · rw [List.mem_singleton.mp hu]
        exact ⟨hnil, hprunes⟩)).1.2
  intro v hv
  exact (hinv v hv).1

theorem MemoryBacked.exists_event_of_reached (hg : MemoryBacked g) (h : Silent g c s)
    {fragments : List Fragment} (hord : c.ordered = .ok fragments) (hf : p ++ [f] <+: fragments)
    (hreached : Reached g c s p) : ∃ v ∈ g.trace [c] s, v.done = p ∧ v.item = f := by
  induction p using List.reverseRecOn generalizing f with
  | nil =>
      obtain ⟨rest, rfl⟩ := hf
      exact exists_first_event hord s
  | append_singleton p f' ih =>
      obtain ⟨u, hu, rfl, rfl⟩ := ih ((List.prefix_append _ _).trans hf)
        fun q f hq => hreached q f (hq.trans (List.prefix_append _ _))
      have hprunes := (hg.prunes_of_silent h).2 u hu
      have hpasses := (hreached u.done u.item (List.prefix_refl _)).congr fun k =>
        hprunes.eligible_eq le_rfl
      rw [← (mem_trace_single.mp hu).2.2] at hpasses
      obtain ⟨⟨st, hst⟩, -⟩ := (hg.passes_iff (follows_of_mem hu)).mp hpasses
      exact exists_next_event hu hst hord hf

theorem MemoryBacked.silent_iff (hg : MemoryBacked g) : Silent g c s ↔ StoresNothing g c s := by
  refine ⟨fun h fragments hord p f hf hreached eff hstorable => ?_, hg.silent_of_storesNothing⟩
  obtain ⟨v, hv, rfl, rfl⟩ := hg.exists_event_of_reached h hord hf hreached
  have hprunes := (hg.prunes_of_silent h).2 v hv
  have hthere := hstorable.congr fun k => hprunes.eligible_eq le_rfl
  rw [← (mem_trace_single.mp hv).2.2] at hthere
  exact hg.published_ne_nil_iff.mpr ⟨eff, hthere⟩ (h v hv)

end Store

/-! ## Arrivals -/

section Arrivals

variable [Runtime] {σ : Type}

/-- What reaches the gateway: a call of `handle`, or a body for `prepare`. -/
inductive Arrival
  | handle (c : Call)
  | prepare (body : Str) (auth : AuthContext) (now : Time) (requestId : Str)

namespace Arrival

/-- The call of `handle` that an arrival makes; a body that is not parsed into
fragments makes none. -/
def call? : Arrival → Option Call
  | .handle c => some c
  | .prepare body auth now requestId =>
      (loadsStrict body >>= extractFragments).toOption.map fun fragments =>
        { fragments, auth, now, requestId }

def now : Arrival → Time
  | .handle c => c.now
  | .prepare _ _ now _ => now

def Rejected (g : Gateway σ) (s : σ) : Arrival → Prop
  | .handle c => ∃ e, (g.answer c s).1 = .error e
  | .prepare body auth now requestId =>
      ∃ code cause,
        (CacheControl.prepare g body auth now requestId s).1 = .ok (.rejected code cause)

def leaves (g : Gateway σ) (s : σ) : Arrival → σ
  | .handle c => (g.answer c s).2
  | .prepare body auth now requestId => (CacheControl.prepare g body auth now requestId s).2

end Arrival

theorem prepareFragments_state (g : Gateway σ) (members : List (Str × Value))
    (fragments : List Fragment) (auth : AuthContext) (now : Time) (requestId : Str) (s : σ) :
    (prepareFragments g members fragments auth now requestId s).2 =
      (g.handle fragments auth now requestId none false s).2 := by
  unfold prepareFragments
  rw [Prog.bind_apply, Prog.attempt_apply]
  rcases g.handle fragments auth now requestId none false s with ⟨e | result, t⟩ <;> rfl

theorem Arrival.leaves_eq (g : Gateway σ) (s : σ) (a : Arrival) :
    a.leaves g s = match a.call? with
      | some c => (g.answer c s).2
      | none => s := by
  cases a with
  | handle c => rfl
  | prepare body auth now requestId =>
      simp only [Arrival.leaves, Arrival.call?, CacheControl.prepare]
      cases hload : loadsStrict body with
      | error e => cases he : isLoadError e <;> simp [he, bind, Except.bind, Except.toOption]
      | ok request =>
          cases hextract : extractFragments request with
          | error e =>
              cases he : e.isCacheIntentError <;>
                simp [he, hextract, bind, Except.bind, Except.toOption]
          | ok fragments =>
              simp only [hextract, bind, Except.bind, Except.toOption, Option.map_some]
              exact prepareFragments_state g request.members fragments auth now requestId s

def Gateway.receive (g : Gateway σ) (arrivals : List Arrival) (s : σ) : σ :=
  arrivals.foldl (fun s a => a.leaves g s) s

/-- The arrival publishes no prefix, and what any later request can find is what
it was. -/
def Arrival.Atomic (g : Gateway Entries) (s : Entries) (a : Arrival) : Prop :=
  (∀ c ∈ a.call?, Silent g c s) ∧ ∀ k t, a.now ≤ t →
    eligible Entry.expiresAt (a.leaves g s) k t = eligible Entry.expiresAt s k t

def RejectionAtomic (g : Gateway Entries) (arrivals : List Arrival) : Prop :=
  ∀ pre a post, arrivals = pre ++ a :: post → a.Rejected g (g.receive pre ∅) →
    a.Atomic g (g.receive pre ∅)

theorem MemoryBacked.atomic_iff {g : Gateway Entries} (hg : MemoryBacked g) {s : Entries}
    {a : Arrival} : a.Atomic g s ↔ ∀ c ∈ a.call?, StoresNothing g c s := by
  have hiff : (∀ c ∈ a.call?, Silent g c s) ↔ ∀ c ∈ a.call?, StoresNothing g c s :=
    forall₂_congr fun c _ => hg.silent_iff
  rw [← hiff]
  refine ⟨And.left, fun h => ⟨h, fun k t ht => ?_⟩⟩
  rw [Arrival.leaves_eq]
  cases hc : a.call? with
  | none => rfl
  | some c =>
      have hnow : c.now = a.now := by
        cases a with
        | handle c' =>
            cases hc
            rfl
        | prepare body auth now requestId =>
            obtain ⟨fragments, -, rfl⟩ := Option.map_eq_some_iff.mp hc
            rfl
      exact (hg.prunes_of_silent (h c hc)).1.eligible_eq (hnow ▸ ht)

end Arrivals

/-- Over a cache that keeps entries, the rejections of a run are atomic exactly
when no rejected request reaches a fragment that is to be stored. -/
theorem rejection_atomic_iff [Runtime] {g : Gateway Entries} (hg : MemoryBacked g)
    (arrivals : List Arrival) :
    RejectionAtomic g arrivals ↔
      ∀ pre a post, arrivals = pre ++ a :: post → a.Rejected g (g.receive pre ∅) →
        ∀ c ∈ a.call?, StoresNothing g c (g.receive pre ∅) := by
  unfold RejectionAtomic
  simp only [hg.atomic_iff]

section

attribute [local instance] reference

def unreadable : Fragment := sampleFragment "b" (some (lit "intent")) none

def kept : Fragment :=
  sampleFragment "a" (some (intentText (.allow (some 60)) "exact" "tenant")) none

def keptCall : Call := sampleCall alice 0 [kept]

/-- A fragment to be stored in front of one whose intent cannot be read. -/
def brokenCall : Call := sampleCall alice 0 [kept, unreadable]

theorem rejected_brokenCall {s : Entries}
    (h : ((inMemoryGateway .reject).answer brokenCall s).1.isOk = false) :
    (Arrival.handle brokenCall).Rejected (inMemoryGateway .reject) s := by
  cases hr : ((inMemoryGateway .reject).answer brokenCall s).1 with
  | error e => exact ⟨e, hr⟩
  | ok r =>
      rw [hr] at h
      cases h

/-- Behind a call that stored its first fragment, the rejected call has nothing to store. -/
theorem rejection_atomic_iff_brokenCall :
    (Arrival.handle brokenCall).Rejected (inMemoryGateway .reject)
        ((inMemoryGateway .reject).receive [.handle keptCall] ∅) ∧
      ((inMemoryGateway .reject).receive [.handle keptCall] ∅).keys.card = 1 ∧
      RejectionAtomic (inMemoryGateway .reject) [.handle keptCall, .handle brokenCall] := by
  have hstate : (inMemoryGateway .reject).receive [.handle keptCall] ∅ =
      ((inMemoryGateway .reject).answer keptCall ∅).2 := rfl
  rw [hstate]
  refine ⟨rejected_brokenCall (by decide +kernel), by decide +kernel, ?_⟩
  refine (rejection_atomic_iff (memoryBacked_inMemory .reject) _).mpr ?_
  intro pre a post hsplit hrejected c hc
  rcases pre with _ | ⟨x, _ | ⟨y, pre⟩⟩
  · obtain ⟨rfl, -⟩ := List.cons.inj hsplit
    obtain ⟨e, he⟩ := hrejected
    have hanswers : ((inMemoryGateway .reject).answer keptCall ∅).1.isOk = true := by
      decide +kernel
    cases he.symm ▸ hanswers
  · obtain ⟨rfl, hrest⟩ := List.cons.inj hsplit
    obtain ⟨rfl, -⟩ := List.cons.inj hrest
    obtain rfl : brokenCall = c := Option.some.inj hc
    have hsilent : ∀ v ∈ (inMemoryGateway .reject).trace [brokenCall]
        ((inMemoryGateway .reject).answer keptCall ∅).2,
          (v.published (inMemoryGateway .reject)).isEmpty = true := by decide +kernel
    refine (memoryBacked_inMemory .reject).silent_iff.mp fun v hv => ?_
    exact List.isEmpty_iff.mp (hsilent v hv)
  · simp at hsplit

theorem not_rejection_atomic :
    ¬ ∀ (mode : OnUnenforceable) (arrivals : List Arrival),
      RejectionAtomic (inMemoryGateway mode) arrivals := by
  intro h
  have hrejected : (Arrival.handle brokenCall).Rejected (inMemoryGateway .reject) ∅ :=
    rejected_brokenCall (by decide +kernel)
  have hsilent := (h .reject [.handle brokenCall] [] (.handle brokenCall) [] rfl hrejected).1
    brokenCall rfl
  have hany : ((inMemoryGateway .reject).trace [brokenCall] ∅).any (fun v =>
      !(v.published (inMemoryGateway .reject)).isEmpty) = true := by decide +kernel
  obtain ⟨v, hv, hne⟩ := List.any_eq_true.mp hany
  rw [hsilent v hv] at hne
  cases hne

end

end CacheControl

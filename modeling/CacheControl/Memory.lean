import CacheControl.Events
import CacheControl.Keys

/-!
# Gateways over the in-memory cache

On a backend that keeps its entries in an `InMemoryCache`, an event prunes the
store by its lookups and then publishes at most two entries.  A run is therefore
a history of writes to an expiring store.
-/

open PyText ExpiringStore

namespace CacheControl

variable [Runtime]

/-- The backend hands what the gateway gives it to an `InMemoryCache`; a bound
it could not enforce never reaches it. -/
structure MemoryBacked (g : Gateway Entries) : Prop where
  observes : g.backend.observesOutcomes = true
  get : g.backend.get = InMemoryCache.get
  put : ∀ eff, checkEnforceable g.backend.capabilities eff = .ok () → ∀ key now exact,
    g.backend.put key now eff.retention.maxAge exact =
      InMemoryCache.put key now eff.retention.maxAge exact

def inMemoryGateway (mode : OnUnenforceable) : Gateway Entries := ⟨inMemoryBackend, mode⟩

theorem checkEnforceable_inMemory (eff : Effective) :
    checkEnforceable inMemoryBackend.capabilities eff = .ok () := by
  refine checkEnforceable_eq_ok_iff.mpr ⟨?_, fun _ => rfl, ?_, ?_, fun _ => rfl⟩
  · cases eff.retention.mode <;> simp [inMemoryBackend]
  · cases eff.reuse <;> simp [inMemoryBackend]
  · cases eff.shareMax <;> simp [inMemoryBackend, allScopes]

theorem memoryBacked_inMemory (mode : OnUnenforceable) :
    MemoryBacked (inMemoryGateway mode) :=
  ⟨rfl, rfl, fun _ _ _ _ _ => rfl⟩

omit [Runtime] in
theorem maxAge_eq_none_of_check {caps : Capabilities} {eff : Effective} {u : Unit}
    (hcaps : caps.retentionMaxAge = false) (h : checkEnforceable caps eff = .ok u) :
    eff.retention.maxAge = none := by
  by_contra hne
  have hage := (checkEnforceable_eq_ok_iff.mp h).maxAge (Option.isSome_iff_ne_none.mpr hne)
  rw [hcaps] at hage
  cases hage

def saltOnlyGateway (mode : OnUnenforceable) : Gateway Entries := ⟨saltOnlyBackend, mode⟩

theorem memoryBacked_saltOnly (mode : OnUnenforceable) :
    MemoryBacked (saltOnlyGateway mode) := by
  refine ⟨rfl, rfl, fun eff hcheck key now exact => ?_⟩
  have hage := maxAge_eq_none_of_check rfl hcheck
  simp [saltOnlyGateway, saltOnlyBackend, hage]

/-! ## Lookups -/

variable {g : Gateway Entries} {eff : Effective} {contents namespaces : List Str}
  {partition : Str} {now : Time} {approxClass : Option Str} {s t : Entries} {o : Outcome}
  {a : Bool}

theorem get_apply (key : Str) (now : Time) (s : Entries) :
    ∃ t, InMemoryCache.get key now s =
      (.ok (ExpiringStore.eligible Entry.expiresAt s key now), t) := by
  rw [InMemoryCache.get_eq_read, ExpiringStore.read_fst]
  exact ⟨_, rfl⟩

theorem get_eq_ok {key : Str} {found : Option Entry}
    (h : InMemoryCache.get key now s = (.ok found, t)) :
    found = eligible Entry.expiresAt s key now ∧ Prunes Entry.expiresAt now s t := by
  rw [InMemoryCache.get_eq_read] at h
  obtain ⟨hfound, rfl⟩ := Prod.mk.inj h
  rw [Except.ok.injEq, read_fst] at hfound
  exact ⟨hfound.symm, prunes_read s key now⟩

theorem within_get (key : Str) (now : Time) :
    Prog.Within (Prunes Entry.expiresAt now) (InMemoryCache.get key now) := by
  intro s
  rw [InMemoryCache.get_eq_read]
  exact prunes_read s key now

theorem MemoryBacked.within_resolve (hg : MemoryBacked g) (eff : Effective)
    (contents namespaces : List Str) (partition : Str) (now : Time) (approxClass : Option Str) :
    Prog.Within (Prunes Entry.expiresAt now)
      (g.resolve eff contents namespaces partition now approxClass) := by
  apply within_resolve_of_get (fun s => Prunes.refl s) (fun _ _ _ => Prunes.trans)
  intro contents exact k _
  rw [hg.get]
  exact within_get k now

/-- A fragment is an exact hit when its policy permits reuse and an eligible
entry is stored under its exact key. -/
theorem MemoryBacked.exactHit_iff (hg : MemoryBacked g)
    (h : Resolves g eff contents namespaces partition now approxClass s t o a) :
    o = .exactHit ↔ eff.reuse ≠ .none ∧ ∃ k e,
      cacheKey execution contents namespaces partition true = .ok k ∧
      eligible Entry.expiresAt s k now = some e := by
  have hmiss : ∀ {k u}, cacheKey execution contents namespaces partition true = .ok k →
      g.backend.get k now s = (.ok none, u) → ¬ ∃ k e,
        cacheKey execution contents namespaces partition true = .ok k ∧
        eligible Entry.expiresAt s k now = some e := by
    rintro k u hk hget ⟨k', e, hk', he⟩
    rw [hg.get] at hget
    cases hk.symm.trans hk'
    rw [← (get_eq_ok hget).1] at he
    cases he
  cases h with
  | unobserved hobs => simp [hg.observes] at hobs
  | bypass hobs hreuse => simp [hreuse]
  | exactHit k entry hobs hreuse hk hget =>
      rw [hg.get] at hget
      simp only [true_iff]
      exact ⟨hreuse, k, entry, hk, (get_eq_ok hget).1.symm⟩
  | approximateHit k c dk entry u hobs hreuse hclass hk hdk hget hdonor =>
      simp only [reduceCtorEq, false_iff, not_and]
      exact fun _ => hmiss hk hget
  | missDonor k c dk u hobs hreuse hclass hk hdk hget hdonor =>
      simp only [reduceCtorEq, false_iff, not_and]
      exact fun _ => hmiss hk hget
  | miss k hobs hreuse hclass hk hget =>
      simp only [reduceCtorEq, false_iff, not_and]
      exact fun _ => hmiss hk hget

/-- A fragment is an approximate hit when its policy permits that, no eligible
entry is stored under its exact key, and one is under the donor key of its
class. -/
theorem MemoryBacked.approximateHit_iff (hg : MemoryBacked g)
    (h : Resolves g eff contents namespaces partition now approxClass s t o a) :
    o = .approximateHit ↔ eff.reuse = .approximate ∧
      (∃ k, cacheKey execution contents namespaces partition true = .ok k ∧
        eligible Entry.expiresAt s k now = none) ∧
      ∃ c dk e, approxClass = some c ∧
        cacheKey execution [c] namespaces partition false = .ok dk ∧
        eligible Entry.expiresAt s dk now = some e := by
  cases h with
  | unobserved hobs => simp [hg.observes] at hobs
  | bypass hobs hreuse => simp [hreuse]
  | exactHit k entry hobs hreuse hk hget =>
      rw [hg.get] at hget
      simp only [reduceCtorEq, false_iff]
      rintro ⟨-, ⟨k', hk', hnone⟩, -⟩
      cases hk.symm.trans hk'
      cases hnone.symm.trans (get_eq_ok hget).1.symm
  | approximateHit k c dk entry u hobs hreuse hclass hk hdk hget hdonor =>
      rw [hg.get] at hget hdonor
      simp only [true_iff]
      refine ⟨hreuse, ⟨k, hk, (get_eq_ok hget).1.symm⟩, c, dk, entry, hclass, hdk, ?_⟩
      rw [← (get_eq_ok hget).2.eligible_eq le_rfl]
      exact (get_eq_ok hdonor).1.symm
  | missDonor k c dk u hobs hreuse hclass hk hdk hget hdonor =>
      rw [hg.get] at hget hdonor
      simp only [reduceCtorEq, false_iff]
      rintro ⟨-, -, c', dk', e, hc', hdk', he⟩
      cases hclass.symm.trans hc'
      cases hdk.symm.trans hdk'
      rw [← (get_eq_ok hget).2.eligible_eq le_rfl, ← (get_eq_ok hdonor).1] at he
      cases he
  | miss k hobs hreuse hclass hk hget =>
      simp only [reduceCtorEq, false_iff]
      rintro ⟨happrox, -, c', dk', e, hc', -⟩
      cases (hclass happrox).symm.trans hc'

theorem MemoryBacked.ne_unobserved (hg : MemoryBacked g)
    (h : Resolves g eff contents namespaces partition now approxClass s t o a) :
    o ≠ .unobserved := by
  intro ho
  have hnot := h.unobserved_iff.mp ho
  rw [hg.observes] at hnot
  cases hnot

/-! ## Publication -/

def stored (effective : Effective) (contents namespaces : List Str) (partition : Str)
    (now : Time) (exact : Bool) (approxClass : Option Str) : List Entry :=
  if effective.retention.mode = .forbid ∨ effective.shareMax = .request then []
  else
    match cacheKey execution contents namespaces partition exact,
      InMemoryCache.expiry now effective.retention.maxAge with
    | .ok key, .ok expiresAt =>
        ⟨key, now, expiresAt, exact⟩ ::
          match approxClass.map fun c => cacheKey execution [c] namespaces partition false with
          | some (.ok donorKey) => [⟨donorKey, now, expiresAt, false⟩]
          | _ => []
    | _, _ => []

theorem put_apply {key : Str} {maxAge : Option ℕ} {exact : Bool} {expiresAt : Option Time}
    (h : InMemoryCache.expiry now maxAge = .ok expiresAt) (s : Entries) :
    InMemoryCache.put key now maxAge exact s =
      (.ok (some ⟨key, now, expiresAt, exact⟩), s.insert key ⟨key, now, expiresAt, exact⟩) := by
  simp [InMemoryCache.put, h]

theorem put_apply_error {key : Str} {maxAge : Option ℕ} {exact : Bool} {e : PyError}
    (h : InMemoryCache.expiry now maxAge = .error e) (s : Entries) :
    InMemoryCache.put key now maxAge exact s = (.error e, s) := by
  simp [InMemoryCache.put, h]

theorem MemoryBacked.materialize_state (hg : MemoryBacked g)
    (hcheck : checkEnforceable g.backend.capabilities eff = .ok ()) (exact : Bool) :
    (g.materialize eff contents namespaces partition now exact approxClass s).2 =
      insertAll Entry.key
        (stored eff contents namespaces partition now exact approxClass) s := by
  unfold Gateway.materialize stored
  by_cases hforbid : eff.retention.mode = .forbid
  · simp [hforbid, insertAll]
  by_cases hshare : eff.shareMax = .request
  · simp [hforbid, hshare, insertAll]
  simp only [hforbid, hshare, if_false, or_self, hg.put eff hcheck]
  cases hk : cacheKey execution contents namespaces partition exact with
  | error e => rfl
  | ok key =>
      rw [Prog.lift_ok_bind]
      cases he : InMemoryCache.expiry now eff.retention.maxAge with
      | error e =>
          rw [Prog.bind_of_error (put_apply_error he s)]
          rfl
      | ok expiresAt =>
          rw [Prog.bind_of_ok (put_apply he s)]
          cases approxClass with
          | none => rfl
          | some c =>
              cases hdk : cacheKey execution [c] namespaces partition false with
              | error e => simp [hdk, insertAll]
              | ok donorKey =>
                  simp only [Prog.lift_ok_bind, Option.map_some, hdk]
                  rw [Prog.bind_of_ok (put_apply he _)]
                  rfl

theorem MemoryBacked.retain_state (hg : MemoryBacked g)
    (hcheck : checkEnforceable g.backend.capabilities eff = .ok ()) (ho : o ≠ .unobserved)
    (exact : Bool) :
    (g.retain o eff contents namespaces partition now exact approxClass s).2 =
      if o = .exactHit then s
      else insertAll Entry.key
        (stored eff contents namespaces partition now exact approxClass) s := by
  cases o with
  | unobserved => exact absurd rfl ho
  | exactHit => rfl
  | bypass => exact hg.materialize_state hcheck exact
  | miss => exact hg.materialize_state hcheck exact
  | approximateHit => exact hg.materialize_state hcheck exact

/-- State that was newly computed and retained has a key, and a deadline that
can be represented. -/
theorem MemoryBacked.stored_of_retain (hg : MemoryBacked g)
    (hcheck : checkEnforceable g.backend.capabilities eff = .ok ()) (ho : o ≠ .unobserved)
    (ho' : o ≠ .exactHit) (hallow : eff.retention.mode = .allow) (hshare : eff.shareMax ≠ .request)
    {exact : Bool} {r : RetentionStatus}
    (h : g.retain o eff contents namespaces partition now exact approxClass s = (.ok r, t)) :
    (∃ k, cacheKey execution contents namespaces partition exact = .ok k) ∧
      ∃ x, InMemoryCache.expiry now eff.retention.maxAge = .ok x := by
  have hmaterialize :
      g.materialize eff contents namespaces partition now exact approxClass s = (.ok r, t) := by
    cases o with
    | unobserved => exact absurd rfl ho
    | exactHit => exact absurd rfl ho'
    | bypass => exact h
    | miss => exact h
    | approximateHit => exact h
  unfold Gateway.materialize at hmaterialize
  rw [if_neg (by simp [hallow]), if_neg hshare] at hmaterialize
  obtain ⟨key, hkey, hput⟩ := Prog.lift_bind_eq_ok_iff.mp hmaterialize
  obtain ⟨found, u, hput, -⟩ := Prog.bind_eq_ok_iff.mp hput
  rw [hg.put eff hcheck] at hput
  refine ⟨⟨key, hkey⟩, ?_⟩
  cases he : InMemoryCache.expiry now eff.retention.maxAge with
  | ok x => exact ⟨x, rfl⟩
  | error e =>
      rw [put_apply_error he] at hput
      cases hput

structure StoredUnder (eff : Effective) (contents namespaces : List Str) (partition : Str)
    (now : Time) (exact : Bool) (approxClass : Option Str) (e : Entry) : Prop where
  allows : eff.retention.mode = .allow
  shared : eff.shareMax ≠ .request
  materializedAt : e.materializedAt = now
  expiresAt : InMemoryCache.expiry now eff.retention.maxAge = .ok e.expiresAt
  key : cacheKey execution contents namespaces partition exact = .ok e.key ∧ e.exact = exact ∨
    e.exact = false ∧ ∃ c, approxClass = some c ∧
      cacheKey execution [c] namespaces partition false = .ok e.key

/-- An entry that is still served is within the bound under which it was stored. -/
theorem StoredUnder.unexpired {exact : Bool} {e : Entry} {later : Time}
    (h : StoredUnder eff contents namespaces partition now exact approxClass e)
    (hlive : ¬ Expired e.expiresAt later) {m : ℕ} (hm : eff.retention.maxAge = some m) :
    ∃ d, Runtime.plus now m = some d ∧ later < d := by
  have hexpiry := h.expiresAt
  rw [hm, InMemoryCache.expiry_some_eq_ok_iff] at hexpiry
  obtain ⟨d, hplus, hd⟩ := hexpiry
  rw [hd, expired_some] at hlive
  exact ⟨d, hplus, not_le.mp hlive⟩

theorem storedUnder_of_mem {exact : Bool} {e : Entry}
    (h : e ∈ stored eff contents namespaces partition now exact approxClass) :
    StoredUnder eff contents namespaces partition now exact approxClass e := by
  unfold stored at h
  split at h
  · simp at h
  · rename_i hnot
    obtain ⟨hforbid, hshare⟩ := not_or.mp hnot
    have hallow : eff.retention.mode = .allow := by
      cases hm : eff.retention.mode with
      | allow => rfl
      | forbid => exact absurd hm hforbid
    split at h
    · rename_i key expiresAt hk he
      rcases List.mem_cons.mp h with rfl | h
      · exact ⟨hallow, hshare, rfl, he, .inl ⟨hk, rfl⟩⟩
      · split at h
        · rename_i donorKey hdk
          obtain ⟨c, hc, hkey⟩ := Option.map_eq_some_iff.mp hdk
          rw [List.mem_singleton] at h
          subst h
          exact ⟨hallow, hshare, rfl, he, .inr ⟨rfl, c, hc, hkey⟩⟩
        · simp at h
    · simp at h

theorem exists_mem_stored {exact : Bool} {key : Str} {expiresAt : Option Time}
    (hallow : eff.retention.mode = .allow) (hshare : eff.shareMax ≠ .request)
    (hk : cacheKey execution contents namespaces partition exact = .ok key)
    (he : InMemoryCache.expiry now eff.retention.maxAge = .ok expiresAt) :
    (⟨key, now, expiresAt, exact⟩ : Entry) ∈
      stored eff contents namespaces partition now exact approxClass := by
  simp [stored, hallow, hshare, hk, he]

theorem donor_mem_stored {exact : Bool} {key donorKey c : Str} {expiresAt : Option Time}
    (hallow : eff.retention.mode = .allow) (hshare : eff.shareMax ≠ .request)
    (hk : cacheKey execution contents namespaces partition exact = .ok key)
    (hdk : cacheKey execution [c] namespaces partition false = .ok donorKey)
    (he : InMemoryCache.expiry now eff.retention.maxAge = .ok expiresAt) :
    (⟨donorKey, now, expiresAt, false⟩ : Entry) ∈
      stored eff contents namespaces partition now exact (some c) := by
  simp [stored, hallow, hshare, hk, hdk, he]

/-- A lookup finds an entry only under the policy and the partition for which it
was stored.  The identifiers must be plain; a request id may be anything. -/
theorem StoredUnder.agrees (hcf : CollisionFree) {auth auth' : AuthContext} {r r' : Str}
    {contents' namespaces' : List Str} {share' : Share} {exact exact' : Bool} {e : Entry}
    (h : StoredUnder eff contents namespaces (partitionFor eff.shareMax auth r) now exact
      approxClass e)
    (hplain : auth.Plain) (hplain' : auth'.Plain)
    (hk : cacheKey execution contents' namespaces' (partitionFor share' auth' r') exact' =
      .ok e.key) :
    share' ≠ .request ∧
      partitionFor eff.shareMax auth r = partitionFor share' auth' r' ∧
      namespaces = namespaces' ∧ e.exact = exact' ∧
      (exact = exact' ∧ contents = contents' ∨
        exact' = false ∧ ∃ c, approxClass = some c ∧ contents' = [c]) := by
  have hinitial : eff.shareMax.initial = share'.initial := by
    rcases h.key with ⟨hkey, -⟩ | ⟨-, c, -, hkey⟩
    · exact cacheKey_initial hcf hkey hk
    · exact cacheKey_initial hcf hkey hk
  have hshare' : share' ≠ .request := by
    intro hreq
    rw [eq_request_iff_initial, ← hinitial, ← eq_request_iff_initial] at hreq
    exact h.shared hreq
  have hnul := hplain.nul_notMem h.shared r
  have hnul' := hplain'.nul_notMem hshare' r'
  refine ⟨hshare', ?_⟩
  rcases h.key with ⟨hkey, hexact⟩ | ⟨hexact, c, hc, hkey⟩
  · obtain ⟨hpartition, rfl, hns, hcontents⟩ := cacheKey_inj hcf hnul hnul' hkey hk
    exact ⟨hpartition, hns, hexact, .inl ⟨rfl, hcontents⟩⟩
  · obtain ⟨hpartition, rfl, hns, hcontents⟩ := cacheKey_inj hcf hnul hnul' hkey hk
    exact ⟨hpartition, hns, hexact, .inr ⟨rfl, c, hc, hcontents.symm⟩⟩

/-! ## Events -/

def Event.published (g : Gateway Entries) (v : Event Entries) : List Entry :=
  match policy v.sent with
  | none => []
  | some eff =>
      match checkEnforceable g.backend.capabilities eff, (v.lookup g eff).1 with
      | .ok (), .ok (o, a) =>
          if o = .exactHit then []
          else stored eff (contentsOf v.sent) (namespacesOf v.sent) (v.partition eff)
            v.call.now (!(v.acc.taintedApproximate || a)) v.item.approxClass
      | _, _ => []

/-- The event did not find the state of its prefix and computed it. -/
structure Event.Computes (g : Gateway Entries) (v : Event Entries) (eff : Effective)
    (o : Outcome) (a : Bool) (t : Entries) : Prop where
  policy : policy v.sent = some eff
  enforceable : checkEnforceable g.backend.capabilities eff = .ok ()
  lookup : v.lookup g eff = (.ok (o, a), t)
  fresh : o ≠ .exactHit

namespace Event

variable {v : Event Entries}

theorem published_of_policy_none (h : policy v.sent = none) : v.published g = [] := by
  unfold published
  rw [h]

theorem published_of_unenforceable (h : policy v.sent = some eff) {e : PyError}
    (hcheck : checkEnforceable g.backend.capabilities eff = .error e) : v.published g = [] := by
  unfold published
  rw [h]
  simp only [hcheck]

theorem published_of_lookup (h : policy v.sent = some eff)
    (hcheck : checkEnforceable g.backend.capabilities eff = .ok ())
    (hlookup : v.lookup g eff = (.ok (o, a), t)) :
    v.published g = if o = .exactHit then []
      else stored eff (contentsOf v.sent) (namespacesOf v.sent) (v.partition eff)
        v.call.now (!(v.acc.taintedApproximate || a)) v.item.approxClass := by
  unfold published
  rw [h]
  simp only [hcheck, hlookup]

theorem published_of_lookup_error (h : policy v.sent = some eff)
    (hcheck : checkEnforceable g.backend.capabilities eff = .ok ()) {e : PyError}
    (hlookup : v.lookup g eff = (.error e, t)) : v.published g = [] := by
  unfold published
  rw [h]
  simp only [hcheck, hlookup]

theorem Computes.published (h : v.Computes g eff o a t) :
    v.published g = stored eff (contentsOf v.sent) (namespacesOf v.sent) (v.partition eff)
      v.call.now (!(v.acc.taintedApproximate || a)) v.item.approxClass := by
  rw [published_of_lookup h.policy h.enforceable h.lookup, if_neg h.fresh]

theorem exists_computes {e : Entry} (h : e ∈ v.published g) :
    ∃ eff o a t, v.Computes g eff o a t ∧
      StoredUnder eff (contentsOf v.sent) (namespacesOf v.sent) (v.partition eff) v.call.now
        (!(v.acc.taintedApproximate || a)) v.item.approxClass e := by
  cases hpolicy : CacheControl.policy v.sent with
  | none => simp [published_of_policy_none hpolicy] at h
  | some eff =>
      cases hcheck : checkEnforceable g.backend.capabilities eff with
      | error e => simp [published_of_unenforceable hpolicy hcheck] at h
      | ok u =>
          rcases hlookup : v.lookup g eff with ⟨e | ⟨o, a⟩, t⟩
          · simp [published_of_lookup_error hpolicy hcheck hlookup] at h
          · rw [published_of_lookup hpolicy hcheck hlookup] at h
            split at h
            · simp at h
            · rename_i ho
              exact ⟨eff, o, a, t, ⟨hpolicy, hcheck, hlookup, ho⟩, storedUnder_of_mem h⟩

end Event

/-- An event prunes the store and then publishes its entries, whether or not
its iteration returns. -/
theorem MemoryBacked.after_eq (hg : MemoryBacked g) {v : Event Entries}
    (h : Follows v.done v.acc) : ∃ t, Prunes Entry.expiresAt v.call.now v.state t ∧
      v.after g = insertAll Entry.key (v.published g) t := by
  have hcases := turn_handleFragment g v.call.auth v.call.now v.call.requestId h v.item
  unfold Event.after Prog.Visit.after Gateway.turn
  generalize g.handleFragment v.call.auth v.call.now v.call.requestId v.acc v.item = prog
    at hcases ⊢
  have hsame : v.published g = [] → ∃ t, Prunes Entry.expiresAt v.call.now v.state t ∧
      v.state = insertAll Entry.key (v.published g) t := by
    intro hnil
    exact ⟨v.state, Prunes.refl _, by rw [hnil]; rfl⟩
  cases hcases with
  | unread e hpolicy hcs => exact hsame (Event.published_of_policy_none hpolicy)
  | rejected eff e hpolicy hcheck hmode =>
      exact hsame (Event.published_of_unenforceable hpolicy hcheck)
  | bare vars hfollows htaint hcs =>
      exact hsame (Event.published_of_policy_none (policy_eq_none_of_bare hcs))
  | bypassed vars hints eff e hfollows htaint hpolicy hcheck hmode =>
      exact hsame (Event.published_of_unenforceable hpolicy hcheck)
  | served vars hints eff hfollows htaint hpolicy hcheck =>
      have hprunes : Prunes Entry.expiresAt v.call.now v.state (v.lookup g eff).2 :=
        hg.within_resolve eff _ _ _ _ _ v.state
      rcases hlookup : v.lookup g eff with ⟨e | ⟨o, a⟩, t⟩
      · rw [hlookup] at hprunes
        rw [serve_state_of_error (by rw [hfollows.contents, hfollows.namespaces]; exact hlookup),
          Event.published_of_lookup_error hpolicy hcheck hlookup]
        exact ⟨t, hprunes, rfl⟩
      · rw [hlookup] at hprunes
        have hunobserved := hg.ne_unobserved (resolves_of_resolve hlookup)
        rw [serve_state_of_ok (by rw [hfollows.contents, hfollows.namespaces]; exact hlookup),
          Event.published_of_lookup hpolicy hcheck hlookup, hfollows.contents,
          hfollows.namespaces, htaint, hg.retain_state hcheck hunobserved]
        refine ⟨t, hprunes, ?_⟩
        split <;> rfl

end CacheControl

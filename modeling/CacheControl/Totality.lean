import CacheControl.Acceptance
import CacheControl.Causes
import CacheControl.Narrowing

/-!
# When a request raises

The reasons for which `handle` is documented to raise, and the ones that come on top
of them.
-/

open PyText

namespace CacheControl

section

variable [Runtime] {σ : Type} {b : Backend σ} {refuses : Time → ℕ → Prop} {mode : OnUnenforceable}
  {c : Call} {s : σ} {v : Event σ} {eff : Effective} {fragments ordered p : List Fragment}

/-- The ids are strings or absent, and the contents and what is known of the caller can be
encoded. -/
structure Call.Presentable (c : Call) : Prop where
  ids : ∀ f ∈ c.fragments, f.id = .null ∨ ∃ id, f.id = .str id
  contents : ∀ f ∈ c.fragments, Encodable f.content
  tenant : Encodable c.auth.tenant
  principal : Encodable c.auth.principal
  session : Encodable c.auth.session
  requestId : Encodable c.requestId

/-- The reasons that are documented: two ids are equal, an intent is not accepted, or a
gateway that rejects finds a prefix whose constraints it cannot enforce. -/
def Documented (g : Gateway σ) (c : Call) : Prop :=
  ¬(c.fragments.filterMap Fragment.suppliedId).Nodup ∨
    (∃ f ∈ c.fragments, ∃ text, f.intentJson = some text ∧
      ∀ intent, parseCacheIntent text ≠ .ok intent) ∨
    g.onUnenforceable = .reject ∧ ∃ ordered,
      planOrder c.fragments c.equivalenceDeclared = .ok ordered ∧
        ∃ p, p <+: ordered ∧ Fails g.backend.capabilities p

/-- Every namespace that the intents supply can be encoded. -/
def NamespacesSpelled (fragments : List Fragment) : Prop :=
  ∀ f ∈ fragments, ∀ text intent, f.intentJson = some text → parseCacheIntent text = .ok intent →
    ∀ n, intent.constraints.ns = some n → Encodable n

/-- The event's similarity class is to be looked up or stored, and cannot be encoded. -/
structure Event.Unclassed (b : Backend σ) (v : Event σ) (eff : Effective) : Prop where
  policy : policy v.sent = some eff
  enforceable : checkEnforceable b.capabilities eff = .ok ()
  fresh : v.Fresh b eff
  consulted : eff.reuse = .approximate ∨ eff.retention.mode = .allow ∧ eff.shareMax ≠ .request
  unspelled : ∃ cls, v.item.approxClass = some cls ∧ ¬Encodable cls

/-! ## Keys -/

theorem Call.Presentable.exists_key (hc : c.Presentable) (hp : p ⊆ c.fragments)
    (hpolicy : policy p = some eff) (exact : Bool) :
    ∃ k, cacheKey execution (contentsOf p) (namespacesOf p)
      (partitionFor eff.shareMax c.auth c.requestId) exact = .ok k := by
  apply exists_cacheKey
  · exact encodable_partitionFor hc.tenant hc.principal hc.session hc.requestId _
  · exact ⟨_, namespaceDigest_of_policy hpolicy⟩
  · intro content hcontent
    obtain ⟨f, hf, rfl⟩ := List.mem_map.mp hcontent
    exact hc.contents f (hp hf)

theorem Call.Presentable.exists_donorKey_iff (hc : c.Presentable) (hpolicy : policy p = some eff)
    (cls : Str) : (∃ dk, cacheKey execution [cls] (namespacesOf p)
      (partitionFor eff.shareMax c.auth c.requestId) false = .ok dk) ↔ Encodable cls := by
  constructor
  · rintro ⟨dk, hdk⟩
    obtain ⟨d, hd, -⟩ := cacheKey_eq_ok hdk
    exact exists_encodeFrames_iff.mp ⟨_, hd.contents⟩ cls (List.mem_singleton_self cls)
  · intro hcls
    refine exists_cacheKey (encodable_partitionFor hc.tenant hc.principal hc.session hc.requestId _)
      ⟨_, namespaceDigest_of_policy hpolicy⟩ (fun content hcontent => ?_) false
    rwa [List.mem_singleton.mp hcontent]

/-! ## Serving a fragment -/

section Serve

variable {g : Gateway σ} {contents namespaces : List Str} {partition : Str} {now : Time}
  {approxClass : Option Str} {exact : Bool} {r : RetentionStatus} {t : σ} {o : Outcome}

/-- State that was stored under its class has a class that can be spelled. -/
theorem exists_donorKey_of_retain (ho : o ≠ .unobserved) (ho' : o ≠ .exactHit)
    (hallow : eff.retention.mode = .allow) (hshare : eff.shareMax ≠ .request)
    (h : g.retain o eff contents namespaces partition now exact approxClass s = (.ok r, t))
    {cls : Str} (hcls : approxClass = some cls) :
    ∃ dk, cacheKey execution [cls] namespaces partition false = .ok dk := by
  have hmaterialize :
      g.materialize eff contents namespaces partition now exact approxClass s = (.ok r, t) := by
    cases o with
    | unobserved => exact absurd rfl ho
    | exactHit => exact absurd rfl ho'
    | bypass | miss | approximateHit => exact h
  unfold Gateway.materialize at hmaterialize
  rw [if_neg (by simp [hallow]), if_neg hshare, hcls] at hmaterialize
  obtain ⟨k, -, hput⟩ := Prog.lift_bind_eq_ok_iff.mp hmaterialize
  obtain ⟨entry, u, -, hdonor⟩ := Prog.bind_eq_ok_iff.mp hput
  obtain ⟨dk, hdk, -⟩ := Prog.lift_bind_eq_ok_iff.mp hdonor
  exact ⟨dk, hdk⟩

theorem exists_donorKey_of_resolve {a : Bool}
    (h : Resolves g eff contents namespaces partition now approxClass s t o a)
    (ho : o ≠ .unobserved) (ho' : o ≠ .exactHit) (hreuse : eff.reuse = .approximate) {cls : Str}
    (hcls : approxClass = some cls) :
    ∃ dk, cacheKey execution [cls] namespaces partition false = .ok dk := by
  cases h with
  | unobserved => exact absurd rfl ho
  | exactHit => exact absurd rfl ho'
  | bypass _ hnone => cases hnone.symm.trans hreuse
  | approximateHit k c' dk _ _ _ _ hcls' _ hdk =>
      cases hcls.symm.trans hcls'
      exact ⟨dk, hdk⟩
  | missDonor k c' dk _ _ _ hcls' _ hdk =>
      cases hcls.symm.trans hcls'
      exact ⟨dk, hdk⟩
  | miss k _ _ hnone => cases hcls.symm.trans (hnone hreuse)

/-- A lookup that is not made, or finds its state, needs no class. -/
theorem resolve_of_not_fresh (hget : ∀ k s, ∃ found t, g.backend.get k now s = (.ok found, t))
    {k : Str} (hkey : cacheKey execution contents namespaces partition true = .ok k)
    (h : ¬(g.backend.observesOutcomes = true ∧
      (eff.reuse = .none ∨ (g.backend.get k now s).1 = .ok none))) :
    ∃ o t, g.resolve eff contents namespaces partition now approxClass s = (.ok (o, false), t) ∧
      (o = .unobserved ∨ o = .exactHit) := by
  unfold Gateway.resolve
  split
  · exact ⟨_, _, rfl, .inl rfl⟩
  rename_i hobserves
  split
  · rename_i hreuse
    exact absurd ⟨by simpa using hobserves, .inl hreuse⟩ h
  obtain ⟨found, t, ht⟩ := hget k s
  rw [hkey, Prog.lift_ok_bind, Prog.bind_of_ok ht]
  cases found with
  | some entry => exact ⟨_, _, rfl, .inr rfl⟩
  | none => exact absurd ⟨by simpa using hobserves, .inr (by rw [ht])⟩ h

end Serve

/-- A fragment is served unless its bound is refused or its class cannot be spelled. -/
theorem served_iff (mode : OnUnenforceable) (hb : b.Refuses refuses) (hc : v.call.Presentable)
    (hsent : v.sent ⊆ v.call.fragments) (hpolicy : policy v.sent = some eff)
    (hcheck : checkEnforceable b.capabilities eff = .ok ()) {vars : LoopVars}
    (hvars : Follows v.sent vars) (hints : HintStatus) :
    (∃ x t, (⟨b, mode⟩ : Gateway σ).serve v.call.auth v.call.now v.call.requestId v.item vars hints
      eff v.state = (.ok x, t)) ↔ ¬v.Refused b refuses eff ∧ ¬v.Unclassed b eff := by
  have hkey := hc.exists_key hsent hpolicy
  have hdonor := hc.exists_donorKey_iff hpolicy
  constructor
  · rintro ⟨⟨vars', st⟩, t, hserve⟩
    obtain ⟨o, a, u, r, hresolve, hretain, -, -⟩ := serve_eq_ok hserve
    rw [hvars.contents, hvars.namespaces] at hresolve hretain
    have hlookup : v.lookup ⟨b, mode⟩ eff = (.ok (o, a), u) := hresolve
    constructor
    · intro hrefused
      obtain ⟨e, w, herror, -⟩ :=
        hrefused.retain_error hlookup hkey hb (!(vars.taintedApproximate || a))
      cases hretain.symm.trans herror
    · intro hunclassed
      obtain ⟨ho, ho'⟩ := (fresh_iff hlookup).mp hunclassed.fresh
      obtain ⟨cls, hcls, hnot⟩ := hunclassed.unspelled
      refine hnot ((hdonor cls).mp ?_)
      rcases hunclassed.consulted with hreuse | ⟨hallow, hshare⟩
      · exact exists_donorKey_of_resolve (resolves_of_resolve hlookup) ho ho' hreuse hcls
      · exact exists_donorKey_of_retain ho ho' hallow hshare hretain hcls
  · rintro ⟨hrefused, hunclassed⟩
    obtain ⟨o, a, u, hlookup⟩ : ∃ o a u, v.lookup ⟨b, mode⟩ eff = (.ok (o, a), u) := by
      by_cases hfresh : v.Fresh b eff
      · refine resolve_ok (fun k s => hb.get k v.call.now s) (hkey true)
          (fun hreuse cls hcls => (hdonor cls).mpr ?_) v.state
        by_contra hnot
        exact hunclassed ⟨hpolicy, hcheck, hfresh, .inl hreuse, cls, hcls, hnot⟩
      · obtain ⟨k, hk⟩ := hkey true
        obtain ⟨o, u, hlookup, -⟩ : ∃ o u, v.lookup ⟨b, mode⟩ eff = (.ok (o, false), u) ∧
            (o = .unobserved ∨ o = .exactHit) :=
          resolve_of_not_fresh (fun k s => hb.get k v.call.now s) hk
            fun h => hfresh ⟨h.1, h.2.imp_right fun hget => ⟨k, hk, hget⟩⟩
        exact ⟨o, false, u, hlookup⟩
    have hspelled : o ≠ .unobserved → o ≠ .exactHit → eff.retention.mode = .allow →
        eff.shareMax ≠ .request → ∀ cls, v.item.approxClass = some cls → Encodable cls := by
      intro ho ho' hallow hshare cls hcls
      by_contra hnot
      exact hunclassed ⟨hpolicy, hcheck, (fresh_iff hlookup).mpr ⟨ho, ho'⟩,
        .inr ⟨hallow, hshare⟩, cls, hcls, hnot⟩
    obtain ⟨r, w, hretain⟩ := retain_of_not_refused hlookup hkey hrefused hb hpolicy hcheck
      (fun ho ho' hallow hshare cls hcls =>
        (hdonor cls).mpr (hspelled ho ho' hallow hshare cls hcls))
      (!(vars.taintedApproximate || a))
    rw [← hvars.contents, ← hvars.namespaces] at hretain
    have hresolve := hlookup
    unfold Event.lookup at hresolve
    rw [← hvars.contents, ← hvars.namespaces] at hresolve
    exact ⟨_, _, serve_of_ok hresolve hretain⟩

/-! ## Iterations -/

/-- An iteration raises where its prefix has no policy, where that is rejected, and where
the fragment cannot be served. -/
theorem turn_raises_iff (hb : b.Refuses refuses) (hc : v.call.Presentable)
    (hsent : v.sent ⊆ v.call.fragments) (hfollows : Follows v.done v.acc) :
    (∃ e, ((⟨b, mode⟩ : Gateway σ).turn v.call v.acc v.item v.state).1 = .error e) ↔
      (policy v.sent = none ∧ constraintsOf v.sent ≠ some []) ∨
        (mode = .reject ∧ Fails b.capabilities v.sent) ∨
          ∃ eff, v.Refused b refuses eff ∨ v.Unclassed b eff := by
  have hcases := turn_handleFragment (⟨b, mode⟩ : Gateway σ) v.call.auth v.call.now
    v.call.requestId hfollows v.item
  unfold Gateway.turn
  generalize (⟨b, mode⟩ : Gateway σ).handleFragment v.call.auth v.call.now v.call.requestId v.acc
    v.item = prog at hcases ⊢
  cases hcases with
  | unread e hnone hcs => exact ⟨fun _ => .inl ⟨hnone, hcs⟩, fun _ => ⟨e, rfl⟩⟩
  | rejected eff e hpolicy hcheck hmode =>
      exact ⟨fun _ => .inr (.inl ⟨hmode, eff, e, hpolicy, hcheck⟩), fun _ => ⟨e, rfl⟩⟩
  | bare vars hvars htaint hcs =>
      have hnone : policy v.sent = none := policy_eq_none_of_bare hcs
      constructor
      · rintro ⟨e, he⟩
        cases he
      · rintro (⟨-, hne⟩ | ⟨-, eff, e, hpolicy, -⟩ | ⟨eff, hrefused | hunclassed⟩)
        · exact absurd hcs hne
        · cases hnone.symm.trans hpolicy
        · cases hnone.symm.trans hrefused.policy
        · cases hnone.symm.trans hunclassed.policy
  | bypassed vars hints eff e hvars htaint hpolicy hcheck hmode =>
      have hfails : Fails b.capabilities v.sent := ⟨eff, e, hpolicy, hcheck⟩
      constructor
      · rintro ⟨e, he⟩
        cases he
      · rintro (⟨hnone, -⟩ | ⟨hreject, -⟩ | ⟨eff', hrefused | hunclassed⟩)
        · cases hnone.symm.trans hpolicy
        · cases hmode.symm.trans hreject
        · exact absurd hfails hrefused.not_fails
        · exact absurd hfails (not_fails_of_enforceable hunclassed.policy hunclassed.enforceable)
  | served vars hints eff hvars htaint hpolicy hcheck =>
      have hserved := served_iff mode hb hc hsent hpolicy hcheck hvars hints
      generalize (⟨b, mode⟩ : Gateway σ).serve v.call.auth v.call.now v.call.requestId v.item vars
        hints eff v.state = result at hserved ⊢
      constructor
      · rintro ⟨e, he⟩
        refine .inr (.inr ⟨eff, ?_⟩)
        by_contra hneither
        obtain ⟨x, t, hok⟩ := hserved.mpr (not_or.mp hneither)
        rw [hok] at he
        cases he
      · intro hraises
        cases hresult : result.1 with
        | error e => exact ⟨e, rfl⟩
        | ok x =>
            obtain ⟨hrefused, hunclassed⟩ := hserved.mp ⟨x, result.2, Prod.ext hresult rfl⟩
            rcases hraises with ⟨hnone, -⟩ | ⟨-, hfails⟩ | ⟨eff', hor⟩
            · cases hnone.symm.trans hpolicy
            · exact absurd hfails (not_fails_of_enforceable hpolicy hcheck)
            · have heff : eff' = eff := by
                rcases hor with h | h <;> exact Option.some.inj (h.policy.symm.trans hpolicy)
              subst heff
              exact (hor.elim hrefused hunclassed).elim

/-! ## Requests -/

/-- The namespaces of a request that is answered have been encoded. -/
theorem namespacesSpelled_of_answer {g : Gateway σ} {r : Result} (h : (g.answer c s).1 = .ok r)
    (hordered : c.ordered = .ok ordered) : NamespacesSpelled ordered := by
  intro f hf text intent htext hparse n hn
  obtain ⟨init, last, rfl⟩ := List.eq_nil_or_concat' ordered |>.resolve_left
    (List.ne_nil_of_mem hf)
  obtain ⟨st, -, ⟨hbare, -⟩ | ⟨eff, hgoverns⟩⟩ :=
    (reported_of_answer h hordered).status init last List.prefix_rfl
  · cases (constraintsOf_ne_nil hbare f hf).symm.trans htext
  · obtain ⟨cs, hcs, hcompose⟩ := policy_eq_some_iff.mp hgoverns.policy
    have hmem := (mem_constraintsOf hcs).mpr ⟨f, hf, text, intent, htext, hparse, rfl⟩
    rcases compose_cases (List.ne_nil_of_mem hmem) with ⟨-, hencodable⟩ | ⟨herror, -⟩
    · exact hencodable _ hmem n hn
    · cases hcompose.symm.trans herror

/-- Every documented reason makes the request raise. -/
theorem raises_of_documented (hc : c.Presentable) (h : Documented ⟨b, mode⟩ c) :
    ∃ e, ((⟨b, mode⟩ : Gateway σ).answer c s).1 = .error e := by
  cases hanswer : ((⟨b, mode⟩ : Gateway σ).answer c s).1 with
  | error e => exact ⟨e, rfl⟩
  | ok r =>
      exfalso
      obtain ⟨ordered, -, hordered, -⟩ := loop_of_answer hanswer
      obtain ⟨planned, hplan, hchecked⟩ := bind_eq_ok_iff.mp hordered
      obtain ⟨u, hids, hpure⟩ := bind_eq_ok_iff.mp hchecked
      cases hpure
      have hperm := perm_of_planOrder hplan
      rcases h with hrepeated | ⟨f, hf, text, htext, hnot⟩ | ⟨hmode, ordered', hplan', p, hp, hfails⟩
      · rw [checkIds_strs (supplied_eq fun f hf => hc.ids f (hperm.subset hf)),
          if_neg (by rwa [(hperm.filterMap Fragment.suppliedId).nodup_iff])] at hids
        cases hids
      · obtain ⟨intent, hparse⟩ := parsed_of_answer hanswer hordered (hperm.mem_iff.mpr hf) htext
        exact hnot intent hparse
      · cases hplan.symm.trans hplan'
        subst hmode
        exact not_fails_of_answer hanswer hordered hp hfails

/-- Without one of them, a request raises for a namespace that cannot be encoded, and for
a fragment that cannot be served. -/
theorem raises_iff_of_not_documented (hb : b.Refuses refuses) (hc : c.Presentable)
    (h : ¬Documented ⟨b, mode⟩ c) : (∃ e, ((⟨b, mode⟩ : Gateway σ).answer c s).1 = .error e) ↔
      ¬NamespacesSpelled c.fragments ∨ ∃ v ∈ (⟨b, mode⟩ : Gateway σ).trace [c] s, ∃ eff,
        v.Refused b refuses eff ∨ v.Unclassed b eff := by
  obtain ⟨hdistinct, hreadable, hunfailing⟩ : (c.fragments.filterMap Fragment.suppliedId).Nodup ∧
      Readable c.fragments ∧
      (mode = .reject → ∀ ordered, planOrder c.fragments c.equivalenceDeclared = .ok ordered →
        ∀ p, p <+: ordered → ¬Fails b.capabilities p) := by
    refine ⟨?_, fun f hf text htext => ?_, fun hmode ordered hplan p hp hfails => ?_⟩
    · by_contra hrepeated
      exact h (.inl hrepeated)
    · by_contra hnone
      exact h (.inr (.inl ⟨f, hf, text, htext, not_exists.mp hnone⟩))
    · exact h (.inr (.inr ⟨hmode, ordered, hplan, p, hp, hfails⟩))
  obtain ⟨ordered, hplan, hordered, hperm⟩ := Call.exists_ordered hreadable hc.ids hdistinct
  have hturn : ∀ v ∈ (⟨b, mode⟩ : Gateway σ).trace [c] s, v.call = c ∧ v.sent <+: ordered ∧
      ((∃ e, ((⟨b, mode⟩ : Gateway σ).turn c v.acc v.item v.state).1 = .error e) ↔
        (policy v.sent = none ∧ constraintsOf v.sent ≠ some []) ∨
          (mode = .reject ∧ Fails b.capabilities v.sent) ∨
            ∃ eff, v.Refused b refuses eff ∨ v.Unclassed b eff) := by
    intro v hv
    obtain ⟨-, -, rfl⟩ := mem_trace_single.mp hv
    obtain ⟨ordered', hordered', hsent⟩ := sent_prefix_of_mem hv
    cases hordered.symm.trans hordered'
    exact ⟨rfl, hsent, turn_raises_iff hb hc (fun f hf => hperm.subset (hsent.subset hf))
      (follows_of_mem hv)⟩
  constructor
  · rintro ⟨e, he⟩
    obtain ⟨v, hv, hraise⟩ := (answer_error_iff hordered).mp he
    obtain ⟨-, hsent, hiff⟩ := hturn v hv
    rcases hiff.mp ⟨e, hraise⟩ with ⟨hnone, hne⟩ | ⟨hmode, hfails⟩ | hunserved
    · left
      intro hspelled
      have hsub : v.sent ⊆ c.fragments := fun f hf => hperm.subset (hsent.subset hf)
      obtain ⟨cs, hcs⟩ := exists_constraintsOf (p := v.sent) fun f hf => hreadable f (hsub hf)
      have hencodable : NamespacesEncodable cs := by
        intro d hd n hn
        obtain ⟨f, hf, text, intent, htext, hparse, rfl⟩ := (mem_constraintsOf hcs).mp hd
        exact hspelled f (hsub hf) text intent htext hparse n hn
      rcases policy_of_constraintsOf hcs hencodable with hbare | ⟨eff, hpolicy⟩
      · exact hne hbare
      · cases hnone.symm.trans hpolicy
    · exact absurd hfails (hunfailing hmode ordered hplan v.sent hsent)
    · exact .inr ⟨v, hv, hunserved⟩
  · rintro (hunspelled | ⟨v, hv, hunserved⟩)
    · cases hanswer : ((⟨b, mode⟩ : Gateway σ).answer c s).1 with
      | error e => exact ⟨e, rfl⟩
      | ok r =>
          have hspelled := namespacesSpelled_of_answer hanswer hordered
          exact absurd (fun f hf => hspelled f (hperm.mem_iff.mpr hf)) hunspelled
    · obtain ⟨-, -, hiff⟩ := hturn v hv
      obtain ⟨e, he⟩ := hiff.mpr (.inr (.inr hunserved))
      exact ⟨e, (answer_error_iff hordered).mpr ⟨v, hv, he⟩⟩

end

/-- A request raises just for the documented reasons exactly where one of them applies
anyway, or every namespace can be encoded, no bound is refused and no class that is
consulted cannot be encoded. -/
theorem raises_as_documented_iff [Runtime] {σ : Type} {b : Backend σ}
    {refuses : Time → ℕ → Prop} (hb : Shipped b refuses) (mode : OnUnenforceable) (c : Call)
    (hc : c.Presentable) (s : σ) :
    ((∃ e, ((⟨b, mode⟩ : Gateway σ).answer c s).1 = .error e) ↔ Documented ⟨b, mode⟩ c) ↔
      Documented ⟨b, mode⟩ c ∨ NamespacesSpelled c.fragments ∧
        ∀ v ∈ (⟨b, mode⟩ : Gateway σ).trace [c] s, ∀ eff,
          ¬v.Refused b refuses eff ∧ ¬v.Unclassed b eff := by
  by_cases h : Documented ⟨b, mode⟩ c
  · exact ⟨fun _ => .inl h, fun _ => ⟨fun _ => h, fun _ => raises_of_documented hc h⟩⟩
  · have hiff := raises_iff_of_not_documented (s := s) hb.refusals hc h
    rw [hiff]
    simp only [h, false_or, iff_false, not_or, not_not, not_exists, not_and]

section

attribute [local instance] reference

theorem presentable_sampleCall (content : String) (intent : Option Str) :
    (sampleCall alice 0 [sampleFragment content intent none]).Presentable := by
  refine ⟨fun f hf => ?_, fun f hf => ?_, encodable_lit _, encodable_lit _, encodable_lit _,
    encodable_lit _⟩
  · rw [List.mem_singleton.mp hf]
    exact .inl rfl
  · rw [List.mem_singleton.mp hf]
    exact encodable_lit content

theorem raises_as_documented_iff_sampleCall :
    let c := sampleCall alice 0 [sampleFragment "a" (intentText (.allow none) "exact" "tenant") none]
    ((∃ e, ((⟨inMemoryBackend, .bypass⟩ : Gateway Entries).answer c ∅).1 = .error e) ↔
        Documented ⟨inMemoryBackend, .bypass⟩ c) ↔
      Documented ⟨inMemoryBackend, .bypass⟩ c ∨ NamespacesSpelled c.fragments ∧
        ∀ v ∈ (⟨inMemoryBackend, .bypass⟩ : Gateway Entries).trace [c] ∅, ∀ eff,
          ¬v.Refused inMemoryBackend (fun now m => Runtime.plus now m = none) eff ∧
            ¬v.Unclassed inMemoryBackend eff :=
  raises_as_documented_iff (.inMemory inMemoryBackend.capabilities) .bypass _
    (presentable_sampleCall "a" (intentText (.allow none) "exact" "tenant")) ∅

/-- The intent's namespace is a string of one lone surrogate. -/
def surrogateCall : Call :=
  sampleCall alice 0 [sampleFragment "a" (Json.dumps .default (.obj [(lit "cache_intent",
    .obj [(lit "version", .int 1), (lit "constraints", surrogateConstraints)])] : Value)) none]

theorem not_raises_as_documented :
    ¬ ∀ (mode : OnUnenforceable) (c : Call) (s : Entries), c.Presentable →
      ((∃ e, ((inMemoryGateway mode).answer c s).1 = .error e) ↔
        Documented (inMemoryGateway mode) c) := by
  intro h
  have hraises : ((inMemoryGateway .bypass).answer surrogateCall ∅).1.toBool = false := by
    decide +kernel
  have hdocumented := (h .bypass surrogateCall ∅ (presentable_sampleCall _ _)).mp (by
    cases hanswer : ((inMemoryGateway .bypass).answer surrogateCall ∅).1 with
    | error e => exact ⟨e, rfl⟩
    | ok r => rw [hanswer] at hraises; cases hraises)
  rcases hdocumented with hrepeated | ⟨f, hf, text, htext, hnot⟩ | ⟨hmode, -⟩
  · exact hrepeated (by decide +kernel)
  · have hread : surrogateCall.fragments.all (fun f => (f.intentJson.map fun text =>
        (parseCacheIntent text).toBool).getD true) = true := by decide +kernel
    have hparsed := List.all_eq_true.mp hread f hf
    rw [htext] at hparsed
    obtain ⟨intent, hparse⟩ := exists_ok hparsed
    exact hnot intent hparse
  · cases hmode

end

end CacheControl

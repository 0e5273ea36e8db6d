import CacheControl.Memory
import CacheControl.Reference

/-!
# Tenants do not see each other

What a call does outside the public boundary stays under keys that no call of
another tenant computes.  Two runs that differ in such calls of other tenants
keep their stores alike under every other key, and answer the calls of one
tenant alike.
-/

open PyText ExpiringStore

namespace CacheControl

section

variable [Runtime] {g : Gateway Entries} {A : Str} {share share' : Share}
  {auth auth' : AuthContext} {k : Str} {eff : Effective} {requestId : Str} {now : Time}
  {hints : HintStatus} {vars : LoopVars} {f : Fragment} {s t : Entries}

/-! ## Keys and their tenants -/

/-- The key of some state within the boundary. -/
def KeyWithin (share : Share) (auth : AuthContext) (k : Str) : Prop :=
  ∃ contents namespaces requestId exact,
    cacheKey execution contents namespaces (partitionFor share auth requestId) exact = .ok k

def Foreign (A k : Str) : Prop :=
  ∃ share auth, share ≠ .public ∧ share ≠ .request ∧ auth.Plain ∧ auth.tenant ≠ A ∧
    KeyWithin share auth k

def OfRequest (k : Str) : Prop := ∃ auth, KeyWithin .request auth k

theorem KeyWithin.initial (hcf : CollisionFree) (h : KeyWithin share auth k)
    (h' : KeyWithin share' auth' k) : share.initial = share'.initial := by
  obtain ⟨contents, namespaces, requestId, exact, hk⟩ := h
  obtain ⟨contents', namespaces', requestId', exact', hk'⟩ := h'
  exact cacheKey_initial hcf hk hk'

theorem KeyWithin.not_ofRequest (hcf : CollisionFree) (h : KeyWithin share auth k)
    (hshare : share ≠ .request) : ¬ OfRequest k := by
  rintro ⟨auth', h'⟩
  have hinitial := h.initial hcf h'
  exact hshare (eq_request_iff_initial.mpr hinitial)

theorem KeyWithin.not_foreign_public (hcf : CollisionFree) (h : KeyWithin .public auth k) :
    ¬ Foreign A k := by
  rintro ⟨share, auth', hpublic, -, -, -, h'⟩
  exact hpublic (eq_public_iff_initial.mpr (h'.initial hcf h))

theorem KeyWithin.not_foreign (hcf : CollisionFree) (h : KeyWithin share auth k)
    (hplain : auth.Plain) : ¬ Foreign auth.tenant k := by
  rintro ⟨share', auth', hpublic, hrequest, hplain', htenant, h'⟩
  have hinitial := h'.initial hcf h
  have hshare : share ≠ .request := by
    rintro rfl
    exact hrequest (eq_request_iff_initial.mpr hinitial)
  obtain ⟨contents, namespaces, requestId, exact, hk⟩ := h
  obtain ⟨contents', namespaces', requestId', exact', hk'⟩ := h'
  obtain ⟨hpartition, -⟩ := cacheKey_inj hcf (hplain'.nul_notMem hrequest requestId')
    (hplain.nul_notMem hshare requestId) hk' hk
  obtain ⟨rfl, hread⟩ := partitionFor_inj (hplain'.tenantPath share') (hplain.tenantPath share)
    hpartition
  rcases tenant_of_identifiersRead hread with heq | hp | ⟨hr, -⟩
  · exact htenant heq
  · exact hpublic hp
  · exact hrequest hr

/-! ## One fragment -/

theorem sim_get {hidden : Str → Prop} (hk : ¬ hidden k) :
    Prog.Sim (AgreeOff hidden) (InMemoryCache.get k now) (InMemoryCache.get k now) := by
  intro s t h
  rw [InMemoryCache.get_eq_read, InMemoryCache.get_eq_read]
  obtain ⟨hfound, hafter⟩ := AgreeOff.read Entry.expiresAt now h hk
  exact ⟨by rw [hfound], hafter⟩

theorem sim_put {hidden : Str → Prop} (maxAge : Option ℕ) (exact : Bool) :
    Prog.Sim (AgreeOff hidden) (InMemoryCache.put k now maxAge exact)
      (InMemoryCache.put k now maxAge exact) := by
  intro s t h
  unfold InMemoryCache.put
  cases InMemoryCache.expiry now maxAge with
  | error e => exact ⟨rfl, h⟩
  | ok expiresAt => exact ⟨rfl, h.insert _ _⟩

theorem MemoryBacked.sim_serve (hg : MemoryBacked g) {hidden : Str → Prop}
    (hcheck : checkEnforceable g.backend.capabilities eff = .ok ())
    (hvisible : ∀ k, KeyWithin eff.shareMax auth k → ¬ hidden k) :
    Prog.Sim (AgreeOff hidden) (g.serve auth now requestId f vars hints eff)
      (g.serve auth now requestId f vars hints eff) := by
  apply CacheControl.sim_serve (Gateway.Agrees.refl g)
  · intro contents namespaces exact k hk
    rw [hg.get]
    exact sim_get (hvisible k ⟨_, _, _, _, hk⟩)
  · intro k exact
    rw [hg.put eff hcheck]
    exact sim_put _ _

theorem keyWithin_of_mem_stored {contents namespaces : List Str} {exact : Bool}
    {approxClass : Option Str} {e : Entry}
    (h : e ∈ stored eff contents namespaces (partitionFor eff.shareMax auth requestId) now exact
      approxClass) : eff.shareMax ≠ .request ∧ KeyWithin eff.shareMax auth e.key := by
  have hunder := storedUnder_of_mem h
  refine ⟨hunder.shared, ?_⟩
  rcases hunder.key with ⟨hkey, -⟩ | ⟨-, c, -, hkey⟩
  · exact ⟨_, _, _, _, hkey⟩
  · exact ⟨_, _, _, _, hkey⟩

theorem MemoryBacked.within_serve (hg : MemoryBacked g) {Q : Entries → Entries → Prop}
    (hcheck : checkEnforceable g.backend.capabilities eff = .ok ()) (hrefl : ∀ s, Q s s)
    (htrans : ∀ s t u, Q s t → Q t u → Q s u)
    (hget : ∀ k, KeyWithin eff.shareMax auth k → Prog.Within Q (InMemoryCache.get k now))
    (hput : ∀ es : List Entry,
      (∀ e ∈ es, eff.shareMax ≠ .request ∧ KeyWithin eff.shareMax auth e.key) →
        ∀ s, Q s (insertAll Entry.key es s)) :
    Prog.Within Q (g.serve auth now requestId f vars hints eff) := by
  refine Prog.Within.bind htrans (within_resolve_of_get hrefl htrans ?_) fun ⟨o, a⟩ => ?_
  · intro contents exact k hk
    rw [hg.get]
    exact hget k ⟨_, _, _, _, hk⟩
  · refine Prog.Within.bind htrans ?_ fun r => Prog.within_pure hrefl _
    intro s
    by_cases ho : o = .unobserved
    · subst ho
      exact hrefl s
    rw [hg.retain_state hcheck ho]
    split
    · exact hrefl s
    · exact hput _ (fun e he => keyWithin_of_mem_stored he) s

theorem MemoryBacked.avoids_serve (hg : MemoryBacked g) (hcf : CollisionFree)
    (hcheck : checkEnforceable g.backend.capabilities eff = .ok ()) :
    Prog.Within (fun s t => Avoids OfRequest s → Avoids OfRequest t)
      (g.serve auth now requestId f vars hints eff) := by
  refine hg.within_serve hcheck (fun _ h => h) (fun _ _ _ h₁ h₂ h => h₂ (h₁ h)) ?_ ?_
  · intro k _ s h
    exact h.prunes (within_get k now s)
  · intro es hes s h
    exact h.insertAll fun e he => (hes e he).2.not_ofRequest hcf (hes e he).1

def Unnoticed (A : Str) (s t : Entries) : Prop :=
  Avoids OfRequest s → Avoids OfRequest t ∧ AgreeOff (Foreign A) s t

theorem Unnoticed.refl (s : Entries) : Unnoticed A s s := fun h => ⟨h, AgreeOff.refl s⟩

theorem Unnoticed.trans {u : Entries} (h₁ : Unnoticed A s t) (h₂ : Unnoticed A t u) :
    Unnoticed A s u := by
  intro h
  obtain ⟨ht, hagree⟩ := h₁ h
  obtain ⟨hu, hagree'⟩ := h₂ ht
  exact ⟨hu, hagree.trans hagree'⟩

theorem MemoryBacked.unnoticed_serve (hg : MemoryBacked g) (hcf : CollisionFree)
    (hcheck : checkEnforceable g.backend.capabilities eff = .ok ()) (hplain : auth.Plain)
    (htenant : auth.tenant ≠ A) (hshare : eff.shareMax ≠ .public) :
    Prog.Within (Unnoticed A) (g.serve auth now requestId f vars hints eff) := by
  have hforeign : ∀ k, eff.shareMax ≠ .request → KeyWithin eff.shareMax auth k → Foreign A k :=
    fun k hrequest hk => ⟨_, auth, hshare, hrequest, hplain, htenant, hk⟩
  refine hg.within_serve hcheck Unnoticed.refl (fun _ _ _ => Unnoticed.trans) ?_ ?_
  · intro k hk s h
    rw [InMemoryCache.get_eq_read]
    by_cases hrequest : eff.shareMax = .request
    · have hkind : OfRequest k := ⟨auth, hrequest ▸ hk⟩
      rw [h.read hkind]
      exact ⟨h, AgreeOff.refl s⟩
    · exact ⟨h.prunes (prunes_read s k now), AgreeOff.read_hidden s (hforeign k hrequest hk)⟩
  · intro es hes s h
    refine ⟨h.insertAll fun e he => (hes e he).2.not_ofRequest hcf (hes e he).1, ?_⟩
    exact AgreeOff.insertAll_hidden (fun e he => hforeign _ (hes e he).1 (hes e he).2) s

/-! ## One call -/

/-- The stores hold the same under every key that is not another tenant's, and
nothing for one request only. -/
def Alike (A : Str) (s t : Entries) : Prop :=
  AgreeOff (Foreign A) s t ∧ Avoids OfRequest s ∧ Avoids OfRequest t

theorem alike_empty : Alike A ∅ ∅ :=
  ⟨AgreeOff.refl _, avoids_empty _, avoids_empty _⟩

theorem Alike.unnoticed (h : Alike A s t) {s' t' : Entries} (hs : Unnoticed A s s')
    (ht : Unnoticed A t t') : Alike A s' t' := by
  obtain ⟨hagree, hsavoids, htavoids⟩ := h
  obtain ⟨hs', hsagree⟩ := hs hsavoids
  obtain ⟨ht', htagree⟩ := ht htavoids
  exact ⟨hsagree.symm.trans (hagree.trans htagree), hs', ht'⟩

theorem MemoryBacked.sim_alike_serve (hg : MemoryBacked g) (hcf : CollisionFree)
    (hcheck : checkEnforceable g.backend.capabilities eff = .ok ())
    (hvisible : ∀ k, KeyWithin eff.shareMax auth k → ¬ Foreign A k) :
    Prog.Sim (Alike A) (g.serve auth now requestId f vars hints eff)
      (g.serve auth now requestId f vars hints eff) :=
  (hg.sim_serve hcheck hvisible).within (hg.avoids_serve hcf hcheck)

/-- The tenant's own calls are answered alike. -/
theorem MemoryBacked.sim_answer (hg : MemoryBacked g) (hcf : CollisionFree) {c : Call}
    (hplain : c.auth.Plain) :
    Prog.Sim (Alike c.auth.tenant) (g.answer c) (g.answer c) :=
  CacheControl.sim_answer (Gateway.Agrees.refl g) fun _ _ _ _ hcheck =>
    hg.sim_alike_serve hcf hcheck fun _ hk => hk.not_foreign hcf hplain

/-- No prefix in the list behind `p` has a public boundary. -/
def NeverPublic (p fragments : List Fragment) : Prop :=
  ∀ q f, q ++ [f] <+: fragments → ∀ eff, policy (p ++ (q ++ [f])) = some eff →
    eff.shareMax ≠ .public

theorem NeverPublic.tail {p fragments : List Fragment} (h : NeverPublic p (f :: fragments)) :
    NeverPublic (p ++ [f]) fragments := by
  intro q f' hq eff hpolicy
  refine h (f :: q) f' (by simpa using hq) eff ?_
  simpa using hpolicy

theorem neverPublic_of_policy {p : List Fragment} (fragments : List Fragment)
    (hpolicy : policy (p ++ [f]) = some eff) (hshare : eff.shareMax ≠ .public) :
    NeverPublic p (f :: fragments) := by
  intro q f' hq eff' hpolicy' hpublic
  obtain ⟨cs, hcs, hcomposes⟩ := composes_of_policy hpolicy
  obtain ⟨ds, hds, hcomposes'⟩ := composes_of_policy hpolicy'
  have hprefix : p ++ [f] <+: p ++ (q ++ [f']) := by
    apply (List.prefix_append_right_inj p).mpr
    obtain ⟨rest, hrest⟩ := hq
    cases q with
    | nil =>
        obtain ⟨rfl, -⟩ := List.cons.inj hrest
        exact List.prefix_refl _
    | cons x q =>
        obtain ⟨rfl, -⟩ := List.cons.inj hrest
        exact ⟨q ++ [f'], rfl⟩
  have hle := hcomposes.shareMax_anti hcomposes' (constraintsOf_subset hprefix hcs hds)
  rw [hpublic] at hle
  exact hshare (le_antisymm (Share.le_public _) hle)

variable {c : Call}

theorem MemoryBacked.unnoticed_loop (hg : MemoryBacked g) (hcf : CollisionFree)
    (hplain : c.auth.Plain) (htenant : c.auth.tenant ≠ A) {p fragments : List Fragment}
    (hfollows : Follows p vars) (hnever : NeverPublic p fragments) :
    Prog.Within (Unnoticed A) (Prog.mapAccum (g.turn c) vars fragments) := by
  induction fragments generalizing p vars with
  | nil => exact Prog.within_pure Unnoticed.refl _
  | cons f fragments ih =>
      have hturn : Prog.Within (Unnoticed A) (g.turn c vars f) := by
        refine (turn_handleFragment g c.auth c.now c.requestId hfollows f).within
          Unnoticed.refl fun vars' hints eff hpolicy hcheck => ?_
        have hshare := hnever [] f ⟨fragments, rfl⟩ eff hpolicy
        exact hg.unnoticed_serve hcf hcheck hplain htenant hshare
      intro s
      have hfirst := hturn s
      rcases hstep : g.turn c vars f s with ⟨e | ⟨vars', st⟩, t⟩
      · rw [Prog.mapAccum_cons_of_error hstep]
        rwa [hstep] at hfirst
      · rw [Prog.mapAccum_cons_of_ok hstep, Prog.bind_pure_state]
        rw [hstep] at hfirst
        exact hfirst.trans (ih (turn_ok hfollows hstep).1 hnever.tail t)

/-- Another tenant's loop keeps stores alike: it is answered alike as long as its
boundary is public, and is not noticed from then on. -/
theorem MemoryBacked.alike_loop (hg : MemoryBacked g) (hcf : CollisionFree)
    (hplain : c.auth.Plain) (htenant : c.auth.tenant ≠ A) {p fragments : List Fragment}
    (hfollows : Follows p vars) (h : Alike A s t) :
    Alike A (Prog.mapAccum (g.turn c) vars fragments s).2
      (Prog.mapAccum (g.turn c) vars fragments t).2 := by
  induction fragments generalizing p vars s t with
  | nil => exact h
  | cons f fragments ih =>
      by_cases hnarrow : ∃ eff, policy (p ++ [f]) = some eff ∧ eff.shareMax ≠ .public
      · obtain ⟨eff, hpolicy, hshare⟩ := hnarrow
        have hunnoticed := hg.unnoticed_loop hcf hplain htenant hfollows
          (neverPublic_of_policy fragments hpolicy hshare)
        exact h.unnoticed (hunnoticed s) (hunnoticed t)
      · have hturn : Prog.Sim (Alike A) (g.turn c vars f) (g.turn c vars f) := by
          refine (turn_handleFragment g c.auth c.now c.requestId hfollows f).sim
            fun vars' hints eff hpolicy hcheck => ?_
          have hpublic : eff.shareMax = .public := by
            by_contra hne
            exact hnarrow ⟨eff, hpolicy, hne⟩
          refine hg.sim_alike_serve hcf hcheck fun k hk => ?_
          rw [hpublic] at hk
          exact hk.not_foreign_public hcf
        obtain ⟨hsame, hnext⟩ := hturn s t h
        rcases hstep : g.turn c vars f s with ⟨e | ⟨vars', st⟩, s'⟩
        · rcases hstep' : g.turn c vars f t with ⟨r, t'⟩
          rw [hstep, hstep'] at hsame hnext
          cases hsame
          rw [Prog.mapAccum_cons_of_error hstep, Prog.mapAccum_cons_of_error hstep']
          exact hnext
        · rcases hstep' : g.turn c vars f t with ⟨r, t'⟩
          rw [hstep, hstep'] at hsame hnext
          cases hsame
          rw [Prog.mapAccum_cons_of_ok hstep, Prog.mapAccum_cons_of_ok hstep',
            Prog.bind_pure_state, Prog.bind_pure_state]
          exact ih (turn_ok hfollows hstep).1 hnext

/-! ## Runs -/

/-- No prefix of the call composes to a public boundary. -/
def Call.NeverPublic (c : Call) : Prop :=
  ∀ fragments, c.ordered = .ok fragments → ∀ p eff, p <+: fragments → policy p = some eff →
    eff.shareMax ≠ .public

theorem MemoryBacked.unnoticed_answer (hg : MemoryBacked g) (hcf : CollisionFree)
    (hplain : c.auth.Plain) (htenant : c.auth.tenant ≠ A) (hnever : c.NeverPublic) :
    Prog.Within (Unnoticed A) (g.answer c) := by
  intro s
  cases hord : c.ordered with
  | error e =>
      rw [answer_of_error hord]
      exact Unnoticed.refl s
  | ok fragments =>
      rw [answer_state hord]
      refine hg.unnoticed_loop hcf hplain htenant follows_init ?_ s
      exact fun q f hq eff hpolicy => hnever fragments hord _ eff hq hpolicy

theorem MemoryBacked.alike_answer (hg : MemoryBacked g) (hcf : CollisionFree)
    (hplain : c.auth.Plain) (htenant : c.auth.tenant ≠ A) (h : Alike A s t) :
    Alike A (g.answer c s).2 (g.answer c t).2 := by
  cases hord : c.ordered with
  | error e =>
      rw [answer_of_error hord, answer_of_error hord]
      exact h
  | ok fragments =>
      rw [answer_state hord, answer_state hord]
      exact hg.alike_loop hcf hplain htenant follows_init h

/-- `kept` is `calls` without some calls of other tenants that are nowhere
public. -/
inductive Deletes (A : Str) : List Call → List Call → Prop
  | nil : Deletes A [] []
  | keep (c : Call) {calls kept : List Call} : Deletes A calls kept →
      Deletes A (c :: calls) (c :: kept)
  | delete (c : Call) {calls kept : List Call} : c.auth.tenant ≠ A → c.NeverPublic →
      Deletes A calls kept → Deletes A (c :: calls) kept

def answersTo (A : Str) (calls : List Call) (results : List (Except PyError Result)) :
    List (Call × Except PyError Result) :=
  (calls.zip results).filter fun p => p.1.auth.tenant = A

theorem answersTo_cons_self (c : Call) (calls : List Call) (r : Except PyError Result)
    (rs : List (Except PyError Result)) :
    answersTo c.auth.tenant (c :: calls) (r :: rs) =
      (c, r) :: answersTo c.auth.tenant calls rs := by
  simp [answersTo]

theorem answersTo_cons_of_ne (htenant : c.auth.tenant ≠ A) (calls : List Call)
    (r : Except PyError Result) (rs : List (Except PyError Result)) :
    answersTo A (c :: calls) (r :: rs) = answersTo A calls rs := by
  simp [answersTo, htenant]

theorem MemoryBacked.answersTo_run (hg : MemoryBacked g) (hcf : CollisionFree)
    {calls kept : List Call} (hdeletes : Deletes A calls kept) (hplain : ∀ c ∈ calls, c.auth.Plain)
    (h : Alike A s t) :
    answersTo A calls (g.run calls s).1 = answersTo A kept (g.run kept t).1 := by
  induction hdeletes generalizing s t with
  | nil => rfl
  | keep c hrest ih =>
      have hc : c.auth.Plain := hplain c (by simp)
      have hlater := fun d hd => hplain d (List.mem_cons_of_mem c hd)
      simp only [Gateway.run, Prog.session_cons_fst]
      by_cases htenant : c.auth.tenant = A
      · subst htenant
        obtain ⟨hsame, hnext⟩ := hg.sim_answer hcf hc s t h
        rw [answersTo_cons_self, answersTo_cons_self, hsame]
        exact congrArg (List.cons _) (ih hlater hnext)
      · rw [answersTo_cons_of_ne htenant, answersTo_cons_of_ne htenant]
        exact ih hlater (hg.alike_answer hcf hc htenant h)
  | delete c htenant hnever hrest ih =>
      have hc : c.auth.Plain := hplain c (by simp)
      have hlater := fun d hd => hplain d (List.mem_cons_of_mem c hd)
      simp only [Gateway.run, Prog.session_cons_fst]
      rw [answersTo_cons_of_ne htenant]
      exact ih hlater (h.unnoticed (hg.unnoticed_answer hcf hc htenant hnever s) (Unnoticed.refl t))

end

/-- Deleting calls of other tenants that are nowhere public does not change what
a tenant's calls return. -/
theorem tenants_isolated [Runtime] (hcf : CollisionFree) (mode : OnUnenforceable) {A : Str}
    {calls kept : List Call} (hdeletes : Deletes A calls kept)
    (hplain : ∀ c ∈ calls, c.auth.Plain) :
    answersTo A calls ((inMemoryGateway mode).run calls ∅).1 =
      answersTo A kept ((inMemoryGateway mode).run kept ∅).1 :=
  (memoryBacked_inMemory mode).answersTo_run hcf hdeletes hplain alike_empty

section

attribute [local instance] reference

def tenantCall (auth : AuthContext) (now : ℕ) : Call :=
  sampleCall auth now
    [sampleFragment "a" (some (intentText (.allow (some 60)) "exact" "tenant")) none]

/-- Another tenant sends the same text before and between alice's calls. -/
def mixedRun : List Call :=
  [tenantCall bob 0, tenantCall alice 1, tenantCall bob 2, tenantCall alice 3]

theorem neverPublic_tenantCall (auth : AuthContext) (now : ℕ) :
    (tenantCall auth now).NeverPublic := by
  rintro fragments hord p eff ⟨rest, hrest⟩ hpolicy hpublic
  obtain rfl : (tenantCall auth now).fragments = fragments := Except.ok.inj hord
  cases p with
  | nil => cases hpolicy.symm.trans (policy_eq_none_of_bare rfl)
  | cons f p =>
      obtain ⟨rfl, htail⟩ := List.cons.inj hrest
      obtain ⟨rfl, -⟩ := List.append_eq_nil_iff.mp htail
      have hknown : (policy [sampleFragment "a"
          (some (intentText (.allow (some 60)) "exact" "tenant")) none]).any
            (fun eff => eff.shareMax = .public) = false := by decide +kernel
      rw [hpolicy] at hknown
      simp [hpublic] at hknown

theorem tenants_isolated_mixedRun :
    answersTo alice.tenant mixedRun ((inMemoryGateway .bypass).run mixedRun ∅).1 =
      answersTo alice.tenant [tenantCall alice 1, tenantCall alice 3]
        ((inMemoryGateway .bypass).run [tenantCall alice 1, tenantCall alice 3] ∅).1 := by
  have hbob : ∀ now, (tenantCall bob now).auth.tenant ≠ alice.tenant := by
    intro now
    show bob.tenant ≠ alice.tenant
    decide +kernel
  refine tenants_isolated collisionFree_reference .bypass ?_ ?_
  · refine .delete _ (hbob 0) (neverPublic_tenantCall bob 0) (.keep _ ?_)
    exact .delete _ (hbob 2) (neverPublic_tenantCall bob 2) (.keep _ .nil)
  · intro c hc
    simp only [mixedRun, List.mem_cons, List.not_mem_nil, or_false] at hc
    rcases hc with rfl | rfl | rfl | rfl
    · exact plain_bob
    · exact plain_alice
    · exact plain_bob
    · exact plain_alice

end

end CacheControl

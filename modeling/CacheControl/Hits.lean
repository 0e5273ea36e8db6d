import CacheControl.Atomicity
import CacheControl.Meet
import CacheControl.Salts
import CacheControl.Upstream

/-!
# Hits on a single partition

An engine that takes one partition per request keeps the state of a request under
the salt it was sent with, while the gateway's own store is partitioned fragment by
fragment.  Where a request has one boundary throughout the two agree, and a hit that
is reported was sent upstream before, under the same salt.
-/

open PyText ExpiringStore

namespace CacheControl

section

variable [Runtime] {members : List (Str × Value)} {fragments : List Fragment} {body : Str}

/-! ## Contents -/

theorem nul_notMem_contents (hfloat : Json.FloatsPrintable Runtime.Float)
    (h : readBody body = .ok (members, fragments)) {p : List Fragment} (hp : p <+: fragments) :
    ∀ c ∈ contentsOf p, nul ∉ c := by
  intro c hc hnul
  obtain ⟨f, hf, rfl⟩ := List.mem_map.mp hc
  have hprintable := printable_content hfloat h (hp.subset hf) nul hnul
  exact absurd hprintable.1 (by decide)

end

section Store

variable [Runtime] {g : Gateway Entries} {c : Call} {calls : List Call} {n : ℕ} {s : Entries}
  {pre post : List (Event Entries)} {v : Event Entries} {k : Str}

/-! ## Where entries come from -/

/-- A key that the store does not hold and under which nothing is published. -/
def Unwritten (g : Gateway Entries) (s : Entries) (hist : List (Event Entries)) (k : Str) : Prop :=
  s.lookup k = none ∧ ∀ u ∈ hist, ∀ e ∈ u.published g, e.key ≠ k

/-- What is in the store was there before the run or was published in it. -/
theorem MemoryBacked.avoids_unwritten (hg : MemoryBacked g) (n : ℕ) (calls : List Call)
    (s : Entries) :
    Avoids (Unwritten g s (g.traceFrom n calls s)) (g.run calls s).2 ∧
      ∀ pre v post, g.traceFrom n calls s = pre ++ v :: post →
        Avoids (Unwritten g s pre) v.state := by
  refine (chained_traceFrom g n calls s).invariant (fun hist t => Avoids (Unwritten g s hist) t)
    [] (fun k hk => hk.1) ?_
  intro pre v post hsplit hbefore k hk
  obtain ⟨t, hprunes, hafter⟩ := hg.after_eq (follows_of_split hsplit)
  have hstate := hbefore k ⟨hk.1, fun u hu => hk.2 u (List.mem_append_left _ hu)⟩
  have hpruned : Avoids (· = k) t := by
    rintro j rfl
    exact hprunes.lookup_none hstate
  rw [hafter]
  exact hpruned.insertAll (hk.2 v (by simp)) k rfl

end Store

section Sessions

variable [Runtime] {g : Gateway Entries} {mode : OnUnenforceable} {x y : Submission}
  {pre post xs : List Submission} {s t : Entries} {salt k : Str} {contents : List Str}
  {members upstream : List (Str × Value)} {fragments p : List Fragment} {eff whole : Effective}
  {result : Result}

/-! ## What was forwarded before -/

def Submission.call (x : Submission) (fragments : List Fragment) : Call :=
  callFor fragments x.auth x.now x.requestId

/-- The submission is accepted at the store `s`, and goes upstream under the salt with
elements that begin with the contents. -/
def Forwards (g : Gateway Entries) (x : Submission) (s : Entries) (salt : Str)
    (contents : List Str) : Prop :=
  ∃ upstream result, (g.submit x s).1 = .ok (.accepted upstream result) ∧
    Json.get? (lit "cache_salt") upstream = some (.str salt) ∧
    contents <+: elementContents upstream

/-- One of the submissions forwarded the contents under the salt. -/
def Forwarded (g : Gateway Entries) (xs : List Submission) (salt : Str) (contents : List Str) :
    Prop :=
  ∃ pre x post, xs = pre ++ x :: post ∧ Forwards g x (g.submitAll pre ∅).2 salt contents

/-- Every hit that `x` reports behind the submissions `pre` is true of the partition
whose salt it goes upstream with. -/
def HitsTrue (g : Gateway Entries) (pre : List Submission) (x : Submission) : Prop :=
  ∀ upstream result i st salt,
    (g.submit x (g.submitAll pre ∅).2).1 = .ok (.accepted upstream result) →
    result.statuses[i]? = some st → st.outcome = .exactHit →
    Json.get? (lit "cache_salt") upstream = some (.str salt) →
    Forwarded g pre salt ((elementContents upstream).take (i + 1))

theorem Forwarded.append (h : Forwarded g pre salt contents) (post : List Submission) :
    Forwarded g (pre ++ post) salt contents := by
  obtain ⟨before, x, behind, rfl, hforwards⟩ := h
  exact ⟨before, x, behind ++ post, by simp, hforwards⟩

/-! ## One boundary throughout -/

/-- The request has one boundary: it is not kept to itself, and each of its governed
prefixes has the share and the namespaces of the whole. -/
structure OneBoundary (caps : Capabilities) (fragments : List Fragment) (whole : Effective) :
    Prop where
  policy : policy fragments = some whole
  shared : ¬ KeptToItself caps fragments
  share : ∀ p eff, p <+: fragments → CacheControl.policy p = some eff →
    eff.shareMax = whole.shareMax
  identity : ∀ p eff, p <+: fragments → CacheControl.policy p = some eff →
    eff.namespaceIdentity = whole.namespaceIdentity

/-- No fragment that the loop reaches finds an entry. -/
def FindsNothing (g : Gateway Entries) (c : Call) (s : Entries) : Prop :=
  ∀ v ∈ g.trace [c] s, ∀ eff k, CacheControl.policy v.sent = some eff → eff.reuse ≠ .none →
    v.call.exactKey v.done v.item eff = .ok k → eligible Entry.expiresAt v.state k v.call.now = none

/-- The gateway's store and the engine agree on the submission: it has one boundary, or
it stores nothing and reports no hit. -/
def Mirrors (g : Gateway Entries) (x : Submission) (s : Entries) : Prop :=
  ∀ members fragments, readBody x.body = .ok (members, fragments) →
    (∃ whole, OneBoundary g.backend.capabilities fragments whole) ∨
    StoresNothing g (x.call fragments) s ∧
      (CacheControl.policy fragments = none ∨ KeptToItself g.backend.capabilities fragments ∨
        FindsNothing g (x.call fragments) s)

/-! ## Submissions and their calls -/

theorem submit_of_readBody {σ : Type} {g : Gateway σ} {s : σ}
    (h : readBody x.body = .ok (members, fragments)) :
    g.submit x s = prepareFragments g members fragments x.auth x.now x.requestId s := by
  rw [Gateway.submit, prepare_eq, h]

theorem submit_state (h : readBody x.body = .ok (members, fragments)) (s : Entries) :
    (g.submit x s).2 = (g.answer (x.call fragments) s).2 := by
  rw [submit_of_readBody h]
  exact prepareFragments_state g members fragments x.auth x.now x.requestId s

theorem submit_of_unread {e : PyError} (h : readBody x.body = .error e) (s : Entries) :
    g.submit x s = (.ok (.rejected .invalid e), s) := by
  rw [Gateway.submit, prepare_eq, h]
  rfl

theorem submitAll_concat (g : Gateway Entries) (pre : List Submission) (x : Submission)
    (s : Entries) : (g.submitAll (pre ++ [x]) s).2 = (g.submit x (g.submitAll pre s).2).2 := by
  unfold Gateway.submitAll
  rw [Prog.session_append]
  rfl

/-- A request that was handled goes upstream, since every partition has a salt. -/
theorem exists_finish (mode : OnUnenforceable) (members : List (Str × Value)) (r : Result) :
    ∃ upstream result, finish (saltOnlyGateway mode).backend members x.auth x.requestId r =
      .ok (.accepted upstream result) := by
  have hlower : ∃ lowered, lowerRequestSalt (saltOnlyGateway mode).backend r.statuses x.auth
      x.requestId = .ok lowered := by
    unfold lowerRequestSalt
    rw [show (saltOnlyGateway mode).backend.saltFor = some saltOnlySalt from saltOnly_saltFor]
    cases r.statuses.filter FragmentStatus.isGoverned with
    | nil => exact ⟨_, rfl⟩
    | cons status governed => exact ⟨_, rfl⟩
  obtain ⟨lowered, hlowered⟩ := hlower
  exact ⟨_, _, by rw [finish, hlowered]; rfl⟩

theorem submit_of_answer (h : readBody x.body = .ok (members, fragments)) {r : Result}
    (hanswer : (g.answer (x.call fragments) s).1 = .ok r) :
    (g.submit x s).1 = finish g.backend members x.auth x.requestId r := by
  have hhandle : g.handle fragments x.auth x.now x.requestId none false s =
      (.ok r, (g.answer (x.call fragments) s).2) := Prod.ext hanswer rfl
  rw [submit_of_readBody h]
  unfold prepareFragments
  rw [Prog.bind_apply, Prog.attempt_apply, hhandle]
  rfl

theorem eq_of_ordered_call {ordered : List Fragment}
    (h : (x.call fragments).ordered = .ok ordered) : ordered = fragments := eq_of_ordered rfl h

/-- A request with one boundary that was put in order is answered, once its partition
can be spelled. -/
theorem OneBoundary.exists_answer (hfloat : Json.FloatsPrintable Runtime.Float)
    (hread : readBody x.body = .ok (members, fragments))
    (hone : OneBoundary (saltOnlyGateway mode).backend.capabilities fragments whole)
    {ordered : List Fragment} (hordered : (x.call fragments).ordered = .ok ordered)
    (hpartition : Encodable (partitionFor whole.shareMax x.auth x.requestId)) (s : Entries) :
    ∃ r, ((saltOnlyGateway mode).answer (x.call fragments) s).1 = .ok r := by
  have hg := memoryBacked_saltOnly mode
  cases hanswer : ((saltOnlyGateway mode).answer (x.call fragments) s).1 with
  | ok r => exact ⟨r, rfl⟩
  | error e =>
      exfalso
      obtain ⟨v, hv, hraise⟩ := (answer_error_iff hordered).mp hanswer
      obtain ⟨-, -, hcall⟩ := mem_trace_single.mp hv
      obtain ⟨ordered', hordered', hsent⟩ := sent_prefix_of_mem hv
      cases eq_of_ordered_call hordered'
      have hcases := turn_handleFragment (saltOnlyGateway mode) x.auth x.now x.requestId
        (follows_of_mem hv) v.item
      change ((saltOnlyGateway mode).handleFragment x.auth x.now x.requestId v.acc v.item
        v.state).1 = .error e at hraise
      generalize (saltOnlyGateway mode).handleFragment x.auth x.now x.requestId v.acc v.item = prog
        at hcases hraise
      cases hcases with
      | unread e' hnone hcs =>
          rcases policy_of_prefix hone.policy hsent with hbare | ⟨eff, hpolicy⟩
          · exact hcs hbare
          · cases hnone.symm.trans hpolicy
      | rejected eff e' hpolicy hcheck hmode =>
          exact hone.shared (.inl ⟨v.sent, eff, e', hsent, hpolicy, hcheck⟩)
      | bare vars => cases hraise
      | bypassed vars hints eff e' => cases hraise
      | served vars hints eff hvars htaint hpolicy hcheck =>
          have hclass : v.item.approxClass = none :=
            approxClass_eq_none hread (hsent.subset (by simp [Event.sent]))
          have hkey : ∀ exact, ∃ k, cacheKey execution vars.contentsSoFar vars.namespacesSoFar
              (partitionFor eff.shareMax x.auth x.requestId) exact = .ok k := by
            rw [hvars.contents, hvars.namespaces, hone.share _ eff hsent hpolicy]
            apply exists_cacheKey hpartition ⟨_, namespaceDigest_of_policy hpolicy⟩
            intro content hcontent
            obtain ⟨f, hf, rfl⟩ := List.mem_map.mp hcontent
            exact encodable_of_printable (printable_content hfloat hread (hsent.subset hf))
          obtain ⟨o, a, t, hresolve⟩ : ∃ o a t, (saltOnlyGateway mode).resolve eff
              vars.contentsSoFar vars.namespacesSoFar
              (partitionFor eff.shareMax x.auth x.requestId) x.now v.item.approxClass v.state =
                (.ok (o, a), t) :=
            resolve_ok (fun k s => ⟨_, get_apply k x.now s⟩) (hkey true) (by simp [hclass]) v.state
          obtain ⟨r, u, hretain⟩ : ∃ r u, (saltOnlyGateway mode).retain o eff
              vars.contentsSoFar vars.namespacesSoFar
              (partitionFor eff.shareMax x.auth x.requestId) x.now
              (!(vars.taintedApproximate || a)) v.item.approxClass t = (.ok r, u) :=
            retain_ok (fun _ _ _ _ => ⟨fun k exact s => by
              rw [hg.put eff hcheck, maxAge_eq_none_of_check rfl hcheck]
              exact ⟨_, _, put_apply rfl s⟩, hkey _, by simp [hclass]⟩) t
          rw [serve_of_resolve hresolve, hretain] at hraise
          cases hraise

theorem contents_of_finish {mode : OnUnenforceable} {r : Result}
    (h : finish (saltOnlyGateway mode).backend members x.auth x.requestId r =
      .ok (.accepted upstream result)) : elementContents upstream = elementContents members := by
  cases finished_of_finish h with
  | unsalted => exact elementContents_stripBindingMembers members
  | salted => rw [elementContents_set_salt, elementContents_stripBindingMembers]

/-- It goes upstream under the salt of that boundary. -/
theorem OneBoundary.salt_eq
    (hone : OneBoundary (saltOnlyGateway mode).backend.capabilities fragments whole) {r : Result}
    (hanswer : ((saltOnlyGateway mode).answer (x.call fragments) s).1 = .ok r)
    (hfinish : finish (saltOnlyGateway mode).backend members x.auth x.requestId r =
      .ok (.accepted upstream result)) :
    ∃ salt, saltOnlySalt (partitionFor whole.shareMax x.auth x.requestId)
        whole.namespaceIdentity = .ok salt ∧
      Json.get? (lit "cache_salt") upstream = some (.str salt) := by
  obtain ⟨ordered, -, hordered, -⟩ := loop_of_answer hanswer
  cases eq_of_ordered_call hordered
  obtain ⟨b, hlowered⟩ := loweredTo_of_finish (g := saltOnlyGateway mode) saltOnly_saltFor
    (reported_of_answer hanswer hordered)
    (exists_intent_of_policy hone.policy (List.prefix_refl _)) hfinish
  obtain ⟨d, salt, hdigest, hsalt, hsent, -⟩ := hlowered.salt
  obtain ⟨cs, hcs, hcomposes⟩ := composes_of_policy hone.policy
  have hleast := hlowered.boundary.narrowest hone.shared
  simp only [supplies_iff hcs] at hleast
  cases hcomposes.shareMax.unique hleast
  cases (namespaceDigest_of_policy hone.policy).symm.trans hdigest
  exact ⟨salt, hsalt, hsent⟩

/-- The key was written for contents that were forwarded under the salt of its partition
and its namespaces. -/
def Owned (g : Gateway Entries) (xs : List Submission) (k : Str) : Prop :=
  ∃ contents namespaces partition exact identity salt,
    cacheKey execution contents namespaces partition exact = .ok k ∧
    (∀ c ∈ contents, nul ∉ c) ∧ namespaceDigest namespaces = .ok identity ∧
    saltOnlySalt partition identity = .ok salt ∧ Forwarded g xs salt contents

theorem Owned.append (h : Owned g xs k) (post : List Submission) : Owned g (xs ++ post) k := by
  obtain ⟨contents, namespaces, partition, exact, identity, salt, hk, hnul, hdigest, hsalt,
    hforwarded⟩ := h
  exact ⟨contents, namespaces, partition, exact, identity, salt, hk, hnul, hdigest, hsalt,
    hforwarded.append post⟩

/-- What a request with one boundary publishes, it forwards. -/
theorem OneBoundary.owned_of_published (hfloat : Json.FloatsPrintable Runtime.Float)
    (hread : readBody x.body = .ok (members, fragments))
    (hone : OneBoundary (saltOnlyGateway mode).backend.capabilities fragments whole)
    {v : Event Entries}
    (hv : v ∈ (saltOnlyGateway mode).trace [x.call fragments]
      ((saltOnlyGateway mode).submitAll pre ∅).2)
    {e : Entry} (he : e ∈ v.published (saltOnlyGateway mode)) :
    Owned (saltOnlyGateway mode) (pre ++ [x]) e.key := by
  obtain ⟨-, -, hcall⟩ := mem_trace_single.mp hv
  obtain ⟨ordered, hordered, hsent⟩ := sent_prefix_of_mem hv
  cases eq_of_ordered_call hordered
  obtain ⟨eff, o, a, t, hcomputes, hunder⟩ := Event.exists_computes he
  have hclass : v.item.approxClass = none :=
    approxClass_eq_none hread (hsent.subset (by simp [Event.sent]))
  obtain ⟨hkey, -⟩ : cacheKey execution (contentsOf v.sent) (namespacesOf v.sent)
      (v.partition eff) (!(v.acc.taintedApproximate || a)) = .ok e.key ∧ _ := by
    refine hunder.key.resolve_right ?_
    rintro ⟨-, c, hc, -⟩
    cases hclass.symm.trans hc
  have hshare := hone.share v.sent eff hsent hcomputes.policy
  have hidentity := hone.identity v.sent eff hsent hcomputes.policy
  have hpartition : v.partition eff = partitionFor whole.shareMax x.auth x.requestId := by
    rw [Event.partition, hcall, hshare]
    rfl
  rw [hpartition] at hkey
  obtain ⟨data, hdata, -⟩ := cacheKey_eq_ok hkey
  obtain ⟨r, hanswer⟩ := hone.exists_answer hfloat hread hordered ⟨_, hdata.partition⟩
    ((saltOnlyGateway mode).submitAll pre ∅).2
  obtain ⟨upstream, result, hfinish⟩ := exists_finish (x := x) mode members r
  obtain ⟨salt, hsalt, hupstream⟩ := hone.salt_eq hanswer hfinish
  refine ⟨contentsOf v.sent, namespacesOf v.sent, _, _, whole.namespaceIdentity, salt, hkey,
    nul_notMem_contents hfloat hread hsent, ?_, hsalt, pre, x, [], rfl, upstream, result, ?_,
    hupstream, ?_⟩
  · rw [← hidentity]
    exact namespaceDigest_of_policy hcomputes.policy
  · rw [submit_of_answer hread hanswer, hfinish]
  · rw [contents_of_finish hfinish, ← contentsOf_readBody hread]
    exact hsent.map Fragment.content

/-! ## Sessions -/

/-- Every key in the store is owned by an earlier submission. -/
def Backed (g : Gateway Entries) (xs : List Submission) : Prop :=
  Avoids (fun k => ¬ Owned g xs k) (g.submitAll xs ∅).2

theorem backed_concat (hfloat : Json.FloatsPrintable Runtime.Float)
    (hbacked : Backed (saltOnlyGateway mode) pre)
    (hmirrors : Mirrors (saltOnlyGateway mode) x ((saltOnlyGateway mode).submitAll pre ∅).2) :
    Backed (saltOnlyGateway mode) (pre ++ [x]) := by
  have hg := memoryBacked_saltOnly mode
  intro k hk
  have hold := hbacked k fun howned => hk (howned.append [x])
  rw [submitAll_concat]
  cases hread : readBody x.body with
  | error e =>
      rw [submit_of_unread hread]
      exact hold
  | ok read =>
      obtain ⟨members, fragments⟩ := read
      rw [submit_state hread]
      refine (hg.avoids_unwritten 0 [x.call fragments] _).1 k ⟨hold, ?_⟩
      rintro v hv e he rfl
      rcases hmirrors members fragments hread with ⟨whole, hone⟩ | ⟨hstores, -⟩
      · exact hk (hone.owned_of_published hfloat hread hv he)
      · rw [hg.silent_of_storesNothing hstores v hv] at he
        cases he

theorem backed_of_mirrors (hfloat : Json.FloatsPrintable Runtime.Float)
    (hmirrors : ∀ pre x post, xs = pre ++ x :: post →
      Mirrors (saltOnlyGateway mode) x ((saltOnlyGateway mode).submitAll pre ∅).2) :
    Backed (saltOnlyGateway mode) xs := by
  induction xs using List.reverseRecOn with
  | nil => exact avoids_empty _
  | append_singleton xs x ih =>
      refine backed_concat hfloat (ih fun pre y post hsplit => ?_) (hmirrors xs x [] rfl)
      exact hmirrors pre y (post ++ [x]) (by simp [hsplit])

/-! ## Hits -/

theorem outcome_of_lowerStatus {b : Share} {st : FragmentStatus}
    (h : (lowerStatus b st).outcome = .exactHit) : st.outcome = .exactHit ∧ b ≠ .request := by
  unfold lowerStatus at h
  split at h
  · cases h
  · rename_i hb
    exact ⟨h, hb⟩

/-- The event of a hit that is reported, and the entry that it found. -/
structure Finds (g : Gateway Entries) (x : Submission) (fragments : List Fragment) (s : Entries)
    (v : Event Entries) (eff : Effective) (k : Str) : Prop where
  mem : v ∈ g.trace [x.call fragments] s
  policy : CacheControl.policy v.sent = some eff
  reuse : eff.reuse ≠ .none
  key : v.call.exactKey v.done v.item eff = .ok k
  found : ∃ e, eligible Entry.expiresAt v.state k v.call.now = some e

theorem exists_finds (hg : MemoryBacked g) {r : Result}
    (hanswer : (g.answer (x.call fragments) s).1 = .ok r) {i : ℕ} {st : FragmentStatus}
    (hat : r.statuses[i]? = some st) (hhit : st.outcome = .exactHit) :
    ∃ v eff k, Finds g x fragments s v eff k ∧ v.done.length = i := by
  obtain ⟨v, hv, hlength, hst⟩ := exists_event_of_status hanswer hat
  have hout : v.outcome g = some .exactHit := by
    rw [Event.outcome, hst, Option.map_some, hhit]
  obtain ⟨eff, a, t, hpolicy, -, hlookup⟩ :=
    lookup_of_outcome (follows_of_mem hv) hout (by decide)
  obtain ⟨hreuse, k, e, hk, he⟩ := (hg.exactHit_iff (resolves_of_resolve hlookup)).mp rfl
  exact ⟨v, eff, k, ⟨hv, hpolicy, hreuse, hk, e, he⟩, hlength⟩

/-- The entry that a hit found was published by an earlier submission, since the
fragments in front of it have keys of their own. -/
theorem Finds.owned (hcf : CollisionFree) (hfloat : Json.FloatsPrintable Runtime.Float)
    (hbacked : Backed (saltOnlyGateway mode) pre)
    (hread : readBody x.body = .ok (members, fragments)) {v : Event Entries}
    (h : Finds (saltOnlyGateway mode) x fragments ((saltOnlyGateway mode).submitAll pre ∅).2 v
      eff k) : Owned (saltOnlyGateway mode) pre k := by
  have hg := memoryBacked_saltOnly mode
  by_contra hnot
  obtain ⟨before, behind, hsplit⟩ := List.append_of_mem h.mem
  have hsent : ∀ u ∈ before ++ v :: behind, u.sent <+: fragments := by
    intro u hu
    rw [← hsplit] at hu
    obtain ⟨ordered, hordered, hsent⟩ := sent_prefix_of_mem hu
    cases eq_of_ordered_call hordered
    exact hsent
  have habsent := (hg.avoids_unwritten 0 [x.call fragments] _).2 before v behind hsplit k
    ⟨hbacked k hnot, ?_⟩
  · obtain ⟨e, he⟩ := h.found
    cases (eligible_eq_some_iff.mp he).1.symm.trans habsent
  · rintro u hu e he rfl
    have hindex : u.index = v.index := by
      have humem : u ∈ (saltOnlyGateway mode).trace [x.call fragments]
          ((saltOnlyGateway mode).submitAll pre ∅).2 := by
        rw [hsplit]
        exact List.mem_append_left _ hu
      rw [(mem_trace_single.mp humem).2.1, (mem_trace_single.mp h.mem).2.1]
    have hprefix := (sent_prefix_of_mem_pre hsplit hu hindex).1
    obtain ⟨ueff, o, a, t, -, hunder⟩ := Event.exists_computes he
    have hclass : u.item.approxClass = none :=
      approxClass_eq_none hread ((hsent u (by simp [hu])).subset (by simp [Event.sent]))
    rcases hunder.key with ⟨hkey, -⟩ | ⟨-, c, hc, -⟩
    · obtain ⟨-, -, -, hcontents⟩ := cacheKey_inj_of_contents hcf
        (nul_notMem_contents hfloat hread (hsent u (by simp [hu])))
        (nul_notMem_contents hfloat hread (hsent v (by simp))) hkey h.key
      have hlengths := congrArg List.length hcontents
      have hle := hprefix.length_le
      rw [contentsOf, contentsOf, List.length_map, List.length_map, sent_length, sent_length]
        at hlengths
      rw [sent_length] at hle
      omega
    · cases hclass.symm.trans hc

/-- Under one boundary the owner went upstream with the salt of the hit. -/
theorem OneBoundary.forwarded (hcf : CollisionFree) (hfloat : Json.FloatsPrintable Runtime.Float)
    (hread : readBody x.body = .ok (members, fragments))
    (hone : OneBoundary (saltOnlyGateway mode).backend.capabilities fragments whole)
    {v : Event Entries} (h : Finds (saltOnlyGateway mode) x fragments s v eff k)
    (howned : Owned (saltOnlyGateway mode) pre k)
    (hsalt : saltOnlySalt (partitionFor whole.shareMax x.auth x.requestId)
      whole.namespaceIdentity = .ok salt) :
    Forwarded (saltOnlyGateway mode) pre salt (contentsOf v.sent) := by
  obtain ⟨-, -, hcall⟩ := mem_trace_single.mp h.mem
  obtain ⟨ordered, hordered, hsent⟩ := sent_prefix_of_mem h.mem
  cases eq_of_ordered_call hordered
  obtain ⟨contents, namespaces, partition, exact, identity, salt', hk, hnul, hdigest, hsalt',
    hforwarded⟩ := howned
  obtain ⟨rfl, -, rfl, rfl⟩ := cacheKey_inj_of_contents hcf hnul
    (nul_notMem_contents hfloat hread hsent) hk h.key
  have hidentity := hdigest.symm.trans (namespaceDigest_of_policy h.policy)
  rw [Except.ok.injEq, hone.identity v.sent eff hsent h.policy] at hidentity
  rw [hcall, hone.share v.sent eff hsent h.policy, hidentity] at hsalt'
  cases hsalt.symm.trans hsalt'
  exact hforwarded

theorem hitsTrue_of_backed (hcf : CollisionFree) (hfloat : Json.FloatsPrintable Runtime.Float)
    (hbacked : Backed (saltOnlyGateway mode) pre)
    (hmirrors : Mirrors (saltOnlyGateway mode) x ((saltOnlyGateway mode).submitAll pre ∅).2) :
    HitsTrue (saltOnlyGateway mode) pre x := by
  intro upstream result i st salt haccepted hat hhit hsalt
  obtain ⟨members, fragments, r, hread, hhandled, hfinish⟩ :=
    handled_of_accepted (Prod.ext haccepted rfl)
  have hanswer := congrArg Prod.fst hhandled
  obtain ⟨ordered, -, hordered, -⟩ := loop_of_answer hanswer
  cases eq_of_ordered_call hordered
  have hreported := reported_of_answer hanswer hordered
  cases finished_of_finish hfinish with
  | unsalted =>
      have hnone := (unscoped_stripBindingMembers members).get?
        (f := lit "cache_salt") (by decide +kernel)
      cases hsalt.symm.trans hnone
  | salted saltFor status governed salt' hsaltFor hcons hsalted =>
      rw [List.getElem?_map, Option.map_eq_some_iff] at hat
      obtain ⟨st', hat', rfl⟩ := hat
      have hhit' : st'.outcome = .exactHit := by
        split at hhit
        · exact (outcome_of_lowerStatus hhit).1
        · exact hhit
      obtain ⟨v, eff, k, hfinds, rfl⟩ := exists_finds (memoryBacked_saltOnly mode) hanswer hat' hhit'
      obtain ⟨ordered, hordered', hsent⟩ := sent_prefix_of_mem hfinds.mem
      cases eq_of_ordered_call hordered'
      obtain ⟨init, last, whole, hfilter, hlast⟩ :=
        hreported.exists_last (exists_intent_of_policy hfinds.policy hsent)
      have hshared : ¬ KeptToItself (saltOnlyGateway mode).backend.capabilities fragments := by
        intro hkept
        obtain ⟨st'', hat'', ⟨-, hbare⟩ | ⟨eff', hgoverns⟩⟩ := hreported.status v.done v.item hsent
        · cases hat'.symm.trans hat''
          rw [hbare] at hhit'
          cases hhit'
        · cases hat'.symm.trans hat''
          rw [if_pos hgoverns.isGoverned] at hhit
          have hboundary := isBoundary_narrowestShare hreported hfilter hlast
            (hfilter.symm.trans hcons)
          exact (outcome_of_lowerStatus hhit).2 (hboundary.kept hkept)
      have hcontents : (elementContents (Json.set (lit "cache_salt") (.str salt')
          (stripBindingMembers members).1)).take (v.done.length + 1) =
            contentsOf v.sent := by
        obtain ⟨rest, hrest⟩ := hsent
        rw [contents_of_finish hfinish, ← contentsOf_readBody hread, ← hrest, contentsOf,
          List.map_append, List.take_left' (by simp [Event.sent])]
        rfl
      rw [hcontents]
      rcases hmirrors members fragments hread with
        ⟨whole', hone⟩ | ⟨-, hnone | hkept | hfinds'⟩
      · obtain ⟨salt'', hsalt'', hupstream⟩ := hone.salt_eq hanswer hfinish
        cases hsalt.symm.trans hupstream
        exact hone.forwarded hcf hfloat hread hfinds
          (hfinds.owned hcf hfloat hbacked hread) hsalt''
      · cases hnone.symm.trans hlast.policy
      · exact absurd hkept hshared
      · obtain ⟨e, he⟩ := hfinds.found
        cases he.symm.trans (hfinds' v hfinds.mem eff k hfinds.policy hfinds.reuse hfinds.key)

end Sessions

/-- In every session on the salt-only backend in which each submission has one boundary,
or stores nothing and reports no hit, every hit is true of its partition. -/
theorem hits_true [Runtime] (hcf : CollisionFree)
    (hfloat : Json.FloatsPrintable Runtime.Float) (mode : OnUnenforceable) (xs : List Submission)
    (h : ∀ pre x post, xs = pre ++ x :: post →
      Mirrors (saltOnlyGateway mode) x ((saltOnlyGateway mode).submitAll pre ∅).2) :
    ∀ pre x post, xs = pre ++ x :: post → HitsTrue (saltOnlyGateway mode) pre x := by
  intro pre x post hsplit
  refine hitsTrue_of_backed hcf hfloat (backed_of_mirrors hfloat fun before y behind hpre => ?_)
    (h pre x post hsplit)
  exact h before y (behind ++ x :: post) (by simp [hsplit, hpre])

section

attribute [local instance] reference

/-- The salt a body went upstream with and the outcomes that were reported. -/
def reportedHits : Except PyError Prepared → Option (Option Str × List Outcome)
  | .ok (.accepted upstream result) => some
      ((match Json.get? (lit "cache_salt") upstream with
        | some (.str salt) => some salt
        | _ => none), result.statuses.map FragmentStatus.outcome)
  | _ => none

theorem of_reportedHits {x : Except PyError Prepared} {salt : Str} {outcomes : List Outcome}
    (h : reportedHits x = some (some salt, outcomes)) :
    ∃ upstream result, x = .ok (.accepted upstream result) ∧
      Json.get? (lit "cache_salt") upstream = some (.str salt) ∧
      result.statuses.map FragmentStatus.outcome = outcomes := by
  rcases x with e | ⟨upstream, result⟩ | ⟨code, cause⟩
  · cases h
  · obtain ⟨hsalt, houtcomes⟩ := Prod.mk.inj (Option.some.inj h)
    refine ⟨upstream, result, rfl, ?_, houtcomes⟩
    split at hsalt
    · rename_i salt' hget
      cases hsalt
      exact hget
    · cases hsalt
  · cases h

/-- A message for everyone in front of one for the tenant. -/
def mixedChat : Str :=
  sampleBody [("a", intentValue (.allow none) "exact" "public"),
    ("b", intentValue (.allow none) "exact" "tenant")]

def tenantChat : Str :=
  sampleBody [("a", intentValue (.allow none) "exact" "tenant"),
    ("b", intentValue (.allow none) "exact" "tenant")]

theorem oneBoundary_tenantChat {members : List (Str × Value)} {fragments : List Fragment}
    (h : readBody tenantChat = .ok (members, fragments)) :
    OneBoundary (saltOnlyGateway .bypass).backend.capabilities fragments
      ⟨.allow none, .exact, .tenant, none⟩ := by
  have hread : fragments ∈ (readBody tenantChat).toOption.map Prod.snd := by rw [h]; rfl
  have hpolicy : ∀ fs ∈ (readBody tenantChat).toOption.map Prod.snd,
      policy fs = some ⟨.allow none, .exact, .tenant, none⟩ := by decide +kernel
  have hprefixes : ∀ fs ∈ (readBody tenantChat).toOption.map Prod.snd, ∀ p ∈ fs.inits,
      ∀ eff ∈ policy p, eff.shareMax = .tenant ∧ eff.namespaceIdentity = none ∧
        (checkEnforceable saltOnlyBackend.capabilities eff).isOk = true := by decide +kernel
  have hsupplied : ∀ fs ∈ (readBody tenantChat).toOption.map Prod.snd, ∀ f ∈ fs,
      ∀ text ∈ f.intentJson, ∀ i ∈ (parseCacheIntent text).toOption, i.constraints.reuse = .exact ∧
        i.constraints.retention.mode = .allow ∧ i.constraints.shareMax = .tenant := by
    decide +kernel
  refine ⟨hpolicy _ hread, ?_, fun p eff hp heff => ?_, fun p eff hp heff => ?_⟩
  · rintro (⟨p, eff, e, hp, heff, hcheck⟩ | ⟨cs, ⟨f, hf, text, i, htext, hparse, rfl⟩, hor⟩)
    · have hok := (hprefixes _ hread p ((List.mem_inits _ _).mpr hp) eff heff).2.2
      rw [show checkEnforceable saltOnlyBackend.capabilities eff = .error e from hcheck] at hok
      cases hok
    · obtain ⟨hreuse, hmode, hshare⟩ := hsupplied _ hread f hf text htext i
        (toOption_eq_some_iff.mpr hparse)
      rw [hreuse, hmode, hshare] at hor
      revert hor
      decide
  · exact (hprefixes _ hread p ((List.mem_inits _ _).mpr hp) eff heff).1
  · exact (hprefixes _ hread p ((List.mem_inits _ _).mpr hp) eff heff).2.1

theorem hits_true_tenantChat :
    HitsTrue (saltOnlyGateway .bypass) [⟨tenantChat, alice, (0 : ℕ), lit "req-1"⟩]
      ⟨tenantChat, alice, (1 : ℕ), lit "req-2"⟩ := by
  refine hits_true collisionFree_reference floatsPrintable_reference .bypass
    [⟨tenantChat, alice, (0 : ℕ), lit "req-1"⟩, ⟨tenantChat, alice, (1 : ℕ), lit "req-2"⟩] ?_
    [⟨tenantChat, alice, (0 : ℕ), lit "req-1"⟩] ⟨tenantChat, alice, (1 : ℕ), lit "req-2"⟩ [] rfl
  intro pre x post hsplit members fragments hread
  have hx : x ∈ ([⟨tenantChat, alice, (0 : ℕ), lit "req-1"⟩,
      ⟨tenantChat, alice, (1 : ℕ), lit "req-2"⟩] : List Submission) := by
    rw [hsplit]
    simp
  simp only [List.mem_cons, List.not_mem_nil, or_false] at hx
  rcases hx with rfl | rfl
  · exact .inl ⟨_, oneBoundary_tenantChat hread⟩
  · exact .inl ⟨_, oneBoundary_tenantChat hread⟩

/-- The second tenant is told that its engine partition holds what only the first one
sent, under a salt of its own. -/
theorem not_hits_true :
    ¬ ∀ (mode : OnUnenforceable) (pre : List Submission) (x : Submission),
      HitsTrue (saltOnlyGateway mode) pre x := by
  intro h
  have hhits := h .bypass [⟨mixedChat, alice, (0 : ℕ), lit "req-1"⟩]
    ⟨mixedChat, bob, (1 : ℕ), lit "req-2"⟩
  obtain ⟨upstream, result, hsecond, hsalt, houtcomes⟩ := of_reportedHits
    (show reportedHits ((saltOnlyGateway .bypass).submit ⟨mixedChat, bob, (1 : ℕ), lit "req-2"⟩
      ((saltOnlyGateway .bypass).submitAll [⟨mixedChat, alice, (0 : ℕ), lit "req-1"⟩] ∅).2).1 =
        some (some (lit "tenant:other-corp|-"), [.exactHit, .miss]) by decide +kernel)
  obtain ⟨upstream', result', hfirst, hsalt', -⟩ := of_reportedHits
    (show reportedHits ((saltOnlyGateway .bypass).submit ⟨mixedChat, alice, (0 : ℕ), lit "req-1"⟩
      ∅).1 = some (some (lit "tenant:acme|-"), [.miss, .miss]) by decide +kernel)
  obtain ⟨st, hat, hhit⟩ : ∃ st, result.statuses[0]? = some st ∧ st.outcome = .exactHit := by
    have hhead := congrArg (fun l => l[0]?) houtcomes
    simpa [List.getElem?_map, Option.map_eq_some_iff] using hhead
  obtain ⟨before, y, behind, hsplit, hforwards⟩ :=
    hhits upstream result 0 st _ hsecond hat hhit hsalt
  obtain ⟨rfl, rfl⟩ : before = [] ∧ y = ⟨mixedChat, alice, (0 : ℕ), lit "req-1"⟩ := by
    cases before with
    | nil => exact ⟨rfl, (List.cons.inj hsplit).1.symm⟩
    | cons z before => simp at hsplit
  obtain ⟨upstream'', result'', hagain, hsalt'', -⟩ := hforwards
  cases hfirst.symm.trans hagain
  have hsame := hsalt'.symm.trans hsalt''
  rw [Option.some.injEq, Json.str.injEq] at hsame
  revert hsame
  decide +kernel

end

end CacheControl

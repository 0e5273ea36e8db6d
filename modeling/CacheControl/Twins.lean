import CacheControl.Memory
import CacheControl.Salts
import CacheControl.Submissions

/-!
# One salt per request, with and without a store

`SaltOnlyBackend` keeps a store and observes what it finds; `VLLMBackend` does
neither.  Their statuses differ in the outcomes of fragments that may be reused,
and the lowering makes the same of both.
-/

open PyText

namespace CacheControl

section

variable [Runtime] {mode : OnUnenforceable} {x : Submission} {later : Time} {vars vars' : LoopVars}
  {f f' : Fragment} {hints : HintStatus} {eff : Effective} {s : Entries} {st st' : FragmentStatus}

/-! ## One fragment -/

/-- The statuses differ at most in what became of the state, and the lowering
treats them alike. -/
structure Twin (st st' : FragmentStatus) : Prop where
  same : st' = { st with outcome := st'.outcome, retention := st'.retention }
  mustBypass : st'.mustBypass = st.mustBypass
  bare : st.isGoverned = false → st' = st
  identity : ∃ ns, namespaceDigest ns = .ok st.namespaceIdentity

structure TwinVars (vars vars' : LoopVars) : Prop where
  eq : vars' = vars
  untainted : vars.taintedApproximate = false
  follows : ∃ p, Follows p vars ∧ ∀ f ∈ p, Encodable f.content

structure TwinFragment (f f' : Fragment) : Prop where
  eq : f' = f
  content : Encodable f.content
  approxClass : f.approxClass = none

theorem twin_bareStatus (f : Fragment) : Twin (Gateway.bareStatus f) (Gateway.bareStatus f) :=
  ⟨rfl, rfl, fun _ => rfl, [], rfl⟩

theorem twin_statusOf {o o' : Outcome} {r r' : RetentionStatus} {p : List Fragment}
    (hpolicy : policy p = some eff) (ho : o = .bypass → o' ≠ .bypass → eff.reuse = .none)
    (ho' : o' = .bypass → o = .bypass) :
    Twin (Gateway.statusOf f eff hints o r true) (Gateway.statusOf f eff hints o' r' true) := by
  obtain ⟨cs, hcs, hcomposes⟩ := composes_of_policy hpolicy
  refine ⟨rfl, ?_, fun hbare => ?_, _, hcomposes.namespaceIdentity⟩
  · simp only [FragmentStatus.mustBypass, Gateway.statusOf, decide_eq_decide, Option.some.injEq]
    constructor
    · rintro (hbypass | hrest)
      · exact .inl (ho' hbypass)
      · exact .inr hrest
    · rintro (hbypass | hrest)
      · by_cases hsame : o' = .bypass
        · exact .inl hsame
        · exact .inr (.inl (ho hbypass hsame))
      · exact .inr hrest
  · simp [FragmentStatus.isGoverned, Gateway.statusOf] at hbare

theorem exists_serve_saltOnly (happrox : f.approxClass = none)
    (huntainted : vars.taintedApproximate = false)
    (hkey : ∀ exact, ∃ k, cacheKey execution vars.contentsSoFar vars.namespacesSoFar
      (partitionFor eff.shareMax x.auth x.requestId) exact = .ok k)
    (hcheck : checkEnforceable saltOnlyBackend.capabilities eff = .ok ()) (s : Entries) :
    ∃ o r t, (saltOnlyGateway mode).serve x.auth x.now x.requestId f vars hints eff s =
        (.ok (vars, Gateway.statusOf f eff hints o r true), t) ∧
      (o = .bypass ↔ eff.reuse = .none) := by
  have hg := memoryBacked_saltOnly mode
  have hunclassed : ∀ c, f.approxClass = some c → ∃ dk, cacheKey execution [c] vars.namespacesSoFar
      (partitionFor eff.shareMax x.auth x.requestId) false = .ok dk := by
    simp [happrox]
  obtain ⟨o, a, t, hresolve⟩ : ∃ o a t, (saltOnlyGateway mode).resolve eff vars.contentsSoFar
      vars.namespacesSoFar (partitionFor eff.shareMax x.auth x.requestId) x.now f.approxClass s =
        (.ok (o, a), t) :=
    resolve_ok (fun k s => ⟨_, get_apply k x.now s⟩) (hkey true) (fun _ => hunclassed) s
  have hresolves := resolves_of_resolve hresolve
  obtain rfl : a = false := by
    cases hresolves with
    | approximateHit k c dk entry u hobs hreuse hclass => cases happrox.symm.trans hclass
    | _ => rfl
  obtain ⟨r, u, hretain⟩ : ∃ r u, (saltOnlyGateway mode).retain o eff vars.contentsSoFar
      vars.namespacesSoFar (partitionFor eff.shareMax x.auth x.requestId) x.now true f.approxClass
        t = (.ok r, u) := by
    refine retain_ok (fun _ _ _ _ => ⟨fun k exact s => ?_, hkey true, hunclassed⟩) t
    rw [hg.put eff hcheck, maxAge_eq_none_of_check rfl hcheck]
    exact ⟨_, _, put_apply rfl s⟩
  have hvars : { vars with taintedApproximate := vars.taintedApproximate || false } = vars := by
    simp
  refine ⟨o, r, u, ?_, hresolves.bypass_iff hg.observes⟩
  rw [serve_of_ok hresolve (by simpa [huntainted] using hretain), hvars, huntainted]
  rfl

theorem serve_vllm (huntainted : vars.taintedApproximate = false) :
    (vllmGateway mode).serve x.auth later x.requestId f vars hints eff () =
      (.ok (vars, Gateway.statusOf f eff hints .unobserved
        (if eff.retention.mode = .forbid then .forbidden else .unobserved) true), ()) := by
  have hvars : { vars with taintedApproximate := vars.taintedApproximate || false } = vars := by
    simp
  have hserve : (vllmGateway mode).serve x.auth later x.requestId f vars hints eff () =
      (.ok ({ vars with taintedApproximate := vars.taintedApproximate || false },
        Gateway.statusOf f eff hints .unobserved
          (if eff.retention.mode = .forbid then .forbidden else .unobserved)
          (!(vars.taintedApproximate || false))), ()) := serve_of_ok (u := ()) rfl rfl
  rw [hserve, hvars, huntainted]
  rfl

theorem relates_handleFragment (hx : x.Encodable) (hvars : TwinVars vars vars')
    (hf : TwinFragment f f') :
    Prog.Relates (fun (_ : Entries) (_ : Unit) => True) Eq
      (fun p q => TwinVars p.1 q.1 ∧ Twin p.2 q.2)
      ((saltOnlyGateway mode).handleFragment x.auth x.now x.requestId vars f)
      ((vllmGateway mode).handleFragment x.auth later x.requestId vars' f') := by
  obtain ⟨rfl, huntainted, p, hfollows, hcontents⟩ := hvars
  obtain ⟨rfl, hcontent, happrox⟩ := hf
  have hall : ∀ g ∈ p ++ [f'], Encodable g.content := by
    intro g hg
    rcases List.mem_append.mp hg with hg | hg
    · exact hcontents g hg
    · rw [List.mem_singleton.mp hg]
      exact hcontent
  have hsalt : (saltOnlyGateway mode).backend.capabilities = saltOnlyBackend.capabilities := rfl
  have hvllm : (vllmGateway mode).backend.capabilities = saltOnlyBackend.capabilities := rfl
  unfold Gateway.handleFragment
  rw [hsalt, hvllm]
  cases he : enter saltOnlyBackend.capabilities vars' f' with
  | error e => exact Prog.relates_raise rfl
  | ok entered =>
      simp only [Prog.lift_ok_bind]
      cases reads_enter hfollows he with
      | ungoverned vars hfollows htaint hcs =>
          exact Prog.relates_pure ⟨⟨rfl, htaint.trans huntainted, _, hfollows, hall⟩,
            twin_bareStatus f'⟩
      | governed vars hints eff hfollows htaint hpolicy =>
          have hvars : TwinVars vars vars := ⟨rfl, htaint.trans huntainted, _, hfollows, hall⟩
          dsimp only
          cases hcheck : checkEnforceable saltOnlyBackend.capabilities eff with
          | error e =>
              cases mode with
              | reject => exact Prog.relates_raise rfl
              | bypass =>
                  exact Prog.relates_pure ⟨hvars, twin_statusOf hpolicy (fun _ h => absurd rfl h)
                    fun _ => rfl⟩
          | ok u =>
              have hkey : ∀ exact, ∃ k, cacheKey execution vars.contentsSoFar vars.namespacesSoFar
                  (partitionFor eff.shareMax x.auth x.requestId) exact = .ok k := by
                apply exists_cacheKey (hx.partition _)
                · rw [hfollows.namespaces]
                  exact ⟨_, namespaceDigest_of_policy hpolicy⟩
                · rw [hfollows.contents]
                  intro c hc
                  obtain ⟨g, hg, rfl⟩ := List.mem_map.mp hc
                  exact hall g hg
              rintro s ⟨⟩ -
              obtain ⟨o, r, t, hserve, hbypass⟩ : ∃ o r t,
                  (saltOnlyGateway mode).serve x.auth x.now x.requestId f' vars hints eff s =
                    (.ok (vars, Gateway.statusOf f' eff hints o r true), t) ∧
                  (o = .bypass ↔ eff.reuse = .none) :=
                exists_serve_saltOnly happrox hvars.untainted hkey hcheck s
              refine ⟨?_, trivial⟩
              show Prog.ExceptRel _ _ ((saltOnlyGateway mode).serve _ _ _ _ _ _ _ s).1
                ((vllmGateway mode).serve _ _ _ _ _ _ _ ()).1
              rw [hserve, serve_vllm hvars.untainted]
              exact .ok ⟨hvars, twin_statusOf hpolicy (fun h _ => hbypass.mp h) fun h => by cases h⟩

/-! ## One request -/

structure TwinResults (r r' : Result) : Prop where
  statuses : List.Forall₂ Twin r.statuses r'.statuses
  stripped : r'.strippedScopeFields = r.strippedScopeFields
  order : r'.order = r.order

theorem relates_handle (hx : x.Encodable) {fragments : List Fragment}
    (hfragments : ∀ f ∈ fragments, TwinFragment f f) :
    Prog.Relates (fun (_ : Entries) (_ : Unit) => True) Eq TwinResults
      ((saltOnlyGateway mode).handle fragments x.auth x.now x.requestId none false)
      ((vllmGateway mode).handle fragments x.auth later x.requestId none false) := by
  have hloop : Prog.Relates (fun (_ : Entries) (_ : Unit) => True) Eq (List.Forall₂ Twin)
      (Prog.mapAccum ((saltOnlyGateway mode).handleFragment x.auth x.now x.requestId)
        LoopVars.init fragments)
      (Prog.mapAccum ((vllmGateway mode).handleFragment x.auth later x.requestId)
        LoopVars.init fragments) := by
    apply Prog.relates_mapAccum (B := TwinVars) (C := TwinFragment)
    · exact fun _ _ _ _ => relates_handleFragment hx
    · exact List.forall₂_same.mpr hfragments
    · exact ⟨rfl, rfl, [], follows_init, by simp⟩
  unfold Gateway.handle
  show Prog.Relates _ _ _ (Prog.lift (checkIds fragments) >>= fun _ => _)
    (Prog.lift (checkIds fragments) >>= fun _ => _)
  cases checkIds fragments with
  | error e => exact Prog.relates_raise rfl
  | ok u => exact hloop.bind fun statuses statuses' h => Prog.relates_pure ⟨h, rfl, rfl⟩

/-- What a lowered status shows of its fragment. -/
structure Shown (st st' : FragmentStatus) : Prop where
  same : st' = { st with outcome := st'.outcome, retention := st'.retention }
  bypass : st'.outcome = .bypass ↔ st.outcome = .bypass

/-- Both rejected it with the same error, or both accepted it: without a salt, or
under salts for one partition and one namespace identity. -/
inductive PreparedTwins : Except PyError Prepared → Except PyError Prepared → Prop
  | rejected (code : ErrorCode) (cause : PyError) :
      PreparedTwins (.ok (.rejected code cause)) (.ok (.rejected code cause))
  | unsalted (upstream : List (Str × Value)) (result result' : Result) :
      Json.get? (lit "cache_salt") upstream = none → result.cacheSalt = none →
      result'.cacheSalt = none → List.Forall₂ Shown result.statuses result'.statuses →
      PreparedTwins (.ok (.accepted upstream result)) (.ok (.accepted upstream result'))
  | salted (upstream : List (Str × Value)) (result result' : Result) (partition : Str)
      (ns : List Str) (d : Option Str) (salt salt' : Str) : namespaceDigest ns = .ok d →
      saltOnlySalt partition d = .ok salt → vllmSalt partition d = .ok salt' →
      result.cacheSalt = some salt → result'.cacheSalt = some salt' →
      List.Forall₂ Shown result.statuses result'.statuses →
      PreparedTwins
        (.ok (.accepted (Json.set (lit "cache_salt") (.str salt) upstream) result))
        (.ok (.accepted (Json.set (lit "cache_salt") (.str salt') upstream) result'))

namespace Twin

theorem isGoverned (h : Twin st st') : st'.isGoverned = st.isGoverned := by
  rw [h.same]
  rfl

theorem effectiveShare (h : Twin st st') : st'.effectiveShare = st.effectiveShare := by
  rw [h.same]

theorem namespaceIdentity (h : Twin st st') : st'.namespaceIdentity = st.namespaceIdentity := by
  rw [h.same]

theorem shown_of_bare (h : Twin st st') (hbare : st.isGoverned = false) : Shown st st' := by
  rw [h.bare hbare]
  exact ⟨rfl, Iff.rfl⟩

/-- A request that is kept to itself shows every governed fragment as bypassed, and
otherwise none is. -/
theorem shown_lowerStatus (h : Twin st st') {b : Share}
    (hb : b ≠ .request → st.mustBypass = false) :
    Shown (lowerStatus b st) (lowerStatus b st') := by
  unfold lowerStatus
  split
  · exact ⟨by rw [h.same], Iff.rfl⟩
  · rename_i hne
    have hfree := hb hne
    have hfree' := h.mustBypass.trans hfree
    simp only [FragmentStatus.mustBypass, decide_eq_false_iff_not, not_or] at hfree hfree'
    exact ⟨by rw [h.same], by simp [hfree.1, hfree'.1]⟩

end Twin

theorem twin_governed {statuses statuses' : List FragmentStatus}
    (h : List.Forall₂ Twin statuses statuses') :
    List.Forall₂ Twin (statuses.filter FragmentStatus.isGoverned)
      (statuses'.filter FragmentStatus.isGoverned) := by
  induction h with
  | nil => exact .nil
  | cons hst _ ih =>
      rw [List.filter_cons, List.filter_cons, hst.isGoverned]
      split
      · exact .cons hst ih
      · exact ih

theorem narrowestShare_twin {status status' : FragmentStatus}
    {governed governed' : List FragmentStatus}
    (h : List.Forall₂ Twin (status :: governed) (status' :: governed')) :
    narrowestShare status' governed' = narrowestShare status governed := by
  have hany : ∀ {sts sts' : List FragmentStatus}, List.Forall₂ Twin sts sts' →
      sts'.any FragmentStatus.mustBypass = sts.any FragmentStatus.mustBypass ∧
        sts'.map FragmentStatus.effectiveShare = sts.map FragmentStatus.effectiveShare := by
    intro sts sts' hsts
    induction hsts with
    | nil => exact ⟨rfl, rfl⟩
    | cons hst _ ih => simp [hst.mustBypass, hst.effectiveShare, ih.1, ih.2]
  unfold narrowestShare
  cases h with
  | cons hst hrest =>
      rw [(hany (.cons hst hrest)).1, (hany hrest).2, hst.effectiveShare]

theorem lastNamespace_twin {governed governed' : List FragmentStatus}
    (h : List.Forall₂ Twin governed governed') :
    lastNamespace governed' = lastNamespace governed ∧
      ∃ ns, namespaceDigest ns = .ok (lastNamespace governed) := by
  have hrev := List.rel_reverse h
  unfold lastNamespace
  generalize governed.reverse = sts, governed'.reverse = sts' at hrev
  induction hrev with
  | nil => exact ⟨rfl, [], rfl⟩
  | cons hst _ ih =>
      obtain ⟨ns, hns⟩ := hst.identity
      rw [List.findSome?_cons, List.findSome?_cons, hst.namespaceIdentity]
      rename_i st _ _ _ _
      cases hd : st.namespaceIdentity with
      | none => exact ih
      | some d =>
          rw [hd] at hns
          exact ⟨rfl, ns, hns⟩

theorem encodable_identityText {ns : List Str} {d : Option Str} (h : namespaceDigest ns = .ok d) :
    Encodable (identityText d) := by
  cases d with
  | none => exact encodable_lit "-"
  | some d =>
      obtain ⟨data, rfl⟩ := exists_of_namespaceDigest h
      rw [identityText, if_neg (Runtime.sha256_ne_nil data)]
      exact encodable_sha256 data

theorem exists_vllmSalt {partition : Str} (hpartition : Encodable partition) {ns : List Str}
    {d : Option Str} (h : namespaceDigest ns = .ok d) : ∃ salt, vllmSalt partition d = .ok salt := by
  have hframe : ∀ {t : Str}, Encodable t → Encodable (textLength.frame t) := by
    intro t ht
    have hdigits := encodable_of_printable (Json.printable_decimal t.length)
    have hsplit : textLength.frame t = decimal t.length ++ (lit ":" ++ t) := rfl
    rw [hsplit, encodable_append, encodable_append]
    exact ⟨hdigits, encodable_lit ":", ht⟩
  obtain ⟨data, hdata⟩ := encodable_append.mpr
    ⟨hframe hpartition, hframe (encodable_identityText h)⟩
  exact ⟨Runtime.sha256 data, by rw [vllmSalt, hdata]; rfl⟩

theorem preparedTwins_finish (hx : x.Encodable) (members : List (Str × Value)) {r r' : Result}
    (h : TwinResults r r') :
    PreparedTwins (finish saltOnlyBackend members x.auth x.requestId r)
      (finish vllmBackend members x.auth x.requestId r') := by
  have hgoverned := twin_governed h.statuses
  have hbare : ∀ {sts sts' : List FragmentStatus}, List.Forall₂ Twin sts sts' →
      sts.filter FragmentStatus.isGoverned = [] → List.Forall₂ Shown sts sts' := by
    intro sts sts' hsts hnil
    induction hsts with
    | nil => exact .nil
    | cons hst _ ih =>
        rw [List.filter_eq_nil_iff] at hnil
        have hfirst := hnil _ List.mem_cons_self
        refine .cons (hst.shown_of_bare (Bool.eq_false_iff.mpr hfirst)) (ih ?_)
        exact List.filter_eq_nil_iff.mpr fun st hst => hnil st (List.mem_cons_of_mem _ hst)
  unfold finish lowerRequestSalt
  rw [saltOnly_saltFor, vllm_saltFor]
  cases hfilter : r.statuses.filter FragmentStatus.isGoverned with
  | nil =>
      rw [hfilter] at hgoverned
      cases hfilter' : r'.statuses.filter FragmentStatus.isGoverned with
      | nil =>
          refine .unsalted _ _ _ ?_ rfl rfl (hbare h.statuses hfilter)
          exact (unscoped_stripBindingMembers members).get? (by decide +kernel)
      | cons status' governed' =>
          rw [hfilter'] at hgoverned
          cases hgoverned
  | cons status governed =>
      rw [hfilter] at hgoverned
      cases hfilter' : r'.statuses.filter FragmentStatus.isGoverned with
      | nil =>
          rw [hfilter'] at hgoverned
          cases hgoverned
      | cons status' governed' =>
          rw [hfilter'] at hgoverned
          obtain ⟨hlast, ns, hns⟩ := lastNamespace_twin hgoverned
          have hshare := narrowestShare_twin hgoverned
          obtain ⟨salt', hsalt'⟩ :=
            exists_vllmSalt (hx.partition (narrowestShare status governed)) hns
          have hfree : narrowestShare status governed ≠ .request →
              ∀ st ∈ status :: governed, st.mustBypass = false := by
            intro hne st hst
            unfold narrowestShare at hne
            split at hne
            · exact absurd rfl hne
            · rename_i hnone
              by_contra hbypass
              exact hnone (List.any_eq_true.mpr ⟨st, hst, by simpa using hbypass⟩)
          have hshown : List.Forall₂ Shown
              (r.statuses.map fun st => if st.isGoverned then
                lowerStatus (narrowestShare status governed) st else st)
              (r'.statuses.map fun st => if st.isGoverned then
                lowerStatus (narrowestShare status governed) st else st) := by
            have hmem : ∀ st ∈ r.statuses, st.isGoverned = true → st ∈ status :: governed := by
              intro st hst hgov
              rw [← hfilter, List.mem_filter]
              exact ⟨hst, hgov⟩
            rw [List.forall₂_map_left_iff, List.forall₂_map_right_iff]
            refine ((List.forall₂_and_left _ _).mpr ⟨hmem, h.statuses⟩).imp ?_
            rintro st st' ⟨hmem, hst⟩
            rw [hst.isGoverned]
            cases hgov : st.isGoverned with
            | false => exact hst.shown_of_bare hgov
            | true => exact hst.shown_lowerStatus fun hne => hfree hne st (hmem hgov)
          simp only [hlast, hshare, hsalt', bind, Except.bind, pure, Except.pure, saltOnlySalt]
          exact .salted _ _ _ _ ns _ _ salt' hns rfl hsalt' rfl rfl hshown

theorem preparedTwins_submit (hfloat : Json.FloatsPrintable Runtime.Float) (hx : x.Encodable)
    {y : Submission} (hbody : y.body = x.body) (hauth : y.auth = x.auth)
    (hid : y.requestId = x.requestId) (s : Entries) :
    PreparedTwins ((saltOnlyGateway mode).submit x s).1 ((vllmGateway mode).submit y ()).1 := by
  unfold Gateway.submit
  rw [prepare_eq, prepare_eq, hbody, hauth, hid]
  cases hread : readBody x.body with
  | error e => exact .rejected _ e
  | ok read =>
      obtain ⟨members, fragments⟩ := read
      have hfragments : ∀ f ∈ fragments, TwinFragment f f := fun f hf =>
        ⟨rfl, encodable_of_printable (printable_content hfloat hread hf),
          approxClass_eq_none hread hf⟩
      have hhandle : Prog.ExceptRel Eq TwinResults
          ((saltOnlyGateway mode).handle fragments x.auth x.now x.requestId none false s).1
          ((vllmGateway mode).handle fragments x.auth y.now x.requestId none false ()).1 :=
        (relates_handle hx hfragments s () trivial).1
      simp only [prepareFragments]
      rcases hs : (saltOnlyGateway mode).handle fragments x.auth x.now x.requestId none false s with
        ⟨r, t⟩
      rcases hu : (vllmGateway mode).handle fragments x.auth y.now x.requestId none false () with
        ⟨r', u⟩
      rw [hs, hu] at hhandle
      rw [Prog.bind_apply, Prog.bind_apply, Prog.attempt_apply, Prog.attempt_apply, hs, hu]
      cases hhandle with
      | error he =>
          cases he
          exact .rejected _ _
      | ok h => exact preparedTwins_finish hx members h

/-! ## Sessions -/

def sentSalt : Except PyError Prepared → Option Str
  | .ok (.accepted _ result) => result.cacheSalt
  | _ => none

theorem PreparedTwins.salts_eq_iff (hcf : CollisionFree) {a a' b b' : Except PyError Prepared}
    (h : PreparedTwins a a') (h' : PreparedTwins b b') :
    sentSalt a = sentSalt b ↔ sentSalt a' = sentSalt b' := by
  have hcases : ∀ {c c' : Except PyError Prepared}, PreparedTwins c c' →
      sentSalt c = none ∧ sentSalt c' = none ∨ ∃ partition ns d salt salt',
        namespaceDigest ns = .ok d ∧ saltOnlySalt partition d = .ok salt ∧
        vllmSalt partition d = .ok salt' ∧ sentSalt c = some salt ∧ sentSalt c' = some salt' := by
    intro c c' hc
    cases hc with
    | rejected code cause => exact .inl ⟨rfl, rfl⟩
    | unsalted upstream result result' hupstream hnone hnone' => exact .inl ⟨hnone, hnone'⟩
    | salted upstream result result' partition ns d salt salt' hns hsalt hsalt' hsome hsome' =>
        exact .inr ⟨partition, ns, d, salt, salt', hns, hsalt, hsalt', hsome, hsome'⟩
  rcases hcases h with ⟨ha, ha'⟩ | ⟨p, ns, d, salt, salt', hns, hsalt, hsalt', ha, ha'⟩ <;>
    rcases hcases h' with ⟨hb, hb'⟩ | ⟨q, ms, e, tlas, tlas', hms, htlas, htlas', hb, hb'⟩ <;>
    rw [ha, ha', hb, hb']
  · simp
  · simp
  · rw [Option.some.injEq, Option.some.injEq]
    constructor
    · rintro rfl
      obtain ⟨rfl, rfl⟩ := separates_saltOnlySalt hcf hns hms hsalt htlas
      cases hns.symm.trans hms
      exact Except.ok.inj (hsalt'.symm.trans htlas')
    · rintro rfl
      obtain ⟨rfl, rfl⟩ := separates_vllmSalt hcf hns hms hsalt' htlas'
      cases hns.symm.trans hms
      exact Except.ok.inj (hsalt.symm.trans htlas)

/-- The same body under the same context and request id, at whatever time. -/
structure SameRequest (x y : Submission) : Prop where
  body : y.body = x.body
  auth : y.auth = x.auth
  requestId : y.requestId = x.requestId

theorem preparedTwins_submitAll (hfloat : Json.FloatsPrintable Runtime.Float)
    {xs ys : List Submission} (hsame : List.Forall₂ SameRequest xs ys)
    (henc : ∀ x ∈ xs, x.Encodable) (s : Entries) :
    List.Forall₂ PreparedTwins ((saltOnlyGateway mode).submitAll xs s).1
      ((vllmGateway mode).submitAll ys ()).1 := by
  induction hsame generalizing s with
  | nil => exact .nil
  | cons hxy _ ih =>
      simp only [Gateway.submitAll, Prog.session_cons_fst]
      refine .cons ?_ (ih (fun x hx => henc x (List.mem_cons_of_mem _ hx)) _)
      exact preparedTwins_submit hfloat (henc _ List.mem_cons_self) hxy.body hxy.auth
        hxy.requestId s

end

/-- The same session on the two backends: each submission is rejected with the same
error or accepted by both, the upstream requests differ at most in the salt, the
statuses show the same boundary, hints and bypasses, and the same pairs of
submissions have equal salts. -/
theorem saltOnly_models_vllm [Runtime] (hcf : CollisionFree)
    (hfloat : Json.FloatsPrintable Runtime.Float) (mode : OnUnenforceable)
    {xs ys : List Submission} (hsame : List.Forall₂ SameRequest xs ys)
    (henc : ∀ x ∈ xs, x.Encodable) (s : Entries) :
    List.Forall₂ PreparedTwins ((saltOnlyGateway mode).submitAll xs s).1
      ((vllmGateway mode).submitAll ys ()).1 ∧
    ∀ (i j : ℕ) (a b a' b' : Except PyError Prepared),
      ((saltOnlyGateway mode).submitAll xs s).1[i]? = some a →
      ((saltOnlyGateway mode).submitAll xs s).1[j]? = some b →
      ((vllmGateway mode).submitAll ys ()).1[i]? = some a' →
      ((vllmGateway mode).submitAll ys ()).1[j]? = some b' →
      (sentSalt a = sentSalt b ↔ sentSalt a' = sentSalt b') := by
  have htwins : List.Forall₂ PreparedTwins ((saltOnlyGateway mode).submitAll xs s).1
      ((vllmGateway mode).submitAll ys ()).1 := preparedTwins_submitAll hfloat hsame henc s
  refine ⟨htwins, fun i j a b a' b' ha hb ha' hb' => ?_⟩
  have hat : ∀ {n : ℕ} {c c' : Except PyError Prepared},
      ((saltOnlyGateway mode).submitAll xs s).1[n]? = some c →
      ((vllmGateway mode).submitAll ys ()).1[n]? = some c' → PreparedTwins c c' := by
    intro n c c' hc hc'
    obtain ⟨hn, rfl⟩ := List.getElem?_eq_some_iff.mp hc
    obtain ⟨hn', rfl⟩ := List.getElem?_eq_some_iff.mp hc'
    exact htwins.get hn hn'
  exact (hat ha ha').salts_eq_iff hcf (hat hb hb')

section

attribute [local instance] reference

theorem encodable_alice (requestId : String) (body : Str) (now : ℕ) :
    (⟨body, alice, now, lit requestId⟩ : Submission).Encodable :=
  ⟨encodable_lit _, encodable_lit _, encodable_lit _, encodable_lit _⟩

/-- The same body twice, the second time from a store that knows it. -/
def repeatedChat : List Submission :=
  [⟨chatBody, alice, (0 : ℕ), lit "req-1"⟩, ⟨chatBody, alice, (1 : ℕ), lit "req-2"⟩]

theorem saltOnly_models_vllm_repeatedChat :
    List.Forall₂ PreparedTwins ((saltOnlyGateway .bypass).submitAll repeatedChat ∅).1
      ((vllmGateway .bypass).submitAll repeatedChat ()).1 := by
  refine (saltOnly_models_vllm collisionFree_reference floatsPrintable_reference .bypass
    (List.forall₂_same.mpr fun x _ => ⟨rfl, rfl, rfl⟩) ?_ ∅).1
  intro x hx
  simp only [repeatedChat, List.mem_cons, List.not_mem_nil, or_false] at hx
  rcases hx with rfl | rfl
  · exact encodable_alice _ _ _
  · exact encodable_alice _ _ _

end

end CacheControl

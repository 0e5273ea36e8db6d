import CacheControl.Binding
import CacheControl.Events
import CacheControl.Reference

/-!
# Lowering a request onto one salt

An engine that takes one partition for a whole request gets the meet of the
policies of its fragments.  The statuses of a request that was handled determine
that boundary, and the last governed one knows the policy of the whole request.
-/

open PyText

namespace CacheControl

section

variable [Runtime] {σ : Type} {g : Gateway σ} {p fragments : List Fragment} {f : Fragment}
  {st : FragmentStatus} {eff : Effective} {v : Event σ} {c : Call} {s t : σ}

/-! ## What the boundary has to be -/

def Supplies (fragments : List Fragment) (cs : Constraints) : Prop :=
  ∃ f ∈ fragments, ∃ text intent, f.intentJson = some text ∧
    parseCacheIntent text = .ok intent ∧ intent.constraints = cs

/-- The request has to be kept to itself: the backend cannot enforce the policy
of a prefix, or an intent excludes reuse, retention or sharing. -/
def KeptToItself (caps : Capabilities) (fragments : List Fragment) : Prop :=
  (∃ p eff e, p <+: fragments ∧ policy p = some eff ∧ checkEnforceable caps eff = .error e) ∨
  ∃ cs, Supplies fragments cs ∧
    (cs.reuse = .none ∨ cs.retention.mode = .forbid ∨ cs.shareMax = .request)

/-- The boundary of the whole request. -/
structure IsBoundary (caps : Capabilities) (fragments : List Fragment) (b : Share) : Prop where
  kept : KeptToItself caps fragments → b = .request
  narrowest : ¬ KeptToItself caps fragments →
    IsLeast {x | ∃ cs, Supplies fragments cs ∧ cs.shareMax = x} b

/-! ## What a status tells of its prefix -/

/-- The status is that of a prefix with the policy `eff`. -/
structure Governs (g : Gateway σ) (p : List Fragment) (st : FragmentStatus) (eff : Effective) :
    Prop where
  policy : policy p = some eff
  reuse : st.effectiveReuse = some eff.reuse
  mode : st.effectiveRetentionMode = some eff.retention.mode
  share : st.effectiveShare = eff.shareMax
  identity : st.namespaceIdentity = eff.namespaceIdentity
  bypass : st.outcome = .bypass →
    (∃ e, checkEnforceable g.backend.capabilities eff = .error e) ∨ eff.reuse = .none
  unenforceable : (∃ e, checkEnforceable g.backend.capabilities eff = .error e) →
    st.outcome = .bypass

theorem governs_of_status (hfollows : Follows v.done v.acc) (hst : v.status g = some st) :
    constraintsOf v.sent = some [] ∧ st = Gateway.bareStatus v.item ∨
      ∃ eff, Governs g v.sent st eff := by
  cases reports_of_status hfollows hst with
  | bare hcs => exact .inl ⟨hcs, rfl⟩
  | bypassed hints eff e hpolicy hcheck hmode =>
      exact .inr ⟨eff, hpolicy, rfl, rfl, rfl, rfl, fun _ => .inl ⟨e, hcheck⟩, fun _ => rfl⟩
  | served hints eff o a r t hpolicy hcheck hlookup hretain =>
      refine .inr ⟨eff, hpolicy, rfl, rfl, rfl, rfl, fun ho => .inr ?_, fun ⟨e, he⟩ => ?_⟩
      · have hobs : o = .bypass := ho
        cases resolves_of_resolve hlookup with
        | bypass _ hreuse => exact hreuse
        | unobserved => cases hobs
        | exactHit => cases hobs
        | approximateHit => cases hobs
        | missDonor => cases hobs
        | miss => cases hobs
      · cases hcheck.symm.trans he

def Effective.NeedsBypass (caps : Capabilities) (eff : Effective) : Prop :=
  (∃ e, checkEnforceable caps eff = .error e) ∨ eff.reuse = .none ∨ eff.retention.mode = .forbid

namespace Governs

theorem isGoverned (h : Governs g p st eff) : st.isGoverned = true := by
  simp [FragmentStatus.isGoverned, h.reuse]

theorem mustBypass_iff (h : Governs g p st eff) :
    st.mustBypass = true ↔ eff.NeedsBypass g.backend.capabilities := by
  simp only [FragmentStatus.mustBypass, decide_eq_true_eq, h.reuse, h.mode, Option.some.injEq]
  constructor
  · rintro (hbypass | hreuse | hforbid)
    · rcases h.bypass hbypass with he | hreuse
      · exact .inl he
      · exact .inr (.inl hreuse)
    · exact .inr (.inl hreuse)
    · exact .inr (.inr hforbid)
  · rintro (he | hreuse | hforbid)
    · exact .inl (h.unenforceable he)
    · exact .inr (.inl hreuse)
    · exact .inr (.inr hforbid)

end Governs

/-! ## The statuses of a request -/

/-- Every fragment has its status, at its position. -/
structure Reported (g : Gateway σ) (fragments : List Fragment) (statuses : List FragmentStatus) :
    Prop where
  length_eq : statuses.length = fragments.length
  status : ∀ p f, p ++ [f] <+: fragments → ∃ st, statuses[p.length]? = some st ∧
    (constraintsOf (p ++ [f]) = some [] ∧ st = Gateway.bareStatus f ∨
      ∃ eff, Governs g (p ++ [f]) st eff)

theorem reported_of_answer {r : Result} (h : (g.answer c s).1 = .ok r)
    (hord : c.ordered = .ok fragments) : Reported g fragments r.statuses := by
  refine ⟨length_statuses h hord, fun p f hp => ?_⟩
  obtain ⟨v, hv, hsent, st, hst, hat⟩ := event_of_answer h hord hp
  have hitem : v.item = f := by
    have hlast := congrArg List.getLast? hsent
    simpa [Event.sent] using hlast
  refine ⟨st, hat, ?_⟩
  rw [← hsent, ← hitem]
  exact governs_of_status (follows_of_mem hv) hst

theorem constraintsOf_ne_nil (h : constraintsOf p = some []) : ∀ f ∈ p, f.intentJson = none := by
  intro f hf
  by_contra hne
  obtain ⟨text, htext⟩ := Option.ne_none_iff_exists'.mp hne
  obtain ⟨intent, hparse⟩ := parsed_of_constraintsOf h hf htext
  have hmem := (mem_constraintsOf h).mpr ⟨f, hf, text, intent, htext, hparse, rfl⟩
  simp at hmem

theorem exists_intent_of_policy (h : policy p = some eff) (hp : p <+: fragments) :
    ∃ f ∈ fragments, f.intentJson ≠ none := by
  obtain ⟨cs, hcs, hcomposes⟩ := composes_of_policy h
  obtain ⟨x, hx⟩ := List.exists_mem_of_ne_nil cs hcomposes.ne_nil
  obtain ⟨f, hf, text, -, htext, -⟩ := (mem_constraintsOf hcs).mp hx
  exact ⟨f, hp.subset hf, by simp [htext]⟩

namespace Reported

variable {statuses : List FragmentStatus} (h : Reported g fragments statuses)

include h

theorem governs (hp : p ++ [f] <+: fragments) (hgov : ∃ f' ∈ p ++ [f], f'.intentJson ≠ none) :
    ∃ st eff, statuses[p.length]? = some st ∧ Governs g (p ++ [f]) st eff := by
  obtain ⟨st, hat, hbare | ⟨eff, hgoverns⟩⟩ := h.status p f hp
  · obtain ⟨f', hf', hne⟩ := hgov
    exact absurd (constraintsOf_ne_nil hbare.1 f' hf') hne
  · exact ⟨st, eff, hat, hgoverns⟩

theorem exists_governs (hst : st ∈ statuses.filter FragmentStatus.isGoverned) :
    ∃ p eff, p <+: fragments ∧ Governs g p st eff := by
  obtain ⟨hmem, hgoverned⟩ := List.mem_filter.mp hst
  obtain ⟨i, hi⟩ := List.mem_iff_getElem?.mp hmem
  obtain ⟨hlt, -⟩ := List.getElem?_eq_some_iff.mp hi
  rw [h.length_eq] at hlt
  have hprefix : fragments.take i ++ [fragments[i]] <+: fragments := by
    rw [← List.take_succ_eq_append_getElem hlt]
    exact List.take_prefix _ _
  obtain ⟨st', hat, hcases⟩ := h.status _ _ hprefix
  rw [List.length_take, min_eq_left hlt.le, hi, Option.some.injEq] at hat
  subst hat
  rcases hcases with ⟨-, rfl⟩ | ⟨eff, hgoverns⟩
  · simp [FragmentStatus.isGoverned, Gateway.bareStatus] at hgoverned
  · exact ⟨_, eff, hprefix, hgoverns⟩

theorem exists_last (hgov : ∃ f ∈ fragments, f.intentJson ≠ none) :
    ∃ init st eff, statuses.filter FragmentStatus.isGoverned = init ++ [st] ∧
      Governs g fragments st eff := by
  obtain ⟨p, f, rfl⟩ : ∃ p f, fragments = p ++ [f] := by
    rcases List.eq_nil_or_concat fragments with rfl | ⟨p, f, rfl⟩
    · simp at hgov
    · exact ⟨p, f, by simp⟩
  obtain ⟨st, eff, hat, hgoverns⟩ := h.governs (List.prefix_refl _) hgov
  have hlength := h.length_eq
  rcases List.eq_nil_or_concat statuses with rfl | ⟨before, st', rfl⟩
  · simp at hat
  · simp only [List.concat_eq_append, List.length_append, List.length_cons,
      List.length_nil] at hlength
    have hlen : before.length = p.length := by omega
    simp only [List.concat_eq_append, ← hlen, List.getElem?_concat_length, Option.some.injEq] at hat
    subst hat
    refine ⟨before.filter FragmentStatus.isGoverned, st', eff, ?_, hgoverns⟩
    simp [List.filter_append, hgoverns.isGoverned]

end Reported

/-! ## The boundary of the lowering -/

theorem ne_nil_of_policy (h : policy p = some eff) : p ≠ [] := by
  rintro rfl
  cases h.symm.trans (policy_eq_none_of_bare rfl)

theorem supplies_iff {cs : List Constraints} {x : Constraints}
    (h : constraintsOf fragments = some cs) : Supplies fragments x ↔ x ∈ cs :=
  (mem_constraintsOf h).symm

theorem Governs.supplied (h : Governs g p st eff) {last : FragmentStatus} {whole : Effective}
    (hlast : Governs g fragments last whole) (hp : p <+: fragments) :
    ∃ cs ds, Composes cs eff ∧ Composes ds whole ∧ cs ⊆ ds ∧
      ∀ x, Supplies fragments x ↔ x ∈ ds := by
  obtain ⟨cs, hcs, hcomposes⟩ := composes_of_policy h.policy
  obtain ⟨ds, hds, hwhole⟩ := composes_of_policy hlast.policy
  exact ⟨cs, ds, hcomposes, hwhole, constraintsOf_subset hp hcs hds, fun x => supplies_iff hds⟩

section Boundary

variable {statuses init : List FragmentStatus} {last : FragmentStatus} {whole : Effective}
  (h : Reported g fragments statuses)
  (hfilter : statuses.filter FragmentStatus.isGoverned = init ++ [last])
  (hlast : Governs g fragments last whole)

include h hfilter hlast

theorem keptToItself_iff : KeptToItself g.backend.capabilities fragments ↔
    (∃ x ∈ init ++ [last], x.mustBypass = true) ∨ whole.shareMax = .request := by
  obtain ⟨-, ds, -, hwhole, -, hsupplies⟩ := hlast.supplied hlast (List.prefix_refl _)
  constructor
  · rintro (⟨p, eff, e, hp, hpolicy, hcheck⟩ | ⟨cs, hcs, hreuse | hforbid | hrequest⟩)
    · obtain ⟨q, f, rfl⟩ : ∃ q f, p = q ++ [f] := by
        rcases List.eq_nil_or_concat p with rfl | ⟨q, f, rfl⟩
        · exact absurd rfl (ne_nil_of_policy hpolicy)
        · exact ⟨q, f, by simp⟩
      obtain ⟨st, hat, ⟨hbare, -⟩ | ⟨eff', hgoverns⟩⟩ := h.status q f hp
      · cases hpolicy.symm.trans (policy_eq_none_of_bare hbare)
      · cases hpolicy.symm.trans hgoverns.policy
        refine .inl ⟨st, ?_, hgoverns.mustBypass_iff.mpr (.inl ⟨e, hcheck⟩)⟩
        rw [← hfilter, List.mem_filter]
        exact ⟨List.mem_of_getElem? hat, hgoverns.isGoverned⟩
    · have hle := hwhole.reuse_le ((hsupplies cs).mp hcs)
      rw [hreuse] at hle
      have hnone : whole.reuse = .none := le_antisymm hle (Reuse.none_le _)
      exact .inl ⟨last, by simp, hlast.mustBypass_iff.mpr (.inr (.inl hnone))⟩
    · have hwforbid := hwhole.forbids.mpr ⟨cs, (hsupplies cs).mp hcs, hforbid⟩
      exact .inl ⟨last, by simp, hlast.mustBypass_iff.mpr (.inr (.inr hwforbid))⟩
    · have hle := hwhole.shareMax_le ((hsupplies cs).mp hcs)
      rw [hrequest] at hle
      exact .inr (le_antisymm hle (Share.request_le _))
  · rintro (⟨x, hx, hbypass⟩ | hrequest)
    · rw [← hfilter] at hx
      obtain ⟨p, eff, hp, hgoverns⟩ := h.exists_governs hx
      obtain ⟨cs, ds', hcomposes, -, hsub, hsupplies'⟩ := hgoverns.supplied hlast hp
      rcases hgoverns.mustBypass_iff.mp hbypass with ⟨e, he⟩ | hreuse | hforbid
      · exact .inl ⟨p, eff, e, hp, hgoverns.policy, he⟩
      · obtain ⟨y, hy, hyr⟩ := hcomposes.reuse.1
        exact .inr ⟨y, (hsupplies' y).mpr (hsub hy), .inl (hyr.trans hreuse)⟩
      · obtain ⟨y, hy, hyf⟩ := hcomposes.forbids.mp hforbid
        exact .inr ⟨y, (hsupplies' y).mpr (hsub hy), .inr (.inl hyf)⟩
    · obtain ⟨y, hy, hys⟩ := hwhole.shareMax.1
      exact .inr ⟨y, (hsupplies y).mpr hy, .inr (.inr (hys.trans hrequest))⟩

theorem isLeast_share :
    IsLeast {x | x ∈ (init ++ [last]).map FragmentStatus.effectiveShare} whole.shareMax := by
  refine ⟨?_, fun b hb => ?_⟩
  · exact List.mem_map.mpr ⟨last, by simp, hlast.share⟩
  · obtain ⟨x, hx, rfl⟩ := List.mem_map.mp hb
    rw [← hfilter] at hx
    obtain ⟨p, eff, hp, hgoverns⟩ := h.exists_governs hx
    obtain ⟨cs, ds, hcomposes, hwhole, hsub, -⟩ := hgoverns.supplied hlast hp
    rw [hgoverns.share]
    exact hcomposes.shareMax_anti hwhole hsub

theorem isBoundary_narrowestShare {status : FragmentStatus} {governed : List FragmentStatus}
    (hcons : init ++ [last] = status :: governed) :
    IsBoundary g.backend.capabilities fragments (narrowestShare status governed) := by
  have hkept := keptToItself_iff h hfilter hlast
  have hleast := isLeast_share h hfilter hlast
  rw [hcons] at hkept hleast
  unfold narrowestShare
  split
  · rename_i hany
    obtain ⟨x, hx, hbypass⟩ := List.any_eq_true.mp hany
    exact ⟨fun _ => rfl, fun hnot => absurd (hkept.mpr (.inl ⟨x, hx, hbypass⟩)) hnot⟩
  · rename_i hnone
    have hfold : (governed.map FragmentStatus.effectiveShare).foldl min status.effectiveShare =
        whole.shareMax := (isLeast_foldl_min _ _).unique hleast
    rw [hfold]
    refine ⟨fun hk => ?_, fun _ => ?_⟩
    · rcases hkept.mp hk with ⟨x, hx, hbypass⟩ | hrequest
      · exact absurd (List.any_eq_true.mpr ⟨x, hx, hbypass⟩) hnone
      · exact hrequest
    · obtain ⟨-, ds, -, hwhole, -, hsupplies⟩ := hlast.supplied hlast (List.prefix_refl _)
      simpa only [hsupplies] using hwhole.shareMax

omit h hfilter hlast in
theorem namespaceDigest_eq_none_iff {xs : List Str} : namespaceDigest xs = .ok none ↔ xs = [] := by
  refine ⟨fun hnone => ?_, ?_⟩
  · by_contra hne
    rw [namespaceDigest, if_neg hne] at hnone
    obtain ⟨b, -, hb⟩ := bind_eq_ok_iff.mp hnone
    cases hb
  · rintro rfl
    rfl

/-- Scanning backwards finds the identity of all namespaces of the request. -/
theorem lastNamespace_eq : lastNamespace (init ++ [last]) = whole.namespaceIdentity := by
  rw [lastNamespace, List.reverse_append, List.reverse_singleton, List.singleton_append,
    List.findSome?_cons, hlast.identity]
  cases hidentity : whole.namespaceIdentity with
  | some d => rfl
  | none =>
      -- without namespaces in the request there are none in a prefix
      apply List.findSome?_eq_none_iff.mpr
      intro x hx
      have hmem : x ∈ statuses.filter FragmentStatus.isGoverned := by
        rw [hfilter]
        exact List.mem_append_left _ (List.mem_reverse.mp hx)
      obtain ⟨p, eff, hp, hgoverns⟩ := h.exists_governs hmem
      obtain ⟨cs, ds, hcomposes, hwhole, hsub, -⟩ := hgoverns.supplied hlast hp
      have hds := hwhole.namespaceIdentity
      rw [hidentity, namespaceDigest_eq_none_iff, List.filterMap_eq_nil_iff] at hds
      have hcs : cs.filterMap Constraints.ns = [] :=
        List.filterMap_eq_nil_iff.mpr fun y hy => hds y (hsub hy)
      have hdigest := hcomposes.namespaceIdentity
      rw [hcs] at hdigest
      rw [hgoverns.identity]
      exact (Except.ok.inj hdigest).symm

end Boundary

/-! ## Accepted requests -/

def callFor (fragments : List Fragment) (auth : AuthContext) (now : Time) (requestId : Str) :
    Call :=
  { fragments, auth, now, requestId }

theorem ordered_callFor {auth : AuthContext} {now : Time} {requestId : Str} {r : Result}
    (h : (g.answer (callFor fragments auth now requestId) s).1 = .ok r) :
    (callFor fragments auth now requestId).ordered = .ok fragments := by
  obtain ⟨ordered, u, hord, -⟩ := loop_of_answer h
  rw [hord, eq_of_ordered rfl hord]
  rfl

variable {body : Str} {auth : AuthContext} {now : Time} {requestId : Str}
  {upstream : List (Str × Value)} {result : Result}

theorem exists_handled
    (h : prepare g body auth now requestId s = (.ok (.accepted upstream result), t)) :
    ∃ request fragments r, loadsStrict body = .ok request ∧
      extractFragments request = .ok fragments ∧
      g.answer (callFor fragments auth now requestId) s = (.ok r, t) ∧
      finish g.backend request.members auth requestId r = .ok (.accepted upstream result) := by
  unfold prepare at h
  cases hload : loadsStrict body with
  | error e =>
      simp only [hload] at h
      split at h <;> cases h
  | ok request =>
      simp only [hload] at h
      cases hextract : extractFragments request with
      | error e =>
          simp only [hextract] at h
          split at h <;> cases h
      | ok fragments =>
          simp only [hextract] at h
          obtain ⟨outcome, u, hattempt, h⟩ := Prog.bind_eq_ok_iff.mp h
          obtain ⟨houtcome, rfl⟩ := Prod.mk.inj hattempt
          cases outcome with
          | error e => cases h
          | ok r =>
              obtain ⟨hfinish, rfl⟩ := Prod.mk.inj h
              exact ⟨request, fragments, r, rfl, hextract,
                Prod.ext (Except.ok.inj houtcome) rfl, hfinish⟩

/-- The ways in which a handled request goes upstream. -/
inductive Finished (backend : Backend σ) (members : List (Str × Value)) (auth : AuthContext)
    (requestId : Str) (r : Result) : List (Str × Value) → Result → Prop
  | unsalted : backend.saltFor = none ∨ r.statuses.filter FragmentStatus.isGoverned = [] →
      Finished backend members auth requestId r (stripBindingMembers members).1
        { r with cacheSalt := none }
  | salted (saltFor : Str → Option Str → Except PyError Str) (status : FragmentStatus)
      (governed : List FragmentStatus) (salt : Str) : backend.saltFor = some saltFor →
      r.statuses.filter FragmentStatus.isGoverned = status :: governed →
      saltFor (partitionFor (narrowestShare status governed) auth requestId)
        (lastNamespace (status :: governed)) = .ok salt →
      Finished backend members auth requestId r
        (Json.set (lit "cache_salt") (.str salt) (stripBindingMembers members).1)
        { r with
          statuses := r.statuses.map fun s =>
            if s.isGoverned then lowerStatus (narrowestShare status governed) s else s
          cacheSalt := some salt }

theorem finished_of_finish {backend : Backend σ} {members : List (Str × Value)} {r : Result}
    (h : finish backend members auth requestId r = .ok (.accepted upstream result)) :
    Finished backend members auth requestId r upstream result := by
  obtain ⟨⟨cacheSalt, statuses⟩, hlower, hfinish⟩ := bind_eq_ok_iff.mp h
  unfold lowerRequestSalt at hlower
  cases hsalt : backend.saltFor with
  | none =>
      rw [hsalt] at hlower
      cases hlower
      cases hfinish
      exact .unsalted (.inl hsalt)
  | some saltFor =>
      cases hfilter : r.statuses.filter FragmentStatus.isGoverned with
      | nil =>
          rw [hsalt, hfilter] at hlower
          cases hlower
          cases hfinish
          exact .unsalted (.inr hfilter)
      | cons status governed =>
          rw [hsalt, hfilter] at hlower
          obtain ⟨salt, hsaltFor, hpure⟩ := bind_eq_ok_iff.mp hlower
          cases hpure
          cases hfinish
          exact .salted saltFor status governed salt hsalt hfilter hsaltFor

/-- The request went upstream under one salt, that of the boundary `b`, and its
governed statuses say so. -/
structure LoweredTo (g : Gateway σ) (saltFor : Str → Option Str → Except PyError Str)
    (fragments : List Fragment) (auth : AuthContext) (requestId : Str)
    (upstream : List (Str × Value)) (result : Result) (b : Share) : Prop where
  boundary : IsBoundary g.backend.capabilities fragments b
  salt : ∃ d salt, namespaceDigest (namespacesOf fragments) = .ok d ∧
    saltFor (partitionFor b auth requestId) d = .ok salt ∧
    Json.get? (lit "cache_salt") upstream = some (.str salt) ∧ result.cacheSalt = some salt
  statuses : ∀ p f, p ++ [f] <+: fragments → (∃ f' ∈ p ++ [f], f'.intentJson ≠ none) →
    ∃ eff st, policy (p ++ [f]) = some eff ∧ result.statuses[p.length]? = some st ∧
      st.effectiveShare = b ∧ (b = .request → st.outcome = .bypass ∧
        st.retention = if eff.retention.mode = .forbid then .forbidden else .declined)

theorem lowerStatus_governs (h : Governs g p st eff) (b : Share) :
    (lowerStatus b st).effectiveShare = b ∧ (b = .request → (lowerStatus b st).outcome = .bypass ∧
      (lowerStatus b st).retention =
        if eff.retention.mode = .forbid then .forbidden else .declined) := by
  unfold lowerStatus
  split
  · rename_i hb
    refine ⟨hb.symm, fun _ => ⟨rfl, ?_⟩⟩
    simp [h.mode]
  · rename_i hb
    exact ⟨rfl, fun hreq => absurd hreq hb⟩

theorem loweredTo_of_finish {saltFor : Str → Option Str → Except PyError Str}
    (hsalt : g.backend.saltFor = some saltFor) {members : List (Str × Value)} {r : Result}
    (hreported : Reported g fragments r.statuses) (hgov : ∃ f ∈ fragments, f.intentJson ≠ none)
    (h : finish g.backend members auth requestId r = .ok (.accepted upstream result)) :
    ∃ b, LoweredTo g saltFor fragments auth requestId upstream result b := by
  obtain ⟨init, last, whole, hfilter, hlast⟩ := hreported.exists_last hgov
  cases finished_of_finish h with
  | unsalted hnone =>
      rcases hnone with hnone | hnone
      · cases hsalt.symm.trans hnone
      · rw [hfilter] at hnone
        simp at hnone
  | salted saltFor' status governed salt hsalt' hcons hsaltFor =>
      cases hsalt.symm.trans hsalt'
      rw [hfilter] at hcons
      obtain ⟨ds, hds, hwhole⟩ := composes_of_policy hlast.policy
      refine ⟨narrowestShare status governed,
        isBoundary_narrowestShare hreported hfilter hlast hcons, ⟨whole.namespaceIdentity, salt,
          ?_, ?_, Json.get?_set_self _ _ _, rfl⟩, fun p f hp hgov' => ?_⟩
      · rw [namespacesOf, hds]
        exact hwhole.namespaceIdentity
      · rw [← hcons, lastNamespace_eq hreported hfilter hlast] at hsaltFor
        exact hsaltFor
      · obtain ⟨st, eff, hat, hgoverns⟩ := hreported.governs hp hgov'
        refine ⟨eff, lowerStatus (narrowestShare status governed) st, hgoverns.policy, ?_,
          lowerStatus_governs hgoverns _⟩
        simp [hat, hgoverns.isGoverned]

end

/-- An accepted request with a governed fragment goes upstream under the salt of
its narrowest boundary and of all its namespaces, on every backend that has one
salt per request and from every state. -/
theorem accepted_loweredTo [Runtime] {σ : Type} (g : Gateway σ)
    {saltFor : Str → Option Str → Except PyError Str} (hsalt : g.backend.saltFor = some saltFor)
    {body : Str} {auth : AuthContext} {now : Time} {requestId : Str} {s t : σ}
    {upstream : List (Str × Value)} {result : Result}
    (h : prepare g body auth now requestId s = (.ok (.accepted upstream result), t)) :
    ∃ request fragments, loadsStrict body = .ok request ∧
      extractFragments request = .ok fragments ∧
      ((∃ f ∈ fragments, f.intentJson ≠ none) →
        ∃ b, LoweredTo g saltFor fragments auth requestId upstream result b) := by
  obtain ⟨request, fragments, r, hload, hextract, hhandled, hfinish⟩ := exists_handled h
  have hanswer := congrArg Prod.fst hhandled
  refine ⟨request, fragments, hload, hextract, fun hgov => ?_⟩
  have hreported := reported_of_answer hanswer (ordered_callFor hanswer)
  exact loweredTo_of_finish hsalt hreported hgov hfinish

theorem loweredTo_of_cacheSalt [Runtime] {σ : Type} {g : Gateway σ}
    {saltFor : Str → Option Str → Except PyError Str} (hsalt : g.backend.saltFor = some saltFor)
    {body : Str} {auth : AuthContext} {now : Time} {requestId : Str} {s t : σ}
    {upstream : List (Str × Value)} {result : Result} {salt : Str}
    (h : prepare g body auth now requestId s = (.ok (.accepted upstream result), t))
    (hproduced : result.cacheSalt = some salt) :
    ∃ request fragments b, loadsStrict body = .ok request ∧
      extractFragments request = .ok fragments ∧
      LoweredTo g saltFor fragments auth requestId upstream result b := by
  obtain ⟨request, fragments, r, hload, hextract, hhandled, hfinish⟩ := exists_handled h
  have hanswer := congrArg Prod.fst hhandled
  have hreported := reported_of_answer hanswer (ordered_callFor hanswer)
  suffices hgov : ∃ f ∈ fragments, f.intentJson ≠ none by
    obtain ⟨b, hb⟩ := loweredTo_of_finish hsalt hreported hgov hfinish
    exact ⟨request, fragments, b, hload, hextract, hb⟩
  cases finished_of_finish hfinish with
  | unsalted => cases hproduced
  | salted saltFor' st governed salt' hsalt' hfilter =>
      obtain ⟨p, eff, hp, hgoverns⟩ := hreported.exists_governs
        (show st ∈ r.statuses.filter FragmentStatus.isGoverned by simp [hfilter])
      exact exists_intent_of_policy hgoverns.policy hp

def vllmGateway [Runtime] (mode : OnUnenforceable) : Gateway Unit := ⟨vllmBackend, mode⟩

section

attribute [local instance] reference

/-- Two messages, the second for one principal only. -/
def chatBody : Str :=
  sampleBody [("a", intentValue (.allow none) "exact" "tenant"),
    ("b", intentValue (.allow none) "exact" "principal")]

def isAccepted : Except PyError Prepared → Bool
  | .ok (.accepted _ _) => true
  | _ => false

theorem exists_accepted {σ : Type} {g : Gateway σ} {body : Str} {auth : AuthContext} {now : Time}
    {requestId : Str} {s : σ} (h : isAccepted (prepare g body auth now requestId s).1 = true) :
    ∃ upstream result t,
      prepare g body auth now requestId s = (.ok (.accepted upstream result), t) := by
  rcases hp : prepare g body auth now requestId s with ⟨e | ⟨upstream, result⟩ | ⟨code, cause⟩, t⟩
  · simp [hp, isAccepted] at h
  · exact ⟨upstream, result, t, rfl⟩
  · simp [hp, isAccepted] at h

theorem accepted_loweredTo_chatBody :
    ∃ saltFor, (vllmGateway .bypass).backend.saltFor = some saltFor ∧
      ∃ fragments upstream result b,
        LoweredTo (vllmGateway .bypass) saltFor fragments alice (lit "req-1") upstream
          result b := by
  refine ⟨_, rfl, ?_⟩
  obtain ⟨upstream, result, t, hprepare⟩ := exists_accepted
    (show isAccepted
        (prepare (vllmGateway .bypass) chatBody alice (0 : ℕ) (lit "req-1") ()).1 = true by
      decide +kernel)
  obtain ⟨request, fragments, hload, hextract, hlowered⟩ :=
    accepted_loweredTo (vllmGateway .bypass) rfl hprepare
  have hintents : ((loadsStrict chatBody >>= extractFragments).toOption.getD []).any
      (fun f => f.intentJson.isSome) = true := by decide +kernel
  rw [hload] at hintents
  obtain ⟨f, hf, hsome⟩ := List.any_eq_true.mp hintents
  rw [show (Except.ok request >>= extractFragments) = .ok fragments from hextract] at hf
  obtain ⟨b, hb⟩ := hlowered ⟨f, hf, Option.isSome_iff_ne_none.mp hsome⟩
  exact ⟨fragments, upstream, result, b, hb⟩

end

end CacheControl

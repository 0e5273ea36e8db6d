import CacheControl.Discovery
import CacheControl.Rejections

/-!
# Keeping to what is advertised

The meet of constraints that a backend can enforce is one that it can enforce.  So no
constraint is refused to a client that sends what the capability document advertises,
which cannot tell a gateway that rejects from one that bypasses.
-/

open PyText

namespace CacheControl

section

variable [Runtime] {σ : Type} {b : Backend σ} {caps : Capabilities} {cs : List Constraints}
  {eff : Effective} {fragments p : List Fragment} {f : Fragment} {vars : LoopVars} {c : Call}
  {s : σ}

/-! ## Policies -/

theorem Composes.exists_mode (h : Composes cs eff) :
    ∃ x ∈ cs, x.retention.mode = eff.retention.mode := by
  cases hmode : eff.retention.mode with
  | forbid => exact h.forbids.mp hmode
  | allow =>
      obtain ⟨x, hx, -⟩ := h.reuse.1
      refine ⟨x, hx, ?_⟩
      cases hown : x.retention.mode with
      | allow => rfl
      | forbid => cases hmode.symm.trans (h.forbids.mpr ⟨x, hx, hown⟩)

theorem Composes.exists_maxAge (h : Composes cs eff) (hsome : eff.retention.maxAge.isSome = true) :
    ∃ x ∈ cs, x.retention.maxAge.isSome = true := by
  obtain ⟨m, hm⟩ := Option.isSome_iff_exists.mp hsome
  have hallow : eff.retention.mode = .allow := by
    cases hretention : eff.retention with
    | allow age => rfl
    | forbid => rw [hretention] at hm; cases hm
  have hleast := h.maxAge hallow
  rw [hm] at hleast
  obtain ⟨x, hx, hage⟩ := hleast.1
  exact ⟨x, hx, by rw [hage]; rfl⟩

theorem Composes.exists_namespace (h : Composes cs eff)
    (hsome : eff.namespaceIdentity.isSome = true) : ∃ x ∈ cs, x.ns.isSome = true := by
  have hne : cs.filterMap Constraints.ns ≠ [] := by
    intro hnil
    have hdigest := h.namespaceIdentity
    rw [hnil, namespaceDigest_eq_none_iff.mpr rfl] at hdigest
    rw [← Except.ok.inj hdigest] at hsome
    cases hsome
  obtain ⟨n, hn⟩ := List.exists_mem_of_ne_nil _ hne
  obtain ⟨x, hx, hns⟩ := List.mem_filterMap.mp hn
  exact ⟨x, hx, by rw [hns]; rfl⟩

/-- What supports every contributor enforces their composition. -/
theorem enforces_of_supports (hcomposes : Composes cs eff) (h : ∀ x ∈ cs, Supports caps x) :
    Enforces caps eff := by
  obtain ⟨x, hx, hmode⟩ := hcomposes.exists_mode
  obtain ⟨y, hy, hreuse⟩ := hcomposes.reuse.1
  obtain ⟨z, hz, hshare⟩ := hcomposes.shareMax.1
  refine ⟨hmode ▸ (h x hx).mode, fun hsome => ?_, hreuse ▸ (h y hy).reuse,
    hshare ▸ (h z hz).shareMax, fun hsome => ?_⟩
  · obtain ⟨w, hw, hage⟩ := hcomposes.exists_maxAge hsome
    exact (h w hw).maxAge hage
  · obtain ⟨w, hw, hns⟩ := hcomposes.exists_namespace hsome
    exact (h w hw).ns hns

theorem supports_of_enforces {x : Constraints} (hcomposes : Composes [x] eff)
    (h : Enforces caps eff) : Supports caps x := by
  obtain ⟨y, hy, hmode⟩ := hcomposes.exists_mode
  obtain ⟨z, hz, hreuse⟩ := hcomposes.reuse.1
  obtain ⟨w, hw, hshare⟩ := hcomposes.shareMax.1
  obtain rfl : y = x := List.mem_singleton.mp hy
  obtain rfl : z = y := List.mem_singleton.mp hz
  obtain rfl : w = z := List.mem_singleton.mp hw
  refine ⟨hmode ▸ h.mode, fun hsome => h.maxAge ?_, hreuse ▸ h.reuse, hshare ▸ h.shareMax,
    fun hsome => h.ns ?_⟩
  · have hallow : eff.retention.mode = .allow := by
      rw [← hmode]
      cases hretention : w.retention with
      | allow age => rfl
      | forbid => rw [hretention] at hsome; cases hsome
    have hleast := hcomposes.maxAge hallow
    cases hage : eff.retention.maxAge with
    | some m => rfl
    | none =>
        rw [hage] at hleast
        rw [hleast w (List.mem_singleton_self w)] at hsome
        cases hsome
  · obtain ⟨n, hn⟩ := Option.isSome_iff_exists.mp hsome
    have hdigest := hcomposes.namespaceIdentity
    cases hidentity : eff.namespaceIdentity with
    | some d => rfl
    | none =>
        rw [hidentity, namespaceDigest_eq_none_iff] at hdigest
        have hmem : n ∈ [w].filterMap Constraints.ns :=
          List.mem_filterMap.mpr ⟨w, List.mem_singleton_self w, hn⟩
        rw [hdigest] at hmem
        cases hmem

/-! ## Requests -/

/-- Every intent that can be read is advertised. -/
def KeepsTo (document : Value) (fragments : List Fragment) : Prop :=
  ∀ f ∈ fragments, ∀ text intent, f.intentJson = some text → parseCacheIntent text = .ok intent →
    advertises document intent.constraints = true

theorem not_fails_of_keepsTo {mode : OnUnenforceable}
    (h : KeepsTo (⟨b, mode⟩ : Gateway σ).capabilitiesDocument fragments) (hp : p <+: fragments) :
    ¬ Fails b.capabilities p := by
  rintro ⟨eff, e, hpolicy, hcheck⟩
  obtain ⟨cs, hcs, hcomposes⟩ := composes_of_policy hpolicy
  have henforces : Enforces b.capabilities eff := enforces_of_supports hcomposes fun x hx => by
    obtain ⟨f, hf, text, intent, htext, hparse, rfl⟩ := (mem_constraintsOf hcs).mp hx
    exact (advertises_iff (⟨b, mode⟩ : Gateway σ) _).mp (h f (hp.subset hf) text intent htext hparse)
  have hok : checkEnforceable b.capabilities eff = .ok () :=
    checkEnforceable_eq_ok_iff.mpr henforces
  cases hcheck.symm.trans hok

/-- Where the policy can be enforced the mode of the gateway does not matter. -/
theorem turn_eq_of_not_fails (hfollows : Follows p vars)
    (hnot : ¬ Fails b.capabilities (p ++ [f])) :
    (⟨b, .reject⟩ : Gateway σ).turn c vars f = (⟨b, .bypass⟩ : Gateway σ).turn c vars f := by
  unfold Gateway.turn Gateway.handleFragment
  cases hentered : enter b.capabilities vars f with
  | error e => rfl
  | ok entered =>
      rw [Prog.lift_ok_bind, Prog.lift_ok_bind]
      cases reads_enter hfollows hentered with
      | ungoverned vars' hfollows' htaint hcs => rfl
      | governed vars' hints eff hfollows' htaint hpolicy =>
          cases hcheck : checkEnforceable b.capabilities eff with
          | ok u =>
              simp only [hcheck]
              rfl
          | error e => exact absurd ⟨eff, e, hpolicy, hcheck⟩ hnot

theorem loop_eq_of_not_fails (hfollows : Follows p vars)
    (hnot : ∀ q, q <+: fragments → ¬ Fails b.capabilities (p ++ q)) (s : σ) :
    Prog.mapAccum ((⟨b, .reject⟩ : Gateway σ).turn c) vars fragments s =
      Prog.mapAccum ((⟨b, .bypass⟩ : Gateway σ).turn c) vars fragments s := by
  induction fragments generalizing p vars s with
  | nil => rfl
  | cons f fragments ih =>
      have hturn := turn_eq_of_not_fails (c := c) hfollows (hnot [f] ⟨fragments, rfl⟩)
      rcases hstep : (⟨b, .bypass⟩ : Gateway σ).turn c vars f s with ⟨e | ⟨vars', st⟩, t⟩
      · have hstep' := (congrFun hturn s).trans hstep
        rw [Prog.mapAccum_cons_of_error hstep, Prog.mapAccum_cons_of_error hstep']
      · have hstep' := (congrFun hturn s).trans hstep
        have hrest : ∀ q, q <+: fragments → ¬ Fails b.capabilities (p ++ [f] ++ q) := by
          intro q hq
          rw [List.append_assoc]
          exact hnot (f :: q) (List.prefix_cons_inj f |>.mpr hq)
        rw [Prog.mapAccum_cons_of_ok hstep, Prog.mapAccum_cons_of_ok hstep', Prog.bind_pure_state,
          Prog.bind_pure_state, ih (turn_ok hfollows hstep).1 hrest t]

theorem answer_eq_of_not_fails (hnot : ∀ ordered, c.ordered = .ok ordered →
    ∀ q, q <+: ordered → ¬ Fails b.capabilities q) :
    (⟨b, .reject⟩ : Gateway σ).answer c = (⟨b, .bypass⟩ : Gateway σ).answer c := by
  funext s
  rw [answer_eq, answer_eq]
  cases hord : c.ordered with
  | error e => rfl
  | ok ordered =>
      rw [Prog.lift_ok_bind, Prog.lift_ok_bind, Prog.bind_pure_state, Prog.bind_pure_state,
        loop_eq_of_not_fails follows_init (by simpa using hnot ordered hord) s]

theorem ordered_callFor_eq_ok {auth : AuthContext} {now : Time} {requestId : Str}
    {ordered : List Fragment} (h : (callFor fragments auth now requestId).ordered = .ok ordered) :
    ordered = fragments := eq_of_ordered rfl h

theorem prepare_eq_of_keepsTo {mode : OnUnenforceable} {body : Str} {members : List (Str × Value)}
    (hread : readBody body = .ok (members, fragments))
    (h : KeepsTo (⟨b, mode⟩ : Gateway σ).capabilitiesDocument fragments) (auth : AuthContext)
    (now : Time) (requestId : Str) :
    prepare (⟨b, .reject⟩ : Gateway σ) body auth now requestId =
      prepare (⟨b, .bypass⟩ : Gateway σ) body auth now requestId := by
  have hanswer : (⟨b, .reject⟩ : Gateway σ).answer (callFor fragments auth now requestId) =
      (⟨b, .bypass⟩ : Gateway σ).answer (callFor fragments auth now requestId) := by
    apply answer_eq_of_not_fails
    intro ordered hord q hq
    rw [ordered_callFor_eq_ok hord] at hq
    exact not_fails_of_keepsTo h hq
  have hhandle : (⟨b, .reject⟩ : Gateway σ).handle fragments auth now requestId none false =
      (⟨b, .bypass⟩ : Gateway σ).handle fragments auth now requestId none false := hanswer
  rw [prepare_eq, prepare_eq, hread]
  dsimp only
  rw [prepareFragments, prepareFragments, hhandle]

/-! ## Rejections -/

omit [Runtime] in
theorem not_unenforced_of_notIntentError {e : PyError} (h : NotIntentError e) : ¬ Unenforced e := by
  rintro ⟨reason, rfl⟩
  cases h

theorem not_unenforced_of_parse {text : Str} {e : PyError} (h : parseCacheIntent text = .error e) :
    ¬ Unenforced e := by
  have hload : Prog.Throws (fun e => ¬ Unenforced e) (loadsStrict text) := by
    rintro e he ⟨reason, rfl⟩
    rcases loadsStrict_error he with ⟨k, hk⟩ | hk <;> cases hk
  have hversion : ∀ doc, Prog.Throws (fun e => ¬ Unenforced e) (checkVersion doc) := by
    rintro doc e he ⟨reason, rfl⟩
    unfold checkVersion at he
    repeat' split at he
    all_goals cases he
  refine (hload.bind fun doc => (hversion doc).bind fun _ => ?_) e h
  rintro e he ⟨reason, rfl⟩
  split at he <;> cases he

theorem not_unenforced_of_checkIds {e : PyError} (h : checkIds fragments = .error e) :
    ¬ Unenforced e := by
  rintro ⟨reason, rfl⟩
  unfold checkIds at h
  dsimp only at h
  repeat' split at h
  all_goals cases h

/-- A client that keeps to the document is rejected for its ids, for an intent that cannot
be read, or for an error that is none of the program's own. -/
theorem causes_of_keepsTo {mode : OnUnenforceable} (hb : b.RaisesNoIntentError) {body : Str}
    {members : List (Str × Value)} (hread : readBody body = .ok (members, fragments))
    (h : KeepsTo (⟨b, mode⟩ : Gateway σ).capabilitiesDocument fragments) {auth : AuthContext}
    {now : Time} {requestId : Str} {code : ErrorCode} {e : PyError}
    (hrejected : (prepare (⟨b, mode⟩ : Gateway σ) body auth now requestId s).1 =
      .ok (.rejected code e)) :
    code = handleErrorCode e ∧ (checkIds fragments = .error e ∨
      (∃ v ∈ (⟨b, mode⟩ : Gateway σ).trace [callFor fragments auth now requestId] s,
        v.item ∈ fragments ∧ v.item.Unread e) ∨ NotIntentError e) := by
  rcases cause_of_rejected hrejected with ⟨herror, -⟩ | ⟨members', fragments', hread', hanswer, hcode⟩
  · cases hread.symm.trans herror
  cases hread.symm.trans hread'
  refine ⟨hcode, ?_⟩
  rcases causes_of_answer hb hanswer with hids | ⟨-, v, hv, hitem, hcause⟩
  · exact .inl hids
  rcases hcause with hunread | ⟨-, ⟨p, hp, hfails⟩, -⟩ | hnot
  · exact .inr (.inl ⟨v, hv, hitem, hunread⟩)
  · exact absurd hfails (not_fails_of_keepsTo h hp)
  · exact .inr (.inr hnot)

theorem repeatsId_of_checkIds {body : Str} {members : List (Str × Value)}
    (hread : readBody body = .ok (members, fragments)) {e : PyError}
    (h : checkIds fragments = .error e) (hcode : .unenforceable = handleErrorCode e) :
    RepeatsId (((elements members).map Element.id).filter fun v => ¬isNull v) := by
  obtain ⟨-, hmakes⟩ := makes_of_readBody hread
  rw [← ids_of_makes hmakes]
  apply checkIds_eq_duplicate_iff.mp
  rcases checkIds_error h with rfl | rfl
  · exact h
  · cases hcode

/-! ## What is not advertised -/

/-- What the document says the gateway does with a policy that it cannot enforce. -/
def advertisedMode (document : Value) : Option Str :=
  ((surfaceOf document).bind (member? "on_unenforceable")).bind textOf

theorem advertisedMode_document (g : Gateway σ) :
    advertisedMode g.capabilitiesDocument = some g.onUnenforceable.word := by
  rw [advertisedMode, member?_surface "on_unenforceable"
    (.tail _ (.tail _ (.tail _ (.tail _ (.tail _ (.head _))))))]
  rfl

omit [Runtime] in
theorem onUnenforceableWord_injective : Function.Injective OnUnenforceable.word := by
  rintro (_ | _) (_ | _) h <;> first | rfl | exact absurd h (by decide +kernel)

variable {g : Gateway σ} {text : Str} {intent : Intent}

theorem policy_of_intent (htext : f.intentJson = some text)
    (hparse : parseCacheIntent text = .ok intent)
    (hns : NamespacesEncodable [intent.constraints]) :
    ∃ eff, policy [f] = some eff ∧ Composes [intent.constraints] eff := by
  have hcs : constraintsOf [f] = some [intent.constraints] := by
    simp [constraintsOf, htext, hparse, Except.toOption]
  rcases policy_of_constraintsOf hcs hns with hnil | ⟨eff, hpolicy⟩
  · cases hcs.symm.trans hnil
  · obtain ⟨cs, hcs', hcomposes⟩ := composes_of_policy hpolicy
    cases hcs.symm.trans hcs'
    exact ⟨eff, hpolicy, hcomposes⟩

/-- An intent that is not advertised cannot be enforced on its own. -/
theorem fails_of_not_advertised (htext : f.intentJson = some text)
    (hparse : parseCacheIntent text = .ok intent)
    (hns : NamespacesEncodable [intent.constraints])
    (hnot : advertises g.capabilitiesDocument intent.constraints = false) :
    Fails g.backend.capabilities [f] := by
  obtain ⟨eff, hpolicy, hcomposes⟩ := policy_of_intent htext hparse hns
  cases hcheck : checkEnforceable g.backend.capabilities eff with
  | error e => exact ⟨eff, e, hpolicy, hcheck⟩
  | ok u =>
      have hsupports := supports_of_enforces hcomposes (checkEnforceable_eq_ok_iff.mp hcheck)
      rw [← advertises_iff g] at hsupports
      cases hnot.symm.trans hsupports

theorem first_turn_of_fails (h : Fails g.backend.capabilities [f]) (s : σ) :
    (g.onUnenforceable = .reject → ∃ e, Unenforced e ∧ g.turn c .init f s = (.error e, s)) ∧
      (g.onUnenforceable = .bypass → ∃ vars st, g.turn c .init f s = (.ok (vars, st), s) ∧
        st.outcome = .bypass ∧ st.retention ≠ .retained) := by
  obtain ⟨eff, e, hpolicy, hcheck⟩ := h
  have hcases := turn_handleFragment g c.auth c.now c.requestId follows_init f
  unfold Gateway.turn
  generalize g.handleFragment c.auth c.now c.requestId .init f = prog at hcases ⊢
  cases hcases with
  | unread e' hnone hcs => cases hpolicy.symm.trans hnone
  | bare vars hfollows htaint hcs => cases hpolicy.symm.trans (policy_eq_none_of_bare hcs)
  | served vars hints eff' hfollows htaint hpolicy' hcheck' =>
      cases hpolicy.symm.trans hpolicy'
      cases hcheck.symm.trans hcheck'
  | rejected eff' e' hpolicy' hcheck' hmode =>
      refine ⟨fun _ => ⟨e', unenforced_of_check hcheck', rfl⟩, fun hbypass => ?_⟩
      cases hmode.symm.trans hbypass
  | bypassed vars hints eff' e' hfollows htaint hpolicy' hcheck' hmode =>
      refine ⟨fun hreject => ?_, fun _ => ⟨vars, _, rfl, rfl, ?_⟩⟩
      · cases hmode.symm.trans hreject
      · show (if eff'.retention.mode = .forbid then RetentionStatus.forbidden else .declined) ≠ _
        split <;> simp

end

/-- The document that a client reads is one of the schema where the backend can
enforce something of each kind.  Where a request begins with an intent which the
document does not advertise, it is refused, or its first fragment is bypassed and not
retained, as the document says. -/
theorem not_advertised_refused [Runtime] {σ : Type} (hfloat : Json.FloatsReadBack Runtime.Float)
    (g : Gateway σ) : ∃ document,
      loadsStrict (Json.dumps .default g.capabilitiesDocument) = .ok document ∧
      (validCapabilities document = true ↔ g.backend.capabilities.retentionModes.Nonempty ∧
        g.backend.capabilities.reuse.Nonempty ∧ g.backend.capabilities.shareMax.Nonempty) ∧
      ∀ (c : Call) (f : Fragment) (rest : List Fragment) (text : Str) (intent : Intent) (s : σ),
        c.ordered = .ok (f :: rest) → f.intentJson = some text →
        parseCacheIntent text = .ok intent → NamespacesEncodable [intent.constraints] →
        advertises document intent.constraints = false →
          (advertisedMode document = some (lit "reject") →
            ∃ e, g.answer c s = (.error e, s) ∧ Unenforced e) ∧
          (advertisedMode document = some (lit "bypass") → ∀ r, (g.answer c s).1 = .ok r →
            ∃ st, r.statuses[0]? = some st ∧ st.outcome = .bypass ∧ st.retention ≠ .retained) := by
  refine ⟨g.capabilitiesDocument, loadsStrict_document hfloat g, validCapabilities_iff g, ?_⟩
  intro c f rest text intent s hord htext hparse hns hnot
  obtain ⟨hreject, hbypass⟩ :=
    first_turn_of_fails (c := c) (fails_of_not_advertised htext hparse hns hnot) s
  have hmode : ∀ m : OnUnenforceable, advertisedMode g.capabilitiesDocument = some m.word →
      g.onUnenforceable = m := fun m hm => by
    rw [advertisedMode_document] at hm
    exact onUnenforceableWord_injective (Option.some.inj hm)
  refine ⟨fun hm => ?_, fun hm r hr => ?_⟩
  · obtain ⟨e, hunenforced, hturn⟩ := hreject (hmode .reject hm)
    refine ⟨e, ?_, hunenforced⟩
    rw [answer_eq, hord, Prog.lift_ok_bind, Prog.bind_of_error (Prog.mapAccum_cons_of_error hturn)]
  · obtain ⟨vars, st, hturn, hout, hretention⟩ := hbypass (hmode .bypass hm)
    obtain ⟨ordered, t, hord', hloop⟩ := loop_of_answer hr
    cases hord.symm.trans hord'
    rw [Prog.mapAccum_cons_of_ok hturn] at hloop
    obtain ⟨statuses, u, -, hpure⟩ := Prog.bind_eq_ok_iff.mp hloop
    have hstatuses : st :: statuses = r.statuses := Except.ok.inj (Prod.mk.inj hpure).1
    exact ⟨st, by rw [← hstatuses]; rfl, hout, hretention⟩

section

attribute [local instance] reference

def boundedCall : Call :=
  sampleCall alice 0
    [sampleFragment "a" (some (intentText (.allow (some 60)) "exact" "tenant")) none]

/-- A salt cannot bound how long state is kept, and the document says so. -/
theorem not_advertised_refused_boundedCall : ∃ document e,
    loadsStrict (Json.dumps .default (saltOnlyGateway .reject).capabilitiesDocument) =
        .ok document ∧
      (saltOnlyGateway .reject).answer boundedCall ∅ = (.error e, ∅) ∧ Unenforced e := by
  obtain ⟨document, hread, -, h⟩ :=
    not_advertised_refused floatsReadBack_reference (saltOnlyGateway .reject)
  obtain rfl : (saltOnlyGateway .reject).capabilitiesDocument = document :=
    Except.ok.inj ((loadsStrict_document floatsReadBack_reference _).symm.trans hread)
  have hparse : ((parseCacheIntent (intentText (.allow (some 60)) "exact" "tenant")).toOption.map
      fun intent => (intent.constraints.ns, advertises
        (saltOnlyGateway .reject).capabilitiesDocument intent.constraints)) =
          some (none, false) := by decide +kernel
  obtain ⟨intent, hintent, hpair⟩ := Option.map_eq_some_iff.mp hparse
  obtain ⟨hns, hnot⟩ := Prod.mk.inj hpair
  obtain ⟨e, he, hunenforced⟩ := (h boundedCall _ [] _ intent ∅ rfl rfl
    (toOption_eq_some_iff.mp hintent) (fun c hc n hn => by
      rw [List.mem_singleton.mp hc, hns] at hn
      cases hn) hnot).1 (by rw [advertisedMode_document]; rfl)
  exact ⟨_, e, hread, he, hunenforced⟩

end

/-- Requests that keep to the advertised constraints are answered alike by a gateway
that rejects and one that bypasses.  No constraint is ever refused, and the code says so
exactly where ids, or names within an intent, are repeated. -/
theorem advertised_never_refused [Runtime] {σ : Type} (hfloat : Json.FloatsReadBack Runtime.Float)
    (b : Backend σ) (hb : b.RaisesNoIntentError) (mode : OnUnenforceable) {document : Value}
    (hdocument : loadsStrict (Json.dumps .default (⟨b, mode⟩ : Gateway σ).capabilitiesDocument) =
      .ok document)
    {body : Str} {members : List (Str × Value)} {fragments : List Fragment}
    (hread : readBody body = .ok (members, fragments)) (hkeeps : KeepsTo document fragments)
    (auth : AuthContext) (now : Time) (requestId : Str) (s : σ) :
    prepare (⟨b, .reject⟩ : Gateway σ) body auth now requestId s =
        prepare (⟨b, .bypass⟩ : Gateway σ) body auth now requestId s ∧
      (∀ code cause, (prepare (⟨b, mode⟩ : Gateway σ) body auth now requestId s).1 =
        .ok (.rejected code cause) → ¬ Unenforced cause) ∧
      ((∃ cause, (prepare (⟨b, mode⟩ : Gateway σ) body auth now requestId s).1 =
          .ok (.rejected .unenforceable cause)) ↔
        RepeatsId (((elements members).map Element.id).filter fun v => ¬isNull v) ∨
          ∃ v ∈ (⟨b, mode⟩ : Gateway σ).trace [callFor fragments auth now requestId] s,
            v.item.RepeatsName) ∧
      (Json.Scalars body → ∀ f ∈ fragments, ¬f.RepeatsName) := by
  obtain rfl : (⟨b, mode⟩ : Gateway σ).capabilitiesDocument = document :=
    Except.ok.inj ((loadsStrict_document hfloat _).symm.trans hdocument)
  refine ⟨congrFun (prepare_eq_of_keepsTo hread hkeeps auth now requestId) s,
    fun code cause hrejected => ?_, ⟨?_, fun hrepeats => ?_⟩,
    fun hbody f hf => not_repeatsName hfloat hbody hread hf⟩
  · rcases (causes_of_keepsTo hb hread hkeeps hrejected).2 with
      hids | ⟨v, -, -, text, -, hparse⟩ | hnot
    · exact not_unenforced_of_checkIds hids
    · exact not_unenforced_of_parse hparse
    · exact not_unenforced_of_notIntentError hnot
  · rintro ⟨cause, hrejected⟩
    obtain ⟨hcode, hcause⟩ := causes_of_keepsTo hb hread hkeeps hrejected
    rcases hcause with hids | ⟨v, hv, hitem, hunread⟩ | hnot
    · exact .inl (repeatsId_of_checkIds hread hids hcode)
    · rcases cause_of_unread hfloat hread hitem hunread with hname | ⟨n, rfl, -⟩ | hnot
      · exact .inr ⟨v, hv, hname⟩
      · cases hcode
      · cases hcode.trans (handleErrorCode_of_not hnot)
    · cases hcode.trans (handleErrorCode_of_not hnot)
  · obtain ⟨cause, hrejected, -⟩ := rejected_of_repeats hread hrepeats
    exact ⟨cause, hrejected⟩

section

attribute [local instance] reference

def keepsToBool (document : Value) (fragments : List Fragment) : Bool :=
  fragments.all fun f => (f.intentJson.bind fun text => (parseCacheIntent text).toOption).all
    fun intent => advertises document intent.constraints

theorem keepsTo_of_bool {document : Value} {fragments : List Fragment}
    (h : keepsToBool document fragments = true) : KeepsTo document fragments := by
  intro f hf text intent htext hparse
  have hall := List.all_eq_true.mp h f hf
  rw [htext, Option.bind_some, hparse] at hall
  exact hall

/-- Both intents are advertised, but they have one id. -/
theorem advertised_never_refused_repeatingBody :
    ∃ members fragments, readBody repeatingBody = .ok (members, fragments) ∧
      prepare (saltOnlyGateway .reject) repeatingBody alice (0 : ℕ) (lit "req-1") ∅ =
        prepare (saltOnlyGateway .bypass) repeatingBody alice (0 : ℕ) (lit "req-1") ∅ ∧
      (∀ code cause, (prepare (saltOnlyGateway .reject) repeatingBody alice (0 : ℕ)
        (lit "req-1") ∅).1 = .ok (.rejected code cause) → ¬ Unenforced cause) ∧
      ((∃ cause, (prepare (saltOnlyGateway .reject) repeatingBody alice (0 : ℕ)
          (lit "req-1") ∅).1 = .ok (.rejected .unenforceable cause)) ↔
        RepeatsId (((elements members).map Element.id).filter fun v => ¬isNull v) ∨
          ∃ v ∈ (saltOnlyGateway .reject).trace [callFor fragments alice (0 : ℕ) (lit "req-1")] ∅,
            v.item.RepeatsName) ∧
      (Json.Scalars repeatingBody → ∀ f ∈ fragments, ¬f.RepeatsName) := by
  obtain ⟨members, fragments, hread, -⟩ :=
    exists_readable (show isReadable repeatingBody = true by decide +kernel)
  have hkeeps : ((readBody repeatingBody).toOption.map fun r =>
      keepsToBool (saltOnlyGateway .reject).capabilitiesDocument r.2) = some true := by
    decide +kernel
  rw [hread] at hkeeps
  exact ⟨members, fragments, hread, advertised_never_refused floatsReadBack_reference
    saltOnlyBackend (Shipped.saltOnly saltOnlyBackend.capabilities).raisesNoIntentError .reject
    (loadsStrict_document floatsReadBack_reference _) hread
    (keepsTo_of_bool (Option.some.inj hkeeps)) alice (0 : ℕ) (lit "req-1") ∅⟩

end

/-! ## Hints -/

section

variable [Runtime] {σ : Type} {g : Gateway σ} {c : Call} {vars vars' : LoopVars} {f : Fragment}
  {s t : σ} {st : FragmentStatus} {fragments : List Fragment} {text : Str} {intent : Intent}

theorem hints_of_turn (hturn : g.turn c vars f s = (.ok (vars', st), t))
    (htext : f.intentJson = some text) (hparse : parseCacheIntent text = .ok intent) :
    st.hints = hintStatus g.backend.capabilities intent.hints := by
  unfold Gateway.turn Gateway.handleFragment at hturn
  obtain ⟨entered, hentered, hturn⟩ := Prog.lift_bind_eq_ok_iff.mp hturn
  unfold enter at hentered
  dsimp only at hentered
  rw [htext] at hentered
  obtain ⟨intent', hintent', hentered⟩ := bind_eq_ok_iff.mp hentered
  cases hparse.symm.trans hintent'
  obtain ⟨eff, -, hentered⟩ := bind_eq_ok_iff.mp hentered
  cases hentered
  dsimp only at hturn
  cases hcheck : checkEnforceable g.backend.capabilities eff with
  | ok u =>
      simp only [hcheck] at hturn
      obtain ⟨o, a, w, r, -, -, -, rfl⟩ := serve_eq_ok hturn
      rfl
  | error e =>
      simp only [hcheck] at hturn
      split at hturn
      · cases hturn
      · cases hturn
        rfl

theorem hints_of_answer {r : Result} (h : (g.answer c s).1 = .ok r)
    (hord : c.ordered = .ok fragments) {k : ℕ} (hf : fragments[k]? = some f)
    (htext : f.intentJson = some text) (hparse : parseCacheIntent text = .ok intent) :
    ∃ st, r.statuses[k]? = some st ∧
      st.hints = hintStatus g.backend.capabilities intent.hints := by
  obtain ⟨hlt, rfl⟩ := List.getElem?_eq_some_iff.mp hf
  have htake : fragments.take k ++ [fragments[k]] <+: fragments := by
    rw [← List.take_succ_eq_append_getElem hlt]
    exact List.take_prefix _ _
  obtain ⟨v, hv, hsent, st, hst, hat⟩ := event_of_answer h hord htake
  have hitem : v.item = fragments[k] := List.singleton_inj.mp (List.append_inj' hsent rfl).2
  have hcall := (mem_trace_single.mp hv).2.2
  rw [List.length_take, min_eq_left hlt.le] at hat
  refine ⟨st, hat, ?_⟩
  unfold Event.status Prog.Visit.emits at hst
  rcases hturn : g.turn v.call v.acc v.item v.state with ⟨e | ⟨vars', st'⟩, t⟩
  · simp [hturn] at hst
  · rw [hturn, Option.some.injEq] at hst
    subst hst
    rw [hitem] at hturn
    exact hints_of_turn hturn htext hparse

theorem hints_of_finish {members upstream : List (Str × Value)} {auth : AuthContext}
    {requestId : Str} {r result : Result}
    (h : finish g.backend members auth requestId r = .ok (.accepted upstream result)) :
    result.statuses.map FragmentStatus.hints = r.statuses.map FragmentStatus.hints := by
  cases finished_of_finish h with
  | unsalted _ => rfl
  | salted saltFor status governed salt =>
      rw [List.map_map]
      refine List.map_congr_left fun st _ => ?_
      rw [Function.comp_apply]
      split
      · unfold lowerStatus
        split <;> rfl
      · rfl

/-- What is reported of a hint, told from the maximum that is advertised. -/
def hintOutcome (maximum value : Option ℕ) : Option HintOutcome :=
  match value, maximum with
  | some value, some maximum => some (if value > maximum then .clipped else .accepted)
  | _, _ => none

theorem hintStatus_eq (hints : Hints) :
    (hintStatus g.backend.capabilities hints).reuseWithin =
      hintOutcome (advertisedMaximum g.capabilitiesDocument) hints.reuseWithin := by
  rw [advertisedMaximum_document]
  unfold hintStatus hintOutcome
  cases hints.reuseWithin with
  | none => rfl
  | some value => cases g.backend.capabilities.reuseWithinMax <;> rfl

end

/-- A client can tell from the document what will be reported of the hint of every
element: nothing without a maximum, and `clipped` exactly above it. -/
theorem hints_as_advertised [Runtime] {σ : Type} (hfloat : Json.FloatsReadBack Runtime.Float)
    (g : Gateway σ) {document : Value}
    (hdocument : loadsStrict (Json.dumps .default g.capabilitiesDocument) = .ok document)
    {body requestId : Str} {auth : AuthContext} {now : Time} {s t : σ}
    {upstream : List (Str × Value)} {result : Result}
    (h : prepare g body auth now requestId s = (.ok (.accepted upstream result), t)) :
    ∃ members fragments, readBody body = .ok (members, fragments) ∧
      ∀ (k : ℕ) (f : Fragment) (text : Str) (intent : Intent), fragments[k]? = some f →
        f.intentJson = some text → parseCacheIntent text = .ok intent →
        ∃ st : FragmentStatus, result.statuses[k]? = some st ∧
          st.hints.reuseWithin =
            hintOutcome (advertisedMaximum document) intent.hints.reuseWithin := by
  obtain rfl : g.capabilitiesDocument = document :=
    Except.ok.inj ((loadsStrict_document hfloat g).symm.trans hdocument)
  obtain ⟨members, fragments, r, hread, hanswer, hfinish⟩ := handled_of_accepted h
  have hanswer := congrArg Prod.fst hanswer
  refine ⟨members, fragments, hread, fun k f text intent hf htext hparse => ?_⟩
  obtain ⟨st, hst, hhints⟩ := hints_of_answer hanswer (ordered_callFor hanswer) hf htext hparse
  have hat := congrArg (fun hints => hints[k]?) (hints_of_finish hfinish)
  rw [List.getElem?_map, List.getElem?_map, hst, Option.map_some] at hat
  obtain ⟨st', hst', hsame⟩ := Option.map_eq_some_iff.mp hat
  exact ⟨st', hst', by rw [hsame, hhints, hintStatus_eq]⟩

section

attribute [local instance] reference

theorem hints_as_advertised_chatBody : ∃ upstream result t,
    prepare (inMemoryGateway .bypass) chatBody alice (0 : ℕ) (lit "req-1") ∅ =
        (.ok (.accepted upstream result), t) ∧
      ∃ members fragments, readBody chatBody = .ok (members, fragments) ∧
        ∀ (k : ℕ) (f : Fragment) (text : Str) (intent : Intent), fragments[k]? = some f →
          f.intentJson = some text → parseCacheIntent text = .ok intent →
          ∃ st : FragmentStatus, result.statuses[k]? = some st ∧
            st.hints.reuseWithin =
              hintOutcome (advertisedMaximum (inMemoryGateway .bypass).capabilitiesDocument)
                intent.hints.reuseWithin := by
  obtain ⟨upstream, result, t, h⟩ := exists_accepted
    (show isAccepted (prepare (inMemoryGateway .bypass) chatBody alice (0 : ℕ)
      (lit "req-1") ∅).1 = true by decide +kernel)
  exact ⟨upstream, result, t, h, hints_as_advertised floatsReadBack_reference
    (inMemoryGateway .bypass) (loadsStrict_document floatsReadBack_reference _) h⟩

end

end CacheControl

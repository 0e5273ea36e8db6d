import CacheControl.Acceptance
import CacheControl.Elements
import CacheControl.Memory

/-!
# Where an intent may stand

An intent on an element of `tools` or `messages` is read, composed and stripped, and
one on a content part is refused.  One at the top level of a body is neither read
nor stripped.
-/

open PyText

namespace CacheControl

section

variable [Runtime] {σ : Type} {g : Gateway σ} {members : List (Str × Value)}
  {fragments : List Fragment} {upstream : List (Str × Value)} {result : Result}

/-! ## Upstream -/

/-- No content part of a message carries an intent. -/
def PartsBare (members : List (Str × Value)) : Prop :=
  ∀ item content, Json.obj item ∈ elementsOf .message members →
    Json.get? (lit "content") item = some (.arr content) → ∀ part ∈ content, ¬ carriesIntent part

/-- Nothing that is read as an intent, and nothing that could be taken for one. -/
structure Intentless (members : List (Str × Value)) : Prop where
  top : ¬ Json.has cacheIntentName members
  elements : ∀ kind, ∀ v ∈ elementsOf kind members, ¬ carriesIntent v
  parts : PartsBare members

def saltMember (salt : Option Str) : List (Str × Value) :=
  salt.toList.map fun salt => (lit "cache_salt", .str salt)

/-- The salt goes behind what is left of the body. -/
theorem upstream_of_finish {auth : AuthContext} {requestId : Str} {r : Result}
    (hnames : (members.map Prod.fst).Nodup)
    (h : finish g.backend members auth requestId r = .ok (.accepted upstream result)) :
    upstream = onElements stripItem (unscoped members) ++ saltMember result.cacheSalt := by
  rw [← stripBindingMembers_eq hnames]
  cases finished_of_finish h with
  | unsalted _ => exact (List.append_nil _).symm
  | salted saltFor status governed salt => exact Json.set_of_notMem (cacheSalt_notMem members) _

theorem elementsOf_of_finish {auth : AuthContext} {requestId : Str} {r : Result}
    (h : finish g.backend members auth requestId r = .ok (.accepted upstream result))
    (kind : FragmentKind) : elementsOf kind upstream = (elementsOf kind members).map stripItem := by
  have hne : kind.array ≠ lit "cache_salt" := by cases kind <;> decide +kernel
  rw [← elementsOf_stripBindingMembers]
  cases finished_of_finish h with
  | unsalted _ => rfl
  | salted saltFor status governed salt => exact elementsOf_set hne

theorem not_carriesIntent_stripItem (v : Value) : ¬ carriesIntent (stripItem v) := by
  cases v with
  | obj item =>
      have hnone : Json.get? cacheIntentName (visible item) = none := by
        refine Json.get?_eq_none_iff.mpr fun m hm => ?_
        have hname := (List.mem_filter.mp hm).2
        simp only [decide_eq_true_eq] at hname
        exact hname.1
      have hhas : Json.has cacheIntentName (visible item) = false := by rw [Json.has, hnone]; rfl
      show ¬ Json.has cacheIntentName (visible item)
      simp [hhas]
  | _ => exact Bool.false_ne_true

theorem PartsBare.of_strip (h : PartsBare members)
    (helements : elementsOf .message upstream = (elementsOf .message members).map stripItem) :
    PartsBare upstream := by
  intro item content hitem hget
  rw [helements] at hitem
  obtain ⟨v, hv, hstrip⟩ := List.mem_map.mp hitem
  cases v with
  | obj original =>
      obtain rfl : visible original = item := Json.obj.inj hstrip
      rw [get?_content_visible] at hget
      exact h original content hv hget
  | _ => cases hstrip

theorem partsBare_of_makes (h : List.Forall₂ Makes (elements members) fragments) :
    PartsBare members := by
  intro item content hitem hget part hpart
  obtain ⟨e, he, hkind, hvalue⟩ := exists_element hitem
  obtain ⟨i, hi⟩ := List.mem_iff_getElem?.mp he
  obtain ⟨f, -, item', hitem', hcheck, -⟩ := exists_made h hi
  cases hvalue.symm.trans hitem'
  rw [hkind] at hcheck
  change rejectContentPartIntents item e.index = .ok () at hcheck
  unfold rejectContentPartIntents at hcheck
  rw [hget] at hcheck
  dsimp only at hcheck
  cases hfind : content.findIdx? carriesIntent with
  | some i => rw [hfind] at hcheck; cases hcheck
  | none => simp [List.findIdx?_eq_none_iff.mp hfind part hpart]

/-! ## The policies -/

/-- The status reports the policy, shared no more widely than it permits. -/
structure ReportsPolicy (st : FragmentStatus) (eff : Effective) : Prop where
  reuse : st.effectiveReuse = some eff.reuse
  mode : st.effectiveRetentionMode = some eff.retention.mode
  identity : st.namespaceIdentity = eff.namespaceIdentity
  share : st.effectiveShare ≤ eff.shareMax

/-- The constraints are part of the policy of every fragment from `k` on. -/
def Binds (fragments : List Fragment) (statuses : List FragmentStatus) (k : ℕ)
    (constraints : Constraints) : Prop :=
  ∀ j, k ≤ j → j < fragments.length → ∃ cs eff st,
    constraintsOf (fragments.take (j + 1)) = some cs ∧ constraints ∈ cs ∧ Composes cs eff ∧
      statuses[j]? = some st ∧ ReportsPolicy st eff

omit [Runtime] in
theorem foldl_min_le {a x : Share} {l : List Share} (h : x ∈ a :: l) : l.foldl min a ≤ x :=
  (isLeast_foldl_min a l).2 h

theorem narrowestShare_le {status st : FragmentStatus} {governed : List FragmentStatus}
    (h : st ∈ status :: governed) : narrowestShare status governed ≤ st.effectiveShare := by
  unfold narrowestShare
  split
  · exact Share.request_le _
  · refine foldl_min_le ?_
    rw [← List.map_cons]
    exact List.mem_map_of_mem h

theorem reportsPolicy_of_finish {auth : AuthContext} {requestId : Str} {r : Result}
    (h : finish g.backend members auth requestId r = .ok (.accepted upstream result))
    {p : List Fragment} {st : FragmentStatus} {eff : Effective} (hgoverns : Governs g p st eff)
    {j : ℕ} (hat : r.statuses[j]? = some st) :
    ∃ st', result.statuses[j]? = some st' ∧ ReportsPolicy st' eff := by
  cases finished_of_finish h with
  | unsalted _ =>
      exact ⟨st, hat, hgoverns.reuse, hgoverns.mode, hgoverns.identity, hgoverns.share.le⟩
  | salted saltFor status governed salt _ hfilter =>
      have hmem : st ∈ status :: governed := by
        rw [← hfilter, List.mem_filter]
        exact ⟨List.mem_of_getElem? hat, hgoverns.isGoverned⟩
      have hle := narrowestShare_le hmem
      rw [hgoverns.share] at hle
      refine ⟨lowerStatus (narrowestShare status governed) st, ?_, ?_⟩
      · rw [List.getElem?_map, hat, Option.map_some, if_pos hgoverns.isGoverned]
      · unfold lowerStatus
        split
        · rename_i hrequest
          exact ⟨hgoverns.reuse, hgoverns.mode, hgoverns.identity, Share.request_le _⟩
        · exact ⟨hgoverns.reuse, hgoverns.mode, hgoverns.identity, hle⟩

theorem binds_of_answer {c : Call} {s : σ} {r : Result} (h : (g.answer c s).1 = .ok r)
    (hord : c.ordered = .ok fragments) {auth : AuthContext} {requestId : Str}
    (hfinish : finish g.backend members auth requestId r = .ok (.accepted upstream result))
    {k : ℕ} {f : Fragment} (hf : fragments[k]? = some f) {text : Str}
    (htext : f.intentJson = some text) {intent : Intent}
    (hparse : parseCacheIntent text = .ok intent) :
    Binds fragments result.statuses k intent.constraints := by
  intro j hkj hj
  have hreported := reported_of_answer h hord
  have hmem : f ∈ fragments.take (j + 1) := by
    obtain ⟨hlt, rfl⟩ := List.getElem?_eq_some_iff.mp hf
    exact List.mem_take_iff_getElem.mpr ⟨k, by omega, rfl⟩
  have hj' : j < r.statuses.length := hreported.length_eq ▸ hj
  obtain ⟨-, -, ⟨hbare, -⟩ | ⟨eff, hgoverns⟩⟩ :=
    hreported.at_position (List.getElem?_eq_getElem hj')
  · cases htext.symm.trans (constraintsOf_ne_nil hbare f hmem)
  · obtain ⟨cs, hcs, hcomposes⟩ := composes_of_policy hgoverns.policy
    obtain ⟨st, hst, hpolicy⟩ := reportsPolicy_of_finish hfinish hgoverns
      (List.getElem?_eq_getElem hj')
    exact ⟨cs, eff, st, hcs, (mem_constraintsOf hcs).mpr ⟨f, hmem, text, intent, htext, hparse, rfl⟩,
      hcomposes, hst, hpolicy⟩

/-! ## Bodies -/

/-- Upstream sees no intent; the body has none that nothing reads; every intent it has
binds its fragment and all later ones; and all other members are passed on in order. -/
structure NothingDropped (members : List (Str × Value)) (fragments : List Fragment)
    (upstream : List (Str × Value)) (result : Result) : Prop where
  intentless : Intentless upstream
  top : ¬ Json.has cacheIntentName members
  parts : PartsBare members
  honoured : ∀ k e item v, (elements members)[k]? = some e → e.value = .obj item →
    Json.get? cacheIntentName item = some v → ∃ intent,
      parseCacheIntent (intentDocument v) = .ok intent ∧
        Binds fragments result.statuses k intent.constraints
  others : Json.erase cacheIntentName upstream =
    onElements stripItem (Json.erase cacheIntentName (unscoped members)) ++
      saltMember result.cacheSalt

theorem erase_onElements (f : Value → Value) (key : Str) (members : List (Str × Value)) :
    Json.erase key (onElements f members) = onElements f (Json.erase key members) := by
  unfold Json.erase onElements
  rw [List.filter_map]
  rfl

theorem not_has_iff {key : Str} {members : List (Str × Value)} :
    ¬ Json.has key members ↔ key ∉ members.map Prod.fst := by
  rw [Json.has, Bool.not_eq_true, Option.isSome_eq_false_iff, Option.isNone_iff_eq_none,
    Json.get?_eq_none_iff, List.mem_map, not_exists]
  exact forall_congr' fun m => not_and.symm

omit [Runtime] in
theorem cacheIntentName_ne_salt : cacheIntentName ≠ lit "cache_salt" := by decide +kernel

theorem erase_saltMember (salt : Option Str) :
    Json.erase cacheIntentName (saltMember salt) = saltMember salt := by
  cases salt with
  | none => rfl
  | some salt =>
      refine List.filter_eq_self.mpr fun m hm => ?_
      rw [List.mem_singleton.mp hm]
      exact decide_eq_true cacheIntentName_ne_salt.symm

theorem not_has_upstream {upstream : List (Str × Value)} {salt : Option Str}
    (h : upstream = onElements stripItem (unscoped members) ++ saltMember salt)
    (htop : ¬ Json.has cacheIntentName members) : ¬ Json.has cacheIntentName upstream := by
  rw [not_has_iff] at htop ⊢
  rw [h, List.map_append, names_onElements, List.mem_append]
  rintro (hmem | hmem)
  · exact htop ((List.filter_sublist.map _).subset hmem)
  · obtain ⟨m, hm, heq⟩ := List.mem_map.mp hmem
    obtain ⟨salt, -, rfl⟩ := List.mem_map.mp hm
    exact cacheIntentName_ne_salt heq.symm

end

/-- Nothing is dropped exactly where the body has no intent at its top level. -/
theorem nothing_dropped_iff [Runtime] {σ : Type} (g : Gateway σ) {body requestId : Str}
    {auth : AuthContext} {now : Time} {s t : σ} {upstream : List (Str × Value)} {result : Result}
    (h : prepare g body auth now requestId s = (.ok (.accepted upstream result), t)) :
    ∃ members fragments, readBody body = .ok (members, fragments) ∧
      (NothingDropped members fragments upstream result ↔
        ¬ Json.has cacheIntentName members) := by
  obtain ⟨members, fragments, r, hread, hanswer, hfinish⟩ := handled_of_accepted h
  obtain ⟨hload, hmakes⟩ := makes_of_readBody hread
  have hanswer := congrArg Prod.fst hanswer
  have hord := ordered_callFor hanswer
  have hnames := (Json.distinct_obj_iff.mp (distinct_of_loadsStrict hload)).1
  have hupstream := upstream_of_finish hnames hfinish
  have helements := elementsOf_of_finish hfinish
  have hparts := partsBare_of_makes hmakes
  refine ⟨members, fragments, hread, fun hnothing => hnothing.top, fun htop => ?_⟩
  refine ⟨⟨?_, ?_, hparts.of_strip (helements .message)⟩, htop, hparts, ?_, ?_⟩
  · exact not_has_upstream hupstream htop
  · intro kind v hv
    rw [helements] at hv
    obtain ⟨w, -, rfl⟩ := List.mem_map.mp hv
    exact not_carriesIntent_stripItem w
  · intro k e item v he hitem hv
    obtain ⟨f, hf, item', hitem', -, rfl⟩ := exists_made hmakes he
    cases hitem.symm.trans hitem'
    have htext : (fragmentOf e.kind e.index item).intentJson = some (intentDocument v) := by
      rw [fragmentOf, hv]
      rfl
    obtain ⟨intent, hparse⟩ := parsed_of_answer hanswer hord (List.mem_of_getElem? hf) htext
    exact ⟨intent, hparse, binds_of_answer hanswer hord hfinish hf htext hparse⟩
  · have happend : ∀ xs ys : List (Str × Value), Json.erase cacheIntentName (xs ++ ys) =
        Json.erase cacheIntentName xs ++ Json.erase cacheIntentName ys :=
      fun _ _ => List.filter_append ..
    rw [hupstream, happend, erase_onElements, erase_saltMember]

section

attribute [local instance] reference

/-- The body of a request whose only intent stands at the top level. -/
def topLevelBody : Str :=
  Json.dumps .default (.obj
    [(cacheIntentName, intentValue .forbid "none" "request"),
      (lit "messages", .arr [.obj [(lit "content", .str (lit "hi"))]])])

theorem nothing_dropped_iff_chatBody : ∃ upstream result t,
    prepare (inMemoryGateway .bypass) chatBody alice (0 : ℕ) (lit "req-1") ∅ =
        (.ok (.accepted upstream result), t) ∧
      ∃ members fragments, readBody chatBody = .ok (members, fragments) ∧
        (NothingDropped members fragments upstream result ↔
          ¬ Json.has cacheIntentName members) := by
  obtain ⟨upstream, result, t, h⟩ := exists_accepted
    (show isAccepted (prepare (inMemoryGateway .bypass) chatBody alice (0 : ℕ)
      (lit "req-1") ∅).1 = true by decide +kernel)
  exact ⟨upstream, result, t, h, nothing_dropped_iff (inMemoryGateway .bypass) h⟩

def forwardsIntent : Except PyError Prepared → Bool
  | .ok (.accepted upstream _) => Json.has cacheIntentName upstream
  | _ => false

/-- An intent that forbids everything is neither enforced nor kept from upstream. -/
theorem not_nothing_dropped :
    ¬ ∀ (mode : OnUnenforceable) (body : Str) (s t : Entries) (members : List (Str × Value))
      (fragments : List Fragment) (upstream : List (Str × Value)) (result : Result),
      readBody body = .ok (members, fragments) →
        prepare (inMemoryGateway mode) body alice (0 : ℕ) (lit "req-1") s =
          (.ok (.accepted upstream result), t) →
            NothingDropped members fragments upstream result := by
  intro h
  obtain ⟨upstream, result, t, hprepare⟩ := exists_accepted
    (show isAccepted (prepare (inMemoryGateway .bypass) topLevelBody alice (0 : ℕ)
      (lit "req-1") ∅).1 = true by decide +kernel)
  obtain ⟨members, fragments, r, hread, -, -⟩ := handled_of_accepted hprepare
  have hnothing := h .bypass topLevelBody ∅ t members fragments upstream result hread hprepare
  have hforwards : forwardsIntent (prepare (inMemoryGateway .bypass) topLevelBody alice (0 : ℕ)
      (lit "req-1") ∅).1 = true := by decide +kernel
  rw [hprepare] at hforwards
  exact hnothing.intentless.top hforwards

end

end CacheControl

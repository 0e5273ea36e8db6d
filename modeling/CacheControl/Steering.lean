import CacheControl.Elements
import CacheControl.Lowering
import CacheControl.Reference

/-!
# Scope members cannot steer the gateway

Two bodies that differ only in the scope members they write, at the top level or
on an element of `tools` or `messages`, are one request to the gateway.
-/

open PyText

namespace CacheControl

section

variable [Runtime] {σ : Type}

/-- The body without its scope members, at the top level and on every element. -/
def withoutScopes (members : List (Str × Value)) : List (Str × Value) :=
  onElements (onObject unscoped) (unscoped members)

theorem stripItem_comp_unscoped : stripItem ∘ onObject unscoped = stripItem := by
  funext v
  cases v with
  | obj item =>
      simp only [Function.comp_apply, onObject, stripItem, unscoped, List.filter_filter]
      congr 2
      funext m
      by_cases hm : m.1 ∈ untrustedScopeFields <;> simp [hm]
  | _ => rfl

theorem distinct_withoutScopes {members : List (Str × Value)} (h : (Json.obj members).Distinct) :
    (Json.obj (withoutScopes members)).Distinct := by
  refine distinct_onElements (fun v hv => ?_) (distinct_filter h _)
  cases v with
  | obj item => exact distinct_filter hv _
  | _ => exact hv

theorem stripBindingMembers_withoutScopes {members : List (Str × Value)}
    (h : (Json.obj members).Distinct) :
    (stripBindingMembers members).1 = onElements stripItem (withoutScopes members) := by
  rw [stripBindingMembers_eq (Json.distinct_obj_iff.mp h).1, withoutScopes, onElements_onElements,
    stripItem_comp_unscoped]

theorem get?_unscoped {key : Str} (hkey : key ∉ untrustedScopeFields)
    (members : List (Str × Value)) :
    Json.get? key (unscoped members) = Json.get? key members := by
  have hfilter := Json.get?_filter (fun k => k ∉ untrustedScopeFields) hkey members
  exact hfilter

theorem names_unscoped {members : List (Str × Value)} (h : (Json.obj members).Distinct) :
    ((unscoped members).map Prod.fst).Nodup :=
  (Json.distinct_obj_iff.mp (distinct_filter h _)).1

theorem visible_eq (item : List (Str × Value)) :
    visible item = (unscoped item).filter fun m => m.1 ≠ cacheIntentName := by
  unfold visible unscoped
  rw [List.filter_filter]
  congr 1
  funext m
  simp

omit [Runtime] in
theorem notMem_untrusted : cacheIntentName ∉ untrustedScopeFields ∧
    lit "content" ∉ untrustedScopeFields := by
  decide +kernel

/-! ## Elements -/

/-- Objects that are equal, up to the order of members, without their scope
members. -/
structure SameUnscoped (item item' : List (Str × Value)) : Prop where
  left : (Json.obj item).Distinct
  right : (Json.obj item').Distinct
  same : Json.sortedObj (unscoped item) = Json.sortedObj (unscoped item')

theorem SameUnscoped.get? {item item' : List (Str × Value)} (h : SameUnscoped item item')
    {key : Str} (hkey : key ∉ untrustedScopeFields) :
    (Json.get? key item).map Json.sorted = (Json.get? key item').map Json.sorted := by
  rw [← get?_unscoped hkey item, ← get?_unscoped hkey item',
    ← Json.get?_sortedObj (names_unscoped h.left), ← Json.get?_sortedObj (names_unscoped h.right),
    h.same]

theorem SameUnscoped.fragmentContent {item item' : List (Str × Value)}
    (h : SameUnscoped item item') (kind : FragmentKind) :
    fragmentContent item kind = fragmentContent item' kind := by
  have hvisible : ∀ item : List (Str × Value), (Json.obj item).Distinct →
      Json.sortedObj (visible item) =
        (Json.sortedObj (unscoped item)).filter fun m => m.1 ≠ cacheIntentName := fun item hd => by
    rw [visible_eq]
    exact Json.sortedObj_filter (names_unscoped hd) fun k => decide (k ≠ cacheIntentName)
  have hsort : Json.DumpOptions.canonical.sortKeys = true := rfl
  rw [fragmentContent_eq, fragmentContent_eq, ← Json.dumps_sorted hsort,
    ← Json.dumps_sorted hsort (.obj (visible item')), Json.sorted_obj, Json.sorted_obj,
    hvisible item h.left, hvisible item' h.right, h.same]

theorem carriesIntent_sorted {v : Value} (h : v.Distinct) :
    carriesIntent v.sorted = carriesIntent v := by
  cases v with
  | obj part =>
      rw [Json.sorted_obj, carriesIntent, carriesIntent,
        Json.has_sortedObj (Json.distinct_obj_iff.mp h).1]
  | _ => rfl

omit [Runtime] in
theorem findIdx?_congr {α : Type} {p q : α → Bool} {xs : List α} (h : ∀ x ∈ xs, p x = q x) :
    xs.findIdx? p = xs.findIdx? q := by
  induction xs with
  | nil => rfl
  | cons x xs ih =>
      rw [List.findIdx?_cons, List.findIdx?_cons, h x (by simp), ih fun y hy => h y (by simp [hy])]

/-- The first part of a content that carries an intent is refused. -/
def rejectParts (n : ℕ) : Option Value → Except PyError Unit
  | some (.arr content) =>
      match content.findIdx? carriesIntent with
      | some part => .error (.contentPartIntent n part)
      | none => .ok ()
  | _ => .ok ()

theorem rejectContentPartIntents_eq (item : List (Str × Value)) (n : ℕ) :
    rejectContentPartIntents item n = rejectParts n (Json.get? (lit "content") item) := by
  unfold rejectContentPartIntents
  cases Json.get? (lit "content") item with
  | none => rfl
  | some v => cases v <;> rfl

theorem rejectParts_sorted {content : Option Value} (h : ∀ v, content = some v → v.Distinct)
    (n : ℕ) : rejectParts n (content.map Json.sorted) = rejectParts n content := by
  cases content with
  | none => rfl
  | some v =>
      cases v with
      | arr parts =>
          have hparts := Json.distinct_arr_iff.mp (h _ rfl)
          have hfind : (parts.map Json.sorted).findIdx? carriesIntent =
              parts.findIdx? carriesIntent := by
            rw [List.findIdx?_map]
            exact findIdx?_congr fun v hv => carriesIntent_sorted (hparts v hv)
          rw [Option.map_some, Json.sorted_arr, rejectParts, rejectParts, hfind]
      | obj members =>
          rw [Option.map_some, Json.sorted_obj]
          rfl
      | null | bool | int | float | str => rfl

theorem rejectContentPartIntents_congr {item item' : List (Str × Value)}
    (hitem : (Json.obj item).Distinct) (hitem' : (Json.obj item').Distinct)
    (h : (Json.get? (lit "content") item).map Json.sorted =
      (Json.get? (lit "content") item').map Json.sorted) (n : ℕ) :
    rejectContentPartIntents item n = rejectContentPartIntents item' n := by
  rw [rejectContentPartIntents_eq, rejectContentPartIntents_eq,
    ← rejectParts_sorted (fun v hv => distinct_of_get? hitem hv), h,
    rejectParts_sorted fun v hv => distinct_of_get? hitem' hv]

/-- The intents written on two elements are equal up to the order of members. -/
theorem parsed_congr (hfloat : Json.FloatsReadBack Runtime.Float) {item item' : List (Str × Value)}
    (h : (Json.get? cacheIntentName item).map Json.sorted =
      (Json.get? cacheIntentName item').map Json.sorted) (kind : FragmentKind) (n : ℕ) :
    Prog.ExceptRel SameCode (IntentsAgree Eq) (fragmentOf kind n item).parsed
      (fragmentOf kind n item').parsed := by
  unfold Fragment.parsed fragmentOf
  generalize Json.get? cacheIntentName item = o at h ⊢
  generalize Json.get? cacheIntentName item' = o' at h ⊢
  cases o with
  | none =>
      cases o' with
      | none => exact .ok .bare
      | some v' => cases h
  | some v =>
      cases o' with
      | none => cases h
      | some v' =>
          have hparse := parse_intentDocument_congr hfloat (Option.some.inj h)
          exact hparse.map fun i i' heq => heq ▸ .carried rfl fun _ => rfl

theorem fragmentId_congr {item item' : List (Str × Value)} (hitem : (Json.obj item).Distinct)
    (hitem' : (Json.obj item').Distinct)
    (h : (Json.get? cacheIntentName item).map Json.sorted =
      (Json.get? cacheIntentName item').map Json.sorted) (kind : FragmentKind) (n : ℕ) :
    (fragmentId kind n (Json.get? cacheIntentName item)).sorted =
      (fragmentId kind n (Json.get? cacheIntentName item')).sorted := by
  have hnormal : ∀ item : List (Str × Value), (Json.obj item).Distinct →
      (fragmentId kind n (Json.get? cacheIntentName item)).sorted =
        fragmentId kind n ((Json.get? cacheIntentName item).map Json.sorted) := fun item hd => by
    cases hget : Json.get? cacheIntentName item with
    | none => rfl
    | some intent =>
        cases intent with
        | obj members =>
            have hnames := (Json.distinct_obj_iff.mp (distinct_of_get? hd hget)).1
            rw [Option.map_some, Json.sorted_obj, fragmentId, fragmentId,
              Json.get?_sortedObj hnames]
            cases Json.get? (lit "id") members <;> rfl
        | _ => rfl
  rw [hnormal item hitem, hnormal item' hitem', h]

/-- Identifiers that are equal up to the order of members. -/
def SameId (v v' : Value) : Prop := v.sorted = v'.sorted

theorem SameUnscoped.elements (hfloat : Json.FloatsReadBack Runtime.Float)
    {item item' : List (Str × Value)} (h : SameUnscoped item item') (kind : FragmentKind) :
    ElementsAgree SameCode SameId Eq kind (.obj item) (.obj item') := by
  have hintent := h.get? notMem_untrusted.1
  refine .object (fun n => ?_) (fun n => ⟨?_, h.fragmentContent kind, rfl, ?_⟩)
  · cases kind with
    | tool => rfl
    | message =>
        exact rejectContentPartIntents_congr h.left h.right (h.get? notMem_untrusted.2) n
  · exact fragmentId_congr h.left h.right hintent kind n
  · exact parsed_congr hfloat hintent kind n

/-! ## Bodies -/

/-- Bodies that are equal, up to the order of members, without their scope
members. -/
structure SameWithoutScopes (members members' : List (Str × Value)) : Prop where
  left : (Json.obj members).Distinct
  right : (Json.obj members').Distinct
  same : (Json.obj (withoutScopes members)).sorted = (Json.obj (withoutScopes members')).sorted

theorem SameWithoutScopes.arrays (hfloat : Json.FloatsReadBack Runtime.Float)
    {members members' : List (Str × Value)} (h : SameWithoutScopes members members')
    (kind : FragmentKind) : ArraysAgree (ElementsAgree SameCode SameId Eq kind)
      (Json.get? kind.array members) (Json.get? kind.array members') := by
  have hget : ∀ members : List (Str × Value),
      Json.get? kind.array (unscoped members) = Json.get? kind.array members :=
    get?_unscoped (array_notMem_untrusted kind)
  rw [← hget members, ← hget members']
  refine arraysAgree_of_onElements (fun v v' hv hv' heq => ?_) (distinct_filter h.left _)
    (distinct_filter h.right _) (sorted_obj_inj.mp h.same) kind
  exact elementsAgree_of_sorted (fun item item' hd hd' hsame =>
    SameUnscoped.elements hfloat ⟨hd, hd', hsame⟩ kind) hv hv' heq

theorem orderless_stripItem : Orderless stripItem :=
  orderless_filter fun k => decide (k ≠ cacheIntentName ∧ k ∉ untrustedScopeFields)

theorem SameWithoutScopes.upstream {members members' : List (Str × Value)}
    (h : SameWithoutScopes members members') :
    (Json.obj (stripBindingMembers members).1).sorted =
      (Json.obj (stripBindingMembers members').1).sorted := by
  rw [stripBindingMembers_withoutScopes h.left, stripBindingMembers_withoutScopes h.right,
    sorted_obj_inj]
  exact orderless_stripItem.sortedObj_congr (distinct_withoutScopes h.left)
    (distinct_withoutScopes h.right) (sorted_obj_inj.mp h.same)

/-! ## Identifiers -/

theorem hashable_sorted (v : Value) : hashable v.sorted = hashable v := by
  cases v <;> rfl

theorem sorted_of_hashable {v : Value} (h : hashable v) : v.sorted = v := by
  cases v with
  | arr items => cases h
  | obj members => cases h
  | _ => rfl

theorem checkIds_of_unhashable {fs : List Fragment} {f : Fragment} (hf : f ∈ fs)
    (h : ¬hashable f.id) : checkIds fs = .error .typeError := by
  have hnull : ¬isNull f.id := fun hnull => by
    cases hid : f.id with
    | null => exact h (by rw [hid]; rfl)
    | _ => rw [hid] at hnull; cases hnull
  have hany : (((fs.map Fragment.id).filter fun v => ¬isNull v).any fun v => ¬hashable v) = true :=
    List.any_eq_true.mpr ⟨f.id, List.mem_filter.mpr
      ⟨List.mem_map_of_mem hf, decide_eq_true hnull⟩, decide_eq_true h⟩
  rw [checkIds, if_pos hany]

theorem exists_unhashable_of_agree {fs fs' : List Fragment} {E : PyError → PyError → Prop}
    {K : HintStatus → HintStatus → Prop} (h : List.Forall₂ (FragmentsAgree E SameId K) fs fs')
    {f : Fragment} (hf : f ∈ fs) (hid : ¬hashable f.id) : ∃ f' ∈ fs', ¬hashable f'.id := by
  induction h with
  | nil => cases hf
  | @cons u u' us us' hu _ ih =>
      rcases List.mem_cons.mp hf with rfl | hf
      · exact ⟨u', by simp, by rwa [← hashable_sorted, ← hu.id, hashable_sorted]⟩
      · obtain ⟨f', hf', hid'⟩ := ih hf
        exact ⟨f', by simp [hf'], hid'⟩

/-! ## Prepared requests -/

/-- Upstream receives the same, up to the order of members, with the same result,
or both bodies are rejected under one code. -/
inductive SamePrepared : Prepared → Prepared → Prop
  | accepted {up up' : List (Str × Value)} (result : Result) :
      (Json.obj up).sorted = (Json.obj up').sorted →
      SamePrepared (.accepted up result) (.accepted up' result)
  | rejected (code : ErrorCode) (cause cause' : PyError) :
      SamePrepared (.rejected code cause) (.rejected code cause')

theorem samePrepared_of_agree {p p' : Prepared} (h : PreparedAgree Eq Eq p p') :
    SamePrepared p p' := by
  cases h with
  | accepted hup hresult =>
      rw [eq_of_resultsAgree hresult]
      exact .accepted _ hup
  | rejected code cause cause' => exact .rejected code cause cause'

theorem prepareFragments_same (g : Gateway σ) (auth : AuthContext) (now : Time) (requestId : Str)
    {members members' : List (Str × Value)} (h : SameWithoutScopes members members')
    {fs fs' : List Fragment} (hfs : List.Forall₂ (FragmentsAgree SameCode SameId Eq) fs fs') :
    Prog.Relates Eq Eq SamePrepared (prepareFragments g members fs auth now requestId)
      (prepareFragments g members' fs' auth now requestId) := by
  by_cases hhash : ∀ f ∈ fs, hashable f.id
  · have heq : List.Forall₂ (FragmentsAgree SameCode Eq Eq) fs fs' := by
      refine ((List.forall₂_and_left _ _).mpr ⟨hhash, hfs⟩).imp fun f f' hf => ?_
      obtain ⟨hid, hagree⟩ := hf
      have hid' : hashable f'.id := by rwa [← hashable_sorted, ← hagree.id, hashable_sorted]
      have hsame : f.id = f'.id := by
        rw [← sorted_of_hashable hid, hagree.id, sorted_of_hashable hid']
      exact ⟨hsame, hagree.content, hagree.approxClass, hagree.parsed⟩
    have hids : checkIds fs = checkIds fs' := by
      have hmap : fs.map Fragment.id = fs'.map Fragment.id := by
        rw [← List.forall₂_eq_eq_eq, List.forall₂_map_left_iff, List.forall₂_map_right_iff]
        exact heq.imp fun _ _ hagree => hagree.id
      rw [checkIds, hmap, ← checkIds]
    have hnames : ((stripBindingMembers members).1.map Prod.fst).Nodup := by
      rw [stripBindingMembers_eq (Json.distinct_obj_iff.mp h.left).1, names_onElements]
      exact names_unscoped h.left
    have hagree := prepareFragments_agree g auth now requestId rfl hnames h.upstream heq
      (hids ▸ Prog.exceptRel_refl sameCode_refl (fun _ => trivial) _)
    intro s t hst
    obtain ⟨hresult, hstate⟩ := hagree s t hst
    exact ⟨hresult.imp samePrepared_of_agree, hstate⟩
  · obtain ⟨f, hunhashable⟩ := not_forall.mp hhash
    obtain ⟨hf, hid⟩ := Classical.not_imp.mp hunhashable
    obtain ⟨f', hf', hid'⟩ := exists_unhashable_of_agree hfs hf hid
    rw [prepareFragments_of_checkIds_error g members (checkIds_of_unhashable hf hid),
      prepareFragments_of_checkIds_error g members' (checkIds_of_unhashable hf' hid')]
    exact Prog.relates_pure (.rejected _ _ _)

/-- Of the members that name a scope upstream receives the salt of the result at
the top level and none on an element. -/
structure Descoped (upstream : List (Str × Value)) (cacheSalt : Option Str) : Prop where
  top : ∀ m ∈ upstream, m.1 ∈ untrustedScopeFields →
    ∃ salt, cacheSalt = some salt ∧ m = (lit "cache_salt", .str salt)
  elements : ∀ kind item, Json.obj item ∈ elementsOf kind upstream → Unscoped item

theorem unscoped_of_mem_elementsOf {members : List (Str × Value)} {kind : FragmentKind}
    {item : List (Str × Value)}
    (h : Json.obj item ∈ elementsOf kind (stripBindingMembers members).1) : Unscoped item := by
  rw [elementsOf_stripBindingMembers] at h
  obtain ⟨v, -, hv⟩ := List.mem_map.mp h
  cases v with
  | obj item' =>
      cases hv
      intro m hm
      exact (of_decide_eq_true (List.mem_filter.mp hm).2).2
  | _ => cases hv

theorem descoped_of_finish {backend : Backend σ} {members upstream : List (Str × Value)}
    {auth : AuthContext} {requestId : Str} {r result : Result}
    (h : finish backend members auth requestId r = .ok (.accepted upstream result)) :
    Descoped upstream result.cacheSalt := by
  have hunscoped := unscoped_stripBindingMembers members
  cases finished_of_finish h with
  | unsalted _ =>
      exact ⟨fun m hm hscope => absurd hscope (hunscoped m hm),
        fun kind item hitem => unscoped_of_mem_elementsOf hitem⟩
  | salted saltFor status governed salt _ _ _ =>
      refine ⟨fun m hm hscope => ?_, fun kind item hitem => ?_⟩
      · rcases mem_set hm with rfl | hm
        · exact ⟨salt, rfl, rfl⟩
        · exact absurd hscope (hunscoped m hm)
      · rw [elementsOf_set (by cases kind <;> decide +kernel)] at hitem
        exact unscoped_of_mem_elementsOf hitem

/-- Bodies that differ only in scope members are answered alike and leave the same state,
and upstream gets no scope member but the salt of the result. -/
theorem scope_not_chosen (hfloat : Json.FloatsReadBack Runtime.Float) (g : Gateway σ)
    (auth : AuthContext) (now : Time) (requestId : Str) (s : σ) {body body' : Str}
    {members members' : List (Str × Value)} (hbody : loadsStrict body = .ok (.obj members))
    (hbody' : loadsStrict body' = .ok (.obj members'))
    (h : (Json.obj (withoutScopes members)).sorted = (Json.obj (withoutScopes members')).sorted) :
    Prog.ExceptRel Eq SamePrepared (prepare g body auth now requestId s).1
        (prepare g body' auth now requestId s).1 ∧
      (prepare g body auth now requestId s).2 = (prepare g body' auth now requestId s).2 ∧
      ∀ upstream result, (prepare g body auth now requestId s).1 =
        .ok (.accepted upstream result) → Descoped upstream result.cacheSalt := by
  have hsame : SameWithoutScopes members members' :=
    ⟨distinct_of_loadsStrict hbody, distinct_of_loadsStrict hbody', h⟩
  have hrelates : Prog.Relates Eq Eq SamePrepared (prepare g body auth now requestId)
      (prepare g body' auth now requestId) := by
    unfold prepare
    rw [hbody, hbody']
    dsimp only
    have hextract := extractFragments_agree (hsame.arrays hfloat)
    cases hfs : extractFragments (.obj members) with
    | error e =>
        cases hfs' : extractFragments (.obj members') with
        | ok fs' => rw [hfs, hfs'] at hextract; cases hextract
        | error e' =>
            rw [hfs, hfs'] at hextract
            cases hextract with
            | error heq =>
                obtain rfl : e = e' := heq
                dsimp only
                split
                · exact Prog.relates_pure (.rejected _ _ _)
                · exact Prog.relates_raise rfl
    | ok fs =>
        cases hfs' : extractFragments (.obj members') with
        | error e' => rw [hfs, hfs'] at hextract; cases hextract
        | ok fs' =>
            rw [hfs, hfs'] at hextract
            cases hextract with
            | ok hagree => exact prepareFragments_same g auth now requestId hsame hagree
  obtain ⟨hresult, hstate⟩ := hrelates s s rfl
  refine ⟨hresult, hstate, fun upstream result hprepare => ?_⟩
  have haccepted : prepare g body auth now requestId s =
      (.ok (.accepted upstream result), (prepare g body auth now requestId s).2) :=
    Prod.ext hprepare rfl
  obtain ⟨request, fragments, r, -, -, -, hfinish⟩ := exists_handled haccepted
  exact descoped_of_finish hfinish

end

section

attribute [local instance] reference

/-- A body whose caller names a tenant and a salt, and one without either. -/
def steeringBody (steers : Bool) : Str :=
  let scopes : List (Str × Value) := if steers then [(lit "tenant", .str (lit "other-corp"))] else []
  let salt : List (Str × Value) := if steers then [(lit "cache_salt", .int 7)] else []
  Json.dumps .default (.obj (salt ++ [(lit "messages", .arr [.obj (scopes ++
    [(lit "content", .str (lit "hi")),
      (cacheIntentName, intentValue (.allow none) "exact" "tenant")])])]))

def membersOf (body : Str) : List (Str × Value) :=
  match loadsStrict body with
  | .ok v => v.members
  | .error _ => []

theorem scope_not_chosen_steeringBody :
    (prepare (vllmGateway .bypass) (steeringBody true) alice (0 : ℕ) (lit "req-1") ()).2 =
        (prepare (vllmGateway .bypass) (steeringBody false) alice (0 : ℕ) (lit "req-1") ()).2 ∧
      ∃ upstream result,
        (prepare (vllmGateway .bypass) (steeringBody true) alice (0 : ℕ) (lit "req-1") ()).1 =
          .ok (.accepted upstream result) ∧ Descoped upstream result.cacheSalt := by
  have hload : ∀ steers, loadsStrict (steeringBody steers) =
      .ok (.obj (membersOf (steeringBody steers))) := fun steers => by
    have h : (loadsStrict (steeringBody steers)).toOption =
        some (.obj (membersOf (steeringBody steers))) := by
      revert steers
      decide +kernel
    exact toOption_eq_some_iff.mp h
  have hsame : (Json.obj (withoutScopes (membersOf (steeringBody true)))).sorted =
      (Json.obj (withoutScopes (membersOf (steeringBody false)))).sorted := by decide +kernel
  obtain ⟨-, hstate, hdescoped⟩ := scope_not_chosen floatsReadBack_reference (vllmGateway .bypass)
    alice (0 : ℕ) (lit "req-1") () (hload true) (hload false) hsame
  obtain ⟨upstream, result, t, hprepare⟩ := exists_accepted
    (show isAccepted (prepare (vllmGateway .bypass) (steeringBody true) alice (0 : ℕ)
      (lit "req-1") ()).1 = true by decide +kernel)
  have haccepted := congrArg Prod.fst hprepare
  exact ⟨hstate, upstream, result, haccepted, hdescoped upstream result haccepted⟩

end

end CacheControl

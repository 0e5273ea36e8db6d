import CacheControl.Acceptance
import CacheControl.Memory
import CacheControl.Steering

/-!
# Hints and identifiers

The hints of an intent and its identifier are no part of the policy.  Two bodies
that differ in nothing else are served alike.
-/

open PyText

namespace CacheControl

section

variable [Runtime] {σ : Type}

def advisoryNames : List Str := [lit "hints", lit "id"]

/-- The members of an intent that bind the gateway. -/
def unadvised (intent : List (Str × Value)) : List (Str × Value) :=
  intent.filter fun m => m.1 ∉ advisoryNames

def unadvisedItem (item : List (Str × Value)) : List (Str × Value) :=
  item.map fun m => (m.1, if m.1 = cacheIntentName then onObject unadvised m.2 else m.2)

/-- The body without the hints and the identifiers of its intents. -/
def withoutAdvice (members : List (Str × Value)) : List (Str × Value) :=
  onElements (onObject unadvisedItem) members

/-! ## Elements -/

theorem visible_unadvisedItem (item : List (Str × Value)) :
    visible (unadvisedItem item) = visible item := by
  unfold visible unadvisedItem
  rw [List.filter_map]
  refine (List.map_congr_left fun m hm => ?_).trans (List.map_id _)
  have hname := (List.mem_filter.mp hm).2
  simp only [Function.comp_apply, decide_eq_true_eq] at hname
  rw [if_neg hname.1]
  rfl

theorem stripItem_comp_unadvised : stripItem ∘ onObject unadvisedItem = stripItem := by
  funext v
  cases v with
  | obj item => exact congrArg Json.obj (visible_unadvisedItem item)
  | _ => rfl

theorem unscoped_onElements (f : Value → Value) (members : List (Str × Value)) :
    unscoped (onElements f members) = onElements f (unscoped members) := by
  unfold unscoped onElements
  rw [List.filter_map]
  rfl

theorem stripBindingMembers_withoutAdvice {members : List (Str × Value)}
    (hnames : (members.map Prod.fst).Nodup) :
    (stripBindingMembers (withoutAdvice members)).1 = (stripBindingMembers members).1 := by
  rw [stripBindingMembers_eq hnames, stripBindingMembers_eq (by rwa [withoutAdvice, names_onElements]),
    withoutAdvice, unscoped_onElements, onElements_onElements, stripItem_comp_unadvised]

theorem get?_unadvisedItem (item : List (Str × Value)) :
    Json.get? cacheIntentName (unadvisedItem item) =
      (Json.get? cacheIntentName item).map (onObject unadvised) := by
  have hget := Json.get?_map (fun k v => if k = cacheIntentName then onObject unadvised v else v)
    cacheIntentName item
  simp only [if_true] at hget
  exact hget

/-! ## Intents -/

/-- The document written for an intent is read, if it is read, as that intent. -/
theorem document_of_loadsStrict (hfloat : Json.FloatsReadBack Runtime.Float) {v doc : Value}
    (h : loadsStrict (intentDocument v) = .ok doc) : doc = .obj [(cacheIntentName, v.rejoin)] := by
  have hname : Json.joined cacheIntentName = cacheIntentName := by decide +kernel
  have hrejoin : (Json.obj [(cacheIntentName, v)] : Value).rejoin =
      .obj [(cacheIntentName, v.rejoin)] := by
    rw [Json.rejoin_obj, List.map_singleton, hname]
  obtain ⟨hread, hrefused⟩ := loadsStrict_dumps hfloat (Json.obj [(cacheIntentName, v)])
  by_cases hdistinct : (Json.obj [(cacheIntentName, v)] : Value).rejoin.Distinct
  · rw [← hrejoin]
    exact Except.ok.inj (h.symm.trans (hread hdistinct))
  · obtain ⟨k, hk⟩ := hrefused hdistinct
    cases h.symm.trans hk

theorem decodeIntent_of_parse (hfloat : Json.FloatsReadBack Runtime.Float) {v : Value}
    {intent : Intent} (h : parseCacheIntent (intentDocument v) = .ok intent) :
    decodeIntent v.rejoin = some intent := by
  obtain ⟨doc, hdoc, h⟩ := bind_eq_ok_iff.mp h
  obtain rfl := document_of_loadsStrict hfloat hdoc
  obtain ⟨-, -, h⟩ := bind_eq_ok_iff.mp h
  have hvalidate : validate (.obj [(cacheIntentName, v.rejoin)]) = decodeIntent v.rejoin := by
    have hget : Json.get? (lit "cache_intent") [(cacheIntentName, v.rejoin)] =
        some v.rejoin := by simp [Json.get?, cacheIntentName]
    have honly : onlyMembers [lit "cache_intent"] [(cacheIntentName, v.rejoin)] = true := by
      simp [onlyMembers, cacheIntentName]
    rw [validate, honly, hget]
    rfl
  rw [hvalidate] at h
  cases hdecode : decodeIntent v.rejoin with
  | none => rw [hdecode] at h; cases h
  | some i =>
      rw [hdecode] at h
      cases h
      rfl

theorem exists_constraints {intent : Value} {i : Intent} (h : decodeIntent intent = some i) :
    ∃ members c, intent = .obj members ∧ Json.get? (lit "constraints") members = some c ∧
      decodeConstraints c = some i.constraints := by
  cases intent with
  | obj members =>
      simp only [decodeIntent, Option.bind_eq_bind, Option.bind_eq_some_iff] at h
      obtain ⟨-, -, version, -, -, -, id, -, c, hc, constraints, hdecode, hints, -, h⟩ := h
      cases h
      exact ⟨members, c, rfl, hc, hdecode⟩
  | _ => cases h

/-- Dropping the advice of an intent leaves its constraints. -/
theorem get?_constraints_rejoin (members : List (Str × Value)) :
    Json.get? (lit "constraints") (members.map fun m => (Json.joined m.1, m.2.rejoin)) =
      Json.get? (lit "constraints")
        ((unadvised members).map fun m => (Json.joined m.1, m.2.rejoin)) := by
  have hother : ∀ k ∈ advisoryNames, Json.joined k ≠ lit "constraints" := by decide +kernel
  induction members with
  | nil => rfl
  | cons m members ih =>
      unfold unadvised at ih ⊢
      rw [List.map_cons, List.filter_cons]
      by_cases hm : m.1 ∈ advisoryNames
      · rw [if_neg (by simpa using hm), ← ih, Json.get?, if_neg (hother _ hm)]
      · rw [if_pos (by simpa using hm), List.map_cons, Json.get?, Json.get?, ih]

theorem constraints_congr {v v' : Value} (hsame : onObject unadvised v = onObject unadvised v')
    {i i' : Intent} (h : decodeIntent v.rejoin = some i) (h' : decodeIntent v'.rejoin = some i') :
    i.constraints = i'.constraints := by
  have hobj : ∀ {w : Value} {j : Intent}, decodeIntent w.rejoin = some j →
      ∃ members c, w = .obj members ∧ decodeConstraints c = some j.constraints ∧
        Json.get? (lit "constraints")
          ((unadvised members).map fun m => (Json.joined m.1, m.2.rejoin)) = some c := by
    intro w j hw
    obtain ⟨rejoined, c, hrejoin, hget, hdecode⟩ := exists_constraints hw
    cases w with
    | obj members =>
        rw [Json.rejoin_obj, Json.obj.injEq] at hrejoin
        rw [← hrejoin, get?_constraints_rejoin] at hget
        exact ⟨members, c, rfl, hdecode, hget⟩
    | arr items => rw [Json.rejoin_arr] at hrejoin; cases hrejoin
    | _ => cases hrejoin
  obtain ⟨members, c, rfl, hdecode, hget⟩ := hobj h
  obtain ⟨members', c', rfl, hdecode', hget'⟩ := hobj h'
  rw [Json.obj.inj hsame, hget', Option.some.injEq] at hget
  rw [← hget, hdecode', Option.some.injEq] at hdecode
  exact hdecode.symm

/-! ## Fragments -/

/-- Fragments of the same content, with intents that are equal without their
advice. -/
structure SameBinding (f f' : Fragment) : Prop where
  content : f.content = f'.content
  approxClass : f.approxClass = f'.approxClass
  intents : ∃ o o' : Option Value, f.intentJson = o.map intentDocument ∧
    f'.intentJson = o'.map intentDocument ∧
      o.map (onObject unadvised) = o'.map (onObject unadvised)

theorem sameBinding_of_extracted {kind : FragmentKind} {v v' : Value} {f f' : Fragment}
    (h : Extracted kind v f) (h' : Extracted kind v' f')
    (hsame : onObject unadvisedItem v = onObject unadvisedItem v') : SameBinding f f' := by
  obtain ⟨index, item, rfl, rfl⟩ := h
  obtain ⟨index', item', rfl, rfl⟩ := h'
  have hitems : unadvisedItem item = unadvisedItem item' := Json.obj.inj hsame
  refine ⟨?_, rfl, Json.get? cacheIntentName item, Json.get? cacheIntentName item', rfl, rfl, ?_⟩
  · show fragmentContent item kind = fragmentContent item' kind
    rw [fragmentContent_eq, fragmentContent_eq, ← visible_unadvisedItem item, hitems,
      visible_unadvisedItem]
  · rw [← get?_unadvisedItem, hitems, get?_unadvisedItem]

theorem forall₂_sameBinding {kind : FragmentKind} {items items' : List Value}
    {fs fs' : List Fragment} (h : List.Forall₂ (Extracted kind) items fs)
    (h' : List.Forall₂ (Extracted kind) items' fs')
    (hsame : items.map (onObject unadvisedItem) = items'.map (onObject unadvisedItem)) :
    List.Forall₂ SameBinding fs fs' := by
  induction h generalizing items' fs' with
  | nil =>
      cases h' with
      | nil => exact .nil
      | cons _ _ => cases hsame
  | cons hv _ ih =>
      cases h' with
      | nil => cases hsame
      | cons hv' hrest' =>
          obtain ⟨hhead, htail⟩ := List.cons.inj hsame
          exact .cons (sameBinding_of_extracted hv hv' hhead) (ih hrest' htail)

theorem sameBinding_of_readBody {body body' : Str} {members members' : List (Str × Value)}
    {fs fs' : List Fragment} (h : readBody body = .ok (members, fs))
    (h' : readBody body' = .ok (members', fs'))
    (hsame : withoutAdvice members = withoutAdvice members') : List.Forall₂ SameBinding fs fs' := by
  have hitems : ∀ {kind : FragmentKind} {items items' : List Value},
      itemsOf kind members = .ok items → itemsOf kind members' = .ok items' →
        items.map (onObject unadvisedItem) = items'.map (onObject unadvisedItem) := by
    intro kind items items' hi hi'
    have hmap := itemsOf_onElements (onObject unadvisedItem) kind members
    have hmap' := itemsOf_onElements (onObject unadvisedItem) kind members'
    rw [hi] at hmap
    rw [hi'] at hmap'
    exact Except.ok.inj (hmap.symm.trans ((congrArg (itemsOf kind) hsame).trans hmap'))
  obtain ⟨tools, messages, tf, mf, -, htools, hmessages, htf, hmf, rfl⟩ := readBody_eq_ok h
  obtain ⟨tools', messages', tf', mf', -, htools', hmessages', htf', hmf', rfl⟩ :=
    readBody_eq_ok h'
  exact List.rel_append (forall₂_sameBinding htf htf' (hitems htools htools'))
    (forall₂_sameBinding hmf hmf' (hitems hmessages hmessages'))

theorem fragmentsAgree_of_sameBinding (hfloat : Json.FloatsReadBack Runtime.Float)
    {f f' : Fragment} (h : SameBinding f f')
    (hparsed : ∀ text, f.intentJson = some text → ∃ i, parseCacheIntent text = .ok i)
    (hparsed' : ∀ text, f'.intentJson = some text → ∃ i, parseCacheIntent text = .ok i) :
    FragmentsAgree Eq (fun _ _ => True) (fun _ _ => True) f f' := by
  refine ⟨trivial, h.content, h.approxClass, ?_⟩
  obtain ⟨o, o', ho, ho', hsame⟩ := h.intents
  unfold Fragment.parsed
  cases o with
  | none =>
      cases o' with
      | none =>
          rw [ho, ho']
          exact .ok .bare
      | some v' => cases hsame
  | some v =>
      cases o' with
      | none => cases hsame
      | some v' =>
          obtain ⟨i, hi⟩ := hparsed _ ho
          obtain ⟨i', hi'⟩ := hparsed' _ ho'
          rw [ho, ho']
          simp only [Option.map_some, hi, hi', Except.map]
          exact .ok (.carried (constraints_congr (Option.some.inj hsame)
            (decodeIntent_of_parse hfloat hi) (decodeIntent_of_parse hfloat hi')) fun _ => trivial)

theorem forall₂_fragmentsAgree (hfloat : Json.FloatsReadBack Runtime.Float)
    {fs fs' : List Fragment} (h : List.Forall₂ SameBinding fs fs')
    (hparsed : ∀ f ∈ fs, ∀ text, f.intentJson = some text → ∃ i, parseCacheIntent text = .ok i)
    (hparsed' : ∀ f ∈ fs', ∀ text, f.intentJson = some text → ∃ i, parseCacheIntent text = .ok i) :
    List.Forall₂ (FragmentsAgree Eq (fun _ _ => True) (fun _ _ => True)) fs fs' := by
  induction h with
  | nil => exact .nil
  | @cons f f' fs fs' hf _ ih =>
      refine .cons (fragmentsAgree_of_sameBinding hfloat hf (hparsed f (by simp))
        (hparsed' f' (by simp))) (ih ?_ ?_)
      · exact fun g hg => hparsed g (by simp [hg])
      · exact fun g hg => hparsed' g (by simp [hg])

/-! ## Requests -/

theorem checkIds_agree {c c' : Call} {fs fs' : List Fragment} (h : c.ordered = .ok fs)
    (h' : c'.ordered = .ok fs') :
    Prog.ExceptRel Eq (fun _ _ => True) (checkIds fs) (checkIds fs') := by
  have hok : ∀ {c : Call} {fs : List Fragment}, c.ordered = .ok fs → checkIds fs = .ok () := by
    intro c fs hord
    obtain ⟨planned, -, hchecked⟩ := bind_eq_ok_iff.mp hord
    obtain ⟨u, hu, hpure⟩ := bind_eq_ok_iff.mp hchecked
    cases hpure
    exact hu
  rw [hok h, hok h']
  exact .ok trivial

/-- What is reported of serving a fragment. -/
structure SameService (s s' : FragmentStatus) : Prop where
  outcome : s.outcome = s'.outcome
  effectiveShare : s.effectiveShare = s'.effectiveShare
  retention : s.retention = s'.retention
  exact : s.exact = s'.exact

theorem sameService_of_agree {I : Value → Value → Prop} {K : HintStatus → HintStatus → Prop}
    {s s' : FragmentStatus} (h : StatusesAgree I K s s') : SameService s s' := by
  rw [← h.rest]
  exact ⟨rfl, rfl, rfl, rfl⟩

end

/-- Two accepted bodies that differ only in the hints and the identifiers of the intents
on their elements are forwarded and served alike, and leave the same state.  A top-level
`cache_intent` is no intent and is compared like any other member. -/
theorem advice_not_binding [Runtime] {σ : Type} (hfloat : Json.FloatsReadBack Runtime.Float)
    (g : Gateway σ) (auth : AuthContext) (now : Time) (requestId : Str) (s : σ)
    {body body' : Str} {members members' : List (Str × Value)}
    (hload : loadsStrict body = .ok (.obj members))
    (hload' : loadsStrict body' = .ok (.obj members'))
    (hsame : withoutAdvice members = withoutAdvice members')
    {upstream upstream' : List (Str × Value)} {result result' : Result} {t t' : σ}
    (h : prepare g body auth now requestId s = (.ok (.accepted upstream result), t))
    (h' : prepare g body' auth now requestId s = (.ok (.accepted upstream' result'), t')) :
    upstream = upstream' ∧ result.cacheSalt = result'.cacheSalt ∧
      List.Forall₂ SameService result.statuses result'.statuses ∧ t = t' := by
  obtain ⟨ms, fs, r, hread, hanswer, hfinish⟩ := handled_of_accepted h
  obtain ⟨ms', fs', r', hread', hanswer', hfinish'⟩ := handled_of_accepted h'
  obtain ⟨-, -, -, -, hms, -⟩ := readBody_eq_ok hread
  obtain ⟨-, -, -, -, hms', -⟩ := readBody_eq_ok hread'
  cases hms.symm.trans hload
  cases hms'.symm.trans hload'
  have hord := ordered_callFor (congrArg Prod.fst hanswer)
  have hord' := ordered_callFor (congrArg Prod.fst hanswer')
  have hagree := forall₂_fragmentsAgree hfloat (sameBinding_of_readBody hread hread' hsame)
    (fun f hf text => parsed_of_answer (congrArg Prod.fst hanswer) hord hf)
    (fun f hf text => parsed_of_answer (congrArg Prod.fst hanswer') hord' hf)
  obtain ⟨hresults, hstate⟩ := handle_agree g auth now requestId (fun _ => rfl) trivial hagree
    (checkIds_agree hord hord') s s rfl
  have hhandle : g.handle fs auth now requestId none false s = (.ok r, t) := hanswer
  have hhandle' : g.handle fs' auth now requestId none false s = (.ok r', t') := hanswer'
  rw [hhandle, hhandle'] at hresults hstate
  cases hresults with
  | ok hresults =>
      have hstrip : (stripBindingMembers members).1 = (stripBindingMembers members').1 := by
        have hnames : ∀ {body : Str} {ms : List (Str × Value)},
            loadsStrict body = .ok (.obj ms) → (ms.map Prod.fst).Nodup := fun hbody =>
          (Json.distinct_obj_iff.mp (distinct_of_loadsStrict hbody)).1
        rw [← stripBindingMembers_withoutAdvice (hnames hload), hsame,
          stripBindingMembers_withoutAdvice (hnames hload')]
      obtain ⟨⟨salt, statuses⟩, hlower, hpure⟩ := bind_eq_ok_iff.mp hfinish
      obtain ⟨⟨salt', statuses'⟩, hlower', hpure'⟩ := bind_eq_ok_iff.mp hfinish'
      have hlowered := lowerRequestSalt_agree g.backend auth requestId hresults.statuses
      rw [hlower, hlower'] at hlowered
      cases hlowered with
      | ok hlowered =>
          obtain ⟨hsalt, hstatuses⟩ := hlowered
          obtain rfl : salt = salt' := hsalt
          cases hpure
          cases hpure'
          exact ⟨by rw [hstrip], rfl, hstatuses.imp fun _ _ => sameService_of_agree, hstate⟩

section

attribute [local instance] reference

/-- A chat request whose one intent may name itself and hint at its reuse. -/
def advisedBody (advised : Bool) : Str :=
  let hints : Value := .obj [(lit "reuse_within", .int 60), (lit "warm", .arr [.null])]
  let advice : List (Str × Value) :=
    if advised then [(lit "id", .str (lit "sys")), (lit "hints", hints)] else []
  Json.dumps .default (.obj [(lit "messages", .arr [.obj
    [(lit "content", .str (lit "hi")),
      (cacheIntentName, .obj ((intentValue (.allow none) "exact" "tenant").members ++ advice))]])])

theorem advice_not_binding_advisedBody : ∃ upstream upstream' result result' t t',
    prepare (inMemoryGateway .bypass) (advisedBody true) alice (0 : ℕ) (lit "req-1") ∅ =
        (.ok (.accepted upstream result), t) ∧
      prepare (inMemoryGateway .bypass) (advisedBody false) alice (0 : ℕ) (lit "req-1") ∅ =
        (.ok (.accepted upstream' result'), t') ∧
      upstream = upstream' ∧ result.cacheSalt = result'.cacheSalt ∧
      List.Forall₂ SameService result.statuses result'.statuses ∧ t = t' := by
  have hload : ∀ advised, loadsStrict (advisedBody advised) =
      .ok (.obj (membersOf (advisedBody advised))) := fun advised => by
    have h : (loadsStrict (advisedBody advised)).toOption =
        some (.obj (membersOf (advisedBody advised))) := by
      revert advised
      decide +kernel
    exact toOption_eq_some_iff.mp h
  have hsame : withoutAdvice (membersOf (advisedBody true)) =
      withoutAdvice (membersOf (advisedBody false)) := by decide +kernel
  have haccepted : ∀ advised, isAccepted (prepare (inMemoryGateway .bypass) (advisedBody advised)
      alice (0 : ℕ) (lit "req-1") ∅).1 = true := by decide +kernel
  obtain ⟨upstream, result, t, h⟩ := exists_accepted (haccepted true)
  obtain ⟨upstream', result', t', h'⟩ := exists_accepted (haccepted false)
  exact ⟨upstream, upstream', result, result', t, t', h, h',
    advice_not_binding floatsReadBack_reference (inMemoryGateway .bypass) alice (0 : ℕ)
      (lit "req-1") ∅ (hload true) (hload false) hsame h h'⟩

end

end CacheControl

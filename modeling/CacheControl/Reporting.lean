import CacheControl.Ids
import CacheControl.Forwarding

/-!
# The reported status

What is returned to the caller next to the response: one entry for every element of
the request, in order.  Callers correlate by position and by id.
-/

open PyText

namespace CacheControl

section

variable [Runtime] {σ : Type} {g : Gateway σ} {body requestId : Str} {auth : AuthContext}
  {now : Time} {s t : σ} {upstream members : List (Str × Value)} {result : Result}
  {fragments : List Fragment}

/-! ## The entries -/

def Outcome.word : Outcome → Str
  | bypass => lit "bypass"
  | miss => lit "miss"
  | exactHit => lit "exact_hit"
  | approximateHit => lit "approximate_hit"
  | unobserved => lit "unobserved"

def Share.word : Share → Str
  | request => lit "request"
  | session => lit "session"
  | principal => lit "principal"
  | tenant => lit "tenant"
  | «public» => lit "public"

def RetentionStatus.word : RetentionStatus → Str
  | forbidden => lit "forbidden"
  | declined => lit "declined"
  | retained => lit "retained"
  | unobserved => lit "unobserved"

def ConstraintResult.word : ConstraintResult → Str
  | satisfied => lit "satisfied"

def HintOutcome.word : HintOutcome → Str
  | accepted => lit "accepted"
  | clipped => lit "clipped"

def HintStatus.pairs (hints : HintStatus) : List (Str × Value) :=
  hints.reuseWithin.toList.map fun outcome => (lit "reuse_within", .str outcome.word)

/-- The members that every entry has. -/
def FragmentStatus.common (s : FragmentStatus) : List (Str × Value) :=
  [(lit "outcome", .str s.outcome.word), (lit "effective_share", .str s.effectiveShare.word),
    (lit "retention", .str s.retention.word),
    (lit "constraint_result", .str s.constraintResult.word)]

/-- One entry of `as_cache_status`. -/
def FragmentStatus.entry (s : FragmentStatus) : List (Str × Value) :=
  let entry := if s.hints.pairs.isEmpty then s.common
    else Json.set (lit "hints") (.obj s.hints.pairs) s.common
  if isNull s.id then entry else (lit "id", s.id) :: entry

/-- One entry per fragment, in fragment order. -/
def Result.asCacheStatus (result : Result) : List (Str × Value) :=
  [(lit "cache_status", .arr (result.statuses.map fun s => .obj s.entry))]

def attachStatus (response : List (Str × Value)) (result : Result) : List (Str × Value) :=
  Json.set (lit "cache_status")
    ((Json.get? (lit "cache_status") result.asCacheStatus).getD .null) response

/-! ## The schema of the status -/

/-- `{"enum": [...]}`, of strings. -/
def oneOf (words : List Str) : Value → Bool
  | .str s => s ∈ words
  | _ => false

def validHints : Value → Bool
  | .obj hints => hints.all fun m => oneOf [lit "accepted", lit "clipped", lit "ignored"] m.2
  | _ => false

def outcomeWords : List Str :=
  [lit "bypass", lit "miss", lit "exact_hit", lit "approximate_hit", lit "unobserved"]

def shareWords : List Str :=
  [lit "request", lit "session", lit "principal", lit "tenant", lit "public"]

def retentionWords : List Str :=
  [lit "forbidden", lit "declined", lit "retained", lit "unobserved"]

/-- The value is one that the property of this name takes. -/
def validProperty (name : Str) (v : Value) : Bool :=
  if name = lit "id" then (decodeName v).isSome
  else if name = lit "outcome" then oneOf outcomeWords v
  else if name = lit "effective_share" then oneOf shareWords v
  else if name = lit "retention" then oneOf retentionWords v
  else if name = lit "constraint_result" then oneOf [lit "satisfied"] v
  else if name = lit "hints" then validHints v
  else false

def validEntry : Value → Bool
  | .obj entry => Json.has (lit "outcome") entry && Json.has (lit "constraint_result") entry &&
      entry.all fun m => validProperty m.1 m.2
  | _ => false

/-- `llm-cache-status.schema.json`. -/
def validStatus : Value → Bool
  | .obj document =>
      onlyMembers [lit "cache_status"] document &&
        match Json.get? (lit "cache_status") document with
        | some (.arr entries) => entries.all validEntry
        | _ => false
  | _ => false

/-! ## What an entry says -/

theorem entry_eq (s : FragmentStatus) : s.entry =
    (if isNull s.id then [] else [(lit "id", s.id)]) ++ s.common ++
      if s.hints.pairs.isEmpty then [] else [(lit "hints", .obj s.hints.pairs)] := by
  have hhints : lit "hints" ∉ s.common.map Prod.fst := by
    show lit "hints" ∉ [lit "outcome", lit "effective_share", lit "retention",
      lit "constraint_result"]
    decide +kernel
  unfold FragmentStatus.entry
  rw [Json.set_of_notMem hhints]
  dsimp only
  split <;> split <;> simp

theorem get?_id_entry (s : FragmentStatus) :
    Json.get? (lit "id") s.entry = if isNull s.id then none else some s.id := by
  have hnames : lit "outcome" ≠ lit "id" ∧ lit "effective_share" ≠ lit "id" ∧
      lit "retention" ≠ lit "id" ∧ lit "constraint_result" ≠ lit "id" ∧
      lit "hints" ≠ lit "id" := by decide +kernel
  rw [entry_eq]
  split
  · split <;> simp [FragmentStatus.common, Json.get?, hnames]
  · simp [Json.get?]

theorem validProperty_eq (v : Value) : validProperty (lit "id") v = (decodeName v).isSome ∧
    validProperty (lit "outcome") v = oneOf outcomeWords v ∧
    validProperty (lit "effective_share") v = oneOf shareWords v ∧
    validProperty (lit "retention") v = oneOf retentionWords v ∧
    validProperty (lit "constraint_result") v = oneOf [lit "satisfied"] v ∧
    validProperty (lit "hints") v = validHints v := by
  have hnames : [lit "hints", lit "constraint_result", lit "retention", lit "effective_share",
      lit "outcome", lit "id"].Nodup := by decide +kernel
  simp only [List.nodup_cons, List.mem_cons, List.not_mem_nil, or_false, not_or] at hnames
  simp [validProperty, hnames]

theorem validHints_pairs (hints : HintStatus) : validHints (.obj hints.pairs) := by
  have hword : ∀ o : HintOutcome,
      o.word ∈ [lit "accepted", lit "clipped", lit "ignored"] := by
    rintro ⟨⟩ <;> decide +kernel
  refine List.all_eq_true.mpr fun m hm => ?_
  obtain ⟨o, -, rfl⟩ := List.mem_map.mp hm
  exact decide_eq_true (hword o)

/-- An entry satisfies the schema as far as its id does. -/
theorem validEntry_entry (s : FragmentStatus) :
    validEntry (.obj s.entry) = (isNull s.id || (decodeName s.id).isSome) := by
  have hcommon : s.common.all (fun m => validProperty m.1 m.2) = true := by
    have houtcome : ∀ o : Outcome, o.word ∈ outcomeWords := by rintro ⟨⟩ <;> decide +kernel
    have hshare : ∀ b : Share, b.word ∈ shareWords := by rintro ⟨⟩ <;> decide +kernel
    have hretention : ∀ r : RetentionStatus, r.word ∈ retentionWords := by
      rintro ⟨⟩ <;> decide +kernel
    have hresult : ∀ c : ConstraintResult, c.word ∈ [lit "satisfied"] := by
      rintro ⟨⟩
      decide +kernel
    simp [FragmentStatus.common, validProperty_eq, oneOf, houtcome, hshare, hretention,
      List.mem_singleton.mp (hresult s.constraintResult)]
  have hhints : (if s.hints.pairs.isEmpty then [] else
      [(lit "hints", (.obj s.hints.pairs : Value))]).all (fun m => validProperty m.1 m.2) =
        true := by
    split
    · rfl
    · simp [validProperty_eq, validHints_pairs]
  have hid : (if isNull s.id then [] else [(lit "id", s.id)]).all
      (fun m => validProperty m.1 m.2) = (isNull s.id || (decodeName s.id).isSome) := by
    split
    · rename_i hnull
      rw [hnull]
      rfl
    · rename_i hnull
      simp [validProperty_eq, hnull]
  have hrequired : Json.has (lit "outcome") s.entry = true ∧
      Json.has (lit "constraint_result") s.entry = true := by
    have hmem : ∀ {key : Str} {v : Value}, (key, v) ∈ s.common → Json.has key s.entry = true := by
      intro key v hv
      refine Option.isSome_iff_ne_none.mpr fun hnone => ?_
      refine Json.get?_eq_none_iff.mp hnone (key, v) ?_ rfl
      rw [entry_eq]
      exact List.mem_append_left _ (List.mem_append_right _ hv)
    exact ⟨hmem (v := .str s.outcome.word) (by simp [FragmentStatus.common]),
      hmem (v := .str s.constraintResult.word) (by simp [FragmentStatus.common])⟩
  rw [validEntry, hrequired.1, hrequired.2, entry_eq, List.all_append, List.all_append, hid,
    hcommon, hhints]
  simp

/-! ## The ids that are reported -/

theorem id_of_status {v : Event σ} (hfollows : Follows v.done v.acc) {st : FragmentStatus}
    (hst : v.status g = some st) : st.id = v.item.id := by
  cases reports_of_status hfollows hst <;> rfl

theorem ids_of_answer {c : Call} {r : Result} (h : (g.answer c s).1 = .ok r)
    (hord : c.ordered = .ok fragments) :
    r.statuses.map FragmentStatus.id = fragments.map Fragment.id := by
  have hlength := length_statuses h hord
  refine List.ext_getElem (by simp [hlength]) fun i hi hi' => ?_
  rw [List.length_map] at hi hi'
  have htake : fragments.take i ++ [fragments[i]] <+: fragments := by
    rw [← List.take_succ_eq_append_getElem hi']
    exact List.take_prefix _ _
  obtain ⟨v, hv, hsent, st, hst, hat⟩ := event_of_answer h hord htake
  have hitem : v.item = fragments[i] := List.singleton_inj.mp (List.append_inj' hsent rfl).2
  rw [List.length_take, min_eq_left hi'.le, List.getElem?_eq_getElem hi, Option.some.injEq] at hat
  rw [List.getElem_map, List.getElem_map, hat, ← hitem]
  exact id_of_status (follows_of_mem hv) hst

theorem ids_of_finish {r : Result}
    (h : finish g.backend members auth requestId r = .ok (.accepted upstream result)) :
    result.statuses.map FragmentStatus.id = r.statuses.map FragmentStatus.id := by
  cases finished_of_finish h with
  | unsalted _ => rfl
  | salted saltFor status governed salt =>
      rw [List.map_map]
      refine List.map_congr_left fun st _ => ?_
      rw [Function.comp_apply]
      split
      · unfold lowerStatus
        split <;> rfl
      · rfl

/-- The array has one valid entry for every element, in order, which has the id
that the element's intent supplies and no other. -/
structure Aligned (members : List (Str × Value)) (entries : List Value) : Prop where
  length_eq : entries.length = (elements members).length
  valid : validStatus (.obj [(lit "cache_status", .arr entries)])
  ids : ∀ (k : ℕ) (e : Element), (elements members)[k]? = some e → ∃ entry : List (Str × Value),
    entries[k]? = some (.obj entry) ∧ Json.get? (lit "id") entry = e.suppliedId

theorem get?_attachStatus (response : List (Str × Value)) (result : Result) :
    Json.get? (lit "cache_status") (attachStatus response result) =
      some (.arr (result.statuses.map fun s => .obj s.entry)) := by
  rw [attachStatus, Json.get?_set_self, Result.asCacheStatus, Json.get?, if_pos rfl]
  rfl

theorem validStatus_iff (entries : List Value) :
    validStatus (.obj [(lit "cache_status", .arr entries)]) ↔ ∀ v ∈ entries, validEntry v := by
  have honly : onlyMembers [lit "cache_status"]
      [(lit "cache_status", (.arr entries : Value))] = true := by simp [onlyMembers]
  rw [validStatus, honly, Json.get?, if_pos rfl, Bool.true_and, List.all_eq_true]

end

/-- The array lines up with the request exactly where every element has an id of its
own. -/
theorem aligned_iff [Runtime] {σ : Type} (hfloat : Json.FloatsReadBack Runtime.Float)
    (g : Gateway σ) {body requestId : Str} {auth : AuthContext} {now : Time} {s t : σ}
    {upstream : List (Str × Value)} {result : Result}
    (h : prepare g body auth now requestId s = (.ok (.accepted upstream result), t))
    (response : List (Str × Value)) :
    ∃ members fragments entries, readBody body = .ok (members, fragments) ∧
      Json.get? (lit "cache_status") (attachStatus response result) = some (.arr entries) ∧
      (Aligned members entries ↔ ∀ e ∈ elements members,
        ∃ id, e.suppliedId = some (.str id) ∧ id.length ≤ 256) := by
  obtain ⟨members, fragments, r, hread, hanswer, hfinish⟩ := handled_of_accepted h
  obtain ⟨-, hmakes⟩ := makes_of_readBody hread
  have hanswer := congrArg Prod.fst hanswer
  have hord := ordered_callFor hanswer
  have hids : result.statuses.map FragmentStatus.id = (elements members).map Element.id := by
    rw [ids_of_finish hfinish, ids_of_answer hanswer hord, ids_of_makes hmakes]
  have hlength : result.statuses.length = (elements members).length := by
    simpa using congrArg List.length hids
  have hstatus : ∀ {k : ℕ} {e : Element}, (elements members)[k]? = some e →
      ∃ st : FragmentStatus, result.statuses[k]? = some st ∧ st.id = e.id := by
    intro k e he
    have hat := congrArg (fun ids => ids[k]?) hids
    rw [List.getElem?_map, List.getElem?_map, he] at hat
    exact Option.map_eq_some_iff.mp hat
  have hsupplied : ∀ {e : Element} {v : Value}, e ∈ elements members → e.suppliedId = some v →
      ∃ id, v = .str id ∧ id ≠ [] := by
    intro e v he hv
    obtain ⟨i, hi⟩ := List.mem_iff_getElem?.mp he
    obtain ⟨f, hf, hmakes⟩ := exists_made hmakes hi
    exact exists_suppliedId hfloat hmakes
      (fun text => parsed_of_answer hanswer hord (List.mem_of_getElem? hf)) hv
  refine ⟨members, fragments, _, hread, get?_attachStatus response result, ?_⟩
  constructor
  · intro haligned e he
    obtain ⟨k, hk⟩ := List.mem_iff_getElem?.mp he
    obtain ⟨st, hst, hid⟩ := hstatus hk
    obtain ⟨entry, hentry, hget⟩ := haligned.ids k e hk
    rw [List.getElem?_map, hst, Option.map_some, Option.some.injEq, Json.obj.injEq] at hentry
    rw [← hentry, get?_id_entry, hid] at hget
    cases hsome : e.suppliedId with
    | none =>
        rw [Element.id, hsome] at hget
        cases hget
    | some v =>
        obtain ⟨id, rfl, hne⟩ := hsupplied he hsome
        have hvalid := (validStatus_iff _).mp haligned.valid _
          (List.mem_map_of_mem (List.mem_of_getElem? hst))
        rw [validEntry_entry, hid, Element.id, hsome] at hvalid
        have hname : (decodeName (.str id : Value)).isSome = true := hvalid
        rw [decodeName, Option.isSome_ite] at hname
        exact ⟨id, rfl, hname.2⟩
  · intro hcondition
    have hvalid : ∀ st ∈ result.statuses, validEntry (.obj st.entry) := by
      intro st hst
      obtain ⟨k, hk⟩ := List.mem_iff_getElem?.mp hst
      obtain ⟨hlt, -⟩ := List.getElem?_eq_some_iff.mp hk
      rw [hlength] at hlt
      have he := List.getElem?_eq_getElem hlt
      obtain ⟨st', hst', hid⟩ := hstatus he
      cases hk.symm.trans hst'
      obtain ⟨id, hsome, hle⟩ := hcondition _ (List.mem_of_getElem? he)
      obtain ⟨id', heq, hne⟩ := hsupplied (List.mem_of_getElem? he) hsome
      cases heq
      have hname : (decodeName (.str id : Value)).isSome = true := by
        rw [decodeName, Option.isSome_ite]
        exact ⟨List.length_pos_iff.mpr hne, hle⟩
      rw [validEntry_entry, hid, Element.id, hsome]
      exact hname
    refine ⟨by rw [List.length_map, hlength], ?_, fun k e hk => ?_⟩
    · rw [validStatus_iff, List.forall_mem_map]
      exact hvalid
    · obtain ⟨st, hst, hid⟩ := hstatus hk
      obtain ⟨id, hsome, -⟩ := hcondition e (List.mem_of_getElem? hk)
      refine ⟨st.entry, by rw [List.getElem?_map, hst]; rfl, ?_⟩
      rw [get?_id_entry, hid, Element.id, hsome]
      rfl

section

attribute [local instance] reference

theorem aligned_iff_chatBody : ∃ upstream result t,
    prepare (inMemoryGateway .bypass) chatBody alice (0 : ℕ) (lit "req-1") ∅ =
        (.ok (.accepted upstream result), t) ∧
      ∃ members fragments entries, readBody chatBody = .ok (members, fragments) ∧
        Json.get? (lit "cache_status") (attachStatus [] result) = some (.arr entries) ∧
        (Aligned members entries ↔ ∀ e ∈ elements members,
          ∃ id, e.suppliedId = some (.str id) ∧ id.length ≤ 256) := by
  obtain ⟨upstream, result, t, h⟩ := exists_accepted
    (show isAccepted (prepare (inMemoryGateway .bypass) chatBody alice (0 : ℕ)
      (lit "req-1") ∅).1 = true by decide +kernel)
  exact ⟨upstream, result, t, h,
    aligned_iff floatsReadBack_reference (inMemoryGateway .bypass) h []⟩

/-- One message, without an intent. -/
def bareBody : Str :=
  Json.dumps .default
    (.obj [(lit "messages", .arr [.obj [(lit "content", .str (lit "hi"))]])] : Value)

/-- The ids in the entries of an accepted request. -/
def reportedIds : Except PyError Prepared → List (Option Value)
  | .ok (.accepted _ result) => result.statuses.map fun s => Json.get? (lit "id") s.entry
  | _ => []

/-- The entry of a message without an intent goes by an id that nobody supplied. -/
theorem not_aligned :
    ¬ ∀ (mode : OnUnenforceable) (body : Str) (s t : Entries) (members : List (Str × Value))
      (fragments : List Fragment) (upstream : List (Str × Value)) (result : Result)
      (entries : List Value), readBody body = .ok (members, fragments) →
        prepare (inMemoryGateway mode) body alice (0 : ℕ) (lit "req-1") s =
          (.ok (.accepted upstream result), t) →
            Json.get? (lit "cache_status") (attachStatus [] result) = some (.arr entries) →
              Aligned members entries := by
  intro h
  obtain ⟨upstream, result, t, hprepare⟩ := exists_accepted
    (show isAccepted (prepare (inMemoryGateway .bypass) bareBody alice (0 : ℕ)
      (lit "req-1") ∅).1 = true by decide +kernel)
  obtain ⟨members, fragments, r, hread, -, -⟩ := handled_of_accepted hprepare
  have haligned := h .bypass bareBody ∅ t members fragments upstream result _ hread hprepare
    (get?_attachStatus [] result)
  have hids : reportedIds (prepare (inMemoryGateway .bypass) bareBody alice (0 : ℕ)
      (lit "req-1") ∅).1 = [some (.str (lit "message[0]"))] := by decide +kernel
  have hnone : (readBody bareBody).toOption.map (fun x => (elements x.1).map Element.suppliedId) =
      some [none] := by decide +kernel
  rw [hread] at hnone
  rw [hprepare] at hids
  have hnone := Option.some.inj hnone
  obtain ⟨e, he, hsupplied⟩ := List.map_eq_singleton_iff.mp hnone
  obtain ⟨st, hst, hid⟩ := List.map_eq_singleton_iff.mp
    (show result.statuses.map (fun s => Json.get? (lit "id") s.entry) = _ from hids)
  obtain ⟨entry, hentry, hget⟩ := haligned.ids 0 e (by rw [he]; rfl)
  rw [hst] at hentry
  cases hentry
  rw [hid, hsupplied] at hget
  cases hget

end

end CacheControl

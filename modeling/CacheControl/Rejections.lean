import CacheControl.Causes
import CacheControl.Contents
import CacheControl.Narrowing

/-!
# Rejections

Which requests are rejected, and the code that the binding reports for the cause.
-/

open PyText

namespace CacheControl

section

variable [Runtime] {σ : Type} {g : Gateway σ} {fragments : List Fragment} {e : PyError}
  {members : List (Str × Value)} {body requestId : Str} {auth : AuthContext} {now : Time} {s : σ}
  {code : ErrorCode}

theorem rejected_of_answer (hread : readBody body = .ok (members, fragments))
    (h : (g.answer (callFor fragments auth now requestId) s).1 = .error e) :
    (prepare g body auth now requestId s).1 = .ok (.rejected (handleErrorCode e) e) := by
  have hattempt : Prog.attempt (g.handle fragments auth now requestId none false) s =
      (.ok (.error e), (g.answer (callFor fragments auth now requestId) s).2) :=
    Prod.ext (congrArg Except.ok h) rfl
  rw [prepare_eq, hread]
  dsimp only
  unfold prepareFragments
  rw [Prog.bind_of_ok hattempt]
  rfl

/-- A body is rejected because it cannot be read, or for what the gateway raises. -/
theorem cause_of_rejected
    (h : (prepare g body auth now requestId s).1 = .ok (.rejected code e)) :
    (readBody body = .error e ∧ code = .invalid) ∨
      ∃ members fragments, readBody body = .ok (members, fragments) ∧
        (g.answer (callFor fragments auth now requestId) s).1 = .error e ∧
        code = handleErrorCode e := by
  rw [prepare_eq] at h
  cases hread : readBody body with
  | error e' =>
      rw [hread] at h
      cases h
      exact .inl ⟨rfl, rfl⟩
  | ok read =>
      obtain ⟨members, fragments⟩ := read
      refine .inr ⟨members, fragments, rfl, ?_⟩
      rw [hread] at h
      dsimp only at h
      cases hanswer : (g.answer (callFor fragments auth now requestId) s).1 with
      | error e' =>
          have hrejected := rejected_of_answer hread hanswer
          rw [prepare_eq, hread] at hrejected
          cases h.symm.trans hrejected
          exact ⟨rfl, rfl⟩
      | ok r =>
          have hattempt : Prog.attempt (g.handle fragments auth now requestId none false) s =
              (.ok (.ok r), (g.answer (callFor fragments auth now requestId) s).2) :=
            Prod.ext (congrArg Except.ok hanswer) rfl
          unfold prepareFragments at h
          rw [Prog.bind_of_ok hattempt] at h
          obtain ⟨lowered, -, hfinish⟩ := bind_eq_ok_iff.mp
            (show finish g.backend members auth requestId r = .ok (.rejected code e) from h)
          cases hfinish

theorem ordered_callFor_eq : (callFor fragments auth now requestId).ordered =
    (checkIds fragments).map fun _ => fragments := by
  show (checkIds fragments >>= fun _ => pure fragments) = _
  cases checkIds fragments <;> rfl

theorem answer_of_checkIds_error (h : checkIds fragments = .error e) :
    (g.answer (callFor fragments auth now requestId) s).1 = .error e := by
  have hordered : (callFor fragments auth now requestId).ordered = .error e := by
    rw [ordered_callFor_eq, h]
    rfl
  rw [answer_of_error hordered]

/-- What the gateway raises for a body: an id is repeated, the ids cannot be compared,
or it is raised for a fragment that was reached. -/
theorem causes_of_answer (hb : g.backend.RaisesNoIntentError)
    (h : (g.answer (callFor fragments auth now requestId) s).1 = .error e) :
    checkIds fragments = .error e ∨ checkIds fragments = .ok () ∧
      ∃ v ∈ g.trace [callFor fragments auth now requestId] s, v.item ∈ fragments ∧
        (v.item.Unread e ∨ (g.onUnenforceable = .reject ∧
          (∃ p, p <+: fragments ∧ Fails g.backend.capabilities p) ∧ Unenforced e) ∨
            NotIntentError e) := by
  cases hids : checkIds fragments with
  | error e' =>
      cases (answer_of_checkIds_error hids).symm.trans h
      exact .inl rfl
  | ok u =>
      have hordered : (callFor fragments auth now requestId).ordered = .ok fragments := by
        rw [ordered_callFor_eq, hids]
        rfl
      obtain ⟨v, hv, hraise⟩ := (answer_error_iff hordered).mp h
      obtain ⟨ordered, hordered', hsent⟩ := sent_prefix_of_mem hv
      cases hordered.symm.trans hordered'
      obtain ⟨-, -, hcall⟩ := mem_trace_single.mp hv
      rw [← hcall] at hraise
      refine .inr ⟨rfl, v, hv, hsent.subset (by simp [Event.sent]), ?_⟩
      rcases causes_of_turn hb (follows_of_mem hv) hraise with
        hunread | ⟨hmode, hfails, hunenforced⟩ | hnot
      · exact .inl hunread
      · exact .inr (.inl ⟨hmode, ⟨v.sent, hsent, hfails⟩, hunenforced⟩)
      · exact .inr (.inr hnot)

/-- An intent that is reached and cannot be read ends the request. -/
theorem answer_of_unread {c : Call} {v : Event σ} (hv : v ∈ g.trace [c] s)
    (h : v.item.Unread e) : (g.answer c s).1 = .error e := by
  obtain ⟨ordered, hordered, -⟩ := sent_prefix_of_mem hv
  obtain ⟨-, -, hcall⟩ := mem_trace_single.mp hv
  refine (answer_error_iff hordered).mpr ⟨v, hv, ?_⟩
  obtain ⟨text, htext, hparse⟩ := h
  have henter : enter g.backend.capabilities v.acc v.item = .error e := by
    unfold enter
    dsimp only
    split
    · rename_i hnone
      cases hnone.symm.trans htext
    · rename_i text' htext'
      cases htext'.symm.trans htext
      rw [hparse]
      rfl
  unfold Gateway.turn Gateway.handleFragment
  rw [henter]
  rfl

/-! ## Repeated ids -/

/-- In bypass mode, a body with readable intents is rejected for repeated ids where two of
the names that its elements go by are equal. -/
theorem rejected_for_ids_iff (hfloat : Json.FloatsReadBack Runtime.Float)
    (hb : g.backend.RaisesNoIntentError) (hmode : g.onUnenforceable = .bypass)
    (hread : readBody body = .ok (members, fragments))
    (hintents : ∀ f ∈ fragments, ∀ text, f.intentJson = some text →
      ∃ intent, parseCacheIntent text = .ok intent) :
    (∃ code, (prepare g body auth now requestId s).1 =
        .ok (.rejected code .duplicateFragmentId)) ↔
      SuppliedTwice (elements members) ∨ ¬NamesApart (elements members) := by
  obtain ⟨-, hmakes⟩ := makes_of_readBody hread
  have hstr : ∀ x ∈ elements members, ∀ v, x.suppliedId = some v → ∃ id, v = .str id := by
    intro x hx v hv
    obtain ⟨i, hi⟩ := List.mem_iff_getElem?.mp hx
    obtain ⟨f, hf, hmake⟩ := exists_made hmakes hi
    obtain ⟨id, hid, -⟩ :=
      exists_suppliedId hfloat hmake (hintents f (List.mem_of_getElem? hf)) hv
    exact ⟨id, hid⟩
  have hids := checkIds_error_iff (e := .duplicateFragmentId) hmakes hstr
  rw [eq_self_iff_true, true_and] at hids
  rw [← hids]
  constructor
  · rintro ⟨code, hrejected⟩
    rcases cause_of_rejected hrejected with ⟨herror, -⟩ | ⟨members', fragments', hread', hanswer, -⟩
    · cases hread.symm.trans herror
    cases hread.symm.trans hread'
    rcases causes_of_answer hb hanswer with hcheck | ⟨-, v, -, hitem, hcause⟩
    · exact hcheck
    · rcases hcause with ⟨text, htext, hparse⟩ | ⟨hreject, -⟩ | hnot
      · obtain ⟨intent, hintent⟩ := hintents _ hitem text htext
        cases hintent.symm.trans hparse
      · cases hmode.symm.trans hreject
      · cases hnot
  · intro hcheck
    exact ⟨_, rejected_of_answer hread (answer_of_checkIds_error hcheck)⟩

/-! ## Codes -/

/-- The intent of the element declares an integer version other than 1. -/
def Element.DeclaresOther (x : Element) : Prop :=
  ∃ v n, Json.get? cacheIntentName x.value.members = some v ∧ versionOf v = some n ∧ n ≠ 1

/-- The text of the fragment's intent repeats a member name. -/
def Fragment.RepeatsName (f : Fragment) : Prop :=
  ∃ text k, f.intentJson = some text ∧ loadsStrict text = .error (.duplicateMemberName k)

/-- The code of a rejection says what went wrong. -/
structure TellsCause (g : Gateway σ) (body : Str) (code : ErrorCode) (cause : PyError) :
    Prop where
  unenforceable : code = .unenforceable → g.onUnenforceable = .reject ∧
    ∃ members fragments, readBody body = .ok (members, fragments) ∧
      ∃ p, p <+: fragments ∧ Fails g.backend.capabilities p
  unsupported : code = .unsupportedVersion →
    ∃ members fragments, readBody body = .ok (members, fragments) ∧
      ∃ x ∈ elements members, x.DeclaresOther
  invalid : ¬Unenforced cause → (∀ n, cause ≠ .unsupportedVersion n) → code = .invalid

theorem tellsCause_invalid : TellsCause g body .invalid e :=
  ⟨by rintro ⟨⟩, by rintro ⟨⟩, fun _ _ => rfl⟩

omit [Runtime] in
theorem handleErrorCode_of_not (h : NotIntentError e) : handleErrorCode e = .invalid := by
  unfold handleErrorCode
  split
  · cases h
  · rw [show e.isCacheIntentError = false from h]
    rfl

theorem exists_maker {xs : List Element} (h : List.Forall₂ Makes xs fragments) {f : Fragment}
    (hf : f ∈ fragments) : ∃ x ∈ xs, Makes x f := by
  induction h with
  | nil => cases hf
  | @cons x f' xs fragments hmakes _ ih =>
      rcases List.mem_cons.mp hf with rfl | hf
      · exact ⟨x, List.mem_cons_self, hmakes⟩
      · obtain ⟨y, hy, hmakes⟩ := ih hf
        exact ⟨y, List.mem_cons_of_mem _ hy, hmakes⟩

/-- A body without lone surrogates is written for no intent with a repeated name. -/
theorem not_repeatsName (hfloat : Json.FloatsReadBack Runtime.Float) (hbody : Json.Scalars body)
    (hread : readBody body = .ok (members, fragments)) {f : Fragment} (hf : f ∈ fragments) :
    ¬f.RepeatsName := by
  rintro ⟨text, k, htext, hload⟩
  obtain ⟨hloaded, hmakes⟩ := makes_of_readBody hread
  obtain ⟨x, hx, item, hitem, -, rfl⟩ := exists_maker hmakes hf
  obtain ⟨w, hget, rfl⟩ := Option.map_eq_some_iff.mp htext
  have hmember : (cacheIntentName, w) ∈ item := Json.mem_of_get? hget
  obtain ⟨name, items, harray, hvalue⟩ :=
    exists_array_of_mem (hitem ▸ value_of_mem_elements hx : Json.obj item ∈ elementsOf x.kind members)
  have hunsplit : Json.Unsplit w := by
    have hitems := (Json.unsplit_obj_iff.mp (unsplit_of_loadsStrict hbody hloaded) _ harray).2
    exact (Json.unsplit_obj_iff.mp (Json.unsplit_arr_iff.mp hitems _ hvalue) _ hmember).2
  have hdistinct : w.Distinct := by
    have hitems := (Json.distinct_obj_iff.mp (distinct_of_loadsStrict hloaded)).2 _ harray
    exact (Json.distinct_obj_iff.mp (Json.distinct_arr_iff.mp hitems _ hvalue)).2 _ hmember
  have hrejoin : (Json.obj [(cacheIntentName, w)] : Value).rejoin =
      .obj [(cacheIntentName, w)] := by
    have hname : Json.joined cacheIntentName = cacheIntentName := by decide +kernel
    rw [Json.rejoin_obj, List.map_singleton, hname, hunsplit]
  obtain ⟨hread, -⟩ := loadsStrict_dumps hfloat (Json.obj [(cacheIntentName, w)])
  rw [hrejoin] at hread
  cases hload.symm.trans (hread (Json.distinct_obj_iff.mpr
    ⟨List.nodup_singleton _, by simpa using hdistinct⟩))

/-- An intent cannot be read because it repeats a name, declares another version, or for
a reason that is none of the program's own. -/
theorem cause_of_unread (hfloat : Json.FloatsReadBack Runtime.Float)
    (hread : readBody body = .ok (members, fragments)) {f : Fragment} (hf : f ∈ fragments)
    (h : f.Unread e) :
    f.RepeatsName ∨ (∃ n, e = .unsupportedVersion n ∧ ∃ x ∈ elements members, x.DeclaresOther) ∨
      NotIntentError e := by
  obtain ⟨-, hmakes⟩ := makes_of_readBody hread
  obtain ⟨text, htext, hparse⟩ := h
  obtain ⟨x, hx, item, hvalue, -, hmade⟩ := exists_maker hmakes hf
  obtain ⟨w, hget, rfl⟩ := Option.map_eq_some_iff.mp
    (show (Json.get? cacheIntentName item).map intentDocument = some text by
      rw [← htext, hmade]
      rfl)
  rcases parse_error hfloat hparse with ⟨k, rfl, hload⟩ | ⟨n, hne, rfl, hversion⟩ | hnot
  · exact .inl ⟨_, k, htext, hload⟩
  · refine .inr (.inl ⟨n, rfl, x, hx, w, n, ?_, hversion, hne⟩)
    rw [hvalue]
    exact hget
  · exact .inr (.inr hnot)

/-- Repeated ids, and repeated names in an intent, are reported as unenforceable. -/
theorem rejected_of_repeats (hread : readBody body = .ok (members, fragments))
    (h : RepeatsId (((elements members).map Element.id).filter fun v => ¬isNull v) ∨
      ∃ v ∈ g.trace [callFor fragments auth now requestId] s, v.item.RepeatsName) :
    ∃ cause, (prepare g body auth now requestId s).1 = .ok (.rejected .unenforceable cause) ∧
      ¬Unenforced cause ∧ ∀ n, cause ≠ .unsupportedVersion n := by
  rcases h with hrepeats | ⟨v, hv, text, k, htext, hload⟩
  · obtain ⟨-, hmakes⟩ := makes_of_readBody hread
    rw [← ids_of_makes hmakes] at hrepeats
    exact ⟨.duplicateFragmentId, rejected_of_answer hread
      (answer_of_checkIds_error (checkIds_eq_duplicate_iff.mpr hrepeats)),
      (by rintro ⟨reason, h⟩; cases h), (by rintro n h; cases h)⟩
  · have hunread : v.item.Unread (.duplicateMemberName k) :=
      ⟨text, htext, by rw [parseCacheIntent, hload]; rfl⟩
    exact ⟨.duplicateMemberName k, rejected_of_answer hread (answer_of_unread hv hunread),
      (by rintro ⟨reason, h⟩; cases h), (by rintro n h; cases h)⟩

end

/-- Repeated ids are rejected exactly where they are supplied unless an id that was
supplied is the name by position of an element that supplies none. -/
theorem repeated_ids_iff [Runtime] {σ : Type} (hfloat : Json.FloatsReadBack Runtime.Float)
    (b : Backend σ) (hb : b.RaisesNoIntentError) {body : Str} {members : List (Str × Value)}
    {fragments : List Fragment} (hread : readBody body = .ok (members, fragments))
    (hintents : ∀ f ∈ fragments, ∀ text, f.intentJson = some text →
      ∃ intent, parseCacheIntent text = .ok intent)
    (auth : AuthContext) (now : Time) (requestId : Str) (s : σ) :
    ((∃ code, (prepare ⟨b, .bypass⟩ body auth now requestId s).1 =
        .ok (.rejected code .duplicateFragmentId)) ↔ SuppliedTwice (elements members)) ↔
      (SuppliedTwice (elements members) ∨ NamesApart (elements members)) := by
  rw [rejected_for_ids_iff hfloat (g := ⟨b, .bypass⟩) hb rfl hread hintents]
  by_cases htwice : SuppliedTwice (elements members)
  · simp [htwice]
  · simp [htwice]

/-- The codes tell the cause exactly where the ids are not repeated and no intent that was
reached is written with a repeated name; no body without lone surrogates leads to
the latter. -/
theorem codes_tell_cause_iff [Runtime] {σ : Type} (hfloat : Json.FloatsReadBack Runtime.Float)
    (g : Gateway σ) (hb : g.backend.RaisesNoIntentError) (body : Str) (auth : AuthContext)
    (now : Time) (requestId : Str) (s : σ) :
    ((∀ code cause, (prepare g body auth now requestId s).1 = .ok (.rejected code cause) →
        TellsCause g body code cause) ↔
      ∀ members fragments, readBody body = .ok (members, fragments) →
        ¬RepeatsId (((elements members).map Element.id).filter fun v => ¬isNull v) ∧
          ∀ v ∈ g.trace [callFor fragments auth now requestId] s, ¬v.item.RepeatsName) ∧
    (Json.Scalars body → ∀ members fragments, readBody body = .ok (members, fragments) →
      ∀ f ∈ fragments, ¬f.RepeatsName) := by
  refine ⟨⟨fun htells members fragments hread => ?_, fun hcondition code cause hrejected => ?_⟩,
    fun hbody members fragments hread f hf => not_repeatsName hfloat hbody hread hf⟩
  · have hnone : ¬(RepeatsId (((elements members).map Element.id).filter fun v => ¬isNull v) ∨
        ∃ v ∈ g.trace [callFor fragments auth now requestId] s, v.item.RepeatsName) := by
      intro hrepeats
      obtain ⟨cause, hrejected, hunenforced, hversion⟩ := rejected_of_repeats hread hrepeats
      cases (htells _ cause hrejected).invalid hunenforced hversion
    exact ⟨fun hids => hnone (.inl hids), fun v hv hname => hnone (.inr ⟨v, hv, hname⟩)⟩
  · rcases cause_of_rejected hrejected with ⟨-, rfl⟩ | ⟨members, fragments, hread, hanswer, rfl⟩
    · exact tellsCause_invalid
    obtain ⟨hids, hnames⟩ := hcondition members fragments hread
    obtain ⟨-, hmakes⟩ := makes_of_readBody hread
    rw [← ids_of_makes hmakes, ← checkIds_eq_duplicate_iff] at hids
    rcases causes_of_answer hb hanswer with hcheck | ⟨-, v, hv, hitem, hcause⟩
    · rcases checkIds_error hcheck with rfl | rfl
      · exact absurd hcheck hids
      · exact tellsCause_invalid
    rcases hcause with hunread | ⟨hmode, hfails, reason, rfl⟩ | hnot
    · rcases cause_of_unread hfloat hread hitem hunread with hname | ⟨n, rfl, hother⟩ | hnot
      · exact absurd hname (hnames v hv)
      · exact ⟨by rintro ⟨⟩, fun _ => ⟨members, fragments, hread, hother⟩,
          fun _ hversion => absurd rfl (hversion n)⟩
      · exact handleErrorCode_of_not hnot ▸ tellsCause_invalid
    · exact ⟨fun _ => ⟨hmode, members, fragments, hread, hfails⟩, by rintro ⟨⟩,
        fun hother => absurd ⟨reason, rfl⟩ hother⟩
    · exact handleErrorCode_of_not hnot ▸ tellsCause_invalid

section

attribute [local instance] reference

/-- An intent with an id, for the prompt of a message. -/
def namedIntent (id : String) : Value :=
  match intentValue (.allow none) "exact" "tenant" with
  | .obj intent => .obj ((lit "id", .str (lit id)) :: intent)
  | v => v

def isReadable (body : Str) : Bool :=
  match readBody body with
  | .ok (_, fragments) => fragments.all fun f =>
      match f.intentJson with
      | some text => (parseCacheIntent text).toBool
      | none => true
  | .error _ => false

theorem exists_readable {body : Str} (h : isReadable body = true) : ∃ members fragments,
    readBody body = .ok (members, fragments) ∧ ∀ f ∈ fragments, ∀ text,
      f.intentJson = some text → ∃ intent, parseCacheIntent text = .ok intent := by
  unfold isReadable at h
  split at h
  · rename_i members fragments hread
    refine ⟨members, fragments, hread, fun f hf text htext => exists_ok ?_⟩
    have hparsed := List.all_eq_true.mp h f hf
    rwa [htext] at hparsed
  · cases h

theorem repeated_ids_iff_chatBody : ∃ members fragments,
    readBody chatBody = .ok (members, fragments) ∧
      (((∃ code, (prepare (inMemoryGateway .bypass) chatBody alice (0 : ℕ) (lit "req-1") ∅).1 =
          .ok (.rejected code .duplicateFragmentId)) ↔ SuppliedTwice (elements members)) ↔
        (SuppliedTwice (elements members) ∨ NamesApart (elements members))) := by
  obtain ⟨members, fragments, hread, hintents⟩ :=
    exists_readable (show isReadable chatBody = true by decide +kernel)
  exact ⟨members, fragments, hread,
    repeated_ids_iff floatsReadBack_reference inMemoryBackend
      (Shipped.inMemory inMemoryBackend.capabilities).raisesNoIntentError hread hintents alice
      (0 : ℕ) (lit "req-1") ∅⟩

/-- Two messages; the first goes by the name that the second has by its position. -/
def clashingBody : Str :=
  Json.dumps .default (.obj [(lit "messages", .arr
    [.obj [(lit "content", .str (lit "a")), (lit "cache_intent", namedIntent "message[1]")],
      .obj [(lit "content", .str (lit "b"))]])] : Value)

def isRepeated : Except PyError Prepared → Bool
  | .ok (.rejected _ .duplicateFragmentId) => true
  | _ => false

theorem exists_repeated {x : Except PyError Prepared} (h : isRepeated x = true) :
    ∃ code, x = .ok (.rejected code .duplicateFragmentId) := by
  unfold isRepeated at h
  split at h
  · rename_i code
    exact ⟨code, rfl⟩
  · cases h

/-- One supplied id is enough for a rejection. -/
theorem not_repeated_ids :
    ¬ ∀ (body : Str) (s : Entries) (members : List (Str × Value)) (fragments : List Fragment),
      readBody body = .ok (members, fragments) →
        (∀ f ∈ fragments, ∀ text, f.intentJson = some text →
          ∃ intent, parseCacheIntent text = .ok intent) →
        ((∃ code, (prepare (inMemoryGateway .bypass) body alice (0 : ℕ) (lit "req-1") s).1 =
          .ok (.rejected code .duplicateFragmentId)) ↔ SuppliedTwice (elements members)) := by
  intro h
  obtain ⟨members, fragments, hread, hintents⟩ :=
    exists_readable (show isReadable clashingBody = true by decide +kernel)
  have hrepeated : isRepeated (prepare (inMemoryGateway .bypass) clashingBody alice (0 : ℕ)
      (lit "req-1") ∅).1 = true := by decide +kernel
  obtain ⟨x, y, hsub, id, hx, hy⟩ :=
    (h clashingBody ∅ members fragments hread hintents).mp (exists_repeated hrepeated)
  have hids : (readBody clashingBody).toOption.map
      (fun r => (elements r.1).map Element.suppliedId) =
        some [some (.str (lit "message[1]")), none] := by decide +kernel
  rw [hread] at hids
  have hsupplied := hsub.map Element.suppliedId
  rw [show (elements members).map Element.suppliedId = _ from Option.some.inj hids,
    List.map_cons, List.map_singleton, hx, hy] at hsupplied
  cases hsupplied.eq_of_length rfl

theorem codes_tell_cause_iff_chatBody :
    ((∀ code cause, (prepare (inMemoryGateway .reject) chatBody alice (0 : ℕ) (lit "req-1") ∅).1 =
        .ok (.rejected code cause) → TellsCause (inMemoryGateway .reject) chatBody code cause) ↔
      ∀ members fragments, readBody chatBody = .ok (members, fragments) →
        ¬RepeatsId (((elements members).map Element.id).filter fun v => ¬isNull v) ∧
          ∀ v ∈ (inMemoryGateway .reject).trace [callFor fragments alice (0 : ℕ) (lit "req-1")] ∅,
            ¬v.item.RepeatsName) ∧
    (Json.Scalars chatBody → ∀ members fragments, readBody chatBody = .ok (members, fragments) →
      ∀ f ∈ fragments, ¬f.RepeatsName) :=
  codes_tell_cause_iff floatsReadBack_reference (inMemoryGateway .reject)
    (Shipped.inMemory inMemoryBackend.capabilities).raisesNoIntentError chatBody alice (0 : ℕ)
    (lit "req-1") ∅

/-- Two messages with one id. -/
def repeatingBody : Str :=
  sampleBody [("a", namedIntent "a"), ("b", namedIntent "a")]

/-- A repeated id is reported as a constraint that cannot be enforced. -/
theorem not_codes_tell_cause :
    ¬ ∀ (mode : OnUnenforceable) (body : Str) (s : Entries) (code : ErrorCode) (cause : PyError),
      (prepare (inMemoryGateway mode) body alice (0 : ℕ) (lit "req-1") s).1 =
        .ok (.rejected code cause) → TellsCause (inMemoryGateway mode) body code cause := by
  intro h
  have hrepeated : isRepeated (prepare (inMemoryGateway .bypass) repeatingBody alice (0 : ℕ)
      (lit "req-1") ∅).1 = true := by decide +kernel
  obtain ⟨code, hrejected⟩ := exists_repeated hrepeated
  have htells := h .bypass repeatingBody ∅ code .duplicateFragmentId hrejected
  rcases cause_of_rejected hrejected with ⟨hread, -⟩ | ⟨members, fragments, hread, hanswer, rfl⟩
  · have hreads : (readBody repeatingBody).toBool = true := by decide +kernel
    rw [hread] at hreads
    cases hreads
  · cases (htells.unenforceable rfl).1

end

end CacheControl

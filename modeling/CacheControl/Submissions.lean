import CacheControl.Lowering
import CacheControl.Scopes

/-!
# Submissions to the binding

A body is read into fragments before any policy is applied, and a body that
cannot be read is rejected without touching the gateway.  A session prepares one
submission after another.
-/

open PyText

namespace CacheControl

variable [Runtime] {σ : Type}

/-! ## Reading a body -/

/-- The members of a body and its fragments. -/
def readBody (body : Str) : Except PyError (List (Str × Value) × List Fragment) := do
  let request ← loadsStrict body
  let fragments ← extractFragments request
  pure (request.members, fragments)

/-- An accepted request was handled and finished. -/
theorem handled_of_accepted {g : Gateway σ} {body requestId : Str} {auth : AuthContext}
    {now : Time} {s t : σ} {upstream : List (Str × Value)} {result : Result}
    (h : prepare g body auth now requestId s = (.ok (.accepted upstream result), t)) :
    ∃ members fragments r, readBody body = .ok (members, fragments) ∧
      g.answer (callFor fragments auth now requestId) s = (.ok r, t) ∧
      finish g.backend members auth requestId r = .ok (.accepted upstream result) := by
  obtain ⟨request, fragments, r, hload, hextract, hanswer, hfinish⟩ := exists_handled h
  refine ⟨request.members, fragments, r, ?_, hanswer, hfinish⟩
  rw [readBody, hload]
  show (extractFragments request >>= _) = _
  rw [hextract]
  rfl

theorem rejectDuplicates_error {pairs : List (Str × Value)} {e : PyError}
    (h : rejectDuplicates pairs = .error e) : ∃ k, e = .duplicateMemberName k := by
  unfold rejectDuplicates at h
  split at h
  · cases h
    exact ⟨_, rfl⟩
  · cases h

theorem loadsStrict_error {text : Str} {e : PyError} (h : loadsStrict text = .error e) :
    (∃ k, e = .duplicateMemberName k) ∨ e = .jsonDecodeError := by
  unfold loadsStrict at h
  split at h
  · cases h
  · cases h
    exact .inr rfl
  · rename_i e' hload
    cases h
    obtain ⟨pairs, hpairs⟩ := Json.fromHook_loads text _ hload
    exact .inl (rejectDuplicates_error hpairs)

theorem isLoadError_of_loadsStrict {body : Str} {e : PyError} (h : loadsStrict body = .error e) :
    isLoadError e = true := by
  rcases loadsStrict_error h with ⟨k, rfl⟩ | rfl <;> rfl

/-- What an element has to pass besides being an object. -/
def checkItem (kind : FragmentKind) (item : List (Str × Value)) (index : ℕ) : Except PyError Unit :=
  match kind with
  | .tool => .ok ()
  | .message => rejectContentPartIntents item index

theorem extractItems_obj (kind : FragmentKind) (n : ℕ) (item : List (Str × Value))
    (items : List Value) : extractItems kind n (.obj item :: items) = (do
      checkItem kind item n
      let rest ← extractItems kind (n + 1) items
      pure (fragmentOf kind n item :: rest)) := by
  cases kind <;> rfl

/-- Every error of the program is a `CacheIntentError`. -/
def RaisesIntentError {α : Type} (x : Except PyError α) : Prop :=
  ∀ e, x = .error e → e.isCacheIntentError = true

omit [Runtime] in
theorem raisesIntentError_ok {α : Type} (a : α) :
    RaisesIntentError (.ok a : Except PyError α) := Prog.throws_ok _ a

omit [Runtime] in
theorem RaisesIntentError.bind {α β : Type} {x : Except PyError α} {f : α → Except PyError β}
    (hx : RaisesIntentError x) (hf : ∀ a, RaisesIntentError (f a)) :
    RaisesIntentError (x >>= f) := Prog.Throws.bind hx hf

theorem raisesIntentError_checkItem (kind : FragmentKind) (item : List (Str × Value)) (n : ℕ) :
    RaisesIntentError (checkItem kind item n) := by
  intro e h
  cases kind with
  | tool => cases h
  | message =>
      simp only [checkItem, rejectContentPartIntents] at h
      split at h
      · split at h
        · cases h
          rfl
        · cases h
      · cases h

theorem raisesIntentError_extractItems (kind : FragmentKind) (n : ℕ) (items : List Value) :
    RaisesIntentError (extractItems kind n items) := by
  induction items generalizing n with
  | nil => exact raisesIntentError_ok _
  | cons v items ih =>
      cases v with
      | obj item =>
          rw [extractItems_obj]
          refine (raisesIntentError_checkItem kind item n).bind fun _ => ?_
          exact (ih (n + 1)).bind fun _ => raisesIntentError_ok _
      | null | bool | int | float | str | arr =>
          rintro e ⟨⟩
          rfl

theorem raisesIntentError_itemsOf (kind : FragmentKind) (request : List (Str × Value)) :
    RaisesIntentError (itemsOf kind request) := by
  intro e h
  unfold itemsOf at h
  split at h
  · cases h
  · cases h
  · cases h
    rfl

theorem raisesIntentError_extractFragments (v : Value) :
    RaisesIntentError (extractFragments v) := by
  cases v with
  | obj request =>
      refine (raisesIntentError_itemsOf .tool request).bind fun tools => ?_
      refine (raisesIntentError_itemsOf .message request).bind fun messages => ?_
      refine (raisesIntentError_extractItems .tool 0 tools).bind fun toolFragments => ?_
      refine (raisesIntentError_extractItems .message 0 messages).bind fun messageFragments => ?_
      exact raisesIntentError_ok _
  | null | bool | int | float | str | arr =>
      rintro e ⟨⟩
      rfl

/-- A body that cannot be read is rejected as invalid; nothing is raised. -/
theorem prepare_eq (g : Gateway σ) (body : Str) (auth : AuthContext) (now : Time)
    (requestId : Str) : prepare g body auth now requestId =
      match readBody body with
      | .error e => pure (.rejected .invalid e)
      | .ok (members, fragments) => prepareFragments g members fragments auth now requestId := by
  unfold prepare readBody
  cases hload : loadsStrict body with
  | error e => simp [isLoadError_of_loadsStrict hload, bind, Except.bind]
  | ok request =>
      cases hextract : extractFragments request with
      | error e =>
          simp [raisesIntentError_extractFragments _ _ hextract, hextract, bind, Except.bind]
      | ok fragments => simp [hextract, bind, Except.bind, pure, Except.pure]

/-! ## The fragments of a body -/

/-- The fragment was made of the element. -/
def Extracted (kind : FragmentKind) (v : Value) (f : Fragment) : Prop :=
  ∃ index item, v = .obj item ∧ f = fragmentOf kind index item

theorem extracted_of_extractItems {kind : FragmentKind} {n : ℕ} {items : List Value}
    {fragments : List Fragment} (h : extractItems kind n items = .ok fragments) :
    List.Forall₂ (Extracted kind) items fragments := by
  induction items generalizing n fragments with
  | nil => cases h; exact .nil
  | cons v items ih =>
      cases v with
      | obj item =>
          rw [extractItems_obj] at h
          obtain ⟨-, -, h⟩ := bind_eq_ok_iff.mp h
          obtain ⟨rest, hrest, h⟩ := bind_eq_ok_iff.mp h
          cases h
          exact .cons ⟨n, item, rfl, rfl⟩ (ih hrest)
      | null | bool | int | float | str | arr => cases h

theorem items_of_extractFragments {members : List (Str × Value)} {fragments : List Fragment}
    (h : extractFragments (.obj members) = .ok fragments) :
    ∃ tools messages toolFragments messageFragments,
      itemsOf .tool members = .ok tools ∧ itemsOf .message members = .ok messages ∧
      extractItems .tool 0 tools = .ok toolFragments ∧
      extractItems .message 0 messages = .ok messageFragments ∧
      fragments = toolFragments ++ messageFragments := by
  obtain ⟨tools, htools, h⟩ := bind_eq_ok_iff.mp h
  obtain ⟨messages, hmessages, h⟩ := bind_eq_ok_iff.mp h
  obtain ⟨toolFragments, htool, h⟩ := bind_eq_ok_iff.mp h
  obtain ⟨messageFragments, hmessage, h⟩ := bind_eq_ok_iff.mp h
  cases h
  exact ⟨tools, messages, toolFragments, messageFragments, htools, hmessages, htool, hmessage, rfl⟩

theorem extract_of_readBody {body : Str} {members : List (Str × Value)} {fragments : List Fragment}
    (h : readBody body = .ok (members, fragments)) :
    loadsStrict body = .ok (.obj members) ∧ extractFragments (.obj members) = .ok fragments := by
  obtain ⟨request, hload, h⟩ := bind_eq_ok_iff.mp h
  obtain ⟨fs, hextract, h⟩ := bind_eq_ok_iff.mp h
  cases h
  cases request with
  | obj members => exact ⟨hload, hextract⟩
  | null | bool | int | float | str | arr => cases hextract

theorem readBody_eq_ok {body : Str} {members : List (Str × Value)} {fragments : List Fragment}
    (h : readBody body = .ok (members, fragments)) :
    ∃ tools messages toolFragments messageFragments, loadsStrict body = .ok (.obj members) ∧
      itemsOf .tool members = .ok tools ∧ itemsOf .message members = .ok messages ∧
      List.Forall₂ (Extracted .tool) tools toolFragments ∧
      List.Forall₂ (Extracted .message) messages messageFragments ∧
      fragments = toolFragments ++ messageFragments := by
  obtain ⟨hload, hextract⟩ := extract_of_readBody h
  obtain ⟨tools, messages, toolFragments, messageFragments, htools, hmessages, htool, hmessage, rfl⟩ :=
    items_of_extractFragments hextract
  exact ⟨tools, messages, toolFragments, messageFragments, hload, htools, hmessages,
    extracted_of_extractItems htool, extracted_of_extractItems hmessage, rfl⟩

theorem exists_fragmentOf {body : Str} {members : List (Str × Value)} {fragments : List Fragment}
    (h : readBody body = .ok (members, fragments)) {f : Fragment} (hf : f ∈ fragments) :
    ∃ kind index item, f = fragmentOf kind index item := by
  have hof : ∀ {kind : FragmentKind} {items : List Value} {fs : List Fragment},
      List.Forall₂ (Extracted kind) items fs → f ∈ fs →
        ∃ index item, f = fragmentOf kind index item := by
    intro kind items fs hfs hmem
    induction hfs with
    | nil => simp at hmem
    | cons hx _ ih =>
        rcases List.mem_cons.mp hmem with rfl | hmem
        · obtain ⟨index, item, -, heq⟩ := hx
          exact ⟨index, item, heq⟩
        · exact ih hmem
  obtain ⟨tools, messages, tf, mf, -, -, -, htool, hmessage, rfl⟩ := readBody_eq_ok h
  rcases List.mem_append.mp hf with hf | hf
  · exact ⟨.tool, hof htool hf⟩
  · exact ⟨.message, hof hmessage hf⟩

theorem printable_fragmentContent (hfloat : Json.FloatsPrintable Runtime.Float)
    (item : List (Str × Value)) (kind : FragmentKind) :
    ∀ p ∈ fragmentContent item kind, Json.Printable p := by
  intro p hp
  rcases List.mem_append.mp hp with hp | hp
  · have hword : ∀ kind : FragmentKind, ∀ p ∈ kind.word ++ lit ":", Json.Printable p := by
      rintro (_ | _) <;> decide +kernel
    exact hword kind p hp
  · exact Json.printable_dumps hfloat Json.printable_canonical _ p hp

theorem printable_content (hfloat : Json.FloatsPrintable Runtime.Float) {body : Str}
    {members : List (Str × Value)} {fragments : List Fragment}
    (h : readBody body = .ok (members, fragments)) {f : Fragment} (hf : f ∈ fragments) :
    ∀ p ∈ f.content, Json.Printable p := by
  obtain ⟨kind, index, item, rfl⟩ := exists_fragmentOf h hf
  exact printable_fragmentContent hfloat item kind

theorem approxClass_eq_none {body : Str} {members : List (Str × Value)}
    {fragments : List Fragment} (h : readBody body = .ok (members, fragments)) {f : Fragment}
    (hf : f ∈ fragments) : f.approxClass = none := by
  obtain ⟨kind, index, item, rfl⟩ := exists_fragmentOf h hf
  rfl

/-! ## Sessions -/

structure Submission where
  body : Str
  auth : AuthContext
  now : Time
  requestId : Str

namespace Gateway

def submit (g : Gateway σ) (x : Submission) : Prog PyError σ Prepared :=
  prepare g x.body x.auth x.now x.requestId

def submitAll (g : Gateway σ) (xs : List Submission) (s : σ) :
    List (Except PyError Prepared) × σ :=
  Prog.session g.submit xs s

end Gateway

/-- Every identifier that a partition can show can be encoded. -/
structure Submission.Encodable (x : Submission) : Prop where
  tenant : CacheControl.Encodable x.auth.tenant
  principal : CacheControl.Encodable x.auth.principal
  session : CacheControl.Encodable x.auth.session
  requestId : CacheControl.Encodable x.requestId

theorem Submission.Encodable.partition {x : Submission} (h : x.Encodable) (b : Share) :
    CacheControl.Encodable (partitionFor b x.auth x.requestId) :=
  encodable_partitionFor h.tenant h.principal h.session h.requestId b

end CacheControl

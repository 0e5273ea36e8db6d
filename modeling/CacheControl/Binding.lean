import CacheControl.Gateway

/-!
# The OpenAI chat binding

Turns a chat request into fragments, applies the gateway's policy, and lowers
the policies of all fragments onto the one salt an engine takes per request.
-/

open PyText

namespace CacheControl

variable [Runtime] {σ : Type}

/-! ## Extracting the fragments -/

namespace FragmentKind

def word : FragmentKind → Str
  | tool => lit "tool"
  | message => lit "message"

def array : FragmentKind → Str
  | tool => lit "tools"
  | message => lit "messages"

end FragmentKind

def cacheIntentName : Str := lit "cache_intent"

def fragmentContent (item : List (Str × Value)) (kind : FragmentKind) : Str :=
  let visible := untrustedScopeFields.foldl (fun d f => Json.erase f d)
    (Json.erase cacheIntentName item)
  kind.word ++ lit ":" ++ Json.dumps .canonical (.obj visible)

def carriesIntent : Value → Bool
  | .obj part => Json.has cacheIntentName part
  | _ => false

/-- A content part is not a fragment, so an intent on one is refused. -/
def rejectContentPartIntents (message : List (Str × Value)) (index : ℕ) :
    Except PyError Unit :=
  match Json.get? (lit "content") message with
  | some (.arr content) =>
      match content.findIdx? carriesIntent with
      | some part => .error (.contentPartIntent index part)
      | none => .ok ()
  | _ => .ok ()

/-- `intent.get("id", f"tool[{index}]")`, where the intent is an object. -/
def fragmentId (kind : FragmentKind) (index : ℕ) (intent : Option Value) : Value :=
  let position : Value := .str (kind.word ++ lit "[" ++ decimal index ++ lit "]")
  match intent with
  | some (.obj members) => (Json.get? (lit "id") members).getD position
  | _ => position

def intentDocument (intent : Value) : Str :=
  Json.dumps .default (.obj [(cacheIntentName, intent)])

def fragmentOf (kind : FragmentKind) (index : ℕ) (item : List (Str × Value)) : Fragment where
  id := fragmentId kind index (Json.get? cacheIntentName item)
  content := fragmentContent item kind
  intentJson := (Json.get? cacheIntentName item).map intentDocument
  approxClass := none

def extractItems (kind : FragmentKind) : ℕ → List Value → Except PyError (List Fragment)
  | _, [] => pure []
  | index, .obj item :: items => do
      match kind with
      | .tool => pure ()
      | .message => rejectContentPartIntents item index
      let rest ← extractItems kind (index + 1) items
      pure (fragmentOf kind index item :: rest)
  | index, _ :: _ => .error (.invalidBinding (.itemNotObject kind index))

/-- `request.get(key) or []`, which has to be an array. -/
def itemsOf (kind : FragmentKind) (request : List (Str × Value)) :
    Except PyError (List Value) :=
  match (Json.get? kind.array request).filter Json.truthy with
  | none => .ok []
  | some (.arr items) => .ok items
  | some _ => .error (.invalidBinding (.notArray kind))

/-- Fragment order is every `tools` element, then every `messages` element. -/
def extractFragments : Value → Except PyError (List Fragment)
  | .obj request => do
      let tools ← itemsOf .tool request
      let messages ← itemsOf .message request
      let toolFragments ← extractItems .tool 0 tools
      let messageFragments ← extractItems .message 0 messages
      pure (toolFragments ++ messageFragments)
  | _ => .error (.invalidBinding .bodyNotObject)

/-! ## What upstream sees -/

def stripItem : Value → Value
  | .obj item => .obj (item.filter fun m => m.1 ≠ cacheIntentName ∧ m.1 ∉ untrustedScopeFields)
  | v => v

def stripItems (kind : FragmentKind) (request : List (Str × Value)) : List (Str × Value) :=
  match Json.get? kind.array request with
  | some (.arr items) => Json.set kind.array (.arr (items.map stripItem)) request
  | _ => request

def strippedFields (kind : FragmentKind) : Value → List Str
  | .obj item =>
      (untrustedScopeFields.filter fun f => Json.has f item).map
        fun f => kind.array ++ lit "." ++ f
  | _ => []

def strippedOf (kind : FragmentKind) (request : List (Str × Value)) : List Str :=
  match Json.get? kind.array request with
  | some (.arr items) => items.flatMap (strippedFields kind)
  | _ => []

/-- Remove everything upstream must not see. -/
def stripBindingMembers (request : List (Str × Value)) : List (Str × Value) × List Str :=
  let (cleaned, stripped) := stripUntrustedScope request
  (stripItems .message (stripItems .tool cleaned),
    stripped ++ strippedOf .tool request ++ strippedOf .message request)

/-! ## One salt for the request -/

def FragmentStatus.isGoverned (status : FragmentStatus) : Bool := status.effectiveReuse.isSome

def FragmentStatus.mustBypass (status : FragmentStatus) : Bool :=
  status.outcome = .bypass ∨ status.effectiveReuse = some .none ∨
    status.effectiveRetentionMode = some .forbid

def narrowestShare (status : FragmentStatus) (statuses : List FragmentStatus) : Share :=
  if (status :: statuses).any FragmentStatus.mustBypass then .request
  else (statuses.map FragmentStatus.effectiveShare).foldl min status.effectiveShare

def lastNamespace (governed : List FragmentStatus) : Option Str :=
  governed.reverse.findSome? FragmentStatus.namespaceIdentity

def lowerStatus (narrowest : Share) (status : FragmentStatus) : FragmentStatus :=
  if narrowest = .request then
    { status with
      outcome := .bypass
      effectiveShare := .request
      retention := if status.effectiveRetentionMode = some .forbid then .forbidden else .declined }
  else { status with effectiveShare := narrowest }

/-- Lower all effective policies onto one fail-closed request salt, rewriting
the governed statuses to the boundary that is used. -/
def lowerRequestSalt (backend : Backend σ) (statuses : List FragmentStatus) (auth : AuthContext)
    (requestId : Str) : Except PyError (Option Str × List FragmentStatus) :=
  match backend.saltFor, statuses.filter FragmentStatus.isGoverned with
  | some saltFor, status :: governed => do
      let narrowest := narrowestShare status governed
      let salt ← saltFor (partitionFor narrowest auth requestId)
        (lastNamespace (status :: governed))
      pure (some salt,
        statuses.map fun s => if s.isGoverned then lowerStatus narrowest s else s)
  | _, _ => pure (none, statuses)

/-! ## Preparing a request -/

inductive ErrorCode
  | invalid | unsupportedVersion | unenforceable
deriving DecidableEq

/-- An upstream request with its result, or the code of a rejection with the
exception it reports. -/
inductive Prepared
  | accepted (upstream : List (Str × Value)) (result : Result)
  | rejected (code : ErrorCode) (cause : PyError)

def handleErrorCode (e : PyError) : ErrorCode :=
  match e with
  | .unsupportedVersion _ => .unsupportedVersion
  | e => if e.isCacheIntentError then .unenforceable else .invalid

def isLoadError : PyError → Bool
  | .jsonDecodeError => true
  | e => e.isCacheIntentError

def finish (backend : Backend σ) (members : List (Str × Value)) (auth : AuthContext)
    (requestId : Str) (result : Result) : Except PyError Prepared := do
  let (cacheSalt, statuses) ← lowerRequestSalt backend result.statuses auth requestId
  let upstream := (stripBindingMembers members).1
  pure (.accepted
    (match cacheSalt with
      | some salt => Json.set (lit "cache_salt") (.str salt) upstream
      | none => upstream)
    { result with statuses, cacheSalt })

def prepareFragments (g : Gateway σ) (members : List (Str × Value)) (fragments : List Fragment)
    (auth : AuthContext) (now : Time) (requestId : Str) : Prog PyError σ Prepared := do
  match ← Prog.attempt (g.handle fragments auth now requestId none false) with
  | .error e => pure (.rejected (handleErrorCode e) e)
  | .ok result => Prog.lift (finish g.backend members auth requestId result)

/-- Parse a body and apply policy; `now` is what the clock reads. -/
def prepare (g : Gateway σ) (body : Str) (auth : AuthContext) (now : Time) (requestId : Str) :
    Prog PyError σ Prepared :=
  match loadsStrict body with
  | .error e => if isLoadError e then pure (.rejected .invalid e) else Prog.raise e
  | .ok request =>
      match extractFragments request with
      | .error e =>
          if e.isCacheIntentError then pure (.rejected .invalid e) else Prog.raise e
      | .ok fragments => prepareFragments g request.members fragments auth now requestId

end CacheControl

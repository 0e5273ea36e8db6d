import CacheControl.Intent

/-!
# Strict request parsing

`json.loads` with a hook that refuses a repeated member name, then the schema
of a version 1 cache intent.
-/

open PyText

namespace CacheControl

variable [Runtime]

def firstRepeated : List Str → List Str → Option Str
  | _, [] => none
  | seen, k :: keys => if k ∈ seen then some k else firstRepeated (k :: seen) keys

def rejectDuplicates (pairs : List (Str × Value)) : Except PyError Value :=
  match firstRepeated [] (pairs.map Prod.fst) with
  | some k => .error (.duplicateMemberName k)
  | none => .ok (.obj (Json.dictOf pairs))

/-- Parse JSON, rejecting any object that repeats a member name. -/
def loadsStrict (text : Str) : Except PyError Value :=
  match Json.loads rejectDuplicates text with
  | .ok v => .ok v
  | .error .malformed => .error .jsonDecodeError
  | .error (.hook e) => .error e

/-! ## The schema -/

def onlyMembers (allowed : List Str) (members : List (Str × Value)) : Bool :=
  members.all fun m => m.1 ∈ allowed

/-- `{"type": "integer", "minimum": 0}`; an integral float is an integer. -/
def decodeNatural : Value → Option ℕ
  | .int n => if 0 ≤ n then some n.toNat else none
  | .float x => (JsonFloat.integral? x).bind fun n => if 0 ≤ n then some n.toNat else none
  | _ => none

def decodeName : Value → Option Str
  | .str s => if 1 ≤ s.length ∧ s.length ≤ 256 then some s else none
  | _ => none

def decodeOptional {α : Type} (decode : Value → Option α) : Option Value → Option (Option α)
  | none => some none
  | some v => (decode v).map some

def decodeRetention : Value → Option Retention
  | .obj members => do
      guard (onlyMembers [lit "mode", lit "max_age"] members)
      let mode ← Json.get? (lit "mode") members
      let maxAge ← decodeOptional decodeNatural (Json.get? (lit "max_age") members)
      match mode with
      | .str s =>
          if s = lit "allow" then some (.allow maxAge)
          else if s = lit "forbid" ∧ maxAge = none then some .forbid
          else none
      | _ => none
  | _ => none

def decodeReuse : Value → Option Reuse
  | .str s =>
      if s = lit "none" then some .none
      else if s = lit "exact" then some .exact
      else if s = lit "approximate" then some .approximate
      else none
  | _ => none

def decodeShare : Value → Option Share
  | .str s =>
      if s = lit "request" then some .request
      else if s = lit "session" then some .session
      else if s = lit "principal" then some .principal
      else if s = lit "tenant" then some .tenant
      else if s = lit "public" then some .public
      else none
  | _ => none

def decodeConstraints : Value → Option Constraints
  | .obj members => do
      guard (onlyMembers [lit "retention", lit "reuse", lit "share_max", lit "namespace"] members)
      let retention ← (← Json.get? (lit "retention") members) |> decodeRetention
      let reuse ← (← Json.get? (lit "reuse") members) |> decodeReuse
      let shareMax ← (← Json.get? (lit "share_max") members) |> decodeShare
      let ns ← decodeOptional decodeName (Json.get? (lit "namespace") members)
      pure { retention, reuse, shareMax, ns }
  | _ => none

def decodeHints : Value → Option Hints
  | .obj members => do
      let reuseWithin ← decodeOptional decodeNatural (Json.get? (lit "reuse_within") members)
      pure { reuseWithin }
  | _ => none

def isVersionOne : Value → Bool
  | .int n => n == 1
  | .float x => JsonFloat.integral? x == some 1
  | _ => false

def decodeIntent : Value → Option Intent
  | .obj members => do
      guard (onlyMembers [lit "version", lit "id", lit "constraints", lit "hints"] members)
      guard (isVersionOne (← Json.get? (lit "version") members))
      let _ ← decodeOptional decodeName (Json.get? (lit "id") members)
      let constraints ← (← Json.get? (lit "constraints") members) |> decodeConstraints
      let hints ← decodeOptional decodeHints (Json.get? (lit "hints") members)
      pure { constraints, hints := hints.getD {} }
  | _ => none

/-- `validator.validate(doc)`, returning `doc["cache_intent"]`. -/
def validate : Value → Option Intent
  | .obj members => do
      guard (onlyMembers [lit "cache_intent"] members)
      (← Json.get? (lit "cache_intent") members) |> decodeIntent
  | _ => none

/-- An integer version other than 1 is told apart from an invalid intent. -/
def checkVersion : Value → Except PyError Unit
  | .obj doc =>
      match Json.get? (lit "cache_intent") doc with
      | some (.obj intent) =>
          match Json.get? (lit "version") intent with
          | some (.int n) => if n ≠ 1 then .error (.unsupportedVersion n) else .ok ()
          | _ => .ok ()
      | _ => .ok ()
  | _ => .ok ()

def parseCacheIntent (text : Str) : Except PyError Intent := do
  let doc ← loadsStrict text
  checkVersion doc
  match validate doc with
  | some intent => pure intent
  | none => .error .validationError

end CacheControl

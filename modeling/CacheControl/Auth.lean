import CacheControl.Intent

/-!
# Authenticated scope binding
-/

open PyText

namespace CacheControl

def untrustedScopeFields : List Str :=
  [lit "tenant", lit "principal", lit "session", lit "group", lit "handle",
    lit "cache_partition", lit "cache_salt"]

/-- What the gateway proved about the caller, not what the caller claimed. -/
structure AuthContext where
  tenant : Str
  principal : Str
  session : Str

def stripUntrustedScope [Runtime] (payload : List (Str × Value)) :
    List (Str × Value) × List Str :=
  (payload.filter fun m => m.1 ∉ untrustedScopeFields,
    untrustedScopeFields.filter fun f => Json.has f payload)

/-- Map an authorized sharing boundary onto a physical cache partition. -/
def partitionFor (shareMax : Share) (auth : AuthContext) (requestId : Str) : Str :=
  match shareMax with
  | .public => lit "public"
  | .tenant => lit "tenant:" ++ auth.tenant
  | .principal => lit "tenant:" ++ auth.tenant ++ lit "/principal:" ++ auth.principal
  | .session =>
      lit "tenant:" ++ auth.tenant ++ lit "/principal:" ++ auth.principal ++
        lit "/session:" ++ auth.session
  | .request => lit "request:" ++ requestId

end CacheControl

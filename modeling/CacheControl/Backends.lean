import CacheControl.Cache

/-!
# Cache backends

What the gateway knows of a cache: what it can enforce, whether it observes
outcomes, its two operations and, where one salt carries the whole boundary,
how a partition and a namespace digest are lowered onto it.
-/

open PyText

namespace CacheControl

variable [Runtime]

structure Capabilities where
  retentionModes : Finset Mode
  retentionMaxAge : Bool
  reuse : Finset Reuse
  shareMax : Finset Share
  ns : Bool
  reuseWithinMax : Option ℕ
  perFragmentShare : Bool
deriving DecidableEq

structure Backend (σ : Type) where
  capabilities : Capabilities
  observesOutcomes : Bool
  get : Str → Time → Prog PyError σ (Option Entry)
  put : Str → Time → Option ℕ → Bool → Prog PyError σ (Option Entry)
  saltFor : Option (Str → Option Str → Except PyError Str)

def allScopes : Finset Share := {.request, .session, .principal, .tenant, .public}

def inMemoryBackend : Backend Entries where
  capabilities :=
    { retentionModes := {.allow, .forbid}
      retentionMaxAge := true
      reuse := {.none, .exact, .approximate}
      shareMax := allScopes
      ns := true
      reuseWithinMax := some 3600
      perFragmentShare := true }
  observesOutcomes := true
  get := InMemoryCache.get
  put := InMemoryCache.put
  saltFor := none

/-- An engine that can partition a prefix cache but not time-bound it. -/
def saltOnlyBackend : Backend Entries where
  capabilities :=
    { retentionModes := {.allow, .forbid}
      retentionMaxAge := false
      reuse := {.none, .exact}
      shareMax := allScopes
      ns := true
      reuseWithinMax := none
      perFragmentShare := false }
  observesOutcomes := true
  get := InMemoryCache.get
  put := fun key now maxAge exact =>
    if maxAge ≠ none then Prog.raise .assertionError
    else InMemoryCache.put key now none exact
  saltFor := some fun partition namespaceIdentity =>
    let ns := match namespaceIdentity with
      | some d => if d = [] then lit "-" else d
      | none => lit "-"
    .ok (partition ++ lit "|" ++ ns)

def nullBackend : Backend Unit where
  capabilities :=
    { retentionModes := {.allow, .forbid}
      retentionMaxAge := true
      reuse := {.none, .exact, .approximate}
      shareMax := allScopes
      ns := true
      reuseWithinMax := none
      perFragmentShare := false }
  observesOutcomes := true
  get := fun _ _ => pure none
  put := fun _ _ _ _ => pure none
  saltFor := none

/-- Lowers an authenticated partition and namespace onto a vLLM `cache_salt`;
residency is the engine's. -/
def vllmBackend : Backend Unit where
  capabilities :=
    { retentionModes := {.allow, .forbid}
      retentionMaxAge := false
      reuse := {.none, .exact}
      shareMax := allScopes
      ns := true
      reuseWithinMax := none
      perFragmentShare := false }
  observesOutcomes := false
  get := fun _ _ => pure none
  put := fun _ _ maxAge _ => if maxAge ≠ none then Prog.raise .assertionError else pure none
  saltFor := some fun partition namespaceIdentity => do
    let head ← encode (textLength.frame partition)
    let ns := match namespaceIdentity with
      | some d => if d = [] then lit "-" else d
      | none => lit "-"
    let tail ← encode (textLength.frame ns)
    pure (Runtime.sha256 (head ++ tail))

end CacheControl

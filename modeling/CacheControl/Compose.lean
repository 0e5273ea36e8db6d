import CacheControl.Identity

/-!
# Conservative composition
-/

open PyText

namespace CacheControl

variable [Runtime]

/-- `min(scopes, key=SHARE_LADDER.index)`, of a nonempty list. -/
def intersectShareMax (scope : Share) (scopes : List Share) : Share := scopes.foldl min scope

def composeReuse (value : Reuse) (values : List Reuse) : Reuse := values.foldl min value

/-- The smallest supplied bound; an absent one contributes nothing. -/
def composeMaxAge (ages : List (Option ℕ)) : Option ℕ :=
  match ages.reduceOption with
  | [] => none
  | a :: supplied => some (supplied.foldl min a)

def composeRetention (retentions : List Retention) : Retention :=
  if retentions.any fun r => r.mode = .forbid then .forbid
  else .allow (composeMaxAge (retentions.map Retention.maxAge))

def compose : List Constraints → Except PyError Effective
  | [] => .error .valueError
  | f :: fs => do
      let identity ← namespaceIdentity (((f :: fs).filterMap Constraints.ns).map some)
      pure
        { retention := composeRetention ((f :: fs).map Constraints.retention)
          reuse := composeReuse f.reuse (fs.map Constraints.reuse)
          shareMax := intersectShareMax f.shareMax (fs.map Constraints.shareMax)
          namespaceIdentity := identity }

end CacheControl

import CacheControl.Reference

/-!
# What equal keys have in common

A cache key over an authenticated partition gives back everything it was made
from, as long as its identifiers cannot be mistaken for more of the partition.
-/

open PyText

namespace CacheControl

/-- What a key is made from, besides the execution. -/
structure KeyArgs where
  shareMax : Share
  auth : AuthContext
  requestId : Str
  namespaces : List Str
  contents : List Str
  exact : Bool

namespace KeyArgs

def key [Runtime] (x : KeyArgs) : Except PyError Str :=
  cacheKey execution x.contents x.namespaces (partitionFor x.shareMax x.auth x.requestId) x.exact

/-- No identifier holds what its partition goes on with behind it. -/
structure Legible (x : KeyArgs) : Prop where
  slash_notMem : ∀ i ∈ tenantPath x.shareMax x.auth, slash ∉ i
  nul_notMem : ∀ i ∈ identifiersRead x.shareMax x.auth x.requestId, nul ∉ i

/-- The arguments are the same, as far as the boundary reads the caller. -/
structure Agree (x y : KeyArgs) : Prop where
  exact : x.exact = y.exact
  namespaces : x.namespaces = y.namespaces
  contents : x.contents = y.contents
  shareMax : x.shareMax = y.shareMax
  identifiers : identifiersRead x.shareMax x.auth x.requestId =
    identifiersRead y.shareMax y.auth y.requestId

end KeyArgs

/-- Equal keys of legible arguments have equal arguments.  Different tenants then
have a key in common only where neither is read: at the public boundary, or at
that of one request id. -/
theorem key_unambiguous [Runtime] (hcf : CollisionFree) {x y : KeyArgs} (hx : x.Legible)
    (hy : y.Legible) {k : Str} (hkx : x.key = .ok k) (hky : y.key = .ok k) :
    x.Agree y ∧ (x.auth.tenant ≠ y.auth.tenant →
      x.shareMax = .public ∨ x.shareMax = .request ∧ x.requestId = y.requestId) := by
  obtain ⟨hpartition, hexact, hns, hcontents⟩ := cacheKey_inj hcf
    (nul_notMem_partitionFor hx.nul_notMem) (nul_notMem_partitionFor hy.nul_notMem) hkx hky
  obtain ⟨hshare, hidentifiers⟩ := partitionFor_inj hx.slash_notMem hy.slash_notMem hpartition
  refine ⟨⟨hexact, hns, hcontents, hshare, hidentifiers⟩, fun htenants => ?_⟩
  rw [← hshare] at hidentifiers
  exact (tenant_of_identifiersRead hidentifiers).resolve_left htenants

section

attribute [local instance] reference

theorem exists_key_of_eq {x y : KeyArgs} (hsame : x.key.toOption = y.key.toOption)
    (hsome : x.key.toOption.isSome = true) : ∃ k, x.key = .ok k ∧ y.key = .ok k := by
  obtain ⟨k, hk⟩ := Option.isSome_iff_exists.mp hsome
  exact ⟨k, toOption_eq_some_iff.mp hk, toOption_eq_some_iff.mp (hsame ▸ hk)⟩

def aliceArgs : KeyArgs := ⟨.tenant, alice, lit "req-1", [lit "v1"], [lit "a", lit "b"], true⟩

def colleagueArgs : KeyArgs :=
  ⟨.tenant, ⟨lit "acme", lit "carol", lit "s-carol"⟩, lit "req-2", [lit "v1"],
    [lit "a", lit "b"], true⟩

theorem key_unambiguous_colleagueArgs : aliceArgs.Agree colleagueArgs := by
  have hlegible : aliceArgs.Legible := by
    constructor <;> decide +kernel
  have hlegible' : colleagueArgs.Legible := by
    constructor <;> decide +kernel
  obtain ⟨k, hk, hk'⟩ := exists_key_of_eq (x := aliceArgs) (y := colleagueArgs)
    (by decide +kernel) (by decide +kernel)
  exact (key_unambiguous collisionFree_reference hlegible hlegible' hk hk').1

/-- A tenant whose name goes on like the partition of a principal. -/
def tenantArgs : KeyArgs :=
  ⟨.tenant, ⟨lit "a/principal:b", lit "p", lit "s"⟩, lit "req-1", [], [lit "text"], true⟩

def principalArgs : KeyArgs :=
  ⟨.principal, ⟨lit "a", lit "b", lit "s"⟩, lit "req-1", [], [lit "text"], true⟩

/-- A tenant whose name goes on like a key, up to the length of a content. -/
def longTenantArgs : KeyArgs :=
  ⟨.tenant, ⟨lit "t\x00exact=True\x00ns=None\x0023:", lit "p", lit "s"⟩, lit "req-1", [],
    [lit "a"], true⟩

/-- The content is the rest of the key of `longTenantArgs`. -/
def longContentArgs : KeyArgs :=
  ⟨.tenant, ⟨lit "t", lit "p", lit "s"⟩, lit "req-1", [],
    [lit "\x00exact=True\x00ns=None\x001:a"], true⟩

def requestArgs (auth : AuthContext) : KeyArgs :=
  ⟨.request, auth, lit "req-1", [], [lit "text"], true⟩

/-- Without collisions of the digest, a slash or the terminator in a tenant's
name makes a key ambiguous, and one request id is one boundary whoever uses it. -/
theorem not_key_unambiguous : CollisionFree ∧
    (¬ ∀ (x y : KeyArgs) (k : Str), x.key = .ok k → y.key = .ok k →
      x.Agree y ∧ (x.auth.tenant ≠ y.auth.tenant → x.shareMax = .public)) ∧
    (¬ ∀ (x y : KeyArgs) (k : Str), (∀ i ∈ tenantPath x.shareMax x.auth, slash ∉ i) →
      (∀ i ∈ tenantPath y.shareMax y.auth, slash ∉ i) → x.key = .ok k → y.key = .ok k →
        x.Agree y) ∧
    ¬ ∀ (x y : KeyArgs) (k : Str), x.Legible → y.Legible → x.key = .ok k → y.key = .ok k →
      x.auth.tenant ≠ y.auth.tenant → x.shareMax = .public := by
  refine ⟨collisionFree_reference, fun h => ?_, fun h => ?_, fun h => ?_⟩
  · obtain ⟨k, hk, hk'⟩ := exists_key_of_eq (x := tenantArgs) (y := principalArgs)
      (by decide +kernel) (by decide +kernel)
    have hshare := (h tenantArgs principalArgs k hk hk').1.shareMax
    cases hshare
  · obtain ⟨k, hk, hk'⟩ := exists_key_of_eq (x := longTenantArgs) (y := longContentArgs)
      (by decide +kernel) (by decide +kernel)
    have hcontents := (h longTenantArgs longContentArgs k (by decide +kernel)
      (by decide +kernel) hk hk').contents
    exact absurd hcontents (by decide +kernel)
  · obtain ⟨k, hk, hk'⟩ := exists_key_of_eq (x := requestArgs alice) (y := requestArgs bob)
      (by decide +kernel) (by decide +kernel)
    have hshare := h (requestArgs alice) (requestArgs bob) k (by constructor <;> decide +kernel)
      (by constructor <;> decide +kernel) hk hk' (by decide +kernel)
    cases hshare

end

end CacheControl

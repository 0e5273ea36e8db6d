import CacheControl.Runtime

/-!
# Cache intents

The validated form of a `cache_intent` object.  A retention that forbids has
no `max_age`, as the schema requires, so no other value can be built.
-/

open PyText

namespace CacheControl

inductive Retention
  | allow (maxAge : Option ℕ)
  | forbid
deriving DecidableEq

namespace Retention

def mode : Retention → Mode
  | .allow _ => .allow
  | .forbid => .forbid

def maxAge : Retention → Option ℕ
  | .allow m => m
  | .forbid => none

@[simp] theorem mode_allow (m : Option ℕ) : (allow m).mode = .allow := rfl

@[simp] theorem mode_forbid : forbid.mode = .forbid := rfl

@[simp] theorem maxAge_allow (m : Option ℕ) : (allow m).maxAge = m := rfl

@[simp] theorem maxAge_forbid : forbid.maxAge = none := rfl

end Retention

structure Constraints where
  retention : Retention
  reuse : Reuse
  shareMax : Share
  ns : Option Str
deriving DecidableEq

structure Hints where
  reuseWithin : Option ℕ := none

structure Intent where
  constraints : Constraints
  hints : Hints

/-- What `compose` returns: the policy of all state that depends on a prefix. -/
structure Effective where
  retention : Retention
  reuse : Reuse
  shareMax : Share
  namespaceIdentity : Option Str
deriving DecidableEq

/-! ## The orders of restriction -/

namespace Share

def ladderIndex : Share → ℕ
  | request => 0
  | session => 1
  | principal => 2
  | tenant => 3
  | «public» => 4

theorem ladderIndex_injective : Function.Injective ladderIndex := by
  intro s t
  cases s <;> cases t <;> simp [ladderIndex]

/-- Narrower scopes are smaller. -/
instance : LinearOrder Share := LinearOrder.lift' ladderIndex ladderIndex_injective

theorem le_public (s : Share) : s ≤ «public» := by cases s <;> decide

theorem request_le (s : Share) : request ≤ s := by cases s <;> decide

end Share

namespace Reuse

def orderIndex : Reuse → ℕ
  | none => 0
  | exact => 1
  | approximate => 2

theorem orderIndex_injective : Function.Injective orderIndex := by
  intro s t
  cases s <;> cases t <;> simp [orderIndex]

instance : LinearOrder Reuse := LinearOrder.lift' orderIndex orderIndex_injective

theorem none_le (r : Reuse) : none ≤ r := by cases r <;> decide

end Reuse

end CacheControl

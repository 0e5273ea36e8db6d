import CacheControl.Identity
import CacheControl.Lib.ExpiringStore

/-!
# The in-memory stand-in for the physical cache
-/

open PyText

namespace CacheControl

variable [Runtime]

structure Entry where
  key : Str
  materializedAt : Time
  expiresAt : Option Time
  exact : Bool

abbrev Entries := ExpiringStore.Store Str Entry

namespace InMemoryCache

/-- A read never refreshes `expiresAt`; it drops the entry at its deadline. -/
def get (key : Str) (now : Time) : Prog PyError Entries (Option Entry) := fun entries =>
  match entries.lookup key with
  | none => (.ok none, entries)
  | some entry =>
      match entry.expiresAt with
      | none => (.ok (some entry), entries)
      | some expiresAt =>
          if expiresAt ≤ now then (.ok none, entries.erase key) else (.ok (some entry), entries)

def expiry (now : Time) (maxAge : Option ℕ) : Except PyError (Option Time) :=
  match maxAge with
  | none => .ok none
  | some m =>
      match Runtime.plus now m with
      | some expiresAt => .ok (some expiresAt)
      | none => .error .overflowError

@[simp] theorem expiry_none_eq_ok_iff {now : Time} {x : Option Time} :
    expiry now none = .ok x ↔ x = none := by
  simp [expiry, eq_comm]

@[simp] theorem expiry_some_eq_ok_iff {now : Time} {m : ℕ} {x : Option Time} :
    expiry now (some m) = .ok x ↔ ∃ d, Runtime.plus now m = some d ∧ x = some d := by
  simp only [expiry]
  cases Runtime.plus now m with
  | none => simp
  | some d => simp [eq_comm]

def put (key : Str) (now : Time) (maxAge : Option ℕ) (exact : Bool) :
    Prog PyError Entries (Option Entry) := fun entries =>
  match expiry now maxAge with
  | .error e => (.error e, entries)
  | .ok expiresAt =>
      let entry : Entry := { key, materializedAt := now, expiresAt, exact }
      (.ok (some entry), entries.insert key entry)

/-- The cache is an expiring store, and `get` is its read. -/
theorem get_eq_read (key : Str) (now : Time) (entries : Entries) :
    get key now entries = (.ok (ExpiringStore.read Entry.expiresAt key now entries).1,
      (ExpiringStore.read Entry.expiresAt key now entries).2) := by
  unfold get ExpiringStore.read
  cases hk : entries.lookup key with
  | none => rfl
  | some entry =>
      cases he : entry.expiresAt with
      | none => simp [he]
      | some d => by_cases hd : d ≤ now <;> simp [he, hd]

end InMemoryCache

end CacheControl

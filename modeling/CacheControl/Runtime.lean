import Mathlib
import CacheControl.Lib.Json
import CacheControl.Lib.Prog

/-!
# The interpreter and the errors

What the gateway takes from Python without computing it itself: the floats of
a JSON document, the clock's numbers and SHA-256.  The laws are those the
language documents; that SHA-256 has no collisions is not among them and is
assumed by name where a result needs it.
-/

open PyText

namespace CacheControl

def hexDigits : Str := lit "0123456789abcdef"

class Runtime where
  Float : Type
  jsonFloat : JsonFloat Float
  Time : Type
  timeOrder : LinearOrder Time
  /-- `now + seconds`; `none` where the addition raises `OverflowError`. -/
  plus : Time → ℕ → Option Time
  plus_zero : ∀ t, plus t 0 = some t
  plus_mono : ∀ t {m n : ℕ} {e : Time}, m ≤ n → plus t n = some e →
    ∃ d, plus t m = some d ∧ d ≤ e
  /-- `hashlib.sha256(data).hexdigest()`. -/
  sha256 : Bytes → Str
  sha256_ne_nil : ∀ data, sha256 data ≠ []
  sha256_hex : ∀ data, ∀ p ∈ sha256 data, p ∈ hexDigits

instance [Runtime] : JsonFloat Runtime.Float := Runtime.jsonFloat

instance [Runtime] : LinearOrder Runtime.Time := Runtime.timeOrder

abbrev Time [Runtime] := Runtime.Time

abbrev Value [Runtime] := Json Runtime.Float

/-- No two byte strings have the same digest. -/
def CollisionFree [Runtime] : Prop := Function.Injective Runtime.sha256

/-! ## Errors -/

inductive Mode
  | allow | forbid
deriving DecidableEq

inductive Reuse
  | none | exact | approximate
deriving DecidableEq

inductive Share
  | request | session | principal | tenant | «public»
deriving DecidableEq

inductive FragmentKind
  | tool | message
deriving DecidableEq

inductive Unenforceable
  | retentionMode
  | maxAge
  | reuse (value : Reuse)
  | shareMax (value : Share)
  | «namespace»

inductive BindingDefect
  | bodyNotObject
  | notArray (kind : FragmentKind)
  | itemNotObject (kind : FragmentKind) (index : ℕ)

inductive PyError
  | duplicateMemberName (name : Str)
  | unsupportedVersion (version : ℤ)
  | duplicateFragmentId
  | unenforceableConstraint (reason : Unenforceable)
  | contentPartIntent (index part : ℕ)
  | invalidBinding (defect : BindingDefect)
  | jsonDecodeError
  | validationError
  | unicodeEncodeError
  | overflowError
  | assertionError
  | typeError
  | valueError

def PyError.isCacheIntentError : PyError → Bool
  | .duplicateMemberName _ | .unsupportedVersion _ | .duplicateFragmentId
  | .unenforceableConstraint _ | .contentPartIntent _ _ | .invalidBinding _ => true
  | _ => false

def encode (s : Str) : Except PyError Bytes :=
  match encode? s with
  | some b => .ok b
  | none => .error .unicodeEncodeError

theorem encode_eq_ok_iff {s : Str} {b : Bytes} : encode s = .ok b ↔ encode? s = some b := by
  unfold encode
  cases encode? s <;> simp

theorem encode_inj {s t : Str} {b : Bytes} (hs : encode s = .ok b) (ht : encode t = .ok b) :
    s = t :=
  encode?_inj (encode_eq_ok_iff.mp hs) (encode_eq_ok_iff.mp ht)

end CacheControl

import CacheControl.Run
import CacheControl.Lib.JsonReread
import CacheControl.Keys
import CacheControl.Backends

/-!
# A runtime to compute with

Clocks that count seconds, no floats, and a digest that spells its data out.
It satisfies the laws of `Runtime`, and its digest has no collisions, so what is
assumed of a runtime can be met, and concrete runs can be evaluated.
-/

open PyText

namespace CacheControl

def hexOf (b : UInt8) : Str :=
  [.scalar (Nat.digitChar (b.toNat / 16)), .scalar (Nat.digitChar (b.toNat % 16))]

def spell (data : Bytes) : Str := .scalar '0' :: data.flatMap hexOf

theorem digitChar_mem_hexDigits : ∀ n < 16, CodePoint.scalar (Nat.digitChar n) ∈ hexDigits := by
  decide +kernel

theorem digitChar_injective :
    ∀ m < 16, ∀ n < 16, Nat.digitChar m = Nat.digitChar n → m = n := by
  decide +kernel

theorem mem_hexDigits_of_mem_spell {data : Bytes} {p : CodePoint} (h : p ∈ spell data) :
    p ∈ hexDigits := by
  rcases List.mem_cons.mp h with rfl | h
  · decide +kernel
  · obtain ⟨b, -, hp⟩ := List.mem_flatMap.mp h
    have hb : b.toNat < 256 := b.toNat_lt
    simp only [hexOf, List.mem_cons, List.not_mem_nil, or_false] at hp
    rcases hp with rfl | rfl
    · exact digitChar_mem_hexDigits _ (by omega)
    · exact digitChar_mem_hexDigits _ (by omega)

theorem hexOf_append_inj {b b' : UInt8} {r r' : Str} (h : hexOf b ++ r = hexOf b' ++ r') :
    b = b' ∧ r = r' := by
  have hb : b.toNat < 256 := b.toNat_lt
  have hb' : b'.toNat < 256 := b'.toNat_lt
  simp only [hexOf, List.cons_append, List.nil_append, List.cons.injEq,
    CodePoint.scalar.injEq] at h
  obtain ⟨hhigh, hlow, hrest⟩ := h
  have h₁ := digitChar_injective _ (by omega) _ (by omega) hhigh
  have h₂ := digitChar_injective _ (by omega) _ (by omega) hlow
  refine ⟨UInt8.toNat_inj.mp ?_, hrest⟩
  omega

theorem spell_injective : Function.Injective spell := by
  intro x y h
  have htail : x.flatMap hexOf = y.flatMap hexOf := (List.cons.inj h).2
  clear h
  induction x generalizing y with
  | nil =>
      cases y with
      | nil => rfl
      | cons b y => simp [hexOf] at htail
  | cons a x ih =>
      cases y with
      | nil => simp [hexOf] at htail
      | cons b y =>
          rw [List.flatMap_cons, List.flatMap_cons] at htail
          obtain ⟨rfl, hrest⟩ := hexOf_append_inj htail
          rw [ih hrest]

@[reducible] def noFloats : JsonFloat Unit where
  ofText _ := ()
  toText _ := lit "0.0"
  nan := ()
  infinity := ()
  negInfinity := ()
  beq _ _ := true
  integral? _ := none

@[reducible] def reference : Runtime where
  Float := Unit
  jsonFloat := noFloats
  Time := ℕ
  timeOrder := inferInstance
  plus t n := some (t + n)
  plus_zero _ := rfl
  plus_mono t m n e hmn h := by
    obtain rfl : t + n = e := Option.some.inj h
    exact ⟨t + m, rfl, Nat.add_le_add_left hmn t⟩
  sha256 := spell
  sha256_ne_nil _ := by simp [spell]
  sha256_hex _ _ := mem_hexDigits_of_mem_spell

/-- The clock of `reference`, to which no bound beyond the floats can be added. -/
@[reducible] def bounded : Runtime where
  Float := Unit
  jsonFloat := noFloats
  Time := ℕ
  timeOrder := inferInstance
  plus t n := if n < 2 ^ 1024 then some (t + n) else none
  plus_zero t := if_pos (pow_pos two_pos 1024)
  plus_mono t m n e hmn h := by
    split at h
    · rename_i hn
      obtain rfl : t + n = e := Option.some.inj h
      exact ⟨t + m, if_pos (hmn.trans_lt hn), Nat.add_le_add_left hmn t⟩
    · cases h
  sha256 := spell
  sha256_ne_nil _ := by simp [spell]
  sha256_hex _ _ := mem_hexDigits_of_mem_spell

attribute [local instance] reference in
instance : DecidableEq Runtime.Float := inferInstanceAs (DecidableEq Unit)

attribute [local instance] reference in
theorem collisionFree_reference : CollisionFree := spell_injective

attribute [local instance] reference in
theorem floatsPrintable_reference : Json.FloatsPrintable Runtime.Float := by
  intro x p hp
  have hzero : ∀ p ∈ lit "0.0", Json.Printable p := by decide +kernel
  exact hzero p hp

attribute [local instance] reference in
theorem floatsReadBack_reference : Json.FloatsReadBack Runtime.Float := by
  intro x r hr
  have hlit : lit "0.0" = [.scalar '0', .scalar '.', .scalar '0'] := by decide +kernel
  have htext : (JsonFloat.toText x : Str) = [.scalar '0', .scalar '.', .scalar '0'] := hlit
  obtain ⟨htake, hdrop⟩ := hr.takeWhile (s := [.scalar '0']) (by decide)
  rw [List.singleton_append] at htake hdrop
  have hfraction : Json.scanFraction (.scalar '.' :: .scalar '0' :: r) =
      ([.scalar '.', .scalar '0'], r) := by
    rw [Json.scanFraction, htake, hdrop, if_neg (by simp)]
  have hminus : Json.scanMinus (.scalar '0' :: .scalar '.' :: .scalar '0' :: r) =
      (false, .scalar '0' :: .scalar '.' :: .scalar '0' :: r) := rfl
  have hinteger : Json.scanInteger (.scalar '0' :: .scalar '.' :: .scalar '0' :: r) =
      some ([.scalar '0'], .scalar '.' :: .scalar '0' :: r) := rfl
  have hnumber : Json.scanNumber (.scalar '0' :: .scalar '.' :: .scalar '0' :: r) =
      some (.float x, r) := by
    rw [Json.scanNumber, hminus]
    dsimp only
    rw [hinteger]
    simp only [Option.bind_eq_bind, Option.bind_some, hfraction, hr.scanExponent]
    rfl
  rw [htext]
  show Json.scanLeaf (.scalar '0' :: .scalar '.' :: .scalar '0' :: r) = _
  rw [Json.scanLeaf, hnumber]
  rfl

/-! ## Sample requests -/

def alice : AuthContext := ⟨lit "acme", lit "alice", lit "s-acme"⟩

def bob : AuthContext := ⟨lit "other-corp", lit "bob", lit "s-other"⟩

theorem plain_alice : alice.Plain := by
  constructor <;> decide +kernel

theorem plain_bob : bob.Plain := by
  constructor <;> decide +kernel

section

attribute [local instance] reference

def intentValue (retention : Retention) (reuse share : String) : Value :=
  let mode : Str × Value :=
    (lit "mode", .str (lit (if retention = .forbid then "forbid" else "allow")))
  let maxAge : List (Str × Value) := retention.maxAge.toList.map fun m => (lit "max_age", .int m)
  let constraints : Value := .obj
    [(lit "retention", .obj (mode :: maxAge)), (lit "reuse", .str (lit reuse)),
      (lit "share_max", .str (lit share))]
  .obj [(lit "version", .int 1), (lit "constraints", constraints)]

def intentText (retention : Retention) (reuse share : String) : Str :=
  Json.dumps .default (.obj [(lit "cache_intent", intentValue retention reuse share)])

def sampleFragment (content : String) (intent : Option Str) (approxClass : Option Str) :
    Fragment :=
  ⟨.null, lit content, intent, approxClass⟩

def sampleBody (messages : List (String × Value)) : Str :=
  Json.dumps .default (.obj [(lit "messages", .arr (messages.map fun m =>
    .obj [(lit "content", .str (lit m.1)), (lit "cache_intent", m.2)]))])

def sampleCall (auth : AuthContext) (now : ℕ) (fragments : List Fragment) : Call :=
  ⟨fragments, auth, now, lit "req-1", none, false⟩

end

end CacheControl

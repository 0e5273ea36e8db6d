import CacheControl.Binding

/-!
# Scope members of a body

A caller can write scope coordinates into a body, at its top level and on the
elements of `tools` and `messages`.  Upstream sees none of them.
-/

open PyText

namespace CacheControl

variable [Runtime] {σ : Type}

omit [Runtime] in
theorem array_notMem_untrusted (kind : FragmentKind) : kind.array ∉ untrustedScopeFields := by
  cases kind <;> decide +kernel

/-- The members of an element that make up its content, and that upstream sees. -/
def visible (item : List (Str × Value)) : List (Str × Value) :=
  item.filter fun m => m.1 ≠ cacheIntentName ∧ m.1 ∉ untrustedScopeFields

theorem fragmentContent_eq (item : List (Str × Value)) (kind : FragmentKind) :
    fragmentContent item kind =
      kind.word ++ lit ":" ++ Json.dumps .canonical (.obj (visible item)) := by
  unfold fragmentContent visible
  dsimp only
  rw [Json.foldl_erase, Json.erase, List.filter_filter]
  congr 4
  funext m
  simp [Bool.and_comm]

theorem visible_visible (item : List (Str × Value)) : visible (visible item) = visible item := by
  unfold visible
  rw [List.filter_filter]
  simp

/-- No member of the object is one that names a scope. -/
def Unscoped (members : List (Str × Value)) : Prop := ∀ m ∈ members, m.1 ∉ untrustedScopeFields

theorem Unscoped.get? {members : List (Str × Value)} (h : Unscoped members) {f : Str}
    (hf : f ∈ untrustedScopeFields) : Json.get? f members = none :=
  Json.get?_eq_none_iff.mpr fun m hm heq => h m hm (heq ▸ hf)

theorem mem_set {key : Str} {value : Value} {members : List (Str × Value)} {m : Str × Value}
    (h : m ∈ Json.set key value members) : m = (key, value) ∨ m ∈ members := by
  induction members with
  | nil => exact .inl (List.mem_singleton.mp h)
  | cons x members ih =>
      obtain ⟨k, v⟩ := x
      unfold Json.set at h
      split at h
      · rename_i hk
        subst hk
        rcases List.mem_cons.mp h with rfl | h
        · exact .inl rfl
        · exact .inr (by simp [h])
      · rcases List.mem_cons.mp h with rfl | h
        · exact .inr (by simp)
        · exact (ih h).imp id fun h => by simp [h]

theorem Unscoped.stripItems {members : List (Str × Value)} (h : Unscoped members)
    (kind : FragmentKind) : Unscoped (stripItems kind members) := by
  unfold CacheControl.stripItems
  split
  · intro m hm
    rcases mem_set hm with rfl | hm
    · exact array_notMem_untrusted kind
    · exact h m hm
  · exact h

theorem unscoped_stripBindingMembers (members : List (Str × Value)) :
    Unscoped (stripBindingMembers members).1 := by
  have htop : Unscoped (stripUntrustedScope members).1 := by
    intro m hm
    simpa using (List.mem_filter.mp hm).2
  exact (htop.stripItems .tool).stripItems .message

end CacheControl

import CacheControl.Submissions

/-!
# What goes upstream

The elements of a body and their contents, before and after everything upstream
must not see was removed.
-/

open PyText

namespace CacheControl

variable [Runtime] {kind kind' : FragmentKind} {members : List (Str × Value)}
  {fragments : List Fragment} {body : Str}

def elementsOf (kind : FragmentKind) (members : List (Str × Value)) : List Value :=
  match Json.get? kind.array members with
  | some (.arr items) => items
  | _ => []

def elementContent (kind : FragmentKind) : Value → Str
  | .obj item => fragmentContent item kind
  | _ => []

/-- The fragment contents of the tool and message elements of a request. -/
def elementContents (members : List (Str × Value)) : List Str :=
  (elementsOf .tool members).map (elementContent .tool) ++
    (elementsOf .message members).map (elementContent .message)

theorem elementsOf_of_itemsOf {items : List Value} (h : itemsOf kind members = .ok items) :
    elementsOf kind members = items := by
  unfold itemsOf at h
  unfold elementsOf
  cases hget : Json.get? kind.array members with
  | none =>
      rw [hget] at h
      cases h
      rfl
  | some v =>
      rw [hget] at h
      cases htruthy : v.truthy with
      | true =>
          rw [Option.filter_some_pos htruthy] at h
          cases v with
          | arr items' =>
              cases h
              rfl
          | null | bool | int | float | str | obj => cases h
      | false =>
          rw [Option.filter_some_neg (by simp [htruthy])] at h
          cases h
          cases v with
          | arr items' =>
              simp only [Json.truthy, Bool.not_eq_false', List.isEmpty_iff] at htruthy
              exact htruthy
          | null | bool | int | float | str | obj => rfl

theorem elementContent_stripItem (v : Value) :
    elementContent kind (stripItem v) = elementContent kind v := by
  cases v with
  | obj item =>
      show fragmentContent (visible item) kind = fragmentContent item kind
      rw [fragmentContent_eq, fragmentContent_eq, visible_visible]
  | null | bool | int | float | str | arr => rfl

theorem get?_content_visible (item : List (Str × Value)) :
    Json.get? (lit "content") (visible item) = Json.get? (lit "content") item := by
  have hvisible : lit "content" ≠ cacheIntentName ∧ lit "content" ∉ untrustedScopeFields := by
    decide +kernel
  exact Json.get?_filter (fun k => k ≠ cacheIntentName ∧ k ∉ untrustedScopeFields) hvisible item

theorem elementsOf_stripItems_self :
    elementsOf kind (stripItems kind members) = (elementsOf kind members).map stripItem := by
  unfold stripItems elementsOf
  cases hget : Json.get? kind.array members with
  | none => simp [hget]
  | some v =>
      cases v with
      | arr items => simp [Json.get?_set_self]
      | null | bool | int | float | str | obj => simp [hget]

theorem elementsOf_set {key : Str} {value : Value} (h : kind.array ≠ key) :
    elementsOf kind (Json.set key value members) = elementsOf kind members := by
  unfold elementsOf
  rw [Json.get?_set_ne h]

theorem elementsOf_stripItems_of_ne (h : kind ≠ kind') :
    elementsOf kind (stripItems kind' members) = elementsOf kind members := by
  have harray : kind.array ≠ kind'.array := by
    cases kind <;> cases kind' <;> first | exact absurd rfl h | decide +kernel
  unfold stripItems
  split
  · exact elementsOf_set harray
  · rfl

theorem elementsOf_stripUntrustedScope :
    elementsOf kind (stripUntrustedScope members).1 = elementsOf kind members := by
  unfold elementsOf stripUntrustedScope
  rw [Json.get?_filter (fun f => f ∉ untrustedScopeFields) (array_notMem_untrusted kind)]

theorem elementsOf_stripBindingMembers (kind : FragmentKind) (members : List (Str × Value)) :
    elementsOf kind (stripBindingMembers members).1 = (elementsOf kind members).map stripItem := by
  show elementsOf kind (stripItems .message (stripItems .tool (stripUntrustedScope members).1)) = _
  cases kind with
  | tool =>
      rw [elementsOf_stripItems_of_ne (by decide), elementsOf_stripItems_self,
        elementsOf_stripUntrustedScope]
  | message =>
      rw [elementsOf_stripItems_self, elementsOf_stripItems_of_ne (by decide),
        elementsOf_stripUntrustedScope]

/-- What is stripped was no part of a content. -/
theorem elementContents_stripBindingMembers (members : List (Str × Value)) :
    elementContents (stripBindingMembers members).1 = elementContents members := by
  have hmap : ∀ kind, ((elementsOf kind members).map stripItem).map (elementContent kind) =
      (elementsOf kind members).map (elementContent kind) := by
    intro kind
    rw [List.map_map]
    exact List.map_congr_left fun v _ => elementContent_stripItem v
  unfold elementContents
  rw [elementsOf_stripBindingMembers, elementsOf_stripBindingMembers, hmap, hmap]

theorem elementContents_set_salt (members : List (Str × Value)) (value : Value) :
    elementContents (Json.set (lit "cache_salt") value members) = elementContents members := by
  unfold elementContents
  rw [elementsOf_set (by decide +kernel), elementsOf_set (by decide +kernel)]

/-- The contents of a body's fragments are those of its elements. -/
theorem contentsOf_extractFragments (h : extractFragments (.obj members) = .ok fragments) :
    contentsOf fragments = elementContents members := by
  have hmap : ∀ {kind : FragmentKind} {items : List Value} {fs : List Fragment},
      List.Forall₂ (Extracted kind) items fs → contentsOf fs = items.map (elementContent kind) := by
    intro kind items fs hfs
    induction hfs with
    | nil => rfl
    | cons hx _ ih =>
        obtain ⟨index, item, rfl, rfl⟩ := hx
        rw [List.map_cons, ← ih]
        rfl
  obtain ⟨tools, messages, tf, mf, htools, hmessages, htool, hmessage, rfl⟩ :=
    items_of_extractFragments h
  rw [elementContents, elementsOf_of_itemsOf htools, elementsOf_of_itemsOf hmessages,
    ← hmap (extracted_of_extractItems htool), ← hmap (extracted_of_extractItems hmessage)]
  exact List.map_append

theorem contentsOf_readBody (h : readBody body = .ok (members, fragments)) :
    contentsOf fragments = elementContents members :=
  contentsOf_extractFragments (extract_of_readBody h).2

theorem cacheSalt_notMem (members : List (Str × Value)) :
    lit "cache_salt" ∉ (stripBindingMembers members).1.map Prod.fst := fun hmem => by
  obtain ⟨m, hm, heq⟩ := List.mem_map.mp hmem
  exact unscoped_stripBindingMembers members m hm (heq ▸ by decide +kernel)

end CacheControl

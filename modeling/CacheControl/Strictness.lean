import CacheControl.Narrowing
import CacheControl.Reordering

/-!
# Repeated names

Strict parsing differs from `json.loads` in one thing: it refuses the texts in which
an object, at whatever depth, has two members whose decoded names are equal.
-/

open PyText

namespace CacheControl

section

variable [Runtime] {text : Str} {tree v : Value}

/-- `json.loads(text)`: without a hook an object becomes the `dict` of its members. -/
def jsonLoads (text : Str) : Except PyError Value :=
  match Json.loads (fun pairs => (.ok (.obj (Json.dictOf pairs)) : Except PyError Value)) text with
  | .ok v => .ok v
  | .error .malformed => .error .jsonDecodeError
  | .error (.hook e) => .error e

theorem jsonLoads_of_spells (h : Json.Spells text tree) :
    jsonLoads text = Json.folded (fun pairs => .ok (.obj (Json.dictOf pairs))) tree := by
  unfold jsonLoads
  rw [Json.loads_of_spells h]
  cases Json.folded (fun pairs => (.ok (.obj (Json.dictOf pairs)) : Except PyError Value)) tree <;>
    rfl

theorem exists_jsonLoads_iff :
    (∃ v, jsonLoads text = .ok v) ↔ ∃ tree : Value, Json.Spells text tree := by
  constructor
  · rintro ⟨v, hv⟩
    unfold jsonLoads at hv
    split at hv
    · rename_i w hw
      obtain ⟨tree, htree, -⟩ := Json.spells_of_loads hw
      exact ⟨tree, htree⟩
    · cases hv
    · cases hv
  · rintro ⟨tree, htree⟩
    rw [jsonLoads_of_spells htree]
    cases hfolded : Json.folded (fun pairs => (.ok (.obj (Json.dictOf pairs)) :
        Except PyError Value)) tree with
    | ok v => exact ⟨v, rfl⟩
    | error e =>
        obtain ⟨pairs, hpairs⟩ := Json.exists_hook_error htree hfolded
        cases hpairs

theorem nodup_of_objectIn {members : List (Str × Value)} (h : ¬tree.RepeatsName)
    (hobject : Json.ObjectIn members tree) : (members.map Prod.fst).Nodup := by
  by_contra hnot
  obtain ⟨k, hk⟩ := List.exists_duplicate_iff_not_nodup.mpr hnot
  exact h ⟨members, k, hobject, hk⟩

theorem nodup_of_jsonLoads {members : List (Str × Value)} (h : jsonLoads text = .ok (.obj members)) :
    (members.map Prod.fst).Nodup := by
  obtain ⟨tree, htree⟩ := exists_jsonLoads_iff.mp ⟨_, h⟩
  rw [jsonLoads_of_spells htree] at h
  cases tree with
  | obj pairs =>
      obtain ⟨pairs', -, hpairs⟩ := bind_eq_ok_iff.mp h
      cases hpairs
      exact Json.nodup_dictOf pairs'
  | arr items =>
      unfold Json.folded at h
      cases hitems : Json.foldedItems (fun pairs => (.ok (.obj (Json.dictOf pairs)) :
          Except PyError Value)) items <;> rw [hitems] at h <;> cases h
  | _ => cases h

/-- Where no name is repeated, `dict` loses no member. -/
theorem jsonLoads_eq (htree : Json.Spells text tree) (h : ¬tree.RepeatsName) :
    jsonLoads text = .ok tree := by
  rw [jsonLoads_of_spells htree]
  refine Json.folded_of_keeps fun members hobject => ?_
  rw [Json.dictOf_of_nodup (nodup_of_objectIn h hobject)]

end

/-- Of the texts that `json.loads` reads, strict parsing rejects those in which some
object has two members of one name, and reads every other as `json.loads` does, with
all its members. -/
theorem loadsStrict_rejects_iff [Runtime] (text : Str) :
    ((∃ v, jsonLoads text = .ok v) ↔ ∃ tree : Value, Json.Spells text tree) ∧
    ∀ tree : Value, Json.Spells text tree →
      ((∃ k, loadsStrict text = .error (.duplicateMemberName k)) ↔ tree.RepeatsName) ∧
      (¬tree.RepeatsName → loadsStrict text = .ok tree ∧ jsonLoads text = .ok tree) := by
  refine ⟨exists_jsonLoads_iff, fun tree htree => ?_⟩
  obtain ⟨hkept, hrefused⟩ := loadsStrict_cases htree
  refine ⟨⟨?_, hrefused⟩, fun h => ⟨hkept h, jsonLoads_eq htree h⟩⟩
  rintro ⟨k, hk⟩
  by_contra hnot
  cases hk.symm.trans (hkept hnot)

section

attribute [local instance] reference

/-- The repeated name is spelled with an escape, in an object within an array whose own
name is repeated behind it. -/
def nestedText : Str :=
  lit "[\x7b\"a\": \x7b\"b\": 1, \"\\u0062\": 2\x7d, \"a\": 3\x7d]"

def isRepetition : Except PyError Value → Bool
  | .error (.duplicateMemberName _) => true
  | _ => false

theorem loadsStrict_rejects_iff_nestedText : ∃ tree : Value, Json.Spells nestedText tree ∧
    tree.RepeatsName ∧ ∃ k, loadsStrict nestedText = .error (.duplicateMemberName k) := by
  have hread : (jsonLoads nestedText).toBool = true := by decide +kernel
  obtain ⟨tree, htree⟩ := (loadsStrict_rejects_iff nestedText).1.mp (exists_ok hread)
  have hrepetition : isRepetition (loadsStrict nestedText) = true := by decide +kernel
  have hrejected : ∃ k, loadsStrict nestedText = .error (.duplicateMemberName k) := by
    unfold isRepetition at hrepetition
    split at hrepetition
    · rename_i k hk
      exact ⟨k, hk⟩
    · cases hrepetition
  exact ⟨tree, htree, (((loadsStrict_rejects_iff nestedText).2 tree htree).1).mp hrejected,
    hrejected⟩

end

end CacheControl

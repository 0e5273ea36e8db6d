import CacheControl.Lib.JsonCanonical
import CacheControl.Advice

/-!
# Ids of fragments

A fragment goes by the id that its intent supplies, and by a name made of its
position where the intent supplies none.
-/

open PyText

namespace CacheControl

section

variable [Runtime] {members : List (Str × Value)} {fragments : List Fragment} {e e' : Element}
  {f : Fragment} {intent : Intent}

def idOfIntent : Value → Option Value
  | .obj intent => Json.get? (lit "id") intent
  | _ => none

/-- The `id` that the application put into the element's intent. -/
def Element.suppliedId (e : Element) : Option Value :=
  (Json.get? cacheIntentName e.value.members).bind idOfIntent

/-- The name by position, such as `message[2]`. -/
def positionId (kind : FragmentKind) (index : ℕ) : Str :=
  kind.word ++ lit "[" ++ decimal index ++ lit "]"

/-- What the element's fragment goes by. -/
def Element.id (e : Element) : Value :=
  e.suppliedId.getD (.str (positionId e.kind e.index))

theorem id_of_makes (h : Makes e f) : f.id = e.id := by
  obtain ⟨item, hitem, -, rfl⟩ := h
  rw [Element.id, Element.suppliedId, hitem]
  show fragmentId e.kind e.index (Json.get? cacheIntentName item) =
    ((Json.get? cacheIntentName item).bind idOfIntent).getD _
  cases Json.get? cacheIntentName item with
  | none => rfl
  | some v => cases v <;> rfl

theorem ids_of_makes {es : List Element} (h : List.Forall₂ Makes es fragments) :
    fragments.map Fragment.id = es.map Element.id := by
  induction h with
  | nil => rfl
  | cons hmakes _ ih => rw [List.map_cons, List.map_cons, ih, id_of_makes hmakes]

/-! ## Supplied ids -/

theorem exists_id_of_decodeIntent {v : Value} (h : decodeIntent v = some intent) :
    ∃ intentMembers, v = .obj intentMembers ∧ ∀ w, Json.get? (lit "id") intentMembers = some w →
      ∃ id, w = .str id ∧ 1 ≤ id.length ∧ id.length ≤ 256 := by
  cases v with
  | obj intentMembers =>
      refine ⟨intentMembers, rfl, fun w hw => ?_⟩
      simp only [decodeIntent, Option.bind_eq_bind, Option.bind_eq_some_iff] at h
      obtain ⟨-, -, version, -, -, -, id, hid, -⟩ := h
      rw [hw, decodeOptional, Option.map_eq_some_iff] at hid
      obtain ⟨name, hname, -⟩ := hid
      cases w with
      | str s =>
          rw [decodeName, Option.ite_none_right_eq_some] at hname
          exact ⟨s, rfl, hname.1⟩
      | _ => cases hname
  | _ => cases h

/-- An id that a valid intent supplies is a string that is not empty. -/
theorem exists_suppliedId (hfloat : Json.FloatsReadBack Runtime.Float) (hmakes : Makes e f)
    (hparsed : ∀ text, f.intentJson = some text → ∃ intent, parseCacheIntent text = .ok intent)
    {v : Value} (hv : e.suppliedId = some v) : ∃ id, v = .str id ∧ id ≠ [] := by
  obtain ⟨item, hitem, -, rfl⟩ := hmakes
  rw [Element.suppliedId, hitem, Option.bind_eq_some_iff] at hv
  obtain ⟨w, hget, hv⟩ := hv
  have htext : (fragmentOf e.kind e.index item).intentJson = some (intentDocument w) :=
    congrArg (Option.map intentDocument) hget
  obtain ⟨intent, hparse⟩ := hparsed _ htext
  obtain ⟨rejoined, hrejoin, hid⟩ :=
    exists_id_of_decodeIntent (decodeIntent_of_parse hfloat hparse)
  cases w with
  | obj intentMembers =>
      rw [Json.rejoin_obj, Json.obj.injEq] at hrejoin
      have hname : ∀ p ∈ lit "id", p.ord < 0xD800 := by decide +kernel
      obtain ⟨id, heq, hlength, -⟩ := hid v.rejoin (by
        rw [← hrejoin, Json.get?_rejoin hname]
        exact congrArg (Option.map Json.rejoin) hv)
      cases v with
      | str s =>
          refine ⟨s, rfl, ?_⟩
          rintro rfl
          cases heq
          exact absurd hlength (by decide)
      | obj ms => rw [Json.rejoin_obj] at heq; cases heq
      | arr items => rw [Json.rejoin_arr] at heq; cases heq
      | null | bool | int | float => cases heq
  | null | bool | int | float | str | arr => cases hv

/-! ## Names by position -/

omit [Runtime] in
theorem positionId_inj {kind kind' : FragmentKind} {index index' : ℕ}
    (h : positionId kind index = positionId kind' index') : kind = kind' ∧ index = index' := by
  have hhead : ∀ kind : FragmentKind, ∀ r : Str, (kind.word ++ r).head? = kind.word.head? := by
    intro kind r
    exact List.head?_append_of_ne_nil _ (by cases kind <;> decide +kernel)
  have hword : ∀ kind kind' : FragmentKind, kind.word.head? = kind'.word.head? → kind = kind' := by
    rintro (_ | _) (_ | _) <;> decide +kernel
  unfold positionId at h
  obtain rfl : kind = kind' := by
    apply hword
    have hsame := congrArg List.head? h
    simpa only [List.append_assoc, hhead] using hsame
  refine ⟨rfl, ?_⟩
  have hdecimal := List.append_cancel_right h
  rw [List.append_cancel_left_eq] at hdecimal
  exact textLength.digits_injective hdecimal

/-- No two elements stand at one position. -/
theorem pairwise_positions (members : List (Str × Value)) :
    (elements members).Pairwise fun e e' =>
      positionId e.kind e.index ≠ positionId e'.kind e'.index := by
  have hindex : ∀ (kind : FragmentKind) (n : ℕ) (items : List Value),
      ∀ e ∈ numbered kind n items, n ≤ e.index := by
    intro kind n items
    induction items generalizing n with
    | nil => simp [numbered]
    | cons v items ih =>
        intro e he
        rcases List.mem_cons.mp he with rfl | he
        · exact le_rfl
        · exact Nat.le_of_succ_le (ih (n + 1) e he)
  have hnumbered : ∀ (kind : FragmentKind) (n : ℕ) (items : List Value),
      (numbered kind n items).Pairwise fun e e' =>
        positionId e.kind e.index ≠ positionId e'.kind e'.index := by
    intro kind n items
    induction items generalizing n with
    | nil => exact .nil
    | cons v items ih =>
        refine .cons (fun e he heq => ?_) (ih (n + 1))
        have hle := hindex kind (n + 1) items e he
        have hsame := (positionId_inj heq).2
        dsimp only at hsame
        omega
  refine List.pairwise_append.mpr ⟨hnumbered _ _ _, hnumbered _ _ _, fun e he e' he' heq => ?_⟩
  have hkind := (positionId_inj heq).1
  rw [kind_of_mem_numbered he, kind_of_mem_numbered he'] at hkind
  cases hkind

end

end CacheControl

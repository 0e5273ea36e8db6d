import CacheControl.Lowering
import CacheControl.Upstream

/-!
# Accepted requests

What an accepted body went through: its elements became fragments in order, the
gateway handled them, and what it reported was lowered onto the salt.
-/

open PyText

namespace CacheControl

variable [Runtime] {σ : Type} {g : Gateway σ} {c : Call} {s t : σ} {fragments : List Fragment}
  {body : Str} {members : List (Str × Value)}

/-! ## Elements -/

/-- An element of `tools` or `messages`, with its position in the array. -/
structure Element where
  kind : FragmentKind
  index : ℕ
  value : Value

def numbered (kind : FragmentKind) : ℕ → List Value → List Element
  | _, [] => []
  | index, v :: items => ⟨kind, index, v⟩ :: numbered kind (index + 1) items

/-- The elements of a body in the order of its fragments. -/
def elements (members : List (Str × Value)) : List Element :=
  numbered .tool 0 (elementsOf .tool members) ++ numbered .message 0 (elementsOf .message members)

theorem values_numbered (kind : FragmentKind) (n : ℕ) (items : List Value) :
    (numbered kind n items).map Element.value = items := by
  induction items generalizing n with
  | nil => rfl
  | cons v items ih => rw [numbered, List.map_cons, ih]

theorem kind_of_mem_numbered {kind : FragmentKind} {n : ℕ} {items : List Value} {e : Element}
    (h : e ∈ numbered kind n items) : e.kind = kind := by
  induction items generalizing n with
  | nil => cases h
  | cons v items ih =>
      rcases List.mem_cons.mp h with rfl | h
      · rfl
      · exact ih h

theorem value_of_mem_elements {e : Element} (h : e ∈ elements members) :
    e.value ∈ elementsOf e.kind members := by
  have hvalue : ∀ {kind : FragmentKind}, e ∈ numbered kind 0 (elementsOf kind members) →
      e.value ∈ elementsOf e.kind members := by
    intro kind he
    rw [kind_of_mem_numbered he]
    have hmem := List.mem_map_of_mem (f := Element.value) he
    rwa [values_numbered] at hmem
  exact (List.mem_append.mp h).elim hvalue hvalue

theorem exists_element {kind : FragmentKind} {v : Value} (h : v ∈ elementsOf kind members) :
    ∃ e ∈ elements members, e.kind = kind ∧ e.value = v := by
  have hmem : v ∈ (numbered kind 0 (elementsOf kind members)).map Element.value := by
    rwa [values_numbered]
  obtain ⟨e, he, rfl⟩ := List.mem_map.mp hmem
  refine ⟨e, ?_, kind_of_mem_numbered he, rfl⟩
  cases kind with
  | tool => exact List.mem_append_left _ he
  | message => exact List.mem_append_right _ he

/-- The element is an object that passes its check, and the fragment is made from it. -/
def Makes (e : Element) (f : Fragment) : Prop :=
  ∃ item, e.value = .obj item ∧ checkItem e.kind item e.index = .ok () ∧
    f = fragmentOf e.kind e.index item

theorem exists_made {es : List Element} (h : List.Forall₂ Makes es fragments) {i : ℕ} {e : Element}
    (he : es[i]? = some e) : ∃ f, fragments[i]? = some f ∧ Makes e f := by
  obtain ⟨hlt, rfl⟩ := List.getElem?_eq_some_iff.mp he
  have hlt' : i < fragments.length := h.length_eq ▸ hlt
  exact ⟨fragments[i], List.getElem?_eq_getElem hlt', h.get hlt hlt'⟩

theorem makes_of_extractItems {kind : FragmentKind} {n : ℕ} {items : List Value}
    (h : extractItems kind n items = .ok fragments) :
    List.Forall₂ Makes (numbered kind n items) fragments := by
  induction items generalizing n fragments with
  | nil => cases h; exact .nil
  | cons v items ih =>
      cases v with
      | obj item =>
          rw [extractItems_obj] at h
          obtain ⟨u, hcheck, h⟩ := bind_eq_ok_iff.mp h
          obtain ⟨rest, hrest, h⟩ := bind_eq_ok_iff.mp h
          cases h
          exact .cons ⟨item, rfl, hcheck, rfl⟩ (ih hrest)
      | null | bool | int | float | str | arr => cases h

theorem makes_of_extractFragments (h : extractFragments (.obj members) = .ok fragments) :
    List.Forall₂ Makes (elements members) fragments := by
  obtain ⟨tools, messages, tf, mf, htools, hmessages, htool, hmessage, rfl⟩ :=
    items_of_extractFragments h
  rw [elements, elementsOf_of_itemsOf htools, elementsOf_of_itemsOf hmessages]
  exact List.rel_append (makes_of_extractItems htool) (makes_of_extractItems hmessage)

theorem makes_of_readBody (h : readBody body = .ok (members, fragments)) :
    loadsStrict body = .ok (.obj members) ∧
      List.Forall₂ Makes (elements members) fragments := by
  obtain ⟨hload, hextract⟩ := extract_of_readBody h
  exact ⟨hload, makes_of_extractFragments hextract⟩

/-! ## Statuses -/

/-- The status at a position, by the prefix that ends there. -/
theorem Reported.at_position {statuses : List FragmentStatus} {st : FragmentStatus} {i : ℕ}
    (h : Reported g fragments statuses) (hat : statuses[i]? = some st) :
    ∃ f, fragments[i]? = some f ∧
      (constraintsOf (fragments.take (i + 1)) = some [] ∧ st = Gateway.bareStatus f ∨
        ∃ eff, Governs g (fragments.take (i + 1)) st eff) := by
  obtain ⟨hlt, -⟩ := List.getElem?_eq_some_iff.mp hat
  rw [h.length_eq] at hlt
  have htake : fragments.take i ++ [fragments[i]] = fragments.take (i + 1) :=
    (List.take_succ_eq_append_getElem hlt).symm
  obtain ⟨st', hat', hcases⟩ := h.status _ _ (htake ▸ List.take_prefix _ _)
  rw [List.length_take, min_eq_left hlt.le, hat, Option.some.injEq] at hat'
  subst hat'
  rw [htake] at hcases
  exact ⟨fragments[i], List.getElem?_eq_getElem hlt, hcases⟩

theorem exists_constraintsOf_answer {r : Result} (h : (g.answer c s).1 = .ok r)
    (hord : c.ordered = .ok fragments) : ∃ cs, constraintsOf fragments = some cs := by
  rcases List.eq_nil_or_concat fragments with rfl | ⟨p, last, rfl⟩
  · exact ⟨[], rfl⟩
  · rw [List.concat_eq_append] at hord ⊢
    obtain ⟨st, -, ⟨hbare, -⟩ | ⟨eff, hgoverns⟩⟩ :=
      (reported_of_answer h hord).status p last (List.prefix_refl _)
    · exact ⟨[], hbare⟩
    · obtain ⟨cs, hcs, -⟩ := composes_of_policy hgoverns.policy
      exact ⟨cs, hcs⟩

theorem parsed_of_answer {r : Result} (h : (g.answer c s).1 = .ok r)
    (hord : c.ordered = .ok fragments) {f : Fragment} (hf : f ∈ fragments) {text : Str}
    (htext : f.intentJson = some text) : ∃ i, parseCacheIntent text = .ok i := by
  obtain ⟨cs, hcs⟩ := exists_constraintsOf_answer h hord
  exact parsed_of_constraintsOf hcs hf htext

end CacheControl

import CacheControl.Agreement

/-!
# Rewriting the elements of a body

What upstream sees of a body, and what is left of it when some members of its
`tools` and `messages` elements are disregarded, are rewritings of the elements
of the two arrays.
-/

open PyText

namespace CacheControl

variable [Runtime] {σ : Type}

def arrayNames : List Str := [FragmentKind.array .tool, FragmentKind.array .message]

def onArray (f : Value → Value) : Value → Value
  | .arr items => .arr (items.map f)
  | v => v

/-- Rewrite every element of the two arrays. -/
def onElements (f : Value → Value) (members : List (Str × Value)) : List (Str × Value) :=
  members.map fun m => (m.1, if m.1 ∈ arrayNames then onArray f m.2 else m.2)

/-- Rewrite a value where it is an object. -/
def onObject (f : List (Str × Value) → List (Str × Value)) : Value → Value
  | .obj item => .obj (f item)
  | v => v

theorem onArray_onArray (f f' : Value → Value) (v : Value) :
    onArray f (onArray f' v) = onArray (f ∘ f') v := by
  cases v <;> simp [onArray]

theorem onElements_onElements (f f' : Value → Value) (members : List (Str × Value)) :
    onElements f (onElements f' members) = onElements (f ∘ f') members := by
  unfold onElements
  rw [List.map_map]
  refine List.map_congr_left fun m _ => ?_
  by_cases hm : m.1 ∈ arrayNames <;> simp [hm, onArray_onArray]

theorem names_onElements (f : Value → Value) (members : List (Str × Value)) :
    (onElements f members).map Prod.fst = members.map Prod.fst := by
  simp [onElements, Function.comp_def]

theorem get?_onElements (f : Value → Value) (kind : FragmentKind) (members : List (Str × Value)) :
    Json.get? kind.array (onElements f members) = (Json.get? kind.array members).map (onArray f) := by
  have hmem : kind.array ∈ arrayNames := by cases kind <;> simp [arrayNames]
  rw [onElements, Json.get?_map fun k v => if k ∈ arrayNames then onArray f v else v]
  simp [hmem]

theorem distinct_onElements {f : Value → Value} (hf : ∀ v, v.Distinct → (f v).Distinct)
    {members : List (Str × Value)} (h : (Json.obj members).Distinct) :
    (Json.obj (onElements f members)).Distinct := by
  obtain ⟨hnames, hvalues⟩ := Json.distinct_obj_iff.mp h
  have harray : ∀ v : Value, v.Distinct → (onArray f v).Distinct := fun v hv => by
    cases v with
    | arr items =>
        rw [Json.distinct_arr_iff] at hv
        rw [onArray, Json.distinct_arr_iff, List.forall_mem_map]
        exact fun w hw => hf w (hv w hw)
    | _ => exact hv
  refine Json.distinct_obj_iff.mpr ⟨by rwa [names_onElements], ?_⟩
  rw [onElements, List.forall_mem_map]
  intro m hm
  dsimp only
  split
  · exact harray _ (hvalues m hm)
  · exact hvalues m hm

theorem distinct_filter {members : List (Str × Value)} (h : (Json.obj members).Distinct)
    (p : Str × Value → Bool) : (Json.obj (members.filter p)).Distinct := by
  obtain ⟨hnames, hvalues⟩ := Json.distinct_obj_iff.mp h
  exact Json.distinct_obj_iff.mpr ⟨hnames.sublist (List.filter_sublist.map _),
    fun m hm => hvalues m (List.mem_of_mem_filter hm)⟩

/-- The rewriting does not depend on the order of members. -/
def Orderless (f : Value → Value) : Prop := ∀ v : Value, v.Distinct → (f v.sorted).sorted = (f v).sorted

theorem Orderless.congr {f : Value → Value} (hf : Orderless f) {v w : Value} (hv : v.Distinct)
    (hw : w.Distinct) (h : v.sorted = w.sorted) : (f v).sorted = (f w).sorted := by
  rw [← hf v hv, h, hf w hw]

theorem Orderless.onElements {f : Value → Value} (hf : Orderless f) {members : List (Str × Value)}
    (h : (Json.obj members).Distinct) :
    Json.sortedObj (onElements f (Json.sortedObj members)) =
      Json.sortedObj (onElements f members) := by
  refine Json.sortedObj_map (fun k v => if k ∈ arrayNames then onArray f v else v) fun m hm => ?_
  have hvalue := (Json.distinct_obj_iff.mp h).2 m hm
  split
  · cases hv : m.2 with
    | arr items =>
        rw [hv, Json.distinct_arr_iff] at hvalue
        rw [Json.sorted_arr, onArray, onArray, Json.sorted_arr, Json.sorted_arr, List.map_map,
          List.map_map, List.map_map]
        exact congrArg Json.arr (List.map_congr_left fun v hv => hf v (hvalue v hv))
    | obj item => exact Json.sorted_sorted (.obj item)
    | _ => rfl
  · exact Json.sorted_sorted _

theorem Orderless.sortedObj_congr {f : Value → Value} (hf : Orderless f)
    {members members' : List (Str × Value)} (h : (Json.obj members).Distinct)
    (h' : (Json.obj members').Distinct) (heq : Json.sortedObj members = Json.sortedObj members') :
    Json.sortedObj (CacheControl.onElements f members) =
      Json.sortedObj (CacheControl.onElements f members') := by
  rw [← hf.onElements h, heq, hf.onElements h']

theorem orderless_filter (p : Str → Bool) :
    Orderless (onObject fun item => item.filter fun m => p m.1) := by
  intro v hv
  cases v with
  | obj item =>
      have hnames := (Json.distinct_obj_iff.mp hv).1
      have hnames' := (Json.perm_names_sortedObj item).symm.nodup hnames
      have hidem : Json.sortedObj (Json.sortedObj item) = Json.sortedObj item := by
        have h := Json.sorted_sorted (.obj item)
        rw [Json.sorted_obj, Json.sorted_obj] at h
        exact Json.obj.inj h
      rw [Json.sorted_obj, onObject, onObject, Json.sorted_obj, Json.sorted_obj,
        Json.sortedObj_filter hnames', hidem, Json.sortedObj_filter hnames]
  | arr items => exact Json.sorted_sorted (.arr items)
  | _ => rfl

/-! ## Agreement -/

section

variable {E : PyError → PyError → Prop} {I : Value → Value → Prop}
  {K : HintStatus → HintStatus → Prop} {f : List (Str × Value) → List (Str × Value)}
  {kind : FragmentKind}

theorem sorted_onObject_other {v : Value} (hv : ∀ item, v ≠ .obj item)
    (item : List (Str × Value)) : (onObject f v).sorted ≠ .obj item := by
  intro heq
  cases v with
  | obj item => exact hv item rfl
  | _ => cases heq

theorem elementsAgree_of_sorted
    (hobj : ∀ item item' : List (Str × Value), (Json.obj item).Distinct →
      (Json.obj item').Distinct → Json.sortedObj (f item) = Json.sortedObj (f item') →
      ElementsAgree E I K kind (.obj item) (.obj item'))
    {v v' : Value} (hv : v.Distinct) (hv' : v'.Distinct)
    (h : (onObject f v).sorted = (onObject f v').sorted) : ElementsAgree E I K kind v v' := by
  by_cases hitem : ∃ item, v = .obj item
  · obtain ⟨item, rfl⟩ := hitem
    rw [onObject, Json.sorted_obj] at h
    by_cases hitem' : ∃ item', v' = .obj item'
    · obtain ⟨item', rfl⟩ := hitem'
      rw [onObject, Json.sorted_obj] at h
      exact hobj item item' hv hv' (Json.obj.inj h)
    · exact absurd h.symm (sorted_onObject_other (not_exists.mp hitem') _)
  · by_cases hitem' : ∃ item', v' = .obj item'
    · obtain ⟨item', rfl⟩ := hitem'
      rw [onObject, Json.sorted_obj] at h
      exact absurd h (sorted_onObject_other (not_exists.mp hitem) _)
    · exact .other (not_exists.mp hitem) (not_exists.mp hitem')

theorem truthy_onArray (f : Value → Value) (v : Value) : (onArray f v).truthy = v.truthy := by
  cases v <;> simp [onArray, Json.truthy]

theorem itemsOf_onElements (f : Value → Value) (kind : FragmentKind)
    (members : List (Str × Value)) :
    itemsOf kind (onElements f members) = (itemsOf kind members).map (List.map f) := by
  unfold itemsOf
  rw [get?_onElements]
  cases Json.get? kind.array members with
  | none => rfl
  | some v =>
      rw [Option.map_some, Option.filter_some, Option.filter_some, truthy_onArray]
      cases v.truthy with
      | false => rfl
      | true => cases v <;> rfl

theorem sorted_onArray_other {f : Value → Value} {v : Value} (hv : ∀ items, v ≠ .arr items)
    (items : List Value) : (onArray f v).sorted ≠ .arr items := by
  intro heq
  cases v with
  | arr items => exact hv items rfl
  | _ => cases heq

theorem arraysAgree_of_sorted {f : Value → Value} {D : Value → Value → Prop}
    (hD : ∀ v v' : Value, v.Distinct → v'.Distinct → (f v).sorted = (f v').sorted → D v v')
    {v v' : Value} (hv : v.Distinct) (hv' : v'.Distinct)
    (h : (onArray f v).sorted = (onArray f v').sorted) : ArraysAgree D (some v) (some v') := by
  by_cases harr : ∃ items, v = .arr items
  · obtain ⟨items, rfl⟩ := harr
    rw [onArray, Json.sorted_arr] at h
    by_cases harr' : ∃ items', v' = .arr items'
    · obtain ⟨items', rfl⟩ := harr'
      rw [onArray, Json.sorted_arr, Json.arr.injEq, List.map_map, List.map_map] at h
      rw [Json.distinct_arr_iff] at hv hv'
      refine .array ?_
      induction items generalizing items' with
      | nil =>
          cases items' with
          | nil => exact .nil
          | cons w' items' => cases h
      | cons w items ih =>
          cases items' with
          | nil => cases h
          | cons w' items' =>
              obtain ⟨hw, hrest⟩ := List.cons.inj h
              exact .cons (hD w w' (hv w (by simp)) (hv' w' (by simp)) hw)
                (ih (fun u hu => hv u (by simp [hu])) _ (fun u hu => hv' u (by simp [hu])) hrest)
    · exact absurd h.symm (sorted_onArray_other (not_exists.mp harr') _)
  · by_cases harr' : ∃ items', v' = .arr items'
    · obtain ⟨items', rfl⟩ := harr'
      rw [onArray, Json.sorted_arr] at h
      exact absurd h (sorted_onArray_other (not_exists.mp harr) _)
    · refine .other (not_exists.mp harr) (not_exists.mp harr') ?_
      rw [← truthy_onArray f v, ← Json.truthy_sorted, h, Json.truthy_sorted, truthy_onArray]

/-- Two bodies whose rewritten forms are equal up to the order of members hold
arrays that agree, where elements do whose rewritten forms are. -/
theorem arraysAgree_of_onElements {f : Value → Value} {D : Value → Value → Prop}
    (hD : ∀ v v' : Value, v.Distinct → v'.Distinct → (f v).sorted = (f v').sorted → D v v')
    {members members' : List (Str × Value)} (hd : (Json.obj members).Distinct)
    (hd' : (Json.obj members').Distinct)
    (h : Json.sortedObj (onElements f members) = Json.sortedObj (onElements f members'))
    (kind : FragmentKind) :
    ArraysAgree D (Json.get? kind.array members) (Json.get? kind.array members') := by
  have hget : ((Json.get? kind.array members).map (onArray f)).map Json.sorted =
      ((Json.get? kind.array members').map (onArray f)).map Json.sorted := by
    have hnames : ∀ members : List (Str × Value), (Json.obj members).Distinct →
        ((onElements f members).map Prod.fst).Nodup := fun members hd => by
      rw [names_onElements]
      exact (Json.distinct_obj_iff.mp hd).1
    rw [← get?_onElements, ← get?_onElements, ← Json.get?_sortedObj (hnames members hd),
      ← Json.get?_sortedObj (hnames members' hd'), h]
  cases hv : Json.get? kind.array members with
  | none =>
      cases hv' : Json.get? kind.array members' with
      | none => exact .absent
      | some v' => rw [hv, hv'] at hget; cases hget
  | some v =>
      cases hv' : Json.get? kind.array members' with
      | none => rw [hv, hv'] at hget; cases hget
      | some v' =>
          rw [hv, hv'] at hget
          exact arraysAgree_of_sorted hD (distinct_of_get? hd hv) (distinct_of_get? hd' hv')
            (Option.some.inj hget)

end

/-! ## What upstream sees -/

theorem set_array_eq {kind : FragmentKind} {members : List (Str × Value)} {items : List Value}
    (hnames : (members.map Prod.fst).Nodup) (hget : Json.get? kind.array members = some (.arr items))
    (f : Value → Value) : Json.set kind.array (.arr (items.map f)) members =
      members.map fun m => (m.1, if m.1 = kind.array then onArray f m.2 else m.2) := by
  have hmem : kind.array ∈ members.map Prod.fst :=
    List.mem_map_of_mem (f := Prod.fst) (Json.mem_of_get? hget)
  rw [Json.set_of_mem hnames hmem]
  refine List.map_congr_left fun m hm => ?_
  by_cases hk : m.1 = kind.array
  · have hvalue : m.2 = .arr items :=
      Option.some.inj (((Json.get?_eq_some_iff hnames).mpr (hk ▸ hm)).symm.trans hget)
    simp [hk, hvalue, onArray]
  · simp [hk]

theorem stripItems_eq (kind : FragmentKind) {members : List (Str × Value)}
    (hnames : (members.map Prod.fst).Nodup) : stripItems kind members =
      members.map fun m => (m.1, if m.1 = kind.array then onArray stripItem m.2 else m.2) := by
  unfold stripItems
  split
  · rename_i items hget
    exact set_array_eq hnames hget stripItem
  · rename_i hnot
    refine (List.map_id members).symm.trans (List.map_congr_left fun m hm => ?_)
    by_cases hk : m.1 = kind.array
    · have hget := (Json.get?_eq_some_iff hnames).mpr (hk ▸ hm : (kind.array, m.2) ∈ members)
      have hvalue : onArray stripItem m.2 = m.2 := by
        cases hv : m.2 with
        | arr items => exact absurd (hv ▸ hget) (hnot items)
        | _ => rfl
      simp [hvalue]
    · simp [hk]

/-- The members of a body that are not scope members. -/
def unscoped (members : List (Str × Value)) : List (Str × Value) :=
  members.filter fun m => m.1 ∉ untrustedScopeFields

theorem stripBindingMembers_eq {members : List (Str × Value)}
    (hnames : (members.map Prod.fst).Nodup) :
    (stripBindingMembers members).1 = onElements stripItem (unscoped members) := by
  have hfilter : ((unscoped members).map Prod.fst).Nodup :=
    hnames.sublist (List.filter_sublist.map _)
  show stripItems .message (stripItems .tool (unscoped members)) = _
  rw [stripItems_eq .tool hfilter, stripItems_eq .message (by simpa [Function.comp_def] using hfilter),
    onElements, List.map_map]
  refine List.map_congr_left fun m _ => ?_
  have hne : FragmentKind.array .tool ≠ FragmentKind.array .message := by decide +kernel
  by_cases htool : m.1 = FragmentKind.array .tool
  · simp [arrayNames, htool, hne]
  · by_cases hmessage : m.1 = FragmentKind.array .message
    · simp [arrayNames, hmessage, hne.symm]
    · simp [arrayNames, htool, hmessage]

end CacheControl

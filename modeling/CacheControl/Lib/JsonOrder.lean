import CacheControl.Lib.JsonText

/-!
# Values up to the order of members

`sorted` puts the members of every object in the order of their names.  Values
whose objects repeat no name have equal sorted forms exactly when they differ in
the order of members only, and what looks members up by name sees no difference.
-/

open PyText
open scoped List

namespace Json

variable {F ε α β : Type}

/-! ## The order of names -/

theorem ord_injective : Function.Injective CodePoint.ord := by
  have hscalar : ∀ c : Char, c.toNat < 0xD800 ∨ 0xDFFF < c.toNat := fun c => by
    have hvalid : c.toNat < 0xD800 ∨ 0xDFFF < c.toNat ∧ c.toNat < 0x110000 := c.valid
    omega
  rintro (c | i) (d | j) h
  · rw [Char.toNat_inj.mp h]
  · have hord : c.toNat = 0xD800 + (j : ℕ) := h
    have hc := hscalar c
    omega
  · have hord : 0xD800 + (i : ℕ) = d.toNat := h
    have hd := hscalar d
    omega
  · have hord : 0xD800 + (i : ℕ) = 0xD800 + (j : ℕ) := h
    rw [Fin.ext (by omega : (i : ℕ) = j)]

theorem strLe_iff {s t : Str} : strLe s t ↔ s.map CodePoint.ord ≤ t.map CodePoint.ord := by
  rw [← not_lt]
  induction s generalizing t with
  | nil => simp [strLe]
  | cons p s ih =>
      cases t with
      | nil => simp [strLe]
      | cons q t =>
          rw [List.map_cons, List.map_cons, List.cons_lt_cons_iff, not_or, not_and]
          simp only [strLe, Bool.or_eq_true, decide_eq_true_eq, Bool.and_eq_true, beq_iff_eq, ih]
          constructor
          · rintro (h | ⟨h, hle⟩)
            · exact ⟨h.asymm, fun heq => absurd heq h.ne'⟩
            · exact ⟨by omega, fun _ => hle⟩
          · rintro ⟨h, hle⟩
            exact (Nat.not_lt.mp h).lt_or_eq.imp id fun heq => ⟨heq, hle heq.symm⟩

theorem strLe_total (s t : Str) : strLe s t ∨ strLe t s := by
  rw [strLe_iff, strLe_iff]
  exact le_total _ _

theorem strLe_trans {s t u : Str} (hst : strLe s t) (htu : strLe t u) : strLe s u := by
  rw [strLe_iff] at hst htu ⊢
  exact hst.trans htu

theorem strLe_antisymm {s t : Str} (hst : strLe s t) (hts : strLe t s) : s = t := by
  rw [strLe_iff] at hst hts
  exact List.map_injective_iff.mpr ord_injective (hst.antisymm hts)

/-- Members in the order of their names, as the writer sorts them. -/
def sortMembers (members : List (Str × α)) : List (Str × α) :=
  members.insertionSort fun m m' => strLe m.1 m'.1

theorem perm_sortMembers (members : List (Str × α)) : sortMembers members ~ members :=
  List.perm_insertionSort _ _

instance : Std.Total fun m m' : Str × α => (strLe m.1 m'.1 : Prop) :=
  ⟨fun _ _ => strLe_total _ _⟩

instance : IsTrans (Str × α) fun m m' => (strLe m.1 m'.1 : Prop) := ⟨fun _ _ _ => strLe_trans⟩

theorem pairwise_sortMembers (members : List (Str × α)) :
    (sortMembers members).Pairwise fun m m' => strLe m.1 m'.1 :=
  List.pairwise_insertionSort _ _

theorem sortMembers_sortMembers (members : List (Str × α)) :
    sortMembers (sortMembers members) = sortMembers members :=
  (pairwise_sortMembers members).insertionSort_eq

theorem sortMembers_map (f : Str → α → β) (members : List (Str × α)) :
    sortMembers (members.map fun m => (m.1, f m.1 m.2)) =
      (sortMembers members).map fun m => (m.1, f m.1 m.2) :=
  (List.map_insertionSort _ _ (fun m : Str × α => (m.1, f m.1 m.2)) members
    fun _ _ _ _ => Iff.rfl).symm

/-- Where no name repeats, the sorted members do not depend on the order. -/
theorem sortMembers_eq_of_perm {members members' : List (Str × α)} (h : members ~ members')
    (hnames : (members.map Prod.fst).Nodup) : sortMembers members = sortMembers members' := by
  have hperm : sortMembers members ~ sortMembers members' :=
    ((perm_sortMembers members).trans h).trans (perm_sortMembers members').symm
  refine hperm.eq_of_pairwise (fun m m' hm hm' hle hge => ?_) (pairwise_sortMembers _)
    (pairwise_sortMembers _)
  have hmem : m' ∈ members := h.mem_iff.mpr ((perm_sortMembers members').mem_iff.mp hm')
  exact List.inj_on_of_nodup_map hnames ((perm_sortMembers members).mem_iff.mp hm) hmem
    (strLe_antisymm hle hge)

/-! ## Induction over values -/

@[induction_eliminator]
theorem induct {motive : Json F → Prop} (null : motive null) (bool : ∀ b, motive (bool b))
    (int : ∀ n, motive (int n)) (float : ∀ x, motive (float x)) (str : ∀ s, motive (str s))
    (arr : ∀ items, (∀ v ∈ items, motive v) → motive (arr items))
    (obj : ∀ members, (∀ m ∈ members, motive m.2) → motive (obj members)) (v : Json F) :
    motive v := by
  refine @Json.rec F motive (fun items => ∀ v ∈ items, motive v)
    (fun members => ∀ m ∈ members, motive m.2) (fun m => motive m.2) null bool int float str arr
    obj ?_ ?_ ?_ ?_ ?_ v
  · simp
  · intro v items hv hitems
    simpa using ⟨hv, hitems⟩
  · simp
  · intro m members hm hmembers
    simpa using ⟨hm, by simpa using hmembers⟩
  · intro k v hv
    exact hv

/-! ## Deciding equality -/

section

variable [DecidableEq F]

mutual

def same : Json F → Json F → Bool
  | null, null => true
  | bool b, bool c => b = c
  | int m, int n => m = n
  | float x, float y => x = y
  | str s, str t => s = t
  | arr items, arr items' => sameItems items items'
  | obj members, obj members' => sameMembers members members'
  | _, _ => false

def sameItems : List (Json F) → List (Json F) → Bool
  | [], [] => true
  | v :: items, w :: items' => same v w && sameItems items items'
  | _, _ => false

def sameMembers : List (Str × Json F) → List (Str × Json F) → Bool
  | [], [] => true
  | (k, v) :: members, (k', w) :: members' => k = k' && same v w && sameMembers members members'
  | _, _ => false

end

theorem same_iff {v w : Json F} : same v w ↔ v = w := by
  induction v generalizing w with
  | arr items ih =>
      cases w with
      | arr items' =>
          rw [same, arr.injEq]
          induction items generalizing items' with
          | nil => cases items' <;> simp [sameItems]
          | cons v items ihitems =>
              cases items' with
              | nil => simp [sameItems]
              | cons w items' =>
                  simp [sameItems, ih v (by simp), ihitems fun u hu => ih u (by simp [hu])]
      | _ => simp [same]
  | obj members ih =>
      cases w with
      | obj members' =>
          rw [same, obj.injEq]
          induction members generalizing members' with
          | nil => cases members' <;> simp [sameMembers]
          | cons m members ihmembers =>
              cases members' with
              | nil => simp [sameMembers]
              | cons m' members' =>
                  simp [sameMembers, ih m (by simp), ihmembers fun u hu => ih u (by simp [hu]),
                    Prod.ext_iff]
      | _ => simp [same]
  | _ => cases w <;> simp [same]

instance : DecidableEq (Json F) := fun _ _ => decidable_of_iff _ same_iff

end

/-! ## Sorted values -/

mutual

/-- The value with the members of every object in the order of their names. -/
def sorted : Json F → Json F
  | arr items => arr (sortedItems items)
  | obj members => obj (sortMembers (sortedMembers members))
  | null => null
  | bool b => bool b
  | int n => int n
  | float x => float x
  | str s => str s

def sortedItems : List (Json F) → List (Json F)
  | [] => []
  | v :: items => sorted v :: sortedItems items

def sortedMembers : List (Str × Json F) → List (Str × Json F)
  | [] => []
  | (k, v) :: members => (k, sorted v) :: sortedMembers members

end

mutual

/-- No object of the value repeats a name. -/
def Distinct : Json F → Prop
  | arr items => DistinctItems items
  | obj members => (members.map Prod.fst).Nodup ∧ DistinctMembers members
  | _ => True

def DistinctItems : List (Json F) → Prop
  | [] => True
  | v :: items => Distinct v ∧ DistinctItems items

def DistinctMembers : List (Str × Json F) → Prop
  | [] => True
  | (_, v) :: members => Distinct v ∧ DistinctMembers members

end

theorem sortedItems_eq (items : List (Json F)) : sortedItems items = items.map sorted := by
  induction items with
  | nil => rfl
  | cons v items ih => rw [sortedItems, ih, List.map_cons]

theorem sortedMembers_eq (members : List (Str × Json F)) :
    sortedMembers members = members.map fun m => (m.1, sorted m.2) := by
  induction members with
  | nil => rfl
  | cons m members ih =>
      obtain ⟨k, v⟩ := m
      rw [sortedMembers, ih, List.map_cons]

theorem distinctItems_iff {items : List (Json F)} :
    DistinctItems items ↔ ∀ v ∈ items, Distinct v := by
  induction items with
  | nil => simp [DistinctItems]
  | cons v items ih => simp [DistinctItems, ih]

theorem distinctMembers_iff {members : List (Str × Json F)} :
    DistinctMembers members ↔ ∀ m ∈ members, Distinct m.2 := by
  induction members with
  | nil => simp [DistinctMembers]
  | cons m members ih =>
      obtain ⟨k, v⟩ := m
      simp [DistinctMembers, ih]

theorem distinct_arr_iff {items : List (Json F)} :
    Distinct (arr items) ↔ ∀ v ∈ items, Distinct v := distinctItems_iff

theorem distinct_obj_iff {members : List (Str × Json F)} :
    Distinct (obj members) ↔ (members.map Prod.fst).Nodup ∧ ∀ m ∈ members, Distinct m.2 := by
  rw [Distinct, distinctMembers_iff]

/-- The members of the sorted form of an object. -/
def sortedObj (members : List (Str × Json F)) : List (Str × Json F) :=
  sortMembers (members.map fun m => (m.1, sorted m.2))

theorem sorted_arr (items : List (Json F)) : sorted (arr items) = arr (items.map sorted) := by
  rw [sorted, sortedItems_eq]

theorem sorted_obj (members : List (Str × Json F)) :
    sorted (obj members) = obj (sortedObj members) := by
  rw [sorted, sortedMembers_eq, sortedObj]

theorem perm_sortedObj (members : List (Str × Json F)) :
    sortedObj members ~ members.map fun m => (m.1, sorted m.2) := perm_sortMembers _

theorem perm_names_sortedObj (members : List (Str × Json F)) :
    (sortedObj members).map Prod.fst ~ members.map Prod.fst := by
  simpa [Function.comp_def] using (perm_sortedObj members).map Prod.fst

theorem sorted_sorted (v : Json F) : sorted (sorted v) = sorted v := by
  induction v with
  | arr items ih =>
      rw [sorted_arr, sorted_arr, List.map_map]
      exact congrArg arr (List.map_congr_left ih)
  | obj members ih =>
      rw [sorted_obj, sorted_obj, sortedObj, sortedObj, ← sortMembers_map fun _ => sorted,
        sortMembers_sortMembers, List.map_map]
      congr 2
      exact List.map_congr_left fun m hm => by simp [ih m hm]
  | _ => rfl

theorem sortedObj_eq_iff {members members' : List (Str × Json F)}
    (hnames : (members.map Prod.fst).Nodup) : sortedObj members = sortedObj members' ↔
      (members.map fun m => (m.1, sorted m.2)) ~ members'.map fun m => (m.1, sorted m.2) := by
  constructor
  · intro h
    exact (perm_sortedObj members).symm.trans (h ▸ perm_sortedObj members')
  · intro h
    exact sortMembers_eq_of_perm h (by simpa [Function.comp_def] using hnames)

/-! ## Dictionaries without repeated names -/

theorem set_of_notMem {key : Str} {members : List (Str × Json F)}
    (h : key ∉ members.map Prod.fst) (value : Json F) :
    set key value members = members ++ [(key, value)] := by
  induction members with
  | nil => rfl
  | cons m members ih =>
      obtain ⟨k, v⟩ := m
      rw [List.map_cons, List.mem_cons, not_or] at h
      rw [set, if_neg (Ne.symm h.1), ih h.2, List.cons_append]

theorem set_of_mem {key : Str} {members : List (Str × Json F)}
    (hnames : (members.map Prod.fst).Nodup) (h : key ∈ members.map Prod.fst) (value : Json F) :
    set key value members = members.map fun m => (m.1, if m.1 = key then value else m.2) := by
  induction members with
  | nil => simp at h
  | cons m members ih =>
      obtain ⟨k, v⟩ := m
      rw [List.map_cons, List.nodup_cons] at hnames
      by_cases hk : k = key
      · subst hk
        rw [set, if_pos rfl, List.map_cons, if_pos rfl]
        congr 1
        refine (List.map_id members).symm.trans (List.map_congr_left fun m hm => ?_)
        have hne : m.1 ≠ k := fun heq => hnames.1 (List.mem_map.mpr ⟨m, hm, heq⟩)
        simp [hne]
      · have htail : key ∈ members.map Prod.fst := by
          rcases List.mem_cons.mp h with heq | h
          · exact absurd heq.symm hk
          · exact h
        rw [set, if_neg hk, ih hnames.2 htail, List.map_cons, if_neg hk]

theorem dictOf_of_nodup {pairs : List (Str × Json F)} (hnames : (pairs.map Prod.fst).Nodup) :
    dictOf pairs = pairs := by
  have hfold : ∀ ds : List (Str × Json F), ((ds ++ pairs).map Prod.fst).Nodup →
      pairs.foldl (fun d p => set p.1 p.2 d) ds = ds ++ pairs := by
    clear hnames
    induction pairs with
    | nil => simp
    | cons p pairs ih =>
        intro ds hds
        have hnotMem : p.1 ∉ ds.map Prod.fst := by
          rw [List.map_append, List.nodup_append] at hds
          intro hmem
          exact hds.2.2 _ hmem _ (by simp) rfl
        rw [List.foldl_cons, set_of_notMem hnotMem, ih _ (by simpa using hds)]
        simp
  simpa [dictOf] using hfold [] hnames

theorem nodup_set {members : List (Str × Json F)} (h : (members.map Prod.fst).Nodup) (key : Str)
    (value : Json F) : ((set key value members).map Prod.fst).Nodup := by
  by_cases hmem : key ∈ members.map Prod.fst
  · rw [set_of_mem h hmem, List.map_map]
    exact h
  · rw [set_of_notMem hmem, List.map_append, List.map_singleton]
    exact List.nodup_append.mpr ⟨h, List.nodup_singleton key, fun k hk k' hk' => by
      rw [List.mem_singleton.mp hk']
      rintro rfl
      exact hmem hk⟩

theorem nodup_dictOf (pairs : List (Str × Json F)) : ((dictOf pairs).map Prod.fst).Nodup := by
  have hfold : ∀ d : List (Str × Json F), (d.map Prod.fst).Nodup →
      ((pairs.foldl (fun d p => set p.1 p.2 d) d).map Prod.fst).Nodup := by
    induction pairs with
    | nil => exact fun _ h => h
    | cons p pairs ih => exact fun d h => ih _ (nodup_set h p.1 p.2)
  exact hfold [] List.nodup_nil

/-! ## What does not depend on the order -/

theorem mem_of_get? {key : Str} {value : Json F} {members : List (Str × Json F)}
    (h : get? key members = some value) : (key, value) ∈ members := by
  induction members with
  | nil => cases h
  | cons m members ih =>
      obtain ⟨k, v⟩ := m
      unfold get? at h
      split at h
      · rename_i hk
        cases h
        simp [hk]
      · exact List.mem_cons_of_mem _ (ih h)

theorem get?_eq_some_iff {key : Str} {value : Json F} {members : List (Str × Json F)}
    (hnames : (members.map Prod.fst).Nodup) :
    get? key members = some value ↔ (key, value) ∈ members := by
  refine ⟨mem_of_get?, fun h => ?_⟩
  cases hget : get? key members with
  | none => exact absurd rfl (get?_eq_none_iff.mp hget _ h)
  | some v =>
      have hpair : (key, v) = (key, value) :=
        List.inj_on_of_nodup_map hnames (mem_of_get? hget) h rfl
      rw [(Prod.mk.inj hpair).2]

theorem get?_perm {members members' : List (Str × Json F)} (h : members ~ members')
    (hnames : (members.map Prod.fst).Nodup) (key : Str) :
    get? key members = get? key members' := by
  ext v
  rw [get?_eq_some_iff hnames, get?_eq_some_iff ((h.map Prod.fst).nodup_iff.mp hnames), h.mem_iff]

theorem get?_map (f : Str → Json F → Json F) (key : Str) (members : List (Str × Json F)) :
    get? key (members.map fun m => (m.1, f m.1 m.2)) = (get? key members).map (f key) := by
  induction members with
  | nil => rfl
  | cons m members ih =>
      obtain ⟨k, v⟩ := m
      by_cases hk : k = key
      · subst hk
        simp [get?]
      · simp [get?, hk, ih]

theorem get?_sortedObj {members : List (Str × Json F)} (hnames : (members.map Prod.fst).Nodup)
    (key : Str) : get? key (sortedObj members) = (get? key members).map sorted := by
  rw [← get?_perm (perm_sortedObj members).symm (by simpa [Function.comp_def] using hnames),
    get?_map fun _ => sorted]

theorem has_sortedObj {members : List (Str × Json F)} (hnames : (members.map Prod.fst).Nodup)
    (key : Str) : has key (sortedObj members) = has key members := by
  rw [has, get?_sortedObj hnames, Option.isSome_map, has]

theorem all_names_sortedObj (p : Str → Bool) (members : List (Str × Json F)) :
    (sortedObj members).all (fun m => p m.1) = members.all fun m => p m.1 := by
  rw [(perm_sortedObj members).all_eq, List.all_map]
  rfl

theorem truthy_sorted [JsonFloat F] (v : Json F) : truthy (sorted v) = truthy v := by
  cases v with
  | arr items => simp [sorted_arr, truthy]
  | obj members =>
      rw [sorted_obj, truthy, truthy, (perm_sortedObj members).isEmpty_eq, List.isEmpty_map]
  | _ => rfl

theorem sortedObj_filter {members : List (Str × Json F)} (hnames : (members.map Prod.fst).Nodup)
    (p : Str → Bool) :
    sortedObj (members.filter fun m => p m.1) = (sortedObj members).filter fun m => p m.1 := by
  have hsorted : ((sortedObj members).filter fun m => p m.1).Pairwise
      fun m m' => strLe m.1 m'.1 := (pairwise_sortMembers _).filter _
  have hperm : ((members.filter fun m => p m.1).map fun m => (m.1, sorted m.2)) ~
      (sortedObj members).filter fun m => p m.1 := by
    refine List.Perm.trans ?_ ((perm_sortedObj members).filter _).symm
    rw [List.filter_map]
    rfl
  rw [← hsorted.insertionSort_eq]
  apply sortMembers_eq_of_perm hperm
  rw [List.map_map]
  exact hnames.sublist (List.filter_sublist.map _)

/-- Rewriting the values of an object, in a way that does not depend on the
order of their members, and sorting. -/
theorem sortedObj_map {members : List (Str × Json F)} (f : Str → Json F → Json F)
    (hf : ∀ m ∈ members, sorted (f m.1 (sorted m.2)) = sorted (f m.1 m.2)) :
    sortedObj ((sortedObj members).map fun m => (m.1, f m.1 m.2)) =
      sortedObj (members.map fun m => (m.1, f m.1 m.2)) := by
  have hmap : ∀ ms : List (Str × Json F), sortedObj (ms.map fun m => (m.1, f m.1 m.2)) =
      sortMembers (ms.map fun m => (m.1, sorted (f m.1 m.2))) := fun ms => by
    rw [sortedObj, List.map_map]
    rfl
  rw [hmap, hmap, sortedObj, sortMembers_map fun k v => sorted (f k v), sortMembers_sortMembers,
    ← sortMembers_map fun k v => sorted (f k v), List.map_map]
  congr 1
  exact List.map_congr_left fun m hm => by simp [hf m hm]

section Writing

variable [JsonFloat F] {o : DumpOptions}

theorem dumpsMembers_eq (members : List (Str × Json F)) :
    dumpsMembers o members = members.map fun m => (m.1, dumps o m.2) := by
  induction members with
  | nil => rfl
  | cons m members ih =>
      obtain ⟨k, v⟩ := m
      rw [dumpsMembers, ih, List.map_cons]

theorem dumpsItems_eq (items : List (Json F)) : dumpsItems o items = items.map (dumps o) := by
  induction items with
  | nil => rfl
  | cons v items ih => rw [dumpsItems, ih, List.map_cons]

/-- A writer that sorts the members writes the same for every order. -/
theorem dumps_sorted (ho : o.sortKeys = true) (v : Json F) : dumps o (sorted v) = dumps o v := by
  induction v with
  | arr items ih =>
      have hitems : items.map (dumps o ∘ sorted) = items.map (dumps o) := List.map_congr_left ih
      rw [sorted_arr, dumps, dumps, dumpsItems_eq, dumpsItems_eq, List.map_map, hitems]
  | obj members ih =>
      have harrange : ∀ ms : List (Str × Str), arrangeMembers o.sortKeys ms = sortMembers ms :=
        fun ms => by rw [arrangeMembers, ho, if_pos rfl, sortMembers]
      have hmembers : (members.map fun m => (m.1, sorted m.2)).map (fun m => (m.1, dumps o m.2)) =
          members.map fun m => (m.1, dumps o m.2) := by
        rw [List.map_map]
        exact List.map_congr_left fun m hm => by simp [ih m hm]
      rw [sorted_obj, dumps, dumps, harrange, harrange, dumpsMembers_eq, dumpsMembers_eq, sortedObj,
        sortMembers_map fun _ => dumps o, sortMembers_sortMembers,
        ← sortMembers_map fun _ => dumps o, hmembers]
  | _ => rfl

end Writing

/-! ## Values that were read -/

/-- A value that is neither a string nor an array nor an object. -/
def IsLeaf : Json F → Prop
  | str _ | arr _ | obj _ => False
  | _ => True

theorem skipWs_suffix (s : Str) : skipWs s <:+ s := List.dropWhile_suffix _

theorem scanMinus_suffix (s : Str) : (scanMinus s).2 <:+ s := by
  unfold scanMinus
  split
  · exact List.suffix_cons _ _
  · exact List.suffix_rfl

theorem scanInteger_suffix {s digits r : Str} (h : scanInteger s = some (digits, r)) :
    r <:+ s := by
  unfold scanInteger at h
  split at h
  · cases h
    exact List.suffix_cons _ _
  · split at h
    · cases h
    · cases h
      exact List.dropWhile_suffix _

theorem scanFraction_suffix (s : Str) : (scanFraction s).2 <:+ s := by
  unfold scanFraction
  split
  · split
    · exact List.suffix_rfl
    · exact (List.dropWhile_suffix _).trans (List.suffix_cons _ _)
  · exact List.suffix_rfl

theorem scanSign_suffix (s : Str) : (scanSign s).2 <:+ s := by
  unfold scanSign
  split
  · exact List.suffix_cons _ _
  · exact List.suffix_cons _ _
  · exact List.suffix_rfl

theorem scanExponent_suffix (s : Str) : (scanExponent s).2 <:+ s := by
  unfold scanExponent
  split
  · split
    · dsimp only
      split
      · exact List.suffix_rfl
      · exact ((List.dropWhile_suffix _).trans (scanSign_suffix _)).trans (List.suffix_cons _ _)
    · exact List.suffix_rfl
  · exact List.suffix_rfl

section Reading

variable [JsonFloat F] {hook : List (Str × Json F) → Except ε (Json F)}

theorem scanNumber_spec {s r : Str} {v : Json F} (h : scanNumber s = some (v, r)) :
    IsLeaf v ∧ r <:+ s := by
  unfold scanNumber at h
  simp only [bind, Option.bind_eq_some_iff] at h
  obtain ⟨⟨digits, s'⟩, hdigits, h⟩ := h
  have hsuffix : (scanExponent (scanFraction s').2).2 <:+ s :=
    (((scanExponent_suffix _).trans (scanFraction_suffix _)).trans
      (scanInteger_suffix hdigits)).trans (scanMinus_suffix s)
  split at h
  · cases h
    exact ⟨trivial, hsuffix⟩
  · cases h
    exact ⟨trivial, hsuffix⟩

theorem scanWord_spec {s r : Str} {v : Json F} (h : scanWord s = some (v, r)) :
    IsLeaf v ∧ r <:+ s := by
  unfold scanWord at h
  simp only [Option.orElse_eq_orElse, Option.orElse_eq_or, Option.or_eq_some_iff,
    Option.ite_none_right_eq_some, Option.some.injEq, Prod.mk.injEq] at h
  rcases h with ⟨-, rfl, rfl⟩ | ⟨-, ⟨-, rfl, rfl⟩ | ⟨-, ⟨-, rfl, rfl⟩ | ⟨-, ⟨-, rfl, rfl⟩ |
    ⟨-, ⟨-, rfl, rfl⟩ | ⟨-, -, rfl, rfl⟩⟩⟩⟩⟩
  all_goals exact ⟨trivial, List.drop_suffix _ _⟩

/-- What is returned, if anything is, satisfies `P`. -/
def Returns (P : α → Prop) (x : Except ε α) : Prop := ∀ a, x = .ok a → P a

omit [JsonFloat F] in
theorem returns_ok {P : α → Prop} {a : α} (h : P a) : Returns P (.ok a : Except ε α) := by
  rintro b ⟨⟩
  exact h

omit [JsonFloat F] in
theorem returns_error {P : α → Prop} {e : ε} : Returns P (.error e : Except ε α) := by
  rintro b ⟨⟩

omit [JsonFloat F] in
theorem Returns.bind {P : α → Prop} {Q : β → Prop} {x : Except ε α} {f : α → Except ε β}
    (hx : Returns P x) (hf : ∀ a, P a → Returns Q (f a)) : Returns Q (x >>= f) := by
  cases x with
  | error e => exact returns_error
  | ok a => exact hf a (hx a rfl)

omit [JsonFloat F] in
theorem Returns.map {P : α → Prop} {Q : β → Prop} {x : Except ε α} {f : α → β}
    (hx : Returns P x) (hf : ∀ a, P a → Q (f a)) : Returns Q (x.map f) := by
  cases x with
  | error e => exact returns_error
  | ok a => exact returns_ok (hf a (hx a rfl))

omit [JsonFloat F] in
theorem scanString_suffix (pending : Option ℕ) (s : Str) :
    Returns (fun x => x.2 <:+ s) (scanString pending s : Except (LoadError ε) (Str × Str)) := by
  fun_induction scanString pending s with
  | case1 => exact returns_error
  | case2 => exact returns_ok (List.suffix_cons _ _)
  | case3 => exact returns_error
  | case4 pending a b c d s u hu ih =>
      exact ih.map fun x hx => hx.trans (List.suffix_append [_, _, _, _, _, _] s)
  | case5 => exact returns_error
  | case6 pending p s hnot q hq ih =>
      exact ih.map fun x hx => hx.trans (List.suffix_append [_, _] s)
  | case7 => exact returns_error
  | case8 pending p s _ _ _ _ ih => exact ih.map fun x hx => hx.trans (List.suffix_cons _ _)

/-- On text of which `T` holds the reader hands names of which `N` holds and
values of which `P` holds to the hook, and values of which `P` holds to its caller. -/
structure ReadInvariant (hook : List (Str × Json F) → Except ε (Json F)) (T : Str → Prop)
    (N : Str → Prop) (P : Json F → Prop) : Prop where
  suffix : ∀ {s t}, t <:+ s → T s → T t
  leaf : ∀ {v}, IsLeaf v → P v
  string : ∀ {s}, T s →
    Returns (fun x => N x.1 ∧ P (str x.1)) (scanString none s : Except (LoadError ε) _)
  array : ∀ {items}, (∀ v ∈ items, P v) → P (arr items)
  hook : ∀ {pairs}, (∀ m ∈ pairs, N m.1 ∧ P m.2) → Returns P (hook pairs)

section

variable {T : Str → Prop} {N : Str → Prop} {P : Json F → Prop}

omit [JsonFloat F] in
theorem ReadInvariant.applyHook (h : ReadInvariant hook T N P) {pairs : List (Str × Json F)}
    (hpairs : ∀ m ∈ pairs, N m.1 ∧ P m.2) {s : Str} (hs : T s) :
    Returns (fun x => P x.1 ∧ T x.2) (applyHook hook pairs s) := by
  unfold Json.applyHook
  split
  · rename_i v hv
    exact returns_ok ⟨h.hook hpairs v hv, hs⟩
  · exact returns_error

omit [JsonFloat F] in
theorem ReadInvariant.scanString (h : ReadInvariant hook T N P) {s : Str} (hs : T s) :
    Returns (fun x => (N x.1 ∧ P (str x.1)) ∧ T x.2)
      (scanString none s : Except (LoadError ε) _) :=
  fun x hx => ⟨h.string hs x hx, h.suffix (scanString_suffix none s x hx) hs⟩

omit [JsonFloat F] in
theorem ReadInvariant.skipped (h : ReadInvariant hook T N P) {s t : Str} (hs : T s) {p : CodePoint}
    (heq : skipWs s = p :: t) : T t :=
  h.suffix ((List.suffix_cons p t).trans (heq ▸ skipWs_suffix s)) hs

theorem ReadInvariant.scan (h : ReadInvariant hook T N P) (n : ℕ) :
    (∀ s, T s → Returns (fun x => P x.1 ∧ T x.2) (scanOnce hook n s)) ∧
      (∀ s, T s → Returns (fun x => (∀ m ∈ x.1, N m.1 ∧ P m.2) ∧ T x.2) (scanMembers hook n s)) ∧
      ∀ s, T s → Returns (fun x => (∀ v ∈ x.1, P v) ∧ T x.2) (scanItems hook n s) := by
  induction n with
  | zero =>
      exact ⟨fun _ _ => returns_error, fun _ _ => returns_error, fun _ _ => returns_error⟩
  | succ n ih =>
      obtain ⟨honce, hmembers, hitems⟩ := ih
      refine ⟨fun s hs => ?_, fun s hs => ?_, fun s hs => ?_⟩
      · unfold scanOnce
        split
        · refine (h.scanString (h.suffix (List.suffix_cons _ _) hs)).bind fun x hx => ?_
          exact returns_ok ⟨hx.1.2, hx.2⟩
        · have htail := h.suffix (List.suffix_cons _ _) hs
          split
          · rename_i heq
            exact h.applyHook (by simp) (h.skipped htail heq)
          · rename_i heq
            exact (hmembers _ (h.skipped htail heq)).bind fun x hx => h.applyHook hx.1 hx.2
          · exact returns_error
        · have htail := h.suffix (List.suffix_cons _ _) hs
          split
          · rename_i heq
            exact returns_ok ⟨h.array (by simp), h.skipped htail heq⟩
          · refine (hitems _ (h.suffix (skipWs_suffix _) htail)).bind fun x hx => ?_
            exact returns_ok ⟨h.array hx.1, hx.2⟩
        · split
          · rename_i hv
            rw [Option.orElse_eq_orElse, Option.orElse_eq_or, Option.or_eq_some_iff] at hv
            rcases hv with hv | ⟨-, hv⟩
            · obtain ⟨hleaf, hsuffix⟩ := scanNumber_spec hv
              exact returns_ok ⟨h.leaf hleaf, h.suffix hsuffix hs⟩
            · obtain ⟨hleaf, hsuffix⟩ := scanWord_spec hv
              exact returns_ok ⟨h.leaf hleaf, h.suffix hsuffix hs⟩
          · exact returns_error
      · unfold scanMembers
        refine (h.scanString hs).bind fun key hkey => ?_
        dsimp only
        split
        · rename_i heq
          have hvalue := h.suffix (skipWs_suffix _) (h.skipped hkey.2 heq)
          refine (honce _ hvalue).bind fun value hvalue => ?_
          split
          · rename_i heq
            exact returns_ok ⟨by simpa using ⟨hkey.1.1, hvalue.1⟩, h.skipped hvalue.2 heq⟩
          · rename_i heq
            have htail := h.skipped hvalue.2 heq
            split
            · rename_i heq
              refine (hmembers _ (h.skipped htail heq)).bind fun pairs hpairs => ?_
              refine returns_ok ⟨?_, hpairs.2⟩
              exact List.forall_mem_cons.mpr ⟨⟨hkey.1.1, hvalue.1⟩, hpairs.1⟩
            · exact returns_error
          · exact returns_error
        · exact returns_error
      · unfold scanItems
        refine (honce _ hs).bind fun value hvalue => ?_
        dsimp only
        split
        · rename_i heq
          exact returns_ok ⟨by simpa using hvalue.1, h.skipped hvalue.2 heq⟩
        · rename_i heq
          have htail := h.suffix (skipWs_suffix _) (h.skipped hvalue.2 heq)
          refine (hitems _ htail).bind fun vs hvs => ?_
          exact returns_ok ⟨List.forall_mem_cons.mpr ⟨hvalue.1, hvs.1⟩, hvs.2⟩
        · exact returns_error

theorem ReadInvariant.loads (h : ReadInvariant hook T N P) {text : Str} (htext : T text) :
    Returns P (loads hook text) := by
  unfold Json.loads
  split
  · exact returns_error
  · refine ((h.scan _).1 _ (h.suffix (skipWs_suffix _) htext)).bind fun x hx => ?_
    dsimp only
    split
    · exact returns_ok hx.1
    · exact returns_error

end

/-- Given values with distinct names, the hook returns such a value. -/
def KeepsDistinct (hook : List (Str × Json F) → Except ε (Json F)) : Prop :=
  ∀ pairs, (∀ m ∈ pairs, Distinct m.2) → Returns Distinct (hook pairs)

omit [JsonFloat F] in
theorem KeepsDistinct.readInvariant (hhook : KeepsDistinct hook) :
    ReadInvariant hook (fun _ => True) (fun _ => True) Distinct where
  suffix _ _ := trivial
  leaf {v} hv := by cases v <;> trivial
  string _ _ _ := ⟨trivial, trivial⟩
  array := distinct_arr_iff.mpr
  hook hpairs := hhook _ fun m hm => (hpairs m hm).2

theorem KeepsDistinct.loads (hhook : KeepsDistinct hook) (text : Str) :
    Returns Distinct (loads hook text) := hhook.readInvariant.loads trivial

end Reading

end Json

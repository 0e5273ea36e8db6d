import CacheControl.Run
import CacheControl.Keys

/-!
# The order and the ids of fragments

What sorting by rank keeps, and which ids are found to be repeated.
-/

open PyText

namespace CacheControl

/-- Sorting keeps elements in their order when they are in either order. -/
theorem filter_insertionSort {α : Type*} {r : α → α → Prop} [DecidableRel r] {p : α → Bool}
    (h : ∀ a b, p a → p b → r a b) (l : List α) :
    (l.insertionSort r).filter p = l.filter p := by
  have hsub : (l.filter p).Sublist (l.insertionSort r) := by
    refine List.sublist_insertionSort (List.pairwise_of_forall_mem_list fun a ha b hb => ?_)
      List.filter_sublist
    exact h a b (List.of_mem_filter ha) (List.of_mem_filter hb)
  have hfilter := hsub.filter p
  simp only [List.filter_filter, Bool.and_self] at hfilter
  exact (hfilter.eq_of_length ((List.perm_insertionSort r l).filter p).length_eq.symm).symm

variable [Runtime] {f : Fragment} {fragments ordered : List Fragment} {c : Call} {e : PyError}

/-! ## Ranks -/

/-- How widely the intent of the fragment lets it be shared. -/
def Fragment.shareMax? (f : Fragment) : Option Share :=
  f.intentJson.bind fun text =>
    (parseCacheIntent text).toOption.map fun intent => intent.constraints.shareMax

/-- The place on the ladder, where bare fragments come last. -/
def rankOf : Option Share → ℕ
  | some share => share.rank
  | none => 5

omit [Runtime] in
/-- The ladder that is sorted by is the ladder that is composed by, upside down. -/
theorem rank_le_iff (s t : Share) : s.rank ≤ t.rank ↔ t ≤ s := by
  cases s <;> cases t <;> decide

/-- Every intent of the list can be read. -/
def Readable (fragments : List Fragment) : Prop :=
  ∀ f ∈ fragments, ∀ text, f.intentJson = some text → ∃ intent, parseCacheIntent text = .ok intent

theorem shareRank_eq
    (h : ∀ text, f.intentJson = some text → ∃ intent, parseCacheIntent text = .ok intent) :
    shareRank f = .ok (rankOf f.shareMax?) := by
  unfold shareRank Fragment.shareMax?
  cases htext : f.intentJson with
  | none => rfl
  | some text =>
      obtain ⟨intent, hparse⟩ := h text htext
      simp only [hparse, Option.bind_some]
      rfl

theorem rankAll_eq (h : Readable fragments) :
    rankAll fragments = .ok (fragments.map fun f => (rankOf f.shareMax?, f)) := by
  induction fragments with
  | nil => rfl
  | cons f fragments ih =>
      obtain ⟨hf, hrest⟩ := List.forall_mem_cons.mp h
      rw [rankAll, shareRank_eq hf, ih hrest]
      rfl

/-- The order by which fragments are sorted. -/
def Before (f f' : Fragment) : Prop := rankOf f.shareMax? ≤ rankOf f'.shareMax?

instance : DecidableRel Before := fun f f' =>
  inferInstanceAs (Decidable (rankOf f.shareMax? ≤ rankOf f'.shareMax?))

instance : Std.Total Before := ⟨fun _ _ => Nat.le_total _ _⟩

instance : IsTrans Fragment Before := ⟨fun _ _ _ => Nat.le_trans⟩

theorem planOrder_eq (h : Readable fragments) :
    planOrder fragments true = .ok (fragments.insertionSort Before) := by
  have hsort := List.map_insertionSort (fun a b : ℕ × Fragment => a.1 ≤ b.1) Before Prod.snd
    (fragments.map fun f => (rankOf f.shareMax?, f)) (by
      intro a ha b hb
      obtain ⟨f, -, rfl⟩ := List.mem_map.mp ha
      obtain ⟨f', -, rfl⟩ := List.mem_map.mp hb
      rfl)
  rw [List.map_map] at hsort
  rw [planOrder, rankAll_eq h]
  exact congrArg Except.ok (hsort.trans (by simp [Function.comp_def]))

/-- Fragments of one share, and bare ones, stay in their order. -/
theorem filter_planned (share : Option Share) :
    (fragments.insertionSort Before).filter (fun f => f.shareMax? = share) =
      fragments.filter fun f => f.shareMax? = share := by
  refine filter_insertionSort (fun f f' hf hf' => ?_) fragments
  rw [Before, of_decide_eq_true hf, of_decide_eq_true hf']

theorem perm_of_planOrder {equivalenceDeclared : Bool}
    (h : planOrder fragments equivalenceDeclared = .ok ordered) : ordered.Perm fragments := by
  have hrank : ∀ {fs : List Fragment} {ranked}, rankAll fs = .ok ranked →
      ranked.map Prod.snd = fs := by
    intro fs
    induction fs with
    | nil =>
        intro ranked hranked
        cases hranked
        rfl
    | cons f fs ih =>
        intro ranked hranked
        obtain ⟨rank, -, hbind⟩ := bind_eq_ok_iff.mp hranked
        obtain ⟨rest, hrest, hpure⟩ := bind_eq_ok_iff.mp hbind
        cases hpure
        rw [List.map_cons, ih hrest]
  cases equivalenceDeclared with
  | false =>
      cases h
      exact .refl _
  | true =>
      obtain ⟨ranked, hranked, hpure⟩ := bind_eq_ok_iff.mp h
      cases hpure
      have hperm := (List.perm_insertionSort (fun a b : ℕ × Fragment => a.1 ≤ b.1) ranked).map
        Prod.snd
      rwa [hrank hranked] at hperm

theorem exists_planOrder (h : Readable fragments) (equivalenceDeclared : Bool) :
    ∃ ordered, planOrder fragments equivalenceDeclared = .ok ordered ∧
      ordered.Perm fragments := by
  cases equivalenceDeclared with
  | false => exact ⟨fragments, rfl, List.Perm.refl fragments⟩
  | true => exact ⟨_, planOrder_eq h, List.perm_insertionSort Before fragments⟩

/-! ## Repeated ids -/

/-- The id is in the list, and a later one is equal to it. -/
def RepeatedIn (ids : List Value) (v : Value) : Prop := ∃ w, [v, w].Sublist ids ∧ pyEq v w

theorem mem_repeated_iff {ids : List Value} {v : Value} : v ∈ repeated ids ↔ RepeatedIn ids v := by
  induction ids with
  | nil => exact ⟨nofun, fun ⟨w, hsub, _⟩ => nomatch hsub⟩
  | cons u ids ih =>
      have hcons : RepeatedIn (u :: ids) v ↔ (v = u ∧ ids.any (pyEq u)) ∨ RepeatedIn ids v := by
        rw [List.any_eq_true]
        constructor
        · rintro ⟨w, hsub, heq⟩
          cases hsub with
          | cons _ hsub => exact .inr ⟨w, hsub, heq⟩
          | cons_cons _ hsub => exact .inl ⟨rfl, w, List.singleton_sublist.mp hsub, heq⟩
        · rintro (⟨rfl, w, hw, heq⟩ | ⟨w, hsub, heq⟩)
          · exact ⟨w, (List.singleton_sublist.mpr hw).cons_cons v, heq⟩
          · exact ⟨w, hsub.cons u, heq⟩
      rw [hcons, ← ih, repeated]
      split <;> rename_i hany <;> simp [hany]

theorem repeatedIn_of_not_nodup {ids : List Str} (h : ¬ids.Nodup) :
    ∃ id, RepeatedIn (ids.map Json.str : List Value) (.str id) := by
  rw [List.nodup_iff_sublist, not_forall] at h
  obtain ⟨id, hsub⟩ := h
  exact ⟨id, .str id, (not_not.mp hsub).map Json.str, by simp [pyEq]⟩

/-- Two of the ids are equal, and the ids can be put into a set and the repeated ones
sorted. -/
structure RepeatsId (ids : List Value) : Prop where
  hashable : ∀ v ∈ ids, hashable v
  repeats : ∃ v, RepeatedIn ids v
  sortable : (∀ v, RepeatedIn ids v → isStr v) ∨ ∀ v, RepeatedIn ids v → ¬isStr v

theorem checkIds_eq_duplicate_iff : checkIds fragments = .error .duplicateFragmentId ↔
    RepeatsId ((fragments.map Fragment.id).filter fun v => ¬isNull v) := by
  unfold checkIds
  generalize ((fragments.map Fragment.id).filter fun v => ¬isNull v) = ids
  dsimp only
  split
  · rename_i hany
    obtain ⟨v, hv, hhash⟩ := List.any_eq_true.mp hany
    exact ⟨nofun, fun h => absurd (h.hashable v hv) (by simpa using hhash)⟩
  rename_i hall
  split
  · rename_i hempty
    refine ⟨nofun, fun h => ?_⟩
    obtain ⟨v, hv⟩ := h.repeats
    rw [← mem_repeated_iff, List.isEmpty_iff.mp hempty] at hv
    cases hv
  rename_i hne
  have hsome : ∃ v, RepeatedIn ids v := by
    obtain ⟨v, hv⟩ := List.exists_mem_of_ne_nil _ (mt List.isEmpty_iff.mpr hne)
    exact ⟨v, mem_repeated_iff.mp hv⟩
  have hhashable : ∀ v ∈ ids, CacheControl.hashable v := by
    simpa [List.any_eq_true] using hall
  split
  · rename_i hmixed
    obtain ⟨⟨v, hv, hstr⟩, w, hw, hother⟩ := hmixed.imp List.any_eq_true.mp List.any_eq_true.mp
    rw [mem_repeated_iff] at hv hw
    refine ⟨nofun, fun h => ?_⟩
    rcases h.sortable with hall | hall
    · simp [hall w hw] at hother
    · exact absurd hstr (hall v hv)
  · rename_i hsorted
    refine ⟨fun _ => ⟨hhashable, hsome, ?_⟩, fun _ => rfl⟩
    by_contra hboth
    simp only [not_or, not_forall, not_not, exists_prop, ← mem_repeated_iff] at hboth
    obtain ⟨⟨w, hw, hother⟩, v, hv, hstr⟩ := hboth
    exact hsorted ⟨List.any_eq_true.mpr ⟨v, hv, hstr⟩,
      List.any_eq_true.mpr ⟨w, hw, by simpa using hother⟩⟩

theorem checkIds_error (h : checkIds fragments = .error e) :
    e = .duplicateFragmentId ∨ e = .typeError := by
  unfold checkIds at h
  dsimp only at h
  repeat' split at h
  all_goals cases h
  all_goals first | exact .inl rfl | exact .inr rfl

theorem repeated_eq_nil {ids : List Str} (h : ids.Nodup) :
    repeated (ids.map Json.str : List Value) = [] := by
  induction ids with
  | nil => rfl
  | cons id ids ih =>
      obtain ⟨hnot, hrest⟩ := List.nodup_cons.mp h
      have hany : (ids.map Json.str : List Value).any (pyEq (.str id)) = false := by
        rw [List.any_eq_false]
        intro v hv
        obtain ⟨other, hother, rfl⟩ := List.mem_map.mp hv
        have hne : id ≠ other := fun heq => hnot (heq ▸ hother)
        simpa [pyEq] using hne
      rw [List.map_cons, repeated, hany]
      exact ih hrest

/-- Repeated strings can be hashed and sorted. -/
theorem repeatsId_strs {ids : List Str} (h : ¬ids.Nodup) :
    RepeatsId (ids.map Json.str : List Value) := by
  refine ⟨fun v hv => ?_, ?_, .inl fun v hv => ?_⟩
  · obtain ⟨id, -, rfl⟩ := List.mem_map.mp hv
    simp [hashable]
  · obtain ⟨id, hid⟩ := repeatedIn_of_not_nodup h
    exact ⟨_, hid⟩
  · obtain ⟨w, hsub, -⟩ := hv
    obtain ⟨id, -, rfl⟩ := List.mem_map.mp (hsub.subset List.mem_cons_self)
    rfl

/-- Ids that are strings are checked for being distinct. -/
theorem checkIds_strs {ids : List Str}
    (h : ((fragments.map Fragment.id).filter fun v => ¬isNull v) = ids.map Json.str) :
    checkIds fragments = if ids.Nodup then .ok () else .error .duplicateFragmentId := by
  by_cases hnodup : ids.Nodup
  · have hhashable : (ids.map Json.str).any (fun v : Value => ¬hashable v) = false := by
      rw [List.any_eq_false]
      intro v hv
      obtain ⟨id, -, rfl⟩ := List.mem_map.mp hv
      simp [hashable]
    unfold checkIds
    rw [h, if_pos hnodup]
    simp only [hhashable, repeated_eq_nil hnodup]
    rfl
  · rw [if_neg hnodup]
    exact checkIds_eq_duplicate_iff.mpr (h ▸ repeatsId_strs hnodup)

def Fragment.suppliedId (f : Fragment) : Option Str :=
  match f.id with
  | .str id => some id
  | _ => none

theorem supplied_eq (h : ∀ f ∈ fragments, f.id = .null ∨ ∃ id, f.id = .str id) :
    ((fragments.map Fragment.id).filter fun v => ¬isNull v) =
      (fragments.filterMap Fragment.suppliedId).map Json.str := by
  induction fragments with
  | nil => rfl
  | cons f fragments ih =>
      obtain ⟨hf, hrest⟩ := List.forall_mem_cons.mp h
      rw [List.map_cons]
      rcases hf with hnull | ⟨id, hid⟩
      · have hsupplied : f.suppliedId = none := by simp [Fragment.suppliedId, hnull]
        rw [List.filterMap_cons_none hsupplied, ← ih hrest, hnull]
        rfl
      · have hsupplied : f.suppliedId = some id := by simp [Fragment.suppliedId, hid]
        rw [List.filterMap_cons_some hsupplied, List.map_cons, ← ih hrest, hid]
        rfl

/-! ## The order of a call -/

/-- Fragments with distinct ids and readable intents are put in order. -/
theorem Call.exists_ordered (h : Readable c.fragments)
    (hids : ∀ f ∈ c.fragments, f.id = .null ∨ ∃ id, f.id = .str id)
    (hdistinct : (c.fragments.filterMap Fragment.suppliedId).Nodup) :
    ∃ ordered, planOrder c.fragments c.equivalenceDeclared = .ok ordered ∧
      c.ordered = .ok ordered ∧ ordered.Perm c.fragments := by
  obtain ⟨ordered, hplan, hperm⟩ := exists_planOrder h c.equivalenceDeclared
  have hchecked : checkIds ordered = .ok () := by
    rw [checkIds_strs (supplied_eq fun f hf => hids f (hperm.subset hf)),
      if_pos ((hperm.filterMap Fragment.suppliedId).nodup_iff.mpr hdistinct)]
  refine ⟨ordered, hplan, ?_, hperm⟩
  rw [Call.ordered, hplan]
  show (checkIds ordered >>= fun _ => pure ordered) = .ok ordered
  rw [hchecked]
  rfl

end CacheControl

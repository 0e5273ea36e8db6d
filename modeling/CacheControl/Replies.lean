import CacheControl.Reporting
import CacheControl.Strictness

/-!
# The engine's reply

`attach_status` makes a dictionary of the JSON value that the engine returned, whatever
it is, and puts the statuses under their name.
-/

open PyText

namespace CacheControl

section

variable [Runtime]

/-! ## Dictionaries -/

/-- A `dict` with its keys, in order. -/
abbrev Dict := List (Value × Value)

/-- `d[key] = value`: an equal key stays, in its place. -/
def Dict.set (key value : Value) : Dict → Dict
  | [] => [(key, value)]
  | (k, v) :: d => if pyEq k key then (k, value) :: d else (k, v) :: Dict.set key value d

/-- What a loop over the value runs through. -/
def iterated : Value → Option (List Value)
  | .arr items => some items
  | .str s => some (s.map fun p => .str [p])
  | .obj members => some (members.map fun m => .str m.1)
  | _ => none

/-- Whatever has two items is a pair, if the first of them can be a key. -/
def pairOf (v : Value) : Option (Value × Value) :=
  match iterated v with
  | some [key, value] => if hashable key then some (key, value) else none
  | _ => none

/-- `dict(response)`, and `none` where that raises. -/
def dictOf : Value → Option Dict
  | .obj members => some (members.map fun m => (.str m.1, m.2))
  | v => ((iterated v).bind fun items => items.mapM pairOf).map fun pairs =>
      pairs.foldl (fun d pair => Dict.set pair.1 pair.2 d) []

/-- How a key is written: as a string, or as the text of another value. -/
def keyText : Value → Str
  | .str s => s
  | v => Json.dumps .default v

/-- The members that `json.dumps` writes. -/
def Dict.members (d : Dict) : List (Str × Value) := d.map fun e => (keyText e.1, e.2)

/-- `attach_status`, and `none` where it raises. -/
def attach (response : Value) (result : Result) : Option Dict :=
  (dictOf response).map (Dict.set (.str (lit "cache_status"))
    ((Json.get? (lit "cache_status") result.asCacheStatus).getD .null))

/-! ## Keys -/

variable {k key value v : Value} {d entries : Dict} {s text : Str} {response : Value}
  {result : Result}

theorem pyEq_str_iff : pyEq k (.str s) = true ↔ k = .str s := by
  cases k <;> simp [pyEq]

/-- No two keys are equal. -/
def Dict.Keyed (d : Dict) : Prop := d.Pairwise fun e e' => ¬pyEq e.1 e'.1 = true

theorem Dict.key_of_mem_set {e : Value × Value} (h : e ∈ Dict.set key value d) :
    e.1 = key ∨ ∃ e' ∈ d, e.1 = e'.1 := by
  induction d with
  | nil =>
      obtain rfl := List.mem_singleton.mp h
      exact .inl rfl
  | cons first d ih =>
      obtain ⟨k, v⟩ := first
      unfold Dict.set at h
      split at h
      · rcases List.mem_cons.mp h with rfl | h
        · exact .inr ⟨(k, v), List.mem_cons_self, rfl⟩
        · exact .inr ⟨e, List.mem_cons_of_mem _ h, rfl⟩
      · rcases List.mem_cons.mp h with rfl | h
        · exact .inr ⟨(k, v), List.mem_cons_self, rfl⟩
        · rcases ih h with h | ⟨e', he', h⟩
          · exact .inl h
          · exact .inr ⟨e', List.mem_cons_of_mem _ he', h⟩

theorem Dict.Keyed.set (h : d.Keyed) (key value : Value) : (Dict.set key value d).Keyed := by
  induction d with
  | nil => exact List.pairwise_singleton _ _
  | cons first d ih =>
      obtain ⟨k, v⟩ := first
      obtain ⟨hfirst, hrest⟩ := List.pairwise_cons.mp h
      unfold Dict.set
      split
      · exact List.pairwise_cons.mpr ⟨hfirst, hrest⟩
      · rename_i hne
        refine List.pairwise_cons.mpr ⟨fun e he => ?_, ih hrest⟩
        rcases Dict.key_of_mem_set he with hkey | ⟨e', he', hkey⟩
        · rw [hkey]
          exact hne
        · rw [hkey]
          exact hfirst e' he'

theorem Dict.keyed_foldl (pairs : List (Value × Value)) (h : d.Keyed) :
    Dict.Keyed (pairs.foldl (fun d pair => Dict.set pair.1 pair.2 d) d) := by
  induction pairs generalizing d with
  | nil => exact h
  | cons pair pairs ih => exact ih (h.set pair.1 pair.2)

/-- Setting a string key leaves the other entries as they are, in their order. -/
theorem Dict.Keyed.exists_set (h : d.Keyed) (s : Str) (value : Value) : ∃ before after : Dict,
    Dict.set (.str s) value d = before ++ (.str s, value) :: after ∧
      before ++ after = d.filter fun e => ¬pyEq e.1 (.str s) = true := by
  induction d with
  | nil => exact ⟨[], [], rfl, rfl⟩
  | cons first d ih =>
      obtain ⟨k, v⟩ := first
      obtain ⟨hfirst, hrest⟩ := List.pairwise_cons.mp h
      unfold Dict.set
      split
      · rename_i heq
        obtain rfl := pyEq_str_iff.mp heq
        refine ⟨[], d, rfl, ?_⟩
        rw [List.nil_append, List.filter_cons_of_neg (by simp [heq]), eq_comm,
          List.filter_eq_self]
        intro e he
        refine decide_eq_true fun hsame => hfirst e he ?_
        rw [pyEq_str_iff.mp hsame]
        exact heq
      · rename_i hne
        obtain ⟨before, after, hset, hothers⟩ := ih hrest
        refine ⟨(k, v) :: before, after, by rw [hset]; rfl, ?_⟩
        rw [List.filter_cons_of_pos (by simp [hne]), ← hothers]
        rfl

/-! ## Names -/

theorem scanLeaf_cacheStatus :
    Json.scanLeaf (lit "cache_status") = (none : Option (Value × Str)) := by
  rfl

/-- Only the string is written as the name of the statuses. -/
theorem keyText_eq_iff (hfloat : Json.FloatsReadBack Runtime.Float) :
    keyText k = lit "cache_status" ↔ k = .str (lit "cache_status") := by
  have hleaf : ∀ {x : Value × Str}, Json.scanLeaf (keyText k) = some x →
      keyText k ≠ lit "cache_status" := by
    intro x hx heq
    rw [heq, scanLeaf_cacheStatus] at hx
    cases hx
  have hwords : lit "null" ≠ lit "cache_status" ∧ lit "true" ≠ lit "cache_status" ∧
      lit "false" ≠ lit "cache_status" := by decide +kernel
  have hbracket : ∀ t, CodePoint.scalar '[' :: t ≠ lit "cache_status" := fun t h => by
    cases (List.cons.inj h).1
  have hbrace : ∀ t, CodePoint.scalar '{' :: t ≠ lit "cache_status" := fun t h => by
    cases (List.cons.inj h).1
  have hstop : Json.Stops [] := by rintro p ⟨⟩
  cases k with
  | str s => simp [keyText]
  | null => exact iff_of_false hwords.1 (by rintro ⟨⟩)
  | bool b =>
      cases b with
      | true => exact iff_of_false hwords.2.1 (by rintro ⟨⟩)
      | false => exact iff_of_false hwords.2.2 (by rintro ⟨⟩)
  | int n =>
      have htext := Json.scanLeaf_intText (F := Runtime.Float) n hstop
      rw [List.append_nil] at htext
      exact iff_of_false (hleaf htext) (by rintro ⟨⟩)
  | float x =>
      have htext := hfloat x [] hstop
      rw [List.append_nil] at htext
      exact iff_of_false (hleaf htext) (by rintro ⟨⟩)
  | arr items => exact iff_of_false (hbracket _) (by rintro ⟨⟩)
  | obj members => exact iff_of_false (hbrace _) (by rintro ⟨⟩)

/-- Writing a dictionary without the statuses is leaving them out of what is written. -/
theorem Dict.members_filter (hfloat : Json.FloatsReadBack Runtime.Float) (d : Dict) :
    Dict.members (d.filter fun e => ¬pyEq e.1 (.str (lit "cache_status")) = true) =
      Json.erase (lit "cache_status") d.members := by
  unfold Dict.members Json.erase
  rw [List.filter_map]
  refine congrArg _ (List.filter_congr fun e _ => ?_)
  simp only [Function.comp_apply, ne_eq, keyText_eq_iff hfloat, ← pyEq_str_iff]

/-! ## Replies -/

theorem keyed_dictOf (hloads : jsonLoads text = .ok response) (h : dictOf response = some d) :
    d.Keyed := by
  unfold dictOf at h
  split at h
  · rename_i members
    cases h
    have hnames := nodup_of_jsonLoads hloads
    rw [List.Nodup, List.pairwise_map] at hnames
    refine List.pairwise_map.mpr (hnames.imp fun hne heq => hne ?_)
    exact Json.str.inj (pyEq_str_iff.mp heq)
  · obtain ⟨pairs, -, rfl⟩ := Option.map_eq_some_iff.mp h
    exact Dict.keyed_foldl pairs List.Pairwise.nil

/-- The statuses stand under their name once, and every other member is one that the
engine returned. -/
theorem members_attach (hfloat : Json.FloatsReadBack Runtime.Float)
    (hloads : jsonLoads text = .ok response) (h : attach response result = some d) :
    ∃ entries before after, dictOf response = some entries ∧
      d.members = before ++
        (lit "cache_status", .arr (result.statuses.map fun s => .obj s.entry)) :: after ∧
      before ++ after = Json.erase (lit "cache_status") entries.members := by
  obtain ⟨entries, hentries, rfl⟩ := Option.map_eq_some_iff.mp h
  obtain ⟨before, after, hset, hothers⟩ :=
    (keyed_dictOf hloads hentries).exists_set (lit "cache_status")
      ((Json.get? (lit "cache_status") result.asCacheStatus).getD .null)
  refine ⟨entries, Dict.members before, Dict.members after, hentries, ?_, ?_⟩
  · rw [hset, Dict.members, List.map_append, List.map_cons, Result.asCacheStatus, Json.get?,
      if_pos rfl]
    rfl
  · rw [← Dict.members_filter hfloat, ← hothers, Dict.members, Dict.members, Dict.members,
      List.map_append]

/-- An object is returned as it is, with the statuses. -/
theorem attach_obj (payload : List (Str × Value)) (result : Result) :
    (attach (.obj payload) result).map Dict.members = some (attachStatus payload result) := by
  have hset : ∀ value, Dict.members (Dict.set (.str (lit "cache_status")) value
      (payload.map fun m => (.str m.1, m.2))) = Json.set (lit "cache_status") value payload := by
    intro value
    induction payload with
    | nil => rfl
    | cons m payload ih =>
        obtain ⟨name, v⟩ := m
        rw [List.map_cons, Dict.set, Json.set]
        by_cases hname : name = lit "cache_status"
        · rw [if_pos hname, if_pos (pyEq_str_iff.mpr (congrArg Json.str hname))]
          simp [Dict.members, keyText, Function.comp_def]
        · rw [if_neg hname, if_neg fun h => hname (Json.str.inj (pyEq_str_iff.mp h)), ← ih]
          rfl
  exact congrArg some (hset _)

end

section

attribute [local instance] reference

/-- The number 1 is the key `True`, and a string of two characters is a pair. -/
example : (dictOf (.arr [.arr [.bool true, .null], .str (lit "ab"), .arr [.int 1, .null]])).map
    Dict.members = some [(lit "true", .null), (lit "a", .str (lit "b"))] := by rfl

end

end CacheControl

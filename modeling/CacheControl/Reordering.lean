import CacheControl.Submissions
import CacheControl.Lib.JsonText
import CacheControl.Lib.JsonReread

/-!
# Bodies up to the order of members

Python objects are equal whatever the order of their members.  Reading a body,
the schema and the content of a fragment see no difference between two orders,
and the intent that is written out and read again sees none either.
-/

open PyText

namespace CacheControl

variable [Runtime] {σ : Type} {text : Str} {tree : Value}

/-! ## Strict parsing -/

omit [Runtime] in
theorem firstRepeated_eq_none_iff {seen names : List Str} :
    firstRepeated seen names = none ↔ names.Nodup ∧ ∀ k ∈ names, k ∉ seen := by
  induction names generalizing seen with
  | nil => simp [firstRepeated]
  | cons k names ih =>
      by_cases hk : k ∈ seen
      · simp [firstRepeated, hk]
      · rw [firstRepeated, if_neg hk, ih]
        simp only [List.nodup_cons, List.mem_cons, not_or, forall_eq_or_imp]
        constructor
        · rintro ⟨hnames, hnot⟩
          exact ⟨⟨fun hmem => (hnot k hmem).1 rfl, hnames⟩, hk, fun j hj => (hnot j hj).2⟩
        · rintro ⟨⟨hmem, hnames⟩, -, hnot⟩
          exact ⟨hnames, fun j hj => ⟨fun heq => hmem (heq ▸ hj), hnot j hj⟩⟩

theorem rejectDuplicates_of_nodup {pairs : List (Str × Value)}
    (h : (pairs.map Prod.fst).Nodup) : rejectDuplicates pairs = .ok (.obj pairs) := by
  have hnone : firstRepeated [] (pairs.map Prod.fst) = none :=
    firstRepeated_eq_none_iff.mpr ⟨h, by simp⟩
  rw [rejectDuplicates, hnone, Json.dictOf_of_nodup h]

theorem refusesRepeats_rejectDuplicates :
    Json.RefusesRepeats (rejectDuplicates : List (Str × Value) → _) where
  accepts _ := rejectDuplicates_of_nodup
  refuses pairs h := by
    cases hrep : firstRepeated [] (pairs.map Prod.fst) with
    | none => exact absurd (firstRepeated_eq_none_iff.mp hrep).1 h
    | some k => exact ⟨_, by rw [rejectDuplicates, hrep]⟩

theorem distinct_of_loadsStrict {text : Str} {v : Value} (h : loadsStrict text = .ok v) :
    v.Distinct := by
  unfold loadsStrict at h
  split at h
  · rename_i w hw
    cases h
    exact refusesRepeats_rejectDuplicates.keepsDistinct.loads text _ hw
  · cases h
  · cases h

theorem loadsStrict_of_spells (h : Json.Spells text tree) :
    loadsStrict text = Json.folded rejectDuplicates tree := by
  unfold loadsStrict
  rw [Json.loads_of_spells h]
  cases Json.folded rejectDuplicates tree <;> rfl

/-- A well-formed text is read with all its members, unless it repeats a name. -/
theorem loadsStrict_cases (htree : Json.Spells text tree) :
    (¬tree.RepeatsName → loadsStrict text = .ok tree) ∧
      (tree.RepeatsName → ∃ k, loadsStrict text = .error (.duplicateMemberName k)) := by
  obtain ⟨hkept, hrefused⟩ := refusesRepeats_rejectDuplicates.folded tree
  refine ⟨fun h => ?_, fun h => ?_⟩
  · rw [loadsStrict_of_spells htree, hkept (Json.not_repeatsName_iff.mp h)]
  · obtain ⟨e, he⟩ := hrefused fun hdistinct => Json.not_repeatsName_iff.mpr hdistinct h
    obtain ⟨pairs, hpairs⟩ := Json.exists_hook_error htree he
    obtain ⟨k, rfl⟩ := rejectDuplicates_error hpairs
    exact ⟨k, by rw [loadsStrict_of_spells htree, he]⟩

/-- What was written is read back, rejoined, unless that makes two names of an
object equal. -/
theorem loadsStrict_dumps (hfloat : Json.FloatsReadBack Runtime.Float) (v : Value) :
    ((v.rejoin).Distinct → loadsStrict (Json.dumps .default v) = .ok v.rejoin) ∧
      (¬(v.rejoin).Distinct →
        ∃ k, loadsStrict (Json.dumps .default v) = .error (.duplicateMemberName k)) := by
  have hspells := Json.spells_dumps Json.plain_default hfloat v
  rw [← Json.not_repeatsName_iff, not_not]
  exact loadsStrict_cases hspells

/-! ## The schema -/

theorem onlyMembers_sortedObj (allowed : List Str) (members : List (Str × Value)) :
    onlyMembers allowed (Json.sortedObj members) = onlyMembers allowed members :=
  Json.all_names_sortedObj (fun k => decide (k ∈ allowed)) members

omit [Runtime] in
theorem map_bind_congr {α β : Type} {o : Option α} {s : α → α} {f f' : α → Option β}
    (h : ∀ a ∈ o, f (s a) = f' a) : (o.map s >>= f) = (o >>= f') := by
  cases o with
  | none => rfl
  | some a => exact h a rfl

theorem decodeOptional_map {β : Type} {o : Option Value} {s : Value → Value}
    {decode : Value → Option β} (h : ∀ v ∈ o, decode (s v) = decode v) :
    decodeOptional decode (o.map s) = decodeOptional decode o := by
  cases o with
  | none => rfl
  | some v =>
      have hv := h v rfl
      simp [decodeOptional, hv]

theorem decodeNatural_sorted (v : Value) : decodeNatural v.sorted = decodeNatural v := by
  cases v <;> rfl

theorem decodeName_sorted (v : Value) : decodeName v.sorted = decodeName v := by
  cases v <;> rfl

theorem decodeReuse_sorted (v : Value) : decodeReuse v.sorted = decodeReuse v := by
  cases v <;> rfl

theorem decodeShare_sorted (v : Value) : decodeShare v.sorted = decodeShare v := by
  cases v <;> rfl

theorem isVersionOne_sorted (v : Value) : isVersionOne v.sorted = isVersionOne v := by
  cases v <;> rfl

theorem decodeRetention_sorted {v : Value} (h : v.Distinct) :
    decodeRetention v.sorted = decodeRetention v := by
  cases v with
  | obj members =>
      have hnames := (Json.distinct_obj_iff.mp h).1
      rw [Json.sorted_obj, decodeRetention, decodeRetention, onlyMembers_sortedObj,
        Json.get?_sortedObj hnames, Json.get?_sortedObj hnames,
        decodeOptional_map fun w _ => decodeNatural_sorted w]
      refine bind_congr fun _ => map_bind_congr fun mode _ => bind_congr fun maxAge => ?_
      cases mode <;> rfl
  | _ => rfl

theorem distinct_of_get? {members : List (Str × Value)} (h : (Json.obj members).Distinct)
    {key : Str} {v : Value} (hv : v ∈ Json.get? key members) : v.Distinct :=
  (Json.distinct_obj_iff.mp h).2 _ (Json.mem_of_get? hv)

theorem decodeConstraints_sorted {v : Value} (h : v.Distinct) :
    decodeConstraints v.sorted = decodeConstraints v := by
  cases v with
  | obj members =>
      have hnames := (Json.distinct_obj_iff.mp h).1
      rw [Json.sorted_obj, decodeConstraints, decodeConstraints, onlyMembers_sortedObj,
        Json.get?_sortedObj hnames, Json.get?_sortedObj hnames, Json.get?_sortedObj hnames,
        Json.get?_sortedObj hnames, decodeOptional_map fun w _ => decodeName_sorted w]
      refine bind_congr fun _ => map_bind_congr fun retention hretention => ?_
      rw [decodeRetention_sorted (distinct_of_get? h hretention)]
      refine bind_congr fun _ => map_bind_congr fun reuse _ => ?_
      rw [decodeReuse_sorted]
      refine bind_congr fun _ => map_bind_congr fun share _ => ?_
      rw [decodeShare_sorted]
  | _ => rfl

theorem decodeHints_sorted {v : Value} (h : v.Distinct) :
    decodeHints v.sorted = decodeHints v := by
  cases v with
  | obj members =>
      rw [Json.sorted_obj, decodeHints, decodeHints,
        Json.get?_sortedObj (Json.distinct_obj_iff.mp h).1,
        decodeOptional_map fun w _ => decodeNatural_sorted w]
  | _ => rfl

theorem decodeIntent_sorted {v : Value} (h : v.Distinct) :
    decodeIntent v.sorted = decodeIntent v := by
  cases v with
  | obj members =>
      have hnames := (Json.distinct_obj_iff.mp h).1
      rw [Json.sorted_obj, decodeIntent, decodeIntent, onlyMembers_sortedObj,
        Json.get?_sortedObj hnames, Json.get?_sortedObj hnames, Json.get?_sortedObj hnames,
        Json.get?_sortedObj hnames, decodeOptional_map fun w _ => decodeName_sorted w,
        decodeOptional_map fun w hw => decodeHints_sorted (distinct_of_get? h hw)]
      refine bind_congr fun _ => map_bind_congr fun version _ => ?_
      rw [isVersionOne_sorted]
      refine bind_congr fun _ => bind_congr fun _ => map_bind_congr fun constraints hc => ?_
      rw [decodeConstraints_sorted (distinct_of_get? h hc)]
  | _ => rfl

theorem validate_sorted {v : Value} (h : v.Distinct) : validate v.sorted = validate v := by
  cases v with
  | obj members =>
      rw [Json.sorted_obj, validate, validate, onlyMembers_sortedObj,
        Json.get?_sortedObj (Json.distinct_obj_iff.mp h).1]
      refine bind_congr fun _ => map_bind_congr fun intent hintent => ?_
      exact decodeIntent_sorted (distinct_of_get? h hintent)
  | _ => rfl

theorem checkVersion_sorted {v : Value} (h : v.Distinct) :
    checkVersion v.sorted = checkVersion v := by
  cases v with
  | obj members =>
      rw [Json.sorted_obj, checkVersion, checkVersion,
        Json.get?_sortedObj (Json.distinct_obj_iff.mp h).1]
      cases hget : Json.get? (lit "cache_intent") members with
      | none => rfl
      | some intent =>
          cases intent with
          | obj intent =>
              have hintent := distinct_of_get? h hget
              rw [Option.map_some, Json.sorted_obj]
              dsimp only
              rw [Json.get?_sortedObj (Json.distinct_obj_iff.mp hintent).1]
              cases Json.get? (lit "version") intent with
              | none => rfl
              | some version => cases version <;> rfl
          | _ => rfl
  | _ => rfl

/-! ## Intents that are written out and parsed again -/

/-- The two errors are reported under one code. -/
def SameCode (e e' : PyError) : Prop := handleErrorCode e = handleErrorCode e'

omit [Runtime] in
theorem sameCode_refl (e : PyError) : SameCode e e := rfl

theorem parse_intentDocument_congr (hfloat : Json.FloatsReadBack Runtime.Float) {v w : Value}
    (h : v.sorted = w.sorted) : Prog.ExceptRel SameCode Eq (parseCacheIntent (intentDocument v))
      (parseCacheIntent (intentDocument w)) := by
  have hdoc : (Json.obj [(cacheIntentName, v)] : Value).sorted =
      (Json.obj [(cacheIntentName, w)]).sorted := by
    rw [Json.sorted_obj, Json.sorted_obj, Json.sortedObj, Json.sortedObj]
    simp [h]
  obtain ⟨hiff, hsorted⟩ := Json.sorted_rejoin_congr hdoc
  obtain ⟨hv, hv'⟩ := loadsStrict_dumps hfloat (Json.obj [(cacheIntentName, v)])
  obtain ⟨hw, hw'⟩ := loadsStrict_dumps hfloat (Json.obj [(cacheIntentName, w)])
  unfold parseCacheIntent intentDocument
  by_cases hdistinct : (Json.obj [(cacheIntentName, v)] : Value).rejoin.Distinct
  · have hother := hiff.mp hdistinct
    rw [hv hdistinct, hw hother]
    have hversion : checkVersion (Json.obj [(cacheIntentName, v)]).rejoin =
        checkVersion (Json.obj [(cacheIntentName, w)]).rejoin := by
      rw [← checkVersion_sorted hdistinct, hsorted hdistinct, checkVersion_sorted hother]
    have hvalid : validate (Json.obj [(cacheIntentName, v)]).rejoin =
        validate (Json.obj [(cacheIntentName, w)]).rejoin := by
      rw [← validate_sorted hdistinct, hsorted hdistinct, validate_sorted hother]
    simp only [bind, Except.bind, hversion, hvalid]
    exact Prog.exceptRel_refl sameCode_refl (fun _ => rfl) _
  · obtain ⟨k, hk⟩ := hv' hdistinct
    obtain ⟨k', hk'⟩ := hw' fun h => hdistinct (hiff.mpr h)
    rw [hk, hk']
    exact .error rfl

end CacheControl

import CacheControl.Ids
import CacheControl.Enforcement

/-!
# What the gateway raises

What each layer raises: the backend and the digests, the reading of an intent and
the check that no id is repeated.
-/

open PyText

namespace CacheControl

section

variable [Runtime] {σ : Type} {b : Backend σ} {g : Gateway σ} {refuses : Time → ℕ → Prop}
  {fragments : List Fragment} {v : Event σ} {e : PyError}

/-! ## What is raised below the gateway -/

/-- An error that is none of the program's own. -/
def NotIntentError (e : PyError) : Prop := e.isCacheIntentError = false

omit [Runtime] in
theorem throws_encode (s : Str) : Prog.Throws NotIntentError (encode s) := by
  intro e h
  unfold encode at h
  split at h
  · cases h
  · cases h
    rfl

omit [Runtime] in
theorem throws_encodeFrames (ss : List Str) : Prog.Throws NotIntentError (encodeFrames ss) := by
  induction ss with
  | nil => exact Prog.throws_ok _ _
  | cons s ss ih =>
      exact (throws_encode s).bind fun _ => ih.bind fun _ => Prog.throws_ok _ _

theorem throws_namespaceDigest (present : List Str) :
    Prog.Throws NotIntentError (namespaceDigest present) := by
  unfold namespaceDigest
  split
  · exact Prog.throws_ok _ _
  · exact (throws_encodeFrames present).bind fun _ => Prog.throws_ok _ _

theorem throws_cacheKey (execution : Execution) (contents namespaces : List Str) (partition : Str)
    (exact : Bool) :
    Prog.Throws NotIntentError (cacheKey execution contents namespaces partition exact) := by
  unfold cacheKey
  refine (throws_encode _).bind fun _ => (throws_encode _).bind fun _ => ?_
  refine (throws_encode _).bind fun _ => (throws_encode _).bind fun _ => ?_
  refine (throws_namespaceDigest _).bind fun _ => (throws_encode _).bind fun _ => ?_
  exact (throws_encodeFrames _).bind fun _ => Prog.throws_ok _ _

theorem throws_compose (cs : List Constraints) : Prog.Throws NotIntentError (compose cs) := by
  cases cs with
  | nil => exact Prog.throws_error rfl
  | cons c cs => exact (throws_namespaceDigest _).bind fun _ => Prog.throws_ok _ _

/-- What the backend raises is not the program's own. -/
structure Backend.RaisesNoIntentError (b : Backend σ) : Prop where
  get : ∀ key now, Prog.Raises NotIntentError (b.get key now)
  put : ∀ key now maxAge exact, Prog.Raises NotIntentError (b.put key now maxAge exact)

theorem Shipped.raisesNoIntentError (h : Shipped b refuses) : b.RaisesNoIntentError := by
  have hget : ∀ key now, Prog.Raises NotIntentError (InMemoryCache.get key now) := by
    intro key now s e he
    obtain ⟨t, ht⟩ := get_apply key now s
    rw [ht] at he
    cases he
  have hput : ∀ key now maxAge exact,
      Prog.Raises NotIntentError (InMemoryCache.put key now maxAge exact) := by
    intro key now maxAge exact s e he
    cases hexpiry : InMemoryCache.expiry now maxAge with
    | ok x => rw [put_apply hexpiry] at he; cases he
    | error e' =>
        rw [put_apply_error hexpiry] at he
        cases he
        unfold InMemoryCache.expiry at hexpiry
        split at hexpiry
        · cases hexpiry
        · split at hexpiry
          · cases hexpiry
          · cases hexpiry
            rfl
  cases h with
  | inMemory caps => exact ⟨hget, hput⟩
  | saltOnly caps =>
      refine ⟨hget, fun key now maxAge exact => ?_⟩
      cases maxAge with
      | none =>
          have hsame : saltOnlyBackend.put key now none exact =
              InMemoryCache.put key now none exact := by simp [saltOnlyBackend]
          exact hsame ▸ hput key now none exact
      | some m =>
          intro s e he
          cases he
          rfl
  | null caps =>
      exact ⟨fun _ _ => Prog.raises_pure _ _, fun _ _ _ _ => Prog.raises_pure _ _⟩
  | vllm caps =>
      refine ⟨fun _ _ => Prog.raises_pure _ _, fun key now maxAge exact s e he => ?_⟩
      cases maxAge with
      | none => cases he
      | some m =>
          cases he
          rfl

theorem raises_serve (hb : g.backend.RaisesNoIntentError) (auth : AuthContext) (now : Time)
    (requestId : Str) (f : Fragment) (vars : LoopVars) (hints : HintStatus) (eff : Effective) :
    Prog.Raises NotIntentError (g.serve auth now requestId f vars hints eff) := by
  refine Prog.Raises.bind ?_ fun oa => Prog.Raises.bind ?_ fun _ => Prog.raises_pure _ _
  · unfold Gateway.resolve
    split
    · exact Prog.raises_pure _ _
    · split
      · exact Prog.raises_pure _ _
      · refine (Prog.raises_lift (throws_cacheKey _ _ _ _ _)).bind fun k => ?_
        refine (hb.get k now).bind fun found => ?_
        split
        · exact Prog.raises_pure _ _
        · split
          · refine (Prog.raises_lift (throws_cacheKey _ _ _ _ _)).bind fun dk => ?_
            refine (hb.get dk now).bind fun found => ?_
            split <;> exact Prog.raises_pure _ _
          · exact Prog.raises_pure _ _
  · unfold Gateway.retain
    split
    · exact Prog.raises_pure _ _
    · exact Prog.raises_pure _ _
    · unfold Gateway.materialize
      split
      · exact Prog.raises_pure _ _
      · split
        · exact Prog.raises_pure _ _
        · refine (Prog.raises_lift (throws_cacheKey _ _ _ _ _)).bind fun k => ?_
          refine (hb.put k now _ _).bind fun _ => ?_
          split
          · exact Prog.raises_pure _ _
          · refine (Prog.raises_lift (throws_cacheKey _ _ _ _ _)).bind fun dk => ?_
            exact (hb.put dk now _ _).bind fun _ => Prog.raises_pure _ _

/-! ## What an iteration raises -/

/-- The fragment's intent cannot be read, for this reason. -/
def Fragment.Unread (f : Fragment) (e : PyError) : Prop :=
  ∃ text, f.intentJson = some text ∧ parseCacheIntent text = .error e

theorem throws_enter (caps : Capabilities) (vars : LoopVars) (f : Fragment) :
    Prog.Throws (fun e => f.Unread e ∨ NotIntentError e) (enter caps vars f) := by
  have hcompose : ∀ cs, Prog.Throws (fun e => f.Unread e ∨ NotIntentError e) (compose cs) :=
    fun cs e h => .inr (throws_compose cs e h)
  unfold enter
  dsimp only
  split
  · split
    · exact Prog.throws_ok _ _
    · exact (hcompose _).bind fun _ => Prog.throws_ok _ _
  · rename_i text htext
    refine Prog.Throws.bind (fun e he => .inl ⟨text, htext, he⟩) fun intent => ?_
    exact (hcompose _).bind fun _ => Prog.throws_ok _ _

/-- An iteration raises what its intent could not be read for, that its prefix cannot
be enforced, or an error that is none of the program's own. -/
theorem causes_of_turn (hb : g.backend.RaisesNoIntentError) (hfollows : Follows v.done v.acc)
    (h : (g.turn v.call v.acc v.item v.state).1 = .error e) :
    v.item.Unread e ∨ (g.onUnenforceable = .reject ∧ Fails g.backend.capabilities v.sent ∧
      Unenforced e) ∨ NotIntentError e := by
  unfold Gateway.turn Gateway.handleFragment at h
  cases hentered : enter g.backend.capabilities v.acc v.item with
  | error e' =>
      rw [hentered] at h
      cases h
      exact (throws_enter _ _ _ e hentered).imp_right .inr
  | ok entered =>
      rw [hentered, Prog.lift_ok_bind] at h
      cases reads_enter hfollows hentered with
      | ungoverned vars => cases h
      | governed vars hints eff hvars htaint hpolicy =>
          dsimp only at h
          cases hcheck : checkEnforceable g.backend.capabilities eff with
          | ok u =>
              simp only [hcheck] at h
              exact .inr (.inr (raises_serve hb _ _ _ _ _ _ _ v.state e h))
          | error e' =>
              simp only [hcheck] at h
              split at h
              · rename_i hmode
                cases h
                exact .inr (.inl ⟨hmode, ⟨eff, e, hpolicy, hcheck⟩, unenforced_of_check hcheck⟩)
              · cases h

/-! ## Why an intent cannot be read -/

/-- The integer that the intent declares as its version. -/
def versionOf : Value → Option ℤ
  | .obj intent =>
      match Json.get? (lit "version") intent with
      | some (.int n) => some n
      | _ => none
  | _ => none

theorem versionOf_rejoin (v : Value) : versionOf v.rejoin = versionOf v := by
  cases v with
  | obj intent =>
      have hname : ∀ p ∈ lit "version", p.ord < 0xD800 := by decide +kernel
      rw [Json.rejoin_obj, versionOf, versionOf, Json.get?_rejoin hname]
      cases Json.get? (lit "version") intent with
      | none => rfl
      | some w =>
          cases w with
          | obj ms => rw [Option.map_some, Json.rejoin_obj]
          | arr items => rw [Option.map_some, Json.rejoin_arr]
          | _ => rfl
  | arr items => rw [Json.rejoin_arr]; rfl
  | _ => rfl

theorem checkVersion_document (v : Value) : checkVersion (.obj [(cacheIntentName, v)]) =
    match versionOf v with
    | some n => if n ≠ 1 then .error (.unsupportedVersion n) else .ok ()
    | none => .ok () := by
  have hget : Json.get? (lit "cache_intent") [(cacheIntentName, v)] = some v := by
    simp [Json.get?, cacheIntentName]
  rw [checkVersion, hget]
  cases v with
  | obj intent =>
      dsimp only
      rw [versionOf]
      split <;> simp_all
  | _ => rfl

/-- A document that was written for an intent is read with a repeated name, or it
declares a version that is not supported, or it cannot be read for another reason. -/
theorem parse_error (hfloat : Json.FloatsReadBack Runtime.Float) {w : Value}
    (h : parseCacheIntent (intentDocument w) = .error e) :
    (∃ k, e = .duplicateMemberName k ∧ loadsStrict (intentDocument w) = .error e) ∨
      (∃ n, n ≠ 1 ∧ e = .unsupportedVersion n ∧ versionOf w = some n) ∨ NotIntentError e := by
  cases hload : loadsStrict (intentDocument w) with
  | error e' =>
      rw [parseCacheIntent, hload] at h
      cases h
      rcases loadsStrict_error hload with ⟨k, rfl⟩ | rfl
      · exact .inl ⟨k, rfl, rfl⟩
      · exact .inr (.inr rfl)
  | ok doc =>
      rw [parseCacheIntent, hload, document_of_loadsStrict hfloat hload] at h
      change (checkVersion _ >>= fun _ => _) = _ at h
      cases hversion : checkVersion (.obj [(cacheIntentName, w.rejoin)]) with
      | error e' =>
          rw [hversion] at h
          cases h
          rw [checkVersion_document, versionOf_rejoin] at hversion
          split at hversion
          · rename_i n hn
            split at hversion
            · rename_i hne
              cases hversion
              exact .inr (.inl ⟨n, hne, rfl, hn⟩)
            · cases hversion
          · cases hversion
      | ok u =>
          rw [hversion] at h
          dsimp only [bind, Except.bind] at h
          split at h
          · cases h
          · cases h
            exact .inr (.inr rfl)

/-! ## Repeated ids -/

/-- Two elements supply the same id. -/
def SuppliedTwice (xs : List Element) : Prop :=
  ∃ x y, [x, y].Sublist xs ∧ ∃ id, x.suppliedId = some (.str id) ∧ y.suppliedId = some (.str id)

/-- No supplied id is the name by position of an element that supplies none. -/
def NamesApart (xs : List Element) : Prop :=
  ∀ x ∈ xs, ∀ y ∈ xs, y.suppliedId = none →
    x.suppliedId ≠ some (.str (positionId y.kind y.index))

theorem distinct_ids_iff {members : List (Str × Value)}
    (hstr : ∀ x ∈ elements members, ∀ v, x.suppliedId = some v → ∃ id, v = .str id) :
    (elements members).Pairwise (fun x y => x.id ≠ y.id) ↔
      ¬SuppliedTwice (elements members) ∧ NamesApart (elements members) := by
  constructor
  · intro hdistinct
    refine ⟨?_, fun x hx y hy hnone hsome => ?_⟩
    · rintro ⟨x, y, hsub, id, hx, hy⟩
      refine List.pairwise_iff_forall_sublist.mp hdistinct hsub ?_
      rw [Element.id, Element.id, hx, hy]
      rfl
    · have hne : x ≠ y := by
        rintro rfl
        cases hnone.symm.trans hsome
      have : Std.Symm fun x y : Element => x.id ≠ y.id := ⟨fun _ _ h => h.symm⟩
      refine hdistinct.forall hx hy hne ?_
      rw [Element.id, Element.id, hnone, hsome]
      rfl
  · rintro ⟨htwice, hapart⟩
    refine List.pairwise_iff_forall_sublist.mpr fun {x y} hsub heq => ?_
    have hx : x ∈ elements members := hsub.subset (by simp)
    have hy : y ∈ elements members := hsub.subset (by simp)
    cases hxid : x.suppliedId with
    | none =>
        cases hyid : y.suppliedId with
        | none =>
            rw [Element.id, Element.id, hxid, hyid] at heq
            exact List.pairwise_iff_forall_sublist.mp (pairwise_positions members) hsub
              (Json.str.inj heq)
        | some w =>
            rw [Element.id, Element.id, hxid, hyid] at heq
            exact hapart y hy x hx hxid (hyid.trans (congrArg some heq.symm))
    | some v =>
        cases hyid : y.suppliedId with
        | none =>
            rw [Element.id, Element.id, hxid, hyid] at heq
            exact hapart x hx y hy hyid (hxid.trans (congrArg some heq))
        | some w =>
            rw [Element.id, Element.id, hxid, hyid] at heq
            obtain ⟨id, rfl⟩ := hstr x hx v hxid
            exact htwice ⟨x, y, hsub, id, hxid, hyid.trans (congrArg some heq.symm)⟩

/-- The ids of a body are checked as strings. -/
theorem checkIds_error_iff {members : List (Str × Value)}
    (hmakes : List.Forall₂ Makes (elements members) fragments)
    (hstr : ∀ x ∈ elements members, ∀ v, x.suppliedId = some v → ∃ id, v = .str id) :
    checkIds fragments = .error e ↔
      e = .duplicateFragmentId ∧
        (SuppliedTwice (elements members) ∨ ¬NamesApart (elements members)) := by
  have hid : ∀ x ∈ elements members, ∃ id, x.id = .str id := by
    intro x hx
    unfold Element.id
    cases hsome : x.suppliedId with
    | none => exact ⟨_, rfl⟩
    | some v => exact hstr x hx v hsome
  obtain ⟨ids, hids⟩ : ∃ ids : List Str, ids.map Json.str = (elements members).map Element.id := by
    generalize elements members = xs at hid
    clear hmakes hstr
    induction xs with
    | nil => exact ⟨[], rfl⟩
    | cons x xs ih =>
        obtain ⟨id, hx⟩ := hid x (by simp)
        obtain ⟨ids, hids⟩ := ih fun y hy => hid y (by simp [hy])
        exact ⟨id :: ids, by rw [List.map_cons, List.map_cons, hids, hx]⟩
  have hnodup : ids.Nodup ↔ (elements members).Pairwise fun x y => x.id ≠ y.id := by
    rw [← List.nodup_map_iff (f := Json.str) fun _ _ => Json.str.inj, hids, List.Nodup,
      List.pairwise_map]
  rw [distinct_ids_iff hstr] at hnodup
  have hsupplied : ((fragments.map Fragment.id).filter fun v => ¬isNull v) = ids.map Json.str := by
    rw [ids_of_makes hmakes, ← hids, List.filter_eq_self]
    intro v hv
    obtain ⟨id, -, rfl⟩ := List.mem_map.mp hv
    simp [isNull]
  rw [checkIds_strs hsupplied]
  by_cases hdistinct : ids.Nodup
  · have hapart := hnodup.mp hdistinct
    rw [if_pos hdistinct]
    exact ⟨nofun, fun h => absurd h.2 (not_or.mpr ⟨hapart.1, not_not_intro hapart.2⟩)⟩
  · rw [if_neg hdistinct, Except.error.injEq, eq_comm]
    refine ⟨fun he => ⟨he, ?_⟩, And.left⟩
    rwa [hnodup, not_and_or, not_not] at hdistinct

end

end CacheControl

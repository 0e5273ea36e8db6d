import CacheControl.Reordering
import CacheControl.Upstream

/-!
# Requests the gateway does not tell apart

Fragment lists that agree in content and in the constraints of their intents
make the gateway do the same.  How their identifiers and their hints are related
is a parameter, and the identifiers and the hint statuses that are reported are
related in the same way.
-/

open PyText

namespace CacheControl

variable [Runtime] {σ : Type}

/-- What a fragment's intent is read as; `none` for a fragment without one. -/
def Fragment.parsed (f : Fragment) : Except PyError (Option Intent) :=
  match f.intentJson with
  | none => .ok none
  | some text => (parseCacheIntent text).map some

/-- How the loop enters a fragment whose intent was read. -/
def enterWith (caps : Capabilities) (vars : LoopVars) : Option Intent → Except PyError Entered
  | none =>
      if vars.constraintsSoFar.isEmpty then pure (.ungoverned vars)
      else (compose vars.constraintsSoFar).map (.governed vars {})
  | some intent =>
      let vars := { vars with
        constraintsSoFar := vars.constraintsSoFar ++ [intent.constraints]
        namespacesSoFar := vars.namespacesSoFar ++ intent.constraints.ns.toList }
      (compose vars.constraintsSoFar).map (.governed vars (hintStatus caps intent.hints))

theorem enter_eq (caps : Capabilities) (vars : LoopVars) (f : Fragment) :
    enter caps vars f = f.parsed >>=
      enterWith caps { vars with contentsSoFar := vars.contentsSoFar ++ [f.content] } := by
  unfold enter Fragment.parsed
  cases f.intentJson with
  | none =>
      show _ = enterWith caps _ none
      unfold enterWith
      dsimp only
      split
      · rfl
      · cases compose vars.constraintsSoFar <;> rfl
  | some text =>
      dsimp only
      cases parseCacheIntent text with
      | error e => rfl
      | ok intent =>
          show _ = enterWith caps _ (some intent)
          simp only [bind, Except.bind, enterWith]
          cases compose (vars.constraintsSoFar ++ [intent.constraints]) <;> rfl

section

variable {I : Value → Value → Prop} {K : HintStatus → HintStatus → Prop}
  {E : PyError → PyError → Prop}

/-- Intents with equal constraints, whose hints every backend answers in related
ways. -/
inductive IntentsAgree (K : HintStatus → HintStatus → Prop) : Option Intent → Option Intent → Prop
  | bare : IntentsAgree K none none
  | carried {i i' : Intent} : i.constraints = i'.constraints →
      (∀ caps, K (hintStatus caps i.hints) (hintStatus caps i'.hints)) →
      IntentsAgree K (some i) (some i')

structure FragmentsAgree (E : PyError → PyError → Prop) (I : Value → Value → Prop)
    (K : HintStatus → HintStatus → Prop) (f f' : Fragment) : Prop where
  id : I f.id f'.id
  content : f.content = f'.content
  approxClass : f.approxClass = f'.approxClass
  parsed : Prog.ExceptRel E (IntentsAgree K) f.parsed f'.parsed

/-- The statuses are equal except for identifiers and hints. -/
structure StatusesAgree (I : Value → Value → Prop) (K : HintStatus → HintStatus → Prop)
    (s s' : FragmentStatus) : Prop where
  id : I s.id s'.id
  hints : K s.hints s'.hints
  rest : { s with id := s'.id, hints := s'.hints } = s'

inductive EnteredAgree (K : HintStatus → HintStatus → Prop) : Entered → Entered → Prop
  | ungoverned (vars : LoopVars) : EnteredAgree K (.ungoverned vars) (.ungoverned vars)
  | governed (vars : LoopVars) (effective : Effective) {hints hints' : HintStatus} :
      K hints hints' → EnteredAgree K (.governed vars hints effective)
        (.governed vars hints' effective)

theorem enter_agree (hE : ∀ e, E e e) (hK : K {} {}) {f f' : Fragment}
    (h : FragmentsAgree E I K f f') (caps : Capabilities) (vars : LoopVars) :
    Prog.ExceptRel E (EnteredAgree K) (enter caps vars f) (enter caps vars f') := by
  rw [enter_eq, enter_eq, h.content]
  refine h.parsed.bind fun i i' hi => ?_
  cases hi with
  | bare =>
      rw [enterWith]
      split
      · exact .ok (.ungoverned _)
      · exact (Prog.exceptRel_refl hE (fun _ => rfl) _).map fun effective _ heq =>
          heq ▸ .governed _ effective hK
  | carried hconstraints hhints =>
      rw [enterWith, enterWith, hconstraints]
      exact (Prog.exceptRel_refl hE (fun _ => rfl) _).map fun effective _ heq =>
        heq ▸ .governed _ effective (hhints caps)

theorem bareStatus_agree (hK : K {} {}) {f f' : Fragment} (h : I f.id f'.id) :
    StatusesAgree I K (Gateway.bareStatus f) (Gateway.bareStatus f') :=
  ⟨h, hK, rfl⟩

theorem statusOf_agree {f f' : Fragment} (h : I f.id f'.id) {hints hints' : HintStatus}
    (hhints : K hints hints') (effective : Effective) (outcome : Outcome)
    (retention : RetentionStatus) (exact : Bool) :
    StatusesAgree I K (Gateway.statusOf f effective hints outcome retention exact)
      (Gateway.statusOf f' effective hints' outcome retention exact) :=
  ⟨h, hhints, rfl⟩

theorem serve_agree (g : Gateway σ) (auth : AuthContext) (now : Time) (requestId : Str)
    (hE : ∀ e, E e e) {f f' : Fragment} (h : FragmentsAgree E I K f f') (vars : LoopVars)
    {hints hints' : HintStatus} (hhints : K hints hints') (effective : Effective) :
    Prog.Relates Eq E (fun p q => p.1 = q.1 ∧ StatusesAgree I K p.2 q.2)
      (g.serve auth now requestId f vars hints effective)
      (g.serve auth now requestId f' vars hints' effective) := by
  unfold Gateway.serve
  rw [h.approxClass]
  refine (Prog.relates_refl hE _).bind fun found found' hfound => ?_
  obtain rfl : found = found' := hfound
  refine (Prog.relates_refl hE _).bind fun retention retention' hretention => ?_
  obtain rfl : retention = retention' := hretention
  exact Prog.relates_pure ⟨rfl, statusOf_agree h.id hhints _ _ _ _⟩

theorem handleFragment_agree (g : Gateway σ) (auth : AuthContext) (now : Time) (requestId : Str)
    (hE : ∀ e, E e e) (hK : K {} {}) {f f' : Fragment} (h : FragmentsAgree E I K f f')
    (vars : LoopVars) : Prog.Relates Eq E (fun p q => p.1 = q.1 ∧ StatusesAgree I K p.2 q.2)
      (g.handleFragment auth now requestId vars f)
      (g.handleFragment auth now requestId vars f') := by
  unfold Gateway.handleFragment
  refine (Prog.relates_lift (enter_agree hE hK h _ vars)).bind fun entered entered' hentered => ?_
  cases hentered with
  | ungoverned vars => exact Prog.relates_pure ⟨rfl, bareStatus_agree hK h.id⟩
  | governed vars effective hhints =>
      dsimp only
      split
      · split
        · exact Prog.relates_raise (hE _)
        · exact Prog.relates_pure ⟨rfl, statusOf_agree h.id hhints _ _ _ _⟩
      · exact serve_agree g auth now requestId hE h vars hhints effective

/-- The loop does not tell fragments apart that agree. -/
theorem loop_agree (g : Gateway σ) (auth : AuthContext) (now : Time) (requestId : Str)
    (hE : ∀ e, E e e) (hK : K {} {}) {fs fs' : List Fragment}
    (h : List.Forall₂ (FragmentsAgree E I K) fs fs') :
    Prog.Relates Eq E (List.Forall₂ (StatusesAgree I K))
      (Prog.mapAccum (g.handleFragment auth now requestId) LoopVars.init fs)
      (Prog.mapAccum (g.handleFragment auth now requestId) LoopVars.init fs') :=
  Prog.relates_mapAccum (B := Eq) (fun vars vars' f f' hvars hf => by
    obtain rfl : vars = vars' := hvars
    exact handleFragment_agree g auth now requestId hE hK hf vars) h rfl

/-! ## Requests -/

structure ResultsAgree (I : Value → Value → Prop) (K : HintStatus → HintStatus → Prop)
    (r r' : Result) : Prop where
  statuses : List.Forall₂ (StatusesAgree I K) r.statuses r'.statuses
  strippedScopeFields : r.strippedScopeFields = r'.strippedScopeFields
  order : List.Forall₂ I r.order r'.order
  cacheSalt : r.cacheSalt = r'.cacheSalt

theorem handle_agree (g : Gateway σ) (auth : AuthContext) (now : Time) (requestId : Str)
    (hE : ∀ e, E e e) (hK : K {} {}) {fs fs' : List Fragment}
    (h : List.Forall₂ (FragmentsAgree E I K) fs fs')
    (hids : Prog.ExceptRel E (fun _ _ => True) (checkIds fs) (checkIds fs')) :
    Prog.Relates Eq E (ResultsAgree I K) (g.handle fs auth now requestId none false)
      (g.handle fs' auth now requestId none false) := by
  have hplan : ∀ fs : List Fragment, planOrder fs false = pure fs := fun _ => rfl
  unfold Gateway.handle
  rw [hplan, hplan]
  refine (Prog.relates_lift hids).bind fun _ _ _ => ?_
  refine (loop_agree g auth now requestId hE hK h).bind fun statuses statuses' hstatuses => ?_
  refine Prog.relates_pure ⟨hstatuses, rfl, ?_, rfl⟩
  rw [List.forall₂_map_left_iff, List.forall₂_map_right_iff]
  exact h.imp fun _ _ hf => hf.id

/-- A status without what it reports of the fragment's own identifier and hints. -/
def FragmentStatus.core (s : FragmentStatus) : FragmentStatus :=
  { s with id := .null, hints := {} }

theorem StatusesAgree.core {s s' : FragmentStatus} (h : StatusesAgree I K s s') :
    s.core = s'.core := by
  rw [← h.rest]
  rfl

theorem StatusesAgree.isGoverned {s s' : FragmentStatus} (h : StatusesAgree I K s s') :
    s.isGoverned = s'.isGoverned := by
  rw [← h.rest]
  rfl

theorem lowerStatus_agree {s s' : FragmentStatus} (h : StatusesAgree I K s s')
    (narrowest : Share) : StatusesAgree I K (lowerStatus narrowest s) (lowerStatus narrowest s') := by
  obtain ⟨hid, hhints, hrest⟩ := h
  rw [← hrest]
  unfold lowerStatus
  split
  · exact ⟨hid, hhints, rfl⟩
  · exact ⟨hid, hhints, rfl⟩

theorem narrowestShare_core (s : FragmentStatus) (ss : List FragmentStatus) :
    narrowestShare s.core (ss.map FragmentStatus.core) = narrowestShare s ss := by
  unfold narrowestShare
  rw [← List.map_cons, List.any_map, List.map_map]
  rfl

theorem lastNamespace_core (ss : List FragmentStatus) :
    lastNamespace (ss.map FragmentStatus.core) = lastNamespace ss := by
  unfold lastNamespace
  rw [← List.map_reverse, List.findSome?_map]
  rfl

theorem lowerRequestSalt_agree (backend : Backend σ) (auth : AuthContext) (requestId : Str)
    {ss ss' : List FragmentStatus} (h : List.Forall₂ (StatusesAgree I K) ss ss') :
    Prog.ExceptRel Eq (fun p q => p.1 = q.1 ∧ List.Forall₂ (StatusesAgree I K) p.2 q.2)
      (lowerRequestSalt backend ss auth requestId)
      (lowerRequestSalt backend ss' auth requestId) := by
  have hgoverned : List.Forall₂ (StatusesAgree I K) (ss.filter FragmentStatus.isGoverned)
      (ss'.filter FragmentStatus.isGoverned) := by
    induction h with
    | nil => exact .nil
    | cons hs _ ih =>
        rw [List.filter_cons, List.filter_cons, hs.isGoverned]
        split
        · exact .cons hs ih
        · exact ih
  unfold lowerRequestSalt
  cases backend.saltFor with
  | none => exact .ok ⟨rfl, h⟩
  | some saltFor =>
      generalize ss.filter FragmentStatus.isGoverned = governed at hgoverned ⊢
      generalize ss'.filter FragmentStatus.isGoverned = governed' at hgoverned ⊢
      cases hgoverned with
      | nil => exact .ok ⟨rfl, h⟩
      | @cons s s' gs gs' hs hgs =>
          have hcore : gs.map FragmentStatus.core = gs'.map FragmentStatus.core := by
            rw [← List.forall₂_eq_eq_eq, List.forall₂_map_left_iff, List.forall₂_map_right_iff]
            exact hgs.imp fun _ _ hagree => hagree.core
          have hnarrowest : narrowestShare s gs = narrowestShare s' gs' := by
            rw [← narrowestShare_core, hs.core, hcore, narrowestShare_core]
          have hnamespace : lastNamespace (s :: gs) = lastNamespace (s' :: gs') := by
            rw [← lastNamespace_core, List.map_cons, hs.core, hcore, ← List.map_cons,
              lastNamespace_core]
          dsimp only
          rw [hnarrowest, hnamespace]
          refine (Prog.exceptRel_refl (fun _ => rfl) (fun _ => rfl) _).bind fun salt _ hsalt => ?_
          refine .ok ⟨congrArg some hsalt, ?_⟩
          rw [List.forall₂_map_left_iff, List.forall₂_map_right_iff]
          refine h.imp fun t t' ht => ?_
          rw [ht.isGoverned]
          split
          · exact lowerStatus_agree ht _
          · exact ht

/-! ## Bodies -/

/-- Upstream receives the same up to the order of members, with results that
agree, or both bodies are rejected under one code. -/
inductive PreparedAgree (I : Value → Value → Prop) (K : HintStatus → HintStatus → Prop) :
    Prepared → Prepared → Prop
  | accepted {up up' : List (Str × Value)} {r r' : Result} :
      (Json.obj up).sorted = (Json.obj up').sorted → ResultsAgree I K r r' →
      PreparedAgree I K (.accepted up r) (.accepted up' r')
  | rejected (code : ErrorCode) (cause cause' : PyError) :
      PreparedAgree I K (.rejected code cause) (.rejected code cause')

theorem sorted_obj_inj {members members' : List (Str × Value)} :
    (Json.obj members).sorted = (Json.obj members').sorted ↔
      Json.sortedObj members = Json.sortedObj members' := by
  rw [Json.sorted_obj, Json.sorted_obj, Json.obj.injEq]

theorem finish_agree (backend : Backend σ) (auth : AuthContext) (requestId : Str)
    {members members' : List (Str × Value)}
    (hnames : ((stripBindingMembers members).1.map Prod.fst).Nodup)
    (hupstream : (Json.obj (stripBindingMembers members).1).sorted =
      (Json.obj (stripBindingMembers members').1).sorted) {r r' : Result}
    (h : ResultsAgree I K r r') : Prog.ExceptRel Eq (PreparedAgree I K)
      (finish backend members auth requestId r) (finish backend members' auth requestId r') := by
  unfold finish
  refine (lowerRequestSalt_agree backend auth requestId h.statuses).bind ?_
  rintro ⟨salt, ss⟩ ⟨salt', ss'⟩ ⟨heq, hss⟩
  obtain rfl : salt = salt' := heq
  refine .ok (.accepted ?_ ⟨hss, h.strippedScopeFields, h.order, rfl⟩)
  cases salt with
  | none => exact hupstream
  | some salt =>
      dsimp only
      rw [Json.set_of_notMem (cacheSalt_notMem members), Json.set_of_notMem (cacheSalt_notMem members'), sorted_obj_inj]
      have hall : (((stripBindingMembers members).1 ++ [(lit "cache_salt", Json.str salt)]).map
          Prod.fst).Nodup := by
        rw [List.map_append, List.nodup_append]
        refine ⟨hnames, by simp, fun k hk k' hk' heq => ?_⟩
        simp only [List.map_cons, List.map_nil, List.mem_singleton] at hk'
        exact cacheSalt_notMem members (hk' ▸ heq ▸ hk)
      rw [Json.sortedObj_eq_iff hall, List.map_append, List.map_append]
      exact ((Json.sortedObj_eq_iff hnames).mp (sorted_obj_inj.mp hupstream)).append_right _

theorem prepareFragments_agree (g : Gateway σ) (auth : AuthContext) (now : Time) (requestId : Str)
    (hK : K {} {}) {members members' : List (Str × Value)}
    (hnames : ((stripBindingMembers members).1.map Prod.fst).Nodup)
    (hupstream : (Json.obj (stripBindingMembers members).1).sorted =
      (Json.obj (stripBindingMembers members').1).sorted) {fs fs' : List Fragment}
    (h : List.Forall₂ (FragmentsAgree SameCode I K) fs fs')
    (hids : Prog.ExceptRel SameCode (fun _ _ => True) (checkIds fs) (checkIds fs')) :
    Prog.Relates Eq Eq (PreparedAgree I K) (prepareFragments g members fs auth now requestId)
      (prepareFragments g members' fs' auth now requestId) := by
  unfold prepareFragments
  refine (handle_agree g auth now requestId sameCode_refl hK h hids).attempt.bind ?_
  rintro _ _ (hr | he)
  · exact Prog.relates_lift (finish_agree g.backend auth requestId hnames hupstream hr)
  · rename_i e e'
    have hcode : handleErrorCode e = handleErrorCode e' := he
    dsimp only
    rw [hcode]
    exact Prog.relates_pure (.rejected _ _ _)

theorem prepareFragments_of_checkIds_error (g : Gateway σ) (members : List (Str × Value))
    {fs : List Fragment} {e : PyError} (h : checkIds fs = .error e) (auth : AuthContext)
    (now : Time) (requestId : Str) : prepareFragments g members fs auth now requestId =
      pure (.rejected (handleErrorCode e) e) := by
  have hplan : planOrder fs false = .ok fs := rfl
  have hhandle : g.handle fs auth now requestId none false = Prog.raise e := by
    unfold Gateway.handle
    rw [hplan, Prog.lift_ok_bind, h]
    rfl
  unfold prepareFragments
  rw [hhandle]
  rfl

theorem eq_of_statusesAgree {s s' : FragmentStatus} (h : StatusesAgree Eq Eq s s') : s = s' := by
  obtain ⟨hid, hhints, hrest⟩ := h
  rw [← hrest, ← hid, ← hhints]

theorem eq_of_resultsAgree {r r' : Result} (h : ResultsAgree Eq Eq r r') : r = r' := by
  obtain ⟨statuses, fields, order, salt⟩ := r
  obtain ⟨hstatuses, rfl, horder, rfl⟩ := h
  obtain rfl := List.forall₂_eq_eq_eq ▸ horder
  obtain rfl := List.forall₂_eq_eq_eq ▸ hstatuses.imp fun _ _ => eq_of_statusesAgree
  rfl

/-- Elements with the same defect, or objects that pass the same checks and make
fragments that agree. -/
inductive ElementsAgree (E : PyError → PyError → Prop) (I : Value → Value → Prop)
    (K : HintStatus → HintStatus → Prop) (kind : FragmentKind) : Value → Value → Prop
  | object {item item' : List (Str × Value)} :
      (∀ n, checkItem kind item n = checkItem kind item' n) →
      (∀ n, FragmentsAgree E I K (fragmentOf kind n item) (fragmentOf kind n item')) →
      ElementsAgree E I K kind (.obj item) (.obj item')
  | other {v v' : Value} : (∀ item, v ≠ .obj item) → (∀ item, v' ≠ .obj item) →
      ElementsAgree E I K kind v v'

theorem extractItems_other (kind : FragmentKind) (n : ℕ) {v : Value}
    (h : ∀ item, v ≠ .obj item) (items : List Value) :
    extractItems kind n (v :: items) = .error (.invalidBinding (.itemNotObject kind n)) := by
  cases v with
  | obj item => exact absurd rfl (h item)
  | _ => rfl

theorem extractItems_agree {kind : FragmentKind} {items items' : List Value}
    (h : List.Forall₂ (ElementsAgree E I K kind) items items') (n : ℕ) :
    Prog.ExceptRel Eq (List.Forall₂ (FragmentsAgree E I K)) (extractItems kind n items)
      (extractItems kind n items') := by
  induction h generalizing n with
  | nil => exact .ok .nil
  | @cons v v' items items' hv _ ih =>
      cases hv with
      | object hcheck hfragment =>
          rw [extractItems_obj, extractItems_obj, hcheck n]
          refine (Prog.exceptRel_refl (fun _ => rfl) (fun _ => rfl) _).bind fun _ _ _ => ?_
          exact (ih (n + 1)).bind fun fs fs' hfs => .ok (.cons (hfragment n) hfs)
      | other hv hv' =>
          rw [extractItems_other kind n hv, extractItems_other kind n hv']
          exact .error rfl

/-- What two bodies hold under the name of an array: nothing, arrays of elements
that agree, or values that fail the same check. -/
inductive ArraysAgree (D : Value → Value → Prop) : Option Value → Option Value → Prop
  | absent : ArraysAgree D none none
  | array {items items' : List Value} : List.Forall₂ D items items' →
      ArraysAgree D (some (.arr items)) (some (.arr items'))
  | other {v v' : Value} : (∀ items, v ≠ .arr items) → (∀ items, v' ≠ .arr items) →
      v.truthy = v'.truthy → ArraysAgree D (some v) (some v')

theorem itemsOf_agree {D : Value → Value → Prop} {kind : FragmentKind}
    {members members' : List (Str × Value)}
    (h : ArraysAgree D (Json.get? kind.array members) (Json.get? kind.array members')) :
    Prog.ExceptRel Eq (List.Forall₂ D) (itemsOf kind members) (itemsOf kind members') := by
  unfold itemsOf
  generalize Json.get? kind.array members = o at h ⊢
  generalize Json.get? kind.array members' = o' at h ⊢
  cases h with
  | absent => exact .ok .nil
  | array hitems =>
      cases hitems with
      | nil => exact .ok .nil
      | cons hv hitems => exact .ok (.cons hv hitems)
  | @other v v' hv hv' htruthy =>
      cases hb : v.truthy with
      | false =>
          have hb' : v'.truthy = false := htruthy ▸ hb
          simp only [Option.filter_some, hb, hb', Bool.false_eq_true, if_false]
          exact .ok .nil
      | true =>
          have hb' : v'.truthy = true := htruthy ▸ hb
          simp only [Option.filter_some, hb, hb', if_true]
          exact .error rfl

theorem extractFragments_agree {members members' : List (Str × Value)}
    (h : ∀ kind : FragmentKind, ArraysAgree (ElementsAgree E I K kind)
      (Json.get? kind.array members) (Json.get? kind.array members')) :
    Prog.ExceptRel Eq (List.Forall₂ (FragmentsAgree E I K)) (extractFragments (.obj members))
      (extractFragments (.obj members')) := by
  unfold extractFragments
  refine (itemsOf_agree (h .tool)).bind fun tools tools' htools => ?_
  refine (itemsOf_agree (h .message)).bind fun messages messages' hmessages => ?_
  refine (extractItems_agree htools 0).bind fun fs fs' hfs => ?_
  refine (extractItems_agree hmessages 0).bind fun gs gs' hgs => ?_
  exact .ok (List.rel_append hfs hgs)

end

end CacheControl

import CacheControl.Interchange
import CacheControl.Discovery
import CacheControl.Reference

/-!
# What a run can tell of an intent

Every member of an intent that is ever consulted is told by some run: the boundary,
the mode of retention, the hints and whether state is reused by the report of one
request, namespaces, similarity and bounds by what a later request finds.
-/

open PyText ExpiringStore

namespace CacheControl

section

variable [Runtime]

/-! ## Spelling constraints -/

def Retention.value (r : Retention) : Value :=
  .obj ((lit "mode", .str r.mode.word) :: r.maxAge.toList.map fun m => (lit "max_age", .int m))

def Constraints.value (c : Constraints) : Value :=
  .obj ([(lit "retention", c.retention.value), (lit "reuse", .str c.reuse.word),
    (lit "share_max", .str c.shareMax.word)] ++ c.ns.toList.map fun n => (lit "namespace", .str n))

/-- A document with these constraints and no hints. -/
def Constraints.text (c : Constraints) : Str :=
  intentDocument (.obj [(lit "version", .int 1), (lit "constraints", c.value)])

/-- The namespace, if there is one, is one the schema permits. -/
def Constraints.Named (c : Constraints) : Prop := ∀ n, c.ns = some n → 1 ≤ n.length ∧ n.length ≤ 256

omit [Runtime] in
theorem lit_inj {s t : String} : lit s = lit t ↔ s = t := by
  constructor
  · intro h
    exact String.toList_inj.mp (List.map_injective_iff.mpr (fun _ _ => CodePoint.scalar.inj) h)
  · rintro rfl
    rfl

theorem decodeRetention_value (r : Retention) : decodeRetention r.value = some r := by
  cases r with
  | allow m =>
      cases m <;> simp [Retention.value, decodeRetention, onlyMembers, Json.get?, Mode.word,
        decodeOptional, decodeNatural, lit_inj]
  | forbid =>
      simp [Retention.value, decodeRetention, onlyMembers, Json.get?, Mode.word, decodeOptional,
        lit_inj]

theorem decodeReuse_word (r : Reuse) : decodeReuse (.str r.word : Value) = some r := by
  cases r <;> simp [decodeReuse, Reuse.word, lit_inj]

theorem decodeShare_word (s : Share) : decodeShare (.str s.word : Value) = some s := by
  cases s <;> simp [decodeShare, Share.word, lit_inj]

theorem decodeConstraints_value {c : Constraints} (h : c.Named) :
    decodeConstraints c.value = some c := by
  obtain ⟨retention, reuse, share, ns⟩ := c
  cases ns with
  | none =>
      simp [Constraints.value, decodeConstraints, onlyMembers, Json.get?, lit_inj,
        decodeRetention_value, decodeReuse_word, decodeShare_word, decodeOptional]
  | some n =>
      have hname : decodeName (.str n : Value) = some n := if_pos (h n rfl)
      simp [Constraints.value, decodeConstraints, onlyMembers, Json.get?, lit_inj,
        decodeRetention_value, decodeReuse_word, decodeShare_word, decodeOptional, hname]

theorem decodeIntent_value {c : Constraints} (h : c.Named) :
    decodeIntent (.obj [(lit "version", .int 1), (lit "constraints", c.value)]) =
      some ⟨c, {}⟩ := by
  simp [decodeIntent, onlyMembers, Json.get?, lit_inj, isVersionOne, decodeOptional,
    decodeConstraints_value h]

omit [Runtime] in
/-- What can be encoded has no surrogates to join. -/
theorem joined_of_encodable {n : Str} (h : Encodable n) : Json.joined n = n := by
  have hscalars : Json.Scalars n := by
    obtain ⟨b, hb⟩ := h
    obtain ⟨cs, rfl, -⟩ := encode?_eq_some_iff.mp (encode_eq_ok_iff.mp hb)
    exact Json.scalars_map_scalar cs
  clear h
  induction n with
  | nil => rfl
  | cons p n ih =>
      rw [Json.joined_cons_of_not_isHigh fun hp => hscalars p (by simp) (.inl hp),
        ih fun q hq => hscalars q (by simp [hq])]

theorem unsplit_value {c : Constraints} (h : ∀ n, c.ns = some n → Encodable n) :
    Json.Unsplit c.value := by
  have hnames : ∀ w ∈ ["mode", "max_age", "retention", "reuse", "share_max", "namespace"],
      Json.joined (lit w) = lit w := by decide +kernel
  have hmode : Json.joined c.retention.mode.word = c.retention.mode.word := by
    cases c.retention.mode <;> decide +kernel
  have hreuse : Json.joined c.reuse.word = c.reuse.word := by cases c.reuse <;> decide +kernel
  have hshare : Json.joined c.shareMax.word = c.shareMax.word := by
    cases c.shareMax <;> decide +kernel
  have hstr : ∀ {w : Str}, Json.joined w = w → Json.Unsplit (.str w : Value) :=
    fun hw => congrArg Json.str hw
  have hint : ∀ n : ℤ, Json.Unsplit (.int n : Value) := fun _ => rfl
  have hretention : Json.Unsplit c.retention.value := by
    cases hage : c.retention.maxAge <;>
      simp [Retention.value, Json.unsplit_obj_iff, hnames, hstr hmode, hage, hint]
  cases hns : c.ns with
  | none =>
      simp [Constraints.value, Json.unsplit_obj_iff, hnames, hretention, hstr hreuse, hstr hshare,
        hns]
  | some n =>
      simp [Constraints.value, Json.unsplit_obj_iff, hnames, hretention, hstr hreuse, hstr hshare,
        hns, hstr (joined_of_encodable (h n hns))]

theorem distinct_value (c : Constraints) : c.value.Distinct := by
  have hretention : c.retention.value.Distinct := by
    cases hage : c.retention.maxAge <;>
      simp [Retention.value, Json.distinct_obj_iff, hage, lit_inj, Json.Distinct]
  cases hns : c.ns <;>
    simp [Constraints.value, Json.distinct_obj_iff, hretention, hns, lit_inj, Json.Distinct]

/-- Constraints are read back from their text. -/
theorem parseCacheIntent_text (hfloat : Json.FloatsReadBack Runtime.Float) {c : Constraints}
    (hnamed : c.Named) (henc : ∀ n, c.ns = some n → Encodable n) :
    parseCacheIntent c.text = .ok ⟨c, {}⟩ := by
  have hnames : ∀ w ∈ ["cache_intent", "version", "constraints"],
      Json.joined (lit w) = lit w := by decide +kernel
  have hunsplit : Json.Unsplit (.obj [(cacheIntentName,
      .obj [(lit "version", .int 1), (lit "constraints", c.value)])] : Value) := by
    have hint : Json.Unsplit (.int 1 : Value) := rfl
    simp [Json.unsplit_obj_iff, cacheIntentName, hnames, unsplit_value henc, hint]
  have hdistinct : (.obj [(cacheIntentName,
      .obj [(lit "version", .int 1), (lit "constraints", c.value)])] : Value).Distinct := by
    have hint : (.int 1 : Value).Distinct := trivial
    simp [Json.distinct_obj_iff, lit_inj, distinct_value c, hint]
  have hload := (loadsStrict_dumps hfloat (.obj [(cacheIntentName,
    .obj [(lit "version", .int 1), (lit "constraints", c.value)])])).1
  rw [hunsplit] at hload
  unfold parseCacheIntent Constraints.text intentDocument
  rw [hload hdistinct]
  simp [bind, Except.bind, checkVersion, validate, onlyMembers, Json.get?, cacheIntentName,
    decodeIntent_value hnamed]
  rfl

/-! ## One fragment -/

variable {mode : OnUnenforceable} {e : Effective} {contents ns : List Str} {partition k : Str}
  {now : Time} {approxClass : Option Str} {x : Option Time} {s t : Entries} {c : Call}
  {v : LoopVars} {f : Fragment} {text : Str} {i : Intent}

/-- What a lookup comes to where no similar input is asked for. -/
def outcomeAt (e : Effective) (s : Entries) (k : Str) (now : Time) : Outcome :=
  if e.reuse = .none then .bypass
  else if (eligible Entry.expiresAt s k now).isSome then .exactHit else .miss

def Effective.Stores (e : Effective) : Prop := e.retention.mode = .allow ∧ e.shareMax ≠ .request

instance (e : Effective) : Decidable e.Stores := inferInstanceAs (Decidable (_ ∧ _))

theorem exists_resolve (mode : OnUnenforceable) (e : Effective) (now : Time) (s : Entries)
    (hk : cacheKey execution contents ns partition true = .ok k)
    (hclass : e.reuse = .approximate → approxClass = none) :
    ∃ t, (inMemoryGateway mode).resolve e contents ns partition now approxClass s =
      (.ok (outcomeAt e s k now, false), t) ∧ Prunes Entry.expiresAt now s t := by
  have hwithin := (memoryBacked_inMemory mode).within_resolve e contents ns partition now
    approxClass s
  have hobserves : ¬¬(inMemoryGateway mode).backend.observesOutcomes = true :=
    not_not.mpr rfl
  obtain ⟨t, ht⟩ := get_apply k now s
  have hget : (inMemoryGateway mode).backend.get k now s =
      (.ok (eligible Entry.expiresAt s k now), t) := ht
  suffices h : ((inMemoryGateway mode).resolve e contents ns partition now approxClass s).1 =
      .ok (outcomeAt e s k now, false) from ⟨_, Prod.ext h rfl, hwithin⟩
  unfold Gateway.resolve outcomeAt
  rw [if_neg hobserves]
  by_cases hreuse : e.reuse = .none
  · rw [if_pos hreuse, if_pos hreuse]
    rfl
  rw [if_neg hreuse, if_neg hreuse, hk, Prog.lift_ok_bind, Prog.bind_of_ok hget]
  cases eligible Entry.expiresAt s k now with
  | some entry => rfl
  | none =>
      cases hr : e.reuse with
      | none => exact absurd hr hreuse
      | exact => rfl
      | approximate =>
          rw [hclass hr]
          rfl

/-- What is retained without a similarity class is stored under its key. -/
theorem retain_of_fresh {o : Outcome} (mode : OnUnenforceable) (s : Entries)
    (ho : o = .bypass ∨ o = .miss) (hk : cacheKey execution contents ns partition true = .ok k)
    (hx : e.Stores → InMemoryCache.expiry now e.retention.maxAge = .ok x) :
    (inMemoryGateway mode).retain o e contents ns partition now true none s =
      (.ok (retentionOf o e), if e.Stores then s.insert k ⟨k, now, x, true⟩ else s) := by
  have hretain : (inMemoryGateway mode).retain o e contents ns partition now true none s =
      (inMemoryGateway mode).materialize e contents ns partition now true none s := by
    rcases ho with rfl | rfl <;> rfl
  have hof : retentionOf o e = if e.retention.mode = .forbid then .forbidden
      else if e.shareMax = .request then .declined else .retained := by
    rcases ho with rfl | rfl <;> rfl
  rw [hretain, hof]
  unfold Gateway.materialize
  cases hmode : e.retention.mode with
  | forbid => simp [Effective.Stores, hmode]
  | allow =>
      by_cases hshare : e.shareMax = .request
      · simp [Effective.Stores, hshare]
      · have hstores : e.Stores := ⟨hmode, hshare⟩
        have hput : (inMemoryGateway mode).backend.put k now e.retention.maxAge true s =
            (.ok (some ⟨k, now, x, true⟩), s.insert k ⟨k, now, x, true⟩) :=
          put_apply (hx hstores) s
        rw [if_neg (by simp), if_neg hshare, if_neg (by simp), if_neg hshare, if_pos hstores, hk,
          Prog.lift_ok_bind, Prog.bind_of_ok hput]
        rfl

/-- The loop variables behind a fragment with this intent. -/
def LoopVars.behind (v : LoopVars) (f : Fragment) (i : Intent) : LoopVars where
  constraintsSoFar := v.constraintsSoFar ++ [i.constraints]
  namespacesSoFar := v.namespacesSoFar ++ i.constraints.ns.toList
  contentsSoFar := v.contentsSoFar ++ [f.content]
  taintedApproximate := v.taintedApproximate

theorem turn_of_bare (mode : OnUnenforceable) (s : Entries) (htext : f.intentJson = none)
    (hv : v.constraintsSoFar = []) : (inMemoryGateway mode).turn c v f s =
      (.ok ({ v with contentsSoFar := v.contentsSoFar ++ [f.content] }, Gateway.bareStatus f),
        s) := by
  unfold Gateway.turn Gateway.handleFragment enter
  simp [htext, hv, pure, Except.pure, Prog.lift, bind]

theorem turn_of_governed (mode : OnUnenforceable) (htext : f.intentJson = some text)
    (hparse : parseCacheIntent text = .ok i)
    (hcompose : compose (v.behind f i).constraintsSoFar = .ok e) :
    (inMemoryGateway mode).turn c v f = (inMemoryGateway mode).serve c.auth c.now c.requestId f
      (v.behind f i) (hintStatus inMemoryBackend.capabilities i.hints) e := by
  have henter : enter (inMemoryGateway mode).backend.capabilities v f = .ok (.governed
      (v.behind f i) (hintStatus inMemoryBackend.capabilities i.hints) e) := by
    have hcompose' : compose (v.constraintsSoFar ++ [i.constraints]) = .ok e := hcompose
    unfold enter
    simp only [htext, hparse, bind, Except.bind, hcompose']
    rfl
  have hcheck : checkEnforceable (inMemoryGateway mode).backend.capabilities e = .ok () :=
    checkEnforceable_inMemory e
  unfold Gateway.turn Gateway.handleFragment
  rw [henter, Prog.lift_ok_bind]
  simp only [hcheck]

theorem turn_of_unencodable (mode : OnUnenforceable) (s : Entries)
    (htext : f.intentJson = some text) (hparse : parseCacheIntent text = .ok i)
    (henc : ¬∀ n, i.constraints.ns = some n → Encodable n) :
    ∃ err, (inMemoryGateway mode).turn c v f s = (.error err, s) := by
  have hne : v.constraintsSoFar ++ [i.constraints] ≠ [] := by simp
  rcases compose_cases hne with ⟨-, hall⟩ | ⟨herror, -⟩
  · exact absurd (hall i.constraints (by simp)) henc
  · have henter : enter (inMemoryGateway mode).backend.capabilities v f =
        .error .unicodeEncodeError := by
      unfold enter
      simp only [htext, hparse, bind, Except.bind, herror]
    refine ⟨.unicodeEncodeError, ?_⟩
    unfold Gateway.turn Gateway.handleFragment
    rw [henter]
    rfl

omit [Runtime] in
theorem eligible_insert {κ τ ν : Type} [DecidableEq κ] [LinearOrder τ] (deadline : ν → Option τ)
    (u : Store κ ν) (j k : κ) (entry : ν) (later : τ) :
    eligible deadline (u.insert k entry) j later =
      if j = k then if Expired (deadline entry) later then none else some entry
      else eligible deadline u j later := by
  by_cases hj : j = k
  · subst hj
    by_cases hexpired : Expired (deadline entry) later <;>
      simp [eligible, hexpired, Option.filter]
  · simp [eligible, lookup_insert_ne u hj, hj]

/-- How a fragment without a similarity class is served, and what is found behind it. -/
theorem exists_turn (mode : OnUnenforceable) (s : Entries) (htext : f.intentJson = some text)
    (hparse : parseCacheIntent text = .ok i) (hclass : f.approxClass = none)
    (hv : v.taintedApproximate = false)
    (hcompose : compose (v.behind f i).constraintsSoFar = .ok e)
    (hk : cacheKey execution (v.behind f i).contentsSoFar (v.behind f i).namespacesSoFar
      (partitionFor e.shareMax c.auth c.requestId) true = .ok k)
    (hx : e.Stores → InMemoryCache.expiry c.now e.retention.maxAge = .ok x) :
    ∃ t, (inMemoryGateway mode).turn c v f s = (.ok (v.behind f i, Gateway.statusOf f e
        (hintStatus inMemoryBackend.capabilities i.hints) (outcomeAt e s k c.now)
        (retentionOf (outcomeAt e s k c.now) e) true), t) ∧
      ∀ j later, c.now ≤ later → eligible Entry.expiresAt t j later =
        if outcomeAt e s k c.now ≠ .exactHit ∧ e.Stores ∧ j = k then
          if Expired x later then none else some ⟨k, c.now, x, true⟩
        else eligible Entry.expiresAt s j later := by
  obtain ⟨u, hresolve, hprunes⟩ := exists_resolve mode e c.now s hk fun _ => hclass
  have hflag : ((v.behind f i).taintedApproximate || false) = false := by
    simp [LoopVars.behind, hv]
  have hserve : ∀ {o r t}, (inMemoryGateway mode).resolve e (v.behind f i).contentsSoFar
      (v.behind f i).namespacesSoFar (partitionFor e.shareMax c.auth c.requestId) c.now
        f.approxClass s = (.ok (o, false), u) →
      (inMemoryGateway mode).retain o e (v.behind f i).contentsSoFar (v.behind f i).namespacesSoFar
        (partitionFor e.shareMax c.auth c.requestId) c.now true none u = (.ok r, t) →
      (inMemoryGateway mode).serve c.auth c.now c.requestId f (v.behind f i)
        (hintStatus inMemoryBackend.capabilities i.hints) e s = (.ok (v.behind f i,
          Gateway.statusOf f e (hintStatus inMemoryBackend.capabilities i.hints) o r true), t) := by
    intro o r t hres hret
    rw [serve_of_ok hres (by rw [hflag, hclass]; exact hret), hflag]
    simp [LoopVars.behind, hv]
  rw [turn_of_governed mode htext hparse hcompose]
  by_cases hhit : outcomeAt e s k c.now = .exactHit
  · rw [hhit] at hresolve ⊢
    refine ⟨u, hserve hresolve rfl, fun j later hle => ?_⟩
    rw [hprunes.eligible_eq hle]
    simp
  · have hfresh : outcomeAt e s k c.now = .bypass ∨ outcomeAt e s k c.now = .miss := by
      unfold outcomeAt at hhit ⊢
      split
      · exact .inl rfl
      · split
        · rename_i hreuse hfound
          rw [if_neg hreuse, if_pos hfound] at hhit
          exact absurd rfl hhit
        · exact .inr rfl
    refine ⟨_, hserve hresolve (retain_of_fresh mode u hfresh hk hx), fun j later hle => ?_⟩
    by_cases hstores : e.Stores
    · rw [if_pos hstores, eligible_insert, hprunes.eligible_eq hle]
      simp [hhit, hstores]
    · rw [if_neg hstores, hprunes.eligible_eq hle]
      simp [hstores]

/-! ## Probes -/

/-- A request of one caller. -/
def probe (now : Time) (fragments : List Fragment) : Call where
  fragments := fragments
  auth := alice
  now := now
  requestId := lit "req-1"

def piece (content : String) (intent : Option Str) (approxClass : Option Str) : Fragment :=
  ⟨.null, lit content, intent, approxClass⟩

/-- The widest constraints with this retention. -/
def wide (r : Retention) : Constraints := ⟨r, .approximate, .public, none⟩

theorem parse_wide (hfloat : Json.FloatsReadBack Runtime.Float) (r : Retention) :
    parseCacheIntent (wide r).text = .ok ⟨wide r, {}⟩ := by
  refine parseCacheIntent_text hfloat ?_ ?_
  · rintro n ⟨⟩
  · rintro n ⟨⟩

theorem ordered_probe {now : Time} {fs : List Fragment} (h : ∀ f ∈ fs, f.id = .null) :
    (probe now fs).ordered = .ok fs := by
  have hids : (fs.map Fragment.id).filter (fun v => ¬ isNull v) = [] := by
    rw [List.filter_eq_nil_iff, List.forall_mem_map]
    intro f hf
    rw [h f hf]
    simp [isNull]
  have hcheck : checkIds fs = .ok () := by
    unfold checkIds
    rw [hids]
    rfl
  unfold Call.ordered
  show planOrder fs false >>= _ = _
  have hplan : planOrder fs false = .ok fs := rfl
  rw [hplan]
  show checkIds fs >>= _ = _
  rw [hcheck]
  rfl

theorem answer_of_loop {g : Gateway Entries} {fs : List Fragment} {sts : List FragmentStatus}
    (hord : c.ordered = .ok fs)
    (hloop : Prog.mapAccum (g.turn c) LoopVars.init fs s = (.ok sts, t)) :
    ∃ r, g.answer c s = (.ok r, t) ∧ r.statuses = sts := by
  rw [answer_eq, hord, Prog.lift_ok_bind, Prog.bind_of_ok hloop]
  exact ⟨_, rfl, rfl⟩

theorem answer_of_loop_error {g : Gateway Entries} {fs : List Fragment} {err : PyError}
    (hord : c.ordered = .ok fs)
    (hloop : Prog.mapAccum (g.turn c) LoopVars.init fs s = (.error err, t)) :
    g.answer c s = (.error err, t) := by
  rw [answer_eq, hord, Prog.lift_ok_bind, Prog.bind_of_error hloop]

theorem loop_one {g : Gateway Entries} {st : FragmentStatus} {v w : LoopVars}
    (h : g.turn c v f s = (.ok (w, st), t)) :
    Prog.mapAccum (g.turn c) v [f] s = (.ok [st], t) := by
  rw [Prog.mapAccum_cons_of_ok h]
  rfl

theorem loop_two {g : Gateway Entries} {f₁ f₂ : Fragment} {st₁ st₂ : FragmentStatus}
    {u : Entries} {v w w' : LoopVars} (h₁ : g.turn c v f₁ s = (.ok (w, st₁), t))
    (h₂ : g.turn c w f₂ t = (.ok (w', st₂), u)) :
    Prog.mapAccum (g.turn c) v [f₁, f₂] s = (.ok [st₁, st₂], u) := by
  rw [Prog.mapAccum_cons_of_ok h₁, Prog.bind_of_ok (loop_one h₂)]
  rfl

/-- Alone, or behind the widest constraints, constraints compose to their own boundary
and reuse. -/
theorem compose_wide (r : Retention) {d : Constraints}
    (henc : ∀ n, d.ns = some n → Encodable n) : ∃ identity,
      namespaceDigest d.ns.toList = .ok identity ∧
      compose [d] = .ok ⟨composeRetention [d.retention], d.reuse, d.shareMax, identity⟩ ∧
      compose [wide r, d] =
        .ok ⟨composeRetention [r, d.retention], d.reuse, d.shareMax, identity⟩ := by
  have hone : [d].filterMap Constraints.ns = d.ns.toList := by cases h : d.ns <;> simp [h]
  have htwo : [wide r, d].filterMap Constraints.ns = d.ns.toList := by
    cases h : d.ns <;> simp [h, wide]
  rcases namespaceDigest_cases d.ns.toList with ⟨⟨identity, hd⟩, -⟩ | ⟨-, hnot⟩
  · refine ⟨identity, hd, ?_, ?_⟩
    · rw [compose, namespaceIdentity_map_some, hone, hd]
      rfl
    · rw [compose, namespaceIdentity_map_some, htwo, hd]
      have hreuse : composeReuse (wide r).reuse [d.reuse] = d.reuse := by
        cases d.reuse <;> rfl
      have hshare : intersectShareMax (wide r).shareMax [d.shareMax] = d.shareMax := by
        cases d.shareMax <;> rfl
      simp only [bind, Except.bind, List.map_cons, List.map_nil, hreuse, hshare]
      rfl
  · refine absurd (fun n hn => henc n ?_) hnot
    simpa using hn

omit [Runtime] in
theorem encodable_one (content : String) : ∀ c ∈ [lit content], Encodable c := by
  simpa using encodable_lit content

omit [Runtime] in
theorem encodable_xy : ∀ c ∈ [lit "x", lit "y"], Encodable c := by
  simpa using ⟨encodable_lit "x", encodable_lit "y"⟩

theorem exists_key {contents : List Str} (hcontents : ∀ c ∈ contents, Encodable c)
    (ns : Option Str) (henc : ∀ n, ns = some n → Encodable n) (b : Share) (exact : Bool) :
    ∃ k, cacheKey execution contents ns.toList (partitionFor b alice (lit "req-1")) exact =
      .ok k := by
  have hpartition : Encodable (partitionFor b alice (lit "req-1")) :=
    encodable_partitionFor (encodable_lit "acme") (encodable_lit "alice") (encodable_lit "s-acme")
      (encodable_lit "req-1") b
  refine exists_cacheKey hpartition ?_ hcontents exact
  rcases namespaceDigest_cases ns.toList with ⟨hd, -⟩ | ⟨-, hnot⟩
  · exact hd
  · refine absurd (fun n hn => henc n ?_) hnot
    simpa using hn

/-! ## What a report tells -/

omit [Runtime] in
theorem outcome_of_word {o o' : Outcome} (h : o.word = o'.word) : o = o' := by
  cases o <;> cases o' <;> simp [Outcome.word, lit_inj] at h ⊢

omit [Runtime] in
theorem share_of_word {b b' : Share} (h : b.word = b'.word) : b = b' := by
  cases b <;> cases b' <;> simp [Share.word, lit_inj] at h ⊢

omit [Runtime] in
theorem retentionStatus_of_word {r r' : RetentionStatus} (h : r.word = r'.word) : r = r' := by
  cases r <;> cases r' <;> simp [RetentionStatus.word, lit_inj] at h ⊢

omit [Runtime] in
theorem hintOutcome_of_word {o o' : HintOutcome} (h : o.word = o'.word) : o = o' := by
  cases o <;> cases o' <;> simp [HintOutcome.word, lit_inj] at h ⊢

/-- The members of an entry, told from the entry. -/
structure SameReport (st st' : FragmentStatus) : Prop where
  outcome : st.outcome = st'.outcome
  effectiveShare : st.effectiveShare = st'.effectiveShare
  retention : st.retention = st'.retention
  hints : st.hints = st'.hints

theorem sameReport_of_entry {st st' : FragmentStatus} (hid : st.id = .null)
    (hid' : st'.id = .null) (h : st.entry = st'.entry) : SameReport st st' := by
  rw [entry_eq, entry_eq, hid, hid'] at h
  simp only [isNull, if_true, List.nil_append] at h
  obtain ⟨hcommon, hhints⟩ := List.append_inj h rfl
  simp only [FragmentStatus.common, List.cons.injEq, Prod.mk.injEq, Json.str.injEq, true_and,
    and_true] at hcommon
  obtain ⟨houtcome, hshare, hretention⟩ := hcommon
  refine ⟨outcome_of_word houtcome, share_of_word hshare, retentionStatus_of_word hretention, ?_⟩
  rcases hst : st.hints with ⟨within⟩
  rcases hst' : st'.hints with ⟨within'⟩
  rw [hst, hst'] at hhints
  cases within with
  | none => cases within' <;> simp [HintStatus.pairs] at hhints ⊢
  | some o =>
      cases within' with
      | none => simp [HintStatus.pairs] at hhints
      | some o' =>
          simp only [HintStatus.pairs, Option.toList_some, List.map_cons, List.map_nil,
            List.isEmpty_cons, Bool.false_eq_true, if_false, List.cons.injEq, Prod.mk.injEq,
            true_and, and_true, Json.obj.injEq, Json.str.injEq] at hhints
          rw [hintOutcome_of_word hhints]

theorem sameReport_of_reported {r r' : Result} (h : reported (.ok r) = reported (.ok r'))
    (n : ℕ) {st st' : FragmentStatus} (hst : r.statuses[n]? = some st)
    (hst' : r'.statuses[n]? = some st') (hid : st.id = .null) (hid' : st'.id = .null) :
    SameReport st st' := by
  have hdoc : r.asCacheStatus = r'.asCacheStatus := Except.ok.inj h
  simp only [Result.asCacheStatus, List.cons.injEq, Prod.mk.injEq, Json.arr.injEq, true_and,
    and_true] at hdoc
  have hat := congrArg (fun l => l[n]?) hdoc
  simp only [List.getElem?_map, hst, hst', Option.map_some, Option.some.injEq, Json.obj.injEq]
    at hat
  exact sameReport_of_entry hid hid' hat

/-! ## The probing requests -/

section

variable {text' : Str} {i' : Intent}

omit [Runtime] in
theorem composeRetention_one (r : Retention) : composeRetention [r] = r := by
  cases r with
  | allow m => cases m <;> rfl
  | forbid => rfl

omit [Runtime] in
theorem composeRetention_zero (r : Retention) : composeRetention [.allow (some 0), r] =
    if r.mode = .forbid then .forbid else .allow (some 0) := by
  cases r with
  | allow m =>
      cases m with
      | none => rfl
      | some n => simp [composeRetention, composeMaxAge, List.reduceOption]
  | forbid => rfl

theorem expiry_zero (now : Time) :
    InMemoryCache.expiry now (some 0) = .ok (some now) := by
  rw [InMemoryCache.expiry, Runtime.plus_zero]

/-- The intent behind the widest constraints. -/
def behindWide (now : Time) (r : Retention) (text : Str) (approxClass : Option Str) : Call :=
  probe now [piece "x" (some (wide r).text) none, piece "y" (some text) approxClass]

theorem ordered_behindWide (now : Time) (r : Retention) (text : Str) (approxClass : Option Str) :
    (behindWide now r text approxClass).ordered = .ok
      [piece "x" (some (wide r).text) none, piece "y" (some text) approxClass] := by
  refine ordered_probe fun f hf => ?_
  simp only [List.mem_cons, List.not_mem_nil, or_false] at hf
  rcases hf with rfl | rfl <;> rfl

/-- A fragment behind which nothing is found that was not found in front of it. -/
theorem exists_turn_wide (hfloat : Json.FloatsReadBack Runtime.Float) (mode : OnUnenforceable)
    (now : Time) (text : Str) (approxClass : Option Str) (s : Entries) {r : Retention}
    (hr : r = .allow (some 0) ∨ r = .forbid) :
    ∃ st t, (inMemoryGateway mode).turn (behindWide now r text approxClass) .init
        (piece "x" (some (wide r).text) none) s =
          (.ok (LoopVars.init.behind (piece "x" (some (wide r).text) none) ⟨wide r, {}⟩, st), t) ∧
      ∀ j, eligible Entry.expiresAt t j now = eligible Entry.expiresAt s j now := by
  obtain ⟨identity, hd, hcompose, -⟩ := compose_wide r (d := wide r) (by rintro n ⟨⟩)
  rw [composeRetention_one] at hcompose
  obtain ⟨k, hk⟩ := exists_key (encodable_one "x") none (by rintro n ⟨⟩) .public true
  have hx : (⟨r, .approximate, .public, identity⟩ : Effective).Stores →
      InMemoryCache.expiry now r.maxAge = .ok (some now) := by
    rintro ⟨hallow, -⟩
    rcases hr with rfl | rfl
    · exact expiry_zero now
    · cases hallow
  obtain ⟨t, hturn, hfound⟩ := exists_turn mode s rfl (parse_wide hfloat r) rfl rfl
    (v := .init) (c := behindWide now r text approxClass)
    (f := piece "x" (some (wide r).text) none) hcompose hk hx
  refine ⟨_, t, hturn, fun j => ?_⟩
  rw [hfound j now le_rfl]
  split
  · rename_i hfresh
    obtain ⟨hmiss, -, rfl⟩ := hfresh
    rw [if_pos (expired_some.mpr le_rfl)]
    cases hj : eligible Entry.expiresAt s j now with
    | none => rfl
    | some entry =>
        refine absurd ?_ hmiss
        show outcomeAt _ s j now = _
        simp [outcomeAt, wide, hj]
  · rfl

/-- How the fragment with the intent `i` is served in front of the store `s`, with state
that has expired at once. -/
structure Served (i : Intent) (k : Str) (now : Time) (s t : Entries) (st : FragmentStatus) :
    Prop where
  id : st.id = .null
  outcome : st.outcome = if i.constraints.reuse = .none then .bypass
    else if (eligible Entry.expiresAt s k now).isSome then .exactHit else .miss
  effectiveShare : st.effectiveShare = i.constraints.shareMax
  retention : st.outcome ≠ .exactHit → (st.retention = .forbidden ↔
    i.constraints.retention.mode = .forbid)
  hints : st.hints = hintStatus inMemoryBackend.capabilities i.hints
  kept : ∀ j, j ≠ k → eligible Entry.expiresAt t j now = eligible Entry.expiresAt s j now
  lost : st.outcome ≠ .exactHit → i.constraints.retention.mode = .allow →
    i.constraints.shareMax ≠ .request → eligible Entry.expiresAt t k now = none

theorem exists_answer_behindWide (hfloat : Json.FloatsReadBack Runtime.Float)
    (mode : OnUnenforceable) (now : Time) (s : Entries) (hparse : parseCacheIntent text = .ok i)
    (henc : ∀ n, i.constraints.ns = some n → Encodable n) :
    ∃ r t st₁ st k, (inMemoryGateway mode).answer
        (behindWide now (.allow (some 0)) text none) s = (.ok r, t) ∧ r.statuses = [st₁, st] ∧
      cacheKey execution [lit "x", lit "y"] i.constraints.ns.toList
        (partitionFor i.constraints.shareMax alice (lit "req-1")) true = .ok k ∧
      Served i k now s t st := by
  obtain ⟨st₁, u, hfirst, hsame⟩ := exists_turn_wide hfloat mode now text none s (.inl rfl)
  obtain ⟨identity, hd, -, hcompose⟩ := compose_wide (.allow (some 0)) henc
  obtain ⟨k, hk⟩ := exists_key encodable_xy _ henc i.constraints.shareMax true
  have hx : (⟨composeRetention [.allow (some 0), i.constraints.retention], i.constraints.reuse,
      i.constraints.shareMax, identity⟩ : Effective).Stores → InMemoryCache.expiry now
        (composeRetention [.allow (some 0), i.constraints.retention]).maxAge =
          .ok (some now) := by
    rintro ⟨hallow, -⟩
    simp only [composeRetention_zero] at hallow ⊢
    split at hallow
    · cases hallow
    · rename_i hmode
      rw [if_neg hmode]
      exact expiry_zero now
  obtain ⟨t, hsecond, hfound⟩ := exists_turn mode u rfl hparse rfl rfl
    (c := behindWide now (.allow (some 0)) text none)
    (v := LoopVars.init.behind (piece "x" (some (wide (.allow (some 0))).text) none)
      ⟨wide (.allow (some 0)), {}⟩) (f := piece "y" (some text) none) hcompose hk hx
  obtain ⟨r, hanswer, hstatuses⟩ := answer_of_loop (ordered_behindWide now _ text none)
    (loop_two hfirst hsecond)
  refine ⟨r, t, st₁, _, k, hanswer, hstatuses, hk, ?_⟩
  have hmode : (composeRetention [.allow (some 0), i.constraints.retention]).mode =
      i.constraints.retention.mode := by
    rw [composeRetention_zero]
    cases hm : i.constraints.retention.mode <;> simp
  refine ⟨rfl, ?_, rfl, fun hmiss => ?_, rfl, fun j hj => ?_, fun hmiss hallow hshare => ?_⟩
  · show outcomeAt _ u k now = _
    unfold outcomeAt
    rw [hsame]
  · show retentionOf _ _ = _ ↔ _
    rw [retentionOf_eq_forbidden_iff, hmode]
    exact and_iff_left hmiss
  · rw [hfound j now le_rfl, if_neg fun h => hj h.2.2]
    exact hsame j
  · have hstores : (⟨composeRetention [.allow (some 0), i.constraints.retention],
        i.constraints.reuse, i.constraints.shareMax, identity⟩ : Effective).Stores :=
      ⟨hmode.trans hallow, hshare⟩
    rw [hfound k now le_rfl, if_pos ⟨hmiss, hstores, rfl⟩, if_pos (expired_some.mpr le_rfl)]

theorem error_behindWide (hfloat : Json.FloatsReadBack Runtime.Float) (mode : OnUnenforceable)
    (now : Time) (s : Entries) (hparse : parseCacheIntent text = .ok i)
    (henc : ¬∀ n, i.constraints.ns = some n → Encodable n) : ∃ err t,
      (inMemoryGateway mode).answer (behindWide now (.allow (some 0)) text none) s =
        (.error err, t) := by
  obtain ⟨st₁, u, hfirst, -⟩ := exists_turn_wide hfloat mode now text none s (.inl rfl)
  obtain ⟨err, hsecond⟩ := turn_of_unencodable mode u (f := piece "y" (some text) none) rfl hparse
    henc (c := behindWide now (.allow (some 0)) text none)
    (v := LoopVars.init.behind (piece "x" (some (wide (.allow (some 0))).text) none)
      ⟨wide (.allow (some 0)), {}⟩)
  refine ⟨err, u, answer_of_loop_error (ordered_behindWide now _ text none) ?_⟩
  rw [Prog.mapAccum_cons_of_ok hfirst]
  exact Prog.bind_of_error (Prog.mapAccum_cons_of_error hsecond)

theorem exchanges_behindWide (now : Time) (r : Retention) (text text' : Str)
    (approxClass : Option Str) : Exchanges text text' (behindWide now r text approxClass)
      (behindWide now r text' approxClass) :=
  ⟨.cons (.same _) (.cons (.exchanged _ rfl) .nil), rfl⟩

theorem exchanges_refl (text text' : Str) (c : Call) : Exchanges text text' c c :=
  ⟨List.forall₂_same.mpr fun f _ => .same f, rfl⟩

theorem Interchangeable.symm (h : Interchangeable text text') : Interchangeable text' text := by
  intro mode calls calls' hcalls hclass
  have hback : ∀ {f f'}, Exchanged text' text f f' → Exchanged text text' f' f ∧
      f'.approxClass = f.approxClass := by
    rintro f f' hf
    cases hf with
    | same => exact ⟨.same f, rfl⟩
    | exchanged htext =>
        obtain ⟨id, content, intentJson, approxClass⟩ := f
        cases htext
        exact ⟨.exchanged _ rfl, rfl⟩
  refine (h mode calls' calls ?_ ?_).symm
  · refine (hcalls.imp fun c d hcd => ?_).flip
    refine ⟨(hcd.fragments.imp fun _ _ hf => (hback hf).1).flip, ?_⟩
    rw [hcd.rest]
  · intro d hd f hf
    obtain ⟨c, hc, hcd⟩ := (exists_mem_of_forall₂ hcalls).2 d hd
    obtain ⟨f', hf', hff⟩ := (exists_mem_of_forall₂ hcd.fragments).2 f hf
    rw [(hback hff).2]
    exact hclass c hc f' hf'

/-- Intents that no run tells apart are reported alike in one request. -/
theorem Interchangeable.report (hfloat : Json.FloatsReadBack Runtime.Float)
    (h : Interchangeable text text') (hparse : parseCacheIntent text = .ok i)
    (hparse' : parseCacheIntent text' = .ok i')
    (henc : ∀ n, i.constraints.ns = some n → Encodable n) (now : Time) :
    (∀ n, i'.constraints.ns = some n → Encodable n) ∧
      hintStatus inMemoryBackend.capabilities i.hints =
        hintStatus inMemoryBackend.capabilities i'.hints ∧
      i.constraints.shareMax = i'.constraints.shareMax ∧
      i.constraints.retention.mode = i'.constraints.retention.mode ∧
      (i.constraints.reuse = .none ↔ i'.constraints.reuse = .none) := by
  have hsame := h .bypass [behindWide now (.allow (some 0)) text none]
    [behindWide now (.allow (some 0)) text' none]
    (.cons (exchanges_behindWide now _ text text' none) .nil) (by
      intro c hc f hf k hk
      rw [List.mem_singleton.mp hc] at hf
      simp only [behindWide, probe, List.mem_cons, List.not_mem_nil, or_false] at hf
      rcases hf with rfl | rfl <;> cases hk)
  simp only [Gateway.run, Prog.session_cons_fst, Prog.session_nil, List.map_cons, List.map_nil,
    List.cons.injEq, and_true] at hsame
  obtain ⟨r, t, st₁, st, k, hanswer, hstatuses, -, hserved⟩ :=
    exists_answer_behindWide hfloat .bypass now ∅ hparse henc
  by_cases henc' : ∀ n, i'.constraints.ns = some n → Encodable n
  · obtain ⟨r', t', st₁', st', k', hanswer', hstatuses', -, hserved'⟩ :=
      exists_answer_behindWide hfloat .bypass now ∅ hparse' henc'
    rw [hanswer, hanswer'] at hsame
    have hreport := sameReport_of_reported hsame 1
      (by rw [hstatuses]; rfl) (by rw [hstatuses']; rfl) hserved.id hserved'.id
    have hnone : ∀ k, eligible Entry.expiresAt (∅ : Entries) k now = none := by
      intro k
      simp [eligible]
    have hmiss : st.outcome ≠ .exactHit := by
      rw [hserved.outcome, hnone]
      split <;> simp
    have hmiss' : st'.outcome ≠ .exactHit := hreport.outcome ▸ hmiss
    refine ⟨henc', ?_, ?_, ?_, ?_⟩
    · rw [← hserved.hints, hreport.hints, hserved'.hints]
    · rw [← hserved.effectiveShare, hreport.effectiveShare, hserved'.effectiveShare]
    · have hforbid : i.constraints.retention.mode = .forbid ↔
          i'.constraints.retention.mode = .forbid := by
        rw [← hserved.retention hmiss, hreport.retention, hserved'.retention hmiss']
      cases hm : i.constraints.retention.mode <;> cases hm' : i'.constraints.retention.mode <;>
        simp_all
    · have houtcome := hreport.outcome
      rw [hserved.outcome, hserved'.outcome, hnone, hnone] at houtcome
      by_cases hr : i.constraints.reuse = .none <;> by_cases hr' : i'.constraints.reuse = .none <;>
        simp_all
  · obtain ⟨err, t', herror⟩ := error_behindWide hfloat .bypass now ∅ hparse' henc'
    rw [hanswer, herror] at hsame
    cases hsame

/-- Constraints of this boundary and namespace that keep what they compute. -/
def keeper (b : Share) (ns : Option Str) : Constraints := ⟨.allow none, .exact, b, ns⟩

theorem parse_keeper (hfloat : Json.FloatsReadBack Runtime.Float) (b : Share) {ns : Option Str}
    (hnamed : ∀ n, ns = some n → 1 ≤ n.length ∧ n.length ≤ 256)
    (henc : ∀ n, ns = some n → Encodable n) :
    parseCacheIntent (keeper b ns).text = .ok ⟨keeper b ns, {}⟩ :=
  parseCacheIntent_text hfloat hnamed henc

/-- The keeping constraints behind a fragment without an intent. -/
def behindBare (now : Time) (b : Share) (ns : Option Str) : Call :=
  probe now [piece "x" none none, piece "y" (some (keeper b ns).text) none]

/-- The call tells whether its prefix was stored, and stores it. -/
theorem exists_answer_behindBare (hfloat : Json.FloatsReadBack Runtime.Float)
    (mode : OnUnenforceable) (now : Time) (s : Entries) {b : Share} {ns : Option Str}
    (hb : b ≠ .request) (hnamed : ∀ n, ns = some n → 1 ≤ n.length ∧ n.length ≤ 256)
    (henc : ∀ n, ns = some n → Encodable n) {k : Str}
    (hk : cacheKey execution [lit "x", lit "y"] ns.toList (partitionFor b alice (lit "req-1"))
      true = .ok k) :
    ∃ r t st₁ st, (inMemoryGateway mode).answer (behindBare now b ns) s = (.ok r, t) ∧
      r.statuses = [st₁, st] ∧ st.id = .null ∧
      st.outcome = (if (eligible Entry.expiresAt s k now).isSome then .exactHit else .miss) ∧
      (eligible Entry.expiresAt t k now).isSome ∧
      ∀ j, j ≠ k → eligible Entry.expiresAt t j now = eligible Entry.expiresAt s j now := by
  have hord : (behindBare now b ns).ordered =
      .ok [piece "x" none none, piece "y" (some (keeper b ns).text) none] := by
    refine ordered_probe fun f hf => ?_
    simp only [List.mem_cons, List.not_mem_nil, or_false] at hf
    rcases hf with rfl | rfl <;> rfl
  obtain ⟨identity, hd, hcompose, -⟩ := compose_wide .forbid (d := keeper b ns) henc
  have hfirst := turn_of_bare mode s (f := piece "x" none none) (c := behindBare now b ns)
    (v := .init) rfl rfl
  have hx : (⟨composeRetention [.allow none], .exact, b, identity⟩ : Effective).Stores →
      InMemoryCache.expiry now (composeRetention [.allow none]).maxAge = .ok none := by
    intro _
    rw [composeRetention_one]
    rfl
  obtain ⟨t, hsecond, hfound⟩ := exists_turn mode s (c := behindBare now b ns)
    (v := { LoopVars.init with contentsSoFar := [] ++ [lit "x"] })
    (f := piece "y" (some (keeper b ns).text) none) rfl (parse_keeper hfloat b hnamed henc) rfl
    rfl hcompose hk hx
  obtain ⟨r, hanswer, hstatuses⟩ := answer_of_loop hord (loop_two hfirst hsecond)
  have hstores : (⟨composeRetention [.allow none], .exact, b, identity⟩ : Effective).Stores :=
    ⟨by rw [composeRetention_one]; rfl, hb⟩
  have houtcome : outcomeAt ⟨composeRetention [.allow none], .exact, b, identity⟩ s k now =
      if (eligible Entry.expiresAt s k now).isSome then .exactHit else .miss := by
    rw [outcomeAt, if_neg (by simp)]
  refine ⟨r, t, _, _, hanswer, hstatuses, rfl, houtcome, ?_, fun j hj => ?_⟩
  · rw [hfound k now le_rfl]
    split
    · simp
    · rename_i hnot
      have hhit : outcomeAt ⟨composeRetention [.allow none], .exact, b, identity⟩ s k now =
          .exactHit := by
        by_contra hmiss
        exact hnot ⟨hmiss, hstores, rfl⟩
      rw [houtcome] at hhit
      by_contra hnone
      rw [if_neg hnone] at hhit
      cases hhit
  · rw [hfound j now le_rfl, if_neg fun h => hj h.2.2]

/-- Where a namespace is used at all, a later request tells it. -/
theorem Interchangeable.namespaces (hcf : CollisionFree)
    (hfloat : Json.FloatsReadBack Runtime.Float) (h : Interchangeable text text')
    (hparse : parseCacheIntent text = .ok i) (hparse' : parseCacheIntent text' = .ok i')
    (henc : ∀ n, i.constraints.ns = some n → Encodable n) (now : Time)
    (hshare : i.constraints.shareMax ≠ .request)
    (huses : i.constraints.reuse ≠ .none ∨ i.constraints.retention.mode = .allow)
    (hnamed : i.constraints.Named) : i.constraints.ns = i'.constraints.ns := by
  obtain ⟨henc', -, hshares, hmodes, hreuses⟩ := h.report hfloat hparse hparse' henc now
  by_contra hns
  obtain ⟨k, hk⟩ := exists_key encodable_xy _ henc i.constraints.shareMax true
  have hsame := h .bypass
    [behindBare now i.constraints.shareMax i.constraints.ns,
      behindWide now (.allow (some 0)) text none,
      behindBare now i.constraints.shareMax i.constraints.ns]
    [behindBare now i.constraints.shareMax i.constraints.ns,
      behindWide now (.allow (some 0)) text' none,
      behindBare now i.constraints.shareMax i.constraints.ns]
    (.cons (exchanges_refl _ _ _) (.cons (exchanges_behindWide now _ text text' none)
      (.cons (exchanges_refl _ _ _) .nil))) (by
        intro c hc f hf k hk
        simp only [List.mem_cons, List.not_mem_nil, or_false] at hc
        rcases hc with rfl | rfl | rfl <;>
          simp only [behindWide, behindBare, probe, List.mem_cons, List.not_mem_nil, or_false] at hf <;>
          rcases hf with rfl | rfl <;> cases hk)
  simp only [Gateway.run, Prog.session_cons_fst, Prog.session_nil, List.map_cons, List.map_nil,
    List.cons.injEq, and_true] at hsame
  obtain ⟨-, hmiddle, hlast⟩ := hsame
  obtain ⟨r₁, t₁, -, -, hfirst, -, -, -, hstored, hothers⟩ :=
    exists_answer_behindBare hfloat .bypass now ∅ hshare hnamed henc hk
  rw [hfirst] at hmiddle hlast
  obtain ⟨r, t, st₁, st, k₁, hanswer, hstatuses, hk₁, hserved⟩ :=
    exists_answer_behindWide hfloat .bypass now t₁ hparse henc
  obtain ⟨r', t', st₁', st', k', hanswer', hstatuses', hk', hserved'⟩ :=
    exists_answer_behindWide hfloat .bypass now t₁ hparse' henc'
  cases hk.symm.trans hk₁
  rw [← hshares] at hk'
  have hne : k' ≠ k := by
    rintro rfl
    have hnul := plain_alice.nul_notMem hshare (lit "req-1")
    obtain ⟨-, -, hlists, -⟩ := cacheKey_inj hcf hnul hnul hk hk'
    refine hns ?_
    cases hn : i.constraints.ns <;> cases hn' : i'.constraints.ns <;> simp_all
  have hnone' : eligible Entry.expiresAt t₁ k' now = none := by
    rw [hothers k' hne]
    simp [eligible]
  by_cases hreuse : i.constraints.reuse = .none
  · -- the fragment replaces what it would have found, or leaves it
    have hreuse' := hreuses.mp hreuse
    have hallow := huses.resolve_left (not_not.mpr hreuse)
    have hmiss : st.outcome ≠ .exactHit := by
      rw [hserved.outcome, if_pos hreuse]
      rintro ⟨⟩
    have hlost := hserved.lost hmiss hallow hshare
    have hkept := hserved'.kept k hne.symm
    obtain ⟨r₃, t₃, a₃, b₃, h₃, hs₃, hid₃, ho₃, -⟩ :=
      exists_answer_behindBare hfloat .bypass now t hshare hnamed henc hk
    obtain ⟨r₄, t₄, a₄, b₄, h₄, hs₄, hid₄, ho₄, -⟩ :=
      exists_answer_behindBare hfloat .bypass now t' hshare hnamed henc hk
    rw [hanswer, hanswer', h₃, h₄] at hlast
    have hreport := (sameReport_of_reported hlast 1
      (by rw [hs₃]; rfl) (by rw [hs₄]; rfl) hid₃ hid₄).outcome
    rw [ho₃, ho₄, hlost, hkept, if_neg (by simp), if_pos hstored] at hreport
    cases hreport
  · rw [hanswer, hanswer'] at hmiddle
    have hreport := (sameReport_of_reported hmiddle 1
      (by rw [hstatuses]; rfl) (by rw [hstatuses']; rfl) hserved.id hserved'.id).outcome
    rw [hserved.outcome, hserved'.outcome, if_neg hreuse, if_neg (mt hreuses.mpr hreuse),
      hnone', if_pos hstored, if_neg (by simp)] at hreport
    cases hreport

theorem exists_turn_of_retain {o : Outcome} {a : Bool} {r : RetentionStatus} {u : Entries}
    (mode : OnUnenforceable) (htext : f.intentJson = some text)
    (hparse : parseCacheIntent text = .ok i)
    (hcompose : compose (v.behind f i).constraintsSoFar = .ok e)
    (hresolve : (inMemoryGateway mode).resolve e (v.behind f i).contentsSoFar
      (v.behind f i).namespacesSoFar (partitionFor e.shareMax c.auth c.requestId) c.now
        f.approxClass s = (.ok (o, a), t))
    (hretain : (inMemoryGateway mode).retain o e (v.behind f i).contentsSoFar
      (v.behind f i).namespacesSoFar (partitionFor e.shareMax c.auth c.requestId) c.now
        (!((v.behind f i).taintedApproximate || a)) f.approxClass t = (.ok r, u)) :
    ∃ w st, (inMemoryGateway mode).turn c v f s = (.ok (w, st), u) ∧ st.outcome = o ∧
      st.id = f.id := by
  rw [turn_of_governed mode htext hparse hcompose, serve_of_ok hresolve hretain]
  exact ⟨_, _, rfl, rfl, rfl⟩

/-- A policy that forbids retention stores nothing, whatever was found. -/
theorem retain_of_forbid (mode : OnUnenforceable) (o : Outcome) (exact : Bool) (s : Entries)
    (hforbid : e.retention.mode = .forbid) :
    (inMemoryGateway mode).retain o e contents ns partition now exact approxClass s =
      (.ok (retentionOf o e), s) := by
  cases o <;> simp [Gateway.retain, Gateway.materialize, retentionOf, hforbid]

/-- A similar input that is stored is found where nothing is stored under the key. -/
theorem exists_resolve_donor (mode : OnUnenforceable) (now : Time) (s : Entries) {cls dk : Str}
    {entry : Entry} (hreuse : e.reuse = .approximate)
    (hk : cacheKey execution contents ns partition true = .ok k)
    (hnone : eligible Entry.expiresAt s k now = none)
    (hdk : cacheKey execution [cls] ns partition false = .ok dk)
    (hdonor : eligible Entry.expiresAt s dk now = some entry) :
    ∃ t, (inMemoryGateway mode).resolve e contents ns partition now (some cls) s =
      (.ok (.approximateHit, true), t) := by
  obtain ⟨u, hu⟩ := get_apply k now s
  have hprunes := (get_eq_ok hu).2
  obtain ⟨t, ht⟩ := get_apply dk now u
  rw [hprunes.eligible_eq le_rfl, hdonor] at ht
  rw [hnone] at hu
  have hget : (inMemoryGateway mode).backend.get k now s = (.ok none, u) := hu
  have hget' : (inMemoryGateway mode).backend.get dk now u = (.ok (some entry), t) := ht
  refine ⟨t, ?_⟩
  unfold Gateway.resolve
  rw [if_neg (by simp [inMemoryGateway, inMemoryBackend]), if_neg (by simp [hreuse]), hk,
    Prog.lift_ok_bind, Prog.bind_of_ok hget]
  simp only [hreuse, hdk, Prog.lift_ok_bind]
  rw [Prog.bind_of_ok hget']
  rfl

/-- The keeping constraints on other content, in a similarity class. -/
def donation (now : Time) (b : Share) (ns : Option Str) : Call :=
  probe now [piece "z" (some (keeper b ns).text) (some (lit "k"))]

theorem exists_answer_donation (hfloat : Json.FloatsReadBack Runtime.Float)
    (mode : OnUnenforceable) (now : Time) {b : Share} {ns : Option Str} (hb : b ≠ .request)
    (hnamed : ∀ n, ns = some n → 1 ≤ n.length ∧ n.length ≤ 256)
    (henc : ∀ n, ns = some n → Encodable n) :
    ∃ r t kz dk, (inMemoryGateway mode).answer (donation now b ns) ∅ = (.ok r, t) ∧
      cacheKey execution [lit "z"] ns.toList (partitionFor b alice (lit "req-1")) true = .ok kz ∧
      cacheKey execution [lit "k"] ns.toList (partitionFor b alice (lit "req-1")) false = .ok dk ∧
      (eligible Entry.expiresAt t dk now).isSome ∧
      ∀ j, j ≠ kz → j ≠ dk → eligible Entry.expiresAt t j now = none := by
  obtain ⟨kz, hkz⟩ := exists_key (encodable_one "z") _ henc b true
  obtain ⟨dk, hdk⟩ := exists_key (encodable_one "k") _ henc b false
  have hord : (donation now b ns).ordered =
      .ok [piece "z" (some (keeper b ns).text) (some (lit "k"))] := by
    refine ordered_probe fun f hf => ?_
    rw [List.mem_singleton.mp hf]
    rfl
  obtain ⟨identity, hd, hcompose, -⟩ := compose_wide .forbid (d := keeper b ns) henc
  let e : Effective := ⟨composeRetention [.allow none], .exact, b, identity⟩
  have hclass : e.reuse = .approximate → some (lit "k") = none := by rintro ⟨⟩
  obtain ⟨u, hresolve, hprunes⟩ := exists_resolve mode e now ∅ hkz hclass
  have hmiss : outcomeAt e ∅ kz now = .miss := by simp [outcomeAt, e, eligible]
  rw [hmiss] at hresolve
  have hexpiry : InMemoryCache.expiry now e.retention.maxAge = .ok none := by
    show InMemoryCache.expiry now (composeRetention [.allow none]).maxAge = _
    rw [composeRetention_one]
    rfl
  have hput : ∀ k exact s, (inMemoryGateway mode).backend.put k now e.retention.maxAge exact s =
      (.ok (some ⟨k, now, none, exact⟩), s.insert k ⟨k, now, none, exact⟩) :=
    fun k exact s => put_apply hexpiry s
  have hretain : (inMemoryGateway mode).retain .miss e [lit "z"] ns.toList
      (partitionFor b alice (lit "req-1")) now true (some (lit "k")) u =
        (.ok .retained, (u.insert kz ⟨kz, now, none, true⟩).insert dk ⟨dk, now, none, false⟩) := by
    have hallow : e.retention.mode ≠ .forbid := by
      show (composeRetention [.allow none]).mode ≠ _
      rw [composeRetention_one]
      rintro ⟨⟩
    show (inMemoryGateway mode).materialize e [lit "z"] ns.toList
      (partitionFor b alice (lit "req-1")) now true (some (lit "k")) u = _
    unfold Gateway.materialize
    rw [if_neg hallow, if_neg hb, hkz, Prog.lift_ok_bind, Prog.bind_of_ok (hput _ _ _)]
    simp only [hdk, Prog.lift_ok_bind]
    rw [Prog.bind_of_ok (hput _ _ _)]
    rfl
  obtain ⟨w, st, hturn, -⟩ := exists_turn_of_retain mode (c := donation now b ns) (v := .init)
    (f := piece "z" (some (keeper b ns).text) (some (lit "k"))) rfl
    (parse_keeper hfloat b hnamed henc) hcompose hresolve hretain
  obtain ⟨r, hanswer, -⟩ := answer_of_loop hord (loop_one hturn)
  refine ⟨r, _, kz, dk, hanswer, hkz, hdk, ?_, fun j hz hd => ?_⟩
  · rw [eligible_insert, if_pos rfl]
    simp
  · rw [eligible_insert, if_neg hd, eligible_insert, if_neg hz, hprunes.eligible_eq le_rfl]
    simp [eligible]

/-- Behind a policy that forbids retention, the intent's own lookup is what is told. -/
theorem exists_answer_forbidden (hfloat : Json.FloatsReadBack Runtime.Float)
    (mode : OnUnenforceable) (now : Time) (s : Entries) {o : Outcome} {a : Bool}
    (hparse : parseCacheIntent text = .ok i)
    (henc : ∀ n, i.constraints.ns = some n → Encodable n)
    (hresolve : ∀ e u, e.reuse = i.constraints.reuse →
      (∀ j, eligible Entry.expiresAt u j now = eligible Entry.expiresAt s j now) →
      ∃ t, (inMemoryGateway mode).resolve e [lit "x", lit "y"] i.constraints.ns.toList
        (partitionFor i.constraints.shareMax alice (lit "req-1")) now (some (lit "k")) u =
          (.ok (o, a), t)) :
    ∃ r t st₁ st, (inMemoryGateway mode).answer (behindWide now .forbid text (some (lit "k"))) s =
      (.ok r, t) ∧ r.statuses = [st₁, st] ∧ st.id = .null ∧ st.outcome = o := by
  obtain ⟨st₁, u, hfirst, hkept⟩ :=
    exists_turn_wide hfloat mode now text (some (lit "k")) s (.inr rfl)
  obtain ⟨identity, hd, -, hcompose⟩ := compose_wide .forbid henc
  obtain ⟨t, hfound⟩ := hresolve ⟨composeRetention [.forbid, i.constraints.retention],
    i.constraints.reuse, i.constraints.shareMax, identity⟩ u rfl hkept
  obtain ⟨w, st, hsecond, houtcome, hid⟩ := exists_turn_of_retain mode
    (c := behindWide now .forbid text (some (lit "k")))
    (v := LoopVars.init.behind (piece "x" (some (wide .forbid).text) none) ⟨wide .forbid, {}⟩)
    (f := piece "y" (some text) (some (lit "k"))) rfl hparse hcompose hfound
    (retain_of_forbid mode o _ t (by simp [composeRetention]))
  obtain ⟨r, hanswer, hstatuses⟩ := answer_of_loop (ordered_behindWide now _ text _)
    (loop_two hfirst hsecond)
  exact ⟨r, t, st₁, st, hanswer, hstatuses, hid, houtcome⟩

/-- Where state is shared beyond a request, similar input tells whether it may be
used. -/
theorem Interchangeable.approximates (hcf : CollisionFree)
    (hfloat : Json.FloatsReadBack Runtime.Float) (h : Interchangeable text text')
    (hparse : parseCacheIntent text = .ok i) (hparse' : parseCacheIntent text' = .ok i')
    (henc : ∀ n, i.constraints.ns = some n → Encodable n)
    (henc' : ∀ n, i'.constraints.ns = some n → Encodable n) (now : Time)
    (hshare : i.constraints.shareMax ≠ .request) (hnamed : i.constraints.Named)
    (hreuse : i.constraints.reuse = .approximate) : i'.constraints.reuse = .approximate := by
  by_contra hexact
  have hsame := h .bypass
    [donation now i.constraints.shareMax i.constraints.ns,
      behindWide now .forbid text (some (lit "k"))]
    [donation now i.constraints.shareMax i.constraints.ns,
      behindWide now .forbid text' (some (lit "k"))]
    (.cons (exchanges_refl _ _ _) (.cons (exchanges_behindWide now _ text text' _) .nil)) (by
      intro c hc f hf k hk
      simp only [List.mem_cons, List.not_mem_nil, or_false] at hc
      rcases hc with rfl | rfl
      · simp only [donation, probe, List.mem_cons, List.not_mem_nil, or_false] at hf
        subst hf
        cases hk
        exact encodable_lit "k"
      · simp only [behindWide, probe, List.mem_cons, List.not_mem_nil, or_false] at hf
        rcases hf with rfl | rfl
        · cases hk
        · cases hk
          exact encodable_lit "k")
  simp only [Gateway.run, Prog.session_cons_fst, Prog.session_nil, List.map_cons, List.map_nil,
    List.cons.injEq, and_true] at hsame
  obtain ⟨-, hlast⟩ := hsame
  obtain ⟨r₁, s, kz, dk, hfirst, hkz, hdk, hdonor, hothers⟩ :=
    exists_answer_donation hfloat .bypass now hshare hnamed henc
  rw [hfirst] at hlast
  obtain ⟨k, hk⟩ := exists_key encodable_xy _ henc i.constraints.shareMax true
  obtain ⟨k', hk'⟩ := exists_key encodable_xy _ henc' i'.constraints.shareMax true
  have hnone : eligible Entry.expiresAt s k now = none := by
    have hnul := plain_alice.nul_notMem hshare (lit "req-1")
    refine hothers k ?_ ?_
    · rintro rfl
      obtain ⟨-, -, -, hsame⟩ := cacheKey_inj hcf hnul hnul hk hkz
      cases hsame
    · rintro rfl
      obtain ⟨-, hsame, -, -⟩ := cacheKey_inj hcf hnul hnul hk hdk
      cases hsame
  obtain ⟨entry, hentry⟩ := Option.isSome_iff_exists.mp hdonor
  obtain ⟨r, t, st₁, st, hanswer, hstatuses, hid, houtcome⟩ :=
    exists_answer_forbidden hfloat .bypass now s hparse henc fun e u he hu =>
      exists_resolve_donor .bypass now u (he.trans hreuse) hk ((hu k).trans hnone) hdk
        ((hu dk).trans hentry)
  obtain ⟨r', t', st₁', st', hanswer', hstatuses', hid', houtcome'⟩ :=
    exists_answer_forbidden (a := false)
      (o := outcomeAt ⟨.forbid, i'.constraints.reuse, .public, none⟩ s k' now) hfloat .bypass now s hparse' henc'
      fun e u he hu => by
        obtain ⟨t, ht, -⟩ := exists_resolve .bypass e now u hk'
          fun happrox => absurd (he.symm.trans happrox) hexact
        refine ⟨t, ht.trans ?_⟩
        simp only [outcomeAt, he, hu]
  rw [hanswer, hanswer'] at hlast
  have hreport := (sameReport_of_reported hlast 1
    (by rw [hstatuses]; rfl) (by rw [hstatuses']; rfl) hid hid').outcome
  rw [houtcome, houtcome', outcomeAt] at hreport
  split at hreport
  · cases hreport
  · split at hreport <;> cases hreport

theorem le_of_expiry {n d : Time} {m : Option ℕ}
    (h : InMemoryCache.expiry n m = .ok (some d)) : n ≤ d := by
  cases m with
  | none => cases InMemoryCache.expiry_none_eq_ok_iff.mp h
  | some j =>
      obtain ⟨d', hplus, hd⟩ := InMemoryCache.expiry_some_eq_ok_iff.mp h
      cases hd
      obtain ⟨d₀, hzero, hle⟩ := Runtime.plus_mono n (Nat.zero_le j) hplus
      rw [Runtime.plus_zero] at hzero
      cases hzero
      exact hle

/-- Two deadlines are told apart when the earlier one is reached. -/
theorem exists_telling_time {n : Time} {m m' : Option ℕ} {x x' : Option Time}
    (hx : InMemoryCache.expiry n m = .ok x) (hx' : InMemoryCache.expiry n m' = .ok x')
    (hne : x ≠ x') : ∃ later, n ≤ later ∧ ¬(Expired x later ↔ Expired x' later) := by
  cases x with
  | none =>
      cases x' with
      | none => exact absurd rfl hne
      | some d => exact ⟨d, le_of_expiry hx', by simp⟩
  | some d =>
      cases x' with
      | none => exact ⟨d, le_of_expiry hx, by simp⟩
      | some d' =>
          rcases lt_or_gt_of_ne (fun h => hne (congrArg some h)) with hlt | hlt
          · exact ⟨d, le_of_expiry hx, by simp [hlt]⟩
          · exact ⟨d', le_of_expiry hx', by simp [hlt]⟩

/-- A fragment with this intent only. -/
def alone (now : Time) (text : Str) : Call := probe now [piece "y" (some text) none]

theorem ordered_alone (now : Time) (text : Str) :
    (alone now text).ordered = .ok [piece "y" (some text) none] := by
  refine ordered_probe fun f hf => ?_
  rw [List.mem_singleton.mp hf]
  rfl

theorem exists_answer_alone (mode : OnUnenforceable) (now : Time) (s : Entries)
    (hparse : parseCacheIntent text = .ok i)
    (henc : ∀ n, i.constraints.ns = some n → Encodable n) {k : Str}
    (hk : cacheKey execution [lit "y"] i.constraints.ns.toList
      (partitionFor i.constraints.shareMax alice (lit "req-1")) true = .ok k) {x : Option Time}
    (hx : i.constraints.retention.mode = .allow → i.constraints.shareMax ≠ .request →
      InMemoryCache.expiry now i.constraints.retention.maxAge = .ok x) :
    ∃ r t st o, (inMemoryGateway mode).answer (alone now text) s = (.ok r, t) ∧
      r.statuses = [st] ∧ st.id = .null ∧ st.outcome = o ∧
      (o = if i.constraints.reuse = .none then .bypass
        else if (eligible Entry.expiresAt s k now).isSome then .exactHit else .miss) ∧
      (o ≠ .exactHit → i.constraints.retention.mode = .allow →
        i.constraints.shareMax ≠ .request → ∀ later, now ≤ later →
          ((eligible Entry.expiresAt t k later).isSome ↔ ¬Expired x later)) := by
  obtain ⟨identity, hd, hcompose, -⟩ := compose_wide .forbid henc
  rw [composeRetention_one] at hcompose
  obtain ⟨t, hturn, hfound⟩ := exists_turn mode s (c := alone now text) (v := .init)
    (f := piece "y" (some text) none) rfl hparse rfl rfl hcompose hk fun h => hx h.1 h.2
  obtain ⟨r, hanswer, hstatuses⟩ := answer_of_loop (ordered_alone now text) (loop_one hturn)
  refine ⟨r, t, _, _, hanswer, hstatuses, rfl, rfl, rfl, fun hmiss hallow hshare later hle => ?_⟩
  rw [hfound k later hle, if_pos ⟨hmiss, ⟨hallow, hshare⟩, rfl⟩]
  split <;> simp_all

/-- A bound that cannot be added is raised where something is to be stored. -/
theorem retain_of_overflow {o : Outcome} {err : PyError} (mode : OnUnenforceable) (s : Entries)
    (ho : o = .bypass ∨ o = .miss) (hk : cacheKey execution contents ns partition true = .ok k)
    (hstores : e.Stores) (hx : InMemoryCache.expiry now e.retention.maxAge = .error err) :
    (inMemoryGateway mode).retain o e contents ns partition now true none s = (.error err, s) := by
  have hretain : (inMemoryGateway mode).retain o e contents ns partition now true none s =
      (inMemoryGateway mode).materialize e contents ns partition now true none s := by
    rcases ho with rfl | rfl <;> rfl
  have hput : (inMemoryGateway mode).backend.put k now e.retention.maxAge true s =
      (.error err, s) := put_apply_error hx s
  have hforbid : e.retention.mode ≠ .forbid := by
    rw [hstores.1]
    rintro ⟨⟩
  rw [hretain]
  unfold Gateway.materialize
  rw [if_neg hforbid, if_neg hstores.2, hk, Prog.lift_ok_bind, Prog.bind_of_error hput]

theorem turn_of_retain_error {o : Outcome} {a : Bool} {err : PyError} {u : Entries}
    (mode : OnUnenforceable) (htext : f.intentJson = some text)
    (hparse : parseCacheIntent text = .ok i)
    (hcompose : compose (v.behind f i).constraintsSoFar = .ok e)
    (hresolve : (inMemoryGateway mode).resolve e (v.behind f i).contentsSoFar
      (v.behind f i).namespacesSoFar (partitionFor e.shareMax c.auth c.requestId) c.now
        f.approxClass s = (.ok (o, a), t))
    (hretain : (inMemoryGateway mode).retain o e (v.behind f i).contentsSoFar
      (v.behind f i).namespacesSoFar (partitionFor e.shareMax c.auth c.requestId) c.now
        (!((v.behind f i).taintedApproximate || a)) f.approxClass t = (.error err, u)) :
    (inMemoryGateway mode).turn c v f s = (.error err, u) := by
  rw [turn_of_governed mode htext hparse hcompose, serve_of_resolve hresolve, hretain]
  rfl

theorem error_alone (mode : OnUnenforceable) (now : Time) (hparse : parseCacheIntent text = .ok i)
    (henc : ∀ n, i.constraints.ns = some n → Encodable n)
    (hallow : i.constraints.retention.mode = .allow) (hshare : i.constraints.shareMax ≠ .request)
    {err : PyError} (hx : InMemoryCache.expiry now i.constraints.retention.maxAge = .error err) :
    ((inMemoryGateway mode).answer (alone now text) ∅).1 = .error err := by
  obtain ⟨identity, hd, hcompose, -⟩ := compose_wide .forbid henc
  rw [composeRetention_one] at hcompose
  obtain ⟨k, hk⟩ := exists_key (encodable_one "y") _ henc i.constraints.shareMax true
  obtain ⟨u, hresolve, -⟩ := exists_resolve mode ⟨i.constraints.retention, i.constraints.reuse,
    i.constraints.shareMax, identity⟩ now ∅ hk fun _ => (rfl : (none : Option Str) = none)
  have hfresh : ∀ e, outcomeAt e ∅ k now = .bypass ∨ outcomeAt e ∅ k now = .miss := by
    intro e
    by_cases hreuse : e.reuse = .none <;> simp [outcomeAt, hreuse, eligible]
  have hturn := turn_of_retain_error mode (c := alone now text) (v := .init)
    (f := piece "y" (some text) none) rfl hparse hcompose hresolve
    (retain_of_overflow mode u (hfresh _) hk ⟨hallow, hshare⟩ hx)
  rw [answer_of_loop_error (ordered_alone now text) (Prog.mapAccum_cons_of_error hturn)]

/-- What would find the state of a fragment and stores none. -/
def reader (b : Share) (ns : Option Str) : Constraints := ⟨.forbid, .exact, b, ns⟩

theorem exists_answer_reader (hfloat : Json.FloatsReadBack Runtime.Float) (mode : OnUnenforceable)
    (now : Time) (s : Entries) {b : Share} {ns : Option Str}
    (hnamed : ∀ n, ns = some n → 1 ≤ n.length ∧ n.length ≤ 256)
    (henc : ∀ n, ns = some n → Encodable n) {k : Str}
    (hk : cacheKey execution [lit "y"] ns.toList (partitionFor b alice (lit "req-1")) true =
      .ok k) :
    ∃ r t st, (inMemoryGateway mode).answer (alone now (reader b ns).text) s = (.ok r, t) ∧
      r.statuses = [st] ∧ st.id = .null ∧
      st.outcome = if (eligible Entry.expiresAt s k now).isSome then .exactHit else .miss := by
  have hparse : parseCacheIntent (reader b ns).text = .ok ⟨reader b ns, {}⟩ :=
    parseCacheIntent_text hfloat hnamed henc
  obtain ⟨r, t, st, o, hanswer, hstatuses, hid, ho, houtcome, -⟩ :=
    exists_answer_alone mode now s hparse henc hk (x := none) (by rintro ⟨⟩)
  refine ⟨r, t, st, hanswer, hstatuses, hid, ?_⟩
  rw [ho, houtcome, if_neg (by simp [reader])]

/-- The intent alone, and later what would find its state. -/
def thenReader (now later : Time) (text : Str) (b : Share) (ns : Option Str) : List Call :=
  [alone now text, alone later (reader b ns).text]

theorem Interchangeable.thenReader (h : Interchangeable text text') (now later : Time) (b : Share)
    (ns : Option Str) :
    ((inMemoryGateway .bypass).run (thenReader now later text b ns) ∅).1.map reported =
      ((inMemoryGateway .bypass).run (thenReader now later text' b ns) ∅).1.map reported := by
  refine h .bypass _ _ (.cons ⟨.cons (.exchanged _ rfl) .nil, rfl⟩
    (.cons (exchanges_refl _ _ _) .nil)) ?_
  intro c hc f hf k hk
  simp only [CacheControl.thenReader, List.mem_cons, List.not_mem_nil, or_false] at hc
  rcases hc with rfl | rfl <;> rw [List.mem_singleton.mp hf] at hk <;> cases hk

/-- Where state is kept beyond a request, a later request tells until when. -/
theorem Interchangeable.deadlines (hfloat : Json.FloatsReadBack Runtime.Float)
    (h : Interchangeable text text') (hparse : parseCacheIntent text = .ok i)
    (hparse' : parseCacheIntent text' = .ok i')
    (henc : ∀ n, i.constraints.ns = some n → Encodable n)
    (hshares : i.constraints.shareMax = i'.constraints.shareMax)
    (hmodes : i.constraints.retention.mode = i'.constraints.retention.mode)
    (hns : i.constraints.ns = i'.constraints.ns) (hnamed : i.constraints.Named)
    (hshare : i.constraints.shareMax ≠ .request)
    (hallow : i.constraints.retention.mode = .allow) :
    SameDeadlines i.constraints.retention.maxAge i'.constraints.retention.maxAge := by
  intro now
  have henc' : ∀ n, i'.constraints.ns = some n → Encodable n := hns ▸ henc
  have hallow' := hmodes ▸ hallow
  have hshare' : i'.constraints.shareMax ≠ .request := hshares ▸ hshare
  obtain ⟨k, hk⟩ := exists_key (encodable_one "y") _ henc i.constraints.shareMax true
  have hk' : cacheKey execution [lit "y"] i'.constraints.ns.toList
      (partitionFor i'.constraints.shareMax alice (lit "req-1")) true = .ok k := by
    rw [← hns, ← hshares]
    exact hk
  have hempty : (eligible Entry.expiresAt (∅ : Entries) k now).isSome = false := by
    simp [eligible]
  have hrun := fun later => h.thenReader now later i.constraints.shareMax i.constraints.ns
  simp only [Gateway.run, CacheControl.thenReader, Prog.session_cons_fst, Prog.session_nil,
    List.map_cons, List.map_nil, List.cons.injEq, and_true] at hrun
  cases hx : InMemoryCache.expiry now i.constraints.retention.maxAge with
  | error err =>
      have hfirst := (hrun now).1
      rw [error_alone .bypass now hparse henc hallow hshare hx] at hfirst
      cases hx' : InMemoryCache.expiry now i'.constraints.retention.maxAge with
      | error err' =>
          rw [error_alone .bypass now hparse' henc' hallow' hshare' hx'] at hfirst
          cases hfirst
          rfl
      | ok x' =>
          obtain ⟨r', t', -, -, hanswer', -⟩ :=
            exists_answer_alone .bypass now ∅ hparse' henc' hk' fun _ _ => hx'
          rw [hanswer'] at hfirst
          cases hfirst
  | ok x =>
      obtain ⟨r, t, -, o, hanswer, -, -, -, ho, hkept⟩ :=
        exists_answer_alone .bypass now ∅ hparse henc hk fun _ _ => hx
      have hmiss : o ≠ .exactHit := by
        rw [ho, hempty]
        split <;> simp
      cases hx' : InMemoryCache.expiry now i'.constraints.retention.maxAge with
      | error err' =>
          have hfirst := (hrun now).1
          rw [error_alone .bypass now hparse' henc' hallow' hshare' hx', hanswer] at hfirst
          cases hfirst
      | ok x' =>
          obtain ⟨r', t', -, o', hanswer', -, -, -, ho', hkept'⟩ :=
            exists_answer_alone .bypass now ∅ hparse' henc' hk' fun _ _ => hx'
          have hmiss' : o' ≠ .exactHit := by
            rw [ho', hempty]
            split <;> simp
          by_contra hne
          obtain ⟨later, hle, htold⟩ := exists_telling_time hx hx' fun h => hne (congrArg _ h)
          have hsecond := (hrun later).2
          rw [hanswer, hanswer'] at hsecond
          obtain ⟨r₁, t₁, st₁, h₁, hs₁, hid₁, ho₁⟩ :=
            exists_answer_reader hfloat .bypass later t hnamed henc hk
          obtain ⟨r₂, t₂, st₂, h₂, hs₂, hid₂, ho₂⟩ :=
            exists_answer_reader hfloat .bypass later t' hnamed henc hk
          rw [h₁, h₂] at hsecond
          have hreport := (sameReport_of_reported hsecond 0
            (by rw [hs₁]; rfl) (by rw [hs₂]; rfl) hid₁ hid₂).outcome
          rw [ho₁, ho₂] at hreport
          refine htold (not_iff_not.mp ?_)
          rw [← hkept hmiss hallow hshare later hle, ← hkept' hmiss' hallow' hshare' later hle]
          split at hreport <;> split at hreport <;> simp_all

end

/-! ## What no run tells -/

theorem length_of_decodeName {v : Value} {n : Str} (h : decodeName v = some n) :
    1 ≤ n.length ∧ n.length ≤ 256 := by
  cases v with
  | str s =>
      rw [decodeName] at h
      split at h
      · cases h
        assumption
      · cases h
  | _ => cases h

theorem named_of_decode {v : Value} {d : Constraints} (h : decodeConstraints v = some d) :
    d.Named := by
  cases v with
  | obj members =>
      simp only [decodeConstraints, Option.bind_eq_bind, Option.bind_eq_some_iff] at h
      obtain ⟨-, -, -, -, retention, -, -, -, reuse, -, -, -, share, -, ns, hns, h⟩ := h
      cases h
      intro n hn
      cases hget : Json.get? (lit "namespace") members with
      | none =>
          rw [hget] at hns
          cases hns
          cases hn
      | some v =>
          rw [hget] at hns
          obtain ⟨m, hm, hsome⟩ := Option.map_eq_some_iff.mp hns
          cases hsome
          cases hn
          exact length_of_decodeName hm
  | _ => cases h

theorem named_of_parse (h : parseCacheIntent text = .ok i) : i.constraints.Named := by
  obtain ⟨doc, -, h⟩ := bind_eq_ok_iff.mp h
  obtain ⟨-, -, h⟩ := bind_eq_ok_iff.mp h
  cases hdoc : validate doc with
  | none => rw [hdoc] at h; cases h
  | some j =>
      rw [hdoc] at h
      obtain rfl : j = i := Except.ok.inj h
      cases doc with
      | obj members =>
          simp only [validate, Option.bind_eq_bind, Option.bind_eq_some_iff] at hdoc
          obtain ⟨-, -, intent, -, hintent⟩ := hdoc
          obtain ⟨-, c, -, -, hc⟩ := exists_constraints hintent
          exact named_of_decode hc
      | _ => cases hdoc

/-- Two intents are told apart by some run exactly when they differ where they are
consulted: in the boundary, in whether and how long state is kept, in whether and how
it is reused, in the namespace of what is kept or looked for, or in the advice. -/
theorem interchangeable_iff [Nonempty Time] (hcf : CollisionFree)
    (hfloat : Json.FloatsReadBack Runtime.Float) {text text' : Str} {i i' : Intent}
    (hparse : parseCacheIntent text = .ok i) (hparse' : parseCacheIntent text' = .ok i')
    (henc : ∀ n, i.constraints.ns = some n → Encodable n) :
    Interchangeable text text' ↔
      hintStatus inMemoryBackend.capabilities i.hints =
        hintStatus inMemoryBackend.capabilities i'.hints ∧
      SameEffect i.constraints i'.constraints := by
  constructor
  · intro h
    obtain ⟨now⟩ := ‹Nonempty Time›
    obtain ⟨henc', hhints, hshares, hmodes, hreuses⟩ := h.report hfloat hparse hparse' henc now
    have hnamespaces := h.namespaces hcf hfloat hparse hparse' henc now
    refine ⟨hhints, hshares, hmodes, hreuses, fun hshare => ?_, fun hshare hallow => ?_,
      fun hshare huses => hnamespaces hshare huses (named_of_parse hparse),
      iff_of_true henc henc'⟩
    · have hleft := h.approximates hcf hfloat hparse hparse' henc henc' now hshare
        (named_of_parse hparse)
      have hright := h.symm.approximates hcf hfloat hparse' hparse henc' henc now
        (hshares ▸ hshare) (named_of_parse hparse')
      cases hr : i.constraints.reuse <;> cases hr' : i'.constraints.reuse <;> simp_all
    · exact h.deadlines hfloat hparse hparse' henc hshares hmodes
        (hnamespaces hshare (.inr hallow) (named_of_parse hparse)) (named_of_parse hparse) hshare
        hallow
  · rintro ⟨hhints, heffect⟩
    exact interchangeable_of_sameEffect hcf hparse hparse' heffect hhints

end

section

attribute [local instance] reference

def transient (share : Share) : Constraints := ⟨.allow (some 0), .exact, share, none⟩

def lasting (share : Share) : Constraints :=
  ⟨.allow (some 5), .approximate, share, some (lit "n")⟩

/-- Within one request, bounds, namespaces and similarity are idle; within a tenant
they are not. -/
theorem interchangeable_iff_lasting :
    Interchangeable (transient .request).text (lasting .request).text ∧
      ¬Interchangeable (transient .tenant).text (lasting .tenant).text := by
  have htransient : ∀ b, parseCacheIntent (transient b).text = .ok ⟨transient b, {}⟩ := fun b =>
    parseCacheIntent_text floatsReadBack_reference (by rintro n ⟨⟩) (by rintro n ⟨⟩)
  have hnamed : ∀ b, (lasting b).Named := by
    rintro b n ⟨⟩
    decide +kernel
  have hlasting : ∀ b, parseCacheIntent (lasting b).text = .ok ⟨lasting b, {}⟩ := fun b =>
    parseCacheIntent_text floatsReadBack_reference (hnamed b)
      (by rintro n ⟨⟩; exact encodable_lit "n")
  have htime : Nonempty Time := ⟨(0 : ℕ)⟩
  have hiff := fun b => interchangeable_iff collisionFree_reference floatsReadBack_reference
    (htransient b) (hlasting b) (by rintro n ⟨⟩)
  constructor
  · refine (hiff .request).mpr ⟨rfl, rfl, rfl, by simp [transient, lasting], ?_, ?_, ?_, ?_⟩
    · exact fun h => absurd rfl h
    · exact fun h => absurd rfl h
    · exact fun h => absurd rfl h
    · exact iff_of_true (by rintro n ⟨⟩) (by rintro n ⟨⟩; exact encodable_lit "n")
  · intro h
    cases ((hiff .tenant).mp h).2.reuse (by simp [transient])

end

end CacheControl

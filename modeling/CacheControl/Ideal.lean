import CacheControl.Identities

/-!
# A gateway without keys

The gateway over a store that is addressed by what state is.  It enforces every
policy, and no identity is spelled or digested.  The gateway over the in-memory
cache answers every run as it does.
-/

open PyText ExpiringStore

namespace CacheControl

section

variable [Runtime]

/-- Until when state is kept, by what it is. -/
abbrev Shelf := Store Identity (Option Time)

namespace Ideal

def find (i : Option Identity) (now : Time) : Prog PyError Shelf Bool := fun shelf =>
  match i with
  | none => (.ok false, shelf)
  | some i => (.ok (read id i now shelf).1.isSome, (read id i now shelf).2)

def keep (i : Option Identity) (now : Time) (maxAge : Option ℕ) : Prog PyError Shelf Unit :=
  fun shelf =>
    match InMemoryCache.expiry now maxAge with
    | .error e => (.error e, shelf)
    | .ok x => (.ok (), i.elim shelf fun i => shelf.insert i x)

def resolve (e : Effective) (name : List Str → Bool → Except PyError (Option Identity))
    (contents : List Str) (now : Time) (approxClass : Option Str) :
    Prog PyError Shelf (Outcome × Bool) :=
  if e.reuse = .none then pure (.bypass, false)
  else do
    let own ← Prog.lift (name contents true)
    match ← find own now with
    | true => pure (.exactHit, false)
    | false =>
        match e.reuse, approxClass with
        | .approximate, some c => do
            let donor ← Prog.lift (name [c] false)
            match ← find donor now with
            | true => pure (.approximateHit, true)
            | false => pure (.miss, false)
        | _, _ => pure (.miss, false)

def materialize (e : Effective) (name : List Str → Bool → Except PyError (Option Identity))
    (contents : List Str) (now : Time) (exact : Bool) (approxClass : Option Str) :
    Prog PyError Shelf RetentionStatus :=
  if e.retention.mode = .forbid then pure .forbidden
  else if e.shareMax = .request then pure .declined
  else do
    let own ← Prog.lift (name contents exact)
    keep own now e.retention.maxAge
    match approxClass with
    | none => pure .retained
    | some c => do
        let donor ← Prog.lift (name [c] false)
        keep donor now e.retention.maxAge
        pure .retained

def retain (o : Outcome) (e : Effective)
    (name : List Str → Bool → Except PyError (Option Identity)) (contents : List Str)
    (now : Time) (exact : Bool) (approxClass : Option Str) : Prog PyError Shelf RetentionStatus :=
  match o with
  | .exactHit => pure .retained
  | _ => materialize e name contents now exact approxClass

def serve (c : Call) (f : Fragment) (vars : LoopVars) (hints : HintStatus) (e : Effective) :
    Prog PyError Shelf (LoopVars × FragmentStatus) := do
  let name := identify e.shareMax c.auth c.requestId vars.namespacesSoFar
  let (outcome, usedApproximate) ← resolve e name vars.contentsSoFar c.now f.approxClass
  let tainted := vars.taintedApproximate || usedApproximate
  let retention ← retain outcome e name vars.contentsSoFar c.now (!tainted) f.approxClass
  pure ({ vars with taintedApproximate := tainted },
    Gateway.statusOf f e hints outcome retention (!tainted))

def turn (c : Call) (vars : LoopVars) (f : Fragment) :
    Prog PyError Shelf (LoopVars × FragmentStatus) := do
  match ← Prog.lift (enter inMemoryBackend.capabilities vars f) with
  | .ungoverned vars => pure (vars, Gateway.bareStatus f)
  | .governed vars hints e => serve c f vars hints e

def answer (c : Call) : Prog PyError Shelf Result := do
  let ordered ← Prog.lift c.ordered
  let statuses ← Prog.mapAccum (turn c) LoopVars.init ordered
  pure
    { statuses
      strippedScopeFields := match c.requestPayload with
        | none => []
        | some payload => (stripUntrustedScope payload).2
      order := ordered.map Fragment.id
      cacheSalt := none }

def run (calls : List Call) (shelf : Shelf) : List (Except PyError Result) × Shelf :=
  Prog.session answer calls shelf

end Ideal

/-! ## The store of keys and the store of identities -/

/-- The cache holds, under their keys, what the shelf holds. -/
structure Shelved (s : Entries) (shelf : Shelf) : Prop where
  rekeyed : Rekeyed Identity.Known Entry.expiresAt id s shelf
  named : ∀ k ∈ s, ∃ i, Identity.Known i k
  keyed : ∀ i ∈ shelf, ∃ k, i.Known k

theorem shelved_empty : Shelved ∅ ∅ :=
  ⟨.empty, fun _ h => absurd h Finmap.notMem_empty, fun _ h => absurd h Finmap.notMem_empty⟩

theorem Shelved.lookup_ofRequest (hcf : CollisionFree) {s : Entries} {shelf : Shelf} {k : Str}
    (h : Shelved s shelf) (hk : OfRequest k) : s.lookup k = none := by
  rw [Finmap.lookup_eq_none]
  intro hmem
  obtain ⟨i, hi⟩ := h.named k hmem
  exact hi.not_ofRequest hcf hk

variable {mode : OnUnenforceable} {e : Effective} {namespaces contents : List Str} {now : Time}
  {approxClass : Option Str} {auth : AuthContext} {requestId k : Str} {i : Option Identity}
  {exact : Bool}

theorem get_find (hcf : CollisionFree) (mode : OnUnenforceable) (now : Time)
    (h : Designates k i) :
    Prog.Relates Shelved Eq (fun entry found => entry.isSome = found)
      ((inMemoryGateway mode).backend.get k now) (Ideal.find i now) := by
  intro s shelf hshelved
  have hread : (inMemoryGateway mode).backend.get k now s =
      (.ok (read Entry.expiresAt k now s).1, (read Entry.expiresAt k now s).2) :=
    InMemoryCache.get_eq_read k now s
  rw [hread]
  cases i with
  | none =>
      have hnothing : read Entry.expiresAt k now s = (none, s) := by
        unfold ExpiringStore.read
        rw [hshelved.lookup_ofRequest hcf h]
      rw [hnothing]
      exact ⟨.ok rfl, hshelved⟩
  | some i =>
      obtain ⟨hfound, hnext⟩ := hshelved.rekeyed.read (biUnique_known hcf) h now
      refine ⟨.ok hfound, hnext, fun j hj => ?_, fun j hj => ?_⟩
      · exact hshelved.named j ((prunes_read s k now).mem hj)
      · exact hshelved.keyed j ((prunes_read shelf i now).mem hj)

theorem put_keep (hcf : CollisionFree) (mode : OnUnenforceable) (now : Time) (maxAge : Option ℕ)
    (exact : Bool) (h : Designates k i) (hi : i ≠ none) :
    Prog.Relates Shelved Eq (fun _ _ => True)
      ((inMemoryGateway mode).backend.put k now maxAge exact) (Ideal.keep i now maxAge) := by
  intro s shelf hshelved
  obtain ⟨i, rfl⟩ := Option.ne_none_iff_exists'.mp hi
  unfold Ideal.keep
  cases hx : InMemoryCache.expiry now maxAge with
  | error err =>
      have hput : (inMemoryGateway mode).backend.put k now maxAge exact s = (.error err, s) :=
        put_apply_error hx s
      rw [hput]
      exact ⟨.error rfl, hshelved⟩
  | ok x =>
      have hput : (inMemoryGateway mode).backend.put k now maxAge exact s =
          (.ok (some ⟨k, now, x, exact⟩), s.insert k ⟨k, now, x, exact⟩) := put_apply hx s
      rw [hput]
      refine ⟨.ok trivial, ?_, fun j hj => ?_, fun j hj => ?_⟩
      · apply hshelved.rekeyed.insert (biUnique_known hcf) h
        rfl
      · rcases Finmap.mem_insert.mp hj with rfl | hj
        · exact ⟨i, h⟩
        · exact hshelved.named j hj
      · rcases Finmap.mem_insert.mp hj with rfl | hj
        · exact ⟨k, h⟩
        · exact hshelved.keyed j hj

/-! ## One fragment -/

theorem resolve_ideal (hcf : CollisionFree) (hauth : auth.Plain) :
    Prog.Relates Shelved Eq (fun found found' => found = found' ∧ found.1 ≠ .unobserved)
      ((inMemoryGateway mode).resolve e contents namespaces
        (partitionFor e.shareMax auth requestId) now approxClass)
      (Ideal.resolve e (identify e.shareMax auth requestId namespaces) contents now
        approxClass) := by
  have hkeys := fun contents exact => Prog.relates_lift (R := Shelved)
    (identify_cacheKey hauth e.shareMax requestId namespaces contents exact)
  unfold Gateway.resolve Ideal.resolve
  rw [if_neg (by simp [inMemoryGateway, inMemoryBackend])]
  split
  · exact Prog.relates_pure ⟨rfl, by simp⟩
  · refine (hkeys contents true).bind fun k i hk => ?_
    refine (get_find hcf mode now hk.1).bind fun entry found hfound => ?_
    subst hfound
    cases entry with
    | some entry => exact Prog.relates_pure ⟨rfl, by simp⟩
    | none =>
        cases e.reuse with
        | none => exact Prog.relates_pure ⟨rfl, by simp⟩
        | exact => exact Prog.relates_pure ⟨rfl, by simp⟩
        | approximate =>
            cases approxClass with
            | none => exact Prog.relates_pure ⟨rfl, by simp⟩
            | some c =>
                refine (hkeys [c] false).bind fun dk donor hdk => ?_
                refine (get_find hcf mode now hdk.1).bind fun entry found hfound => ?_
                subst hfound
                cases entry <;> exact Prog.relates_pure ⟨rfl, by simp⟩

theorem materialize_ideal (hcf : CollisionFree) (hauth : auth.Plain) :
    Prog.Relates Shelved Eq Eq
      ((inMemoryGateway mode).materialize e contents namespaces
        (partitionFor e.shareMax auth requestId) now exact approxClass)
      (Ideal.materialize e (identify e.shareMax auth requestId namespaces) contents now exact
        approxClass) := by
  have hkeys := fun contents exact => Prog.relates_lift (R := Shelved)
    (identify_cacheKey hauth e.shareMax requestId namespaces contents exact)
  unfold Gateway.materialize Ideal.materialize
  split
  · exact Prog.relates_pure rfl
  · split
    · exact Prog.relates_pure rfl
    · rename_i hshare
      have hkept : ∀ {exact : Bool} {k : Str} {i : Option Identity},
          Designates k i ∧ (i = none → e.shareMax = .request) → Prog.Relates Shelved Eq
            (fun _ _ => True) ((inMemoryGateway mode).backend.put k now e.retention.maxAge exact)
            (Ideal.keep i now e.retention.maxAge) :=
        fun hi => put_keep hcf mode now _ _ hi.1 (mt hi.2 hshare)
      refine (hkeys contents exact).bind fun k own hk => ?_
      refine (hkept hk).bind fun _ _ _ => ?_
      cases approxClass with
      | none => exact Prog.relates_pure rfl
      | some c =>
          refine (hkeys [c] false).bind fun dk donor hdk => ?_
          exact (hkept hdk).bind fun _ _ _ => Prog.relates_pure rfl

theorem retain_ideal (hcf : CollisionFree) (hauth : auth.Plain) {o : Outcome}
    (ho : o ≠ .unobserved) :
    Prog.Relates Shelved Eq Eq
      ((inMemoryGateway mode).retain o e contents namespaces
        (partitionFor e.shareMax auth requestId) now exact approxClass)
      (Ideal.retain o e (identify e.shareMax auth requestId namespaces) contents now exact
        approxClass) := by
  cases o with
  | unobserved => exact absurd rfl ho
  | exactHit => exact Prog.relates_pure rfl
  | bypass => exact materialize_ideal hcf hauth
  | miss => exact materialize_ideal hcf hauth
  | approximateHit => exact materialize_ideal hcf hauth

theorem serve_ideal (hcf : CollisionFree) {c : Call} (hauth : c.auth.Plain) (f : Fragment)
    (vars : LoopVars) (hints : HintStatus) (e : Effective) :
    Prog.Relates Shelved Eq Eq
      ((inMemoryGateway mode).serve c.auth c.now c.requestId f vars hints e)
      (Ideal.serve c f vars hints e) := by
  unfold Gateway.serve Ideal.serve
  refine (resolve_ideal hcf hauth).bind fun found found' hfound => ?_
  obtain ⟨rfl, hobserved⟩ := hfound
  refine (retain_ideal hcf hauth hobserved).bind fun r r' hr => ?_
  subst hr
  exact Prog.relates_pure rfl

theorem turn_ideal (hcf : CollisionFree) (mode : OnUnenforceable) {c : Call}
    (hauth : c.auth.Plain) (vars : LoopVars) (f : Fragment) :
    Prog.Relates Shelved Eq Eq ((inMemoryGateway mode).turn c vars f) (Ideal.turn c vars f) := by
  have hread : Prog.Relates Shelved Eq Eq
      (Prog.lift (enter (inMemoryGateway mode).backend.capabilities vars f))
      (Prog.lift (enter inMemoryBackend.capabilities vars f)) :=
    Prog.relates_lift (Prog.exceptRel_refl (fun _ => rfl) (fun _ => rfl) _)
  unfold Gateway.turn Gateway.handleFragment Ideal.turn
  refine hread.bind fun entered entered' hentered => ?_
  subst hentered
  cases entered with
  | ungoverned vars => exact Prog.relates_pure rfl
  | governed vars hints e =>
      have hcheck : checkEnforceable (inMemoryGateway mode).backend.capabilities e = .ok () :=
        checkEnforceable_inMemory e
      simp only [hcheck]
      exact serve_ideal hcf hauth f vars hints e

theorem answer_ideal (hcf : CollisionFree) (mode : OnUnenforceable) {c : Call}
    (hauth : c.auth.Plain) :
    Prog.Relates Shelved Eq Eq ((inMemoryGateway mode).answer c) (Ideal.answer c) := by
  have hordered : Prog.ExceptRel Eq Eq c.ordered c.ordered :=
    Prog.exceptRel_refl (fun _ => rfl) (fun _ => rfl) _
  rw [answer_eq]
  unfold Ideal.answer
  refine (Prog.relates_lift hordered).bind fun fs fs' hfs => ?_
  subst hfs
  have hstep : ∀ vars vars' f f', vars = vars' → f = f' →
      Prog.Relates Shelved Eq (fun p q => p.1 = q.1 ∧ p.2 = q.2)
        ((inMemoryGateway mode).turn c vars f) (Ideal.turn c vars' f') := by
    rintro vars _ f _ rfl rfl s shelf hshelved
    obtain ⟨hresult, hnext⟩ := turn_ideal hcf mode hauth vars f s shelf hshelved
    refine ⟨hresult.imp ?_, hnext⟩
    rintro p q rfl
    exact ⟨rfl, rfl⟩
  have hloop := Prog.relates_mapAccum (B := Eq) (C := Eq) (D := Eq) hstep
    (List.forall₂_same.mpr fun f (_ : f ∈ fs) => rfl) (rfl : LoopVars.init = LoopVars.init)
  refine hloop.bind fun ss ss' hss => ?_
  rw [List.forall₂_eq_eq_eq] at hss
  subst hss
  exact Prog.relates_pure rfl

theorem run_ideal (hcf : CollisionFree) (mode : OnUnenforceable) {calls : List Call}
    (hplain : ∀ c ∈ calls, c.auth.Plain) :
    ((inMemoryGateway mode).run calls ∅).1 = (Ideal.run calls ∅).1 ∧
      Shelved ((inMemoryGateway mode).run calls ∅).2 (Ideal.run calls ∅).2 := by
  have hcalls : List.Forall₂ (fun c d => c = d ∧ c.auth.Plain) calls calls :=
    List.forall₂_same.mpr fun c hc => ⟨rfl, hplain c hc⟩
  have hanswer : ∀ c d : Call, c = d ∧ c.auth.Plain →
      Prog.Relates Shelved Eq Eq ((inMemoryGateway mode).answer c) (Ideal.answer d) := by
    rintro c _ ⟨rfl, hauth⟩
    exact answer_ideal hcf mode hauth
  obtain ⟨hresults, hshelved⟩ := Prog.relates_session hanswer hcalls shelved_empty
  refine ⟨?_, hshelved⟩
  rw [← List.forall₂_eq_eq_eq]
  refine hresults.imp fun r r' hr => ?_
  cases hr with
  | ok h => rw [h]
  | error h => rw [h]

/-- The run is answered as the gateway without keys answers it, and its cache holds what
the shelf of that one holds: each entry under the key of one identity, with the deadline
of that identity, and nothing else. -/
structure RunsIdeally (mode : OnUnenforceable) (calls : List Call) : Prop where
  answers : ((inMemoryGateway mode).run calls ∅).1 = (Ideal.run calls ∅).1
  entries : ∀ k entry, ((inMemoryGateway mode).run calls ∅).2.lookup k = some entry →
    ∃! i, Identity.Known i k ∧ (Ideal.run calls ∅).2.lookup i = some entry.expiresAt
  identities : ∀ i x, (Ideal.run calls ∅).2.lookup i = some x →
    ∃ k entry, i.Known k ∧ ((inMemoryGateway mode).run calls ∅).2.lookup k = some entry ∧
      entry.expiresAt = x

/-- No two things are ever taken for one: the digests that address the cache stand for
what state is, in every run. -/
theorem runs_ideally (hcf : CollisionFree) (mode : OnUnenforceable) (calls : List Call)
    (hplain : ∀ c ∈ calls, c.auth.Plain) : RunsIdeally mode calls := by
  obtain ⟨hanswers, hshelved⟩ := run_ideal hcf mode hplain
  refine ⟨hanswers, fun k entry hentry => ?_, fun i x hx => ?_⟩
  · obtain ⟨i, hi⟩ := hshelved.named k (Finmap.mem_of_lookup_eq_some hentry)
    have hat := hshelved.rekeyed i k hi
    rw [hentry] at hat
    obtain ⟨x, hx, hdeadline⟩ := Option.map_eq_some_iff.mp hat.symm
    refine ⟨i, ⟨hi, hdeadline ▸ hx⟩, fun j hj => ?_⟩
    exact (biUnique_known hcf).1 hj.1 hi
  · obtain ⟨k, hk⟩ := hshelved.keyed i (Finmap.mem_of_lookup_eq_some hx)
    have hat := hshelved.rekeyed i k hk
    rw [hx] at hat
    obtain ⟨entry, hentry, hdeadline⟩ := Option.map_eq_some_iff.mp hat
    exact ⟨k, entry, hk, hentry, hdeadline⟩

end

section

attribute [local instance] reference

def minuteCall (auth : AuthContext) (now : ℕ) : Call :=
  sampleCall auth now
    [sampleFragment "a" (some (intentText (.allow (some 60)) "exact" "tenant")) none]

/-- Neither tenant finds what the other one keeps. -/
theorem runs_ideally_minuteCall :
    ((Ideal.run [minuteCall alice 0, minuteCall bob 1, minuteCall alice 2] ∅).1.map fun r =>
        r.toOption.map fun r => r.statuses.map FragmentStatus.outcome) =
      [some [.miss], some [.miss], some [.exactHit]] ∧
    RunsIdeally .bypass [minuteCall alice 0, minuteCall bob 1, minuteCall alice 2] := by
  refine ⟨by decide +kernel, runs_ideally collisionFree_reference .bypass _ ?_⟩
  simp only [List.forall_mem_cons, List.not_mem_nil, IsEmpty.forall_iff, implies_true, and_true]
  exact ⟨plain_alice, plain_bob, plain_alice⟩

end

end CacheControl

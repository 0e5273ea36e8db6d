import CacheControl.Atomicity
import CacheControl.Meet
import CacheControl.Order

/-!
# No quiet downgrade

The gateway turns to its backend only for a prefix whose policy the backend can
enforce, and hands it exactly the bound of that policy.  A gateway that rejects
what cannot be enforced and one that bypasses it differ in nothing else.
-/

open PyText ExpiringStore

namespace CacheControl

section Recording

variable [Runtime] {σ : Type}

/-! ## Recorded accesses -/

inductive Access
  | get (key : Str) (now : Time)
  | put (key : Str) (now : Time) (maxAge : Option ℕ) (exact : Bool)

/-- The backend with a record of what is asked of it, in order. -/
def Backend.recorded (b : Backend σ) : Backend (σ × List Access) where
  capabilities := b.capabilities
  observesOutcomes := b.observesOutcomes
  get := fun key now s =>
    ((b.get key now s.1).1, ((b.get key now s.1).2, s.2 ++ [.get key now]))
  put := fun key now maxAge exact s =>
    ((b.put key now maxAge exact s.1).1,
      ((b.put key now maxAge exact s.1).2, s.2 ++ [.put key now maxAge exact]))
  saltFor := b.saltFor

def Gateway.recorded (g : Gateway σ) : Gateway (σ × List Access) :=
  ⟨g.backend.recorded, g.onUnenforceable⟩

def Access.maxAge : Access → Option ℕ
  | .get _ _ => none
  | .put _ _ maxAge _ => maxAge

/-- A write carries the bound of the policy. -/
def Access.Carries (eff : Effective) : Access → Prop
  | .get _ _ => True
  | .put _ _ maxAge _ => maxAge = eff.retention.maxAge

/-- What was asked of the backend on behalf of the event's fragment. -/
def Event.accesses (g : Gateway σ) (v : Event (σ × List Access)) : List Access :=
  (v.after g.recorded).2.drop v.state.2.length

variable {g : Gateway σ} {calls : List Call} {v : Event (σ × List Access)} {eff : Effective}

theorem sim_recorded (g : Gateway σ) (c : Call) :
    Prog.Sim (fun s t => t.1 = s) (g.answer c) (g.recorded.answer c) := by
  have hagrees : g.Agrees g.recorded := ⟨rfl, rfl, rfl⟩
  refine sim_answer hagrees fun f vars hints eff _ => sim_serve hagrees ?_ ?_
  · rintro contents namespaces exact k - s t rfl
    exact ⟨rfl, rfl⟩
  · rintro k exact s t rfl
    exact ⟨rfl, rfl⟩

/-- Recording changes nothing. -/
theorem run_recorded (g : Gateway σ) (calls : List Call) (s : σ) (log : List Access) :
    (g.recorded.run calls (s, log)).1 = (g.run calls s).1 ∧
      (g.recorded.run calls (s, log)).2.1 = (g.run calls s).2 := by
  induction calls generalizing s log with
  | nil => exact ⟨rfl, rfl⟩
  | cons c calls ih =>
      obtain ⟨hanswer, hstate⟩ := sim_recorded g c s (s, log) rfl
      obtain ⟨hrest, hend⟩ := ih (g.answer c s).2 (g.recorded.answer c (s, log)).2.2
      unfold Gateway.run at hrest hend ⊢
      have hnext : (g.recorded.answer c (s, log)).2 =
          ((g.answer c s).2, (g.recorded.answer c (s, log)).2.2) := Prod.ext hstate rfl
      rw [Prog.session_cons_fst, Prog.session_cons_fst, Prog.session_cons_snd,
        Prog.session_cons_snd, hnext, hrest, hend, hanswer]
      exact ⟨rfl, rfl⟩

/-- The record grows by accesses with the property. -/
def Appends (P : Access → Prop) (s t : σ × List Access) : Prop :=
  ∃ new, t.2 = s.2 ++ new ∧ ∀ a ∈ new, P a

theorem Appends.refl {P : Access → Prop} (s : σ × List Access) : Appends P s s :=
  ⟨[], by simp, by simp⟩

theorem Appends.trans {P : Access → Prop} (s t u : σ × List Access) (h₁ : Appends P s t)
    (h₂ : Appends P t u) : Appends P s u := by
  obtain ⟨new, hnew, hP⟩ := h₁
  obtain ⟨new', hnew', hP'⟩ := h₂
  refine ⟨new ++ new', by rw [hnew', hnew, List.append_assoc], fun a ha => ?_⟩
  exact (List.mem_append.mp ha).elim (hP a) (hP' a)

theorem appends_after {P : Effective → Access → Prop} (hget : ∀ eff key now, P eff (.get key now))
    (hput : ∀ eff key now exact, eff.retention.mode ≠ .forbid → eff.shareMax ≠ .request →
      P eff (.put key now eff.retention.maxAge exact)) (h : Follows v.done v.acc) :
    Appends (fun a => ∃ eff, policy v.sent = some eff ∧
      checkEnforceable g.backend.capabilities eff = .ok () ∧ P eff a) v.state
      (v.after g.recorded) := by
  have hturn := turn_handleFragment g.recorded v.call.auth v.call.now v.call.requestId h v.item
  refine hturn.within Appends.refl (fun vars hints eff hpolicy hcheck => ?_) v.state
  have hone : ∀ (a : Access) s t, t.2 = s.2 ++ [a] → P eff a →
      Appends (fun a => ∃ eff, policy v.sent = some eff ∧
        checkEnforceable g.backend.capabilities eff = .ok () ∧ P eff a)
        (s : σ × List Access) t := by
    refine fun a s t ht ha => ⟨[a], ht, fun a' ha' => ?_⟩
    rw [List.mem_singleton.mp ha']
    exact ⟨eff, hpolicy, hcheck, ha⟩
  refine Prog.Within.bind Appends.trans ?_ fun oa => ?_
  · exact within_resolve_of_get Appends.refl Appends.trans fun _ _ k _ s =>
      hone (.get k v.call.now) s _ rfl (hget eff k v.call.now)
  · refine Prog.Within.bind Appends.trans ?_ fun r => Prog.within_pure Appends.refl _
    exact within_retain_of_put Appends.refl Appends.trans fun hmode hshare k exact s =>
      hone (.put k v.call.now eff.retention.maxAge exact) s _ rfl (hput _ _ _ _ hmode hshare)

theorem of_mem_accesses {P : Effective → Access → Prop}
    (hget : ∀ eff key now, P eff (.get key now))
    (hput : ∀ eff key now exact, eff.retention.mode ≠ .forbid → eff.shareMax ≠ .request →
      P eff (.put key now eff.retention.maxAge exact)) (h : Follows v.done v.acc) {a : Access}
    (ha : a ∈ v.accesses g) : ∃ eff, policy v.sent = some eff ∧
      checkEnforceable g.backend.capabilities eff = .ok () ∧ P eff a := by
  obtain ⟨new, hnew, hall⟩ := appends_after (g := g) hget hput h
  unfold Event.accesses at ha
  rw [hnew, List.drop_left] at ha
  exact hall a ha

theorem carries_of_mem_accesses (h : Follows v.done v.acc) {a : Access}
    (ha : a ∈ v.accesses g) : ∃ eff, policy v.sent = some eff ∧
      checkEnforceable g.backend.capabilities eff = .ok () ∧ a.Carries eff :=
  of_mem_accesses (fun _ _ _ => trivial) (fun _ _ _ _ _ _ => rfl) h ha

theorem accesses_eq (h : Follows v.done v.acc) :
    (v.after g.recorded).2 = v.state.2 ++ v.accesses g := by
  obtain ⟨new, hnew, -⟩ := appends_after (g := g) (P := fun _ _ => True)
    (fun _ _ _ => trivial) (fun _ _ _ _ _ _ => trivial) h
  unfold Event.accesses
  rw [hnew, List.drop_left]

/-- Nothing is asked of the backend but on behalf of a fragment. -/
theorem record_eq (g : Gateway σ) (calls : List Call) (s : σ × List Access) :
    (g.recorded.run calls s).2.2 =
      s.2 ++ (g.recorded.trace calls s).flatMap (Event.accesses g) := by
  have hinv := Prog.Chained.invariant
    (fun hist t => t.2 = s.2 ++ hist.flatMap (Event.accesses g)) []
    (chained_traceFrom g.recorded 0 calls s) (by simp) (by
      intro pre v post hsplit hrecord
      rw [accesses_eq (follows_of_split hsplit), hrecord]
      simp)
  exact hinv.1

end Recording

section Requests

variable [Runtime] {c : Call} {fs : List Fragment}

/-! ## Requests in order -/

/-- The ids are distinct strings or absent, the intents are valid, and every
string can be encoded. -/
structure Call.WellFormed (c : Call) : Prop where
  ids : ∀ f ∈ c.fragments, f.id = .null ∨ ∃ id, f.id = .str id
  distinct : (c.fragments.filterMap Fragment.suppliedId).Nodup
  intents : ∀ f ∈ c.fragments, ∀ text, f.intentJson = some text →
    ∃ intent, parseCacheIntent text = .ok intent ∧
      ∀ n, intent.constraints.ns = some n → Encodable n
  contents : ∀ f ∈ c.fragments, Encodable f.content
  classes : ∀ f ∈ c.fragments, ∀ cls, f.approxClass = some cls → Encodable cls
  tenant : Encodable c.auth.tenant
  principal : Encodable c.auth.principal
  session : Encodable c.auth.session
  requestId : Encodable c.requestId

theorem Call.WellFormed.exists_ordered (h : c.WellFormed) :
    ∃ ordered, c.ordered = .ok ordered ∧ ordered.Perm c.fragments := by
  have hread : Readable c.fragments := by
    intro f hf text htext
    obtain ⟨intent, hintent, -⟩ := h.intents f hf text htext
    exact ⟨intent, hintent⟩
  obtain ⟨ordered, -, hordered, hperm⟩ := Call.exists_ordered hread h.ids h.distinct
  exact ⟨ordered, hordered, hperm⟩

end Requests

section Rejection

variable [Runtime] {σ : Type} {b : Backend σ} {refuses : Time → ℕ → Prop} {c : Call}
  {p : List Fragment} {v : Event σ} {eff : Effective} {s : σ}

/-! ## What a prefix supplies -/

theorem exists_constraintsOf (h : ∀ f ∈ p, ∀ text, f.intentJson = some text →
    ∃ intent, parseCacheIntent text = .ok intent) : ∃ cs, constraintsOf p = some cs := by
  induction p with
  | nil => exact ⟨[], rfl⟩
  | cons f p ih =>
      obtain ⟨hf, hrest⟩ := List.forall_mem_cons.mp h
      obtain ⟨cs, hcs⟩ := ih hrest
      rw [constraintsOf_cons, hcs]
      cases htext : f.intentJson with
      | none => exact ⟨cs, by simp [ownConstraints, htext]⟩
      | some text =>
          obtain ⟨intent, hparse⟩ := hf text htext
          exact ⟨intent.constraints :: cs, by
            simp [ownConstraints, htext, hparse, Except.toOption]⟩

namespace Call.WellFormed

variable (hc : c.WellFormed) (hp : p ⊆ c.fragments)

include hc hp

theorem exists_policy : constraintsOf p = some [] ∨ ∃ eff, policy p = some eff := by
  obtain ⟨cs, hcs⟩ := exists_constraintsOf (p := p) fun f hf text htext => by
    obtain ⟨intent, hparse, -⟩ := hc.intents f (hp hf) text htext
    exact ⟨intent, hparse⟩
  refine policy_of_constraintsOf hcs fun d hd n hn => ?_
  obtain ⟨f, hf, text, intent, htext, hparse, rfl⟩ := (mem_constraintsOf hcs).mp hd
  obtain ⟨intent', hparse', hns⟩ := hc.intents f (hp hf) text htext
  cases hparse.symm.trans hparse'
  exact hns n hn

theorem exists_key (hpolicy : policy p = some eff) (exact : Bool) :
    ∃ k, cacheKey execution (contentsOf p) (namespacesOf p)
      (partitionFor eff.shareMax c.auth c.requestId) exact = .ok k := by
  apply exists_cacheKey
  · exact encodable_partitionFor hc.tenant hc.principal hc.session hc.requestId _
  · exact ⟨_, namespaceDigest_of_policy hpolicy⟩
  · intro content hcontent
    obtain ⟨f, hf, rfl⟩ := List.mem_map.mp hcontent
    exact hc.contents f (hp hf)

theorem exists_donorKey (hpolicy : policy p = some eff) {f : Fragment} (hf : f ∈ p) {cls : Str}
    (hcls : f.approxClass = some cls) : ∃ dk, cacheKey execution [cls] (namespacesOf p)
      (partitionFor eff.shareMax c.auth c.requestId) false = .ok dk := by
  apply exists_cacheKey
  · exact encodable_partitionFor hc.tenant hc.principal hc.session hc.requestId _
  · exact ⟨_, namespaceDigest_of_policy hpolicy⟩
  · intro content hcontent
    rw [List.mem_singleton.mp hcontent]
    exact hc.classes f (hp hf) cls hcls

end Call.WellFormed

/-! ## Where a request fails -/

/-- The composed constraints of the prefix fail the capability check. -/
def Fails (caps : Capabilities) (p : List Fragment) : Prop :=
  ∃ eff e, policy p = some eff ∧ checkEnforceable caps eff = .error e

theorem not_fails_of_enforceable {caps : Capabilities} (hpolicy : policy p = some eff)
    (hcheck : checkEnforceable caps eff = .ok ()) : ¬ Fails caps p := by
  rintro ⟨eff', e, hpolicy', hcheck'⟩
  cases hpolicy.symm.trans hpolicy'
  cases hcheck.symm.trans hcheck'

def Unenforced (e : PyError) : Prop := ∃ reason, e = .unenforceableConstraint reason

omit [Runtime] in
theorem unenforced_of_check {caps : Capabilities} {e : PyError}
    (h : checkEnforceable caps eff = .error e) : Unenforced e := by
  unfold checkEnforceable at h
  repeat' split at h
  all_goals cases h
  all_goals exact ⟨_, rfl⟩

/-- Reads of the backend succeed, and writes fail just for the bounds it refuses. -/
structure Backend.Refuses (b : Backend σ) (refuses : Time → ℕ → Prop) : Prop where
  get : ∀ key now s, ∃ found t, b.get key now s = (.ok found, t)
  put_ok : ∀ key now maxAge exact s, (∀ m, maxAge = some m → ¬ refuses now m) →
    ∃ entry t, b.put key now maxAge exact s = (.ok entry, t)
  put_error : ∀ key now m exact s, refuses now m →
    ∃ e t, b.put key now (some m) exact s = (.error e, t) ∧ ¬ Unenforced e

/-- The state of the event's prefix is to be stored under a bound that the backend
refuses. -/
structure Event.Refused (b : Backend σ) (refuses : Time → ℕ → Prop) (v : Event σ)
    (eff : Effective) : Prop where
  policy : policy v.sent = some eff
  enforceable : checkEnforceable b.capabilities eff = .ok ()
  observes : b.observesOutcomes = true
  allows : eff.retention.mode = .allow
  shared : eff.shareMax ≠ .request
  absent : eff.reuse = .none ∨ ∃ k, v.call.exactKey v.done v.item eff = .ok k ∧
    (b.get k v.call.now v.state).1 = .ok none
  bound : ∃ m, eff.retention.maxAge = some m ∧ refuses v.call.now m

/-- How an iteration of the gateway that rejects can end. -/
inductive Rejecting (b : Backend σ) (refuses : Time → ℕ → Prop) (v : Event σ) {α : Type} :
    Except PyError α → Prop
  | fails (e : PyError) : Fails b.capabilities v.sent → Unenforced e →
      Rejecting b refuses v (.error e)
  | refused (eff : Effective) (e : PyError) : v.Refused b refuses eff → ¬ Unenforced e →
      Rejecting b refuses v (.error e)
  | answered (x : α) : ¬ Fails b.capabilities v.sent → (∀ eff, ¬ v.Refused b refuses eff) →
      Rejecting b refuses v (.ok x)

theorem Event.Refused.not_fails (h : v.Refused b refuses eff) : ¬ Fails b.capabilities v.sent :=
  not_fails_of_enforceable h.policy h.enforceable

/-- The state of the event's prefix is computed anew: the lookup happens, and it is not
made or finds nothing under the exact key. -/
def Event.Fresh (b : Backend σ) (v : Event σ) (eff : Effective) : Prop :=
  b.observesOutcomes = true ∧ (eff.reuse = .none ∨
    ∃ k, v.call.exactKey v.done v.item eff = .ok k ∧ (b.get k v.call.now v.state).1 = .ok none)

theorem Event.Refused.fresh (h : v.Refused b refuses eff) : v.Fresh b eff := ⟨h.observes, h.absent⟩

theorem fresh_iff {o : Outcome} {a : Bool} {t : σ} {mode : OnUnenforceable}
    (hlookup : v.lookup ⟨b, mode⟩ eff = (.ok (o, a), t)) :
    v.Fresh b eff ↔ o ≠ .unobserved ∧ o ≠ .exactHit := by
  have hresolves := resolves_of_resolve hlookup
  constructor
  · rintro ⟨hobserves, habsent⟩
    constructor
    · intro ho
      cases hobserves.symm.trans (hresolves.unobserved_iff.mp ho)
    · rintro rfl
      cases hresolves with
      | exactHit k entry hobs hreuse hk hget =>
          rcases habsent with hnone | ⟨k', hk', habsent⟩
          · exact hreuse hnone
          · cases hk.symm.trans hk'
            cases habsent.symm.trans (congrArg Prod.fst hget)
  · rintro ⟨ho, ho'⟩
    have hobserves : b.observesOutcomes = true := by
      by_contra hnot
      exact ho (hresolves.unobserved_iff.mpr (Bool.eq_false_iff.mpr hnot))
    refine ⟨hobserves, ?_⟩
    have habsent : ∀ {k u}, b.get k v.call.now v.state = (.ok none, u) →
        (b.get k v.call.now v.state).1 = .ok none := fun h => by rw [h]
    cases hresolves with
    | unobserved => exact absurd rfl ho
    | bypass _ hreuse => exact .inl hreuse
    | exactHit => exact absurd rfl ho'
    | approximateHit k _ _ _ _ _ _ _ hk _ hget => exact .inr ⟨k, hk, habsent hget⟩
    | missDonor k _ _ _ _ _ _ hk _ hget => exact .inr ⟨k, hk, habsent hget⟩
    | miss k _ _ _ hk hget => exact .inr ⟨k, hk, habsent hget⟩

theorem refused_of_fresh {o : Outcome} {a : Bool} {t : σ} {mode : OnUnenforceable} {m : ℕ}
    (hpolicy : policy v.sent = some eff) (hcheck : checkEnforceable b.capabilities eff = .ok ())
    (hlookup : v.lookup ⟨b, mode⟩ eff = (.ok (o, a), t)) (ho : o ≠ .unobserved)
    (ho' : o ≠ .exactHit) (hallow : eff.retention.mode = .allow) (hshare : eff.shareMax ≠ .request)
    (hm : eff.retention.maxAge = some m) (hrefuses : refuses v.call.now m) :
    v.Refused b refuses eff := by
  obtain ⟨hobserves, habsent⟩ := (fresh_iff hlookup).mpr ⟨ho, ho'⟩
  exact ⟨hpolicy, hcheck, hobserves, hallow, hshare, habsent, m, hm, hrefuses⟩

section Retaining

variable {mode : OnUnenforceable} {o : Outcome} {a : Bool} {t : σ}
  (hlookup : v.lookup ⟨b, mode⟩ eff = (.ok (o, a), t))
  (hkey : ∀ exact, ∃ k, cacheKey execution (contentsOf v.sent) (namespacesOf v.sent)
    (v.partition eff) exact = .ok k)

include hlookup hkey

/-- A bound that is refused makes the retention fail. -/
theorem Event.Refused.retain_error (hrefused : v.Refused b refuses eff) (hb : b.Refuses refuses)
    (exact : Bool) : ∃ e u, (⟨b, mode⟩ : Gateway σ).retain o eff (contentsOf v.sent)
      (namespacesOf v.sent) (v.partition eff) v.call.now exact v.item.approxClass t =
        (.error e, u) ∧ ¬ Unenforced e := by
  obtain ⟨ho, ho'⟩ := (fresh_iff hlookup).mp hrefused.fresh
  obtain ⟨m, hm, hrefuses⟩ := hrefused.bound
  apply retain_of_put_error ho ho' hrefused.allows hrefused.shared (hkey exact)
  intro k exact s
  rw [hm]
  exact hb.put_error k v.call.now m exact s hrefuses

/-- Without one it succeeds where the donor's key can be spelled. -/
theorem retain_of_not_refused (hrefused : ¬ v.Refused b refuses eff) (hb : b.Refuses refuses)
    (hpolicy : policy v.sent = some eff) (hcheck : checkEnforceable b.capabilities eff = .ok ())
    (hdonor : o ≠ .unobserved → o ≠ .exactHit → eff.retention.mode = .allow →
      eff.shareMax ≠ .request → ∀ cls, v.item.approxClass = some cls →
        ∃ dk, cacheKey execution [cls] (namespacesOf v.sent) (v.partition eff) false = .ok dk)
    (exact : Bool) : ∃ r u, (⟨b, mode⟩ : Gateway σ).retain o eff (contentsOf v.sent)
      (namespacesOf v.sent) (v.partition eff) v.call.now exact v.item.approxClass t =
        (.ok r, u) := by
  apply retain_ok
  intro ho ho' hallow hshare
  refine ⟨fun k exact s => ?_, hkey exact, hdonor ho ho' hallow hshare⟩
  apply hb.put_ok
  intro m hm hrefuses
  exact hrefused (refused_of_fresh hpolicy hcheck hlookup ho ho' hallow hshare hm hrefuses)

end Retaining

/-- Every iteration of the gateway that rejects ends in one of the three ways. -/
theorem rejecting_turn (hb : b.Refuses refuses) (hc : v.call.WellFormed)
    (hsent : v.sent ⊆ v.call.fragments) (hfollows : Follows v.done v.acc) :
    Rejecting b refuses v ((⟨b, .reject⟩ : Gateway σ).turn v.call v.acc v.item v.state).1 := by
  have hcases := turn_handleFragment (⟨b, .reject⟩ : Gateway σ) v.call.auth v.call.now
    v.call.requestId hfollows v.item
  unfold Gateway.turn
  generalize (⟨b, .reject⟩ : Gateway σ).handleFragment v.call.auth v.call.now v.call.requestId v.acc
    v.item = prog at hcases ⊢
  have hnone : policy v.sent = none → ∀ α (x : α), Rejecting b refuses v (.ok x) := by
    refine fun hnone α x => .answered x ?_ fun eff hrefused => ?_
    · rintro ⟨eff, e, hpolicy, -⟩
      cases hnone.symm.trans hpolicy
    · cases hnone.symm.trans hrefused.policy
  cases hcases with
  | unread e hnone hcs =>
      rcases hc.exists_policy hsent with hbare | ⟨eff, hpolicy⟩
      · exact absurd hbare hcs
      · cases hnone.symm.trans hpolicy
  | rejected eff e hpolicy hcheck hmode =>
      exact .fails e ⟨eff, e, hpolicy, hcheck⟩ (unenforced_of_check hcheck)
  | bare vars hvars htaint hcs => exact hnone (policy_eq_none_of_bare hcs) _ _
  | bypassed vars hints eff e hvars htaint hpolicy hcheck hmode => cases hmode
  | served vars hints eff hvars htaint hpolicy hcheck =>
      have hkey := hc.exists_key (p := v.done ++ [v.item]) hsent hpolicy
      have hdonor : ∀ cls, v.item.approxClass = some cls → ∃ dk, cacheKey execution [cls]
          (namespacesOf (v.done ++ [v.item])) (partitionFor eff.shareMax v.call.auth
            v.call.requestId) false = .ok dk :=
        fun cls hcls => hc.exists_donorKey hsent hpolicy
          (List.mem_append_right _ (List.mem_singleton_self _)) hcls
      obtain ⟨o, a, t, hlookup⟩ : ∃ o a t, v.lookup ⟨b, .reject⟩ eff = (.ok (o, a), t) :=
        resolve_ok (fun k s => hb.get k v.call.now s) (hkey true) (fun _ => hdonor) v.state
      have hserve := hlookup
      unfold Event.lookup Event.sent at hserve
      rw [← hvars.contents, ← hvars.namespaces] at hserve
      rw [serve_of_resolve hserve, hvars.contents, hvars.namespaces]
      by_cases hrefused : v.Refused b refuses eff
      · obtain ⟨e, u, hretain, hreason⟩ :=
          hrefused.retain_error hlookup hkey hb (!(vars.taintedApproximate || a))
        unfold Event.sent Event.partition at hretain
        rw [hretain]
        exact .refused eff e hrefused hreason
      · obtain ⟨r, u, hretain⟩ := retain_of_not_refused hlookup hkey hrefused hb hpolicy hcheck
          (fun _ _ _ _ => hdonor) (!(vars.taintedApproximate || a))
        unfold Event.sent Event.partition at hretain
        rw [hretain]
        refine .answered _ (not_fails_of_enforceable hpolicy hcheck) fun eff' hrefused' => ?_
        cases hpolicy.symm.trans hrefused'.policy
        exact hrefused hrefused'

theorem not_fails_of_status (hfollows : Follows v.done v.acc) {st : FragmentStatus}
    (hst : v.status (⟨b, .reject⟩ : Gateway σ) = some st) : ¬ Fails b.capabilities v.sent := by
  cases reports_of_status hfollows hst with
  | bare hcs =>
      rintro ⟨eff, e, hpolicy, -⟩
      cases hpolicy.symm.trans (policy_eq_none_of_bare hcs)
  | bypassed hints eff e hpolicy hcheck hmode => cases hmode
  | served hints eff o a r t hpolicy hcheck => exact not_fails_of_enforceable hpolicy hcheck

theorem not_fails_of_answer {r : Result} {ordered : List Fragment}
    (h : ((⟨b, .reject⟩ : Gateway σ).answer c s).1 = .ok r) (hordered : c.ordered = .ok ordered)
    (hp : p <+: ordered) : ¬ Fails b.capabilities p := by
  intro hfails
  have hne : p ≠ [] := by
    rintro rfl
    obtain ⟨eff, e, hpolicy, -⟩ := hfails
    cases hpolicy
  rw [← List.dropLast_append_getLast hne] at hp
  obtain ⟨v, hv, hsent, st, hst, -⟩ := event_of_answer h hordered hp
  rw [List.dropLast_append_getLast hne] at hsent
  exact not_fails_of_status (follows_of_mem hv) hst (hsent ▸ hfails)

/-- A call is rejected for its policy. -/
def Rejected (b : Backend σ) (c : Call) (s : σ) : Prop :=
  ∃ reason, ((⟨b, .reject⟩ : Gateway σ).answer c s).1 = .error (.unenforceableConstraint reason)

section

variable {ordered : List Fragment} (hb : b.Refuses refuses) (hc : c.WellFormed)
  (hordered : c.ordered = .ok ordered) (hsub : ordered ⊆ c.fragments)

include hb hc hordered hsub

theorem rejecting_of_mem (hv : v ∈ (⟨b, .reject⟩ : Gateway σ).trace [c] s) : v.sent <+: ordered ∧
    Rejecting b refuses v ((⟨b, .reject⟩ : Gateway σ).turn c v.acc v.item v.state).1 := by
  obtain ⟨-, -, rfl⟩ := mem_trace_single.mp hv
  obtain ⟨ordered', hordered', hsent⟩ := sent_prefix_of_mem hv
  cases hordered.symm.trans hordered'
  exact ⟨hsent, rejecting_turn hb hc (fun f hf => hsub (hsent.subset hf)) (follows_of_mem hv)⟩

theorem fails_of_rejected (h : Rejected b c s) : ∃ p, p <+: ordered ∧ Fails b.capabilities p := by
  obtain ⟨reason, hraise⟩ := h
  obtain ⟨v, hv, hraise⟩ := (answer_error_iff hordered).mp hraise
  obtain ⟨hsent, hends⟩ := rejecting_of_mem hb hc hordered hsub hv
  rw [hraise] at hends
  cases hends with
  | fails _ hfails => exact ⟨v.sent, hsent, hfails⟩
  | refused eff _ _ hreason => exact absurd ⟨reason, rfl⟩ hreason

/-- A call raises once, and a bound that is refused raises an error of its own. -/
theorem not_rejected_of_refused (hv : v ∈ (⟨b, .reject⟩ : Gateway σ).trace [c] s)
    (hrefused : v.Refused b refuses eff) : ¬ Rejected b c s := by
  rintro ⟨reason, hraise⟩
  have hends := (rejecting_of_mem hb hc hordered hsub hv).2
  generalize hresult : ((⟨b, .reject⟩ : Gateway σ).turn c v.acc v.item v.state).1 = result at hends
  cases hends with
  | fails e hfails => exact hrefused.not_fails hfails
  | refused eff' e hrefused' hreason =>
      cases hraise.symm.trans ((answer_error_iff hordered).mpr ⟨v, hv, hresult⟩)
      exact hreason ⟨reason, rfl⟩
  | answered x hfails hrefused' => exact hrefused' eff hrefused

theorem rejected_of_fails
    (hnone : ∀ v ∈ (⟨b, .reject⟩ : Gateway σ).trace [c] s, ∀ eff, ¬ v.Refused b refuses eff)
    {p : List Fragment} (hp : p <+: ordered) (hfails : Fails b.capabilities p) :
    Rejected b c s := by
  cases hanswer : ((⟨b, .reject⟩ : Gateway σ).answer c s).1 with
  | error e =>
      obtain ⟨v, hv, hraise⟩ := (answer_error_iff hordered).mp hanswer
      have hends := (rejecting_of_mem hb hc hordered hsub hv).2
      rw [hraise] at hends
      cases hends with
      | fails _ _ hreason =>
          obtain ⟨reason, rfl⟩ := hreason
          exact ⟨reason, hanswer⟩
      | refused eff _ hrefused => exact absurd hrefused (hnone v hv eff)
  | ok r => exact absurd hfails (not_fails_of_answer hanswer hordered hp)

end

/-- A gateway that rejects raises for its policy exactly when a prefix fails, unless a
bound that is refused comes in between. -/
theorem rejected_iff (hb : b.Refuses refuses) (hc : c.WellFormed) {ordered : List Fragment}
    (hordered : c.ordered = .ok ordered) (hsub : ordered ⊆ c.fragments) :
    (Rejected b c s ↔ ∃ p, p <+: ordered ∧ Fails b.capabilities p) ↔
      (∀ p, p <+: ordered → ¬ Fails b.capabilities p) ∨
        ∀ v ∈ (⟨b, .reject⟩ : Gateway σ).trace [c] s, ∀ eff, ¬ v.Refused b refuses eff := by
  constructor
  · intro hiff
    refine or_iff_not_imp_left.mpr fun hsome v hv eff hrefused => ?_
    simp only [not_forall, not_not, exists_prop] at hsome
    exact not_rejected_of_refused hb hc hordered hsub hv hrefused (hiff.mpr hsome)
  · intro hor
    refine ⟨fails_of_rejected hb hc hordered hsub, ?_⟩
    rintro ⟨p, hp, hfails⟩
    rcases hor with hnone | hnone
    · exact absurd hfails (hnone p hp)
    · exact rejected_of_fails hb hc hordered hsub hnone hp hfails

end Rejection

section Modes

variable [Runtime] {σ : Type} {b : Backend σ} {refuses : Time → ℕ → Prop} {c : Call}
  {s t : σ} {r : Result}

/-! ## The two modes -/

/-- Where a gateway that rejects answers, one that bypasses answers the same. -/
theorem answer_bypass_of_reject
    (h : (⟨b, .reject⟩ : Gateway σ).answer c s = (.ok r, t)) :
    (⟨b, .bypass⟩ : Gateway σ).answer c s = (.ok r, t) := by
  have hturn : ∀ vars f s x t, (⟨b, .reject⟩ : Gateway σ).turn c vars f s = (.ok x, t) →
      (⟨b, .bypass⟩ : Gateway σ).turn c vars f s = (.ok x, t) := by
    intro vars f s x t hok
    unfold Gateway.turn Gateway.handleFragment at hok ⊢
    obtain ⟨entered, hentered, hok⟩ := Prog.lift_bind_eq_ok_iff.mp hok
    rw [show enter b.capabilities vars f = .ok entered from hentered, Prog.lift_ok_bind]
    cases entered with
    | ungoverned vars' => exact hok
    | governed vars' hints eff =>
        cases hcheck : checkEnforceable b.capabilities eff with
        | ok u =>
            simp only [hcheck] at hok ⊢
            exact hok
        | error e =>
            simp only [hcheck] at hok
            cases hok
  rw [answer_eq] at h ⊢
  obtain ⟨ordered, hordered, h⟩ := Prog.lift_bind_eq_ok_iff.mp h
  obtain ⟨statuses, u, hloop, h⟩ := Prog.bind_eq_ok_iff.mp h
  rw [hordered, Prog.lift_ok_bind, Prog.bind_of_ok (Prog.mapAccum_of_ok hturn hloop)]
  exact h

/-! ## The backends -/

/-- The backends, each under any record of capabilities, and the bounds that its
`put` does not take. -/
inductive Shipped : {σ : Type} → Backend σ → (Time → ℕ → Prop) → Prop
  | inMemory (caps : Capabilities) :
      Shipped { inMemoryBackend with capabilities := caps } fun now m => Runtime.plus now m = none
  | saltOnly (caps : Capabilities) :
      Shipped { saltOnlyBackend with capabilities := caps } fun _ _ => True
  | null (caps : Capabilities) :
      Shipped { nullBackend with capabilities := caps } fun _ _ => False
  | vllm (caps : Capabilities) :
      Shipped { vllmBackend with capabilities := caps } fun _ _ => True

theorem Shipped.refusals (h : Shipped b refuses) : b.Refuses refuses := by
  cases h with
  | inMemory caps =>
      refine ⟨fun key now s => ⟨_, get_apply key now s⟩, ?_, ?_⟩
      · intro key now maxAge exact s htakes
        obtain ⟨expiresAt, hexpiry⟩ : ∃ x, InMemoryCache.expiry now maxAge = .ok x := by
          cases maxAge with
          | none => exact ⟨none, rfl⟩
          | some m =>
              obtain ⟨d, hd⟩ := Option.ne_none_iff_exists'.mp (htakes m rfl)
              exact ⟨some d, InMemoryCache.expiry_some_eq_ok_iff.mpr ⟨d, hd, rfl⟩⟩
        exact ⟨_, _, put_apply hexpiry s⟩
      · intro key now m exact s hplus
        have hexpiry : InMemoryCache.expiry now (some m) = .error .overflowError := by
          simp [InMemoryCache.expiry, hplus]
        exact ⟨_, _, put_apply_error hexpiry s, by rintro ⟨reason, h⟩; cases h⟩
  | saltOnly caps =>
      refine ⟨fun key now s => ⟨_, get_apply key now s⟩, ?_, ?_⟩
      · intro key now maxAge exact s htakes
        cases maxAge with
        | none =>
            have hput : saltOnlyBackend.put key now none exact =
                InMemoryCache.put key now none exact := by simp [saltOnlyBackend]
            exact ⟨_, _, (congrFun hput s).trans (put_apply rfl s)⟩
        | some m => exact absurd trivial (htakes m rfl)
      · exact fun key now m exact s _ => ⟨_, _, rfl, by rintro ⟨reason, h⟩; cases h⟩
  | null caps =>
      exact ⟨fun _ _ _ => ⟨_, _, rfl⟩, fun _ _ _ _ _ _ => ⟨_, _, rfl⟩, fun _ _ _ _ _ h => h.elim⟩
  | vllm caps =>
      refine ⟨fun _ _ _ => ⟨_, _, rfl⟩, ?_, ?_⟩
      · intro key now maxAge exact s htakes
        cases maxAge with
        | none => exact ⟨_, _, rfl⟩
        | some m => exact absurd trivial (htakes m rfl)
      · exact fun key now m exact s _ => ⟨_, _, rfl, by rintro ⟨reason, h⟩; cases h⟩

/-- `handle` turns to the backend only for prefixes that pass the check and with
their own bounds, rejects just for the prefixes that fail, and answers in both modes
the same. -/
structure NoQuietDowngrade (b : Backend σ) (c : Call) (s : σ) : Prop where
  recorded : ∀ mode, Prog.Sim (fun s t => t.1 = s) ((⟨b, mode⟩ : Gateway σ).answer c)
    ((⟨b, mode⟩ : Gateway σ).recorded.answer c)
  onBehalf : ∀ mode, ((⟨b, mode⟩ : Gateway σ).recorded.answer c (s, [])).2.2 =
    ((⟨b, mode⟩ : Gateway σ).recorded.trace [c] (s, [])).flatMap (Event.accesses ⟨b, mode⟩)
  enforceable : ∀ mode, ∀ v ∈ (⟨b, mode⟩ : Gateway σ).recorded.trace [c] (s, []),
    ∀ a ∈ v.accesses ⟨b, mode⟩, ∃ eff, policy v.sent = some eff ∧
      checkEnforceable b.capabilities eff = .ok () ∧ a.Carries eff
  unbounded : b.capabilities.retentionMaxAge = false → ∀ mode,
    ∀ a ∈ ((⟨b, mode⟩ : Gateway σ).recorded.answer c (s, [])).2.2, a.maxAge = none
  rejects : ∃ ordered, c.ordered = .ok ordered ∧ ordered.Perm c.fragments ∧
    (Rejected b c s ↔ ∃ p, p <+: ordered ∧ Fails b.capabilities p)
  agrees : ∀ r t, (⟨b, .reject⟩ : Gateway σ).answer c s = (.ok r, t) →
    (⟨b, .bypass⟩ : Gateway σ).answer c s = (.ok r, t)

theorem maxAge_eq_none_of_carries {caps : Capabilities} {eff : Effective} {a : Access}
    (hcaps : caps.retentionMaxAge = false) (hcheck : checkEnforceable caps eff = .ok ())
    (ha : a.Carries eff) : a.maxAge = none := by
  cases a with
  | get key now => rfl
  | put key now maxAge exact => exact ha.trans (maxAge_eq_none_of_check hcaps hcheck)

/-- What does not depend on the clock holds of every request. -/
theorem noQuietDowngrade_of_rejects
    (h : ∃ ordered, c.ordered = .ok ordered ∧ ordered.Perm c.fragments ∧
      (Rejected b c s ↔ ∃ p, p <+: ordered ∧ Fails b.capabilities p)) : NoQuietDowngrade b c s := by
  have honBehalf : ∀ mode, ((⟨b, mode⟩ : Gateway σ).recorded.answer c (s, [])).2.2 =
      ((⟨b, mode⟩ : Gateway σ).recorded.trace [c] (s, [])).flatMap (Event.accesses ⟨b, mode⟩) :=
    fun mode => record_eq ⟨b, mode⟩ [c] (s, [])
  have henforceable : ∀ mode, ∀ v ∈ (⟨b, mode⟩ : Gateway σ).recorded.trace [c] (s, []),
      ∀ a ∈ v.accesses ⟨b, mode⟩, ∃ eff, policy v.sent = some eff ∧
        checkEnforceable b.capabilities eff = .ok () ∧ a.Carries eff :=
    fun mode v hv a ha => carries_of_mem_accesses (follows_of_mem hv) ha
  refine ⟨fun mode => sim_recorded ⟨b, mode⟩ c, honBehalf, henforceable, fun hcaps mode a ha => ?_,
    h, fun r t => answer_bypass_of_reject⟩
  rw [honBehalf mode] at ha
  obtain ⟨v, hv, ha⟩ := List.mem_flatMap.mp ha
  obtain ⟨eff, -, hcheck, hcarries⟩ := henforceable mode v hv a ha
  exact maxAge_eq_none_of_carries hcaps hcheck hcarries

end Modes

/-- A request is answered without a quiet downgrade exactly when no prefix fails the
check, or no bound that the backend does not take comes in front of one that does. -/
theorem no_quiet_downgrade_iff [Runtime] {σ : Type} {b : Backend σ} {refuses : Time → ℕ → Prop}
    (hb : Shipped b refuses) (c : Call) (hc : c.WellFormed) (s : σ) :
    (NoQuietDowngrade b c s ↔
      (∀ ordered, c.ordered = .ok ordered → ∀ p, p <+: ordered → ¬ Fails b.capabilities p) ∨
        ∀ v ∈ (⟨b, .reject⟩ : Gateway σ).trace [c] s, ∀ eff, ¬ v.Refused b refuses eff) ∧
    (b.capabilities.retentionMaxAge = false → NoQuietDowngrade b c s) := by
  obtain ⟨ordered, hordered, hperm⟩ := hc.exists_ordered
  have hiff := rejected_iff hb.refusals hc hordered hperm.subset (s := s)
  have hdowngrade : NoQuietDowngrade b c s ↔
      (∀ ordered, c.ordered = .ok ordered → ∀ p, p <+: ordered → ¬ Fails b.capabilities p) ∨
        ∀ v ∈ (⟨b, .reject⟩ : Gateway σ).trace [c] s, ∀ eff, ¬ v.Refused b refuses eff := by
    constructor
    · intro h
      obtain ⟨ordered', hordered', -, hrejects⟩ := h.rejects
      cases hordered.symm.trans hordered'
      refine (hiff.mp hrejects).imp_left fun hnone ordered' hordered' => ?_
      cases hordered.symm.trans hordered'
      exact hnone
    · intro h
      exact noQuietDowngrade_of_rejects
        ⟨ordered, hordered, hperm, hiff.mpr (h.imp_left fun hnone => hnone ordered hordered)⟩
  refine ⟨hdowngrade, fun hcaps => hdowngrade.mpr (.inr fun v _ eff hrefused => ?_)⟩
  obtain ⟨m, hm, -⟩ := hrefused.bound
  cases hm.symm.trans (maxAge_eq_none_of_check hcaps hrefused.enforceable)

section

attribute [local instance] bounded

def unscopedCapabilities : Capabilities :=
  { inMemoryBackend.capabilities with shareMax := {.tenant} }

def lateFragment (name share : String) (maxAge : Option ℕ) : Fragment :=
  ⟨.str (lit name), lit name, some (intentText (.allow maxAge) "exact" share), none⟩

def lateCall (maxAge : Option ℕ) : Call :=
  ⟨[lateFragment "a" "tenant" maxAge, lateFragment "b" "principal" none], alice, (0 : ℕ),
    lit "req-1", none, false⟩

theorem wellFormed_lateCall {maxAge : Option ℕ}
    (h : ∀ f ∈ (lateCall maxAge).fragments, ∀ text ∈ f.intentJson,
      ((parseCacheIntent text).toOption.map fun i => i.constraints.ns) = some none) :
    (lateCall maxAge).WellFormed := by
  have hmem : ∀ f ∈ (lateCall maxAge).fragments, ∃ name share age,
      f = lateFragment name share age := by
    intro f hf
    rcases List.mem_cons.mp hf with rfl | hf
    · exact ⟨_, _, _, rfl⟩
    · exact ⟨_, _, _, List.mem_singleton.mp hf⟩
  refine ⟨fun f hf => ?_, ?_, fun f hf text htext => ?_, fun f hf => ?_, fun f hf cls hcls => ?_,
    encodable_lit _, encodable_lit _, encodable_lit _, encodable_lit _⟩
  · obtain ⟨name, share, age, rfl⟩ := hmem f hf
    exact .inr ⟨_, rfl⟩
  · show [lit "a", lit "b"].Nodup
    decide +kernel
  · obtain ⟨intent, hparse, hns⟩ := Option.map_eq_some_iff.mp (h f hf text htext)
    refine ⟨intent, toOption_eq_some_iff.mp hparse, fun n hn => ?_⟩
    cases hns.symm.trans hn
  · obtain ⟨name, share, age, rfl⟩ := hmem f hf
    exact encodable_lit name
  · obtain ⟨name, share, age, rfl⟩ := hmem f hf
    cases hcls

def unscopedBackend : Backend Entries :=
  { inMemoryBackend with capabilities := unscopedCapabilities }

theorem no_quiet_downgrade_iff_tenMinutes :
    NoQuietDowngrade unscopedBackend (lateCall (some 600)) ∅ := by
  refine (no_quiet_downgrade_iff (.inMemory unscopedCapabilities) (lateCall (some 600))
    (wellFormed_lateCall (by decide +kernel)) ∅).1.mpr (.inr fun v hv eff hrefused => ?_)
  obtain ⟨m, hm, hlate⟩ := hrefused.bound
  have htakes : ∀ v ∈ (⟨unscopedBackend, .reject⟩ : Gateway Entries).trace [lateCall (some 600)] ∅,
      ∀ eff ∈ policy v.sent, ∀ m ∈ eff.retention.maxAge,
        (Runtime.plus v.call.now m).isSome := by decide +kernel
  have hsome := htakes v hv eff hrefused.policy m hm
  rw [hlate] at hsome
  cases hsome

def isOverflow : Except PyError Result → Bool
  | .error .overflowError => true
  | _ => false

/-- The bound of the first fragment cannot be added to the clock, so the share of the
second is never checked. -/
theorem not_no_quiet_downgrade :
    ¬ ∀ (caps : Capabilities) (c : Call) (s : Entries), c.WellFormed →
      NoQuietDowngrade { inMemoryBackend with capabilities := caps } c s := by
  intro h
  have hlate := h unscopedCapabilities (lateCall (some (2 ^ 1024))) ∅
    (wellFormed_lateCall (by decide +kernel))
  obtain ⟨ordered, hordered, -, hrejects⟩ := hlate.rejects
  cases hordered
  have hfails : ∃ eff ∈ policy (lateCall (some (2 ^ 1024))).fragments,
      (checkEnforceable unscopedCapabilities eff).toOption = none := by decide +kernel
  obtain ⟨eff, hpolicy, hcheck⟩ := hfails
  have hfailing : Fails unscopedCapabilities (lateCall (some (2 ^ 1024))).fragments := by
    cases hresult : checkEnforceable unscopedCapabilities eff with
    | ok u => simp [hresult, Except.toOption] at hcheck
    | error e => exact ⟨eff, e, hpolicy, hresult⟩
  obtain ⟨reason, hraise⟩ := hrejects.mpr ⟨_, List.prefix_rfl, hfailing⟩
  have hlate : isOverflow ((⟨unscopedBackend, .reject⟩ : Gateway Entries).answer
      (lateCall (some (2 ^ 1024))) ∅).1 = true := by decide +kernel
  rw [show ((⟨unscopedBackend, .reject⟩ : Gateway Entries).answer
    (lateCall (some (2 ^ 1024))) ∅).1 = _ from hraise] at hlate
  cases hlate

end

end CacheControl

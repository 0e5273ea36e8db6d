import CacheControl.Atomicity
import CacheControl.Provenance

/-!
# State that vanishes at once

A bound of zero seconds stores state that has expired already, where a policy that
forbids retention stores none.  No later request can tell the two apart, unless
the expired entry took the place of one that was still to be found.
-/

open PyText ExpiringStore

namespace CacheControl

section

variable [Runtime]

/-! ## The replacement -/

/-- The fragment, or the same one with retention forbidden in place of a bound of
zero seconds. -/
inductive Forbade : Fragment → Fragment → Prop
  | same (f : Fragment) : Forbade f f
  | replaced (f : Fragment) (text text' : Str) (intent : Intent) : f.intentJson = some text →
      parseCacheIntent text = .ok intent → intent.constraints.retention = .allow (some 0) →
      parseCacheIntent text' =
        .ok { intent with constraints := { intent.constraints with retention := .forbid } } →
      Forbade f { f with intentJson := some text' }

structure Forbids (c d : Call) : Prop where
  fragments : List.Forall₂ Forbade c.fragments d.fragments
  auth : d.auth = c.auth
  now : d.now = c.now
  requestId : d.requestId = c.requestId
  equivalenceDeclared : d.equivalenceDeclared = c.equivalenceDeclared

/-- Both are the same error, or lists of fragments that correspond. -/
def Corresponds : Except PyError (List Fragment) → Except PyError (List Fragment) → Prop :=
  Prog.ExceptRel Eq (List.Forall₂ Forbade)

variable {f f' : Fragment} {fs fs' : List Fragment}

theorem Forbade.id (h : Forbade f f') : f'.id = f.id := by
  cases h <;> rfl

theorem Forbade.shareRank (h : Forbade f f') : shareRank f' = shareRank f := by
  cases h with
  | same => rfl
  | replaced text text' intent htext hparse hzero hparse' =>
      simp [CacheControl.shareRank, htext, hparse, hparse', Except.map]

omit [Runtime] in
theorem forall₂_orderedInsert {α β : Type*} {P : α → β → Prop} {r : α → α → Prop}
    {r' : β → β → Prop} [DecidableRel r] [DecidableRel r']
    (hr : ∀ a b a' b', P a b → P a' b' → (r a a' ↔ r' b b')) {a : α} {b : β} (hab : P a b)
    {xs : List α} {ys : List β} (h : List.Forall₂ P xs ys) :
    List.Forall₂ P (xs.orderedInsert r a) (ys.orderedInsert r' b) := by
  induction h with
  | nil => exact .cons hab .nil
  | cons hxy htail ih =>
      rw [List.orderedInsert_cons, List.orderedInsert_cons]
      simp only [hr _ _ _ _ hab hxy]
      split
      · exact .cons hab (.cons hxy htail)
      · exact .cons hxy ih

omit [Runtime] in
theorem forall₂_insertionSort {α β : Type*} {P : α → β → Prop} {r : α → α → Prop}
    {q : β → β → Prop} [DecidableRel r] [DecidableRel q]
    (hr : ∀ a b a' b', P a b → P a' b' → (r a a' ↔ q b b')) {xs : List α} {ys : List β}
    (h : List.Forall₂ P xs ys) : List.Forall₂ P (xs.insertionSort r) (ys.insertionSort q) := by
  induction h with
  | nil => exact .nil
  | cons hxy _ ih => exact forall₂_orderedInsert hr hxy ih

/-- The ranks are the same, so the order is. -/
theorem rankAll_forbade (h : List.Forall₂ Forbade fs fs') :
    Prog.ExceptRel Eq (List.Forall₂ fun p q => p.1 = q.1 ∧ Forbade p.2 q.2) (rankAll fs)
      (rankAll fs') := by
  induction h with
  | nil => exact .ok .nil
  | @cons f f' fs fs' hf _ ih =>
      rw [rankAll, rankAll, hf.shareRank]
      cases CacheControl.shareRank f with
      | error e => exact .error rfl
      | ok n =>
          generalize rankAll fs = x, rankAll fs' = y at ih ⊢
          cases ih with
          | error he => exact .error he
          | ok hall => exact .ok (.cons ⟨rfl, hf⟩ hall)

theorem checkIds_forbade (h : List.Forall₂ Forbade fs fs') : checkIds fs' = checkIds fs := by
  have hmap : fs'.map Fragment.id = fs.map Fragment.id := by
    induction h with
    | nil => rfl
    | cons hf _ ih => rw [List.map_cons, List.map_cons, ih, hf.id]
  unfold checkIds
  rw [hmap]

theorem planOrder_forbade (h : List.Forall₂ Forbade fs fs') (equivalenceDeclared : Bool) :
    Corresponds (planOrder fs equivalenceDeclared) (planOrder fs' equivalenceDeclared) := by
  unfold planOrder
  split
  · exact .ok h
  · have hranked := rankAll_forbade h
    generalize rankAll fs = x, rankAll fs' = y at hranked ⊢
    cases hranked with
    | error he => exact .error he
    | ok hall =>
        have hsorted := forall₂_insertionSort (r := fun a b => a.1 ≤ b.1)
          (q := fun a b => a.1 ≤ b.1)
          (by rintro a b a' b' ⟨hab, -⟩ ⟨hab', -⟩; rw [hab, hab']) hall
        exact .ok (List.forall₂_map_left_iff.mpr (List.forall₂_map_right_iff.mpr
          (hsorted.imp fun _ _ hpq => hpq.2)))

theorem Forbids.ordered {c d : Call} (h : Forbids c d) : Corresponds c.ordered d.ordered := by
  have hplan := planOrder_forbade h.fragments c.equivalenceDeclared
  unfold Call.ordered
  rw [h.equivalenceDeclared]
  generalize planOrder c.fragments c.equivalenceDeclared = x,
    planOrder d.fragments c.equivalenceDeclared = y at hplan ⊢
  cases hplan with
  | error he => exact .error he
  | @ok xs ys hall =>
      show Corresponds (checkIds xs >>= fun _ => pure xs) (checkIds ys >>= fun _ => pure ys)
      rw [checkIds_forbade hall]
      cases checkIds xs with
      | error e => exact .error rfl
      | ok u => exact .ok hall

/-! ## What the two requests leave behind -/

variable {g : Gateway Entries} {c d : Call} {vars : LoopVars} {p : List Fragment} {s t : Entries}
  {v : Event Entries} {k : Str} {e : Entry} {eff : Effective}

/-- A key under which the state of the fragment is to be stored. -/
def Event.WriteKey (v : Event Entries) (eff : Effective) (k : Str) : Prop :=
  cacheKey execution (contentsOf v.sent) (namespacesOf v.sent) (v.partition eff)
      (!(v.acc.taintedApproximate || v.donor.isSome)) = .ok k ∨
    ∃ c, v.item.approxClass = some c ∧
      cacheKey execution [c] (namespacesOf v.sent) (v.partition eff) false = .ok k

/-- What is to be stored with a bound of zero seconds does not take the place of
an entry that is still to be found. -/
def VanishesUnnoticed (g : Gateway Entries) (v : Event Entries) : Prop :=
  ∀ eff, Storable g v.call v.state v.done v.item eff → eff.retention.maxAge = some 0 →
    ∀ k, v.WriteKey eff k → eligible Entry.expiresAt v.state k v.call.now = none

theorem MemoryBacked.storable_of_published (hg : MemoryBacked g) (h : e ∈ v.published g) :
    ∃ eff, Storable g v.call v.state v.done v.item eff ∧ v.WriteKey eff e.key ∧
      InMemoryCache.expiry v.call.now eff.retention.maxAge = .ok e.expiresAt := by
  obtain ⟨eff, hstorable⟩ := hg.published_ne_nil_iff.mp (List.ne_nil_of_mem h)
  obtain ⟨eff', o, a, t, hcomputes, hstored⟩ := Event.exists_computes h
  have hpolicy : policy v.sent = some eff := hstorable.policy
  cases hpolicy.symm.trans hcomputes.policy
  refine ⟨eff, hstorable, ?_, hstored.expiresAt⟩
  have hflag : a = v.donor.isSome := by
    rw [Bool.eq_iff_iff, flag_of_lookup hcomputes.lookup,
      hg.takesDonor_iff hpolicy hcomputes.lookup, Option.isSome_iff_exists]
    constructor
    · rintro ⟨dk, e, htakes⟩
      exact ⟨_, donor_eq_some_iff.mpr htakes⟩
    · rintro ⟨⟨eff', dk, e⟩, hdonor⟩
      have htakes := donor_eq_some_iff.mp hdonor
      cases hpolicy.symm.trans htakes.policy
      exact ⟨dk, e, htakes⟩
  rcases hstored.key with ⟨hkey, -⟩ | ⟨-, c, hc, hkey⟩
  · rw [hflag] at hkey
    exact .inl hkey
  · exact .inr ⟨c, hc, hkey⟩

theorem sameFrom_after (hg : MemoryBacked g) (hfollows : Follows v.done v.acc)
    (h : ∀ e ∈ v.published g, Expired e.expiresAt v.call.now ∧
      eligible Entry.expiresAt v.state e.key v.call.now = none) :
    SameFrom Entry.expiresAt v.call.now v.state (v.after g) := by
  obtain ⟨t, hprunes, hafter⟩ := hg.after_eq hfollows
  rw [hafter]
  refine (SameFrom.of_prunes hprunes).trans (SameFrom.insertAll_expired ?_ ?_)
  · exact fun e he => (h e he).1
  · intro e he
    rw [hprunes.eligible_eq le_rfl]
    exact (h e he).2

/-- A loop whose events publish nothing but such entries. -/
theorem sameFrom_loop (hg : MemoryBacked g) (hfollows : Follows p vars)
    (h : ∀ v ∈ Prog.visits (g.turn c) vars p fs s, ∀ e ∈ (⟨v, 0, c⟩ : Event Entries).published g,
      Expired e.expiresAt c.now ∧ eligible Entry.expiresAt v.state e.key c.now = none) :
    SameFrom Entry.expiresAt c.now s (Prog.mapAccum (g.turn c) vars fs s).2 := by
  induction fs generalizing vars p s with
  | nil => exact SameFrom.refl s
  | cons f fs ih =>
      have hfirst : SameFrom Entry.expiresAt c.now s (g.turn c vars f s).2 :=
        sameFrom_after (v := ⟨⟨vars, p, f, s⟩, 0, c⟩) hg hfollows
          (h ⟨vars, p, f, s⟩ (by simp [Prog.visits]))
      rcases hstep : g.turn c vars f s with ⟨e | ⟨vars', st⟩, t⟩
      · rw [hstep] at hfirst
        rwa [Prog.mapAccum_cons_of_error hstep]
      · rw [hstep] at hfirst
        rw [Prog.mapAccum_cons_of_ok hstep, Prog.bind_pure_state]
        rw [Prog.visits_cons_of_ok hstep] at h
        exact hfirst.trans (ih (turn_ok hfollows hstep).1
          fun v hv => h v (List.mem_cons_of_mem _ hv))

theorem mem_sent_of_visit {v : Prog.Visit LoopVars Fragment Entries}
    (hv : v ∈ Prog.visits (g.turn c) vars p (f :: fs) s) : f ∈ v.done ++ [v.item] := by
  obtain ⟨pre, post, hsplit⟩ := List.append_of_mem hv
  have hdone := Prog.visits_done_eq hsplit
  rw [Prog.visits] at hsplit
  cases pre with
  | nil =>
      obtain ⟨rfl, -⟩ := List.cons.inj hsplit
      simp
  | cons u pre =>
      obtain ⟨rfl, -⟩ := List.cons.inj hsplit
      simp [hdone]

/-- Behind a bound of zero seconds everything that is stored has expired. -/
theorem expired_of_zero (hcs : ∃ text intent, f.intentJson = some text ∧
      parseCacheIntent text = .ok intent ∧ intent.constraints.retention = .allow (some 0))
    (hf : f ∈ v.sent) (hpolicy : policy v.sent = some eff)
    (hallow : eff.retention.mode = .allow) : eff.retention.maxAge = some 0 := by
  obtain ⟨text, intent, htext, hparse, hzero⟩ := hcs
  obtain ⟨cs, hcs, hcomposes⟩ := composes_of_policy hpolicy
  have hmem := (mem_constraintsOf hcs).mpr ⟨f, hf, text, intent, htext, hparse, rfl⟩
  have hleast := hcomposes.maxAge hallow
  cases hm : eff.retention.maxAge with
  | none =>
      rw [hm] at hleast
      have hnone := hleast _ hmem
      rw [hzero] at hnone
      cases hnone
  | some m =>
      rw [hm] at hleast
      have hle : m ≤ 0 := hleast.2 ⟨_, hmem, by rw [hzero]; rfl⟩
      rw [Nat.le_zero.mp hle]

theorem published_eq_nil_of_forbid (hcs : ∃ text intent, f.intentJson = some text ∧
      parseCacheIntent text = .ok intent ∧ intent.constraints.retention = .forbid)
    (hf : f ∈ v.sent) : v.published g = [] := by
  obtain ⟨text, intent, htext, hparse, hforbid⟩ := hcs
  cases hcs : constraintsOf v.sent with
  | none => exact Event.published_of_policy_none (by simp [policy, hcs])
  | some cs =>
      have hmem := (mem_constraintsOf hcs).mpr ⟨f, hf, text, intent, htext, hparse, rfl⟩
      exact published_eq_nil hcs hmem (.inl (by rw [hforbid]; rfl))

/-- Up to the first replaced fragment the loops are the same, and from there on
neither leaves anything to be found. -/
theorem MemoryBacked.loop_forbade (hg : MemoryBacked g) (hall : List.Forall₂ Forbade fs fs')
    (hfollows : Follows p vars)
    (h : ∀ v ∈ Prog.visits (g.turn c) vars p fs s, VanishesUnnoticed g ⟨v, 0, c⟩) :
    SameFrom Entry.expiresAt c.now (Prog.mapAccum (g.turn c) vars fs s).2
      (Prog.mapAccum (g.turn c) vars fs' s).2 := by
  induction hall generalizing vars p s with
  | nil => exact SameFrom.refl _
  | @cons f f' fs fs' hf hrest ih =>
      cases hf with
      | same =>
          rcases hstep : g.turn c vars f s with ⟨e | ⟨vars', st⟩, t⟩
          · rw [Prog.mapAccum_cons_of_error hstep, Prog.mapAccum_cons_of_error hstep]
            exact SameFrom.refl t
          · rw [Prog.mapAccum_cons_of_ok hstep, Prog.mapAccum_cons_of_ok hstep,
              Prog.bind_pure_state, Prog.bind_pure_state]
            rw [Prog.visits_cons_of_ok hstep] at h
            exact ih (turn_ok hfollows hstep).1 fun v hv => h v (List.mem_cons_of_mem _ hv)
      | replaced text text' intent htext hparse hzero hparse' =>
          have hleft : SameFrom Entry.expiresAt c.now s
              (Prog.mapAccum (g.turn c) vars (f :: fs) s).2 := by
            refine sameFrom_loop hg hfollows fun v hv e he => ?_
            obtain ⟨eff, hstorable, hkey, hexpiry⟩ := hg.storable_of_published he
            have hmax := expired_of_zero (v := ⟨v, 0, c⟩) ⟨text, intent, htext, hparse, hzero⟩
              (mem_sent_of_visit hv) hstorable.policy hstorable.allows
            refine ⟨?_, h v hv eff hstorable hmax e.key hkey⟩
            rw [hmax, InMemoryCache.expiry, Runtime.plus_zero] at hexpiry
            rw [← Except.ok.inj hexpiry, expired_some]
          have hright : SameFrom Entry.expiresAt c.now s (Prog.mapAccum (g.turn c) vars
              ({ f with intentJson := some text' } :: fs') s).2 := by
            refine sameFrom_loop hg hfollows fun v hv e he => ?_
            rw [published_eq_nil_of_forbid (v := ⟨v, 0, c⟩) ⟨text', _, rfl, hparse', rfl⟩
              (mem_sent_of_visit hv)] at he
            cases he
          exact hleft.symm.trans hright

/-- Requests that differ in the replacement leave stores that no later request
tells apart. -/
theorem MemoryBacked.answer_forbids (hg : MemoryBacked g) (hforbids : Forbids c d)
    (h : ∀ v ∈ g.trace [c] s, VanishesUnnoticed g v) :
    SameFrom Entry.expiresAt c.now (g.answer c s).2 (g.answer d s).2 := by
  have hordered := hforbids.ordered
  have hturn : g.turn d = g.turn c := by
    unfold Gateway.turn
    rw [hforbids.auth, hforbids.now, hforbids.requestId]
  cases hc : c.ordered with
  | error e =>
      cases hd : d.ordered with
      | error e' =>
          rw [answer_of_error hc, answer_of_error hd]
          exact SameFrom.refl s
      | ok fs' =>
          rw [hc, hd] at hordered
          cases hordered
  | ok fs =>
      cases hd : d.ordered with
      | error e' =>
          rw [hc, hd] at hordered
          cases hordered
      | ok fs' =>
          rw [hc, hd] at hordered
          cases hordered with
          | ok hall =>
              rw [answer_state hc, answer_state hd, hturn]
              refine hg.loop_forbade hall follows_init fun v hv => h _ (mem_trace_single.mpr ?_)
              refine ⟨?_, rfl, rfl⟩
              unfold Gateway.visits
              rw [hc]
              exact hv

/-! ## Later requests -/

theorem sim_sameFrom_get (k : Str) (now : Time) :
    Prog.Sim (SameFrom Entry.expiresAt now) (InMemoryCache.get k now)
      (InMemoryCache.get k now) := by
  intro s t h
  rw [InMemoryCache.get_eq_read, InMemoryCache.get_eq_read, read_fst, read_fst]
  refine ⟨by rw [h k now le_rfl], ?_⟩
  have hprunes : ∀ u : Entries, SameFrom Entry.expiresAt now u (read Entry.expiresAt k now u).2 :=
    fun u => SameFrom.of_prunes (prunes_read u k now)
  have hs := hprunes s
  have ht := hprunes t
  exact hs.symm.trans (h.trans ht)

theorem sim_sameFrom_put (k : Str) (now : Time) (maxAge : Option ℕ) (exact : Bool) :
    Prog.Sim (SameFrom Entry.expiresAt now) (InMemoryCache.put k now maxAge exact)
      (InMemoryCache.put k now maxAge exact) := by
  intro s t h
  unfold InMemoryCache.put
  cases InMemoryCache.expiry now maxAge with
  | error e => exact ⟨rfl, h⟩
  | ok expiresAt => exact ⟨rfl, h.insert _ _⟩

theorem MemoryBacked.sim_sameFrom (hg : MemoryBacked g) (c : Call) :
    Prog.Sim (SameFrom Entry.expiresAt c.now) (g.answer c) (g.answer c) := by
  have hagrees := Gateway.Agrees.refl g
  refine CacheControl.sim_answer hagrees fun f vars hints eff hcheck =>
    CacheControl.sim_serve hagrees ?_ ?_
  · intro contents namespaces exact k _
    rw [hg.get]
    exact sim_sameFrom_get k c.now
  · intro k exact
    rw [hg.put eff hcheck]
    exact sim_sameFrom_put k c.now _ exact

theorem MemoryBacked.run_sameFrom (hg : MemoryBacked g) {calls : List Call} {now : Time}
    (hmono : calls.Pairwise fun c d => c.now ≤ d.now) (hlater : ∀ c ∈ calls, now ≤ c.now)
    (h : SameFrom Entry.expiresAt now s t) : (g.run calls s).1 = (g.run calls t).1 := by
  induction calls generalizing s t now with
  | nil => rfl
  | cons c calls ih =>
      obtain ⟨hfirst, hrest⟩ := List.pairwise_cons.mp hmono
      obtain ⟨hanswer, hnext⟩ := hg.sim_sameFrom c s t (h.mono (hlater c (by simp)))
      unfold Gateway.run at ih ⊢
      rw [Prog.session_cons_fst, Prog.session_cons_fst, hanswer, ih hrest hfirst hnext]

end

/-- In any run a bound of zero seconds has the effect of forbidden retention: every
later request is answered the same, provided that no expired entry takes the
place of one that is still to be found. -/
theorem vanishing_unnoticed [Runtime] (mode : OnUnenforceable) (pre post : List Call) (c d : Call)
    (hmono : (pre ++ c :: post).Pairwise fun c d => c.now ≤ d.now) (hforbids : Forbids c d)
    (h : ∀ v ∈ (inMemoryGateway mode).trace [c] ((inMemoryGateway mode).run pre ∅).2,
      VanishesUnnoticed (inMemoryGateway mode) v) (i : ℕ) (hi : pre.length < i) :
    ((inMemoryGateway mode).run (pre ++ c :: post) ∅).1[i]? =
      ((inMemoryGateway mode).run (pre ++ d :: post) ∅).1[i]? := by
  have hg := memoryBacked_inMemory mode
  obtain ⟨-, hpost, -⟩ := List.pairwise_append.mp hmono
  obtain ⟨hlater, hpost⟩ := List.pairwise_cons.mp hpost
  have hrun := hg.run_sameFrom hpost hlater (hg.answer_forbids hforbids h)
  have hsplit : ∀ x : Call, ((inMemoryGateway mode).run (pre ++ x :: post) ∅).1[i]? =
      ((inMemoryGateway mode).run post ((inMemoryGateway mode).answer x
        ((inMemoryGateway mode).run pre ∅).2).2).1[i - (pre.length + 1)]? := by
    intro x
    unfold Gateway.run
    rw [Prog.session_append, List.getElem?_append_right (by simp; omega), Prog.session_cons_fst,
      Prog.length_session]
    have hindex : i - pre.length = (i - (pre.length + 1)) + 1 := by omega
    rw [hindex, List.getElem?_cons_succ]
  rw [hsplit c, hsplit d, hrun]

section

attribute [local instance] reference

def zeroCall (retention : Retention) : Call :=
  sampleCall alice 1
    [sampleFragment "b" (some (intentText retention "exact" "tenant")) (some (lit "k"))]

def approximateCall (now : ℕ) (content : String) : Call :=
  sampleCall alice now
    [sampleFragment content (some (intentText (.allow none) "approximate" "tenant"))
      (some (lit "k"))]

theorem parse_eq_of_parts {text : Str} {constraints : Constraints}
    (h : ((parseCacheIntent text).toOption.map fun i => (i.constraints, i.hints.reuseWithin)) =
      some (constraints, none)) : parseCacheIntent text = .ok ⟨constraints, {}⟩ := by
  obtain ⟨⟨_, ⟨_⟩⟩, hparse, hparts⟩ := Option.map_eq_some_iff.mp h
  cases hparts
  exact toOption_eq_some_iff.mp hparse

theorem forbids_zeroCall : Forbids (zeroCall (.allow (some 0))) (zeroCall .forbid) := by
  refine ⟨.cons ?_ .nil, rfl, rfl, rfl, rfl⟩
  exact .replaced _ _ _ ⟨⟨.allow (some 0), .exact, .tenant, none⟩, {}⟩ rfl
    (parse_eq_of_parts (by decide +kernel)) rfl (parse_eq_of_parts (by decide +kernel))

theorem vanishing_unnoticed_zeroCall :
    ((inMemoryGateway .bypass).run [zeroCall (.allow (some 0)), approximateCall 2 "c"] ∅).1[1]? =
      ((inMemoryGateway .bypass).run [zeroCall .forbid, approximateCall 2 "c"] ∅).1[1]? := by
  refine vanishing_unnoticed .bypass [] [approximateCall 2 "c"] _ _ (by decide +kernel)
    forbids_zeroCall ?_ 1 (by decide)
  intro v hv eff _ _ k _
  have hempty : ∀ v ∈ (inMemoryGateway .bypass).trace [zeroCall (.allow (some 0))] ∅,
      v.state.keys = ∅ := by decide +kernel
  have hk : k ∉ v.state := by
    rw [← Finmap.mem_keys, hempty v hv]
    simp
  simp [eligible, Finmap.lookup_eq_none.mpr hk]

/-- The second request takes no donor, but replaces the one that the third would
have found. -/
theorem not_vanishing_unnoticed :
    ¬ ∀ (mode : OnUnenforceable) (pre post : List Call) (c d : Call),
      (pre ++ c :: post).Pairwise (fun c d => c.now ≤ d.now) → Forbids c d →
      ∀ i, pre.length < i →
        (((inMemoryGateway mode).run (pre ++ c :: post) ∅).1[i]?.map fun x =>
          x.toOption.map fun r => r.statuses.map FragmentStatus.outcome) =
        ((inMemoryGateway mode).run (pre ++ d :: post) ∅).1[i]?.map fun x =>
          x.toOption.map fun r => r.statuses.map FragmentStatus.outcome := by
  intro h
  have hsame := h .bypass [approximateCall 0 "a"] [approximateCall 2 "c"]
    (zeroCall (.allow (some 0))) (zeroCall .forbid) (by decide +kernel) forbids_zeroCall 2
    (by decide)
  revert hsame
  decide +kernel

end

end CacheControl

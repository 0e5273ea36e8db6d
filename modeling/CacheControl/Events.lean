import CacheControl.Run

/-!
# What an event reports

The loop variables in front of an event are those of its prefix, and its taint
says whether an earlier fragment of the same call was served by a donor.
-/

open PyText

namespace CacheControl

variable [Runtime] {σ : Type} {g : Gateway σ} {c : Call} {calls : List Call} {n : ℕ} {s : σ}
  {pre post : List (Event σ)} {v : Event σ}

/-- The status an event reports, by the way its iteration goes. -/
inductive Reports (g : Gateway σ) (v : Event σ) : FragmentStatus → Prop
  | bare : constraintsOf v.sent = some [] → Reports g v (Gateway.bareStatus v.item)
  | bypassed (hints : HintStatus) (eff : Effective) (e : PyError) : policy v.sent = some eff →
      checkEnforceable g.backend.capabilities eff = .error e → g.onUnenforceable = .bypass →
      Reports g v (Gateway.statusOf v.item eff hints .bypass
        (if eff.retention.mode = .forbid then .forbidden else .declined) true)
  | served (hints : HintStatus) (eff : Effective) (o : Outcome) (a : Bool) (r : RetentionStatus)
      (t : σ) : policy v.sent = some eff →
      checkEnforceable g.backend.capabilities eff = .ok () →
      v.lookup g eff = (.ok (o, a), t) →
      g.retain o eff (contentsOf v.sent) (namespacesOf v.sent) (v.partition eff) v.call.now
        (!(v.acc.taintedApproximate || a)) v.item.approxClass t = (.ok r, v.after g) →
      Reports g v (Gateway.statusOf v.item eff hints o r (!(v.acc.taintedApproximate || a)))

theorem turn_ok {p : List Fragment} {vars vars' : LoopVars} {f : Fragment} {st : FragmentStatus}
    {t : σ} (h : Follows p vars) (hturn : g.turn c vars f s = (.ok (vars', st), t)) :
    Follows (p ++ [f]) vars' ∧
      vars'.taintedApproximate =
        (vars.taintedApproximate || decide (st.outcome = .approximateHit)) := by
  have hcases := turn_handleFragment g c.auth c.now c.requestId h f
  unfold Gateway.turn at hturn
  generalize hprog : g.handleFragment c.auth c.now c.requestId vars f = prog at hcases hturn
  cases hcases with
  | unread e hpolicy hcs => cases hturn
  | rejected eff e hpolicy hcheck hmode => cases hturn
  | bare vars'' hfollows htaint hcs =>
      cases hturn
      exact ⟨hfollows, by simp [htaint, Gateway.bareStatus]⟩
  | bypassed vars'' hints eff e hfollows htaint hpolicy hcheck hmode =>
      cases hturn
      exact ⟨hfollows, by simp [htaint, Gateway.statusOf]⟩
  | served vars'' hints eff hfollows htaint hpolicy hcheck =>
      obtain ⟨o, a, u, r, hresolve, hretain, rfl, rfl⟩ := serve_eq_ok hturn
      have hflag := (resolves_of_resolve hresolve).flag_iff
      refine ⟨⟨hfollows.contents, hfollows.constraints, hfollows.namespaces⟩, ?_⟩
      have ha : a = decide (o = .approximateHit) := by
        by_cases ho : o = .approximateHit
        · simp [hflag.mpr ho, ho]
        · simp [Bool.eq_false_iff.mpr (mt hflag.mp ho), ho]
      simp [htaint, ha, Gateway.statusOf]

theorem visit_invariant {s' : σ} {before after : List (Prog.Visit LoopVars Fragment σ)}
    {v : Prog.Visit LoopVars Fragment σ} (h : g.visits c s' = before ++ v :: after) :
    Follows v.done v.acc ∧
      (v.acc.taintedApproximate = true ↔
        ∃ u ∈ before, ∃ st, u.emits (g.turn c) = some st ∧ st.outcome = .approximateHit) := by
  unfold Gateway.visits at h
  cases hord : c.ordered with
  | error e => simp [hord] at h
  | ok ordered =>
      rw [hord] at h
      have hdone := Prog.visits_done_eq h
      have hinv := Prog.visits_invariant
        (fun hist vars => Follows (hist.map Prog.Visit.item) vars ∧
          (vars.taintedApproximate = true ↔
            ∃ u ∈ hist, ∃ st, u.emits (g.turn c) = some st ∧ st.outcome = .approximateHit))
        [] ⟨follows_init, by simp [LoopVars.init]⟩
        (by
          rintro hist w vars' st t ⟨hfollows, htaint⟩ hstep
          obtain ⟨hnext, htaint'⟩ := turn_ok hfollows hstep
          have hemits : w.emits (g.turn c) = some st := by simp [Prog.Visit.emits, hstep]
          refine ⟨by simpa using hnext, ?_⟩
          rw [htaint', Bool.or_eq_true, htaint, decide_eq_true_eq]
          simp only [List.mem_append, List.mem_singleton]
          constructor
          · rintro (⟨u, hu, st', hst'⟩ | hst)
            · exact ⟨u, .inl hu, st', hst'⟩
            · exact ⟨w, .inr rfl, st, hemits, hst⟩
          · rintro ⟨u, hu | rfl, st', hst', hout⟩
            · exact .inl ⟨u, hu, st', hst', hout⟩
            · rw [hemits, Option.some.injEq] at hst'
              exact .inr (hst' ▸ hout))
        before v after h
      rw [List.nil_append, ← List.nil_append (before.map _), ← hdone] at hinv
      exact hinv

theorem follows_of_split (h : g.traceFrom n calls s = pre ++ v :: post) :
    Follows v.done v.acc := by
  obtain ⟨earlier, s', before, after, -, hvisits, -⟩ := traceFrom_split h
  exact (visit_invariant hvisits).1

theorem follows_of_mem (h : v ∈ g.traceFrom n calls s) : Follows v.done v.acc := by
  obtain ⟨pre, post, hsplit⟩ := List.append_of_mem h
  exact follows_of_split hsplit

/-- The taint is the memory of a donor in the same call. -/
theorem tainted_iff (h : g.traceFrom n calls s = pre ++ v :: post) :
    v.acc.taintedApproximate = true ↔
      ∃ u ∈ pre, u.index = v.index ∧ u.outcome g = some .approximateHit := by
  obtain ⟨earlier, s', before, after, rfl, hvisits, hearlier⟩ := traceFrom_split h
  rw [(visit_invariant hvisits).2]
  constructor
  · rintro ⟨u, hu, st, hst, hout⟩
    refine ⟨⟨u, v.index, v.call⟩, by simp [hu], rfl, ?_⟩
    simp [Event.outcome, Event.status, hst, hout]
  · rintro ⟨u, hu, hidx, hout⟩
    rcases List.mem_append.mp hu with hu | hu
    · exact absurd hidx (hearlier u hu).ne
    · obtain ⟨w, hw, rfl⟩ := List.mem_map.mp hu
      obtain ⟨st, hst, hsto⟩ := Option.map_eq_some_iff.mp hout
      exact ⟨w, hw, st, hst, hsto⟩

/-- No earlier fragment of the call was served by a donor. -/
def Untainted (g : Gateway σ) (trace : List (Event σ)) (v : Event σ) : Prop :=
  ∀ u ∈ trace, u.index = v.index → u.sent <+: v.done → u.outcome g ≠ some .approximateHit

theorem untainted_iff (h : g.traceFrom n calls s = pre ++ v :: post) :
    Untainted g (g.traceFrom n calls s) v ↔ v.acc.taintedApproximate = false := by
  rw [← Bool.not_eq_true, tainted_iff h]
  constructor
  · rintro hclean ⟨u, hu, hidx, hout⟩
    exact hclean u (by rw [h]; simp [hu]) hidx (sent_prefix_of_mem_pre h hu hidx).1 hout
  · intro hno u hu hidx hsent hout
    exact hno ⟨u, mem_pre_of_sent_prefix h hu hidx hsent, hidx, hout⟩

theorem reports_of_status (h : Follows v.done v.acc) {st : FragmentStatus}
    (hst : v.status g = some st) : Reports g v st := by
  have hcases := turn_handleFragment g v.call.auth v.call.now v.call.requestId h v.item
  unfold Event.status Prog.Visit.emits at hst
  rcases hturn : g.turn v.call v.acc v.item v.state with ⟨e | ⟨vars', st'⟩, t⟩
  · simp [hturn] at hst
  · have hafter : v.after g = t := by simp [Event.after, Prog.Visit.after, hturn]
    rw [hturn, Option.some.injEq] at hst
    subst hst
    unfold Gateway.turn at hturn
    generalize hprog : g.handleFragment v.call.auth v.call.now v.call.requestId v.acc v.item = prog
      at hcases hturn
    cases hcases with
    | unread e hpolicy hcs => cases hturn
    | rejected eff e hpolicy hcheck hmode => cases hturn
    | bare vars'' hfollows htaint hcs =>
        cases hturn
        exact .bare hcs
    | bypassed vars'' hints eff e hfollows htaint hpolicy hcheck hmode =>
        cases hturn
        exact .bypassed hints eff e hpolicy hcheck hmode
    | served vars'' hints eff hfollows htaint hpolicy hcheck =>
        obtain ⟨o, a, u, r, hresolve, hretain, -, rfl⟩ := serve_eq_ok hturn
        rw [hfollows.contents, hfollows.namespaces] at hresolve hretain
        rw [htaint] at hretain ⊢
        rw [← hafter] at hretain
        exact .served hints eff o a r u hpolicy hcheck hresolve hretain

theorem policy_eq_none_of_bare {p : List Fragment} (h : constraintsOf p = some []) :
    policy p = none := by
  rw [policy, h]
  rfl

/-- A fragment whose policy is enforceable is served. -/
theorem served_of_status (h : Follows v.done v.acc) {st : FragmentStatus}
    (hst : v.status g = some st) {eff : Effective} (hpolicy : policy v.sent = some eff)
    (hcheck : checkEnforceable g.backend.capabilities eff = .ok ()) :
    ∃ hints o a r t, v.lookup g eff = (.ok (o, a), t) ∧
      g.retain o eff (contentsOf v.sent) (namespacesOf v.sent) (v.partition eff) v.call.now
        (!(v.acc.taintedApproximate || a)) v.item.approxClass t = (.ok r, v.after g) ∧
      st = Gateway.statusOf v.item eff hints o r (!(v.acc.taintedApproximate || a)) := by
  cases reports_of_status h hst with
  | bare hcs => cases hpolicy.symm.trans (policy_eq_none_of_bare hcs)
  | bypassed hints eff' e hpolicy' hcheck' hmode =>
      cases hpolicy.symm.trans hpolicy'
      cases hcheck.symm.trans hcheck'
  | served hints eff' o a r t hpolicy' hcheck' hlookup hretain =>
      cases hpolicy.symm.trans hpolicy'
      exact ⟨hints, o, a, r, t, hlookup, hretain, rfl⟩

theorem flag_of_lookup {eff : Effective} {o : Outcome} {a : Bool} {t : σ}
    (h : v.lookup g eff = (.ok (o, a), t)) : a = true ↔ o = .approximateHit :=
  (resolves_of_resolve h).flag_iff

theorem lookup_of_outcome (h : Follows v.done v.acc) {o : Outcome}
    (hout : v.outcome g = some o) (ho : o ≠ .bypass) :
    ∃ eff a t, policy v.sent = some eff ∧
      checkEnforceable g.backend.capabilities eff = .ok () ∧ v.lookup g eff = (.ok (o, a), t) := by
  obtain ⟨st, hst, rfl⟩ := Option.map_eq_some_iff.mp hout
  cases reports_of_status h hst with
  | bare hcs => exact absurd rfl ho
  | bypassed hints eff e hpolicy hcheck hmode => exact absurd rfl ho
  | served hints eff o a r t hpolicy hcheck hlookup hretain =>
      exact ⟨eff, a, t, hpolicy, hcheck, hlookup⟩

end CacheControl

import CacheControl.Policy

/-!
# One iteration of the gateway's loop

The ways an iteration can go, on any backend, and what each says of the status
it reports and of the taint it passes on.
-/

open PyText

namespace CacheControl

variable [Runtime] {σ : Type} {g : Gateway σ} {auth : AuthContext} {now : Time} {requestId : Str}

/-- The iteration for the last fragment of the prefix `p`, which the loop
reaches with the taint `tainted`. -/
inductive Turn (g : Gateway σ) (auth : AuthContext) (now : Time) (requestId : Str)
    (p : List Fragment) (f : Fragment) (tainted : Bool) :
    Prog PyError σ (LoopVars × FragmentStatus) → Prop
  | unread (e : PyError) : policy p = none → constraintsOf p ≠ some [] →
      Turn g auth now requestId p f tainted (Prog.raise e)
  | rejected (eff : Effective) (e : PyError) : policy p = some eff →
      checkEnforceable g.backend.capabilities eff = .error e → g.onUnenforceable = .reject →
      Turn g auth now requestId p f tainted (Prog.raise e)
  | bare (vars : LoopVars) : Follows p vars → vars.taintedApproximate = tainted →
      constraintsOf p = some [] →
      Turn g auth now requestId p f tainted (pure (vars, Gateway.bareStatus f))
  | bypassed (vars : LoopVars) (hints : HintStatus) (eff : Effective) (e : PyError) :
      Follows p vars → vars.taintedApproximate = tainted → policy p = some eff →
      checkEnforceable g.backend.capabilities eff = .error e → g.onUnenforceable = .bypass →
      Turn g auth now requestId p f tainted (pure (vars, Gateway.statusOf f eff hints .bypass
        (if eff.retention.mode = .forbid then .forbidden else .declined) true))
  | served (vars : LoopVars) (hints : HintStatus) (eff : Effective) :
      Follows p vars → vars.taintedApproximate = tainted → policy p = some eff →
      checkEnforceable g.backend.capabilities eff = .ok () →
      Turn g auth now requestId p f tainted (g.serve auth now requestId f vars hints eff)

theorem policy_eq_none_of_enter {caps : Capabilities} {p : List Fragment} {vars : LoopVars}
    {f : Fragment} {e : PyError} (h : Follows p vars) (he : enter caps vars f = .error e) :
    policy (p ++ [f]) = none ∧ constraintsOf (p ++ [f]) ≠ some [] := by
  unfold enter at he
  cases hf : f.intentJson with
  | none =>
      have hcs : constraintsOf (p ++ [f]) = some vars.constraintsSoFar := by
        simp [constraintsOf_concat, h.constraints, ownConstraints, hf]
      simp only [hf] at he
      split at he
      · cases he
      · rename_i hne
        cases hc : compose vars.constraintsSoFar with
        | ok eff => rw [hc] at he; cases he
        | error e' =>
            refine ⟨by simp [policy, hcs, hc, Except.toOption], ?_⟩
            rw [hcs]
            intro hnil
            rw [Option.some.inj hnil] at hne
            exact hne rfl
  | some text =>
      simp only [hf] at he
      cases hparse : parseCacheIntent text with
      | error e' =>
          have hcs : constraintsOf (p ++ [f]) = none := by
            simp [constraintsOf_concat, h.constraints, ownConstraints, hf, hparse,
              Except.toOption]
          exact ⟨by simp [policy, hcs], by simp [hcs]⟩
      | ok intent =>
          have hcs : constraintsOf (p ++ [f]) =
              some (vars.constraintsSoFar ++ [intent.constraints]) := by
            simp [constraintsOf_concat, h.constraints, ownConstraints, hf, hparse,
              Except.toOption]
          cases hc : compose (vars.constraintsSoFar ++ [intent.constraints]) with
          | ok eff =>
              simp only [hparse, bind, Except.bind, hc] at he
              cases he
          | error e' =>
              refine ⟨by simp [policy, hcs, hc, Except.toOption], ?_⟩
              rw [hcs]
              simp

/-- Every iteration is one of the five. -/
theorem turn_handleFragment (g : Gateway σ) (auth : AuthContext) (now : Time) (requestId : Str)
    {p : List Fragment} {vars : LoopVars} (h : Follows p vars) (f : Fragment) :
    Turn g auth now requestId (p ++ [f]) f vars.taintedApproximate
      (g.handleFragment auth now requestId vars f) := by
  unfold Gateway.handleFragment
  cases he : enter g.backend.capabilities vars f with
  | error e =>
      obtain ⟨hpolicy, hcs⟩ := policy_eq_none_of_enter h he
      exact .unread e hpolicy hcs
  | ok entered =>
      rw [Prog.lift_ok_bind]
      cases reads_enter h he with
      | ungoverned vars' hfollows htaint hcs => exact .bare vars' hfollows htaint hcs
      | governed vars' hints eff hfollows htaint hpolicy =>
          cases hcheck : checkEnforceable g.backend.capabilities eff with
          | ok u =>
              simp only [hcheck]
              exact .served vars' hints eff hfollows htaint hpolicy hcheck
          | error e =>
              simp only [hcheck]
              cases hmode : g.onUnenforceable with
              | reject => simpa using .rejected eff e hpolicy hcheck hmode
              | bypass =>
                  simpa using .bypassed vars' hints eff e hfollows htaint hpolicy hcheck hmode

namespace Turn

variable {p : List Fragment} {f : Fragment} {tainted : Bool}
  {prog : Prog PyError σ (LoopVars × FragmentStatus)}

/-- Only a fragment that is served moves the state. -/
theorem within {Q : σ → σ → Prop} (hrefl : ∀ s, Q s s)
    (h : Turn g auth now requestId p f tainted prog)
    (hserve : ∀ vars hints eff, policy p = some eff →
      checkEnforceable g.backend.capabilities eff = .ok () →
      Prog.Within Q (g.serve auth now requestId f vars hints eff)) : Prog.Within Q prog := by
  cases h with
  | unread e => exact Prog.within_raise hrefl e
  | rejected eff e => exact Prog.within_raise hrefl e
  | bare vars => exact Prog.within_pure hrefl _
  | bypassed vars hints eff e => exact Prog.within_pure hrefl _
  | served vars hints eff hfollows htaint hpolicy hcheck =>
      exact hserve vars hints eff hpolicy hcheck

theorem sim {R : σ → σ → Prop} (h : Turn g auth now requestId p f tainted prog)
    (hserve : ∀ vars hints eff, policy p = some eff →
      checkEnforceable g.backend.capabilities eff = .ok () →
      Prog.Sim R (g.serve auth now requestId f vars hints eff)
        (g.serve auth now requestId f vars hints eff)) : Prog.Sim R prog prog := by
  cases h with
  | unread e => exact Prog.sim_raise R e
  | rejected eff e => exact Prog.sim_raise R e
  | bare vars => exact Prog.sim_pure R _
  | bypassed vars hints eff e => exact Prog.sim_pure R _
  | served vars hints eff hfollows htaint hpolicy hcheck =>
      exact hserve vars hints eff hpolicy hcheck

end Turn

/-! ## Serving a fragment -/

variable {eff : Effective} {contents namespaces : List Str} {partition : Str}
  {approxClass : Option Str} {s t : σ} {o : Outcome} {a : Bool}

theorem within_resolve_of_get {Q : σ → σ → Prop} (hrefl : ∀ s, Q s s)
    (htrans : ∀ s t u, Q s t → Q t u → Q s u)
    (hget : ∀ contents exact k, cacheKey execution contents namespaces partition exact = .ok k →
      Prog.Within Q (g.backend.get k now)) :
    Prog.Within Q (g.resolve eff contents namespaces partition now approxClass) := by
  unfold Gateway.resolve
  split
  · exact Prog.within_pure hrefl _
  split
  · exact Prog.within_pure hrefl _
  refine Prog.Within.lift_bind hrefl fun key hkey => ?_
  refine Prog.Within.bind htrans (hget _ _ key hkey) fun found => ?_
  cases found with
  | some entry => exact Prog.within_pure hrefl _
  | none =>
      cases eff.reuse with
      | none => exact Prog.within_pure hrefl _
      | exact => exact Prog.within_pure hrefl _
      | approximate =>
          cases approxClass with
          | none => exact Prog.within_pure hrefl _
          | some c =>
              refine Prog.Within.lift_bind hrefl fun donorKey hdonorKey => ?_
              refine Prog.Within.bind htrans (hget _ _ donorKey hdonorKey) fun donor => ?_
              cases donor <;> exact Prog.within_pure hrefl _

theorem within_retain_of_put {Q : σ → σ → Prop} (hrefl : ∀ s, Q s s)
    (htrans : ∀ s t u, Q s t → Q t u → Q s u) {exact : Bool}
    (hput : eff.retention.mode ≠ .forbid → eff.shareMax ≠ .request → ∀ k exact,
      Prog.Within Q (g.backend.put k now eff.retention.maxAge exact)) :
    Prog.Within Q (g.retain o eff contents namespaces partition now exact approxClass) := by
  have hmaterialize : Prog.Within Q
      (g.materialize eff contents namespaces partition now exact approxClass) := by
    unfold Gateway.materialize
    split
    · exact Prog.within_pure hrefl _
    rename_i hmode
    split
    · exact Prog.within_pure hrefl _
    rename_i hshare
    refine Prog.Within.lift_bind hrefl fun key _ => ?_
    refine Prog.Within.bind htrans (hput hmode hshare _ _) fun _ => ?_
    cases approxClass with
    | none => exact Prog.within_pure hrefl _
    | some c =>
        refine Prog.Within.lift_bind hrefl fun donorKey _ => ?_
        exact Prog.Within.bind htrans (hput hmode hshare _ _) fun _ => Prog.within_pure hrefl _
  cases o with
  | unobserved => exact Prog.within_pure hrefl _
  | exactHit => exact Prog.within_pure hrefl _
  | bypass => exact hmaterialize
  | miss => exact hmaterialize
  | approximateHit => exact hmaterialize

section Sim

variable {σ' : Type} {g' : Gateway σ'} {R : σ → σ' → Prop}

/-- The gateways differ in the states of their backends only. -/
structure Gateway.Agrees (g : Gateway σ) (g' : Gateway σ') : Prop where
  capabilities : g'.backend.capabilities = g.backend.capabilities
  observesOutcomes : g'.backend.observesOutcomes = g.backend.observesOutcomes
  onUnenforceable : g'.onUnenforceable = g.onUnenforceable

theorem Gateway.Agrees.refl (g : Gateway σ) : g.Agrees g := ⟨rfl, rfl, rfl⟩

theorem sim_resolve (hagrees : g.Agrees g')
    (hget : ∀ contents exact k, cacheKey execution contents namespaces partition exact = .ok k →
      Prog.Sim R (g.backend.get k now) (g'.backend.get k now)) :
    Prog.Sim R (g.resolve eff contents namespaces partition now approxClass)
      (g'.resolve eff contents namespaces partition now approxClass) := by
  unfold Gateway.resolve
  rw [hagrees.observesOutcomes]
  split
  · exact Prog.sim_pure _ _
  split
  · exact Prog.sim_pure _ _
  refine Prog.Sim.lift_bind fun key hkey => ?_
  refine (hget _ _ key hkey).bind fun found => ?_
  cases found with
  | some entry => exact Prog.sim_pure _ _
  | none =>
      cases eff.reuse with
      | none => exact Prog.sim_pure _ _
      | exact => exact Prog.sim_pure _ _
      | approximate =>
          cases approxClass with
          | none => exact Prog.sim_pure _ _
          | some c =>
              refine Prog.Sim.lift_bind fun donorKey hdonorKey => ?_
              refine (hget _ _ donorKey hdonorKey).bind fun donor => ?_
              cases donor <;> exact Prog.sim_pure _ _

theorem sim_retain {exact : Bool}
    (hput : ∀ k exact, Prog.Sim R (g.backend.put k now eff.retention.maxAge exact)
      (g'.backend.put k now eff.retention.maxAge exact)) :
    Prog.Sim R (g.retain o eff contents namespaces partition now exact approxClass)
      (g'.retain o eff contents namespaces partition now exact approxClass) := by
  have hmaterialize : Prog.Sim R
      (g.materialize eff contents namespaces partition now exact approxClass)
      (g'.materialize eff contents namespaces partition now exact approxClass) := by
    unfold Gateway.materialize
    split
    · exact Prog.sim_pure _ _
    split
    · exact Prog.sim_pure _ _
    refine Prog.Sim.lift_bind fun key _ => (hput _ _).bind fun _ => ?_
    cases approxClass with
    | none => exact Prog.sim_pure _ _
    | some c =>
        exact Prog.Sim.lift_bind fun donorKey _ => (hput _ _).bind fun _ => Prog.sim_pure _ _
  cases o with
  | unobserved => exact Prog.sim_pure _ _
  | exactHit => exact Prog.sim_pure _ _
  | bypass => exact hmaterialize
  | miss => exact hmaterialize
  | approximateHit => exact hmaterialize

/-- A relation of states that the backends' operations keep is kept by serving a
fragment. -/
theorem sim_serve (hagrees : g.Agrees g') {f : Fragment} {vars : LoopVars} {hints : HintStatus}
    (hget : ∀ contents namespaces exact k, cacheKey execution contents namespaces
      (partitionFor eff.shareMax auth requestId) exact = .ok k →
        Prog.Sim R (g.backend.get k now) (g'.backend.get k now))
    (hput : ∀ k exact, Prog.Sim R (g.backend.put k now eff.retention.maxAge exact)
      (g'.backend.put k now eff.retention.maxAge exact)) :
    Prog.Sim R (g.serve auth now requestId f vars hints eff)
      (g'.serve auth now requestId f vars hints eff) := by
  unfold Gateway.serve
  refine (sim_resolve hagrees fun contents exact k hk => hget _ _ _ k hk).bind fun ⟨o, a⟩ => ?_
  exact (sim_retain hput).bind fun r => Prog.sim_pure _ _

end Sim

/-- The ways in which a lookup can end without an error. -/
inductive Resolves (g : Gateway σ) (eff : Effective) (contents namespaces : List Str)
    (partition : Str) (now : Time) (approxClass : Option Str) (s t : σ) :
    Outcome → Bool → Prop
  | unobserved : g.backend.observesOutcomes = false → t = s →
      Resolves g eff contents namespaces partition now approxClass s t .unobserved false
  | bypass : g.backend.observesOutcomes = true → eff.reuse = .none → t = s →
      Resolves g eff contents namespaces partition now approxClass s t .bypass false
  | exactHit (k : Str) (entry : Entry) : g.backend.observesOutcomes = true → eff.reuse ≠ .none →
      cacheKey execution contents namespaces partition true = .ok k →
      g.backend.get k now s = (.ok (some entry), t) →
      Resolves g eff contents namespaces partition now approxClass s t .exactHit false
  | approximateHit (k c dk : Str) (entry : Entry) (u : σ) : g.backend.observesOutcomes = true →
      eff.reuse = .approximate → approxClass = some c →
      cacheKey execution contents namespaces partition true = .ok k →
      cacheKey execution [c] namespaces partition false = .ok dk →
      g.backend.get k now s = (.ok none, u) → g.backend.get dk now u = (.ok (some entry), t) →
      Resolves g eff contents namespaces partition now approxClass s t .approximateHit true
  | missDonor (k c dk : Str) (u : σ) : g.backend.observesOutcomes = true →
      eff.reuse = .approximate → approxClass = some c →
      cacheKey execution contents namespaces partition true = .ok k →
      cacheKey execution [c] namespaces partition false = .ok dk →
      g.backend.get k now s = (.ok none, u) → g.backend.get dk now u = (.ok none, t) →
      Resolves g eff contents namespaces partition now approxClass s t .miss false
  | miss (k : Str) : g.backend.observesOutcomes = true → eff.reuse ≠ .none →
      (eff.reuse = .approximate → approxClass = none) →
      cacheKey execution contents namespaces partition true = .ok k →
      g.backend.get k now s = (.ok none, t) →
      Resolves g eff contents namespaces partition now approxClass s t .miss false

theorem resolves_of_resolve
    (h : g.resolve eff contents namespaces partition now approxClass s = (.ok (o, a), t)) :
    Resolves g eff contents namespaces partition now approxClass s t o a := by
  unfold Gateway.resolve at h
  split at h
  · rename_i hobs
    cases h
    exact .unobserved (by simpa using hobs) rfl
  · rename_i hobs
    have hobs : g.backend.observesOutcomes = true := by simpa using hobs
    split at h
    · rename_i hreuse
      cases h
      exact .bypass hobs hreuse rfl
    · rename_i hreuse
      obtain ⟨k, hk, h⟩ := Prog.lift_bind_eq_ok_iff.mp h
      obtain ⟨found, u, hget, h⟩ := Prog.bind_eq_ok_iff.mp h
      cases found with
      | some entry =>
          cases h
          exact .exactHit k entry hobs hreuse hk hget
      | none =>
          cases hr : eff.reuse with
          | none => exact absurd hr hreuse
          | exact =>
              simp only [hr] at h
              cases h
              exact .miss k hobs hreuse (by simp [hr]) hk hget
          | approximate =>
              cases approxClass with
              | none =>
                  simp only [hr] at h
                  cases h
                  exact .miss k hobs hreuse (fun _ => rfl) hk hget
              | some c =>
                  simp only [hr] at h
                  obtain ⟨dk, hdk, h⟩ := Prog.lift_bind_eq_ok_iff.mp h
                  obtain ⟨donor, u', hdonor, h⟩ := Prog.bind_eq_ok_iff.mp h
                  cases donor with
                  | some entry =>
                      cases h
                      exact .approximateHit k c dk entry _ hobs hr rfl hk hdk hget hdonor
                  | none =>
                      cases h
                      exact .missDonor k c dk _ hobs hr rfl hk hdk hget hdonor

/-- A lookup succeeds where the backend's reads do and its keys can be spelled. -/
theorem resolve_ok (hget : ∀ k s, ∃ found t, g.backend.get k now s = (.ok found, t))
    (hkey : ∃ k, cacheKey execution contents namespaces partition true = .ok k)
    (hdonor : eff.reuse = .approximate → ∀ c, approxClass = some c →
      ∃ dk, cacheKey execution [c] namespaces partition false = .ok dk) (s : σ) :
    ∃ o a t, g.resolve eff contents namespaces partition now approxClass s = (.ok (o, a), t) := by
  unfold Gateway.resolve
  split
  · exact ⟨_, _, _, rfl⟩
  split
  · exact ⟨_, _, _, rfl⟩
  obtain ⟨k, hk⟩ := hkey
  obtain ⟨found, t, ht⟩ := hget k s
  rw [hk, Prog.lift_ok_bind, Prog.bind_of_ok ht]
  cases found with
  | some e => exact ⟨_, _, _, rfl⟩
  | none =>
      cases hr : eff.reuse with
      | none => exact ⟨_, _, _, rfl⟩
      | exact => exact ⟨_, _, _, rfl⟩
      | approximate =>
          cases hc : approxClass with
          | none => exact ⟨_, _, _, rfl⟩
          | some c =>
              obtain ⟨dk, hdk⟩ := hdonor hr c hc
              obtain ⟨donor, u, hu⟩ := hget dk t
              simp only [hdk, Prog.lift_ok_bind]
              rw [Prog.bind_of_ok hu]
              cases donor <;> exact ⟨_, _, _, rfl⟩

/-- Retention is reported where it asks for nothing to be written, or the
backend's writes succeed and its keys can be spelled. -/
theorem retain_ok {exact : Bool}
    (h : o ≠ .unobserved → o ≠ .exactHit → eff.retention.mode = .allow → eff.shareMax ≠ .request →
      (∀ k exact s, ∃ entry t, g.backend.put k now eff.retention.maxAge exact s = (.ok entry, t)) ∧
      (∃ k, cacheKey execution contents namespaces partition exact = .ok k) ∧
      ∀ c, approxClass = some c →
        ∃ dk, cacheKey execution [c] namespaces partition false = .ok dk) (s : σ) :
    ∃ r t, g.retain o eff contents namespaces partition now exact approxClass s = (.ok r, t) := by
  have hmaterialize : o ≠ .unobserved → o ≠ .exactHit → ∃ r t,
      g.materialize eff contents namespaces partition now exact approxClass s = (.ok r, t) := by
    intro ho ho'
    unfold Gateway.materialize
    split
    · exact ⟨_, _, rfl⟩
    rename_i hforbid
    split
    · exact ⟨_, _, rfl⟩
    rename_i hshare
    have hallow : eff.retention.mode = .allow := by
      cases hmode : eff.retention.mode with
      | allow => rfl
      | forbid => exact absurd hmode hforbid
    obtain ⟨hput, ⟨k, hk⟩, hdonor⟩ := h ho ho' hallow hshare
    obtain ⟨entry, t, ht⟩ := hput k exact s
    rw [hk, Prog.lift_ok_bind, Prog.bind_of_ok ht]
    cases hc : approxClass with
    | none => exact ⟨_, _, rfl⟩
    | some c =>
        obtain ⟨dk, hdk⟩ := hdonor c hc
        obtain ⟨entry', u, hu⟩ := hput dk false t
        simp only [hdk, Prog.lift_ok_bind]
        rw [Prog.bind_of_ok hu]
        exact ⟨_, _, rfl⟩
  cases o with
  | unobserved => exact ⟨_, _, rfl⟩
  | exactHit => exact ⟨_, _, rfl⟩
  | bypass => exact hmaterialize (by decide) (by decide)
  | miss => exact hmaterialize (by decide) (by decide)
  | approximateHit => exact hmaterialize (by decide) (by decide)

theorem retain_of_put_error {exact : Bool} (ho : o ≠ .unobserved) (ho' : o ≠ .exactHit)
    (hallow : eff.retention.mode = .allow) (hshare : eff.shareMax ≠ .request)
    (hkey : ∃ k, cacheKey execution contents namespaces partition exact = .ok k) {P : PyError → Prop}
    (hput : ∀ k exact s, ∃ e t, g.backend.put k now eff.retention.maxAge exact s = (.error e, t) ∧
      P e) (s : σ) :
    ∃ e t, g.retain o eff contents namespaces partition now exact approxClass s = (.error e, t) ∧
      P e := by
  have hmaterialize : ∃ e t, g.materialize eff contents namespaces partition now exact
      approxClass s = (.error e, t) ∧ P e := by
    obtain ⟨k, hk⟩ := hkey
    obtain ⟨e, t, ht, hP⟩ := hput k exact s
    unfold Gateway.materialize
    rw [if_neg (by simp [hallow]), if_neg hshare, hk, Prog.lift_ok_bind]
    exact ⟨e, t, Prog.bind_of_error ht, hP⟩
  cases o with
  | unobserved => exact absurd rfl ho
  | exactHit => exact absurd rfl ho'
  | bypass => exact hmaterialize
  | miss => exact hmaterialize
  | approximateHit => exact hmaterialize

namespace Resolves

variable (h : Resolves g eff contents namespaces partition now approxClass s t o a)

include h

theorem flag_iff : a = true ↔ o = .approximateHit := by
  cases h <;> simp

theorem reuse_of_approximateHit (ho : o = .approximateHit) : eff.reuse = .approximate := by
  cases h <;> first | assumption | cases ho

theorem reuse_of_exactHit (ho : o = .exactHit) : eff.reuse ≠ .none := by
  cases h <;> first | assumption | cases ho

theorem bypass_iff (hobs : g.backend.observesOutcomes = true) :
    o = .bypass ↔ eff.reuse = .none := by
  cases h <;> simp_all

theorem exists_key (hobs : g.backend.observesOutcomes = true) (hreuse : eff.reuse ≠ .none) :
    ∃ k, cacheKey execution contents namespaces partition true = .ok k := by
  cases h with
  | unobserved hnot => simp [hobs] at hnot
  | bypass _ hnone => exact absurd hnone hreuse
  | exactHit k entry _ _ hk => exact ⟨k, hk⟩
  | approximateHit k c dk entry u _ _ _ hk => exact ⟨k, hk⟩
  | missDonor k c dk u _ _ _ hk => exact ⟨k, hk⟩
  | miss k _ _ _ hk => exact ⟨k, hk⟩

theorem unobserved_iff : o = .unobserved ↔ g.backend.observesOutcomes = false := by
  cases h <;> simp_all

end Resolves

/-- The retention that is reported for an outcome, told from the policy. -/
def retentionOf (o : Outcome) (eff : Effective) : RetentionStatus :=
  match o with
  | .unobserved => if eff.retention.mode = .forbid then .forbidden else .unobserved
  | .exactHit => .retained
  | _ =>
      if eff.retention.mode = .forbid then .forbidden
      else if eff.shareMax = .request then .declined else .retained

theorem retention_of_materialize {exact : Bool} {r : RetentionStatus}
    (h : g.materialize eff contents namespaces partition now exact approxClass s = (.ok r, t)) :
    r = if eff.retention.mode = .forbid then .forbidden
      else if eff.shareMax = .request then .declined else .retained := by
  unfold Gateway.materialize at h
  split at h
  · rename_i hforbid
    cases h
    rw [if_pos hforbid]
  · rename_i hallow
    rw [if_neg hallow]
    split at h
    · rename_i hshare
      cases h
      rw [if_pos hshare]
    · rename_i hshare
      rw [if_neg hshare]
      obtain ⟨key, -, h⟩ := Prog.lift_bind_eq_ok_iff.mp h
      obtain ⟨found, u, -, h⟩ := Prog.bind_eq_ok_iff.mp h
      cases approxClass with
      | none =>
          cases h
          rfl
      | some c =>
          obtain ⟨donorKey, -, h⟩ := Prog.lift_bind_eq_ok_iff.mp h
          obtain ⟨found', u', -, h⟩ := Prog.bind_eq_ok_iff.mp h
          cases h
          rfl

theorem retention_of_retain {exact : Bool} {r : RetentionStatus}
    (h : g.retain o eff contents namespaces partition now exact approxClass s = (.ok r, t)) :
    r = retentionOf o eff := by
  cases o with
  | unobserved =>
      cases h
      rfl
  | exactHit =>
      cases h
      rfl
  | bypass => exact retention_of_materialize h
  | miss => exact retention_of_materialize h
  | approximateHit => exact retention_of_materialize h

omit [Runtime] in
theorem retentionOf_eq_forbidden_iff :
    retentionOf o eff = .forbidden ↔ eff.retention.mode = .forbid ∧ o ≠ .exactHit := by
  cases o <;> by_cases hforbid : eff.retention.mode = .forbid <;>
    by_cases hshare : eff.shareMax = .request <;> simp [retentionOf, hforbid, hshare]

omit [Runtime] in
theorem retentionOf_eq_retained_iff :
    retentionOf o eff = .retained ↔ o = .exactHit ∨
      o ≠ .unobserved ∧ eff.retention.mode = .allow ∧ eff.shareMax ≠ .request := by
  cases hmode : eff.retention.mode <;> cases o <;>
    by_cases hshare : eff.shareMax = .request <;> simp [retentionOf, hmode, hshare]

theorem serve_eq_ok {f : Fragment} {vars vars' : LoopVars} {hints : HintStatus}
    {st : FragmentStatus}
    (h : g.serve auth now requestId f vars hints eff s = (.ok (vars', st), t)) :
    ∃ o a u r,
      g.resolve eff vars.contentsSoFar vars.namespacesSoFar
        (partitionFor eff.shareMax auth requestId) now f.approxClass s = (.ok (o, a), u) ∧
      g.retain o eff vars.contentsSoFar vars.namespacesSoFar
        (partitionFor eff.shareMax auth requestId) now
        (!(vars.taintedApproximate || a)) f.approxClass u = (.ok r, t) ∧
      vars' = { vars with taintedApproximate := vars.taintedApproximate || a } ∧
      st = Gateway.statusOf f eff hints o r (!(vars.taintedApproximate || a)) := by
  obtain ⟨⟨o, a⟩, u, hresolve, h⟩ := Prog.bind_eq_ok_iff.mp h
  obtain ⟨r, u', hretain, h⟩ := Prog.bind_eq_ok_iff.mp h
  cases h
  exact ⟨o, a, u, r, hresolve, hretain, rfl, rfl⟩

theorem serve_of_ok {f : Fragment} {vars : LoopVars} {hints : HintStatus} {u : σ}
    {r : RetentionStatus}
    (hresolve : g.resolve eff vars.contentsSoFar vars.namespacesSoFar
      (partitionFor eff.shareMax auth requestId) now f.approxClass s = (.ok (o, a), u))
    (hretain : g.retain o eff vars.contentsSoFar vars.namespacesSoFar
      (partitionFor eff.shareMax auth requestId) now
      (!(vars.taintedApproximate || a)) f.approxClass u = (.ok r, t)) :
    g.serve auth now requestId f vars hints eff s =
      (.ok ({ vars with taintedApproximate := vars.taintedApproximate || a },
        Gateway.statusOf f eff hints o r (!(vars.taintedApproximate || a))), t) := by
  unfold Gateway.serve
  rw [Prog.bind_of_ok hresolve]
  exact Prog.bind_of_ok hretain

theorem serve_state_of_error {f : Fragment} {vars : LoopVars} {hints : HintStatus} {e : PyError}
    (h : g.resolve eff vars.contentsSoFar vars.namespacesSoFar
      (partitionFor eff.shareMax auth requestId) now f.approxClass s = (.error e, t)) :
    g.serve auth now requestId f vars hints eff s = (.error e, t) :=
  Prog.bind_of_error h

/-- Behind a lookup that succeeds only the retention can fail. -/
theorem serve_of_resolve {f : Fragment} {vars : LoopVars} {hints : HintStatus}
    (h : g.resolve eff vars.contentsSoFar vars.namespacesSoFar
      (partitionFor eff.shareMax auth requestId) now f.approxClass s = (.ok (o, a), t)) :
    g.serve auth now requestId f vars hints eff s =
      ((g.retain o eff vars.contentsSoFar vars.namespacesSoFar
        (partitionFor eff.shareMax auth requestId) now (!(vars.taintedApproximate || a))
        f.approxClass t).1.map fun r =>
          ({ vars with taintedApproximate := vars.taintedApproximate || a },
            Gateway.statusOf f eff hints o r (!(vars.taintedApproximate || a))),
      (g.retain o eff vars.contentsSoFar vars.namespacesSoFar
        (partitionFor eff.shareMax auth requestId) now (!(vars.taintedApproximate || a))
        f.approxClass t).2) := by
  unfold Gateway.serve
  rw [Prog.bind_of_ok h]
  exact Prog.bind_pure_state _ _ t

theorem serve_state_of_ok {f : Fragment} {vars : LoopVars} {hints : HintStatus}
    (h : g.resolve eff vars.contentsSoFar vars.namespacesSoFar
      (partitionFor eff.shareMax auth requestId) now f.approxClass s = (.ok (o, a), t)) :
    (g.serve auth now requestId f vars hints eff s).2 =
      (g.retain o eff vars.contentsSoFar vars.namespacesSoFar
        (partitionFor eff.shareMax auth requestId) now
        (!(vars.taintedApproximate || a)) f.approxClass t).2 := by
  rw [serve_of_resolve h]

end CacheControl

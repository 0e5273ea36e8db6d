import CacheControl.Gateway

/-!
# The policy of a prefix

A prefix is what a request sends up to and including one of its fragments.
Its constraints are those of the intents it carries, and its policy is what
they compose to.  The loop variables of `handle` are functions of the prefix.
-/

open PyText

namespace CacheControl

/-! ## What composition computes -/

theorem isLeast_foldl_min {α : Type*} [LinearOrder α] (a : α) (l : List α) :
    IsLeast {x | x ∈ a :: l} (l.foldl min a) := by
  have hmin : (a :: l).min? = some (l.foldl min a) := List.min?_cons'
  have h := List.min?_eq_some_iff.mp hmin
  exact ⟨h.1, fun b hb => h.2 b hb⟩

/-- `age` is the smallest bound that some constraint supplies, and is absent
when none supplies one. -/
def IsSmallestAge (cs : List Constraints) : Option ℕ → Prop
  | none => ∀ c ∈ cs, c.retention.maxAge = none
  | some m => IsLeast {n | ∃ c ∈ cs, c.retention.maxAge = some n} m

/-- The effective policy is the meet of its contributors. -/
structure Composes [Runtime] (cs : List Constraints) (eff : Effective) : Prop where
  reuse : IsLeast {r | ∃ c ∈ cs, c.reuse = r} eff.reuse
  shareMax : IsLeast {s | ∃ c ∈ cs, c.shareMax = s} eff.shareMax
  forbids : eff.retention.mode = .forbid ↔ ∃ c ∈ cs, c.retention.mode = .forbid
  maxAge : eff.retention.mode = .allow → IsSmallestAge cs eff.retention.maxAge
  namespaceIdentity : namespaceDigest (cs.filterMap Constraints.ns) = .ok eff.namespaceIdentity

theorem mem_reduceOption_maxAge {cs : List Constraints} {n : ℕ} :
    n ∈ ((cs.map Constraints.retention).map Retention.maxAge).reduceOption ↔
      ∃ c ∈ cs, c.retention.maxAge = some n := by
  rw [List.reduceOption_mem_iff, List.map_map, List.mem_map]
  rfl

theorem isSmallestAge_composeMaxAge (cs : List Constraints) :
    IsSmallestAge cs (composeMaxAge ((cs.map Constraints.retention).map Retention.maxAge)) := by
  unfold composeMaxAge
  cases h : ((cs.map Constraints.retention).map Retention.maxAge).reduceOption with
  | nil =>
      intro c hc
      cases hm : c.retention.maxAge with
      | none => rfl
      | some n =>
          have hn := mem_reduceOption_maxAge.mpr ⟨c, hc, hm⟩
          rw [h] at hn
          cases hn
  | cons a supplied =>
      have hset : {n | ∃ c ∈ cs, c.retention.maxAge = some n} = {n | n ∈ a :: supplied} := by
        ext n
        rw [← h]
        exact mem_reduceOption_maxAge.symm
      show IsLeast _ _
      rw [hset]
      exact isLeast_foldl_min a supplied

theorem composeRetention_forbid_iff {rs : List Retention} :
    (composeRetention rs).mode = .forbid ↔ ∃ r ∈ rs, r.mode = .forbid := by
  unfold composeRetention
  split <;> simp_all

theorem composeRetention_of_allow {rs : List Retention} (h : (composeRetention rs).mode = .allow) :
    composeRetention rs = .allow (composeMaxAge (rs.map Retention.maxAge)) := by
  unfold composeRetention at h ⊢
  split at h
  · cases h
  · rename_i hany
    rw [if_neg hany]

/-! ## Enforceability -/

/-- The backend can enforce everything the policy asks for. -/
structure Enforces (caps : Capabilities) (eff : Effective) : Prop where
  mode : eff.retention.mode ∈ caps.retentionModes
  maxAge : eff.retention.maxAge.isSome = true → caps.retentionMaxAge = true
  reuse : eff.reuse ∈ caps.reuse
  shareMax : eff.shareMax ∈ caps.shareMax
  ns : eff.namespaceIdentity.isSome = true → caps.ns = true

theorem checkEnforceable_eq_ok_iff {caps : Capabilities} {eff : Effective} {u : Unit} :
    checkEnforceable caps eff = .ok u ↔ Enforces caps eff := by
  unfold checkEnforceable
  constructor
  · intro h
    split at h
    · cases h
    · rename_i hmode
      split at h
      · cases h
      · rename_i hage
        split at h
        · cases h
        · rename_i hreuse
          split at h
          · cases h
          · rename_i hshare
            split at h
            · cases h
            · rename_i hns
              exact ⟨not_not.mp hmode, by simpa using hage, not_not.mp hreuse, not_not.mp hshare,
                by simpa using hns⟩
  · intro h
    rw [if_neg (not_not.mpr h.mode), if_neg (by simpa using h.maxAge),
      if_neg (not_not.mpr h.reuse), if_neg (not_not.mpr h.shareMax), if_neg (by simpa using h.ns)]

variable [Runtime]

theorem namespaceIdentity_map_some (ns : List Str) :
    namespaceIdentity (ns.map some) = namespaceDigest ns := by
  simp [namespaceIdentity, List.reduceOption]

theorem composes_of_compose {cs : List Constraints} {eff : Effective}
    (h : compose cs = .ok eff) : Composes cs eff := by
  cases cs with
  | nil => cases h
  | cons f fs =>
      rw [compose, namespaceIdentity_map_some] at h
      cases hns : namespaceDigest ((f :: fs).filterMap Constraints.ns) with
      | error e => rw [hns] at h; cases h
      | ok identity =>
          rw [hns] at h
          cases h
          have hset : ∀ {α : Type} (g : Constraints → α),
              {x | ∃ c ∈ f :: fs, g c = x} = {x | x ∈ g f :: fs.map g} := by
            intro α g
            ext x
            simp [eq_comm]
          refine ⟨?_, ?_, ?_, ?_, hns⟩
          · rw [hset Constraints.reuse]
            exact isLeast_foldl_min _ _
          · rw [hset Constraints.shareMax]
            exact isLeast_foldl_min _ _
          · rw [composeRetention_forbid_iff]
            simp
          · intro hallow
            have hmax := isSmallestAge_composeMaxAge (f :: fs)
            rw [composeRetention_of_allow hallow]
            exact hmax

namespace Composes

variable {cs ds : List Constraints} {eff eff' : Effective}

theorem ne_nil (h : Composes cs eff) : cs ≠ [] := by
  rintro rfl
  obtain ⟨c, hc, -⟩ := h.reuse.1
  simp at hc

theorem reuse_le (h : Composes cs eff) {c : Constraints} (hc : c ∈ cs) : eff.reuse ≤ c.reuse :=
  h.reuse.2 ⟨c, hc, rfl⟩

theorem shareMax_le (h : Composes cs eff) {c : Constraints} (hc : c ∈ cs) :
    eff.shareMax ≤ c.shareMax :=
  h.shareMax.2 ⟨c, hc, rfl⟩

theorem shareMax_anti (h : Composes cs eff) (h' : Composes ds eff') (hsub : cs ⊆ ds) :
    eff'.shareMax ≤ eff.shareMax := by
  obtain ⟨c, hc, hce⟩ := h.shareMax.1
  rw [← hce]
  exact h'.shareMax_le (hsub hc)

theorem forbids_mono (h : Composes cs eff) (h' : Composes ds eff') (hsub : cs ⊆ ds)
    (hf : eff.retention.mode = .forbid) : eff'.retention.mode = .forbid := by
  obtain ⟨c, hc, hce⟩ := h.forbids.mp hf
  exact h'.forbids.mpr ⟨c, hsub hc, hce⟩

/-- A bound in force on a prefix binds every longer prefix that allows
retention at least as tightly. -/
theorem maxAge_anti (h : Composes cs eff) (h' : Composes ds eff') (hsub : cs ⊆ ds)
    (hallow : eff.retention.mode = .allow) (hallow' : eff'.retention.mode = .allow) {m : ℕ}
    (hm : eff.retention.maxAge = some m) : ∃ m' ≤ m, eff'.retention.maxAge = some m' := by
  have hleast := h.maxAge hallow
  rw [hm] at hleast
  obtain ⟨c, hc, hcm⟩ := hleast.1
  have hleast' := h'.maxAge hallow'
  cases hm' : eff'.retention.maxAge with
  | none =>
      rw [hm'] at hleast'
      cases hcm.symm.trans (hleast' c (hsub hc))
  | some m' =>
      rw [hm'] at hleast'
      exact ⟨m', hleast'.2 ⟨c, hsub hc, hcm⟩, rfl⟩

end Composes

/-! ## Prefixes -/

def contentsOf (p : List Fragment) : List Str := p.map Fragment.content

/-- The constraints of the intents in a prefix; `none` when one of them is not
accepted. -/
def constraintsOf : List Fragment → Option (List Constraints)
  | [] => some []
  | f :: fs =>
      match f.intentJson with
      | none => constraintsOf fs
      | some text => do
          let intent ← (parseCacheIntent text).toOption
          let rest ← constraintsOf fs
          pure (intent.constraints :: rest)

def namespacesOf (p : List Fragment) : List Str :=
  ((constraintsOf p).getD []).filterMap Constraints.ns

/-- What the intents of a prefix compose to; `none` when there are none. -/
def policy (p : List Fragment) : Option Effective :=
  (constraintsOf p).bind fun cs => (compose cs).toOption

omit [Runtime] in
theorem toOption_eq_some_iff {α ε : Type*} {x : Except ε α} {a : α} :
    x.toOption = some a ↔ x = .ok a := by
  cases x <;> simp [Except.toOption]

theorem policy_eq_some_iff {p : List Fragment} {eff : Effective} :
    policy p = some eff ↔ ∃ cs, constraintsOf p = some cs ∧ compose cs = .ok eff := by
  simp [policy, Option.bind_eq_some_iff, toOption_eq_some_iff]

theorem composes_of_policy {p : List Fragment} {eff : Effective} (h : policy p = some eff) :
    ∃ cs, constraintsOf p = some cs ∧ Composes cs eff := by
  obtain ⟨cs, hcs, hcompose⟩ := policy_eq_some_iff.mp h
  exact ⟨cs, hcs, composes_of_compose hcompose⟩

theorem namespaceDigest_of_policy {p : List Fragment} {eff : Effective} (h : policy p = some eff) :
    namespaceDigest (namespacesOf p) = .ok eff.namespaceIdentity := by
  obtain ⟨cs, hcs, hcomposes⟩ := composes_of_policy h
  rw [namespacesOf, hcs]
  exact hcomposes.namespaceIdentity

def ownConstraints (f : Fragment) : Option (List Constraints) :=
  match f.intentJson with
  | none => some []
  | some text => (parseCacheIntent text).toOption.map fun intent => [intent.constraints]

theorem constraintsOf_cons (f : Fragment) (p : List Fragment) :
    constraintsOf (f :: p) = (ownConstraints f).bind fun cs => (constraintsOf p).map (cs ++ ·) := by
  rw [constraintsOf, ownConstraints]
  cases f.intentJson with
  | none => simp
  | some text =>
      cases hparse : parseCacheIntent text <;> cases constraintsOf p <;>
        simp [Except.toOption, hparse]

theorem constraintsOf_append (p q : List Fragment) :
    constraintsOf (p ++ q) = (constraintsOf p).bind fun cs => (constraintsOf q).map (cs ++ ·) := by
  induction p with
  | nil => simp [constraintsOf]
  | cons f p ih =>
      rw [List.cons_append, constraintsOf_cons, constraintsOf_cons, ih]
      cases ownConstraints f <;> cases constraintsOf p <;> cases constraintsOf q <;> simp

theorem constraintsOf_concat (p : List Fragment) (f : Fragment) :
    constraintsOf (p ++ [f]) =
      (constraintsOf p).bind fun cs => (ownConstraints f).map (cs ++ ·) := by
  rw [constraintsOf_append, constraintsOf_cons]
  simp [constraintsOf]

theorem constraintsOf_subset {p q : List Fragment} {cs ds : List Constraints} (h : p <+: q)
    (hp : constraintsOf p = some cs) (hq : constraintsOf q = some ds) : cs ⊆ ds := by
  obtain ⟨r, rfl⟩ := h
  rw [constraintsOf_append, hp, Option.bind_some] at hq
  obtain ⟨es, -, rfl⟩ := Option.map_eq_some_iff.mp hq
  exact List.subset_append_left cs es

theorem mem_constraintsOf {p : List Fragment} {cs : List Constraints} {c : Constraints}
    (h : constraintsOf p = some cs) :
    c ∈ cs ↔ ∃ f ∈ p, ∃ text intent, f.intentJson = some text ∧
      parseCacheIntent text = .ok intent ∧ intent.constraints = c := by
  induction p generalizing cs with
  | nil => cases h; simp
  | cons f p ih =>
      rw [constraintsOf_cons] at h
      obtain ⟨own, hown, hrest⟩ := Option.bind_eq_some_iff.mp h
      obtain ⟨rest, hp, rfl⟩ := Option.map_eq_some_iff.mp hrest
      rw [List.mem_append, ih hp]
      cases hf : f.intentJson with
      | none =>
          simp only [ownConstraints, hf, Option.some.injEq] at hown
          subst hown
          simp [hf]
      | some text =>
          simp only [ownConstraints, hf, Option.map_eq_some_iff, toOption_eq_some_iff] at hown
          obtain ⟨intent, hparse, rfl⟩ := hown
          simp [hf, hparse, eq_comm]

theorem parsed_of_constraintsOf {p : List Fragment} {cs : List Constraints}
    (h : constraintsOf p = some cs) {f : Fragment} (hf : f ∈ p) {text : Str}
    (ht : f.intentJson = some text) : ∃ intent, parseCacheIntent text = .ok intent := by
  induction p generalizing cs with
  | nil => simp at hf
  | cons f' p ih =>
      rw [constraintsOf_cons] at h
      obtain ⟨own, hown, hrest⟩ := Option.bind_eq_some_iff.mp h
      obtain ⟨rest, hp, -⟩ := Option.map_eq_some_iff.mp hrest
      rcases List.mem_cons.mp hf with rfl | hf
      · simp only [ownConstraints, ht, Option.map_eq_some_iff, toOption_eq_some_iff] at hown
        obtain ⟨intent, hparse, -⟩ := hown
        exact ⟨intent, hparse⟩
      · exact ih hp hf

/-! ## The loop variables -/

/-- The loop variables behind a prefix hold what the prefix supplies. -/
structure Follows (p : List Fragment) (vars : LoopVars) : Prop where
  contents : vars.contentsSoFar = contentsOf p
  constraints : constraintsOf p = some vars.constraintsSoFar
  namespaces : vars.namespacesSoFar = namespacesOf p

theorem follows_init : Follows [] LoopVars.init := ⟨rfl, rfl, rfl⟩

/-- What reading a fragment tells: without a policy nothing in the prefix has
an intent, and otherwise the policy is that of the prefix. -/
inductive Reads (p : List Fragment) (tainted : Bool) : Entered → Prop
  | ungoverned (vars : LoopVars) : Follows p vars → vars.taintedApproximate = tainted →
      constraintsOf p = some [] → Reads p tainted (.ungoverned vars)
  | governed (vars : LoopVars) (hints : HintStatus) (eff : Effective) : Follows p vars →
      vars.taintedApproximate = tainted → policy p = some eff →
      Reads p tainted (.governed vars hints eff)

theorem reads_enter {caps : Capabilities} {p : List Fragment} {vars : LoopVars} {f : Fragment}
    {entered : Entered} (h : Follows p vars) (he : enter caps vars f = .ok entered) :
    Reads (p ++ [f]) vars.taintedApproximate entered := by
  have hcontents : vars.contentsSoFar ++ [f.content] = contentsOf (p ++ [f]) := by
    simp [contentsOf, h.contents]
  unfold enter at he
  cases hf : f.intentJson with
  | none =>
      have hcs : constraintsOf (p ++ [f]) = some vars.constraintsSoFar := by
        simp [constraintsOf_concat, h.constraints, ownConstraints, hf]
      have hns : vars.namespacesSoFar = namespacesOf (p ++ [f]) := by
        rw [h.namespaces, namespacesOf, namespacesOf, hcs, h.constraints]
      have hfollows : Follows (p ++ [f])
          { vars with contentsSoFar := vars.contentsSoFar ++ [f.content] } :=
        ⟨hcontents, hcs, hns⟩
      simp only [hf] at he
      split at he
      · rename_i hnil
        cases he
        refine .ungoverned _ hfollows rfl ?_
        rw [hcs, List.isEmpty_iff.mp hnil]
      · cases hc : compose vars.constraintsSoFar with
        | error e => rw [hc] at he; cases he
        | ok eff =>
            rw [hc] at he
            cases he
            exact .governed _ _ _ hfollows rfl (policy_eq_some_iff.mpr ⟨_, hcs, hc⟩)
  | some text =>
      simp only [hf] at he
      cases hparse : parseCacheIntent text with
      | error e => rw [hparse] at he; cases he
      | ok intent =>
          rw [hparse] at he
          have hcs : constraintsOf (p ++ [f]) =
              some (vars.constraintsSoFar ++ [intent.constraints]) := by
            simp [constraintsOf_concat, h.constraints, ownConstraints, hf, hparse,
              Except.toOption]
          have hns : vars.namespacesSoFar ++ intent.constraints.ns.toList =
              namespacesOf (p ++ [f]) := by
            rw [h.namespaces, namespacesOf, namespacesOf, hcs, h.constraints]
            cases hn : intent.constraints.ns <;> simp [hn]
          cases hc : compose (vars.constraintsSoFar ++ [intent.constraints]) with
          | error e =>
              simp only [bind, Except.bind, hc] at he
              cases he
          | ok eff =>
              simp only [bind, Except.bind, hc] at he
              cases he
              exact .governed _ _ _ ⟨hcontents, hcs, hns⟩ rfl
                (policy_eq_some_iff.mpr ⟨_, hcs, hc⟩)

end CacheControl

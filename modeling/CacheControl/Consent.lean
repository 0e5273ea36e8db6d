import CacheControl.Events
import CacheControl.Memory
import CacheControl.Reference

/-!
# Consent to approximation

Composition is per prefix, while a donor serves one fragment.  A later fragment
that asks for exact state is still computed on top of what the donor supplied.
-/

open PyText

namespace CacheControl

section

variable [Runtime] {σ : Type}

/-- A status whose composed reuse is not `approximate` is of exact state. -/
def Consented (g : Gateway σ) (trace : List (Event σ)) : Prop :=
  ∀ v ∈ trace, ∀ st, v.status g = some st →
    st.effectiveReuse = some .exact ∨ st.effectiveReuse = some .none → st.exact = true

/-- The lookups for the fragment find no exact state and then a donor. -/
def DonorAtHand (g : Gateway σ) (u : Event σ) : Prop :=
  ∃ eff c k dk entry s t, policy u.sent = some eff ∧
    checkEnforceable g.backend.capabilities eff = .ok () ∧ g.backend.observesOutcomes = true ∧
    eff.reuse = .approximate ∧ u.item.approxClass = some c ∧
    cacheKey execution (contentsOf u.sent) (namespacesOf u.sent) (u.partition eff) true = .ok k ∧
    cacheKey execution [c] (namespacesOf u.sent) (u.partition eff) false = .ok dk ∧
    g.backend.get k u.call.now u.state = (.ok none, s) ∧
    g.backend.get dk u.call.now s = (.ok (some entry), t)

/-- No donor is at hand for a fragment in front of one that is answered under an
enforceable policy other than `approximate`. -/
def ConsentKept (g : Gateway σ) (trace : List (Event σ)) : Prop :=
  ∀ v ∈ trace, v.status g ≠ none → ∀ eff, policy v.sent = some eff →
    checkEnforceable g.backend.capabilities eff = .ok () → eff.reuse ≠ .approximate →
    ∀ u ∈ trace, u.index = v.index → u.sent <+: v.done → ¬ DonorAtHand g u

variable {g : Gateway σ} {u v : Event σ} {pre post : List (Event σ)} {calls : List Call} {n : ℕ}
  {s : σ}

theorem lookup_of_donorAtHand (h : DonorAtHand g u) :
    ∃ eff t, policy u.sent = some eff ∧ checkEnforceable g.backend.capabilities eff = .ok () ∧
      u.lookup g eff = (.ok (.approximateHit, true), t) := by
  obtain ⟨eff, c, k, dk, entry, s, t, hpolicy, hcheck, hobs, hreuse, hc, hk, hdk, hget, hdonor⟩ := h
  refine ⟨eff, t, hpolicy, hcheck, ?_⟩
  unfold Event.lookup Gateway.resolve
  rw [if_neg (by simp [hobs]), if_neg (by simp [hreuse]), hk, Prog.lift_ok_bind,
    Prog.bind_of_ok hget]
  simp only [hreuse, hc, hdk, Prog.lift_ok_bind]
  rw [Prog.bind_of_ok hdonor]
  rfl

theorem approximateHit_iff (hfollows : Follows u.done u.acc) {st : FragmentStatus}
    (hst : u.status g = some st) : u.outcome g = some .approximateHit ↔ DonorAtHand g u := by
  constructor
  · intro hout
    obtain ⟨eff, a, t, hpolicy, hcheck, hlookup⟩ := lookup_of_outcome hfollows hout (by decide)
    cases resolves_of_resolve hlookup with
    | approximateHit k c dk entry s hobs hreuse hc hk hdk hget hdonor =>
        exact ⟨eff, c, k, dk, entry, s, t, hpolicy, hcheck, hobs, hreuse, hc, hk, hdk, hget, hdonor⟩
  · intro h
    obtain ⟨eff, t, hpolicy, hcheck, hlookup⟩ := lookup_of_donorAtHand h
    obtain ⟨hints, o, a, r, t', hlookup', -, rfl⟩ := served_of_status hfollows hst hpolicy hcheck
    cases hlookup.symm.trans hlookup'
    rw [Event.outcome, hst, Option.map_some]
    rfl

theorem untainted_iff_donors (hsplit : g.traceFrom n calls s = pre ++ v :: post) :
    v.acc.taintedApproximate = false ↔
      ∀ u ∈ g.traceFrom n calls s, u.index = v.index → u.sent <+: v.done → ¬ DonorAtHand g u := by
  rw [← untainted_iff hsplit]
  refine forall₂_congr fun u hu => forall₂_congr fun hidx hsent => not_congr ?_
  have hpre := mem_pre_of_sent_prefix hsplit hu hidx hsent
  obtain ⟨st, hst⟩ := exists_status_of_mem_pre hsplit hpre hidx
  exact approximateHit_iff (follows_of_mem hu) hst

end

/-- On any backend, from any state and in any run, exactness is what the composed
policies ask for if and only if no donor is at hand for a fragment in front of
one whose prefix excludes approximation. -/
theorem consented_iff [Runtime] {σ : Type} (g : Gateway σ) (calls : List Call) (s : σ) :
    Consented g (g.trace calls s) ↔ ConsentKept g (g.trace calls s) := by
  constructor
  · intro h v hv hreturned eff hpolicy hcheck hreuse
    obtain ⟨st, hst⟩ := Option.ne_none_iff_exists'.mp hreturned
    obtain ⟨pre, post, hsplit⟩ := List.append_of_mem hv
    apply (untainted_iff_donors hsplit).mp
    have hexact := h v hv st hst
    obtain ⟨hints, o, a, r, t, -, -, rfl⟩ :=
      served_of_status (follows_of_mem hv) hst hpolicy hcheck
    have hasked : eff.reuse = .exact ∨ eff.reuse = .none := by
      cases hr : eff.reuse with
      | none => exact .inr rfl
      | exact => exact .inl rfl
      | approximate => exact absurd hr hreuse
    have hflag : (!(v.acc.taintedApproximate || a)) = true :=
      hexact (hasked.imp (congrArg some) (congrArg some))
    simp only [Bool.not_eq_true', Bool.or_eq_false_iff] at hflag
    exact hflag.1
  · intro h v hv st hst hasked
    cases reports_of_status (follows_of_mem hv) hst with
    | bare hcs => rfl
    | bypassed hints eff e hpolicy hcheck hmode => rfl
    | served hints eff o a r t hpolicy hcheck hlookup hretain =>
        have hreuse : eff.reuse ≠ .approximate := by
          intro happrox
          rcases hasked with hasked | hasked
          · cases (congrArg some happrox).symm.trans hasked
          · cases (congrArg some happrox).symm.trans hasked
        obtain ⟨pre, post, hsplit⟩ := List.append_of_mem hv
        have hclean := (untainted_iff_donors hsplit).mpr
          (h v hv (by simp [hst]) eff hpolicy hcheck hreuse)
        have ha : a = false := by
          rw [← Bool.not_eq_true, flag_of_lookup hlookup]
          rintro rfl
          exact hreuse ((resolves_of_resolve hlookup).reuse_of_approximateHit rfl)
        show (!(v.acc.taintedApproximate || a)) = true
        rw [hclean, ha]
        rfl

section

attribute [local instance] reference

/-- A donor, and then a request whose first fragment it serves and whose second
fragment asks for exact state. -/
def dissentRun : List Call :=
  [sampleCall alice 0
    [sampleFragment "a" (some (intentText (.allow (some 60)) "approximate" "tenant"))
      (some (lit "k"))],
  sampleCall alice 5
    [sampleFragment "b" (some (intentText (.allow (some 60)) "approximate" "tenant"))
      (some (lit "k")),
    sampleFragment "c" (some (intentText (.allow (some 60)) "exact" "tenant")) none]]

theorem not_consented : ¬ ∀ (g : Gateway Entries) (calls : List Call) (s : Entries),
    Consented g (g.trace calls s) := by
  intro h
  have hany : ((inMemoryGateway .bypass).trace dissentRun ∅).any (fun v =>
      (v.status (inMemoryGateway .bypass)).any fun st =>
        st.effectiveReuse = some .exact ∧ st.exact = false) = true := by decide +kernel
  obtain ⟨v, hv, hstatus⟩ := List.any_eq_true.mp hany
  obtain ⟨st, hst, hbad⟩ := (Option.any_eq_true _ _).mp hstatus
  obtain ⟨hreuse, hexact⟩ := of_decide_eq_true hbad
  rw [h (inMemoryGateway .bypass) dissentRun ∅ v hv st hst (.inl hreuse)] at hexact
  cases hexact

end

end CacheControl

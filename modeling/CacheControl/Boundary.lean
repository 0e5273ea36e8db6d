import CacheControl.Memory
import CacheControl.Salts
import CacheControl.Scopes

/-!
# Reported and applied boundaries

A status names the boundary of its fragment, and the salt upstream is that of
the whole request.  The two agree as far as the lowering rewrites statuses, so a
fragment in front of the first intent keeps a status of its own.
-/

open PyText

namespace CacheControl

section

variable [Runtime] {σ : Type} {g : Gateway σ} {fragments p : List Fragment} {f : Fragment}
  {saltFor : Str → Option Str → Except PyError Str} {auth : AuthContext} {requestId : Str}
  {upstream : List (Str × Value)} {result : Result} {st : FragmentStatus}

/-- The request carries a salt that was built from the partition of `b`. -/
def SentWithin (saltFor : Str → Option Str → Except PyError Str) (auth : AuthContext)
    (requestId : Str) (upstream : List (Str × Value)) (b : Share) : Prop :=
  ∃ ns d salt, namespaceDigest ns = .ok d ∧ saltFor (partitionFor b auth requestId) d = .ok salt ∧
    Json.get? (lit "cache_salt") upstream = some (.str salt)

/-- The first fragment carries an intent, or the request has one somewhere and has
to be kept to itself. -/
def BoundaryStated (caps : Capabilities) (fragments : List Fragment) : Prop :=
  (∀ f, fragments.head? = some f → f.intentJson ≠ none) ∨
    (∃ f ∈ fragments, f.intentJson ≠ none) ∧ KeptToItself caps fragments

omit [Runtime] in
theorem cacheSalt_mem_untrusted : lit "cache_salt" ∈ untrustedScopeFields := by decide +kernel

theorem not_sentWithin_strip (members : List (Str × Value)) (b : Share) :
    ¬ SentWithin saltFor auth requestId (stripBindingMembers members).1 b := by
  rintro ⟨ns, d, salt, -, -, hsalt⟩
  rw [(unscoped_stripBindingMembers members).get? cacheSalt_mem_untrusted] at hsalt
  cases hsalt

theorem LoweredTo.sentWithin {b : Share}
    (h : LoweredTo g saltFor fragments auth requestId upstream result b) :
    SentWithin saltFor auth requestId upstream b := by
  obtain ⟨d, salt, hd, hsalt, hupstream, -⟩ := h.salt
  exact ⟨_, d, salt, hd, hsalt, hupstream⟩

theorem LoweredTo.eq_request {b : Share}
    (h : LoweredTo g saltFor fragments auth requestId upstream result b)
    (hsep : Separates saltFor) (hsent : SentWithin saltFor auth requestId upstream .request) :
    b = .request := by
  obtain ⟨d, salt, hd, hsalt, hupstream, -⟩ := h.salt
  obtain ⟨ns', d', salt', hd', hsalt', hupstream'⟩ := hsent
  cases hupstream.symm.trans hupstream'
  have hpartition := (hsep hd hd' hsalt hsalt').1
  obtain ⟨x, hx⟩ := partitionFor_initial b auth requestId
  obtain ⟨y, hy⟩ := partitionFor_initial .request auth requestId
  rw [hx, hy] at hpartition
  exact eq_request_iff_initial.mpr (List.cons.inj hpartition).1

theorem LoweredTo.kept_of_eq_request {b : Share}
    (h : LoweredTo g saltFor fragments auth requestId upstream result b) (hb : b = .request) :
    KeptToItself g.backend.capabilities fragments := by
  by_contra hnot
  obtain ⟨cs, hcs, hshare⟩ := (h.boundary.narrowest hnot).1
  exact hnot (.inr ⟨cs, hcs, .inr (.inr (hshare.trans hb))⟩)

theorem Reported.exists_intent {statuses : List FragmentStatus}
    (h : Reported g fragments statuses) (hst : st ∈ statuses.filter FragmentStatus.isGoverned) :
    ∃ f ∈ fragments, f.intentJson ≠ none := by
  obtain ⟨p, eff, hp, hgoverns⟩ := h.exists_governs hst
  exact exists_intent_of_policy hgoverns.policy hp

theorem exists_position {α : Type} {xs : List α} (hlen : xs.length = fragments.length) {x : α}
    (hx : x ∈ xs) : ∃ p f, p ++ [f] <+: fragments ∧ xs[p.length]? = some x := by
  obtain ⟨i, hi⟩ := List.mem_iff_getElem?.mp hx
  obtain ⟨hlt, -⟩ := List.getElem?_eq_some_iff.mp hi
  rw [hlen] at hlt
  refine ⟨fragments.take i, fragments[i], ?_, ?_⟩
  · rw [← List.take_succ_eq_append_getElem hlt]
    exact List.take_prefix _ _
  · rw [List.length_take, min_eq_left hlt.le, hi]

theorem head_bare {statuses : List FragmentStatus} (h : Reported g fragments statuses)
    (hhead : fragments.head? = some f) (hbare : f.intentJson = none) :
    statuses[0]? = some (Gateway.bareStatus f) := by
  obtain ⟨rest, rfl⟩ := List.head?_eq_some_iff.mp hhead
  obtain ⟨st, hat, ⟨-, rfl⟩ | ⟨eff, hgoverns⟩⟩ := h.status [] f ⟨rest, rfl⟩
  · exact hat
  · have hnil : constraintsOf ([] ++ [f]) = some [] := by simp [constraintsOf, hbare]
    cases hgoverns.policy.symm.trans (policy_eq_none_of_bare hnil)

theorem statuses_sentWithin_iff (hsalt : g.backend.saltFor = some saltFor)
    (hsep : Separates saltFor) {members : List (Str × Value)} {r : Result}
    (hreported : Reported g fragments r.statuses)
    (h : finish g.backend members auth requestId r = .ok (.accepted upstream result)) :
    (∀ st ∈ result.statuses, SentWithin saltFor auth requestId upstream st.effectiveShare) ↔
      BoundaryStated g.backend.capabilities fragments := by
  cases finished_of_finish h with
  | unsalted hnone =>
      rcases hnone with hnone | hnone
      · cases hsalt.symm.trans hnone
      constructor
      · intro hall
        refine .inl fun f hhead hbare => ?_
        have hat := head_bare hreported hhead hbare
        exact not_sentWithin_strip members _ (hall _ (List.mem_of_getElem? hat))
      · rintro (hfirst | ⟨hgov, -⟩)
        · intro st hst
          obtain ⟨p, f, hp, hat⟩ := exists_position hreported.length_eq hst
          obtain ⟨x, rest, rfl⟩ := List.exists_cons_of_ne_nil (List.ne_nil_of_mem (hp.subset
            (List.mem_append_right p (List.mem_singleton_self f))))
          obtain ⟨init, last, whole, hfilter, -⟩ :=
            hreported.exists_last ⟨x, by simp, hfirst x rfl⟩
          simp [hfilter] at hnone
        · obtain ⟨init, last, whole, hfilter, -⟩ := hreported.exists_last hgov
          simp [hfilter] at hnone
  | salted saltFor' status governed salt hsalt' hfilter hsaltFor =>
      have hgov := hreported.exists_intent
        (show status ∈ r.statuses.filter FragmentStatus.isGoverned by simp [hfilter])
      obtain ⟨b, hb⟩ := loweredTo_of_finish hsalt hreported hgov h
      constructor
      · intro hall
        by_cases hfirst : ∀ f, fragments.head? = some f → f.intentJson ≠ none
        · exact .inl hfirst
        push Not at hfirst
        obtain ⟨f, hhead, hbare⟩ := hfirst
        have hat := head_bare hreported hhead hbare
        have hsent := hall (Gateway.bareStatus f) (List.mem_of_getElem? (i := 0) (by
          rw [List.getElem?_map, hat]
          rfl))
        exact .inr ⟨hgov, hb.kept_of_eq_request (hb.eq_request hsep hsent)⟩
      · intro hstated st hst
        have hlen : (r.statuses.map fun s => if s.isGoverned then
            lowerStatus (narrowestShare status governed) s else s).length = fragments.length := by
          simpa using hreported.length_eq
        obtain ⟨p, f, hp, hat⟩ := exists_position hlen hst
        by_cases hintent : ∃ f' ∈ p ++ [f], f'.intentJson ≠ none
        · obtain ⟨eff, st', -, hat', hshare, -⟩ := hb.statuses p f hp hintent
          cases hat.symm.trans hat'
          rw [hshare]
          exact hb.sentWithin
        · obtain ⟨st', hat', hcases⟩ := hreported.status p f hp
          rcases hcases with ⟨-, rfl⟩ | ⟨eff, hgoverns⟩
          · rw [List.getElem?_map, hat'] at hat
            cases hat
            have hkept : KeptToItself g.backend.capabilities fragments := by
              rcases hstated with hfirst | ⟨-, hkept⟩
              · exfalso
                apply hintent
                obtain ⟨rest, hrest⟩ := hp
                cases p with
                | nil => exact ⟨f, by simp, hfirst f (by simp [← hrest])⟩
                | cons x p => exact ⟨x, by simp, hfirst x (by simp [← hrest])⟩
              · exact hkept
            have hsent := hb.sentWithin
            rw [hb.boundary.kept hkept] at hsent
            exact hsent
          · obtain ⟨ds, hds, hcomposes⟩ := composes_of_policy hgoverns.policy
            obtain ⟨x, hx⟩ := List.exists_mem_of_ne_nil ds hcomposes.ne_nil
            obtain ⟨f', hf', text, -, htext, -⟩ := (mem_constraintsOf hds).mp hx
            exact absurd ⟨f', hf', by simp [htext]⟩ hintent

theorem statuses_sentWithin_of_prepare (hsalt : g.backend.saltFor = some saltFor)
    (hsep : Separates saltFor) {body : Str} {now : Time} {s t : σ} {request : Value}
    (hload : loadsStrict body = .ok request) (hextract : extractFragments request = .ok fragments)
    (h : prepare g body auth now requestId s = (.ok (.accepted upstream result), t)) :
    (∀ st ∈ result.statuses, SentWithin saltFor auth requestId upstream st.effectiveShare) ↔
      BoundaryStated g.backend.capabilities fragments := by
  obtain ⟨request', fragments', r, hload', hextract', hhandled, hfinish⟩ := exists_handled h
  have hanswer := congrArg Prod.fst hhandled
  cases hload.symm.trans hload'
  cases hextract.symm.trans hextract'
  have hreported := reported_of_answer hanswer (ordered_callFor hanswer)
  exact statuses_sentWithin_iff hsalt hsep hreported hfinish

end

/-- Every status of an accepted request names a boundary that its salt was built
from, exactly when its first fragment carries an intent or an intent somewhere
keeps the request to itself. -/
theorem boundaries_applied_iff [Runtime] (hcf : CollisionFree) (mode : OnUnenforceable)
    {body requestId : Str} {auth : AuthContext} {now : Time} {request : Value}
    {fragments : List Fragment} (hload : loadsStrict body = .ok request)
    (hextract : extractFragments request = .ok fragments) :
    (∀ s t upstream result, prepare (saltOnlyGateway mode) body auth now requestId s =
        (.ok (.accepted upstream result), t) →
      ((∀ st ∈ result.statuses,
        SentWithin saltOnlySalt auth requestId upstream st.effectiveShare) ↔
          BoundaryStated saltOnlyBackend.capabilities fragments)) ∧
    ∀ s t upstream result, prepare (vllmGateway mode) body auth now requestId s =
        (.ok (.accepted upstream result), t) →
      ((∀ st ∈ result.statuses, SentWithin vllmSalt auth requestId upstream st.effectiveShare) ↔
          BoundaryStated vllmBackend.capabilities fragments) := by
  constructor
  · intro s t upstream result h
    exact statuses_sentWithin_of_prepare (g := saltOnlyGateway mode) saltOnly_saltFor
      (separates_saltOnlySalt hcf) hload hextract h
  · intro s t upstream result h
    exact statuses_sentWithin_of_prepare (g := vllmGateway mode) vllm_saltFor
      (separates_vllmSalt hcf) hload hextract h

section

attribute [local instance] reference

theorem boundaries_applied_iff_chatBody : ∃ upstream result,
    (prepare (vllmGateway .bypass) chatBody alice (0 : ℕ) (lit "req-1") ()).1 =
      .ok (.accepted upstream result) ∧
    ∀ st ∈ result.statuses,
      SentWithin vllmSalt alice (lit "req-1") upstream st.effectiveShare := by
  obtain ⟨upstream, result, t, hprepare⟩ := exists_accepted
    (show isAccepted
        (prepare (vllmGateway .bypass) chatBody alice (0 : ℕ) (lit "req-1") ()).1 = true by
      decide +kernel)
  obtain ⟨request, fragments, r, hload, hextract, -⟩ := exists_handled hprepare
  refine ⟨upstream, result, by rw [hprepare], ?_⟩
  refine ((boundaries_applied_iff collisionFree_reference .bypass hload hextract).2 ()
    t upstream result hprepare).mpr (.inl ?_)
  have hintents : ((loadsStrict chatBody >>= extractFragments).toOption.getD []).head?.all
      (fun f => f.intentJson.isSome) = true := by decide +kernel
  rw [hload, show (Except.ok request >>= extractFragments) = .ok fragments from hextract]
    at hintents
  intro f hf
  simp only [Except.toOption, Option.getD_some, hf, Option.all_some] at hintents
  exact Option.isSome_iff_ne_none.mp hintents

/-- A message without an intent in front of one for the tenant. -/
def leadingBareBody : Str :=
  Json.dumps .default (.obj [(lit "messages", .arr [.obj [(lit "content", .str (lit "a"))],
    .obj [(lit "content", .str (lit "b")),
      (lit "cache_intent", intentValue (.allow none) "exact" "tenant")]])])

def saltInitial (upstream : List (Str × Value)) : Option CodePoint :=
  match Json.get? (lit "cache_salt") upstream with
  | some (.str salt) => salt.head?
  | _ => none

def isMisreported : Except PyError Prepared → Bool
  | .ok (.accepted upstream result) =>
      decide (saltInitial upstream ≠ some (Share.initial .request)) &&
        result.statuses.any fun st => decide (st.effectiveShare = .request)
  | _ => false

theorem SentWithin.saltInitial {auth : AuthContext} {requestId : Str}
    {upstream : List (Str × Value)} {b : Share}
    (h : SentWithin saltOnlySalt auth requestId upstream b) :
    CacheControl.saltInitial upstream = some b.initial := by
  obtain ⟨ns, d, salt, -, hsalt, hupstream⟩ := h
  obtain ⟨rest, hrest⟩ := partitionFor_initial b auth requestId
  cases hsalt
  simp [CacheControl.saltInitial, hupstream, hrest]

/-- The first message is reported as kept to itself and goes upstream under the
salt of the tenant. -/
theorem not_boundaries_applied :
    ¬ ∀ (mode : OnUnenforceable) (body requestId : Str) (auth : AuthContext) (now : Time)
      (s t : Entries) (upstream : List (Str × Value)) (result : Result),
      prepare (saltOnlyGateway mode) body auth now requestId s =
        (.ok (.accepted upstream result), t) →
      ∀ st ∈ result.statuses,
        SentWithin saltOnlySalt auth requestId upstream st.effectiveShare := by
  intro h
  have hmis : isMisreported (prepare (saltOnlyGateway .bypass) leadingBareBody alice (0 : ℕ)
      (lit "req-1") ∅).1 = true := by decide +kernel
  rcases hp : prepare (saltOnlyGateway .bypass) leadingBareBody alice (0 : ℕ) (lit "req-1") ∅ with
    ⟨e | ⟨upstream, result⟩ | ⟨code, cause⟩, t⟩
  · simp [hp, isMisreported] at hmis
  · rw [hp] at hmis
    simp only [isMisreported, Bool.and_eq_true, decide_eq_true_eq] at hmis
    obtain ⟨hinitial, hany⟩ := hmis
    obtain ⟨st, hst, hshare⟩ := List.any_eq_true.mp hany
    have hsent := h .bypass leadingBareBody (lit "req-1") alice (0 : ℕ) ∅ t upstream result hp st hst
    rw [of_decide_eq_true hshare] at hsent
    exact hinitial hsent.saltInitial
  · simp [hp, isMisreported] at hmis

end

end CacheControl

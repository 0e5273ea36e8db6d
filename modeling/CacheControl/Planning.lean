import CacheControl.Acceptance
import CacheControl.Narrowing

/-!
# Reordering behind the declaration

With the declaration, fragments are sorted stably by how widely they may be shared,
and an intent composes behind none that shares less widely.
-/

open PyText

namespace CacheControl

section

variable [Runtime] {σ : Type} {g : Gateway σ} {f : Fragment} {fragments ordered p : List Fragment}
  {share : Share} {eff : Effective}

/-! ## What a planned prefix composes to -/

theorem shareMax?_eq {text : Str} {intent : Intent} (htext : f.intentJson = some text)
    (hparse : parseCacheIntent text = .ok intent) :
    f.shareMax? = some intent.constraints.shareMax := by
  rw [Fragment.shareMax?, htext, Option.bind_some, hparse]
  rfl

theorem mem_shares_iff {cs : List Constraints} (hcs : constraintsOf p = some cs) :
    (∃ c ∈ cs, c.shareMax = share) ↔ ∃ f ∈ p, f.shareMax? = some share := by
  constructor
  · rintro ⟨c, hc, rfl⟩
    obtain ⟨f, hf, text, intent, htext, hparse, rfl⟩ := (mem_constraintsOf hcs).mp hc
    exact ⟨f, hf, shareMax?_eq htext hparse⟩
  · rintro ⟨f, hf, hshare⟩
    obtain ⟨text, htext, hshare⟩ := Option.bind_eq_some_iff.mp hshare
    obtain ⟨intent, hparse, hshare⟩ := Option.map_eq_some_iff.mp hshare
    exact ⟨_, (mem_constraintsOf hcs).mpr
      ⟨f, hf, text, intent, htext, toOption_eq_some_iff.mp hparse, rfl⟩, hshare⟩

/-- The policy of a prefix shares as widely as its narrowest intent. -/
theorem isLeast_shareMax (h : policy p = some eff) :
    IsLeast {share | ∃ f ∈ p, f.shareMax? = some share} eff.shareMax := by
  obtain ⟨cs, hcs, hcomposes⟩ := composes_of_policy h
  simpa only [mem_shares_iff hcs] using hcomposes.shareMax

theorem shareMax_of_planned (hp : p ++ [f] <+: fragments.insertionSort Before)
    (hshare : f.shareMax? = some share) (h : policy (p ++ [f]) = some eff) :
    eff.shareMax = share := by
  obtain ⟨⟨f', hf', hmeet⟩, hle⟩ := isLeast_shareMax h
  refine le_antisymm (hle ⟨f, by simp, hshare⟩) ?_
  rcases List.mem_append.mp hf' with hearlier | hlast
  · have hsorted := (List.pairwise_insertionSort Before fragments).sublist hp.sublist
    have hbefore := (List.pairwise_append.mp hsorted).2.2 f' hearlier f (by simp)
    rw [Before, hmeet, hshare] at hbefore
    exact (rank_le_iff _ _).mp hbefore
  · rw [List.mem_singleton.mp hlast, hshare] at hmeet
    exact (Option.some.inj hmeet).le

theorem shareMax_le_own (hshare : f.shareMax? = some share) (h : policy (p ++ [f]) = some eff) :
    eff.shareMax ≤ share :=
  (isLeast_shareMax h).2 ⟨f, by simp, hshare⟩

theorem shareMax_of_status (hordered : (fragments.insertionSort Before) = ordered)
    {statuses : List FragmentStatus} (h : Reported g ordered statuses) {i : ℕ}
    {st : FragmentStatus} (hf : ordered[i]? = some f) (hat : statuses[i]? = some st)
    (hshare : f.shareMax? = some share) : st.effectiveShare = share := by
  obtain ⟨hlt, hget⟩ := List.getElem?_eq_some_iff.mp hf
  have htake : ordered.take i ++ [f] = ordered.take (i + 1) := by
    rw [← hget]
    exact (List.take_succ_eq_append_getElem hlt).symm
  obtain ⟨f', hf', ⟨hbare, -⟩ | ⟨eff, hgoverns⟩⟩ := h.at_position hat
  · obtain ⟨text, htext, -⟩ := Option.bind_eq_some_iff.mp hshare
    rw [← htake] at hbare
    cases (constraintsOf_ne_nil hbare f (by simp)).symm.trans htext
  · rw [hgoverns.share]
    have hpolicy := hgoverns.policy
    rw [← htake] at hpolicy
    have hprefix : ordered.take i ++ [f] <+: fragments.insertionSort Before := by
      rw [htake, hordered]
      exact List.take_prefix _ _
    exact shareMax_of_planned hprefix hshare hpolicy

/-- Nothing is reordered without the declaration.  With it, the order is a stable
permutation, and every intent is applied with the share it declares: in the order
given it is not shared more widely. -/
structure Planned (g : Gateway σ) (fragments ordered : List Fragment) : Prop where
  perm : ordered.Perm fragments
  stable : ∀ share : Option Share, ordered.filter (fun f => f.shareMax? = share) =
    fragments.filter fun f => f.shareMax? = share
  own : ∀ (p : List Fragment) (f : Fragment) (share : Share) (eff : Effective),
    p ++ [f] <+: ordered → f.shareMax? = some share → policy (p ++ [f]) = some eff →
      eff.shareMax = share
  given : ∀ (p : List Fragment) (f : Fragment) (share : Share) (eff : Effective),
    p ++ [f] <+: fragments → f.shareMax? = some share → policy (p ++ [f]) = some eff →
      eff.shareMax ≤ share
  reported : ∀ (c : Call) (s : σ) (r : Result), c.fragments = fragments →
    c.equivalenceDeclared = true → (g.answer c s).1 = .ok r → c.ordered = .ok ordered ∧
      ∀ (i : ℕ) (f : Fragment) (share : Share) (st : FragmentStatus), ordered[i]? = some f →
        f.shareMax? = some share → r.statuses[i]? = some st → st.effectiveShare = share

end

theorem reordering_lossless [Runtime] {σ : Type} (g : Gateway σ) (fragments : List Fragment)
    (h : Readable fragments) : planOrder fragments false = .ok fragments ∧
      ∃ ordered, planOrder fragments true = .ok ordered ∧ Planned g fragments ordered := by
  refine ⟨rfl, _, planOrder_eq h, List.perm_insertionSort _ _, filter_planned, ?_, ?_, ?_⟩
  · exact fun p f share eff hp hshare heff => shareMax_of_planned hp hshare heff
  · exact fun p f share eff _ hshare heff => shareMax_le_own hshare heff
  · intro c s r hfragments hdeclared hanswer
    obtain ⟨ordered, -, hordered, -⟩ := loop_of_answer hanswer
    obtain ⟨planned, hplan, hchecked⟩ := bind_eq_ok_iff.mp hordered
    obtain ⟨-, -, hpure⟩ := bind_eq_ok_iff.mp hchecked
    rw [hfragments, hdeclared, planOrder_eq h] at hplan
    cases hplan
    cases hpure
    refine ⟨hordered, fun i f share st hf hshare hat => ?_⟩
    exact shareMax_of_status rfl (reported_of_answer hanswer hordered) hf hat hshare

section

attribute [local instance] reference

/-- A tenant's prompt and a note, ahead of a public tool. -/
def wideningFragments : List Fragment :=
  [sampleFragment "SYSTEM" (intentText (.allow none) "exact" "tenant") none,
    sampleFragment "note" none none,
    sampleFragment "TOOLS" (intentText (.allow none) "exact" "public") none]

theorem reordering_lossless_wideningFragments :
    planOrder wideningFragments false = .ok wideningFragments ∧
      ∃ ordered, planOrder wideningFragments true = .ok ordered ∧
        Planned (inMemoryGateway .bypass) wideningFragments ordered := by
  refine reordering_lossless (inMemoryGateway .bypass) wideningFragments fun f hf text htext =>
    exists_ok ?_
  have hread : wideningFragments.all (fun f => (f.intentJson.map fun text =>
      (parseCacheIntent text).toBool).getD true) = true := by decide +kernel
  have hparsed := List.all_eq_true.mp hread f hf
  rwa [htext] at hparsed

end

end CacheControl

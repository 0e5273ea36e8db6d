import CacheControl.Provenance

/-!
# Donors and similarity classes

The donor entry of a class has the key of an approximate prefix whose one
content is the name of the class.  A donor therefore belongs to the class it
serves, unless it is the state of a first fragment that a donor served in turn.
-/

open PyText ExpiringStore

namespace CacheControl

section Classes

variable [Runtime] {g : Gateway Entries} {calls : List Call} {trace : List (Event Entries)}
  {v w : Event Entries} {k : Str} {e : Entry} {eff weff : Effective} {c : Str}

/-- `w` stood before `v` and stored state of the class `c`, for the same
partition and namespaces, that may still be used. -/
structure DonatesTo (g : Gateway Entries) (trace : List (Event Entries)) (v : Event Entries)
    (eff : Effective) (c : Str) (w : Event Entries) (weff : Effective) : Prop where
  earlier : ∃ pre post, trace = pre ++ v :: post ∧ w ∈ pre
  materialized : ∃ k e, Writes g w k e
  approxClass : w.item.approxClass = some c
  policy : CacheControl.policy w.sent = some weff
  allows : weff.retention.mode = .allow
  partition : w.partition weff = v.partition eff
  namespaces : namespacesOf w.sent = namespacesOf v.sent
  unexpired : ∀ m, weff.retention.maxAge = some m →
    ∃ d, Runtime.plus w.call.now m = some d ∧ v.call.now < d

/-- Every approximate hit was asked for, and has a donor of its own class. -/
def DonorsOfClass (g : Gateway Entries) (trace : List (Event Entries)) : Prop :=
  ∀ v ∈ trace, v.outcome g = some .approximateHit →
    ∃ eff c, policy v.sent = some eff ∧ eff.reuse = .approximate ∧
      v.item.approxClass = some c ∧ ∃ w weff, DonatesTo g trace v eff c w weff

/-- The donor entry that `v` finds is the state of a first fragment, which a
donor served in turn and whose content is the class of `v` though its class is
not. -/
def Confuses (g : Gateway Entries) (trace : List (Event Entries)) (v w : Event Entries) : Prop :=
  DonorSource g trace v w ∧ w.done = [] ∧ w.donor.isSome = true ∧
    v.item.approxClass = some w.item.content ∧ w.item.approxClass ≠ v.item.approxClass

def ClassesApart (g : Gateway Entries) (trace : List (Event Entries)) : Prop :=
  ∀ v ∈ trace, ∀ w ∈ trace, ¬ Confuses g trace v w

/-- State stored under an inexact key by the first fragment of a request was
derived from a donor. -/
theorem donor_of_inexact (hg : MemoryBacked g) (hw : w ∈ g.trace calls ∅) (hdone : w.done = [])
    {o : Outcome} {a : Bool} {t : Entries} (hcomputes : w.Computes g weff o a t)
    (hexact : (!(w.acc.taintedApproximate || a)) = false) : w.donor.isSome = true := by
  obtain ⟨pre, post, hsplit⟩ := List.append_of_mem hw
  have huntainted : w.acc.taintedApproximate = false := by
    apply (untainted_iff hsplit).mp
    intro u hu hidx hsent
    have hlen := hsent.length_le
    rw [sent_length, hdone] at hlen
    simp at hlen
  have hflag : a = true := by simpa [huntainted] using hexact
  have hlookup := hcomputes.lookup
  rw [(flag_of_lookup hlookup).mp hflag] at hlookup
  obtain ⟨dk, e, htakes⟩ := (hg.takesDonor_iff hcomputes.policy hlookup).mp rfl
  rw [donor_eq_some_iff.mpr htakes]
  rfl

theorem DonorSource.donatesTo (hg : MemoryBacked g) (hcf : CollisionFree)
    (hplain : ∀ c ∈ calls, c.auth.Plain) (h : DonorSource g (g.trace calls ∅) v w)
    (hapart : ¬ Confuses g (g.trace calls ∅) v w) :
    ∃ eff c, policy v.sent = some eff ∧ eff.reuse = .approximate ∧
      v.item.approxClass = some c ∧ ∃ weff, DonatesTo g (g.trace calls ∅) v eff c w weff := by
  have hsource := h
  obtain ⟨eff, dk, e, htakes, hfound⟩ := h
  have hwmem := hfound.mem
  obtain ⟨pre, post, hsplit, hlatest, hwrites, heligible⟩ := hfound
  have hvmem : v ∈ g.trace calls ∅ := by simp [hsplit]
  obtain ⟨c, hc, hdk⟩ := htakes.key
  obtain ⟨weff, o, a, t, hcomputes, hstored⟩ := hwrites.exists_computes
  rw [← hwrites.mem.2] at hdk
  obtain ⟨-, hpartition, hns, -, hkind⟩ := hstored.agrees hcf
    (hplain _ (call_mem_of_mem hwmem)) (hplain _ (call_mem_of_mem hvmem)) hdk
  have hclass : w.item.approxClass = some c := by
    rcases hkind with ⟨hexact, hcontents⟩ | ⟨-, c', hc', hcontents⟩
    · -- an approximate prefix of one content, which is the name of the class
      by_contra hne
      have hlength := congrArg List.length hcontents
      simp only [contentsOf, List.length_map, sent_length, List.length_singleton] at hlength
      have hdone : w.done = [] := List.eq_nil_of_length_eq_zero (by omega)
      have hcontent : w.item.content = c := by
        simpa [contentsOf, Event.sent, hdone] using hcontents
      refine hapart ⟨hsource, hdone, donor_of_inexact hg hwmem hdone hcomputes hexact, ?_, ?_⟩
      · rw [hc, hcontent]
      · rwa [hc]
    · rw [hc', List.cons.inj hcontents |>.1]
  refine ⟨eff, c, htakes.policy, htakes.approximate, hc, weff, ⟨pre, post, hsplit, hlatest.mem⟩,
    ⟨dk, e, hwrites⟩, hclass, hcomputes.policy, hstored.allows, hpartition, hns, fun m hm => ?_⟩
  exact hstored.unexpired (eligible_eq_some_iff.mp heligible).2 hm

end Classes

/-- In a run in which no fragment finds, under its class, what a donor of another
class left behind, every approximate hit has a donor of its own class. -/
theorem donors_of_class [Runtime] (hcf : CollisionFree) (mode : OnUnenforceable)
    (calls : List Call) (hplain : ∀ c ∈ calls, c.auth.Plain)
    (hapart : ClassesApart (inMemoryGateway mode) ((inMemoryGateway mode).trace calls ∅)) :
    DonorsOfClass (inMemoryGateway mode) ((inMemoryGateway mode).trace calls ∅) := by
  intro v hv hhit
  have hg := memoryBacked_inMemory mode
  obtain ⟨w, hsource⟩ := hg.exists_donorSource hv hhit
  have hwmem : w ∈ (inMemoryGateway mode).trace calls ∅ := by
    obtain ⟨eff, dk, e, -, hfound⟩ := hsource
    exact hfound.mem
  obtain ⟨eff, c, hpolicy, hreuse, hc, weff, hdonates⟩ :=
    hsource.donatesTo hg hcf hplain (hapart v hv w hwmem)
  exact ⟨eff, c, hpolicy, hreuse, hc, w, weff, hdonates⟩

section

attribute [local instance] reference

theorem donors_of_class_donorRun :
    (∃ v ∈ (inMemoryGateway .bypass).trace donorRun ∅,
      v.outcome (inMemoryGateway .bypass) = some .approximateHit) ∧
    DonorsOfClass (inMemoryGateway .bypass) ((inMemoryGateway .bypass).trace donorRun ∅) := by
  have hany : ((inMemoryGateway .bypass).trace donorRun ∅).any (fun v =>
      v.outcome (inMemoryGateway .bypass) = some .approximateHit) = true := by decide +kernel
  obtain ⟨v, hv, hhit⟩ := List.any_eq_true.mp hany
  have hplain : ∀ c ∈ donorRun, c.auth.Plain := by
    simp only [donorRun, List.mem_cons, List.not_mem_nil, or_false, forall_eq_or_imp, forall_eq]
    exact ⟨plain_alice, plain_alice⟩
  have hnames : ∀ v ∈ (inMemoryGateway .bypass).trace donorRun ∅,
      ∀ w ∈ (inMemoryGateway .bypass).trace donorRun ∅,
        v.item.approxClass ≠ some w.item.content := by decide +kernel
  refine ⟨⟨v, hv, of_decide_eq_true hhit⟩,
    donors_of_class collisionFree_reference .bypass donorRun hplain ?_⟩
  rintro v hv w hw ⟨-, -, -, hname, -⟩
  exact hnames v hv w hw hname

/-- The second request is served by a donor of the class `k`, and its content is
the name of the class that the third asks for. -/
def namesakeRun : List Call :=
  [sampleCall alice 0
    [sampleFragment "x" (some (intentText (.allow none) "approximate" "tenant"))
      (some (lit "k"))],
  sampleCall alice 1
    [sampleFragment "k2" (some (intentText (.allow none) "approximate" "tenant"))
      (some (lit "k"))],
  sampleCall alice 2
    [sampleFragment "y" (some (intentText (.allow none) "approximate" "tenant"))
      (some (lit "k2"))]]

theorem not_donors_of_class :
    ¬ ∀ (mode : OnUnenforceable) (calls : List Call), (∀ c ∈ calls, c.auth.Plain) →
      DonorsOfClass (inMemoryGateway mode) ((inMemoryGateway mode).trace calls ∅) := by
  intro h
  have hplain : ∀ c ∈ namesakeRun, c.auth.Plain := by
    simp only [namesakeRun, List.mem_cons, List.not_mem_nil, or_false, forall_eq_or_imp, forall_eq]
    exact ⟨plain_alice, plain_alice, plain_alice⟩
  have hany : ((inMemoryGateway .bypass).trace namesakeRun ∅).any (fun v =>
      v.outcome (inMemoryGateway .bypass) = some .approximateHit ∧
        v.item.approxClass = some (lit "k2")) = true := by decide +kernel
  obtain ⟨v, hv, hhit⟩ := List.any_eq_true.mp hany
  obtain ⟨hout, hclass⟩ := of_decide_eq_true hhit
  obtain ⟨eff, c, -, -, hc, w, weff, hdonates⟩ := h .bypass namesakeRun hplain v hv hout
  obtain ⟨pre, post, hsplit, hw⟩ := hdonates.earlier
  -- the third request is the only one of its class
  have honly : ∀ u ∈ (inMemoryGateway .bypass).trace namesakeRun ∅,
      u.item.approxClass = some (lit "k2") → u.index = 2 ∧ u.done = [] := by decide +kernel
  have hwmem : w ∈ (inMemoryGateway .bypass).trace namesakeRun ∅ := by simp [hsplit, hw]
  have hwclass := hdonates.approxClass.trans (hc.symm.trans hclass)
  obtain ⟨hvidx, hvdone⟩ := honly v hv hclass
  obtain ⟨hwidx, -⟩ := honly w hwmem hwclass
  have hlen := (sent_prefix_of_mem_pre hsplit hw (hwidx.trans hvidx.symm)).1.length_le
  rw [sent_length, hvdone] at hlen
  simp at hlen

end

end CacheControl

import CacheControl.Loop

/-!
# Runs of the gateway

A run answers a list of calls one after another on one backend; a call that
raises is followed by the next.  The trace of a run lists its events, one for
each fragment that the loop reached, with the state in front of it.
-/

open PyText

namespace CacheControl

variable [Runtime] {σ : Type}

structure Call where
  fragments : List Fragment
  auth : AuthContext
  now : Time
  requestId : Str
  requestPayload : Option (List (Str × Value)) := none
  equivalenceDeclared : Bool := false

/-- The fragments in the order in which the loop takes them. -/
def Call.ordered (c : Call) : Except PyError (List Fragment) := do
  let ordered ← planOrder c.fragments c.equivalenceDeclared
  checkIds ordered
  pure ordered

namespace Gateway

def answer (g : Gateway σ) (c : Call) : Prog PyError σ Result :=
  g.handle c.fragments c.auth c.now c.requestId c.requestPayload c.equivalenceDeclared

def run (g : Gateway σ) (calls : List Call) (s : σ) : List (Except PyError Result) × σ :=
  Prog.session g.answer calls s

def turn (g : Gateway σ) (c : Call) : LoopVars → Fragment →
    Prog PyError σ (LoopVars × FragmentStatus) :=
  g.handleFragment c.auth c.now c.requestId

def visits (g : Gateway σ) (c : Call) (s : σ) : List (Prog.Visit LoopVars Fragment σ) :=
  match c.ordered with
  | .ok fragments => Prog.visits (g.turn c) .init [] fragments s
  | .error _ => []

end Gateway

/-- A fragment that the loop reached, in the call at the position `index`. -/
structure Event (σ : Type) extends Prog.Visit LoopVars Fragment σ where
  index : ℕ
  call : Call

namespace Event

/-- The prefix that ends with the fragment. -/
def sent (v : Event σ) : List Fragment := v.done ++ [v.item]

def after (g : Gateway σ) (v : Event σ) : σ := Prog.Visit.after (g.turn v.call) v.toVisit

def status (g : Gateway σ) (v : Event σ) : Option FragmentStatus :=
  Prog.Visit.emits (g.turn v.call) v.toVisit

def outcome (g : Gateway σ) (v : Event σ) : Option Outcome :=
  (v.status g).map FragmentStatus.outcome

def partition (v : Event σ) (eff : Effective) : Str :=
  partitionFor eff.shareMax v.call.auth v.call.requestId

def lookup (g : Gateway σ) (v : Event σ) (eff : Effective) :
    Except PyError (Outcome × Bool) × σ :=
  g.resolve eff (contentsOf v.sent) (namespacesOf v.sent) (v.partition eff) v.call.now
    v.item.approxClass v.state

end Event

/-- The events of a run whose first call has the position `n`. -/
def Gateway.traceFrom (g : Gateway σ) : ℕ → List Call → σ → List (Event σ)
  | _, [], _ => []
  | n, c :: calls, s =>
      (g.visits c s).map (fun v => ⟨v, n, c⟩) ++ g.traceFrom (n + 1) calls (g.answer c s).2

def Gateway.trace (g : Gateway σ) (calls : List Call) (s : σ) : List (Event σ) :=
  g.traceFrom 0 calls s

variable {g : Gateway σ} {c : Call} {calls : List Call} {n : ℕ} {s t : σ}

/-! ## Calls and their loops -/

theorem answer_eq (g : Gateway σ) (c : Call) :
    g.answer c = (do
      let ordered ← Prog.lift c.ordered
      let statuses ← Prog.mapAccum (g.turn c) LoopVars.init ordered
      pure
        { statuses
          strippedScopeFields := match c.requestPayload with
            | none => []
            | some payload => (stripUntrustedScope payload).2
          order := ordered.map Fragment.id
          cacheSalt := none }) := by
  funext s
  unfold Gateway.answer Gateway.handle Call.ordered
  cases planOrder c.fragments c.equivalenceDeclared with
  | error e => rfl
  | ok ordered =>
      rw [Prog.lift_ok_bind]
      show (Prog.lift (checkIds ordered) >>= _) s =
        (Prog.lift (checkIds ordered >>= fun _ => pure ordered) >>= _) s
      cases checkIds ordered <;> rfl

/-- Without the declaration the fragments keep their order. -/
theorem eq_of_ordered {ordered : List Fragment} (hdeclared : c.equivalenceDeclared = false)
    (h : c.ordered = .ok ordered) : ordered = c.fragments := by
  rw [Call.ordered, hdeclared] at h
  change (checkIds c.fragments >>= fun _ => pure c.fragments) = .ok ordered at h
  cases hids : checkIds c.fragments with
  | error e =>
      rw [hids] at h
      cases h
  | ok u =>
      rw [hids] at h
      cases h
      rfl

theorem answer_of_error {e : PyError} (h : c.ordered = .error e) (s : σ) :
    g.answer c s = (.error e, s) := by
  rw [answer_eq, h]
  rfl

theorem answer_state {ordered : List Fragment} (h : c.ordered = .ok ordered) (s : σ) :
    (g.answer c s).2 = (Prog.mapAccum (g.turn c) LoopVars.init ordered s).2 := by
  rw [answer_eq, h, Prog.lift_ok_bind, Prog.bind_apply]
  rcases Prog.mapAccum (g.turn c) LoopVars.init ordered s with ⟨_ | statuses, t⟩ <;> rfl

theorem loop_of_answer {r : Result} (h : (g.answer c s).1 = .ok r) :
    ∃ ordered t, c.ordered = .ok ordered ∧
      Prog.mapAccum (g.turn c) LoopVars.init ordered s = (.ok r.statuses, t) := by
  cases hord : c.ordered with
  | error e =>
      rw [answer_of_error hord] at h
      cases h
  | ok ordered =>
      have hans : g.answer c s = (.ok r, (g.answer c s).2) := by rw [← h]
      rw [answer_eq, hord, Prog.lift_ok_bind] at hans
      obtain ⟨statuses, u, hloop, hpure⟩ := Prog.bind_eq_ok_iff.mp hans
      obtain ⟨hr, -⟩ := Prod.mk.inj hpure
      cases Except.ok.inj hr
      exact ⟨ordered, u, rfl, hloop⟩

theorem visits_of_answer {r : Result} (h : (g.answer c s).1 = .ok r) :
    (g.visits c s).map (Prog.Visit.emits (g.turn c)) = r.statuses.map some := by
  obtain ⟨ordered, t, hord, hloop⟩ := loop_of_answer h
  simpa [Gateway.visits, hord] using Prog.mapAccum_ok_visits [] hloop

theorem chained_gateway_visits (g : Gateway σ) (c : Call) (s : σ) :
    Prog.Chained Prog.Visit.state (Prog.Visit.after (g.turn c)) s (g.visits c s)
      (g.answer c s).2 := by
  unfold Gateway.visits
  cases hord : c.ordered with
  | error e => simp [Prog.Chained, answer_of_error hord]
  | ok ordered =>
      rw [answer_state hord]
      exact Prog.chained_visits (g.turn c) LoopVars.init [] ordered s

/-- A relation of states that serving a fragment keeps is kept by a whole call. -/
theorem sim_answer {σ' : Type} {g' : Gateway σ'} {R : σ → σ' → Prop} (hagrees : g.Agrees g')
    (hserve : ∀ f vars hints eff, checkEnforceable g.backend.capabilities eff = .ok () →
      Prog.Sim R (g.serve c.auth c.now c.requestId f vars hints eff)
        (g'.serve c.auth c.now c.requestId f vars hints eff)) :
    Prog.Sim R (g.answer c) (g'.answer c) := by
  have hturn : ∀ vars f, Prog.Sim R (g.turn c vars f) (g'.turn c vars f) := by
    intro vars f
    unfold Gateway.turn Gateway.handleFragment
    rw [hagrees.capabilities, hagrees.onUnenforceable]
    refine Prog.Sim.lift_bind fun entered _ => ?_
    cases entered with
    | ungoverned vars' => exact Prog.sim_pure _ _
    | governed vars' hints eff =>
        cases hcheck : checkEnforceable g.backend.capabilities eff with
        | ok u =>
            simp only [hcheck]
            exact hserve f vars' hints eff hcheck
        | error e =>
            simp only [hcheck]
            split
            · exact Prog.sim_raise _ _
            · exact Prog.sim_pure _ _
  rw [answer_eq, answer_eq]
  refine Prog.Sim.lift_bind fun ordered _ => ?_
  exact (Prog.sim_mapAccum hturn).bind fun statuses => Prog.sim_pure _ _

/-- Every event of a run starts in the state that the one before it left. -/
theorem chained_traceFrom (g : Gateway σ) (n : ℕ) (calls : List Call) (s : σ) :
    Prog.Chained (fun v : Event σ => v.state) (Event.after g) s (g.traceFrom n calls s)
      (g.run calls s).2 := by
  induction calls generalizing n s with
  | nil => rfl
  | cons c calls ih =>
      have hcall := (chained_gateway_visits g c s).map
        (fun v : Event σ => v.state) (Event.after g) (fun v => ⟨v, n, c⟩)
        (fun _ => rfl) (fun _ => rfl)
      exact hcall.append (ih (n + 1) _)

/-! ## Positions in a trace -/

theorem le_index_of_mem {v : Event σ} (h : v ∈ g.traceFrom n calls s) : n ≤ v.index := by
  induction calls generalizing n s with
  | nil => simp [Gateway.traceFrom] at h
  | cons c calls ih =>
      rcases List.mem_append.mp h with h | h
      · obtain ⟨u, -, rfl⟩ := List.mem_map.mp h
        exact le_rfl
      · exact (Nat.le_succ n).trans (ih h)

theorem call_of_mem {v : Event σ} (h : v ∈ g.traceFrom n calls s) :
    calls[v.index - n]? = some v.call := by
  induction calls generalizing n s with
  | nil => simp [Gateway.traceFrom] at h
  | cons c calls ih =>
      rcases List.mem_append.mp h with h | h
      · obtain ⟨u, -, rfl⟩ := List.mem_map.mp h
        simp
      · have hle := le_index_of_mem h
        have hsub : v.index - n = (v.index - (n + 1)) + 1 := by omega
        rw [hsub, List.getElem?_cons_succ]
        exact ih h

theorem call_mem_of_mem {v : Event σ} (h : v ∈ g.traceFrom n calls s) : v.call ∈ calls :=
  List.mem_of_getElem? (call_of_mem h)

/-- In front of an event stand the events of earlier calls, and the visits that
its own call has made so far. -/
theorem traceFrom_split {pre post : List (Event σ)} {v : Event σ}
    (h : g.traceFrom n calls s = pre ++ v :: post) :
    ∃ (earlier : List (Event σ)) (s' : σ) (before after : List (Prog.Visit LoopVars Fragment σ)),
      pre = earlier ++ before.map (fun u => ⟨u, v.index, v.call⟩) ∧
      g.visits v.call s' = before ++ v.toVisit :: after ∧
      ∀ u ∈ earlier, u.index < v.index := by
  induction calls generalizing n s pre with
  | nil => simp [Gateway.traceFrom] at h
  | cons c calls ih =>
      rw [Gateway.traceFrom] at h
      have hlater : ∀ x, g.traceFrom (n + 1) calls (g.answer c s).2 = x ++ v :: post →
          pre = (g.visits c s).map (fun v => ⟨v, n, c⟩) ++ x →
          ∃ (earlier : List (Event σ)) (s' : σ)
            (before after : List (Prog.Visit LoopVars Fragment σ)),
            pre = earlier ++ before.map (fun u => ⟨u, v.index, v.call⟩) ∧
            g.visits v.call s' = before ++ v.toVisit :: after ∧
            ∀ u ∈ earlier, u.index < v.index := by
        intro x hx hpre
        obtain ⟨earlier, s', before, after, rfl, hvisits, hearlier⟩ := ih hx
        refine ⟨(g.visits c s).map (fun v => ⟨v, n, c⟩) ++ earlier, s', before, after,
          by simp [hpre], hvisits, ?_⟩
        intro u hu
        rcases List.mem_append.mp hu with hu | hu
        · obtain ⟨w, -, rfl⟩ := List.mem_map.mp hu
          exact le_index_of_mem (n := n + 1) (by rw [hx]; simp)
        · exact hearlier u hu
      rcases List.append_eq_append_iff.mp h with ⟨x, hpre, hx⟩ | ⟨x, hx, hrest⟩
      · exact hlater x hx hpre
      · cases x with
        | nil => exact hlater [] (by simpa using hrest.symm) (by simpa using hx.symm)
        | cons w x =>
            obtain ⟨rfl, -⟩ := List.cons.inj hrest
            obtain ⟨before, rest, hvisits, rfl, hmap⟩ := List.map_eq_append_iff.mp hx
            obtain ⟨u, after, rfl, rfl, -⟩ := List.map_eq_cons_iff.mp hmap
            exact ⟨[], s, before, after, rfl, hvisits, by simp⟩

theorem index_le_of_mem_pre {pre post : List (Event σ)} {u v : Event σ}
    (h : g.traceFrom n calls s = pre ++ v :: post) (hu : u ∈ pre) : u.index ≤ v.index := by
  obtain ⟨earlier, s', before, after, rfl, -, hearlier⟩ := traceFrom_split h
  rcases List.mem_append.mp hu with hu | hu
  · exact (hearlier u hu).le
  · obtain ⟨w, -, rfl⟩ := List.mem_map.mp hu
    exact le_rfl

theorem sent_prefix_of_mem_pre {pre post : List (Event σ)} {u v : Event σ}
    (h : g.traceFrom n calls s = pre ++ v :: post) (hu : u ∈ pre) (hidx : u.index = v.index) :
    u.sent <+: v.done ∧ u.call = v.call := by
  obtain ⟨earlier, s', before, after, rfl, hvisits, hearlier⟩ := traceFrom_split h
  rcases List.mem_append.mp hu with hu | hu
  · exact absurd hidx (hearlier u hu).ne
  · obtain ⟨w, hw, rfl⟩ := List.mem_map.mp hu
    refine ⟨?_, rfl⟩
    unfold Gateway.visits at hvisits
    cases hord : v.call.ordered with
    | error e => simp [hord] at hvisits
    | ok ordered =>
        rw [hord] at hvisits
        exact Prog.visits_earlier_done hvisits hw

theorem exists_event_of_done {pre post : List (Event σ)} {v : Event σ} {q : List Fragment}
    {f : Fragment} (h : g.traceFrom n calls s = pre ++ v :: post) (hq : q ++ [f] <+: v.done) :
    ∃ u ∈ pre, u.index = v.index ∧ u.done = q ∧ u.item = f := by
  obtain ⟨earlier, s', before, after, rfl, hvisits, -⟩ := traceFrom_split h
  unfold Gateway.visits at hvisits
  cases hord : v.call.ordered with
  | error e => simp [hord] at hvisits
  | ok ordered =>
      rw [hord] at hvisits
      obtain ⟨u, hu, hdone, hitem⟩ := Prog.exists_earlier_visit hvisits hq
      exact ⟨⟨u, v.index, v.call⟩, by simp [hu], rfl, hdone, hitem⟩

theorem exists_status_of_mem_pre {pre post : List (Event σ)} {u v : Event σ}
    (h : g.traceFrom n calls s = pre ++ v :: post) (hu : u ∈ pre) (hidx : u.index = v.index) :
    ∃ st, u.status g = some st := by
  obtain ⟨earlier, s', before, after, rfl, hvisits, hearlier⟩ := traceFrom_split h
  rcases List.mem_append.mp hu with hu | hu
  · exact absurd hidx (hearlier u hu).ne
  · obtain ⟨w, hw, rfl⟩ := List.mem_map.mp hu
    unfold Gateway.visits at hvisits
    cases hord : v.call.ordered with
    | error e => simp [hord] at hvisits
    | ok ordered =>
        rw [hord] at hvisits
        exact Prog.visits_emits_of_mem hvisits hw

theorem sent_length (v : Event σ) : v.sent.length = v.done.length + 1 := by
  simp [Event.sent]

theorem mem_pre_of_sent_prefix {pre post : List (Event σ)} {u v : Event σ}
    (h : g.traceFrom n calls s = pre ++ v :: post) (hu : u ∈ g.traceFrom n calls s)
    (hidx : u.index = v.index) (hsent : u.sent <+: v.done) : u ∈ pre := by
  have hlen := hsent.length_le
  rw [h] at hu
  rcases List.mem_append.mp hu with hu | hu
  · exact hu
  · exfalso
    rcases List.mem_cons.mp hu with rfl | hu
    · rw [sent_length] at hlen
      omega
    · obtain ⟨x, y, rfl⟩ := List.append_of_mem hu
      have hsplit : g.traceFrom n calls s = (pre ++ v :: x) ++ u :: y := by simp [h]
      have hback := (sent_prefix_of_mem_pre hsplit (by simp) hidx.symm).1.length_le
      rw [sent_length] at hlen hback
      omega

/-! ## The trace of one call -/

theorem mem_trace_single {v : Event σ} :
    v ∈ g.trace [c] s ↔ v.toVisit ∈ g.visits c s ∧ v.index = 0 ∧ v.call = c := by
  simp only [Gateway.trace, Gateway.traceFrom, List.append_nil, List.mem_map]
  constructor
  · rintro ⟨u, hu, rfl⟩
    exact ⟨hu, rfl, rfl⟩
  · rintro ⟨hv, hidx, hcall⟩
    exact ⟨v.toVisit, hv, by rw [← hidx, ← hcall]⟩

theorem sent_prefix_of_mem {v : Event σ} (h : v ∈ g.trace [c] s) :
    ∃ fragments, c.ordered = .ok fragments ∧ v.sent <+: fragments := by
  have hvisit := (mem_trace_single.mp h).1
  unfold Gateway.visits at hvisit
  cases hord : c.ordered with
  | error e => simp [hord] at hvisit
  | ok fragments =>
      rw [hord] at hvisit
      obtain ⟨rest, hrest⟩ := Prog.visits_done hvisit
      refine ⟨fragments, rfl, rest, ?_⟩
      simpa [Event.sent] using hrest.symm

/-- A call whose fragments are in order raises what one of its events raises. -/
theorem answer_error_iff {fragments : List Fragment} (hord : c.ordered = .ok fragments)
    {e : PyError} : (g.answer c s).1 = .error e ↔
      ∃ v ∈ g.trace [c] s, (g.turn c v.acc v.item v.state).1 = .error e := by
  have hloop : (g.answer c s).1 = .error e ↔
      (Prog.mapAccum (g.turn c) LoopVars.init fragments s).1 = .error e := by
    rw [answer_eq, hord, Prog.lift_ok_bind, Prog.bind_pure_state]
    cases (Prog.mapAccum (g.turn c) LoopVars.init fragments s).1 <;> simp [Except.map]
  have hvisits : g.visits c s = Prog.visits (g.turn c) .init [] fragments s := by
    rw [Gateway.visits, hord]
  rw [hloop, Prog.mapAccum_error_iff [], ← hvisits]
  constructor
  · rintro ⟨v, hv, hraise⟩
    exact ⟨⟨v, 0, c⟩, mem_trace_single.mpr ⟨hv, rfl, rfl⟩, hraise⟩
  · rintro ⟨v, hv, hraise⟩
    exact ⟨v.toVisit, (mem_trace_single.mp hv).1, hraise⟩

theorem exists_first_event {f : Fragment} {fragments : List Fragment}
    (hord : c.ordered = .ok (f :: fragments)) (s : σ) :
    ∃ v ∈ g.trace [c] s, v.done = [] ∧ v.item = f := by
  refine ⟨⟨⟨.init, [], f, s⟩, 0, c⟩, mem_trace_single.mpr ⟨?_, rfl, rfl⟩, rfl, rfl⟩
  simp [Gateway.visits, hord, Prog.visits]

theorem exists_next_event {v : Event σ} {f : Fragment} {fragments : List Fragment}
    {st : FragmentStatus} (hv : v ∈ g.trace [c] s) (hst : v.status g = some st)
    (hord : c.ordered = .ok fragments) (hf : v.done ++ [v.item] ++ [f] <+: fragments) :
    ∃ w ∈ g.trace [c] s, w.done = v.done ++ [v.item] ∧ w.item = f := by
  obtain ⟨hvisit, hidx, hcall⟩ := mem_trace_single.mp hv
  obtain ⟨rest, hrest⟩ := hf
  unfold Gateway.visits at hvisit
  rw [hord] at hvisit
  unfold Event.status at hst
  rw [hcall] at hst
  obtain ⟨w, hw, hdone, hitem⟩ :=
    Prog.exists_next_visit f rest hvisit hst (by simp [← hrest])
  refine ⟨⟨w, 0, c⟩, mem_trace_single.mpr ⟨?_, rfl, rfl⟩, hdone, hitem⟩
  simpa [Gateway.visits, hord] using hw

theorem event_of_answer {r : Result} (h : (g.answer c s).1 = .ok r) {fragments p : List Fragment}
    {f : Fragment} (hord : c.ordered = .ok fragments) (hp : p ++ [f] <+: fragments) :
    ∃ v ∈ g.trace [c] s, v.sent = p ++ [f] ∧
      ∃ st, v.status g = some st ∧ r.statuses[p.length]? = some st := by
  obtain ⟨rest, hrest⟩ := hp
  obtain ⟨ordered, t, hord', hloop⟩ := loop_of_answer h
  cases hord.symm.trans hord'
  have hemits := Prog.mapAccum_ok_visits [] hloop
  have hitems := (Prog.mapAccum_ok_items [] hloop).trans
    (hrest.symm.trans (List.append_assoc p [f] rest))
  obtain ⟨pre, rest', hvisits, rfl, hbehind⟩ := List.map_eq_append_iff.mp hitems
  obtain ⟨v, post, rfl, rfl, -⟩ := List.map_eq_cons_iff.mp hbehind
  have hdone : v.done = pre.map Prog.Visit.item := by simpa using Prog.visits_done_eq hvisits
  have hmem : v ∈ g.visits c s := by
    unfold Gateway.visits
    rw [hord]
    simp [hvisits]
  refine ⟨⟨v, 0, c⟩, mem_trace_single.mpr ⟨hmem, rfl, rfl⟩, by simp [Event.sent, hdone], ?_⟩
  have hat := congrArg (fun l => l[pre.length]?) hemits
  simp only [hvisits, List.map_append, List.map_cons, List.getElem?_map] at hat
  rw [List.getElem?_append_right (by simp)] at hat
  simp only [List.length_map, Nat.sub_self, List.getElem?_cons_zero] at hat
  obtain ⟨st, hst, hsome⟩ := Option.map_eq_some_iff.mp hat.symm
  exact ⟨st, hsome.symm, by simpa using hst⟩

/-- The status of a fragment stands at its position. -/
theorem status_of_event {r : Result} (h : (g.answer c s).1 = .ok r) {v : Event σ}
    (hv : v ∈ g.trace [c] s) : r.statuses[v.done.length]? = v.status g := by
  obtain ⟨hvisit, -, hcall⟩ := mem_trace_single.mp hv
  obtain ⟨ordered, t, hord, hloop⟩ := loop_of_answer h
  have hemits := Prog.mapAccum_ok_visits [] hloop
  obtain ⟨pre, post, hsplit⟩ := List.append_of_mem hvisit
  unfold Gateway.visits at hsplit
  rw [hord] at hsplit
  have hdone := congrArg List.length (Prog.visits_done_eq hsplit)
  have hat := congrArg (fun l => l[pre.length]?) hemits
  simp only [hsplit, List.map_append, List.map_cons, List.getElem?_map] at hat
  rw [List.getElem?_append_right (by simp)] at hat
  simp only [List.length_map, Nat.sub_self, List.getElem?_cons_zero] at hat
  obtain ⟨st, hst, hsome⟩ := Option.map_eq_some_iff.mp hat.symm
  have hlen : v.done.length = pre.length := by simpa using hdone
  unfold Event.status
  rw [hlen, hst, hcall, ← hsome]

theorem length_statuses {r : Result} (h : (g.answer c s).1 = .ok r) {fragments : List Fragment}
    (hord : c.ordered = .ok fragments) : r.statuses.length = fragments.length := by
  obtain ⟨ordered, t, hord', hloop⟩ := loop_of_answer h
  cases hord.symm.trans hord'
  have hemits := congrArg List.length (Prog.mapAccum_ok_visits [] hloop)
  have hitems := congrArg List.length (Prog.mapAccum_ok_items [] hloop)
  simp only [List.length_map] at hemits hitems
  omega

/-- Every status of a call that returns is that of an event. -/
theorem exists_event_of_status {r : Result} (h : (g.answer c s).1 = .ok r) {i : ℕ}
    {st : FragmentStatus} (hat : r.statuses[i]? = some st) :
    ∃ v ∈ g.trace [c] s, v.done.length = i ∧ v.status g = some st := by
  obtain ⟨ordered, t, hord, -⟩ := loop_of_answer h
  obtain ⟨hlt, -⟩ := List.getElem?_eq_some_iff.mp hat
  rw [length_statuses h hord] at hlt
  have hp : ordered.take i ++ [ordered[i]] <+: ordered := by
    rw [← List.take_succ_eq_append_getElem hlt]
    exact List.take_prefix _ _
  obtain ⟨v, hv, hsent, st', hst', hat'⟩ := event_of_answer h hord hp
  have hdone : v.done = ordered.take i := (List.append_inj' hsent rfl).1
  have hlength : v.done.length = i := by rw [hdone, List.length_take, min_eq_left hlt.le]
  rw [← hdone, hlength, hat] at hat'
  exact ⟨v, hv, hlength, by rw [hst', hat']⟩

theorem exists_status (h : ∃ r, (g.answer c s).1 = .ok r) {v : Event σ} (hv : v ∈ g.trace [c] s) :
    ∃ st, v.status g = some st := by
  obtain ⟨r, h⟩ := h
  obtain ⟨ordered, hord, hsent⟩ := sent_prefix_of_mem hv
  have hlt : v.done.length < r.statuses.length := by
    have hle := hsent.length_le
    rw [sent_length] at hle
    rw [length_statuses h hord]
    omega
  have hat := status_of_event h hv
  rw [List.getElem?_eq_getElem hlt] at hat
  exact ⟨_, hat.symm⟩

theorem now_le_of_mem_pre (hmono : calls.Pairwise fun c d => c.now ≤ d.now)
    {pre post : List (Event σ)} {u v : Event σ}
    (h : g.traceFrom n calls s = pre ++ v :: post) (hu : u ∈ pre) : u.call.now ≤ v.call.now := by
  have hidx := index_le_of_mem_pre h hu
  have humem : u ∈ g.traceFrom n calls s := by rw [h]; simp [hu]
  have hvmem : v ∈ g.traceFrom n calls s := by rw [h]; simp
  have hucall := call_of_mem humem
  have hvcall := call_of_mem hvmem
  have hun := le_index_of_mem humem
  rcases hidx.lt_or_eq with hlt | heq
  · obtain ⟨hi, hic⟩ := List.getElem?_eq_some_iff.mp hucall
    obtain ⟨hj, hjc⟩ := List.getElem?_eq_some_iff.mp hvcall
    rw [← hic, ← hjc]
    exact List.pairwise_iff_getElem.mp hmono _ _ hi hj (by omega)
  · rw [heq] at hucall
    rw [Option.some.inj (hucall.symm.trans hvcall)]

/-- The statuses of a call that returns are those of its events, in order. -/
theorem statuses_of_run {i : ℕ} {r : Result} (h : (g.run calls s).1[i]? = some (.ok r)) :
    ((g.traceFrom n calls s).filter fun v => v.index = n + i).map (Event.status g) =
      r.statuses.map some := by
  induction calls generalizing n s i with
  | nil => simp [Gateway.run] at h
  | cons c calls ih =>
      rw [Gateway.traceFrom, List.filter_append, List.map_append]
      cases i with
      | zero =>
          have hans : (g.answer c s).1 = .ok r := by simpa [Gateway.run] using h
          have hlater : (g.traceFrom (n + 1) calls (g.answer c s).2).filter
              (fun v => v.index = n + 0) = [] := by
            apply List.filter_eq_nil_iff.mpr
            intro v hv
            have hle := le_index_of_mem hv
            simp only [decide_eq_true_eq]
            omega
          rw [hlater, List.map_nil, List.append_nil, List.filter_map, ← visits_of_answer hans]
          simp [Function.comp_def, Event.status]
      | succ i =>
          have hrest : (g.run calls (g.answer c s).2).1[i]? = some (.ok r) := by
            simpa [Gateway.run] using h
          have hnow : ((g.visits c s).map (fun v => (⟨v, n, c⟩ : Event σ))).filter
              (fun v => v.index = n + (i + 1)) = [] := by
            simp [List.filter_eq_nil_iff]
          rw [hnow, List.map_nil, List.nil_append, ← ih hrest (n := n + 1)]
          congr 2
          funext v
          simp only [decide_eq_decide]
          omega

end CacheControl

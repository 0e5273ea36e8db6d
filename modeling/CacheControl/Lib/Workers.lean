import Mathlib.Data.List.Basic
import Mathlib.Logic.Function.Iterate
import Mathlib.Tactic

/-!
# Workers that share a service

Workers run next to each other.  Each of them ends by itself, or calls a shared
service once and ends with what it makes of the answer.  A schedule says whose step
comes next.  Every schedule amounts to serving the workers one after another, in the
order in which they took effect.
-/

namespace Workers

inductive Task (Op Ans Out : Type)
  | ends (out : Out)
  | calls (op : Op) (resume : Ans → Out)

inductive Phase (Ans Out : Type)
  | waiting
  | calling
  | answered (answer : Ans)
  | ended (out : Out)

structure Pool (ι Op Ans Out σ : Type) where
  task : ι → Task Op Ans Out
  serve : Op → σ → Ans × σ

/-- `order` has the workers that took effect: at their call, or where they ended
without one. -/
structure Config (ι Ans Out σ : Type) where
  phase : ι → Phase Ans Out
  state : σ
  order : List ι

variable {ι Op Ans Out σ : Type}

def Task.op? : Task Op Ans Out → Option Op
  | .ends _ => none
  | .calls op _ => some op

/-- Carry out the task without interruption. -/
def Task.perform (serve : Op → σ → Ans × σ) : Task Op Ans Out → σ → Out × σ
  | .ends out, s => (out, s)
  | .calls op resume, s => (resume (serve op s).1, (serve op s).2)

/-- The number of own steps after which the task has ended. -/
def Task.length : Task Op Ans Out → ℕ
  | .ends _ => 1
  | .calls _ _ => 3

theorem Task.length_le (t : Task Op Ans Out) : t.length ≤ 3 := by
  cases t with
  | ends out => exact Nat.le_add_left 1 2
  | calls op resume => exact le_refl 3

def Phase.stage : Phase Ans Out → ℕ
  | .waiting => 0
  | .calling => 1
  | .answered _ => 2
  | .ended _ => 3

def Task.next : Task Op Ans Out → ℕ → ℕ
  | .ends _, 0 => 3
  | .ends _, n => n
  | .calls _ _, n => min (n + 1) 3

def Config.start (s : σ) : Config ι Ans Out σ := ⟨fun _ => .waiting, s, []⟩

namespace Pool

/-- The workers of the list one after another, each with what it ends with. -/
def serially (W : Pool ι Op Ans Out σ) : List ι → σ → List (ι × Out) × σ
  | [], s => ([], s)
  | i :: is, s =>
      let first := (W.task i).perform W.serve s
      let rest := W.serially is first.2
      ((i, first.1) :: rest.1, rest.2)

variable [DecidableEq ι]

/-- One step of a worker. -/
def step (W : Pool ι Op Ans Out σ) (c : Config ι Ans Out σ) (i : ι) : Config ι Ans Out σ :=
  match W.task i, c.phase i with
  | .ends out, .waiting =>
      ⟨Function.update c.phase i (.ended out), c.state, c.order ++ [i]⟩
  | .calls _ _, .waiting => ⟨Function.update c.phase i .calling, c.state, c.order⟩
  | .calls op _, .calling =>
      ⟨Function.update c.phase i (.answered (W.serve op c.state).1), (W.serve op c.state).2,
        c.order ++ [i]⟩
  | .calls _ resume, .answered a =>
      ⟨Function.update c.phase i (.ended (resume a)), c.state, c.order⟩
  | _, _ => c

def run (W : Pool ι Op Ans Out σ) (schedule : List ι) (s : σ) : Config ι Ans Out σ :=
  schedule.foldl W.step (.start s)

variable {W : Pool ι Op Ans Out σ} {c : Config ι Ans Out σ} {i j : ι} {s t : σ}
  {schedule : List ι}

theorem run_concat (W : Pool ι Op Ans Out σ) (schedule : List ι) (i : ι) (s : σ) :
    W.run (schedule ++ [i]) s = W.step (W.run schedule s) i := by
  rw [run, List.foldl_append]
  rfl

/-! ## Steps -/

/-- The worker's own phase, the state and the order tell what a step does. -/
inductive Steps (W : Pool ι Op Ans Out σ) (i : ι) (c : Config ι Ans Out σ) :
    Config ι Ans Out σ → Prop
  | ends (out : Out) : W.task i = .ends out → c.phase i = .waiting →
      Steps W i c ⟨Function.update c.phase i (.ended out), c.state, c.order ++ [i]⟩
  | enters (op : Op) (resume : Ans → Out) : W.task i = .calls op resume → c.phase i = .waiting →
      Steps W i c ⟨Function.update c.phase i .calling, c.state, c.order⟩
  | calls (op : Op) (resume : Ans → Out) : W.task i = .calls op resume → c.phase i = .calling →
      Steps W i c ⟨Function.update c.phase i (.answered (W.serve op c.state).1),
        (W.serve op c.state).2, c.order ++ [i]⟩
  | resumes (op : Op) (resume : Ans → Out) (a : Ans) : W.task i = .calls op resume →
      c.phase i = .answered a →
      Steps W i c ⟨Function.update c.phase i (.ended (resume a)), c.state, c.order⟩
  | rests : (W.task i).next (c.phase i).stage = (c.phase i).stage → Steps W i c c

theorem steps_step (W : Pool ι Op Ans Out σ) (c : Config ι Ans Out σ) (i : ι) :
    Steps W i c (W.step c i) := by
  unfold step
  cases htask : W.task i with
  | ends out =>
      have hrests : ∀ n, (Task.ends out : Task Op Ans Out).next (n + 1) = n + 1 := fun _ => rfl
      cases hphase : c.phase i with
      | waiting => exact .ends out htask hphase
      | calling =>
          refine .rests ?_
          rw [htask, hphase]
          exact hrests 0
      | answered a =>
          refine .rests ?_
          rw [htask, hphase]
          exact hrests 1
      | ended o =>
          refine .rests ?_
          rw [htask, hphase]
          exact hrests 2
  | calls op resume =>
      cases hphase : c.phase i with
      | waiting => exact .enters op resume htask hphase
      | calling => exact .calls op resume htask hphase
      | answered a => exact .resumes op resume a htask hphase
      | ended o =>
          refine .rests ?_
          rw [htask, hphase]
          rfl

theorem phase_step_of_ne (h : j ≠ i) : (W.step c i).phase j = c.phase j := by
  have hsteps := steps_step W c i
  generalize W.step c i = c' at hsteps ⊢
  cases hsteps with
  | rests _ => rfl
  | _ => exact Function.update_of_ne h _ _

theorem stage_step (W : Pool ι Op Ans Out σ) (c : Config ι Ans Out σ) (i : ι) :
    ((W.step c i).phase i).stage = (W.task i).next (c.phase i).stage := by
  have hsteps := steps_step W c i
  generalize W.step c i = c' at hsteps ⊢
  cases hsteps with
  | ends out htask hphase =>
      rw [htask, hphase]
      simp [Phase.stage, Task.next]
  | enters op resume htask hphase =>
      rw [htask, hphase]
      simp [Phase.stage, Task.next]
  | calls op resume htask hphase =>
      rw [htask, hphase]
      simp [Phase.stage, Task.next]
  | resumes op resume a htask hphase =>
      rw [htask, hphase]
      simp [Phase.stage, Task.next]
  | rests hnext => exact hnext.symm

/-! ## Runs -/

/-- How far a worker is depends on its own steps only. -/
theorem stage_run (W : Pool ι Op Ans Out σ) (schedule : List ι) (s : σ) (i : ι) :
    ((W.run schedule s).phase i).stage = (W.task i).next^[schedule.count i] 0 := by
  induction schedule using List.reverseRecOn with
  | nil => rfl
  | append_singleton schedule j ih =>
      rw [run_concat, List.count_append]
      by_cases hij : i = j
      · subst hij
        rw [stage_step, ih, List.count_singleton_self, Function.iterate_succ_apply']
      · have hne : j ≠ i := Ne.symm hij
        rw [phase_step_of_ne hij, ih, List.count_singleton, if_neg (by simpa using hne), add_zero]

omit [DecidableEq ι] in
theorem iterate_next_calls (op : Op) (resume : Ans → Out) (n : ℕ) :
    (Task.calls op resume).next^[n] 0 = min n 3 := by
  induction n with
  | zero => rfl
  | succ n ih =>
      rw [Function.iterate_succ_apply', ih]
      show min (min n 3 + 1) 3 = min (n + 1) 3
      omega

omit [DecidableEq ι] in
theorem iterate_next_ends (out : Out) (n : ℕ) :
    (Task.ends out : Task Op Ans Out).next^[n] 0 = if n = 0 then 0 else 3 := by
  induction n with
  | zero => rfl
  | succ n ih =>
      rw [Function.iterate_succ_apply', ih]
      cases n <;> rfl

/-- A worker with enough steps has ended, whatever the others do. -/
theorem ended_of_count (s : σ) (h : (W.task i).length ≤ schedule.count i) :
    ∃ out, (W.run schedule s).phase i = .ended out := by
  have hstage : ((W.run schedule s).phase i).stage = 3 := by
    rw [stage_run]
    cases htask : W.task i with
    | ends out =>
        rw [htask] at h
        change 1 ≤ _ at h
        rw [iterate_next_ends, if_neg (by omega)]
    | calls op resume =>
        rw [htask] at h
        change 3 ≤ _ at h
        rw [iterate_next_calls]
        omega
  cases hphase : (W.run schedule s).phase i with
  | ended out => exact ⟨out, rfl⟩
  | waiting => simp [hphase, Phase.stage] at hstage
  | calling => simp [hphase, Phase.stage] at hstage
  | answered a => simp [hphase, Phase.stage] at hstage

/-! ## The serial run -/

omit [DecidableEq ι] in
theorem serially_append (W : Pool ι Op Ans Out σ) (is js : List ι) (s : σ) :
    W.serially (is ++ js) s =
      ((W.serially is s).1 ++ (W.serially js (W.serially is s).2).1,
        (W.serially js (W.serially is s).2).2) := by
  induction is generalizing s with
  | nil => rfl
  | cons i is ih => simp [serially, ih]

omit [DecidableEq ι] in
theorem serially_workers (W : Pool ι Op Ans Out σ) (is : List ι) (s : σ) :
    (W.serially is s).1.map Prod.fst = is := by
  induction is generalizing s with
  | nil => rfl
  | cons i is ih => simp [serially, ih]

/-- What the phase of a worker says of the workers that took effect so far. -/
inductive Stands (task : Task Op Ans Out) (i : ι) (served : List (ι × Out)) :
    Phase Ans Out → Prop
  | waiting : i ∉ served.map Prod.fst → Stands task i served .waiting
  | calling : i ∉ served.map Prod.fst → Stands task i served .calling
  | answered (op : Op) (resume : Ans → Out) (a : Ans) : task = .calls op resume →
      (i, resume a) ∈ served → Stands task i served (.answered a)
  | ended (out : Out) : (i, out) ∈ served → Stands task i served (.ended out)

omit [DecidableEq ι] in
theorem Stands.append {task : Task Op Ans Out} {served : List (ι × Out)} {phase : Phase Ans Out}
    (h : Stands task i served phase) {x : ι × Out} (hx : i ≠ x.1) :
    Stands task i (served ++ [x]) phase := by
  have hnotMem : i ∉ served.map Prod.fst → i ∉ (served ++ [x]).map Prod.fst := by
    intro hi
    simp only [List.map_append, List.map_cons, List.map_nil, List.mem_append, List.mem_singleton]
    exact not_or.mpr ⟨hi, hx⟩
  cases h with
  | waiting hi => exact .waiting (hnotMem hi)
  | calling hi => exact .calling (hnotMem hi)
  | answered op resume a htask hmem => exact .answered op resume a htask (List.mem_append_left _ hmem)
  | ended out hmem => exact .ended out (List.mem_append_left _ hmem)

/-- The configuration is what serving the workers in its order gives. -/
structure Serial (W : Pool ι Op Ans Out σ) (s : σ) (c : Config ι Ans Out σ) : Prop where
  nodup : c.order.Nodup
  state : (W.serially c.order s).2 = c.state
  stands : ∀ i, Stands (W.task i) i (W.serially c.order s).1 (c.phase i)

omit [DecidableEq ι] in
theorem serial_start (W : Pool ι Op Ans Out σ) (s : σ) : Serial W s (.start s) :=
  ⟨List.nodup_nil, rfl, fun _ => .waiting List.not_mem_nil⟩

omit [DecidableEq ι] in
theorem Serial.notMem_order (h : Serial W s c)
    (hphase : c.phase i = .waiting ∨ c.phase i = .calling) : i ∉ c.order := by
  have hstands := h.stands i
  rw [← serially_workers W c.order s]
  rcases hphase with hphase | hphase
  · rw [hphase] at hstands
    cases hstands with
    | waiting hi => exact hi
  · rw [hphase] at hstands
    cases hstands with
    | calling hi => exact hi

/-- A worker that takes effect is served behind those before it. -/
theorem Serial.effect (h : Serial W s c) (hphase : c.phase i = .waiting ∨ c.phase i = .calling)
    (phase : Phase Ans Out)
    (hnew : Stands (W.task i) i [(i, ((W.task i).perform W.serve c.state).1)] phase) :
    Serial W s ⟨Function.update c.phase i phase, ((W.task i).perform W.serve c.state).2,
      c.order ++ [i]⟩ := by
  have hserved : W.serially (c.order ++ [i]) s =
      ((W.serially c.order s).1 ++ [(i, ((W.task i).perform W.serve c.state).1)],
        ((W.task i).perform W.serve c.state).2) := by
    rw [serially_append, h.state]
    rfl
  have hi := h.notMem_order hphase
  refine ⟨?_, by rw [hserved], fun j => ?_⟩
  · exact List.nodup_append.mpr ⟨h.nodup, List.nodup_singleton i, fun x hx y hy => by
      rw [List.mem_singleton.mp hy]
      rintro rfl
      exact hi hx⟩
  · rw [hserved]
    by_cases hji : j = i
    · subst hji
      dsimp only
      rw [Function.update_self]
      cases hnew with
      | waiting hnot => exact absurd (List.mem_singleton_self j) hnot
      | calling hnot => exact absurd (List.mem_singleton_self j) hnot
      | answered op resume a htask hmem =>
          exact .answered op resume a htask (List.mem_append_right _ hmem)
      | ended out hmem => exact .ended out (List.mem_append_right _ hmem)
    · dsimp only
      rw [Function.update_of_ne hji]
      exact (h.stands j).append hji

/-- A worker that takes no effect moves its own phase only. -/
theorem Serial.move (h : Serial W s c) {phase : Phase Ans Out}
    (hnew : Stands (W.task i) i (W.serially c.order s).1 phase) :
    Serial W s ⟨Function.update c.phase i phase, c.state, c.order⟩ := by
  refine ⟨h.nodup, h.state, fun j => ?_⟩
  by_cases hji : j = i
  · subst hji
    dsimp only
    rwa [Function.update_self]
  · dsimp only
    rw [Function.update_of_ne hji]
    exact h.stands j

theorem Serial.step (h : Serial W s c) (i : ι) : Serial W s (W.step c i) := by
  have hsteps := steps_step W c i
  generalize W.step c i = c' at hsteps ⊢
  cases hsteps with
  | ends out htask hphase =>
      have hnext := h.effect (.inl hphase) (.ended out)
        (.ended out (by rw [htask]; exact List.mem_singleton_self _))
      rwa [htask] at hnext
  | enters op resume htask hphase =>
      refine h.move (.calling ?_)
      rw [serially_workers]
      exact h.notMem_order (.inl hphase)
  | calls op resume htask hphase =>
      have hnext := h.effect (.inr hphase) (.answered (W.serve op c.state).1)
        (.answered op resume _ htask (by rw [htask]; exact List.mem_singleton_self _))
      rwa [htask] at hnext
  | resumes op resume a htask hphase =>
      have hstands := h.stands i
      rw [hphase] at hstands
      cases hstands with
      | answered op' resume' a htask' hmem =>
          cases htask.symm.trans htask'
          exact h.move (.ended _ hmem)
  | rests _ => exact h

theorem serial_run (W : Pool ι Op Ans Out σ) (schedule : List ι) (s : σ) :
    Serial W s (W.run schedule s) := by
  induction schedule using List.reverseRecOn with
  | nil => exact serial_start W s
  | append_singleton schedule i ih =>
      rw [run_concat]
      exact ih.step i

/-- What a worker ends with, and the state, are those of the serial run. -/
theorem ended_serially {out : Out} (h : (W.run schedule s).phase i = .ended out) :
    (i, out) ∈ (W.serially (W.run schedule s).order s).1 := by
  have hstands := (serial_run W schedule s).stands i
  rw [h] at hstands
  cases hstands with
  | ended out hmem => exact hmem

end Pool

end Workers

import Mathlib.Data.List.Basic
import Mathlib.Tactic

/-!
# Programs with a state and raised errors

A program reads and rewrites a state and then returns or raises.  What it did
to the state before raising stays done, which is how a method of a mutable
object behaves.  The loop `mapAccum` carries an accumulator through a list,
and its `visits` record the configuration in front of every iteration, so that
statements about a whole run become statements about a list.
-/

/-- A program over the state `σ` that returns an `α` or raises an `ε`. -/
def Prog (ε σ α : Type) := σ → Except ε α × σ

namespace Prog

variable {ε ε₁ ε₂ σ σ₁ σ₂ α β γ δ ν α₁ α₂ β₁ β₂ γ₁ γ₂ δ₁ δ₂ : Type}

instance : Monad (Prog ε σ) where
  pure a := fun s => (.ok a, s)
  bind x f := fun s =>
    match x s with
    | (.ok a, t) => f a t
    | (.error e, t) => (.error e, t)

def raise (e : ε) : Prog ε σ α := fun s => (.error e, s)

def lift (x : Except ε α) : Prog ε σ α := fun s => (x, s)

def attempt (x : Prog ε σ α) : Prog ε σ (Except ε α) := fun s => (.ok (x s).1, (x s).2)

@[simp] theorem pure_apply (a : α) (s : σ) : (pure a : Prog ε σ α) s = (.ok a, s) := rfl

@[simp] theorem raise_apply (e : ε) (s : σ) : (raise e : Prog ε σ α) s = (.error e, s) := rfl

@[simp] theorem lift_apply (x : Except ε α) (s : σ) : (lift x : Prog ε σ α) s = (x, s) := rfl

@[simp] theorem attempt_apply (x : Prog ε σ α) (s : σ) :
    attempt x s = (.ok (x s).1, (x s).2) := rfl

theorem bind_apply (x : Prog ε σ α) (f : α → Prog ε σ β) (s : σ) :
    (x >>= f) s = match x s with
      | (.ok a, t) => f a t
      | (.error e, t) => (.error e, t) := rfl

@[simp] theorem lift_ok_bind (a : α) (f : α → Prog ε σ β) : (lift (.ok a) >>= f) = f a := rfl

@[simp] theorem lift_error_bind (e : ε) (f : α → Prog ε σ β) :
    (lift (.error e) >>= f) = raise e := rfl

@[simp] theorem pure_bind' (a : α) (f : α → Prog ε σ β) : (pure a >>= f) = f a := rfl

theorem bind_of_ok {x : Prog ε σ α} {f : α → Prog ε σ β} {s t : σ} {a : α}
    (h : x s = (.ok a, t)) : (x >>= f) s = f a t := by rw [bind_apply, h]

theorem bind_of_error {x : Prog ε σ α} {f : α → Prog ε σ β} {s t : σ} {e : ε}
    (h : x s = (.error e, t)) : (x >>= f) s = (.error e, t) := by rw [bind_apply, h]

theorem bind_eq_ok_iff {x : Prog ε σ α} {f : α → Prog ε σ β} {s u : σ} {b : β} :
    (x >>= f) s = (.ok b, u) ↔ ∃ a t, x s = (.ok a, t) ∧ f a t = (.ok b, u) := by
  rw [bind_apply]
  rcases hx : x s with ⟨_ | a, t⟩
  · simp
  · simp

theorem bind_pure_state (x : Prog ε σ α) (f : α → β) (s : σ) :
    (x >>= fun a => pure (f a)) s = ((x s).1.map f, (x s).2) := by
  rw [bind_apply]
  rcases x s with ⟨_ | a, t⟩ <;> rfl

theorem lift_bind_eq_ok_iff {x : Except ε α} {f : α → Prog ε σ β} {s u : σ} {b : β} :
    (lift x >>= f) s = (.ok b, u) ↔ ∃ a, x = .ok a ∧ f a s = (.ok b, u) := by
  cases x <;> simp

/-! ## Frames -/

/-- The program moves the state along `Q`, whether it returns or raises. -/
def Within (Q : σ → σ → Prop) (x : Prog ε σ α) : Prop := ∀ s, Q s (x s).2

theorem within_pure {Q : σ → σ → Prop} (hrefl : ∀ s, Q s s) (a : α) :
    Within Q (pure a : Prog ε σ α) := hrefl

theorem within_raise {Q : σ → σ → Prop} (hrefl : ∀ s, Q s s) (e : ε) :
    Within Q (raise e : Prog ε σ α) := hrefl

theorem Within.bind {Q : σ → σ → Prop} (htrans : ∀ s t u, Q s t → Q t u → Q s u)
    {x : Prog ε σ α} {f : α → Prog ε σ β} (hx : Within Q x) (hf : ∀ a, Within Q (f a)) :
    Within Q (x >>= f) := by
  intro s
  have hxs := hx s
  rw [bind_apply]
  rcases h : x s with ⟨_ | a, t⟩
  · rwa [h] at hxs
  · rw [h] at hxs
    exact htrans _ _ _ hxs (hf a t)

theorem Within.lift_bind {Q : σ → σ → Prop} (hrefl : ∀ s, Q s s) {x : Except ε α}
    {f : α → Prog ε σ β} (hf : ∀ a, x = .ok a → Within Q (f a)) : Within Q (lift x >>= f) := by
  cases x with
  | error e => exact within_raise hrefl e
  | ok a => exact hf a rfl

/-! ## Errors -/

/-- What the computation raises, if it raises, satisfies `E`. -/
def Throws (E : ε → Prop) (x : Except ε α) : Prop := ∀ e, x = .error e → E e

theorem throws_ok (E : ε → Prop) (a : α) : Throws E (.ok a) := by rintro e ⟨⟩

theorem throws_error {E : ε → Prop} {e : ε} (h : E e) : Throws E (.error e : Except ε α) := by
  rintro e' ⟨⟩
  exact h

theorem Throws.bind {E : ε → Prop} {x : Except ε α} {f : α → Except ε β} (hx : Throws E x)
    (hf : ∀ a, Throws E (f a)) : Throws E (x >>= f) := by
  cases x with
  | error e => exact throws_error (hx e rfl)
  | ok a => exact hf a

/-- What the program raises, from whichever state, satisfies `E`. -/
def Raises (E : ε → Prop) (x : Prog ε σ α) : Prop := ∀ s, Throws E (x s).1

theorem raises_pure (E : ε → Prop) (a : α) : Raises E (pure a : Prog ε σ α) :=
  fun _ => throws_ok E a

theorem raises_lift {E : ε → Prop} {x : Except ε α} (h : Throws E x) :
    Raises E (lift x : Prog ε σ α) := fun _ => h

theorem Raises.bind {E : ε → Prop} {x : Prog ε σ α} {f : α → Prog ε σ β} (hx : Raises E x)
    (hf : ∀ a, Raises E (f a)) : Raises E (x >>= f) := by
  intro s
  have hxs := hx s
  rw [bind_apply]
  rcases h : x s with ⟨e | a, t⟩
  · rw [h] at hxs
    exact throws_error (hxs e rfl)
  · exact hf a t

/-! ## Simulation -/

/-- From related states the two programs give the same result and end in
related states. -/
def Sim (R : σ₁ → σ₂ → Prop) (x : Prog ε σ₁ α) (y : Prog ε σ₂ α) : Prop :=
  ∀ s t, R s t → (x s).1 = (y t).1 ∧ R (x s).2 (y t).2

theorem sim_pure (R : σ₁ → σ₂ → Prop) (a : α) :
    Sim R (pure a : Prog ε σ₁ α) (pure a) := fun _ _ h => ⟨rfl, h⟩

theorem sim_raise (R : σ₁ → σ₂ → Prop) (e : ε) :
    Sim R (raise e : Prog ε σ₁ α) (raise e) := fun _ _ h => ⟨rfl, h⟩

theorem Sim.bind {R : σ₁ → σ₂ → Prop} {x : Prog ε σ₁ α} {y : Prog ε σ₂ α}
    {f : α → Prog ε σ₁ β} {g : α → Prog ε σ₂ β}
    (hxy : Sim R x y) (hfg : ∀ a, Sim R (f a) (g a)) : Sim R (x >>= f) (y >>= g) := by
  intro s t hst
  obtain ⟨hres, hnext⟩ := hxy s t hst
  rw [bind_apply, bind_apply]
  rcases hx : x s with ⟨r, s'⟩
  rcases hy : y t with ⟨q, t'⟩
  rw [hx, hy] at hres hnext
  obtain rfl : r = q := hres
  cases r with
  | error e => exact ⟨rfl, hnext⟩
  | ok a => exact hfg a s' t' hnext

theorem Sim.lift_bind {R : σ₁ → σ₂ → Prop} {x : Except ε α} {f : α → Prog ε σ₁ β}
    {g : α → Prog ε σ₂ β} (hfg : ∀ a, x = .ok a → Sim R (f a) (g a)) :
    Sim R (lift x >>= f) (lift x >>= g) := by
  cases x with
  | error e => exact sim_raise R e
  | ok a => exact hfg a rfl

theorem Sim.within {R : σ → σ → Prop} {P : σ → Prop} {x : Prog ε σ α} (h : Sim R x x)
    (hx : Within (fun s t => P s → P t) x) : Sim (fun s t => R s t ∧ P s ∧ P t) x x := by
  rintro s t ⟨hR, hs, ht⟩
  obtain ⟨hres, hnext⟩ := h s t hR
  exact ⟨hres, hnext, hx s hs, hx t ht⟩

/-! ## The accumulating loop -/

/-- `for c in cs`: run `step` on every element, carrying the accumulator and
collecting what each iteration emits. -/
def mapAccum (step : β → γ → Prog ε σ (β × δ)) : β → List γ → Prog ε σ (List δ)
  | _, [] => pure []
  | b, c :: cs => do
      let (b', d) ← step b c
      let ds ← mapAccum step b' cs
      pure (d :: ds)

/-- The loop variables, the element and the state with which an iteration
starts, and the elements in front of it. -/
structure Visit (β γ σ : Type) where
  acc : β
  done : List γ
  item : γ
  state : σ

/-- The configurations the loop passes through; none follows a raise. -/
def visits (step : β → γ → Prog ε σ (β × δ)) : β → List γ → List γ → σ → List (Visit β γ σ)
  | _, _, [], _ => []
  | b, done, c :: cs, s =>
      ⟨b, done, c, s⟩ ::
        match step b c s with
        | (.ok (b', _), t) => visits step b' (done ++ [c]) cs t
        | (.error _, _) => []

section Loop

variable {step : β → γ → Prog ε σ (β × δ)} {b : β} {c : γ} {done cs : List γ} {s : σ}

theorem mapAccum_cons_of_ok {b' : β} {d : δ} {t : σ} (h : step b c s = (.ok (b', d), t)) :
    mapAccum step b (c :: cs) s = (do let ds ← mapAccum step b' cs; pure (d :: ds)) t := by
  rw [mapAccum, bind_of_ok h]

theorem mapAccum_cons_of_error {e : ε} {t : σ} (h : step b c s = (.error e, t)) :
    mapAccum step b (c :: cs) s = (.error e, t) := by
  rw [mapAccum, bind_of_error h]

theorem visits_cons_of_ok {b' : β} {d : δ} {t : σ} (h : step b c s = (.ok (b', d), t)) :
    visits step b done (c :: cs) s = ⟨b, done, c, s⟩ :: visits step b' (done ++ [c]) cs t := by
  rw [visits, h]

theorem visits_cons_of_error {e : ε} {t : σ} (h : step b c s = (.error e, t)) :
    visits step b done (c :: cs) s = [⟨b, done, c, s⟩] := by
  rw [visits, h]

theorem sim_mapAccum {R : σ₁ → σ₂ → Prop} {step₁ : β → γ → Prog ε σ₁ (β × δ)}
    {step₂ : β → γ → Prog ε σ₂ (β × δ)} (h : ∀ b c, Sim R (step₁ b c) (step₂ b c)) :
    Sim R (mapAccum step₁ b cs) (mapAccum step₂ b cs) := by
  induction cs generalizing b with
  | nil => exact sim_pure R _
  | cons c cs ih => exact (h b c).bind fun _ => ih.bind fun _ => sim_pure R _

def Visit.emits (step : β → γ → Prog ε σ (β × δ)) (v : Visit β γ σ) : Option δ :=
  match (step v.acc v.item v.state).1 with
  | .ok (_, d) => some d
  | .error _ => none

/-- A loop that returns has visited every element, and returns what the
iterations emitted, in order. -/
theorem mapAccum_ok_visits (done : List γ) {ds : List δ} {t : σ}
    (h : mapAccum step b cs s = (.ok ds, t)) :
    (visits step b done cs s).map (Visit.emits step) = ds.map some := by
  induction cs generalizing b done s ds t with
  | nil =>
      obtain ⟨hds, -⟩ := Prod.mk.inj h
      cases Except.ok.inj hds
      rfl
  | cons c cs ih =>
      rcases hstep : step b c s with ⟨_ | ⟨b', d⟩, u⟩
      · rw [mapAccum_cons_of_error hstep] at h
        cases h
      · rw [mapAccum_cons_of_ok hstep] at h
        obtain ⟨ds', u', hloop, hpure⟩ := bind_eq_ok_iff.mp h
        obtain ⟨hds, -⟩ := Prod.mk.inj hpure
        cases Except.ok.inj hds
        rw [visits_cons_of_ok hstep, List.map_cons, List.map_cons, ih (done ++ [c]) hloop]
        simp [Visit.emits, hstep]

theorem mapAccum_ok_items (done : List γ) {ds : List δ} {t : σ}
    (h : mapAccum step b cs s = (.ok ds, t)) :
    (visits step b done cs s).map Visit.item = cs := by
  induction cs generalizing b done s ds t with
  | nil => rfl
  | cons c cs ih =>
      rcases hstep : step b c s with ⟨_ | ⟨b', d⟩, u⟩
      · rw [mapAccum_cons_of_error hstep] at h
        cases h
      · rw [mapAccum_cons_of_ok hstep] at h
        obtain ⟨ds', u', hloop, -⟩ := bind_eq_ok_iff.mp h
        rw [visits_cons_of_ok hstep, List.map_cons, ih (done ++ [c]) hloop]

theorem visits_done {v : Visit β γ σ} (hv : v ∈ visits step b done cs s) :
    ∃ rest, done ++ cs = v.done ++ v.item :: rest := by
  induction cs generalizing b done s with
  | nil => simp [visits] at hv
  | cons c cs ih =>
      rw [visits, List.mem_cons] at hv
      rcases hv with rfl | hv
      · exact ⟨cs, rfl⟩
      · rcases hstep : step b c s with ⟨_ | ⟨b', d⟩, u⟩
        · simp [hstep] at hv
        · rw [hstep] at hv
          obtain ⟨rest, hrest⟩ := ih hv
          exact ⟨rest, by simpa using hrest⟩

/-- The rule for loop variables.  What relates the variables to the visits made
so far, and is kept by each iteration, holds in front of every visit. -/
theorem visits_invariant (Inv : List (Visit β γ σ) → β → Prop) (hist : List (Visit β γ σ))
    (h₀ : Inv hist b)
    (hstep : ∀ hist v b' d t, Inv hist v.acc → step v.acc v.item v.state = (.ok (b', d), t) →
      Inv (hist ++ [v]) b') :
    ∀ pre v post, visits step b done cs s = pre ++ v :: post → Inv (hist ++ pre) v.acc := by
  induction cs generalizing b done s hist with
  | nil => intro pre v post h; simp [visits] at h
  | cons c cs ih =>
      intro pre v post h
      rw [visits] at h
      cases pre with
      | nil =>
          obtain ⟨rfl, -⟩ := List.cons.inj h
          simpa using h₀
      | cons u pre =>
          obtain ⟨rfl, hrest⟩ := List.cons.inj h
          rcases hs : step b c s with ⟨_ | ⟨b', d⟩, t⟩
          · simp [hs] at hrest
          · rw [hs] at hrest
            have hnext : Inv (hist ++ [⟨b, done, c, s⟩]) b' :=
              hstep hist ⟨b, done, c, s⟩ b' d t h₀ hs
            simpa using ih _ hnext pre v post hrest

theorem visits_done_eq {pre post : List (Visit β γ σ)} {v : Visit β γ σ}
    (h : visits step b done cs s = pre ++ v :: post) : v.done = done ++ pre.map Visit.item := by
  induction cs generalizing b done s pre with
  | nil => simp [visits] at h
  | cons c cs ih =>
      rw [visits] at h
      cases pre with
      | nil =>
          obtain ⟨rfl, -⟩ := List.cons.inj h
          simp
      | cons u pre =>
          obtain ⟨rfl, hrest⟩ := List.cons.inj h
          rcases hs : step b c s with ⟨_ | ⟨b', d⟩, t⟩
          · simp [hs] at hrest
          · rw [hs] at hrest
            simpa using ih hrest

theorem visits_earlier_done {pre post : List (Visit β γ σ)} {u v : Visit β γ σ}
    (h : visits step b [] cs s = pre ++ v :: post) (hu : u ∈ pre) :
    u.done ++ [u.item] <+: v.done := by
  obtain ⟨before, between, rfl⟩ := List.append_of_mem hu
  have hv := visits_done_eq h
  have hsplit : visits step b [] cs s = before ++ u :: (between ++ v :: post) := by simpa using h
  have hu' := visits_done_eq hsplit
  exact ⟨between.map Visit.item, by simp [hv, hu']⟩

/-- Every element that a visit counts as done was visited before it. -/
theorem exists_earlier_visit {pre post : List (Visit β γ σ)} {v : Visit β γ σ} {q : List γ} {c' : γ}
    (h : visits step b [] cs s = pre ++ v :: post) (hq : q ++ [c'] <+: v.done) :
    ∃ u ∈ pre, u.done = q ∧ u.item = c' := by
  have hdone : v.done = pre.map Visit.item := by simpa using visits_done_eq h
  obtain ⟨r, hr⟩ := hq
  rw [hdone, List.append_assoc] at hr
  obtain ⟨before, rest, rfl, rfl, hrest⟩ := List.map_eq_append_iff.mp hr.symm
  obtain ⟨u, between, rfl, hitem, -⟩ := List.map_eq_cons_iff.mp hrest
  have hsplit : visits step b [] cs s = before ++ u :: (between ++ v :: post) := by simpa using h
  exact ⟨u, by simp, by simpa using visits_done_eq hsplit, hitem⟩

theorem visits_emits_of_mem {pre post : List (Visit β γ σ)} {u v : Visit β γ σ}
    (h : visits step b done cs s = pre ++ v :: post) (hu : u ∈ pre) :
    ∃ d, u.emits step = some d := by
  induction cs generalizing b done s pre with
  | nil => simp [visits] at h
  | cons c cs ih =>
      rw [visits] at h
      cases pre with
      | nil => simp at hu
      | cons w pre =>
          obtain ⟨rfl, hrest⟩ := List.cons.inj h
          rcases hs : step b c s with ⟨_ | ⟨b', d⟩, t⟩
          · simp [hs] at hrest
          · rw [hs] at hrest
            rcases List.mem_cons.mp hu with rfl | hu
            · exact ⟨d, by simp [Visit.emits, hs]⟩
            · exact ih hrest hu

theorem exists_next_visit {v : Visit β γ σ} (c' : γ) (rest : List γ) {d : δ}
    (hv : v ∈ visits step b done cs s) (hemits : v.emits step = some d)
    (hcs : done ++ cs = v.done ++ v.item :: c' :: rest) :
    ∃ w ∈ visits step b done cs s, w.done = v.done ++ [v.item] ∧ w.item = c' := by
  induction cs generalizing b done s with
  | nil => simp [visits] at hv
  | cons c cs ih =>
      rw [visits] at hv ⊢
      rcases List.mem_cons.mp hv with rfl | hv
      · have htail : cs = c' :: rest := by simpa using hcs
        subst htail
        rcases hs : step b c s with ⟨_ | ⟨b', d'⟩, t⟩
        · simp [Visit.emits, hs] at hemits
        · exact ⟨⟨b', done ++ [c], c', t⟩, by simp [visits], rfl, rfl⟩
      · rcases hs : step b c s with ⟨_ | ⟨b', d'⟩, t⟩
        · simp [hs] at hv
        · simp only [hs] at hv
          obtain ⟨w, hw, hdone⟩ := ih hv (by simpa using hcs)
          exact ⟨w, List.mem_cons_of_mem _ hw, hdone⟩

/-- A loop raises what one of its visits raises. -/
theorem mapAccum_error_iff (done : List γ) {e : ε} :
    (mapAccum step b cs s).1 = .error e ↔
      ∃ v ∈ visits step b done cs s, (step v.acc v.item v.state).1 = .error e := by
  induction cs generalizing b done s with
  | nil => simp [mapAccum, visits]
  | cons c cs ih =>
      rcases hstep : step b c s with ⟨e' | ⟨b', d⟩, t⟩
      · rw [mapAccum_cons_of_error hstep, visits_cons_of_error hstep]
        simp [hstep]
      · rw [mapAccum_cons_of_ok hstep, visits_cons_of_ok hstep, bind_pure_state,
          List.exists_mem_cons_iff, ← ih (done ++ [c])]
        simp only [hstep, reduceCtorEq, false_or]
        cases (mapAccum step b' cs t).1 <;> simp [Except.map]

/-- Where every iteration that returns is one of another loop, that loop returns
the same. -/
theorem mapAccum_of_ok {step' : β → γ → Prog ε σ (β × δ)}
    (h : ∀ b c s x t, step b c s = (.ok x, t) → step' b c s = (.ok x, t)) {ds : List δ} {t : σ}
    (hloop : mapAccum step b cs s = (.ok ds, t)) : mapAccum step' b cs s = (.ok ds, t) := by
  induction cs generalizing b s ds t with
  | nil => exact hloop
  | cons c cs ih =>
      rcases hstep : step b c s with ⟨e | ⟨b', d⟩, u⟩
      · rw [mapAccum_cons_of_error hstep] at hloop
        cases hloop
      · rw [mapAccum_cons_of_ok hstep] at hloop
        obtain ⟨ds', u', hrest, hpure⟩ := bind_eq_ok_iff.mp hloop
        rw [mapAccum_cons_of_ok (h _ _ _ _ _ hstep), bind_of_ok (ih hrest)]
        exact hpure

end Loop

/-! ## Simulation up to a relation of results -/

/-- Both return, related values, or both raise, related errors. -/
inductive ExceptRel (E : ε₁ → ε₂ → Prop) (V : α₁ → α₂ → Prop) :
    Except ε₁ α₁ → Except ε₂ α₂ → Prop
  | ok {a b} : V a b → ExceptRel E V (.ok a) (.ok b)
  | error {e e'} : E e e' → ExceptRel E V (.error e) (.error e')

/-- From related states the two programs give related results and end in related
states. -/
def Relates (R : σ₁ → σ₂ → Prop) (E : ε₁ → ε₂ → Prop) (V : α₁ → α₂ → Prop) (x : Prog ε₁ σ₁ α₁)
    (y : Prog ε₂ σ₂ α₂) : Prop :=
  ∀ s t, R s t → ExceptRel E V (x s).1 (y t).1 ∧ R (x s).2 (y t).2

section Relates

variable {R : σ₁ → σ₂ → Prop} {E : ε₁ → ε₂ → Prop} {V : α₁ → α₂ → Prop} {W : β₁ → β₂ → Prop}
  {x : Prog ε₁ σ₁ α₁} {y : Prog ε₂ σ₂ α₂}

theorem relates_pure {a : α₁} {b : α₂} (h : V a b) :
    Relates R E V (pure a : Prog ε₁ σ₁ α₁) (pure b : Prog ε₂ σ₂ α₂) :=
  fun _ _ hst => ⟨.ok h, hst⟩

theorem relates_raise {e : ε₁} {e' : ε₂} (h : E e e') :
    Relates R E V (raise e : Prog ε₁ σ₁ α₁) (raise e' : Prog ε₂ σ₂ α₂) :=
  fun _ _ hst => ⟨.error h, hst⟩

theorem Relates.bind (h : Relates R E V x y) {f : α₁ → Prog ε₁ σ₁ β₁} {g : α₂ → Prog ε₂ σ₂ β₂}
    (hfg : ∀ a b, V a b → Relates R E W (f a) (g b)) : Relates R E W (x >>= f) (y >>= g) := by
  intro s t hst
  obtain ⟨hres, hnext⟩ := h s t hst
  rw [bind_apply, bind_apply]
  rcases hx : x s with ⟨r, s'⟩
  rcases hy : y t with ⟨q, t'⟩
  rw [hx, hy] at hres hnext
  cases hres with
  | ok hab => exact hfg _ _ hab s' t' hnext
  | error he => exact ⟨.error he, hnext⟩

theorem exceptRel_refl {E : ε → ε → Prop} {V : α → α → Prop} (hE : ∀ e, E e e)
    (hV : ∀ a, V a a) (r : Except ε α) : ExceptRel E V r r := by
  cases r with
  | error e => exact .error (hE e)
  | ok a => exact .ok (hV a)

theorem ExceptRel.imp {E : ε₁ → ε₂ → Prop} {V V' : α₁ → α₂ → Prop} {p : Except ε₁ α₁}
    {q : Except ε₂ α₂} (h : ExceptRel E V p q) (hV : ∀ {a b}, V a b → V' a b) :
    ExceptRel E V' p q := by
  cases h with
  | ok hab => exact .ok (hV hab)
  | error he => exact .error he

theorem ExceptRel.bind {E : ε₁ → ε₂ → Prop} {V : α₁ → α₂ → Prop} {W : β₁ → β₂ → Prop}
    {p : Except ε₁ α₁} {q : Except ε₂ α₂} (h : ExceptRel E V p q) {f : α₁ → Except ε₁ β₁}
    {g : α₂ → Except ε₂ β₂} (hfg : ∀ a b, V a b → ExceptRel E W (f a) (g b)) :
    ExceptRel E W (p >>= f) (q >>= g) := by
  cases h with
  | ok hab => exact hfg _ _ hab
  | error he => exact .error he

theorem ExceptRel.map {E : ε₁ → ε₂ → Prop} {V : α₁ → α₂ → Prop} {W : β₁ → β₂ → Prop}
    {p : Except ε₁ α₁} {q : Except ε₂ α₂} (h : ExceptRel E V p q) {f : α₁ → β₁} {g : α₂ → β₂}
    (hfg : ∀ a b, V a b → W (f a) (g b)) : ExceptRel E W (p.map f) (q.map g) := by
  cases h with
  | ok hab => exact .ok (hfg _ _ hab)
  | error he => exact .error he

theorem relates_refl {E : ε → ε → Prop} (hE : ∀ e, E e e) (z : Prog ε σ α) :
    Relates Eq E Eq z z := by
  rintro s _ rfl
  exact ⟨exceptRel_refl hE (fun _ => rfl) _, rfl⟩

/-- A program that keeps `P` is related to itself on states with `P`. -/
theorem Within.relates {P : σ → Prop} {E : ε → ε → Prop} {V : α → α → Prop} {z : Prog ε σ α}
    (h : Within (fun s t => P s → P t) z) (hE : ∀ e, E e e) (hV : ∀ a, V a a) :
    Relates (fun s t => s = t ∧ P s) E V z z := by
  rintro s _ ⟨rfl, hs⟩
  exact ⟨exceptRel_refl hE hV _, rfl, h s hs⟩

theorem relates_lift {p : Except ε₁ α₁} {q : Except ε₂ α₂} (h : ExceptRel E V p q) :
    Relates R E V (lift p : Prog ε₁ σ₁ α₁) (lift q : Prog ε₂ σ₂ α₂) :=
  fun _ _ hst => ⟨h, hst⟩

theorem Relates.attempt (h : Relates R E V x y) {E' : ε₁ → ε₂ → Prop} :
    Relates R E' (ExceptRel E V) (attempt x) (attempt y) :=
  fun s t hst => ⟨.ok (h s t hst).1, (h s t hst).2⟩

/-- The loop rule: an iteration relates the accumulators, and what the two loops
emit is related element by element. -/
theorem relates_mapAccum {B : β₁ → β₂ → Prop} {C : γ₁ → γ₂ → Prop} {D : δ₁ → δ₂ → Prop}
    {step₁ : β₁ → γ₁ → Prog ε₁ σ₁ (β₁ × δ₁)} {step₂ : β₂ → γ₂ → Prog ε₂ σ₂ (β₂ × δ₂)}
    (hstep : ∀ b b' c c', B b b' → C c c' →
      Relates R E (fun p q => B p.1 q.1 ∧ D p.2 q.2) (step₁ b c) (step₂ b' c'))
    {cs : List γ₁} {cs' : List γ₂} (hcs : List.Forall₂ C cs cs') {b : β₁} {b' : β₂} (hb : B b b') :
    Relates R E (List.Forall₂ D) (mapAccum step₁ b cs) (mapAccum step₂ b' cs') := by
  induction hcs generalizing b b' with
  | nil => exact relates_pure .nil
  | cons hc _ ih =>
      refine (hstep _ _ _ _ hb hc).bind fun p q hpq => ?_
      exact (ih hpq.1).bind fun ds ds' hds => relates_pure (.cons hpq.2 hds)

end Relates

/-! ## Chains of configurations -/

/-- Each configuration starts in the state the one before it left. -/
def Chained (before after : ν → σ) : σ → List ν → σ → Prop
  | s, [], t => s = t
  | s, v :: vs, t => before v = s ∧ Chained before after (after v) vs t

theorem Chained.append {before after : ν → σ} {s t u : σ} {vs ws : List ν}
    (h₁ : Chained before after s vs t) (h₂ : Chained before after t ws u) :
    Chained before after s (vs ++ ws) u := by
  induction vs generalizing s with
  | nil => cases h₁; exact h₂
  | cons v vs ih => exact ⟨h₁.1, ih h₁.2⟩

theorem Chained.map {ν' : Type} {before after : ν → σ} (before' after' : ν' → σ) (f : ν → ν')
    (hb : ∀ v, before' (f v) = before v) (ha : ∀ v, after' (f v) = after v)
    {s t : σ} {vs : List ν} (h : Chained before after s vs t) :
    Chained before' after' s (vs.map f) t := by
  induction vs generalizing s with
  | nil => exact h
  | cons v vs ih => exact ⟨(hb v).trans h.1, by rw [ha]; exact ih h.2⟩

/-- What holds of the empty history and survives every configuration holds in
front of each of them, with respect to the history so far. -/
theorem Chained.invariant {before after : ν → σ} (Inv : List ν → σ → Prop) (hist : List ν)
    {vs : List ν} {s t : σ} (h : Chained before after s vs t) (h₀ : Inv hist s)
    (hstep : ∀ pre v post, vs = pre ++ v :: post → Inv (hist ++ pre) (before v) →
      Inv (hist ++ pre ++ [v]) (after v)) :
    Inv (hist ++ vs) t ∧
      ∀ pre v post, vs = pre ++ v :: post → Inv (hist ++ pre) (before v) := by
  induction vs generalizing hist s with
  | nil =>
      cases h
      exact ⟨by simpa using h₀, fun pre v post hvs => by simp at hvs⟩
  | cons w vs ih =>
      obtain ⟨hw, hrest⟩ := h
      have hfirst : Inv (hist ++ [w]) (after w) := by
        simpa using hstep [] w vs rfl (by simpa [hw] using h₀)
      obtain ⟨hend, hall⟩ := ih _ hrest hfirst (fun pre v post hvs hinv => by
        simpa using hstep (w :: pre) v post (by simp [hvs]) (by simpa using hinv))
      refine ⟨by simpa using hend, fun pre v post hvs => ?_⟩
      cases pre with
      | nil =>
          obtain ⟨rfl, -⟩ := List.cons.inj hvs
          simpa [hw] using h₀
      | cons x pre =>
          obtain ⟨rfl, hvs'⟩ := List.cons.inj hvs
          simpa using hall pre v post hvs'

def Visit.after (step : β → γ → Prog ε σ (β × δ)) (v : Visit β γ σ) : σ :=
  (step v.acc v.item v.state).2

theorem chained_visits (step : β → γ → Prog ε σ (β × δ)) (b : β) (done cs : List γ) (s : σ) :
    Chained Visit.state (Visit.after step) s (visits step b done cs s)
      (mapAccum step b cs s).2 := by
  induction cs generalizing b done s with
  | nil => rfl
  | cons c cs ih =>
      rcases hstep : step b c s with ⟨_ | ⟨b', d⟩, u⟩
      · rw [visits_cons_of_error hstep, mapAccum_cons_of_error hstep]
        exact ⟨rfl, by simp [Chained, Visit.after, hstep]⟩
      · rw [visits_cons_of_ok hstep, mapAccum_cons_of_ok hstep]
        refine ⟨rfl, ?_⟩
        rw [bind_pure_state]
        simpa [Visit.after, hstep] using ih b' (done ++ [c]) u

/-! ## Sessions -/

/-- Run a program for each request; one that raises does not stop the next. -/
def session (f : γ → Prog ε σ α) : List γ → σ → List (Except ε α) × σ
  | [], s => ([], s)
  | c :: cs, s => ((f c s).1 :: (session f cs (f c s).2).1, (session f cs (f c s).2).2)

@[simp] theorem session_nil (f : γ → Prog ε σ α) (s : σ) : session f [] s = ([], s) := rfl

@[simp] theorem session_cons_fst (f : γ → Prog ε σ α) (c : γ) (cs : List γ) (s : σ) :
    (session f (c :: cs) s).1 = (f c s).1 :: (session f cs (f c s).2).1 := rfl

@[simp] theorem session_cons_snd (f : γ → Prog ε σ α) (c : γ) (cs : List γ) (s : σ) :
    (session f (c :: cs) s).2 = (session f cs (f c s).2).2 := rfl

theorem session_append (f : γ → Prog ε σ α) (cs ds : List γ) (s : σ) :
    session f (cs ++ ds) s = ((session f cs s).1 ++ (session f ds (session f cs s).2).1,
      (session f ds (session f cs s).2).2) := by
  induction cs generalizing s with
  | nil => rfl
  | cons c cs ih => rw [List.cons_append, session, ih]; rfl

/-- The session rule: requests that correspond are answered alike, and leave states that
correspond. -/
theorem relates_session {R : σ₁ → σ₂ → Prop} {E : ε₁ → ε₂ → Prop} {V : α₁ → α₂ → Prop}
    {C : γ₁ → γ₂ → Prop} {f : γ₁ → Prog ε₁ σ₁ α₁} {g : γ₂ → Prog ε₂ σ₂ α₂}
    (h : ∀ c d, C c d → Relates R E V (f c) (g d)) {cs : List γ₁} {ds : List γ₂}
    (hcs : List.Forall₂ C cs ds) {s : σ₁} {t : σ₂} (hst : R s t) :
    List.Forall₂ (ExceptRel E V) (session f cs s).1 (session g ds t).1 ∧
      R (session f cs s).2 (session g ds t).2 := by
  induction hcs generalizing s t with
  | nil => exact ⟨.nil, hst⟩
  | cons hc _ ih =>
      obtain ⟨hres, hnext⟩ := h _ _ hc s t hst
      obtain ⟨hrest, hend⟩ := ih hnext
      exact ⟨.cons hres hrest, hend⟩

@[simp] theorem length_session (f : γ → Prog ε σ α) (cs : List γ) (s : σ) :
    (session f cs s).1.length = cs.length := by
  induction cs generalizing s with
  | nil => rfl
  | cons c cs ih => simp [ih]

end Prog

import Mathlib.Data.Finmap
import Mathlib.Order.Basic
import Mathlib.Tactic

/-!
# Stores whose entries expire

A keyed store in which an entry may carry a deadline.  A read at or past the
deadline finds nothing and drops the entry; it never moves the deadline.  What
later reads can find is the eligible part of the store, and it is determined
by the last write under each key: reads leave no trace in it.
-/

namespace ExpiringStore

variable {κ τ ν : Type*} [DecidableEq κ] [LinearOrder τ]

abbrev Store (κ ν : Type*) := Finmap fun _ : κ => ν

/-- The deadline has been reached. -/
def Expired (deadline : Option τ) (now : τ) : Prop := ∃ d ∈ deadline, d ≤ now

instance (deadline : Option τ) (now : τ) : Decidable (Expired deadline now) :=
  match deadline with
  | none => .isFalse (by simp [Expired])
  | some d => decidable_of_iff (d ≤ now) (by simp [Expired])

@[simp] theorem not_expired_none (now : τ) : ¬ Expired (none : Option τ) now := by simp [Expired]

@[simp] theorem expired_some {d now : τ} : Expired (some d) now ↔ d ≤ now := by simp [Expired]

theorem Expired.mono {deadline : Option τ} {now later : τ} (h : Expired deadline now)
    (hle : now ≤ later) : Expired deadline later := by
  obtain ⟨d, hd, hdn⟩ := h
  exact ⟨d, hd, hdn.trans hle⟩

variable (deadline : ν → Option τ)

def read (k : κ) (now : τ) (s : Store κ ν) : Option ν × Store κ ν :=
  match s.lookup k with
  | none => (none, s)
  | some e => if Expired (deadline e) now then (none, s.erase k) else (some e, s)

def eligible (s : Store κ ν) (k : κ) (now : τ) : Option ν :=
  (s.lookup k).filter fun e => ¬ Expired (deadline e) now

variable {deadline} {s t u : Store κ ν} {k : κ} {now : τ} {e : ν}

theorem eligible_eq_some_iff :
    eligible deadline s k now = some e ↔ s.lookup k = some e ∧ ¬ Expired (deadline e) now := by
  simp [eligible, Option.filter_eq_some_iff]

@[simp] theorem read_fst (s : Store κ ν) (k : κ) (now : τ) :
    (read deadline k now s).1 = eligible deadline s k now := by
  unfold read eligible
  cases h : s.lookup k with
  | none => rfl
  | some e => by_cases he : Expired (deadline e) now <;> simp [he, Option.filter]

/-- `t` is `s` with some entries dropped, all of them expired at `now`. -/
def Prunes (deadline : ν → Option τ) (now : τ) (s t : Store κ ν) : Prop :=
  ∀ k, t.lookup k = s.lookup k ∨
    t.lookup k = none ∧ ∃ e, s.lookup k = some e ∧ Expired (deadline e) now

theorem Prunes.refl (s : Store κ ν) : Prunes deadline now s s := fun _ => .inl rfl

theorem Prunes.trans (h₁ : Prunes deadline now s t) (h₂ : Prunes deadline now t u) :
    Prunes deadline now s u := by
  intro k
  rcases h₂ k with h | ⟨h, e, he, hexp⟩
  · rw [h]
    exact h₁ k
  · rcases h₁ k with h' | ⟨h', -⟩
    · exact .inr ⟨h, e, h' ▸ he, hexp⟩
    · simp [h'] at he

theorem prunes_read (s : Store κ ν) (k : κ) (now : τ) :
    Prunes deadline now s (read deadline k now s).2 := by
  intro j
  unfold read
  cases h : s.lookup k with
  | none => exact .inl rfl
  | some e =>
      by_cases he : Expired (deadline e) now
      · by_cases hjk : j = k
        · subst hjk
          exact .inr ⟨by simp [he], e, h, he⟩
        · exact .inl (by simp [he, Finmap.lookup_erase_ne hjk])
      · exact .inl (by simp [he])

theorem Prunes.lookup_none (h : Prunes deadline now s t) (hs : s.lookup k = none) :
    t.lookup k = none := by
  rcases h k with h | ⟨h, -⟩
  · rwa [h]
  · exact h

theorem Prunes.mem (h : Prunes deadline now s t) (hk : k ∈ t) : k ∈ s := by
  by_contra hnot
  exact Finmap.lookup_eq_none.mp (h.lookup_none (Finmap.lookup_eq_none.mpr hnot)) hk

/-- Dropping expired entries changes nothing that a read from now on finds. -/
theorem Prunes.eligible_eq (h : Prunes deadline now s t) {later : τ} (hle : now ≤ later) :
    eligible deadline t k later = eligible deadline s k later := by
  rcases h k with h | ⟨h, e, he, hexp⟩
  · simp [eligible, h]
  · simp [eligible, h, he, Option.filter, hexp.mono hle]

theorem lookup_insert_self (s : Store κ ν) (k : κ) (e : ν) : (s.insert k e).lookup k = some e :=
  Finmap.lookup_insert s

theorem lookup_insert_ne (s : Store κ ν) {j k : κ} (h : j ≠ k) (e : ν) :
    (s.insert k e).lookup j = s.lookup j :=
  Finmap.lookup_insert_of_ne s h

def insertAll (key : ν → κ) : List ν → Store κ ν → Store κ ν
  | [], s => s
  | e :: es, s => insertAll key es (s.insert (key e) e)

/-- What the list leaves under a key does not depend on the store it came to,
except where it writes nothing. -/
theorem lookup_insertAll (key : ν → κ) (es : List ν) (s : Store κ ν) (k : κ) :
    (insertAll key es s).lookup k = ((insertAll key es ∅).lookup k).or (s.lookup k) := by
  induction es generalizing s with
  | nil => simp [insertAll]
  | cons e es ih =>
      rw [insertAll, insertAll, ih, ih (Finmap.insert (key e) e ∅)]
      by_cases hk : k = key e
      · subst hk
        simp
      · simp [lookup_insert_ne _ hk]

theorem mem_of_lookup_insertAll {key : ν → κ} {es : List ν} {k : κ} {e : ν}
    (h : (insertAll key es ∅).lookup k = some e) : e ∈ es ∧ key e = k := by
  induction es with
  | nil => simp [insertAll] at h
  | cons e' es ih =>
      rw [insertAll, lookup_insertAll, Option.or_eq_some_iff] at h
      rcases h with h | ⟨-, h⟩
      · obtain ⟨he, hk⟩ := ih h
        exact ⟨by simp [he], hk⟩
      · by_cases hk : k = key e'
        · subst hk
          rw [lookup_insert_self, Option.some.injEq] at h
          exact ⟨by simp [h], by rw [h]⟩
        · simp [lookup_insert_ne _ hk] at h

theorem exists_lookup_insertAll {key : ν → κ} {es : List ν} {e : ν} (h : e ∈ es) :
    ∃ e', (insertAll key es ∅).lookup (key e) = some e' := by
  induction es with
  | nil => simp at h
  | cons e' es ih =>
      rw [insertAll, lookup_insertAll]
      rcases List.mem_cons.mp h with rfl | h
      · cases (insertAll key es ∅).lookup (key e) with
        | none => exact ⟨e, by simp⟩
        | some e'' => exact ⟨e'', by simp⟩
      · obtain ⟨e'', he''⟩ := ih h
        exact ⟨e'', by simp [he'']⟩

/-! ## Keys that stay served -/

theorem eligible_none_mono (h : eligible deadline s k now = none) {later : τ} (hle : now ≤ later) :
    eligible deadline s k later = none := by
  by_contra hne
  obtain ⟨e, he⟩ := Option.ne_none_iff_exists'.mp hne
  obtain ⟨hk, hexp⟩ := eligible_eq_some_iff.mp he
  have hnow := eligible_eq_some_iff.mpr ⟨hk, fun hn => hexp (hn.mono hle)⟩
  cases h.symm.trans hnow

theorem eligible_insertAll_of_ne {key : ν → κ} {es : List ν} (h : ∀ e ∈ es, key e ≠ k) :
    eligible deadline (insertAll key es s) k now = eligible deadline s k now := by
  have hnone : (insertAll key es ∅).lookup k = none := by
    by_contra hne
    obtain ⟨e, he⟩ := Option.ne_none_iff_exists'.mp hne
    obtain ⟨hmem, hkey⟩ := mem_of_lookup_insertAll he
    exact h e hmem hkey
  rw [eligible, lookup_insertAll, hnone, Option.none_or]
  rfl

/-- A read of any of the keys finds something. -/
def Serves (deadline : ν → Option τ) (now : τ) (keys : κ → Prop) (s : Store κ ν) : Prop :=
  ∀ k, keys k → eligible deadline s k now ≠ none

namespace Serves

variable {keys : κ → Prop}

theorem prunes (h : Serves deadline now keys s) {earlier : τ} (hp : Prunes deadline earlier s t)
    (hle : earlier ≤ now) : Serves deadline now keys t := by
  intro k hk
  rw [hp.eligible_eq hle]
  exact h k hk

/-- Writing what has not expired keeps the keys served, and serves the written
ones as well. -/
theorem insertAll {key : ν → κ} {es : List ν} (h : Serves deadline now keys s)
    (hes : ∀ e ∈ es, ¬ Expired (deadline e) now) :
    Serves deadline now (fun k => keys k ∨ ∃ e ∈ es, key e = k) (insertAll key es s) := by
  intro k hk
  cases hw : (ExpiringStore.insertAll key es ∅).lookup k with
  | some e =>
      have hfound : eligible deadline (ExpiringStore.insertAll key es s) k now = some e := by
        rw [eligible_eq_some_iff, lookup_insertAll, hw]
        exact ⟨rfl, hes e (mem_of_lookup_insertAll hw).1⟩
      simp [hfound]
  | none =>
      have hne : ∀ e ∈ es, key e ≠ k := by
        rintro e he rfl
        obtain ⟨e', he'⟩ :
            ∃ e', (ExpiringStore.insertAll key es ∅).lookup (key e) = some e' :=
          exists_lookup_insertAll he
        cases hw.symm.trans he'
      rw [eligible_insertAll_of_ne hne]
      rcases hk with hk | ⟨e, he, hek⟩
      · exact h k hk
      · exact absurd hek (hne e he)

end Serves

/-! ## Stores that no read tells apart -/

/-- From `now` on every read finds the same in both. -/
def SameFrom (deadline : ν → Option τ) (now : τ) (s t : Store κ ν) : Prop :=
  ∀ k later, now ≤ later → eligible deadline s k later = eligible deadline t k later

namespace SameFrom

theorem refl (s : Store κ ν) : SameFrom deadline now s s := fun _ _ _ => rfl

theorem symm (h : SameFrom deadline now s t) : SameFrom deadline now t s :=
  fun k later hle => (h k later hle).symm

theorem trans (h₁ : SameFrom deadline now s t) (h₂ : SameFrom deadline now t u) :
    SameFrom deadline now s u :=
  fun k later hle => (h₁ k later hle).trans (h₂ k later hle)

theorem mono (h : SameFrom deadline now s t) {later : τ} (hle : now ≤ later) :
    SameFrom deadline later s t :=
  fun k later' hle' => h k later' (hle.trans hle')

theorem of_prunes (h : Prunes deadline now s t) : SameFrom deadline now s t :=
  fun _ _ hle => (h.eligible_eq hle).symm

theorem insert (h : SameFrom deadline now s t) (k : κ) (e : ν) :
    SameFrom deadline now (s.insert k e) (t.insert k e) := by
  intro j later hle
  by_cases hjk : j = k
  · subst hjk
    simp [eligible]
  · have hj := h j later hle
    simpa only [eligible, lookup_insert_ne _ hjk] using hj

/-- Writing what has already expired is not noticed where nothing else was to be
found. -/
theorem insertAll_expired {key : ν → κ} {es : List ν} (hes : ∀ e ∈ es, Expired (deadline e) now)
    (hnone : ∀ e ∈ es, eligible deadline s (key e) now = none) :
    SameFrom deadline now s (insertAll key es s) := by
  intro k later hle
  cases hw : (insertAll key es ∅).lookup k with
  | none => rw [eligible, eligible, lookup_insertAll, hw, Option.none_or]
  | some e =>
      obtain ⟨hmem, rfl⟩ := mem_of_lookup_insertAll hw
      have hgone : eligible deadline (insertAll key es s) (key e) later = none := by
        by_contra hne
        obtain ⟨e', he'⟩ := Option.ne_none_iff_exists'.mp hne
        obtain ⟨hlookup, hlive⟩ := eligible_eq_some_iff.mp he'
        rw [lookup_insertAll, hw] at hlookup
        cases hlookup
        exact hlive ((hes e hmem).mono hle)
      rw [hgone]
      exact eligible_none_mono (hnone e hmem) hle

end SameFrom

/-! ## Stores that differ in hidden keys -/

/-- The stores hold the same under every key that is not hidden. -/
def AgreeOff (hidden : κ → Prop) (s t : Store κ ν) : Prop :=
  ∀ k, ¬ hidden k → s.lookup k = t.lookup k

namespace AgreeOff

variable {hidden : κ → Prop}

theorem refl (s : Store κ ν) : AgreeOff hidden s s := fun _ _ => rfl

theorem symm (h : AgreeOff hidden s t) : AgreeOff hidden t s := fun k hk => (h k hk).symm

theorem trans (h₁ : AgreeOff hidden s t) (h₂ : AgreeOff hidden t u) : AgreeOff hidden s u :=
  fun k hk => (h₁ k hk).trans (h₂ k hk)

theorem insert (h : AgreeOff hidden s t) (k : κ) (e : ν) :
    AgreeOff hidden (s.insert k e) (t.insert k e) := by
  intro j hj
  by_cases hjk : j = k
  · subst hjk
    rw [lookup_insert_self, lookup_insert_self]
  · rw [lookup_insert_ne _ hjk, lookup_insert_ne _ hjk]
    exact h j hj

theorem erase (h : AgreeOff hidden s t) (k : κ) : AgreeOff hidden (s.erase k) (t.erase k) := by
  intro j hj
  by_cases hjk : j = k
  · subst hjk
    simp
  · rw [Finmap.lookup_erase_ne hjk, Finmap.lookup_erase_ne hjk]
    exact h j hj

theorem read (deadline : ν → Option τ) (now : τ) (h : AgreeOff hidden s t) (hk : ¬ hidden k) :
    (ExpiringStore.read deadline k now s).1 = (ExpiringStore.read deadline k now t).1 ∧
      AgreeOff hidden (ExpiringStore.read deadline k now s).2
        (ExpiringStore.read deadline k now t).2 := by
  unfold ExpiringStore.read
  rw [h k hk]
  cases t.lookup k with
  | none => exact ⟨rfl, h⟩
  | some e =>
      by_cases he : Expired (deadline e) now
      · simp only [he, if_true]
        exact ⟨trivial, h.erase k⟩
      · simp only [he, if_false]
        exact ⟨trivial, h⟩

theorem insert_hidden (s : Store κ ν) (hk : hidden k) (e : ν) :
    AgreeOff hidden s (s.insert k e) := by
  intro j hj
  have hjk : j ≠ k := fun heq => hj (heq ▸ hk)
  rw [lookup_insert_ne _ hjk]

theorem insertAll_hidden {key : ν → κ} {es : List ν} (hes : ∀ e ∈ es, hidden (key e))
    (s : Store κ ν) : AgreeOff hidden s (insertAll key es s) := by
  induction es generalizing s with
  | nil => exact refl s
  | cons e es ih =>
      have hfirst := insert_hidden s (hes e (by simp)) e
      exact hfirst.trans (ih (fun x hx => hes x (by simp [hx])) _)

theorem read_hidden (s : Store κ ν) (hk : hidden k) :
    AgreeOff hidden s (ExpiringStore.read deadline k now s).2 := by
  intro j hj
  have hjk : j ≠ k := fun heq => hj (heq ▸ hk)
  unfold ExpiringStore.read
  cases s.lookup k with
  | none => rfl
  | some e =>
      by_cases he : Expired (deadline e) now
      · simp [he, Finmap.lookup_erase_ne hjk]
      · simp [he]

end AgreeOff

def Avoids (kind : κ → Prop) (s : Store κ ν) : Prop := ∀ k, kind k → s.lookup k = none

theorem avoids_empty (kind : κ → Prop) : Avoids kind (∅ : Store κ ν) := by
  intro k _
  simp

namespace Avoids

variable {kind : κ → Prop}

theorem insert (h : Avoids kind s) (hk : ¬ kind k) (e : ν) : Avoids kind (s.insert k e) := by
  intro j hj
  have hjk : j ≠ k := fun heq => hk (heq ▸ hj)
  rw [lookup_insert_ne _ hjk]
  exact h j hj

theorem insertAll {key : ν → κ} {es : List ν} (h : Avoids kind s)
    (hes : ∀ e ∈ es, ¬ kind (key e)) : Avoids kind (insertAll key es s) := by
  induction es generalizing s with
  | nil => exact h
  | cons e es ih =>
      exact ih (h.insert (hes e (by simp)) e) fun x hx => hes x (by simp [hx])

theorem prunes (h : Avoids kind s) (hp : Prunes deadline now s t) : Avoids kind t :=
  fun j hj => hp.lookup_none (h j hj)

theorem read (h : Avoids kind s) (hk : kind k) : (read deadline k now s).2 = s := by
  unfold ExpiringStore.read
  rw [h k hk]

end Avoids

/-! ## Stores under other keys -/

/-- Under keys that correspond the stores have entries with one deadline, or none. -/
def Rekeyed {ι ω : Type*} [DecidableEq ι] (known : ι → κ → Prop) (deadline : ν → Option τ)
    (deadline' : ω → Option τ) (s : Store κ ν) (t : Store ι ω) : Prop :=
  ∀ i k, known i k → (s.lookup k).map deadline = (t.lookup i).map deadline'

namespace Rekeyed

variable {ι ω : Type*} [DecidableEq ι] {known : ι → κ → Prop} {deadline' : ω → Option τ}
  {i : ι} {e' : ω} {r : Store ι ω}

omit [LinearOrder τ] in
theorem empty :
    Rekeyed known deadline deadline' (∅ : Store κ ν) (∅ : Store ι ω) := by
  intro i k _
  simp

omit [LinearOrder τ] in
theorem insert (hknown : Relator.BiUnique known) (h : Rekeyed known deadline deadline' s r)
    (hik : known i k) (he : deadline e = deadline' e') :
    Rekeyed known deadline deadline' (s.insert k e) (r.insert i e') := by
  intro j l hjl
  by_cases hj : j = i
  · subst hj
    rw [hknown.2 hjl hik, lookup_insert_self, lookup_insert_self]
    exact congrArg some he
  · have hl : l ≠ k := fun heq => hj (hknown.1 hjl (heq ▸ hik))
    rw [lookup_insert_ne _ hj, lookup_insert_ne _ hl]
    exact h j l hjl

omit [LinearOrder τ] in
theorem erase (hknown : Relator.BiUnique known) (h : Rekeyed known deadline deadline' s r)
    (hik : known i k) : Rekeyed known deadline deadline' (s.erase k) (r.erase i) := by
  intro j l hjl
  by_cases hj : j = i
  · subst hj
    rw [hknown.2 hjl hik]
    simp
  · have hl : l ≠ k := fun heq => hj (hknown.1 hjl (heq ▸ hik))
    rw [Finmap.lookup_erase_ne hj, Finmap.lookup_erase_ne hl]
    exact h j l hjl

theorem read (hknown : Relator.BiUnique known) (h : Rekeyed known deadline deadline' s r)
    (hik : known i k) (now : τ) :
    (ExpiringStore.read deadline k now s).1.isSome =
        (ExpiringStore.read deadline' i now r).1.isSome ∧
      Rekeyed known deadline deadline' (ExpiringStore.read deadline k now s).2
        (ExpiringStore.read deadline' i now r).2 := by
  have hat := h i k hik
  unfold ExpiringStore.read
  cases hk : s.lookup k with
  | none =>
      rw [hk] at hat
      rw [Option.map_eq_none_iff.mp hat.symm]
      exact ⟨rfl, h⟩
  | some e =>
      rw [hk] at hat
      obtain ⟨e', he', hdeadline⟩ := Option.map_eq_some_iff.mp hat.symm
      rw [he']
      by_cases hexpired : Expired (deadline e) now
      · simp only [hexpired, hdeadline, if_true]
        exact ⟨rfl, h.erase hknown hik⟩
      · simp only [hexpired, hdeadline, if_false]
        exact ⟨rfl, h⟩

end Rekeyed

/-! ## Histories of writes -/

section Ledger

variable {ω : Type*}

/-- The last element of the history with the property. -/
def IsLatest (P : ω → Prop) (hist : List ω) (w : ω) : Prop :=
  ∃ pre post, hist = pre ++ w :: post ∧ P w ∧ ∀ x ∈ post, ¬ P x

theorem IsLatest.mem {P : ω → Prop} {hist : List ω} {w : ω} (h : IsLatest P hist w) :
    w ∈ hist := by
  obtain ⟨pre, post, rfl, -⟩ := h
  simp

theorem IsLatest.holds {P : ω → Prop} {hist : List ω} {w : ω} (h : IsLatest P hist w) : P w := by
  obtain ⟨pre, post, -, hw, -⟩ := h
  exact hw

theorem isLatest_concat_self {P : ω → Prop} {hist : List ω} {w : ω} (h : P w) :
    IsLatest P (hist ++ [w]) w := ⟨hist, [], rfl, h, by simp⟩

theorem IsLatest.concat {P : ω → Prop} {hist : List ω} {w x : ω} (h : IsLatest P hist w)
    (hx : ¬ P x) : IsLatest P (hist ++ [x]) w := by
  obtain ⟨pre, post, rfl, hw, hpost⟩ := h
  refine ⟨pre, post ++ [x], by simp, hw, fun y hy => ?_⟩
  rcases List.mem_append.mp hy with hy | hy
  · exact hpost y hy
  · rwa [List.mem_singleton.mp hy]

theorem isLatest_concat_iff {P : ω → Prop} {hist : List ω} {w x : ω} :
    IsLatest P (hist ++ [x]) w ↔ P x ∧ w = x ∨ ¬ P x ∧ IsLatest P hist w := by
  constructor
  · rintro ⟨pre, post, heq, hw, hpost⟩
    rcases List.eq_nil_or_concat post with rfl | ⟨post, y, rfl⟩
    · obtain ⟨rfl, h⟩ := List.append_inj' heq rfl
      cases List.cons.inj h |>.1
      exact .inl ⟨hw, rfl⟩
    · have hsplit : hist ++ [x] = (pre ++ w :: post) ++ [y] := by simpa using heq
      obtain ⟨rfl, h⟩ := List.append_inj' hsplit rfl
      cases List.cons.inj h |>.1
      exact .inr ⟨hpost x (by simp), pre, post, rfl, hw, fun z hz => hpost z (by simp [hz])⟩
  · rintro (⟨hx, rfl⟩ | ⟨hx, h⟩)
    · exact isLatest_concat_self hx
    · exact h.concat hx

theorem IsLatest.unique {P : ω → Prop} {hist : List ω} {w x : ω} (hw : IsLatest P hist w)
    (hx : IsLatest P hist x) : w = x := by
  induction hist using List.reverseRecOn with
  | nil => simpa using hw.mem
  | append_singleton hist y ih =>
      rcases isLatest_concat_iff.mp hw with ⟨hy, rfl⟩ | ⟨hy, hw⟩
      · rcases isLatest_concat_iff.mp hx with ⟨-, rfl⟩ | ⟨hn, -⟩
        · rfl
        · exact absurd hy hn
      · rcases isLatest_concat_iff.mp hx with ⟨hn, -⟩ | ⟨-, hx⟩
        · exact absurd hn hy
        · exact ih hw hx

theorem IsLatest.congr {P Q : ω → Prop} {hist : List ω} {w : ω} (h : IsLatest P hist w)
    (hPQ : ∀ x ∈ hist, P x ↔ Q x) : IsLatest Q hist w := by
  obtain ⟨pre, post, rfl, hw, hpost⟩ := h
  refine ⟨pre, post, rfl, (hPQ w (by simp)).mp hw, fun x hx hQx => ?_⟩
  exact hpost x hx ((hPQ x (by simp [hx])).mpr hQx)

theorem isLatest_append_iff {P : ω → Prop} {hist later : List ω} (w : ω)
    (h : ∀ x ∈ later, ¬ P x) : IsLatest P (hist ++ later) w ↔ IsLatest P hist w := by
  induction later using List.reverseRecOn with
  | nil => simp
  | append_singleton later x ih =>
      have hx : ¬ P x := h x (by simp)
      rw [← List.append_assoc, isLatest_concat_iff]
      simp only [hx, false_and, not_false_eq_true, true_and, false_or]
      exact ih fun y hy => h y (by simp [hy])

variable (deadline) (writes : ω → κ → ν → Prop)

/-- One event of a history: `s` is pruned and then receives the writes of the
event, at most one value for each key. -/
structure Step (now : τ) (w : ω) (s t : Store κ ν) : Prop where
  written : ∀ k e, writes w k e → t.lookup k = some e
  kept : ∀ k, (∀ e, ¬ writes w k e) →
    t.lookup k = s.lookup k ∨
      t.lookup k = none ∧ ∃ e, s.lookup k = some e ∧ Expired (deadline e) now

/-- Whatever the store holds was put there by the last write of its key. -/
def Sound (hist : List ω) (s : Store κ ν) : Prop :=
  ∀ k e, s.lookup k = some e →
    ∃ w, IsLatest (fun w => ∃ e, writes w k e) hist w ∧ writes w k e

/-- The last write of a key is still there unless it has expired. -/
def Complete (hist : List ω) (now : τ) (s : Store κ ν) : Prop :=
  ∀ k w e, IsLatest (fun w => ∃ e, writes w k e) hist w → writes w k e →
    ¬ Expired (deadline e) now → s.lookup k = some e

variable {deadline writes} {hist : List ω} {w : ω}

theorem step_insertAll {key : ν → κ} {es : List ν} (hprunes : Prunes deadline now s t)
    (hwrites : ∀ k e, writes w k e ↔ (insertAll key es ∅).lookup k = some e) :
    Step deadline writes now w s (insertAll key es t) := by
  refine ⟨fun k e he => ?_, fun k hno => ?_⟩
  · rw [lookup_insertAll, (hwrites k e).mp he]
    rfl
  · have hnone : (insertAll key es ∅).lookup k = none := by
      rw [Option.eq_none_iff_forall_ne_some]
      exact fun e he => hno e ((hwrites k e).mpr he)
    rw [lookup_insertAll, hnone, Option.none_or]
    exact hprunes k

theorem sound_nil : Sound writes [] (∅ : Store κ ν) := by
  intro k e h
  simp at h

theorem complete_nil : Complete deadline writes [] now s := by
  intro k w e h
  simpa using h.mem

theorem Sound.step (h : Sound writes hist s) (hstep : Step deadline writes now w s t) :
    Sound writes (hist ++ [w]) t := by
  classical
  intro k e hk
  by_cases hw : ∃ e, writes w k e
  · obtain ⟨e', he'⟩ := hw
    cases hk.symm.trans (hstep.written k e' he')
    exact ⟨w, isLatest_concat_self ⟨_, he'⟩, he'⟩
  · have hs : s.lookup k = some e := by
      rcases hstep.kept k (fun e he => hw ⟨e, he⟩) with h' | ⟨h', -⟩
      · rwa [← h']
      · simp [h'] at hk
    obtain ⟨x, hx, hwx⟩ := h k e hs
    exact ⟨x, hx.concat hw, hwx⟩

theorem Complete.mono (h : Complete deadline writes hist now s) {later : τ} (hle : now ≤ later) :
    Complete deadline writes hist later s :=
  fun k w e hw hwe hexp => h k w e hw hwe fun hn => hexp (hn.mono hle)

theorem Step.mono (h : Step deadline writes now w s t) {later : τ} (hle : now ≤ later) :
    Step deadline writes later w s t := by
  refine ⟨h.written, fun k hno => ?_⟩
  rcases h.kept k hno with hk | ⟨hk, e, he, hexp⟩
  · exact .inl hk
  · exact .inr ⟨hk, e, he, hexp.mono hle⟩

theorem Complete.step (h : Complete deadline writes hist now s)
    (hstep : Step deadline writes now w s t) : Complete deadline writes (hist ++ [w]) now t := by
  intro k x e hx hxe hexp
  rcases isLatest_concat_iff.mp hx with ⟨-, rfl⟩ | ⟨hno, hx⟩
  · exact hstep.written k e hxe
  · have hs := h k x e hx hxe hexp
    rcases hstep.kept k (fun e he => hno ⟨e, he⟩) with h' | ⟨-, e', he', hexp'⟩
    · rwa [h']
    · cases hs.symm.trans he'
      exact absurd hexp' hexp

/-- What a read finds is the last write of the key, while it is eligible. -/
theorem eligible_eq_some_iff_latest (hsound : Sound writes hist s)
    (hcomplete : Complete deadline writes hist now s) :
    eligible deadline s k now = some e ↔
      ∃ w, IsLatest (fun w => ∃ e, writes w k e) hist w ∧ writes w k e ∧
        ¬ Expired (deadline e) now := by
  rw [eligible_eq_some_iff]
  constructor
  · rintro ⟨hk, hexp⟩
    obtain ⟨w, hw, hwe⟩ := hsound k e hk
    exact ⟨w, hw, hwe, hexp⟩
  · rintro ⟨w, hw, hwe, hexp⟩
    exact ⟨hcomplete k w e hw hwe hexp, hexp⟩

end Ledger

end ExpiringStore

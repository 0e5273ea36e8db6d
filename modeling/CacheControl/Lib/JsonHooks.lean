import CacheControl.Lib.JsonOrder

/-!
# What a reading hands to its hook

A text spells a tree, in which every object has all the members that stand in
the text.  Reading the text with a hook folds the hook over that tree, inner
objects first, and a hook that refuses repeated names refuses exactly the trees
in which an object repeats one.
-/

open PyText

namespace Json

variable {F δ ε α β γ : Type}

/-! ## Folding a hook over a tree -/

mutual

/-- What the hook makes of a tree, inner objects first. -/
def folded (hook : List (Str × Json F) → Except ε (Json F)) : Json F → Except ε (Json F)
  | arr items => (foldedItems hook items).map arr
  | obj members => foldedMembers hook members >>= hook
  | null => .ok null
  | bool b => .ok (bool b)
  | int n => .ok (int n)
  | float x => .ok (float x)
  | str s => .ok (str s)

def foldedItems (hook : List (Str × Json F) → Except ε (Json F)) :
    List (Json F) → Except ε (List (Json F))
  | [] => .ok []
  | v :: items => do
      let w ← folded hook v
      let ws ← foldedItems hook items
      pure (w :: ws)

def foldedMembers (hook : List (Str × Json F) → Except ε (Json F)) :
    List (Str × Json F) → Except ε (List (Str × Json F))
  | [] => .ok []
  | (k, v) :: members => do
      let w ← folded hook v
      let ws ← foldedMembers hook members
      pure ((k, w) :: ws)

end

/-- The hook that keeps every member. -/
def keepMembers (members : List (Str × Json F)) : Except ε (Json F) := .ok (obj members)

/-- The text is well formed, and `tree` has every member that stands in it. -/
def Spells [JsonFloat F] (text : Str) (tree : Json F) : Prop :=
  loads (ε := Empty) keepMembers text = .ok tree

theorem Spells.unique [JsonFloat F] {text : Str} {tree tree' : Json F} (h : Spells text tree)
    (h' : Spells text tree') : tree = tree' := Except.ok.inj (h.symm.trans h')

/-! ## The objects of a tree -/

/-- `members` are those of an object somewhere in the tree. -/
inductive ObjectIn (members : List (Str × Json F)) : Json F → Prop
  | root : ObjectIn members (obj members)
  | item {items : List (Json F)} {v : Json F} : v ∈ items → ObjectIn members v →
      ObjectIn members (arr items)
  | member {outer : List (Str × Json F)} {m : Str × Json F} : m ∈ outer →
      ObjectIn members m.2 → ObjectIn members (obj outer)

/-- Some object of the tree has two members of one name. -/
def RepeatsName (tree : Json F) : Prop :=
  ∃ members k, ObjectIn members tree ∧ List.Duplicate k (members.map Prod.fst)

theorem repeatsName_arr_iff {items : List (Json F)} :
    RepeatsName (arr items) ↔ ∃ v ∈ items, RepeatsName v := by
  constructor
  · rintro ⟨members, k, hobject, hk⟩
    cases hobject with
    | item hv hobject => exact ⟨_, hv, members, k, hobject, hk⟩
  · rintro ⟨v, hv, members, k, hobject, hk⟩
    exact ⟨members, k, .item hv hobject, hk⟩

theorem repeatsName_obj_iff {outer : List (Str × Json F)} :
    RepeatsName (obj outer) ↔ (∃ k, List.Duplicate k (outer.map Prod.fst)) ∨
      ∃ m ∈ outer, RepeatsName m.2 := by
  constructor
  · rintro ⟨members, k, hobject, hk⟩
    cases hobject with
    | root => exact .inl ⟨k, hk⟩
    | member hm hobject => exact .inr ⟨_, hm, members, k, hobject, hk⟩
  · rintro (⟨k, hk⟩ | ⟨m, hm, members, k, hobject, hk⟩)
    · exact ⟨outer, k, .root, hk⟩
    · exact ⟨members, k, .member hm hobject, hk⟩

theorem not_repeatsName_iff {tree : Json F} : ¬RepeatsName tree ↔ Distinct tree := by
  induction tree with
  | arr items ih =>
      rw [repeatsName_arr_iff, distinct_arr_iff]
      simp only [not_exists, not_and]
      exact forall₂_congr ih
  | obj outer ih =>
      rw [repeatsName_obj_iff, distinct_obj_iff, not_or, List.exists_duplicate_iff_not_nodup,
        not_not]
      simp only [not_exists, not_and]
      exact and_congr_right fun _ => forall₂_congr ih
  | _ =>
      refine iff_of_true ?_ trivial
      rintro ⟨members, k, hobject, -⟩
      cases hobject

/-- A hook that keeps every object of the tree hands the tree back. -/
theorem folded_of_keeps {hook : List (Str × Json F) → Except ε (Json F)} {tree : Json F}
    (h : ∀ members, ObjectIn members tree → hook members = .ok (obj members)) :
    folded hook tree = .ok tree := by
  induction tree with
  | arr items ih =>
      have hitems : ∀ vs ⊆ items, foldedItems hook vs = .ok vs := by
        intro vs hvs
        induction vs with
        | nil => rfl
        | cons v vs ihvs =>
            obtain ⟨hv, hrest⟩ := List.cons_subset.mp hvs
            rw [foldedItems, ih v hv fun members hobject => h members (.item hv hobject),
              ihvs hrest]
            rfl
      rw [folded, hitems items (List.Subset.refl _)]
      rfl
  | obj outer ih =>
      have hmembers : ∀ ms ⊆ outer, foldedMembers hook ms = .ok ms := by
        intro ms hms
        induction ms with
        | nil => rfl
        | cons m ms ihms =>
            obtain ⟨hm, hrest⟩ := List.cons_subset.mp hms
            rw [foldedMembers, ih m hm fun members hobject => h members (.member hm hobject),
              ihms hrest]
            rfl
      rw [folded, hmembers outer (List.Subset.refl _)]
      exact h outer .root
  | _ => rfl

theorem folded_keepMembers (tree : Json F) :
    folded keepMembers tree = (.ok tree : Except ε (Json F)) := folded_of_keeps fun _ _ => rfl

/-! ## Two readings of one text -/

/-- The reader hands back `x` and stops in front of `r`, or the hook raised. -/
def reading (x : Except ε α) (r : Str) : Except (LoadError ε) (α × Str) :=
  match x with
  | .ok a => .ok (a, r)
  | .error e => .error (.hook e)

theorem reading_bind (x : Except ε α) (f : α → Except ε β) (r : Str) :
    reading (x >>= f) r = (reading x r) >>= fun a => reading (f a.1) r := by
  cases x <;> rfl

/-- Where one reading hands back a value, the other hands back what `f` makes of it,
and where the one fails, so does the other. -/
inductive Mirrors (f : α → Except ε β) :
    Except (LoadError δ) (α × Str) → Except (LoadError ε) (β × Str) → Prop
  | read (a : α) (r : Str) : Mirrors f (.ok (a, r)) (reading (f a) r)
  | failed (e : LoadError δ) (e' : LoadError ε) : Mirrors f (.error e) (.error e')

theorem mirrors_ok {f : α → Except ε β} {a : α} {b : β} (h : f a = .ok b) (r : Str) :
    Mirrors f (.ok (a, r) : Except (LoadError δ) _) (.ok (b, r)) := by
  have hread : Mirrors f (.ok (a, r) : Except (LoadError δ) _) (reading (f a) r) := .read a r
  rwa [h] at hread

theorem Mirrors.bind {κ : Type} {f : α → Except ε β} {g : γ → Except ε κ}
    {x : Except (LoadError δ) (α × Str)} {y : Except (LoadError ε) (β × Str)}
    {k : α × Str → Except (LoadError δ) (γ × Str)} {k' : β × Str → Except (LoadError ε) (κ × Str)}
    (h : Mirrors f x y) (hok : ∀ a b r, f a = .ok b → Mirrors g (k (a, r)) (k' (b, r)))
    (herror : ∀ a r e, f a = .error e → Returns (fun z => g z.1 = .error e) (k (a, r))) :
    Mirrors g (x >>= k) (y >>= k') := by
  cases h with
  | failed e e' => exact .failed e e'
  | read a r =>
      cases hf : f a with
      | ok b => exact hok a b r hf
      | error e =>
          show Mirrors g (k (a, r)) (.error (.hook e))
          rcases hk : k (a, r) with e' | ⟨c, t⟩
          · exact .failed _ _
          · have hread : Mirrors g (.ok (c, t)) (reading (g c) t) := .read (δ := δ) c t
            rwa [herror a r e hf (c, t) hk] at hread

theorem mirrors_scanString (pending : Option ℕ) (s : Str) :
    Mirrors (fun t => (.ok t : Except ε Str))
      (scanString pending s : Except (LoadError δ) _) (scanString pending s) := by
  have hmap : ∀ {x : Except (LoadError δ) (Str × Str)} {y : Except (LoadError ε) (Str × Str)}
      (p : Str), Mirrors (fun t => (.ok t : Except ε Str)) x y →
      Mirrors (fun t => (.ok t : Except ε Str)) (x.map fun z => (p ++ z.1, z.2))
        (y.map fun z => (p ++ z.1, z.2)) := fun p h => by
    cases h with
    | read t r => exact .read (p ++ t) r
    | failed e e' => exact .failed e e'
  induction pending, s using scanString.induct with
  | case1 pending => exact .failed _ _
  | case2 pending s => exact .read (flush pending) s
  | case3 pending a b c d s hu =>
      rw [scanString, scanString, hu]
      exact .failed _ _
  | case4 pending a b c d s u hu ih =>
      rw [scanString, scanString, hu]
      exact hmap _ ih
  | case5 pending p s hnot hq =>
      rw [scanString, scanString, hq]
      · exact .failed _ _
      all_goals exact hnot
  | case6 pending p s hnot q hq ih =>
      rw [scanString, scanString, hq]
      · simpa using hmap (flush pending ++ [q]) ih
      all_goals exact hnot
  | case7 pending p s h1 h2 h3 hp =>
      rw [scanString, scanString, if_pos hp, if_pos hp]
      · exact .failed _ _
      all_goals assumption
  | case8 pending p s h1 h2 h3 hp ih =>
      rw [scanString, scanString, if_neg hp, if_neg hp]
      · simpa using hmap (flush pending ++ [p]) ih
      all_goals assumption

theorem folded_of_isLeaf {hook : List (Str × Json F) → Except ε (Json F)} {v : Json F}
    (h : IsLeaf v) : folded hook v = .ok v := by
  cases v <;> first | rfl | exact h.elim

section Reading

variable {hook : List (Str × Json F) → Except ε (Json F)} {k : Str} {v w : Json F} {e : ε}
  {items items' : List (Json F)} {pairs pairs' : List (Str × Json F)}

theorem folded_arr (h : foldedItems hook items = .ok items') :
    folded hook (arr items) = .ok (arr items') := by
  rw [folded, h]
  rfl

theorem folded_arr_error (h : foldedItems hook items = .error e) :
    folded hook (arr items) = .error e := by
  rw [folded, h]
  rfl

theorem folded_obj_error (h : foldedMembers hook pairs = .error e) :
    folded hook (obj pairs) = .error e := by
  rw [folded, h]
  rfl

theorem foldedItems_cons (hv : folded hook v = .ok w) (hitems : foldedItems hook items = .ok items') :
    foldedItems hook (v :: items) = .ok (w :: items') := by
  rw [foldedItems, hv, hitems]
  rfl

theorem foldedItems_cons_error (hv : folded hook v = .error e) :
    foldedItems hook (v :: items) = .error e := by
  rw [foldedItems, hv]
  rfl

theorem foldedItems_tail_error (hv : folded hook v = .ok w)
    (hitems : foldedItems hook items = .error e) :
    foldedItems hook (v :: items) = .error e := by
  rw [foldedItems, hv, hitems]
  rfl

theorem foldedMembers_cons (hv : folded hook v = .ok w)
    (hpairs : foldedMembers hook pairs = .ok pairs') :
    foldedMembers hook ((k, v) :: pairs) = .ok ((k, w) :: pairs') := by
  rw [foldedMembers, hv, hpairs]
  rfl

theorem foldedMembers_cons_error (hv : folded hook v = .error e) :
    foldedMembers hook ((k, v) :: pairs) = .error e := by
  rw [foldedMembers, hv]
  rfl

theorem foldedMembers_tail_error (hv : folded hook v = .ok w)
    (hpairs : foldedMembers hook pairs = .error e) :
    foldedMembers hook ((k, v) :: pairs) = .error e := by
  rw [foldedMembers, hv, hpairs]
  rfl

theorem mirrors_applyHook (r : Str) (h : foldedMembers hook pairs = .ok pairs') :
    Mirrors (folded hook) (applyHook (ε := δ) keepMembers pairs r) (applyHook hook pairs' r) := by
  have happly : applyHook hook pairs' r = reading (folded hook (obj pairs)) r := by
    rw [folded, h]
    show applyHook hook pairs' r = reading (hook pairs') r
    unfold applyHook
    cases hook pairs' <;> rfl
  rw [happly]
  exact .read (obj pairs) r

variable [JsonFloat F] {n : ℕ}

/-- With fuel `n` the reader hands back what the hook makes of the tree. -/
structure Folds (hook : List (Str × Json F) → Except ε (Json F)) (n : ℕ) : Prop where
  once : ∀ s, Mirrors (folded hook) (scanOnce (ε := Empty) keepMembers n s) (scanOnce hook n s)
  members : ∀ s, Mirrors (foldedMembers hook) (scanMembers (ε := Empty) keepMembers n s)
    (scanMembers hook n s)
  items : ∀ s, Mirrors (foldedItems hook) (scanItems (ε := Empty) keepMembers n s)
    (scanItems hook n s)

theorem Folds.once_succ (h : Folds hook n) (s : Str) :
    Mirrors (folded hook) (scanOnce (ε := Empty) keepMembers (n + 1) s)
      (scanOnce hook (n + 1) s) := by
  unfold scanOnce
  split
  · refine (mirrors_scanString none _).bind (fun t t' r ht => ?_) fun t r e ht => by cases ht
    cases ht
    exact mirrors_ok (f := folded hook) (a := str t) rfl r
  · split
    · exact mirrors_applyHook _ rfl
    · refine (h.members _).bind (fun pairs pairs' r hpairs => mirrors_applyHook r hpairs) ?_
      exact fun pairs r e hpairs => returns_ok (folded_obj_error hpairs)
    · exact .failed _ _
  · split
    · exact mirrors_ok (folded_arr rfl) _
    · refine (h.items _).bind (fun vs ws r hitems => mirrors_ok (folded_arr hitems) r) ?_
      exact fun vs r e hitems => returns_ok (folded_arr_error hitems)
  · split
    · rename_i v r hv
      have hleaf : IsLeaf v := by
        rw [Option.orElse_eq_orElse, Option.orElse_eq_or, Option.or_eq_some_iff] at hv
        rcases hv with hv | ⟨-, hv⟩
        · exact (scanNumber_spec hv).1
        · exact (scanWord_spec hv).1
      exact mirrors_ok (folded_of_isLeaf hleaf) r
    · exact .failed _ _

theorem Folds.members_succ (h : Folds hook n) (s : Str) :
    Mirrors (foldedMembers hook) (scanMembers (ε := Empty) keepMembers (n + 1) s)
      (scanMembers hook (n + 1) s) := by
  unfold scanMembers
  refine (mirrors_scanString none _).bind (fun k k' r hk => ?_) fun k r e hk => by cases hk
  cases hk
  dsimp only
  split
  · refine (h.once _).bind (fun v w r hv => ?_) fun v r e hv => ?_
    · dsimp only
      split
      · exact mirrors_ok (foldedMembers_cons hv rfl) _
      · split
        · refine (h.members _).bind (fun pairs pairs' r hpairs => ?_) fun pairs r e hpairs => ?_
          · exact mirrors_ok (foldedMembers_cons hv hpairs) r
          · exact returns_ok (foldedMembers_tail_error hv hpairs)
        · exact .failed _ _
      · exact .failed _ _
    · dsimp only
      split
      · exact returns_ok (foldedMembers_cons_error hv)
      · split
        · refine Returns.bind (P := fun _ => True) (fun _ _ => trivial) fun x _ => ?_
          exact returns_ok (foldedMembers_cons_error hv)
        · exact returns_error
      · exact returns_error
  · exact .failed _ _

theorem Folds.items_succ (h : Folds hook n) (s : Str) :
    Mirrors (foldedItems hook) (scanItems (ε := Empty) keepMembers (n + 1) s)
      (scanItems hook (n + 1) s) := by
  unfold scanItems
  refine (h.once _).bind (fun v w r hv => ?_) fun v r e hv => ?_
  · dsimp only
    split
    · exact mirrors_ok (foldedItems_cons hv rfl) _
    · refine (h.items _).bind (fun vs ws r hvs => ?_) fun vs r e hvs => ?_
      · exact mirrors_ok (foldedItems_cons hv hvs) r
      · exact returns_ok (foldedItems_tail_error hv hvs)
    · exact .failed _ _
  · dsimp only
    split
    · exact returns_ok (foldedItems_cons_error hv)
    · refine Returns.bind (P := fun _ => True) (fun _ _ => trivial) fun x _ => ?_
      exact returns_ok (foldedItems_cons_error hv)
    · exact returns_error

theorem folds (hook : List (Str × Json F) → Except ε (Json F)) (n : ℕ) : Folds hook n := by
  induction n with
  | zero => exact ⟨fun _ => .failed _ _, fun _ => .failed _ _, fun _ => .failed _ _⟩
  | succ n ih => exact ⟨ih.once_succ, ih.members_succ, ih.items_succ⟩

/-- A reading folds its hook over the tree that the text spells, and fails where the
text spells none. -/
theorem loads_cases (hook : List (Str × Json F) → Except ε (Json F)) (text : Str) :
    (∃ tree, Spells text tree ∧ loads hook text = (folded hook tree).mapError .hook) ∨
      (¬∃ tree : Json F, Spells text tree) ∧ ∃ e, loads hook text = .error e := by
  unfold Spells loads
  split
  · exact .inr ⟨(by rintro ⟨tree, h⟩; cases h), _, rfl⟩
  have hscan := (folds hook (2 * text.length + 2)).once (skipWs text)
  generalize scanOnce (F := F) (ε := Empty) keepMembers _ _ = x at hscan ⊢
  generalize scanOnce hook (2 * text.length + 2) (skipWs text) = y at hscan ⊢
  cases hscan with
  | failed e e' => exact .inr ⟨(by rintro ⟨tree, h⟩; cases h), e', rfl⟩
  | read tree r =>
      by_cases hend : skipWs r = []
      · refine .inl ⟨tree, ?_, ?_⟩
        · show (if skipWs r = [] then (pure tree : Except (LoadError Empty) _) else _) = _
          rw [if_pos hend]
          rfl
        · cases folded hook tree with
          | error e => rfl
          | ok v =>
              show (if skipWs r = [] then (pure v : Except (LoadError ε) _) else _) = _
              rw [if_pos hend]
              rfl
      · refine .inr ⟨?_, ?_⟩
        · rintro ⟨tree', h⟩
          change (if skipWs r = [] then (pure tree : Except (LoadError Empty) _) else _) = _ at h
          rw [if_neg hend] at h
          cases h
        · cases folded hook tree with
          | error e => exact ⟨_, rfl⟩
          | ok v => exact ⟨.malformed, if_neg hend⟩

theorem loads_of_spells {text : Str} {tree : Json F} (h : Spells text tree) :
    loads hook text = (folded hook tree).mapError .hook := by
  rcases loads_cases hook text with ⟨tree', htree, hloads⟩ | ⟨hnone, -⟩
  · cases h.unique htree
    exact hloads
  · exact absurd ⟨tree, h⟩ hnone

/-- What is raised for a well-formed text was raised by the hook. -/
theorem exists_hook_error {text : Str} {tree : Json F} (h : Spells text tree)
    (he : folded hook tree = .error e) : ∃ pairs, hook pairs = .error e := by
  have hloads : loads hook text = _ := loads_of_spells h
  rw [he] at hloads
  exact fromHook_loads text e hloads

theorem spells_of_loads {text : Str} (h : loads hook text = .ok v) :
    ∃ tree, Spells text tree ∧ folded hook tree = .ok v := by
  rcases loads_cases hook text with ⟨tree, htree, hloads⟩ | ⟨-, e, hloads⟩
  · refine ⟨tree, htree, ?_⟩
    rw [h] at hloads
    cases hfolded : folded hook tree with
    | error e =>
        rw [hfolded] at hloads
        cases hloads
    | ok w =>
        rw [hfolded] at hloads
        cases hloads
        rfl
  · cases h.symm.trans hloads

end Reading

/-! ## Hooks that refuse repeated names -/

/-- The hook keeps an object whose names are distinct and refuses any other. -/
structure RefusesRepeats (hook : List (Str × Json F) → Except ε (Json F)) : Prop where
  accepts : ∀ pairs, (pairs.map Prod.fst).Nodup → hook pairs = .ok (obj pairs)
  refuses : ∀ pairs, ¬(pairs.map Prod.fst).Nodup → ∃ e, hook pairs = .error e

section Strict

variable {hook : List (Str × Json F) → Except ε (Json F)}

theorem RefusesRepeats.keepsDistinct (h : RefusesRepeats hook) : KeepsDistinct hook := by
  intro pairs hpairs v hv
  by_cases hnames : (pairs.map Prod.fst).Nodup
  · rw [h.accepts pairs hnames] at hv
    cases hv
    exact distinct_obj_iff.mpr ⟨hnames, hpairs⟩
  · obtain ⟨e, he⟩ := h.refuses pairs hnames
    rw [he] at hv
    cases hv

/-- `x` is `a` where `p` holds, and an error where it does not. -/
def OkIff {α : Type} (p : Prop) (a : α) (x : Except ε α) : Prop :=
  (p → x = .ok a) ∧ (¬p → ∃ e, x = .error e)

theorem OkIff.bind {α β : Type} {p q : Prop} {a : α} {b : β} {x : Except ε α}
    {f : α → Except ε β} (hx : OkIff p a x) (hf : OkIff q b (f a)) :
    OkIff (p ∧ q) b (x >>= f) := by
  by_cases hp : p
  · rw [hx.1 hp]
    exact ⟨fun h => hf.1 h.2, fun h => hf.2 fun hq => h ⟨hp, hq⟩⟩
  · obtain ⟨e, he⟩ := hx.2 hp
    rw [he]
    exact ⟨fun h => absurd h.1 hp, fun _ => ⟨e, rfl⟩⟩

theorem OkIff.map {α β : Type} {p : Prop} {a : α} {x : Except ε α} (hx : OkIff p a x)
    (f : α → β) : OkIff p (f a) (x.map f) := by
  refine ⟨fun hp => by rw [hx.1 hp]; rfl, fun hp => ?_⟩
  obtain ⟨e, he⟩ := hx.2 hp
  exact ⟨e, by rw [he]; rfl⟩

theorem okIff_ok {α : Type} (a : α) : OkIff True a (.ok a : Except ε α) :=
  ⟨fun _ => rfl, fun h => absurd trivial h⟩

theorem okIff_foldedItems {items : List (Json F)}
    (ih : ∀ v ∈ items, OkIff (Distinct v) v (folded hook v)) :
    OkIff (∀ v ∈ items, Distinct v) items (foldedItems hook items) := by
  induction items with
  | nil => exact ⟨fun _ => rfl, fun h => absurd (by simp) h⟩
  | cons v items ihitems =>
      have hrest := ihitems fun w hw => ih w (by simp [hw])
      have hcons : OkIff (Distinct v ∧ (∀ w ∈ items, Distinct w) ∧ True) (v :: items)
          (foldedItems hook (v :: items)) := by
        rw [foldedItems]
        exact (ih v (by simp)).bind (hrest.bind (okIff_ok _))
      simpa using hcons

theorem okIff_foldedMembers {members : List (Str × Json F)}
    (ih : ∀ m ∈ members, OkIff (Distinct m.2) m.2 (folded hook m.2)) :
    OkIff (∀ m ∈ members, Distinct m.2) members (foldedMembers hook members) := by
  induction members with
  | nil => exact ⟨fun _ => rfl, fun h => absurd (by simp) h⟩
  | cons m members ihmembers =>
      obtain ⟨k, v⟩ := m
      have hrest := ihmembers fun m hm => ih m (by simp [hm])
      have hcons : OkIff (Distinct v ∧ (∀ m ∈ members, Distinct m.2) ∧ True) ((k, v) :: members)
          (foldedMembers hook ((k, v) :: members)) := by
        rw [foldedMembers]
        exact (ih (k, v) (by simp)).bind (hrest.bind (okIff_ok _))
      simpa using hcons

/-- Such a hook hands back the tree itself where no object of it repeats a name, and
raises for every other tree. -/
theorem RefusesRepeats.folded (h : RefusesRepeats hook) (v : Json F) :
    OkIff (Distinct v) v (folded hook v) := by
  induction v with
  | arr items ih =>
      rw [distinct_arr_iff, Json.folded]
      exact (okIff_foldedItems ih).map arr
  | obj members ih =>
      have hhook : OkIff (members.map Prod.fst).Nodup (obj members) (hook members) :=
        ⟨h.accepts members, h.refuses members⟩
      rw [distinct_obj_iff, and_comm, Json.folded]
      exact (okIff_foldedMembers ih).bind hhook
  | _ => exact okIff_ok _

end Strict

end Json

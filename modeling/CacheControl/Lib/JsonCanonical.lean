import CacheControl.Lib.JsonReread

/-!
# Canonical text

A writer that sorts the members of every object writes two values alike exactly
when they are equal up to the order of members and to how pairs of surrogates are
spelled.  What is read from text without surrogates holds no such pair.
-/

open PyText

namespace Json

variable {F ε : Type}

/-! ## Writing -/

theorem escape_of_le {p : CodePoint} (h : 0x7F ≤ p.ord) : escape p =
    if p.ord < 0x10000 then unicodeEscape p.ord
    else unicodeEscape (0xD800 + (p.ord - 0x10000) / 0x400) ++
      unicodeEscape (0xDC00 + (p.ord - 0x10000) % 0x400) := by
  unfold escape
  split
  case h_8 => rw [if_neg (by omega)]
  all_goals exact absurd h (by decide)

theorem ord_joinSurrogates {hi lo : ℕ} (hhi : isHigh hi) (hlo : isLow lo) :
    (joinSurrogates hi lo).ord = 0x10000 + (hi - 0xD800) * 0x400 + (lo - 0xDC00) := by
  simp only [isHigh, isLow, Bool.and_eq_true, decide_eq_true_eq] at hhi hlo
  have hscalar : ¬(0xD800 ≤ 0x10000 + (hi - 0xD800) * 0x400 + (lo - 0xDC00) ∧
      0x10000 + (hi - 0xD800) * 0x400 + (lo - 0xDC00) < 0xE000) := by omega
  have hvalid : (0x10000 + (hi - 0xD800) * 0x400 + (lo - 0xDC00)).isValidChar := by
    right
    omega
  rw [joinSurrogates, CodePoint.chr, dif_neg hscalar, Char.ofNat, dif_pos hvalid]
  rfl

theorem escape_joinSurrogates {p q : CodePoint} (hp : isHigh p.ord) (hq : isLow q.ord) :
    escape (joinSurrogates p.ord q.ord) = escape p ++ escape q := by
  have hord := ord_joinSurrogates hp hq
  simp only [isHigh, isLow, Bool.and_eq_true, decide_eq_true_eq] at hp hq
  have hhigh : escape p = unicodeEscape p.ord := by
    rw [escape_of_le (by omega), if_pos (by omega)]
  have hlow : escape q = unicodeEscape q.ord := by
    rw [escape_of_le (by omega), if_pos (by omega)]
  have hfirst : 0xD800 + ((joinSurrogates p.ord q.ord).ord - 0x10000) / 0x400 = p.ord := by omega
  have hsecond : 0xDC00 + ((joinSurrogates p.ord q.ord).ord - 0x10000) % 0x400 = q.ord := by omega
  rw [escape_of_le (by omega), if_neg (by omega), hfirst, hsecond, hhigh, hlow]

theorem flatMap_escape_joined (s : Str) : (joined s).flatMap escape = s.flatMap escape := by
  fun_induction joined s with
  | case1 p q s hpair ih =>
      rw [List.flatMap_cons, ih, escape_joinSurrogates hpair.1 hpair.2]
      simp
  | case2 p q s hpair ih => rw [List.flatMap_cons, ih, List.flatMap_cons (x := p)]
  | case3 s => rfl

theorem quote_joined (s : Str) : quote (joined s) = quote s := by
  rw [quote, quote, flatMap_escape_joined]

section Writing

variable [JsonFloat F] {o : DumpOptions}

theorem dumps_obj_of_unsorted (ho : o.sortKeys = false) (members : List (Str × Json F)) :
    dumps o (obj members) = .scalar '{' :: o.itemSep.intercalate
      (members.map fun m => quote m.1 ++ o.keySep ++ dumps o m.2) ++ [.scalar '}'] := by
  rw [dumps, arrangeMembers, ho, dumpsMembers_eq, if_neg Bool.false_ne_true, List.map_map]
  rfl

/-- The two spellings of a pair are written alike. -/
theorem dumps_rejoin (ho : o.sortKeys = false) (v : Json F) : dumps o (rejoin v) = dumps o v := by
  induction v with
  | arr items ih =>
      rw [rejoin_arr, dumps, dumps, dumpsItems_eq, dumpsItems_eq, List.map_map]
      simp only [List.map_congr_left ih, Function.comp_def]
  | obj members ih =>
      rw [rejoin_obj, dumps_obj_of_unsorted ho, dumps_obj_of_unsorted ho, List.map_map]
      congr 3
      exact List.map_congr_left fun m hm => by simp [quote_joined, ih m hm]
  | str s => exact quote_joined s
  | _ => rfl

/-- Sorting while writing writes the sorted value. -/
theorem dumps_of_sortKeys (ho : o.sortKeys = true) (v : Json F) :
    dumps o v = dumps { o with sortKeys := false } (sorted v) := by
  induction v with
  | arr items ih =>
      rw [sorted_arr, dumps, dumps, dumpsItems_eq, dumpsItems_eq, List.map_map]
      simp only [List.map_congr_left ih, Function.comp_def]
  | obj members ih =>
      have hmembers : members.map (fun m => (m.1, dumps o m.2)) =
          (members.map fun m => (m.1, sorted m.2)).map
            fun m => (m.1, dumps { o with sortKeys := false } m.2) := by
        rw [List.map_map]
        exact List.map_congr_left fun m hm => by simp [ih m hm]
      rw [sorted_obj, dumps_obj_of_unsorted (o := { o with sortKeys := false }) rfl, dumps, arrangeMembers, ho, if_pos rfl,
        dumpsMembers_eq, hmembers]
      congr 3
      have hsort := sortMembers_map (fun _ => dumps { o with sortKeys := false })
        (members.map fun m => (m.1, sorted m.2))
      rw [sortMembers] at hsort
      rw [hsort, List.map_map]
      rfl
  | bool b => cases b <;> rfl
  | _ => rfl

/-- Values written alike by a writer that sorts are equal, up to the order of
members and the spelling of pairs. -/
theorem dumps_eq_iff {a b : Str} (hfloat : FloatsReadBack F) (ho : o.sortKeys = true)
    (hplain : DumpOptions.Plain { o with sortKeys := false } a b) {v w : Json F} :
    dumps o v = dumps o w ↔ rejoin (sorted v) = rejoin (sorted w) := by
  rw [dumps_of_sortKeys ho, dumps_of_sortKeys ho]
  constructor
  · intro h
    have hv : Spells _ (rejoin (sorted v)) := spells_dumps hplain hfloat (sorted v)
    rw [h] at hv
    exact hv.unique (spells_dumps hplain hfloat (sorted w))
  · intro h
    rw [← dumps_rejoin rfl, h, dumps_rejoin rfl]

end Writing

/-! ## Names -/

theorem joined_of_lt {s : Str} (h : ∀ p ∈ s, p.ord < 0xD800) : joined s = s := by
  induction s with
  | nil => rfl
  | cons p s ih =>
      have hp : ¬isHigh p.ord := by
        rw [isHigh_eq_false (h p (by simp))]
        simp
      rw [joined_cons_of_not_isHigh hp, ih fun q hq => h q (by simp [hq])]

theorem eq_of_joined {s t : Str} (ht : ∀ p ∈ t, p.ord < 0xD800) (h : joined s = t) : s = t := by
  fun_induction joined s generalizing t with
  | case1 p q s hpair ih =>
      have hlt := ht (joinSurrogates p.ord q.ord) (h ▸ List.mem_cons_self)
      rw [ord_joinSurrogates hpair.1 hpair.2] at hlt
      omega
  | case2 p q s hpair ih =>
      cases t with
      | nil => cases h
      | cons r t =>
          obtain ⟨rfl, htail⟩ := List.cons.inj h
          rw [ih (fun x hx => ht x (by simp [hx])) htail]
  | case3 s => exact h

/-- Members are found under their plain names in the rejoined object as well. -/
theorem get?_rejoin {key : Str} (hkey : ∀ p ∈ key, p.ord < 0xD800)
    (members : List (Str × Json F)) :
    get? key (members.map fun m => (joined m.1, rejoin m.2)) = (get? key members).map rejoin := by
  induction members with
  | nil => rfl
  | cons m members ih =>
      obtain ⟨k, v⟩ := m
      by_cases hk : k = key
      · subst hk
        simp [get?, joined_of_lt hkey]
      · have hjoined : joined k ≠ key := fun heq => hk (eq_of_joined hkey heq)
        rw [List.map_cons, get?, if_neg hjoined, ih, get?, if_neg hk]

/-! ## Reading -/

/-- Text without surrogates. -/
def Scalars (s : Str) : Prop := ∀ p ∈ s, ¬(isHigh p.ord ∨ isLow p.ord)

theorem scalars_map_scalar (cs : List Char) : Scalars (cs.map .scalar) := by
  intro p hp
  obtain ⟨c, -, rfl⟩ := List.mem_map.mp hp
  have hvalid : c.toNat < 0xD800 ∨ 0xDFFF < c.toNat ∧ c.toNat < 0x110000 := c.valid
  have hord : (CodePoint.scalar c).ord = c.toNat := rfl
  rw [hord]
  unfold isHigh isLow
  simp only [Bool.and_eq_true, decide_eq_true_eq]
  omega

/-- No string of the value has both halves of a pair next to each other. -/
def Unsplit (v : Json F) : Prop := rejoin v = v

theorem unsplit_obj_iff {members : List (Str × Json F)} : Unsplit (obj members) ↔
    ∀ m ∈ members, joined m.1 = m.1 ∧ Unsplit m.2 := by
  rw [Unsplit, rejoin_obj, obj.injEq]
  constructor
  · intro h m hm
    have hsame := List.map_inj_left.mp (h.trans (List.map_id members).symm) m hm
    exact ⟨congrArg Prod.fst hsame, congrArg Prod.snd hsame⟩
  · intro h
    refine (List.map_congr_left fun m hm => ?_).trans (List.map_id members)
    exact Prod.ext (h m hm).1 (h m hm).2

theorem unsplit_arr_iff {items : List (Json F)} :
    Unsplit (arr items) ↔ ∀ v ∈ items, Unsplit v := by
  rw [Unsplit, rejoin_arr, arr.injEq]
  constructor
  · intro h
    exact List.map_inj_left.mp (h.trans (List.map_id items).symm)
  · intro h
    exact (List.map_congr_left h).trans (List.map_id _)

theorem unsplit_sorted {v : Json F} (h : Unsplit v) : Unsplit v.sorted := by
  induction v with
  | arr items ih =>
      rw [unsplit_arr_iff] at h
      rw [sorted_arr, unsplit_arr_iff, List.forall_mem_map]
      exact fun v hv => ih v hv (h v hv)
  | obj members ih =>
      rw [unsplit_obj_iff] at h
      rw [sorted_obj, unsplit_obj_iff]
      intro m hm
      obtain ⟨m, hmem, rfl⟩ := List.mem_map.mp ((perm_sortedObj members).mem_iff.mp hm)
      exact ⟨(h m hmem).1, ih m hmem (h m hmem).2⟩
  | _ => exact h

theorem ord_chr (u : ℕ) : (CodePoint.chr u).ord = u ∨
    ¬(0xD800 ≤ u ∧ u < 0xE000) ∧
      ¬(0xD800 ≤ (CodePoint.chr u).ord ∧ (CodePoint.chr u).ord < 0xE000) := by
  by_cases hu : 0xD800 ≤ u ∧ u < 0xE000
  · left
    rw [CodePoint.chr, dif_pos hu]
    show 0xD800 + (u - 0xD800) = u
    omega
  · right
    have hvalid : (Char.ofNat u).toNat < 0xD800 ∨
        0xDFFF < (Char.ofNat u).toNat ∧ (Char.ofNat u).toNat < 0x110000 := (Char.ofNat u).valid
    rw [CodePoint.chr, dif_neg hu]
    show _ ∧ ¬(0xD800 ≤ (Char.ofNat u).toNat ∧ (Char.ofNat u).toNat < 0xE000)
    omega

theorem isHigh_ord_chr (u : ℕ) : isHigh (CodePoint.chr u).ord = isHigh u := by
  rcases ord_chr u with h | h
  · rw [h]
  · rw [Bool.eq_iff_iff]
    simp only [isHigh, Bool.and_eq_true, decide_eq_true_eq]
    omega

theorem isLow_ord_chr (u : ℕ) : isLow (CodePoint.chr u).ord = isLow u := by
  rcases ord_chr u with h | h
  · rw [h]
  · rw [Bool.eq_iff_iff]
    simp only [isLow, Bool.and_eq_true, decide_eq_true_eq]
    omega

theorem not_isLow_of_isHigh {u : ℕ} (h : isHigh u) : ¬isLow u := by
  simp only [isHigh, isLow, Bool.and_eq_true, decide_eq_true_eq] at h ⊢
  omega

/-- A string read behind a code unit that waits: it has no split pair, and does
not complete the one begun. -/
def UnsplitAfter (pending : Option ℕ) (t : Str) : Prop :=
  joined t = t ∧ (pending.isSome → ∀ p ∈ t.head?, ¬isLow p.ord)

theorem UnsplitAfter.flush_cons {pending : Option ℕ} (hpending : Waiting pending) {p : CodePoint}
    (hp : ¬(isHigh p.ord ∨ isLow p.ord)) {t : Str} (ht : UnsplitAfter none t) :
    UnsplitAfter pending (flush pending ++ p :: t) := by
  refine ⟨by rw [joined_flush_cons hp, ht.1], fun hsome => ?_⟩
  cases pending with
  | none => cases hsome
  | some hi =>
      rintro q ⟨⟩
      rw [isLow_ord_chr]
      exact not_isLow_of_isHigh (hpending hi rfl)

theorem unsplitAfter_flush {pending : Option ℕ} (hpending : Waiting pending) :
    UnsplitAfter pending (flush pending) := by
  cases pending with
  | none => exact ⟨rfl, by rintro ⟨⟩⟩
  | some hi =>
      refine ⟨rfl, fun _ => ?_⟩
      rintro q ⟨⟩
      rw [isLow_ord_chr]
      exact not_isLow_of_isHigh (hpending hi rfl)

theorem waiting_takeUnit (pending : Option ℕ) (u : ℕ) : Waiting (takeUnit pending u).2 := by
  unfold takeUnit
  split
  · split
    · exact waiting_none
    · split
      · rename_i hhigh
        rintro v ⟨⟩
        exact hhigh
      · exact waiting_none
  · split
    · rename_i hhigh
      rintro v ⟨⟩
      exact hhigh
    · exact waiting_none

/-- Taking in a code unit joins it to the one that waits, if they are a pair. -/
theorem UnsplitAfter.takeUnit {pending : Option ℕ} (hpending : Waiting pending) {u : ℕ} {t : Str}
    (ht : UnsplitAfter (takeUnit pending u).2 t) :
    UnsplitAfter pending ((takeUnit pending u).1 ++ t) := by
  cases pending with
  | none =>
      refine ⟨?_, by rintro ⟨⟩⟩
      unfold Json.takeUnit at ht ⊢
      dsimp only at ht ⊢
      split at ht
      · rw [if_pos ‹_›]
        exact ht.1
      · rename_i hhigh
        rw [if_neg hhigh]
        rw [← isHigh_ord_chr] at hhigh
        rw [List.singleton_append, joined_cons_of_not_isHigh hhigh, ht.1]
  | some hi =>
      have hhi : isHigh hi := hpending hi rfl
      have hhead : ¬isLow (CodePoint.chr hi).ord := by
        rw [isLow_ord_chr]
        exact not_isLow_of_isHigh hhi
      unfold Json.takeUnit at ht ⊢
      dsimp only at ht ⊢
      split at ht
      · rename_i hlow
        rw [if_pos hlow]
        have hord := ord_joinSurrogates hhi hlow
        have hneither : ¬isHigh (joinSurrogates hi u).ord ∧ ¬isLow (joinSurrogates hi u).ord := by
          simp only [isHigh, isLow, Bool.and_eq_true, decide_eq_true_eq]
          omega
        refine ⟨by rw [List.singleton_append, joined_cons_of_not_isHigh hneither.1, ht.1], ?_⟩
        intro _ q hq
        rw [← Option.some.inj (show some (joinSurrogates hi u) = some q from hq)]
        exact hneither.2
      · rename_i hlow
        rw [if_neg hlow]
        split at ht
        · rename_i hhigh
          rw [if_pos hhigh]
          refine ⟨?_, by rintro - q ⟨⟩; exact hhead⟩
          cases t with
          | nil => rfl
          | cons q t =>
              have hq : ¬isLow q.ord := ht.2 rfl q rfl
              rw [List.singleton_append, joined_cons_of_not_isLow hq, ht.1]
        · rename_i hhigh
          rw [if_neg hhigh]
          refine ⟨?_, by rintro - q ⟨⟩; exact hhead⟩
          rw [← isHigh_ord_chr] at hhigh
          rw [← isLow_ord_chr] at hlow
          show joined (_ :: _ :: t) = _ :: _ :: t
          rw [joined_cons_of_not_isLow hlow, joined_cons_of_not_isHigh hhigh, ht.1]

theorem scanString_unsplit {pending : Option ℕ} {s : Str} (hs : Scalars s)
    (hpending : Waiting pending) :
    Returns (fun x => UnsplitAfter pending x.1)
      (scanString pending s : Except (LoadError ε) (Str × Str)) := by
  fun_induction scanString pending s with
  | case1 => exact returns_error
  | case2 => exact returns_ok (unsplitAfter_flush hpending)
  | case3 => exact returns_error
  | case4 pending a b c d s u hu ih =>
      exact (ih (fun p hp => hs p (by simp [hp])) (waiting_takeUnit pending u)).map
        fun x hx => hx.takeUnit hpending
  | case5 => exact returns_error
  | case6 pending p s hnot q hq ih =>
      have hneither : ¬(isHigh q.ord ∨ isLow q.ord) := by
        unfold simpleEscape? at hq
        split at hq <;> cases hq <;> decide
      exact (ih (fun p hp => hs p (by simp [hp])) waiting_none).map
        fun x hx => hx.flush_cons hpending hneither
  | case7 => exact returns_error
  | case8 pending p s _ _ _ _ ih =>
      exact (ih (fun p hp => hs p (by simp [hp])) waiting_none).map
        fun x hx => hx.flush_cons hpending (hs p (by simp))

/-- What a strict reader reads from text without surrogates has no split pair. -/
theorem RefusesRepeats.unsplit_of_loads [JsonFloat F]
    {hook : List (Str × Json F) → Except ε (Json F)} (h : RefusesRepeats hook) {text : Str}
    (htext : Scalars text) : Returns Unsplit (loads hook text) := by
  have hinvariant : ReadInvariant hook Scalars (fun k => joined k = k) Unsplit :=
    { suffix := fun ht hs p hp => hs p (ht.mem hp)
      leaf := fun {v} hv => by cases v <;> trivial
      string := fun hs x hx =>
        have hjoined := (scanString_unsplit hs waiting_none x hx).1
        ⟨hjoined, congrArg str hjoined⟩
      array := fun {items} hitems => by
        rw [Unsplit, rejoin_arr, List.map_congr_left hitems, List.map_id']
      hook := fun {pairs} hpairs v hv => by
        by_cases hnames : (pairs.map Prod.fst).Nodup
        · rw [h.accepts pairs hnames] at hv
          cases hv
          rw [Unsplit, rejoin_obj]
          refine congrArg obj ((List.map_congr_left fun m hm => ?_).trans (List.map_id pairs))
          exact Prod.ext (hpairs m hm).1 (hpairs m hm).2
        · obtain ⟨e, he⟩ := h.refuses pairs hnames
          rw [he] at hv
          cases hv }
  exact hinvariant.loads htext

end Json

import CacheControl.Lib.Json

/-!
# Texts of the reader and the writer

A reading raises nothing of its own besides malformed text.  The writer escapes
everything but printable ASCII, so what it writes can always be encoded and
holds no control character, provided that floats are written so.
-/

open PyText

namespace Json

variable {F ε : Type}

/-! ## Errors of a reading -/

section Reading

variable [JsonFloat F] {hook : List (Str × Json F) → Except ε (Json F)}

/-- What a reading raises besides malformed text was raised by the hook. -/
def FromHook {α : Type} (hook : List (Str × Json F) → Except ε (Json F))
    (x : Except (LoadError ε) α) : Prop :=
  ∀ e, x = .error (.hook e) → ∃ pairs, hook pairs = .error e

omit [JsonFloat F] in
theorem fromHook_ok {α : Type} (a : α) : FromHook hook (.ok a : Except (LoadError ε) α) := by
  rintro e ⟨⟩

omit [JsonFloat F] in
theorem fromHook_malformed {α : Type} :
    FromHook hook (.error .malformed : Except (LoadError ε) α) := by
  rintro e ⟨⟩

omit [JsonFloat F] in
theorem FromHook.bind {α β : Type} {x : Except (LoadError ε) α}
    {f : α → Except (LoadError ε) β} (hx : FromHook hook x) (hf : ∀ a, FromHook hook (f a)) :
    FromHook hook (x >>= f) := by
  cases x with
  | error e =>
      rintro e' h
      cases h
      exact hx e' rfl
  | ok a => exact hf a

omit [JsonFloat F] in
theorem fromHook_applyHook (pairs : List (Str × Json F)) (s : Str) :
    FromHook hook (applyHook hook pairs s) := by
  intro e h
  unfold applyHook at h
  split at h
  · cases h
  · rename_i e' he
    cases h
    exact ⟨pairs, he⟩

omit [JsonFloat F] in
theorem fromHook_scanString (pending : Option ℕ) (s : Str) :
    FromHook hook (scanString pending s : Except (LoadError ε) (Str × Str)) := by
  have hmap : ∀ {α β : Type} (x : Except (LoadError ε) α) (f : α → β), FromHook hook x →
      FromHook hook (x.map f) := by
    rintro α β (e | a) f hx e' h
    · cases h
      exact hx e' rfl
    · cases h
  fun_induction scanString pending s
  all_goals first
    | exact fromHook_ok _
    | exact fromHook_malformed
    | exact hmap _ _ (by assumption)

theorem fromHook_scan (n : ℕ) :
    (∀ s, FromHook hook (scanOnce hook n s)) ∧ (∀ s, FromHook hook (scanMembers hook n s)) ∧
      ∀ s, FromHook hook (scanItems hook n s) := by
  induction n with
  | zero => exact ⟨fun _ => fromHook_malformed, fun _ => fromHook_malformed,
      fun _ => fromHook_malformed⟩
  | succ n ih =>
      obtain ⟨honce, hmembers, hitems⟩ := ih
      refine ⟨fun s => ?_, fun s => ?_, fun s => ?_⟩
      · unfold scanOnce
        split
        · exact (fromHook_scanString _ _).bind fun _ => fromHook_ok _
        · split
          · exact fromHook_applyHook _ _
          · exact (hmembers _).bind fun _ => fromHook_applyHook _ _
          · exact fromHook_malformed
        · split
          · exact fromHook_ok _
          · exact (hitems _).bind fun _ => fromHook_ok _
        · split
          · exact fromHook_ok _
          · exact fromHook_malformed
      · unfold scanMembers
        refine (fromHook_scanString _ _).bind fun key => ?_
        dsimp only
        split
        · refine (honce _).bind fun value => ?_
          split
          · exact fromHook_ok _
          · split
            · exact (hmembers _).bind fun _ => fromHook_ok _
            · exact fromHook_malformed
          · exact fromHook_malformed
        · exact fromHook_malformed
      · unfold scanItems
        refine (honce _).bind fun value => ?_
        dsimp only
        split
        · exact fromHook_ok _
        · exact (hitems _).bind fun _ => fromHook_ok _
        · exact fromHook_malformed

theorem fromHook_loads (text : Str) : FromHook hook (loads hook text) := by
  unfold loads
  split
  · exact fromHook_malformed
  · refine ((fromHook_scan _).1 _).bind fun value => ?_
    dsimp only
    split
    · exact fromHook_ok _
    · exact fromHook_malformed

end Reading

/-! ## Printable text -/

def Printable (p : CodePoint) : Prop := 0x20 ≤ p.ord ∧ p.ord ≤ 0x7E

instance (p : CodePoint) : Decidable (Printable p) :=
  inferInstanceAs (Decidable (0x20 ≤ p.ord ∧ p.ord ≤ 0x7E))

/-- Every float is written in printable characters. -/
def FloatsPrintable (F : Type) [JsonFloat F] : Prop :=
  ∀ x : F, ∀ p ∈ JsonFloat.toText x, Printable p

theorem exists_scalar_of_printable {p : CodePoint} (h : Printable p) : ∃ c, p = .scalar c := by
  cases p with
  | scalar c => exact ⟨c, rfl⟩
  | surrogate i =>
      have hord : 0xD800 + (i : ℕ) ≤ 0x7E := h.2
      omega

theorem exists_encode?_of_printable {s : Str} (h : ∀ p ∈ s, Printable p) :
    ∃ b, encode? s = some b := by
  induction s with
  | nil => exact ⟨[], rfl⟩
  | cons p s ih =>
      obtain ⟨c, rfl⟩ := exists_scalar_of_printable (h p (by simp))
      obtain ⟨b, hb⟩ := ih fun q hq => h q (by simp [hq])
      exact ⟨_, by rw [encode?, hb]; rfl⟩

theorem printable_digitChar {n : ℕ} (h : n < 16) : Printable (.scalar (Nat.digitChar n)) := by
  revert n
  decide +kernel

theorem printable_decimal (n : ℕ) : ∀ p ∈ decimal n, Printable p := by
  intro p hp
  obtain ⟨c, hc, rfl⟩ := List.mem_map.mp hp
  have hascii := mem_toDigits_ascii hc
  exact ⟨by show 0x20 ≤ c.toNat; omega, by show c.toNat ≤ 0x7E; omega⟩

theorem printable_intText (n : ℤ) : ∀ p ∈ intText n, Printable p := by
  intro p hp
  rcases List.mem_append.mp hp with hp | hp
  · split at hp
    · rw [List.mem_singleton] at hp
      subst hp
      decide
    · simp at hp
  · exact printable_decimal _ p hp

theorem printable_words : ∀ w ∈ ["\\u", "null", "true", "false"], ∀ p ∈ lit w, Printable p := by
  decide +kernel

theorem printable_unicodeEscape (n : ℕ) : ∀ p ∈ unicodeEscape n, Printable p := by
  intro p hp
  rcases List.mem_append.mp hp with hp | hp
  · exact printable_words _ (by simp) p hp
  · obtain ⟨d, hd, rfl⟩ := List.mem_map.mp hp
    apply printable_digitChar
    simp only [List.mem_cons, List.not_mem_nil, or_false] at hd
    omega

theorem printable_escape (p : CodePoint) : ∀ q ∈ escape p, Printable q := by
  unfold escape
  split
  case h_8 =>
    split
    · rename_i hp
      intro q hq
      rw [List.mem_singleton.mp hq]
      exact hp
    · split
      · exact printable_unicodeEscape _
      · intro q hq
        rcases List.mem_append.mp hq with hq | hq
        · exact printable_unicodeEscape _ q hq
        · exact printable_unicodeEscape _ q hq
  all_goals decide +kernel

theorem printable_quote (s : Str) : ∀ q ∈ quote s, Printable q := by
  intro q hq
  simp only [quote, List.cons_append, List.mem_cons, List.mem_append, List.mem_flatMap,
    List.not_mem_nil, or_false] at hq
  rcases hq with rfl | ⟨p, -, hp⟩ | rfl
  · decide
  · exact printable_escape p q hp
  · decide

theorem printable_intercalate {sep : Str} (hsep : ∀ p ∈ sep, Printable p) {parts : List Str}
    (h : ∀ t ∈ parts, ∀ p ∈ t, Printable p) : ∀ p ∈ sep.intercalate parts, Printable p := by
  induction parts with
  | nil => simp [List.intercalate]
  | cons t parts ih =>
      cases parts with
      | nil => simpa [List.intercalate] using h t (by simp)
      | cons u parts =>
          intro p hp
          rw [List.intercalate_cons_cons, List.mem_append, List.mem_append] at hp
          rcases hp with (hp | hp) | hp
          · exact h t (by simp) p hp
          · exact hsep p hp
          · exact ih (fun t ht => h t (by simp [ht])) p hp

theorem mem_arrangeMembers {sortKeys : Bool} {members : List (Str × Str)} {m : Str × Str} :
    m ∈ arrangeMembers sortKeys members ↔ m ∈ members := by
  unfold arrangeMembers
  split
  · exact List.mem_insertionSort _
  · rfl

structure DumpOptions.Printable (o : DumpOptions) : Prop where
  itemSep : ∀ p ∈ o.itemSep, Json.Printable p
  keySep : ∀ p ∈ o.keySep, Json.Printable p

theorem printable_canonical : DumpOptions.canonical.Printable := by
  constructor <;> decide +kernel

section Writing

variable [JsonFloat F] {o : DumpOptions}

mutual

theorem printable_dumps (hfloat : FloatsPrintable F) (ho : o.Printable) (v : Json F) :
    ∀ p ∈ dumps o v, Printable p := by
  cases v with
  | null => exact printable_words "null" (by simp)
  | bool b =>
      cases b with
      | false => exact printable_words "false" (by simp)
      | true => exact printable_words "true" (by simp)
  | int n => exact printable_intText n
  | float x => exact hfloat x
  | str s => exact printable_quote s
  | arr items =>
      intro p hp
      simp only [dumps, List.cons_append, List.mem_cons, List.mem_append, List.not_mem_nil,
        or_false] at hp
      rcases hp with rfl | hp | rfl
      · decide
      · exact printable_intercalate ho.itemSep (printable_dumpsItems hfloat ho items) p hp
      · decide
  | obj members =>
      intro p hp
      simp only [dumps, List.cons_append, List.mem_cons, List.mem_append, List.not_mem_nil,
        or_false] at hp
      rcases hp with rfl | hp | rfl
      · decide
      · refine printable_intercalate ho.itemSep ?_ p hp
        intro t ht q hq
        obtain ⟨m, hm, rfl⟩ := List.mem_map.mp ht
        simp only [List.mem_append] at hq
        rcases hq with (hq | hq) | hq
        · exact printable_quote _ q hq
        · exact ho.keySep q hq
        · exact printable_dumpsMembers hfloat ho members m (mem_arrangeMembers.mp hm) q hq
      · decide

theorem printable_dumpsItems (hfloat : FloatsPrintable F) (ho : o.Printable)
    (items : List (Json F)) : ∀ t ∈ dumpsItems o items, ∀ p ∈ t, Printable p := by
  cases items with
  | nil => simp [dumpsItems]
  | cons v items =>
      intro t ht
      rcases List.mem_cons.mp ht with rfl | ht
      · exact printable_dumps hfloat ho v
      · exact printable_dumpsItems hfloat ho items t ht

theorem printable_dumpsMembers (hfloat : FloatsPrintable F) (ho : o.Printable)
    (members : List (Str × Json F)) : ∀ m ∈ dumpsMembers o members, ∀ p ∈ m.2, Printable p := by
  cases members with
  | nil => simp [dumpsMembers]
  | cons m members =>
      obtain ⟨k, v⟩ := m
      intro x hx
      rcases List.mem_cons.mp hx with rfl | hx
      · exact printable_dumps hfloat ho v
      · exact printable_dumpsMembers hfloat ho members x hx

end

end Writing

end Json

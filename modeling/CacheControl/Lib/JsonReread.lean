import CacheControl.Lib.JsonHooks

/-!
# Reading back what was written

What the writer wrote by default is read back as the value that was written,
except that two surrogates which spell a pair come back as one character.
-/

open PyText

namespace Json

variable {F ε : Type}

/-! ## Strings -/

/-- A string in which every pair of surrogates is one character. -/
def joined : Str → Str
  | p :: q :: s =>
      if isHigh p.ord ∧ isLow q.ord then joinSurrogates p.ord q.ord :: joined s
      else p :: joined (q :: s)
  | s => s

theorem chr_ord (p : CodePoint) : CodePoint.chr p.ord = p := by
  cases p with
  | scalar c =>
      have hvalid : c.toNat < 0xD800 ∨ 0xDFFF < c.toNat ∧ c.toNat < 0x110000 := c.valid
      have hnot : ¬(0xD800 ≤ c.toNat ∧ c.toNat < 0xE000) := by omega
      simp [CodePoint.chr, CodePoint.ord, hnot]
  | surrogate i =>
      have hi := i.isLt
      have hmem : 0xD800 ≤ 0xD800 + (i : ℕ) ∧ 0xD800 + (i : ℕ) < 0xE000 := by omega
      simp [CodePoint.chr, CodePoint.ord, hmem]

theorem ord_chr_of_isHigh {u : ℕ} (h : isHigh u) : (CodePoint.chr u).ord = u := by
  have hu : 0xD800 ≤ u ∧ u < 0xE000 := by
    simp only [isHigh, Bool.and_eq_true, decide_eq_true_eq] at h
    omega
  rw [CodePoint.chr, dif_pos hu]
  show 0xD800 + (u - 0xD800) = u
  omega

theorem joined_cons_of_not_isHigh {p : CodePoint} (h : ¬isHigh p.ord) (s : Str) :
    joined (p :: s) = p :: joined s := by
  cases s with
  | nil => rfl
  | cons q s => rw [joined, if_neg fun hpq => h hpq.1]

theorem joined_cons_of_not_isLow {q : CodePoint} (h : ¬isLow q.ord) (p : CodePoint) (s : Str) :
    joined (p :: q :: s) = p :: joined (q :: s) := by
  rw [joined, if_neg fun hpq => h hpq.2]

theorem joined_pair {p q : CodePoint} (hp : isHigh p.ord) (hq : isLow q.ord) (s : Str) :
    joined (p :: q :: s) = joinSurrogates p.ord q.ord :: joined s := by
  rw [joined, if_pos ⟨hp, hq⟩]

theorem hexDigit?_digitChar : ∀ d < 16, hexDigit? (.scalar (Nat.digitChar d)) = some d := by
  decide +kernel

theorem scanString_unicodeEscape {u : ℕ} (hu : u < 0x10000) (pending : Option ℕ) (r : Str) :
    (scanString pending (unicodeEscape u ++ r) : Except (LoadError ε) (Str × Str)) =
      (scanString (takeUnit pending u).2 r).map fun x => ((takeUnit pending u).1 ++ x.1, x.2) := by
  have hhex : hex4? (.scalar (Nat.digitChar (u / 4096 % 16)))
      (.scalar (Nat.digitChar (u / 256 % 16))) (.scalar (Nat.digitChar (u / 16 % 16)))
      (.scalar (Nat.digitChar (u % 16))) = some u := by
    rw [hex4?, hexDigit?_digitChar _ (by omega), hexDigit?_digitChar _ (by omega),
      hexDigit?_digitChar _ (by omega), hexDigit?_digitChar _ (by omega)]
    show some _ = some u
    congr 1
    omega
  have htext : unicodeEscape u ++ r = .scalar '\\' :: .scalar 'u' ::
      .scalar (Nat.digitChar (u / 4096 % 16)) :: .scalar (Nat.digitChar (u / 256 % 16)) ::
      .scalar (Nat.digitChar (u / 16 % 16)) :: .scalar (Nat.digitChar (u % 16)) :: r := rfl
  rw [htext, scanString, hhex]

theorem ord_lt (p : CodePoint) : p.ord < 0x110000 := by
  cases p with
  | scalar c =>
      have hvalid : c.toNat < 0xD800 ∨ 0xDFFF < c.toNat ∧ c.toNat < 0x110000 := c.valid
      show c.toNat < 0x110000
      omega
  | surrogate i =>
      have hi := i.isLt
      show 0xD800 + (i : ℕ) < 0x110000
      omega

/-- A character beyond the basic plane is written as two escapes, and these are
read as that character. -/
theorem scanString_pair {p : CodePoint} (hp : 0x10000 ≤ p.ord) (pending : Option ℕ) (r : Str) :
    (scanString pending (unicodeEscape (0xD800 + (p.ord - 0x10000) / 0x400) ++
        unicodeEscape (0xDC00 + (p.ord - 0x10000) % 0x400) ++ r) :
          Except (LoadError ε) (Str × Str)) =
      (scanString none r).map fun x => (flush pending ++ p :: x.1, x.2) := by
  have hlt := ord_lt p
  have hjoin : joinSurrogates (0xD800 + (p.ord - 0x10000) / 0x400)
      (0xDC00 + (p.ord - 0x10000) % 0x400) = p := by
    rw [joinSurrogates, show 0x10000 + (0xD800 + (p.ord - 0x10000) / 0x400 - 0xD800) * 0x400 +
      (0xDC00 + (p.ord - 0x10000) % 0x400 - 0xDC00) = p.ord by omega, chr_ord]
  generalize hhi : 0xD800 + (p.ord - 0x10000) / 0x400 = hi at *
  generalize hlo : 0xDC00 + (p.ord - 0x10000) % 0x400 = lo at *
  have hhigh : isHigh hi = true := by
    simp only [isHigh, Bool.and_eq_true, decide_eq_true_eq]
    omega
  have hnotLow : isLow hi = false := by
    simp only [isLow, Bool.and_eq_false_iff, decide_eq_false_iff_not]
    omega
  have hlow : isLow lo = true := by
    simp only [isLow, Bool.and_eq_true, decide_eq_true_eq]
    omega
  have hfirst : takeUnit pending hi = (flush pending, some hi) := by
    cases pending <;> simp [takeUnit, hhigh, hnotLow, flush]
  rw [List.append_assoc, scanString_unicodeEscape (by omega), hfirst,
    scanString_unicodeEscape (by omega)]
  simp only [takeUnit, hlow, if_true, hjoin]
  cases (scanString none r : Except (LoadError ε) (Str × Str)) <;> simp [Except.map]

/-- A printable character that is not escaped is read as it stands. -/
theorem scanString_printable {p : CodePoint} (hp : 0x20 ≤ p.ord) (hquote : p ≠ .scalar '"')
    (hslash : p ≠ .scalar '\\') (pending : Option ℕ) (r : Str) :
    (scanString pending (p :: r) : Except (LoadError ε) (Str × Str)) =
      (scanString none r).map fun x => (flush pending ++ p :: x.1, x.2) := by
  rw [scanString.eq_def]
  split
  · simp_all
  · simp_all
  · simp_all
  · simp_all
  · rename_i heq
    cases heq
    rw [if_neg (by omega)]

theorem scanString_simple {p q : CodePoint} (hq : simpleEscape? q = some p) (pending : Option ℕ)
    (r : Str) : (scanString pending (.scalar '\\' :: q :: r) : Except (LoadError ε) (Str × Str)) =
      (scanString none r).map fun x => (flush pending ++ p :: x.1, x.2) := by
  rw [scanString.eq_def]
  split
  · simp_all
  · simp_all
  · rename_i heq
    simp only [List.cons.injEq] at heq
    obtain ⟨-, rfl, -⟩ := heq
    simp [simpleEscape?] at hq
  · rename_i heq
    simp only [List.cons.injEq] at heq
    obtain ⟨-, rfl, rfl⟩ := heq
    rw [hq]
  · rename_i hnot heq
    cases heq
    exact (hnot _ _ rfl rfl).elim

theorem isHigh_eq_false {u : ℕ} (h : u < 0xD800) : isHigh u = false := by
  simp only [isHigh, Bool.and_eq_false_iff, decide_eq_false_iff_not]
  omega

theorem isLow_eq_false {u : ℕ} (h : u < 0xDC00) : isLow u = false := by
  simp only [isLow, Bool.and_eq_false_iff, decide_eq_false_iff_not]
  omega

theorem takeUnit_of_not {p : CodePoint} (h : ¬(isHigh p.ord ∨ isLow p.ord))
    (pending : Option ℕ) : takeUnit pending p.ord = (flush pending ++ [p], none) := by
  rw [not_or, Bool.not_eq_true, Bool.not_eq_true] at h
  cases pending <;> simp [takeUnit, h.1, h.2, flush, chr_ord]

/-- An escaped character is read as itself, except that a surrogate may wait
for its other half. -/
theorem scanString_escape (p : CodePoint) (pending : Option ℕ) (r : Str) :
    (scanString pending (escape p ++ r) : Except (LoadError ε) (Str × Str)) =
      if isHigh p.ord ∨ isLow p.ord then
        (scanString (takeUnit pending p.ord).2 r).map fun x =>
          ((takeUnit pending p.ord).1 ++ x.1, x.2)
      else (scanString none r).map fun x => (flush pending ++ p :: x.1, x.2) := by
  unfold escape
  split
  case h_8 hquote hslash _ _ _ _ _ =>
    split
    · rename_i hprintable
      have hsmall : ¬(isHigh p.ord ∨ isLow p.ord) := by
        rw [isHigh_eq_false (by omega), isLow_eq_false (by omega)]
        simp
      rw [if_neg hsmall]
      exact scanString_printable hprintable.1 hquote hslash pending r
    · split
      · rename_i hbasic
        rw [scanString_unicodeEscape (by omega)]
        split
        · rfl
        · rename_i hnot
          rw [takeUnit_of_not hnot]
          simp
      · rename_i hbasic
        have hlarge : ¬(isHigh p.ord ∨ isLow p.ord) := by
          simp only [isHigh, isLow, Bool.and_eq_true, decide_eq_true_eq]
          omega
        rw [if_neg hlarge]
        exact scanString_pair (by omega) pending r
  all_goals
    rw [if_neg (by decide)]
    exact scanString_simple rfl pending r
/-- A code unit that waits for its other half is the first of a pair. -/
def Waiting (pending : Option ℕ) : Prop := ∀ u ∈ pending, isHigh u

theorem waiting_none : Waiting none := by rintro u ⟨⟩

theorem takeUnit_spec {p : CodePoint} (h : isHigh p.ord ∨ isLow p.ord) {pending : Option ℕ}
    (hpending : Waiting pending) : Waiting (takeUnit pending p.ord).2 ∧ ∀ s,
      (takeUnit pending p.ord).1 ++ joined (flush (takeUnit pending p.ord).2 ++ s) =
        joined (flush pending ++ p :: s) := by
  cases pending with
  | none =>
      by_cases hhigh : isHigh p.ord
      · simp [takeUnit, hhigh, flush, chr_ord, Waiting]
      · simp [takeUnit, hhigh, flush, chr_ord, Waiting, joined_cons_of_not_isHigh hhigh]
  | some hi =>
      have hhi : isHigh hi := hpending hi rfl
      have hord := ord_chr_of_isHigh hhi
      by_cases hlow : isLow p.ord
      · have hpair := fun s => joined_pair (p := .chr hi) (by rwa [hord]) hlow s
        simp [takeUnit, hlow, flush, Waiting, hpair, hord]
      · have hhigh : isHigh p.ord := h.resolve_right hlow
        simp [takeUnit, hlow, hhigh, flush, chr_ord, Waiting, joined_cons_of_not_isLow hlow]

theorem joined_flush_cons {p : CodePoint} (h : ¬(isHigh p.ord ∨ isLow p.ord))
    (pending : Option ℕ) (s : Str) :
    joined (flush pending ++ p :: s) = flush pending ++ p :: joined s := by
  rw [not_or] at h
  cases pending with
  | none => exact joined_cons_of_not_isHigh h.1 s
  | some hi =>
      rw [flush, List.singleton_append, List.singleton_append, joined_cons_of_not_isLow h.2,
        joined_cons_of_not_isHigh h.1]

theorem scanString_escapes (s r : Str) {pending : Option ℕ} (hpending : Waiting pending) :
    (scanString pending (s.flatMap escape ++ .scalar '"' :: r) : Except (LoadError ε) (Str × Str)) =
      .ok (joined (flush pending ++ s), r) := by
  induction s generalizing pending with
  | nil => cases pending <;> rfl
  | cons p s ih =>
      rw [List.flatMap_cons, List.append_assoc, scanString_escape]
      split
      · rename_i hp
        obtain ⟨hwaiting, hjoined⟩ := takeUnit_spec hp hpending
        rw [ih hwaiting, ← hjoined]
        rfl
      · rename_i hp
        rw [ih waiting_none, joined_flush_cons hp]
        rfl

theorem scanString_quote (s r : Str) :
    ∃ t, quote s ++ r = .scalar '"' :: t ∧
      (scanString none t : Except (LoadError ε) (Str × Str)) = .ok (joined s, r) :=
  ⟨s.flatMap escape ++ .scalar '"' :: r, by simp [quote], scanString_escapes s r waiting_none⟩

/-! ## Numbers -/

/-- The text behind a value inside what the writer wrote, or at its end. -/
def Stops (r : Str) : Prop :=
  ∀ p ∈ r.head?, p = .scalar ',' ∨ p = .scalar ']' ∨ p = .scalar '}'

theorem digit?_digitChar : ∀ d < 10, digit? (.scalar (Nat.digitChar d)) = some d := by
  decide +kernel

theorem decimal_of_lt {n : ℕ} (h : n < 10) : decimal n = [.scalar (Nat.digitChar n)] := by
  rw [decimal, Nat.toDigits_of_lt_base h]
  rfl

theorem decimal_of_le {n : ℕ} (h : 10 ≤ n) :
    decimal n = decimal (n / 10) ++ [.scalar (Nat.digitChar (n % 10))] := by
  rw [decimal, Nat.toDigits_of_base_le (by decide) h, List.map_append]
  rfl

theorem isDigit_of_mem_decimal {n : ℕ} {p : CodePoint} (h : p ∈ decimal n) : isDigit p := by
  obtain ⟨c, hc, rfl⟩ := List.mem_map.mp h
  have hdigit := Nat.isDigit_of_mem_toDigits (by decide) (by decide) hc
  simp [isDigit, digit?, hdigit]

theorem natOfDigits_decimal (n : ℕ) : natOfDigits (decimal n) = n := by
  induction n using Nat.strong_induction_on with
  | _ n ih =>
      rcases lt_or_ge n 10 with h | h
      · rw [decimal_of_lt h, natOfDigits, List.foldl_cons, List.foldl_nil, digit?_digitChar n h]
        simp
      · have hrest := ih (n / 10) (by omega)
        rw [natOfDigits] at hrest
        rw [decimal_of_le h, natOfDigits, List.foldl_append, hrest, List.foldl_cons,
          List.foldl_nil, digit?_digitChar _ (by omega), Option.getD_some]
        omega

/-- An integer part starts with a zero only if it is zero. -/
theorem exists_decimal (n : ℕ) : ∃ p s, decimal n = p :: s ∧ isDigit p ∧
    (p = .scalar '0' → n = 0) := by
  induction n using Nat.strong_induction_on with
  | _ n ih =>
      rcases lt_or_ge n 10 with h | h
      · refine ⟨_, _, decimal_of_lt h, by simp [isDigit, digit?_digitChar n h], ?_⟩
        have hzero : ∀ d < 10, CodePoint.scalar (Nat.digitChar d) = .scalar '0' → d = 0 := by
          decide +kernel
        exact hzero n h
      · obtain ⟨p, s, hps, hp, hzero⟩ := ih (n / 10) (by omega)
        refine ⟨p, s ++ [.scalar (Nat.digitChar (n % 10))], ?_, hp, fun h0 => ?_⟩
        · rw [decimal_of_le h, hps, List.cons_append]
        · have hdiv := hzero h0
          omega

theorem Stops.not_isDigit {r : Str} (h : Stops r) {p : CodePoint} (hp : p ∈ r.head?) :
    ¬isDigit p := by
  rcases h p hp with rfl | rfl | rfl <;> decide

theorem Stops.takeWhile {s r : Str} (hr : Stops r) (hs : ∀ p ∈ s, isDigit p) :
    (s ++ r).takeWhile isDigit = s ∧ (s ++ r).dropWhile isDigit = r := by
  induction s with
  | nil =>
      cases r with
      | nil => exact ⟨rfl, rfl⟩
      | cons p r =>
          have hp := hr.not_isDigit rfl
          simp [hp]
  | cons p s ih =>
      have hp := hs p (by simp)
      have htail := ih fun q hq => hs q (by simp [hq])
      simp [hp, htail.1, htail.2]

theorem scanInteger_decimal (n : ℕ) {r : Str} (hr : Stops r) :
    scanInteger (decimal n ++ r) = some (decimal n, r) := by
  obtain ⟨p, s, hps, hp, hzero⟩ := exists_decimal n
  obtain ⟨htake, hdrop⟩ := hr.takeWhile fun p hp => isDigit_of_mem_decimal (n := n) hp
  unfold scanInteger
  split
  · rename_i t heq
    have hn : n = 0 := by
      rw [hps, List.cons_append] at heq
      exact hzero (List.cons.inj heq).1
    subst hn
    cases heq
    rfl
  · rw [htake, hdrop, if_neg (by simp [hps])]

theorem Stops.scanFraction {r : Str} (h : Stops r) : scanFraction r = ([], r) := by
  unfold Json.scanFraction
  split
  · have hdot := h (.scalar '.') rfl
    simp at hdot
  · rfl

theorem Stops.scanExponent {r : Str} (h : Stops r) : scanExponent r = ([], r) := by
  cases r with
  | nil => rfl
  | cons p r =>
      have hp : ¬(p = .scalar 'e' ∨ p = .scalar 'E') := by
        rcases h p rfl with rfl | rfl | rfl <;> decide
      rw [Json.scanExponent, if_neg hp]

theorem scanMinus_intText (n : ℤ) (r : Str) :
    scanMinus (intText n ++ r) = (decide (n < 0), decimal n.natAbs ++ r) := by
  unfold intText
  split
  · rename_i hn
    simp [scanMinus, hn]
  · rename_i hn
    obtain ⟨p, s, hps, hp, -⟩ := exists_decimal n.natAbs
    rw [List.nil_append, hps, List.cons_append]
    unfold scanMinus
    split
    · rename_i heq
      cases heq
      exact absurd hp (by decide)
    · simp [hn]

theorem scanNumber_intText [JsonFloat F] (n : ℤ) {r : Str} (hr : Stops r) :
    (scanNumber (intText n ++ r) : Option (Json F × Str)) = some (.int n, r) := by
  unfold scanNumber
  rw [scanMinus_intText]
  dsimp only
  rw [scanInteger_decimal _ hr]
  simp only [Option.bind_eq_bind, Option.bind_some, hr.scanFraction, hr.scanExponent, and_self,
    if_true, natOfDigits_decimal]
  by_cases hn : n < 0
  · simp only [hn, decide_true, if_true]
    rw [show -((n.natAbs : ℕ) : ℤ) = n by omega]
    rfl
  · simp only [hn, decide_false, Bool.false_eq_true, if_false]
    rw [show ((n.natAbs : ℕ) : ℤ) = n by omega]
    rfl

/-! ## Values other than strings, arrays and objects -/

def scanLeaf [JsonFloat F] (s : Str) : Option (Json F × Str) := scanNumber s <|> scanWord s

/-- The text of a float is read as that float. -/
def FloatsReadBack (F : Type) [JsonFloat F] : Prop :=
  ∀ (x : F) (r : Str), Stops r → scanLeaf (JsonFloat.toText x ++ r) = some (.float x, r)

theorem lit_words : lit "null" = ['n', 'u', 'l', 'l'].map .scalar ∧
    lit "true" = ['t', 'r', 'u', 'e'].map .scalar ∧
    lit "false" = ['f', 'a', 'l', 's', 'e'].map .scalar ∧
    lit "NaN" = ['N', 'a', 'N'].map .scalar ∧
    lit "Infinity" = ['I', 'n', 'f', 'i', 'n', 'i', 't', 'y'].map .scalar ∧
    lit "-Infinity" = ['-', 'I', 'n', 'f', 'i', 'n', 'i', 't', 'y'].map .scalar := by
  decide +kernel

theorem scanNumber_lit [JsonFloat F] (r : Str) :
    (scanNumber (lit "null" ++ r) : Option (Json F × Str)) = none ∧
      (scanNumber (lit "true" ++ r) : Option (Json F × Str)) = none ∧
      (scanNumber (lit "false" ++ r) : Option (Json F × Str)) = none := by
  simp only [lit_words]
  exact ⟨rfl, rfl, rfl⟩

theorem scanLeaf_lit [JsonFloat F] (r : Str) :
    scanLeaf (lit "null" ++ r) = some ((.null : Json F), r) ∧
      scanLeaf (lit "true" ++ r) = some ((.bool true : Json F), r) ∧
      scanLeaf (lit "false" ++ r) = some ((.bool false : Json F), r) := by
  have hlength : "null".length = 4 ∧ "true".length = 4 ∧ "false".length = 5 := by decide
  rw [scanLeaf, scanLeaf, scanLeaf, (scanNumber_lit r).1, (scanNumber_lit r).2.1,
    (scanNumber_lit r).2.2]
  simp [scanWord, lit_words, hlength]

theorem scanLeaf_intText [JsonFloat F] (n : ℤ) {r : Str} (hr : Stops r) :
    scanLeaf (intText n ++ r) = some ((.int n : Json F), r) := by
  rw [scanLeaf, scanNumber_intText n hr]
  rfl

/-- A character that is skipped, closes an array or marks the byte order. -/
def Closing (p : CodePoint) : Prop := isWs p ∨ p = .scalar ']' ∨ p = .scalar '\uFEFF'

/-- A character with which no number and no word begins. -/
def Structural (p : CodePoint) : Prop :=
  Closing p ∨ p = .scalar '"' ∨ p = .scalar '{' ∨ p = .scalar '['

theorem scanLeaf_of_structural [JsonFloat F] {p : CodePoint} (hp : Structural p) (s : Str) :
    scanLeaf (p :: s) = (none : Option (Json F × Str)) := by
  have hmem : p ∈ [' ', '\t', '\n', '\r', ']', '\uFEFF', '"', '{', '['].map CodePoint.scalar := by
    rcases hp with (hp | rfl | rfl) | rfl | rfl | rfl
    · unfold isWs at hp
      split at hp
      · simp
      · simp
      · simp
      · simp
      · cases hp
    all_goals simp
  have hnumber : scanNumber (p :: s) = (none : Option (Json F × Str)) := by
    simp only [List.map_cons, List.map_nil, List.mem_cons, List.not_mem_nil, or_false] at hmem
    rcases hmem with rfl | rfl | rfl | rfl | rfl | rfl | rfl | rfl | rfl <;> rfl
  rw [scanLeaf, hnumber, scanWord]
  simp only [List.map_cons, List.map_nil, List.mem_cons, List.not_mem_nil, or_false] at hmem
  rcases hmem with rfl | rfl | rfl | rfl | rfl | rfl | rfl | rfl | rfl <;> simp [lit_words]

theorem exists_head_of_scanLeaf [JsonFloat F] {s : Str} {x : Json F × Str}
    (h : scanLeaf s = some x) : ∃ p t, s = p :: t ∧ ¬Structural p := by
  cases s with
  | nil => simp [scanLeaf, scanNumber, scanMinus, scanInteger, scanWord, lit_words] at h
  | cons p t =>
      refine ⟨p, t, rfl, fun hp => ?_⟩
      rw [scanLeaf_of_structural hp] at h
      cases h

/-! ## Values -/

mutual

/-- The value handed back by a reader that calls `hook` on every object. -/
def rebuild (hook : List (Str × Json F) → Except ε (Json F)) : Json F → Except ε (Json F)
  | arr items => (rebuildItems hook items).map arr
  | obj members => rebuildMembers hook members >>= hook
  | str s => .ok (str (joined s))
  | null => .ok null
  | bool b => .ok (bool b)
  | int n => .ok (int n)
  | float x => .ok (float x)

def rebuildItems (hook : List (Str × Json F) → Except ε (Json F)) :
    List (Json F) → Except ε (List (Json F))
  | [] => .ok []
  | v :: items => do
      let w ← rebuild hook v
      let ws ← rebuildItems hook items
      pure (w :: ws)

def rebuildMembers (hook : List (Str × Json F) → Except ε (Json F)) :
    List (Str × Json F) → Except ε (List (Str × Json F))
  | [] => .ok []
  | (k, v) :: members => do
      let w ← rebuild hook v
      let ws ← rebuildMembers hook members
      pure ((joined k, w) :: ws)

end

mutual

/-- The value with every pair of surrogates made one character. -/
def rejoin : Json F → Json F
  | arr items => arr (rejoinItems items)
  | obj members => obj (rejoinMembers members)
  | str s => str (joined s)
  | null => null
  | bool b => bool b
  | int n => int n
  | float x => float x

def rejoinItems : List (Json F) → List (Json F)
  | [] => []
  | v :: items => rejoin v :: rejoinItems items

def rejoinMembers : List (Str × Json F) → List (Str × Json F)
  | [] => []
  | (k, v) :: members => (joined k, rejoin v) :: rejoinMembers members

end

theorem rejoin_arr (items : List (Json F)) : rejoin (arr items) = arr (items.map rejoin) := by
  have hitems : rejoinItems items = items.map rejoin := by
    induction items with
    | nil => rfl
    | cons v items ih => rw [rejoinItems, ih, List.map_cons]
  rw [rejoin, hitems]

theorem rejoin_obj (members : List (Str × Json F)) :
    rejoin (obj members) = obj (members.map fun m => (joined m.1, rejoin m.2)) := by
  have hmembers : rejoinMembers members = members.map fun m => (joined m.1, rejoin m.2) := by
    induction members with
    | nil => rfl
    | cons m members ih =>
        obtain ⟨k, v⟩ := m
        rw [rejoinMembers, ih, List.map_cons]
  rw [rejoin, hmembers]

theorem rebuildItems_eq (hook : List (Str × Json F) → Except ε (Json F)) {items : List (Json F)}
    (ih : ∀ v ∈ items, rebuild hook v = folded hook (rejoin v)) :
    rebuildItems hook items = foldedItems hook (items.map rejoin) := by
  induction items with
  | nil => rfl
  | cons v items ihitems =>
      rw [rebuildItems, List.map_cons, foldedItems, ih v (by simp),
        ihitems fun w hw => ih w (by simp [hw])]

theorem rebuildMembers_eq (hook : List (Str × Json F) → Except ε (Json F))
    {members : List (Str × Json F)} (ih : ∀ m ∈ members, rebuild hook m.2 = folded hook (rejoin m.2)) :
    rebuildMembers hook members =
      foldedMembers hook (members.map fun m => (joined m.1, rejoin m.2)) := by
  induction members with
  | nil => rfl
  | cons m members ihmembers =>
      obtain ⟨k, v⟩ := m
      rw [rebuildMembers, List.map_cons, foldedMembers, ih (k, v) (by simp),
        ihmembers fun m hm => ih m (by simp [hm])]

/-- The hook is called on the rejoined value. -/
theorem rebuild_eq (hook : List (Str × Json F) → Except ε (Json F)) (v : Json F) :
    rebuild hook v = folded hook (rejoin v) := by
  induction v with
  | arr items ih => rw [rejoin_arr, rebuild, folded, rebuildItems_eq hook ih]
  | obj members ih => rw [rejoin_obj, rebuild, folded, rebuildMembers_eq hook ih]
  | _ => rfl

section Reading

variable [JsonFloat F] {hook : List (Str × Json F) → Except ε (Json F)}

theorem scanOnce_of_scanLeaf {s : Str} {x : Json F × Str} (h : scanLeaf s = some x) (n : ℕ) :
    scanOnce hook (n + 1) s = .ok x := by
  obtain ⟨p, t, rfl, hp⟩ := exists_head_of_scanLeaf h
  unfold scanOnce
  split
  · rename_i heq
    cases heq
    exact absurd (by simp [Structural]) hp
  · rename_i heq
    cases heq
    exact absurd (by simp [Structural]) hp
  · rename_i heq
    cases heq
    exact absurd (by simp [Structural]) hp
  · rw [← scanLeaf, h]

theorem skipWs_cons {p : CodePoint} (hp : ¬isWs p) (s : Str) : skipWs (p :: s) = p :: s := by
  simp [skipWs, hp]

/-- The writer keeps the order of members and puts only white space behind a
comma and behind a colon. -/
structure DumpOptions.Plain (o : DumpOptions) (a b : Str) : Prop where
  unsorted : o.sortKeys = false
  itemSep : o.itemSep = .scalar ',' :: a
  keySep : o.keySep = .scalar ':' :: b
  blanks : ∀ p ∈ a ++ b, isWs p

theorem plain_default : DumpOptions.default.Plain (lit " ") (lit " ") :=
  ⟨rfl, by decide +kernel, by decide +kernel, by decide +kernel⟩

variable {o : DumpOptions} {a b : Str}

/-- What the writer puts between the brackets of an array. -/
def itemsText (o : DumpOptions) (items : List (Json F)) : Str :=
  o.itemSep.intercalate (dumpsItems o items)

def memberText (o : DumpOptions) (m : Str × Str) : Str := quote m.1 ++ o.keySep ++ m.2

/-- What the writer puts between the braces of an object. -/
def membersText (o : DumpOptions) (members : List (Str × Json F)) : Str :=
  o.itemSep.intercalate ((dumpsMembers o members).map (memberText o))

theorem dumps_arr (items : List (Json F)) :
    dumps o (arr items) = .scalar '[' :: itemsText o items ++ [.scalar ']'] := rfl

theorem dumps_obj (ho : o.Plain a b) (members : List (Str × Json F)) :
    dumps o (obj members) = .scalar '{' :: membersText o members ++ [.scalar '}'] := by
  rw [dumps, arrangeMembers, ho.unsorted]
  rfl

theorem itemsText_singleton (v : Json F) : itemsText o [v] = dumps o v := by
  simp [itemsText, dumpsItems]

theorem itemsText_cons_cons (ho : o.Plain a b) (v w : Json F) (items : List (Json F)) :
    itemsText o (v :: w :: items) =
      dumps o v ++ .scalar ',' :: (a ++ itemsText o (w :: items)) := by
  simp [itemsText, dumpsItems, List.intercalate_cons_cons, ho.itemSep]

theorem membersText_singleton (ho : o.Plain a b) (k : Str) (v : Json F) :
    membersText o [(k, v)] = quote k ++ .scalar ':' :: (b ++ dumps o v) := by
  simp [membersText, memberText, dumpsMembers, ho.keySep]

theorem membersText_cons_cons (ho : o.Plain a b) (k : Str) (v : Json F) (m : Str × Json F)
    (members : List (Str × Json F)) : membersText o ((k, v) :: m :: members) =
      quote k ++ .scalar ':' :: (b ++ (dumps o v ++
        .scalar ',' :: (a ++ membersText o (m :: members)))) := by
  simp [membersText, memberText, dumpsMembers, List.intercalate_cons_cons, ho.keySep, ho.itemSep]

theorem exists_head_dumps (hfloat : FloatsReadBack F) (v : Json F) :
    ∃ p t, dumps o v = p :: t ∧ ¬Closing p := by
  have hleaf : ∀ {x : Json F × Str}, scanLeaf (dumps o v) = some x →
      ∃ p t, dumps o v = p :: t ∧ ¬Closing p := fun h => by
    obtain ⟨p, t, hpt, hp⟩ := exists_head_of_scanLeaf h
    exact ⟨p, t, hpt, fun hclosing => hp (.inl hclosing)⟩
  have hquote : ¬Closing (.scalar '"') := by unfold Closing; decide
  have hbracket : ¬Closing (.scalar '[') := by unfold Closing; decide
  have hbrace : ¬Closing (.scalar '{') := by unfold Closing; decide
  have hstop : Stops [] := by rintro p ⟨⟩
  have hword := scanLeaf_lit (F := F) []
  simp only [List.append_nil] at hword
  cases v with
  | null => exact hleaf hword.1
  | bool b =>
      cases b with
      | true => exact hleaf hword.2.1
      | false => exact hleaf hword.2.2
  | int n => exact hleaf (by simpa [dumps] using scanLeaf_intText n hstop)
  | float x => exact hleaf (by simpa [dumps] using hfloat x [] hstop)
  | str s => exact ⟨_, _, rfl, hquote⟩
  | arr items => exact ⟨_, _, rfl, hbracket⟩
  | obj members => exact ⟨_, _, rfl, hbrace⟩

theorem skipWs_dumps (hfloat : FloatsReadBack F) (v : Json F) (r : Str) :
    skipWs (dumps o v ++ r) = dumps o v ++ r := by
  obtain ⟨p, t, hpt, hp⟩ := exists_head_dumps hfloat v
  rw [hpt, List.cons_append, skipWs_cons fun hws => hp (.inl hws)]

theorem skipWs_blanks {blanks : Str} (h : ∀ p ∈ blanks, isWs p) (s : Str) :
    skipWs (blanks ++ s) = skipWs s := List.dropWhile_append_of_pos h

theorem DumpOptions.Plain.skipWs_itemSep (ho : o.Plain a b) (s : Str) :
    skipWs (a ++ s) = skipWs s := skipWs_blanks (fun p hp => ho.blanks p (by simp [hp])) s

theorem DumpOptions.Plain.skipWs_keySep (ho : o.Plain a b) (s : Str) :
    skipWs (b ++ s) = skipWs s := skipWs_blanks (fun p hp => ho.blanks p (by simp [hp])) s

theorem exists_head_itemsText (ho : o.Plain a b) (hfloat : FloatsReadBack F) (v : Json F)
    (items : List (Json F)) : ∃ p t, itemsText o (v :: items) = p :: t ∧ ¬Closing p := by
  obtain ⟨p, t, hpt, hp⟩ := exists_head_dumps (o := o) hfloat v
  cases items with
  | nil => exact ⟨p, t, by rw [itemsText_singleton, hpt], hp⟩
  | cons w items => exact ⟨p, _, by rw [itemsText_cons_cons ho, hpt, List.cons_append], hp⟩

theorem stops_cons {p : CodePoint} (hp : p = .scalar ',' ∨ p = .scalar ']' ∨ p = .scalar '}')
    (r : Str) : Stops (p :: r) := by
  rintro q hq
  cases hq
  exact hp

/-- With fuel `n` the reader hands back what was written. -/
structure ReadsBack (o : DumpOptions) (hook : List (Str × Json F) → Except ε (Json F))
    (n : ℕ) : Prop where
  once : ∀ v r, Stops r → 2 * (dumps o v).length ≤ n →
    scanOnce hook n (dumps o v ++ r) = reading (rebuild hook v) r
  items : ∀ v items r, 2 * (itemsText o (v :: items)).length < n →
    scanItems hook n (itemsText o (v :: items) ++ .scalar ']' :: r) =
      reading (rebuildItems hook (v :: items)) r
  members : ∀ k v members r, 2 * (membersText o ((k, v) :: members)).length < n →
    ∃ t, membersText o ((k, v) :: members) ++ .scalar '}' :: r = .scalar '"' :: t ∧
      scanMembers hook n t = reading (rebuildMembers hook ((k, v) :: members)) r

theorem ReadsBack.once_succ (ho : o.Plain a b) (hfloat : FloatsReadBack F) {n : ℕ}
    (h : ReadsBack o hook n) (v : Json F) {r : Str} (hr : Stops r)
    (hn : 2 * (dumps o v).length ≤ n + 1) :
    scanOnce hook (n + 1) (dumps o v ++ r) = reading (rebuild hook v) r := by
  cases v with
  | null => exact scanOnce_of_scanLeaf (scanLeaf_lit r).1 n
  | bool b =>
      cases b with
      | true => exact scanOnce_of_scanLeaf (scanLeaf_lit r).2.1 n
      | false => exact scanOnce_of_scanLeaf (scanLeaf_lit r).2.2 n
  | int k => exact scanOnce_of_scanLeaf (scanLeaf_intText k hr) n
  | float x => exact scanOnce_of_scanLeaf (hfloat x r hr) n
  | str s =>
      obtain ⟨t, ht, hscan⟩ := scanString_quote (ε := ε) s r
      rw [dumps, ht, scanOnce, hscan]
      rfl
  | arr items =>
      rw [dumps_arr] at hn ⊢
      simp only [List.cons_append, List.length_cons, List.length_append] at hn
      rw [List.cons_append, List.cons_append, List.append_assoc, List.singleton_append, scanOnce,
        rebuild]
      cases items with
      | nil => rfl
      | cons v items =>
          obtain ⟨p, t, hpt, hp⟩ := exists_head_itemsText ho hfloat v items
          have hscan := h.items v items r (by omega)
          rw [hpt, List.cons_append] at hscan ⊢
          rw [skipWs_cons fun hws => hp (.inl hws)]
          split
          · rename_i heq
            cases heq
            exact absurd (.inr (.inl rfl)) hp
          · rw [hscan]
            cases rebuildItems hook (v :: items) <;> rfl
  | obj members =>
      have happly : ∀ pairs, applyHook hook pairs r = reading (hook pairs) r := fun pairs => by
        unfold applyHook
        split
        · rename_i w hw
          rw [hw, reading]
        · rename_i e he
          rw [he, reading]
      rw [dumps_obj ho] at hn ⊢
      simp only [List.cons_append, List.length_cons, List.length_append] at hn
      rw [List.cons_append, List.cons_append, List.append_assoc, List.singleton_append, scanOnce,
        rebuild]
      cases members with
      | nil => exact happly []
      | cons m members =>
          obtain ⟨k, v⟩ := m
          obtain ⟨t, ht, hscan⟩ := h.members k v members r (by omega)
          rw [ht, skipWs_cons (by decide), reading_bind, ← hscan]
          simp only [hscan]
          cases rebuildMembers hook ((k, v) :: members) with
          | error e => rfl
          | ok pairs => exact happly pairs

theorem ReadsBack.items_succ (ho : o.Plain a b) (hfloat : FloatsReadBack F) {n : ℕ}
    (h : ReadsBack o hook n) (v : Json F) (items : List (Json F)) (r : Str)
    (hn : 2 * (itemsText o (v :: items)).length < n + 1) :
    scanItems hook (n + 1) (itemsText o (v :: items) ++ .scalar ']' :: r) =
      reading (rebuildItems hook (v :: items)) r := by
  cases items with
  | nil =>
      rw [itemsText_singleton] at hn ⊢
      rw [scanItems, h.once v _ (stops_cons (by simp) r) (by omega), rebuildItems]
      cases rebuild hook v <;> rfl
  | cons w items =>
      obtain ⟨p, t, hpt, hp⟩ := exists_head_itemsText ho hfloat w items
      rw [itemsText_cons_cons ho] at hn ⊢
      simp only [List.length_append, List.length_cons] at hn
      have hrest := h.items w items r (by omega)
      rw [List.append_assoc, List.cons_append, List.append_assoc, scanItems,
        h.once v _ (stops_cons (by simp) _) (by omega), rebuildItems]
      cases rebuild hook v with
      | error e => rfl
      | ok v' =>
          have hskip : skipWs (a ++ (itemsText o (w :: items) ++ .scalar ']' :: r)) =
              itemsText o (w :: items) ++ .scalar ']' :: r := by
            rw [ho.skipWs_itemSep, hpt, List.cons_append, skipWs_cons fun hws => hp (.inl hws)]
          show (scanItems hook n (skipWs (a ++ _)) >>= _) = _
          rw [hskip, hrest]
          cases rebuildItems hook (w :: items) <;> rfl

theorem ReadsBack.members_succ (ho : o.Plain a b) (hfloat : FloatsReadBack F) {n : ℕ}
    (h : ReadsBack o hook n) (k : Str) (v : Json F) (members : List (Str × Json F)) (r : Str)
    (hn : 2 * (membersText o ((k, v) :: members)).length < n + 1) :
    ∃ t, membersText o ((k, v) :: members) ++ .scalar '}' :: r = .scalar '"' :: t ∧
      scanMembers hook (n + 1) t = reading (rebuildMembers hook ((k, v) :: members)) r := by
  cases members with
  | nil =>
      rw [membersText_singleton ho] at hn ⊢
      simp only [List.length_append, List.length_cons] at hn
      rw [List.append_assoc, List.cons_append, List.append_assoc]
      obtain ⟨t, ht, hkey⟩ := scanString_quote (ε := ε) k
        (.scalar ':' :: (b ++ (dumps o v ++ .scalar '}' :: r)))
      have hvalue : scanOnce hook n (skipWs (b ++ (dumps o v ++ .scalar '}' :: r))) =
          reading (rebuild hook v) (.scalar '}' :: r) := by
        rw [ho.skipWs_keySep, skipWs_dumps hfloat,
          h.once v _ (stops_cons (by simp) r) (by omega)]
      refine ⟨t, ht, ?_⟩
      rw [scanMembers, hkey, rebuildMembers]
      show (scanOnce hook n (skipWs (b ++ _)) >>= _) = _
      rw [hvalue]
      cases rebuild hook v <;> rfl
  | cons m members =>
      obtain ⟨k', v'⟩ := m
      rw [membersText_cons_cons ho] at hn ⊢
      simp only [List.length_append, List.length_cons] at hn
      obtain ⟨t', ht', hrest⟩ := h.members k' v' members r (by omega)
      simp only [List.append_assoc, List.cons_append]
      rw [ht']
      obtain ⟨t, ht, hkey⟩ := scanString_quote (ε := ε) k
        (.scalar ':' :: (b ++ (dumps o v ++ .scalar ',' :: (a ++ .scalar '"' :: t'))))
      have hvalue : scanOnce hook n (skipWs (b ++
          (dumps o v ++ .scalar ',' :: (a ++ .scalar '"' :: t')))) =
            reading (rebuild hook v) (.scalar ',' :: (a ++ .scalar '"' :: t')) := by
        rw [ho.skipWs_keySep, skipWs_dumps hfloat,
          h.once v _ (stops_cons (by simp) _) (by omega)]
      have hskip : skipWs (a ++ .scalar '"' :: t') = .scalar '"' :: t' := by
        rw [ho.skipWs_itemSep, skipWs_cons (by decide)]
      refine ⟨t, ht, ?_⟩
      rw [scanMembers, hkey, rebuildMembers]
      show (scanOnce hook n (skipWs (b ++ _)) >>= _) = _
      rw [hvalue]
      cases rebuild hook v with
      | error e => rfl
      | ok w =>
          have hcomma : skipWs (.scalar ',' :: (a ++ .scalar '"' :: t')) =
              .scalar ',' :: (a ++ .scalar '"' :: t') := skipWs_cons (by decide) _
          simp only [reading, bind, Except.bind, hcomma, hskip, hrest]
          cases rebuildMembers hook ((k', v') :: members) <;> rfl

theorem readsBack (ho : o.Plain a b) (hfloat : FloatsReadBack F) (n : ℕ) :
    ReadsBack o hook n := by
  induction n with
  | zero =>
      refine ⟨fun v r _ hn => ?_, fun v items r hn => ?_, fun k v members r hn => ?_⟩
      · obtain ⟨p, t, hpt, -⟩ := exists_head_dumps (o := o) hfloat v
        rw [hpt, List.length_cons] at hn
        omega
      · omega
      · omega
  | succ n ih =>
      exact ⟨fun v r hr hn => ih.once_succ ho hfloat v hr hn, ih.items_succ ho hfloat,
        ih.members_succ ho hfloat⟩

theorem loads_dumps (ho : o.Plain a b) (hfloat : FloatsReadBack F) (v : Json F) :
    loads hook (dumps o v) = (rebuild hook v).mapError .hook := by
  obtain ⟨p, t, hpt, hp⟩ := exists_head_dumps (o := o) hfloat v
  have hmark : (dumps o v).head? ≠ some (.scalar '\uFEFF') := by
    rw [hpt]
    rintro ⟨⟩
    exact hp (.inr (.inr rfl))
  have hstop : Stops [] := by rintro p ⟨⟩
  have hback : ReadsBack o hook (2 * (dumps o v).length + 2) := readsBack ho hfloat _
  have hscan := hback.once v [] hstop (by omega)
  have hskip := skipWs_dumps (o := o) hfloat v []
  rw [List.append_nil] at hscan hskip
  rw [loads, if_neg hmark, hskip, hscan]
  cases rebuild hook v <;> rfl

/-- What was written spells the rejoined value. -/
theorem spells_dumps (ho : o.Plain a b) (hfloat : FloatsReadBack F) (v : Json F) :
    Spells (dumps o v) (rejoin v) := by
  rw [Spells, loads_dumps ho hfloat, rebuild_eq, folded_keepMembers]
  rfl

end Reading

/-! ## The order of members -/

theorem distinct_rejoin_sorted (v : Json F) :
    Distinct (rejoin (sorted v)) ↔ Distinct (rejoin v) := by
  induction v with
  | arr items ih =>
      rw [sorted_arr, rejoin_arr, rejoin_arr, distinct_arr_iff, distinct_arr_iff,
        List.forall_mem_map, List.forall_mem_map, List.forall_mem_map]
      exact forall₂_congr ih
  | obj members ih =>
      have hperm := (perm_sortedObj members).map fun m => (joined m.1, rejoin m.2)
      rw [List.map_map] at hperm
      rw [sorted_obj, rejoin_obj, rejoin_obj, distinct_obj_iff, distinct_obj_iff,
        (hperm.map Prod.fst).nodup_iff]
      refine and_congr (by simp [Function.comp_def]) ?_
      simp only [hperm.mem_iff, List.forall_mem_map, Function.comp_apply]
      exact forall₂_congr ih
  | _ => rfl

theorem sorted_rejoin_sorted {v : Json F} (h : Distinct (rejoin v)) :
    sorted (rejoin (sorted v)) = sorted (rejoin v) := by
  induction v with
  | arr items ih =>
      rw [rejoin_arr, distinct_arr_iff, List.forall_mem_map] at h
      rw [sorted_arr, rejoin_arr, rejoin_arr, sorted_arr, sorted_arr, List.map_map, List.map_map,
        List.map_map]
      exact congrArg arr (List.map_congr_left fun v hv => ih v hv (h v hv))
  | obj members ih =>
      rw [rejoin_obj, distinct_obj_iff, List.forall_mem_map] at h
      have hperm := (perm_sortedObj members).map fun m => (joined m.1, rejoin m.2)
      rw [List.map_map] at hperm
      rw [sorted_obj, rejoin_obj, rejoin_obj, sorted_obj, sorted_obj]
      have hnames := h.1
      refine congrArg obj (Eq.symm ((sortedObj_eq_iff hnames).mpr ?_))
      refine List.Perm.trans (List.Perm.of_eq ?_) (hperm.symm.map _)
      rw [List.map_map, List.map_map]
      exact List.map_congr_left fun m hm => by simp [ih m hm (h.2 m hm)]
  | _ => rfl

/-- Reading back what was written of two orders gives two orders of one value,
if it gives anything. -/
theorem sorted_rejoin_congr {v w : Json F} (h : sorted v = sorted w) :
    (Distinct (rejoin v) ↔ Distinct (rejoin w)) ∧
      (Distinct (rejoin v) → sorted (rejoin v) = sorted (rejoin w)) := by
  have hiff : Distinct (rejoin v) ↔ Distinct (rejoin w) := by
    rw [← distinct_rejoin_sorted v, h, distinct_rejoin_sorted w]
  refine ⟨hiff, fun hv => ?_⟩
  rw [← sorted_rejoin_sorted hv, h, sorted_rejoin_sorted (hiff.mp hv)]

end Json

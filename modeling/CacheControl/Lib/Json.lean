import CacheControl.Lib.PyText

/-!
# JSON values and the `json` module

Values, the members of an object in the order they were written, and Python's
reader and writer.  The reader hands the member list of every object, inner
objects first, to a hook and keeps what the hook returns.  Floats are left to
the interpreter.
-/

open PyText

/-- A JSON value as Python holds it: integers and floats are different things,
and an object keeps its members in order. -/
inductive Json (F : Type)
  | null
  | bool (b : Bool)
  | int (n : ℤ)
  | float (x : F)
  | str (s : Str)
  | arr (items : List (Json F))
  | obj (members : List (Str × Json F))

/-- What the model asks of the interpreter's floats: reading a literal, writing one,
comparing two as sets and dictionaries do (`x is y or x == y`), and the exact value of
an integral one. -/
class JsonFloat (F : Type) where
  ofText : Str → F
  toText : F → Str
  nan : F
  infinity : F
  negInfinity : F
  beq : F → F → Bool
  integral? : F → Option ℤ

namespace Json

variable {F ε : Type}

/-! ## Dictionaries -/

def get? (key : Str) : List (Str × Json F) → Option (Json F)
  | [] => none
  | (k, v) :: members => if k = key then some v else get? key members

def has (key : Str) (members : List (Str × Json F)) : Bool := (get? key members).isSome

def erase (key : Str) (members : List (Str × Json F)) : List (Str × Json F) :=
  members.filter fun m => m.1 ≠ key

/-- `d[key] = value`: an existing member keeps its place. -/
def set (key : Str) (value : Json F) : List (Str × Json F) → List (Str × Json F)
  | [] => [(key, value)]
  | (k, v) :: members =>
      if k = key then (k, value) :: members else (k, v) :: set key value members

theorem get?_set_self (key : Str) (value : Json F) (members : List (Str × Json F)) :
    get? key (set key value members) = some value := by
  induction members with
  | nil => simp [set, get?]
  | cons m members ih =>
      obtain ⟨k, v⟩ := m
      by_cases hk : k = key
      · simp [set, get?, hk]
      · simp [set, get?, hk, ih]

theorem get?_set_ne {key key' : Str} (h : key' ≠ key) (value : Json F)
    (members : List (Str × Json F)) : get? key' (set key value members) = get? key' members := by
  induction members with
  | nil => simp [set, get?, h.symm]
  | cons m members ih =>
      obtain ⟨k, v⟩ := m
      by_cases hk : k = key
      · subst hk
        simp [set, get?, h.symm]
      · simp [set, get?, hk, ih]

theorem get?_eq_none_iff {key : Str} {members : List (Str × Json F)} :
    get? key members = none ↔ ∀ m ∈ members, m.1 ≠ key := by
  induction members with
  | nil => simp [get?]
  | cons m members ih =>
      obtain ⟨k, v⟩ := m
      by_cases hk : k = key <;> simp [get?, hk, ih]

theorem get?_filter {key : Str} (p : Str → Prop) [DecidablePred p] (hkey : p key)
    (members : List (Str × Json F)) : get? key (members.filter fun m => p m.1) =
      get? key members := by
  induction members with
  | nil => rfl
  | cons m members ih =>
      obtain ⟨k, v⟩ := m
      by_cases hk : k = key
      · subst hk
        simp [get?, hkey]
      · by_cases hp : p k <;> simp [get?, hk, hp, ih]

theorem foldl_erase (keys : List Str) (members : List (Str × Json F)) :
    keys.foldl (fun d k => erase k d) members = members.filter fun m => m.1 ∉ keys := by
  induction keys generalizing members with
  | nil => simp
  | cons k keys ih =>
      rw [List.foldl_cons, ih, erase, List.filter_filter]
      congr 1
      funext m
      simp [Bool.and_comm]

/-- `dict(pairs)`: the last occurrence of a name wins. -/
def dictOf (pairs : List (Str × Json F)) : List (Str × Json F) :=
  pairs.foldl (fun d p => set p.1 p.2 d) []

def members : Json F → List (Str × Json F)
  | obj members => members
  | _ => []

def truthy [JsonFloat F] : Json F → Bool
  | null => false
  | bool b => b
  | int n => n != 0
  | float x => JsonFloat.integral? x != some 0
  | str s => !s.isEmpty
  | arr items => !items.isEmpty
  | obj members => !members.isEmpty

/-! ## Reading -/

inductive LoadError (ε : Type)
  | malformed
  | hook (e : ε)

def isWs : CodePoint → Bool
  | .scalar ' ' | .scalar '\t' | .scalar '\n' | .scalar '\r' => true
  | _ => false

def skipWs (s : Str) : Str := s.dropWhile isWs

def digit? : CodePoint → Option ℕ
  | .scalar c => if c.isDigit then some (c.toNat - 48) else none
  | .surrogate _ => none

def isDigit (p : CodePoint) : Bool := (digit? p).isSome

def hexDigit? : CodePoint → Option ℕ
  | .scalar c =>
      if c.isDigit then some (c.toNat - 48)
      else if 'a' ≤ c ∧ c ≤ 'f' then some (c.toNat - 87)
      else if 'A' ≤ c ∧ c ≤ 'F' then some (c.toNat - 55)
      else none
  | .surrogate _ => none

def hex4? (a b c d : CodePoint) : Option ℕ := do
  pure (((← hexDigit? a) * 16 + (← hexDigit? b)) * 256 + (← hexDigit? c) * 16 + (← hexDigit? d))

def isHigh (u : ℕ) : Bool := 0xD800 ≤ u && u ≤ 0xDBFF

def isLow (u : ℕ) : Bool := 0xDC00 ≤ u && u ≤ 0xDFFF

def joinSurrogates (hi lo : ℕ) : CodePoint :=
  .chr (0x10000 + (hi - 0xD800) * 0x400 + (lo - 0xDC00))

def simpleEscape? : CodePoint → Option CodePoint
  | .scalar '"' => some (.scalar '"')
  | .scalar '\\' => some (.scalar '\\')
  | .scalar '/' => some (.scalar '/')
  | .scalar 'b' => some (.scalar '\x08')
  | .scalar 'f' => some (.scalar '\x0c')
  | .scalar 'n' => some (.scalar '\n')
  | .scalar 'r' => some (.scalar '\r')
  | .scalar 't' => some (.scalar '\t')
  | _ => none

def flush : Option ℕ → Str
  | none => []
  | some hi => [.chr hi]

/-- Take in the code unit of a `\u` escape.  A high surrogate waits for the
next escape, since two escapes that spell a pair are one character. -/
def takeUnit (pending : Option ℕ) (u : ℕ) : Str × Option ℕ :=
  match pending with
  | some hi =>
      if isLow u then ([joinSurrogates hi u], none)
      else if isHigh u then ([.chr hi], some u)
      else ([.chr hi, .chr u], none)
  | none => if isHigh u then ([], some u) else ([.chr u], none)

def scanString (pending : Option ℕ) : Str → Except (LoadError ε) (Str × Str)
  | [] => .error .malformed
  | .scalar '"' :: s => .ok (flush pending, s)
  | .scalar '\\' :: .scalar 'u' :: a :: b :: c :: d :: s =>
      match hex4? a b c d with
      | none => .error .malformed
      | some u =>
          (scanString (takeUnit pending u).2 s).map fun (t, r) => ((takeUnit pending u).1 ++ t, r)
  | .scalar '\\' :: p :: s =>
      match simpleEscape? p with
      | none => .error .malformed
      | some q => (scanString none s).map fun (t, r) => (flush pending ++ q :: t, r)
  | p :: s =>
      if p.ord < 0x20 then .error .malformed
      else (scanString none s).map fun (t, r) => (flush pending ++ p :: t, r)

def natOfDigits (s : Str) : ℕ := s.foldl (fun n p => 10 * n + (digit? p).getD 0) 0

/-- The digits of an integer part: a lone zero, or digits that do not begin
with one. -/
def scanInteger : Str → Option (Str × Str)
  | .scalar '0' :: s => some ([.scalar '0'], s)
  | s => if s.takeWhile isDigit = [] then none
      else some (s.takeWhile isDigit, s.dropWhile isDigit)

def scanFraction : Str → Str × Str
  | .scalar '.' :: s =>
      if s.takeWhile isDigit = [] then ([], .scalar '.' :: s)
      else (.scalar '.' :: s.takeWhile isDigit, s.dropWhile isDigit)
  | s => ([], s)

def scanSign : Str → Str × Str
  | .scalar '+' :: s => ([.scalar '+'], s)
  | .scalar '-' :: s => ([.scalar '-'], s)
  | s => ([], s)

def scanExponent : Str → Str × Str
  | p :: s =>
      if p = .scalar 'e' ∨ p = .scalar 'E' then
        let (sign, r) := scanSign s
        if r.takeWhile isDigit = [] then ([], p :: s)
        else (p :: sign ++ r.takeWhile isDigit, r.dropWhile isDigit)
      else ([], p :: s)
  | [] => ([], [])

def scanMinus : Str → Bool × Str
  | .scalar '-' :: s => (true, s)
  | s => (false, s)

/-- `match_number`: an integer unless a fraction or an exponent follows. -/
def scanNumber [JsonFloat F] (s : Str) : Option (Json F × Str) := do
  let (neg, s) := scanMinus s
  let (digits, s) ← scanInteger s
  let (frac, s) := scanFraction s
  let (exp, s) := scanExponent s
  if frac = [] ∧ exp = [] then
    pure (.int (if neg then -(natOfDigits digits) else natOfDigits digits), s)
  else
    let sign := if neg then [.scalar '-'] else []
    pure (.float (JsonFloat.ofText (sign ++ digits ++ frac ++ exp)), s)

def scanWord [JsonFloat F] (s : Str) : Option (Json F × Str) :=
  let after (word : String) (v : Json F) : Option (Json F × Str) :=
    if lit word <+: s then some (v, s.drop word.length) else none
  after "null" .null <|> after "true" (.bool true) <|> after "false" (.bool false) <|>
    after "NaN" (.float JsonFloat.nan) <|> after "Infinity" (.float JsonFloat.infinity) <|>
    after "-Infinity" (.float JsonFloat.negInfinity)

mutual

/-- `scan_once`.  Every call consumes a character, so fuel above the length of
the text is never used up. -/
def scanOnce [JsonFloat F] (hook : List (Str × Json F) → Except ε (Json F)) :
    ℕ → Str → Except (LoadError ε) (Json F × Str)
  | 0, _ => .error .malformed
  | n + 1, s =>
      match s with
      | .scalar '"' :: s => do
          let (t, s) ← scanString none s
          pure (.str t, s)
      | .scalar '{' :: s =>
          match skipWs s with
          | .scalar '}' :: s => applyHook hook [] s
          | .scalar '"' :: s => do
              let (pairs, s) ← scanMembers hook n s
              applyHook hook pairs s
          | _ => .error .malformed
      | .scalar '[' :: s =>
          match skipWs s with
          | .scalar ']' :: s => .ok (.arr [], s)
          | s => do
              let (items, s) ← scanItems hook n s
              pure (.arr items, s)
      | s =>
          match scanNumber s <|> scanWord s with
          | some (v, s) => .ok (v, s)
          | none => .error .malformed

def scanMembers [JsonFloat F] (hook : List (Str × Json F) → Except ε (Json F)) :
    ℕ → Str → Except (LoadError ε) (List (Str × Json F) × Str)
  | 0, _ => .error .malformed
  | n + 1, s => do
      let (key, s) ← scanString none s
      match skipWs s with
      | .scalar ':' :: s => do
          let (v, s) ← scanOnce hook n (skipWs s)
          match skipWs s with
          | .scalar '}' :: s => pure ([(key, v)], s)
          | .scalar ',' :: s =>
              match skipWs s with
              | .scalar '"' :: s => do
                  let (pairs, s) ← scanMembers hook n s
                  pure ((key, v) :: pairs, s)
              | _ => .error .malformed
          | _ => .error .malformed
      | _ => .error .malformed

def scanItems [JsonFloat F] (hook : List (Str × Json F) → Except ε (Json F)) :
    ℕ → Str → Except (LoadError ε) (List (Json F) × Str)
  | 0, _ => .error .malformed
  | n + 1, s => do
      let (v, s) ← scanOnce hook n s
      match skipWs s with
      | .scalar ']' :: s => pure ([v], s)
      | .scalar ',' :: s => do
          let (items, s) ← scanItems hook n (skipWs s)
          pure (v :: items, s)
      | _ => .error .malformed

def applyHook (hook : List (Str × Json F) → Except ε (Json F)) (pairs : List (Str × Json F))
    (s : Str) : Except (LoadError ε) (Json F × Str) :=
  match hook pairs with
  | .ok v => .ok (v, s)
  | .error e => .error (.hook e)

end

/-- `json.loads(text, object_pairs_hook=hook)`. -/
def loads [JsonFloat F] (hook : List (Str × Json F) → Except ε (Json F)) (text : Str) :
    Except (LoadError ε) (Json F) :=
  if text.head? = some (.scalar '\uFEFF') then .error .malformed
  else do
    let (v, rest) ← scanOnce hook (2 * text.length + 2) (skipWs text)
    if skipWs rest = [] then pure v else .error .malformed

/-! ## Writing -/

def hexText (n : ℕ) : Str :=
  [n / 4096 % 16, n / 256 % 16, n / 16 % 16, n % 16].map fun d => .scalar (Nat.digitChar d)

def unicodeEscape (n : ℕ) : Str := lit "\\u" ++ hexText n

def escape (p : CodePoint) : Str :=
  match p with
  | .scalar '"' => lit "\\\""
  | .scalar '\\' => lit "\\\\"
  | .scalar '\x08' => lit "\\b"
  | .scalar '\x0c' => lit "\\f"
  | .scalar '\n' => lit "\\n"
  | .scalar '\r' => lit "\\r"
  | .scalar '\t' => lit "\\t"
  | p =>
      if 0x20 ≤ p.ord ∧ p.ord ≤ 0x7E then [p]
      else if p.ord < 0x10000 then unicodeEscape p.ord
      else unicodeEscape (0xD800 + (p.ord - 0x10000) / 0x400) ++
        unicodeEscape (0xDC00 + (p.ord - 0x10000) % 0x400)

def quote (s : Str) : Str := .scalar '"' :: s.flatMap escape ++ [.scalar '"']

def intText (n : ℤ) : Str := (if n < 0 then [.scalar '-'] else []) ++ decimal n.natAbs

def strLe : Str → Str → Bool
  | [], _ => true
  | _ :: _, [] => false
  | p :: s, q :: t => p.ord < q.ord || (p.ord == q.ord && strLe s t)

structure DumpOptions where
  itemSep : Str
  keySep : Str
  sortKeys : Bool

def DumpOptions.default : DumpOptions := ⟨lit ", ", lit ": ", false⟩

def DumpOptions.canonical : DumpOptions := ⟨lit ",", lit ":", true⟩

def arrangeMembers (sortKeys : Bool) (members : List (Str × Str)) : List (Str × Str) :=
  if sortKeys then members.insertionSort fun m m' => strLe m.1 m'.1 else members

mutual

def dumps [JsonFloat F] (o : DumpOptions) : Json F → Str
  | null => lit "null"
  | bool true => lit "true"
  | bool false => lit "false"
  | int n => intText n
  | float x => JsonFloat.toText x
  | str s => quote s
  | arr items => .scalar '[' :: o.itemSep.intercalate (dumpsItems o items) ++ [.scalar ']']
  | obj members =>
      let rendered := (arrangeMembers o.sortKeys (dumpsMembers o members)).map
        fun m => quote m.1 ++ o.keySep ++ m.2
      .scalar '{' :: o.itemSep.intercalate rendered ++ [.scalar '}']

def dumpsItems [JsonFloat F] (o : DumpOptions) : List (Json F) → List Str
  | [] => []
  | v :: items => dumps o v :: dumpsItems o items

def dumpsMembers [JsonFloat F] (o : DumpOptions) : List (Str × Json F) → List (Str × Str)
  | [] => []
  | (k, v) :: members => (k, dumps o v) :: dumpsMembers o members

end

end Json

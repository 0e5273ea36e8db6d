import CacheControl.Lib.Framing
import Mathlib.Tactic

/-!
# Python text and its UTF-8 encoding

A Python `str` is a sequence of code points, lone surrogates included.  Its
UTF-8 encoding exists exactly when no surrogate occurs, and is then the
concatenation of the encodings of its scalar values.
-/

namespace PyText

/-- A code point of a `str`: a Unicode scalar value, or the lone surrogate
`U+D800 + offset`. -/
inductive CodePoint
  | scalar (c : Char)
  | surrogate (offset : Fin 0x800)
deriving DecidableEq

namespace CodePoint

def ord : CodePoint → ℕ
  | .scalar c => c.toNat
  | .surrogate i => 0xD800 + i

/-- `chr`, on numbers below `0x110000`. -/
def chr (n : ℕ) : CodePoint :=
  if h : 0xD800 ≤ n ∧ n < 0xE000 then .surrogate ⟨n - 0xD800, by omega⟩
  else .scalar (Char.ofNat n)

theorem scalar_injective : Function.Injective CodePoint.scalar :=
  fun _ _ h => CodePoint.scalar.inj h

end CodePoint

abbrev Str := List CodePoint

instance : LawfulBEq Str := inferInstance

abbrev Bytes := List UInt8

def lit (s : String) : Str := s.toList.map .scalar

def decimal (n : ℕ) : Str := (Nat.toDigits 10 n).map .scalar

/-! ## Encoding -/

def utf8 (cs : List Char) : Bytes := cs.flatMap String.utf8EncodeChar

/-- `s.encode("utf-8")`; `none` where Python raises `UnicodeEncodeError`. -/
def encode? : Str → Option Bytes
  | [] => some []
  | .scalar c :: s => (encode? s).map (String.utf8EncodeChar c ++ ·)
  | .surrogate _ :: _ => none

@[simp] theorem utf8_nil : utf8 [] = [] := rfl

@[simp] theorem utf8_cons (c : Char) (cs : List Char) :
    utf8 (c :: cs) = String.utf8EncodeChar c ++ utf8 cs := rfl

@[simp] theorem utf8_append (cs ds : List Char) : utf8 (cs ++ ds) = utf8 cs ++ utf8 ds := by
  simp [utf8]

theorem utf8_injective : Function.Injective utf8 := by
  intro cs ds h
  have hbytes : cs.utf8Encode = ds.utf8Encode := by
    have h' := congrArg List.toByteArray h
    simpa [utf8, List.utf8Encode] using h'
  have hdecode := congrArg ByteArray.utf8Decode? hbytes
  rw [List.utf8Decode?_utf8Encode, List.utf8Decode?_utf8Encode] at hdecode
  simpa using hdecode

theorem encode?_map_scalar (cs : List Char) : encode? (cs.map .scalar) = some (utf8 cs) := by
  induction cs with
  | nil => rfl
  | cons c cs ih => simp [encode?, ih]

/-- A string can be encoded exactly when it consists of scalar values. -/
theorem encode?_eq_some_iff {s : Str} {b : Bytes} :
    encode? s = some b ↔ ∃ cs : List Char, s = cs.map .scalar ∧ b = utf8 cs := by
  constructor
  · intro h
    induction s generalizing b with
    | nil => exact ⟨[], rfl, by simpa [encode?] using h.symm⟩
    | cons p s ih =>
        cases p with
        | surrogate i => simp [encode?] at h
        | scalar c =>
            obtain ⟨b', hb', rfl⟩ := Option.map_eq_some_iff.mp h
            obtain ⟨cs, rfl, rfl⟩ := ih hb'
            exact ⟨c :: cs, rfl, rfl⟩
  · rintro ⟨cs, rfl, rfl⟩
    exact encode?_map_scalar cs

theorem encode?_inj {s t : Str} {b : Bytes} (hs : encode? s = some b)
    (ht : encode? t = some b) : s = t := by
  obtain ⟨cs, rfl, rfl⟩ := encode?_eq_some_iff.mp hs
  obtain ⟨ds, rfl, hb⟩ := encode?_eq_some_iff.mp ht
  rw [utf8_injective hb]

theorem encode?_append (s t : Str) :
    encode? (s ++ t) = (encode? s).bind fun a => (encode? t).map (a ++ ·) := by
  induction s with
  | nil => cases h : encode? t <;> simp [encode?, h]
  | cons p s ih =>
      cases p with
      | surrogate i => simp [encode?]
      | scalar c =>
          cases hs : encode? s <;> cases ht : encode? t <;> simp [encode?, ih, hs, ht]

theorem encode?_append_eq_some_iff {s t : Str} {b : Bytes} :
    encode? (s ++ t) = some b ↔
      ∃ x y, encode? s = some x ∧ encode? t = some y ∧ b = x ++ y := by
  rw [encode?_append]
  constructor
  · intro h
    obtain ⟨x, hx, hmap⟩ := Option.bind_eq_some_iff.mp h
    obtain ⟨y, hy, rfl⟩ := Option.map_eq_some_iff.mp hmap
    exact ⟨x, y, hx, hy, rfl⟩
  · rintro ⟨x, y, hx, hy, rfl⟩
    simp [hx, hy]

/-- `data.decode("utf-8")`; `none` where Python raises `UnicodeDecodeError`. -/
def decode? (data : Bytes) : Option Str :=
  (ByteArray.utf8Decode? data.toByteArray).map fun cs => cs.toList.map .scalar

theorem toByteArray_utf8 (cs : List Char) : (utf8 cs).toByteArray = cs.utf8Encode := by
  simp [utf8, List.utf8Encode]

/-- Decoding and encoding are inverse to each other. -/
theorem decode?_eq_some_iff {data : Bytes} {s : Str} :
    decode? data = some s ↔ encode? s = some data := by
  rw [encode?_eq_some_iff]
  constructor
  · intro h
    obtain ⟨cs, hcs, rfl⟩ := Option.map_eq_some_iff.mp h
    obtain ⟨ds, hds⟩ := ByteArray.isSome_utf8Decode?_iff.mp (Option.isSome_of_eq_some hcs)
    rw [hds, List.utf8Decode?_utf8Encode] at hcs
    cases hcs
    refine ⟨ds, by simp, ?_⟩
    rw [← toByteArray_utf8] at hds
    have hlist := congrArg (fun b => b.data.toList) hds
    simpa using hlist
  · rintro ⟨cs, rfl, rfl⟩
    rw [decode?, toByteArray_utf8, List.utf8Decode?_utf8Encode]
    simp

/-! ## Length prefixes -/

theorem toDigits_injective : Function.Injective (Nat.toDigits 10) := by
  intro m n h
  rw [← Nat.ofDigitChars_ten_toDigits (n := m), h, Nat.ofDigitChars_ten_toDigits]

theorem mem_toDigits_ascii {n : ℕ} {c : Char} (hc : c ∈ Nat.toDigits 10 n) :
    48 ≤ c.toNat ∧ c.toNat ≤ 57 := by
  have h := Nat.isDigit_of_mem_toDigits (by decide) (by decide) hc
  simp only [Char.isDigit, Bool.and_eq_true, decide_eq_true_eq] at h
  exact ⟨UInt32.le_iff_toNat_le.mp h.1, UInt32.le_iff_toNat_le.mp h.2⟩

theorem utf8EncodeChar_of_ascii {c : Char} (hc : c.toNat < 128) :
    String.utf8EncodeChar c = [c.toNat.toUInt8] := by
  have h : c.toNat ≤ 0x7f := Nat.lt_succ_iff.mp hc
  simp [String.utf8EncodeChar, h]

theorem toNat_eq_of_mem_utf8EncodeChar {c : Char} {byte : UInt8} (hbyte : byte.toNat < 128)
    (h : byte ∈ String.utf8EncodeChar c) : c.toNat = byte.toNat := by
  have hofNat : ∀ n : ℕ, byte = UInt8.ofNat n → byte.toNat = n % 256 := by
    rintro n rfl
    exact UInt8.toNat_ofNat'
  have hc : c.val.toNat = c.toNat := rfl
  simp only [String.utf8EncodeChar, hc] at h
  split at h
  · have hval := hofNat _ (List.mem_singleton.mp h)
    omega
  · exfalso
    split at h
    · simp only [List.mem_cons, List.not_mem_nil, or_false] at h
      rcases h with h | h <;> have hval := hofNat _ h <;> omega
    · split at h
      · simp only [List.mem_cons, List.not_mem_nil, or_false] at h
        rcases h with h | h | h <;> have hval := hofNat _ h <;> omega
      · simp only [List.mem_cons, List.not_mem_nil, or_false] at h
        rcases h with h | h | h | h <;> have hval := hofNat _ h <;> omega

theorem notMem_of_encode? {s : Str} {b : Bytes} {a : Char} {byte : UInt8}
    (hbyte : byte.toNat < 128) (ha : a.toNat = byte.toNat) (hs : CodePoint.scalar a ∉ s)
    (h : encode? s = some b) : byte ∉ b := by
  obtain ⟨cs, rfl, rfl⟩ := encode?_eq_some_iff.mp h
  intro hmem
  obtain ⟨c, hc, hin⟩ := List.mem_flatMap.mp hmem
  have hca : c = a := by
    apply Char.toNat_inj.mp
    rw [toNat_eq_of_mem_utf8EncodeChar hbyte hin, ha]
  exact hs (List.mem_map.mpr ⟨a, hca ▸ hc, rfl⟩)

theorem notMem_utf8_toDigits {byte : UInt8} (h : byte.toNat < 48 ∨ 57 < byte.toNat) (n : ℕ) :
    byte ∉ utf8 (Nat.toDigits 10 n) := by
  intro hmem
  obtain ⟨c, hc, hbyte⟩ := List.mem_flatMap.mp hmem
  have hascii := mem_toDigits_ascii hc
  rw [utf8EncodeChar_of_ascii (by omega), List.mem_singleton] at hbyte
  have hval : byte.toNat = c.toNat := by
    rw [hbyte, Nat.toUInt8, UInt8.toNat_ofNat']
    omega
  omega

def byteLength : Framing.LengthPrefix UInt8 where
  digits n := utf8 (Nat.toDigits 10 n)
  sep := 0x3A
  digits_injective := utf8_injective.comp toDigits_injective
  sep_notMem_digits := notMem_utf8_toDigits (by decide)

/-- `f"{len(text)}:{text}"`: the length counts code points. -/
def textLength : Framing.LengthPrefix CodePoint where
  digits := decimal
  sep := .scalar ':'
  digits_injective := (List.map_injective_iff.mpr CodePoint.scalar_injective).comp
    toDigits_injective
  sep_notMem_digits n h := by
    obtain ⟨c, hc, heq⟩ := List.mem_map.mp h
    have hascii := mem_toDigits_ascii hc
    rw [CodePoint.scalar_injective heq] at hascii
    simp at hascii

end PyText

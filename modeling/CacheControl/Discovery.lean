import CacheControl.Enforcement
import CacheControl.Lowering
import CacheControl.Reporting
import CacheControl.Reordering

/-!
# What a gateway advertises

The capability document, its schema, and what a client reads in it: an absent
member means that there is no support.
-/

open PyText

namespace CacheControl

section

variable [Runtime] {σ : Type}

/-! ## The document -/

def Mode.word : Mode → Str
  | allow => lit "allow"
  | forbid => lit "forbid"

def Reuse.word : Reuse → Str
  | none => lit "none"
  | exact => lit "exact"
  | approximate => lit "approximate"

def OnUnenforceable.word : OnUnenforceable → Str
  | bypass => lit "bypass"
  | reject => lit "reject"

/-- `sorted(values)`, of words. -/
def sortedWords {α : Type} [DecidableEq α] (word : α → Str) (all : List α) (values : Finset α) :
    Value :=
  .arr ((((all.filter fun a => a ∈ values).map word).insertionSort
    fun s t => Json.strLe s t = true).map Json.str)

def Capabilities.constraints (caps : Capabilities) : List (Str × Value) :=
  [(lit "retention_modes", sortedWords Mode.word [.allow, .forbid] caps.retentionModes),
    (lit "retention_max_age", .bool caps.retentionMaxAge),
    (lit "reuse", sortedWords Reuse.word [.none, .exact, .approximate] caps.reuse),
    (lit "share_max", sortedWords Share.word
      [.request, .session, .principal, .tenant, .public] caps.shareMax),
    (lit "namespace", .bool caps.ns)]

def Capabilities.hints (caps : Capabilities) : List (Str × Value) :=
  caps.reuseWithinMax.toList.map fun limit : ℕ => (lit "reuse_within_max", .int limit)

def Gateway.capabilities (g : Gateway σ) : List (Str × Value) :=
  [(lit "versions", .arr [.int 1]), (lit "constraints", .obj g.backend.capabilities.constraints),
    (lit "hints", .obj g.backend.capabilities.hints), (lit "status", .bool true),
    (lit "per_fragment_share", .bool g.backend.capabilities.perFragmentShare),
    (lit "on_unenforceable", .str g.onUnenforceable.word)]

def Gateway.capabilitiesDocument (g : Gateway σ) : Value :=
  .obj [(lit "cache_intent_capabilities", .obj g.capabilities)]

/-! ## The schema -/

def optionally (check : Value → Bool) : Option Value → Bool
  | none => true
  | some v => check v

def isBool : Value → Bool
  | .bool _ => true
  | _ => false

def textOf : Value → Option Str
  | .str s => some s
  | _ => none

/-- An integer, or a float with an integral value. -/
def integerOf : Value → Option ℤ
  | .int n => some n
  | .float x => JsonFloat.integral? x
  | _ => none

/-- `{"type": "array", "minItems": 1, "uniqueItems": true}`, of items that `read`
accepts and tells apart. -/
def validArray {α : Type} [DecidableEq α] (read : Value → Option α) (ok : α → Bool) :
    Value → Bool
  | .arr items => !items.isEmpty && items.all (fun v => (read v).any ok) &&
      decide (items.filterMap read).Nodup
  | _ => false

def validConstraints : Value → Bool
  | .obj members =>
      onlyMembers [lit "retention_modes", lit "retention_max_age", lit "reuse", lit "share_max",
        lit "namespace"] members &&
      optionally (validArray textOf fun s => s ∈ [lit "allow", lit "forbid"])
        (Json.get? (lit "retention_modes") members) &&
      optionally isBool (Json.get? (lit "retention_max_age") members) &&
      optionally (validArray textOf fun s => s ∈ [lit "none", lit "exact", lit "approximate"])
        (Json.get? (lit "reuse") members) &&
      optionally (validArray textOf fun s => s ∈ shareWords)
        (Json.get? (lit "share_max") members) &&
      optionally isBool (Json.get? (lit "namespace") members)
  | _ => false

def validAdvertisedHints : Value → Bool
  | .obj members => optionally (fun v => (decodeNatural v).isSome)
      (Json.get? (lit "reuse_within_max") members)
  | _ => false

def validSurface : Value → Bool
  | .obj members =>
      onlyMembers [lit "versions", lit "constraints", lit "hints", lit "status",
        lit "per_fragment_share", lit "on_unenforceable"] members &&
      ((Json.get? (lit "versions") members).any
        (validArray integerOf fun n => decide (1 ≤ n))) &&
      (Json.get? (lit "constraints") members).any validConstraints &&
      optionally validAdvertisedHints (Json.get? (lit "hints") members) &&
      optionally isBool (Json.get? (lit "status") members) &&
      optionally isBool (Json.get? (lit "per_fragment_share") members) &&
      (Json.get? (lit "on_unenforceable") members).any (oneOf [lit "reject", lit "bypass"])
  | _ => false

/-- `llm-cache-capabilities.schema.json`. -/
def validCapabilities : Value → Bool
  | .obj document => onlyMembers [lit "cache_intent_capabilities"] document &&
      (Json.get? (lit "cache_intent_capabilities") document).any validSurface
  | _ => false

/-! ## The client -/

def member? (name : String) : Value → Option Value
  | .obj members => Json.get? (lit name) members
  | _ => none

def lists (word : Str) : Value → Bool
  | .arr items => items.any (oneOf [word])
  | _ => false

def affirms : Value → Bool
  | .bool b => b
  | _ => false

def surfaceOf (document : Value) : Option Value := member? "cache_intent_capabilities" document

def advertised (name : String) (document : Value) : Option Value :=
  ((surfaceOf document).bind (member? "constraints")).bind (member? name)

/-- The document has every member that the constraints need. -/
def advertises (document : Value) (c : Constraints) : Bool :=
  (advertised "retention_modes" document).any (lists c.retention.mode.word) &&
  (c.retention.maxAge.isNone || (advertised "retention_max_age" document).any affirms) &&
  (advertised "reuse" document).any (lists c.reuse.word) &&
  (advertised "share_max" document).any (lists c.shareMax.word) &&
  (c.ns.isNone || (advertised "namespace" document).any affirms)

def advertisedMaximum (document : Value) : Option ℕ :=
  (((surfaceOf document).bind (member? "hints")).bind (member? "reuse_within_max")).bind
    decodeNatural

/-! ## What a client reads -/

omit [Runtime] in
theorem modeWord_injective : Function.Injective Mode.word := by
  rintro (_ | _) (_ | _) h <;> first | rfl | exact absurd h (by decide +kernel)

omit [Runtime] in
theorem reuseWord_injective : Function.Injective Reuse.word := by
  rintro (_ | _ | _) (_ | _ | _) h <;> first | rfl | exact absurd h (by decide +kernel)

omit [Runtime] in
theorem shareWord_injective : Function.Injective Share.word := by
  rintro (_ | _ | _ | _ | _) (_ | _ | _ | _ | _) h <;>
    first | rfl | exact absurd h (by decide +kernel)

section Words

variable {α : Type} [DecidableEq α] {word : α → Str}

theorem exists_items_sortedWords (word : α → Str) (all : List α) (values : Finset α) :
    ∃ words : List Str, sortedWords word all values = .arr (words.map Json.str) ∧
      words.Perm ((all.filter fun a => a ∈ values).map word) :=
  ⟨_, rfl, List.perm_insertionSort _ _⟩

theorem lists_sortedWords {all : List α} {values : Finset α} (hword : Function.Injective word)
    (hall : ∀ a, a ∈ all) (a : α) :
    lists (word a) (sortedWords word all values) = true ↔ a ∈ values := by
  obtain ⟨words, hwords, hperm⟩ := exists_items_sortedWords word all values
  rw [hwords, lists, List.any_map, List.any_eq_true]
  constructor
  · rintro ⟨s, hs, hsame⟩
    obtain rfl : s = word a := by simpa [oneOf] using hsame
    obtain ⟨b, hb, hab⟩ := List.mem_map.mp (hperm.mem_iff.mp hs)
    rw [← hword hab]
    simpa using (List.mem_filter.mp hb).2
  · intro ha
    refine ⟨word a, hperm.mem_iff.mpr (List.mem_map_of_mem ?_), by simp [oneOf]⟩
    exact List.mem_filter.mpr ⟨hall a, by simpa using ha⟩

theorem validArray_sortedWords (values : Finset α) (all : List α) (ok : Str → Bool)
    (hword : Function.Injective word) (hall : ∀ a, a ∈ all) (hnodup : all.Nodup)
    (hok : ∀ a, ok (word a) = true) :
    validArray textOf ok (sortedWords word all values) = true ↔ values.Nonempty := by
  obtain ⟨words, hwords, hperm⟩ := exists_items_sortedWords word all values
  have hread : (words.map Json.str).filterMap textOf = words := by
    rw [List.filterMap_map]
    exact List.filterMap_some
  have hdistinct : words.Nodup := hperm.nodup_iff.mpr ((hnodup.filter _).map hword)
  have haccepted : (words.map Json.str).all (fun v => (textOf v).any ok) = true := by
    rw [List.all_map, List.all_eq_true]
    intro s hs
    obtain ⟨a, -, rfl⟩ := List.mem_map.mp (hperm.mem_iff.mp hs)
    exact hok a
  rw [hwords, validArray, hread, haccepted, decide_eq_true hdistinct, Bool.and_true, Bool.and_true,
    Bool.not_eq_true', List.isEmpty_eq_false_iff, Ne, List.map_eq_nil_iff]
  constructor
  · intro hne
    obtain ⟨s, hs⟩ := List.exists_mem_of_ne_nil words hne
    obtain ⟨a, ha, -⟩ := List.mem_map.mp (hperm.mem_iff.mp hs)
    exact ⟨a, by simpa using (List.mem_filter.mp ha).2⟩
  · rintro ⟨a, ha⟩ rfl
    have hmem : word a ∈ (all.filter fun a => a ∈ values).map word :=
      List.mem_map_of_mem (List.mem_filter.mpr ⟨hall a, by simpa using ha⟩)
    exact List.not_mem_nil (hperm.mem_iff.mpr hmem)

end Words

variable {g : Gateway σ} {caps : Capabilities} {c : Constraints}

theorem nodup_capabilities (g : Gateway σ) : (g.capabilities.map Prod.fst).Nodup := by
  show [lit "versions", lit "constraints", lit "hints", lit "status", lit "per_fragment_share",
    lit "on_unenforceable"].Nodup
  decide +kernel

theorem nodup_constraints (caps : Capabilities) : (caps.constraints.map Prod.fst).Nodup := by
  show [lit "retention_modes", lit "retention_max_age", lit "reuse", lit "share_max",
    lit "namespace"].Nodup
  decide +kernel

theorem surfaceOf_document (g : Gateway σ) :
    surfaceOf g.capabilitiesDocument = some (.obj g.capabilities) := by
  show Json.get? (lit "cache_intent_capabilities") _ = _
  rw [Json.get?, if_pos rfl]

theorem member?_surface (name : String) {v : Value} (h : (lit name, v) ∈ g.capabilities) :
    (surfaceOf g.capabilitiesDocument).bind (member? name) = some v := by
  rw [surfaceOf_document, Option.bind_some]
  exact (Json.get?_eq_some_iff (nodup_capabilities g)).mpr h

theorem advertised_document (name : String) {v : Value}
    (h : (lit name, v) ∈ g.backend.capabilities.constraints) :
    advertised name g.capabilitiesDocument = some v := by
  have hconstraints : (surfaceOf g.capabilitiesDocument).bind (member? "constraints") =
      some (.obj g.backend.capabilities.constraints) :=
    member?_surface "constraints" (.tail _ (.head _))
  rw [advertised, hconstraints, Option.bind_some]
  exact (Json.get?_eq_some_iff (nodup_constraints _)).mpr h

theorem advertisedMaximum_document (g : Gateway σ) :
    advertisedMaximum g.capabilitiesDocument = g.backend.capabilities.reuseWithinMax := by
  have hhints : (surfaceOf g.capabilitiesDocument).bind (member? "hints") =
      some (.obj g.backend.capabilities.hints) :=
    member?_surface "hints" (.tail _ (.tail _ (.head _)))
  rw [advertisedMaximum, hhints, Option.bind_some, Capabilities.hints]
  cases g.backend.capabilities.reuseWithinMax with
  | none => rfl
  | some limit =>
      show (Json.get? (lit "reuse_within_max") [(lit "reuse_within_max", .int limit)]).bind
        decodeNatural = some limit
      rw [Json.get?, if_pos rfl, Option.bind_some, decodeNatural, if_pos (Int.natCast_nonneg limit)]
      rfl

/-- Every constraint of the intent is one that the backend can enforce. -/
structure Supports (caps : Capabilities) (c : Constraints) : Prop where
  mode : c.retention.mode ∈ caps.retentionModes
  maxAge : c.retention.maxAge.isSome = true → caps.retentionMaxAge = true
  reuse : c.reuse ∈ caps.reuse
  shareMax : c.shareMax ∈ caps.shareMax
  ns : c.ns.isSome = true → caps.ns = true

theorem advertises_iff (g : Gateway σ) (c : Constraints) :
    advertises g.capabilitiesDocument c = true ↔ Supports g.backend.capabilities c := by
  have hoptional : ∀ {α : Type} (o : Option α) (b : Bool),
      (o.isNone || affirms (.bool b)) = true ↔
        (o.isSome = true → b = true) := by
    rintro α (_ | a) b <;> simp [affirms]
  have hmode : ∀ m : Mode, m ∈ [Mode.allow, Mode.forbid] := by rintro ⟨⟩ <;> decide
  have hreuse : ∀ r : Reuse, r ∈ [Reuse.none, Reuse.exact, Reuse.approximate] := by
    rintro ⟨⟩ <;> decide
  have hshare : ∀ b : Share,
      b ∈ [Share.request, Share.session, Share.principal, Share.tenant, Share.public] := by
    rintro ⟨⟩ <;> decide
  rw [advertises, advertised_document "retention_modes" (.head _),
    advertised_document "retention_max_age" (.tail _ (.head _)),
    advertised_document "reuse" (.tail _ (.tail _ (.head _))),
    advertised_document "share_max" (.tail _ (.tail _ (.tail _ (.head _)))),
    advertised_document "namespace" (.tail _ (.tail _ (.tail _ (.tail _ (.head _)))))]
  simp only [Option.any_some, Bool.and_eq_true, hoptional]
  rw [lists_sortedWords modeWord_injective hmode, lists_sortedWords reuseWord_injective hreuse,
    lists_sortedWords shareWord_injective hshare]
  constructor
  · rintro ⟨⟨⟨⟨hm, ha⟩, hr⟩, hs⟩, hn⟩
    exact ⟨hm, ha, hr, hs, hn⟩
  · intro h
    exact ⟨⟨⟨⟨h.mode, h.maxAge⟩, h.reuse⟩, h.shareMax⟩, h.ns⟩

/-! ## The schema and the text -/

theorem onlyMembers_names (members : List (Str × Value)) :
    onlyMembers (members.map Prod.fst) members = true :=
  List.all_eq_true.mpr fun _ hm => decide_eq_true (List.mem_map_of_mem hm)

theorem validConstraints_iff (caps : Capabilities) :
    validConstraints (.obj caps.constraints) = true ↔
      caps.retentionModes.Nonempty ∧ caps.reuse.Nonempty ∧ caps.shareMax.Nonempty := by
  have hget : ∀ {name : Str} {v : Value}, (name, v) ∈ caps.constraints →
      Json.get? name caps.constraints = some v :=
    fun h => (Json.get?_eq_some_iff (nodup_constraints caps)).mpr h
  have honly : onlyMembers [lit "retention_modes", lit "retention_max_age", lit "reuse",
      lit "share_max", lit "namespace"] caps.constraints = true := onlyMembers_names _
  have hmodes := validArray_sortedWords caps.retentionModes [.allow, .forbid]
    (fun s => s ∈ [lit "allow", lit "forbid"])
    modeWord_injective (by rintro ⟨⟩ <;> decide) (by decide) (by rintro ⟨⟩ <;> decide +kernel)
  have hreuse := validArray_sortedWords caps.reuse [.none, .exact, .approximate]
    (fun s => s ∈ [lit "none", lit "exact", lit "approximate"])
    reuseWord_injective (by rintro ⟨⟩ <;> decide) (by decide) (by rintro ⟨⟩ <;> decide +kernel)
  have hshare := validArray_sortedWords caps.shareMax [.request, .session, .principal, .tenant, .public]
    (fun s => s ∈ shareWords)
    shareWord_injective (by rintro ⟨⟩ <;> decide) (by decide) (by rintro ⟨⟩ <;> decide +kernel)
  rw [validConstraints, honly, hget (.head _), hget (.tail _ (.head _)),
    hget (.tail _ (.tail _ (.head _))), hget (.tail _ (.tail _ (.tail _ (.head _)))),
    hget (.tail _ (.tail _ (.tail _ (.tail _ (.head _)))))]
  simp only [optionally, isBool, Bool.and_true, Bool.true_and, Bool.and_eq_true, hmodes, hreuse,
    hshare, and_assoc]

theorem validCapabilities_iff (g : Gateway σ) : validCapabilities g.capabilitiesDocument = true ↔
    g.backend.capabilities.retentionModes.Nonempty ∧ g.backend.capabilities.reuse.Nonempty ∧
      g.backend.capabilities.shareMax.Nonempty := by
  have hget : ∀ {name : Str} {v : Value}, (name, v) ∈ g.capabilities →
      Json.get? name g.capabilities = some v :=
    fun h => (Json.get?_eq_some_iff (nodup_capabilities g)).mpr h
  have honly : onlyMembers [lit "versions", lit "constraints", lit "hints", lit "status",
      lit "per_fragment_share", lit "on_unenforceable"] g.capabilities = true :=
    onlyMembers_names _
  have hversions : validArray integerOf (fun n => decide (1 ≤ n)) (.arr [(.int 1 : Value)]) = true :=
    by simp [validArray, integerOf]
  have hhints : validAdvertisedHints (.obj g.backend.capabilities.hints) = true := by
    rw [Capabilities.hints]
    cases g.backend.capabilities.reuseWithinMax with
    | none => rfl
    | some limit =>
        rw [Option.toList_some, List.map_singleton, validAdvertisedHints, Json.get?, if_pos rfl]
        simp [optionally, decodeNatural]
  have hmode : oneOf [lit "reject", lit "bypass"] (.str g.onUnenforceable.word) = true := by
    have hword : ∀ m : OnUnenforceable, m.word ∈ [lit "reject", lit "bypass"] := by
      rintro ⟨⟩ <;> decide +kernel
    exact decide_eq_true (hword _)
  have hsurface : validSurface (.obj g.capabilities) =
      validConstraints (.obj g.backend.capabilities.constraints) := by
    rw [validSurface, honly, hget (.head _), hget (.tail _ (.head _)),
      hget (.tail _ (.tail _ (.head _))), hget (.tail _ (.tail _ (.tail _ (.head _)))),
      hget (.tail _ (.tail _ (.tail _ (.tail _ (.head _))))),
      hget (.tail _ (.tail _ (.tail _ (.tail _ (.tail _ (.head _))))))]
    simp [optionally, isBool, hversions, hhints, hmode]
  have hdocument : onlyMembers [lit "cache_intent_capabilities"]
      [(lit "cache_intent_capabilities", (.obj g.capabilities : Value))] = true := onlyMembers_names _
  rw [Gateway.capabilitiesDocument, validCapabilities, hdocument, Json.get?, if_pos rfl,
    Option.any_some, Bool.true_and, hsurface, validConstraints_iff]

theorem unsplit_sortedWords {α : Type} [DecidableEq α] (word : α → Str)
    (hword : ∀ a, Json.joined (word a) = word a) (all : List α) (values : Finset α) :
    Json.Unsplit (sortedWords word all values) := by
  obtain ⟨words, hwords, hperm⟩ := exists_items_sortedWords word all values
  rw [hwords, Json.unsplit_arr_iff, List.forall_mem_map]
  intro s hs
  obtain ⟨a, -, rfl⟩ := List.mem_map.mp (hperm.mem_iff.mp hs)
  exact congrArg Json.str (hword a)

theorem unsplit_hints (caps : Capabilities) (hname : Json.joined (lit "reuse_within_max") =
    lit "reuse_within_max") : Json.Unsplit (.obj caps.hints) := by
  rw [Json.unsplit_obj_iff, Capabilities.hints]
  intro m hm
  obtain ⟨limit, -, rfl⟩ := List.mem_map.mp hm
  exact ⟨hname, rfl⟩

theorem unsplit_document (g : Gateway σ) : Json.Unsplit g.capabilitiesDocument := by
  have hnames : ∀ w ∈ ["cache_intent_capabilities", "versions", "constraints", "hints", "status",
      "per_fragment_share", "on_unenforceable", "retention_modes", "retention_max_age", "reuse",
      "share_max", "namespace", "reuse_within_max"], Json.joined (lit w) = lit w := by
    decide +kernel
  have hbool : ∀ b : Bool, Json.Unsplit (.bool b : Value) := fun _ => rfl
  have hint : ∀ n : ℤ, Json.Unsplit (.int n : Value) := fun _ => rfl
  have hmode : Json.Unsplit (.str g.onUnenforceable.word : Value) := by
    have hword : ∀ m : OnUnenforceable, Json.joined m.word = m.word := by
      rintro ⟨⟩ <;> decide +kernel
    exact congrArg Json.str (hword _)
  have hconstraints : Json.Unsplit (.obj g.backend.capabilities.constraints) := by
    have hmodes := unsplit_sortedWords Mode.word (by rintro ⟨⟩ <;> decide +kernel)
    have hreuse := unsplit_sortedWords Reuse.word (by rintro ⟨⟩ <;> decide +kernel)
    have hshare := unsplit_sortedWords Share.word (by rintro ⟨⟩ <;> decide +kernel)
    simp [Json.unsplit_obj_iff, Capabilities.constraints, hnames, hmodes, hreuse, hshare, hbool]
  have hhints := unsplit_hints g.backend.capabilities (hnames _ (by simp))
  simp [Gateway.capabilitiesDocument, Json.unsplit_obj_iff, Json.unsplit_arr_iff,
    Gateway.capabilities, hnames, hconstraints, hhints, hbool, hint, hmode]

theorem distinct_sortedWords {α : Type} [DecidableEq α] (word : α → Str) (all : List α)
    (values : Finset α) : (sortedWords word all values).Distinct := by
  obtain ⟨words, hwords, -⟩ := exists_items_sortedWords word all values
  rw [hwords, Json.distinct_arr_iff, List.forall_mem_map]
  exact fun _ _ => trivial

theorem distinct_document (g : Gateway σ) : g.capabilitiesDocument.Distinct := by
  have hbool : ∀ b : Bool, (Json.bool b : Value).Distinct := fun _ => trivial
  have hint : ∀ n : ℤ, (Json.int n : Value).Distinct := fun _ => trivial
  have hconstraints : (Json.obj g.backend.capabilities.constraints : Value).Distinct := by
    refine Json.distinct_obj_iff.mpr ⟨nodup_constraints _, fun m hm => ?_⟩
    simp only [Capabilities.constraints, List.mem_cons, List.not_mem_nil, or_false] at hm
    rcases hm with rfl | rfl | rfl | rfl | rfl
    · exact distinct_sortedWords _ _ _
    · exact hbool _
    · exact distinct_sortedWords _ _ _
    · exact distinct_sortedWords _ _ _
    · exact hbool _
  have hhints : (Json.obj g.backend.capabilities.hints : Value).Distinct := by
    rw [Capabilities.hints]
    cases g.backend.capabilities.reuseWithinMax with
    | none => exact Json.distinct_obj_iff.mpr ⟨List.nodup_nil, by simp⟩
    | some limit => exact Json.distinct_obj_iff.mpr ⟨List.nodup_singleton _, by simp [hint]⟩
  refine Json.distinct_obj_iff.mpr ⟨List.nodup_singleton _, fun m hm => ?_⟩
  rw [List.mem_singleton.mp hm]
  refine Json.distinct_obj_iff.mpr ⟨nodup_capabilities g, fun m hm => ?_⟩
  simp only [Gateway.capabilities, List.mem_cons, List.not_mem_nil, or_false] at hm
  rcases hm with rfl | rfl | rfl | rfl | rfl | rfl
  · exact Json.distinct_arr_iff.mpr (by simp [hint])
  · exact hconstraints
  · exact hhints
  · exact hbool _
  · exact hbool _
  · trivial

/-- The document that is sent is read back. -/
theorem loadsStrict_document (hfloat : Json.FloatsReadBack Runtime.Float) (g : Gateway σ) :
    loadsStrict (Json.dumps .default g.capabilitiesDocument) = .ok g.capabilitiesDocument := by
  have hread := (loadsStrict_dumps hfloat g.capabilitiesDocument).1
  rw [unsplit_document g] at hread
  exact hread (distinct_document g)

end

end CacheControl

import CacheControl.Lib.JsonCanonical
import CacheControl.Acceptance
import CacheControl.Elements
import CacheControl.Memory

/-!
# Contents and what upstream sees

The contents that enter the cache keys are computed from a body, and what upstream
sees of it is computed apart from them.  They agree: the contents are those of what
is passed on, and tell exactly those lists of elements apart that differ.
-/

open PyText

namespace CacheControl

section

variable [Runtime] {kind : FragmentKind} {members members' : List (Str × Value)}
  {fragments fragments' : List Fragment}

/-! ## What is passed on is a body again -/

theorem checkItem_visible {item : List (Str × Value)} {index : ℕ}
    (h : checkItem kind item index = .ok ()) : checkItem kind (visible item) index = .ok () := by
  cases kind with
  | tool => rfl
  | message =>
      show rejectContentPartIntents (visible item) index = .ok ()
      unfold rejectContentPartIntents
      rw [get?_content_visible]
      exact h

theorem exists_extractItems_strip {n : ℕ} {items : List Value}
    (h : extractItems kind n items = .ok fragments) :
    ∃ stripped, extractItems kind n (items.map stripItem) = .ok stripped := by
  induction items generalizing n fragments with
  | nil => exact ⟨[], rfl⟩
  | cons v items ih =>
      cases v with
      | obj item =>
          rw [extractItems_obj] at h
          obtain ⟨u, hcheck, h⟩ := bind_eq_ok_iff.mp h
          obtain ⟨rest, hrest, -⟩ := bind_eq_ok_iff.mp h
          obtain ⟨stripped, hstripped⟩ := ih hrest
          refine ⟨fragmentOf kind n (visible item) :: stripped, ?_⟩
          show extractItems kind n (.obj (visible item) :: items.map stripItem) = _
          rw [extractItems_obj, checkItem_visible hcheck, hstripped]
          rfl
      | null | bool | int | float | str | arr => cases h

theorem itemsOf_stripBindingMembers (hnames : (members.map Prod.fst).Nodup) (kind : FragmentKind) :
    itemsOf kind (stripBindingMembers members).1 =
      (itemsOf kind members).map (List.map stripItem) := by
  have hget : itemsOf kind (unscoped members) = itemsOf kind members := by
    unfold itemsOf unscoped
    rw [Json.get?_filter (fun f => f ∉ untrustedScopeFields) (array_notMem_untrusted kind)]
  rw [stripBindingMembers_eq hnames, itemsOf_onElements, hget]

theorem exists_extractFragments_strip (hnames : (members.map Prod.fst).Nodup)
    (h : extractFragments (.obj members) = .ok fragments) :
    ∃ stripped, extractFragments (.obj (stripBindingMembers members).1) = .ok stripped := by
  obtain ⟨tools, messages, tf, mf, htools, hmessages, htool, hmessage, -⟩ :=
    items_of_extractFragments h
  obtain ⟨strippedTools, hstrippedTools⟩ := exists_extractItems_strip htool
  obtain ⟨strippedMessages, hstrippedMessages⟩ := exists_extractItems_strip hmessage
  refine ⟨strippedTools ++ strippedMessages, ?_⟩
  rw [extractFragments, itemsOf_stripBindingMembers hnames, itemsOf_stripBindingMembers hnames,
    htools, hmessages]
  show extractItems .tool 0 (tools.map stripItem) >>= _ = _
  rw [hstrippedTools]
  show extractItems .message 0 (messages.map stripItem) >>= _ = _
  rw [hstrippedMessages]
  rfl

/-! ## Trees and texts -/

/-- Equal as JSON trees, up to the order of members: a pair of surrogates and the
character it spells are one string. -/
def SameTree (v w : Value) : Prop := v.sorted.rejoin = w.sorted.rejoin

/-- The elements of an array that upstream sees. -/
def forwardedOf (kind : FragmentKind) (members : List (Str × Value)) : List Value :=
  elementsOf kind (stripBindingMembers members).1

/-- The content of an element that is passed on. -/
def treeContent (kind : FragmentKind) (v : Value) : Str :=
  kind.word ++ lit ":" ++ Json.dumps .canonical v

theorem elementContent_obj (item : List (Str × Value)) :
    elementContent kind (.obj item) = treeContent kind (stripItem (.obj item)) :=
  fragmentContent_eq item kind

omit [Runtime] in
theorem plain_canonical :
    Json.DumpOptions.Plain { Json.DumpOptions.canonical with sortKeys := false } [] [] :=
  ⟨rfl, by decide +kernel, by decide +kernel, by simp⟩

theorem treeContent_eq_iff (hfloat : Json.FloatsReadBack Runtime.Float) {v w : Value} :
    treeContent kind v = treeContent kind w ↔ SameTree v w := by
  rw [treeContent, treeContent, List.append_right_inj]
  exact Json.dumps_eq_iff hfloat rfl plain_canonical

theorem elementContents_eq (h : ∀ kind, ∀ v ∈ elementsOf kind members, ∃ item, v = .obj item) :
    elementContents members = (forwardedOf .tool members).map (treeContent .tool) ++
      (forwardedOf .message members).map (treeContent .message) := by
  have hmap : ∀ kind, (elementsOf kind members).map (elementContent kind) =
      (forwardedOf kind members).map (treeContent kind) := by
    intro kind
    rw [forwardedOf, elementsOf_stripBindingMembers, List.map_map]
    refine List.map_congr_left fun v hv => ?_
    obtain ⟨item, rfl⟩ := h kind v hv
    exact elementContent_obj item
  rw [elementContents, hmap, hmap]

theorem objects_of_makes (h : List.Forall₂ Makes (elements members) fragments) (kind : FragmentKind)
    {v : Value} (hv : v ∈ elementsOf kind members) : ∃ item, v = .obj item := by
  obtain ⟨e, he, -, rfl⟩ := exists_element hv
  obtain ⟨i, hi⟩ := List.mem_iff_getElem?.mp he
  obtain ⟨f, -, item, hitem, -⟩ := exists_made h hi
  exact ⟨item, hitem⟩

/-! ## Tools and messages are told apart -/

def isToolContent (content : Str) : Bool := content.head? = some (.scalar 't')

theorem isToolContent_treeContent (kind : FragmentKind) (v : Value) :
    isToolContent (treeContent kind v) = decide (kind = .tool) := by
  have hhead : isToolContent kind.word = decide (kind = .tool) ∧ kind.word ≠ [] := by
    cases kind <;> decide +kernel
  rw [← hhead.1]
  unfold isToolContent treeContent
  rw [List.append_assoc, List.head?_append_of_ne_nil _ hhead.2]

theorem filter_contents (tools messages : List Value) :
    (tools.map (treeContent .tool) ++ messages.map (treeContent .message)).filter isToolContent =
        tools.map (treeContent .tool) ∧
      (tools.map (treeContent .tool) ++ messages.map (treeContent .message)).filter
        (fun c => !isToolContent c) = messages.map (treeContent .message) := by
  simp [List.filter_append, List.filter_map, Function.comp_def, isToolContent_treeContent]

theorem contents_eq_iff (hfloat : Json.FloatsReadBack Runtime.Float)
    (h : extractFragments (.obj members) = .ok fragments)
    (h' : extractFragments (.obj members') = .ok fragments') :
    contentsOf fragments = contentsOf fragments' ↔
      ∀ kind, List.Forall₂ SameTree (forwardedOf kind members) (forwardedOf kind members') := by
  have hkind : ∀ kind, (forwardedOf kind members).map (treeContent kind) =
      (forwardedOf kind members').map (treeContent kind) ↔
        List.Forall₂ SameTree (forwardedOf kind members) (forwardedOf kind members') := by
    intro kind
    rw [← List.forall₂_eq_eq_eq, List.forall₂_map_left_iff, List.forall₂_map_right_iff]
    simp only [treeContent_eq_iff hfloat]
  rw [contentsOf_extractFragments h, contentsOf_extractFragments h',
    elementContents_eq fun kind v => objects_of_makes (makes_of_extractFragments h) kind,
    elementContents_eq fun kind v => objects_of_makes (makes_of_extractFragments h') kind]
  constructor
  · intro heq kind
    rw [← hkind]
    obtain ⟨htool, hmessage⟩ := filter_contents (forwardedOf .tool members)
      (forwardedOf .message members)
    obtain ⟨htool', hmessage'⟩ := filter_contents (forwardedOf .tool members')
      (forwardedOf .message members')
    cases kind with
    | tool => rw [← htool, heq, htool']
    | message => rw [← hmessage, heq, hmessage']
  · intro hsame
    rw [(hkind .tool).mpr (hsame .tool), (hkind .message).mpr (hsame .message)]

/-! ## Bodies without split pairs -/

/-- A body decoded from UTF-8 has no split pair. -/
theorem unsplit_of_loadsStrict {body : Str} {v : Value} (hbody : Json.Scalars body)
    (h : loadsStrict body = .ok v) : Json.Unsplit v := by
  unfold loadsStrict at h
  split at h
  · rename_i w hw
    cases h
    exact refusesRepeats_rejectDuplicates.unsplit_of_loads hbody _ hw
  · cases h
  · cases h

/-- The elements stand in an array of the body. -/
theorem exists_array_of_mem {v : Value} (hv : v ∈ elementsOf kind members) :
    ∃ name items, (name, Json.arr items) ∈ members ∧ v ∈ items := by
  unfold elementsOf at hv
  split at hv
  · rename_i items hget
    exact ⟨_, items, Json.mem_of_get? hget, hv⟩
  · cases hv

theorem unsplit_forwarded (h : Json.Unsplit (Json.obj members)) {v : Value}
    (hv : v ∈ forwardedOf kind members) : Json.Unsplit v := by
  rw [forwardedOf, elementsOf_stripBindingMembers] at hv
  obtain ⟨w, hw, rfl⟩ := List.mem_map.mp hv
  obtain ⟨name, items, hmem, hw⟩ := exists_array_of_mem hw
  have hunsplit : Json.Unsplit w :=
    Json.unsplit_arr_iff.mp (Json.unsplit_obj_iff.mp h _ hmem).2 w hw
  cases w with
  | obj item =>
      rw [Json.unsplit_obj_iff] at hunsplit
      exact Json.unsplit_obj_iff.mpr fun m hm => hunsplit m (List.mem_of_mem_filter hm)
  | _ => exact hunsplit

theorem forall₂_sameTree_iff {vs ws : List Value} (hvs : ∀ v ∈ vs, Json.Unsplit v)
    (hws : ∀ w ∈ ws, Json.Unsplit w) :
    List.Forall₂ SameTree vs ws ↔ vs.map Json.sorted = ws.map Json.sorted := by
  have hmap : ∀ us : List Value, (∀ u ∈ us, Json.Unsplit u) →
      us.map (fun u => u.sorted.rejoin) = us.map Json.sorted := fun us hus =>
    List.map_congr_left fun u hu => Json.unsplit_sorted (hus u hu)
  rw [← hmap vs hvs, ← hmap ws hws, ← List.forall₂_eq_eq_eq, List.forall₂_map_left_iff,
    List.forall₂_map_right_iff]
  rfl

end

/-- Contents are computed alike before and after stripping, and are equal exactly
where the elements passed on are. -/
theorem contents_identify [Runtime] (hfloat : Json.FloatsReadBack Runtime.Float)
    {members : List (Str × Value)} {fragments : List Fragment}
    (hdistinct : (Json.obj members).Distinct)
    (h : extractFragments (.obj members) = .ok fragments) :
    (∃ stripped, extractFragments (.obj (stripBindingMembers members).1) = .ok stripped ∧
        contentsOf stripped = contentsOf fragments) ∧
      ∀ members' fragments', (Json.obj members').Distinct →
        extractFragments (.obj members') = .ok fragments' →
        (contentsOf fragments = contentsOf fragments' ↔ ∀ kind,
          List.Forall₂ SameTree (forwardedOf kind members) (forwardedOf kind members')) ∧
        ∀ body body', Json.Scalars body → Json.Scalars body' →
          loadsStrict body = .ok (.obj members) → loadsStrict body' = .ok (.obj members') →
          (contentsOf fragments = contentsOf fragments' ↔ ∀ kind,
            (forwardedOf kind members).map Json.sorted =
              (forwardedOf kind members').map Json.sorted) := by
  refine ⟨?_, fun members' fragments' _ h' => ?_⟩
  · obtain ⟨stripped, hstripped⟩ :=
      exists_extractFragments_strip (Json.distinct_obj_iff.mp hdistinct).1 h
    refine ⟨stripped, hstripped, ?_⟩
    rw [contentsOf_extractFragments hstripped, contentsOf_extractFragments h,
      elementContents_stripBindingMembers]
  · have hiff := contents_eq_iff hfloat h h'
    refine ⟨hiff, fun body body' hbody hbody' hload hload' => ?_⟩
    have hunsplit := unsplit_of_loadsStrict hbody hload
    have hunsplit' := unsplit_of_loadsStrict hbody' hload'
    rw [hiff]
    exact forall_congr' fun kind => forall₂_sameTree_iff
      (fun v hv => unsplit_forwarded hunsplit hv) (fun w hw => unsplit_forwarded hunsplit' hw)

section

attribute [local instance] reference

/-- A message, with its members in either order. -/
def greeting (flipped : Bool) : List (Str × Value) :=
  let role : Str × Value := (lit "role", .str (lit "user"))
  let content : Str × Value := (lit "content", .str (lit "hi"))
  if flipped then [content, role] else [role, content]

def greetingMembers (flipped : Bool) : List (Str × Value) :=
  [(lit "messages", .arr [.obj (greeting flipped)])]

theorem contents_identify_greetingMembers :
    contentsOf [fragmentOf .message 0 (greeting false)] =
        contentsOf [fragmentOf .message 0 (greeting true)] ↔ ∀ kind,
      List.Forall₂ SameTree (forwardedOf kind (greetingMembers false))
        (forwardedOf kind (greetingMembers true)) := by
  have hnames : ∀ flipped, ((greeting flipped).map Prod.fst).Nodup := by decide +kernel
  have hdistinct : ∀ flipped, (Json.obj (greetingMembers flipped)).Distinct := fun flipped => by
    refine Json.distinct_obj_iff.mpr ⟨List.nodup_singleton _, ?_⟩
    rintro m hm
    rw [List.mem_singleton.mp hm]
    refine Json.distinct_arr_iff.mpr fun v hv => ?_
    rw [List.mem_singleton.mp hv]
    refine Json.distinct_obj_iff.mpr ⟨hnames flipped, ?_⟩
    cases flipped <;> simp [greeting, Json.Distinct]
  exact ((contents_identify floatsReadBack_reference (hdistinct false) rfl).2
    (greetingMembers true) _ (hdistinct true) rfl).1

end

end CacheControl

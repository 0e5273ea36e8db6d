import CacheControl.Agreement
import CacheControl.Isolation
import CacheControl.Vanishing
import CacheControl.Meet
import CacheControl.Reporting

/-!
# Intents of one effect

Two intents may differ and still have one effect: a boundary of one request makes
the bounds and the namespaces behind it idle, and so does a policy that neither
looks for state nor keeps any.  A run in which one is exchanged for the other is
reported alike, and its store goes through the same states.
-/

open PyText ExpiringStore

namespace CacheControl

section

variable [Runtime]

/-! ## Bounds of one deadline -/

/-- Whenever the clock is read, both bounds give one deadline, or neither can be
added to what is read. -/
def SameDeadlines (m n : Option ℕ) : Prop :=
  ∀ now, InMemoryCache.expiry now m = InMemoryCache.expiry now n

theorem SameDeadlines.refl (m : Option ℕ) : SameDeadlines m m := fun _ => rfl

theorem SameDeadlines.symm {m n : Option ℕ} (h : SameDeadlines m n) : SameDeadlines n m :=
  fun now => (h now).symm

theorem expiry_none_ne (now : Time) (n : ℕ) :
    InMemoryCache.expiry now none ≠ InMemoryCache.expiry now (some n) := by
  intro h
  obtain ⟨d, -, hd⟩ := InMemoryCache.expiry_some_eq_ok_iff.mp h.symm
  cases hd

/-- What lies between two bounds of one deadline has that deadline as well. -/
theorem SameDeadlines.between {l m n : ℕ} (h : SameDeadlines (some l) (some n)) (hlm : l ≤ m)
    (hmn : m ≤ n) : SameDeadlines (some l) (some m) := by
  intro now
  have hends := h now
  simp only [InMemoryCache.expiry] at hends ⊢
  cases hn : Runtime.plus now n with
  | some e =>
      obtain ⟨d, hm, hde⟩ := Runtime.plus_mono now hmn hn
      obtain ⟨d', hl, hdd⟩ := Runtime.plus_mono now hlm hm
      rw [hl, hn] at hends
      obtain rfl : d' = e := Option.some.inj (Except.ok.inj hends)
      rw [hl, hm, le_antisymm hdd hde]
  | none =>
      cases hm : Runtime.plus now m with
      | none =>
          rw [hn] at hends
          exact hends
      | some d =>
          obtain ⟨d', hl, -⟩ := Runtime.plus_mono now hlm hm
          rw [hl, hn] at hends
          cases hends

/-- The smallest of bounds with the same deadlines have the same deadline. -/
theorem sameDeadlines_of_smallest {cs ds : List Constraints} {m n : Option ℕ}
    (hm : IsSmallestAge cs m) (hn : IsSmallestAge ds n)
    (hleft : ∀ c ∈ cs, ∃ d ∈ ds, SameDeadlines c.retention.maxAge d.retention.maxAge)
    (hright : ∀ d ∈ ds, ∃ c ∈ cs, SameDeadlines c.retention.maxAge d.retention.maxAge) :
    SameDeadlines m n := by
  intro now
  cases m with
  | none =>
      cases n with
      | none => rfl
      | some n =>
          obtain ⟨d, hd, hdn⟩ := hn.1
          obtain ⟨c, hc, hsame⟩ := hright d hd
          rw [hm c hc, hdn] at hsame
          exact hsame now
  | some m =>
      obtain ⟨c, hc, hcm⟩ := hm.1
      obtain ⟨d, hd, hsame⟩ := hleft c hc
      rw [hcm] at hsame
      cases n with
      | none =>
          rw [hn d hd] at hsame
          exact hsame now
      | some n =>
          obtain ⟨d', hd', hdn⟩ := hn.1
          obtain ⟨c', hc', hsame'⟩ := hright d' hd'
          rw [hdn] at hsame'
          rcases le_total m n with hle | hle
          · cases hdm : d.retention.maxAge with
            | none =>
                rw [hdm] at hsame
                exact absurd (hsame now).symm (expiry_none_ne now m)
            | some l =>
                rw [hdm] at hsame
                exact hsame.between hle (hn.2 ⟨d, hd, hdm⟩) now
          · cases hcm' : c'.retention.maxAge with
            | none =>
                rw [hcm'] at hsame'
                exact absurd (hsame' now) (expiry_none_ne now n)
            | some l =>
                rw [hcm'] at hsame'
                exact (hsame'.symm.between hle (hm.2 ⟨c', hc', hcm'⟩) now).symm

/-! ## Constraints of one effect -/

/-- The constraints do the same in every prefix: what they permit is the same where
it is ever consulted. -/
structure SameEffect (c d : Constraints) : Prop where
  shareMax : c.shareMax = d.shareMax
  mode : c.retention.mode = d.retention.mode
  reuses : c.reuse = .none ↔ d.reuse = .none
  reuse : c.shareMax ≠ .request → c.reuse = d.reuse
  deadlines : c.shareMax ≠ .request → c.retention.mode = .allow →
    SameDeadlines c.retention.maxAge d.retention.maxAge
  ns : c.shareMax ≠ .request → c.reuse ≠ .none ∨ c.retention.mode = .allow → c.ns = d.ns
  encodable : (∀ n, c.ns = some n → Encodable n) ↔ ∀ n, d.ns = some n → Encodable n

theorem SameEffect.refl (c : Constraints) : SameEffect c c where
  shareMax := rfl
  mode := rfl
  reuses := Iff.rfl
  reuse _ := rfl
  deadlines _ _ := SameDeadlines.refl _
  ns _ _ := rfl
  encodable := Iff.rfl

/-- Policies of one effect, over the namespaces of their prefixes. -/
structure SamePolicy (xs ys : List Str) (e e' : Effective) : Prop where
  shareMax : e.shareMax = e'.shareMax
  mode : e.retention.mode = e'.retention.mode
  reuses : e.reuse = .none ↔ e'.reuse = .none
  reuse : e.shareMax ≠ .request → e.reuse = e'.reuse
  deadlines : e.shareMax ≠ .request → e.retention.mode = .allow →
    SameDeadlines e.retention.maxAge e'.retention.maxAge
  namespaces : e.shareMax ≠ .request → e.reuse ≠ .none ∨ e.retention.mode = .allow → xs = ys
  left : ∃ d, namespaceDigest xs = .ok d
  right : ∃ d, namespaceDigest ys = .ok d

omit [Runtime] in
theorem exists_mem_of_forall₂ {α β : Type*} {R : α → β → Prop} {xs : List α} {ys : List β}
    (h : List.Forall₂ R xs ys) : (∀ x ∈ xs, ∃ y ∈ ys, R x y) ∧ ∀ y ∈ ys, ∃ x ∈ xs, R x y := by
  induction h with
  | nil => simp
  | cons hxy _ ih =>
      refine ⟨fun x hx => ?_, fun y hy => ?_⟩
      · rcases List.mem_cons.mp hx with rfl | hx
        · exact ⟨_, by simp, hxy⟩
        · obtain ⟨y, hy, hR⟩ := ih.1 x hx
          exact ⟨y, List.mem_cons_of_mem _ hy, hR⟩
      · rcases List.mem_cons.mp hy with rfl | hy
        · exact ⟨_, by simp, hxy⟩
        · obtain ⟨x, hx, hR⟩ := ih.2 y hy
          exact ⟨x, List.mem_cons_of_mem _ hx, hR⟩

omit [Runtime] in
/-- A value that corresponding elements share is found in both lists or in neither. -/
theorem image_eq_of_forall₂ {α β γ : Type*} {R : α → β → Prop} {f : α → γ} {g : β → γ}
    {xs : List α} {ys : List β} (h : List.Forall₂ R xs ys)
    (hfg : ∀ x ∈ xs, ∀ y ∈ ys, R x y → f x = g y) :
    {z | ∃ x ∈ xs, f x = z} = {z | ∃ y ∈ ys, g y = z} := by
  obtain ⟨hleft, hright⟩ := exists_mem_of_forall₂ h
  ext z
  constructor
  · rintro ⟨x, hx, rfl⟩
    obtain ⟨y, hy, hR⟩ := hleft x hx
    exact ⟨y, hy, (hfg x hx y hy hR).symm⟩
  · rintro ⟨y, hy, rfl⟩
    obtain ⟨x, hx, hR⟩ := hright y hy
    exact ⟨x, hx, hfg x hx y hy hR⟩

omit [Runtime] in
theorem filterMap_eq_of_forall₂ {α β γ : Type*} {R : α → β → Prop} {f : α → Option γ}
    {g : β → Option γ} {xs : List α} {ys : List β} (h : List.Forall₂ R xs ys)
    (hfg : ∀ x ∈ xs, ∀ y ∈ ys, R x y → f x = g y) : xs.filterMap f = ys.filterMap g := by
  induction h with
  | nil => rfl
  | @cons x y xs ys hxy _ ih =>
      have hrest := ih fun x' hx y' hy => hfg x' (List.mem_cons_of_mem _ hx) y'
        (List.mem_cons_of_mem _ hy)
      rw [List.filterMap_cons, List.filterMap_cons, hfg x (by simp) y (by simp) hxy, hrest]

variable {cs ds : List Constraints} {xs ys : List Str} {e e' : Effective}

theorem Composes.reuse_eq_none_iff (h : Composes cs e) :
    e.reuse = .none ↔ ∃ c ∈ cs, c.reuse = .none := by
  constructor
  · intro hnone
    obtain ⟨c, hc, heq⟩ := h.reuse.1
    exact ⟨c, hc, heq.trans hnone⟩
  · rintro ⟨c, hc, hnone⟩
    have hle := h.reuse_le hc
    rw [hnone] at hle
    exact le_antisymm hle (Reuse.none_le _)

theorem Composes.ne_request (h : Composes cs e) (hshare : e.shareMax ≠ .request) {c : Constraints}
    (hc : c ∈ cs) : c.shareMax ≠ .request := by
  intro hrequest
  have hle := h.shareMax_le hc
  rw [hrequest] at hle
  exact hshare (le_antisymm hle (Share.request_le _))

theorem Composes.allows (h : Composes cs e) (hallow : e.retention.mode = .allow) {c : Constraints}
    (hc : c ∈ cs) : c.retention.mode = .allow := by
  cases hmode : c.retention.mode with
  | allow => rfl
  | forbid =>
      have hforbid := h.forbids.mpr ⟨c, hc, hmode⟩
      rw [hallow] at hforbid
      cases hforbid

/-- Constraints of one effect compose to policies of one effect. -/
theorem samePolicy_of_composes (h : List.Forall₂ SameEffect cs ds) (hcs : Composes cs e)
    (hds : Composes ds e') :
    SamePolicy (cs.filterMap Constraints.ns) (ds.filterMap Constraints.ns) e e' := by
  obtain ⟨hleft, hright⟩ := exists_mem_of_forall₂ h
  refine ⟨?_, ?_, ?_, ?_, ?_, ?_, ⟨_, hcs.namespaceIdentity⟩, ⟨_, hds.namespaceIdentity⟩⟩
  · have hset := image_eq_of_forall₂ h fun c _ d _ hcd => hcd.shareMax
    exact (hset ▸ hcs.shareMax).unique hds.shareMax
  · have hset := image_eq_of_forall₂ h fun c _ d _ hcd => hcd.mode
    have hiff : e.retention.mode = .forbid ↔ e'.retention.mode = .forbid := by
      rw [hcs.forbids, hds.forbids]
      exact Set.ext_iff.mp hset .forbid
    cases hmode : e.retention.mode with
    | forbid => exact (hiff.mp hmode).symm
    | allow =>
        cases hmode' : e'.retention.mode with
        | allow => rfl
        | forbid =>
            rw [hiff.mpr hmode'] at hmode
            cases hmode
  · rw [hcs.reuse_eq_none_iff, hds.reuse_eq_none_iff]
    constructor
    · rintro ⟨c, hc, hnone⟩
      obtain ⟨d, hd, hcd⟩ := hleft c hc
      exact ⟨d, hd, hcd.reuses.mp hnone⟩
    · rintro ⟨d, hd, hnone⟩
      obtain ⟨c, hc, hcd⟩ := hright d hd
      exact ⟨c, hc, hcd.reuses.mpr hnone⟩
  · intro hshare
    have hset := image_eq_of_forall₂ h fun c hc d _ hcd => hcd.reuse (hcs.ne_request hshare hc)
    exact (hset ▸ hcs.reuse).unique hds.reuse
  · intro hshare hallow
    have hmode : e'.retention.mode = .allow := by
      cases hmode' : e'.retention.mode with
      | allow => rfl
      | forbid =>
          obtain ⟨d, hd, hforbid⟩ := hds.forbids.mp hmode'
          obtain ⟨c, hc, hcd⟩ := hright d hd
          have hc' := hcs.allows hallow hc
          rw [hcd.mode, hforbid] at hc'
          cases hc'
    have hsame : ∀ c ∈ cs, ∀ d, SameEffect c d →
        SameDeadlines c.retention.maxAge d.retention.maxAge :=
      fun c hc d hcd => hcd.deadlines (hcs.ne_request hshare hc) (hcs.allows hallow hc)
    refine sameDeadlines_of_smallest (hcs.maxAge hallow) (hds.maxAge hmode) ?_ ?_
    · intro c hc
      obtain ⟨d, hd, hcd⟩ := hleft c hc
      exact ⟨d, hd, hsame c hc d hcd⟩
    · intro d hd
      obtain ⟨c, hc, hcd⟩ := hright d hd
      exact ⟨c, hc, hsame c hc d hcd⟩
  · intro hshare huses
    refine filterMap_eq_of_forall₂ h fun c hc d _ hcd => hcd.ns (hcs.ne_request hshare hc) ?_
    rcases huses with hreuse | hallow
    · exact .inl fun hnone => hreuse (hcs.reuse_eq_none_iff.mpr ⟨c, hc, hnone⟩)
    · exact .inr (hcs.allows hallow hc)

theorem namespacesEncodable_of_forall₂ (h : List.Forall₂ SameEffect cs ds) :
    NamespacesEncodable cs ↔ NamespacesEncodable ds := by
  obtain ⟨hleft, hright⟩ := exists_mem_of_forall₂ h
  constructor
  · intro henc d hd
    obtain ⟨c, hc, hcd⟩ := hright d hd
    exact hcd.encodable.mp (henc c hc)
  · intro henc c hc
    obtain ⟨d, hd, hcd⟩ := hleft c hc
    exact hcd.encodable.mpr (henc d hd)

theorem compose_samePolicy (h : List.Forall₂ SameEffect cs ds) :
    Prog.ExceptRel Eq (SamePolicy (cs.filterMap Constraints.ns) (ds.filterMap Constraints.ns))
      (compose cs) (compose ds) := by
  by_cases hnil : cs = []
  · subst hnil
    cases h
    exact .error rfl
  have hnil' : ds ≠ [] := by
    rintro rfl
    cases h
    exact hnil rfl
  have henc := namespacesEncodable_of_forall₂ h
  rcases compose_cases hnil with ⟨⟨e, he⟩, hcs⟩ | ⟨he, hcs⟩
  · rcases compose_cases hnil' with ⟨⟨e', he'⟩, -⟩ | ⟨-, hds⟩
    · rw [he, he']
      exact .ok (samePolicy_of_composes h (composes_of_compose he) (composes_of_compose he'))
    · exact absurd (henc.mp hcs) hds
  · rcases compose_cases hnil' with ⟨-, hds⟩ | ⟨he', -⟩
    · exact absurd (henc.mpr hds) hcs
    · rw [he, he']
      exact .error rfl

/-! ## One fragment -/

variable {mode : OnUnenforceable} {contents : List Str} {auth : AuthContext} {requestId : Str}
  {now : Time} {approxClass : Option Str} {s : Entries} {k : Str}

/-- Whether there is a key does not depend on namespaces that can be encoded. -/
theorem cacheKey_rel (hxs : ∃ d, namespaceDigest xs = .ok d)
    (hys : ∃ d, namespaceDigest ys = .ok d) (ex : Execution) (contents : List Str)
    (partition : Str) (exact : Bool) : Prog.ExceptRel Eq (fun _ _ => True)
      (cacheKey ex contents xs partition exact) (cacheKey ex contents ys partition exact) := by
  obtain ⟨d, hd⟩ := hxs
  obtain ⟨d', hd'⟩ := hys
  obtain ⟨b, hb⟩ := exists_encodeField "ns" (encodable_identity hd)
  obtain ⟨b', hb'⟩ := exists_encodeField "ns" (encodable_identity hd')
  have hsame : ∀ x : Except PyError Bytes, Prog.ExceptRel Eq (fun _ _ => True) x x :=
    Prog.exceptRel_refl (fun _ => rfl) fun _ => trivial
  unfold cacheKey
  refine (hsame _).bind fun _ _ _ => (hsame _).bind fun _ _ _ => ?_
  refine (hsame _).bind fun _ _ _ => (hsame _).bind fun _ _ _ => ?_
  rw [namespaceIdentity_map_some, namespaceIdentity_map_some, hd, hd']
  simp only [bind, Except.bind, hb, hb']
  exact (hsame _).bind fun _ _ _ => .ok trivial

theorem get_of_avoids {kind : Str → Prop} (h : Avoids kind s) (hk : kind k) :
    InMemoryCache.get k now s = (.ok none, s) := by
  unfold InMemoryCache.get
  rw [h k hk]

/-- Within the boundary of one request there is nothing to find. -/
theorem resolve_ofRequest (mode : OnUnenforceable) (hshare : e.shareMax = .request)
    (hreuse : e.reuse ≠ .none)
    (hk : cacheKey execution contents xs (partitionFor e.shareMax auth requestId) true = .ok k)
    (hclass : ∀ c, approxClass = some c → Encodable c) (h : Avoids OfRequest s) :
    (inMemoryGateway mode).resolve e contents xs (partitionFor e.shareMax auth requestId) now
      approxClass s = (.ok (.miss, false), s) := by
  have hwithin : ∀ {contents exact k}, cacheKey execution contents xs
      (partitionFor e.shareMax auth requestId) exact = .ok k →
        (inMemoryGateway mode).backend.get k now s = (.ok none, s) := by
    intro contents exact k hk
    rw [hshare] at hk
    exact get_of_avoids h ⟨auth, _, _, _, _, hk⟩
  unfold Gateway.resolve
  rw [if_neg (by simp [inMemoryGateway, inMemoryBackend]), if_neg hreuse, hk, Prog.lift_ok_bind,
    Prog.bind_of_ok (hwithin hk)]
  cases hr : e.reuse with
  | none => exact absurd hr hreuse
  | exact => rfl
  | approximate =>
      cases approxClass with
      | none => rfl
      | some c =>
          obtain ⟨d, hd, -⟩ := cacheKey_eq_ok hk
          have hcontents : ∀ c' ∈ [c], Encodable c' := by simpa using hclass c rfl
          obtain ⟨dk, hdk⟩ := exists_cacheKey ⟨_, hd.partition⟩
            (hd.ns.imp fun _ hn => hn.1) hcontents false
          dsimp only
          rw [hdk, Prog.lift_ok_bind, Prog.bind_of_ok (hwithin hdk)]
          rfl

/-- The stores are one store, in which nothing is kept for one request only. -/
def SameStore (s t : Entries) : Prop := s = t ∧ Avoids OfRequest s

theorem resolve_samePolicy (h : SamePolicy xs ys e e')
    (hclass : ∀ c, approxClass = some c → Encodable c) :
    Prog.Relates SameStore Eq Eq
      ((inMemoryGateway mode).resolve e contents xs (partitionFor e.shareMax auth requestId) now
        approxClass)
      ((inMemoryGateway mode).resolve e' contents ys (partitionFor e'.shareMax auth requestId) now
        approxClass) := by
  by_cases hreuse : e.reuse = .none
  · have hreuse' := h.reuses.mp hreuse
    unfold Gateway.resolve
    rw [if_neg (by simp [inMemoryGateway, inMemoryBackend]), if_pos hreuse,
      if_neg (by simp [inMemoryGateway, inMemoryBackend]), if_pos hreuse']
    exact Prog.relates_pure rfl
  have hreuse' : e'.reuse ≠ .none := mt h.reuses.mpr hreuse
  by_cases hshare : e.shareMax = .request
  · rintro s _ ⟨rfl, havoids⟩
    have hshare' : e'.shareMax = .request := h.shareMax ▸ hshare
    have hkeys := cacheKey_rel h.left h.right execution contents
      (partitionFor e.shareMax auth requestId) true
    generalize hx : cacheKey execution contents xs _ true = x at hkeys
    generalize hy : cacheKey execution contents ys _ true = y at hkeys
    cases hkeys with
    | ok _ =>
        rw [h.shareMax] at hy
        rw [resolve_ofRequest mode hshare hreuse hx hclass havoids,
          resolve_ofRequest mode hshare' hreuse' hy hclass havoids]
        exact ⟨.ok rfl, rfl, havoids⟩
    | error he =>
        rw [h.shareMax] at hy
        unfold Gateway.resolve
        rw [if_neg (by simp [inMemoryGateway, inMemoryBackend]), if_neg hreuse, hx,
          if_neg (by simp [inMemoryGateway, inMemoryBackend]), if_neg hreuse', hy]
        exact ⟨.error he, rfl, havoids⟩
  · have hns := h.namespaces hshare (.inl hreuse)
    subst hns
    have hsame : (inMemoryGateway mode).resolve e' contents xs
        (partitionFor e'.shareMax auth requestId) now approxClass =
        (inMemoryGateway mode).resolve e contents xs (partitionFor e.shareMax auth requestId) now
          approxClass := by
      unfold Gateway.resolve
      rw [h.reuse hshare, h.shareMax]
    rw [hsame]
    have hwithin := (memoryBacked_inMemory mode).within_resolve e contents xs
      (partitionFor e.shareMax auth requestId) now approxClass
    exact Prog.Within.relates (fun s havoids => havoids.prunes (hwithin s)) (fun _ => rfl)
      fun _ => rfl

theorem put_sameDeadlines {m n : Option ℕ} (h : SameDeadlines m n) (k : Str) (now : Time)
    (exact : Bool) : InMemoryCache.put k now m exact = InMemoryCache.put k now n exact := by
  unfold InMemoryCache.put
  rw [h now]

theorem materialize_samePolicy (hcf : CollisionFree) (h : SamePolicy xs ys e e') (exact : Bool) :
    Prog.Relates SameStore Eq Eq
      ((inMemoryGateway mode).materialize e contents xs (partitionFor e.shareMax auth requestId)
        now exact approxClass)
      ((inMemoryGateway mode).materialize e' contents ys (partitionFor e'.shareMax auth requestId)
        now exact approxClass) := by
  cases hmode : e.retention.mode with
  | forbid =>
      have hmode' : e'.retention.mode = .forbid := h.mode ▸ hmode
      unfold Gateway.materialize
      rw [if_pos hmode, if_pos hmode']
      exact Prog.relates_pure rfl
  | allow =>
      have hmode' : e'.retention.mode = .allow := h.mode ▸ hmode
      by_cases hshare : e.shareMax = .request
      · have hshare' : e'.shareMax = .request := h.shareMax ▸ hshare
        unfold Gateway.materialize
        rw [if_neg (by simp [hmode]), if_pos hshare, if_neg (by simp [hmode']), if_pos hshare']
        exact Prog.relates_pure rfl
      · have hns := h.namespaces hshare (.inr hmode)
        subst hns
        have hput : ∀ k, (inMemoryGateway mode).backend.put k now e'.retention.maxAge =
            (inMemoryGateway mode).backend.put k now e.retention.maxAge := by
          intro k
          funext exact
          exact (put_sameDeadlines (h.deadlines hshare hmode) k now exact).symm
        have hsame : (inMemoryGateway mode).materialize e' contents xs
            (partitionFor e'.shareMax auth requestId) now exact approxClass =
            (inMemoryGateway mode).materialize e contents xs
              (partitionFor e.shareMax auth requestId) now exact approxClass := by
          unfold Gateway.materialize
          simp only [hput, h.mode, h.shareMax]
        rw [hsame]
        refine Prog.Within.relates (fun s havoids => ?_) (fun _ => rfl) fun _ => rfl
        rw [(memoryBacked_inMemory mode).materialize_state (checkEnforceable_inMemory e)]
        refine havoids.insertAll fun entry hentry => ?_
        obtain ⟨hne, hwithin⟩ := keyWithin_of_mem_stored hentry
        exact hwithin.not_ofRequest hcf hne

theorem retain_samePolicy (hcf : CollisionFree) (h : SamePolicy xs ys e e') (o : Outcome)
    (exact : Bool) : Prog.Relates SameStore Eq Eq
      ((inMemoryGateway mode).retain o e contents xs (partitionFor e.shareMax auth requestId) now
        exact approxClass)
      ((inMemoryGateway mode).retain o e' contents ys (partitionFor e'.shareMax auth requestId)
        now exact approxClass) := by
  cases o with
  | unobserved =>
      unfold Gateway.retain
      rw [h.mode]
      exact Prog.relates_pure rfl
  | exactHit => exact Prog.relates_pure rfl
  | bypass => exact materialize_samePolicy hcf h exact
  | miss => exact materialize_samePolicy hcf h exact
  | approximateHit => exact materialize_samePolicy hcf h exact

/-- Loop variables behind prefixes of one effect. -/
structure SameVars (v w : LoopVars) : Prop where
  contents : v.contentsSoFar = w.contentsSoFar
  tainted : v.taintedApproximate = w.taintedApproximate
  constraints : List.Forall₂ SameEffect v.constraintsSoFar w.constraintsSoFar
  left : v.namespacesSoFar = v.constraintsSoFar.filterMap Constraints.ns
  right : w.namespacesSoFar = w.constraintsSoFar.filterMap Constraints.ns

theorem sameVars_init : SameVars LoopVars.init LoopVars.init := ⟨rfl, rfl, .nil, rfl, rfl⟩

theorem entry_statusOf {f f' : Fragment} (hid : f.id = f'.id) (hshare : e.shareMax = e'.shareMax)
    (hints : HintStatus) (o : Outcome) (r : RetentionStatus) (exact : Bool) :
    (Gateway.statusOf f e hints o r exact).entry =
      (Gateway.statusOf f' e' hints o r exact).entry := by
  simp [FragmentStatus.entry, FragmentStatus.common, Gateway.statusOf, hid, hshare]

/-- Fragments under policies of one effect are served alike. -/
theorem serve_samePolicy (hcf : CollisionFree) {f f' : Fragment} {v w : LoopVars}
    (hid : f.id = f'.id) (happrox : f.approxClass = f'.approxClass)
    (hclass : ∀ c, f.approxClass = some c → Encodable c) (hvars : SameVars v w)
    (h : SamePolicy v.namespacesSoFar w.namespacesSoFar e e') (hints : HintStatus) :
    Prog.Relates SameStore Eq (fun p q => SameVars p.1 q.1 ∧ p.2.entry = q.2.entry)
      ((inMemoryGateway mode).serve auth now requestId f v hints e)
      ((inMemoryGateway mode).serve auth now requestId f' w hints e') := by
  unfold Gateway.serve
  rw [← hvars.contents, ← happrox, hvars.tainted]
  refine (resolve_samePolicy h hclass).bind fun found found' hfound => ?_
  obtain rfl : found = found' := hfound
  refine (retain_samePolicy hcf h _ _).bind fun r r' hr => ?_
  obtain rfl : r = r' := hr
  refine Prog.relates_pure ⟨?_, entry_statusOf hid h.shareMax _ _ _ _⟩
  exact ⟨rfl, rfl, hvars.constraints, hvars.left, hvars.right⟩

/-- Intents of one effect, or none in either place. -/
inductive SameIntent : Option Intent → Option Intent → Prop
  | bare : SameIntent none none
  | carried {i i' : Intent} : SameEffect i.constraints i'.constraints →
      hintStatus inMemoryBackend.capabilities i.hints =
        hintStatus inMemoryBackend.capabilities i'.hints → SameIntent (some i) (some i')

theorem SameIntent.refl (i : Option Intent) : SameIntent i i := by
  cases i with
  | none => exact .bare
  | some i => exact .carried (SameEffect.refl _) rfl

structure SameFragment (f f' : Fragment) : Prop where
  id : f.id = f'.id
  content : f.content = f'.content
  approxClass : f.approxClass = f'.approxClass
  parsed : Prog.ExceptRel Eq SameIntent f.parsed f'.parsed
  encodable : ∀ c, f.approxClass = some c → Encodable c

inductive SameEntered : Entered → Entered → Prop
  | ungoverned {v w : LoopVars} : SameVars v w → SameEntered (.ungoverned v) (.ungoverned w)
  | governed {v w : LoopVars} {e e' : Effective} (hints : HintStatus) : SameVars v w →
      SamePolicy v.namespacesSoFar w.namespacesSoFar e e' →
      SameEntered (.governed v hints e) (.governed w hints e')

theorem SameVars.govern {v w : LoopVars} (h : SameVars v w) (hints : HintStatus) :
    Prog.ExceptRel Eq SameEntered ((compose v.constraintsSoFar).map (.governed v hints))
      ((compose w.constraintsSoFar).map (.governed w hints)) := by
  refine (compose_samePolicy h.constraints).map fun e e' hpolicy => .governed hints h ?_
  rw [h.left, h.right]
  exact hpolicy

theorem enterWith_same {v w : LoopVars} (h : SameVars v w) {i i' : Option Intent}
    (hi : SameIntent i i') : Prog.ExceptRel Eq SameEntered
      (enterWith inMemoryBackend.capabilities v i)
      (enterWith inMemoryBackend.capabilities w i') := by
  cases hi with
  | bare =>
      have hempty : v.constraintsSoFar.isEmpty = w.constraintsSoFar.isEmpty := by
        rw [Bool.eq_iff_iff, List.isEmpty_iff_length_eq_zero, List.isEmpty_iff_length_eq_zero,
          h.constraints.length_eq]
      rw [enterWith, enterWith, hempty]
      split
      · exact .ok (SameEntered.ungoverned h)
      · exact h.govern {}
  | @carried i i' heffect hhints =>
      rw [enterWith, enterWith, hhints]
      apply SameVars.govern
      refine ⟨h.contents, h.tainted, List.rel_append h.constraints (.cons heffect .nil), ?_, ?_⟩
      · cases hn : i.constraints.ns <;> simp [h.left, hn]
      · cases hn : i'.constraints.ns <;> simp [h.right, hn]

theorem handleFragment_same (hcf : CollisionFree) {f f' : Fragment} (h : SameFragment f f')
    {v w : LoopVars} (hvars : SameVars v w) :
    Prog.Relates SameStore Eq (fun p q => SameVars p.1 q.1 ∧ p.2.entry = q.2.entry)
      ((inMemoryGateway mode).handleFragment auth now requestId v f)
      ((inMemoryGateway mode).handleFragment auth now requestId w f') := by
  have hvars' : SameVars { v with contentsSoFar := v.contentsSoFar ++ [f.content] }
      { w with contentsSoFar := w.contentsSoFar ++ [f'.content] } := by
    refine ⟨?_, hvars.tainted, hvars.constraints, hvars.left, hvars.right⟩
    show v.contentsSoFar ++ [f.content] = w.contentsSoFar ++ [f'.content]
    rw [hvars.contents, h.content]
  have henter : Prog.ExceptRel Eq SameEntered
      (enter (inMemoryGateway mode).backend.capabilities v f)
      (enter (inMemoryGateway mode).backend.capabilities w f') := by
    rw [enter_eq, enter_eq]
    exact h.parsed.bind fun i i' hi => enterWith_same hvars' hi
  unfold Gateway.handleFragment
  refine (Prog.relates_lift henter).bind fun entered entered' hentered => ?_
  cases hentered with
  | ungoverned hnext =>
      refine Prog.relates_pure ⟨hnext, ?_⟩
      simp [FragmentStatus.entry, FragmentStatus.common, Gateway.bareStatus, h.id]
  | @governed v' w' e e' hints hnext hpolicy =>
      have hcheck := fun eff => checkEnforceable_inMemory eff
      simp only [inMemoryGateway, hcheck]
      exact serve_samePolicy hcf h.id h.approxClass h.encodable hnext hpolicy hints

/-! ## Runs -/

/-- The fragment, or the same one with one intent in place of the other. -/
inductive Exchanged (text text' : Str) : Fragment → Fragment → Prop
  | same (f : Fragment) : Exchanged text text' f f
  | exchanged (f : Fragment) : f.intentJson = some text →
      Exchanged text text' f { f with intentJson := some text' }

/-- The call, or the same one with some of its intents exchanged. -/
structure Exchanges (text text' : Str) (c d : Call) : Prop where
  fragments : List.Forall₂ (Exchanged text text') c.fragments d.fragments
  rest : d = { c with fragments := d.fragments }

/-- What a caller is told of a call. -/
def reported (r : Except PyError Result) : Except PyError (List (Str × Value)) :=
  r.map Result.asCacheStatus

/-- No run tells whether one of the intents stands in place of the other. -/
def Interchangeable (text text' : Str) : Prop :=
  ∀ (mode : OnUnenforceable) (calls calls' : List Call),
    List.Forall₂ (Exchanges text text') calls calls' →
    (∀ c ∈ calls, ∀ f ∈ c.fragments, ∀ k, f.approxClass = some k → Encodable k) →
    ((inMemoryGateway mode).run calls ∅).1.map reported =
      ((inMemoryGateway mode).run calls' ∅).1.map reported

section

variable {text text' : Str} {i i' : Intent} {f f' : Fragment} {fs fs' : List Fragment}

theorem Exchanged.id (h : Exchanged text text' f f') : f.id = f'.id := by
  cases h <;> rfl

theorem Exchanged.sameFragment (h : Exchanged text text' f f')
    (hparse : parseCacheIntent text = .ok i) (hparse' : parseCacheIntent text' = .ok i')
    (heffect : SameEffect i.constraints i'.constraints)
    (hhints : hintStatus inMemoryBackend.capabilities i.hints =
      hintStatus inMemoryBackend.capabilities i'.hints)
    (hclass : ∀ c, f.approxClass = some c → Encodable c) : SameFragment f f' := by
  cases h with
  | same =>
      exact ⟨rfl, rfl, rfl, Prog.exceptRel_refl (fun _ => rfl) SameIntent.refl _, hclass⟩
  | exchanged htext =>
      refine ⟨rfl, rfl, rfl, ?_, hclass⟩
      unfold Fragment.parsed
      simp only [htext, hparse, hparse']
      exact .ok (.carried heffect hhints)

theorem SameFragment.shareRank (h : SameFragment f f') : shareRank f = shareRank f' := by
  have hrank : ∀ f : Fragment, CacheControl.shareRank f =
      f.parsed.map fun i => i.elim 5 fun i => i.constraints.shareMax.rank := by
    intro f
    unfold CacheControl.shareRank Fragment.parsed
    cases f.intentJson with
    | none => rfl
    | some text =>
        dsimp only
        cases parseCacheIntent text <;> rfl
  have hparsed := h.parsed
  rw [hrank, hrank]
  generalize f.parsed = x, f'.parsed = y at hparsed ⊢
  cases hparsed with
  | error he => rw [he]
  | ok hi =>
      cases hi with
      | bare => rfl
      | carried heffect _ =>
          simp [Except.map, heffect.shareMax]

theorem planOrder_same (h : List.Forall₂ SameFragment fs fs') (equivalenceDeclared : Bool) :
    Prog.ExceptRel Eq (List.Forall₂ SameFragment) (planOrder fs equivalenceDeclared)
      (planOrder fs' equivalenceDeclared) := by
  have hranked : Prog.ExceptRel Eq
      (List.Forall₂ fun p q => p.1 = q.1 ∧ SameFragment p.2 q.2) (rankAll fs) (rankAll fs') := by
    induction h with
    | nil => exact .ok .nil
    | @cons f f' fs fs' hf _ ih =>
        rw [rankAll, rankAll, hf.shareRank]
        refine (Prog.exceptRel_refl (fun _ => rfl) (fun _ => rfl) _).bind fun n n' hn => ?_
        obtain rfl : n = n' := hn
        exact ih.bind fun rest rest' hrest => .ok (.cons ⟨rfl, hf⟩ hrest)
  unfold planOrder
  split
  · exact .ok h
  · refine hranked.bind fun ranked ranked' hall => .ok ?_
    have hsorted := forall₂_insertionSort (r := fun a b => a.1 ≤ b.1) (q := fun a b => a.1 ≤ b.1)
      (by rintro a b a' b' ⟨hab, -⟩ ⟨hab', -⟩; rw [hab, hab']) hall
    exact List.forall₂_map_left_iff.mpr (List.forall₂_map_right_iff.mpr
      (hsorted.imp fun _ _ hpq => hpq.2))

theorem checkIds_same (h : List.Forall₂ SameFragment fs fs') : checkIds fs = checkIds fs' := by
  have hids : fs.map Fragment.id = fs'.map Fragment.id := by
    rw [← List.forall₂_eq_eq_eq, List.forall₂_map_left_iff, List.forall₂_map_right_iff]
    exact h.imp fun _ _ hf => hf.id
  unfold checkIds
  rw [hids]

theorem Exchanges.forall₂_sameFragment {c d : Call} (h : Exchanges text text' c d)
    (hparse : parseCacheIntent text = .ok i) (hparse' : parseCacheIntent text' = .ok i')
    (heffect : SameEffect i.constraints i'.constraints)
    (hhints : hintStatus inMemoryBackend.capabilities i.hints =
      hintStatus inMemoryBackend.capabilities i'.hints)
    (hclass : ∀ f ∈ c.fragments, ∀ k, f.approxClass = some k → Encodable k) :
    List.Forall₂ SameFragment c.fragments d.fragments := by
  obtain ⟨hall, -⟩ := h
  generalize c.fragments = fs, d.fragments = fs' at hall hclass
  induction hall with
  | nil => exact .nil
  | cons hf _ ih =>
      refine .cons (hf.sameFragment hparse hparse' heffect hhints (hclass _ (by simp))) (ih ?_)
      exact fun f hf => hclass f (List.mem_cons_of_mem _ hf)

/-- Calls that correspond are reported alike, and leave the same store. -/
theorem answer_same (hcf : CollisionFree) (mode : OnUnenforceable) {c d : Call}
    (h : List.Forall₂ SameFragment c.fragments d.fragments)
    (hrest : d = { c with fragments := d.fragments }) :
    Prog.Relates SameStore Eq (fun r r' => r.asCacheStatus = r'.asCacheStatus)
      ((inMemoryGateway mode).answer c) ((inMemoryGateway mode).answer d) := by
  have hordered : Prog.ExceptRel Eq (List.Forall₂ SameFragment) c.ordered d.ordered := by
    unfold Call.ordered
    rw [hrest]
    refine (planOrder_same h _).bind fun fs fs' hall => ?_
    rw [checkIds_same hall]
    exact (Prog.exceptRel_refl (fun _ => rfl) (fun _ => rfl) _).bind fun _ _ _ => .ok hall
  have hturn : (inMemoryGateway mode).turn d = (inMemoryGateway mode).turn c := by
    rw [hrest]
    rfl
  rw [answer_eq, answer_eq, hturn]
  refine (Prog.relates_lift hordered).bind fun fs fs' hall => ?_
  have hstep : ∀ v w f f', SameVars v w → SameFragment f f' →
      Prog.Relates SameStore Eq (fun p q => SameVars p.1 q.1 ∧ p.2.entry = q.2.entry)
        ((inMemoryGateway mode).turn c v f) ((inMemoryGateway mode).turn c w f') :=
    fun v w f f' hvars hf => handleFragment_same hcf hf hvars
  have hloop := Prog.relates_mapAccum
    (D := fun st st' : FragmentStatus => st.entry = st'.entry) hstep hall sameVars_init
  refine hloop.bind fun ss ss' hss => Prog.relates_pure ?_
  have hentries : ss.map (fun s => (Json.obj s.entry : Value)) =
      ss'.map fun s => .obj s.entry := by
    rw [← List.forall₂_eq_eq_eq, List.forall₂_map_left_iff, List.forall₂_map_right_iff]
    exact hss.imp fun _ _ heq => congrArg Json.obj heq
  unfold Result.asCacheStatus
  rw [hentries]

end

/-- Where two intents have one effect and their hints are answered alike, no run tells
them apart. -/
theorem interchangeable_of_sameEffect (hcf : CollisionFree) {text text' : Str} {i i' : Intent}
    (hparse : parseCacheIntent text = .ok i) (hparse' : parseCacheIntent text' = .ok i')
    (heffect : SameEffect i.constraints i'.constraints)
    (hhints : hintStatus inMemoryBackend.capabilities i.hints =
      hintStatus inMemoryBackend.capabilities i'.hints) : Interchangeable text text' := by
  intro mode calls calls' hcalls hclass
  have hpairs : List.Forall₂ (fun c d => List.Forall₂ SameFragment c.fragments d.fragments ∧
      d = { c with fragments := d.fragments }) calls calls' := by
    induction hcalls with
    | nil => exact .nil
    | cons hc _ ih =>
        refine .cons ⟨?_, hc.rest⟩ (ih fun d hd => hclass d (List.mem_cons_of_mem _ hd))
        exact hc.forall₂_sameFragment hparse hparse' heffect hhints (hclass _ (by simp))
  have hresults := (Prog.relates_session (fun c d hcd => answer_same hcf mode hcd.1 hcd.2) hpairs
    (s := (∅ : Entries)) (t := ∅) ⟨rfl, avoids_empty _⟩).1
  rw [← List.forall₂_eq_eq_eq, List.forall₂_map_left_iff, List.forall₂_map_right_iff]
  refine hresults.imp fun r r' hr => ?_
  cases hr with
  | ok heq => exact congrArg Except.ok heq
  | error he => exact congrArg Except.error he

end

end CacheControl

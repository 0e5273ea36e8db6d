import CacheControl.Interchange

/-!
# What state is

State is known by whom it is kept for, the namespaces and contents it is of, and
whether it is exact.  The keys of the cache are digests of such identities.
-/

open PyText ExpiringStore

namespace CacheControl

/-- Those whom state is kept for. -/
inductive Audience
  | everyone
  | tenant (tenant : Str)
  | principal (tenant principal : Str)
  | session (tenant principal session : Str)
deriving DecidableEq

namespace Audience

def share : Audience → Share
  | .everyone => .public
  | .tenant _ => .tenant
  | .principal _ _ => .principal
  | .session _ _ _ => .session

/-- A caller in the audience. -/
def auth : Audience → AuthContext
  | .everyone => ⟨[], [], []⟩
  | .tenant t => ⟨t, [], []⟩
  | .principal t p => ⟨t, p, []⟩
  | .session t p s => ⟨t, p, s⟩

def partition (a : Audience) : Str := partitionFor a.share a.auth []

theorem share_ne_request (a : Audience) : a.share ≠ .request := by
  cases a <;> rintro ⟨⟩

theorem eq_of_partition {a b : Audience} (ha : a.auth.Plain) (hb : b.auth.Plain)
    (h : a.partition = b.partition) : a = b := by
  obtain ⟨hshare, hread⟩ := partitionFor_inj (ha.tenantPath _) (hb.tenantPath _) h
  cases a <;> cases b <;> simp [share] at hshare <;> simp_all [auth, share, identifiersRead]

end Audience

/-- Those whom a caller lets use the state, unless it is for one request only. -/
def audienceOf (share : Share) (auth : AuthContext) : Option Audience :=
  match share with
  | .public => some .everyone
  | .tenant => some (.tenant auth.tenant)
  | .principal => some (.principal auth.tenant auth.principal)
  | .session => some (.session auth.tenant auth.principal auth.session)
  | .request => none

theorem audienceOf_eq_none_iff {share : Share} {auth : AuthContext} :
    audienceOf share auth = none ↔ share = .request := by
  cases share <;> simp [audienceOf]

theorem partition_of_audienceOf {share : Share} {auth : AuthContext} {a : Audience}
    (h : audienceOf share auth = some a) (requestId : Str) :
    a.partition = partitionFor share auth requestId := by
  cases share <;> cases h <;> rfl

theorem plain_of_audienceOf {share : Share} {auth : AuthContext} {a : Audience}
    (h : audienceOf share auth = some a) (hauth : auth.Plain) : a.auth.Plain := by
  have hnil : ∀ p : CodePoint, p ∉ ([] : Str) := fun p => List.not_mem_nil
  obtain ⟨hts, hps, htn, hpn, hsn⟩ := hauth
  cases share <;> cases h
  · exact ⟨hts, hps, htn, hpn, hsn⟩
  · exact ⟨hts, hps, htn, hpn, hnil _⟩
  · exact ⟨hts, hnil _, htn, hnil _, hnil _⟩
  · exact ⟨hnil _, hnil _, hnil _, hnil _, hnil _⟩

structure Identity where
  audience : Audience
  namespaces : List Str
  contents : List Str
  exact : Bool
deriving DecidableEq

theorem toBool_encode_iff {s : Str} : (encode s).toBool = true ↔ Encodable s := by
  unfold Encodable
  cases encode s <;> simp [Except.toBool]

instance (s : Str) : Decidable (Encodable s) := decidable_of_iff _ toBool_encode_iff

/-- What state with these contents is, where it can be kept for others. -/
def identify (share : Share) (auth : AuthContext) (requestId : Str)
    (namespaces contents : List Str) (exact : Bool) : Except PyError (Option Identity) :=
  if ∀ s ∈ identifiersRead share auth requestId ++ namespaces ++ contents, Encodable s then
    .ok ((audienceOf share auth).map fun a => ⟨a, namespaces, contents, exact⟩)
  else .error .unicodeEncodeError

theorem encodable_partitionFor_iff {share : Share} {auth : AuthContext} {requestId : Str} :
    Encodable (partitionFor share auth requestId) ↔
      ∀ s ∈ identifiersRead share auth requestId, Encodable s := by
  cases share <;> simp [partitionFor, identifiersRead, encodable_append, encodable_lit]

section

variable [Runtime] {share : Share} {auth : AuthContext} {requestId k : Str}
  {namespaces contents : List Str} {exact : Bool}

/-- The key of the identity, for identifiers that cannot be taken apart in two ways. -/
structure Identity.Known (i : Identity) (k : Str) : Prop where
  plain : i.audience.auth.Plain
  key : cacheKey execution i.contents i.namespaces i.audience.partition i.exact = .ok k

/-- No two identities have one key. -/
theorem biUnique_known (hcf : CollisionFree) : Relator.BiUnique Identity.Known := by
  constructor
  · rintro ⟨a, ns, contents, exact⟩ ⟨a', ns', contents', exact'⟩ k h h'
    have hnul := h.plain.nul_notMem a.share_ne_request []
    have hnul' := h'.plain.nul_notMem a'.share_ne_request []
    obtain ⟨hpartition, rfl, rfl, rfl⟩ := cacheKey_inj hcf hnul hnul' h.key h'.key
    obtain rfl := Audience.eq_of_partition h.plain h'.plain hpartition
    rfl
  · intro i k l h h'
    exact Except.ok.inj (h.key.symm.trans h'.key)

theorem Identity.Known.not_ofRequest (hcf : CollisionFree) {i : Identity} (h : i.Known k) :
    ¬OfRequest k := by
  have hwithin : KeyWithin i.audience.share i.audience.auth k := ⟨_, _, _, _, h.key⟩
  exact hwithin.not_ofRequest hcf i.audience.share_ne_request

/-- What the key is the key of. -/
def Designates (k : Str) : Option Identity → Prop
  | none => OfRequest k
  | some i => i.Known k

omit [Runtime] in
theorem throws_encode_only (s : Str) : Prog.Throws (· = .unicodeEncodeError) (encode s) := by
  intro e h
  unfold encode at h
  split at h <;> cases h
  rfl

theorem throws_cacheKey_only (contents namespaces : List Str) (partition : Str) (exact : Bool) :
    Prog.Throws (· = .unicodeEncodeError)
      (cacheKey execution contents namespaces partition exact) := by
  have hframes : ∀ ss, Prog.Throws (· = .unicodeEncodeError) (encodeFrames ss) :=
    fun ss e => error_of_encodeFrames
  have hdigest : Prog.Throws (· = .unicodeEncodeError)
      (namespaceIdentity (namespaces.map some)) := by
    rw [namespaceIdentity_map_some]
    intro e h
    rcases namespaceDigest_cases namespaces with ⟨⟨d, hd⟩, -⟩ | ⟨hd, -⟩
    · cases hd.symm.trans h
    · cases hd.symm.trans h
      rfl
  unfold cacheKey
  refine (throws_encode_only _).bind fun _ => (throws_encode_only _).bind fun _ => ?_
  refine (throws_encode_only _).bind fun _ => (throws_encode_only _).bind fun _ => ?_
  refine hdigest.bind fun _ => (throws_encode_only _).bind fun _ => ?_
  exact (hframes _).bind fun _ => Prog.throws_ok _ _

theorem exists_cacheKey_iff :
    (∃ k, cacheKey execution contents namespaces (partitionFor share auth requestId) exact =
      .ok k) ↔
    ∀ s ∈ identifiersRead share auth requestId ++ namespaces ++ contents, Encodable s := by
  simp only [List.mem_append, or_imp, forall_and]
  rw [← encodable_partitionFor_iff]
  constructor
  · rintro ⟨k, hk⟩
    obtain ⟨d, hd, -⟩ := cacheKey_eq_ok hk
    refine ⟨⟨⟨_, hd.partition⟩, ?_⟩, exists_encodeFrames_iff.mp ⟨_, hd.contents⟩⟩
    obtain ⟨identity, hidentity, -⟩ := hd.ns
    rcases namespaceDigest_cases namespaces with ⟨-, hall⟩ | ⟨herror, -⟩
    · exact hall
    · cases hidentity.symm.trans herror
  · rintro ⟨⟨hpartition, hnamespaces⟩, hcontents⟩
    refine exists_cacheKey hpartition ?_ hcontents exact
    rcases namespaceDigest_cases namespaces with ⟨hd, -⟩ | ⟨-, hnot⟩
    · exact hd
    · exact absurd hnamespaces hnot

/-- Keys are computed where identities are, and are the keys of these. -/
theorem identify_cacheKey (hauth : auth.Plain) (share : Share) (requestId : Str)
    (namespaces contents : List Str) (exact : Bool) :
    Prog.ExceptRel Eq (fun k i => Designates k i ∧ (i = none → share = .request))
      (cacheKey execution contents namespaces (partitionFor share auth requestId) exact)
      (identify share auth requestId namespaces contents exact) := by
  unfold identify
  split
  · rename_i hall
    obtain ⟨k, hk⟩ := exists_cacheKey_iff.mpr hall
    rw [hk]
    apply Prog.ExceptRel.ok
    cases ha : audienceOf share auth with
    | none =>
        have hrequest := audienceOf_eq_none_iff.mp ha
        rw [hrequest] at hk
        exact ⟨⟨auth, _, _, _, _, hk⟩, fun _ => hrequest⟩
    | some a =>
        refine ⟨⟨plain_of_audienceOf ha hauth, ?_⟩, by rintro ⟨⟩⟩
        rw [partition_of_audienceOf ha requestId]
        exact hk
  · rename_i hnot
    cases hk : cacheKey execution contents namespaces (partitionFor share auth requestId) exact with
    | ok k => exact absurd (exists_cacheKey_iff.mp ⟨k, hk⟩) hnot
    | error e => exact .error (throws_cacheKey_only _ _ _ _ e hk)

end

end CacheControl

import CacheControl.Gateway
import CacheControl.Lib.JsonText

/-!
# What a cache key determines

A key digests the execution, the partition, exactness and the namespace
identity as terminated fields, and then the contents as frames.  Without
collisions of the digest it gives all of them back, provided the partition
does not contain the terminator; and what kind of partition it was can be told
in any case.
-/

open PyText

namespace CacheControl

def nul : CodePoint := .scalar '\x00'

def slash : CodePoint := .scalar '/'

/-- Identifiers as a credential table holds them. -/
structure AuthContext.Plain (auth : AuthContext) : Prop where
  tenant_slash : slash ∉ auth.tenant
  principal_slash : slash ∉ auth.principal
  tenant_nul : nul ∉ auth.tenant
  principal_nul : nul ∉ auth.principal
  session_nul : nul ∉ auth.session

/-! ## Partitions -/

def identifiersRead (shareMax : Share) (auth : AuthContext) (requestId : Str) : List Str :=
  match shareMax with
  | .public => []
  | .tenant => [auth.tenant]
  | .principal => [auth.tenant, auth.principal]
  | .session => [auth.tenant, auth.principal, auth.session]
  | .request => [requestId]

/-- The identifiers in which a slash would be taken for the next one's. -/
def tenantPath (shareMax : Share) (auth : AuthContext) : List Str :=
  match shareMax with
  | .public | .request => []
  | .tenant => [auth.tenant]
  | .principal | .session => [auth.tenant, auth.principal]

theorem AuthContext.Plain.tenantPath {auth : AuthContext} (h : auth.Plain) (s : Share) :
    ∀ i ∈ tenantPath s auth, slash ∉ i := by
  cases s <;> simp [CacheControl.tenantPath, h.tenant_slash, h.principal_slash]

theorem partitionFor_tenant (auth : AuthContext) (r : Str) :
    partitionFor .tenant auth r = lit "tenant:" ++ auth.tenant := rfl

theorem partitionFor_principal (auth : AuthContext) (r : Str) :
    partitionFor .principal auth r =
      lit "tenant:" ++ (auth.tenant ++ slash :: (lit "principal:" ++ auth.principal)) := by
  simp [partitionFor, lit, slash]

theorem partitionFor_session (auth : AuthContext) (r : Str) :
    partitionFor .session auth r =
      lit "tenant:" ++ (auth.tenant ++ slash :: (lit "principal:" ++
        (auth.principal ++ slash :: (lit "session:" ++ auth.session)))) := by
  simp [partitionFor, lit, slash]

theorem partitionFor_request (auth : AuthContext) (r : Str) :
    partitionFor .request auth r = lit "request:" ++ r := rfl

/-- The first symbol of a partition. -/
def Share.initial : Share → CodePoint
  | .public => .scalar 'p'
  | .request => .scalar 'r'
  | _ => .scalar 't'

theorem partitionFor_initial (s : Share) (auth : AuthContext) (r : Str) :
    ∃ rest, partitionFor s auth r = s.initial :: rest := by
  cases s <;> exact ⟨_, rfl⟩

theorem eq_public_iff_initial {s : Share} : s = .public ↔ s.initial = .scalar 'p' := by
  cases s <;> decide

theorem eq_request_iff_initial {s : Share} : s = .request ↔ s.initial = .scalar 'r' := by
  cases s <;> decide

theorem nul_notMem_partitionFor {s : Share} {auth : AuthContext} {r : Str}
    (h : ∀ i ∈ identifiersRead s auth r, nul ∉ i) : nul ∉ partitionFor s auth r := by
  have hlit : ∀ t : String, '\x00' ∉ t.toList → nul ∉ lit t := by
    intro t ht hmem
    obtain ⟨c, hc, hcn⟩ := List.mem_map.mp hmem
    cases hcn
    exact ht hc
  cases s <;>
    simp only [identifiersRead, List.mem_cons, List.not_mem_nil, or_false, forall_eq_or_imp,
      forall_eq, IsEmpty.forall_iff, implies_true] at h <;>
    simp only [partitionFor, List.mem_append, not_or]
  case request => exact ⟨hlit _ (by decide), h⟩
  case session =>
    exact ⟨⟨⟨⟨⟨hlit _ (by decide), h.1⟩, hlit _ (by decide)⟩, h.2.1⟩, hlit _ (by decide)⟩, h.2.2⟩
  case principal => exact ⟨⟨⟨hlit _ (by decide), h.1⟩, hlit _ (by decide)⟩, h.2⟩
  case tenant => exact ⟨hlit _ (by decide), h⟩
  case «public» => exact hlit _ (by decide)

/-- A plain context gives partitions without the terminator, except that a
request boundary shows the request id. -/
theorem AuthContext.Plain.nul_notMem {auth : AuthContext} (h : auth.Plain) {s : Share}
    (hs : s ≠ .request) (r : Str) : nul ∉ partitionFor s auth r := by
  apply nul_notMem_partitionFor
  intro i hi
  cases s <;> simp only [identifiersRead, List.mem_cons, List.not_mem_nil, or_false] at hi
  case request => exact absurd rfl hs
  case session =>
    rcases hi with rfl | rfl | rfl
    · exact h.tenant_nul
    · exact h.principal_nul
    · exact h.session_nul
  case principal =>
    rcases hi with rfl | rfl
    · exact h.tenant_nul
    · exact h.principal_nul
  case tenant =>
    subst hi
    exact h.tenant_nul

/-- Identifiers without a slash can be read off a partition. -/
theorem partitionFor_inj {s s' : Share} {a a' : AuthContext} {r r' : Str}
    (hs : ∀ i ∈ tenantPath s a, slash ∉ i) (hs' : ∀ i ∈ tenantPath s' a', slash ∉ i)
    (h : partitionFor s a r = partitionFor s' a' r') :
    s = s' ∧ identifiersRead s a r = identifiersRead s' a' r' := by
  have hinitial : s.initial = s'.initial := by
    obtain ⟨x, hx⟩ := partitionFor_initial s a r
    obtain ⟨y, hy⟩ := partitionFor_initial s' a' r'
    rw [hx, hy] at h
    exact (List.cons.inj h).1
  -- a tenant that ends where another partition goes on would contain the slash
  have hends : ∀ {x y z : Str}, slash ∉ x → x ≠ y ++ slash :: z := by
    rintro x y z hx rfl
    simp at hx
  cases s <;> cases s' <;> first | (exfalso; revert hinitial; decide) | skip
  all_goals
    simp only [tenantPath, List.mem_cons, List.not_mem_nil, or_false, forall_eq_or_imp, forall_eq,
      IsEmpty.forall_iff, implies_true] at hs hs'
  case request.request => simpa [partitionFor_request, identifiersRead] using h
  case session.session =>
    rw [partitionFor_session, partitionFor_session] at h
    obtain ⟨htenant, hrest⟩ :=
      Framing.append_cons_cancel hs.1 hs'.1 (List.append_cancel_left h)
    obtain ⟨hprincipal, hrest⟩ :=
      Framing.append_cons_cancel hs.2 hs'.2 (List.append_cancel_left hrest)
    have hsession := List.append_cancel_left hrest
    simp [identifiersRead, htenant, hprincipal, hsession]
  case session.principal =>
    rw [partitionFor_session, partitionFor_principal] at h
    obtain ⟨-, hrest⟩ := Framing.append_cons_cancel hs.1 hs'.1 (List.append_cancel_left h)
    exact absurd (List.append_cancel_left hrest).symm (hends hs'.2)
  case session.tenant =>
    rw [partitionFor_session, partitionFor_tenant] at h
    exact absurd (List.append_cancel_left h).symm (hends hs')
  case principal.session =>
    rw [partitionFor_session, partitionFor_principal] at h
    obtain ⟨-, hrest⟩ := Framing.append_cons_cancel hs.1 hs'.1 (List.append_cancel_left h)
    exact absurd (List.append_cancel_left hrest) (hends hs.2)
  case principal.principal =>
    rw [partitionFor_principal, partitionFor_principal] at h
    obtain ⟨htenant, hrest⟩ :=
      Framing.append_cons_cancel hs.1 hs'.1 (List.append_cancel_left h)
    have hprincipal := List.append_cancel_left hrest
    simp [identifiersRead, htenant, hprincipal]
  case principal.tenant =>
    rw [partitionFor_principal, partitionFor_tenant] at h
    exact absurd (List.append_cancel_left h).symm (hends hs')
  case tenant.session =>
    rw [partitionFor_session, partitionFor_tenant] at h
    exact absurd (List.append_cancel_left h) (hends hs)
  case tenant.principal =>
    rw [partitionFor_principal, partitionFor_tenant] at h
    exact absurd (List.append_cancel_left h) (hends hs)
  case tenant.tenant => simpa [partitionFor_tenant, identifiersRead] using h
  case «public».«public» => simp [identifiersRead]

theorem tenant_of_identifiersRead {s : Share} {a a' : AuthContext} {r r' : Str}
    (h : identifiersRead s a r = identifiersRead s a' r') :
    a.tenant = a'.tenant ∨ s = .public ∨ s = .request ∧ r = r' := by
  cases s <;> simp only [identifiersRead, List.cons.injEq] at h
  case request => exact .inr (.inr ⟨rfl, h.1⟩)
  case «public» => exact .inr (.inl rfl)
  all_goals exact .inl h.1

/-! ## Encodings -/

variable [Runtime]

omit [Runtime] in
theorem bind_eq_ok_iff {α β : Type} {x : Except PyError α} {f : α → Except PyError β} {b : β} :
    (x >>= f) = .ok b ↔ ∃ a, x = .ok a ∧ f a = .ok b := by
  cases x <;> simp [bind, Except.bind]

def Encodable (s : Str) : Prop := ∃ b, encode s = .ok b

omit [Runtime] in
theorem encodable_append {s t : Str} : Encodable (s ++ t) ↔ Encodable s ∧ Encodable t := by
  simp only [Encodable, encode_eq_ok_iff, encode?_append_eq_some_iff]
  constructor
  · rintro ⟨b, x, y, hx, hy, -⟩
    exact ⟨⟨x, hx⟩, y, hy⟩
  · rintro ⟨⟨x, hx⟩, y, hy⟩
    exact ⟨x ++ y, x, y, hx, hy, rfl⟩

omit [Runtime] in
theorem encodable_lit (s : String) : Encodable (lit s) :=
  ⟨_, encode_eq_ok_iff.mpr (encode?_map_scalar s.toList)⟩

omit [Runtime] in
theorem encodable_partitionFor {auth : AuthContext} {requestId : Str}
    (htenant : Encodable auth.tenant) (hprincipal : Encodable auth.principal)
    (hsession : Encodable auth.session) (hrequestId : Encodable requestId) (b : Share) :
    Encodable (partitionFor b auth requestId) := by
  cases b <;> simp only [partitionFor, encodable_append, encodable_lit, htenant, hprincipal,
    hsession, hrequestId, and_self]

omit [Runtime] in
theorem encodable_of_printable {s : Str} (h : ∀ p ∈ s, Json.Printable p) : Encodable s := by
  obtain ⟨b, hb⟩ := Json.exists_encode?_of_printable h
  exact ⟨b, encode_eq_ok_iff.mpr hb⟩

omit [Runtime] in
theorem exists_encodeFrames_iff {ss : List Str} :
    (∃ b, encodeFrames ss = .ok b) ↔ ∀ s ∈ ss, Encodable s := by
  induction ss with
  | nil => simp [encodeFrames, pure, Except.pure]
  | cons s ss ih =>
      rw [List.forall_mem_cons, ← ih]
      constructor
      · rintro ⟨b, hb⟩
        obtain ⟨raw, hraw, hrest⟩ := bind_eq_ok_iff.mp hb
        obtain ⟨rest, hrest, -⟩ := bind_eq_ok_iff.mp hrest
        exact ⟨⟨raw, hraw⟩, rest, hrest⟩
      · rintro ⟨⟨raw, hraw⟩, rest, hrest⟩
        exact ⟨byteLength.frame raw ++ rest, by rw [encodeFrames, hraw, hrest]; rfl⟩

omit [Runtime] in
theorem encodeFrames_eq_ok {ss : List Str} {b : Bytes} (h : encodeFrames ss = .ok b) :
    ∃ raws, List.Forall₂ (fun s raw => encode s = .ok raw) ss raws ∧
      b = byteLength.frames raws := by
  induction ss generalizing b with
  | nil => cases h; exact ⟨[], .nil, rfl⟩
  | cons s ss ih =>
      obtain ⟨raw, hraw, h⟩ := bind_eq_ok_iff.mp h
      obtain ⟨rest, hrest, h⟩ := bind_eq_ok_iff.mp h
      cases h
      obtain ⟨raws, hraws, rfl⟩ := ih hrest
      exact ⟨raw :: raws, .cons hraw hraws, rfl⟩

omit [Runtime] in
theorem eq_of_encodings {ss ts : List Str} {raws : List Bytes}
    (hs : List.Forall₂ (fun s raw => encode s = .ok raw) ss raws)
    (ht : List.Forall₂ (fun s raw => encode s = .ok raw) ts raws) : ss = ts := by
  induction hs generalizing ts with
  | nil => cases ht; rfl
  | cons hraw _ ih =>
      cases ht with
      | cons hraw' htail => rw [encode_inj hraw hraw', ih htail]

omit [Runtime] in
theorem encodeFrames_inj {ss ts : List Str} {b : Bytes} (hs : encodeFrames ss = .ok b)
    (ht : encodeFrames ts = .ok b) : ss = ts := by
  obtain ⟨raws, hraws, rfl⟩ := encodeFrames_eq_ok hs
  obtain ⟨raws', hraws', heq⟩ := encodeFrames_eq_ok ht
  cases byteLength.frames_injective heq
  exact eq_of_encodings hraws hraws'

theorem namespaceDigest_inj (hcf : CollisionFree) {xs ys : List Str} {d : Option Str}
    (hx : namespaceDigest xs = .ok d) (hy : namespaceDigest ys = .ok d) : xs = ys := by
  unfold namespaceDigest at hx hy
  split at hx <;> split at hy
  · simp_all
  · obtain ⟨b, -, hb⟩ := bind_eq_ok_iff.mp hy
    cases hx
    cases hb
  · obtain ⟨b, -, hb⟩ := bind_eq_ok_iff.mp hx
    cases hy
    cases hb
  · obtain ⟨b, hxb, hb⟩ := bind_eq_ok_iff.mp hx
    obtain ⟨b', hyb, hb'⟩ := bind_eq_ok_iff.mp hy
    cases hb
    have hdigest : Runtime.sha256 b' = Runtime.sha256 b := by
      injection hb' with hb'
      injection hb'
    rw [hcf hdigest] at hyb
    exact encodeFrames_inj hxb hyb

theorem exists_of_namespaceDigest {xs : List Str} {d : Str}
    (h : namespaceDigest xs = .ok (some d)) : ∃ data, d = Runtime.sha256 data := by
  unfold namespaceDigest at h
  split at h
  · cases h
  · obtain ⟨b, -, hb⟩ := bind_eq_ok_iff.mp h
    cases hb
    exact ⟨b, rfl⟩

/-! ## Keys -/

def ascii (s : String) : Bytes := utf8 s.toList

omit [Runtime] in
theorem encode?_lit (s : String) : encode? (lit s) = some (ascii s) := encode?_map_scalar _

omit [Runtime] in
theorem ascii_nul : ascii "\x00" = [0] := by decide +kernel

omit [Runtime] in
theorem encodeField_eq_ok {name : String} {value : Str} {b : Bytes}
    (h : encodeField name value = .ok b) :
    ∃ v, encode value = .ok v ∧ b = ascii name ++ (ascii "=" ++ (v ++ [0])) := by
  rw [encodeField, encode_eq_ok_iff] at h
  obtain ⟨x, z, hx, hz, rfl⟩ := encode?_append_eq_some_iff.mp h
  obtain ⟨y, v, hy, hv, rfl⟩ := encode?_append_eq_some_iff.mp hx
  obtain ⟨n, e, hn, he, rfl⟩ := encode?_append_eq_some_iff.mp hy
  rw [encode?_lit, Option.some.injEq] at hn he hz
  subst hn he hz
  exact ⟨v, encode_eq_ok_iff.mpr hv, by simp [ascii_nul]⟩

def encodeExecution (ex : Execution) : Except PyError Bytes := do
  let model ← encodeField "model" ex.model
  let tokenizerRev ← encodeField "tokenizer_rev" ex.tokenizerRev
  pure (model ++ tokenizerRev)

/-- What a key digests, part by part. -/
structure KeyData where
  execution : Bytes
  partition : Bytes
  exact : Bytes
  ns : Bytes
  contents : Bytes

namespace KeyData

def bytes (d : KeyData) : Bytes :=
  d.execution ++ (ascii "partition" ++ (ascii "=" ++ (d.partition ++ 0 ::
    (ascii "exact" ++ (ascii "=" ++ (d.exact ++ 0 ::
    (ascii "ns" ++ (ascii "=" ++ (d.ns ++ 0 :: d.contents)))))))))

structure Spells (d : KeyData) (ex : Execution) (contents ns : List Str) (partition : Str)
    (exact : Bool) : Prop where
  execution : encodeExecution ex = .ok d.execution
  partition : encode partition = .ok d.partition
  exact : encode (if exact then lit "True" else lit "False") = .ok d.exact
  ns : ∃ identity, namespaceDigest ns = .ok identity ∧
    encode (identity.getD (lit "None")) = .ok d.ns
  contents : encodeFrames contents = .ok d.contents

end KeyData

variable {ex : Execution} {contents contents' ns ns' : List Str} {partition partition' k : Str}
  {exact exact' : Bool}

theorem cacheKey_eq_ok (h : cacheKey ex contents ns partition exact = .ok k) :
    ∃ d : KeyData, d.Spells ex contents ns partition exact ∧ k = Runtime.sha256 d.bytes := by
  obtain ⟨m, hm, h⟩ := bind_eq_ok_iff.mp h
  obtain ⟨t, ht, h⟩ := bind_eq_ok_iff.mp h
  obtain ⟨fp, hfp, h⟩ := bind_eq_ok_iff.mp h
  obtain ⟨fe, hfe, h⟩ := bind_eq_ok_iff.mp h
  obtain ⟨identity, hidentity, h⟩ := bind_eq_ok_iff.mp h
  obtain ⟨fi, hfi, h⟩ := bind_eq_ok_iff.mp h
  obtain ⟨c, hc, h⟩ := bind_eq_ok_iff.mp h
  cases h
  obtain ⟨p, hp, rfl⟩ := encodeField_eq_ok hfp
  obtain ⟨e, he, rfl⟩ := encodeField_eq_ok hfe
  obtain ⟨i, hi, rfl⟩ := encodeField_eq_ok hfi
  have hns : namespaceDigest ns = .ok identity := by
    simpa [namespaceIdentity, List.reduceOption] using hidentity
  have hexecution : encodeExecution ex = .ok (m ++ t) := by
    rw [encodeExecution, hm, ht]
    rfl
  refine ⟨⟨m ++ t, p, e, i, c⟩, ⟨hexecution, hp, he, ⟨identity, hns, hi⟩, hc⟩, ?_⟩
  simp only [KeyData.bytes, List.append_assoc, List.cons_append, List.nil_append]

omit [Runtime] in
theorem nul_notMem_exact {b : Bool} {e : Bytes}
    (h : encode (if b then lit "True" else lit "False") = .ok e) : (0 : UInt8) ∉ e := by
  rw [encode_eq_ok_iff] at h
  refine notMem_of_encode? (a := '\x00') (by decide) (by decide) ?_ h
  cases b <;> decide +kernel

theorem notMem_sha256 {p : CodePoint} (hp : p ∉ hexDigits) (data : Bytes) :
    p ∉ Runtime.sha256 data :=
  fun hmem => hp (Runtime.sha256_hex data p hmem)

theorem encodable_sha256 (data : Bytes) : Encodable (Runtime.sha256 data) := by
  apply encodable_of_printable
  have hhex : ∀ p ∈ hexDigits, Json.Printable p := by decide +kernel
  exact fun p hp => hhex p (Runtime.sha256_hex data p hp)

theorem encodable_identity {identity : Option Str} (h : namespaceDigest ns = .ok identity) :
    Encodable (identity.getD (lit "None")) := by
  cases identity with
  | none => exact encodable_lit "None"
  | some d =>
      obtain ⟨data, rfl⟩ := exists_of_namespaceDigest h
      exact encodable_sha256 data

theorem nul_notMem_identity {identity : Option Str} (h : namespaceDigest ns = .ok identity)
    {i : Bytes} (hi : encode (identity.getD (lit "None")) = .ok i) : (0 : UInt8) ∉ i := by
  rw [encode_eq_ok_iff] at hi
  refine notMem_of_encode? (a := '\x00') (by decide) (by decide) ?_ hi
  cases identity with
  | none => decide +kernel
  | some d =>
      obtain ⟨data, rfl⟩ := exists_of_namespaceDigest h
      exact notMem_sha256 (by decide +kernel) data

theorem identity_inj {identity identity' : Option Str} (h : namespaceDigest ns = .ok identity)
    (h' : namespaceDigest ns' = .ok identity')
    (heq : identity.getD (lit "None") = identity'.getD (lit "None")) : identity = identity' := by
  have hword : ∀ {xs : List Str} {d : Str}, namespaceDigest xs = .ok (some d) → d ≠ lit "None" := by
    rintro xs d hd rfl
    obtain ⟨data, hdata⟩ := exists_of_namespaceDigest hd
    have hN : CodePoint.scalar 'N' ∉ Runtime.sha256 data :=
      notMem_sha256 (by decide +kernel) data
    rw [← hdata] at hN
    exact hN (by decide +kernel)
  cases identity with
  | none =>
      cases identity' with
      | none => rfl
      | some d' => exact absurd heq.symm (hword h')
  | some d =>
      cases identity' with
      | none => exact absurd heq (hword h)
      | some d' => exact congrArg some heq

theorem partition_onwards (hcf : CollisionFree) {d d' : KeyData}
    (h : d.Spells ex contents ns partition exact)
    (h' : d'.Spells ex contents' ns' partition' exact')
    (heq : Runtime.sha256 d.bytes = Runtime.sha256 d'.bytes) :
    d.partition ++ 0 :: (ascii "exact" ++ (ascii "=" ++ (d.exact ++ 0 ::
        (ascii "ns" ++ (ascii "=" ++ (d.ns ++ 0 :: d.contents)))))) =
      d'.partition ++ 0 :: (ascii "exact" ++ (ascii "=" ++ (d'.exact ++ 0 ::
        (ascii "ns" ++ (ascii "=" ++ (d'.ns ++ 0 :: d'.contents)))))) := by
  have hdata := hcf heq
  have hexecution : d.execution = d'.execution := by
    have hok := h.execution.symm.trans h'.execution
    injection hok
  rw [KeyData.bytes, KeyData.bytes, hexecution] at hdata
  exact List.append_cancel_left (List.append_cancel_left (List.append_cancel_left hdata))

omit [Runtime] in
theorem exists_encodeField (name : String) {value : Str} (h : Encodable value) :
    ∃ b, encodeField name value = .ok b := by
  have hfield : Encodable (lit name ++ lit "=" ++ value ++ lit "\x00") := by
    simp only [encodable_append]
    exact ⟨⟨⟨encodable_lit name, encodable_lit "="⟩, h⟩, encodable_lit "\x00"⟩
  exact hfield

/-- There is a key as soon as its partition, its namespaces and its contents can
be encoded. -/
theorem exists_cacheKey (hpartition : Encodable partition)
    (hns : ∃ identity, namespaceDigest ns = .ok identity) (hcontents : ∀ c ∈ contents, Encodable c)
    (exact : Bool) : ∃ k, cacheKey execution contents ns partition exact = .ok k := by
  obtain ⟨m, hm⟩ := exists_encodeField "model" (encodable_lit "reference-model-1")
  obtain ⟨t, ht⟩ := exists_encodeField "tokenizer_rev" (encodable_lit "1")
  obtain ⟨fp, hfp⟩ := exists_encodeField "partition" hpartition
  obtain ⟨fe, hfe⟩ : ∃ fe, encodeField "exact" (if exact then lit "True" else lit "False") =
      .ok fe := by
    apply exists_encodeField
    cases exact
    · exact encodable_lit "False"
    · exact encodable_lit "True"
  obtain ⟨identity, hidentity⟩ := hns
  obtain ⟨fi, hfi⟩ := exists_encodeField "ns" (encodable_identity hidentity)
  obtain ⟨ct, hct⟩ := exists_encodeFrames_iff.mpr hcontents
  have hpresent : namespaceIdentity (ns.map some) = .ok identity := by
    simpa [namespaceIdentity, List.reduceOption] using hidentity
  refine ⟨Runtime.sha256 (m ++ t ++ fp ++ fe ++ fi ++ ct), ?_⟩
  rw [cacheKey, execution, hm, ht, hfp, hfe, hpresent]
  simp only [bind, Except.bind, hfi, hct]
  rfl

/-- The fields behind the partition are terminated by what they do not contain. -/
theorem KeyData.Spells.behind_partition (hcf : CollisionFree) {d d' : KeyData}
    (h : d.Spells ex contents ns partition exact)
    (h' : d'.Spells ex contents' ns' partition' exact')
    (hfrom : ascii "exact" ++ (ascii "=" ++ (d.exact ++ 0 ::
        (ascii "ns" ++ (ascii "=" ++ (d.ns ++ 0 :: d.contents))))) =
      ascii "exact" ++ (ascii "=" ++ (d'.exact ++ 0 ::
        (ascii "ns" ++ (ascii "=" ++ (d'.ns ++ 0 :: d'.contents)))))) :
    exact = exact' ∧ ns = ns' ∧ contents = contents' := by
  obtain ⟨identity, hns, hi⟩ := h.ns
  obtain ⟨identity', hns', hi'⟩ := h'.ns
  obtain ⟨hexact, hfrom⟩ := Framing.append_cons_cancel (nul_notMem_exact h.exact)
    (nul_notMem_exact h'.exact) (List.append_cancel_left (List.append_cancel_left hfrom))
  obtain ⟨hidentity, hcontents⟩ := Framing.append_cons_cancel (nul_notMem_identity hns hi)
    (nul_notMem_identity hns' hi') (List.append_cancel_left (List.append_cancel_left hfrom))
  refine ⟨?_, ?_, ?_⟩
  · have hword := encode_inj h.exact (hexact ▸ h'.exact)
    cases exact <;> cases exact' <;> first | rfl | (revert hword; decide +kernel)
  · have hsame := identity_inj hns hns' (encode_inj hi (hidentity ▸ hi'))
    exact namespaceDigest_inj hcf hns (hsame ▸ hns')
  · exact encodeFrames_inj h.contents (hcontents ▸ h'.contents)

omit [Runtime] in
theorem nul_notMem_encodeFrames {b : Bytes} (h : encodeFrames contents = .ok b)
    (hcontents : ∀ c ∈ contents, nul ∉ c) : (0 : UInt8) ∉ b := by
  induction contents generalizing b with
  | nil =>
      cases h
      simp
  | cons c contents ih =>
      obtain ⟨raw, hraw, h⟩ := bind_eq_ok_iff.mp h
      obtain ⟨rest, hrest, h⟩ := bind_eq_ok_iff.mp h
      cases h
      obtain ⟨hc, hcontents⟩ := List.forall_mem_cons.mp hcontents
      have hnul : (0 : UInt8) ∉ raw :=
        notMem_of_encode? (by decide) (by decide) hc (encode_eq_ok_iff.mp hraw)
      have hdigits : (0 : UInt8) ∉ byteLength.digits raw.length :=
        notMem_utf8_toDigits (by decide) _
      simp only [Framing.LengthPrefix.frame, List.mem_append, List.mem_cons, not_or]
      exact ⟨⟨hdigits, by decide, hnul⟩, ih hrest hcontents⟩

/-- Read from the right, a key gives its arguments back whatever the partitions
contain, where the contents do not contain the terminator. -/
theorem cacheKey_inj_of_contents (hcf : CollisionFree) (hcontents : ∀ c ∈ contents, nul ∉ c)
    (hcontents' : ∀ c ∈ contents', nul ∉ c)
    (h : cacheKey ex contents ns partition exact = .ok k)
    (h' : cacheKey ex contents' ns' partition' exact' = .ok k) :
    partition = partition' ∧ exact = exact' ∧ ns = ns' ∧ contents = contents' := by
  obtain ⟨d, hd, hk⟩ := cacheKey_eq_ok h
  obtain ⟨d', hd', hk'⟩ := cacheKey_eq_ok h'
  have hfrom := partition_onwards hcf hd hd' (hk.symm.trans hk')
  obtain ⟨identity, hns, hi⟩ := hd.ns
  obtain ⟨identity', hns', hi'⟩ := hd'.ns
  have hword : ∀ {identity : Option Str} {i : Bytes} {ns : List Str},
      namespaceDigest ns = .ok identity → encode (identity.getD (lit "None")) = .ok i →
        (0 : UInt8) ∉ ascii "ns" ++ (ascii "=" ++ i) := by
    intro identity i ns hns hi
    simp only [List.mem_append, not_or]
    exact ⟨by decide +kernel, by decide +kernel, nul_notMem_identity hns hi⟩
  have hflag : ∀ {e : Bytes} {b : Bool}, encode (if b then lit "True" else lit "False") = .ok e →
      (0 : UInt8) ∉ ascii "exact" ++ (ascii "=" ++ e) := by
    intro e b he
    simp only [List.mem_append, not_or]
    exact ⟨by decide +kernel, by decide +kernel, nul_notMem_exact he⟩
  have hsplit : ∀ d : KeyData, d.partition ++ 0 :: (ascii "exact" ++ (ascii "=" ++ (d.exact ++ 0 ::
      (ascii "ns" ++ (ascii "=" ++ (d.ns ++ 0 :: d.contents)))))) =
      ((d.partition ++ 0 :: (ascii "exact" ++ (ascii "=" ++ d.exact))) ++ 0 ::
        (ascii "ns" ++ (ascii "=" ++ d.ns))) ++ 0 :: d.contents := fun d => by
    simp only [List.append_assoc, List.cons_append]
  rw [hsplit, hsplit] at hfrom
  obtain ⟨hleft, -⟩ := Framing.append_cons_cancel_right
    (nul_notMem_encodeFrames hd.contents hcontents)
    (nul_notMem_encodeFrames hd'.contents hcontents') hfrom
  obtain ⟨hleft, -⟩ := Framing.append_cons_cancel_right (hword hns hi) (hword hns' hi') hleft
  obtain ⟨hpartition, -⟩ := Framing.append_cons_cancel_right (hflag hd.exact) (hflag hd'.exact) hleft
  refine ⟨encode_inj hd.partition (hpartition ▸ hd'.partition), ?_⟩
  apply hd.behind_partition hcf hd'
  rw [← hsplit, ← hsplit, hpartition] at hfrom
  exact (List.cons.inj (List.append_cancel_left hfrom)).2

/-- A key gives its arguments back, where the partitions do not contain the
terminator. -/
theorem cacheKey_inj (hcf : CollisionFree) (hp : nul ∉ partition) (hp' : nul ∉ partition')
    (h : cacheKey ex contents ns partition exact = .ok k)
    (h' : cacheKey ex contents' ns' partition' exact' = .ok k) :
    partition = partition' ∧ exact = exact' ∧ ns = ns' ∧ contents = contents' := by
  obtain ⟨d, hd, hk⟩ := cacheKey_eq_ok h
  obtain ⟨d', hd', hk'⟩ := cacheKey_eq_ok h'
  have hfrom := partition_onwards hcf hd hd' (hk.symm.trans hk')
  have hfree : ∀ {t : Str} {b : Bytes}, nul ∉ t → encode t = .ok b → (0 : UInt8) ∉ b :=
    fun ht hb => notMem_of_encode? (by decide) (by decide) ht (encode_eq_ok_iff.mp hb)
  obtain ⟨hpartition, hfrom⟩ := Framing.append_cons_cancel (hfree hp hd.partition)
    (hfree hp' hd'.partition) hfrom
  exact ⟨encode_inj hd.partition (hpartition ▸ hd'.partition), hd.behind_partition hcf hd' hfrom⟩

omit [Runtime] in
theorem encode_cons {c : Char} {s : Str} {b : Bytes} (h : encode (.scalar c :: s) = .ok b) :
    ∃ r, encode s = .ok r ∧ b = String.utf8EncodeChar c ++ r := by
  rw [encode_eq_ok_iff] at h
  obtain ⟨r, hr, rfl⟩ := Option.map_eq_some_iff.mp h
  exact ⟨r, encode_eq_ok_iff.mpr hr, rfl⟩

/-- The kind of a partition can be told from a key whatever the identifiers
contain, since it is the first thing behind the field's name. -/
theorem cacheKey_initial (hcf : CollisionFree) {s s' : Share} {a a' : AuthContext} {r r' : Str}
    (h : cacheKey ex contents ns (partitionFor s a r) exact = .ok k)
    (h' : cacheKey ex contents' ns' (partitionFor s' a' r') exact' = .ok k) :
    s.initial = s'.initial := by
  obtain ⟨d, hd, hk⟩ := cacheKey_eq_ok h
  obtain ⟨d', hd', hk'⟩ := cacheKey_eq_ok h'
  have hfrom := partition_onwards hcf hd hd' (hk.symm.trans hk')
  obtain ⟨t, ht⟩ := partitionFor_initial s a r
  obtain ⟨t', ht'⟩ := partitionFor_initial s' a' r'
  have hp := hd.partition
  have hp' := hd'.partition
  rw [ht] at hp
  rw [ht'] at hp'
  cases s <;> cases s' <;> first | rfl | skip
  all_goals
    exfalso
    obtain ⟨b, -, hb⟩ := encode_cons hp
    obtain ⟨b', -, hb'⟩ := encode_cons hp'
    rw [hb, hb'] at hfrom
    have hbyte := (List.cons.inj hfrom).1
    revert hbyte
    decide +kernel

omit [Runtime] in
/-- Where a text goes on behind another with a symbol of its own, a terminator
tells them apart. -/
theorem encode_append_slash {x z : Str} {b b' r r' : Bytes} (h : encode x = .ok b)
    (h' : encode (x ++ slash :: z) = .ok b') : b ++ 0 :: r ≠ b' ++ 0 :: r' := by
  rw [encode_eq_ok_iff] at h h'
  obtain ⟨y, w, hy, hw, rfl⟩ := encode?_append_eq_some_iff.mp h'
  cases h.symm.trans hy
  obtain ⟨q, -, rfl⟩ := encode_cons (encode_eq_ok_iff.mpr hw)
  intro heq
  rw [List.append_assoc] at heq
  have hbyte := (List.cons.inj (List.append_cancel_left heq)).1
  revert hbyte
  decide +kernel

omit [Runtime] in
theorem partitionFor_nested {s s' : Share} (auth : AuthContext) (r r' : Str) (hs : s ≠ .request)
    (hinitial : s.initial = s'.initial) :
    partitionFor s auth r = partitionFor s' auth r' ∨
      (∃ z, partitionFor s auth r = partitionFor s' auth r' ++ slash :: z) ∨
      ∃ z, partitionFor s' auth r' = partitionFor s auth r ++ slash :: z := by
  cases s <;> cases s' <;> first | exact absurd rfl hs | (exfalso; revert hinitial; decide) | skip
  case session.session | principal.principal | tenant.tenant | «public».«public» => exact .inl rfl
  all_goals
    simp only [partitionFor_tenant, partitionFor_principal, partitionFor_session]
    right
  case session.principal | session.tenant | principal.tenant =>
    left
    exact ⟨_, by simp only [List.append_assoc, List.cons_append]; rfl⟩
  case principal.session | tenant.session | tenant.principal =>
    right
    exact ⟨_, by simp only [List.append_assoc, List.cons_append]; rfl⟩

/-- Within one context a key gives its arguments back whatever the identifiers
contain. -/
theorem cacheKey_inj_of_auth (hcf : CollisionFree) {s s' : Share} {auth : AuthContext} {r r' : Str}
    (hs : s ≠ .request) (h : cacheKey ex contents ns (partitionFor s auth r) exact = .ok k)
    (h' : cacheKey ex contents' ns' (partitionFor s' auth r') exact' = .ok k) :
    exact = exact' ∧ ns = ns' ∧ contents = contents' := by
  have hinitial := cacheKey_initial hcf h h'
  obtain ⟨d, hd, hk⟩ := cacheKey_eq_ok h
  obtain ⟨d', hd', hk'⟩ := cacheKey_eq_ok h'
  have hfrom := partition_onwards hcf hd hd' (hk.symm.trans hk')
  have hp := hd.partition
  have hp' := hd'.partition
  rcases partitionFor_nested auth r r' hs hinitial with heq | ⟨z, hz⟩ | ⟨z, hz⟩
  · rw [heq] at hp
    rw [Except.ok.inj (hp.symm.trans hp')] at hfrom
    exact hd.behind_partition hcf hd' (List.cons.inj (List.append_cancel_left hfrom)).2
  · rw [hz] at hp
    exact absurd hfrom.symm (encode_append_slash hp' hp)
  · rw [hz] at hp'
    exact absurd hfrom (encode_append_slash hp hp')

end CacheControl

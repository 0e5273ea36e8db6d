import CacheControl.Lowering

/-!
# What equal salts have in common

The salt for a vLLM server digests the partition and the namespace identity as
frames, so it gives both back whatever characters they contain.
-/

open PyText

namespace CacheControl

section

variable [Runtime]

def identityText (identity : Option Str) : Str :=
  match identity with
  | some d => if d = [] then lit "-" else d
  | none => lit "-"

theorem identityText_inj {ns ns' : List Str} {identity identity' : Option Str}
    (h : namespaceDigest ns = .ok identity) (h' : namespaceDigest ns' = .ok identity')
    (heq : identityText identity = identityText identity') : identity = identity' := by
  have hdigest : ∀ {xs : List Str} {d : Str}, namespaceDigest xs = .ok (some d) →
      identityText (some d) = d ∧ d ≠ lit "-" := by
    intro xs d hd
    obtain ⟨data, rfl⟩ := exists_of_namespaceDigest hd
    refine ⟨by simp [identityText, Runtime.sha256_ne_nil], fun hdash => ?_⟩
    have hmem : CodePoint.scalar '-' ∉ Runtime.sha256 data := notMem_sha256 (by decide +kernel) data
    rw [hdash] at hmem
    exact hmem (by decide +kernel)
  cases identity with
  | none =>
      cases identity' with
      | none => rfl
      | some d' =>
          obtain ⟨htext, hne⟩ := hdigest h'
          rw [htext] at heq
          exact absurd heq.symm hne
  | some d =>
      obtain ⟨htext, hne⟩ := hdigest h
      rw [htext] at heq
      cases identity' with
      | none => exact absurd heq hne
      | some d' =>
          rw [(hdigest h').1] at heq
          rw [heq]

def vllmSalt (partition : Str) (identity : Option Str) : Except PyError Str := do
  let data ← encode (textLength.frame partition ++ textLength.frame (identityText identity))
  pure (Runtime.sha256 data)

/-- Encoding the frames one by one or together is the same. -/
theorem vllm_saltFor : vllmBackend.saltFor = some vllmSalt := by
  refine congrArg some ?_
  funext partition identity
  show (do
    let head ← encode (textLength.frame partition)
    let tail ← encode (textLength.frame (identityText identity))
    pure (Runtime.sha256 (head ++ tail))) = _
  unfold vllmSalt encode
  rw [encode?_append]
  cases encode? (textLength.frame partition) with
  | none => rfl
  | some x => cases encode? (textLength.frame (identityText identity)) <;> rfl

/-- Without collisions a salt gives back the partition and the namespaces. -/
theorem vllmSalt_inj (hcf : CollisionFree) {ns ns' : List Str} {identity identity' : Option Str}
    {partition partition' salt : Str} (h : namespaceDigest ns = .ok identity)
    (h' : namespaceDigest ns' = .ok identity') (hs : vllmSalt partition identity = .ok salt)
    (hs' : vllmSalt partition' identity' = .ok salt) : partition = partition' ∧ ns = ns' := by
  obtain ⟨data, hdata, hsalt⟩ := bind_eq_ok_iff.mp hs
  obtain ⟨data', hdata', hsalt'⟩ := bind_eq_ok_iff.mp hs'
  cases hsalt
  rw [hcf (Except.ok.inj hsalt')] at hdata'
  obtain ⟨hpartition, hrest⟩ := textLength.frame_append_inj (encode_inj hdata hdata')
  refine ⟨hpartition, ?_⟩
  cases identityText_inj h h' (textLength.frame_injective hrest)
  exact namespaceDigest_inj hcf h h'

/-- A salt that a namespace digest was lowered onto gives back the partition and
the namespaces. -/
def Separates (saltFor : Str → Option Str → Except PyError Str) : Prop :=
  ∀ {ns ns' : List Str} {identity identity' : Option Str} {partition partition' salt : Str},
    namespaceDigest ns = .ok identity → namespaceDigest ns' = .ok identity' →
    saltFor partition identity = .ok salt → saltFor partition' identity' = .ok salt →
    partition = partition' ∧ ns = ns'

theorem separates_vllmSalt (hcf : CollisionFree) : Separates vllmSalt :=
  fun h h' hs hs' => vllmSalt_inj hcf h h' hs hs'

def saltOnlySalt (partition : Str) (identity : Option Str) : Except PyError Str :=
  .ok (partition ++ lit "|" ++ identityText identity)

theorem saltOnly_saltFor : saltOnlyBackend.saltFor = some saltOnlySalt := rfl

theorem bar_notMem_identityText {ns : List Str} {identity : Option Str}
    (h : namespaceDigest ns = .ok identity) : CodePoint.scalar '|' ∉ identityText identity := by
  cases identity with
  | none => decide +kernel
  | some d =>
      obtain ⟨data, rfl⟩ := exists_of_namespaceDigest h
      rw [identityText, if_neg (Runtime.sha256_ne_nil data)]
      exact notMem_sha256 (by decide +kernel) data

/-- The last bar of a salt stands in front of the digest. -/
theorem separates_saltOnlySalt (hcf : CollisionFree) : Separates saltOnlySalt := by
  intro ns ns' identity identity' partition partition' salt h h' hs hs'
  have hsalt : partition ++ CodePoint.scalar '|' :: identityText identity =
      partition' ++ CodePoint.scalar '|' :: identityText identity' := by
    simpa [saltOnlySalt, lit] using Except.ok.inj (hs.trans hs'.symm)
  obtain ⟨hpartition, htext⟩ := Framing.append_cons_cancel_right (bar_notMem_identityText h)
    (bar_notMem_identityText h') hsalt
  refine ⟨hpartition, ?_⟩
  cases identityText_inj h h' htext
  exact namespaceDigest_inj hcf h h'

/-- A request that a vLLM gateway accepted and sent upstream under a salt. -/
structure Salted (mode : OnUnenforceable) where
  body : Str
  auth : AuthContext
  now : Time
  requestId : Str
  upstream : List (Str × Value)
  result : Result
  salt : Str
  accepted : prepare (vllmGateway mode) body auth now requestId () =
    (.ok (.accepted upstream result), ())
  produced : result.cacheSalt = some salt

/-- The body holds the fragments, and they were lowered to the boundary `b`. -/
def Salted.Lowered {mode : OnUnenforceable} (x : Salted mode) (fragments : List Fragment)
    (b : Share) : Prop :=
  (∃ request, loadsStrict x.body = .ok request ∧ extractFragments request = .ok fragments) ∧
    LoweredTo (vllmGateway mode) vllmSalt fragments x.auth x.requestId x.upstream x.result b

theorem Salted.exists_lowered {mode : OnUnenforceable} (x : Salted mode) :
    ∃ fragments b, x.Lowered fragments b := by
  obtain ⟨request, fragments, b, hload, hextract, hb⟩ :=
    loweredTo_of_cacheSalt (g := vllmGateway mode) vllm_saltFor x.accepted x.produced
  exact ⟨fragments, b, ⟨request, hload, hextract⟩, hb⟩

theorem Salted.Lowered.salt {mode : OnUnenforceable} {x : Salted mode} {fragments : List Fragment}
    {b : Share} (h : x.Lowered fragments b) :
    ∃ d, namespaceDigest (namespacesOf fragments) = .ok d ∧
      vllmSalt (partitionFor b x.auth x.requestId) d = .ok x.salt := by
  obtain ⟨d, salt, hd, hsalt, -, hresult⟩ := h.2.salt
  cases x.produced.symm.trans hresult
  exact ⟨d, hd, hsalt⟩

omit [Runtime] in
theorem slash_notMem_tenantPath {auth : AuthContext} (ht : slash ∉ auth.tenant)
    (hp : slash ∉ auth.principal) (b : Share) : ∀ i ∈ tenantPath b auth, slash ∉ i := by
  cases b <;> simp [tenantPath, ht, hp]

end

/-- Requests under one salt have one partition and the same namespaces.  So only
requests with the same id share the salt of the request boundary, and tenants
without a slash in their names share no salt but the public one or that of one
request id. -/
theorem salts_isolate [Runtime] (hcf : CollisionFree) {mode mode' : OnUnenforceable}
    (x : Salted mode) (y : Salted mode') (h : x.salt = y.salt) :
    ∃ fragments fragments' b b', x.Lowered fragments b ∧ y.Lowered fragments' b' ∧
      partitionFor b x.auth x.requestId = partitionFor b' y.auth y.requestId ∧
      namespacesOf fragments = namespacesOf fragments' ∧
      (b = .request → b' = .request ∧ x.requestId = y.requestId) ∧
      (slash ∉ x.auth.tenant → slash ∉ x.auth.principal → slash ∉ y.auth.tenant →
        slash ∉ y.auth.principal → x.auth.tenant ≠ y.auth.tenant →
          b = .public ∧ b' = .public ∨
            b = .request ∧ b' = .request ∧ x.requestId = y.requestId) := by
  obtain ⟨fragments, b, hx⟩ := x.exists_lowered
  obtain ⟨fragments', b', hy⟩ := y.exists_lowered
  obtain ⟨d, hd, hsalt⟩ := hx.salt
  obtain ⟨d', hd', hsalt'⟩ := hy.salt
  rw [← h] at hsalt'
  obtain ⟨hpartition, hns⟩ := vllmSalt_inj hcf hd hd' hsalt hsalt'
  refine ⟨fragments, fragments', b, b', hx, hy, hpartition, hns, ?_, ?_⟩
  · rintro rfl
    have hinitial : Share.initial .request = b'.initial := by
      obtain ⟨r, hr⟩ := partitionFor_initial .request x.auth x.requestId
      obtain ⟨r', hr'⟩ := partitionFor_initial b' y.auth y.requestId
      rw [hr, hr'] at hpartition
      exact (List.cons.inj hpartition).1
    obtain rfl : b' = .request := eq_request_iff_initial.mpr hinitial.symm
    exact ⟨rfl, List.append_cancel_left hpartition⟩
  · intro ht hp ht' hp' htenants
    obtain ⟨rfl, hread⟩ := partitionFor_inj (slash_notMem_tenantPath ht hp b)
      (slash_notMem_tenantPath ht' hp' b') hpartition
    rcases (tenant_of_identifiersRead hread).resolve_left htenants with hpublic | ⟨hrequest, hid⟩
    · exact .inl ⟨hpublic, hpublic⟩
    · exact .inr ⟨hrequest, hrequest, hid⟩

section

attribute [local instance] reference

def saltOf : Except PyError Prepared → Option Str
  | .ok (.accepted _ result) => result.cacheSalt
  | _ => none

theorem exists_salted {mode : OnUnenforceable} {body requestId salt : Str} {auth : AuthContext}
    {now : Time}
    (h : saltOf (prepare (vllmGateway mode) body auth now requestId ()).1 = some salt) :
    ∃ x : Salted mode, x.body = body ∧ x.auth = auth ∧ x.requestId = requestId ∧ x.salt = salt := by
  rcases hp : prepare (vllmGateway mode) body auth now requestId () with
    ⟨e | ⟨upstream, result⟩ | ⟨code, cause⟩, t⟩
  · simp [hp, saltOf] at h
  · rw [hp] at h
    exact ⟨⟨body, auth, now, requestId, upstream, result, salt, hp, h⟩, rfl, rfl, rfl, rfl⟩
  · simp [hp, saltOf] at h

theorem exists_salted_pair {mode : OnUnenforceable} {body : Str} {auth auth' : AuthContext}
    {now now' : Time} {requestId requestId' : Str}
    (hsame : saltOf (prepare (vllmGateway mode) body auth now requestId ()).1 =
      saltOf (prepare (vllmGateway mode) body auth' now' requestId' ()).1)
    (hsome : (saltOf (prepare (vllmGateway mode) body auth now requestId ()).1).isSome = true) :
    ∃ x y : Salted mode, x.salt = y.salt ∧ x.body = body ∧ x.auth = auth ∧ y.auth = auth' := by
  obtain ⟨salt, hsalt⟩ := Option.isSome_iff_exists.mp hsome
  obtain ⟨x, hbody, hauth, -, hx⟩ := exists_salted hsalt
  obtain ⟨y, -, hauth', -, hy⟩ := exists_salted (hsame.symm.trans hsalt)
  exact ⟨x, y, hx.trans hy.symm, hbody, hauth, hauth'⟩

def carol : AuthContext := ⟨lit "acme", lit "carol", lit "s-carol"⟩

def tenantBody : Str := sampleBody [("a", intentValue (.allow none) "exact" "tenant")]

theorem salts_isolate_tenantBody : ∃ (x y : Salted .bypass) (fragments fragments' : List Fragment)
    (b b' : Share), x.auth = alice ∧ y.auth = carol ∧ x.Lowered fragments b ∧
      y.Lowered fragments' b' ∧
      partitionFor b x.auth x.requestId = partitionFor b' y.auth y.requestId := by
  have hsame : saltOf (prepare (vllmGateway .bypass) tenantBody alice (0 : ℕ) (lit "req-1") ()).1 =
      saltOf (prepare (vllmGateway .bypass) tenantBody carol (1 : ℕ) (lit "req-2") ()).1 := by
    decide +kernel
  obtain ⟨x, y, hsalt, -, hxauth, hyauth⟩ := exists_salted_pair hsame (by decide +kernel)
  obtain ⟨fragments, fragments', b, b', hxl, hyl, hpartition, -⟩ :=
    salts_isolate collisionFree_reference x y hsalt
  exact ⟨x, y, fragments, fragments', b, b', hxauth, hyauth, hxl, hyl, hpartition⟩

def freshBody : Str := sampleBody [("a", intentValue (.allow none) "none" "tenant")]

/-- Two tenants share the salt of the request boundary under one request id. -/
theorem not_salts_isolate : CollisionFree ∧ ¬ ∀ (mode : OnUnenforceable) (x y : Salted mode),
    x.salt = y.salt → x.auth.Plain → y.auth.Plain → x.auth.tenant ≠ y.auth.tenant →
      ∀ fragments b, x.Lowered fragments b → b = .public := by
  refine ⟨collisionFree_reference, fun h => ?_⟩
  have hsame : saltOf (prepare (vllmGateway .bypass) freshBody alice (0 : ℕ) (lit "req-1") ()).1 =
      saltOf (prepare (vllmGateway .bypass) freshBody bob (1 : ℕ) (lit "req-1") ()).1 := by
    decide +kernel
  obtain ⟨x, y, hsalt, hxbody, hxauth, hyauth⟩ := exists_salted_pair hsame (by decide +kernel)
  obtain ⟨fragments, b, hlowered⟩ := x.exists_lowered
  have hpublic := h .bypass x y hsalt (hxauth ▸ plain_alice) (hyauth ▸ plain_bob)
    (by rw [hxauth, hyauth]; decide +kernel) fragments b hlowered
  obtain ⟨⟨request, hload, hextract⟩, hlow⟩ := hlowered
  rw [hxbody] at hload
  have hintents : ((loadsStrict freshBody >>= extractFragments).toOption.getD []).any (fun f =>
      (f.intentJson.bind fun text => (parseCacheIntent text).toOption).any fun intent =>
        intent.constraints.reuse = .none) = true := by decide +kernel
  rw [hload, show (Except.ok request >>= extractFragments) = .ok fragments from hextract]
    at hintents
  obtain ⟨f, hf, hany⟩ := List.any_eq_true.mp hintents
  obtain ⟨intent, hintent, hreuse⟩ := (Option.any_eq_true _ _).mp hany
  obtain ⟨text, htext, hparse⟩ := Option.bind_eq_some_iff.mp hintent
  have hkept : KeptToItself (vllmGateway .bypass).backend.capabilities fragments :=
    .inr ⟨_, ⟨f, hf, text, intent, htext, toOption_eq_some_iff.mp hparse, rfl⟩,
      .inl (of_decide_eq_true hreuse)⟩
  cases hpublic.symm.trans (hlow.boundary.kept hkept)

end

end CacheControl

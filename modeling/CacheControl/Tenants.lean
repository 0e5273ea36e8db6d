import CacheControl.Proxy

/-!
# Tenants in front of one engine

An engine that reuses blocks among requests with one salt only reuses none across
tenants, as far as the requests themselves confine their sharing.
-/

open PyText

namespace CacheControl

section

variable [Runtime]

/-- An intent of the body does not let everybody share. -/
def Confined (body : Str) : Prop :=
  ∃ members fragments cs, readBody body = .ok (members, fragments) ∧ Supplies fragments cs ∧
    cs.shareMax ≠ .public

/-! ## Reuse -/

/-- Only requests with the same salt reuse each other's blocks. -/
def Engine.RespectsSalts (e : Engine) : Prop :=
  ∀ log m n, e.reuses log m n → ∃ text text', log[m]? = some text ∧ log[n]? = some text' ∧
    engineSalt text = engineSalt text'

namespace Proxy

variable {ι : Type} [DecidableEq ι] {p : Proxy} {e : Engine} {connections : ι → Connection}
  {order schedule : List ι} {i j : ι} {text text' : Str}

/-- What the connections post in their turns. -/
def postings (p : Proxy) (connections : ι → Connection) (order : List ι) : List (ι × Str) :=
  order.filterMap fun i => (p.posts (connections i)).map fun text => (i, text)

/-- In the run, the engine reuses blocks of the request of `i` for that of `j`. -/
def Reuses (p : Proxy) (e : Engine) (connections : ι → Connection) (schedule : List ι)
    (i j : ι) : Prop :=
  ∃ m n text text',
    (p.postings connections (p.run e connections schedule).order)[m]? = some (i, text) ∧
    (p.postings connections (p.run e connections schedule).order)[n]? = some (j, text') ∧
    e.reuses (p.run e connections schedule).state m n

omit [DecidableEq ι] in
theorem sent_eq_postings (order : List ι) :
    p.sent connections order = (p.postings connections order).map Prod.snd := by
  rw [postings, List.map_filterMap, sent]
  refine List.filterMap_congr fun i _ => ?_
  cases p.posts (connections i) <;> rfl

omit [DecidableEq ι] in
theorem posts_of_postings {m : ℕ} (h : (p.postings connections order)[m]? = some (i, text)) :
    p.posts (connections i) = some text := by
  obtain ⟨k, -, hk⟩ := List.mem_filterMap.mp (List.mem_of_getElem? h)
  obtain ⟨text', hposts, heq⟩ := Option.map_eq_some_iff.mp hk
  cases heq
  exact hposts

theorem state_run (p : Proxy) (e : Engine) (connections : ι → Connection) (schedule : List ι) :
    (p.run e connections schedule).state =
      (p.postings connections (p.run e connections schedule).order).map Prod.snd := by
  rw [(p.serializes_order e connections schedule).log, log_serve, List.nil_append,
    sent_eq_postings]

/-- A connection with enough steps has posted what it posts. -/
theorem exists_posting (e : Engine) (hcount : 3 ≤ schedule.count i)
    (hposts : p.posts (connections i) = some text) : ∃ m : ℕ,
      (p.postings connections (p.run e connections schedule).order)[m]? = some (i, text) ∧
        (p.run e connections schedule).state[m]? = some text := by
  have hserial := p.serializes_order e connections schedule
  obtain ⟨response, hresponse⟩ := hserial.answered i hcount
  obtain ⟨before, after, heq, -⟩ := mem_serve (hserial.responses i response hresponse)
  have hmem : (i, text) ∈ p.postings connections (p.run e connections schedule).order := by
    apply List.mem_filterMap.mpr
    refine ⟨i, ?_, by rw [hposts]; rfl⟩
    rw [heq]
    exact List.mem_append_right _ List.mem_cons_self
  obtain ⟨m, hm⟩ := List.mem_iff_getElem?.mp hmem
  refine ⟨m, hm, ?_⟩
  rw [state_run, List.getElem?_map, hm]
  rfl

/-- What is reused was posted with the same salt. -/
theorem Reuses.salts_eq (he : e.RespectsSalts) (h : p.Reuses e connections schedule i j) :
    ∃ text text', p.posts (connections i) = some text ∧ p.posts (connections j) = some text' ∧
      engineSalt text = engineSalt text' := by
  obtain ⟨m, n, text, text', hm, hn, hreuses⟩ := h
  obtain ⟨sent, sent', hsent, hsent', hsalts⟩ := he _ m n hreuses
  rw [state_run, List.getElem?_map, hm] at hsent
  rw [state_run, List.getElem?_map, hn] at hsent'
  cases hsent
  cases hsent'
  exact ⟨text, text', posts_of_postings hm, posts_of_postings hn, hsalts⟩

/-! ## Salts -/

variable {c c' : Connection} {auth auth' : AuthContext} {body body' : Str}
  {upstream upstream' members : List (Str × Value)} {result result' : Result}
  {fragments : List Fragment} {b : Share}

theorem Prepares.exists_lowered (h : p.Prepares c auth body upstream result)
    (hread : readBody body = .ok (members, fragments))
    (hgov : ∃ f ∈ fragments, f.intentJson ≠ none) :
    ∃ b, LoweredTo p.gateway vllmSalt fragments auth c.requestId upstream result b := by
  obtain ⟨request, fragments', hload, hextract, hlowered⟩ :=
    accepted_loweredTo p.gateway vllm_saltFor h.accepted
  obtain ⟨hload', hextract'⟩ := extract_of_readBody hread
  cases hload.symm.trans hload'
  cases hextract.symm.trans hextract'
  exact hlowered hgov

/-- Equal salts come from equal partitions. -/
theorem Prepares.exists_partition (hcf : CollisionFree)
    (hb : LoweredTo p.gateway vllmSalt fragments auth c.requestId upstream result b)
    (h' : p.Prepares c' auth' body' upstream' result')
    (hsame : result'.cacheSalt = result.cacheSalt) :
    ∃ b', partitionFor b auth c.requestId = partitionFor b' auth' c'.requestId := by
  obtain ⟨d, salt, hd, hsalt, -, hresult⟩ := hb.salt
  rw [hresult] at hsame
  obtain ⟨request, fragments', b', -, -, hb'⟩ :=
    loweredTo_of_cacheSalt vllm_saltFor h'.accepted hsame
  obtain ⟨d', salt', hd', hsalt', -, hresult'⟩ := hb'.salt
  cases hsame.symm.trans hresult'
  exact ⟨b', (vllmSalt_inj hcf hd hd' hsalt hsalt').1⟩

theorem uuid_of_requestId (h : c.requestId = c'.requestId) : c.uuid = c'.uuid :=
  List.append_cancel_left h

/-- The partition of a request is shared with no other id. -/
theorem uuid_of_request
    (h : partitionFor .request auth c.requestId = partitionFor b auth' c'.requestId) :
    c.uuid = c'.uuid := by
  have hinitial : Share.initial .request = b.initial := by
    obtain ⟨r, hr⟩ := partitionFor_initial .request auth c.requestId
    obtain ⟨r', hr'⟩ := partitionFor_initial b auth' c'.requestId
    rw [hr, hr'] at h
    exact (List.cons.inj h).1
  obtain rfl : b = .request := eq_request_iff_initial.mpr hinitial.symm
  exact uuid_of_requestId (List.append_cancel_left h)

omit [DecidableEq ι] in
/-- Requests with equal salts that are confined come from one tenant, or are one. -/
theorem Prepares.tenant_eq (hcf : CollisionFree)
    (hslash : ∀ x ∈ p.tokens, slash ∉ x.2.tenant ∧ slash ∉ x.2.principal)
    (h : p.Prepares c auth body upstream result) (h' : p.Prepares c' auth' body' upstream' result')
    (hb : LoweredTo p.gateway vllmSalt fragments auth c.requestId upstream result b)
    (hpublic : b ≠ .public) (hsame : result'.cacheSalt = result.cacheSalt) :
    auth'.tenant = auth.tenant ∨ c.uuid = c'.uuid := by
  obtain ⟨b', hpartition⟩ := Prepares.exists_partition hcf hb h' hsame
  have hplain : ∀ {c : Connection} {auth : AuthContext}, p.auth c.request = some auth →
      slash ∉ auth.tenant ∧ slash ∉ auth.principal := by
    intro c auth hauth
    obtain ⟨token, -, hlookup⟩ := Option.bind_eq_some_iff.mp hauth
    obtain ⟨before, after, heq, -⟩ := List.lookup_eq_some_iff.mp hlookup
    exact hslash (token, auth) (heq ▸ List.mem_append_right _ List.mem_cons_self)
  obtain ⟨htenant, hprincipal⟩ := hplain h.caller
  obtain ⟨htenant', hprincipal'⟩ := hplain h'.caller
  obtain ⟨rfl, hread⟩ := partitionFor_inj (slash_notMem_tenantPath htenant hprincipal b)
    (slash_notMem_tenantPath htenant' hprincipal' b') hpartition
  rcases tenant_of_identifiersRead hread with heq | heq | ⟨-, heq⟩
  · exact .inl heq.symm
  · exact absurd heq hpublic
  · exact .inr (uuid_of_requestId heq)

/-! ## Bodies -/

theorem ne_public_of_isBoundary {caps : Capabilities} {cs : Constraints}
    (hb : IsBoundary caps fragments b) (hcs : Supplies fragments cs)
    (hpublic : cs.shareMax ≠ .public) : b ≠ .public := by
  by_cases hkept : KeptToItself caps fragments
  · rw [hb.kept hkept]
    decide
  · rintro rfl
    have hle := (hb.narrowest hkept).2 ⟨cs, hcs, rfl⟩
    exact hpublic (le_antisymm (Share.le_public _) hle)

theorem exists_intent_of_supplies {cs : Constraints} (h : Supplies fragments cs) :
    ∃ f ∈ fragments, f.intentJson ≠ none := by
  obtain ⟨f, hf, text, intent, htext, -⟩ := h
  exact ⟨f, hf, by simp [htext]⟩

/-- The body has to be kept to itself by the proxy. -/
def Private (p : Proxy) (body : Str) : Prop :=
  ∃ members fragments, readBody body = .ok (members, fragments) ∧
    KeptToItself p.gateway.backend.capabilities fragments

theorem exists_intent_of_keptToItself {caps : Capabilities} (h : KeptToItself caps fragments) :
    ∃ f ∈ fragments, f.intentJson ≠ none := by
  rcases h with ⟨q, eff, err, hq, hpolicy, -⟩ | ⟨cs, hcs, -⟩
  · exact exists_intent_of_policy hpolicy hq
  · exact exists_intent_of_supplies hcs

omit [DecidableEq ι] in
/-- What a private request posts has a salt of its own. -/
theorem Private.uuid_eq (hcf : CollisionFree) (hprivate : p.Private body)
    (h : p.Prepares c auth body upstream result) (h' : p.Prepares c' auth' body' upstream' result')
    (hsame : result'.cacheSalt = result.cacheSalt) : c.uuid = c'.uuid := by
  obtain ⟨members, fragments, hread, hkept⟩ := hprivate
  obtain ⟨b, hb⟩ := h.exists_lowered hread (exists_intent_of_keptToItself hkept)
  obtain rfl := hb.boundary.kept hkept
  obtain ⟨b', hpartition⟩ := Prepares.exists_partition hcf hb h' hsame
  exact uuid_of_request hpartition

omit [DecidableEq ι] in
/-- Two connections that post the same salt were prepared with it. -/
theorem exists_salts (hfloat : Json.FloatsReadBack Runtime.Float) {text text' : Str}
    (hi : p.posts (connections i) = some text) (hj : p.posts (connections j) = some text')
    (hsame : engineSalt text' = engineSalt text) :
    ∃ auth body upstream result auth' body' upstream' result',
      p.Prepares (connections i) auth body upstream result ∧
      p.Prepares (connections j) auth' body' upstream' result' ∧
      result'.cacheSalt = result.cacheSalt := by
  obtain ⟨-, auth, body, upstream, result, hprepares, rfl⟩ := posts_eq_some_iff.mp hi
  obtain ⟨-, auth', body', upstream', result', hprepares', rfl⟩ := posts_eq_some_iff.mp hj
  rw [hprepares.engineSalt_eq hfloat, hprepares'.engineSalt_eq hfloat] at hsame
  exact ⟨auth, body, upstream, result, auth', body', upstream', result', hprepares, hprepares',
    hsame⟩

theorem prepares_of_reuses (hfloat : Json.FloatsReadBack Runtime.Float) (he : e.RespectsSalts)
    (h : p.Reuses e connections schedule i j ∨ p.Reuses e connections schedule j i) :
    ∃ auth body upstream result auth' body' upstream' result',
      p.Prepares (connections i) auth body upstream result ∧
      p.Prepares (connections j) auth' body' upstream' result' ∧
      result'.cacheSalt = result.cacheSalt := by
  rcases h with h | h
  · obtain ⟨text, text', hi, hj, hsalts⟩ := h.salts_eq he
    exact exists_salts hfloat hi hj hsalts.symm
  · obtain ⟨text, text', hj, hi, hsalts⟩ := h.salts_eq he
    exact exists_salts hfloat hi hj hsalts

end Proxy

end

/-- No block of a confined request is reused for another tenant, and none of another tenant
for it. -/
theorem tenants_kept_apart [Runtime] (hfloat : Json.FloatsReadBack Runtime.Float)
    (hcf : CollisionFree) {ι : Type} [DecidableEq ι] (p : Proxy)
    (hslash : ∀ x ∈ p.tokens, slash ∉ x.2.tenant ∧ slash ∉ x.2.principal) (e : Engine)
    (he : e.RespectsSalts) (connections : ι → Connection)
    (hids : Function.Injective fun i => (connections i).uuid) (schedule : List ι) {i j : ι}
    {auth : AuthContext} (hauth : p.auth (connections i).request = some auth) {body : Str}
    (hread : (connections i).request.read = .ok body) (hconfined : Confined body)
    (h : p.Reuses e connections schedule i j ∨ p.Reuses e connections schedule j i) :
    ∃ auth', p.auth (connections j).request = some auth' ∧ auth'.tenant = auth.tenant := by
  obtain ⟨members, fragments, cs, hbody, hcs, hpublic⟩ := hconfined
  obtain ⟨auth₁, body₁, upstream, result, auth', body', upstream', result', hprepares, hprepares',
    hsalts⟩ := Proxy.prepares_of_reuses hfloat he h
  cases hauth.symm.trans hprepares.caller
  cases hread.symm.trans hprepares.read
  refine ⟨auth', hprepares'.caller, ?_⟩
  obtain ⟨b, hb⟩ := hprepares.exists_lowered hbody (Proxy.exists_intent_of_supplies hcs)
  rcases Proxy.Prepares.tenant_eq hcf hslash hprepares hprepares' hb
    (Proxy.ne_public_of_isBoundary hb.boundary hcs hpublic) hsalts with htenant | huuid
  · exact htenant
  · cases hids huuid
    cases hauth.symm.trans hprepares'.caller
    rfl

section

attribute [local instance] reference

theorem respectsSalts_sharingEngine : sharingEngine.RespectsSalts := by
  rintro log m n ⟨-, text, text', htext, htext', hsalts⟩
  exact ⟨text, text', htext, htext', hsalts⟩

theorem slash_notMem_demoTokens :
    ∀ x ∈ demo.tokens, slash ∉ x.2.tenant ∧ slash ∉ x.2.principal := by
  show ∀ x ∈ demoTokens, _
  decide +kernel

/-- A request of another tenant and two of one, all with the same body. -/
def threeConnections (body : Str) : Option Bool → Connection
  | none => ⟨chatRequest (lit "other-key") body, (0 : ℕ), lit "3"⟩
  | some i => ⟨chatRequest (lit "acme-key") body, (0 : ℕ), lit (if i then "1" else "2")⟩

theorem uuid_threeConnections (body : Str) :
    Function.Injective fun i => (threeConnections body i).uuid := by
  have huuid : ∀ i j : Option Bool, (threeConnections [] i).uuid = (threeConnections [] j).uuid →
      i = j := by decide +kernel
  intro i j h
  refine huuid i j ?_
  rcases i with _ | _ <;> rcases j with _ | _ <;> exact h

def threeSchedule : List (Option Bool) :=
  [some true, none, some true, none, some false, some true, some false, some false]

/-- The intents of a body that can be read. -/
def intentsOf (body : Str) : List Intent :=
  ((readBody body).toOption.getD ([], [])).2.filterMap fun f =>
    f.intentJson.bind fun text => (parseCacheIntent text).toOption

theorem exists_supplies {body : Str} (q : Constraints → Bool)
    (h : ((intentsOf body).any fun intent => q intent.constraints) = true) :
    ∃ members fragments cs, readBody body = .ok (members, fragments) ∧ Supplies fragments cs ∧
      q cs = true := by
  obtain ⟨intent, hmem, hq⟩ := List.any_eq_true.mp h
  obtain ⟨f, hf, hintent⟩ := List.mem_filterMap.mp hmem
  obtain ⟨text, htext, hparse⟩ := Option.bind_eq_some_iff.mp hintent
  cases hread : readBody body with
  | error err =>
      rw [hread] at hf
      cases hf
  | ok x =>
      rw [hread] at hf
      exact ⟨x.1, x.2, intent.constraints, rfl,
        ⟨f, hf, text, intent, htext, toOption_eq_some_iff.mp hparse, rfl⟩, hq⟩

theorem confined_chatBody : Confined chatBody := by
  obtain ⟨members, fragments, cs, hread, hcs, hpublic⟩ :=
    exists_supplies (fun cs => cs.shareMax ≠ .public)
      (show ((intentsOf chatBody).any _) = true by decide +kernel)
  exact ⟨members, fragments, cs, hread, hcs, of_decide_eq_true hpublic⟩

theorem reuses_sharingEngine {ι : Type} [DecidableEq ι] {p : Proxy} {connections : ι → Connection}
    {schedule : List ι} {i j : ι} {text text' : Str} (hne : i ≠ j) (hi : 3 ≤ schedule.count i)
    (hj : 3 ≤ schedule.count j) (htext : p.posts (connections i) = some text)
    (htext' : p.posts (connections j) = some text') (hsalts : engineSalt text = engineSalt text') :
    p.Reuses sharingEngine connections schedule i j ∨
      p.Reuses sharingEngine connections schedule j i := by
  obtain ⟨m, hm, hat⟩ := Proxy.exists_posting sharingEngine hi htext
  obtain ⟨n, hn, hat'⟩ := Proxy.exists_posting sharingEngine hj htext'
  rcases lt_trichotomy m n with hlt | rfl | hlt
  · exact .inl ⟨m, n, text, text', hm, hn, hlt, text, text', hat, hat', hsalts⟩
  · cases hm.symm.trans hn
    exact absurd rfl hne
  · exact .inr ⟨n, m, text', text, hn, hm, hlt, text', text, hat', hat, hsalts.symm⟩

theorem exists_prepares_three (i : Bool) : ∃ upstream result,
    demo.Prepares (threeConnections chatBody (some i)) alice chatBody upstream result ∧
      result.cacheSalt =
        saltOf (prepare (vllmGateway .bypass) chatBody alice (0 : ℕ) (lit "req-1") ()).1 := by
  have haccepted : ∀ i : Bool, isAccepted (prepare (vllmGateway .bypass) chatBody alice (0 : ℕ)
        (lit "req-" ++ lit (if i then "1" else "2")) ()).1 = true ∧
      saltOf (prepare (vllmGateway .bypass) chatBody alice (0 : ℕ)
        (lit "req-" ++ lit (if i then "1" else "2")) ()).1 =
      saltOf (prepare (vllmGateway .bypass) chatBody alice (0 : ℕ) (lit "req-1") ()).1 := by
    decide +kernel
  obtain ⟨upstream, result, ⟨⟩, h⟩ := exists_accepted (haccepted i).1
  have hsalt := (haccepted i).2
  rw [h] at hsalt
  have hread : (threeConnections chatBody (some i)).request.read = .ok chatBody :=
    read_chatRequest (by decide +kernel)
  exact ⟨upstream, result, ⟨rfl, rfl, hread, h⟩, hsalt⟩

theorem reuses_demo :
    demo.Reuses sharingEngine (threeConnections chatBody) threeSchedule (some true) (some false) ∨
      demo.Reuses sharingEngine (threeConnections chatBody) threeSchedule (some false)
        (some true) := by
  obtain ⟨upstream, result, hprepares, hsalt⟩ := exists_prepares_three true
  obtain ⟨upstream', result', hprepares', hsalt'⟩ := exists_prepares_three false
  refine reuses_sharingEngine (by decide) (by decide) (by decide)
    (Proxy.posts_eq_some_iff.mpr ⟨rfl, _, _, _, _, hprepares, rfl⟩)
    (Proxy.posts_eq_some_iff.mpr ⟨rfl, _, _, _, _, hprepares', rfl⟩) ?_
  rw [hprepares.engineSalt_eq floatsReadBack_reference,
    hprepares'.engineSalt_eq floatsReadBack_reference, hsalt, hsalt']

theorem tenants_kept_apart_demo : ∃ auth',
    demo.auth (threeConnections chatBody (some false)).request = some auth' ∧
      auth'.tenant = alice.tenant := by
  have hauth : demo.auth (threeConnections chatBody (some true)).request = some alice := rfl
  exact tenants_kept_apart floatsReadBack_reference collisionFree_reference demo
    slash_notMem_demoTokens sharingEngine respectsSalts_sharingEngine (threeConnections chatBody)
    (uuid_threeConnections chatBody) threeSchedule hauth (read_chatRequest (by decide +kernel))
    confined_chatBody reuses_demo

end

/-- No block of a private request is reused for another request, and none of another
request for it. -/
theorem private_requests_alone [Runtime] (hfloat : Json.FloatsReadBack Runtime.Float)
    (hcf : CollisionFree) {ι : Type} [DecidableEq ι] (p : Proxy) (e : Engine)
    (he : e.RespectsSalts) (connections : ι → Connection)
    (hids : Function.Injective fun i => (connections i).uuid) (schedule : List ι) {i j : ι}
    {body : Str} (hread : (connections i).request.read = .ok body) (hprivate : p.Private body)
    (hne : j ≠ i) :
    ¬p.Reuses e connections schedule i j ∧ ¬p.Reuses e connections schedule j i := by
  rw [← not_or]
  intro h
  obtain ⟨auth₁, body₁, upstream, result, auth', body', upstream', result', hprepares, hprepares',
    hsalts⟩ := Proxy.prepares_of_reuses hfloat he h
  cases hread.symm.trans hprepares.read
  exact hne (hids (Proxy.Private.uuid_eq hcf hprivate hprepares hprepares' hsalts)).symm

section

attribute [local instance] reference

theorem private_freshBody : demo.Private freshBody := by
  obtain ⟨members, fragments, cs, hread, hcs, hreuse⟩ :=
    exists_supplies (fun cs => cs.reuse = .none)
      (show ((intentsOf freshBody).any _) = true by decide +kernel)
  exact ⟨members, fragments, hread, .inr ⟨cs, hcs, .inl (of_decide_eq_true hreuse)⟩⟩

theorem private_requests_alone_demo :
    ¬demo.Reuses sharingEngine (threeConnections freshBody) threeSchedule (some true)
        (some false) ∧
      ¬demo.Reuses sharingEngine (threeConnections freshBody) threeSchedule (some false)
        (some true) :=
  private_requests_alone floatsReadBack_reference collisionFree_reference demo sharingEngine
    respectsSalts_sharingEngine (threeConnections freshBody) (uuid_threeConnections freshBody)
    threeSchedule (read_chatRequest (by decide +kernel)) private_freshBody (by decide)

end

end CacheControl

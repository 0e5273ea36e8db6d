import CacheControl.Contents
import CacheControl.Discovery
import CacheControl.Replies
import CacheControl.Salts
import CacheControl.Lib.Workers

/-!
# The proxy

A server in front of an engine.  It knows a caller by its token, prepares the request,
posts it upstream and returns the engine's response with the statuses attached.  Every
connection is handled by a thread of its own.
-/

open PyText

namespace CacheControl

section

variable [Runtime]

/-! ## Requests -/

inductive Method
  | get | post
deriving DecidableEq

structure HttpRequest where
  method : Method
  path : Str
  authorization : Option Str
  /-- What `int` makes of the header, which is 0 where it is absent. -/
  contentLength : Except PyError ℤ
  payload : Bytes

/-- A request with the clock that is read for it and the id that is drawn for it. -/
structure Connection where
  request : HttpRequest
  now : Time
  uuid : Str

def Connection.requestId (c : Connection) : Str := lit "req-" ++ c.uuid

/-- A `UnicodeDecodeError` is a `ValueError`. -/
def decode (data : Bytes) : Except PyError Str :=
  match decode? data with
  | some s => .ok s
  | none => .error .valueError

/-- The body, as long as it is said to be: `read(-1)` reads to the end, and lengths below
that raise. -/
def HttpRequest.read (r : HttpRequest) : Except PyError Str := do
  let length ← r.contentLength
  if length < -1 then .error .valueError
  else decode (if length < 0 then r.payload else r.payload.take length.toNat)

def HttpRequest.bearer (r : HttpRequest) : Option Str :=
  let header := r.authorization.getD []
  if (lit "Bearer ").isPrefixOf header then some (header.drop 7) else none

/-- The tokens of the demo. -/
def demoTokens : List (Str × AuthContext) :=
  [(lit "acme-key", ⟨lit "acme", lit "alice", lit "s-acme"⟩),
    (lit "other-key", ⟨lit "other-corp", lit "bob", lit "s-other"⟩)]

/-! ## Responses -/

/-- What `urlopen` and `read` come to: a response that is read whole, an `HTTPError`, a
`URLError`, or another exception. -/
inductive EngineReply
  | completed (text : Str)
  | refused (status : ℕ) (payload : Bytes)
  | unreachable (reason : Str)
  | broken

/-- A handler that raises sends nothing. -/
inductive Response
  | json (status : ℕ) (payload : Value)
  | rejected (code : ErrorCode) (cause : PyError)
  | relayed (status : ℕ) (payload : Bytes)
  | dropped

def errorDocument (code message : Str) : Value :=
  .obj [(lit "error", .obj [(lit "code", .str code), (lit "message", .str message)])]

def notFound (r : HttpRequest) : Response := .json 404 (errorDocument (lit "not_found") r.path)

def unauthorized : Response :=
  .json 401 (errorDocument (lit "unauthorized") (lit "unknown or missing bearer token"))

/-- What the caller gets of the engine's reply. -/
def reply (result : Result) : EngineReply → Response
  | .completed text =>
      match jsonLoads text with
      | .error _ => .dropped
      | .ok response =>
          match attach response result with
          | some d => .json 200 (.obj d.members)
          | none => .dropped
  | .refused status payload => .relayed status payload
  | .unreachable reason => .json 502 (errorDocument (lit "upstream_unreachable") reason)
  | .broken => .dropped

/-! ## The handler -/

structure Proxy where
  tokens : List (Str × AuthContext)
  onUnenforceable : OnUnenforceable

namespace Proxy

def gateway (p : Proxy) : Gateway Unit := vllmGateway p.onUnenforceable

def auth (p : Proxy) (r : HttpRequest) : Option AuthContext :=
  r.bearer.bind fun token => List.lookup token p.tokens

def doGet (p : Proxy) (r : HttpRequest) : Response :=
  if r.path = lit "/v1/cache_intent_capabilities" then .json 200 p.gateway.capabilitiesDocument
  else notFound r

/-- How far `do_POST` comes by itself: to a response, or to a text that it posts. -/
inductive Admission
  | responds (response : Response)
  | posts (text : Str) (result : Result)

def admission (p : Proxy) (c : Connection) : Admission :=
  if c.request.path ≠ lit "/v1/chat/completions" then .responds (notFound c.request)
  else
    match p.auth c.request with
    | none => .responds unauthorized
    | some auth =>
        match c.request.read with
        | .error _ => .responds .dropped
        | .ok body =>
            match (prepare p.gateway body auth c.now c.requestId ()).1 with
            | .error _ => .responds .dropped
            | .ok (.rejected code cause) => .responds (.rejected code cause)
            | .ok (.accepted upstream result) =>
                .posts (Json.dumps .default (.obj upstream)) result

end Proxy

/-- An engine answers a request by what it was sent before.  Of all that it is sent, in
order, it reuses blocks of one request for another. -/
structure Engine where
  respond : List Str → Str → EngineReply
  reuses : List Str → ℕ → ℕ → Prop

/-- The log has what is sent off, also where no answer comes back. -/
def Engine.serve (e : Engine) (text : Str) (log : List Str) : EngineReply × List Str :=
  (e.respond log text, log ++ [text])

namespace Proxy

variable {ι : Type} {p : Proxy} {e : Engine} {connections : ι → Connection}

def doPost (p : Proxy) (e : Engine) (c : Connection) (log : List Str) : Response × List Str :=
  match p.admission c with
  | .responds response => (response, log)
  | .posts text result => (reply result (e.serve text log).1, (e.serve text log).2)

def handle (p : Proxy) (e : Engine) (c : Connection) (log : List Str) : Response × List Str :=
  match c.request.method with
  | .get => (p.doGet c.request, log)
  | .post => p.doPost e c log

/-- One connection after another. -/
def serve (p : Proxy) (e : Engine) (connections : ι → Connection) :
    List ι → List Str → List (ι × Response) × List Str
  | [], log => ([], log)
  | i :: is, log =>
      let first := p.handle e (connections i) log
      let rest := p.serve e connections is first.2
      ((i, first.1) :: rest.1, rest.2)

/-! ## The threads -/

/-- The engine is all that threads share, so `urlopen` is where they meet. -/
def task (p : Proxy) (c : Connection) : Workers.Task Str EngineReply Response :=
  match c.request.method with
  | .get => .ends (p.doGet c.request)
  | .post =>
      match p.admission c with
      | .responds response => .ends response
      | .posts text result => .calls text (reply result)

def threads (p : Proxy) (e : Engine) (connections : ι → Connection) :
    Workers.Pool ι Str EngineReply Response (List Str) where
  task i := p.task (connections i)
  serve := e.serve

theorem perform_task (p : Proxy) (e : Engine) (c : Connection) (log : List Str) :
    (p.task c).perform e.serve log = p.handle e c log := by
  unfold task handle doPost
  cases c.request.method with
  | get => rfl
  | post => cases p.admission c <;> rfl

theorem serially_threads (p : Proxy) (e : Engine) (connections : ι → Connection) (order : List ι)
    (log : List Str) :
    (p.threads e connections).serially order log = p.serve e connections order log := by
  induction order generalizing log with
  | nil => rfl
  | cons i is ih =>
      have hhandle : ((p.threads e connections).task i).perform (p.threads e connections).serve log =
          p.handle e (connections i) log := perform_task p e (connections i) log
      simp only [Workers.Pool.serially, serve, hhandle, ih]

/-! ## What is posted -/

/-- The proxy knows the caller and its own preparation of the body is accepted. -/
structure Prepares (p : Proxy) (c : Connection) (auth : AuthContext) (body : Str)
    (upstream : List (Str × Value)) (result : Result) : Prop where
  path : c.request.path = lit "/v1/chat/completions"
  caller : p.auth c.request = some auth
  read : c.request.read = .ok body
  accepted : prepare p.gateway body auth c.now c.requestId () =
    (.ok (.accepted upstream result), ())

variable {c : Connection} {text body : Str} {result : Result} {auth : AuthContext}
  {upstream : List (Str × Value)}

theorem exists_prepares (h : p.admission c = .posts text result) : ∃ auth body upstream,
    p.Prepares c auth body upstream result ∧ text = Json.dumps .default (.obj upstream) := by
  unfold admission at h
  split at h
  · cases h
  · rename_i hpath
    split at h
    · cases h
    · rename_i auth hauth
      split at h
      · cases h
      · rename_i body hbody
        split at h
        · cases h
        · cases h
        · rename_i upstream result' hprepare
          cases h
          exact ⟨auth, body, upstream, ⟨not_not.mp hpath, hauth, hbody, Prod.ext hprepare rfl⟩, rfl⟩

theorem Prepares.admission (h : p.Prepares c auth body upstream result) :
    p.admission c = .posts (Json.dumps .default (.obj upstream)) result := by
  unfold Proxy.admission
  rw [if_neg (not_not.mpr h.path), h.caller]
  dsimp only
  rw [h.read]
  dsimp only
  rw [h.accepted]

omit [Runtime] in
theorem scalars_of_read {r : HttpRequest} (h : r.read = .ok body) : Json.Scalars body := by
  obtain ⟨length, -, hread⟩ := bind_eq_ok_iff.mp h
  split at hread
  · cases hread
  · unfold decode at hread
    split at hread
    · rename_i s hs
      cases hread
      obtain ⟨cs, rfl, -⟩ := encode?_eq_some_iff.mp (decode?_eq_some_iff.mp hs)
      exact Json.scalars_map_scalar cs
    · cases hread

end Proxy

/-! ## The text -/

theorem unsplit_onElements {f : Value → Value} (hf : ∀ v, Json.Unsplit v → Json.Unsplit (f v))
    {members : List (Str × Value)} (h : Json.Unsplit (.obj members)) :
    Json.Unsplit (.obj (onElements f members)) := by
  rw [Json.unsplit_obj_iff] at h ⊢
  rw [onElements, List.forall_mem_map]
  intro m hm
  obtain ⟨hname, hvalue⟩ := h m hm
  refine ⟨hname, ?_⟩
  dsimp only
  split
  · cases hv : m.2 with
    | arr items =>
        rw [hv, Json.unsplit_arr_iff] at hvalue
        rw [onArray, Json.unsplit_arr_iff, List.forall_mem_map]
        exact fun v hv => hf v (hvalue v hv)
    | _ =>
        rw [hv] at hvalue
        exact hvalue
  · exact hvalue

theorem unsplit_filter {members : List (Str × Value)} (h : Json.Unsplit (.obj members))
    (q : Str × Value → Bool) : Json.Unsplit (.obj (members.filter q)) := by
  rw [Json.unsplit_obj_iff] at h ⊢
  exact fun m hm => h m (List.mem_of_mem_filter hm)

theorem unsplit_stripItem (v : Value) (h : Json.Unsplit v) : Json.Unsplit (stripItem v) := by
  cases v with
  | obj item => exact unsplit_filter h _
  | _ => exact h

theorem distinct_stripItem (v : Value) (h : v.Distinct) : (stripItem v).Distinct := by
  cases v with
  | obj item => exact distinct_filter h _
  | _ => exact h

theorem distinct_concat {members : List (Str × Value)} (h : (Json.obj members).Distinct)
    {name : Str} {v : Value} (hname : name ∉ members.map Prod.fst) (hv : v.Distinct) :
    (Json.obj (members ++ [(name, v)])).Distinct := by
  obtain ⟨hnames, hvalues⟩ := Json.distinct_obj_iff.mp h
  rw [Json.distinct_obj_iff, List.map_append, List.map_singleton]
  refine ⟨List.nodup_append.mpr ⟨hnames, List.nodup_singleton _, ?_⟩, fun m hm => ?_⟩
  · intro a ha b hb
    rw [List.mem_singleton.mp hb]
    rintro rfl
    exact hname ha
  · rcases List.mem_append.mp hm with hm | hm
    · exact hvalues m hm
    · rw [List.mem_singleton.mp hm]
      exact hv

theorem joined_sha256 (data : Bytes) : Json.joined (Runtime.sha256 data) = Runtime.sha256 data := by
  have hlow : ∀ q ∈ hexDigits, q.ord < 0xD800 := by decide +kernel
  exact Json.joined_of_lt fun q hq => hlow q (Runtime.sha256_hex data q hq)

theorem cacheSalt_eq_sha256 {mode : OnUnenforceable} (x : Salted mode) :
    ∃ data, x.salt = Runtime.sha256 data := by
  obtain ⟨fragments, b, hx⟩ := x.exists_lowered
  obtain ⟨d, -, hsalt⟩ := hx.salt
  obtain ⟨data, -, hdata⟩ := bind_eq_ok_iff.mp hsalt
  exact ⟨data, (Except.ok.inj hdata).symm⟩

/-- Whether or not repeated names are told, the text reads as the body without its
intents and scope members, and with the salt. -/
def Relays (body text : Str) (salt : Option Str) : Prop :=
  ∃ members upstream, loadsStrict body = .ok (.obj members) ∧
    upstream = onElements stripItem (unscoped members) ++ saltMember salt ∧
    loadsStrict text = .ok (.obj upstream) ∧ jsonLoads text = .ok (.obj upstream)

/-- The salt that an engine reads in a request. -/
def engineSalt (text : Str) : Option Str :=
  match jsonLoads text with
  | .ok (.obj members) => (Json.get? (lit "cache_salt") members).bind textOf
  | _ => none

namespace Proxy

variable {p : Proxy} {c : Connection} {body : Str} {result : Result} {auth : AuthContext}
  {upstream : List (Str × Value)}

theorem Prepares.unsplit_saltMember (h : p.Prepares c auth body upstream result) :
    Json.Unsplit (.obj (saltMember result.cacheSalt)) := by
  rw [Json.unsplit_obj_iff]
  intro m hm
  obtain ⟨salt, hsalt, rfl⟩ := List.mem_map.mp hm
  let x : Salted p.onUnenforceable :=
    ⟨body, auth, c.now, c.requestId, upstream, result, salt, h.accepted,
      Option.mem_toList.mp hsalt⟩
  obtain ⟨data, hdata⟩ := cacheSalt_eq_sha256 x
  have hname : Json.joined (lit "cache_salt") = lit "cache_salt" := by decide +kernel
  refine ⟨hname, congrArg Json.str ?_⟩
  change salt = _ at hdata
  rw [hdata, joined_sha256]

/-- What is left of the body has no salt of its own. -/
theorem Prepares.exists_upstream (h : p.Prepares c auth body upstream result) :
    ∃ members, loadsStrict body = .ok (.obj members) ∧
      upstream = onElements stripItem (unscoped members) ++ saltMember result.cacheSalt ∧
      lit "cache_salt" ∉ (onElements stripItem (unscoped members)).map Prod.fst := by
  obtain ⟨members, fragments, r, hread, -, hfinish⟩ := handled_of_accepted h.accepted
  obtain ⟨hload, -⟩ := makes_of_readBody hread
  have hnames := (Json.distinct_obj_iff.mp (distinct_of_loadsStrict hload)).1
  refine ⟨members, hload, upstream_of_finish hnames hfinish, ?_⟩
  rw [← stripBindingMembers_eq hnames]
  exact cacheSalt_notMem members

theorem Prepares.unsplit_upstream (h : p.Prepares c auth body upstream result) :
    Json.Unsplit (.obj upstream) := by
  obtain ⟨members, hload, rfl, -⟩ := h.exists_upstream
  have hunsplit := unsplit_of_loadsStrict (scalars_of_read h.read) hload
  have hleft : Json.Unsplit (.obj (onElements stripItem (unscoped members))) :=
    unsplit_onElements unsplit_stripItem (unsplit_filter hunsplit _)
  rw [Json.unsplit_obj_iff]
  intro m hm
  rcases List.mem_append.mp hm with hm | hm
  · exact Json.unsplit_obj_iff.mp hleft m hm
  · exact Json.unsplit_obj_iff.mp h.unsplit_saltMember m hm

theorem Prepares.distinct_upstream (h : p.Prepares c auth body upstream result) :
    (Json.obj upstream : Value).Distinct := by
  obtain ⟨members, hload, rfl, hfresh⟩ := h.exists_upstream
  have hleft : (Json.obj (onElements stripItem (unscoped members)) : Value).Distinct :=
    distinct_onElements distinct_stripItem (distinct_filter (distinct_of_loadsStrict hload) _)
  cases result.cacheSalt with
  | none =>
      rw [show saltMember none = [] from rfl, List.append_nil]
      exact hleft
  | some salt => exact distinct_concat hleft hfresh trivial

theorem Prepares.loads_upstream (hfloat : Json.FloatsReadBack Runtime.Float)
    (h : p.Prepares c auth body upstream result) :
    jsonLoads (Json.dumps .default (.obj upstream)) = .ok (.obj upstream) := by
  have hspells := Json.spells_dumps Json.plain_default hfloat (.obj upstream : Value)
  rw [h.unsplit_upstream] at hspells
  exact jsonLoads_eq hspells (Json.not_repeatsName_iff.mpr h.distinct_upstream)

theorem Prepares.engineSalt_eq (hfloat : Json.FloatsReadBack Runtime.Float)
    (h : p.Prepares c auth body upstream result) :
    engineSalt (Json.dumps .default (.obj upstream)) = result.cacheSalt := by
  obtain ⟨members, -, hupstream, hfresh⟩ := h.exists_upstream
  rw [engineSalt, h.loads_upstream hfloat]
  dsimp only
  rw [hupstream]
  cases result.cacheSalt with
  | none =>
      have hnone : Json.get? (lit "cache_salt") (onElements stripItem (unscoped members)) = none :=
        Json.get?_eq_none_iff.mpr fun m hm heq => hfresh (heq ▸ List.mem_map_of_mem hm)
      rw [show saltMember none = [] from rfl, List.append_nil, hnone]
      rfl
  | some salt =>
      have hmember : saltMember (some salt) = [(lit "cache_salt", .str salt)] := rfl
      rw [hmember, ← Json.set_of_notMem hfresh, Json.get?_set_self]
      rfl

theorem Prepares.relays (hfloat : Json.FloatsReadBack Runtime.Float)
    (h : p.Prepares c auth body upstream result) :
    Relays body (Json.dumps .default (.obj upstream)) result.cacheSalt := by
  obtain ⟨members, hload, hupstream, -⟩ := h.exists_upstream
  have hstrict := (loadsStrict_dumps hfloat (.obj upstream)).1
  rw [h.unsplit_upstream] at hstrict
  exact ⟨members, upstream, hload, hupstream, hstrict h.distinct_upstream, h.loads_upstream hfloat⟩

/-- What the connection asks of the engine. -/
def posts (p : Proxy) (c : Connection) : Option Str := (p.task c).op?

theorem posts_eq_some_iff {text : Str} : p.posts c = some text ↔ c.request.method = .post ∧
    ∃ auth body upstream result, p.Prepares c auth body upstream result ∧
      text = Json.dumps .default (.obj upstream) := by
  unfold posts task
  cases c.request.method with
  | get => simp [Workers.Task.op?]
  | post =>
      cases hadmission : p.admission c with
      | responds response =>
          refine iff_of_false (by rintro ⟨⟩) ?_
          rintro ⟨-, auth, body, upstream, result, hprepares, -⟩
          cases hadmission.symm.trans hprepares.admission
      | posts text' result =>
          constructor
          · rintro ⟨⟩
            obtain ⟨auth, body, upstream, hprepares, htext⟩ := exists_prepares hadmission
            exact ⟨rfl, auth, body, upstream, result, hprepares, htext⟩
          · rintro ⟨-, auth, body, upstream, result', hprepares, rfl⟩
            cases hadmission.symm.trans hprepares.admission
            rfl

/-! ## One after another -/

variable {ι : Type} {e : Engine} {connections : ι → Connection} {order : List ι}

/-- What the engine was sent when the connections of the list had their turns. -/
def sent (p : Proxy) (connections : ι → Connection) (order : List ι) : List Str :=
  order.filterMap fun i => p.posts (connections i)

theorem log_handle (p : Proxy) (e : Engine) (c : Connection) (log : List Str) :
    (p.handle e c log).2 = log ++ (p.posts c).toList := by
  rw [← perform_task, posts]
  cases p.task c with
  | ends response => exact (List.append_nil log).symm
  | calls text resume => rfl

theorem log_serve (order : List ι) (log : List Str) :
    (p.serve e connections order log).2 = log ++ p.sent connections order := by
  induction order generalizing log with
  | nil => exact (List.append_nil log).symm
  | cons i is ih =>
      show (p.serve e connections is (p.handle e (connections i) log).2).2 = _
      rw [ih, log_handle, sent, sent, List.filterMap_cons]
      cases p.posts (connections i) <;> simp

/-- Each response is made with the texts of the turns before. -/
theorem mem_serve {i : ι} {response : Response} {log : List Str}
    (h : (i, response) ∈ (p.serve e connections order log).1) : ∃ before after,
      order = before ++ i :: after ∧
        response = (p.handle e (connections i) (log ++ p.sent connections before)).1 := by
  induction order generalizing log with
  | nil => cases h
  | cons j js ih =>
      rcases List.mem_cons.mp h with hi | hi
      · cases hi
        exact ⟨[], js, rfl, by rw [sent, List.filterMap_nil, List.append_nil]⟩
      · obtain ⟨before, after, rfl, rfl⟩ := ih hi
        refine ⟨j :: before, after, rfl, ?_⟩
        rw [log_handle, sent, sent, List.filterMap_cons]
        cases p.posts (connections j) <;> simp

/-! ## Runs -/

variable [DecidableEq ι] {schedule : List ι}

/-- The threads after the steps of the schedule. -/
def run (p : Proxy) (e : Engine) (connections : ι → Connection) (schedule : List ι) :
    Workers.Config ι EngineReply Response (List Str) :=
  (p.threads e connections).run schedule []

/-- The run is that of the connections one after another: the responses are those of
their turns, and the engine is sent the same texts. -/
structure Serializes (p : Proxy) (e : Engine) (connections : ι → Connection)
    (schedule order : List ι) : Prop where
  nodup : order.Nodup
  log : (p.run e connections schedule).state = (p.serve e connections order []).2
  responses : ∀ i response, (p.run e connections schedule).phase i = .ended response →
    (i, response) ∈ (p.serve e connections order []).1
  answered : ∀ i, 3 ≤ schedule.count i →
    ∃ response, (p.run e connections schedule).phase i = .ended response

theorem serializes_order (p : Proxy) (e : Engine) (connections : ι → Connection)
    (schedule : List ι) :
    p.Serializes e connections schedule (p.run e connections schedule).order where
  nodup := (Workers.Pool.serial_run _ schedule []).nodup
  log := by
    rw [← serially_threads]
    exact (Workers.Pool.serial_run _ schedule []).state.symm
  responses i response h := by
    rw [← serially_threads]
    exact Workers.Pool.ended_serially h
  answered i h :=
    Workers.Pool.ended_of_count [] ((Workers.Task.length_le _).trans h)

/-- The engine is sent each text by a connection of its own. -/
structure Receives (p : Proxy) (e : Engine) (connections : ι → Connection)
    (schedule order : List ι) : Prop where
  nodup : order.Nodup
  ended : ∀ i response, (p.run e connections schedule).phase i = .ended response → i ∈ order
  log : (p.run e connections schedule).state = p.sent connections order
  posts : ∀ i text, p.posts (connections i) = some text ↔ (connections i).request.method = .post ∧
    ∃ auth body upstream result, p.Prepares (connections i) auth body upstream result ∧
      text = Json.dumps .default (.obj upstream)
  relays : ∀ i text, p.posts (connections i) = some text → ∃ auth body upstream result,
    p.Prepares (connections i) auth body upstream result ∧ Relays body text result.cacheSalt

/-- A response of its own has no status 200. -/
theorem admission_ne_ok {payload : Value} : p.admission c ≠ .responds (.json 200 payload) := by
  intro h
  unfold admission at h
  split at h
  · cases h
  · split at h
    · cases h
    · split at h
      · cases h
      · split at h <;> cases h

/-- The statuses are those that the connection's own request was prepared to, and every
other member is one that the engine answered it with.  An object is returned as it is,
with the statuses. -/
structure Owns (p : Proxy) (e : Engine) (c : Connection) (log : List Str) (payload : Value)
    (auth : AuthContext) (body : Str) (upstream : List (Str × Value)) (result : Result)
    (text : Str) (response : Value) (entries : Dict) : Prop where
  prepares : p.Prepares c auth body upstream result
  completed : e.respond log (Json.dumps .default (.obj upstream)) = .completed text
  loads : jsonLoads text = .ok response
  dict : dictOf response = some entries
  members : ∃ before after, payload = .obj (before ++
      (lit "cache_status", .arr (result.statuses.map fun s => .obj s.entry)) :: after) ∧
    before ++ after = Json.erase (lit "cache_status") entries.members
  object : ∀ fields, response = .obj fields → payload = .obj (attachStatus fields result)

omit [DecidableEq ι] in
theorem attach_of_reply {r : EngineReply} {payload : Value}
    (h : reply result r = .json 200 payload) :
    ∃ text response d, r = .completed text ∧ jsonLoads text = .ok response ∧
      attach response result = some d ∧ payload = .obj d.members := by
  cases r with
  | completed text =>
      unfold reply at h
      dsimp only at h
      split at h
      · cases h
      · rename_i response hloads
        split at h
        · rename_i d hattach
          cases h
          exact ⟨text, response, d, rfl, hloads, hattach, rfl⟩
        · cases h
  | refused status data => cases h
  | unreachable reason => cases h
  | broken => cases h

theorem owns_of_doPost (hfloat : Json.FloatsReadBack Runtime.Float) {log : List Str}
    {payload : Value} (h : (p.doPost e c log).1 = .json 200 payload) :
    ∃ auth body upstream result text response entries,
      p.Owns e c log payload auth body upstream result text response entries := by
  unfold doPost at h
  cases hadmission : p.admission c with
  | responds response =>
      rw [hadmission] at h
      cases h
      exact absurd hadmission admission_ne_ok
  | posts posted result =>
      obtain ⟨auth, body, upstream, hprepares, rfl⟩ := exists_prepares hadmission
      rw [hadmission] at h
      obtain ⟨text, response, d, hrespond, hloads, hattach, rfl⟩ := attach_of_reply h
      obtain ⟨entries, before, after, hdict, hmembers, hothers⟩ :=
        members_attach hfloat hloads hattach
      refine ⟨auth, body, upstream, result, text, response, entries, hprepares, hrespond, hloads,
        hdict, ⟨before, after, congrArg Json.obj hmembers, hothers⟩, ?_⟩
      rintro fields rfl
      have hobject := attach_obj fields result
      rw [hattach] at hobject
      exact congrArg Json.obj (Option.some.inj hobject)

/-- An engine that completes every request leaves no thread that has enough steps without
a response. -/
theorem ended_of_completed (e : Engine) (connections : ι → Connection) (schedule : List ι) {i : ι}
    (hpost : (connections i).request.method = .post)
    (h : p.Prepares (connections i) auth body upstream result)
    (hcompletes : ∀ log text, ∃ reply response entries, e.respond log text = .completed reply ∧
      jsonLoads reply = .ok response ∧ dictOf response = some entries)
    (hcount : 3 ≤ schedule.count i) :
    ∃ payload, (p.run e connections schedule).phase i = .ended (.json 200 payload) := by
  have hserial := p.serializes_order e connections schedule
  obtain ⟨response, hresponse⟩ := hserial.answered i hcount
  obtain ⟨before, after, -, hhandle⟩ := mem_serve (hserial.responses i response hresponse)
  rw [List.nil_append] at hhandle
  obtain ⟨text, value, entries, htext, hloads, hdict⟩ := hcompletes (p.sent connections before)
    (Json.dumps .default (.obj upstream))
  have hreply : ∃ payload, reply result (.completed text) = .json 200 payload := by
    unfold reply attach
    dsimp only
    rw [hloads]
    dsimp only
    rw [hdict]
    exact ⟨_, rfl⟩
  obtain ⟨payload, hreply⟩ := hreply
  refine ⟨payload, ?_⟩
  rw [hresponse, hhandle, handle, hpost]
  dsimp only
  rw [doPost, h.admission]
  dsimp only
  rw [Engine.serve, htext, hreply]

end Proxy

end

/-- The engine is sent exactly the accepted requests, each once, and reads in each the
body without what it must not see and with the salt. -/
theorem engine_receives [Runtime] (hfloat : Json.FloatsReadBack Runtime.Float) {ι : Type}
    [DecidableEq ι] (p : Proxy) (e : Engine) (connections : ι → Connection) (schedule : List ι) :
    ∃ order, p.Receives e connections schedule order := by
  have hserial := p.serializes_order e connections schedule
  refine ⟨_, hserial.nodup, fun i response h => ?_, ?_, fun i text => Proxy.posts_eq_some_iff,
    fun i text h => ?_⟩
  · obtain ⟨before, after, heq, -⟩ := Proxy.mem_serve (hserial.responses i response h)
    rw [heq]
    exact List.mem_append_right _ List.mem_cons_self
  · rw [hserial.log, Proxy.log_serve, List.nil_append]
  · obtain ⟨-, auth, body, upstream, result, hprepares, rfl⟩ := Proxy.posts_eq_some_iff.mp h
    exact ⟨auth, body, upstream, result, hprepares, hprepares.relays hfloat⟩

section

attribute [local instance] reference

def chatRequest (token body : Str) : HttpRequest where
  method := .post
  path := lit "/v1/chat/completions"
  authorization := some (lit "Bearer " ++ token)
  contentLength := .ok ((encode? body).getD []).length
  payload := (encode? body).getD []

theorem read_chatRequest {token body : Str} (h : (encode? body).isSome = true) :
    (chatRequest token body).read = .ok body := by
  obtain ⟨data, hdata⟩ := Option.isSome_iff_exists.mp h
  have hlength : ¬((data.length : ℤ) < -1) ∧ ¬((data.length : ℤ) < 0) := by omega
  show (if (((encode? body).getD []).length : ℤ) < -1 then .error .valueError
    else decode (if (((encode? body).getD []).length : ℤ) < 0 then (encode? body).getD []
      else ((encode? body).getD []).take (((encode? body).getD []).length : ℤ).toNat)) = _
  rw [hdata, Option.getD_some, if_neg hlength.1, if_neg hlength.2, Int.toNat_natCast,
    List.take_length, decode, decode?_eq_some_iff.mpr hdata]

def demo : Proxy := ⟨demoTokens, .bypass⟩

/-- Two tenants post the same body. -/
def demoConnections (body : Str) (i : Bool) : Connection :=
  ⟨chatRequest (lit (if i then "acme-key" else "other-key")) body, (0 : ℕ),
    lit (if i then "1" else "2")⟩

/-- An engine that reuses blocks of every earlier request of the same salt. -/
def sharingEngine : Engine where
  respond _ _ := .completed (Json.dumps .default (.obj [(lit "cache_status", .null)] : Value))
  reuses log m n := m < n ∧ ∃ text text', log[m]? = some text ∧ log[n]? = some text' ∧
    engineSalt text = engineSalt text'

theorem completes_sharingEngine (log : List Str) (text : Str) : ∃ reply response entries,
    sharingEngine.respond log text = .completed reply ∧ jsonLoads reply = .ok response ∧
      dictOf response = some entries := by
  refine ⟨_, .obj [(lit "cache_status", .null)], _, rfl, ?_, rfl⟩
  have hspells := Json.spells_dumps Json.plain_default floatsReadBack_reference
    (.obj [(lit "cache_status", .null)] : Value)
  have hunsplit : Json.Unsplit (.obj [(lit "cache_status", .null)] : Value) := by
    rw [Json.unsplit_obj_iff, List.forall_mem_singleton]
    exact ⟨by decide +kernel, rfl⟩
  have hdistinct : (Json.obj [(lit "cache_status", .null)] : Value).Distinct :=
    Json.distinct_obj_iff.mpr ⟨List.nodup_singleton _, by simp [Json.Distinct]⟩
  rw [hunsplit] at hspells
  exact jsonLoads_eq hspells (Json.not_repeatsName_iff.mpr hdistinct)

theorem auth_demo (body : Str) : demo.auth (demoConnections body true).request = some alice ∧
    demo.auth (demoConnections body false).request = some bob := by
  constructor <;> rfl

theorem exists_prepares_demo : ∃ upstream result,
    demo.Prepares (demoConnections chatBody true) alice chatBody upstream result := by
  obtain ⟨upstream, result, ⟨⟩, h⟩ := exists_accepted
    (show isAccepted (prepare (vllmGateway .bypass) chatBody alice (0 : ℕ) (lit "req-1") ()).1 =
      true by decide +kernel)
  exact ⟨upstream, result, rfl, (auth_demo chatBody).1, read_chatRequest (by decide +kernel), h⟩

theorem engine_receives_demo : ∃ order,
    demo.Receives sharingEngine (demoConnections chatBody) [true, false, true, false] order :=
  engine_receives floatsReadBack_reference demo sharingEngine (demoConnections chatBody)
    [true, false, true, false]

end

/-- Whatever else is going on, and whatever JSON value the engine returns, a completed
request is answered with its own statuses. -/
theorem replies_are_own [Runtime] (hfloat : Json.FloatsReadBack Runtime.Float) {ι : Type}
    [DecidableEq ι] (p : Proxy) (e : Engine) (connections : ι → Connection) (schedule : List ι)
    {i : ι} {payload : Value} (hpost : (connections i).request.method = .post)
    (h : (p.run e connections schedule).phase i = .ended (.json 200 payload)) :
    ∃ before after auth body upstream result text response entries,
      (p.run e connections schedule).order = before ++ i :: after ∧ i ∉ before ∧
        p.Owns e (connections i) (p.sent connections before) payload auth body upstream result
          text response entries := by
  have hserial := p.serializes_order e connections schedule
  obtain ⟨before, after, heq, hresponse⟩ := Proxy.mem_serve (hserial.responses i _ h)
  have hnodup := hserial.nodup
  rw [heq] at hnodup
  rw [List.nil_append, Proxy.handle, hpost] at hresponse
  obtain ⟨auth, body, upstream, result, text, response, entries, howns⟩ :=
    Proxy.owns_of_doPost hfloat hresponse.symm
  refine ⟨before, after, auth, body, upstream, result, text, response, entries, heq,
    fun hi => ?_, howns⟩
  exact (List.nodup_append.mp hnodup).2.2 i hi i List.mem_cons_self rfl

section

attribute [local instance] reference

theorem replies_are_own_demo : ∃ payload,
    (demo.run sharingEngine (demoConnections chatBody) [true, false, true, true]).phase true =
        .ended (.json 200 payload) ∧
      ∃ before after auth body upstream result text response entries,
        (demo.run sharingEngine (demoConnections chatBody) [true, false, true, true]).order =
            before ++ true :: after ∧ true ∉ before ∧
          demo.Owns sharingEngine (demoConnections chatBody true)
            (demo.sent (demoConnections chatBody) before) payload auth body upstream result text
            response entries := by
  obtain ⟨upstream, result, hprepares⟩ := exists_prepares_demo
  obtain ⟨payload, h⟩ := Proxy.ended_of_completed sharingEngine (demoConnections chatBody)
    [true, false, true, true] rfl hprepares completes_sharingEngine le_rfl
  exact ⟨payload, h, replies_are_own floatsReadBack_reference demo sharingEngine
    (demoConnections chatBody) [true, false, true, true] rfl h⟩

end

end CacheControl

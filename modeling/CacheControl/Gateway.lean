import CacheControl.Backends
import CacheControl.Compose
import CacheControl.Parse

/-!
# The reference gateway

`handle` processes the fragments of a request one after another.  For each it
composes the constraints of the prefix, checks them against the backend, looks
for reusable state under the authenticated partition, stores what was newly
computed where retention permits, and reports a status.
-/

open PyText

namespace CacheControl

variable [Runtime] {σ : Type}

/-- One ordered unit of model input carrying cache intent.  `id` is `null` when
the caller supplied none; the binding passes on whatever the body held. -/
structure Fragment where
  id : Value
  content : Str
  intentJson : Option Str
  approxClass : Option Str

inductive Outcome
  | bypass | miss | exactHit | approximateHit | unobserved
deriving DecidableEq

inductive RetentionStatus
  | forbidden | declined | retained | unobserved
deriving DecidableEq

inductive ConstraintResult
  | satisfied
deriving DecidableEq

inductive HintOutcome
  | accepted | clipped
deriving DecidableEq

structure HintStatus where
  reuseWithin : Option HintOutcome := none
deriving DecidableEq

structure FragmentStatus where
  id : Value
  outcome : Outcome
  effectiveShare : Share
  retention : RetentionStatus
  constraintResult : ConstraintResult := .satisfied
  exact : Bool := true
  effectiveReuse : Option Reuse := none
  effectiveRetentionMode : Option Mode := none
  namespaceIdentity : Option Str := none
  hints : HintStatus := {}

structure Result where
  statuses : List FragmentStatus
  strippedScopeFields : List Str
  order : List Value
  cacheSalt : Option Str

inductive OnUnenforceable
  | bypass | reject
deriving DecidableEq

structure Gateway (σ : Type) where
  backend : Backend σ
  onUnenforceable : OnUnenforceable

/-! ## Order and identifiers -/

def Share.rank : Share → ℕ
  | .public => 0
  | .tenant => 1
  | .principal => 2
  | .session => 3
  | .request => 4

def shareRank (fragment : Fragment) : Except PyError ℕ :=
  match fragment.intentJson with
  | none => .ok 5
  | some text => (parseCacheIntent text).map fun intent => intent.constraints.shareMax.rank

def rankAll : List Fragment → Except PyError (List (ℕ × Fragment))
  | [] => pure []
  | f :: fs => do
      let rank ← shareRank f
      let rest ← rankAll fs
      pure ((rank, f) :: rest)

/-- The order in which fragments are sent: untouched, or, behind the explicit
flag, stably sorted with the widest boundary first. -/
def planOrder (fragments : List Fragment) (equivalenceDeclared : Bool) :
    Except PyError (List Fragment) :=
  if ¬ equivalenceDeclared then pure fragments
  else do
    let ranked ← rankAll fragments
    pure ((ranked.insertionSort fun a b => a.1 ≤ b.1).map Prod.snd)

def hashable : Value → Bool
  | .arr _ | .obj _ => false
  | _ => true

/-- `a is b or a == b` on hashable values, by which sets and dictionaries tell them apart:
booleans are the numbers 0 and 1, and a `NaN` that is read twice is one object. -/
def pyEq : Value → Value → Bool
  | .null, .null => true
  | .str s, .str t => s = t
  | .float x, .float y => JsonFloat.beq x y
  | .float x, .int n => JsonFloat.integral? x == some n
  | .int n, .float x => JsonFloat.integral? x == some n
  | .float x, .bool b => JsonFloat.integral? x == some b.toInt
  | .bool b, .float x => JsonFloat.integral? x == some b.toInt
  | .int m, .int n => m == n
  | .int m, .bool b => m == b.toInt
  | .bool b, .int m => m == b.toInt
  | .bool b, .bool c => b == c
  | _, _ => false

def isNull : Value → Bool
  | .null => true
  | _ => false

def isStr : Value → Bool
  | .str _ => true
  | _ => false

def repeated : List Value → List Value
  | [] => []
  | v :: vs => if vs.any (pyEq v) then v :: repeated vs else repeated vs

/-- `len(supplied) != len(set(supplied))`.  Building the set fails on an
unhashable id, and sorting the repeated ids for the message fails when strings
and numbers are among them. -/
def checkIds (fragments : List Fragment) : Except PyError Unit :=
  let supplied := (fragments.map Fragment.id).filter fun v => ¬ isNull v
  if supplied.any fun v => ¬ hashable v then .error .typeError
  else if (repeated supplied).isEmpty then .ok ()
  else if (repeated supplied).any isStr ∧ (repeated supplied).any fun v => ¬ isStr v then
    .error .typeError
  else .error .duplicateFragmentId

/-! ## Capabilities and hints -/

def checkEnforceable (caps : Capabilities) (constraints : Effective) : Except PyError Unit :=
  if constraints.retention.mode ∉ caps.retentionModes then
    .error (.unenforceableConstraint .retentionMode)
  else if constraints.retention.maxAge.isSome ∧ ¬ caps.retentionMaxAge then
    .error (.unenforceableConstraint .maxAge)
  else if constraints.reuse ∉ caps.reuse then
    .error (.unenforceableConstraint (.reuse constraints.reuse))
  else if constraints.shareMax ∉ caps.shareMax then
    .error (.unenforceableConstraint (.shareMax constraints.shareMax))
  else if constraints.namespaceIdentity.isSome ∧ ¬ caps.ns then
    .error (.unenforceableConstraint .namespace)
  else .ok ()

def hintStatus (caps : Capabilities) (hints : Hints) : HintStatus :=
  match hints.reuseWithin, caps.reuseWithinMax with
  | some value, some limit =>
      { reuseWithin := some (if value > limit then .clipped else .accepted) }
  | _, _ => {}

/-! ## One fragment -/

def execution : Execution := ⟨lit "reference-model-1", lit "1"⟩

structure LoopVars where
  constraintsSoFar : List Constraints
  namespacesSoFar : List Str
  contentsSoFar : List Str
  taintedApproximate : Bool

def LoopVars.init : LoopVars := ⟨[], [], [], false⟩

/-- A fragment after its intent was read: without a policy, or with the policy
its prefix composes to. -/
inductive Entered
  | ungoverned (vars : LoopVars)
  | governed (vars : LoopVars) (hints : HintStatus) (effective : Effective)

/-- Parse the fragment's intent and compose the constraints of its prefix. A
fragment without an intent inherits the policy of what precedes it. -/
def enter (caps : Capabilities) (vars : LoopVars) (fragment : Fragment) :
    Except PyError Entered :=
  let vars := { vars with contentsSoFar := vars.contentsSoFar ++ [fragment.content] }
  match fragment.intentJson with
  | none =>
      if vars.constraintsSoFar.isEmpty then pure (.ungoverned vars)
      else do
        let effective ← compose vars.constraintsSoFar
        pure (.governed vars {} effective)
  | some text => do
      let intent ← parseCacheIntent text
      let vars := { vars with
        constraintsSoFar := vars.constraintsSoFar ++ [intent.constraints]
        namespacesSoFar := vars.namespacesSoFar ++ intent.constraints.ns.toList }
      let effective ← compose vars.constraintsSoFar
      pure (.governed vars (hintStatus caps intent.hints) effective)

namespace Gateway

/-- Look for reusable state. Returns the outcome and whether it is approximate. -/
def resolve (g : Gateway σ) (effective : Effective) (contents namespaces : List Str)
    (partition : Str) (now : Time) (approxClass : Option Str) :
    Prog PyError σ (Outcome × Bool) :=
  if ¬ g.backend.observesOutcomes then pure (.unobserved, false)
  else if effective.reuse = .none then pure (.bypass, false)
  else do
    let exactKey ← Prog.lift (cacheKey execution contents namespaces partition true)
    match ← g.backend.get exactKey now with
    | some _ => pure (.exactHit, false)
    | none =>
        match effective.reuse, approxClass with
        | .approximate, some c => do
            -- A donor is state for different input in the same similarity class.
            let donorKey ← Prog.lift (cacheKey execution [c] namespaces partition false)
            match ← g.backend.get donorKey now with
            | some _ => pure (.approximateHit, true)
            | none => pure (.miss, false)
        | _, _ => pure (.miss, false)

def materialize (g : Gateway σ) (effective : Effective) (contents namespaces : List Str)
    (partition : Str) (now : Time) (exact : Bool) (approxClass : Option Str) :
    Prog PyError σ RetentionStatus :=
  if effective.retention.mode = .forbid then pure .forbidden
  else if effective.shareMax = .request then pure .declined
  else do
    let key ← Prog.lift (cacheKey execution contents namespaces partition exact)
    let _ ← g.backend.put key now effective.retention.maxAge exact
    match approxClass with
    | none => pure .retained
    | some c => do
        -- The donor index lives entirely in the approximate keyspace.
        let donorKey ← Prog.lift (cacheKey execution [c] namespaces partition false)
        let _ ← g.backend.put donorKey now effective.retention.maxAge false
        pure .retained

/-- The retention to report for an outcome, storing the state where it was
newly computed.  A hit is never stored again. -/
def retain (g : Gateway σ) (outcome : Outcome) (effective : Effective)
    (contents namespaces : List Str) (partition : Str) (now : Time) (exact : Bool)
    (approxClass : Option Str) : Prog PyError σ RetentionStatus :=
  match outcome with
  | .unobserved =>
      pure (if effective.retention.mode = .forbid then .forbidden else .unobserved)
  | .exactHit => pure .retained
  | _ => g.materialize effective contents namespaces partition now exact approxClass

def statusOf (fragment : Fragment) (effective : Effective) (hints : HintStatus)
    (outcome : Outcome) (retention : RetentionStatus) (exact : Bool) : FragmentStatus where
  id := fragment.id
  outcome := outcome
  effectiveShare := effective.shareMax
  retention := retention
  exact := exact
  effectiveReuse := some effective.reuse
  effectiveRetentionMode := some effective.retention.mode
  namespaceIdentity := effective.namespaceIdentity
  hints := hints

def bareStatus (fragment : Fragment) : FragmentStatus where
  id := fragment.id
  outcome := .bypass
  effectiveShare := .request
  retention := .declined

def serve (g : Gateway σ) (auth : AuthContext) (now : Time) (requestId : Str)
    (fragment : Fragment) (vars : LoopVars) (hints : HintStatus) (effective : Effective) :
    Prog PyError σ (LoopVars × FragmentStatus) := do
  let partition := partitionFor effective.shareMax auth requestId
  let (outcome, usedApproximate) ← g.resolve effective vars.contentsSoFar vars.namespacesSoFar
    partition now fragment.approxClass
  -- Once approximate state has been read, every later prefix depends on it.
  let tainted := vars.taintedApproximate || usedApproximate
  let retention ← g.retain outcome effective vars.contentsSoFar vars.namespacesSoFar
    partition now (!tainted) fragment.approxClass
  pure ({ vars with taintedApproximate := tainted },
    statusOf fragment effective hints outcome retention (!tainted))

def handleFragment (g : Gateway σ) (auth : AuthContext) (now : Time) (requestId : Str)
    (vars : LoopVars) (fragment : Fragment) : Prog PyError σ (LoopVars × FragmentStatus) := do
  match ← Prog.lift (enter g.backend.capabilities vars fragment) with
  | .ungoverned vars =>
      pure (vars, bareStatus fragment)
  | .governed vars hints effective =>
      match checkEnforceable g.backend.capabilities effective with
      | .error e =>
          -- Bypass and reject are the only responses to an unenforceable policy.
          if g.onUnenforceable = .reject then Prog.raise e
          else pure (vars, statusOf fragment effective hints .bypass
            (if effective.retention.mode = .forbid then .forbidden else .declined) true)
      | .ok () => g.serve auth now requestId fragment vars hints effective

def handle (g : Gateway σ) (fragments : List Fragment) (auth : AuthContext) (now : Time)
    (requestId : Str) (requestPayload : Option (List (Str × Value)))
    (equivalenceDeclared : Bool) : Prog PyError σ Result := do
  let ordered ← Prog.lift (planOrder fragments equivalenceDeclared)
  Prog.lift (checkIds ordered)
  let statuses ← Prog.mapAccum (g.handleFragment auth now requestId) LoopVars.init ordered
  pure
    { statuses
      strippedScopeFields := match requestPayload with
        | none => []
        | some payload => (stripUntrustedScope payload).2
      order := ordered.map Fragment.id
      cacheSalt := none }

end Gateway

end CacheControl

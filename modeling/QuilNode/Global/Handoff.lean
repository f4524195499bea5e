import QuilNode.Global.HandoffRecords
import QuilNode.Lib.Store

/-!
# Committee handoff (`global_intrinsic/handoff.rs`, `handoff_schedule.rs`)

GLOBAL keeps, for every session, its record, its place in its filter's generations, a status and
the request that created it; for every request the seals and fences of its sources and, once all
have ended, its activation.  Each of the four entry points succeeds or leaves the records as they
were.
-/

namespace Handoff

open Results Forest Global

inductive Status where
  | active
  | sealing (request : Bytes32)
  | closed (request : Bytes32)
  deriving DecidableEq

def Status.isClosed : Status → Bool
  | .closed _ => true
  | _ => false

/-- The ten kinds of records.  Seals and fences stand under the request and the source. -/
structure Records where
  sessions : Store Bytes32 fun _ => Session
  generations : Store (Bytes × Nat) fun _ => Bytes32
  heads : Store Bytes fun _ => Bytes32
  statuses : Store Bytes32 fun _ => Status
  requests : Store Bytes32 fun _ => Request
  seals : Store (Bytes32 × Bytes32) fun _ => CertificateSubmission
  fences : Store (Bytes32 × Bytes32) fun _ => Checkpoint
  activated : Store Bytes32 fun _ => Bytes32
  origins : Store Bytes32 fun _ => Option Bytes32
  tips : Store Bytes32 fun _ => Checkpoint

def Records.empty : Records :=
  ⟨.empty, .empty, .empty, .empty, .empty, .empty, .empty, .empty, .empty, .empty⟩

variable (env : HandoffEnv)

def session (s : Records) (id : Bytes32) : Result (Option Session) :=
  match s.sessions id with
  | none => .ok none
  | some value => do
    ensure ((← value.id env) = id) (.store "handoff session ID mismatch")
    return some value

def head (s : Records) (filter : Bytes) : Result (Option Session) :=
  match s.heads filter with
  | none => .ok none
  | some id => do
    let value ← okOr (← session env s id) (.store "handoff head has no session")
    ensure (value.filter = filter) (.store "handoff head filter mismatch")
    return some value

def status (s : Records) (id : Bytes32) : Result Status :=
  okOr (s.statuses id) (.store "session status absent")

def request (s : Records) (id : Bytes32) : Result (Option Request) :=
  match s.requests id with
  | none => .ok none
  | some value => do
    ensure ((← value.id env) = id) (.store "handoff request ID mismatch")
    return some value

/-- How a closing source ended. -/
structure Terminal where
  checkpoint : Checkpoint
  digest : Bytes32
  fenced : Bool

/-- `fence_digest`. -/
def fenceDigest (request session : Bytes32) (checkpoint : Checkpoint) : Bytes32 :=
  env.sha256 (asciiBytes "quil/app/handoff/fence/v1" ++ request.bytes ++ session.bytes ++
    checkpoint.write)

def terminal (s : Records) (request id : Bytes32) : Result (Option Terminal) :=
  match s.seals (request, id) with
  | some submission => do
    ensure (submission.closingSeal.session = id ∧ submission.closingSeal.request = request)
      (.store "submitted-session seal mismatch")
    return some ⟨submission.closingSeal.checkpoint, submission.closingSeal.digest env, false⟩
  | none =>
    match s.fences (request, id) with
    | some checkpoint => .ok (some ⟨checkpoint, fenceDigest env request id checkpoint, true⟩)
    | none => .ok none

def closedCheckpoint (s : Records) (id : Bytes32) : Result (Option Checkpoint) := do
  match ← status s id with
  | .closed request =>
    let ended ← okOr (← terminal env s request id) (.store "closed session has no seal or fence")
    return some ended.checkpoint
  | _ => return none

/-- `origins`: the sources of the request that authorized a session. -/
def origins (s : Records) (id : Bytes32) : Result (List (Session × Checkpoint)) := do
  let _ ← okOr (← session env s id) (invalid "bootstrap session absent")
  match ← okOr (s.origins id) (.store "session origin absent") with
  | none => return []
  | some requestId =>
    let request ← okOr (← request env s requestId) (.store "session origin request absent")
    request.sources.mapM fun source => do
      let checkpoint ← okOr (← closedCheckpoint env s (← source.id env))
        (.store "session origin is not closed")
      return (source, checkpoint)

/-- `create_session`. -/
def createSession (s : Records) (value : Session) : Result (Bytes32 × Records) := do
  let id ← value.id env
  ensure ((s.generations (value.filter, value.generation)).isNone = true)
    (invalid "session generation already authorized")
  ensure ((← session env s id).isNone = true) (invalid "session generation already authorized")
  return (id, { s with
    sessions := s.sessions.write id value
    generations := s.generations.write (value.filter, value.generation) id
    heads := s.heads.write value.filter id })

/-- The origin and the status of a session that was just created. -/
def Records.start (s : Records) (id : Bytes32) (origin : Option Bytes32) : Records :=
  { s with
    origins := s.origins.write id origin
    statuses := s.statuses.write id .active }

/-- The entry point for a first session; `rings` is what the record of the members' rings
returns. -/
def initializeSession (s : Records) (rings : Result Unit) (initial : Session) : Result Records := do
  env.requireFullDomainCoverage
  initial.validate env
  ensure (initial.generation ≠ 0) (invalid "generation zero is only registered from a legacy tip")
  let _ ← partition [initial.filter]
  ensure (¬ 1 < initial.generation ∧ (← head env s initial.filter).isNone = true)
    (invalid "session already initialized or initial generation invalid")
  let (id, s) ← createSession env s initial
  let s := s.start id none
  rings
  return s

/-- `checked_add(1)` of a `u64`. -/
def nextGeneration (generation : Nat) : Option Nat :=
  if generation + 1 < 2 ^ 64 then some (generation + 1) else none

/-- The source session of a filter, which must be active. -/
def sourceSession (s : Records) (filter : Bytes) : Result Session := do
  let source ← okOr (← head env s filter) (invalid "source session absent")
  ensure ((← status s (← source.id env)) = .active)
    (invalid "source session is already closing or closed")
  return source

/-- The source sessions of a request, within its size limit. -/
def sourceSessions (s : Records) : List Bytes → Nat → Result (List Session)
  | [], _ => .ok []
  | filter :: filters, budget => do
    let source ← sourceSession env s filter
    let budget := budget + (← source.encode env).length
    ensure (budget ≤ maxRecordBytes) (invalid "request exceeds size limit")
    return source :: (← sourceSessions s filters budget)

/-- The target a committee becomes: the generation after its filter's last session. -/
def nextTarget (s : Records) (chain : Bytes32) (sources : List Bytes)
    (committee : DesiredCommittee) : Result Target := do
  match ← head env s committee.filter with
  | none => return ⟨committee, 1, none⟩
  | some previous =>
    ensure (previous.chainId = chain) (invalid "target belongs to another chain")
    let previousId ← previous.id env
    (if committee.filter ∈ sources then .ok () else do
      ensure ((← status s previousId).isClosed = true)
        (invalid "target already has a live session"))
    let generation ← okOr (nextGeneration previous.generation) (invalid "generation exhausted")
    return ⟨committee, generation, some previousId⟩

/-- Mark the sources of a request as closing for it. -/
def Records.setStatuses (s : Records) (ids : List Bytes32) (value : Status) : Records :=
  { s with statuses := s.statuses.writeEach ids id fun _ => value }

/-- `schedule_with_vacant`. -/
def scheduleWithVacant (s : Records) (frame : Nat) (sources vacant : List Bytes)
    (targets : List DesiredCommittee) : Result (Request × Records) := do
  env.requireFullDomainCoverage
  let vacant := vacant.insertionSort (· ≤ ·)
  vacant.forM fun filter => do
    ensure ((← head env s filter).isNone = true)
      (invalid "a range with a session cannot be declared vacant")
  ensure (sources ≠ [] ∧ sources.length ≤ maxTransitionShards ∧
    targets.length ≤ maxTransitionShards) (invalid "invalid transition size")
  let sources := sources.insertionSort (· ≤ ·)
  let targets := targets.insertionSort fun a b => a.filter ≤ b.filter
  let sessions ← sourceSessions env s sources 0
  let chain ← okOr (sessions.head?.map Session.chainId) (invalid "invalid transition size")
  let next ← targets.mapM (nextTarget env s chain sources)
  let request : Request := ⟨frame, sessions, vacant, next⟩
  let id ← request.id env
  ensure ((s.requests id).isNone = true) (invalid "request already exists")
  let ids ← sessions.mapM (Session.id env)
  return (request, { s with requests := s.requests.write id request }.setStatuses ids (.sealing id))

/-- A target is as the request found it. -/
def targetUnchanged (s : Records) (target : Target) : Result Unit := do
  let current ← head env s target.committee.filter
  let currentId ← (match current with
    | some value => do return some (← value.id env)
    | none => pure none)
  ensure (currentId = target.previous ∧ (match current with
        | some value => nextGeneration value.generation
        | none => some 1) = some target.generation)
    (invalid "target changed after the request was authorized")

/-- The ends of all sources, or none while one is still closing. -/
def sourceEnds (s : Records) (requestId : Bytes32) : List Session → Result (Option (List Terminal))
  | [] => .ok (some [])
  | source :: sources => do
    match ← terminal env s requestId (← source.id env) with
    | none => return none
    | some ended =>
      match ← sourceEnds s requestId sources with
      | none => return none
      | some ends => return some (ended :: ends)

/-- The session that succeeds at a target: it starts at the end of its filter's last
session. -/
def successor (s : Records) (chain authorization : Bytes32) (members : Option (List Bytes))
    (target : Target) : Result Session := do
  let baseFrame ← (match target.previous with
    | some previous => do
      let checkpoint ← okOr (← closedCheckpoint env s previous)
        (invalid "previous target session has not closed")
      return checkpoint.frame
    | none => pure 0)
  let output := env.sha256 (asciiBytes "quil/app/handoff/genesis/v1" ++ authorization.bytes ++
    beBytes 8 target.generation ++ target.committee.filter)
  return ⟨chain, target.committee.filter, target.generation, ← env.poseidon output.bytes, baseFrame,
    authorization, members.getD target.committee.members⟩

/-- Authorize the successor at one target. -/
def authorize (rings : Result Unit) (requestId chain authorization : Bytes32)
    (members : Option (List Bytes)) (s : Records) (target : Target) : Result Records := do
  let next ← successor env s chain authorization members target
  let (id, s) ← createSession env s next
  let s := s.start id (some requestId)
  rings
  return s

/-- `activate_with`: `members` replaces the committee of the request's one target. -/
def activateWith (s : Records) (rings : Result Unit) (request : Request)
    (members : Option (List Bytes)) : Result (Bool × Records) := do
  ensure (members.isNone = true ∨ request.targets.length = 1)
    (invalid "replacement members need a request with one target")
  let requestId ← request.id env
  if (s.activated requestId).isSome then
    return (false, s)
  else
    match ← sourceEnds env s requestId request.sources with
    | none => return (false, s)
    | some ends =>
      request.targets.forM (targetUnchanged env s)
      let authorization := env.sha256 (asciiBytes "quil/app/handoff/authorization/v1" ++
        requestId.bytes ++ ends.flatMap fun ended => ended.digest.bytes)
      let ids ← request.sources.mapM (Session.id env)
      let chain ← okOr (request.sources.head?.map Session.chainId) (invalid "noncanonical transition")
      let s ← (request.targets.filter fun target => target.committee.members ≠ []).foldlM
        (authorize env rings requestId chain authorization members)
        (s.setStatuses ids (.closed requestId))
      return (true, { s with activated := s.activated.write requestId authorization })

/-- `verify_closing_certificate`. -/
def verifyClosingCertificate (s : Records) (frame : Nat) (submission : CertificateSubmission) :
    Result (Request × Session) := do
  let closing := submission.closingSeal
  let request ← okOr (← request env s closing.request)
    (invalid "closing certificate has no authorized request")
  ensure (request.frame < frame) (invalid "closing request must precede certificate inclusion")
  let source ← okOr (request.sources.find? fun source =>
      match source.id env with
      | .ok id => id == closing.session
      | .error _ => false)
    (invalid "certificate is not from a requested source")
  ensure ((← status s closing.session) ∈ [.sealing closing.request, .closed closing.request])
    (invalid "source is not closing for this request")
  ensure ((s.fences (closing.request, closing.session)).isNone = true)
    (invalid "source was fenced after its closing timeout")
  ensure (verifySealWith env source closing.request closing submission.certificate
      (decide (env.sealRecoveryFrame ≤ frame)) = true)
    (invalid "invalid source finalization certificate")
  return (request, source)

/-- `verify_submission_at`: GLOBAL has executed the source through the checkpoint, and not
beyond. -/
def verifySubmissionAt (s : Records) (frame : Nat) (submission : CertificateSubmission)
    (executed : Option Checkpoint) : Result Request := do
  let (request, source) ← verifyClosingCertificate env s frame submission
  let checkpoint := submission.closingSeal.checkpoint
  (match executed with
    | some tip => do
      ensure (¬ checkpoint.frame < tip.frame)
        (invalid "sealed checkpoint is below the source's executed frames")
      ensure (¬ (tip.frame = checkpoint.frame ∧ tip.digest ≠ checkpoint.digest))
        (invalid "sealed checkpoint differs from the source's executed frame")
      ensure (tip.frame = checkpoint.frame)
        (invalid "source frames through the sealed checkpoint are not yet executed")
    | none =>
      ensure (checkpoint.frame = source.baseFrame)
        (invalid "source frames through the sealed checkpoint are not yet executed"))
  (match s.seals (submission.closingSeal.request, submission.closingSeal.session) with
    | some previous =>
      ensure (previous.closingSeal = submission.closingSeal)
        (invalid "source already supplied a different closing checkpoint")
    | none => pure ())
  return request

/-- `verify_submission`. -/
def verifySubmission (s : Records) (frame : Nat) (submission : CertificateSubmission) :
    Result Request :=
  verifySubmissionAt env s frame submission (s.tips submission.closingSeal.session)

/-- Record a source's seal, once. -/
def Records.recordSeal (s : Records) (requestId : Bytes32) (submission : CertificateSubmission) :
    Result Records := do
  if (s.seals (requestId, submission.closingSeal.session)).isNone then
    let _ ← submission.toCanonicalBytes
    return { s with seals :=
        s.seals.write (requestId, submission.closingSeal.session) submission }
  else return s

/-- `apply_submission`. -/
def applySubmission (s : Records) (rings : Result Unit) (frame : Nat)
    (submission : CertificateSubmission) : Result (Bool × Records) := do
  env.requireFullDomainCoverage
  let request ← verifySubmission env s frame submission
  let requestId ← request.id env
  if (s.activated requestId).isSome then
    return (false, s)
  else
    let s ← s.recordSeal requestId submission
    activateWith env s rings request none

/-- `fence_after_epochs`. -/
def fenceAfterEpochs (requestFrame : Nat) : Nat :=
  if env.earlyFenceFrame ≤ requestFrame then 1 else 4

/-- `fence_due_frame`, with `u64` saturation. -/
def fenceDueFrame (requestFrame : Nat) : Nat :=
  min (requestFrame + min (fenceAfterEpochs env requestFrame * epochLengthFrames env.epochOverride)
    (2 ^ 64 - 1)) (2 ^ 64 - 1)

/-- A session is fenced at its executed tip without roots, else at its base with the roots of its
predecessor, where it has one. -/
def fenceCheckpoint (s : Records) (id : Bytes32) (session : Session) : Result Checkpoint := do
  match s.tips id with
  | some tip => return { tip with stateRoots := zeroRoots, historyRoot := 0 }
  | none =>
    let predecessor := (← origins env s id).find? fun origin =>
      decide (origin.1.filter = session.filter ∧ origin.2.frame = session.baseFrame)
    let stateRoots := match predecessor with
      | some origin => origin.2.stateRoots
      | none => zeroRoots
    return ⟨session.baseFrame, 0, session.genesis, stateRoots, 0⟩

/-- `fenced_committee`. -/
def fencedCommittee (request : Request) (eligible : Bytes → Result (List Bytes)) :
    Result (Option (List Bytes)) :=
  match request.sources, request.targets with
  | [source], [target] =>
    if target.committee.filter ≠ source.filter ∨ request.vacant ≠ [] then .ok none
    else do
      let members ← eligible source.filter
      let valid := match Session.validate env
          ⟨source.chainId, source.filter, target.generation, 0, 0, 0, members⟩ with
        | .ok _ => true
        | .error _ => false
      return if valid = true ∧ members ≠ target.committee.members then some members else none
  | _, _ => .ok none

/-- The head of a filter, its id and the request it is closing for, where it has neither
sealed nor been fenced. -/
def stalledSource (s : Records) (filter : Bytes) :
    Result (Option (Session × Bytes32 × Bytes32)) := do
  match ← head env s filter with
  | none => return none
  | some session =>
    let id ← session.id env
    match ← status s id with
    | .sealing requestId =>
      if (s.seals (requestId, id)).isSome ∨ (s.fences (requestId, id)).isSome then return none
      else return some (session, id, requestId)
    | _ => return none

/-- One round of `fence_stalled_sources`. -/
def fenceSource (rings : Result Unit) (frame : Nat)
    (eligible : Option (Bytes → Result (List Bytes))) (acc : Nat × Records)
    (filter : Bytes) : Result (Nat × Records) := do
  match ← stalledSource env acc.2 filter with
  | none => return acc
  | some (session, id, requestId) =>
    let pending ← okOr (← request env acc.2 requestId)
      (.store "closing session's request is absent")
    if frame < fenceDueFrame env pending.frame then return acc
    else
      let checkpoint ← fenceCheckpoint env acc.2 id session
      let fenced := { acc.2 with fences := acc.2.fences.write (requestId, id) checkpoint }
      let members ← (match eligible with
        | some eligible =>
          if env.fencedSuccessorEligibilityFrame ≤ frame then fencedCommittee env pending eligible
          else .ok none
        | none => .ok none)
      let (_, s) ← activateWith env fenced rings pending members
      return (acc.1 + 1, s)

/-- `fence_stalled_sources`. -/
def fenceStalledSources (s : Records) (rings : Result Unit) (frame : Nat)
    (filters : List Bytes) (eligible : Option (Bytes → Result (List Bytes))) :
    Result (Nat × Records) :=
  filters.foldlM (fenceSource env rings frame eligible) (0, s)

/-- `record_session_tip`. -/
def recordSessionTip (s : Records) (id : Bytes32) (tip : Checkpoint) : Records :=
  match s.tips id with
  | some current => if tip.frame ≤ current.frame then s else { s with tips := s.tips.write id tip }
  | none => { s with tips := s.tips.write id tip }

/-- The entry points, and an executed frame of a session. -/
inductive HandoffCall where
  | initial (rings : Result Unit) (first : Session)
  | schedule (frame : Nat) (sources vacant : List Bytes) (targets : List DesiredCommittee)
  | submit (rings : Result Unit) (frame : Nat) (submission : CertificateSubmission)
  | fence (rings : Result Unit) (frame : Nat) (filters : List Bytes)
      (eligible : Option (Bytes → Result (List Bytes)))
  | tip (id : Bytes32) (tip : Checkpoint)

/-- The call's own effect, or its error. -/
def handoffCall (s : Records) : HandoffCall → Result Records
  | .initial rings first => initializeSession env s rings first
  | .schedule frame sources vacant targets => do
    return (← scheduleWithVacant env s frame sources vacant targets).2
  | .submit rings frame submission => do return (← applySubmission env s rings frame submission).2
  | .fence rings frame filters eligible => do
    return (← fenceStalledSources env s rings frame filters eligible).2
  | .tip id tip => .ok (recordSessionTip s id tip)

/-- One call; what fails is rolled back. -/
def handoffStep (s : Records) (call : HandoffCall) : Result Unit × Records :=
  match handoffCall env s call with
  | .ok s' => (.ok (), s')
  | .error error => (.error error, s)

end Handoff

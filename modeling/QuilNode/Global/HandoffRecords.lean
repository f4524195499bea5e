import QuilNode.Forest.ShardFilter
import QuilNode.Global.Allocation

/-!
# The records of committee handoff

A shard's history is certified by a chain of sessions, one committee after the other.  A request
asks the sessions of its sources to close and fixes the committees that succeed them; a seal is
the checkpoint at which a session's own committee finalized its end.  Hashes, keys and certificates
are parameters.
-/

namespace Handoff

open Results Forest Global

def maxMembers : Nat := 4096
def maxRecordBytes : Nat := 4 * 1024 * 1024
def maxFilterBytes : Nat := 66
def maxTransitionShards : Nat := 512

/-- `invalid` of the consensus crate and of GLOBAL execution. -/
def invalidSession (msg : String) : QuilError :=
  .invalidArgument ("committee handoff: " ++ msg)

def invalid (msg : String) : QuilError :=
  .invalidArgument ("global committee handoff: " ++ msg)

/-- What the records rest on: hashes, keys, finalization certificates (the epoch, view and parent
view proved for a payload), the record of member rings, and the frames from which rules hold. -/
structure HandoffEnv where
  sha256 : Bytes → Bytes32
  poseidon : Bytes → Result Bytes32
  isFalconKey : Bytes → Bool
  verifyFinalization : Bytes → List Bytes → Bytes → Bytes32 → Option (Nat × Nat × Nat)
  requireFullDomainCoverage : Result Unit
  epochOverride : Nat
  sealRecoveryFrame : Nat
  earlyFenceFrame : Nat
  fencedSuccessorEligibilityFrame : Nat

/-- `put_bytes`: a length of four bytes, then the bytes. -/
def putBytes (bytes : Bytes) : Result Bytes := do
  ensure (bytes.length < 2 ^ 32) (invalidSession "field exceeds size limit")
  return beBytes 4 bytes.length ++ bytes

/-- Each entry is below the next. -/
def ascending : List Bytes → Bool
  | a :: b :: rest => decide (a < b) && ascending (b :: rest)
  | _ => true

structure Session where
  chainId : Bytes32
  filter : Bytes
  generation : Nat
  genesis : Bytes32
  baseFrame : Nat
  authorization : Bytes32
  members : List Bytes
  deriving DecidableEq

namespace Session

def validate (env : HandoffEnv) (s : Session) : Result Unit := do
  ensure (32 ≤ s.filter.length ∧ s.filter.length ≤ maxFilterBytes)
    (invalidSession "invalid full shard filter length")
  ensure (s.members ≠ [] ∧ s.members.length ≤ maxMembers ∧ ascending s.members = true ∧
      s.members.all env.isFalconKey = true)
    (invalidSession "members must be bounded, unique, sorted Falcon keys")

def encode (env : HandoffEnv) (s : Session) : Result Bytes := do
  s.validate env
  let filter ← putBytes s.filter
  let members ← s.members.mapM putBytes
  let out := asciiBytes "QHSS\x01" ++ s.chainId.bytes ++ filter ++ beBytes 8 s.generation ++
    s.genesis.bytes ++ beBytes 8 s.baseFrame ++ s.authorization.bytes ++ beBytes 4 s.members.length ++
    members.flatten
  ensure (out.length ≤ maxRecordBytes) (invalidSession "session exceeds size limit")
  return out

def id (env : HandoffEnv) (s : Session) : Result Bytes32 := do
  return env.sha256 (← s.encode env)

/-- Generation zero signs in the namespace deployed before sessions. -/
def namespaceBytes (env : HandoffEnv) (s : Session) : Result Bytes := do
  s.validate env
  if s.generation = 0 then
    return asciiBytes "appshard" ++ s.filter
  else
    return asciiBytes "quil/app/simplex/session/v1/" ++ (← s.id env).bytes

end Session

structure Checkpoint where
  frame : Nat
  view : Nat
  digest : Bytes32
  stateRoots : List Bytes32
  historyRoot : Bytes32
  deriving DecidableEq

def Checkpoint.write (c : Checkpoint) : Bytes :=
  beBytes 8 c.frame ++ beBytes 8 c.view ++ c.digest.bytes ++ c.stateRoots.flatMap Bytes32.bytes ++
    c.historyRoot.bytes

/-- The four roots of a checkpoint that certifies none. -/
def zeroRoots : List Bytes32 := List.replicate 4 0

structure Seal where
  request : Bytes32
  session : Bytes32
  view : Nat
  checkpoint : Checkpoint
  deriving DecidableEq

namespace Seal

def encode (s : Seal) : Bytes :=
  asciiBytes "QHSL\x01" ++ s.request.bytes ++ s.session.bytes ++ beBytes 8 s.view ++ s.checkpoint.write

def digest (env : HandoffEnv) (s : Seal) : Bytes32 := env.sha256 s.encode

/-- `validate_with`; `baseReseal` accepts a seal that extends a notarized seal at the
session's base. -/
def validateWith (env : HandoffEnv) (s : Seal) (session : Session) (request : Bytes32)
    (baseReseal : Bool) : Result Unit := do
  ensure (s.session = (← session.id env) ∧ s.request = request)
    (invalidSession "seal belongs to another request or session")
  ensure (s.checkpoint.view < s.view ∧ session.baseFrame ≤ s.checkpoint.frame)
    (invalidSession "seal regresses its checkpoint")
  if s.checkpoint.frame = session.baseFrame then
    ensure ((s.checkpoint.view = 0 ∨ (baseReseal = true ∧ session.generation ≠ 0)) ∧
        s.checkpoint.digest = session.genesis)
      (invalidSession "seal changes the authorized genesis")
  else
    ensure (s.checkpoint.view ≠ 0)
      (invalidSession "a materialized data frame must have a nonzero view")

end Seal

structure CertificateSubmission where
  closingSeal : Seal
  certificate : Bytes
  deriving DecidableEq

/-- The length limit of `to_canonical_bytes`. -/
def CertificateSubmission.toCanonicalBytes (x : CertificateSubmission) : Result Bytes := do
  let closing ← putBytes x.closingSeal.encode
  let certificate ← putBytes x.certificate
  let out := beBytes 4 0x0321 ++ closing ++ certificate
  ensure (out.length ≤ maxRecordBytes) (invalid "certificate submission exceeds size limit")
  return out

/-- `verify_seal_with`: the seal is valid and the session's members finalized it in its
own round. -/
def verifySealWith (env : HandoffEnv) (session : Session) (request : Bytes32) (closing : Seal)
    (certificate : Bytes) (baseReseal : Bool) : Bool :=
  if maxRecordBytes < certificate.length then false
  else
    match closing.validateWith env session request baseReseal, session.namespaceBytes env with
    | .ok _, .ok signing =>
      match env.verifyFinalization certificate session.members signing (closing.digest env) with
      | some (epoch, view, parent) =>
        epoch == session.generation && view == closing.view && parent == closing.checkpoint.view
      | none => false
    | _, _ => false

structure DesiredCommittee where
  filter : Bytes
  members : List Bytes
  deriving DecidableEq

structure Target where
  committee : DesiredCommittee
  generation : Nat
  previous : Option Bytes32
  deriving DecidableEq

structure Request where
  frame : Nat
  sources : List Session
  vacant : List Bytes
  targets : List Target
  deriving DecidableEq

/-- Replace sibling paths by their parent until none are left; every round removes a path. -/
def reduceSiblings : Nat → List (List Bool) → List (List Bool)
  | 0, paths => paths
  | fuel + 1, paths =>
    match paths.find? fun path =>
      path.getLast? == some false && paths.contains (path.dropLast ++ [true]) with
    | none => paths
    | some left =>
      let rest := (paths.erase left).erase (left.dropLast ++ [true])
      reduceSiblings fuel (if left.dropLast ∈ rest then rest
        else rest.orderedInsert (· ≤ ·) left.dropLast)

/-- A path is a prefix of the next. -/
def overlapping : List (List Bool) → Bool
  | a :: b :: rest => a.isPrefixOf b || overlapping (b :: rest)
  | _ => false

/-- `partition`: the range the filters cover, as siblings reduced to parents. -/
def partition (filters : List Bytes) : Result (Bytes × List (List Bool)) := do
  let app ← okOr (filters.head?.bind fun filter =>
    if 32 ≤ filter.length then some (filter.take 32) else none) (invalid "empty partition")
  let paths ← filters.foldlM (fun paths filter => do
    ensure (32 ≤ filter.length ∧ filter.take 32 = app) (invalid "transition spans applications")
    ensure (¬ (filter.length = 33 ∧ 64 ≤ (filter.getD 32 0).toNat))
      (invalid "legacy shard index exceeds the 64-way grid")
    let (_, path) ← okOr (decodeShardFilterOrRoot filter 32) (invalid "invalid shard filter")
    ensure (path.length ≤ 256 ∧ path ∉ paths) (invalid "duplicate shard range")
    return paths.orderedInsert (· ≤ ·) path) ([] : List (List Bool))
  ensure (overlapping paths = false) (invalid "overlapping shard ranges")
  return (app, reduceSiblings paths.length paths)

namespace Request

def validateTarget (env : HandoffEnv) (chain : Bytes32) (target : Target) : Result Unit := do
  ensure (target.generation ≠ 0) (invalid "successor generation cannot be zero")
  if target.committee.members = [] then
    ensure (32 ≤ target.committee.filter.length ∧ target.committee.filter.length ≤ maxFilterBytes)
      (invalid "invalid vacant target filter")
  else
    Session.validate env
      ⟨chain, target.committee.filter, target.generation, 0, 0, 0, target.committee.members⟩

def validate (env : HandoffEnv) (r : Request) : Result Unit := do
  ensure (r.frame ≠ 0 ∧ r.sources ≠ [] ∧ r.targets ≠ [] ∧
      r.sources.length ≤ maxTransitionShards ∧ r.targets.length ≤ maxTransitionShards ∧
      r.vacant.length ≤ maxTransitionShards ∧ ascending r.vacant = true ∧
      ¬ (∀ target ∈ r.targets, target.committee.members = []) ∧
      ascending (r.sources.map Session.filter) = true ∧
      ascending (r.targets.map fun target => target.committee.filter) = true)
    (invalid "noncanonical transition")
  let chain ← okOr (r.sources.head?.map Session.chainId) (invalid "noncanonical transition")
  r.sources.forM fun source => do
    source.validate env
    ensure (source.chainId = chain) (invalid "sources belong to different chains")
  r.targets.forM (validateTarget env chain)
  let old ← partition (r.sources.map Session.filter ++ r.vacant)
  let new ← partition (r.targets.map fun target => target.committee.filter)
  ensure (old = new) (invalid "transition changes its covered address range")

def encodeTarget (target : Target) : Result Bytes := do
  let filter ← putBytes target.committee.filter
  let members ← target.committee.members.mapM putBytes
  let previous := match target.previous with
    | some id => 1 :: id.bytes
    | none => [0]
  return filter ++ beBytes 8 target.generation ++ previous ++
    beBytes 4 target.committee.members.length ++ members.flatten

def encode (env : HandoffEnv) (r : Request) : Result Bytes := do
  r.validate env
  let sources ← r.sources.mapM fun source => do putBytes (← source.encode env)
  let targets ← r.targets.mapM encodeTarget
  let vacant ← r.vacant.mapM putBytes
  let out := asciiBytes "QHRQ\x01" ++ beBytes 8 r.frame ++ beBytes 4 r.sources.length ++
    sources.flatten ++ beBytes 4 r.targets.length ++ targets.flatten ++
    beBytes 4 r.vacant.length ++ vacant.flatten
  ensure (out.length ≤ maxRecordBytes) (invalid "request exceeds size limit")
  return out

def id (env : HandoffEnv) (r : Request) : Result Bytes32 := do
  return env.sha256 (← r.encode env)

end Request

end Handoff

import QuilNode.Forest.ShardFilter
import QuilNode.Global.Allocation
import QuilNode.Lib.OrdMap

/-!
# Shard splits and merges (`global_intrinsic`)

A split or a merge is proposed in an epoch `E` and waits as a pending change; its topology is
flipped by the first frame of an epoch from `E + 2` on.  The proposal is checked against its own
parent only; a split whose parent is no longer live by then is consumed without effect.
-/

namespace Global

open Results Forest

/-- An `AddressedSignature`. -/
structure AddressedSignature where
  signature : Bytes
  address : Bytes

structure ShardSplit where
  shardAddress : Bytes
  proposedShards : List Bytes
  frameNumber : Nat
  publicKeySignature : Option AddressedSignature

structure ShardMerge where
  shardAddresses : List Bytes
  parentAddress : Bytes
  frameNumber : Nat
  publicKeySignature : Option AddressedSignature

/-- The cutover frame, the epoch length override, and whether the node has a shards
store to write to. -/
structure ShardConfig where
  unifiedTreeCutoverFrame : Nat
  epochOverride : Nat
  metadataWrites : Bool

/-- What the checks of a proposal ask of the node: the proposer's vertex, its signature, and whether
it is an active GLOBAL prover. -/
structure ProposerEnv where
  get : Bytes → Result (Option Bytes)
  verifyAddressed : Bytes → AddressedSignature → Bytes → String → Result Bool
  activeGlobal : Bytes → Bool

/-- The checks of one child, in the form the frame asks for.  `op` and `legacy` are the texts in
which splits and merges differ. -/
def verifyChild (op legacy : String) (bitPathMode : Bool) (parent child : Bytes) : Result Unit :=
  if bitPathMode then do
    ensure (shardFilterExtends child parent 32)
      (.invalidArgument (op ++ ": bit-path child must extend parent bit-path"))
    ensure (decodeShardBitPath child 32).isSome
      (.invalidArgument (op ++ ": malformed bit-path child filter"))
  else do
    ensure (child.length = parent.length + 1 ∨ child.length = parent.length + 2)
      (.invalidArgument (op ++ ": " ++ legacy ++ " length " ++ toString child.length ++
        " invalid for parent length " ++ toString parent.length))
    ensure (parent <+: child)
      (.invalidArgument (op ++ ": " ++ legacy ++ " must share parent prefix"))

/-- `verify_shard_split`. -/
def verifyShardSplit (config : ShardConfig) (env : ProposerEnv) (proverData : Bytes)
    (op : ShardSplit) : Result Bool := do
  ensure (32 ≤ op.shardAddress.length ∧ op.shardAddress.length ≤ 63)
    (.invalidArgument ("shard split: shard_address must be 32-63 bytes, got " ++
      toString op.shardAddress.length))
  ensure (2 ≤ op.proposedShards.length ∧ op.proposedShards.length ≤ 8)
    (.invalidArgument ("shard split: proposed_shards must have 2-8 entries, got " ++
      toString op.proposedShards.length))
  let bitPathMode := decide (config.unifiedTreeCutoverFrame ≤ op.frameNumber)
  op.proposedShards.forM (verifyChild "shard split" "proposed shard" bitPathMode op.shardAddress)
  let sig ← okOr op.publicKeySignature (.invalidArgument "shard split: missing signature")
  env.verifyAddressed proverData sig (beBytes 8 op.frameNumber ++ op.shardAddress) "SHARD_SPLIT"

/-- `verify_shard_merge`. -/
def verifyShardMerge (config : ShardConfig) (env : ProposerEnv) (proverData : Bytes)
    (op : ShardMerge) : Result Bool := do
  ensure (32 ≤ op.parentAddress.length ∧ op.parentAddress.length ≤ 63)
    (.invalidArgument ("shard merge: parent_address must be 32-63 bytes, got " ++
      toString op.parentAddress.length))
  ensure (2 ≤ op.shardAddresses.length ∧ op.shardAddresses.length ≤ 8)
    (.invalidArgument ("shard merge: shard_addresses must have 2-8 entries, got " ++
      toString op.shardAddresses.length))
  let bitPathMode := decide (config.unifiedTreeCutoverFrame ≤ op.frameNumber)
  op.shardAddresses.forM (verifyChild "shard merge" "child shard" bitPathMode op.parentAddress)
  let sig ← okOr op.publicKeySignature (.invalidArgument "shard merge: missing signature")
  env.verifyAddressed proverData sig (beBytes 8 op.frameNumber ++ op.parentAddress) "SHARD_MERGE"

/-- `longest_common_bit_prefix`. -/
def longestCommonBitPrefix : List (List Bool) → List Bool
  | [] => []
  | first :: rest => rest.foldl (fun common path =>
    common.take ((common.zip path).takeWhile fun pair => pair.1 == pair.2).length) first

/-- Rows are named by their application and their levels. -/
abbrev ShardRow := Bytes × List UInt32

structure ShardSplitOutput where
  newShards : List ShardRow
  removedParent : Option ShardRow
  deriving DecidableEq

structure ShardMergeOutput where
  removedShards : List ShardRow
  addedParent : Option ShardRow
  deriving DecidableEq

/-- One child of a change in bit-path form. -/
def bitPathChild (op : String) (parent child : Bytes) : Result (Bytes × List Bool) := do
  ensure (shardFilterExtends child parent 32)
    (.invalidArgument (op ++ ": bit-path child must extend parent bit-path"))
  okOr (decodeShardBitPath child 32) (.invalidArgument (op ++ ": malformed bit-path child filter"))

/-- The row of an older, byte-suffix filter. -/
def byteSuffixRow (filter : Bytes) : ShardRow :=
  (filter.take 32, (filter.drop 32).map UInt8.toUInt32)

/-- `materialize_shard_split`. -/
def materializeShardSplit (shardAddress : Bytes) (proposedShards : List Bytes)
    (bitPathMode : Bool) : Result ShardSplitOutput := do
  ensure (32 ≤ shardAddress.length)
    (.invalidArgument "materialize shard split: shard_address must be >= 32 bytes")
  ensure (2 ≤ proposedShards.length)
    (.invalidArgument "materialize shard split: need at least 2 proposed shards")
  if bitPathMode then
    let children ← proposedShards.mapM (bitPathChild "materialize shard split" shardAddress)
    let (app, parentBits) ← okOr (decodeShardFilterOrRoot shardAddress 32)
      (.invalidArgument "materialize shard split: bad parent filter")
    -- the siblings passed on the way down to where the children branch
    let branch := longestCommonBitPrefix (children.map Prod.snd)
    let spine := (splitSpineSiblings parentBits branch).map fun path => (app, bitPathToPrefix path)
    return ⟨children.map (fun child => (child.1, bitPathToPrefix child.2)) ++ spine,
      some (app, bitPathToPrefix parentBits)⟩
  else
    let rows ← proposedShards.mapM fun proposed => do
      ensure (32 ≤ proposed.length)
        (.invalidArgument "materialize shard split: proposed shard must be >= 32 bytes")
      ensure (shardAddress <+: proposed)
        (.invalidArgument "materialize shard split: proposed shard must share parent prefix")
      return byteSuffixRow proposed
    return ⟨rows, none⟩

/-- `materialize_shard_merge`. -/
def materializeShardMerge (shardAddresses : List Bytes) (parentAddress : Bytes)
    (bitPathMode : Bool) : Result ShardMergeOutput := do
  ensure (32 ≤ parentAddress.length ∧ parentAddress.length ≤ 63)
    (.invalidArgument "materialize shard merge: parent_address must be 32-63 bytes")
  ensure (2 ≤ shardAddresses.length)
    (.invalidArgument "materialize shard merge: need at least 2 shard addresses")
  if bitPathMode then
    let children ← shardAddresses.mapM (bitPathChild "materialize shard merge" parentAddress)
    let (app, parentBits) ← okOr (decodeShardFilterOrRoot parentAddress 32)
      (.invalidArgument "materialize shard merge: bad parent filter")
    return ⟨children.map fun child => (child.1, bitPathToPrefix child.2),
      some (app, bitPathToPrefix parentBits)⟩
  else
    let rows ← shardAddresses.mapM fun child => do
      ensure (child.length = parentAddress.length + 1 ∨ child.length = parentAddress.length + 2)
        (.invalidArgument
          "materialize shard merge: child shard must be parent length + 1 or + 2 bytes")
      ensure (parentAddress <+: child)
        (.invalidArgument "materialize shard merge: shard must share parent address prefix")
      return byteSuffixRow child
    return ⟨rows, none⟩

/-- The rows each application has registered, each once, in order. -/
abbrev Grid := Bytes → List (List UInt32)

/-- `put_app_shard`. -/
def Grid.put (grid : Grid) (row : ShardRow) : Grid :=
  Function.update grid row.1
    (if row.2 ∈ grid row.1 then grid row.1 else (grid row.1).orderedInsert (· ≤ ·) row.2)

/-- `delete_app_shard`; deleting a row that is not there does nothing. -/
def Grid.delete (grid : Grid) (row : ShardRow) : Grid :=
  Function.update grid row.1 ((grid row.1).filter (· ≠ row.2))

/-- `migrate_app_shards_to_sentinel`: unless every row spells its path out, replace each by its
canonical path spelled out. -/
def migrateAppShardsToSentinel (grid : Grid) (app : Bytes) : Grid :=
  let rows := grid app
  if rows.all fun row => (shardBitPathFromPrefix row).isSome then grid
  else (rows.zip (canonicalShardBitPaths rows)).foldl (fun grid migrated =>
    (grid.delete (app, migrated.1)).put (app, bitPathToPrefix migrated.2)) grid

inductive ShardChangeKind where
  | split
  | merge
  deriving DecidableEq

structure PendingShardChange where
  kind : ShardChangeKind
  parent : Bytes
  children : List Bytes
  effectiveEpoch : Nat
  proposedFrame : Nat
  deriving DecidableEq

/-- `pending_change_key`: the effective epoch, then the parent. -/
def pendingChangeKey (effectiveEpoch : Nat) (parent : Bytes) : List Nat :=
  effectiveEpoch :: parent.map UInt8.toNat

/-- The grid, the changes that wait, and the frame whose due changes were last
applied. -/
structure Topology where
  grid : Grid
  pending : OrdMap (List Nat) PendingShardChange
  dueFrame : Option Nat

/-- `put_pending_shard_change`: one change for each epoch and parent. -/
def Topology.putPending (s : Topology) (change : PendingShardChange) : Topology :=
  { s with pending :=
      s.pending.insert (pendingChangeKey change.effectiveEpoch change.parent) change }

/-- Shared by `invoke_shard_split` and `invoke_shard_merge`: the proposer is known, its proposal
verifies, and it is an active GLOBAL prover. -/
def checkProposer (op : String) (env : ProposerEnv) (sig : Option AddressedSignature)
    (verify : Bytes → Result Bool) : Result Unit := do
  let sig ← okOr sig (.invalidArgument (op ++ ": missing signature"))
  let proverData ← okOr (← env.get sig.address) (.invalidArgument (op ++ ": prover not found"))
  ensure (proverData ≠ []) (.invalidArgument (op ++ ": prover has no data"))
  let valid ← verify proverData
  ensure (valid = true) (.invalidArgument (op ++ ": signature verification failed"))
  ensure (env.activeGlobal proverData = true)
    (.invalidArgument (op ++ ": proposer is not an active global prover"))

/-- `invoke_shard_split`. -/
def invokeShardSplit (config : ShardConfig) (env : ProposerEnv) (frameNumber : Nat)
    (op : ShardSplit) (s : Topology) : Result Topology := do
  checkProposer "invoke_shard_split" env op.publicKeySignature (verifyShardSplit config env · op)
  let _ ← materializeShardSplit op.shardAddress op.proposedShards
    (config.unifiedTreeCutoverFrame ≤ frameNumber)
  if config.metadataWrites then
    return s.putPending ⟨.split, op.shardAddress, op.proposedShards,
      epochForFrame config.epochOverride frameNumber + 2, frameNumber⟩
  else return s

/-- `invoke_shard_merge`. -/
def invokeShardMerge (config : ShardConfig) (env : ProposerEnv) (frameNumber : Nat)
    (op : ShardMerge) (s : Topology) : Result Topology := do
  checkProposer "invoke_shard_merge" env op.publicKeySignature (verifyShardMerge config env · op)
  let _ ← materializeShardMerge op.shardAddresses op.parentAddress
    (config.unifiedTreeCutoverFrame ≤ frameNumber)
  if config.metadataWrites then
    return s.putPending ⟨.merge, op.parentAddress, op.shardAddresses,
      epochForFrame config.epochOverride frameNumber + 2, frameNumber⟩
  else return s

/-- What a flip asks of the node: moving allocations, raising the placement width of coins, and
reconciling coin blocks and committee sessions. -/
structure FlipEnv where
  reassignShardAllocations : PendingShardChange → Result Unit
  raisePlacementWidth : Bytes → Nat → Result Unit
  reconcile : List (Bytes × List Bool) → Result Unit

/-- The loop over the due changes.  `live` starts as the paths of the grid; only splits keep it up
to date. -/
structure Flip where
  grid : Grid
  live : Bytes → List (List Bool)
  pending : OrdMap (List Nat) PendingShardChange
  flipped : List (Bytes × List Bool)

/-- The paths of the registered rows. -/
def Grid.paths (grid : Grid) : Bytes → List (List Bool) := fun app => (grid app).map canonBits

/-- The parent of a split is live, or the split names none. -/
def parentLive (live : Bytes → List (List Bool)) (removed : Option ShardRow) : Bool :=
  match removed with
  | some row => canonBits row.2 ∈ live row.1
  | none => true

/-- The form the children of a change were proposed in. -/
def PendingShardChange.bitPathMode (config : ShardConfig) (change : PendingShardChange) : Bool :=
  config.unifiedTreeCutoverFrame ≤ change.proposedFrame

/-- `stale_split`. -/
def staleSplit (config : ShardConfig) (live : Bytes → List (List Bool))
    (change : PendingShardChange) : Result Bool :=
  match change.kind with
  | .merge => .ok false
  | .split => do
    let output ← materializeShardSplit change.parent change.children (change.bitPathMode config)
    return !parentLive live output.removedParent

/-- Register a child of a split. -/
def Flip.register (s : Flip) (row : ShardRow) : Flip :=
  { s with
    grid := s.grid.put row
    live := Function.update s.live row.1 (canonBits row.2 :: s.live row.1) }

/-- A row of the grid is taken out. -/
def Flip.remove (s : Flip) (row : ShardRow) : Flip :=
  { s with
    grid := s.grid.delete row
    flipped := if 32 ≤ row.1.length then s.flipped ++ [(row.1.take 32, canonBits row.2)]
      else s.flipped }

/-- The row is no longer live. -/
def Flip.unlive (s : Flip) (row : ShardRow) : Flip :=
  { s with live :=
      Function.update s.live row.1 ((s.live row.1).filter fun path => path ≠ canonBits row.2) }

/-- The split branch of the loop. -/
def applySplit (config : ShardConfig) (env : FlipEnv) (s : Flip) (change : PendingShardChange) :
    Result Flip := do
  let output ← materializeShardSplit change.parent change.children (change.bitPathMode config)
  if parentLive s.live output.removedParent then
    let grid := if change.bitPathMode config = true ∧ 32 ≤ change.parent.length then
      migrateAppShardsToSentinel s.grid (change.parent.take 32) else s.grid
    let s := output.newShards.foldl Flip.register { s with grid }
    (if 32 ≤ change.parent.length then
      env.raisePlacementWidth (change.parent.take 32)
        ((output.newShards.map fun row => (canonBits row.2).length).foldl max 0)
      else .ok ())
    match output.removedParent with
    | some row => return (s.remove row).unlive row
    | none => return s
  else return s

/-- The merge branch of the loop. -/
def applyMerge (config : ShardConfig) (s : Flip) (change : PendingShardChange) : Result Flip := do
  let output ← materializeShardMerge change.children change.parent (change.bitPathMode config)
  let s := output.removedShards.foldl Flip.remove s
  match output.addedParent with
  | some row => return { s with grid := s.grid.put row }
  | none => return s

/-- One round of the loop; the pending record is consumed also where a stale split
does nothing. -/
def applyChange (config : ShardConfig) (env : FlipEnv) (s : Flip) (change : PendingShardChange) :
    Result Flip := do
  let s ← (match change.kind with
    | .split => applySplit config env s change
    | .merge => applyMerge config s change)
  return { s with
    pending := s.pending.erase (pendingChangeKey change.effectiveEpoch change.parent) }

/-- The changes an epoch has reached, in key order. -/
def Topology.due (config : ShardConfig) (s : Topology) (frameNumber : Nat) :
    List PendingShardChange :=
  (s.pending.entries.map Prod.snd).filter fun change =>
    change.effectiveEpoch ≤ epochForFrame config.epochOverride frameNumber

/-- `apply_due_shard_changes_inner` where no committee handoff policy is set. -/
def applyDueShardChangesInner (config : ShardConfig) (env : FlipEnv) (frameNumber : Nat)
    (s : Topology) : Result (Topology × List (Bytes × List Bool)) := do
  if config.metadataWrites = false then
    return (s, [])
  let due := s.due config frameNumber
  let live := s.grid.paths
  due.forM fun change => do
    if ← staleSplit config live change then pure () else env.reassignShardAllocations change
  let flip ← due.foldlM (applyChange config env) ⟨s.grid, live, s.pending, []⟩
  return ({ s with grid := flip.grid, pending := flip.pending }, flip.flipped)

/-- `apply_due_shard_changes`: once for each frame. -/
def applyDueShardChanges (config : ShardConfig) (env : FlipEnv) (frameNumber : Nat)
    (s : Topology) : Result Topology := do
  if s.dueFrame = some frameNumber then
    return s
  let (s, flipped) ← applyDueShardChangesInner config env frameNumber s
  env.reconcile flipped
  return { s with dueFrame := some frameNumber }

/-- What the node does to the topology. -/
inductive TopologyCall where
  | split (env : ProposerEnv) (frame : Nat) (op : ShardSplit)
  | merge (env : ProposerEnv) (frame : Nat) (op : ShardMerge)
  | applyDue (env : FlipEnv) (frame : Nat)

/-- The call's own effect, or its error. -/
def topologyCall (config : ShardConfig) (s : Topology) : TopologyCall → Result Topology
  | .split env frame op => invokeShardSplit config env frame op s
  | .merge env frame op => invokeShardMerge config env frame op s
  | .applyDue env frame => applyDueShardChanges config env frame s

/-- One call; what fails is rolled back. -/
def topologyStep (config : ShardConfig) (s : Topology) (call : TopologyCall) :
    Result Unit × Topology :=
  match topologyCall config s call with
  | .ok s' => (.ok (), s')
  | .error error => (.error error, s)

end Global

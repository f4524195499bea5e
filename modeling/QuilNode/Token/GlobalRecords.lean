import QuilNode.Lib.Store
import QuilNode.Token.CoinBlocks

/-!
# The GLOBAL records of a confidential application (`token_intrinsic/global_commit.rs`)

The global commit keeps one record per fact it decides.  The source addresses each record by a
domain-separated hash; here an address is a constructor of `RecordAddress`, which is the assumption
that record addresses are collision free.
-/

namespace Token

open CoinBlocks

/-- The bit path of the shard a frame executed on; `unknown` is a filter that could not be decoded.
-/
inductive ShardPath where
  | unknown
  | known (bits : List Bool)
  deriving DecidableEq

namespace ShardPath

/-- The path's bits, or `none` for `unknown`. -/
def bits : ShardPath → Option (List Bool)
  | unknown => none
  | known bits => some bits

end ShardPath

/-- What the global materializer needs to write one settlement record. -/
structure SettlementEntry where
  receipt : Bytes32
  parameterContext : Bytes32
  destination : Bytes32
  context : Bytes32
  settlement : Nat
  paymentAddress : Bytes32
  payment : Nat
  claimant : Bytes32
  deriving DecidableEq

namespace GlobalCommit

/-- The two delivery queues of a block.  The source writes each queue function twice, for coins and
for escrows, with the same body. -/
inductive Lane where
  | coin
  | escrow
  deriving DecidableEq

/-- An operation decision: committed or rejected, at which frame, and why. -/
structure Decision where
  committed : Bool
  frame : Nat
  reason : String
  deriving DecidableEq

/-- An escrow record: binding digest, refund frame, open or consumed. -/
structure EscrowRecord where
  binding : Bytes32
  refundAfter : Nat
  consumed : Bool
  deriving DecidableEq

/-- A committed output or escrow awaiting delivery to the owner of its block. -/
structure Delivery where
  address : Bytes32
  sourceFrame : Nat
  txId : Bytes32
  sourceShard : ShardPath
  deriving DecidableEq

/-- What a delivery address holds: a delivery, or the mark that it was
re-placed at `(target, seq)`. -/
inductive DeliveryRecord where
  | live (delivery : Delivery)
  | moved (addr : Bytes32) (target seq : Nat)
  deriving DecidableEq

/-- A block split deeper than its width while outputs were undelivered. -/
structure Orphan where
  since : Nat
  moved : Bool
  coins : Nat
  escrows : Nat
  deriving DecidableEq

/-- What a commit reads of the root history: the context it was published under and the retained
digests, oldest first. -/
structure RootHistory where
  context : Bytes32
  digests : List Bytes32
  deriving DecidableEq

/-- The record addresses. -/
inductive RecordAddress where
  | context (app : Bytes32)
  | consumed (app marker : Bytes32)
  | decision (app txId : Bytes32)
  | escrow (app escrow : Bytes32)
  | sequence (lane : Lane) (app : Bytes32) (block : Nat)
  | delivery (lane : Lane) (app : Bytes32) (block seq : Nat)
  | placementWidth (app : Bytes32)
  | orphan (app : Bytes32) (block : Nat)
  | rootHistory (app : Bytes32)
  | settlement (receipt : Bytes32)
  deriving DecidableEq

/-- The record an address holds. -/
abbrev RecordOf : RecordAddress → Type
  | .context _ => Bytes32
  | .consumed _ _ => Bytes32
  | .decision _ _ => Decision
  | .escrow _ _ => EscrowRecord
  | .sequence _ _ _ => Nat
  | .delivery _ _ _ _ => DeliveryRecord
  | .placementWidth _ => Nat
  | .orphan _ _ => Orphan
  | .rootHistory _ => RootHistory
  | .settlement _ => SettlementEntry

/-- The GLOBAL records. -/
abbrev Records := Store RecordAddress RecordOf

section Reads

variable (records : Records) (app : Bytes32)

def isDecided (txId : Bytes32) : Bool :=
  (records (.decision app txId)).isSome

def isConsumed (marker : Bytes32) : Bool :=
  (records (.consumed app marker)).isSome

def escrow (addr : Bytes32) : Option EscrowRecord :=
  records (.escrow app addr)

def orphan (block : Nat) : Option Orphan :=
  records (.orphan app block)

/-- The next sequence of a block's queue: how many were committed to it. -/
def laneSequence (lane : Lane) (block : Nat) : Nat :=
  (records (.sequence lane app block)).getD 0

def blockSequence (block : Nat) : Nat :=
  laneSequence records app .coin block

def escrowSequence (block : Nat) : Nat :=
  laneSequence records app .escrow block

/-- The delivery a record names.  A re-placed output is delivered from its new block; its old record
names none. -/
def readDelivery (lane : Lane) (block seq : Nat) : Option Delivery :=
  match records (.delivery lane app block seq) with
  | some (.live delivery) => some delivery
  | some (.moved _ _ _) => none
  | none => none

def delivery (block seq : Nat) : Option Delivery :=
  readDelivery records app .coin block seq

def escrowDelivery (block seq : Nat) : Option Delivery :=
  readDelivery records app .escrow block seq

/-- The block width new coins and escrows are placed at. -/
def placementWidth : Result Nat :=
  let width := (records (.placementWidth app)).getD CoinBlocks.initialBlockBits
  if CoinBlocks.initialBlockBits ≤ width ∧ width ≤ CoinBlocks.maxBlockBits then
    .ok width
  else
    .error (.store "placement width record outside the accumulator's range")

end Reads

section Writes

variable (records : Records) (app : Bytes32) (lane : Lane)

def writeDelivery (block seq : Nat) (record : DeliveryRecord) : Records :=
  records.write (.delivery lane app block seq) record

def writeSequence (block next : Nat) : Records :=
  records.write (.sequence lane app block) next

end Writes

/-- Ensure placement is at least `shardDepth` wide; it only ever rises. -/
def raisePlacementWidth (records : Records) (app : Bytes32)
    (shardDepth : Nat) : Result Nat × Records :=
  match placementWidth records app with
  | .error e => (.error e, records)
  | .ok current =>
    let wanted := min shardDepth CoinBlocks.maxBlockBits
    if wanted ≤ current then (.ok current, records)
    else (.ok wanted, records.write (.placementWidth app) wanted)

variable {records : Records} {app : Bytes32}

/-- A width the records give is inside the accumulator's range. -/
theorem placementWidth_range {width : Nat} (h : placementWidth records app = .ok width) :
    initialBlockBits ≤ width ∧ width ≤ maxBlockBits := by
  simp only [placementWidth] at h
  split at h
  · cases h; assumption
  · cases h

/-- The width depends on its own record only. -/
theorem placementWidth_congr {records' : Records}
    (h : records' (.placementWidth app) = records (.placementWidth app)) :
    placementWidth records' app = placementWidth records app := by
  simp only [placementWidth, h]

/-- **Raising the width** succeeds exactly when the width can be read, and leaves the maximum of the
two. -/
theorem raisePlacementWidth_ok {records' : Records} {shardDepth width : Nat}
    (h : raisePlacementWidth records app shardDepth = (.ok width, records')) :
    ∃ current, placementWidth records app = .ok current ∧
      width = max current (min shardDepth maxBlockBits) ∧
      placementWidth records' app = .ok width ∧
      records' = if width = current then records
        else records.write (.placementWidth app) width := by
  unfold raisePlacementWidth at h
  split at h
  · cases h
  rename_i current hcurrent
  have hrange := placementWidth_range hcurrent
  simp only at h
  split at h
  · cases h
    exact ⟨width, hcurrent, by omega, hcurrent, by simp⟩
  · cases h
    refine ⟨current, hcurrent, by omega, ?_, ?_⟩
    · have : initialBlockBits ≤ min shardDepth maxBlockBits := by
        omega
      simp [placementWidth, this]
    · rw [if_neg (by omega)]

/-- A failed raise writes nothing. -/
theorem raisePlacementWidth_error {records' : Records} {shardDepth : Nat} {e : QuilError}
    (h : raisePlacementWidth records app shardDepth = (.error e, records')) :
    records' = records := by
  unfold raisePlacementWidth at h
  split at h
  · cases h; rfl
  · simp only at h
    split at h <;> cases h

end GlobalCommit

end Token

import QuilNode.Lib.OrdMap
import QuilNode.Token.GlobalRecords

/-!
# The global commit (`token_intrinsic/global_commit.rs`)

`commitEntry` decides one relayed entry: it validates the entry, answers `alreadyDecided` for an
operation with a decision record, runs its checks in the source's order, and on success marks
everything the entry consumes, opens or closes an escrow and appends each output to the queue of
the block its address selects.  A call that is refused can have written the context record or the
placement width.
-/

namespace Token

namespace GlobalCommit

/-- Consume-once markers one operation may spend. -/
def maxConsumptionsDefault : Nat := 16

/-- Sources of one batch shield. -/
def maxShieldSources : Nat := 96

def typeLatticeShield : Nat := 0x0516

/-- Consumptions one entry may carry at GLOBAL frame `frame`; batch shields are
active from `shieldFrame`. -/
def maxConsumptions (shieldFrame kind frame : Nat) : Nat :=
  if kind = typeLatticeShield ∧ shieldFrame ≤ frame then maxShieldSources
  else maxConsumptionsDefault

/-- Outputs one operation may create. -/
def maxOutputs : Nat := 16

/-- Deliveries a block can ever receive: its local index space. -/
def blockCapacity : Nat := 1 <<< CoinBlocks.subtreeBits

def invalid (msg : String) : QuilError :=
  .invalidArgument ("spend entry: " ++ msg)

/-- An escrow the operation creates. -/
structure EscrowCreate where
  address : Bytes32
  binding : Bytes32
  refundAfterGlobalFrame : Nat
  deriving DecidableEq

/-- An escrow the operation claims; `refund` claims its refund branch. -/
structure EscrowClaim where
  address : Bytes32
  binding : Bytes32
  refund : Bool
  deriving DecidableEq

/-- What an executing shard relays for one verified confidential operation. -/
structure SpendEntry where
  kind : Nat
  txId : Bytes32
  sourceFrame : Nat
  context : Bytes32
  rootDigest : Option Bytes32
  consumptions : List Bytes32
  outputs : List Bytes32
  escrowCreate : Option EscrowCreate
  escrowClaim : Option EscrowClaim
  fee : Nat
  settlement : Option SettlementEntry
  deriving DecidableEq

/-- Structural bounds at GLOBAL frame `frame`. -/
def SpendEntry.validateAt (entry : SpendEntry) (shieldFrame frame : Nat) : Result Unit :=
  if maxConsumptions shieldFrame entry.kind frame < entry.consumptions.length ∨
      maxOutputs < entry.outputs.length then
    .error (invalid "too many consumptions or outputs")
  else if ¬ entry.consumptions.Nodup ∨ ¬ entry.outputs.Nodup then
    .error (invalid "repeated consumption or output")
  else if entry.consumptions.isEmpty ∧ entry.escrowClaim.isNone then
    .error (invalid "an operation consumes something")
  else if entry.escrowCreate.isSome ∧ entry.escrowClaim.isSome then
    .error (invalid "one operation cannot create and claim an escrow")
  else
    .ok ()

/-- Where a committed output was placed. -/
structure Placement where
  address : Bytes32
  block : Nat
  seq : Nat
  deriving DecidableEq

/-- The reasons an entry is rejected for. -/
inductive RejectReason where
  | contextDiffers
  | rootNotRetained
  | alreadyConsumed
  | escrowMissing
  | escrowConsumed
  | claimMismatch
  | refundTooEarly
  | escrowExists
  | blockFull
  deriving DecidableEq

/-- The text a rejection carries and its decision record keeps. -/
def RejectReason.text : RejectReason → String
  | contextDiffers => "context differs from the application's"
  | rootNotRetained => "root is not in the application's canonical history"
  | alreadyConsumed => "already consumed"
  | escrowMissing => "escrow does not exist"
  | escrowConsumed => "escrow already consumed"
  | claimMismatch => "claim does not match the escrow"
  | refundTooEarly => "refund before the escrow's refund frame"
  | escrowExists => "escrow already exists"
  | blockFull => "block is full"

inductive Outcome where
  /-- Decided by an earlier relay of the same operation. -/
  | alreadyDecided
  | rejected (reason : RejectReason)
  | committed (fee : Nat) (placements : List Placement) (escrow : Option Placement)
  deriving DecidableEq

section Checks

variable (records : Records) (app : Bytes32) (entry : SpendEntry)

/-- One application, one network's parameters. -/
def checkContext : Option RejectReason :=
  match records (.context app) with
  | some ctx => if ctx ≠ entry.context then some .contextDiffers else none
  | none => none

/-- The first entry of an application pins its context. -/
def pinContext : Records :=
  match records (.context app) with
  | some _ => records
  | none => records.write (.context app) entry.context

/-- `roots::history_retains_digest`: the history decodes under its own context
only. -/
def historyRetainsDigest (history : RootHistory) (ctx digest : Bytes32) : Result Bool :=
  if history.context = ctx then .ok (history.digests.contains digest)
  else .error (.invalidArgument "coin root: invalid history record")

def checkRoot : Result (Option RejectReason) :=
  match entry.rootDigest with
  | none => .ok none
  | some digest =>
    match records (.rootHistory app) with
    | none => .ok (some .rootNotRetained)
    | some history =>
      match historyRetainsDigest history entry.context digest with
      | .error e => .error e
      | .ok true => .ok none
      | .ok false => .ok (some .rootNotRetained)

def checkConsumptions : Option RejectReason :=
  if entry.consumptions.any (isConsumed records app) then some .alreadyConsumed
  else none

def checkEscrowClaim (frame : Nat) : Option RejectReason :=
  match entry.escrowClaim with
  | none => none
  | some claim =>
    match escrow records app claim.address with
    | none => some .escrowMissing
    | some record =>
      if record.consumed then some .escrowConsumed
      else if record.binding ≠ claim.binding then some .claimMismatch
      else if claim.refund ∧ frame < record.refundAfter then some .refundTooEarly
      else none

def checkEscrowCreate : Option RejectReason :=
  match entry.escrowCreate with
  | none => none
  | some create =>
    if (escrow records app create.address).isSome then some .escrowExists
    else none

/-- The checks between pinning the context and raising the width: the first
that refuses decides. -/
def checkSpend (frame : Nat) : Result (Option RejectReason) :=
  match checkRoot records app entry with
  | .error e => .error e
  | .ok (some reason) => .ok (some reason)
  | .ok none =>
    .ok ((checkConsumptions records app entry).or
      ((checkEscrowClaim records app entry frame).or
        (checkEscrowCreate records app entry)))

end Checks

/-- Each output takes the next sequence of the block its address selects; `seqs` caches the counters
the loop has advanced.  The result is `none` when a block is full. -/
def placeOutputs (records : Records) (app : Bytes32) (width : Nat) :
    List Bytes32 → OrdMap Nat Nat → Result (Option (List Placement × OrdMap Nat Nat))
  | [], seqs => .ok (some ([], seqs))
  | addr :: outputs, seqs =>
    match CoinBlocks.blockForAddress width addr with
    | .error e => .error e
    | .ok block =>
      let next := (seqs.get? block).getD (blockSequence records app block)
      if blockCapacity ≤ next then .ok none
      else
        match placeOutputs records app width outputs
          (seqs.insert block (next + 1)) with
        | .error e => .error e
        | .ok none => .ok none
        | .ok (some (placements, seqs)) =>
          .ok (some (⟨addr, block, next⟩ :: placements, seqs))

section Writes

variable (records : Records) (frame : Nat) (app : Bytes32) (entry : SpendEntry)
  (sourceShard : ShardPath)

/-- Reject: only the decision is written. -/
def reject (reason : RejectReason) : Result Outcome × Records :=
  (.ok (.rejected reason), records.write (.decision app entry.txId) ⟨false, frame, reason.text⟩)

def consumeMarkers : Records :=
  records.writeEach entry.consumptions (.consumed app) fun _ => entry.txId

/-- Close the claimed escrow.  The checks have found it, so the source unwraps
the record it reads back. -/
def claimEscrow : Records :=
  match entry.escrowClaim with
  | none => records
  | some claim =>
    match escrow records app claim.address with
    | none => records
    | some record =>
      records.write (.escrow app claim.address) { record with consumed := true }

/-- The delivery record of an output or escrow of this entry. -/
def entryDelivery (addr : Bytes32) : Delivery :=
  ⟨addr, entry.sourceFrame, entry.txId, sourceShard⟩

/-- Open the created escrow and queue its record for the owner of its block. -/
def createEscrow (width : Nat) : Result (Option Placement) × Records :=
  match entry.escrowCreate with
  | none => (.ok none, records)
  | some create =>
    let opened := records.write (.escrow app create.address)
      ⟨create.binding, create.refundAfterGlobalFrame, false⟩
    match CoinBlocks.blockForAddress width create.address with
    | .error e => (.error e, opened)
    | .ok block =>
      let seq := escrowSequence opened app block
      let queued := writeDelivery opened app .escrow block seq
        (.live (entryDelivery entry sourceShard create.address))
      (.ok (some ⟨create.address, block, seq⟩), writeSequence queued app .escrow block (seq + 1))

def writeDeliveries (placements : List Placement) : Records :=
  records.writeEach placements
    (fun placement => .delivery .coin app placement.block placement.seq)
    fun placement => .live (entryDelivery entry sourceShard placement.address)

/-- Write out a lane's cached counters, in block order. -/
def writeSequences (lane : Lane) (seqs : OrdMap Nat Nat) : Records :=
  records.writeEach seqs.entries
    (fun advance => .sequence lane app advance.1) fun advance => advance.2

/-- The settlement record of a committed entry, unless its receipt has one. -/
def writeSettlement : Records :=
  match entry.settlement with
  | none => records
  | some settlement =>
    match records (.settlement settlement.receipt) with
    | some _ => records
    | none => records.write (.settlement settlement.receipt) settlement

/-- Commit a placed entry. -/
def commitPlaced (width : Nat) (placements : List Placement)
    (seqs : OrdMap Nat Nat) : Result Outcome × Records :=
  let consumed := consumeMarkers records app entry
  let claimed := claimEscrow consumed app entry
  match createEscrow claimed app entry sourceShard width with
  | (.error e, created) => (.error e, created)
  | (.ok escrowPlacement, created) =>
    let delivered := writeDeliveries created app entry sourceShard placements
    let sequenced := writeSequences delivered app .coin seqs
    let settled := writeSettlement sequenced entry
    (.ok (.committed entry.fee placements escrowPlacement),
      settled.write (.decision app entry.txId) ⟨true, frame, ""⟩)

end Writes

/-- The depth of the shard a relay came from, zero for an undecodable one. -/
def shardDepth (sourceShard : ShardPath) : Nat := sourceShard.bits.elim 0 List.length

/-- Decide one relayed entry for `application` at global frame `frame`. -/
def commitEntry (shieldFrame : Nat) (records : Records) (frame : Nat)
    (app : Bytes32) (entry : SpendEntry) (sourceShard : ShardPath) : Result Outcome × Records :=
  match entry.validateAt shieldFrame frame with
  | .error e => (.error e, records)
  | .ok () =>
    if isDecided records app entry.txId then (.ok .alreadyDecided, records)
    else
      match checkContext records app entry with
      | some reason => reject records frame app entry reason
      | none =>
        let pinned := pinContext records app entry
        match checkSpend pinned app entry frame with
        | .error e => (.error e, pinned)
        | .ok (some reason) => reject pinned frame app entry reason
        | .ok none =>
          match raisePlacementWidth pinned app (shardDepth sourceShard) with
          | (.error e, raised) => (.error e, raised)
          | (.ok width, raised) =>
            match placeOutputs raised app width entry.outputs .empty with
            | .error e => (.error e, raised)
            | .ok none => reject raised frame app entry .blockFull
            | .ok (some (placements, seqs)) =>
              commitPlaced raised frame app entry sourceShard width placements seqs

end GlobalCommit

end Token

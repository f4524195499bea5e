import QuilNode.Lib.Results
import QuilNode.Lib.Run
import QuilNode.Global.Schema

/-!
# Allocations and the operations of their lifecycle

Operations look at an allocation's raw status byte; the protocol looks at the *effective* status,
in which a proposed join or leave expires with its epoch without anything being written back.  The
two agree only as far as the operations' timing checks make them.

A join or leave proposed in epoch `E` is confirmed in `E + 1` and takes effect at `E + 2`.
-/

namespace Global

open Results

/-- A GLOBAL frame number, a `u64`. -/
abbrev Frame := Fin (2 ^ 64)

instance neZeroFrames : NeZero (2 ^ 64) := inferInstance

/-- `epoch_length_frames`, from the stored override (`0` where there is none). -/
def epochLengthFrames (override : Nat) : Nat := if override = 0 then 720 else override

theorem epochLengthFrames_pos (override : Nat) : 0 < epochLengthFrames override := by
  unfold epochLengthFrames
  split <;> omega

/-- `epoch_for_frame`. -/
def epochForFrame (override frame : Nat) : Nat := frame / epochLengthFrames override

theorem epochForFrame_mono (override : Nat) {f g : Nat} (h : f ≤ g) :
    epochForFrame override f ≤ epochForFrame override g :=
  Nat.div_le_div_right h

/-- `ProverStatus`, as far as an allocation's byte reaches. -/
inductive ProverStatus where
  | unknown
  | joining
  | active
  | paused
  | leaving
  | rejected
  | kicked
  | historic
  deriving DecidableEq

/-- The status bytes of an allocation, `STATUS_JOINING` to `STATUS_HISTORIC`. -/
def statusJoining : UInt8 := 0
def statusActive : UInt8 := 1
def statusPaused : UInt8 := 2
def statusLeaving : UInt8 := 3
def statusKicked : UInt8 := 4
def statusHistoric : UInt8 := 6

/-- `map_allocation_status`. -/
def mapAllocationStatus (byte : UInt8) : ProverStatus :=
  if byte = 0 then .joining
  else if byte = 1 then .active
  else if byte = 2 then .paused
  else if byte = 3 then .leaving
  else if byte = 4 then .rejected
  else if byte = 5 then .kicked
  else if byte = 6 then .historic
  else .unknown

/-- `ProverAllocationInfo`, as far as `effective_status` reads it. -/
structure ProverAllocationInfo where
  status : ProverStatus
  confirmationFilter : Bytes
  joinFrameNumber : Nat
  leaveFrameNumber : Nat
  joinConfirmFrameNumber : Nat
  leaveConfirmFrameNumber : Nat
  epoch : Nat
  deriving DecidableEq

/-- The fields of an allocation vertex with a given status byte. -/
def allocationInfo (tree : VertexTree) (byte : UInt8) : ProverAllocationInfo where
  status := mapAllocationStatus byte
  confirmationFilter := (tree.read .confirmationFilter).getD []
  joinFrameNumber := tree.readU64 .joinFrameNumber
  leaveFrameNumber := tree.readU64 .leaveFrameNumber
  joinConfirmFrameNumber := tree.readU64 .joinConfirmFrameNumber
  leaveConfirmFrameNumber := tree.readU64 .leaveConfirmFrameNumber
  epoch := tree.readU64 .epoch

/-- `decode_allocation`. -/
def decodeAllocation (tree : VertexTree) : Option ProverAllocationInfo :=
  if (tree.read .prover).getD [] = [] then none
  else match tree.read .status with
    | some [byte] => some (allocationInfo tree byte)
    | _ => none

/-- `EffectiveStatus`. -/
inductive EffectiveStatus where
  | joining
  | active
  | paused
  | leaving
  | expiredJoining
  | expiredLeaving
  | expiredEpoch
  | rejected
  | kicked
  | historic
  | unknown
  deriving DecidableEq

/-- `is_live`. -/
def EffectiveStatus.isLive : EffectiveStatus → Bool
  | .joining | .active | .paused | .leaving => true
  | _ => false

/-- `is_terminal`. -/
def EffectiveStatus.isTerminal : EffectiveStatus → Bool
  | .rejected | .kicked | .expiredJoining | .expiredLeaving => true
  | _ => false

/-- `effective_status`. -/
def ProverAllocationInfo.effectiveStatus (override : Nat) (info : ProverAllocationInfo)
    (currentFrame : Nat) : EffectiveStatus :=
  let currentEpoch := epochForFrame override currentFrame
  match info.status with
  | .joining =>
    if 0 < info.joinFrameNumber ∧
        epochForFrame override info.joinFrameNumber + 1 < currentEpoch then .expiredJoining
    else .joining
  | .active =>
    if info.confirmationFilter = [] then .active
    -- A confirmed join stays out of the committee until the next boundary.
    else if 0 < info.joinConfirmFrameNumber ∧
        currentEpoch < epochForFrame override info.joinConfirmFrameNumber + 1 then .joining
    else if currentEpoch ≤ info.epoch then .active
    else .expiredEpoch
  | .paused => .paused
  | .leaving =>
    if 0 < info.leaveConfirmFrameNumber then
      if currentEpoch < epochForFrame override info.leaveConfirmFrameNumber + 1 then .leaving
      else .expiredLeaving
    else if 0 < info.leaveFrameNumber ∧
        epochForFrame override info.leaveFrameNumber + 1 < currentEpoch then .expiredLeaving
    else .leaving
  | .rejected => .rejected
  | .kicked => .kicked
  | .historic => .historic
  | .unknown => .unknown

/-- The effective status of an allocation vertex, where it decodes. -/
def effectiveStatusAt (override : Nat) (tree : VertexTree) (frame : Nat) : Option EffectiveStatus :=
  (decodeAllocation tree).map fun info => info.effectiveStatus override frame

/-- The vertex's allocation is live at a frame. -/
def liveAt (override : Nat) (tree : VertexTree) (frame : Nat) : Bool :=
  (effectiveStatusAt override tree frame).any EffectiveStatus.isLive

/-- The vertex's allocation has departed by a frame. -/
def departedAt (override : Nat) (tree : VertexTree) (frame : Nat) : Bool :=
  (effectiveStatusAt override tree frame).any EffectiveStatus.isTerminal

section Materialize

/-- `create_allocation_vertex_tree`. -/
def createAllocationVertexTree (poseidon : Bytes → Bytes32) (proverAddress : Bytes32)
    (filter : Bytes) (frame : Nat) : VertexTree :=
  ((((VertexTree.new.writeType poseidon .allocation).write .prover proverAddress.bytes).write
    .status [statusJoining]).write .confirmationFilter filter).write
    .joinFrameNumber (beBytes 8 frame)

/-- `materialize_prover_pause`. -/
def materializeProverPause (tree : VertexTree) (frame : Nat) : Result VertexTree := do
  let status := tree.statusByte.getD 0
  ensure (status = statusActive) (.invalidArgument
    s!"materialize pause: allocation status is {status} (expected {statusActive}=active)")
  pure ((tree.write .status [statusPaused]).write .pauseFrameNumber (beBytes 8 frame))

/-- `materialize_prover_resume`. -/
def materializeProverResume (tree : VertexTree) (frame : Nat) : Result VertexTree := do
  let status := tree.statusByte.getD 0
  ensure (status = statusPaused) (.invalidArgument
    s!"materialize resume: allocation status is {status} (expected {statusPaused}=paused)")
  pure ((tree.write .status [statusActive]).write .resumeFrameNumber (beBytes 8 frame))

/-- `materialize_prover_leave`. -/
def materializeProverLeave (tree : VertexTree) (frame : Nat) : Result VertexTree := do
  let status := tree.statusByte.getD 0
  ensure (status = statusActive ∨ status = statusPaused) (.invalidArgument
    s!"materialize leave: allocation status is {status} (expected 1=active or 2=paused)")
  pure ((tree.write .status [statusLeaving]).write .leaveFrameNumber (beBytes 8 frame))

/-- Write a confirm's release, where it carries one. -/
def writeRelease (tree : VertexTree) (release : Option Bytes) : VertexTree :=
  match release with
  | some bytes => tree.write .release bytes
  | none => tree

/-- `materialize_prover_confirm`. -/
def materializeProverConfirm (override : Nat) (tree : VertexTree) (frame : Nat)
    (release : Option Bytes) : Result VertexTree :=
  let status := tree.statusByte.getD 255
  let frameBytes := beBytes 8 frame
  -- A confirm registers the allocation one epoch ahead.
  let nextEpoch := beBytes 8 (epochForFrame override frame + 1)
  if status = statusJoining then
    pure (writeRelease ((((tree.write .status [statusActive]).write
      .joinConfirmFrameNumber frameBytes).write .lastActiveFrameNumber frameBytes).write
      .epoch nextEpoch) release)
  else if status = statusActive then
    pure (writeRelease ((tree.write .lastActiveFrameNumber frameBytes).write
      .epoch nextEpoch) release)
  else if status = statusLeaving then
    pure (tree.write .leaveConfirmFrameNumber frameBytes)
  else
    .error (.invalidArgument s!"materialize confirm: allocation status is {status} (expected 0=joining, 1=active re-confirm, or 3=leaving)")

/-- `materialize_prover_reject`. -/
def materializeProverReject (tree : VertexTree) (frame : Nat) : Result VertexTree :=
  let status := tree.statusByte.getD 255
  let frameBytes := beBytes 8 frame
  if status = statusJoining then
    pure ((tree.write .status [statusKicked]).write .joinRejectFrameNumber frameBytes)
  else if status = statusLeaving then
    -- The epoch stays: a rejected leave registers no new leaf roots.
    pure (((tree.write .status [statusActive]).write .leaveRejectFrameNumber frameBytes).write
      .lastActiveFrameNumber frameBytes)
  else
    .error (.invalidArgument s!"materialize reject: allocation status is {status} (expected 0=joining or 3=leaving)")

/-- `materialize_prover_kick_allocation`. -/
def materializeProverKickAllocation (tree : VertexTree) (frame : Nat) : VertexTree :=
  (tree.write .status [statusKicked]).write .kickFrameNumber (beBytes 8 frame)

end Materialize

/-- `validate_confirm_timing`. -/
def validateConfirmTiming (override : Nat) (frame : Nat) (tree : VertexTree) : Result Unit :=
  let status := tree.statusByte.getD 255
  let confirmEpoch := epochForFrame override frame
  if status = 0 then do
    let joinFrame ← okOr (u64Exact ((tree.read .joinFrameNumber).getD []))
      (.invalidArgument "confirm: missing JoinFrameNumber")
    let expect := epochForFrame override joinFrame + 1
    ensure (confirmEpoch = expect) (.invalidArgument
      s!"confirm: join must be confirmed in epoch {expect} (join epoch {epochForFrame override joinFrame}), not epoch {confirmEpoch}")
  else if status = 3 then do
    let confirmed := (tree.read .leaveConfirmFrameNumber).getD []
    ensure (confirmed = [] ∨ confirmed = List.replicate 8 0)
      (.invalidArgument "confirm: leave already confirmed")
    let leaveFrame ← okOr (u64Exact ((tree.read .leaveFrameNumber).getD []))
      (.invalidArgument "confirm: missing LeaveFrameNumber")
    let expect := epochForFrame override leaveFrame + 1
    ensure (confirmEpoch = expect) (.invalidArgument
      s!"confirm: leave must be confirmed in epoch {expect} (leave epoch {epochForFrame override leaveFrame}), not epoch {confirmEpoch}")
  else if status = 1 then
    let filter := (tree.read .confirmationFilter).getD []
    let epoch := (u64Exact ((tree.read .epoch).getD [])).getD 0
    ensure (filter ≠ [] ∧ epoch ≤ confirmEpoch) (.invalidArgument
      s!"confirm: active re-confirm only for a data shard not already registered ahead (epoch {epoch} > confirm epoch {confirmEpoch}, empty_filter={filter.isEmpty})")
  else
    .error (.invalidArgument s!"confirm: invalid allocation status {status} (expected 0=joining, 1=active re-confirm, or 3=leaving)")

/-- `REJOIN_WINDOW_FRAMES`. -/
def rejoinWindowFrames : Nat := 720

/-- `verify_prover_join_allocations_expired`, for one filter's stored
allocation. -/
def verifyAllocationExpired (frame : Nat) (tree : VertexTree) : Result Unit := do
  let status := tree.statusByte.getD 4
  if status = 4 ∨ status = statusHistoric then pure () else do
    let bytes ← okOr (tree.read .joinFrameNumber) (.invalidArgument
      s!"ProverJoin verify: existing allocation for filter is active (status={status}) with no JoinFrameNumber — refusing to rejoin")
    let joinFrame ← okOr (u64Exact bytes) (.invalidArgument
      s!"ProverJoin verify: existing allocation has malformed JoinFrameNumber ({bytes.length} bytes)")
    ensure (min (joinFrame + rejoinWindowFrames) (2 ^ 64 - 1) ≤ frame) (.invalidArgument
      s!"ProverJoin verify: existing allocation still active (status={status}, frames_since_join={frame - joinFrame})")

/-- What a confirm finds around the allocation it applies to. -/
structure ConfirmContext where
  /-- `grid_admits_filter`; `true` without a shards store. -/
  gridAdmits : Bool
  /-- The filter is no longer a registered shard. -/
  shardRemoved : Bool
  /-- The filter's active provers, where a registry is wired. -/
  activeProvers : Option Nat
  /-- The release the confirm signs and GLOBAL records. -/
  release : Option Bytes
  /-- The prover's seniority, where the seniority ring rule governs. -/
  ringSeniority : Option Nat
  deriving DecidableEq

/-- `HALT_RISK_PROVER_COUNT`. -/
def haltRiskProverCount : Nat := 3

/-- `check_leave_confirm_halt_risk`. -/
def checkLeaveConfirmHaltRisk (filter : Bytes) (status : UInt8) (ctx : ConfirmContext) :
    Result Unit :=
  if status ≠ statusLeaving then pure ()
  else if ctx.shardRemoved then pure ()
  else match ctx.activeProvers with
    | none => pure ()
    | some count =>
      ensure (haltRiskProverCount + 1 < count) (.invalidArgument
        s!"ProverLeaveConfirm rejected: shard {hexEncode filter} would land at {count} active provers (≤ halt-risk floor + 1 = {haltRiskProverCount + 1}); leave can re-attempt after coverage recovers")

/-- `prover_rings::write_key` of the key a join confirm records. -/
def writeRingKey (override : Nat) (tree : VertexTree) (frame seniority : Nat) : VertexTree :=
  (tree.write .ringEpoch (beBytes 8 (epochForFrame override frame + 1))).write
    .ringSeniority (beBytes 8 seniority)

/-- What `invoke_step` does to one allocation of a confirm. -/
def confirmAllocation (override : Nat) (filter : Bytes) (ctx : ConfirmContext)
    (tree : VertexTree) (frame : Nat) : Result VertexTree := do
  let _ ← validateConfirmTiming override frame tree
  let status := tree.statusByte.getD 0
  -- A join is not confirmed onto a shard its grid no longer has.
  if status = statusJoining ∧ ctx.gridAdmits = false then pure tree else do
    let _ ← checkLeaveConfirmHaltRisk filter status ctx
    let confirmed ← materializeProverConfirm override tree frame ctx.release
    match ctx.ringSeniority with
    | some seniority =>
      if status = statusJoining then pure (writeRingKey override confirmed frame seniority)
      else pure confirmed
    | none => pure confirmed

/-- The operations on a prover's allocation for one filter. -/
inductive FilterOp where
  | pause
  | resume
  | leave
  | confirm (ctx : ConfirmContext)
  | reject
  deriving DecidableEq

/-- `invoke_step` on an operation's allocation.  Confirms check their timing again here; rejects do
not. -/
def applyFilterOp (override : Nat) (filter : Bytes) (op : FilterOp) (tree : VertexTree)
    (frame : Nat) : Result VertexTree :=
  match op with
  | .pause => materializeProverPause tree frame
  | .resume => materializeProverResume tree frame
  | .leave => materializeProverLeave tree frame
  | .confirm ctx => confirmAllocation override filter ctx tree frame
  | .reject => materializeProverReject tree frame

/-- What `validate` asks of the allocation of an operation, before the bundle
that carries it is executed. -/
def admitFilterOp (override : Nat) (op : FilterOp) (tree : VertexTree) (frame : Nat) :
    Result Unit :=
  match op with
  | .pause => ensure (tree.statusByte.getD 0 = 1) (.invalidArgument
      s!"verify prover pause: allocation status is {tree.statusByte.getD 0} (expected 1=active)")
  | .resume => ensure (tree.statusByte.getD 0 = 2) (.invalidArgument
      s!"verify prover resume: allocation status is {tree.statusByte.getD 0} (expected 2=paused)")
  | .leave => ensure (tree.statusByte.getD 4 = 1) (.invalidArgument
      "ProverLeave verify: no active allocations found for any of the requested filters")
  | .confirm _ | .reject => validateConfirmTiming override frame tree

/-- A bundle on one allocation: every request is validated against the vertex the bundle finds, then
they are executed in order. -/
def applyBundle (override : Nat) (filter : Bytes) (tree : VertexTree) (frame : Nat)
    (ops : List FilterOp) : Result VertexTree := do
  let _ ← ops.mapM fun op => admitFilterOp override op tree frame
  ops.foldlM (fun current op => applyFilterOp override filter op current frame) tree

end Global

import QuilNode.Lib.WordOrder
import QuilNode.Hypergraph.SettlementClaim
import QuilNode.Global.AllocationNotice
import QuilNode.Global.SigningMessages

/-!
# Joining (`ProverJoin`)

A join writes the prover's vertex, one allocation vertex for each filter, the hyperedge that links
them, a spent marker for each legacy key it merges, and the reward vertex.  Two gates look at the
allocations already stored; neither asks for the effective status, so a join replaces a live
allocation once the window since its own join is over (`accepted_join_replaces_live_iff`).

Vertices stand for their decoded trees; a hyperedge stands for the allocations it links.
-/

namespace Global

open Results

/-- The vertices of the GLOBAL domain and the allocations each prover's
hyperedge links. -/
structure GlobalState where
  vertices : Store Bytes32 (fun _ => VertexTree)
  hyperedges : Bytes32 → List Bytes32

namespace GlobalState

/-- `state.set` of a vertex. -/
def setVertex (s : GlobalState) (addr : Bytes32) (tree : VertexTree) : GlobalState :=
  { s with vertices := s.vertices.write addr tree }

@[simp] theorem setVertex_self (s : GlobalState) (addr : Bytes32) (tree : VertexTree) :
    (s.setVertex addr tree).vertices addr = some tree :=
  Store.write_self _ _ _

theorem setVertex_of_ne (s : GlobalState) {addr other : Bytes32} (tree : VertexTree)
    (h : other ≠ addr) : (s.setVertex addr tree).vertices other = s.vertices other :=
  Store.write_of_ne _ _ h

/-- `state.set` of a hyperedge. -/
def setHyperedge (s : GlobalState) (addr : Bytes32) (linked : List Bytes32) : GlobalState :=
  { s with hyperedges := Function.update s.hyperedges addr linked }

end GlobalState

/-- The key types signatures are validated under. -/
inductive KeyType where
  | ed448
  | falcon512
  deriving DecidableEq

/-- `KeyManager`: a signature that validates was made by a key of its type's
length. -/
structure KeyManager where
  validateSignature : KeyType → (publicKey message signature domain : Bytes) → Result Bool
  ed448_length : ∀ {k m sig d}, validateSignature .ed448 k m sig d = .ok true → k.length = 57
  falcon512_length : ∀ {k m sig d},
    validateSignature .falcon512 k m sig d = .ok true → k.length = 897

/-- The tables of `seniority_compat`. -/
structure SeniorityTables where
  firstRetro : List (String × Int)
  secondRetro : List (String × Bool × Bool × Bool × Bool × Bool)
  thirdRetro : List String
  fourthRetro : List String
  /-- The mainnet snapshot's value of a peer id, zero where there is none. -/
  mainnet : String → Nat

/-- What the modelled operations call. -/
structure GlobalEnv where
  /-- `EPOCH_LENGTH_OVERRIDE`. -/
  epochOverride : Nat
  poseidon : Bytes → Bytes32
  keyManager : KeyManager
  /-- `ed448_pubkey_to_peer_id_string`. -/
  peerId : Bytes → String
  tables : SeniorityTables
  /-- The frames from which earlier kicks are forgiven. -/
  amnestyFrames : List Nat

section Seniority

/-- Frames of ten seconds in a day. -/
def framesPerDay : Nat := 10 * 6 * 60 * 24

/-- The score of a reward of the first period. -/
def firstRetroScore (actual : Int) : Nat :=
  if 0 < actual then
    let divisor := (157208 / actual).toNat
    if 0 < divisor then framesPerDay * 92 / divisor else 0
  else 0

/-- The score of five months' presence in the second period. -/
def secondRetroScore (presence : Bool × Bool × Bool × Bool × Bool) : Nat :=
  let month := fun (present : Bool) (days : Nat) => if present then framesPerDay * days else 0
  month presence.1 31 + month presence.2.1 29 + month presence.2.2.1 31 +
    month presence.2.2.2.1 30 + month presence.2.2.2.2 31

/-- `get_aggregated_seniority`. -/
def getAggregatedSeniority (tables : SeniorityTables) (peerIds : List String) : Nat :=
  let highest := fun (scores : List Nat) => scores.foldl max 0
  let first := highest ((tables.firstRetro.filter fun f => f.1 ∈ peerIds).map
    fun f => firstRetroScore f.2)
  let second := highest ((tables.secondRetro.filter fun f => f.1 ∈ peerIds).map
    fun f => secondRetroScore f.2)
  let third := highest ((tables.thirdRetro.filter (· ∈ peerIds)).map fun _ => framesPerDay * 30)
  let fourth := highest ((tables.fourthRetro.filter (· ∈ peerIds)).map fun _ => framesPerDay * 31)
  max (first + second + third + fourth) (highest (peerIds.map tables.mainnet))

/-- A merge target whose seniority the tables may know. -/
def SeniorityMerge.isLegacyPeer (target : SeniorityMerge) : Bool :=
  target.keyType == 0 && target.proverPublicKey.length == 57

/-- The seniority of a list of legacy keys. -/
def seniorityOf (env : GlobalEnv) (keys : List Bytes) : Nat :=
  if keys = [] then 0 else getAggregatedSeniority env.tables (keys.map env.peerId)

end Seniority

section Addresses

variable (env : GlobalEnv)

/-- `prover_address_from_pubkey`. -/
def proverAddressFromPubkey (pubkey : Bytes) : Bytes32 := env.poseidon pubkey

/-- The bytes hashed to an allocation's address. -/
def allocationPreimage (pubkey filter : Bytes) : Bytes :=
  asciiBytes "PROVER_ALLOCATION" ++ pubkey ++ filter

/-- `allocation_address`. -/
def allocationAddress (pubkey filter : Bytes) : Bytes32 :=
  env.poseidon (allocationPreimage pubkey filter)

/-- The bytes hashed to a key's `PROVER_JOIN_MERGE` marker. -/
def joinMarkerPreimage (key : Bytes) : Bytes := asciiBytes "PROVER_JOIN_MERGE" ++ key

/-- `spent_join_merge_address`. -/
def spentJoinMergeAddress (key : Bytes) : Bytes32 := env.poseidon (joinMarkerPreimage key)

/-- The bytes hashed to a prover's reward address. -/
def rewardPreimage (prover : Bytes32) : Bytes := Hypergraph.quilToken.bytes ++ prover.bytes

/-- `reward_address`. -/
def rewardAddress (prover : Bytes32) : Bytes32 := env.poseidon (rewardPreimage prover)

end Addresses

section Verification

variable (env : GlobalEnv) (s : GlobalState)

/-- The public key a join is signed with. -/
def joinPublicKey (op : ProverJoin) : Bytes :=
  (op.publicKeySignature.bind SignatureWithPop.publicKey).getD []

/-- `verify_prover_join_key_signatures`. -/
def verifyProverJoinKeySignatures (op : ProverJoin) (pubkey : Bytes) : Result Bool := do
  let sig ← okOr op.publicKeySignature
    (.invalidArgument "prover join verify: missing signature")
  let domain := (env.poseidon (globalIntrinsicAddress ++ asciiBytes "PROVER_JOIN")).bytes
  let signed ← env.keyManager.validateSignature .falcon512 pubkey (proverJoinMessage op)
    sig.signature domain
  if signed = false then pure false
  else
    env.keyManager.validateSignature .falcon512 pubkey pubkey sig.popSignature
      (asciiBytes "BLS48_POP_SK")

/-- The signatures of a list of merge targets over a public key. -/
def verifyMergeTargets (operation : String) (domain : Bytes) (pubkey : Bytes) :
    List SeniorityMerge → Result Bool
  | [] => pure true
  | target :: targets => do
    ensure (target.keyType = 0) (.invalidArgument
      s!"{operation}: merge target key_type {target.keyType} unsupported (Ed448-only)")
    let signed ← env.keyManager.validateSignature .ed448 target.proverPublicKey pubkey
      target.signature domain
    if signed = false then pure false
    else verifyMergeTargets operation domain pubkey targets

/-- `verify_prover_join_merge_signatures`, without a consumed-merge check. -/
def verifyProverJoinMergeSignatures (op : ProverJoin) (pubkey : Bytes) : Result Bool :=
  verifyMergeTargets env "prover join verify" (asciiBytes "PROVER_JOIN_MERGE") pubkey
    op.mergeTargets

/-- `verify_prover_join_signatures`. -/
def verifyProverJoinSignatures (op : ProverJoin) (pubkey : Bytes) : Result Bool := do
  let signed ← verifyProverJoinKeySignatures env op pubkey
  if signed = false then pure false else verifyProverJoinMergeSignatures env op pubkey

/-- `kick_bars_rejoin`. -/
def kickBarsRejoin (kickFrame currentFrame : Nat) : Bool :=
  kickFrame ≠ 0 && !(env.amnestyFrames.any fun amnesty =>
    decide (kickFrame < amnesty) && decide (amnesty ≤ currentFrame))

/-- `verify_prover_join_allocations_expired`. -/
def verifyProverJoinAllocationsExpired (op : ProverJoin) (pubkey : Bytes) (frame : Nat) :
    Result Unit := do
  let _ ← op.filters.mapM fun filter =>
    match s.vertices (allocationAddress env pubkey filter) with
    | none => pure ()
    | some tree => verifyAllocationExpired frame tree
  pure ()

end Verification

/-- The shard grid as a join sees it. -/
structure GridView where
  /-- A pending split or merge affects the shard. -/
  frozen : Bytes → Bool
  /-- `grid_admits_filter`. -/
  admits : Bytes → Bool

/-- The freeze and the grid check of `invoke_join`; nothing without a shards
store. -/
def joinGridGate (grid : Option GridView) (filters : List Bytes) : Result Unit :=
  match grid with
  | none => pure ()
  | some view => do
    let _ ← filters.mapM fun filter => ensure (view.frozen filter = false)
      (.invalidArgument
        s!"invoke_step join: shard {hexEncode (filter.take 8)} is frozen by a pending split/merge (join blocked until it settles at E+2)")
    let _ ← filters.mapM fun filter => ensure (view.admits filter = true) (.invalidArgument
        s!"invoke_step join: {hexEncode filter} is not a current shard of its application")
    pure ()

/-- The existing-allocation gate of `invoke_join` for one filter.  The `u64` sum wraps; a join frame
that is not eight bytes passes. -/
def joinAllocationGate (frame : Nat) (tree : VertexTree) : Result Unit :=
  let status := tree.statusByte.getD 4
  if status = 4 ∨ status = statusHistoric then pure ()
  else match u64Exact ((tree.read .joinFrameNumber).getD []) with
    | none => pure ()
    | some joinFrame => ensure ((joinFrame + 720) % 2 ^ 64 ≤ frame) (.invalidArgument
        s!"invoke_step join: allocation still active (status={status}, frame_since_join={frame - joinFrame})")

/-- The gates `invoke_join` applies where the prover's vertex exists. -/
def joinStateGate (env : GlobalEnv) (s : GlobalState) (pubkey : Bytes) (frame : Nat)
    (filters : List Bytes) : Result Unit :=
  match s.vertices (proverAddressFromPubkey env pubkey) with
  | none => pure ()
  | some prover => do
    ensure ((((prover ProverField.kickFrameNumber.key).bind u64Exact).any
        fun kick => kickBarsRejoin env kick frame) = false)
      (.invalidArgument "invoke_step join: prover has been previously kicked")
    let _ ← filters.mapM fun filter =>
      match s.vertices (allocationAddress env pubkey filter) with
      | none => pure ()
      | some tree => joinAllocationGate frame tree
    pure ()

/-- The prover a spent marker names. -/
def markerHolder (s : GlobalState) (addr : Bytes32) : Option Bytes :=
  (s.vertices addr).bind fun tree => tree spentProverAddressKey

/-- Another prover holds a key's `PROVER_JOIN_MERGE` marker. -/
def heldByAnother (env : GlobalEnv) (s : GlobalState) (prover : Bytes32) (key : Bytes) : Bool :=
  (markerHolder s (spentJoinMergeAddress env key)).any fun holder =>
    holder.length == 32 && holder != prover.bytes

/-- The legacy keys a join counts. -/
def joinCountedKeys (env : GlobalEnv) (s : GlobalState) (prover : Bytes32)
    (targets : List SeniorityMerge) : List Bytes :=
  (targets.filter fun target =>
    !heldByAnother env s prover target.proverPublicKey && target.isLegacyPeer).map
    SeniorityMerge.proverPublicKey

/-- The `Seniority` of a prover vertex, zero where it has none. -/
def readSeniority (tree : VertexTree) : Nat :=
  ((tree ProverField.seniority.key).bind u64Exact).getD 0

/-- `create_prover_vertex_tree`. -/
def createProverVertexTree (env : GlobalEnv) (pubkey : Bytes) (seniority : Nat) : VertexTree :=
  ((((VertexTree.new.writeType env.poseidon .prover).insert ProverField.publicKey.key
    pubkey).insert ProverField.status.key [statusJoining]).insert
    ProverField.availableStorage.key (beBytes 8 0)).insert
    ProverField.seniority.key (beBytes 8 seniority)

/-- `create_spent_merge_tree`. -/
def createSpentMergeTree (env : GlobalEnv) (prover : Bytes32) : VertexTree :=
  (VertexTree.new.writeType env.poseidon .spentMerge).insert spentProverAddressKey prover.bytes

/-- `compute_aggregate_prover_status`. -/
def computeAggregateProverStatus (statuses : List UInt8) : UInt8 :=
  if statusActive ∈ statuses then statusActive
  else if statusJoining ∈ statuses then statusJoining
  else if statusLeaving ∈ statuses then statusLeaving
  else if statusPaused ∈ statuses then statusPaused
  else statusKicked

/-- `extend_prover_allocation_hyperedge_blob`. -/
def extendHyperedge (linked added : List Bytes32) : List Bytes32 :=
  linked.filter (· ∉ added) ++ added

/-- `derive_prover_status`, for a prover whose allocations are all linked. -/
def deriveProverStatus (s : GlobalState) (addr : Bytes32) : Result GlobalState := do
  let prover ← okOr (s.vertices addr)
    (.invalidArgument "prover status: prover not found")
  ensure ((prover ProverField.publicKey.key).getD [] ≠ [])
    (.invalidArgument "prover status: prover has no PublicKey")
  let statuses := (s.hyperedges addr).filterMap fun linked =>
    (s.vertices linked).bind VertexTree.statusByte
  let status := computeAggregateProverStatus statuses
  if (prover ProverField.status.key).bind List.head? = some status then pure s
  else pure (s.setVertex addr (prover.insert ProverField.status.key [status]))

/-- Stamp a spent marker, unless a prover already holds it. -/
def stampMarker (env : GlobalEnv) (prover addr : Bytes32) (s : GlobalState) : GlobalState :=
  if (markerHolder s addr).any (fun holder => holder.length == 32) then s
  else s.setVertex addr (createSpentMergeTree env prover)

/-- The reward vertex of a prover that has none. -/
def createRewardTree (env : GlobalEnv) (delegate : Bytes) : VertexTree :=
  ((VertexTree.new.writeType env.poseidon .reward).insert delegateAddressKey delegate).insert
    balanceKey (List.replicate 32 0)

/-- The seniority a join records. -/
def joinSeniority (env : GlobalEnv) (s : GlobalState) (prover : Bytes32)
    (targets : List SeniorityMerge) : Nat :=
  let computed := seniorityOf env (joinCountedKeys env s prover targets)
  match s.vertices prover with
  | some tree => max (readSeniority tree) computed
  | none => computed

/-- Write the prover, its allocations and its hyperedge. -/
def writeJoin (env : GlobalEnv) (s : GlobalState) (pubkey : Bytes) (filters : List Bytes)
    (frame : Nat) (seniority : Nat) : GlobalState :=
  let prover := proverAddressFromPubkey env pubkey
  let s := s.setVertex prover (createProverVertexTree env pubkey seniority)
  let s := filters.foldl (fun s filter => s.setVertex (allocationAddress env pubkey filter)
    (createAllocationVertexTree env.poseidon prover filter frame)) s
  s.setHyperedge prover (extendHyperedge (s.hyperedges prover)
    (filters.map (allocationAddress env pubkey)))

/-- Write the reward vertex, where there is none. -/
def writeReward (env : GlobalEnv) (s : GlobalState) (prover : Bytes32) (delegate : Bytes) :
    GlobalState :=
  match s.vertices (rewardAddress env prover) with
  | some _ => s
  | none => s.setVertex (rewardAddress env prover)
      (createRewardTree env (if delegate.length = 32 then delegate else prover.bytes))

/-- `invoke_join`. -/
def invokeJoin (env : GlobalEnv) (grid : Option GridView) (frame : Nat) (op : ProverJoin)
    (s : GlobalState) : Result GlobalState := do
  let pubkey := joinPublicKey op
  ensure (pubkey ≠ []) (.invalidArgument "invoke_step join: no public key")
  let verified ← verifyProverJoinSignatures env op pubkey
  ensure (verified = true)
    (.invalidArgument "invoke_step join: signature verification failed")
  let _ ← joinGridGate grid op.filters
  let _ ← joinStateGate env s pubkey frame op.filters
  let prover := proverAddressFromPubkey env pubkey
  let written := writeJoin env s pubkey op.filters frame
    (joinSeniority env s prover op.mergeTargets)
  let derived ← deriveProverStatus written prover
  let stamped := op.mergeTargets.foldl (fun s target =>
    stampMarker env prover (spentJoinMergeAddress env target.proverPublicKey) s) derived
  pure (writeReward env stamped prover op.delegateAddress)

/-- The bytes of a live allocation. -/
theorem statusByte_of_live {o f : Nat} {tree : VertexTree} (h : liveAt o tree f = true) :
    ∃ byte, tree.statusByte = some byte ∧ byte ≠ 4 ∧ byte ≠ statusHistoric := by
  obtain ⟨_, hs, hlive⟩ := (Option.any_eq_true _ _).mp h
  obtain ⟨-, byte, hbyte, rfl⟩ := read_of_effectiveStatusAt hs
  refine ⟨byte, statusByte_of_read hbyte, ?_, ?_⟩
  · rintro rfl
    cases hlive
  · rintro rfl
    cases hlive

/-- A live allocation passes the gate of a validated join only when the window
since its own join is over. -/
theorem window_over_of_verified {o frame : Nat} {tree : VertexTree}
    (hlive : liveAt o tree frame = true) (h : verifyAllocationExpired frame tree = .ok ()) :
    min (tree.readU64 .joinFrameNumber + rejoinWindowFrames) (2 ^ 64 - 1) ≤ frame := by
  obtain ⟨_, hbyte, hne, hne'⟩ := statusByte_of_live hlive
  unfold verifyAllocationExpired at h
  simp only [hbyte, Option.getD_some] at h
  rw [if_neg (by simp [hne, hne'])] at h
  obtain ⟨_, hread, h⟩ := okOr_bind.mp h
  obtain ⟨_, hexact, h⟩ := okOr_bind.mp h
  rw [VertexTree.readU64_of_exact hread hexact]
  exact ensure_ok.mp h

/-- What a passed expiry gate says of each stored allocation. -/
theorem verified_allocation {env : GlobalEnv} {s : GlobalState} {op : ProverJoin}
    {pubkey : Bytes} {frame : Nat}
    (h : verifyProverJoinAllocationsExpired env s op pubkey frame = .ok ())
    {filter : Bytes} (hfilter : filter ∈ op.filters) {tree : VertexTree}
    (htree : s.vertices (allocationAddress env pubkey filter) = some tree) :
    verifyAllocationExpired frame tree = .ok () := by
  obtain ⟨units, hall, -⟩ := bind_ok.mp h
  have hu := mapM_unit_ok.mp ⟨units, hall⟩ filter hfilter
  rwa [htree] at hu

/-- **Which joins past the expiry gate replace no live allocation**: those where every live one
stored for their filters was joined less than 720 frames ago. -/
theorem accepted_join_replaces_live_iff {env : GlobalEnv} {s : GlobalState} {op : ProverJoin}
    {frame : Frame}
    (hverified : verifyProverJoinAllocationsExpired env s op (joinPublicKey op) frame = .ok ()) :
    (∀ filter ∈ op.filters, ∀ tree,
      s.vertices (allocationAddress env (joinPublicKey op) filter) = some tree →
        liveAt env.epochOverride tree frame = false) ↔
    (∀ filter ∈ op.filters, ∀ tree,
      s.vertices (allocationAddress env (joinPublicKey op) filter) = some tree →
        liveAt env.epochOverride tree frame = true →
          frame.val < min (tree.readU64 .joinFrameNumber + rejoinWindowFrames) (2 ^ 64 - 1)) := by
  constructor
  · intro h filter hfilter tree htree hlive
    rw [h filter hfilter tree htree] at hlive
    cases hlive
  · intro h filter hfilter tree htree
    cases hlive : liveAt env.epochOverride tree frame with
    | false => rfl
    | true =>
      have hopen := h filter hfilter tree htree hlive
      have hover := window_over_of_verified hlive (verified_allocation hverified hfilter htree)
      omega

/-- A key manager that accepts every signature of a key of the right length. -/
def acceptingKeyManager : KeyManager where
  validateSignature := fun keyType pubkey _ _ _ =>
    .ok (pubkey.length == match keyType with | .ed448 => 57 | .falcon512 => 897)
  ed448_length := fun h => by simpa using h
  falcon512_length := fun h => by simpa using h

/-- An environment to run operations in. -/
def plainEnv : GlobalEnv where
  epochOverride := 0
  poseidon := fun bytes => BitVec.ofNat 256 (natOfBytes bytes + bytes.length)
  keyManager := acceptingKeyManager
  peerId := fun key => hexEncode key
  tables := ⟨[], [], [], [], fun _ => 5⟩
  amnestyFrames := [695000, 699500, 740000, 747000, 754000, 759000]

/-- The key of a prover. -/
def plainKey : Bytes := List.replicate 897 1

/-- A shard's filter. -/
def plainFilter : Bytes := List.replicate 32 7

/-- A join of the prover for the filter, without merge targets. -/
def plainJoin (frame : Frame) : ProverJoin :=
  ⟨[plainFilter], frame, some ⟨[], some plainKey, []⟩, [], [], []⟩

/-- The allocation of a join at frame 1. -/
def joinedAllocation : VertexTree :=
  createAllocationVertexTree plainEnv.poseidon (proverAddressFromPubkey plainEnv plainKey)
    plainFilter 1

/-- The same allocation after its confirm at frame 720. -/
def activeAllocation : VertexTree :=
  (((joinedAllocation.write .status [statusActive]).write .joinConfirmFrameNumber
    (beBytes 8 720)).write .lastActiveFrameNumber (beBytes 8 720)).write .epoch (beBytes 8 2)

/-- The prover's vertex and one allocation. -/
def stateWith (alloc : VertexTree) : GlobalState :=
  (GlobalState.mk Store.empty (fun _ => [])
    |>.setVertex (proverAddressFromPubkey plainEnv plainKey)
      (createProverVertexTree plainEnv plainKey 0)
    |>.setVertex (allocationAddress plainEnv plainKey plainFilter) alloc)

theorem exists_ok {ε α : Type} {x : Except ε α} (h : x.isOk = true) : ∃ a, x = .ok a := by
  cases x with
  | error => cases h
  | ok a => exact ⟨a, rfl⟩

/-- A join that was never confirmed is dead two epochs later and can be made
anew. -/
theorem lapsed_join_rejoins :
    ∃ s', invokeJoin plainEnv none (2160 : Frame) (plainJoin 2160) (stateWith joinedAllocation) =
        .ok s' ∧
      ∀ filter ∈ (plainJoin 2160).filters, ∀ tree, (stateWith joinedAllocation).vertices
        (allocationAddress plainEnv (joinPublicKey (plainJoin 2160)) filter) = some tree →
          liveAt plainEnv.epochOverride tree (2160 : Frame) = false := by
  obtain ⟨s', hs'⟩ := exists_ok (x := invokeJoin plainEnv none (2160 : Frame) (plainJoin 2160)
    (stateWith joinedAllocation)) (by decide +kernel)
  refine ⟨s', hs', (accepted_join_replaces_live_iff (by decide +kernel)).mpr ?_⟩
  intro filter hfilter tree htree hlive
  obtain rfl := List.mem_singleton.mp hfilter
  obtain rfl := Option.some.inj ((GlobalState.setVertex_self _ _ _).symm.trans htree)
  exact absurd hlive (by decide +kernel)

/-- **A join that replaces a live allocation**, joined at frame 1 and confirmed at 720: at frame
1440 a join for its filter passes both gates. -/
theorem join_replaces_active_allocation :
    applyFilterOp 0 plainFilter plainConfirm joinedAllocation 720 = .ok activeAllocation ∧
      (stateWith activeAllocation).vertices
        (allocationAddress plainEnv (joinPublicKey (plainJoin 1440)) plainFilter) =
          some activeAllocation ∧
      liveAt plainEnv.epochOverride activeAllocation 1440 = true ∧
      verifyProverJoinAllocationsExpired plainEnv (stateWith activeAllocation) (plainJoin 1440)
        (joinPublicKey (plainJoin 1440)) 1440 = .ok () ∧
      (invokeJoin plainEnv none 1440 (plainJoin 1440) (stateWith activeAllocation)).isOk =
        true := by
  refine ⟨rfl, ?_, by decide +kernel, by decide +kernel, by decide +kernel⟩
  exact GlobalState.setVertex_self _ _ _

end Global

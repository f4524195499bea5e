import QuilNode.Lib.OrdIndex
import QuilNode.Lib.WordOrder
import QuilNode.Global.Allocation
import QuilNode.Execution.RegistryBudget

/-!
# The prover registry and the rows it is built from

The registry caches provers, their allocations and their registered leaf roots.  A refresh reads
every row of two phases: a row of `adds` is a vertex, a row of `removes` hides the vertex at its
address.  `updateRows` replaces the rows that were written and rebuilds only the entries they feed.

An address is ordered as the number its bytes write.  A hash map is a function of its key; the
sorted vector of a filter is an ordered set.
-/

namespace Registry

open Results
open Global (VertexTree ProverStatus ProverField typeKey orderToKey globalIntrinsicAddress
  computeTypeHash)

/-! ## Decoding a row -/

/-- `ProverAllocationInfo`. -/
structure ProverAllocationInfo extends Global.ProverAllocationInfo where
  rejectionFilter : Bytes
  pauseFrameNumber : Nat
  resumeFrameNumber : Nat
  kickFrameNumber : Nat
  joinRejectFrameNumber : Nat
  leaveRejectFrameNumber : Nat
  lastActiveFrameNumber : Nat
  lastSignedFrameNumber : Nat
  ring : UInt8
  vertexAddress : Bytes
  deriving DecidableEq

/-- `ProverInfo`. -/
structure ProverInfo where
  publicKey : Bytes
  address : Bytes
  status : ProverStatus
  kickFrameNumber : Nat
  allocations : List ProverAllocationInfo
  availableStorage : Nat
  seniority : Nat
  delegateAddress : Bytes
  deriving DecidableEq

/-- `LeafRootRecord`. -/
structure LeafRootRecord where
  leafRoot : Bytes
  numBlocks : Nat
  epoch : Nat
  deriving DecidableEq

/-- `LeafRootKey`: member, leaf id and epoch. -/
abbrev LeafRootKey := Bytes × Bytes × Nat

/-- The fields of `leafroot:LeafRootRegistration`. -/
inductive LeafRootField where
  | member
  | shardFilter
  | pathPrefix
  | epoch
  | leafRoot
  | numBlocks
  | registrationFrameNumber
  | nextEpoch
  | nextLeafRoot
  | nextNumBlocks
  | prevEpoch
  | prevLeafRoot
  | prevNumBlocks
  deriving DecidableEq

/-- The orders of `leafroot:LeafRootRegistration`. -/
def LeafRootField.order : LeafRootField → Nat
  | .member => 0
  | .shardFilter => 1
  | .pathPrefix => 2
  | .epoch => 3
  | .leafRoot => 4
  | .numBlocks => 5
  | .registrationFrameNumber => 6
  | .nextEpoch => 7
  | .nextLeafRoot => 8
  | .nextNumBlocks => 9
  | .prevEpoch => 10
  | .prevLeafRoot => 11
  | .prevNumBlocks => 12

/-- `field_key("leafroot:LeafRootRegistration", _)`. -/
def LeafRootField.key (field : LeafRootField) : Bytes := orderToKey field.order

/-- `read_bytes`. -/
def readBytes (root : VertexTree) (key : Bytes) : Bytes := (root key).getD []

/-- `read_u64_be`. -/
def readU64Be (root : VertexTree) (key : Bytes) : Nat :=
  match root key with
  | none => 0
  | some bytes => if bytes.length < 8 then 0 else natOfBytes (bytes.take 8)

/-- What decoding rests on: the hash of class names, a vertex's contents, and the leaves of the
legacy tree in its own order, none for an empty tree. -/
structure RegistryEnv where
  poseidon : Bytes → Bytes32
  deserializeGoTree : Bytes → Option VertexTree
  deserializeTree : Bytes → Except String (Option (List (Bytes × Bytes)))

/-- The classes `class_for_type_hash` knows. -/
inductive RowClass where
  | prover
  | allocation
  | reward
  | spentMerge
  | leafRoot
  deriving DecidableEq

/-- `type_hash_leaf_root_registration`. -/
def typeHashLeafRootRegistration (poseidon : Bytes → Bytes32) : Bytes :=
  computeTypeHash poseidon .leafRoot

/-- `class_for_type_hash`. -/
def classForTypeHash (poseidon : Bytes → Bytes32) (hash : Bytes) : Option RowClass :=
  if hash.length ≠ 32 then none
  else if hash = computeTypeHash poseidon .prover then some .prover
  else if hash = computeTypeHash poseidon .allocation then some .allocation
  else if hash = computeTypeHash poseidon .reward then some .reward
  else if hash = computeTypeHash poseidon .spentMerge then some .spentMerge
  else if hash = typeHashLeafRootRegistration poseidon then some .leafRoot
  else none

/-- `map_prover_status`. -/
def mapProverStatus (byte : UInt8) : Option ProverStatus :=
  if byte = 0 then some .joining
  else if byte = 1 then some .active
  else if byte = 2 then some .paused
  else if byte = 3 then some .leaving
  else none

/-- `decode_prover`; `addr` is the second half of the vertex key. -/
def decodeProver (addr : Bytes32) (root : VertexTree) : Option ProverInfo :=
  let pubkey := readBytes root ProverField.publicKey.key
  if pubkey = [] then none
  else match root ProverField.status.key with
    | some [byte] => (mapProverStatus byte).map fun status =>
      { publicKey := pubkey
        address := addr.bytes
        status := status
        kickFrameNumber := readU64Be root ProverField.kickFrameNumber.key
        allocations := []
        availableStorage := readU64Be root ProverField.availableStorage.key
        seniority := readU64Be root ProverField.seniority.key
        delegateAddress := [] }
    | _ => none

/-- `decode_allocation`. -/
def decodeAllocation (addr : Bytes32) (root : VertexTree) : Option (Bytes × ProverAllocationInfo) :=
  let proverRef := (root.read .prover).getD []
  if proverRef = [] then none
  else match root.read .status with
    | some [byte] => some (proverRef, { Global.allocationInfo root byte with
          rejectionFilter := (root.read .rejectionFilter).getD []
          pauseFrameNumber := root.readU64 .pauseFrameNumber
          resumeFrameNumber := root.readU64 .resumeFrameNumber
          kickFrameNumber := root.readU64 .kickFrameNumber
          joinRejectFrameNumber := root.readU64 .joinRejectFrameNumber
          leaveRejectFrameNumber := root.readU64 .leaveRejectFrameNumber
          lastActiveFrameNumber := root.readU64 .lastActiveFrameNumber
          lastSignedFrameNumber := root.readU64 .lastSignedFrameNumber
          ring := ((root.read .ring).getD []).head?.getD 0
          vertexAddress := addr.bytes })
    | _ => none

/-- `leaf_id_bytes` of an unpacked prefix: whole words of four bytes are kept, the
rest of the prefix is dropped. -/
def leafIdBytes (shardFilter pathPrefix : Bytes) : Bytes :=
  shardFilter ++ [0xff] ++ pathPrefix.take (pathPrefix.length / 4 * 4)

/-- `decode_leaf_root`: an entry for each epoch slot that is filled. -/
def decodeLeafRoot (root : VertexTree) : List (LeafRootKey × LeafRootRecord) :=
  let member := readBytes root LeafRootField.member.key
  let shardFilter := readBytes root LeafRootField.shardFilter.key
  if member = [] then []
  else
    let leafId := leafIdBytes shardFilter (readBytes root LeafRootField.pathPrefix.key)
    let slots : List (LeafRootField × LeafRootField × LeafRootField) :=
      [(.prevEpoch, .prevLeafRoot, .prevNumBlocks), (.epoch, .leafRoot, .numBlocks),
        (.nextEpoch, .nextLeafRoot, .nextNumBlocks)]
    slots.filterMap fun (epochField, rootField, blocksField) =>
      let leafRoot := readBytes root rootField.key
      if leafRoot = [] then none
      else
        let epoch := readU64Be root epochField.key
        some ((member, leafId, epoch),
          { leafRoot := leafRoot, numBlocks := readU64Be root blocksField.key, epoch := epoch })

/-- `FirstPass`. -/
inductive FirstPass where
  | nothing
  | unknown
  | prover (info : Option ProverInfo) (retiredKey : Bytes)
  | reward
  | leafRoot (records : List (LeafRootKey × LeafRootRecord))
  deriving DecidableEq

/-- `DecodedRow`. -/
structure DecodedRow where
  first : FirstPass
  allocation : Option (Option (Bytes × ProverAllocationInfo))
  deriving DecidableEq

/-- `decode_row`. -/
def decodeRow (env : RegistryEnv) (addr : Bytes32) (data : Bytes) : DecodedRow :=
  match env.deserializeGoTree data with
  | none => { first := .nothing, allocation := none }
  | some root =>
    match root typeKey with
    | none => { first := .unknown, allocation := none }
    | some typeHash =>
      { first :=
          match classForTypeHash env.poseidon typeHash with
          | some .prover =>
            match decodeProver addr root with
            | some info => .prover (some info) []
            | none => .prover none (readBytes root ProverField.publicKey.key)
          | some .reward => .reward
          | some .leafRoot => .leafRoot (decodeLeafRoot root)
          | some .allocation => .nothing
          | _ => .unknown
        allocation :=
          if typeHash = computeTypeHash env.poseidon .allocation then
            some (decodeAllocation addr root)
          else none }

/-- `VK_LEN`. -/
def vkLen : Nat := 64

/-- `RegistryBudget::prover_charge`. -/
def proverCharge (info : ProverInfo) : RegistryUsage :=
  cacheCharge 4 [512, info.address.length, info.address.length, info.publicKey.length,
    info.delegateAddress.length]

/-- `RegistryBudget::leaf_root_charge`. -/
def leafRootCharge (key : LeafRootKey) (record : LeafRootRecord) : RegistryUsage :=
  cacheCharge 4 [512, key.1.length, key.2.1.length, record.leafRoot.length]

/-- `RegistryBudget::allocation_charge`. -/
def allocationCharge (owner : Bytes) (info : ProverAllocationInfo) : RegistryUsage :=
  let owner := owner.length
  let confirmation := info.confirmationFilter.length
  cacheCharge 16 [2048, owner, owner, owner, owner, confirmation, confirmation, confirmation,
    confirmation, info.rejectionFilter.length, info.vertexAddress.length]

/-! ## The rows -/

/-- `AddedRow`. -/
structure AddedRow where
  valueLen : Nat
  decoded : DecodedRow
  deriving DecidableEq

/-- `RegistryRows`. -/
structure RegistryRows where
  adds : OrdMap Bytes32 AddedRow
  removes : OrdMap Bytes32 Nat
  rowSizes : Bag Nat
  valueSizes : Bag Nat
  owned : SetIndex Bytes Bytes32
  leafSources : SetIndex LeafRootKey Bytes32

namespace RegistryRows

/-- `RegistryRows::default`. -/
def new : RegistryRows where
  adds := .empty
  removes := .empty
  rowSizes := .empty
  valueSizes := .empty
  owned := fun _ => none
  leafSources := fun _ => none

/-- `note_size`. -/
def noteSize (rows : RegistryRows) (value : Nat) : RegistryRows :=
  { rows with
    rowSizes := rows.rowSizes.note (vkLen + value)
    valueSizes := rows.valueSizes.note value }

/-- `forget_size`. -/
def forgetSize (rows : RegistryRows) (value : Nat) : RegistryRows :=
  { rows with
    rowSizes := rows.rowSizes.forget (vkLen + value)
    valueSizes := rows.valueSizes.forget value }

/-- `RegistryRows::add`. -/
def add (env : RegistryEnv) (rows : RegistryRows) (addr : Bytes32) (data : Bytes) : RegistryRows :=
  let rows := rows.noteSize data.length
  { rows with
    adds := rows.adds.insert addr
      { valueLen := data.length, decoded := decodeRow env addr data } }

/-- `RegistryRows::remove`. -/
def remove (rows : RegistryRows) (addr : Bytes32) (valueLen : Nat) : RegistryRows :=
  let rows := rows.noteSize valueLen
  { rows with removes := rows.removes.insert addr valueLen }

/-- `has_adds`. -/
def hasAdds (rows : RegistryRows) : Bool := !rows.adds.entries.isEmpty

/-- `largest`. -/
def largest (rows : RegistryRows) : Nat × Nat :=
  (rows.rowSizes.last?.getD 0, rows.valueSizes.last?.getD 0)

/-- `effective`. -/
def effective (rows : RegistryRows) (addr : Bytes32) : Option DecodedRow :=
  if (rows.removes.get? addr).isSome then none
  else (rows.adds.get? addr).map AddedRow.decoded

/-- The rows of `adds` that no row of `removes` hides, in address order. -/
def effectiveRows (rows : RegistryRows) : OrdMap Bytes32 DecodedRow :=
  rows.adds.filterMap fun addr row =>
    if (rows.removes.get? addr).isSome then none else some row.decoded

/-- `index`. -/
def index (rows : RegistryRows) (addr : Bytes32) (row : DecodedRow) : RegistryRows :=
  let owned := match row.allocation with
    | some (some (owner, _)) => rows.owned.add owner addr
    | _ => rows.owned
  let leafSources := match row.first with
    | .leafRoot records => records.foldl (fun sources r => sources.add r.1 addr) rows.leafSources
    | _ => rows.leafSources
  { rows with owned := owned, leafSources := leafSources }

/-- `unindex`. -/
def unindex (rows : RegistryRows) (addr : Bytes32) (row : DecodedRow) : RegistryRows :=
  let owned := match row.allocation with
    | some (some (owner, _)) => rows.owned.remove owner addr
    | _ => rows.owned
  let leafSources := match row.first with
    | .leafRoot records =>
      records.foldl (fun sources r => sources.remove r.1 addr) rows.leafSources
    | _ => rows.leafSources
  { rows with owned := owned, leafSources := leafSources }

/-- `allocations_of`. -/
def allocationsOf (rows : RegistryRows) (owner : Bytes) : List ProverAllocationInfo :=
  ((rows.owned owner).getD .empty).toList.filterMap fun addr =>
    match rows.effective addr with
    | some { allocation := some (some (_, allocation)), .. } => some allocation
    | _ => none

end RegistryRows

/-- `usage` and what the first pass makes of a row. -/
def firstCharge (usage : RegistryUsage) : FirstPass → RegistryUsage
  | .prover (some info) _ => usage.plus (proverCharge info)
  | .leafRoot records => records.foldl (fun usage r => usage.plus (leafRootCharge r.1 r.2)) usage
  | _ => usage

/-- `usage` and what both passes make of the `adds` row, unless it is hidden. -/
def decodedCharge (usage : RegistryUsage) : Option AddedRow → Option Nat → RegistryUsage
  | some row, none =>
    let usage := firstCharge usage row.decoded.first
    match row.decoded.allocation with
    | some (some (owner, allocation)) => usage.plus (allocationCharge owner allocation)
    | _ => usage
  | _, _ => usage

/-- The charge of a row that may be missing. -/
def phaseCharge (limits : RegistryLimits) : Option Nat → Option RegistryUsage
  | some len => rowCharge limits vkLen len
  | none => some 0

/-- `contribution`. -/
def contribution (limits : RegistryLimits) (adds : Option AddedRow) (removes : Option Nat) :
    Option RegistryUsage := do
  let added ← phaseCharge limits (adds.map AddedRow.valueLen)
  let removed ← phaseCharge limits removes
  some (decodedCharge ((RegistryUsage.plus 0 added).plus removed) adds removes)

/-! ## Reading the store -/

/-- `VertexDataPage`. -/
structure VertexDataPage where
  entries : List (Bytes32 × Bytes)
  hasMore : Bool

/-- The current rows after `after`, in address order. -/
def rowsAfter (rows : OrdMap Bytes32 Bytes) : Option Bytes32 → List (Bytes32 × Bytes)
  | none => rows.entries
  | some after => rows.entries.filter fun row => after < row.1

/-- The loop of `page_fixed_vertices_at_snapshot` over the rows that remain. -/
def fillPage (limits : VertexPageLimits) :
    List (Bytes32 × Bytes) → Nat → List (Bytes32 × Bytes) → Result VertexDataPage
  | taken, _, [] => .ok ⟨taken, false⟩
  | taken, used, row :: rest =>
    if taken.length = limits.maxEntries then .ok ⟨taken, true⟩
    else if limits.maxBytes < used + (64 + row.2.length) then
      if taken = [] then .error (.invalidArgument "vertex row exceeds page byte limit")
      else .ok ⟨taken, true⟩
    else fillPage limits (taken ++ [row]) (used + (64 + row.2.length)) rest

/-- `page_vertex_underlying_fixed`. -/
def pageVertexUnderlyingFixed (rows : OrdMap Bytes32 Bytes) (after : Option Bytes32)
    (limits : VertexPageLimits) : Result VertexDataPage :=
  if limits.maxEntries = 0 ∨ limits.maxBytes < 64 then
    .error (.invalidArgument "invalid vertex page limits")
  else fillPage limits [] 0 (rowsAfter rows after)

/-- One entry of a page in `visit_registry_vertices`: addresses must ascend. -/
def visitEntry {σ : Type} (visit : σ → Bytes32 → Bytes → Result σ)
    (state : Option Bytes32 × σ) (row : Bytes32 × Bytes) : Result (Option Bytes32 × σ) := do
  if state.1.any fun previous => row.1 ≤ previous then
    throw (.store "registry page is not strictly ordered")
  let next ← visit state.2 row.1 row.2
  return (some row.1, next)

/-- The loop of `visit_registry_vertices`, for at most `fuel` pages. -/
def visitPages {σ : Type} (rows : OrdMap Bytes32 Bytes) (limits : VertexPageLimits)
    (visit : σ → Bytes32 → Bytes → Result σ) :
    Nat → Option Bytes32 × σ → Result σ
  | 0, _ => .error (.internal "registry pages did not end")
  | fuel + 1, (after, state) => do
    let page ← pageVertexUnderlyingFixed rows after limits
    if page.hasMore && page.entries.isEmpty then
      throw (.store "registry page made no progress")
    let next ← page.entries.foldlM (visitEntry visit) (after, state)
    if page.hasMore then visitPages rows limits visit fuel next else return next.2

/-- `visit_registry_vertices`: a page with rows after it has a row, so there are at most one more
pages than rows. -/
def visitRegistryVertices {σ : Type} (rows : OrdMap Bytes32 Bytes) (limits : VertexPageLimits)
    (visit : σ → Bytes32 → Bytes → Result σ) (state : σ) : Result σ :=
  visitPages rows limits visit (rows.entries.length + 1) (none, state)

/-- What a registry is read from: the current rows of both phases and the legacy
tree blob. -/
structure Snapshot where
  adds : OrdMap Bytes32 Bytes
  removes : OrdMap Bytes32 Bytes
  treeBlob : Result (Option Bytes)

/-- `read_row`. -/
def readRow (rows : OrdMap Bytes32 Bytes) (addr : Bytes32) (limits : VertexPageLimits) :
    Result (Option Bytes) := do
  let after := if addr = 0 then none else some (addr - 1)
  let page ← pageVertexUnderlyingFixed rows after { limits with maxEntries := 1 }
  if page.hasMore && page.entries.isEmpty then
    throw (.store "registry page made no progress")
  return (page.entries.head?.filter fun row => row.1 = addr).map Prod.snd

/-! ## The registry -/

/-- `InMemoryProverRegistry`, without the point it was scanned at. -/
@[ext] structure InMemoryProverRegistry where
  resourceUsage : RegistryUsage
  fromRows : Bool
  largestRow : Nat
  largestValue : Nat
  rows : Option RegistryRows
  diverged : Bool
  proverCache : Bytes → Option ProverInfo
  leafRootCache : LeafRootKey → Option LeafRootRecord
  filterCache : SetIndex Bytes Bytes
  addressToFilters : Bytes → Option (List Bytes)
  rewardVertexCount : Nat
  proverVertexCount : Nat
  allocationVertexCount : Nat
  leafRootVertexCount : Nat
  unknownVertexCount : Nat

/-- `new`. -/
def InMemoryProverRegistry.new : InMemoryProverRegistry where
  resourceUsage := 0
  fromRows := false
  largestRow := 0
  largestValue := 0
  rows := none
  diverged := false
  proverCache := fun _ => none
  leafRootCache := fun _ => none
  filterCache := fun _ => none
  addressToFilters := fun _ => none
  rewardVertexCount := 0
  proverVertexCount := 0
  allocationVertexCount := 0
  leafRootVertexCount := 0
  unknownVertexCount := 0

/-- The row synthesized for an owner that has none of its own. -/
def synthesized (pubkey addr : Bytes) : ProverInfo where
  publicKey := pubkey
  address := addr
  status := .unknown
  kickFrameNumber := 0
  allocations := []
  availableStorage := 0
  seniority := 0
  delegateAddress := []

/-- Add a filter to an owner's active filters where it is not there. -/
def pushFilter (filters : List Bytes) (allocation : ProverAllocationInfo) : List Bytes :=
  if allocation.status = .active ∧ allocation.confirmationFilter ∉ filters then
    filters ++ [allocation.confirmationFilter]
  else filters

/-- `attach_allocation`. -/
def InMemoryProverRegistry.attachAllocation (self : InMemoryProverRegistry) (proverRef : Bytes)
    (alloc : ProverAllocationInfo) (retiredKey : Option Bytes) : InMemoryProverRegistry :=
  let entry := (self.proverCache proverRef).getD (synthesized (retiredKey.getD []) proverRef)
  { self with
    proverCache := Function.update self.proverCache proverRef
      (some { entry with allocations := entry.allocations ++ [alloc] })
    filterCache := self.filterCache.add alloc.confirmationFilter proverRef
    addressToFilters :=
      if alloc.status = .active then
        Function.update self.addressToFilters proverRef
          (some (pushFilter ((self.addressToFilters proverRef).getD []) alloc))
      else self.addressToFilters }

/-- What the two passes build. -/
structure Composing where
  registry : InMemoryProverRegistry
  retiredKeys : Bytes → Option Bytes
  owned : SetIndex Bytes Bytes32
  leafSources : SetIndex LeafRootKey Bytes32

/-- Cache one leaf-root record of the row at `addr`. -/
def Composing.leafRoot (c : Composing) (addr : Bytes32) (r : LeafRootKey × LeafRootRecord) :
    Composing :=
  { c with
    registry := { c.registry with
      leafRootCache := Function.update c.registry.leafRootCache r.1 (some r.2) }
    leafSources := c.leafSources.add r.1 addr }

/-- A row in the first pass of `compose_from_rows`. -/
def composeFirst (state : RegistryBudget × Composing) (row : Bytes32 × DecodedRow) :
    Result (RegistryBudget × Composing) :=
  let (budget, c) := state
  let self := c.registry
  match row.2.first with
  | .nothing => .ok (budget, c)
  | .unknown =>
    .ok (budget, { c with registry := { self with unknownVertexCount := self.unknownVertexCount + 1 } })
  | .prover info retiredKey => do
    let self := { self with proverVertexCount := self.proverVertexCount + 1 }
    match info with
    | some info =>
      let budget ← budget.charge (proverCharge info)
      return (budget, { c with registry := { self with
        proverCache := Function.update self.proverCache info.address (some info) } })
    | none =>
      if retiredKey ≠ [] then
        return (budget, { c with
          registry := self
          retiredKeys := Function.update c.retiredKeys row.1.bytes (some retiredKey) })
      else return (budget, { c with registry := self })
  | .reward =>
    .ok (budget, { c with registry := { self with rewardVertexCount := self.rewardVertexCount + 1 } })
  | .leafRoot records =>
    let c := { c with
      registry := { self with leafRootVertexCount := self.leafRootVertexCount + 1 } }
    records.foldlM (fun (state : RegistryBudget × Composing) r => do
      let budget ← state.1.charge (leafRootCharge r.1 r.2)
      return (budget, state.2.leafRoot row.1 r)) (budget, c)

/-- A row in the second pass of `compose_from_rows`. -/
def composeSecond (state : RegistryBudget × Composing) (row : Bytes32 × DecodedRow) :
    Result (RegistryBudget × Composing) :=
  let (budget, c) := state
  match row.2.allocation with
  | none => .ok (budget, c)
  | some allocation => do
    let self := { c.registry with
      allocationVertexCount := c.registry.allocationVertexCount + 1 }
    match allocation with
    | none => return (budget, { c with registry := self })
    | some (owner, allocation) =>
      let budget ← budget.charge (allocationCharge owner allocation)
      return (budget, { c with
        registry := self.attachAllocation owner allocation (c.retiredKeys owner)
        owned := c.owned.add owner row.1 })

/-- Both passes over rows in address order. -/
def composeEntries (entries : List (Bytes32 × DecodedRow)) (budget : RegistryBudget)
    (c : Composing) : Result (RegistryBudget × Composing) := do
  let state ← entries.foldlM composeFirst (budget, c)
  entries.foldlM composeSecond state

/-- `compose_from_rows`: the registry and the indexed rows. -/
def composeFromRows (rows : RegistryRows) (budget : RegistryBudget) :
    Result (RegistryBudget × InMemoryProverRegistry × RegistryRows) := do
  let (budget, c) ← composeEntries rows.effectiveRows.entries budget
    { registry := .new, retiredKeys := fun _ => none
      owned := rows.owned, leafSources := rows.leafSources }
  return (budget, c.registry, { rows with owned := c.owned, leafSources := c.leafSources })

/-- `<[u8; 32]>::try_from`. -/
def addressOf (bytes : Bytes) : Option Bytes32 :=
  if bytes.length = 32 then some (BitVec.ofNat 256 (natOfBytes bytes)) else none

/-- `decode_vertices` on the legacy tree: the same passes without the indexes, over the leaves with
a 64-byte key. -/
def decodeVertices (env : RegistryEnv) (leaves : List (Bytes × Bytes)) (budget : RegistryBudget) :
    Result (RegistryBudget × InMemoryProverRegistry) := do
  let entries := leaves.filterMap fun (vk, data) =>
    if vk.length ≠ 64 then none
    else (addressOf (vk.drop 32)).map fun addr => (addr, decodeRow env addr data)
  let (budget, c) ← composeEntries entries budget
    { registry := .new, retiredKeys := fun _ => none, owned := fun _ => none
      leafSources := fun _ => none }
  return (budget, c.registry)

/-- What a refresh has read so far. -/
structure Reading where
  rows : RegistryRows
  largestRow : Nat
  largestValue : Nat

/-- Nothing read yet. -/
def Reading.new : Reading where
  rows := .new
  largestRow := 0
  largestValue := 0

/-- The closure `row` of a refresh. -/
def Reading.row (reading : Reading) (value : Nat) : Reading :=
  { reading with
    largestRow := Nat.max reading.largestRow (vkLen + value)
    largestValue := Nat.max reading.largestValue value }

/-- What a refresh does with a row of `adds`. -/
def visitAdded (env : RegistryEnv) (state : RegistryBudget × Reading) (addr : Bytes32)
    (data : Bytes) : Result (RegistryBudget × Reading) := do
  let budget ← state.1.input vkLen data.length true
  let reading := state.2.row data.length
  return (budget, { reading with rows := reading.rows.add env addr data })

/-- What a refresh does with a row of `removes`. -/
def visitRemoved (state : RegistryBudget × Reading) (addr : Bytes32) (data : Bytes) :
    Result (RegistryBudget × Reading) := do
  let budget ← state.1.input vkLen data.length true
  let reading := state.2.row data.length
  return (budget, { reading with rows := reading.rows.remove addr data.length })

/-- The fallback of a refresh that read no row of `adds`: the leaves of the legacy
tree, each charged like a row. -/
def legacyLeaves (env : RegistryEnv) (snap : Snapshot) (budget : RegistryBudget) :
    Result (RegistryBudget × List (Bytes × Bytes)) := do
  match ← snap.treeBlob with
  | none => return (budget, [])
  | some blob =>
    let budget ← budget.input 0 blob.length false
    match env.deserializeTree blob with
    | .error e => throw (.store ("registry legacy tree: " ++ e))
    | .ok none => return (budget, [])
    | .ok (some leaves) =>
      leaves.foldlM (fun (state : RegistryBudget × List (Bytes × Bytes)) leaf => do
        let budget ← state.1.input leaf.1.length leaf.2.length true
        return (budget, state.2 ++ [leaf])) (budget, [])

/-- The 32-byte domain of the registry's vertex keys. -/
def registryDomain : Bytes := globalIntrinsicAddress

/-- `refresh_from_snapshot_with_limits`; a failed refresh leaves the registry it was
to replace. -/
def refresh (env : RegistryEnv) (limits : RegistryLimits) (snap : Snapshot) :
    Result InMemoryProverRegistry := do
  let budget ← RegistryBudget.new limits
  let (budget, reading) ←
    visitRegistryVertices snap.adds limits.page (visitAdded env) (budget, Reading.new)
  let fromRows := reading.rows.hasAdds
  let (budget, leaves) ← if fromRows then pure (budget, []) else legacyLeaves env snap budget
  let (budget, reading) ←
    visitRegistryVertices snap.removes limits.page visitRemoved (budget, reading)
  let leaves := leaves.filter fun leaf =>
    !(reading.rows.removes.entries.any fun row => leaf.1 = registryDomain ++ row.1.bytes)
  if fromRows then
    let (budget, replacement, rows) ← composeFromRows reading.rows budget
    return { replacement with
      rows := some rows
      resourceUsage := budget.usage
      fromRows := true
      largestRow := reading.largestRow
      largestValue := reading.largestValue }
  else
    let (budget, replacement) ← decodeVertices env leaves budget
    return { replacement with
      resourceUsage := budget.usage
      fromRows := false
      largestRow := reading.largestRow
      largestValue := reading.largestValue }

/-! ## The update -/

/-- `Written`: which phases of one address were written. -/
structure Written where
  adds : Bool
  removes : Bool
  deriving DecidableEq

/-- `Change`: `some` for a phase that was read again. -/
structure Change where
  address : Bytes32
  adds : Option (Option AddedRow)
  removes : Option (Option Nat)
  deriving DecidableEq

/-- A phase of an address read again, where it was written. -/
def readPhase {α : Type} (written : Bool) (rows : OrdMap Bytes32 Bytes) (addr : Bytes32)
    (page : VertexPageLimits) (keep : Bytes → α) : Result (Option (Option α)) :=
  if written then do
    let data ← readRow rows addr page
    return some (data.map keep)
  else return none

/-- One written address, read and decoded. -/
def readChange (env : RegistryEnv) (snap : Snapshot) (page : VertexPageLimits)
    (written : Bytes32 × Written) : Result Change := do
  let addr := written.1
  let adds ← readPhase written.2.adds snap.adds addr page fun data =>
    { valueLen := data.length, decoded := decodeRow env addr data : AddedRow }
  let removes ← readPhase written.2.removes snap.removes addr page List.length
  return { address := addr, adds := adds, removes := removes }

/-- The charges of one change, in the loop of `update_rows` that totals them. -/
def reckonChange (limits : RegistryLimits) (rows : RegistryRows) (state : RegistryUsage × Nat)
    (change : Change) : Except (Result Bool) (RegistryUsage × Nat) :=
  let oldAdds := rows.adds.get? change.address
  let oldRemoves := rows.removes.get? change.address
  let newAdds := change.adds.getD oldAdds
  let newRemoves := change.removes.getD oldRemoves
  match contribution limits oldAdds oldRemoves with
  | none => .error (.ok false)
  | some old =>
    match contribution limits newAdds newRemoves with
    | none => .error (.error limit)
    | some new =>
      match state.1.checkedMinus old with
      | none => .error (.ok false)
      | some without => .ok (without.plus new,
          state.2 - (if oldAdds.isSome then 1 else 0) + (if newAdds.isSome then 1 else 0))

/-- The provers and leaf-root keys a row feeds. -/
def feeds (addr : Bytes32) (fed : OrdSet Bytes × List LeafRootKey) (row : DecodedRow) :
    OrdSet Bytes × List LeafRootKey :=
  let provers := match row.first with
    | .prover _ _ => fed.1.insert addr.bytes ()
    | _ => fed.1
  let provers := match row.allocation with
    | some (some (owner, _)) => provers.insert owner ()
    | _ => provers
  let leafKeys := match row.first with
    | .leafRoot records => fed.2 ++ records.map Prod.fst
    | _ => fed.2
  (provers, leafKeys)

/-- What a changed address feeds, before or after. -/
def feedsChange (rows : RegistryRows) (fed : OrdSet Bytes × List LeafRootKey) (change : Change) :
    OrdSet Bytes × List LeafRootKey :=
  let new := (change.adds.getD (rows.adds.get? change.address)).map AddedRow.decoded
  let new := if (change.removes.getD (rows.removes.get? change.address)).isSome then none else new
  ((rows.effective change.address).toList ++ new.toList).foldl (feeds change.address) fed

/-- `count`. -/
def InMemoryProverRegistry.count (self : InMemoryProverRegistry) (row : DecodedRow) (add : Bool) :
    InMemoryProverRegistry :=
  let step := fun n : Nat => if add then n + 1 else n - 1
  let self := match row.first with
    | .nothing => self
    | .unknown => { self with unknownVertexCount := step self.unknownVertexCount }
    | .prover _ _ => { self with proverVertexCount := step self.proverVertexCount }
    | .reward => { self with rewardVertexCount := step self.rewardVertexCount }
    | .leafRoot _ => { self with leafRootVertexCount := step self.leafRootVertexCount }
  if row.allocation.isSome then
    { self with allocationVertexCount := step self.allocationVertexCount }
  else self

/-- Replace the `adds` row at an address. -/
def RegistryRows.replaceAdded (rows : RegistryRows) (addr : Bytes32) (new : Option AddedRow) :
    RegistryRows :=
  let rows := match rows.adds.get? addr with
    | some old => { rows with adds := rows.adds.erase addr }.forgetSize old.valueLen
    | none => rows
  match new with
  | some row =>
    let rows := rows.noteSize row.valueLen
    { rows with adds := rows.adds.insert addr row }
  | none => rows

/-- Replace the `removes` row at an address. -/
def RegistryRows.replaceRemoved (rows : RegistryRows) (addr : Bytes32) (new : Option Nat) :
    RegistryRows :=
  let rows := match rows.removes.get? addr with
    | some old => { rows with removes := rows.removes.erase addr }.forgetSize old
    | none => rows
  match new with
  | some len =>
    let rows := rows.noteSize len
    { rows with removes := rows.removes.insert addr len }
  | none => rows

/-- Replace the rows of the phases that were read again. -/
def RegistryRows.replace (rows : RegistryRows) (change : Change) : RegistryRows :=
  let rows := match change.adds with
    | some adds => rows.replaceAdded change.address adds
    | none => rows
  match change.removes with
  | some removes => rows.replaceRemoved change.address removes
  | none => rows

/-- The row seen at an address taken out of the counts and the indexes. -/
def dropRow (state : InMemoryProverRegistry × RegistryRows) (addr : Bytes32) :
    InMemoryProverRegistry × RegistryRows :=
  match state.2.effective addr with
  | some old => (state.1.count old false, state.2.unindex addr old)
  | none => state

/-- The row seen at an address put into the counts and the indexes. -/
def takeRow (state : InMemoryProverRegistry × RegistryRows) (addr : Bytes32) :
    InMemoryProverRegistry × RegistryRows :=
  match state.2.effective addr with
  | some new => (state.1.count new true, state.2.index addr new)
  | none => state

/-- One change made to the rows and the vertex counts. -/
def applyChange (state : InMemoryProverRegistry × RegistryRows) (change : Change) :
    InMemoryProverRegistry × RegistryRows :=
  let state := dropRow state change.address
  takeRow (state.1, state.2.replace change) change.address

/-- A row's record for a key: its last, as a refresh inserts in order. -/
def DecodedRow.recordFor (key : LeafRootKey) (row : DecodedRow) : Option LeafRootRecord :=
  match row.first with
  | .leafRoot records => (records.reverse.find? fun r => r.1 = key).map Prod.snd
  | _ => none

/-- A leaf-root key looked up in the rows again. -/
def recomposeLeafRoot (rows : RegistryRows) (self : InMemoryProverRegistry) (key : LeafRootKey) :
    InMemoryProverRegistry :=
  let record := do
    let sources ← rows.leafSources key
    let addr ← sources.last?
    let row ← rows.effective addr
    row.recordFor key
  { self with leafRootCache := Function.update self.leafRootCache key record }

/-- The confirmation filters of allocations. -/
def filtersOf (allocations : List ProverAllocationInfo) : OrdSet Bytes :=
  allocations.foldl (fun filters a => filters.insert a.confirmationFilter ()) .empty

/-- The prover entry `recompose_prover` makes of its own row and its allocations. -/
def recomposedEntry (own : Option DecodedRow) (prover : Bytes)
    (allocations : List ProverAllocationInfo) : Option ProverInfo :=
  match own.map DecodedRow.first with
  | some (.prover (some info) _) => some { info with allocations := allocations }
  | own =>
    if allocations ≠ [] then
      let pubkey := match own with
        | some (.prover none retiredKey) => retiredKey
        | _ => []
      some { synthesized pubkey prover with allocations := allocations }
    else none

/-- `recompose_prover`. -/
def recomposeProver (rows : RegistryRows) (before : OrdSet Bytes) (self : InMemoryProverRegistry)
    (prover : Bytes) : InMemoryProverRegistry :=
  let allocations := rows.allocationsOf prover
  let own := (addressOf prover).bind rows.effective
  let after := filtersOf allocations
  let filterCache := (before.toList.filter fun f => ¬ OrdSet.Has after f).foldl
    (fun cache f => cache.remove f prover) self.filterCache
  let filterCache := (after.toList.filter fun f => ¬ OrdSet.Has before f).foldl
    (fun cache f => cache.add f prover) filterCache
  let active := allocations.foldl pushFilter []
  { self with
    proverCache := Function.update self.proverCache prover (recomposedEntry own prover allocations)
    filterCache := filterCache
    addressToFilters := Function.update self.addressToFilters prover
      (if active = [] then none else some active) }

/-- The part of `update_rows` that changes the registry. -/
def InMemoryProverRegistry.applyChanges (self : InMemoryProverRegistry) (rows : RegistryRows)
    (changes : List Change) (usage : RegistryUsage) : InMemoryProverRegistry :=
  let (provers, leafKeys) := changes.foldl (feedsChange rows) (.empty, [])
  let filtersBefore := fun prover => filtersOf (rows.allocationsOf prover)
  let (self, rows) := changes.foldl applyChange (self, rows)
  let self := leafKeys.foldl (recomposeLeafRoot rows) self
  let self := provers.toList.foldl
    (fun self prover => recomposeProver rows (filtersBefore prover) self prover) self
  { self with
    largestRow := rows.largest.1
    largestValue := rows.largest.2
    rows := some rows
    resourceUsage := usage }

/-- `update_rows`: the result, and the registry after it. -/
def updateRows (env : RegistryEnv) (limits : RegistryLimits) (self : InMemoryProverRegistry)
    (snap : Snapshot) (written : OrdMap Bytes32 Written) :
    Result Bool × InMemoryProverRegistry :=
  if self.diverged || !self.fromRows then (.ok false, self)
  else match self.rows with
    | none => (.ok false, self)
    | some rows =>
      match written.entries.mapM (readChange env snap limits.page) with
      | .error e => (.error e, self)
      | .ok changes =>
        match changes.foldlM (reckonChange limits rows)
            (self.resourceUsage, rows.adds.entries.length) with
        | .error result => (result, self)
        | .ok (usage, addsLeft) =>
          if addsLeft = 0 then (.ok false, self)
          else if !admits limits usage then (.error limit, self)
          else (.ok true, self.applyChanges rows changes usage)

end Registry

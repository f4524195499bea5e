import QuilNode.Hypergraph.SettlementClaim
import QuilNode.Tries.Overwrite

/-!
# Reward mints (`token_intrinsic/mint.rs`, `confidential/mint.rs`)

GLOBAL execution debits the rewards a statement claims and writes one authorization record under
its receipt address, a hash of the statement without its signatures and proof.  Every debit is
computed from the state before any is staged, so exactness rests on `total`, which refuses a
statement that names an owner twice.
-/

namespace Token

open Hypergraph Results List State Tries

inductive TransferError where
  | dimensions
  | noncanonical
  | length
  deriving DecidableEq

/-- A fixed output, each part by its bytes. -/
structure Output where
  commitment : Bytes
  owner : Bytes
  memo : Bytes

/-- A claim on the reward of `owner`; the value is a `u128`. -/
structure RewardClaim where
  owner : Bytes32
  value : Nat
  publicKey : Bytes
  forestProof : Bytes

structure MintStatement where
  network : Bytes32
  application : Bytes32
  citedFrame : Nat
  rewardRoot : Bytes32
  fee : Nat
  claims : List RewardClaim
  outputs : List Output

structure Mint where
  statement : MintStatement
  signatures : List Bytes
  proof : Bytes

/-- A mint whose signatures, memberships and amount proof were checked. -/
structure VerifiedMint where
  mint : Mint

def maxPrivateCoins : Nat := 128
def falconPublicBytes : Nat := 897
def falconSignatureBytes : Nat := 666
def maxRewardProofBytes : Nat := 32 * 1024
def maxTransactionBytes : Nat := 2 ^ 20
def memoBytes : Nat := 1115
/-- Nine packed polynomials. -/
def commitmentBytes : Nat := 9 * 1152
/-- Three polynomials of 256 coefficients of 38 bits. -/
def identityBytes : Nat := 3 * (256 * 38 / 8)
def headerBytes : Nat := 4 + 8 + 32 + 32 + 8 + 32 + 16 + 2 + 2
def claimBytes : Nat := 32 + 16 + falconPublicBytes + 4
def outputBytes : Nat := commitmentBytes + identityBytes + memoBytes

/-- One round of `total`: the sum so far and the owners seen. -/
def addClaim (acc : Nat × List Bytes32) (claim : RewardClaim) :
    Except TransferError (Nat × List Bytes32) := do
  ensure (claim.value ≠ 0 ∧ claim.owner ∉ acc.2) .noncanonical
  -- `checked_add`
  ensure (acc.1 + claim.value < 2 ^ 128) .noncanonical
  return (acc.1 + claim.value, claim.owner :: acc.2)

namespace MintStatement

def total (s : MintStatement) : Except TransferError Nat := do
  ensure (s.claims ≠ [] ∧ s.claims.length ≤ maxPrivateCoins) .dimensions
  let acc ← s.claims.foldlM addClaim (0, [])
  return acc.1

/-- The number of context bytes; a proof is not empty and not too long. -/
def contextLength (s : MintStatement) : Except TransferError Nat :=
  s.claims.foldlM (fun len claim => do
    ensure (claim.forestProof ≠ [] ∧ claim.forestProof.length ≤ maxRewardProofBytes) .length
    return len + claimBytes + claim.forestProof.length) (headerBytes + s.outputs.length * outputBytes)

/-- Little-endian bytes. -/
def leBytes (width n : Nat) : Bytes := (beBytes width n).reverse

def contextBytes (s : MintStatement) : Except TransferError Bytes := do
  ensure (s.outputs ≠ [] ∧ s.outputs.length ≤ maxPrivateCoins) .dimensions
  let total ← s.total
  ensure (s.fee ≤ total) .noncanonical
  let len ← s.contextLength
  ensure (len + s.claims.length * falconSignatureBytes + 4 + 40 < maxTransactionBytes) .length
  return beBytes 4 0x0513 ++ asciiBytes "QCT3MT\x00\x02" ++ s.network.bytes ++ s.application.bytes ++
    leBytes 8 s.citedFrame ++ s.rewardRoot.bytes ++ leBytes 16 s.fee ++
    leBytes 2 s.claims.length ++ leBytes 2 s.outputs.length ++
    (s.claims.flatMap fun c => c.owner.bytes ++ leBytes 16 c.value ++ c.publicKey ++
      leBytes 4 c.forestProof.length ++ c.forestProof) ++
    (s.outputs.flatMap fun o => o.commitment ++ o.owner ++ o.memo)

end MintStatement

/-- The hashes. -/
structure MintPrimitives where
  tree : Hashes
  poseidon : Bytes → Result Bytes32
  sha3With256 : Bytes → Bytes
  sha3With384 : Bytes → Bytes
  parameterContext : Bytes32 → Bytes32 → Bytes

/-- The key of a vertex's type hash. -/
def typeKey : Bytes := List.replicate 32 0xff

/-- `TYPE_HASH_REWARD`. -/
def typeHashReward : Bytes :=
  [0x04, 0xb1, 0x0a, 0x01, 0x84, 0x44, 0x11, 0xbb, 0x0c, 0x39, 0x0f, 0x4c, 0xd2,
    0x62, 0x9b, 0x48, 0xcc, 0x7e, 0xf5, 0x61, 0x45, 0x5c, 0x3a, 0xda, 0xc5, 0xeb,
    0xcb, 0xad, 0x38, 0x34, 0xbf, 0xa4]

/-- `order_to_key` of the reward fields of order 0 and 1. -/
def delegateAddressKey : Bytes := [0x00]
def balanceKey : Bytes := [0x04]

def invalidMint (msg : String) : QuilError := .invalidArgument ("mint: " ++ msg)
def unavailableMint (msg : String) : QuilError := .executionUnavailable ("mint: " ++ msg)

/-- The adds set of vertices. -/
def vertexAdds : Phase := ⟨.vertex, .adds⟩

namespace MintPrimitives

variable (p : MintPrimitives)

def rewardAddress (owner : Bytes32) : Result Bytes32 :=
  p.poseidon (quilToken.bytes ++ owner.bytes)

/-- `receipt_address`: the statement's identity. -/
def receiptAddress (s : MintStatement) : Result Bytes32 :=
  match s.contextBytes with
  | .error _ => .error (.invalidArgument "invalid mint authorization")
  | .ok ctx => p.poseidon (asciiBytes "quil/mint/authorization/v4\x00" ++
      p.parameterContext s.network s.application ++ p.sha3With256 ctx)

/-- The fields of an authorization record. -/
def fields (s : MintStatement) : Result (List (Bytes × Bytes)) := do
  ensure (s.outputs ≠ [] ∧ s.outputs.length ≤ maxPrivateCoins)
    (.invalidArgument "invalid mint authorization")
  let ctx := p.parameterContext s.network s.application
  let hash := p.sha3With384 (asciiBytes "quil/mint/authorized-outputs/v4\x00" ++ ctx ++
    MintStatement.leBytes 2 s.outputs.length ++
    s.outputs.flatMap fun o => o.commitment ++ o.owner ++ o.memo)
  let kind ← p.poseidon (asciiBytes "quil/mint/authorization-record/v4\x00" ++ ctx)
  return [(typeKey, kind.bytes), ([0], ctx), ([4], hash), ([8], beBytes 16 s.fee)]

def createRecord (s : MintStatement) : Result Bytes := do
  let fields ← p.fields s
  let tree ← fields.foldlM (fun tree field =>
    insertField p.tree id tree ⟨field.1, field.2, []⟩ field.2.length) .nil
  -- only a negative size has no encoding
  return tree.serialize

/-- `write_field` of a field the schema has. -/
def writeField (tree : StoredNode) (key value : Bytes) : Result StoredNode :=
  insertField p.tree (wrapped "write_field insert: ") tree ⟨key, value, []⟩ value.length

end MintPrimitives

structure RewardUpdate where
  address : Bytes32
  blob : Bytes

/-- One round of `prepare_rewards`. -/
def prepareReward (p : MintPrimitives) (faults : Faults) (s : State) (claim : RewardClaim) :
    Result RewardUpdate := do
  let addr ← p.rewardAddress claim.owner
  let found ← s.get faults (Domain.of globalDomain) addr vertexAdds
  let blob ← okOr found (invalidMint "reward no longer exists")
  let tree ← okOr (deserializeStored blob).toOption (unavailableMint "cannot decode current reward")
  ensure (tree.tree.get typeKey = some typeHashReward)
    (unavailableMint "invalid current reward type")
  let owner ← okOr (tree.tree.get delegateAddressKey)
    (unavailableMint "missing current reward owner")
  ensure (owner.length = 32) (unavailableMint "invalid current reward owner")
  ensure (owner = claim.owner.bytes) (invalidMint "reward owner changed")
  let balance ← okOr (tree.tree.get balanceKey) (unavailableMint "missing current reward balance")
  ensure (balance.length = 32) (unavailableMint "invalid current reward balance")
  ensure (claim.value ≤ natOfBytes balance) (invalidMint "insufficient current reward balance")
  let tree ← p.writeField tree balanceKey (beBytes 32 (natOfBytes balance - claim.value))
  return ⟨addr, tree.serialize⟩

/-- Whether the receipt is known, to the token application or to GLOBAL. -/
def authorizationConsumed (faults : Faults) (s : State) (application receipt : Bytes32) :
    Result Bool := do
  let own ← s.get faults (Domain.of application) receipt vertexAdds
  if own.isSome then
    return true
  let known ← s.get faults (Domain.of globalDomain) receipt vertexAdds
  return known.isSome

/-- `prepare_rewards`: the receipt and the debited rewards. -/
def prepareRewards (p : MintPrimitives) (faults : Faults) (s : State) (m : MintStatement) :
    Result (Bytes32 × List RewardUpdate) := do
  ensure (m.application = quilToken) (invalidMint "unsupported reward domain")
  let receipt ← p.receiptAddress m
  let consumed ← authorizationConsumed faults s m.application receipt
  ensure (consumed = false) (invalidMint "authorization already consumed")
  let updates ← m.claims.mapM (prepareReward p faults s)
  return (receipt, updates)

/-- The loads that fail while the debits are computed, and while they are staged. -/
structure AuthorizeFaults where
  prepare : Faults
  stage : Faults

/-- What is checked and built before anything is staged: the receipt, and the
vertices to write, the record last. -/
def prepareAuthorization (p : MintPrimitives) (config : CrdtConfig) (faults : Faults) (s : State)
    (m : MintStatement) : Result (Bytes32 × List RewardUpdate) := do
  requireFullDomainCoverage config globalDomain
  let prepared ← prepareRewards p faults s m
  ensure (∀ r ∈ prepared.2, r.address ≠ prepared.1)
    (invalidMint "authorization collides with reward address")
  let blob ← p.createRecord m
  return (prepared.1, prepared.2 ++ [⟨prepared.1, blob⟩])

/-- Stage the vertices one by one; a failure keeps what was staged before it. -/
def stageUpdates (faults : Faults) : State → List RewardUpdate → Result Unit × State
  | s, [] => (.ok (), s)
  | s, update :: updates =>
    match s.set faults (Domain.of globalDomain) update.address vertexAdds update.blob with
    | .error e => (.error e, s)
    | .ok s' => stageUpdates faults s' updates

/-- `authorize_global`: the answer and the state after the call. -/
def authorizeGlobal (p : MintPrimitives) (config : CrdtConfig) (faults : AuthorizeFaults)
    (mint : VerifiedMint) (s : State) : Result Bytes32 × State :=
  match prepareAuthorization p config faults.prepare s mint.mint.statement with
  | .error e => (.error e, s)
  | .ok (receipt, updates) =>
    let checkpoint := s.changeset.length
    match stageUpdates faults.stage s updates with
    | (.ok (), s') => (.ok receipt, s')
    | (.error e, s') => (.error e, s'.rollbackTo checkpoint)

section Specifications

variable {p : MintPrimitives} {config : CrdtConfig} {faults : Faults} {s s' : State}
  {m : MintStatement}

theorem addClaim_ok {acc acc' : Nat × List Bytes32} {claim : RewardClaim}
    (h : addClaim acc claim = .ok acc') :
    claim.owner ∉ acc.2 ∧ acc' = (acc.1 + claim.value, claim.owner :: acc.2) := by
  obtain ⟨hfresh, h⟩ := ensure_bind.mp h
  obtain ⟨_, -, h⟩ := bind_ok.mp h
  exact ⟨hfresh.2, (pure_ok.mp h).symm⟩

/-- The owners the loop of `total` has accepted are distinct, and new to it. -/
theorem foldlM_addClaim {claims : List RewardClaim} {acc acc' : Nat × List Bytes32}
    (h : claims.foldlM addClaim acc = .ok acc') :
    (claims.map RewardClaim.owner).Nodup ∧ ∀ claim ∈ claims, claim.owner ∉ acc.2 := by
  induction claims generalizing acc with
  | nil => simp
  | cons claim claims ih =>
    rw [foldlM_cons, bind_ok] at h
    obtain ⟨_, hclaim, hclaims⟩ := h
    obtain ⟨hfresh, rfl⟩ := addClaim_ok hclaim
    obtain ⟨hnodup, hnew⟩ := ih hclaims
    constructor
    · rw [map_cons, nodup_cons]
      refine ⟨?_, hnodup⟩
      intro hmem
      obtain ⟨other, hother, heq⟩ := mem_map.mp hmem
      exact hnew other hother (by simp [heq])
    · intro other hother
      rcases mem_cons.mp hother with rfl | hother
      · exact hfresh
      · exact fun hmem => hnew other hother (mem_cons_of_mem _ hmem)

/-- A statement with a receipt names every owner once. -/
theorem receiptAddress_owners_nodup {receipt : Bytes32} (h : p.receiptAddress m = .ok receipt) :
    (m.claims.map RewardClaim.owner).Nodup := by
  unfold MintPrimitives.receiptAddress at h
  split at h
  · cases h
  rename_i ctx hcontext
  obtain ⟨_, -, hcontext⟩ := bind_ok.mp hcontext
  obtain ⟨_, htotal, -⟩ := bind_ok.mp hcontext
  obtain ⟨_, -, htotal⟩ := bind_ok.mp htotal
  obtain ⟨_, hacc, -⟩ := bind_ok.mp htotal
  exact (foldlM_addClaim hacc).1

/-- The balance of an encoded reward. -/
def balanceOf (blob : Bytes) : Option Nat :=
  (fieldOf blob balanceKey).bind fun balance =>
    if balance.length = 32 then some (natOfBytes balance) else none

/-- The reward vertex of an owner, as GLOBAL reads it. -/
def rewardBlob (p : MintPrimitives) (s : State) (owner : Bytes32) : Option Bytes :=
  match p.rewardAddress owner with
  | .ok addr => s.view .vertex globalDomain addr
  | .error _ => none

def rewardBalance (p : MintPrimitives) (s : State) (owner : Bytes32) : Option Nat :=
  (rewardBlob p s owner).bind balanceOf

/-- `blob'` is `blob` with a balance lower by `value`, which the balance covers. -/
structure Debit (value : Nat) (blob blob' : Bytes) : Prop where
  balance : ∃ before, balanceOf blob = some before ∧ value ≤ before ∧
    balanceOf blob' = some (before - value)
  other_fields : ∀ key ≠ balanceKey, fieldOf blob' key = fieldOf blob key
  ne_nil : blob' ≠ []

variable {update : RewardUpdate}

/-- One debit, computed from the state as it is. -/
theorem prepareReward_ok {claim : RewardClaim} (h : prepareReward p faults s claim = .ok update) :
    p.rewardAddress claim.owner = .ok update.address ∧
      ∃ blob, s.view .vertex globalDomain update.address = some blob ∧
        Debit claim.value blob update.blob := by
  obtain ⟨_, haddress, h⟩ := bind_ok.mp h
  obtain ⟨_, hfound, h⟩ := bind_ok.mp h
  obtain ⟨blob, hblob, h⟩ := okOr_bind.mp h
  obtain ⟨_, htree, h⟩ := okOr_bind.mp h
  obtain ⟨_, -, h⟩ := bind_ok.mp h
  obtain ⟨_, -, h⟩ := bind_ok.mp h
  obtain ⟨_, -, h⟩ := bind_ok.mp h
  obtain ⟨_, -, h⟩ := bind_ok.mp h
  obtain ⟨balance, hbalance, h⟩ := okOr_bind.mp h
  obtain ⟨hlength, h⟩ := ensure_bind.mp h
  obtain ⟨hcovered, h⟩ := ensure_bind.mp h
  obtain ⟨tree', hwritten, h⟩ := bind_ok.mp h
  rw [← pure_ok.mp h]
  have hview := get_ok hfound
  rw [hblob] at hview
  refine ⟨haddress, blob, hview.symm, ?_⟩
  have hdecode := toOption_eq_some.mp htree
  have hfields := fieldOf_overwrite hdecode hbalance (by rw [beBytes_length]; decide) hwritten
  have hbefore : balanceOf blob = some (natOfBytes balance) := by
    simp [balanceOf, fieldOf_tree hdecode, hbalance, hlength]
  have hafter : balanceOf tree'.serialize = some (natOfBytes balance - claim.value) := by
    -- the difference fits the 32 bytes it is written in
    have hlt := natOfBytes_lt balance
    rw [hlength] at hlt
    have hmod : (natOfBytes balance - claim.value) % 256 ^ 32 = natOfBytes balance - claim.value :=
      Nat.mod_eq_of_lt (by omega)
    rw [balanceOf, hfields, if_pos rfl, Option.bind_some, if_pos (beBytes_length _ _),
      natOfBytes_beBytes, hmod]
  refine ⟨⟨_, hbefore, hcovered, hafter⟩, fun key hkey => ?_, serialize_ne_nil tree'⟩
  rw [hfields, if_neg hkey]

theorem authorizationConsumed_ok {application receipt : Bytes32}
    (h : authorizationConsumed faults s application receipt = .ok false) :
    s.view .vertex globalDomain receipt = none := by
  obtain ⟨_, -, h⟩ := bind_ok.mp h
  split at h
  · cases h
  obtain ⟨_, hknown, h⟩ := bind_ok.mp h
  have hview := get_ok hknown
  rw [← hview]
  simpa using pure_ok.mp h

/-- What an authorization that passed every check is going to write. -/
structure Prepared (p : MintPrimitives) (s : State) (m : MintStatement) (receipt : Bytes32)
    (updates : List RewardUpdate) (record : Bytes) : Prop where
  receipt_eq : p.receiptAddress m = .ok receipt
  fresh : s.view .vertex globalDomain receipt = none
  updates_ok : List.Forall₂ (fun claim update => p.rewardAddress claim.owner = .ok update.address ∧
    ∃ blob, s.view .vertex globalDomain update.address = some blob ∧
      Debit claim.value blob update.blob) m.claims updates
  apart : ∀ update ∈ updates, update.address ≠ receipt
  record_eq : p.createRecord m = .ok record

theorem prepareAuthorization_ok {receipt : Bytes32} {writes : List RewardUpdate}
    (h : prepareAuthorization p config faults s m = .ok (receipt, writes)) :
    ∃ updates record, writes = updates ++ [⟨receipt, record⟩] ∧
      Prepared p s m receipt updates record := by
  obtain ⟨_, -, h⟩ := bind_ok.mp h
  obtain ⟨⟨_, _⟩, hprepared, h⟩ := bind_ok.mp h
  obtain ⟨hapart, h⟩ := ensure_bind.mp h
  obtain ⟨record, hrecord, h⟩ := bind_ok.mp h
  obtain ⟨rfl, rfl⟩ := Prod.mk.inj (pure_ok.mp h)
  obtain ⟨_, -, hprepared⟩ := bind_ok.mp hprepared
  obtain ⟨_, hreceipt, hprepared⟩ := bind_ok.mp hprepared
  obtain ⟨_, hconsumed, hprepared⟩ := bind_ok.mp hprepared
  obtain ⟨hfresh, hprepared⟩ := ensure_bind.mp hprepared
  obtain ⟨updates', hupdates, hprepared⟩ := bind_ok.mp hprepared
  obtain ⟨rfl, rfl⟩ := Prod.mk.inj (pure_ok.mp hprepared)
  rw [hfresh] at hconsumed
  exact ⟨updates', record, rfl, hreceipt, authorizationConsumed_ok hconsumed,
    (mapM_ok.mp hupdates).imp fun _ _ => prepareReward_ok, hapart, hrecord⟩

variable {updates : List RewardUpdate}

/-- The first vertex of the list is set, the others after it. -/
theorem stageUpdates_cons (h : stageUpdates faults s (update :: updates) = (.ok (), s')) :
    ∃ event s1, event ≠ .delete ∧
      Pushed s (.state ⟨Domain.of globalDomain, update.address, vertexAdds, event, update.blob⟩) s1 ∧
      stageUpdates faults s1 updates = (.ok (), s') := by
  unfold stageUpdates at h
  split at h
  · cases h
  rename_i s1 hset
  obtain ⟨event, hevent, hpushed⟩ := set_ok hset
  exact ⟨event, s1, hevent, hpushed, h⟩

/-- Staging appends to the changeset, also where it fails. -/
theorem stageUpdates_extends (faults : Faults) (s : State) (updates : List RewardUpdate) :
    (stageUpdates faults s updates).2.crdt = s.crdt ∧
      s.changeset <+: (stageUpdates faults s updates).2.changeset := by
  induction updates generalizing s with
  | nil => exact ⟨rfl, prefix_refl _⟩
  | cons update updates ih =>
    unfold stageUpdates
    split
    · exact ⟨rfl, prefix_refl _⟩
    rename_i s1 hset
    obtain ⟨_, -, hcrdt, hchangeset⟩ := set_ok hset
    obtain ⟨hcrdt', hchangeset'⟩ := ih s1
    refine ⟨hcrdt'.trans hcrdt, List.IsPrefix.trans ?_ hchangeset'⟩
    rw [hchangeset]
    exact prefix_append _ _

/-- Rolling back to the checkpoint undoes a staging. -/
theorem rollbackTo_stageUpdates (faults : Faults) (s : State) (updates : List RewardUpdate) :
    (stageUpdates faults s updates).2.rollbackTo s.changeset.length = s := by
  obtain ⟨hcrdt, hchangeset⟩ := stageUpdates_extends faults s updates
  obtain ⟨tail, htail⟩ := hchangeset
  unfold rollbackTo
  rw [hcrdt, ← htail]
  cases s with
  | mk => cases tail <;> simp

/-- Staging writes GLOBAL vertices only, and only those of its list. -/
theorem stageUpdates_view_of_notMem {kind : Kind}
    {application addr : Bytes32} (h : stageUpdates faults s updates = (.ok (), s'))
    (hother : ¬ (kind = .vertex ∧ application = globalDomain ∧
      addr ∈ updates.map RewardUpdate.address)) :
    s'.view kind application addr = s.view kind application addr := by
  induction updates generalizing s with
  | nil =>
    obtain ⟨-, rfl⟩ := Prod.mk.inj h
    rfl
  | cons update updates ih =>
    obtain ⟨_, _, -, hpushed, hrest⟩ := stageUpdates_cons h
    rw [ih hrest (fun hmem => hother ⟨hmem.1, hmem.2.1, mem_cons_of_mem _ hmem.2.2⟩)]
    apply hpushed.view_of_not_touches
    rintro ⟨hkind, happlication, haddress⟩
    have hfirst : update.address = addr := haddress
    refine hother ⟨hkind.symm, (Option.some.inj happlication).symm, ?_⟩
    rw [map_cons, hfirst]
    exact mem_cons_self

/-- A staged vertex is read back. -/
theorem stageUpdates_view_of_mem (h : stageUpdates faults s updates = (.ok (), s'))
    (hnodup : (updates.map RewardUpdate.address).Nodup) (hmem : update ∈ updates) :
    s'.view .vertex globalDomain update.address = some update.blob := by
  induction updates generalizing s with
  | nil => cases hmem
  | cons first updates ih =>
    obtain ⟨_, _, -, hpushed, hrest⟩ := stageUpdates_cons h
    rw [map_cons, nodup_cons] at hnodup
    rcases mem_cons.mp hmem with rfl | hmem
    · rw [stageUpdates_view_of_notMem hrest (fun hmem => hnodup.1 hmem.2.2)]
      exact hpushed.view_self
    · exact ih hrest hnodup.2 hmem

end Specifications

end Token

import QuilNode.Hypergraph.State
import QuilNode.Tries.VectorTree

/-!
# Settlement claims (`token_intrinsic/settlement_claim.rs`)

A bundle that grows world state opens with a claim on a GLOBAL settlement record.  Admission
checks the claim's destination, shard, binding, amount and proof, then reads the consumption
marker of the record: where it is missing it is written in the bundle's changeset.

Requests are modelled as their decoders see them: what their bytes decode to, or the error.
-/

namespace Hypergraph

open Results

/-- Compute intrinsic domain (all `0xCC`). -/
def computeDomain : Bytes32 :=
  0xCCCCCCCCCCCCCCCCCCCCCCCCCCCCCCCCCCCCCCCCCCCCCCCCCCCCCCCCCCCCCCCC

/-- QUIL token address (`poseidon("q_mainnet_token")`). -/
def quilToken : Bytes32 :=
  0x11558584af7017a9bfd1ff1864302d643fbe58c62dcf90cbcd8fde74a26794d9

def invalidClaim (msg : String) : QuilError :=
  .invalidArgument ("settlement claim: " ++ msg)

structure SettlementClaim where
  network : Bytes32
  application : Bytes32
  citedGlobalFrame : Nat
  globalRoot : Bytes32
  receipt : Bytes32
  settlement : Nat
  context : Bytes32
  paymentAddress : Bytes32
  payment : Nat
  claimantKeyType : Nat
  claimantPublicKey : Bytes
  claimantSignature : Bytes
  forestProof : Bytes

/-- Whether this claim names a pre-funded settlement's claimant key. -/
def SettlementClaim.isPrefunded (claim : SettlementClaim) : Bool :=
  !claim.claimantPublicKey.isEmpty

/-- The checks `decode` makes of the fields it has read. -/
def SettlementClaim.decode (parsed : Result SettlementClaim) : Result SettlementClaim := do
  let claim ← parsed
  if claim.settlement = 0 ∨ claim.application = quilToken ∨ claim.application = globalDomain ∨
      ¬ (claim.payment = 0 ↔ claim.paymentAddress = 0) then
    .error (invalidClaim "zero settlement or invalid destination")
  else if ¬ (claim.context = 0 ↔ claim.isPrefunded = true) ∨
      (claim.isPrefunded = true ∧ claim.claimantSignature.isEmpty = true) ∨
      (claim.isPrefunded = false ∧
        (claim.claimantKeyType ≠ 0 ∨ claim.claimantSignature.isEmpty = false)) then
    .error (invalidClaim "a claim binds either a context or a claimant")
  else
    return claim

/-- A field that should be 32 bytes long; `none` where it is not. -/
abbrev Field32 := Option Bytes32

structure VertexAdd where
  domain : Field32
  dataAddress : Field32
  data : Bytes
  signature : Bytes

structure VertexRemove where
  domain : Field32
  dataAddress : Field32
  signature : Bytes

structure HyperedgeAdd where
  domain : Field32
  value : Bytes
  signature : Bytes

structure HyperedgeRemove where
  domain : Field32
  value : Bytes
  signature : Bytes

structure HypergraphConfiguration where
  readPublicKey : Bytes
  writePublicKey : Bytes
  ownerPublicKey : Bytes

structure HypergraphDeploy where
  config : Option HypergraphConfiguration
  rdfSchema : Bytes

structure HypergraphUpdate where
  config : Option HypergraphConfiguration
  rdfSchema : Bytes
  publicKeySignature : Option Bytes

/-- The content of a request by its type prefix. -/
inductive Inner where
  | settlementClaim (parsed : Result SettlementClaim)
  | vertexAdd (parsed : Result VertexAdd)
  | vertexRemove (parsed : Result VertexRemove)
  | hyperedgeAdd (parsed : Result HyperedgeAdd)
  | hyperedgeRemove (parsed : Result HyperedgeRemove)
  | hypergraphDeployment (parsed : Result HypergraphDeploy)
  | hypergraphUpdate (parsed : Result HypergraphUpdate)
  | hypergraphConfiguration
  /-- A token deploy or update, with the size of its configuration. -/
  | tokenConfiguration (size : Result Nat)
  | compute
  | other

/-- `CanonicalMessageRequest`: the content and the number of its bytes. -/
structure Request where
  size : Nat
  inner : Inner

def Request.isClaim (r : Request) : Bool :=
  match r.inner with
  | .settlementClaim _ => true
  | _ => false

/-- A vertex tree: its fields, in key order. -/
abbrev VertexTree := List (Bytes × Bytes)

/-- The key of a marker's only field, `[0xff; 32]`. -/
def markerField : Bytes := List.replicate 32 0xff

/-- Hashes and encodings.  No hash value is the metadata address; a marker's blob decodes to the
marker's tree. -/
structure Primitives where
  consumptionMarker : Bytes32 → Bytes32 → Bytes32
  consumptionMarker_ne : ∀ destination receipt,
    consumptionMarker destination receipt ≠ metadataAddress
  markerKind : Bytes
  vertexTreeToBlob : VertexTree → Bytes
  rebuildVertexTree : Bytes → VertexTree
  rebuild_marker : rebuildVertexTree (vertexTreeToBlob [(markerField, markerKind)]) =
    [(markerField, markerKind)]
  marker_ne_nil : vertexTreeToBlob [(markerField, markerKind)] ≠ []
  splitVertexAddProofChunks : Bytes → Result (List Bytes)
  encryptedToVertexTree : List Bytes → Result VertexTree
  /-- `bundle_context` of the requests after the first. -/
  bundleContext : List (Option Request) → Int → Result Bytes32
  hashes : Tries.Hashes
  poseidon : Bytes → Bytes32
  /-- `validate_rdf_schema_bytes`, the Turtle parser. -/
  validateRdfSchema : Bytes → Result Unit
  /-- `validate_rdf_schema_evolution` of an old and a new schema. -/
  validateRdfEvolution : Bytes → Bytes → Result Unit

namespace Primitives

variable (p : Primitives)

/-- Vertex written at the consumption marker. -/
def markerRecord : Bytes := p.vertexTreeToBlob [(markerField, p.markerKind)]

/-- Whether a stored vertex blob is a consumption marker. -/
def isConsumptionMarker (blob : Bytes) : Bool :=
  if blob.isEmpty then false
  else (p.rebuildVertexTree blob).lookup markerField == some p.markerKind

theorem isConsumptionMarker_markerRecord : p.isConsumptionMarker p.markerRecord = true := by
  unfold isConsumptionMarker markerRecord
  have hne := p.marker_ne_nil
  rw [if_neg (by simpa using hne), p.rebuild_marker]
  simp

theorem markerRecord_isEmpty : p.markerRecord.isEmpty = false := by
  have hne := p.marker_ne_nil
  simpa [markerRecord] using hne

/-- Cost of a removal, of either kind. -/
def removeCost : Nat := 64

/-- `request_cost`: world-state growth in bytes. -/
def requestCost (r : Request) : Result Nat :=
  match r.inner with
  | .vertexAdd parsed => do
    let add ← parsed
    let chunks ← p.splitVertexAddProofChunks add.data
    let tree ← p.encryptedToVertexTree chunks
    return (p.vertexTreeToBlob tree).length
  | .hyperedgeAdd parsed => do
    let add ← parsed
    return add.value.length
  | .vertexRemove _ => .ok removeCost
  | .hyperedgeRemove _ => .ok removeCost
  | .hypergraphDeployment _ => .ok r.size
  | .hypergraphUpdate _ => .ok r.size
  | .tokenConfiguration size => size
  | .compute => .ok r.size
  | .settlementClaim _ => .ok p.markerRecord.length
  | .hypergraphConfiguration => .ok 0
  | .other => .ok 0

/-- The cost of a bundle, in a `u64`. -/
def bundleCost (extraCost : Nat) (requests : List (Option Request)) : Result Nat :=
  (requests.filterMap id).foldlM (fun total r => do
    let cost ← p.requestCost r
    if total + cost < 2 ^ 64 then return total + cost
    .error (invalidClaim "cost overflow")) extraCost

end Primitives

/-- A shard's bit path of at most 64 bits, or an undecodable shard. -/
inductive ShardPath where
  | unknown
  | path (bits : List Bool) (fits : bits.length ≤ 64)

/-- Whether a data address lies in the shard's range. -/
def ShardPath.covers : ShardPath → Bytes32 → Bool
  | .unknown, _ => false
  | .path bits _, addr => decide (bits <+: Bytes32.bits addr)

/-- Everything needed to admit a paid message: what loads answer, the verdicts of the checks, the
newest global frame a claim may cite, the price and the shard. -/
structure PaymentContext where
  faults : Faults
  globalBound : Option Nat
  multiplier : Int
  shard : ShardPath
  /-- `clock_reward_root` of the global clock store, if there is one. -/
  clock : Option (Nat → Nat → Result Bytes32)
  /-- `verify_membership` of the claim's entry at a root. -/
  verifyMembership : SettlementClaim → Bytes32 → Result Unit
  /-- The claimant's signature over the claim and a bundle context. -/
  verifyClaimant : SettlementClaim → Bytes32 → Result Unit

structure AdmittedClaim where
  settlement : Nat
  paymentAddress : Bytes32
  payment : Nat
  deriving DecidableEq

/-- `check_binding`: the record names the bundle's context, or its claimant signs it. -/
def SettlementClaim.checkBinding (payment : PaymentContext) (claim : SettlementClaim)
    (ctx : Bytes32) : Result Unit :=
  if !claim.isPrefunded then
    if claim.context = ctx then .ok ()
    else .error (invalidClaim "settlement context does not bind this bundle")
  else
    match payment.verifyClaimant claim ctx with
    | .ok () => .ok ()
    | .error _ => .error (invalidClaim "claimant did not authorize this bundle")

/-- The checks of a claim that do not read the marker. -/
def checkClaim (p : Primitives) (payment : PaymentContext) (addr : Domain)
    (claim : SettlementClaim) (rest : List (Option Request)) (timestamp : Int) (required : Int) :
    Result Unit := do
  if addr.application ≠ some claim.application then
    .error (invalidClaim "claim destination is not the bundle's application")
  else if payment.shard.covers (p.consumptionMarker claim.application claim.receipt) = false then
    .error (invalidClaim
      "the settlement's consumption marker belongs to another shard of this application")
  else
    let ctx ← p.bundleContext rest timestamp
    claim.checkBinding payment ctx
    if (claim.settlement : Int) < required then
      .error (invalidClaim "settlement below the bundle's dynamic cost")
    else
      match payment.globalBound, payment.clock with
      | none, _ => .error (.executionUnavailable
          "settlement claim requires a finalized global anchor")
      | some _, none => .error (.executionUnavailable
          "settlement claim requires the global clock store")
      | some bound, some clock =>
        let root ← clock claim.citedGlobalFrame bound
        if root ≠ claim.globalRoot then .error (invalidClaim "global root mismatch")
        else payment.verifyMembership claim root

/-- The discriminator of the vertex adds set. -/
def vertexAdds : Phase := ⟨.vertex, .adds⟩

/-- `admit_bundle`: enforce payment for a bundle and stage its consumption marker. -/
def admitBundle (p : Primitives) (payment : PaymentContext) (s : State) (addr : Domain)
    (requests : List (Option Request)) (timestamp : Int) (extraCost : Nat) :
    Result (Option AdmittedClaim × State) := do
  if (requests.drop 1).any (fun r => r.any Request.isClaim) then
    .error (invalidClaim "a claim must be the bundle's first and only claim")
  else
    let cost ← p.bundleCost extraCost requests
    if payment.multiplier < 0 then
      .error (invalidClaim "negative fee multiplier")
    else
      let required := payment.multiplier * cost
      match requests with
      | some ⟨_, .settlementClaim parsed⟩ :: rest =>
        let claim ← SettlementClaim.decode parsed
        checkClaim p payment addr claim rest timestamp required
        let marker := p.consumptionMarker claim.application claim.receipt
        let consumed ← s.get payment.faults (Domain.of claim.application) marker vertexAdds
        if consumed.any (fun blob => !blob.isEmpty) then
          .error (invalidClaim "settlement already consumed")
        else
          let s ← s.set payment.faults (Domain.of claim.application) marker vertexAdds
            p.markerRecord
          return (some ⟨claim.settlement, claim.paymentAddress, claim.payment⟩, s)
      | _ =>
        if required = 0 then return (none, s)
        else .error (invalidClaim "state-growing bundle requires a settlement claim")

/-- The claim a bundle opens with. -/
def openingClaim (requests : List (Option Request)) : Option SettlementClaim :=
  match requests with
  | some ⟨_, .settlementClaim parsed⟩ :: _ => (SettlementClaim.decode parsed).toOption
  | _ => none

/-- Requests without a claim. -/
theorem countP_isClaim {requests : List (Option Request)}
    (h : ¬ requests.any (fun r => r.any Request.isClaim) = true) :
    (requests.filterMap id).countP Request.isClaim = 0 := by
  rw [List.countP_eq_zero]
  intro r hr hclaim
  exact h (List.any_eq_true.mpr ⟨some r, by simpa using hr, hclaim⟩)

/-- **Admission.**  Nothing changes without a claim; the marker of the only one was not readable
before and is appended to the changeset. -/
theorem admitBundle_ok {p : Primitives} {payment : PaymentContext} {s s' : State}
    {addr : Domain} {requests : List (Option Request)} {timestamp : Int} {extraCost : Nat}
    {admitted : Option AdmittedClaim}
    (h : admitBundle p payment s addr requests timestamp extraCost = .ok (admitted, s')) :
    (admitted = none ∧ s' = s ∧ (requests.filterMap id).countP Request.isClaim = 0) ∨
      ∃ claim event, openingClaim requests = some claim ∧
        (requests.filterMap id).countP Request.isClaim = 1 ∧
        (s.view .vertex claim.application
          (p.consumptionMarker claim.application claim.receipt)).any (fun b => !b.isEmpty) = false ∧
        event ≠ StateChangeEvent.delete ∧
        Pushed s (.state ⟨Domain.of claim.application,
          p.consumptionMarker claim.application claim.receipt, vertexAdds, event,
          p.markerRecord⟩) s' := by
  unfold admitBundle at h
  split at h
  · cases h
  rename_i hrest
  obtain ⟨_, -, h⟩ := bind_ok.mp h
  split at h
  · cases h
  split at h
  · simp only [bind_ok] at h
    obtain ⟨claim, hclaim, -, -, _, hconsumed, h⟩ := h
    split at h
    · cases h
    rename_i hfree
    obtain ⟨_, ht, h⟩ := bind_ok.mp h
    obtain ⟨event, hevent, hpushed⟩ := State.set_ok ht
    obtain ⟨rfl, rfl⟩ := Prod.mk.inj (pure_ok.mp h)
    right
    refine ⟨claim, event, ?_, ?_, ?_, hevent, hpushed⟩
    · simp [openingClaim, hclaim, Except.toOption]
    · exact List.countP_cons.trans (congrArg (· + 1) (countP_isClaim hrest))
    · rw [← State.get_ok hconsumed]
      simpa using hfree
  · rename_i hfirst
    simp only at h
    split at h
    · obtain ⟨rfl, rfl⟩ := Prod.mk.inj (pure_ok.mp h)
      refine Or.inl ⟨rfl, rfl, ?_⟩
      rcases requests with _ | ⟨_ | ⟨_, inner⟩, rest⟩
      · rfl
      · exact countP_isClaim hrest
      · cases inner with
        | settlementClaim => exact absurd rfl (hfirst _ _ _)
        | _ => exact List.countP_cons.trans (countP_isClaim hrest)
    · cases h

end Hypergraph

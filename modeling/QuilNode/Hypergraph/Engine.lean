import QuilNode.Hypergraph.Metadata

/-!
# The hypergraph engine (`quil-execution/src/engines.rs`)

A message is paid for, its operations are executed in order into the changeset, and the changeset
is published and cleared.  Any error on the way clears the changeset, but a publication that fails
leaves it in place.  Verdicts of signature and proof checks and the database's failing loads belong
to the message's context.
-/

namespace Hypergraph

open Results

/-- The operations of `hg_dispatch::DispatchedMessage`, validated: their fields
have the lengths they should have. -/
inductive Op where
  | vertexAdd (domain dataAddress : Bytes32) (data signature : Bytes)
  | vertexRemove (domain dataAddress : Bytes32) (signature : Bytes)
  | hyperedgeAdd (domain : Bytes32) (value signature : Bytes)
  | hyperedgeRemove (domain : Bytes32) (value signature : Bytes)

def Op.domain : Op → Bytes32
  | .vertexAdd domain .. => domain
  | .vertexRemove domain .. => domain
  | .hyperedgeAdd domain .. => domain
  | .hyperedgeRemove domain .. => domain

/-- The label of an operation in authority errors. -/
def Op.label : Op → String
  | .vertexAdd .. => "vertex_add"
  | .vertexRemove .. => "vertex_remove"
  | .hyperedgeAdd .. => "hyperedge_add"
  | .hyperedgeRemove .. => "hyperedge_remove"

/-- A field of 32 bytes. -/
def require32 (field : Field32) (msg : String) : Result Bytes32 :=
  okOr field (.invalidArgument msg)

def VertexAdd.validate (op : VertexAdd) : Result Op := do
  let domain ← require32 op.domain "VertexAdd: invalid domain length"
  let dataAddress ← require32 op.dataAddress "VertexAdd: invalid data address length"
  ensure (op.data ≠ []) (.invalidArgument "VertexAdd: empty data")
  ensure (op.signature ≠ []) (.invalidArgument "VertexAdd: empty signature")
  return .vertexAdd domain dataAddress op.data op.signature

def VertexRemove.validate (op : VertexRemove) : Result Op := do
  let domain ← require32 op.domain "VertexRemove: invalid domain length"
  let dataAddress ← require32 op.dataAddress "VertexRemove: invalid data address length"
  ensure (op.signature ≠ []) (.invalidArgument "VertexRemove: empty signature")
  return .vertexRemove domain dataAddress op.signature

def HyperedgeAdd.validate (op : HyperedgeAdd) : Result Op := do
  let domain ← require32 op.domain "HyperedgeAdd: invalid domain length"
  ensure (op.value ≠ []) (.invalidArgument "HyperedgeAdd: empty value")
  ensure (op.signature ≠ []) (.invalidArgument "HyperedgeAdd: empty signature")
  return .hyperedgeAdd domain op.value op.signature

def HyperedgeRemove.validate (op : HyperedgeRemove) : Result Op := do
  let domain ← require32 op.domain "HyperedgeRemove: invalid domain length"
  ensure (op.value ≠ []) (.invalidArgument "HyperedgeRemove: empty value")
  ensure (op.signature ≠ []) (.invalidArgument "HyperedgeRemove: empty signature")
  return .hyperedgeRemove domain op.value op.signature

def HypergraphConfiguration.validate (config : HypergraphConfiguration) : Result Unit := do
  ensure (config.readPublicKey.length = 1158) (.invalidArgument
    "HypergraphConfiguration: invalid read public key length (expected sntrup761 1158)")
  ensure (config.writePublicKey.length = 897) (.invalidArgument
    "HypergraphConfiguration: invalid write public key length (expected Falcon 897)")
  ensure (config.ownerPublicKey = [] ∨ config.ownerPublicKey.length = 897) (.invalidArgument
    "HypergraphConfiguration: invalid owner public key length (expected 0 or Falcon 897)")

def HypergraphDeploy.validate (deploy : HypergraphDeploy) : Result Unit :=
  match deploy.config with
  | none => .error (.invalidArgument "HypergraphDeploy: nil configuration")
  | some config => config.validate

def HypergraphUpdate.validate (update : HypergraphUpdate) : Result Unit := do
  ensure (update.config.isSome ∨ update.rdfSchema ≠ []) (.invalidArgument
    "HypergraphUpdate: config and schema can be nil, but not both")
  (match update.config with
    | some config => config.validate
    | none => .ok ())
  ensure update.publicKeySignature.isSome
    (.invalidArgument "HypergraphUpdate: public key signature is nil")

/-- The result of a signature check against a domain's write key. -/
inductive AuthCheck where
  | verified
  | unknownDomain
  | invalid
  deriving DecidableEq

def AuthCheck.toResult (check : AuthCheck) (label : String) : Result Unit :=
  match check with
  | .verified => .ok ()
  | .unknownDomain => .error (.invalidArgument
      ("hypergraph " ++ label ++ ": unknown deployment (no write key resolves)"))
  | .invalid => .error (.invalidArgument
      ("hypergraph " ++ label ++ ": signature does not verify against write key"))

inductive ExecutionMode where
  | global
  | application
  deriving DecidableEq

/-- What surrounds the execution of one message. -/
structure MessageContext where
  frameNumber : Nat
  finalizedGlobalFrame : Option Nat
  venue : Option ExecutionMode
  shard : ShardPath
  feeMultiplier : Int
  address : Domain
  faults : Faults
  clock : Option (Nat → Nat → Result Bytes32)
  verifyMembership : SettlementClaim → Bytes32 → Result Unit
  verifyClaimant : SettlementClaim → Bytes32 → Result Unit
  verifyOpSignature : Op → Result AuthCheck
  verifyVertexAddProofs : List Bytes → Result Unit
  /-- `validate_hypergraph_update`: the owner-key signature and the schema evolution of an update. -/
  verifyUpdate : Domain → HypergraphUpdate → Result Unit

/-- Newest global frame a claim may cite. -/
def settlementGlobalBound (mode : ExecutionMode) (ctx : MessageContext) : Option Nat :=
  match ctx.venue.getD mode, ctx.finalizedGlobalFrame with
  | _, some anchor => some anchor
  | .global, none => if ctx.frameNumber = 0 then none else some (ctx.frameNumber - 1)
  | .application, none => none

def MessageContext.payment (ctx : MessageContext) (mode : ExecutionMode) : PaymentContext where
  faults := ctx.faults
  globalBound := settlementGlobalBound mode ctx
  multiplier := ctx.feeMultiplier
  shard := ctx.shard
  clock := ctx.clock
  verifyMembership := ctx.verifyMembership
  verifyClaimant := ctx.verifyClaimant

/-- A hyperedge's data address: the second half of the id after the atom type byte, or zero where
there is none. -/
def hyperedgeAddress (value : Bytes) : Bytes32 :=
  if 65 ≤ value.length ∧ value.head? = some 1 then
    BitVec.ofNat 256 (natOfBytes ((value.drop 33).take 32)) else 0

/-- A vertex write or removal at a consumption marker's address is refused. -/
def requireNoMarker (p : Primitives) (ctx : MessageContext) (s : State) (op : Op) : Result Unit :=
  match op with
  | .vertexAdd domain dataAddress _ _ | .vertexRemove domain dataAddress _ => do
    let blob ← s.get ctx.faults (Domain.of domain) dataAddress vertexAdds
    ensure (blob.any p.isConsumptionMarker = false) (.invalidArgument
      "hypergraph: vertex address holds a settlement consumption marker")
  | _ => .ok ()

/-- The write of an authorized operation. -/
def materializeOp (p : Primitives) (ctx : MessageContext) (s : State) : Op → Result State
  | .vertexAdd domain dataAddress data _ => do
    let chunks := (p.splitVertexAddProofChunks data).toOption.getD []
    let tree ← p.encryptedToVertexTree chunks
    s.set ctx.faults (Domain.of domain) dataAddress vertexAdds (p.vertexTreeToBlob tree)
  | .vertexRemove domain dataAddress _ =>
    .ok (s.delete (Domain.of domain) dataAddress ⟨.vertex, .removes⟩)
  | .hyperedgeAdd domain value _ =>
    s.set ctx.faults (Domain.of domain) (hyperedgeAddress value) ⟨.hyperedge, .adds⟩ value
  | .hyperedgeRemove domain value _ =>
    .ok (s.delete (Domain.of domain) (hyperedgeAddress value) ⟨.hyperedge, .removes⟩)

/-- `invoke_hypergraph_op`: the authority gate, the marker gate, the write. -/
def invokeHypergraphOp (p : Primitives) (ctx : MessageContext) (s : State) (op : Op) :
    Result State := do
  ensure (Domain.of op.domain = ctx.address) (.invalidArgument
    ("hypergraph: inner-domain/routing-domain mismatch (inner=" ++ hexEncode (Bytes32.bytes op.domain)
      ++ ", routing=" ++ hexEncode ctx.address.bytes ++ ")"))
  ensure (op.domain ∉ [globalDomain, computeDomain, quilToken]) (.invalidArgument
    ("hypergraph: write to system-managed domain " ++ hexEncode (Bytes32.bytes op.domain) ++
      " rejected"))
  let check ← ctx.verifyOpSignature op
  check.toResult op.label
  requireNoMarker p ctx s op
  materializeOp p ctx s op

/-- `materialize_hypergraph_deploy_init`: the metadata vertex of a new domain. -/
def materializeHypergraphDeploy (p : Primitives) (ctx : MessageContext) (s : State)
    (deploy : HypergraphDeploy) : Result State :=
  match deploy.config with
  | none => .ok s
  | some config => do
    let tree ← buildHypergraphConfigurationMetadataTree p.hashes config
    let blob ← initMetadataVertex p.hashes tree deploy.rdfSchema (hypergraphBaseDomain p)
    s.set ctx.faults (Domain.of (hypergraphDeployDomain p tree)) metadataAddress vertexAdds blob

/-- `materialize_hypergraph_update`: rewrite the metadata vertex of the domain. -/
def materializeHypergraphUpdate (p : Primitives) (ctx : MessageContext) (s : State)
    (update : HypergraphUpdate) : Result State := do
  let current ← s.get ctx.faults ctx.address metadataAddress vertexAdds
  match current.filter (fun b => !b.isEmpty) with
  | none => .error (.invalidArgument "hypergraph update: no existing metadata vertex")
  | some blob =>
    let next ← updatedMetadata p blob update.config update.rdfSchema
    s.set ctx.faults ctx.address metadataAddress vertexAdds next

/-- A vertex's confidential fields are checked before its signature. -/
def verifyProofs (p : Primitives) (ctx : MessageContext) : Op → Result Unit
  | .vertexAdd _ _ data _ => do
    let chunks ← p.splitVertexAddProofChunks data
    ctx.verifyVertexAddProofs chunks
  | _ => .ok ()

/-- The four atom operations: decode, validate, check the proofs, invoke. -/
def processAtom (p : Primitives) (ctx : MessageContext) (s : State)
    (validated : Result Op) : Result State := do
  let op ← validated
  verifyProofs p ctx op
  invokeHypergraphOp p ctx s op

/-- `process_inner_op`: validate a request again, then execute it; requests of
other engines pass. -/
def processInnerOp (p : Primitives) (ctx : MessageContext) (s : State) (r : Request) :
    Result State :=
  match r.inner with
  | .hypergraphDeployment parsed => do
    let deploy ← parsed
    deploy.validate
    p.validateRdfSchema deploy.rdfSchema
    materializeHypergraphDeploy p ctx s deploy
  | .hypergraphUpdate parsed => do
    let update ← parsed
    update.validate
    ctx.verifyUpdate ctx.address update
    materializeHypergraphUpdate p ctx s update
  | .vertexAdd parsed => processAtom p ctx s (parsed >>= VertexAdd.validate)
  | .vertexRemove parsed => processAtom p ctx s (parsed >>= VertexRemove.validate)
  | .hyperedgeAdd parsed => processAtom p ctx s (parsed >>= HyperedgeAdd.validate)
  | .hyperedgeRemove parsed => processAtom p ctx s (parsed >>= HyperedgeRemove.validate)
  | .hypergraphConfiguration =>
    .error (.invalidArgument "hypergraph dispatch: unknown type prefix 0x00000401")
  | .settlementClaim _ => .ok s
  | .tokenConfiguration _ => .ok s
  | .compute => .ok s
  | .other => .ok s

/-- A message by its type; `unsupported` ones are refused before anything else, `malformed` ones do
not decode. -/
inductive Message where
  | unsupported (error : QuilError)
  | malformed (error : QuilError)
  | bundle (requests : List (Option Request)) (timestamp : Int)
  | request (r : Request)

/-- The requests of a message and its timestamp; a single request is a bundle of one. -/
def Message.decode : Message → Result (List (Option Request) × Int)
  | .unsupported error => .error error
  | .malformed error => .error error
  | .bundle requests timestamp => .ok (requests, timestamp)
  | .request r => .ok ([some r], 0)

/-- Admission, then every request in order. -/
def executeMessage (p : Primitives) (mode : ExecutionMode) (ctx : MessageContext) (s : State)
    (msg : Message) : Result (Option AdmittedClaim × State) := do
  let (requests, timestamp) ← msg.decode
  let (admitted, s) ← admitBundle p (ctx.payment mode) s ctx.address requests timestamp 0
  let s ← (requests.filterMap id).foldlM (processInnerOp p ctx) s
  return (admitted, s)

/-- `process_message_with_context`. -/
def processMessage (p : Primitives) (config : CrdtConfig) (mode : ExecutionMode)
    (ctx : MessageContext) (s : State) (msg : Message) :
    Result (Option AdmittedClaim) × State :=
  match msg with
  | .unsupported error => (.error error, s)
  | msg =>
    match executeMessage p mode ctx s msg with
    | .error error => (.error error, s.abort)
    | .ok (admitted, s') =>
      match s'.commit config ctx.faults with
      | .error error => (.error error, s')
      | .ok s'' => (.ok admitted, s''.abort)

end Hypergraph

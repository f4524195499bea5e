import QuilNode.Tries.GoFormat

/-!
# Vertex membership proofs (`quil-forest/src/membership_proof.rs`)

A proof that a vertex with certain fields exists carries the vertex's own bytes.  The verifier
recomputes the vertex's leaf value, checks that the shard tree keeps it at the vertex's address,
and reads the expected fields out of the bytes.  `BoundAt` says where the leaf value fixes a field
(`membership_binds`); a leaf that commits to a hash target, or a key of another length, is outside.
-/

namespace Forest

open Results Tries

/-- `ShardAggregation`: where a sub-shard's root stands below its application's. -/
structure ShardAggregation where
  shardPhaseRoot : Bytes32
  pathBits : List Bool
  copath : List Bytes32

/-- `VertexMembershipProof`; `P` is the type of existence proofs of the shard tree. -/
structure VertexMembershipProof (P : Type) where
  vertexAddress : Bytes
  vertexBlob : Bytes
  shardProof : P
  shardAggregation : Option ShardAggregation

/-- The hash functions, and `verify_existence`: a proof, a root, a key and a value. -/
structure MembershipEnv (P : Type) extends Hashes where
  verifyExistence : P → Bytes32 → Bytes32 → Bytes → Except String Unit

/-- `data_address_of`. -/
def dataAddressOf (vertexAddress : Bytes) : Bytes :=
  if 64 ≤ vertexAddress.length then (vertexAddress.drop 32).take 32 else vertexAddress

/-- `shard_path_key_hash`: the first 32 bytes, padded by zeros. -/
def shardPathKeyHash (key : Bytes) : Bytes32 :=
  BitVec.ofNat 256 (natOfBytes (key.take 32 ++ List.replicate (32 - key.length) 0))

section Verify

variable {P : Type} (env : MembershipEnv P)

/-- `hash_pair`. -/
def hashPair (l r : Bytes32) : Bytes32 := env.sha256 (l.bytes ++ r.bytes)

/-- `app_root_from_shard_path`: from the deepest sibling up. -/
def appRootFromShardPath (target : List Bool) (shardRoot : Bytes32) (siblings : List Bytes32) :
    Bytes32 :=
  (target.zip siblings).foldr
    (fun step h => if step.1 then hashPair env step.2 h else hashPair env h step.2) shardRoot

/-- The root the existence proof is checked against. -/
def VertexMembershipProof.shardRoot (vertex : VertexMembershipProof P) (phaseRoot : Bytes32) :
    Bytes32 :=
  match vertex.shardAggregation with
  | some aggregation => aggregation.shardPhaseRoot
  | none => phaseRoot

/-- The key of the vertex in its shard tree. -/
def VertexMembershipProof.key (vertex : VertexMembershipProof P) : Bytes32 :=
  shardPathKeyHash (dataAddressOf vertex.vertexAddress)

/-- The check of one expected field. -/
def verifyField (tree : VectorTree) (expected : Bytes × Bytes) : Except String Unit :=
  match tree.get expected.1 with
  | some value => ensure (value = expected.2)
      ("forest membership: field value does not match this input's data " ++
        "(input not bound to the on-chain vertex)")
  | none => .error "forest membership: expected field absent from vertex"

/-- The sub-shard's root aggregates to the application's. -/
def verifyAggregation (phaseRoot : Bytes32) : Option ShardAggregation → Except String Unit
  | none => .ok ()
  | some aggregation => do
    ensure (aggregation.copath.length = aggregation.pathBits.length)
      "forest membership: shard-aggregation copath/prefix length mismatch"
    ensure (appRootFromShardPath env aggregation.pathBits aggregation.shardPhaseRoot
        aggregation.copath = phaseRoot)
      "forest membership: sub-shard root does not aggregate to the app phase root"

/-- `verify_vertex_membership`. -/
def verifyVertexMembership (phaseRoot : Bytes32) (vertex : VertexMembershipProof P)
    (expected : List (Bytes × Bytes)) : Except String Unit := do
  ensure (vertex.vertexBlob ≠ []) "forest membership: absent vertex (empty blob)"
  (match env.verifyExistence vertex.shardProof (vertex.shardRoot phaseRoot) vertex.key
      (vertexLeafValue env.toHashes vertex.vertexBlob) with
    | .ok _ => .ok ()
    | .error e => .error ("forest membership: Level-1 shard inclusion proof failed: " ++ e))
  let tree ← (match deserializeGoTree vertex.vertexBlob with
    | .ok tree => .ok tree
    | .error e => .error ("forest membership: decode vertex blob: " ++ e.display))
  expected.forM (verifyField tree)
  verifyAggregation env phaseRoot vertex.shardAggregation

/-- A value proved at a key, under a root or under a sub-shard that aggregates to it, is what the
tree of that root keeps there. -/
def SoundExistence (tree : Bytes32 → Bytes32 → Option Bytes) : Prop :=
  ∀ (root : Bytes32) (vertex : VertexMembershipProof P) (value : Bytes),
    env.verifyExistence vertex.shardProof (vertex.shardRoot root) vertex.key value = .ok () →
      verifyAggregation env root vertex.shardAggregation = .ok () →
        tree root vertex.key = some value

/-- Under a key the two vertices lead to the same place, with keys of one length and no hash
target. -/
def BoundAt (blob stored key : Bytes) : Prop :=
  ∃ tree tree' place node node', deserializeGoTree blob = .ok tree ∧
    deserializeGoTree stored = .ok tree' ∧ reach key tree 0 = some (place, node) ∧
    reach key tree' 0 = some (place, node') ∧ node.key.length = node'.key.length ∧
    node.hashTarget = [] ∧ node'.hashTarget = []

variable {env}

theorem verifyField_ok {tree : VectorTree} {expected : Bytes × Bytes}
    (h : verifyField tree expected = .ok ()) : tree.get expected.1 = some expected.2 := by
  unfold verifyField at h
  cases hget : tree.get expected.1 with
  | none => rw [hget] at h; cases h
  | some =>
    rw [hget] at h
    rw [ensure_ok.mp h]

/-- What a verified proof has shown. -/
theorem verifyVertexMembership_ok {root : Bytes32} {vertex : VertexMembershipProof P}
    {expected : List (Bytes × Bytes)}
    (h : verifyVertexMembership env root vertex expected = .ok ()) :
    env.verifyExistence vertex.shardProof (vertex.shardRoot root) vertex.key
        (vertexLeafValue env.toHashes vertex.vertexBlob) = .ok () ∧
      verifyAggregation env root vertex.shardAggregation = .ok () ∧
      ∃ tree, deserializeGoTree vertex.vertexBlob = .ok tree ∧
        ∀ pair ∈ expected, tree.get pair.1 = some pair.2 := by
  obtain ⟨_, _, h⟩ := bind_ok.mp h
  obtain ⟨_, hexists, h⟩ := bind_ok.mp h
  obtain ⟨tree, htree, h⟩ := bind_ok.mp h
  obtain ⟨_, hfields, haggregation⟩ := bind_ok.mp h
  refine ⟨?_, haggregation, tree, ?_, fun pair hpair => ?_⟩
  · split at hexists
    · assumption
    · cases hexists
  · split at htree
    · rename_i found hfound
      rw [hfound, Except.ok.inj htree]
    · cases htree
  · exact verifyField_ok (forM_ok.mp hfields pair hpair)

/-- Two leaves with one committed string, keys of one length and no hash target are one
entry. -/
theorem entry_eq {node node' : LeafNode}
    (hstring : node.key ++ node.payload = node'.key ++ node'.payload)
    (hlength : node.key.length = node'.key.length) (htarget : node.hashTarget = [])
    (htarget' : node'.hashTarget = []) : node.key = node'.key ∧ node.value = node'.value := by
  obtain ⟨hkey, hpayload⟩ := List.append_inj hstring hlength
  refine ⟨hkey, ?_⟩
  simpa [LeafNode.payload, htarget, htarget'] using hpayload

/-- **What a membership proof binds**: where the tree with that root keeps the leaf value of a
stored vertex at the address, every expected field that is bound. -/
theorem membership_binds (tree : Bytes32 → Bytes32 → Option Bytes)
    (hsound : SoundExistence env tree) (root : Bytes32) (vertex : VertexMembershipProof P)
    (expected : List (Bytes × Bytes)) (stored : Bytes)
    (hfree : CollisionFree env.toHashes vertex.vertexBlob stored)
    (hverify : verifyVertexMembership env root vertex expected = .ok ())
    (hstored : tree root vertex.key = some (vertexLeafValue env.toHashes stored)) :
    ∀ pair ∈ expected, BoundAt vertex.vertexBlob stored pair.1 →
      fieldOf stored pair.1 = some pair.2 := by
  obtain ⟨hexists, haggregation, carried, hcarried, hfields⟩ := verifyVertexMembership_ok hverify
  have hvalue : vertexLeafValue env.toHashes vertex.vertexBlob =
      vertexLeafValue env.toHashes stored :=
    Option.some.inj ((hsound root vertex _ hexists haggregation).symm.trans hstored)
  rintro pair hpair ⟨carried', kept, place, node, node', hcarried', hkept, hreach, hreach', hlength,
    htarget, htarget'⟩
  obtain rfl := Except.ok.inj (hcarried.symm.trans hcarried')
  obtain ⟨_, _, hread, hkey, hnode⟩ := get_eq_some.mp (hfields pair hpair)
  obtain ⟨rfl, rfl⟩ := Prod.mk.inj (Option.some.inj (hread.symm.trans hreach))
  -- the two trees commit alike, so that their leaves at one place hash one string
  have hnil : carried ≠ .nil := by rintro rfl; cases hreach
  have hnil' : kept ≠ .nil := by rintro rfl; cases hreach'
  have halike := alikeRoot_of_leafValue_eq hfree hcarried hkept hnil hnil' hvalue
  have hentry := entry_eq (halike.leafAt (leafAt_of_reach hreach) (leafAt_of_reach hreach')) hlength
    htarget htarget'
  rw [fieldOf, hkept]
  exact get_eq_some.mpr ⟨_, node', hreach', hentry.1.symm.trans hkey, hentry.2.symm.trans hnode⟩

end Verify

/-- A vertex whose one field, under key 4, holds 1. -/
def coinBlob : Bytes :=
  [1] ++ (beBytes 8 1 ++ [4]) ++ (beBytes 8 1 ++ [1]) ++ beBytes 8 0 ++ (beBytes 8 2 ++ [9, 9]) ++
    (beBytes 8 1 ++ [1])

/-- The same field holds 200, with the stored value as hash target; a stored commitment one
byte shorter keeps the length. -/
def forgedBlob : Bytes :=
  [1] ++ (beBytes 8 1 ++ [4]) ++ (beBytes 8 1 ++ [200]) ++ (beBytes 8 1 ++ [1]) ++ (beBytes 8 1 ++ [9]) ++
    (beBytes 8 1 ++ [1])

def plainHashes : Hashes where
  sha256 := fun bytes => BitVec.ofNat 256 (natOfBytes (1 :: bytes))
  sha512 := fun bytes => BitVec.ofNat _ (natOfBytes (1 :: bytes))

/-- Every root's tree keeps the coin at every address. -/
def coinTree (_ _ : Bytes32) : Option Bytes := some (vertexLeafValue plainHashes coinBlob)

/-- Existence proofs against that tree. -/
def coinEnv : MembershipEnv Unit where
  toHashes := plainHashes
  verifyExistence := fun _ root key value =>
    if coinTree root key = some value then .ok () else .error "value mismatch"

def membershipOf (blob : Bytes) : VertexMembershipProof Unit := ⟨List.replicate 64 7, blob, (), none⟩

theorem coinEnv_sound : SoundExistence coinEnv coinTree := by
  intro root vertex value hexists _
  simp only [coinEnv] at hexists
  split at hexists
  · assumption
  · cases hexists

theorem deserialize_coin : deserializeGoTree coinBlob = .ok (.leaf ⟨[4], [1], []⟩) := by rfl

theorem deserialize_forged : deserializeGoTree forgedBlob = .ok (.leaf ⟨[4], [200], [1]⟩) := by rfl

/-- Vertices of one leaf that commit to the same string hash the same strings. -/
theorem collisionFree_of_preimage_eq {h : Hashes} {blob blob' : Bytes} {node node' : LeafNode}
    (hblob : deserializeGoTree blob = .ok (.leaf node))
    (hblob' : deserializeGoTree blob' = .ok (.leaf node')) (hsame : node.preimage = node'.preimage)
    (hzero : h.sha512 node.preimage ≠ 0) : CollisionFree h blob blob' := by
  have h512 : hashed512 h blob ∪ hashed512 h blob' = {node.preimage} := by
    rw [hashed512, hashed512, hblob, hblob']
    simp [VectorTree.hashed512, hsame]
  have h256 : hashed256 h blob ∪ hashed256 h blob' = {digestBytes (h.sha512 node.preimage)} := by
    rw [hashed256, hashed256, hblob, hblob']
    simp [VectorTree.commit, VectorTree.hashed256, hsame]
  refine ⟨?_, ?_, ?_⟩
  · rw [h512]
    exact Set.injOn_singleton _ _
  · rw [h512]
    rintro x rfl
    exact hzero
  · rw [h256]
    exact Set.injOn_singleton _ _

/-- Bytes of one leaf that commit to the coin's string, and are as long, pass for the coin. -/
theorem coinEnv_verifies {blob : Bytes} {node : LeafNode}
    (hblob : deserializeGoTree blob = .ok (.leaf node)) (hlength : blob.length = coinBlob.length)
    (hsame : node.preimage = LeafNode.preimage ⟨[4], [1], []⟩) :
    verifyVertexMembership coinEnv 0 (membershipOf blob) [(node.key, node.value)] = .ok () := by
  have hne : blob ≠ [] := by
    rintro rfl
    cases hblob
  have hvalue : vertexLeafValue plainHashes blob = vertexLeafValue plainHashes coinBlob := by
    rw [vertexLeafValue, vertexLeafValue, vertexCommitment_tree hblob (fun h => nomatch h),
      vertexCommitment_tree deserialize_coin (fun h => nomatch h), VectorTree.commit,
      VectorTree.commit, hsame, hlength]
  simp [verifyVertexMembership, membershipOf, coinEnv, coinTree, hne, hvalue, hblob, ensure,
    verifyField, VectorTree.get, getRecursive, verifyAggregation, bind, Except.bind, pure,
    Except.pure]

/-- The forged vertex is proved to exist with 200 in its field, where the tree keeps the coin
with 1 in it. -/
theorem forged_field_verifies :
    SoundExistence coinEnv coinTree ∧ CollisionFree coinEnv.toHashes forgedBlob coinBlob ∧
      verifyVertexMembership coinEnv 0 (membershipOf forgedBlob) [([4], [200])] = .ok () ∧
      coinTree 0 (membershipOf forgedBlob).key = some (vertexLeafValue coinEnv.toHashes coinBlob) ∧
      fieldOf coinBlob [4] = some [1] := by
  refine ⟨coinEnv_sound, ?_, ?_, ?_, ?_⟩
  · exact collisionFree_of_preimage_eq deserialize_forged deserialize_coin rfl (by decide +kernel)
  · have hverify := coinEnv_verifies deserialize_forged (by decide +kernel) rfl
    exact hverify
  · rfl
  · rfl

/-- The coin with another stored commitment, which nobody checks. -/
def recommittedBlob : Bytes :=
  [1] ++ (beBytes 8 1 ++ [4]) ++ (beBytes 8 1 ++ [1]) ++ beBytes 8 0 ++ (beBytes 8 2 ++ [8, 7]) ++
    (beBytes 8 1 ++ [1])

theorem deserialize_recommitted :
    deserializeGoTree recommittedBlob = .ok (.leaf ⟨[4], [1], []⟩) := by rfl

/-- The coin's field is proved from those bytes. -/
theorem carried_coin_binds :
    verifyVertexMembership coinEnv 0 (membershipOf recommittedBlob) [([4], [1])] = .ok () ∧
      fieldOf coinBlob [4] = some [1] := by
  have hverify := coinEnv_verifies deserialize_recommitted rfl rfl
  refine ⟨hverify, membership_binds coinTree coinEnv_sound 0 (membershipOf recommittedBlob) _ coinBlob
    (collisionFree_of_preimage_eq deserialize_recommitted deserialize_coin rfl (by decide +kernel))
    hverify rfl _ List.mem_cons_self ?_⟩
  exact ⟨_, _, [], _, _, deserialize_recommitted, deserialize_coin, rfl, rfl, rfl, rfl, rfl⟩

end Forest

import QuilNode.Lib.Results
import QuilNode.Tries.VectorTree

/-!
# The wire format of a vertex (`quil-tries/src/go_format.rs`, `vertex_commit.rs`)

A tree is read from untrusted bytes by a cursor: a tag, length-delimited fields, and for a branch
its 64 children in turn.  The stored commitments, sizes and counts are kept (`StoredNode`); a
commitment is computed without them, from the `VectorTree` below.  `vertexLeafValue` is what the
shard tree keeps for a vertex.
-/

namespace Tries

open Results

/-- What a branch stores besides its children. -/
structure BranchData where
  commitment : Bytes
  size : Nat
  leafCount : Nat
  longestBranch : Nat

/-- `Option<VectorCommitmentNode>` with every field that is written. -/
inductive StoredNode where
  | nil
  | leaf (node : LeafNode) (commitment : Bytes) (size : Nat)
  | branch (nibbles : List Int32) (children : Fin 64 → StoredNode) (data : BranchData)

/-- The tree a commitment is computed from. -/
def StoredNode.tree : StoredNode → VectorTree
  | .nil => .nil
  | .leaf node _ _ => .leaf node
  | .branch nibbles children _ => .branch nibbles fun i => (children i).tree

/-- `GoCursor`. -/
structure GoCursor where
  buf : Bytes
  pos : Nat

/-- A read moves the cursor or fails. -/
abbrev Read (α : Type) := GoCursor → Result (α × GoCursor)

def serialization {α : Type} (msg : String) : Result α :=
  .error (.serialization ("go_format: " ++ msg))

def maxFieldBytes : Nat := 1024 * 1024 * 1024
/-- `MAX_GO_PREFIX_LEN`. -/
def maxGoNibbles : Nat := 256
/-- `MAX_GO_DEPTH`. -/
def maxGoDepth : Nat := 128

def take (n : Nat) : Read Bytes := fun c =>
  if c.buf.length < c.pos + n then
    serialization ("short read at " ++ toString c.pos ++ " (need " ++ toString n ++ ", have " ++
      toString (c.buf.length - c.pos) ++ ")")
  else .ok ((c.buf.drop c.pos).take n, { c with pos := c.pos + n })

/-- `read_u8`, `read_u32_be` and `read_u64_be`. -/
def readNat (width : Nat) : Read Nat := fun c => do
  let (bytes, c) ← take width c
  return (natOfBytes bytes, c)

/-- `read_len_prefixed`. -/
def readField : Read Bytes := fun c => do
  let (length, c) ← readNat 8 c
  if maxFieldBytes < length then
    serialization ("length " ++ toString length ++ " exceeds 1 GiB cap")
  else take length c

/-- Read a number of values in turn. -/
def readMany {α : Type} (read : Read α) : Nat → Read (List α)
  | 0 => fun c => .ok ([], c)
  | n + 1 => fun c => do
    let (value, c) ← read c
    let (values, c) ← readMany read n c
    return (value :: values, c)

/-- `read_i32_be`. -/
def readInt32 : Read Int32 := fun c => do
  let (n, c) ← readNat 4 c
  return ((UInt32.ofNat n).toInt32, c)

/-- `read_int_slice`. -/
def readNibbles : Read (List Int32) := fun c => do
  let (length, c) ← readNat 4 c
  if maxGoNibbles < length then
    serialization ("prefix length " ++ toString length ++ " exceeds max " ++ toString maxGoNibbles)
  else readMany readInt32 length c

/-- `read_leaf`. -/
def readLeaf : Read StoredNode := fun c => do
  let (key, c) ← readField c
  let (value, c) ← readField c
  let (hashTarget, c) ← readField c
  let (commitment, c) ← readField c
  let (size, c) ← readField c
  return (.leaf ⟨key, value, hashTarget⟩ commitment (natOfBytes size), c)

/-- `read_branch`, with the reader of its children; the longest branch is an `i32`. -/
def readBranch (readChild : Read StoredNode) : Read StoredNode := fun c => do
  let (nibbles, c) ← readNibbles c
  let (children, c) ← readMany readChild 64 c
  let (commitment, c) ← readField c
  let (size, c) ← readField c
  let (leafCount, c) ← readNat 8 c
  let (longest, c) ← readInt32 c
  return (.branch nibbles (fun i => children.getD i .nil)
    ⟨commitment, natOfBytes size, leafCount, longest.toInt64.toUInt64.toNat⟩, c)

/-- `read_node`; `levels` counts down from the depth cap. -/
def readNode : Nat → Read StoredNode
  | 0 => fun _ => serialization ("nesting depth exceeds max " ++ toString maxGoDepth)
  | levels + 1 => fun c => do
    let (tag, c) ← readNat 1 c
    if tag = 0 then return (.nil, c)
    else if tag = 1 then readLeaf c
    else if tag = 2 then readBranch (readNode levels) c
    else serialization ("unknown node tag " ++ toString tag)

/-- `deserialize_go_tree`. -/
def deserializeStored (blob : Bytes) : Result StoredNode := do
  let (root, _) ← readNode (maxGoDepth + 1) ⟨blob, 0⟩
  return root

/-- `deserialize_go_tree`, as far as a commitment or a lookup reads the tree. -/
def deserializeGoTree (blob : Bytes) : Result VectorTree := do
  let root ← deserializeStored blob
  return root.tree

variable (h : Hashes)

/-- `vertex_commitment`: of the tree, or of the raw bytes where they are not a tree. -/
def vertexCommitment (blob : Bytes) : Bytes32 :=
  if blob = [] then 0
  else match deserializeGoTree blob with
    | .ok .nil | .error _ => h.sha256 blob
    | .ok tree => h.sha256 (tree.commit h)

/-- `vertex_leaf_value`. -/
def vertexLeafValue (blob : Bytes) : Bytes := (vertexCommitment h blob).bytes ++ beBytes 8 blob.length

/-- What a blob's tree holds under a key. -/
def fieldOf (blob key : Bytes) : Option Bytes :=
  match deserializeGoTree blob with
  | .ok tree => tree.get key
  | .error _ => none

/-- The strings hashed by SHA-512 for a vertex. -/
def hashed512 (blob : Bytes) : Set Bytes :=
  match deserializeGoTree blob with
  | .ok tree => tree.hashed512 h
  | .error _ => ∅

/-- The strings hashed by SHA-256 for a vertex. -/
def hashed256 (blob : Bytes) : Set Bytes :=
  match deserializeGoTree blob with
  | .ok .nil | .error _ => {blob}
  | .ok tree => {x | x = tree.commit h ∨ x ∈ tree.hashed256 h}

/-- No two strings hashed for two vertices collide, and none hashes to the zeros of an empty
slot. -/
structure CollisionFree (blob blob' : Bytes) : Prop where
  sha512 : Set.InjOn h.sha512 (hashed512 h blob ∪ hashed512 h blob')
  nonzero : ∀ x ∈ hashed512 h blob ∪ hashed512 h blob', h.sha512 x ≠ 0
  sha256 : Set.InjOn h.sha256 (hashed256 h blob ∪ hashed256 h blob')

variable {h}

section Decoded

variable {blob : Bytes} {tree : VectorTree} (htree : deserializeGoTree blob = .ok tree)
  (hnil : tree ≠ .nil)
include htree hnil

theorem vertexCommitment_tree : vertexCommitment h blob = h.sha256 (tree.commit h) := by
  have hblob : blob ≠ [] := by
    rintro rfl
    cases htree
  rw [vertexCommitment, if_neg hblob, htree]
  cases tree with
  | nil => exact (hnil rfl).elim
  | leaf | branch => rfl

theorem hashed256_tree : hashed256 h blob = {x | x = tree.commit h ∨ x ∈ tree.hashed256 h} := by
  rw [hashed256, htree]
  cases tree with
  | nil => exact (hnil rfl).elim
  | leaf | branch => rfl

end Decoded

/-- Vertices with the same leaf value hold alike trees. -/
theorem alikeRoot_of_leafValue_eq {blob blob' : Bytes} {tree tree' : VectorTree}
    (hfree : CollisionFree h blob blob') (htree : deserializeGoTree blob = .ok tree)
    (htree' : deserializeGoTree blob' = .ok tree') (hnil : tree ≠ .nil) (hnil' : tree' ≠ .nil)
    (hvalue : vertexLeafValue h blob = vertexLeafValue h blob') : AlikeRoot tree tree' := by
  have hcommitment : vertexCommitment h blob = vertexCommitment h blob' :=
    Bytes32.bytes_injective (List.append_inj hvalue (by simp)).1
  rw [vertexCommitment_tree htree hnil, vertexCommitment_tree htree' hnil'] at hcommitment
  obtain ⟨h512, hzero, h256⟩ := hfree
  rw [hashed512, hashed512, htree, htree'] at h512 hzero
  rw [hashed256_tree htree hnil, hashed256_tree htree' hnil'] at h256
  refine alikeRoot_of_commit_eq h512 hzero h256 hnil hnil' Set.subset_union_left
    Set.subset_union_right (fun x hx => .inl (.inr hx)) (fun x hx => .inr (.inr hx)) ?_
  exact h256 (.inl (.inl rfl)) (.inr (.inl rfl)) hcommitment

end Tries

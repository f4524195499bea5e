import QuilNode.Tries.GoFormat
import QuilNode.Tries.TreeMutation

/-!
# Writing a vertex (`quil-tries/src/node.rs`, `tree.rs`, `go_format.rs`)

An insert renews what the nodes on its path store: a leaf gets its commitment, a branch loses its
own and counts again.  `insertStored_tree` says that the tree below is the one `insertRecursive`
makes.  What is written then has a length that depends on all of it.
-/

namespace Tries

open Results

/-- `write_len_prefixed`. -/
def lenPrefixed (data : Bytes) : Bytes := beBytes 8 data.length ++ data

/-- The bytes of a `BigInt`; zero has none. -/
def sizeBytes (n : Nat) : Bytes := if n = 0 then [] else beBytes (n.log2 / 8 + 1) n

/-- `serialize_go_tree`, by `write_node`. -/
def StoredNode.serialize : StoredNode → Bytes
  | .nil => [0]
  | .leaf node commitment size =>
    1 :: (lenPrefixed node.key ++ lenPrefixed node.value ++ lenPrefixed node.hashTarget ++
      lenPrefixed commitment ++ lenPrefixed (sizeBytes size))
  | .branch nibbles children data =>
    2 :: (beBytes 4 nibbles.length ++ nibbleBytes nibbles ++
      (List.ofFn fun i => (children i).serialize).flatten ++ lenPrefixed data.commitment ++
      lenPrefixed (sizeBytes data.size) ++ beBytes 8 data.leafCount ++ beBytes 4 data.longestBranch)

/-- A written node starts with a tag. -/
theorem serialize_ne_nil (node : StoredNode) : node.serialize ≠ [] := by
  cases node with
  | nil | leaf | branch => simp [StoredNode.serialize]

/-- The length of a written node. -/
def StoredNode.bytes (node : StoredNode) : Nat := node.serialize.length

@[simp] theorem lenPrefixed_length (data : Bytes) : (lenPrefixed data).length = 8 + data.length := by
  simp [lenPrefixed]

/-- An absent child takes one byte. -/
@[simp] theorem bytes_nil : StoredNode.nil.bytes = 1 := rfl

/-- A branch without nibbles takes 33 bytes besides its children and its own data. -/
theorem bytes_branch (children : Fin 64 → StoredNode) (data : BranchData) :
    (StoredNode.branch [] children data).bytes =
      33 + data.commitment.length + (sizeBytes data.size).length + ∑ i, (children i).bytes := by
  have hchildren : (List.ofFn fun i => (children i).serialize).flatten.length =
      ∑ i, (children i).bytes := by
    rw [List.length_flatten, List.map_ofFn, List.sum_ofFn]
    rfl
  simp only [StoredNode.bytes, StoredNode.serialize, List.length_cons, List.length_append,
    lenPrefixed_length, beBytes_length, hchildren, nibbleBytes, List.flatMap_nil, List.length_nil]
  omega

/-- A child takes the place of an absent one. -/
theorem sum_bytes_update {children : Fin 64 → StoredNode} {slot : Fin 64}
    (hempty : children slot = .nil) (child : StoredNode) :
    ∑ i, (Function.update children slot child i).bytes + 1 =
      ∑ i, (children i).bytes + child.bytes := by
  have hupdate : (fun i => (Function.update children slot child i).bytes) =
      Function.update (fun i => (children i).bytes) slot child.bytes :=
    funext fun i => Function.apply_update (fun _ => StoredNode.bytes) children slot child i
  have hslot := Finset.add_sum_erase Finset.univ (fun i => (children i).bytes) (Finset.mem_univ slot)
  rw [hempty, bytes_nil] at hslot
  rw [hupdate, Finset.sum_update_of_mem (Finset.mem_univ slot), Finset.sdiff_singleton_eq_erase]
  omega

/-- The leaves a child counts for. -/
def StoredNode.leafCount : StoredNode → Nat
  | .nil => 0
  | .leaf .. => 1
  | .branch _ _ data => data.leafCount

/-- The depth a child counts for. -/
def StoredNode.longestBranch : StoredNode → Nat
  | .branch _ _ data => data.longestBranch
  | _ => 0

/-- The `size` of a node. -/
def StoredNode.size : StoredNode → Nat
  | .nil => 0
  | .leaf _ _ size => size
  | .branch _ _ data => data.size

section Insertion

variable (h : Hashes) (node : LeafNode) (size : Nat)

/-- The leaf an insert writes, with its commitment. -/
def storedLeaf : StoredNode := .leaf node (digestBytes (h.sha512 node.preimage)) size

/-- Put a child at the slot of a nibble; behind the end of its key it has none. -/
def placeStored (nibble : Int32) (child : StoredNode) (children : Fin 64 → StoredNode) :
    Fin 64 → StoredNode :=
  if nibble < 0 then children else Function.update children (childSlot nibble) child

/-- The branch that takes the place of a leaf with another key. -/
def splitStoredLeaf (existing : LeafNode) (commitment : Bytes) (held depth : Nat) : StoredNode :=
  let common := getNibblesUntilDiverge existing.key node.key depth
  .branch common.1 (placeStored (getNextNibble node.key common.2) (storedLeaf h node size)
    (placeStored (getNextNibble existing.key common.2) (.leaf existing commitment held)
      fun _ => .nil)) ⟨[], 0, 2, 0⟩

/-- The branch that takes the place of one whose nibbles the key leaves. -/
def splitStoredBranch (nibbles : List Int32) (children : Fin 64 → StoredNode) (data : BranchData)
    (depth : Nat) : StoredNode :=
  let i := matchedNibbles node.key nibbles depth
  .branch (nibbles.take i) (placeStored (getNextNibble node.key (depth + branchBits * i))
    (storedLeaf h node size) (Function.update (fun _ => .nil) (childSlot (nibbles.getD i 0))
      (.branch (nibbles.drop (i + 1)) children { data with commitment := [] })))
    ⟨[], 0, min (data.leafCount + 1) (2 ^ 64 - 1), min (data.longestBranch + 1) (2 ^ 64 - 1)⟩

/-- `insert_recursive`, with what it stores. -/
def insertStored : StoredNode → Nat → Except TreeError StoredNode
  | .nil, _ => .ok (storedLeaf h node size)
  | .leaf existing commitment held, depth =>
    .ok (if existing.key = node.key then storedLeaf h node size
      else splitStoredLeaf h node size existing commitment held depth)
  | .branch nibbles children data, depth =>
    match skipNibbles node.key nibbles depth with
    | none => .ok (splitStoredBranch h node size nibbles children data depth)
    | some depth =>
      let nibble := getNextNibble node.key depth
      if nibble < 0 then .error (.invalidArgument "key too short for tree depth")
      else
        match insertStored (children (childSlot nibble)) (depth + branchBits) with
        | .error e => .error e
        | .ok child =>
          let children := Function.update children (childSlot nibble) child
          .ok (.branch nibbles children ⟨[], data.size,
            (List.ofFn fun i => (children i).leafCount).sum,
            1 + (List.ofFn fun i => (children i).longestBranch).foldl max 0⟩)

/-- An error as `Internal`, with the text before it. -/
def wrapped (label : String) (error : QuilError) : QuilError := .internal (label ++ error.display)

/-- `VectorCommitmentTree::insert`, with its error as the caller passes it on; an insert raises no
`NotFound`. -/
def insertField (wrap : QuilError → QuilError) (tree : StoredNode) (node : LeafNode) (size : Nat) :
    Result StoredNode :=
  match insertStored h node size tree 0 with
  | .ok tree => .ok tree
  | .error (.invalidArgument msg) | .error (.notFound msg) =>
    .error (wrap (.invalidArgument msg))

variable {h node size}

/-- A field is inserted where the tree inserts it. -/
theorem insertField_ok {wrap : QuilError → QuilError} {tree tree' : StoredNode} :
    insertField h wrap tree node size = .ok tree' ↔ insertStored h node size tree 0 = .ok tree' := by
  unfold insertField
  split <;> simp_all

/-- The trees below children of which one is replaced. -/
theorem tree_update (children : Fin 64 → StoredNode) (slot : Fin 64) (child : StoredNode) :
    (fun i => (Function.update children slot child i).tree) =
      Function.update (fun i => (children i).tree) slot child.tree :=
  funext fun i => Function.apply_update (fun _ => StoredNode.tree) children slot child i

/-- The trees below children to which a leaf is added. -/
theorem placeStored_tree (nibble : Int32) (leaf : LeafNode) (commitment : Bytes) (held : Nat)
    (children : Fin 64 → StoredNode) :
    (fun i => (placeStored nibble (.leaf leaf commitment held) children i).tree) =
      placeLeaf nibble leaf fun i => (children i).tree := by
  unfold placeStored placeLeaf
  split
  · rfl
  · exact tree_update ..

/-- **The stored tree refines the tree**: below what it stores, an insert is `insertRecursive`. -/
theorem insertStored_tree (stored : StoredNode) (depth : Nat) :
    (insertStored h node size stored depth).map StoredNode.tree =
      insertRecursive node stored.tree depth := by
  induction stored generalizing depth with
  | nil => rfl
  | leaf existing commitment held =>
    simp only [insertStored, insertRecursive, StoredNode.tree, Except.map]
    split
    · rfl
    · simp only [splitStoredLeaf, splitLeaf, storedLeaf, StoredNode.tree, placeStored_tree]
  | branch nibbles children data ih =>
    simp only [insertStored, insertRecursive, StoredNode.tree]
    cases skipNibbles node.key nibbles depth with
    | none =>
      simp only [splitStoredBranch, splitBranch, storedLeaf, StoredNode.tree, Except.map,
        placeStored_tree, tree_update]
    | some depth =>
      simp only
      split
      · rfl
      · rw [← ih]
        cases insertStored h node size (children (childSlot (getNextNibble node.key depth)))
            (depth + branchBits) with
        | error => rfl
        | ok child => simp only [Except.map, StoredNode.tree, tree_update]

/-- A branch as inserts make one at the root: without nibbles, commitment and size, its children in
certain slots. -/
def IsFresh (stored : StoredNode) (slots : List (Fin 64)) (length : Nat) : Prop :=
  ∃ children leafCount longestBranch,
    stored = .branch [] children ⟨[], 0, leafCount, longestBranch⟩ ∧
      (∀ slot, slot ∉ slots → children slot = .nil) ∧ 33 + ∑ i, (children i).bytes = length

theorem IsFresh.bytes {stored : StoredNode} {slots : List (Fin 64)} {length : Nat}
    (hfresh : IsFresh stored slots length) : stored.bytes = length := by
  obtain ⟨_, _, _, rfl, -, rfl⟩ := hfresh
  exact bytes_branch ..

/-- One child more. -/
theorem IsFresh.update {children : Fin 64 → StoredNode} {slots : List (Fin 64)} {slot : Fin 64}
    {data : BranchData} {length : Nat} (hfresh : IsFresh (.branch [] children data) slots length)
    (hslot : slot ∉ slots) (child : StoredNode) (leafCount longestBranch : Nat) :
    IsFresh (.branch [] (Function.update children slot child) ⟨[], 0, leafCount, longestBranch⟩)
      (slot :: slots) (length + child.bytes - 1) := by
  obtain ⟨_, _, _, heq, hempty, rfl⟩ := hfresh
  obtain ⟨-, rfl, -⟩ := StoredNode.branch.inj heq
  refine ⟨_, _, _, rfl, fun other hother => ?_, ?_⟩
  · rw [List.mem_cons, not_or] at hother
    rw [Function.update_of_ne hother.1, hempty other hother.2]
  · have hsum := sum_bytes_update (hempty slot hslot) child
    omega

/-- A key that finds its slot empty is put there. -/
theorem IsFresh.insertStored {stored : StoredNode} {slots : List (Fin 64)} {length : Nat}
    {key : Bytes} {nibble : Int32} (hfresh : IsFresh stored slots length)
    (hnext : getNextNibble key 0 = nibble) (hslot : ¬ nibble < 0 ∧ childSlot nibble ∉ slots)
    (value target : Bytes) (size : Nat) :
    ∃ stored', Tries.insertStored h ⟨key, value, target⟩ size stored 0 = .ok stored' ∧
      IsFresh stored' (childSlot nibble :: slots)
        (length + (storedLeaf h ⟨key, value, target⟩ size).bytes - 1) := by
  obtain ⟨children, _, _, rfl, hempty, -⟩ := id hfresh
  simp only [Tries.insertStored, skipNibbles, hnext, if_neg hslot.1, hempty _ hslot.2,
    Except.ok.injEq, exists_eq_left']
  exact hfresh.update hslot.2 _ _ _

end Insertion

end Tries

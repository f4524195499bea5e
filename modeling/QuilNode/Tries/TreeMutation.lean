import QuilNode.Tries.VectorTree

/-!
# Inserting and deleting (`quil-tries/src/tree.rs`)

Both mutations take the root out of the tree, rebuild the path of the key below it and put the
result back.  An insert returns its error before anything is put back: the tree is then empty,
whatever it held (`mutations_atomic_iff`).  The only such error is a key that ends at a branch.
-/

namespace Tries

/-- The errors of the two mutations. -/
inductive TreeError where
  | invalidArgument (msg : String)
  | notFound (msg : String)
  deriving DecidableEq

/-- The loop of `get_nibbles_until_diverge`, with the steps it may still make. -/
def nibblesUntilDiverge (key₁ key₂ : Bytes) : Nat → Nat → List Int32 × Nat
  | 0, depth => ([], depth)
  | steps + 1, depth =>
    let n := getNextNibble key₁ depth
    if n ≠ getNextNibble key₂ depth ∨ n = -1 then ([], depth)
    else
      let rest := nibblesUntilDiverge key₁ key₂ steps (depth + branchBits)
      (n :: rest.1, rest.2)

/-- `get_nibbles_until_diverge`; behind the last bit of a key the loop has ended. -/
def getNibblesUntilDiverge (key₁ key₂ : Bytes) (startDepth : Nat) : List Int32 × Nat :=
  nibblesUntilDiverge key₁ key₂ (8 * key₁.length + 1) startDepth

/-- Put a leaf at the slot of a nibble; behind the end of its key it has none. -/
def placeLeaf (nibble : Int32) (node : LeafNode) (children : Fin 64 → VectorTree) :
    Fin 64 → VectorTree :=
  if nibble < 0 then children else Function.update children (childSlot nibble) (.leaf node)

/-- The branch that takes the place of a leaf with another key. -/
def splitLeaf (existing node : LeafNode) (depth : Nat) : VectorTree :=
  let common := getNibblesUntilDiverge existing.key node.key depth
  .branch common.1 (placeLeaf (getNextNibble node.key common.2) node
    (placeLeaf (getNextNibble existing.key common.2) existing fun _ => .nil))

/-- How many of a branch's compressed nibbles the key has. -/
def matchedNibbles (key : Bytes) : List Int32 → Nat → Nat
  | [], _ => 0
  | p :: nibbles, depth =>
    if getNextNibble key depth ≠ p then 0 else matchedNibbles key nibbles (depth + branchBits) + 1

/-- The branch that takes the place of one whose nibbles the key leaves. -/
def splitBranch (nibbles : List Int32) (children : Fin 64 → VectorTree) (node : LeafNode)
    (depth : Nat) : VectorTree :=
  let i := matchedNibbles node.key nibbles depth
  .branch (nibbles.take i) (placeLeaf (getNextNibble node.key (depth + branchBits * i)) node
    (Function.update (fun _ => .nil) (childSlot (nibbles.getD i 0))
      (.branch (nibbles.drop (i + 1)) children)))

/-- `insert_recursive`. -/
def insertRecursive (node : LeafNode) : VectorTree → Nat → Except TreeError VectorTree
  | .nil, _ => .ok (.leaf node)
  | .leaf existing, depth =>
    .ok (if existing.key = node.key then .leaf node else splitLeaf existing node depth)
  | .branch nibbles children, depth =>
    match skipNibbles node.key nibbles depth with
    | none => .ok (splitBranch nibbles children node depth)
    | some depth =>
      let nibble := getNextNibble node.key depth
      if nibble < 0 then .error (.invalidArgument "key too short for tree depth")
      else
        match insertRecursive node (children (childSlot nibble)) (depth + branchBits) with
        | .error e => .error e
        | .ok child => .ok (.branch nibbles (Function.update children (childSlot nibble) child))

/-- `VectorCommitmentTree::insert`: its result, and the tree it leaves. -/
def VectorTree.insert (tree : VectorTree) (node : LeafNode) : Except TreeError Unit × VectorTree :=
  match insertRecursive node tree 0 with
  | .error e => (.error e, .nil)
  | .ok root => (.ok (), root)

def VectorTree.isNil : VectorTree → Bool
  | .nil => true
  | _ => false

/-- `merge_branch_with_child`. -/
def mergeBranchWithChild (nibbles : List Int32) (index : Fin 64) : VectorTree → VectorTree
  | .branch below children => .branch (nibbles ++ Int32.ofNat index :: below) children
  | child => child

/-- A branch a leaf was deleted below: one child takes its place. -/
def collapse (nibbles : List Int32) (children : Fin 64 → VectorTree) : VectorTree :=
  match (List.finRange 64).filter fun i => !(children i).isNil with
  | [] => .nil
  | [only] => mergeBranchWithChild nibbles only (children only)
  | _ => .branch nibbles children

/-- `delete_recursive`: whether the key was found, and the node to put back. -/
def deleteRecursive (key : Bytes) : VectorTree → Nat → Bool × VectorTree
  | .nil, _ => (false, .nil)
  | .leaf node, _ => if node.key = key then (true, .nil) else (false, .leaf node)
  | .branch nibbles children, depth =>
    match skipNibbles key nibbles depth with
    | none => (false, .branch nibbles children)
    | some depth =>
      let nibble := getNextNibble key depth
      if nibble < 0 then (false, .branch nibbles children)
      else
        let below := deleteRecursive key (children (childSlot nibble)) (depth + branchBits)
        let children := Function.update children (childSlot nibble) below.2
        if below.1 = false then (false, .branch nibbles children)
        else (true, collapse nibbles children)

/-- `hex_short`. -/
def hexShort (key : Bytes) : String :=
  hexEncode (key.take 8) ++ if 8 < key.length then ".." else ""

/-- `VectorCommitmentTree::delete`: its result, and the tree it leaves. -/
def VectorTree.delete (tree : VectorTree) (key : Bytes) : Except TreeError Unit × VectorTree :=
  if key = [] then (.error (.invalidArgument "delete: empty key not allowed"), tree)
  else
    let (found, root) := deleteRecursive key tree 0
    (if found then .ok () else .error (.notFound s!"key {hexShort key} not found in tree"), root)

/-- `VectorCommitmentTree::leaves`. -/
def VectorTree.leaves : VectorTree → List (Bytes × Bytes)
  | .nil => []
  | .leaf node => [(node.key, node.value)]
  | .branch _ children => (List.finRange 64).flatMap fun i => (children i).leaves

/-- A key that is not found leaves every node on its path as it was. -/
theorem deleteRecursive_of_not_found {key : Bytes} {tree : VectorTree} {depth : Nat}
    (h : (deleteRecursive key tree depth).1 = false) :
    (deleteRecursive key tree depth).2 = tree := by
  induction tree generalizing depth with
  | nil => rfl
  | leaf node =>
    by_cases hkey : node.key = key
    · simp [deleteRecursive, hkey] at h
    · simp [deleteRecursive, hkey]
  | branch nibbles children ih =>
    cases hskip : skipNibbles key nibbles depth with
    | none => simp only [deleteRecursive, hskip]
    | some depth' =>
      simp only [deleteRecursive, hskip] at h ⊢
      by_cases hend : getNextNibble key depth' < 0
      · simp only [if_pos hend]
      simp only [if_neg hend] at h ⊢
      cases hfound : (deleteRecursive key (children (childSlot (getNextNibble key depth')))
        (depth' + branchBits)).1 with
      | false => rw [if_pos rfl, ih _ hfound, Function.update_eq_self]
      | true => simp [hfound] at h

/-- The key ends at a branch: it has the nibbles above, and no nibble for a slot. -/
def endsAtBranch (key : Bytes) : VectorTree → Nat → Bool
  | .branch nibbles children, depth =>
    match skipNibbles key nibbles depth with
    | none => false
    | some depth =>
      let nibble := getNextNibble key depth
      nibble < 0 || endsAtBranch key (children (childSlot nibble)) (depth + branchBits)
  | _, _ => false

theorem insertRecursive_error_iff {node : LeafNode} {tree : VectorTree} {depth : Nat} :
    (∃ e, insertRecursive node tree depth = .error e) ↔ endsAtBranch node.key tree depth := by
  induction tree generalizing depth with
  | nil | leaf => simp [insertRecursive, endsAtBranch]
  | branch nibbles children ih =>
    cases hskip : skipNibbles node.key nibbles depth with
    | none => simp [insertRecursive, endsAtBranch, hskip]
    | some depth' =>
      simp only [insertRecursive, endsAtBranch, hskip]
      by_cases hend : getNextNibble node.key depth' < 0
      · simp [hend]
      simp only [Bool.or_eq_true, decide_eq_true_eq, hend, false_or, ← ih]
      cases insertRecursive node (children (childSlot (getNextNibble node.key depth')))
        (depth' + branchBits) <;> simp

/-- **A refused delete leaves the tree as it was; a refused insert empties it**, which is where its
key ends at a branch of the tree. -/
theorem mutations_atomic_iff (tree : VectorTree) (key : Bytes) (node : LeafNode) :
    (∀ e, (tree.delete key).1 = .error e → (tree.delete key).2 = tree) ∧
      ((∀ e, (tree.insert node).1 = .error e → (tree.insert node).2 = tree) ↔
        endsAtBranch node.key tree 0 = false) := by
  constructor
  · intro e he
    unfold VectorTree.delete at he ⊢
    by_cases hkey : key = []
    · rw [if_pos hkey]
    rw [if_neg hkey] at he ⊢
    cases hfound : (deleteRecursive key tree 0).1 with
    | false => exact deleteRecursive_of_not_found hfound
    | true => simp [hfound] at he
  · have herror := @insertRecursive_error_iff node tree 0
    unfold VectorTree.insert
    cases hinsert : insertRecursive node tree 0 with
    | ok =>
      have hfits : ¬ endsAtBranch node.key tree 0 := by
        rw [← herror, hinsert]
        rintro ⟨e, he⟩
        cases he
      simp [hfits]
    | error e =>
      have hends := herror.mp ⟨e, hinsert⟩
      refine iff_of_false (fun h => ?_) (by simp [hends])
      obtain rfl := h e rfl
      cases hends

/-- Two leaves below one branch. -/
def twoLeaves : VectorTree :=
  ((VectorTree.nil.insert ⟨[0, 0], [1], []⟩).2.insert ⟨[0, 1], [2], []⟩).2

/-- A key that both leaves' keys begin with is refused, and both leaves are gone. -/
theorem refused_insert_empties_tree :
    twoLeaves.leaves = [([0, 0], [1]), ([0, 1], [2])] ∧ twoLeaves.get [0, 0] = some [1] ∧
      (twoLeaves.insert ⟨[0], [3], []⟩).1 =
        .error (.invalidArgument "key too short for tree depth") ∧
      (twoLeaves.insert ⟨[0], [3], []⟩).2.leaves = [] ∧
      (twoLeaves.insert ⟨[0], [3], []⟩).2.get [0, 0] = none := by
  refine ⟨by decide +kernel, by decide +kernel, by decide +kernel, by decide +kernel,
    by decide +kernel⟩

end Tries

import QuilNode.Basic
import QuilNode.Lib.SelfDelimiting

/-!
# Vector commitment trees (`quil-tries/src/node.rs`, `tree.rs`, `nibble.rs`)

A vertex keeps its fields in a 64-way trie over the six-bit nibbles of the field keys.  A leaf is
committed by the SHA-512 of its key and payload, a branch by the SHA-256 of its 64 child slots,
and a branch below the root once more by the SHA-512 of its nibbles and commitment.  What a
commitment fixes is `Alike`.
-/

namespace Tries

open List Option

/-- A `[u8; 64]`. -/
abbrev Bytes64 := BitVec (8 * 64)

/-- The two hash functions. -/
structure Hashes where
  sha256 : Bytes → Bytes32
  sha512 : Bytes → Bytes64

/-- The bytes of a SHA-512 digest. -/
def digestBytes (digest : Bytes64) : Bytes := beBytes 64 digest.toNat

/-- `BRANCH_BITS`. -/
def branchBits : Nat := 6

/-- `get_next_nibble`: the six bits of a key at a bit position, or -1 behind its end. -/
def getNextNibble (key : Bytes) (pos : Nat) : Int32 :=
  match key[pos / 8]? with
  | none => -1
  | some byte =>
    let available := 8 - pos % 8
    let result := byte.toNat &&& ((1 <<< available) - 1)
    if branchBits ≤ available then
      Int32.ofNat ((result >>> (available - branchBits)) &&& 63)
    else
      let missing := branchBits - available
      let next := match key[pos / 8 + 1]? with
        | some next => next.toNat >>> (8 - missing)
        | none => 0
      Int32.ofNat (((result <<< missing) ||| next) &&& 63)

/-- The fields of a leaf that are read again; its stored commitment and size are not. -/
structure LeafNode where
  key : Bytes
  value : Bytes
  hashTarget : Bytes
  deriving DecidableEq

/-- `Option<VectorCommitmentNode>`; a branch has 64 slots, empty or not. -/
inductive VectorTree where
  | nil
  | leaf (node : LeafNode)
  | branch (nibbles : List Int32) (children : Fin 64 → VectorTree)

/-- The bit position behind a branch's compressed nibbles, if the key has them. -/
def skipNibbles (key : Bytes) : List Int32 → Nat → Option Nat
  | [], depth => some depth
  | p :: nibbles, depth =>
    if getNextNibble key depth ≠ p then none else skipNibbles key nibbles (depth + branchBits)

/-- The slot of a nibble that is not negative. -/
def childSlot (nibble : Int32) : Fin 64 := Fin.ofNat 64 nibble.toNatClampNeg

/-- `get_recursive`. -/
def getRecursive (key : Bytes) : VectorTree → Nat → Option Bytes
  | .nil, _ => none
  | .leaf node, _ => if node.key = key then some node.value else none
  | .branch nibbles children, depth =>
    match skipNibbles key nibbles depth with
    | none => none
    | some depth =>
      let nibble := getNextNibble key depth
      if nibble < 0 then none
      else getRecursive key (children (childSlot nibble)) (depth + branchBits)

/-- `VectorCommitmentTree::get`. -/
def VectorTree.get (tree : VectorTree) (key : Bytes) : Option Bytes := getRecursive key tree 0

/-- The leaf a key's nibbles lead to, and the slots on the way. -/
def reach (key : Bytes) : VectorTree → Nat → Option (List (Fin 64) × LeafNode)
  | .nil, _ => none
  | .leaf node, _ => some ([], node)
  | .branch nibbles children, depth =>
    match skipNibbles key nibbles depth with
    | none => none
    | some depth =>
      let nibble := getNextNibble key depth
      if nibble < 0 then none
      else (reach key (children (childSlot nibble)) (depth + branchBits)).map fun found =>
        (childSlot nibble :: found.1, found.2)

/-- The leaf at a sequence of slots. -/
def leafAt : VectorTree → List (Fin 64) → Option LeafNode
  | .leaf node, [] => some node
  | .branch _ children, slot :: place => leafAt (children slot) place
  | _, _ => none

/-- A key is read at the leaf its nibbles lead to. -/
theorem getRecursive_eq_reach (key : Bytes) (tree : VectorTree) (depth : Nat) :
    getRecursive key tree depth = (reach key tree depth).bind fun found =>
      if found.2.key = key then some found.2.value else none := by
  induction tree generalizing depth with
  | nil => rfl
  | leaf => rfl
  | branch nibbles children ih =>
    unfold getRecursive reach
    cases skipNibbles key nibbles depth with
    | none => rfl
    | some =>
      simp only
      split
      · rfl
      · rw [ih, bind_map]
        rfl

theorem leafAt_of_reach {key : Bytes} {tree : VectorTree} {depth : Nat} {place : List (Fin 64)}
    {node : LeafNode} (h : reach key tree depth = some (place, node)) :
    leafAt tree place = some node := by
  induction tree generalizing depth place with
  | nil => cases h
  | leaf =>
    obtain ⟨rfl, rfl⟩ := Prod.mk.inj (some.inj h)
    rfl
  | branch nibbles children ih =>
    unfold reach at h
    cases hskip : skipNibbles key nibbles depth with
    | none => rw [hskip] at h; cases h
    | some =>
      rw [hskip] at h
      simp only at h
      split at h
      · cases h
      obtain ⟨_, hfound, heq⟩ := map_eq_some_iff.mp h
      obtain ⟨rfl, rfl⟩ := Prod.mk.inj heq
      exact ih _ hfound

theorem get_eq_some {tree : VectorTree} {key value : Bytes} : tree.get key = some value ↔
    ∃ place node, reach key tree 0 = some (place, node) ∧ node.key = key ∧ node.value = value := by
  rw [VectorTree.get, getRecursive_eq_reach]
  cases reach key tree 0 with
  | none => simp
  | some => grind

/-- What a leaf is committed by: its hash target where it has one. -/
def LeafNode.payload (node : LeafNode) : Bytes :=
  if node.hashTarget ≠ [] then node.hashTarget else node.value

/-- The input of `LeafNode::compute_commitment`. -/
def LeafNode.preimage (node : LeafNode) : Bytes := 0 :: (node.key ++ node.payload)

/-- The nibbles of a branch as they are hashed. -/
def nibbleBytes (nibbles : List Int32) : Bytes :=
  nibbles.flatMap fun p => beBytes 4 p.toUInt32.toNat

/-- What the slot of a child is the SHA-512 of, given the child's commitment. -/
def VectorTree.slotPreimage (child : VectorTree) (commitment : Bytes) : Option Bytes :=
  match child with
  | .nil => none
  | .leaf node => some node.preimage
  | .branch nibbles _ => some (1 :: (nibbleBytes nibbles ++ commitment))

variable (h : Hashes)

/-- A child's 64 bytes in its parent's vector; zeros where there is none. -/
def slotDigest (preimage : Option Bytes) : Bytes64 :=
  match preimage with
  | none => 0
  | some input => h.sha512 input

/-- `get_polynomial`: the 4096 bytes a branch is the SHA-256 of, given its children's
commitments. -/
def polynomial (children : Fin 64 → VectorTree) (commitments : Fin 64 → Bytes) : Bytes :=
  (List.ofFn fun i => slotDigest h ((children i).slotPreimage (commitments i))).flatMap digestBytes

/-- `VectorCommitmentTree::commit` with the hash prover; every commitment is recomputed. -/
def VectorTree.commit : VectorTree → Bytes
  | .nil => List.replicate 64 0
  | .leaf node => digestBytes (h.sha512 node.preimage)
  | .branch _ children => (h.sha256 (polynomial h children fun i => (children i).commit)).bytes

/-- The strings hashed by SHA-512 to commit a tree. -/
def VectorTree.hashed512 : VectorTree → Set Bytes
  | .nil => ∅
  | .leaf node => {node.preimage}
  | .branch _ children => {x | ∃ i, (children i).slotPreimage ((children i).commit h) = some x ∨
      x ∈ (children i).hashed512}

/-- The strings hashed by SHA-256 to commit a tree. -/
def VectorTree.hashed256 : VectorTree → Set Bytes
  | .nil => ∅
  | .leaf _ => ∅
  | .branch _ children => {x |
      x = polynomial h children (fun i => (children i).commit h) ∨ ∃ i, x ∈ (children i).hashed256}

/-- The same branches, and the same key and payload, as one string, at every leaf. -/
def Alike : VectorTree → VectorTree → Prop
  | .nil, .nil => True
  | .leaf node, .leaf node' => node.key ++ node.payload = node'.key ++ node'.payload
  | .branch nibbles children, .branch nibbles' children' =>
    nibbles = nibbles' ∧ ∀ i, Alike (children i) (children' i)
  | _, _ => False

/-- As `Alike`, but for the nibbles of a root branch, which are not hashed. -/
def AlikeRoot : VectorTree → VectorTree → Prop
  | .leaf node, .leaf node' => node.key ++ node.payload = node'.key ++ node'.payload
  | .branch _ children, .branch _ children' => ∀ i, Alike (children i) (children' i)
  | _, _ => False

theorem Alike.leafAt {tree tree' : VectorTree} (halike : Alike tree tree') {place : List (Fin 64)}
    {node node' : LeafNode} (hnode : leafAt tree place = some node)
    (hnode' : leafAt tree' place = some node') :
    node.key ++ node.payload = node'.key ++ node'.payload := by
  induction tree generalizing tree' place with
  | nil => cases place <;> cases hnode
  | leaf =>
    cases tree' <;> simp only [Alike] at halike
    cases place with
    | nil =>
      obtain rfl := some.inj hnode
      obtain rfl := some.inj hnode'
      exact halike
    | cons => cases hnode
  | branch nibbles children ih =>
    cases tree' <;> simp only [Alike] at halike
    cases place with
    | nil => cases hnode
    | cons slot => exact ih slot (halike.2 slot) hnode hnode'

theorem AlikeRoot.leafAt {tree tree' : VectorTree} (halike : AlikeRoot tree tree')
    {place : List (Fin 64)} {node node' : LeafNode} (hnode : leafAt tree place = some node)
    (hnode' : leafAt tree' place = some node') :
    node.key ++ node.payload = node'.key ++ node'.payload := by
  cases tree <;> cases tree' <;> simp only [AlikeRoot] at halike
  case leaf.leaf => exact @Alike.leafAt (.leaf _) (.leaf _) halike _ _ _ hnode hnode'
  case branch.branch =>
      cases place with
      | nil => cases hnode
      | cons slot => exact (halike slot).leafAt hnode hnode'

section Binding

variable {h}

@[simp] theorem digestBytes_length (digest : Bytes64) : (digestBytes digest).length = 64 := by
  simp [digestBytes]

theorem selfDelimiting_digest : SelfDelimiting (fun _ => True) digestBytes := by
  have hbound : (2 : Nat) ^ (8 * 64) = 256 ^ 64 := by rw [Nat.pow_mul]
  refine .of_length (fun _ _ _ _ => by simp) fun a b _ _ heq => BitVec.eq_of_toNat_eq ?_
  exact beBytes_injective (Nat.lt_of_lt_of_eq a.isLt hbound) (Nat.lt_of_lt_of_eq b.isLt hbound) heq

theorem nibbleBytes_injective {nibbles nibbles' : List Int32}
    (heq : nibbleBytes nibbles = nibbleBytes nibbles') : nibbles = nibbles' := by
  have hword : SelfDelimiting (fun _ => True) fun p : Int32 => beBytes 4 p.toUInt32.toNat :=
    .of_length (fun _ _ _ _ => by simp) fun a b _ _ hab => by
      have hnat := beBytes_injective (Nat.lt_of_lt_of_eq a.toUInt32.toNat_lt (by decide))
        (Nat.lt_of_lt_of_eq b.toUInt32.toNat_lt (by decide)) hab
      exact congrArg Int32.ofUInt32 (UInt32.toNat_inj.mp hnat)
  have hlength : nibbles.length = nibbles'.length := by
    have hbytes := congrArg length heq
    simp only [nibbleBytes, length_flatMap, beBytes_length, map_const', sum_replicate_nat] at hbytes
    omega
  exact (hword.flatMap_inj hlength (fun _ _ => trivial) (fun _ _ => trivial)
    (congrArg (· ++ []) heq)).1

/-- The bytes fix the digest of every child. -/
theorem polynomial_injective {children children' : Fin 64 → VectorTree}
    {commitments commitments' : Fin 64 → Bytes}
    (heq : polynomial h children commitments = polynomial h children' commitments') (i : Fin 64) :
    slotDigest h ((children i).slotPreimage (commitments i)) =
      slotDigest h ((children' i).slotPreimage (commitments' i)) := by
  have hslots := (selfDelimiting_digest.flatMap_inj (by simp) (fun _ _ => trivial)
    (fun _ _ => trivial) (congrArg (· ++ []) heq)).1
  exact congrFun (ofFn_injective hslots) i

variable {S512 S256 : Set Bytes} (h512 : Set.InjOn h.sha512 S512)
  (hzero : ∀ x ∈ S512, h.sha512 x ≠ 0) (h256 : Set.InjOn h.sha256 S256)

include h512 hzero h256

/-- Children with the same slot are alike, if no two of the hashed strings collide. -/
theorem alike_of_slot_eq {tree tree' : VectorTree}
    (hsub : ∀ x, tree.slotPreimage (tree.commit h) = some x ∨ x ∈ tree.hashed512 h → x ∈ S512)
    (hsub' : ∀ x, tree'.slotPreimage (tree'.commit h) = some x ∨ x ∈ tree'.hashed512 h → x ∈ S512)
    (hsub256 : tree.hashed256 h ⊆ S256) (hsub256' : tree'.hashed256 h ⊆ S256)
    (hslot : slotDigest h (tree.slotPreimage (tree.commit h)) =
      slotDigest h (tree'.slotPreimage (tree'.commit h))) : Alike tree tree' := by
  induction tree generalizing tree' with
  | nil =>
    cases tree' with
    | nil => trivial
    | leaf | branch => exact (hzero _ (hsub' _ (.inl rfl)) hslot.symm).elim
  | leaf =>
    cases tree' with
    | nil => exact (hzero _ (hsub _ (.inl rfl)) hslot).elim
    | leaf =>
      have hinput := h512 (hsub _ (.inl rfl)) (hsub' _ (.inl rfl)) hslot
      exact (cons.inj hinput).2
    | branch =>
      have hinput := h512 (hsub _ (.inl rfl)) (hsub' _ (.inl rfl)) hslot
      exact absurd (cons.inj hinput).1 (by decide)
  | branch nibbles children ih =>
    cases tree' with
    | nil => exact (hzero _ (hsub _ (.inl rfl)) hslot).elim
    | leaf =>
      have hinput := h512 (hsub _ (.inl rfl)) (hsub' _ (.inl rfl)) hslot
      exact absurd (cons.inj hinput).1 (by decide)
    | branch =>
      have hinput := h512 (hsub _ (.inl rfl)) (hsub' _ (.inl rfl)) hslot
      obtain ⟨hnibbles, hcommit⟩ := append_inj' (cons.inj hinput).2 (by simp [VectorTree.commit])
      refine ⟨nibbleBytes_injective hnibbles, fun i => ?_⟩
      have hpoly := h256 (hsub256 (.inl rfl)) (hsub256' (.inl rfl))
        (Bytes32.bytes_injective hcommit)
      exact ih i (fun x hx => hsub x (.inr ⟨i, hx⟩)) (fun x hx => hsub' x (.inr ⟨i, hx⟩))
        (fun x hx => hsub256 (.inr ⟨i, hx⟩)) (fun x hx => hsub256' (.inr ⟨i, hx⟩))
        (polynomial_injective hpoly i)

/-- **What a commitment fixes.**  Trees with one commitment are alike but for the root's nibbles, if
no hashed strings collide. -/
theorem alikeRoot_of_commit_eq {tree tree' : VectorTree} (hnil : tree ≠ .nil) (hnil' : tree' ≠ .nil)
    (hsub : tree.hashed512 h ⊆ S512) (hsub' : tree'.hashed512 h ⊆ S512)
    (hsub256 : tree.hashed256 h ⊆ S256) (hsub256' : tree'.hashed256 h ⊆ S256)
    (hcommit : tree.commit h = tree'.commit h) : AlikeRoot tree tree' := by
  have hlength := congrArg length hcommit
  cases tree with
  | nil => exact (hnil rfl).elim
  | leaf =>
    cases tree' with
    | nil => exact (hnil' rfl).elim
    | leaf =>
      have hdigest := selfDelimiting_digest.injective trivial trivial hcommit
      exact (cons.inj (h512 (hsub rfl) (hsub' rfl) hdigest)).2
    | branch => simp [VectorTree.commit] at hlength
  | branch =>
    cases tree' with
    | nil => exact (hnil' rfl).elim
    | leaf => simp [VectorTree.commit] at hlength
    | branch =>
      intro i
      have hpoly := h256 (hsub256 (.inl rfl)) (hsub256' (.inl rfl))
        (Bytes32.bytes_injective hcommit)
      exact alike_of_slot_eq h512 hzero h256 (fun x hx => hsub ⟨i, hx⟩)
        (fun x hx => hsub' ⟨i, hx⟩) (fun x hx => hsub256 (.inr ⟨i, hx⟩))
        (fun x hx => hsub256' (.inr ⟨i, hx⟩)) (polynomial_injective hpoly i)

end Binding

end Tries

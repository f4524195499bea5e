import QuilNode.Basic
import QuilNode.Lib.MerkleTree
import QuilNode.Lib.NibbleTree

/-!
# Nodes of the Jellyfish Merkle tree (`jmt/src/node_type.rs`)

A node of sixteen children is hashed as four levels of a binary tree: a range of children is
halved until it is empty, one child, or one leaf, which stands for its whole range.  So the hash
of a range is that of the sparse binary tree over the leaves below it (`merkleHash_builds`).
-/

namespace Jmt

open List Nat Prod

open MerkleTree (Builds Hasher)

/-- SHA-256 of values, leaves and pairs, the tree's placeholder and the all-zero root. -/
structure Hashes (δ : Type) where
  value : Bytes → δ
  leaf : Bytes32 → δ → δ
  inner : δ → δ → δ
  placeholder : δ
  zero : δ
  placeholder_ne_zero : placeholder ≠ zero

variable {δ : Type}

/-- The hasher of binary trees over keys and values. -/
def Hashes.merkle (h : Hashes δ) : Hasher Bytes32 Bytes δ :=
  ⟨h.placeholder, fun key value => h.leaf key (h.value value), h.inner⟩

inductive NodeType where
  | leaf
  | internal (leafCount : Nat)
  deriving DecidableEq

structure Child (δ : Type) where
  hash : δ
  version : Nat
  nodeType : NodeType

namespace Child

def isLeaf (child : Child δ) : Bool := child.nodeType == .leaf

def leafCount (child : Child δ) : Nat :=
  match child.nodeType with
  | .leaf => 1
  | .internal leafCount => leafCount

end Child

structure InternalNode (δ : Type) where
  children : Fin 16 → Option (Child δ)
  leafCount : Nat

structure LeafNode (δ : Type) where
  keyHash : Bytes32
  valueHash : δ
  deriving DecidableEq

def LeafNode.hash (h : Hashes δ) (leaf : LeafNode δ) : δ := h.leaf leaf.keyHash leaf.valueHash

namespace InternalNode

/-- `new`, which counts the leaves. -/
def new (children : Fin 16 → Option (Child δ)) : InternalNode δ :=
  ⟨children, ((List.finRange 16).map fun n => ((children n).map Child.leafCount).getD 0).sum⟩

def nodeType (node : InternalNode δ) : NodeType := .internal node.leafCount

/-- The children, in the order of their places. -/
def childrenSorted (node : InternalNode δ) : List (Fin 16 × Child δ) :=
  (List.finRange 16).filterMap fun n => (node.children n).map (n, ·)

/-- The children at `start` and the next `width - 1` places. -/
def rangeChildren (node : InternalNode δ) (start width : Nat) : List (Fin 16 × Child δ) :=
  node.childrenSorted.filter fun c => decide (start ≤ c.1.val ∧ c.1.val < start + width)

/-- The hash of the `2 ^ height` places from `start` on. -/
def merkleHash (h : Hashes δ) (node : InternalNode δ) : Nat → Nat → δ
  | 0, start =>
    match node.rangeChildren start 1 with
    | [] => h.placeholder
    | (_, child) :: _ => child.hash
  | height + 1, start =>
    match node.rangeChildren start (2 ^ (height + 1)) with
    | [] => h.placeholder
    | (_, child) :: rest =>
      if rest.isEmpty && child.isLeaf then child.hash
      else h.inner (merkleHash h node height start) (merkleHash h node height (start + 2 ^ height))

def hash (h : Hashes δ) (node : InternalNode δ) : δ := node.merkleHash h 4 0

/-- `subtree_hash`, for a width that is a power of two. -/
def subtreeHash (h : Hashes δ) (node : InternalNode δ) (start width : Nat) : δ :=
  node.merkleHash h width.log2 start

end InternalNode

inductive Node (δ : Type) where
  | null
  | internal (node : InternalNode δ)
  | leaf (node : LeafNode δ)

def Node.isLeaf : Node δ → Bool
  | .leaf _ => true
  | _ => false

def nodeHash (h : Hashes δ) : Node δ → δ
  | .null => h.placeholder
  | .internal node => node.hash h
  | .leaf leaf => leaf.hash h

structure NodeKey where
  version : Nat
  nibblePath : List (Fin 16)
  deriving DecidableEq

namespace NodeKey

def root (version : Nat) : NodeKey := ⟨version, []⟩

def genChildNodeKey (key : NodeKey) (version : Nat) (nibble : Fin 16) : NodeKey :=
  ⟨version, key.nibblePath ++ [nibble]⟩

end NodeKey

/-- `nibble_at`. -/
def nibbleAt (key : Bytes32) (depth : Nat) : Fin 16 := NibbleTree.nibbleAt key.getMsbD depth

/-- A place for a child holds a set of leaves: no child for the empty set, else one with the hash of
their tree, of the kind of a leaf where there is one. -/
def SlotHolds (h : Hashes δ) (depth : Nat) (S : Set (Bytes32 × Bytes)) : Option (Child δ) → Prop
  | none => S = ∅
  | some child => S.Nonempty ∧ (child.isLeaf = true ↔ S.Subsingleton) ∧
      ∃ t, Builds BitVec.getMsbD depth S t ∧ child.hash = t.hash h.merkle

/-- The leaves whose key has this nibble at this level. -/
def nibblePart (S : Set (Bytes32 × Bytes)) (level : Nat) (n : Fin 16) : Set (Bytes32 × Bytes) :=
  {e ∈ S | nibbleAt e.1 level = n}

/-- A node holds a set of leaves. -/
def NodeHolds (h : Hashes δ) (level : Nat) (S : Set (Bytes32 × Bytes)) : Node δ → Prop
  | .null => S = ∅
  | .leaf leaf => ∃ value, leaf.valueHash = h.value value ∧ S = {(leaf.keyHash, value)}
  | .internal node => S.Nontrivial ∧
      ∀ n, SlotHolds h (4 * (level + 1)) (nibblePart S level n) (node.children n)

/-- The leaves below a range of children. -/
def rangePart (S : Set (Bytes32 × Bytes)) (level start width : Nat) : Set (Bytes32 × Bytes) :=
  {e ∈ S | start ≤ (nibbleAt e.1 level).val ∧ (nibbleAt e.1 level).val < start + width}

theorem mem_childrenSorted {node : InternalNode δ} {n : Fin 16} {child : Child δ} :
    (n, child) ∈ node.childrenSorted ↔ node.children n = some child := by
  simp only [InternalNode.childrenSorted, mem_filterMap, mem_finRange, true_and,
    Option.map_eq_some_iff, mk.injEq]
  constructor
  · rintro ⟨n', child', hchild, rfl, rfl⟩
    exact hchild
  · intro hchild
    exact ⟨n, child, hchild, rfl, rfl⟩

theorem mem_rangeChildren {node : InternalNode δ} {start width : Nat} {n : Fin 16} {child : Child δ} :
    (n, child) ∈ node.rangeChildren start width ↔
      node.children n = some child ∧ start ≤ n.val ∧ n.val < start + width := by
  rw [InternalNode.rangeChildren, mem_filter, mem_childrenSorted, decide_eq_true_eq]

/-- No place is listed twice. -/
theorem nodup_childrenSorted (node : InternalNode δ) : (node.childrenSorted.map fst).Nodup := by
  have hsub : Sublist (node.childrenSorted.map fst) (finRange 16) := by
    rw [InternalNode.childrenSorted]
    generalize finRange 16 = ns
    induction ns with
    | nil => exact Sublist.refl _
    | cons n ns ih =>
      cases hchild : node.children n with
      | none =>
        rw [filterMap_cons_none (by rw [hchild]; rfl)]
        exact ih.cons n
      | some =>
        rw [filterMap_cons_some (by rw [hchild]; rfl), map_cons]
        exact ih.cons_cons n
  exact (nodup_finRange 16).sublist hsub

theorem length_childrenSorted_le (node : InternalNode δ) : node.childrenSorted.length ≤ 16 := by
  have hlength := length_filterMap_le (fun n => (node.children n).map (n, ·)) (finRange 16)
  rwa [length_finRange] at hlength

variable {h : Hashes δ} {level : Nat} {S : Set (Bytes32 × Bytes)} {node : InternalNode δ}

/-- Bits of a key in terms of its nibble. -/
theorem getMsbD_eq_testBit (key : Bytes32) (level : Nat) {j : Nat} (hj : j < 4) :
    key.getMsbD (4 * level + j) = (nibbleAt key level).val.testBit (3 - j) := by
  have hbits : ∀ b0 b1 b2 b3 : Bool, ∀ j : Fin 4,
      (NibbleTree.nibble4 b0 b1 b2 b3).val.testBit (3 - j.val) = [b0, b1, b2, b3][j.val] := by decide
  have h := hbits (key.getMsbD (4 * level)) (key.getMsbD (4 * level + 1)) (key.getMsbD (4 * level + 2))
    (key.getMsbD (4 * level + 3)) ⟨j, hj⟩
  rw [nibbleAt, NibbleTree.nibbleAt, h]
  match j, hj with
  | 0, _ | 1, _ | 2, _ | 3, _ => rfl

/-- The lower half of a range has the bit of its height clear. -/
theorem testBit_range : ∀ k : Fin 4, ∀ start n : Fin 16, 2 ^ (k.val + 1) ∣ start.val →
    start.val ≤ n.val → n.val < start.val + 2 ^ (k.val + 1) →
      (n.val.testBit k.val = false ↔ n.val < start.val + 2 ^ k.val) := by decide

theorem rangePart_one {start : Nat} (hstart : start < 16) :
    rangePart S level start 1 = nibblePart S level ⟨start, hstart⟩ := by
  ext e
  refine and_congr_right fun _ => ?_
  rw [Fin.ext_iff]
  simp only
  omega

theorem nibblePart_subset {start width : Nat} {n : Fin 16} (hlow : start ≤ n.val)
    (hhigh : n.val < start + width) : nibblePart S level n ⊆ rangePart S level start width := by
  rintro e ⟨he, rfl⟩
  exact ⟨he, hlow, hhigh⟩

section Ranges

variable (hslots : ∀ n, SlotHolds h (4 * (level + 1)) (nibblePart S level n) (node.children n))

include hslots

/-- A leaf is below the child at its nibble. -/
theorem exists_child {e : Bytes32 × Bytes} (he : e ∈ S) :
    ∃ child, node.children (nibbleAt e.1 level) = some child := by
  refine Option.ne_none_iff_exists'.mp fun hnone => ?_
  have hslot := hslots (nibbleAt e.1 level)
  rw [hnone] at hslot
  exact Set.eq_empty_iff_forall_notMem.mp hslot e ⟨he, rfl⟩

/-- A range without children has no leaves below. -/
theorem rangePart_eq_empty {start width : Nat} (hnone : node.rangeChildren start width = []) :
    rangePart S level start width = ∅ := by
  refine Set.eq_empty_iff_forall_notMem.mpr fun e he => ?_
  obtain ⟨_, hchild⟩ := exists_child hslots he.1
  exact not_mem_nil (hnone ▸ mem_rangeChildren.mpr ⟨hchild, he.2⟩)

/-- A range with one leaf child has its leaf below; any other range with children has
several. -/
theorem rangePart_cases {start width : Nat} {n : Fin 16} {child : Child δ}
    {rest : List (Fin 16 × Child δ)} (hrange : node.rangeChildren start width = (n, child) :: rest) :
    if rest.isEmpty && child.isLeaf then
      ∃ e, rangePart S level start width = {e} ∧ child.hash = h.merkle.leaf e.1 e.2
    else (rangePart S level start width).Nontrivial := by
  obtain ⟨hchild, hlow, hhigh⟩ := mem_rangeChildren.mp (hrange ▸ mem_cons_self)
  have hslot := hslots n
  rw [hchild] at hslot
  obtain ⟨⟨e, he⟩, hleaf, _, hbuilds, hhash⟩ := hslot
  have hnodup : ((node.rangeChildren start width).map fst).Nodup :=
    (nodup_childrenSorted node).sublist ((filter_sublist).map _)
  split
  · rename_i honly
    rw [Bool.and_eq_true, List.isEmpty_iff] at honly
    obtain ⟨rfl, honly⟩ := honly
    have hpart : nibblePart S level n = {e} := (hleaf.mp honly).eq_singleton_of_mem he
    refine ⟨e, ?_, ?_⟩
    · refine Set.eq_singleton_iff_unique_mem.mpr ⟨nibblePart_subset hlow hhigh he, ?_⟩
      intro e' he'
      obtain ⟨_, hchild'⟩ := exists_child hslots he'.1
      have hmem := mem_rangeChildren.mpr ⟨hchild', he'.2⟩
      rw [hrange, mem_singleton] at hmem
      have hpart' : e' ∈ nibblePart S level n := ⟨he'.1, congrArg fst hmem⟩
      rwa [hpart] at hpart'
    · rw [hpart, MerkleTree.builds_singleton_iff] at hbuilds
      rw [hhash, hbuilds]
      rfl
  · rename_i hseveral
    cases rest with
    | nil =>
      have hmany : ¬ (nibblePart S level n).Subsingleton :=
        fun hone => hseveral (by simp [hleaf.mpr hone])
      exact (Set.not_subsingleton_iff.mp hmany).mono (nibblePart_subset hlow hhigh)
    | cons next =>
      -- two places, so two leaves with different nibbles
      obtain ⟨n', _⟩ := next
      obtain ⟨hchild', hlow', hhigh'⟩ :=
        mem_rangeChildren.mp (hrange ▸ mem_cons_of_mem _ mem_cons_self)
      have hslot' := hslots n'
      rw [hchild'] at hslot'
      obtain ⟨e', he'⟩ := hslot'.1
      refine ⟨e, nibblePart_subset hlow hhigh he, e', nibblePart_subset hlow' hhigh' he', ?_⟩
      rintro rfl
      rw [hrange] at hnodup
      have hne : n ≠ n' := by
        intro hsame
        simp [hsame] at hnodup
      exact hne (he.2.symm.trans he'.2)

/-- **The hash of a range** is that of the binary tree over the leaves below it. -/
theorem merkleHash_builds {k start : Nat} (hk : k ≤ 4) (hstart : 2 ^ k ∣ start)
    (hend : start + 2 ^ k ≤ 16) :
    ∃ t, Builds BitVec.getMsbD (4 * level + (4 - k)) (rangePart S level start (2 ^ k)) t ∧
      node.merkleHash h k start = t.hash h.merkle := by
  induction k generalizing start with
  | zero =>
    have hlt : start < 16 := by omega
    rw [Nat.pow_zero, rangePart_one hlt]
    have hslot := hslots ⟨start, hlt⟩
    simp only [InternalNode.merkleHash]
    cases hrange : node.rangeChildren start 1 with
    | nil =>
      have hempty := rangePart_eq_empty hslots hrange
      rw [rangePart_one hlt] at hempty
      exact ⟨.empty, hempty ▸ .empty _, rfl⟩
    | cons first =>
      obtain ⟨n, _⟩ := first
      obtain ⟨hchild, _, _⟩ := mem_rangeChildren.mp (hrange ▸ mem_cons_self)
      obtain rfl : n = ⟨start, hlt⟩ := Fin.ext (by simp only; omega)
      rw [hchild] at hslot
      exact hslot.2.2
  | succ k ih =>
    simp only [InternalNode.merkleHash]
    cases hrange : node.rangeChildren start (2 ^ (k + 1)) with
    | nil => exact ⟨.empty, rangePart_eq_empty hslots hrange ▸ .empty _, rfl⟩
    | cons =>
      have hcases := rangePart_cases hslots hrange
      dsimp only
      split at hcases
      · rename_i honly
        obtain ⟨e, hpart, hhash⟩ := hcases
        rw [if_pos honly, hpart, hhash]
        exact ⟨.leaf e.1 e.2, .leaf _ e, rfl⟩
      · rename_i hseveral
        rw [if_neg hseveral]
        have hhalf : 2 ^ k ∣ start := Nat.dvd_trans (Nat.pow_dvd_pow 2 (Nat.le_succ k)) hstart
        obtain ⟨low, hbuildsLow, hlow⟩ := ih (by omega) hhalf (show start + 2 ^ k ≤ 16 by omega)
        obtain ⟨high, hbuildsHigh, hhigh⟩ := ih (by omega)
          ((Nat.dvd_add_right hhalf).mpr (Nat.dvd_refl _)) (by omega)
        -- the next bit of a key says in which half its nibble is
        have hbit : ∀ e ∈ rangePart S level start (2 ^ (k + 1)),
            (e.1.getMsbD (4 * level + (4 - (k + 1))) = false ↔
              (nibbleAt e.1 level).val < start + 2 ^ k) := by
          rintro e ⟨-, hlow, hhigh⟩
          have hthree : 3 - (4 - (k + 1)) = k := by omega
          rw [getMsbD_eq_testBit e.1 level (show 4 - (k + 1) < 4 by omega), hthree]
          exact testBit_range ⟨k, by omega⟩ ⟨start, by omega⟩ (nibbleAt e.1 level) hstart hlow hhigh
        have hdepth : 4 * level + (4 - (k + 1)) + 1 = 4 * level + (4 - k) := by omega
        refine ⟨.node low high, .node hcases ?_ ?_, by rw [hlow, hhigh]; rfl⟩
        · convert hbuildsLow using 1
          ext e
          exact (and_congr_right (hbit e)).trans ⟨fun ⟨he, hlt⟩ => ⟨he.1, he.2.1, hlt⟩,
            fun ⟨he, hge, hlt⟩ => ⟨⟨he, hge, by omega⟩, hlt⟩⟩
        · convert hbuildsHigh using 1
          ext e
          refine (and_congr_right fun he => ?_).trans ⟨fun ⟨he, hge⟩ => ⟨he.1, hge, by have := he.2.2; omega⟩,
            fun ⟨he, hge, hlt⟩ => ⟨⟨he, by omega, by omega⟩, hge⟩⟩
          rw [← Bool.not_eq_false, hbit e he, not_lt]

end Ranges

/-- All children together have all leaves. -/
theorem rangePart_all (S : Set (Bytes32 × Bytes)) (level : Nat) : rangePart S level 0 16 = S := by
  ext e
  refine and_iff_left ⟨zero_le _, ?_⟩
  omega

/-- A node that holds a set has the hash of its tree. -/
theorem NodeHolds.builds {node : Node δ} (hnode : NodeHolds h level S node) :
    ∃ t, Builds BitVec.getMsbD (4 * level) S t ∧ nodeHash h node = t.hash h.merkle := by
  cases node with
  | null =>
    obtain rfl : S = ∅ := hnode
    exact ⟨.empty, .empty _, rfl⟩
  | leaf leaf =>
    obtain ⟨value, hvalue, rfl⟩ := hnode
    refine ⟨.leaf leaf.keyHash value, .leaf _ (leaf.keyHash, value), ?_⟩
    rw [nodeHash, LeafNode.hash, hvalue]
    rfl
  | internal node =>
    obtain ⟨t, hbuilds, hhash⟩ := @merkleHash_builds _ h level S node hnode.2 4 0 (le_refl 4)
      (Nat.dvd_zero _) (by decide)
    have hall : rangePart S level 0 (2 ^ 4) = S := rangePart_all S level
    rw [hall] at hbuilds
    exact ⟨t, hbuilds, hhash⟩

end Jmt

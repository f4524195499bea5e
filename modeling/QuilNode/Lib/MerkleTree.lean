import Mathlib

/-!
# Binary hash trees over sets of entries

A set of entries has one sparse binary tree (`Builds`): an entry that is alone is a leaf, an empty
set is empty, and a larger set is divided by the next bit of its keys.  A tree is determined by its
set, and its leaves are the set again.  With hashes that do not collide, its hash determines it.
-/

inductive MerkleTree (κ β : Type*) where
  | empty
  | leaf (key : κ) (value : β)
  | node (left right : MerkleTree κ β)

namespace MerkleTree

variable {κ β δ : Type*}

/-- The hashes of an empty tree, of a leaf and of a pair. -/
structure Hasher (κ β δ : Type*) where
  placeholder : δ
  leaf : κ → β → δ
  inner : δ → δ → δ

def hash (h : Hasher κ β δ) : MerkleTree κ β → δ
  | empty => h.placeholder
  | leaf key value => h.leaf key value
  | node left right => h.inner (hash h left) (hash h right)

/-- The leaves of a tree. -/
def entries : MerkleTree κ β → Set (κ × β)
  | empty => ∅
  | leaf key value => {(key, value)}
  | node left right => left.entries ∪ right.entries

/-- The tree of a set of entries whose keys agree on the bits before `depth`. -/
inductive Builds (bit : κ → Nat → Bool) : Nat → Set (κ × β) → MerkleTree κ β → Prop
  | empty (depth : Nat) : Builds bit depth ∅ empty
  | leaf (depth : Nat) (e : κ × β) : Builds bit depth {e} (leaf e.1 e.2)
  | node {depth : Nat} {S : Set (κ × β)} {left right : MerkleTree κ β} (several : S.Nontrivial)
      (low : Builds bit (depth + 1) {e ∈ S | bit e.1 depth = false} left)
      (high : Builds bit (depth + 1) {e ∈ S | bit e.1 depth = true} right) :
      Builds bit depth S (node left right)

variable {bit : κ → Nat → Bool} {depth : Nat} {S : Set (κ × β)} {t t' : MerkleTree κ β}

theorem builds_empty_iff : Builds bit depth ∅ t ↔ t = empty := by
  constructor
  · intro h
    generalize hS : (∅ : Set (κ × β)) = S at h
    cases h with
    | empty => rfl
    | leaf _ e => exact absurd hS (Set.singleton_nonempty e).ne_empty.symm
    | node several => exact absurd hS several.nonempty.ne_empty.symm
  · rintro rfl
    exact .empty depth

theorem builds_singleton_iff {e : κ × β} : Builds bit depth {e} t ↔ t = leaf e.1 e.2 := by
  constructor
  · intro h
    generalize hS : ({e} : Set (κ × β)) = S at h
    cases h with
    | empty => exact absurd hS (Set.singleton_nonempty e).ne_empty
    | leaf => rw [Set.singleton_injective hS]
    | node several => exact absurd several (hS ▸ Set.not_nontrivial_singleton)
  · rintro rfl
    exact .leaf depth e

/-- A set has one tree. -/
theorem Builds.unique (h : Builds bit depth S t) (h' : Builds bit depth S t') : t = t' := by
  induction h generalizing t' with
  | empty => exact (builds_empty_iff.mp h').symm
  | leaf => exact (builds_singleton_iff.mp h').symm
  | node several low high ihlow ihhigh =>
    cases h' with
    | empty => exact absurd rfl several.nonempty.ne_empty
    | leaf => exact absurd several Set.not_nontrivial_singleton
    | node several' low' high' => rw [ihlow low', ihhigh high']

/-- The leaves of the tree of a set are the set. -/
theorem Builds.entries_eq (h : Builds bit depth S t) : t.entries = S := by
  induction h with
  | empty => rfl
  | leaf => rfl
  | @node depth S left right several low high ihlow ihhigh =>
    rw [entries, ihlow, ihhigh]
    ext e
    constructor
    · rintro (he | he)
      · exact he.1
      · exact he.1
    · intro he
      cases hbit : bit e.1 depth with
      | false => exact .inl ⟨he, hbit⟩
      | true => exact .inr ⟨he, hbit⟩

/-- Different inputs have different hashes. -/
structure CollisionFree (h : Hasher κ β δ) : Prop where
  leaf_inj : ∀ {k k' : κ} {v v' : β}, h.leaf k v = h.leaf k' v' → k = k' ∧ v = v'
  inner_inj : ∀ {a a' b b' : δ}, h.inner a b = h.inner a' b' → a = a' ∧ b = b'
  leaf_ne_inner : ∀ {k : κ} {v : β} {a b : δ}, h.leaf k v ≠ h.inner a b
  leaf_ne_placeholder : ∀ {k : κ} {v : β}, h.leaf k v ≠ h.placeholder
  inner_ne_placeholder : ∀ {a b : δ}, h.inner a b ≠ h.placeholder

variable {h : Hasher κ β δ}

theorem eq_empty_of_hash (hcf : CollisionFree h) (ht : t.hash h = h.placeholder) : t = empty := by
  cases t with
  | empty => rfl
  | leaf => exact absurd ht hcf.leaf_ne_placeholder
  | node => exact absurd ht hcf.inner_ne_placeholder

theorem eq_leaf_of_hash (hcf : CollisionFree h) {key : κ} {value : β}
    (ht : t.hash h = h.leaf key value) : t = leaf key value := by
  cases t with
  | empty => exact absurd ht.symm hcf.leaf_ne_placeholder
  | leaf =>
    obtain ⟨rfl, rfl⟩ := hcf.leaf_inj ht
    rfl
  | node => exact absurd ht.symm hcf.leaf_ne_inner

/-- A tree with the hash of a pair is a pair of trees with these hashes. -/
theorem exists_node_of_hash (hcf : CollisionFree h) {a b : δ} (ht : t.hash h = h.inner a b) :
    ∃ left right, t = node left right ∧ left.hash h = a ∧ right.hash h = b := by
  cases t with
  | empty => exact absurd ht.symm hcf.inner_ne_placeholder
  | leaf => exact absurd ht hcf.leaf_ne_inner
  | node left right => exact ⟨left, right, rfl, hcf.inner_inj ht⟩

/-- A hash has one tree. -/
theorem hash_injective (hcf : CollisionFree h) :
    Function.Injective (hash h : MerkleTree κ β → δ) := by
  intro t t' ht
  induction t' generalizing t with
  | empty => exact eq_empty_of_hash hcf ht
  | leaf => exact eq_leaf_of_hash hcf ht
  | node left right ihleft ihright =>
    obtain ⟨_, _, rfl, hleft, hright⟩ := exists_node_of_hash hcf ht
    rw [ihleft hleft, ihright hright]

end MerkleTree

import QuilNode.Forest.Jmt
import QuilNode.Forest.ShardFilter
import QuilNode.Lib.Results

/-!
# Subtree roots of a stored tree (`forest.rs`, `sync.rs`)

A shard's commitment is read off the application's tree: down the whole nibbles of its path, then
over the children the last bits leave open.  It is the hash of the binary tree over the leaves
under the path.  Without leaves it is the all-zero root, except inside a nibble of a node that
other leaves keep (`IsCommitment`).
-/

namespace Jmt

open MerkleTree (Builds)
open Forest PrefixCode Results List Set
open NibbleTree (nibble4 bitsToNibble begins_nibble)

variable {δ : Type}

/-- The reads of a tree. -/
structure TreeReader (δ : Type) where
  getNodeOption : NodeKey → Except String (Option (Node δ))
  getValueOption : Nat → Bytes32 → Except String (Option Bytes)

def TreeReader.getNode (reader : TreeReader δ) (key : NodeKey) : Except String (Node δ) := do
  okOr (← reader.getNodeOption key) "Missing node"

def leafIfUnder (h : Hashes δ) (leaf : LeafNode δ) (bitPath : List Bool) : δ :=
  if addrHasBitPrefix leaf.keyHash bitPath then leaf.hash h else h.zero

/-- The children that the last bits of a path, one to three, leave open. -/
def openStart (rest : List Bool) : Nat := bitsToNibble rest <<< (4 - rest.length)
def openWidth (rest : List Bool) : Nat := 16 >>> rest.length

/-- The end of `app_subtree_root_changed`: the root and the version it changed at. -/
def rootAtNode (h : Hashes δ) (bitPath rest : List Bool) (key : NodeKey) : Node δ → δ × Nat
  | .null => (h.zero, key.version)
  | .leaf leaf => (leafIfUnder h leaf bitPath, key.version)
  | .internal node =>
    if rest = [] then (node.hash h, key.version)
    else
      let versions := (node.rangeChildren (openStart rest) (openWidth rest)).map fun c => c.2.version
      (node.subtreeHash h (openStart rest) (openWidth rest), versions.max?.getD key.version)

/-- The descent of `app_subtree_root_changed` along the whole nibbles that are left. -/
def rootBelow (h : Hashes δ) (reader : TreeReader δ) (bitPath : List Bool) :
    List Bool → NodeKey → Node δ → Except String (δ × Nat)
  | b₀ :: b₁ :: b₂ :: b₃ :: rest, key, node =>
    match node with
    | .leaf leaf => .ok (leafIfUnder h leaf bitPath, key.version)
    | .null => .ok (h.zero, key.version)
    | .internal node =>
      match node.children (nibble4 b₀ b₁ b₂ b₃) with
      | none => .ok (h.zero, key.version)
      | some child => do
        let key := key.genChildNodeKey child.version (nibble4 b₀ b₁ b₂ b₃)
        let node ← okOr (← reader.getNodeOption key) "committed subtree child node is missing"
        rootBelow h reader bitPath rest key node
  | rest, key, node => .ok (rootAtNode h bitPath rest key node)

def appSubtreeRootChanged (h : Hashes δ) (reader : TreeReader δ) (version : Nat)
    (bitPath : List Bool) : Except String (δ × Nat) := do
  match (← reader.getNodeOption (.root version)) with
  | none => .ok (h.zero, 0)
  | some node =>
    if bitPath = [] then .ok (nodeHash h node, version)
    else rootBelow h reader bitPath bitPath (.root version) node

def appSubtreeRoot (h : Hashes δ) (reader : TreeReader δ) (version : Nat) (bitPath : List Bool) :
    Except String δ := do
  return (← appSubtreeRootChanged h reader version bitPath).1

/-- The reader finds the tree of a set of leaves at a key: a leaf that is alone, or a node with the
trees of the leaves by nibble. -/
inductive Stored (h : Hashes δ) (reader : TreeReader δ) :
    NodeKey → Nat → Set (Bytes32 × Bytes) → Node δ → Prop
  | null {key : NodeKey} {level : Nat} (read : reader.getNodeOption key = .ok (some .null)) :
      Stored h reader key level ∅ .null
  | leaf {key : NodeKey} {level : Nat} {k : Bytes32} {v : Bytes}
      (read : reader.getNodeOption key = .ok (some (.leaf ⟨k, h.value v⟩)))
      (value : reader.getValueOption key.version k = .ok (some v)) :
      Stored h reader key level {(k, v)} (.leaf ⟨k, h.value v⟩)
  | internal {key : NodeKey} {level : Nat} {S : Set (Bytes32 × Bytes)} {node : InternalNode δ}
      (child : Fin 16 → Node δ) (read : reader.getNodeOption key = .ok (some (.internal node)))
      (several : S.Nontrivial)
      (absent : ∀ n, node.children n = none → nibblePart S level n = ∅)
      (present : ∀ n c, node.children n = some c → (nibblePart S level n).Nonempty ∧
        c.hash = nodeHash h (child n) ∧ c.isLeaf = (child n).isLeaf)
      (below : ∀ n c, node.children n = some c →
        Stored h reader (key.genChildNodeKey c.version n) (level + 1) (nibblePart S level n) (child n)) :
      Stored h reader key level S (.internal node)

/-- The reader has the tree of a set of leaves at a version. -/
def Committed (h : Hashes δ) (reader : TreeReader δ) (version : Nat) (S : Set (Bytes32 × Bytes)) :
    Prop :=
  ∃ node, Stored h reader (.root version) 0 S node

variable {h : Hashes δ} {reader : TreeReader δ} {key : NodeKey} {level : Nat}
  {S : Set (Bytes32 × Bytes)} {node : Node δ}

theorem Stored.read_eq (hs : Stored h reader key level S node) :
    reader.getNodeOption key = .ok (some node) := by
  cases hs with
  | null read | leaf read | internal child read => exact read

theorem Stored.holds (hs : Stored h reader key level S node) : NodeHolds h level S node := by
  induction hs with
  | null => rfl
  | @leaf key level k v read value => exact ⟨v, rfl, rfl⟩
  | @internal key level S node child read several absent present below ih =>
    refine ⟨several, fun n => ?_⟩
    cases hchild : node.children n with
    | none => exact absent n hchild
    | some c =>
      obtain ⟨hne, hhash, hleaf⟩ := present n c hchild
      have hbelow := ih n c hchild
      refine ⟨hne, ?_, ?_⟩
      · rw [hleaf]
        cases hnode : child n with
        | null =>
          rw [hnode] at hbelow
          exact absurd hbelow hne.ne_empty
        | leaf =>
          rw [hnode] at hbelow
          obtain ⟨_, -, hset⟩ := hbelow
          exact iff_of_true rfl (hset ▸ subsingleton_singleton)
        | internal =>
          rw [hnode] at hbelow
          exact iff_of_false (by simp [Node.isLeaf]) hbelow.1.not_subsingleton
      · obtain ⟨t, hbuilds, hnode⟩ := hbelow.builds
        exact ⟨t, hbuilds, hhash.trans hnode⟩

/-- The child of a stored inner node. -/
theorem Stored.child {int : InternalNode δ} (hs : Stored h reader key level S (.internal int))
    {n : Fin 16} {c : Child δ} (hc : int.children n = some c) :
    ∃ node, Stored h reader (key.genChildNodeKey c.version n) (level + 1) (nibblePart S level n) node ∧
      c.hash = nodeHash h node ∧ c.isLeaf = node.isLeaf := by
  cases hs with
  | internal child read several absent present below =>
    exact ⟨child n, below n c hc, (present n c hc).2⟩

/-- The leaves under a path. -/
def under (S : Set (Bytes32 × Bytes)) (path : List Bool) : Set (Bytes32 × Bytes) :=
  {e ∈ S | Begins e.1.getMsbD path}

/-- The path ends inside a nibble of a node: several leaves have its whole nibbles. -/
def Crowded (S : Set (Bytes32 × Bytes)) (path : List Bool) : Prop :=
  path.length % 4 ≠ 0 ∧ (under S (path.take (4 * (path.length / 4)))).Nontrivial

/-- What is read at a path: the hash of the leaves under it, or one of two constants where
there are none. -/
structure IsCommitment (h : Hashes δ) (path : List Bool) (S : Set (Bytes32 × Bytes)) (c : δ) :
    Prop where
  leaves : (under S path).Nonempty →
    ∃ t, Builds BitVec.getMsbD path.length (under S path) t ∧ c = t.hash h.merkle
  placeholder : under S path = ∅ → path = [] ∨ Crowded S path → c = h.placeholder
  zero : under S path = ∅ → path ≠ [] → ¬ Crowded S path → c = h.zero

variable {path done rest : List Bool} {c c' : δ}

theorem under_under (hpre : done <+: path) : under (under S done) path = under S path := by
  ext e
  constructor
  · rintro ⟨⟨he, -⟩, hpath⟩
    exact ⟨he, hpath⟩
  · rintro ⟨he, hpath⟩
    exact ⟨⟨he, hpath.of_isPrefix hpre⟩, hpath⟩

/-- The whole nibbles of a path with whole nibbles. -/
theorem isPrefix_take_whole (hpre : done <+: path) (hdone : done.length = 4 * level) :
    done <+: path.take (4 * (path.length / 4)) := by
  have hle := hpre.length_le
  refine prefix_of_prefix_length_le hpre (List.take_prefix _ _) ?_
  rw [length_take]
  omega

/-- A commitment depends on the leaves with the first whole nibbles of its path only. -/
theorem IsCommitment.of_under (hpre : done <+: path) (hdone : done.length = 4 * level)
    (hc : IsCommitment h path (under S done) c) : IsCommitment h path S c := by
  have hpath := under_under (S := S) hpre
  have hcrowded : Crowded (under S done) path ↔ Crowded S path := by
    rw [Crowded, Crowded, under_under (isPrefix_take_whole hpre hdone)]
  obtain ⟨hleaves, hplaceholder, hzero⟩ := hc
  rw [hpath] at hleaves hplaceholder hzero
  rw [hcrowded] at hplaceholder hzero
  exact ⟨hleaves, hplaceholder, hzero⟩

/-- Nothing under the first whole nibbles of a path. -/
theorem isCommitment_zero (hne : path ≠ []) (hpre : done <+: path) (hdone : done.length = 4 * level)
    (hempty : under S done = ∅) : IsCommitment h path S h.zero := by
  refine IsCommitment.of_under hpre hdone ?_
  rw [hempty]
  have hnone : ∀ p, under (∅ : Set (Bytes32 × Bytes)) p = ∅ := fun p => by simp [under]
  refine ⟨fun hsome => ?_, fun _ hcase => ?_, fun _ _ _ => rfl⟩
  · rw [hnone] at hsome
    exact absurd hsome not_nonempty_empty
  · rcases hcase with hnil | hcrowded
    · exact absurd hnil hne
    · rw [Crowded, hnone] at hcrowded
      exact absurd hcrowded.2 not_nontrivial_empty

/-- One leaf is the commitment of the paths it has. -/
theorem isCommitment_leaf (k : Bytes32) (v : Bytes) :
    IsCommitment h path {(k, v)} (leafIfUnder h ⟨k, h.value v⟩ path) := by
  unfold leafIfUnder
  by_cases hunder : Begins k.getMsbD path
  · have hset : under {(k, v)} path = {(k, v)} := by
      ext e
      constructor
      · exact And.left
      · rintro rfl
        exact ⟨rfl, hunder⟩
    rw [if_pos (addrHasBitPrefix_iff.mpr hunder)]
    refine ⟨fun _ => ⟨.leaf k v, ?_, rfl⟩, fun hnone => ?_, fun hnone => ?_⟩
    · rw [hset]
      exact .leaf _ (k, v)
    all_goals exact absurd (hset.symm.trans hnone) (singleton_ne_empty _)
  · have hset : under {(k, v)} path = ∅ := by
      rw [eq_empty_iff_forall_notMem]
      rintro e ⟨rfl, he⟩
      exact hunder he
    rw [if_neg (fun hb => hunder (addrHasBitPrefix_iff.mp hb))]
    refine ⟨fun hsome => ?_, fun _ hcase => ?_, fun _ _ _ => rfl⟩
    · rw [hset] at hsome
      exact absurd hsome not_nonempty_empty
    · rcases hcase with rfl | hcrowded
      · exact absurd (begins_nil _) hunder
      · have hone : (under {(k, v)} (path.take (4 * (path.length / 4)))).Subsingleton :=
          subsingleton_singleton.anti fun e he => he.1
        exact absurd hcrowded.2 hone.not_nontrivial

/-- Where all leaves have a path, those with the next nibble are those of one child. -/
theorem nibblePart_eq_under {b0 b1 b2 b3 : Bool} (hdone : done.length = 4 * level)
    (hall : ∀ e ∈ S, Begins e.1.getMsbD done) :
    nibblePart S level (nibble4 b0 b1 b2 b3) = under S (done ++ [b0, b1, b2, b3]) := by
  ext e
  refine and_congr_right fun he => ?_
  exact (begins_nibble hdone (hall e he)).symm

/-- The last bits of a path leave a range of nibbles open. -/
theorem begins_open {k : Bytes32} (hrest : 0 < rest.length) (hrest' : rest.length < 4)
    (hdone : done.length = 4 * level) (hbegins : Begins k.getMsbD done) :
    Begins k.getMsbD (done ++ rest) ↔ openStart rest ≤ (nibbleAt k level).val ∧
      (nibbleAt k level).val < openStart rest + openWidth rest := by
  have hmem : nibbleAt k level ∈ NibbleTree.openChildren rest ↔
      openStart rest ≤ (nibbleAt k level).val ∧
        (nibbleAt k level).val < openStart rest + openWidth rest := by
    simp [NibbleTree.openChildren, openStart, openWidth]
  exact (NibbleTree.begins_open hdone hbegins hrest hrest').trans hmem

/-- The open range of one to three bits: where it starts and how wide it is. -/
theorem openStart_spec (hrest : 0 < rest.length) (hrest' : rest.length < 4) :
    openWidth rest = 2 ^ (4 - rest.length) ∧ 2 ^ (4 - rest.length) ∣ openStart rest ∧
      openStart rest + 2 ^ (4 - rest.length) ≤ 16 := by
  match rest with
  | [b0] => revert b0; decide
  | [b0, b1] => revert b0 b1; decide
  | [b0, b1, b2] => revert b0 b1 b2; decide
  | [] => cases hrest
  | _ :: _ :: _ :: _ :: _ => simp at hrest'; omega

/-- The commitment at the node where the whole nibbles of a path end. -/
theorem isCommitment_node {node : InternalNode δ} (hnode : NodeHolds h level S (.internal node))
    (hpath : path = done ++ rest) (hdone : done.length = 4 * level) (hrest : rest.length < 4)
    (hall : ∀ e ∈ S, Begins e.1.getMsbD done) :
    IsCommitment h path S (if rest = [] then node.hash h
      else node.subtreeHash h (openStart rest) (openWidth rest)) := by
  have hlength : path.length = 4 * level + rest.length := by rw [hpath, length_append, hdone]
  have hdoneSet : under S done = S := Set.Subset.antisymm (fun e he => he.1) fun e he => ⟨he, hall e he⟩
  rcases eq_or_ne rest [] with rfl | hne
  · rw [append_nil] at hpath
    subst hpath
    obtain ⟨t, hbuilds, hhash⟩ := hnode.builds
    refine ⟨fun _ => ⟨t, ?_, hhash⟩, fun hempty => ?_, fun hempty => ?_⟩
    · rw [hdone, hdoneSet]
      exact hbuilds
    all_goals exact absurd (hdoneSet.symm.trans hempty) hnode.1.nonempty.ne_empty
  · have hpos : 0 < rest.length := length_pos_iff.mpr hne
    obtain ⟨hwidth, hdvd, hend⟩ := openStart_spec hpos hrest
    rw [if_neg hne]
    obtain ⟨t, hbuilds, hhash⟩ := merkleHash_builds hnode.2 (Nat.sub_le 4 rest.length) hdvd hend
    have hset : rangePart S level (openStart rest) (2 ^ (4 - rest.length)) = under S path := by
      ext e
      refine and_congr_right fun he => ?_
      rw [hpath, begins_open hpos hrest hdone (hall e he), hwidth]
    have hdepth : 4 * level + (4 - (4 - rest.length)) = path.length := by omega
    have hvalue : node.subtreeHash h (openStart rest) (openWidth rest) = t.hash h.merkle := by
      rw [InternalNode.subtreeHash, hwidth, Nat.log2_two_pow, hhash]
    rw [hset, hdepth] at hbuilds
    have htake : path.take (4 * (path.length / 4)) = done := by
      have hcut : 4 * (path.length / 4) = done.length := by omega
      rw [hcut, hpath, take_left]
    have hcrowded : Crowded S path := by
      refine ⟨by omega, ?_⟩
      rw [htake, hdoneSet]
      exact hnode.1
    refine ⟨fun _ => ⟨t, hbuilds, hvalue⟩, fun hempty _ => ?_, fun _ _ hnot => absurd hcrowded hnot⟩
    rw [hempty, MerkleTree.builds_empty_iff] at hbuilds
    rw [hvalue, hbuilds]
    rfl

theorem rootBelow_short (hrest : rest.length < 4) :
    rootBelow h reader path rest key node = .ok (rootAtNode h path rest key node) := by
  match rest with
  | [] | [_] | [_, _] | [_, _, _] => rfl
  | _ :: _ :: _ :: _ :: _ => simp at hrest; omega

theorem rootAtNode_internal (node : InternalNode δ) :
    (rootAtNode h path rest key (.internal node)).1 = if rest = [] then node.hash h
      else node.subtreeHash h (openStart rest) (openWidth rest) := by
  rw [rootAtNode]
  split <;> rfl

/-- A path has another nibble or ends before. -/
theorem four_or_short (rest : List Bool) :
    (∃ b0 b1 b2 b3 more, rest = b0 :: b1 :: b2 :: b3 :: more) ∨ rest.length < 4 := by
  match rest with
  | [] | [_] | [_, _] | [_, _, _] => exact .inr (by simp)
  | b0 :: b1 :: b2 :: b3 :: more => exact .inl ⟨b0, b1, b2, b3, more, rfl⟩

/-- The descent of a stored tree ends with the commitment. -/
theorem rootBelow_isCommitment (hs : Stored h reader key level S node) (hne : path ≠ [])
    (hpath : path = done ++ rest) (hdone : done.length = 4 * level)
    (hall : ∀ e ∈ S, Begins e.1.getMsbD done) :
    ∃ c version, rootBelow h reader path rest key node = .ok (c, version) ∧ IsCommitment h path S c := by
  induction hs generalizing done rest with
  | @null key level read =>
    have hnull : IsCommitment h path (∅ : Set (Bytes32 × Bytes)) h.zero :=
      isCommitment_zero hne ⟨rest, hpath.symm⟩ hdone (by simp [under])
    rcases four_or_short rest with ⟨b0, b1, b2, b3, more, rfl⟩ | hshort
    · exact ⟨_, _, rfl, hnull⟩
    · exact ⟨_, _, rootBelow_short hshort, hnull⟩
  | @leaf key level k v read value =>
    rcases four_or_short rest with ⟨b0, b1, b2, b3, more, rfl⟩ | hshort
    · exact ⟨_, _, rfl, isCommitment_leaf k v⟩
    · exact ⟨_, _, rootBelow_short hshort, isCommitment_leaf k v⟩
  | @internal key level S node child read several absent present below ih =>
    rcases four_or_short rest with ⟨b0, b1, b2, b3, more, rfl⟩ | hshort
    · have hnext : done ++ [b0, b1, b2, b3] <+: path := ⟨more, by rw [hpath]; simp⟩
      have hlength : (done ++ [b0, b1, b2, b3]).length = 4 * (level + 1) := by
        rw [length_append, hdone]
        rfl
      have hpart := @nibblePart_eq_under level S done b0 b1 b2 b3 hdone hall
      cases hchild : node.children (nibble4 b0 b1 b2 b3) with
      | none =>
        refine ⟨h.zero, key.version, ?_, ?_⟩
        · simp only [rootBelow, hchild]
        · exact isCommitment_zero hne hnext hlength (hpart ▸ absent _ hchild)
      | some c =>
        have hread := (below _ c hchild).read_eq
        obtain ⟨r, version, hroot, hcommit⟩ := @ih _ c hchild (done ++ [b0, b1, b2, b3]) more
          (by rw [hpath]; simp) hlength (fun e he => by rw [hpart] at he; exact he.2)
        refine ⟨r, version, ?_, ?_⟩
        · simp only [rootBelow, hchild, hread]
          exact hroot
        · exact IsCommitment.of_under hnext hlength (hpart ▸ hcommit)
    · refine ⟨(rootAtNode h path rest key (.internal node)).1,
        (rootAtNode h path rest key (.internal node)).2, rootBelow_short hshort, ?_⟩
      rw [rootAtNode_internal]
      exact isCommitment_node (Stored.internal child read several absent present below).holds
        hpath hdone hshort hall

/-- The hash of a stored root is the commitment of the whole tree. -/
theorem Stored.isCommitment_root (hs : Stored h reader key 0 S node) :
    IsCommitment h [] S (nodeHash h node) := by
  obtain ⟨t, hbuilds, hhash⟩ := hs.holds.builds
  have hset : under S [] = S := Set.Subset.antisymm (fun e he => he.1) fun e he => ⟨he, begins_nil _⟩
  refine ⟨fun _ => ⟨t, by rw [hset]; exact hbuilds, hhash⟩, fun hempty _ => ?_,
    fun _ hnot => absurd rfl hnot⟩
  rw [hset] at hempty
  rw [hempty, MerkleTree.builds_empty_iff] at hbuilds
  rw [hhash, hbuilds]
  rfl

/-- **What a shard's commitment is.** -/
theorem appSubtreeRoot_isCommitment {version : Nat} (hS : Committed h reader version S)
    (path : List Bool) :
    ∃ c, appSubtreeRoot h reader version path = .ok c ∧ IsCommitment h path S c := by
  obtain ⟨node, hs⟩ := hS
  by_cases hne : path = []
  · subst hne
    refine ⟨nodeHash h node, ?_, ?_⟩
    · simp only [appSubtreeRoot, appSubtreeRootChanged, hs.read_eq]
      rfl
    · exact hs.isCommitment_root
  · obtain ⟨c, _, hroot, hcommit⟩ := rootBelow_isCommitment hs hne rfl rfl
      fun e _ => begins_nil _
    refine ⟨c, ?_, hcommit⟩
    simp only [appSubtreeRoot, appSubtreeRootChanged, hs.read_eq, bind, Except.bind, if_neg hne, hroot]
    rfl

theorem IsCommitment.eq_of_empty (hc : IsCommitment h path S c) (hempty : under S path = ∅)
    [Decidable (path = [] ∨ Crowded S path)] :
    c = if path = [] ∨ Crowded S path then h.placeholder else h.zero := by
  split
  · rename_i hcase
    exact hc.placeholder hempty hcase
  · rename_i hcase
    exact hc.zero hempty (fun hnil => hcase (.inl hnil)) fun hcrowded => hcase (.inr hcrowded)

/-- Two commitments over the same leaves agree, except where there are none and the surroundings
differ. -/
theorem IsCommitment.eq_iff {S' : Set (Bytes32 × Bytes)} (hc : IsCommitment h path S c)
    (hc' : IsCommitment h path S' c') (hsame : under S path = under S' path) :
    c = c' ↔ path.length % 4 = 0 ∨ (under S path).Nonempty ∨ (Crowded S path ↔ Crowded S' path) := by
  rcases eq_empty_or_nonempty (under S path) with hempty | hsome
  · have hempty' := hsame ▸ hempty
    have hnot : ¬ (under S path).Nonempty := fun hn => hn.ne_empty hempty
    have hwhole : ∀ S, Crowded S path → path.length % 4 ≠ 0 := fun _ hcrowded => hcrowded.1
    classical
    rw [hc.eq_of_empty hempty, hc'.eq_of_empty hempty']
    by_cases hnil : path = []
    · simp [hnil]
    by_cases hcrowded : Crowded S path <;> by_cases hcrowded' : Crowded S' path
    · simp [hcrowded, hcrowded']
    · simp [hnil, hnot, hcrowded, hcrowded', hwhole S hcrowded, h.placeholder_ne_zero]
    · simp [hnil, hnot, hcrowded, hcrowded', hwhole S' hcrowded', h.placeholder_ne_zero.symm]
    · simp [hnil, hcrowded, hcrowded']
  · obtain ⟨_, hbuilds, rfl⟩ := hc.leaves hsome
    obtain ⟨_, hbuilds', rfl⟩ := hc'.leaves (hsame ▸ hsome)
    rw [← hsame] at hbuilds'
    rw [hbuilds.unique hbuilds']
    exact iff_of_true rfl (.inr (.inl hsome))

/-- A set of leaves has one commitment at a path. -/
theorem IsCommitment.unique (hc : IsCommitment h path S c) (hc' : IsCommitment h path S c') : c = c' :=
  (hc.eq_iff hc' rfl).mpr (.inr (.inr Iff.rfl))

/-- **A shard's commitment is local where it holds leaves.**  Two trees with the same leaves under a
path agree there if and only if it is of whole nibbles, has a leaf under it, or both or neither have
several leaves around it. -/
theorem subtree_root_local_iff {reader' : TreeReader δ} {version version' : Nat}
    {S' : Set (Bytes32 × Bytes)} (hS : Committed h reader version S)
    (hS' : Committed h reader' version' S') {path : List Bool}
    (hsame : ∀ e : Bytes32 × Bytes, Begins e.1.getMsbD path → (e ∈ S ↔ e ∈ S')) :
    appSubtreeRoot h reader version path = appSubtreeRoot h reader' version' path ↔
      path.length % 4 = 0 ∨ (∃ e ∈ S, Begins e.1.getMsbD path) ∨
        (Crowded S path ↔ Crowded S' path) := by
  obtain ⟨_, hroot, hc⟩ := appSubtreeRoot_isCommitment hS path
  obtain ⟨_, hroot', hc'⟩ := appSubtreeRoot_isCommitment hS' path
  have hset : under S path = under S' path := by
    ext e
    exact and_congr_left fun he => hsame e he
  rw [hroot, hroot', Except.ok.injEq, hc.eq_iff hc' hset]
  rfl

/-- The tree of one leaf. -/
def singleReader (h : Hashes δ) (a : Bytes32 × Bytes) : TreeReader δ where
  getNodeOption key := .ok (if key = .root 0 then some (.leaf ⟨a.1, h.value a.2⟩) else none)
  getValueOption _ key := .ok (if key = a.1 then some a.2 else none)

theorem committed_single (h : Hashes δ) (a : Bytes32 × Bytes) : Committed h (singleReader h a) 0 {a} :=
  ⟨_, .leaf (by simp [singleReader]) (by simp [singleReader])⟩

/-- The root of two leaves with different first nibbles. -/
def pairNode (h : Hashes δ) (a b : Bytes32 × Bytes) : InternalNode δ :=
  .new fun n =>
    if n = nibbleAt a.1 0 then some ⟨h.leaf a.1 (h.value a.2), 0, .leaf⟩
    else if n = nibbleAt b.1 0 then some ⟨h.leaf b.1 (h.value b.2), 0, .leaf⟩
    else none

def pairReader (h : Hashes δ) (a b : Bytes32 × Bytes) : TreeReader δ where
  getNodeOption key := .ok (if key = .root 0 then some (.internal (pairNode h a b))
    else if key = ⟨0, [nibbleAt a.1 0]⟩ then some (.leaf ⟨a.1, h.value a.2⟩)
    else if key = ⟨0, [nibbleAt b.1 0]⟩ then some (.leaf ⟨b.1, h.value b.2⟩)
    else none)
  getValueOption _ key := .ok (
    if key = a.1 then some a.2 else if key = b.1 then some b.2 else none)

theorem committed_pair (h : Hashes δ) {a b : Bytes32 × Bytes} (hne : nibbleAt a.1 0 ≠ nibbleAt b.1 0) :
    Committed h (pairReader h a b) 0 {a, b} := by
  have hkeys : b.1 ≠ a.1 := fun hsame => hne (by rw [hsame])
  have hpart : ∀ n, nibblePart {a, b} 0 n =
      if n = nibbleAt a.1 0 then {a} else if n = nibbleAt b.1 0 then {b} else ∅ := by
    intro n
    ext e
    constructor
    · rintro ⟨rfl | rfl, rfl⟩
      · simp
      · simp [hne.symm]
    · intro he
      split_ifs at he with hn hn'
      · obtain rfl : e = a := he
        exact ⟨.inl rfl, hn.symm⟩
      · obtain rfl : e = b := he
        exact ⟨.inr rfl, hn'.symm⟩
      · cases he
  refine ⟨.internal (pairNode h a b), .internal
    (fun n => if n = nibbleAt a.1 0 then .leaf ⟨a.1, h.value a.2⟩ else .leaf ⟨b.1, h.value b.2⟩)
    (by simp [pairReader]) ?_ ?_ ?_ ?_⟩
  · exact ⟨a, .inl rfl, b, .inr rfl, fun hsame => hkeys (by rw [hsame])⟩
  · intro n hnone
    rw [hpart]
    simp only [pairNode, InternalNode.new] at hnone
    split_ifs at hnone with hn hn'
    rw [if_neg hn, if_neg hn']
  · intro n c hsome
    rw [hpart]
    simp only [pairNode, InternalNode.new] at hsome
    split_ifs at hsome with hn hn' <;> obtain rfl := Option.some.inj hsome
    · rw [if_pos hn, if_pos hn]
      exact ⟨singleton_nonempty a, rfl, rfl⟩
    · rw [if_neg hn, if_neg hn, if_pos hn']
      exact ⟨singleton_nonempty b, rfl, rfl⟩
  · intro n c hsome
    rw [hpart]
    simp only [pairNode, InternalNode.new] at hsome
    split_ifs at hsome with hn hn' <;> obtain rfl := Option.some.inj hsome
    · subst hn
      rw [if_pos rfl, if_pos rfl]
      exact .leaf (by simp [pairReader, NodeKey.genChildNodeKey, NodeKey.root]) (by simp [pairReader])
    · subst hn'
      rw [if_neg hn, if_neg hn, if_pos rfl]
      exact .leaf (by simp [pairReader, NodeKey.genChildNodeKey, NodeKey.root, hn])
        (by simp [pairReader, hkeys])

/-- Hashes as terms, which do not collide. -/
inductive Digest where
  | placeholder
  | zero
  | value (bytes : Bytes)
  | leaf (key : Bytes32) (value : Digest)
  | inner (left right : Digest)
  deriving DecidableEq

def digests : Hashes Digest :=
  ⟨.value, .leaf, .inner, .placeholder, .zero, by decide⟩

/-- A shard of six bits with a leaf has one root, whatever is beside it. -/
theorem leaf_beside_another :
    appSubtreeRoot digests (singleReader digests (0, [1])) 0 (replicate 6 false) =
      appSubtreeRoot digests (pairReader digests (0, [1]) (1#256 <<< 255, [2])) 0
        (replicate 6 false) := by
  refine (subtree_root_local_iff (committed_single digests (0, [1]))
    (committed_pair digests (by decide)) ?_).mpr (.inr (.inl ⟨(0, [1]), rfl, ?_⟩))
  · intro e hbegins
    refine ⟨fun he => .inl he, ?_⟩
    rintro (he | rfl)
    · exact he
    · exact absurd (addrHasBitPrefix_iff.mpr hbegins) (by decide)
  · exact addrHasBitPrefix_iff.mp (by decide)

/-- Two leaves of the second half of the addresses. -/
def leafAt8 : Bytes32 × Bytes := (8#256 <<< 252, [1])
def leafAt9 : Bytes32 × Bytes := (9#256 <<< 252, [2])

/-- The first half of the addresses is empty in both trees; where two leaves of the other half share
the root node its root is not zero. -/
theorem empty_half_two_roots :
    Committed digests (pairReader digests leafAt8 leafAt9) 0 {leafAt8, leafAt9} ∧
      Committed digests (singleReader digests leafAt8) 0 {leafAt8} ∧
      (∀ e : Bytes32 × Bytes, Begins e.1.getMsbD [false] →
        (e ∈ ({leafAt8, leafAt9} : Set (Bytes32 × Bytes)) ↔ e ∈ ({leafAt8} : Set (Bytes32 × Bytes)))) ∧
      appSubtreeRoot digests (pairReader digests leafAt8 leafAt9) 0 [false] ≠
        appSubtreeRoot digests (singleReader digests leafAt8) 0 [false] := by
  refine ⟨committed_pair digests (by decide), committed_single digests _, ?_, ?_⟩
  · intro e hbegins
    refine ⟨?_, fun he => .inl he⟩
    rintro (he | rfl)
    · exact he
    · exact absurd (addrHasBitPrefix_iff.mpr hbegins) (by decide)
  · exact fun hsame => Digest.noConfusion (Except.ok.inj hsame)

end Jmt

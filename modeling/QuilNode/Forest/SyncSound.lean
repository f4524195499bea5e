import QuilNode.Forest.TreeSync

/-!
# Tree sync is authentic

What a source answers is only used once it hashes into what is already trusted.  A hash is
genuine for a set of leaves if it is that of a tree with leaves in the set; a genuine node
has genuine children (`merkleHash_genuine`), whatever else the source made up about it, so
that a walk from a pinned root returns leaves of the tree with that root.
-/

namespace Jmt

open Forest Results List InternalNode MerkleTree NodeKey

variable {δ : Type}

/-- Different inputs have different hashes, none of them the all-zero root. -/
structure Hashes.CollisionFree (h : Hashes δ) : Prop where
  merkle : MerkleTree.CollisionFree h.merkle
  leaf_ne_zero : ∀ k v, h.leaf k (h.value v) ≠ h.zero
  inner_ne_zero : ∀ a b, h.inner a b ≠ h.zero

theorem Hashes.CollisionFree.hash_ne_zero {h : Hashes δ} (hcf : h.CollisionFree)
    (t : MerkleTree Bytes32 Bytes) : t.hash h.merkle ≠ h.zero := by
  cases t with
  | empty => exact h.placeholder_ne_zero
  | leaf key value => exact hcf.leaf_ne_zero key value
  | node => exact hcf.inner_ne_zero _ _

/-- A hash of a tree with leaves in `A` only, or of no tree. -/
def Genuine (h : Hashes δ) (A : Set Entry) (c : δ) : Prop :=
  c = h.zero ∨ ∃ t : MerkleTree Bytes32 Bytes, t.hash h.merkle = c ∧ t.entries ⊆ A

variable {h : Hashes δ} {A : Set Entry}

/-- **The children of a genuine range are genuine**, whatever kind and version they claim. -/
theorem merkleHash_genuine (hcf : h.CollisionFree) {node : InternalNode δ} {k start : Nat}
    (hgenuine : Genuine h A (node.merkleHash h k start)) {n : Fin 16} {child : Child δ}
    (hmem : (n, child) ∈ node.rangeChildren start (2 ^ k)) : Genuine h A child.hash := by
  induction k generalizing start with
  | zero =>
    simp only [merkleHash] at hgenuine
    rw [Nat.pow_zero] at hmem
    cases hrange : node.rangeChildren start 1 with
    | nil =>
      rw [hrange] at hmem
      exact absurd hmem not_mem_nil
    | cons first =>
      obtain ⟨n', _⟩ := first
      rw [hrange] at hgenuine
      obtain ⟨hchild', _, _⟩ := mem_rangeChildren.mp (hrange ▸ mem_cons_self)
      obtain ⟨hchild, _, _⟩ := mem_rangeChildren.mp hmem
      obtain rfl : n = n' := Fin.ext (by omega)
      obtain rfl := Option.some.inj (hchild.symm.trans hchild')
      exact hgenuine
  | succ k ih =>
    simp only [merkleHash] at hgenuine
    cases hrange : node.rangeChildren start (2 ^ (k + 1)) with
    | nil =>
      rw [hrange] at hmem
      exact absurd hmem not_mem_nil
    | cons =>
      rw [hrange] at hgenuine
      dsimp only at hgenuine
      split at hgenuine
      · rename_i honly
        rw [Bool.and_eq_true, List.isEmpty_iff] at honly
        rw [hrange, honly.1, mem_singleton] at hmem
        rwa [← hmem] at hgenuine
      · -- a pair of hashes is that of a tree with two halves
        rcases hgenuine with hzero | ⟨t, hhash, hentries⟩
        · exact absurd hzero (hcf.inner_ne_zero _ _)
        obtain ⟨left, right, rfl, hleft, hright⟩ := exists_node_of_hash hcf.merkle hhash
        obtain ⟨hchild, hlow, _⟩ := mem_rangeChildren.mp hmem
        rcases Nat.lt_or_ge n.val (start + 2 ^ k) with hlt | hge
        · exact ih (.inr ⟨left, hleft, Set.subset_union_left.trans hentries⟩)
            (mem_rangeChildren.mpr ⟨hchild, hlow, hlt⟩)
        · exact ih (.inr ⟨right, hright, Set.subset_union_right.trans hentries⟩)
            (mem_rangeChildren.mpr ⟨hchild, hge, by omega⟩)

/-- A genuine node has genuine children. -/
theorem children_genuine (hcf : h.CollisionFree) {node : InternalNode δ}
    (hgenuine : Genuine h A (node.hash h)) {c : Fin 16 × Child δ} (hmem : c ∈ node.childrenSorted) :
    Genuine h A c.2.hash :=
  @merkleHash_genuine _ h A hcf node 4 0 hgenuine c.1 c.2
    (mem_rangeChildren.mpr ⟨mem_childrenSorted.mp hmem, Nat.zero_le _, by have := c.1.isLt; omega⟩)

section Spec

variable [DecidableEq δ] {source target : BatchTreeReader δ} {vS : Nat} {pair : WalkPair δ}
  {st st' : RoundState δ} {stack stack' : List (WalkPair δ)} {out out' : List Entry}
  {bits : List Bool} {anchor : Option (SubtreeSyncAnchor δ)} {sKey : NodeKey}
  {t : Option (NodeKey × Node δ)} {bulk : Bool} {result : List Entry × δ}

/-- What a round collects is genuine. -/
structure GenuineRound (h : Hashes δ) (A : Set Entry) (st : RoundState δ) : Prop where
  leaves : ∀ l ∈ st.leaves, Genuine h A (l.2.hash h)
  children : ∀ c ∈ st.children, Genuine h A c.hash
  out : ∀ e ∈ st.out, e ∈ A

theorem NodeKey.length_bits (key : NodeKey) : key.bits.length = 4 * key.nibblePath.length := by
  rw [bits]
  induction key.nibblePath with
  | nil => rfl
  | cons n path ih =>
    rw [flatMap_cons, length_append, ih, length_cons]
    simp only [nibbleBits, length_cons, length_nil]
    omega

variable {pairs : List (WalkPair δ)}

theorem pairUp_genuine {reads : List (ChildRead δ × Option (Node δ))}
    {tNodes : List (Option (Node δ))}
    (hreads : ∀ r ∈ reads, Genuine h A r.1.hash) (hpairs : pairUp h reads tNodes = .ok pairs) :
    ∀ p ∈ pairs, Genuine h A (nodeHash h p.sNode) := by
  induction reads generalizing tNodes pairs with
  | nil =>
    obtain rfl := Except.ok.inj hpairs
    exact fun p hp => absurd hp not_mem_nil
  | cons read reads ih =>
    simp only [pairUp, bind_ok, ensure_ok] at hpairs
    obtain ⟨_, -, _, hhash, _, hrest, hpairs⟩ := hpairs
    obtain rfl := pure_ok.mp hpairs
    intro p hp
    rcases mem_cons.mp hp with rfl | hp
    · have hchild := hreads _ mem_cons_self
      rwa [← hhash] at hchild
    · exact ih (fun r hr => hreads r (mem_cons_of_mem _ hr)) hrest p hp

/-- Children fetched by genuine hashes are genuine. -/
theorem fetchChildren_genuine {children : List (ChildRead δ)}
    (hchildren : ∀ c ∈ children, Genuine h A c.hash)
    (hpairs : fetchChildren h source target children = .ok pairs) :
    ∀ p ∈ pairs, Genuine h A (nodeHash h p.sNode) := by
  simp only [fetchChildren, bind_ok] at hpairs
  obtain ⟨_, -, _, -, _, -, _, -, hpairs⟩ := hpairs
  exact pairUp_genuine (fun r hr => hchildren r.1 (of_mem_zip hr).1) hpairs

/-- The walk reports the leaves of its rounds. -/
theorem mem_of_walk (hwalk : walk h source target vS pairs = .ok out) :
    ∃ out', walkRounds h source target vS (walkFuel pairs) pairs [] = .ok out' ∧
      ∀ e, e ∈ out ↔ e ∈ out' := by
  simp only [walk, bind_ok] at hwalk
  obtain ⟨out', hrounds, hwalk⟩ := hwalk
  obtain rfl := pure_ok.mp hwalk
  exact ⟨out', hrounds, fun e => mem_mergeSort⟩

theorem checkSubtree_ok {root : δ} {u : Unit} :
    checkSubtree anchor root = .ok u ↔
      ∀ expected, anchor = some (.subtreeRoot expected) → root = expected := by
  unfold checkSubtree
  split
  · rw [ensure_ok]
    simp
  · rename_i hother
    exact iff_of_true rfl fun expected hanchor => absurd hanchor (hother expected)

/-- The root is the pinned subtree root where there is one, and the leaves are leaves of
whatever tree has that root. -/
def Authentic (h : Hashes δ) (anchor : Option (SubtreeSyncAnchor δ)) (result : List Entry × δ) : Prop :=
  (∀ expected, anchor = some (.subtreeRoot expected) → result.2 = expected) ∧
    ∀ A, Genuine h A result.2 → ∀ e ∈ result.1, e ∈ A

theorem authentic_nil {root : δ} {u : Unit} (hcheck : checkSubtree anchor root = .ok u) :
    Authentic h anchor ([], root) :=
  ⟨checkSubtree_ok.mp hcheck, fun _ _ _ he => absurd he not_mem_nil⟩

variable (hcf : h.CollisionFree)

include hcf

/-- A leaf with its value is one of the set. -/
theorem checkedValue_genuine {leaf : LeafNode δ} {value : Bytes} {e : Entry}
    (hgenuine : Genuine h A (leaf.hash h)) (hvalue : checkedValue h leaf value = .ok e) : e ∈ A := by
  simp only [checkedValue, bind_ok, ensure_ok] at hvalue
  obtain ⟨_, hleaf, hvalue⟩ := hvalue
  obtain rfl := pure_ok.mp hvalue
  have hhash : leaf.hash h = h.merkle.leaf leaf.keyHash value := by
    rw [LeafNode.hash, ← congrArg LeafNode.valueHash hleaf]
    rfl
  rcases hgenuine with hzero | ⟨t, ht, hentries⟩
  · exact absurd (hhash.symm.trans hzero) (hcf.leaf_ne_zero _ _)
  · rw [eq_leaf_of_hash hcf.merkle (ht.trans hhash)] at hentries
    exact hentries rfl

/-- A listing that reconstructs a genuine hash lists leaves of the set. -/
theorem listedSubtree_genuine {c : δ} {leaves : List Entry}
    (hlisted : listedSubtree h source vS bits c = .ok (some leaves)) (hwidth : bits.length ≤ 256)
    (hgenuine : Genuine h A c) {e : Entry} (he : e ∈ leaves) : e ∈ A := by
  simp only [listedSubtree, bind_ok] at hlisted
  obtain ⟨answer, -, hlisted⟩ := hlisted
  cases answer with
  | none => cases hlisted
  | some =>
    simp only [bind_ok, ensure_ok] at hlisted
    obtain ⟨_, hroot, _, rfl, hlisted⟩ := hlisted
    obtain rfl := Option.some.inj (pure_ok.mp hlisted)
    have hchecks := hroot
    simp only [listedSubtreeRoot, bind_ok, ensure_ok] at hchecks
    obtain ⟨_, hsorted, _, hkeys, -⟩ := hchecks
    obtain ⟨_, hspec, -, hleaves⟩ := listedSubtreeRoot_spec hwidth hsorted
      fun x hx => addrHasBitPrefix_iff.mp (hkeys x hx)
    obtain rfl := Except.ok.inj (hroot.symm.trans hspec)
    obtain ⟨t, hbuilds, hc⟩ := hleaves (ne_nil_of_mem he)
    rcases hgenuine with hzero | ⟨t', ht', hentries⟩
    · exact absurd (hc.symm.trans hzero) (hcf.hash_ne_zero t)
    · rw [hash_injective hcf.merkle (ht'.trans hc), hbuilds.entries_eq] at hentries
      exact hentries he

theorem expandChild_genuine {c : Fin 16 × Child δ}
    (hgenuine : Genuine h A c.2.hash) (hst : GenuineRound h A st)
    (hstep : expandChild h source vS pair st c = .ok st') : GenuineRound h A st' := by
  rcases expandChild_cases hstep with ⟨-, rfl⟩ | ⟨hlt, ⟨leaves, hlisted, rfl⟩ | ⟨tKey, tPresent, rfl⟩⟩
  · exact hst
  · refine ⟨hst.leaves, hst.children, fun e he => ?_⟩
    rcases mem_append.mp he with he | he
    · exact hst.out e he
    refine listedSubtree_genuine hcf hlisted ?_ hgenuine he
    rw [length_bits, genChildNodeKey, length_append]
    simp only [length_cons, length_nil]
    omega
  · refine ⟨hst.leaves, fun c' hc' => ?_, hst.out⟩
    rcases mem_append.mp hc' with hc' | hc'
    · exact hst.children c' hc'
    · rw [mem_singleton.mp hc']
      exact hgenuine

/-- Expanding a genuine pair keeps the round genuine. -/
theorem expandPair_genuine (hgenuine : Genuine h A (nodeHash h pair.sNode))
    (hst : GenuineRound h A st) (hstep : expandPair h source vS st pair = .ok st') :
    GenuineRound h A st' := by
  unfold expandPair at hstep
  split at hstep
  · exact Except.ok.inj hstep ▸ hst
  · rename_i leaf hnode
    rw [hnode] at hgenuine
    split at hstep
    · exact Except.ok.inj hstep ▸ hst
    obtain rfl := Except.ok.inj hstep
    refine ⟨fun l hl => ?_, hst.children, hst.out⟩
    rcases mem_append.mp hl with hl | hl
    · exact hst.leaves l hl
    · rw [mem_singleton.mp hl]
      exact hgenuine
  · rename_i int hnode
    rw [hnode] at hgenuine
    have hloop := @foldlM_invariant _ _ _ (expandChild h source vS pair)
      (fun rest st => GenuineRound h A st ∧ ∀ c ∈ rest, Genuine h A c.2.hash)
      (fun c rest a a' hc ha => ⟨expandChild_genuine hcf (ha.2 c mem_cons_self) ha.1 hc,
        fun c' hc' => ha.2 c' (mem_cons_of_mem c hc')⟩) _ _ _ hstep
      ⟨hst, fun c hc => children_genuine hcf hgenuine hc⟩
    exact hloop.1

/-- Values read for genuine leaves are the source's. -/
theorem readLeaves_genuine {leaves : List (Nat × LeafNode δ)}
    (hleaves : ∀ l ∈ leaves, Genuine h A (l.2.hash h))
    (hread : readLeaves h source leaves = .ok out) : ∀ e ∈ out, e ∈ A := by
  simp only [readLeaves, bind_ok] at hread
  obtain ⟨_, -, _, -, hread⟩ := hread
  intro e he
  obtain ⟨l, hl, hvalue⟩ := exists_left_of_forall₂ (mapM_ok.mp hread) he
  simp only [bind_ok] at hvalue
  obtain ⟨_, -, hvalue⟩ := hvalue
  exact checkedValue_genuine hcf (hleaves l.1 (of_mem_zip hl).1) hvalue

section Walk

variable (hstack : ∀ p ∈ stack, Genuine h A (nodeHash h p.sNode)) (hout : ∀ e ∈ out, e ∈ A)
include hstack hout

/-- **One round keeps to the genuine leaves.** -/
theorem walkRound_genuine
    (hround : walkRound h source target vS stack out = .ok (stack', out')) :
    (∀ p ∈ stack', Genuine h A (nodeHash h p.sNode)) ∧ ∀ e ∈ out', e ∈ A := by
  simp only [walkRound, bind_ok] at hround
  obtain ⟨st, hexpand, _, hpairs, _, hvalues, hround⟩ := hround
  obtain ⟨rfl, rfl⟩ := Prod.mk.inj (pure_ok.mp hround)
  have hloop := @foldlM_invariant _ _ _ (expandPair h source vS)
    (fun rest st => GenuineRound h A st ∧ ∀ p ∈ rest, Genuine h A (nodeHash h p.sNode))
    (fun p rest a a' hstep ha => ⟨expandPair_genuine hcf (ha.2 p mem_cons_self) ha.1 hstep,
      fun p' hp' => ha.2 p' (mem_cons_of_mem p hp')⟩) _ _ _ hexpand
    ⟨⟨fun l hl => absurd hl not_mem_nil, fun c hc => absurd hc not_mem_nil, hout⟩,
      fun p hp => hstack p (mem_of_mem_drop hp)⟩
  obtain ⟨hst, -⟩ := hloop
  constructor
  · intro p hp
    rcases mem_append.mp hp with hp | hp
    · exact hstack p (mem_of_mem_take hp)
    · exact fetchChildren_genuine hst.children hpairs p hp
  · intro e he
    rcases mem_append.mp he with he | he
    · exact hst.out e he
    · exact readLeaves_genuine hcf hst.leaves hvalues e he

/-- Every round reports entries of the source only. -/
theorem walkRounds_genuine {fuel : Nat}
    (hwalk : walkRounds h source target vS fuel stack out = .ok out') : ∀ e ∈ out', e ∈ A := by
  induction fuel generalizing stack out with
  | zero =>
    cases stack with
    | nil => exact Except.ok.inj hwalk ▸ hout
    | cons => cases hwalk
  | succ fuel ih =>
    cases stack with
    | nil => exact Except.ok.inj hwalk ▸ hout
    | cons =>
      simp only [walkRounds, bind_ok] at hwalk
      obtain ⟨⟨_, _⟩, hround, hwalk⟩ := hwalk
      obtain ⟨hstack', hout₁⟩ := walkRound_genuine hcf hstack hout hround
      exact ih hstack' hout₁ hwalk

end Walk

/-- A walk from genuine nodes returns leaves of the set. -/
theorem walk_genuine (hpairs : ∀ p ∈ pairs, Genuine h A (nodeHash h p.sNode))
    (hwalk : walk h source target vS pairs = .ok out) : ∀ e ∈ out, e ∈ A := by
  obtain ⟨_, hrounds, hmem⟩ := mem_of_walk hwalk
  intro e he
  exact walkRounds_genuine hcf hpairs (fun e he => absurd he not_mem_nil) hrounds e ((hmem e).mp he)

/-- The children of a genuine subtree that ends inside a nibble are genuine. -/
theorem openReads_genuine (hopen : bits.length % 4 ≠ 0) {sInt : InternalNode δ}
    (hgenuine : Genuine h A (sInt.subtreeHash h (openStart (lastBits bits)) (openWidth (lastBits bits)))) :
    ∀ c ∈ openReads bits sKey sInt t, Genuine h A c.hash := by
  have hlength := length_lastBits bits
  obtain ⟨hwidth, -, -⟩ := @openStart_spec (lastBits bits) (by omega) (by omega)
  intro c hc
  obtain ⟨⟨_, child⟩, hmem, hread⟩ := mem_filterMap.mp hc
  rw [hwidth] at hmem
  rw [subtreeHash, hwidth, Nat.log2_two_pow] at hgenuine
  have hchild := merkleHash_genuine hcf hgenuine hmem
  have hhash : c.hash = child.hash := by
    dsimp only at hread
    split at hread
    · cases hread
    split at hread
    · rw [← Option.some.inj hread]
    · rw [← Option.some.inj hread]
  rwa [hhash]

theorem diffLeaf_authentic {leaf : LeafNode δ}
    (hdiff : diffLeaf h source bits anchor sKey leaf t = .ok result) : Authentic h anchor result := by
  simp only [diffLeaf, bind_ok] at hdiff
  obtain ⟨_, hcheck, hdiff⟩ := hdiff
  split at hdiff
  · rename_i hunder
    simp only [bind_ok, authenticatedValue] at hdiff
    obtain ⟨_, ⟨_, -, _, -, hvalue⟩, hdiff⟩ := hdiff
    obtain rfl := pure_ok.mp hdiff
    refine ⟨checkSubtree_ok.mp hcheck, fun A hgenuine e' he' => ?_⟩
    rw [mem_singleton.mp he']
    refine checkedValue_genuine hcf ?_ hvalue
    rwa [leafIfUnder, if_pos hunder.1] at hgenuine
  · obtain rfl := pure_ok.mp hdiff
    exact authentic_nil hcheck

/-- A nibble-aligned diff is authentic. -/
theorem diffAligned_authentic (hwidth : bits.length ≤ 256) {sNode : Node δ}
    (hdiff : diffAligned h source target vS bits anchor sKey sNode t bulk = .ok result) :
    Authentic h anchor result := by
  simp only [diffAligned, bind_ok] at hdiff
  obtain ⟨_, hcheck, answer, hlisted, hdiff⟩ := hdiff
  cases answer with
  | some =>
    obtain rfl := pure_ok.mp hdiff
    refine ⟨checkSubtree_ok.mp hcheck, fun A hgenuine e he => ?_⟩
    split at hlisted
    · exact listedSubtree_genuine hcf hlisted hwidth hgenuine he
    · cases hlisted
  | none =>
    obtain ⟨_, hwalk, hdiff⟩ := bind_ok.mp hdiff
    obtain rfl := pure_ok.mp hdiff
    refine ⟨checkSubtree_ok.mp hcheck, fun A hgenuine => walk_genuine hcf (fun p hp => ?_) hwalk⟩
    rw [mem_singleton.mp hp]
    exact hgenuine

/-- A diff inside a nibble is authentic. -/
theorem diffOpen_authentic (hwidth : bits.length ≤ 256)
    (hopen : bits.length % 4 ≠ 0) {sInt : InternalNode δ}
    (hdiff : diffOpen h source target vS bits anchor sKey sInt t bulk = .ok result) :
    Authentic h anchor result := by
  simp only [diffOpen, bind_ok] at hdiff
  obtain ⟨_, hcheck, answer, hlisted, hdiff⟩ := hdiff
  cases answer with
  | some =>
    obtain rfl := pure_ok.mp hdiff
    refine ⟨checkSubtree_ok.mp hcheck, fun A hgenuine e he => ?_⟩
    split at hlisted
    · exact listedSubtree_genuine hcf hlisted hwidth hgenuine he
    · cases hlisted
  | none =>
    simp only [bind_ok] at hdiff
    obtain ⟨_, hpairs, _, hwalk, hdiff⟩ := hdiff
    obtain rfl := pure_ok.mp hdiff
    exact ⟨checkSubtree_ok.mp hcheck, fun A hgenuine =>
      walk_genuine hcf (fetchChildren_genuine (openReads_genuine hcf hopen hgenuine) hpairs) hwalk⟩

/-- **The diff is authentic**, whatever the source answers. -/
theorem diff_authentic {vT : Nat}
    (hdiff : diffLeavesUnderPrefix h source target vS bits anchor vT = .ok result) :
    Authentic h anchor result := by
  have hnothing : (do
      checkSubtree anchor h.zero
      return ([], h.zero) : Except String (List Entry × δ)) = .ok result → Authentic h anchor result := by
    intro hnone
    obtain ⟨_, hcheck, hnone⟩ := bind_ok.mp hnone
    obtain rfl := pure_ok.mp hnone
    exact authentic_nil hcheck
  simp only [diffLeavesUnderPrefix, bind_ok, ensure_ok] at hdiff
  obtain ⟨_, hwidth, reached, -, hdiff⟩ := hdiff
  rcases reached with _ | ⟨sKey, sNode⟩
  · exact hnothing hdiff
  · obtain ⟨_, -, hdiff⟩ := bind_ok.mp hdiff
    cases sNode with
    | leaf => exact diffLeaf_authentic hcf hdiff
    | null =>
      dsimp only at hdiff
      split at hdiff
      · exact diffAligned_authentic hcf hwidth hdiff
      · exact hnothing hdiff
    | internal =>
      dsimp only at hdiff
      split at hdiff
      · exact diffAligned_authentic hcf hwidth hdiff
      · rename_i hopen
        exact diffOpen_authentic hcf hwidth hopen hdiff

end Spec

end Jmt

import QuilNode.Forest.SyncSound

/-!
# Tree sync is complete

A source that has a tree, and answers from it, is walked without an error.  On the way every
leaf of the source under the prefix is still below a pending node, or to be read, or
returned, or the target has it (`RoundHolds`, `PairHolds`): a leaf is skipped only where the
target has a subtree with the same hash, hence the same leaves.
-/

namespace Jmt

open MerkleTree (Builds)
open ChildRead (tPresent sKey tKey)
open Forest PrefixCode Results List Set
open NibbleTree (nibble4)

variable {δ : Type}

/-! ## Keys and paths -/

theorem nibble4_nibbleBits : ∀ n : Fin 16,
    nibble4 (n.val.testBit 3) (n.val.testBit 2) (n.val.testBit 1) (n.val.testBit 0) = n := by decide

theorem nibbleBits_nibble4 : ∀ b0 b1 b2 b3, nibbleBits (nibble4 b0 b1 b2 b3) = [b0, b1, b2, b3] := by
  decide

theorem NodeKey.bits_child (key : NodeKey) (version : Nat) (n : Fin 16) :
    (key.genChildNodeKey version n).bits = key.bits ++ nibbleBits n := by
  simp [NodeKey.bits, NodeKey.genChildNodeKey]

section Trees

variable {h : Hashes δ} {reader : TreeReader δ} {target : BatchTreeReader δ} {S T : Set Entry}
  {key tKey : NodeKey} {bits : List Bool} {level : Nat} {n : Fin 16} {int : InternalNode δ}
  {leaf : LeafNode δ} {tNode : Option (Node δ)}

/-- The leaves below a child are those under its key. -/
theorem under_child (key : NodeKey) (version : Nat) (n : Fin 16) :
    under S (key.genChildNodeKey version n).bits =
      nibblePart (under S key.bits) key.nibblePath.length n := by
  have hpart := @nibblePart_under key.nibblePath.length S key.bits (n.val.testBit 3) (n.val.testBit 2)
    (n.val.testBit 1) (n.val.testBit 0) key.length_bits
  rw [nibble4_nibbleBits] at hpart
  rw [NodeKey.bits_child, hpart]
  rfl

/-- An inner node is above the last nibble. -/
theorem Stored.level_lt (hs : Stored h reader key level (under S bits) (.internal int))
    (hbits : bits.length = 4 * level) : level < 64 := by
  by_contra hnot
  obtain ⟨_, he, _, he', hdiff⟩ := hs.holds.1
  exact hdiff (hs.key_inj he he' (eq_of_begins (by omega) he.2 he'.2))

/-! ## Sources that answer from a tree -/

/-- Batches of reads are answered as the single reads are. -/
structure Answers (reader : BatchTreeReader δ) : Prop where
  nodes : ∀ keys, reader.getNodes keys = keys.mapM reader.getNodeOption
  values : ∀ reads, reader.getValues reads = reads.mapM fun r => reader.getValueOption r.1 r.2

/-- A listing, where there is one, lists the leaves under its path in order. -/
def Lists (reader : BatchTreeReader δ) (version : Nat) (S : Set Entry) : Prop :=
  ∀ bits, reader.leavesUnder version bits = .ok none ∨ ∃ leaves,
    reader.leavesUnder version bits = .ok (some leaves) ∧ leaves.Pairwise (fun a b => a.1 < b.1) ∧
      listed leaves = under S bits

/-- The target has the tree of some of its leaves at a key. -/
def TargetHas (h : Hashes δ) (target : BatchTreeReader δ) (T : Set Entry) (key : NodeKey)
    (node : Node δ) : Prop :=
  ∃ level part, Stored h target.toTreeReader key level part node ∧ part ⊆ T

/-- The source has the tree of the leaves under a key. -/
def SourceHas (h : Hashes δ) (source : BatchTreeReader δ) (S : Set Entry) (key : NodeKey)
    (node : Node δ) : Prop :=
  Stored h source.toTreeReader key key.nibblePath.length (under S key.bits) node

structure PairHolds (h : Hashes δ) (source target : BatchTreeReader δ) (S T : Set Entry)
    (pair : WalkPair δ) : Prop where
  source : SourceHas h source S pair.sKey pair.sNode
  target : ∀ node, pair.tNode = some node → TargetHas h target T pair.tKey node

def ReadHolds (h : Hashes δ) (source target : BatchTreeReader δ) (S T : Set Entry)
    (child : ChildRead δ) : Prop :=
  (∃ node, SourceHas h source S child.sKey node ∧ child.hash = nodeHash h node) ∧
    (child.tPresent = true → ∃ node, TargetHas h target T child.tKey node)

def LeafHolds (h : Hashes δ) (source : BatchTreeReader δ) (l : Nat × LeafNode δ) : Prop :=
  ∃ value, l.2.valueHash = h.value value ∧ source.getValueOption l.1 l.2.keyHash = .ok (some value)

structure RoundHolds (h : Hashes δ) (source target : BatchTreeReader δ) (S T : Set Entry)
    (st : RoundState δ) : Prop where
  leaves : ∀ l ∈ st.leaves, LeafHolds h source l
  children : ∀ c ∈ st.children, ReadHolds h source target S T c

/-- The leaves that a round has returned, reads, or fetches a node above. -/
def pending (h : Hashes δ) (S : Set Entry) (st : RoundState δ) : Set Entry :=
  {e | e ∈ st.out ∨ (∃ l ∈ st.leaves, l.2 = ⟨e.1, h.value e.2⟩) ∨
    ∃ c ∈ st.children, e ∈ under S c.sKey.bits}

/-- The leaves below the nodes of a stack. -/
def below (S : Set Entry) (stack : List (WalkPair δ)) : Set Entry :=
  {e | ∃ p ∈ stack, e ∈ under S p.sKey.bits}

theorem value_inj (hcf : h.CollisionFree) {value value' : Bytes}
    (hsame : h.value value = h.value value') :
    value = value' := by
  have hleaf : h.merkle.leaf 0 value = h.merkle.leaf 0 value' := congrArg (h.leaf 0) hsame
  exact (hcf.merkle.leaf_inj hleaf).2

/-- Slots with the same hash hold the same leaves. -/
theorem SlotHolds.eq_of_hash (hcf : h.CollisionFree) {depth depth' : Nat} {part part' : Set Entry}
    {c c' : Child δ} (hslot : SlotHolds h depth part (some c))
    (hslot' : SlotHolds h depth' part' (some c'))
    (hhash : c.hash = c'.hash) : part = part' := by
  obtain ⟨-, -, t, hbuilds, ht⟩ := hslot
  obtain ⟨-, -, t', hbuilds', ht'⟩ := hslot'
  have htree : t = t' := MerkleTree.hash_injective hcf.merkle (ht.symm.trans (hhash.trans ht'))
  rw [← hbuilds.entries_eq, ← hbuilds'.entries_eq, htree]

/-- What the target has at a place with a child: its tree. -/
theorem targetHas_child (htarget : ∀ node, tNode = some node → TargetHas h target T tKey node)
    {t : Child δ} (hmatch : targetChild tNode n = some t) :
    ∃ depth part, SlotHolds h depth part (some t) ∧ part ⊆ T ∧
      ∃ node, TargetHas h target T (tKey.genChildNodeKey t.version n) node := by
  match tNode with
  | some (.internal int) =>
    obtain ⟨level, part, hs, hsub⟩ := htarget _ rfl
    have hslot := hs.holds.2 n
    rw [show int.children n = some t from hmatch] at hslot
    have hpart : nibblePart part level n ⊆ T := fun e he => hsub he.1
    obtain ⟨node, hbelow, -⟩ := hs.child hmatch
    exact ⟨_, _, hslot, hpart, node, _, _, hbelow, hpart⟩
  | some .null | some (.leaf _) | none => cases hmatch

/-- A child is skipped where the target has its leaves. -/
theorem subset_of_skip [DecidableEq δ] (hcf : h.CollisionFree)
    (htarget : ∀ node, tNode = some node → TargetHas h target T tKey node)
    {c : Child δ} {depth : Nat} {part : Set Entry} (hslot : SlotHolds h depth part (some c))
    (hskip : ((targetChild tNode n).any fun t => t.hash = c.hash) = true) : part ⊆ T := by
  cases hmatch : targetChild tNode n with
  | none =>
    rw [hmatch] at hskip
    cases hskip
  | some =>
    rw [hmatch, Option.any_some, decide_eq_true_eq] at hskip
    obtain ⟨_, _, hslot', hsub, -⟩ := targetHas_child htarget hmatch
    rw [hslot.eq_of_hash hcf hslot' hskip.symm]
    exact hsub

/-- The source has the trees of an inner node's children. -/
theorem SourceHas.child {source : BatchTreeReader δ}
    (hs : SourceHas h source S key (.internal int)) {c : Child δ} (hc : int.children n = some c) :
    ∃ node, SourceHas h source S (key.genChildNodeKey c.version n) node ∧ c.hash = nodeHash h node := by
  obtain ⟨node, hbelow, hhash, -⟩ := Stored.child hs hc
  refine ⟨node, ?_, hhash⟩
  rw [← under_child key c.version n] at hbelow
  rw [SourceHas, NodeKey.genChildNodeKey, length_append]
  exact hbelow

/-- A stored leaf is alone, and its value is found at the version of its key. -/
theorem Stored.leaf_value (hs : Stored h reader key level S (.leaf leaf)) :
    ∃ value, leaf.valueHash = h.value value ∧
      reader.getValueOption key.version leaf.keyHash = .ok (some value) ∧ S = {(leaf.keyHash, value)} := by
  cases hs with
  | leaf read value => exact ⟨_, rfl, value, rfl⟩

/-- A leaf is skipped where the target has it. -/
theorem mem_of_sameLeaf [DecidableEq δ] (hcf : h.CollisionFree)
    (htarget : ∀ node, tNode = some node → TargetHas h target T tKey node) {value : Bytes}
    (hsame : sameLeaf tNode leaf = true) (hvalue : leaf.valueHash = h.value value) :
    (leaf.keyHash, value) ∈ T := by
  match tNode with
  | some (.leaf leaf') =>
    obtain rfl : leaf' = leaf := eq_of_beq hsame
    obtain ⟨_, _, hs, hsub⟩ := htarget _ rfl
    obtain ⟨_, hvalue', -, rfl⟩ := hs.leaf_value
    rw [value_inj hcf (hvalue.symm.trans hvalue')]
    exact hsub rfl
  | some .null | some (.internal _) | none => cases hsame

end Trees

section Spec

variable {h : Hashes δ} {S T : Set Entry} {key : NodeKey} {bits : List Bool} [DecidableEq δ]
  {source target : BatchTreeReader δ} {reader : TreeReader δ} {vS level : Nat} {n : Fin 16}
  {int : InternalNode δ} {leaf : LeafNode δ} {pair : WalkPair δ} {st : RoundState δ}
  {stack : List (WalkPair δ)} {out : List Entry} {anchor : Option (SubtreeSyncAnchor δ)}
  {sKey : NodeKey} {t : Option (NodeKey × Node δ)} {bulk : Bool} {root : δ} {vT : Nat}

/-- A listing of leaves, where one is asked for, reconstructs their tree's hash. -/
theorem listedSubtree_holds (hlists : Lists source vS S) (hwidth : bits.length ≤ 256) {c : δ} {p : Prop}
    [Decidable p]
    (hempty : p → under S bits = ∅ → c = if bits.length % 4 = 0 then h.zero else h.placeholder)
    (hsome : (under S bits).Nonempty → ∃ t, Builds BitVec.getMsbD bits.length (under S bits) t ∧
      c = t.hash h.merkle) :
    ∃ answer, (if p then listedSubtree h source vS bits c else .ok none) = .ok answer ∧
      ∀ leaves ∈ answer, listed leaves = under S bits := by
  by_cases hp : p
  swap
  · exact ⟨none, if_neg hp, fun _ hleaves => nomatch hleaves⟩
  rw [if_pos hp]
  rcases hlists bits with hnone | ⟨leaves, hanswer, hsorted, hset⟩
  · refine ⟨none, ?_, fun _ hleaves => nomatch hleaves⟩
    simp only [listedSubtree, hnone, bind, Except.bind]
  have hkeys : ∀ e ∈ leaves, Begins e.1.getMsbD bits := by
    intro e he
    have hmem : e ∈ under S bits := hset ▸ he
    exact hmem.2
  obtain ⟨c', hroot, hnil, hcons⟩ := listedSubtreeRoot_spec (h := h) hwidth hsorted hkeys
  have hc : c' = c := by
    rcases eq_or_ne leaves [] with rfl | hne
    · rw [hnil rfl]
      refine (hempty hp ?_).symm
      rw [← hset]
      exact eq_empty_iff_forall_notMem.mpr fun e he => not_mem_nil he
    · obtain ⟨e, he⟩ := exists_mem_of_ne_nil leaves hne
      obtain ⟨_, hbuilds, rfl⟩ := hcons hne
      obtain ⟨_, hbuilds', rfl⟩ := hsome ⟨e, hset ▸ he⟩
      rw [hset] at hbuilds
      rw [hbuilds.unique hbuilds']
  refine ⟨some leaves, ?_, ?_⟩
  · simp only [listedSubtree, hanswer, hroot, bind, Except.bind, ensure_of hc]
    rfl
  · rintro _ ⟨⟩
    exact hset

theorem pairUp_holds {children : List (ChildRead δ)} {sNodes tNodes : List (Option (Node δ))}
    (hsource : Forall₂ (fun c s => ∃ node, s = some node ∧ SourceHas h source S c.sKey node ∧
      c.hash = nodeHash h node) children sNodes)
    (htarget : Forall₂ (fun c t => ∃ node, t = some node ∧ TargetHas h target T c.tKey node)
      (children.filter tPresent) tNodes) :
    ∃ pairs, pairUp h (children.zip sNodes) tNodes = .ok pairs ∧
      ∀ p ∈ pairs, PairHolds h source target S T p := by
  induction hsource generalizing tNodes with
  | nil => exact ⟨[], rfl, fun p hp => absurd hp not_mem_nil⟩
  | @cons c s children sNodes hc hrest ih =>
    obtain ⟨node, rfl, hnode, hhash⟩ := hc
    -- the target's node is next if its parent has a child here
    have hnext : ∃ tNode tNodes', (if c.tPresent = true then (tNodes.head?.join, tNodes.tail)
          else (none, tNodes)) = (tNode, tNodes') ∧
        (∀ node, tNode = some node → TargetHas h target T c.tKey node) ∧
        Forall₂ (fun c t => ∃ node, t = some node ∧ TargetHas h target T c.tKey node)
          (children.filter tPresent) tNodes' := by
      by_cases hpresent : c.tPresent = true
      · rw [filter_cons_of_pos hpresent] at htarget
        obtain ⟨_, tNodes', ⟨tNode, rfl, _⟩, hrest', rfl⟩ := forall₂_cons_left_iff.mp htarget
        refine ⟨some tNode, tNodes', by rw [if_pos hpresent]; rfl, fun node hsome => ?_, hrest'⟩
        rwa [← Option.some.inj hsome]
      · rw [filter_cons_of_neg hpresent] at htarget
        exact ⟨none, tNodes, by rw [if_neg hpresent], (fun node hsome => nomatch hsome), htarget⟩
    obtain ⟨tNode, _, hsplit, htNode, htarget'⟩ := hnext
    obtain ⟨pairs, hpairs, hall⟩ := ih htarget'
    refine ⟨⟨c.sKey, node, c.tKey, tNode⟩ :: pairs, ?_, fun p hp => ?_⟩
    · simp only [zip_cons_cons, pairUp, okOr, bind, Except.bind,
        ensure_of hhash.symm, hsplit, hpairs]
      rfl
    · rcases mem_cons.mp hp with rfl | hp
      · exact ⟨hnode, htNode⟩
      · exact hall p hp

theorem fetchChildren_holds (hsource : Answers source) (htarget : Answers target)
    {children : List (ChildRead δ)} (hchildren : ∀ c ∈ children, ReadHolds h source target S T c) :
    ∃ pairs, fetchChildren h source target children = .ok pairs ∧
      (∀ p ∈ pairs, PairHolds h source target S T p) ∧
      ∀ c ∈ children, under S c.sKey.bits ⊆ below S pairs := by
  obtain ⟨_, hsNodes, hsHolds⟩ := @mapM_map_exists _ _ (ChildRead δ) _ source.getNodeOption
    sKey (fun c s => ∃ node, s = some node ∧ SourceHas h source S c.sKey node ∧
      c.hash = nodeHash h node) children fun c hc => by
        obtain ⟨⟨node, hnode, hhash⟩, -⟩ := hchildren c hc
        exact ⟨some node, hnode.read_eq, node, rfl, hnode, hhash⟩
  obtain ⟨tNodes, htNodes, htHolds⟩ := @mapM_map_exists _ _ (ChildRead δ) _ target.getNodeOption
    tKey (fun c t => ∃ node, t = some node ∧ TargetHas h target T c.tKey node)
    (children.filter tPresent) fun c hc => by
        obtain ⟨hmem, hpresent⟩ := mem_filter.mp hc
        obtain ⟨node, level, part, hs, hsub⟩ := (hchildren c hmem).2 hpresent
        exact ⟨some node, hs.read_eq, node, rfl, level, part, hs, hsub⟩
  obtain ⟨pairs, hpairs, hall⟩ := pairUp_holds hsHolds htHolds
  have hfetch : fetchChildren h source target children = .ok pairs := by
    have htLength : tNodes.length = ((children.filter tPresent).map tKey).length := by
      rw [length_map, htHolds.length_eq]
    simp only [fetchChildren, hsource.nodes, htarget.nodes, hsNodes, htNodes, bind, Except.bind,
      ensure_of hsHolds.length_eq.symm, ensure_of htLength, hpairs]
  refine ⟨pairs, hfetch, hall, fun c hc e he => ?_⟩
  have hkey : c.sKey ∈ pairs.map WalkPair.sKey := by
    rw [fetchChildren_keys hfetch]
    exact mem_map_of_mem hc
  obtain ⟨p, hp, hsame⟩ := mem_map.mp hkey
  exact ⟨p, hp, by rwa [hsame]⟩

theorem readLeaves_holds (hcf : h.CollisionFree) (hsource : Answers source)
    {leaves : List (Nat × LeafNode δ)} (hleaves : ∀ l ∈ leaves, LeafHolds h source l) :
    ∃ values, readLeaves h source leaves = .ok values ∧
      ∀ l ∈ leaves, ∀ e : Entry, l.2 = ⟨e.1, h.value e.2⟩ → e ∈ values := by
  obtain ⟨found, hfound, hholds⟩ := @mapM_map_exists _ _ (Nat × LeafNode δ) _
    (fun r => source.getValueOption r.1 r.2) (fun l : Nat × LeafNode δ => (l.1, l.2.keyHash))
    (fun l v => ∃ value, v = some value ∧ l.2.valueHash = h.value value) leaves fun l hl => by
      obtain ⟨value, hvalue, hread⟩ := hleaves l hl
      exact ⟨some value, hread, value, rfl, hvalue⟩
  obtain ⟨values, hvalues, hresult⟩ := @mapM_map_exists _ _ ((Nat × LeafNode δ) × Option Bytes) _
    (fun l : (Nat × LeafNode δ) × Option Bytes => do
      let value ← okOr l.2 "sync: source is missing a leaf value"
      checkedValue h l.1.2 value) id
    (fun l e => e.1 = l.1.2.keyHash ∧ h.value e.2 = l.1.2.valueHash) (leaves.zip found) fun l hl => by
      obtain ⟨value, hsome, hvalue⟩ := forall₂_iff_zip.mp hholds |>.2 hl
      refine ⟨(l.1.2.keyHash, value), ?_, rfl, hvalue.symm⟩
      have hleaf : (⟨l.1.2.keyHash, h.value value⟩ : LeafNode δ) = l.1.2 := by rw [← hvalue]
      simp only [id, hsome, okOr, checkedValue, bind, Except.bind, ensure_of hleaf]
      rfl
  rw [map_id] at hvalues
  refine ⟨values, ?_, fun l hl e he => ?_⟩
  · simp only [readLeaves, hsource.values, hfound, bind, Except.bind,
      ensure_of hholds.length_eq.symm]
    exact hvalues
  · obtain ⟨v, hmem⟩ : ∃ v, (l, v) ∈ leaves.zip found := by
      have hfst : (leaves.zip found).map Prod.fst = leaves := map_fst_zip hholds.length_eq.le
      rw [← hfst] at hl
      obtain ⟨⟨_, v⟩, hmem, rfl⟩ := mem_map.mp hl
      exact ⟨v, hmem⟩
    obtain ⟨e', he', hkey, hvalue⟩ := exists_right_of_forall₂ hresult hmem
    have hsame : e' = e := by
      rw [he] at hkey hvalue
      exact Prod.ext hkey (value_inj hcf hvalue)
    exact hsame ▸ he'

/-! ## Descents -/

open Except

/-- A descent to an inner node went along the whole nibbles of the path. -/
theorem descendFrom_bits {rest : List Bool} {node : Node δ} {key' : NodeKey}
    (hdescend : descendFrom h reader rest key node = .ok (some (key', .internal int))) :
    key'.bits = wholeBits (key.bits ++ rest) := by
  induction rest, key, node using descendFrom.induct with
  | case1 key b0 b1 b2 b3 rest int hnone =>
    simp only [descendFrom, hnone] at hdescend
    cases hdescend
  | case2 key b0 b1 b2 b3 rest int child hchild key1 ih =>
    simp only [descendFrom, hchild, bind_ok] at hdescend
    obtain ⟨node, -, _, -, hdescend⟩ := hdescend
    have hbits := ih node hdescend
    rw [NodeKey.bits_child, nibbleBits_nibble4, append_assoc] at hbits
    exact hbits
  | case3 key b0 b1 b2 b3 rest node hother =>
    cases node with
    | internal int' => exact absurd rfl (hother int')
    | null | leaf => cases hdescend
  | case4 rest key node hmore =>
    rcases four_or_short rest with ⟨b0, b1, b2, b3, more, rfl⟩ | hshort
    · exact absurd rfl (hmore b0 b1 b2 b3 more)
    rw [descendFrom_short hshort] at hdescend
    obtain ⟨rfl, -⟩ := Prod.mk.inj (Option.some.inj (ok.inj hdescend))
    have hcut : 4 * ((key.bits ++ rest).length / 4) = key.bits.length := by
      rw [length_append, key.length_bits]
      omega
    rw [wholeBits, hcut, take_left]

/-- A root that the source's tree has. -/
def Fits (h : Hashes δ) (bits : List Bool) (S : Set Entry) : Option (SubtreeSyncAnchor δ) → Prop
  | none => True
  | some (.appRoot root) => IsCommitment h [] S root
  | some (.subtreeRoot root) => IsCommitment h bits S root

theorem checkSubtree_holds (hfits : Fits h bits S anchor) (hroot : IsCommitment h bits S root) :
    checkSubtree anchor root = .ok () := by
  rw [checkSubtree_ok]
  rintro expected rfl
  exact hroot.unique hfits

/-- The descent of the source, from the root that is pinned. -/
theorem descend_source (hS : Committed h source.toTreeReader vS S) (hfits : Fits h bits S anchor) :
    ∃ reached, descendNibbles h source.toTreeReader vS bits (pinnedAppRoot anchor) = .ok reached ∧
      Reaches h source.toTreeReader bits S reached ∧ (bits = [] → ∃ node,
        reached = some (.root vS, node) ∧ SourceHas h source S (.root vS) node) ∧
      ∀ key int, reached = some (key, .internal int) → key.bits = wholeBits bits := by
  obtain ⟨node, hs⟩ := hS
  have hs' : Stored h source.toTreeReader (.root vS) 0 (under S []) node := by rwa [under_nil]
  obtain ⟨reached, hdescend, hreaches⟩ :=
    @descendFrom_reaches _ h source.toTreeReader _ 0 S node bits [] bits _ hs' rfl rfl
  have hpinned : ∀ root ∈ pinnedAppRoot anchor, nodeHash h node = root := by
    intro root hroot
    match anchor with
    | some (.appRoot root') =>
      obtain rfl : root' = root := Option.some.inj hroot
      exact hs.isCommitment_root.unique hfits
    | none | some (.subtreeRoot _) => cases hroot
  refine ⟨reached, ?_, hreaches, ?_, ?_⟩
  · simp only [descendNibbles, hs.read_eq, bind, Except.bind]
    rw [ensure_of hpinned]
    exact hdescend
  · rintro rfl
    exact ⟨node, (Except.ok.inj hdescend).symm, hs'⟩
  · rintro key int rfl
    exact descendFrom_bits hdescend

/-- The target has the tree of some of its leaves where its descent ended. -/
def TargetAt (h : Hashes δ) (target : BatchTreeReader δ) (T : Set Entry) (sKey : NodeKey)
    (t : Option (NodeKey × Node δ)) : Prop :=
  ∀ node, t.map Prod.snd = some node → TargetHas h target T ((t.map Prod.fst).getD sKey) node

/-- The descent of the target, which may have no tree yet. -/
theorem descend_target (hT : Based h target.toTreeReader vT T) :
    ∃ t, descendNibbles h target.toTreeReader vT bits none = .ok t ∧ TargetAt h target T sKey t := by
  rcases hT with ⟨node, hs⟩ | ⟨-, hnone⟩
  · have hs' : Stored h target.toTreeReader (.root vT) 0 (under T []) node := by rwa [under_nil]
    obtain ⟨t, hdescend, hreaches⟩ := descendFrom_reaches hs' rfl rfl
    refine ⟨t, ?_, fun node hnode => ?_⟩
    · simp only [descendNibbles, hs.read_eq, bind]
      exact hdescend
    · rcases t with _ | ⟨tKey, tNode⟩
      · cases hnode
      · obtain rfl : tNode = node := Option.some.inj hnode
        obtain ⟨done, level, -, -, hstored, -⟩ := hreaches
        exact ⟨level, under T done, hstored, fun e he => he.1⟩
  · refine ⟨none, ?_, fun node hnode => by cases hnode⟩
    simp only [descendNibbles, hnone, bind]
    rfl

/-- Where the subtree is listed in bulk, the listing is the leaves under the prefix. -/
theorem bulk_holds (hlists : Lists source vS S) (hwidth : bits.length ≤ 256)
    (hroot : IsCommitment h bits S root)
    (hbulk : bulk = true → (under S bits).Nonempty ∨ Crowded S bits) :
    ∃ answer, (if bulk = true then listedSubtree h source vS bits root else .ok none) = .ok answer ∧
      ∀ leaves ∈ answer, listed leaves = under S bits := by
  refine listedSubtree_holds hlists hwidth (fun htrue hempty => ?_) hroot.leaves
  rcases hbulk htrue with hsome | hcrowded
  · exact absurd hempty hsome.ne_empty
  · rw [hroot.placeholder hempty (.inr hcrowded), if_neg hcrowded.1]

theorem diffLeaf_holds (hcf : h.CollisionFree) {done : List Bool}
    (hs : Stored h source.toTreeReader sKey level (under S done) (.leaf leaf))
    (hdone : done <+: bits) (htarget : TargetAt h target T sKey t)
    (hcheck : checkSubtree anchor (leafIfUnder h leaf bits) = .ok ()) :
    ∃ out, diffLeaf h source bits anchor sKey leaf t = .ok (out, leafIfUnder h leaf bits) ∧
      under S bits ⊆ T ∪ listed out := by
  obtain ⟨value, hvalue, hread, hset⟩ := hs.leaf_value
  have honly : ∀ e ∈ under S bits, e = (leaf.keyHash, value) := by
    intro e he
    have hmem : e ∈ under S done := ⟨he.1, he.2.of_isPrefix hdone⟩
    rwa [hset] at hmem
  simp only [diffLeaf, hcheck, bind, Except.bind]
  split
  · have hleaf : (⟨leaf.keyHash, h.value value⟩ : LeafNode δ) = leaf := by rw [← hvalue]
    refine ⟨[(leaf.keyHash, value)], ?_, fun e he => .inr ?_⟩
    · simp only [authenticatedValue, hread, okOr, checkedValue, bind, Except.bind, ensure_of hleaf]
      rfl
    · exact mem_singleton.mpr (honly e he)
  · rename_i hskip
    refine ⟨[], rfl, fun e he => .inl ?_⟩
    rw [honly e he]
    refine mem_of_sameLeaf hcf htarget ?_ hvalue
    by_contra hdiff
    refine hskip ⟨addrHasBitPrefix_iff.mpr ?_, Bool.eq_false_iff.mpr hdiff⟩
    rw [show leaf.keyHash = e.1 by rw [honly e he]]
    exact he.2

/-- The children that the last bits leave open: read, or the target has their leaves. -/
theorem openReads_holds (hcf : h.CollisionFree) (hs : SourceHas h source S sKey (.internal int))
    (hkey : sKey.bits = wholeBits bits) (hopen : bits.length % 4 ≠ 0)
    (ht : TargetAt h target T sKey t) :
    (∀ c ∈ openReads bits sKey int t, ReadHolds h source target S T c) ∧
      ∀ e ∈ under S bits, e ∈ T ∨ ∃ c ∈ openReads bits sKey int t, e ∈ under S c.sKey.bits := by
  constructor
  · intro c hc
    obtain ⟨⟨_, child⟩, hmem, hread⟩ := mem_filterMap.mp hc
    have hchild := (mem_rangeChildren.mp hmem).1
    dsimp only at hread
    split at hread
    · cases hread
    match t with
    | none =>
      obtain rfl := Option.some.inj hread
      exact ⟨hs.child hchild, fun hpresent => nomatch hpresent⟩
    | some (tKey, tNode) =>
      obtain rfl := Option.some.inj hread
      refine ⟨hs.child hchild, fun hpresent => ?_⟩
      obtain ⟨_, hmatch⟩ := Option.isSome_iff_exists.mp hpresent
      obtain ⟨-, -, -, -, hnode⟩ := targetHas_child ht hmatch
      rw [hmatch]
      exact hnode
  · intro e he
    have hlength := length_lastBits bits
    have hwhole : Begins e.1.getMsbD sKey.bits := hkey ▸ he.2.of_isPrefix (List.take_prefix _ _)
    have hmemKey : e ∈ under S sKey.bits := ⟨he.1, hwhole⟩
    have hrange := (@begins_open _ sKey.bits (lastBits bits) e.1 (by omega) (by omega) sKey.length_bits
      hwhole).mp (by rw [hkey, wholeBits_append_lastBits]; exact he.2)
    have hslot := (Stored.holds hs).2 (nibbleAt e.1 sKey.nibblePath.length)
    obtain ⟨c, hchild⟩ := exists_child (Stored.holds hs).2 hmemKey
    rw [hchild] at hslot
    by_cases hskip : ((targetChild (t.map Prod.snd) (nibbleAt e.1 sKey.nibblePath.length)).any
        fun t => t.hash = c.hash) = true
    · exact .inl (subset_of_skip hcf ht hslot hskip ⟨hmemKey, rfl⟩)
    right
    have hmem := mem_rangeChildren.mpr ⟨hchild, hrange⟩
    have hunder : e ∈ under S
        (sKey.genChildNodeKey c.version (nibbleAt e.1 sKey.nibblePath.length)).bits := by
      rw [under_child]
      exact ⟨hmemKey, rfl⟩
    match t with
    | none => exact ⟨_, mem_filterMap.mpr ⟨_, hmem, if_neg hskip⟩, hunder⟩
    | some (tKey, tNode) => exact ⟨_, mem_filterMap.mpr ⟨_, hmem, if_neg hskip⟩, hunder⟩

/-! ## The walk and the diff under a prefix -/

section Walk

variable (hcf : h.CollisionFree) (hsource : Answers source) (htarget : Answers target)
  (hlists : Lists source vS S)

include hcf hlists

/-- **One child**: skipped where the target has its leaves, else listed or read. -/
theorem expandChild_holds (hpair : PairHolds h source target S T pair)
    (hnode : pair.sNode = .internal int) {c : Fin 16 × Child δ} (hc : int.children c.1 = some c.2)
    (hst : RoundHolds h source target S T st) :
    ∃ st', expandChild h source vS pair st c = .ok st' ∧ RoundHolds h source target S T st' ∧
      pending h S st ⊆ pending h S st' ∧
      nibblePart (under S pair.sKey.bits) pair.sKey.nibblePath.length c.1 ⊆ T ∪ pending h S st' := by
  have hs := hpair.source
  rw [SourceHas, hnode] at hs
  have hlevel := hs.level_lt pair.sKey.length_bits
  have hslot := hs.holds.2 c.1
  rw [hc] at hslot
  have hchild := under_child (S := S) pair.sKey c.2.version c.1
  unfold expandChild
  dsimp only
  split
  · -- the target has a subtree with this hash
    rename_i hskip
    refine ⟨st, rfl, hst, subset_rfl, fun e he => .inl ?_⟩
    exact subset_of_skip hcf hpair.target hslot hskip he
  · simp only [ensure_of hlevel, bind]
    have hwidth : (pair.sKey.genChildNodeKey c.2.version c.1).bits.length ≤ 256 := by
      rw [NodeKey.length_bits, NodeKey.genChildNodeKey, length_append]
      simp only [length_cons, length_nil]
      omega
    obtain ⟨answer, hanswer, hset⟩ := @listedSubtree_holds _ h S
      (pair.sKey.genChildNodeKey c.2.version c.1).bits _ source vS hlists hwidth c.2.hash
      ((targetChild pair.tNode c.1).isNone = true ∧ listMinLeaves ≤ c.2.leafCount) _
      (fun _ hempty => absurd (hchild ▸ hempty) hslot.1.ne_empty)
      (fun _ => by
        obtain ⟨-, -, t, hbuilds, hhash⟩ := hslot
        refine ⟨t, ?_, hhash⟩
        rw [hchild, NodeKey.length_bits, NodeKey.genChildNodeKey, length_append]
        exact hbuilds)
    rw [hanswer]
    cases answer with
    | none =>
      refine ⟨_, rfl, ⟨hst.leaves, fun c' hc' => ?_⟩, ?_, ?_⟩
      · rcases mem_append.mp hc' with hc' | hc'
        · exact hst.children c' hc'
        · rw [mem_singleton.mp hc']
          refine ⟨SourceHas.child hs hc, fun hpresent => ?_⟩
          obtain ⟨_, hmatch⟩ := Option.isSome_iff_exists.mp hpresent
          obtain ⟨-, -, -, -, hnode⟩ := targetHas_child hpair.target hmatch
          rw [hmatch]
          exact hnode
      · rintro e (he | he | ⟨c', hc', he⟩)
        · exact .inl he
        · exact .inr (.inl he)
        · exact .inr (.inr ⟨c', mem_append_left _ hc', he⟩)
      · intro e he
        rw [← hchild] at he
        exact .inr (.inr (.inr ⟨_, mem_append_right _ (mem_singleton.mpr rfl), he⟩))
    | some leaves =>
      refine ⟨_, rfl, ⟨hst.leaves, hst.children⟩, ?_, ?_⟩
      · rintro e (he | he | he)
        · exact .inl (mem_append_left _ he)
        · exact .inr (.inl he)
        · exact .inr (.inr he)
      · intro e he
        rw [← hchild, ← hset leaves rfl] at he
        exact .inr (.inl (mem_append_right _ he))

/-- **One pair**: its leaves are pending or the target has them. -/
theorem expandPair_holds (hpair : PairHolds h source target S T pair)
    (hst : RoundHolds h source target S T st) :
    ∃ st', expandPair h source vS st pair = .ok st' ∧ RoundHolds h source target S T st' ∧
      pending h S st ⊆ pending h S st' ∧ under S pair.sKey.bits ⊆ T ∪ pending h S st' := by
  have hs := hpair.source
  unfold expandPair
  cases hnode : pair.sNode with
  | null =>
    rw [hnode] at hs
    have hempty : under S pair.sKey.bits = ∅ := hs.holds
    exact ⟨st, rfl, hst, subset_rfl, by rw [hempty]; exact empty_subset _⟩
  | leaf =>
    rw [hnode] at hs
    obtain ⟨value, hvalue, hread, hset⟩ := hs.leaf_value
    dsimp only
    split
    · rename_i hsame
      refine ⟨st, rfl, hst, subset_rfl, fun e he => .inl ?_⟩
      rw [hset, mem_singleton_iff] at he
      rw [he]
      exact mem_of_sameLeaf hcf hpair.target hsame hvalue
    · refine ⟨_, rfl, ⟨fun l hl => ?_, hst.children⟩, ?_, ?_⟩
      · rcases mem_append.mp hl with hl | hl
        · exact hst.leaves l hl
        · rw [mem_singleton.mp hl]
          exact ⟨value, hvalue, hread⟩
      · rintro e (he | ⟨l, hl, he⟩ | he)
        · exact .inl he
        · exact .inr (.inl ⟨l, mem_append_left _ hl, he⟩)
        · exact .inr (.inr he)
      · intro e he
        rw [hset, mem_singleton_iff] at he
        refine .inr (.inr (.inl ⟨_, mem_append_right _ (mem_singleton.mpr rfl), ?_⟩))
        rw [he, ← hvalue]
  | internal int =>
    rw [hnode] at hs
    obtain ⟨st', hstep, ⟨hround, hsub⟩, hdone⟩ := @foldlM_each _ _ _ (expandChild h source vS pair)
      (fun st' => RoundHolds h source target S T st' ∧ pending h S st ⊆ pending h S st')
      (fun c st' => nibblePart (under S pair.sKey.bits) pair.sKey.nibblePath.length c.1 ⊆
        T ∪ pending h S st') int.childrenSorted
      (fun c hc a ha => by
        obtain ⟨hround, hsub⟩ := ha
        obtain ⟨a', hstep, hround', hsub', hcovered⟩ :=
          expandChild_holds hcf hlists hpair hnode (mem_childrenSorted.mp hc) hround
        exact ⟨a', hstep, ⟨hround', hsub.trans hsub'⟩, hcovered,
          fun c' hpart => hpart.trans (union_subset_union_right T hsub')⟩) st ⟨hst, subset_rfl⟩
    refine ⟨st', hstep, hround, hsub, fun e he => ?_⟩
    obtain ⟨c, hchild⟩ := exists_child hs.holds.2 he
    exact hdone (_, c) (mem_childrenSorted.mpr hchild) ⟨he, rfl⟩

include hsource htarget

/-- **One round** loses no leaf. -/
theorem walkRound_holds (hstack : ∀ p ∈ stack, PairHolds h source target S T p) :
    ∃ stack' out', walkRound h source target vS stack out = .ok (stack', out') ∧
      (∀ p ∈ stack', PairHolds h source target S T p) ∧
      listed out ∪ below S stack ⊆ T ∪ listed out' ∪ below S stack' := by
  obtain ⟨st, hexpand, ⟨hround, hout⟩, hdone⟩ := @foldlM_each _ _ _ (expandPair h source vS)
    (fun st => RoundHolds h source target S T st ∧ listed out ⊆ pending h S st)
    (fun p st => under S p.sKey.bits ⊆ T ∪ pending h S st) (stack.drop (stack.length - walkChunk))
    (fun p hp a ⟨hround, hout⟩ => by
      obtain ⟨a', hstep, hround', hsub, hcovered⟩ :=
        expandPair_holds hcf hlists (hstack p (mem_of_mem_drop hp)) hround
      exact ⟨a', hstep, ⟨hround', hout.trans hsub⟩, hcovered,
        fun p' hpart => hpart.trans (union_subset_union_right T hsub)⟩) ⟨[], [], out⟩
    ⟨⟨fun l hl => absurd hl not_mem_nil, fun c hc => absurd hc not_mem_nil⟩, fun e he => .inl he⟩
  obtain ⟨pairs, hpairs, hpairsHold, hchildren⟩ := fetchChildren_holds hsource htarget hround.children
  obtain ⟨values, hvalues, hread⟩ := readLeaves_holds hcf hsource hround.leaves
  have hpending : pending h S st ⊆ T ∪ listed (st.out ++ values) ∪
      below S (stack.take (stack.length - walkChunk) ++ pairs) := by
    rintro e (he | ⟨l, hl, he⟩ | ⟨c, hc, he⟩)
    · exact .inl (.inr (mem_append_left _ he))
    · exact .inl (.inr (mem_append_right _ (hread l hl e he)))
    · obtain ⟨p, hp, hmem⟩ := hchildren c hc he
      exact .inr ⟨p, mem_append_right _ hp, hmem⟩
  refine ⟨stack.take (stack.length - walkChunk) ++ pairs, st.out ++ values, ?_, ?_, ?_⟩
  · simp only [walkRound, hexpand, hpairs, hvalues, bind, Except.bind]
    rfl
  · intro p hp
    rcases mem_append.mp hp with hp | hp
    · exact hstack p (mem_of_mem_take hp)
    · exact hpairsHold p hp
  · rintro e (he | ⟨p, hp, he⟩)
    · exact hpending (hout he)
    · rw [← take_append_drop (stack.length - walkChunk) stack] at hp
      rcases mem_append.mp hp with hp | hp
      · exact .inr ⟨p, mem_append_left _ hp, he⟩
      rcases hdone p hp he with hT | hpend
      · exact .inl (.inl hT)
      · exact hpending hpend

/-- **A whole walk** succeeds and loses no leaf. -/
theorem walkRounds_holds {fuel : Nat} (hfuel : walkFuel stack ≤ fuel)
    (hstack : ∀ p ∈ stack, PairHolds h source target S T p) :
    ∃ out', walkRounds h source target vS fuel stack out = .ok out' ∧
      listed out ∪ below S stack ⊆ T ∪ listed out' := by
  induction fuel generalizing stack out with
  | zero =>
    cases stack with
    | nil =>
      refine ⟨out, by rw [walkRounds], ?_⟩
      rintro e (he | ⟨p, hp, -⟩)
      · exact .inr he
      · exact absurd hp not_mem_nil
    | cons pair =>
      have hpos := keyWeight_pos pair.sKey
      simp only [walkFuel, map_cons, sum_cons] at hfuel
      omega
  | succ fuel ih =>
    cases stack with
    | nil =>
      refine ⟨out, by rw [walkRounds], ?_⟩
      rintro e (he | ⟨p, hp, -⟩)
      · exact .inr he
      · exact absurd hp not_mem_nil
    | cons pair stack =>
      obtain ⟨_, _, hround, hstack', hcovered⟩ :=
        @walkRound_holds _ h S T _ source target vS (pair :: stack) out hcf hsource htarget hlists hstack
      have hlt := walkRound_weight hround (cons_ne_nil _ _)
      obtain ⟨out', hrest, hcovered'⟩ := ih (by omega) hstack'
      refine ⟨out', ?_, fun e he => ?_⟩
      · simp only [walkRounds, hround, bind]
        exact hrest
      · rcases hcovered he with (hT | hlisted) | hbelow
        · exact .inl hT
        · exact hcovered' (.inl hlisted)
        · exact hcovered' (.inr hbelow)

theorem walk_holds (hstack : ∀ p ∈ stack, PairHolds h source target S T p) :
    ∃ out, walk h source target vS stack = .ok out ∧ below S stack ⊆ T ∪ listed out := by
  obtain ⟨out, hrounds, hcovered⟩ :=
    @walkRounds_holds _ h S T _ source target vS stack [] hcf hsource htarget hlists _ le_rfl hstack
  refine ⟨out.mergeSort fun a b => a.1 ≤ b.1, ?_, fun e he => ?_⟩
  · simp only [walk, hrounds, bind]
    rfl
  · rcases hcovered (.inr he) with hT | hlisted
    · exact .inl hT
    · exact .inr (mem_mergeSort.mpr hlisted)

theorem diffAligned_holds (hwidth : bits.length ≤ 256) {sNode : Node δ}
    (hs : SourceHas h source S sKey sNode) (hkey : sKey.bits = bits) (ht : TargetAt h target T sKey t)
    (hroot : IsCommitment h bits S (nodeHash h sNode)) (hfits : Fits h bits S anchor)
    (hbulk : bulk = true → (under S bits).Nonempty ∨ Crowded S bits) :
    ∃ out, diffAligned h source target vS bits anchor sKey sNode t bulk = .ok (out, nodeHash h sNode) ∧
      under S bits ⊆ T ∪ listed out := by
  simp only [diffAligned, checkSubtree_holds hfits hroot, bind]
  obtain ⟨answer, hanswer, hset⟩ := bulk_holds hlists hwidth hroot hbulk
  rw [hanswer]
  cases answer with
  | none =>
    obtain ⟨out, hwalk, hcovered⟩ := @walk_holds _ h S T _ source target vS
      [⟨sKey, sNode, (t.map Prod.fst).getD sKey, t.map Prod.snd⟩] hcf hsource htarget hlists
      fun p hp => by
        rw [mem_singleton.mp hp]
        exact ⟨hs, ht⟩
    refine ⟨out, ?_, fun e he => hcovered ⟨_, mem_singleton.mpr rfl, hkey ▸ he⟩⟩
    simp only [hwalk]
    rfl
  | some leaves => exact ⟨leaves, rfl, fun e he => .inr (hset leaves rfl ▸ he)⟩

theorem diffOpen_holds (hwidth : bits.length ≤ 256)
    (hs : SourceHas h source S sKey (.internal int)) (hkey : sKey.bits = wholeBits bits)
    (hopen : bits.length % 4 ≠ 0) (ht : TargetAt h target T sKey t)
    (hroot : IsCommitment h bits S (rangeRoot h bits int)) (hfits : Fits h bits S anchor) :
    ∃ out, diffOpen h source target vS bits anchor sKey int t bulk = .ok (out, rangeRoot h bits int) ∧
      under S bits ⊆ T ∪ listed out := by
  have hrange : rangeRoot h bits int =
      int.subtreeHash h (openStart (lastBits bits)) (openWidth (lastBits bits)) := by
    rw [rangeRoot, if_neg hopen]
  have hcrowded : Crowded S bits := by
    refine ⟨hopen, ?_⟩
    have hmany := (Stored.holds hs).1
    rwa [hkey] at hmany
  simp only [diffOpen, ← hrange, checkSubtree_holds hfits hroot, bind, Except.bind]
  obtain ⟨answer, hanswer, hset⟩ := bulk_holds hlists hwidth hroot fun _ => .inr hcrowded
  rw [hanswer]
  cases answer with
  | none =>
    obtain ⟨hreads, hcover⟩ := openReads_holds hcf hs hkey hopen ht
    obtain ⟨_, hpairs, hall, hbelow⟩ := fetchChildren_holds hsource htarget hreads
    obtain ⟨out, hwalk, hcovered⟩ := walk_holds hcf hsource htarget hlists hall
    refine ⟨out, ?_, fun e he => ?_⟩
    · simp only [hpairs, hwalk]
      rfl
    · rcases hcover e he with hT | ⟨c, hc, hmem⟩
      · exact .inl hT
      · exact hcovered (hbelow c hc hmem)
  | some leaves => exact ⟨leaves, rfl, fun e he => .inr (hset leaves rfl ▸ he)⟩

/-- **The diff is complete**: it succeeds with the source's subtree root, and a source leaf under
the prefix is returned or in the target. -/
theorem diff_complete (hS : Committed h source.toTreeReader vS S)
    (hT : Based h target.toTreeReader vT T) (hwidth : bits.length ≤ 256) (hfits : Fits h bits S anchor) :
    ∃ out root, diffLeavesUnderPrefix h source target vS bits anchor vT = .ok (out, root) ∧
      IsCommitment h bits S root ∧ under S bits ⊆ T ∪ listed out := by
  obtain ⟨reached, hdescend, hreaches, hnil, hkey⟩ := descend_source hS hfits
  have hroot : IsCommitment h bits S (reachedRoot h bits reached) := by
    refine isCommitment_of_reaches hreaches fun hbits => ?_
    obtain ⟨_, hsome, -⟩ := hnil hbits
    rw [hsome]
    exact Option.some_ne_none _
  simp only [diffLeavesUnderPrefix, ensure_of hwidth, hdescend, bind, Except.bind]
  rcases reached with _ | ⟨sKey, sNode⟩
  · have hempty : under S bits = ∅ := by
      rw [← under_under (List.take_prefix (4 * (bits.length / 4)) bits)]
      rw [show under S (bits.take (4 * (bits.length / 4))) = ∅ from hreaches]
      exact sep_empty _
    have hzero : IsCommitment h bits S h.zero := hroot
    refine ⟨[], h.zero, ?_, hzero, by rw [hempty]; exact empty_subset _⟩
    simp only [checkSubtree_holds hfits hzero]
    rfl
  · obtain ⟨t, htdescend, ht⟩ := @descend_target _ h T bits _ target sKey vT hT
    obtain ⟨done, level, hpre, hdone, hs, hinner⟩ := hreaches
    have hprebits : done <+: bits := hpre.trans (List.take_prefix _ _)
    simp only [htdescend]
    cases sNode with
    | leaf =>
      obtain ⟨out, hout, hcovered⟩ :=
        diffLeaf_holds hcf hs hprebits ht (checkSubtree_holds hfits hroot)
      exact ⟨out, _, hout, hroot, hcovered⟩
    | null =>
      have hempty : under S bits = ∅ := by
        rw [← under_under hprebits, show under S done = ∅ from hs.holds]
        exact sep_empty _
      dsimp only
      split
      · rename_i hbits
        obtain ⟨_, hsome, hnode⟩ := hnil hbits
        obtain ⟨rfl, rfl⟩ := Prod.mk.inj (Option.some.inj hsome)
        rw [reachedRoot, if_pos hbits] at hroot
        obtain ⟨out, hout, hcovered⟩ := @diffAligned_holds _ h S T bits _ source target vS anchor _ t false
          hcf hsource htarget hlists hwidth _ hnode (by rw [hbits]; rfl) ht hroot hfits
          fun hfalse => by cases hfalse
        exact ⟨out, _, hout, hroot, hcovered⟩
      · rename_i hbits
        rw [reachedRoot, if_neg hbits] at hroot
        refine ⟨[], h.zero, ?_, hroot, by rw [hempty]; exact empty_subset _⟩
        simp only [checkSubtree_holds hfits hroot]
        rfl
    | internal int =>
      have hwhole := hinner ⟨int, rfl⟩
      have hbits := hkey sKey int rfl
      have hlevel : level = sKey.nibblePath.length := by
        have hlength := sKey.length_bits
        rw [hbits, ← hwhole, hdone] at hlength
        omega
      have hsource' : SourceHas h source S sKey (.internal int) := by
        rw [SourceHas, ← hlevel, hbits, ← hwhole]
        exact hs
      dsimp only
      split
      · rename_i haligned
        have hlast : wholeBits bits = bits := by
          have happend := wholeBits_append_lastBits bits
          rwa [eq_nil_of_length_eq_zero ((length_lastBits bits).trans haligned),
            append_nil] at happend
        rw [reachedRoot, rangeRoot, if_pos haligned] at hroot
        have hmany := hs.holds.1
        rw [hwhole, hlast] at hmany
        obtain ⟨out, hout, hcovered⟩ := diffAligned_holds hcf hsource htarget hlists hwidth hsource'
          (hbits.trans hlast) ht hroot hfits fun _ => .inl hmany.nonempty
        exact ⟨out, _, hout, hroot, hcovered⟩
      · rename_i hopen
        obtain ⟨out, hout, hcovered⟩ := diffOpen_holds hcf hsource htarget hlists hwidth hsource'
          hbits hopen ht hroot hfits
        exact ⟨out, _, hout, hroot, hcovered⟩

end Walk

end Spec

end Jmt

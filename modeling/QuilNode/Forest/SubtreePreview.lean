import QuilNode.Forest.SyncDescent

/-!
# Previewed subtree roots (`preview_subtree_root`)

Before updates are written, the root they lead to is computed over the stored nodes.  A leaf in
the way of others is pushed down, and a node whose only child is a leaf becomes that leaf.  A
rebuilt node holds the updated leaves (`previewNode_spec`), whatever the shape of the stored tree.
-/

namespace Jmt

open Forest PrefixCode Results List
open NibbleTree (nibble4 begins_nibble)

variable {δ : Type}

/-- A value for a key, or its deletion. -/
abbrev Update := Bytes32 × Option Bytes

/-- The loop over the sixteen children of a node that is rebuilt. -/
structure PreviewState (δ : Type) where
  children : Fin 16 → Option (Child δ)
  leaves : Fin 16 → Option (LeafNode δ)
  rest : List Update
  subtree : Option δ

section Code

variable (h : Hashes δ) (reader : TreeReader δ)

/-- The child at a nibble before the updates, with the leaf where a leaf was pushed down. -/
def oldChild (key : NodeKey) (node : Node δ) (depth : Nat) (leaves : Fin 16 → Option (LeafNode δ))
    (n : Fin 16) : Option (Child δ) × (Fin 16 → Option (LeafNode δ)) :=
  match node with
  | .internal int => (int.children n, leaves)
  | .leaf leaf =>
    if nibbleAt leaf.keyHash depth = n then
      (some ⟨leaf.hash h, key.version, .leaf⟩, Function.update leaves n (some leaf))
    else (none, leaves)
  | .null => (none, leaves)

/-- The node of a child that has updates. -/
def childNode (old : Option (Child δ)) (leaf : Option (LeafNode δ)) (childKey : NodeKey) :
    Except String (Node δ) :=
  match old, leaf with
  | _, some leaf => .ok (.leaf leaf)
  | some _, none => reader.getNode childKey
  | none, none => .ok .null

/-- One round of the loop; `recur` rebuilds a child. -/
def previewChild (recur : NodeKey → Node δ → List Update → Option δ → Except String (Node δ × Option δ))
    (key : NodeKey) (node : Node δ) (depth : Nat) (st : PreviewState δ) (n : Fin 16) :
    Except String (PreviewState δ) :=
  let changed := st.rest.takeWhile fun u => nibbleAt u.1 depth = n
  let rest := st.rest.dropWhile fun u => nibbleAt u.1 depth = n
  let (old, leaves) := oldChild h key node depth st.leaves n
  if changed = [] then
    let children := match old with
      | some child => Function.update st.children n (some child)
      | none => st.children
    .ok ⟨children, leaves, rest, st.subtree⟩
  else do
    let childKey := key.genChildNodeKey ((old.map Child.version).getD key.version) n
    let below ← childNode reader old (leaves n) childKey
    let (child, subtree) ← recur childKey below changed st.subtree
    match child with
    | .null => .ok ⟨st.children, leaves, rest, subtree⟩
    | .leaf leaf =>
      .ok ⟨Function.update st.children n (some ⟨leaf.hash h, childKey.version, .leaf⟩),
        Function.update leaves n (some leaf), rest, subtree⟩
    | .internal int =>
      .ok ⟨Function.update st.children n (some ⟨int.hash h, childKey.version, int.nodeType⟩),
        leaves, rest, subtree⟩

/-- The node over the rebuilt children: an only leaf takes its parent's place. -/
def previewResult (key : NodeKey) (st : PreviewState δ) : Except String (Node δ) :=
  let node := InternalNode.new st.children
  match node.childrenSorted with
  | [] => .ok .null
  | (n, child) :: rest =>
    if rest.isEmpty && child.isLeaf then
      match st.leaves n with
      | some leaf => .ok (.leaf leaf)
      | none => do
        let leaf ← reader.getNode (key.genChildNodeKey child.version n)
        ensure (leaf.isLeaf = true) "sync preview expected a leaf child"
        return leaf
    else .ok (.internal node)

/-- Note the subtree's root on the way to it. -/
def markSubtree (bits : List Bool) (depth : Nat) (result : Node δ) (subtree : Option δ) : Option δ :=
  if depth ≤ bits.length / 4 then
    match result with
    | .null => some (if bits = [] then h.placeholder else h.zero)
    | .leaf leaf => some (leafIfUnder h leaf bits)
    | .internal node => if depth = bits.length / 4 then some (rangeRoot h bits node) else subtree
  else subtree

/-- A stored leaf whose key is updated gives way. -/
def clearLeaf (node : Node δ) (updates : List Update) : Node δ :=
  match node with
  | .leaf leaf => if updates.any fun u => u.1 == leaf.keyHash then .null else node
  | _ => node

/-- Rebuild a node from its children. -/
def rebuildNode (recur : NodeKey → Node δ → List Update → Option δ → Except String (Node δ × Option δ))
    (key : NodeKey) (node : Node δ) (updates : List Update) (depth : Nat) (subtree : Option δ) :
    Except String (Node δ × Option δ) := do
  ensure (depth < 64) "sync preview exceeds key depth"
  let st ← (List.finRange 16).foldlM (previewChild h reader recur key node depth)
    ⟨fun _ => none, fun _ => none, updates, subtree⟩
  let result ← previewResult reader key st
  return (result, st.subtree)

/-- `preview_node`; the depth of a key leaves `fuel` levels. -/
def previewNode (bits : List Bool) :
    Nat → NodeKey → Node δ → List Update → Nat → Option δ → Except String (Node δ × Option δ)
  | 0, _, _, _, _, _ => .error "sync preview exceeds key depth"
  | fuel + 1, key, node, updates, depth, subtree => do
    let node := clearLeaf node updates
    let (result, subtree) ← (match node, updates with
      | node, [] => .ok (node, subtree)
      | .null, [(k, some value)] => .ok (.leaf ⟨k, h.value value⟩, subtree)
      | .null, [(_, none)] => .ok (.null, subtree)
      | node, updates =>
        rebuildNode h reader (fun childKey child changed subtree =>
          previewNode bits fuel childKey child changed (depth + 1) subtree) key node updates depth
          subtree : Except String (Node δ × Option δ))
    return (result, markSubtree h bits depth result subtree)

/-- The version whose tree is updated to `version`, the one before genesis for the first. -/
def baseVersion (version : Nat) : Nat := if version = 0 then 2 ^ 64 - 1 else version - 1

variable [DecidableEq δ]

def previewSubtreeRoot (version : Nat) (updates : List Update) (bits : List Bool) :
    Except String δ := do
  ensure (bits.length ≤ 256) "subtree prefix exceeds key width"
  ensure (updates.Pairwise fun a b => a.1 < b.1)
    "sync preview updates must be in strictly increasing key order"
  ensure (∀ u ∈ updates, addrHasBitPrefix u.1 bits = true)
    "sync preview update lies outside the subtree"
  let base := baseVersion version
  let node := (← reader.getNodeOption (.root base)).getD .null
  if updates = [] then
    match node with
    | .null => .ok (if bits = [] then h.placeholder else h.zero)
    | _ => subtreeRoot h reader base bits
  else do
    let (_, root) ← previewNode h reader bits 65 (.root base) node updates 0 none
    okOr root "sync preview did not reach its subtree"

end Code

/-! ## The order of updates -/

theorem getMsbD_eq (k : Bytes32) {i : Nat} (hi : i < 256) :
    k.getMsbD i = k.toNat.testBit (255 - i) := by
  rw [BitVec.getMsbD_eq_getLsbD, decide_eq_true hi, Bool.true_and, BitVec.testBit_toNat]

variable {depth : Nat}

/-- A nibble as a digit of the key. -/
theorem nibbleAt_val (k : Bytes32) (hdepth : depth < 64) :
    (nibbleAt k depth).val = k.toNat / 2 ^ (252 - 4 * depth) % 16 := by
  have hbit : ∀ j < 4, (k.getMsbD (4 * depth + j)).toNat =
      k.toNat / 2 ^ (252 - 4 * depth) / 2 ^ (3 - j) % 2 := by
    intro j hj
    have hindex : 255 - (4 * depth + j) = 252 - 4 * depth + (3 - j) := by omega
    rw [getMsbD_eq k (by omega), Nat.toNat_testBit, hindex, Nat.pow_add, Nat.div_div_eq_div_mul]
  have h0 := hbit 0 (by decide)
  have h1 := hbit 1 (by decide)
  have h2 := hbit 2 (by decide)
  have h3 := hbit 3 (by decide)
  simp only [nibbleAt, NibbleTree.nibbleAt, NibbleTree.nibble4]
  rw [Nat.add_zero] at h0
  omega

variable {done : List Bool}

/-- Keys with the same first nibbles have the same first digits. -/
theorem div_eq_of_begins {a b : Bytes32} (hdepth : depth ≤ 64)
    (hdone : done.length = 4 * depth) (ha : Begins a.getMsbD done) (hb : Begins b.getMsbD done) :
    a.toNat / 2 ^ (256 - 4 * depth) = b.toNat / 2 ^ (256 - 4 * depth) := by
  apply Nat.eq_of_testBit_eq
  intro i
  rw [Nat.testBit_div_two_pow, Nat.testBit_div_two_pow]
  by_cases hi : i + (256 - 4 * depth) < 256
  · have hindex : 255 - (i + (256 - 4 * depth)) < done.length := by omega
    have hbits := (ha _ hindex).symm.trans (hb _ hindex)
    rw [getMsbD_eq a (by omega), getMsbD_eq b (by omega)] at hbits
    have hback : 255 - (255 - (i + (256 - 4 * depth))) = i + (256 - 4 * depth) := by omega
    rwa [hback] at hbits
  · have hbig : 2 ^ 256 ≤ 2 ^ (i + (256 - 4 * depth)) := Nat.pow_le_pow_right (by decide) (by omega)
    rw [Nat.testBit_lt_two_pow (a.isLt.trans_le hbig), Nat.testBit_lt_two_pow (b.isLt.trans_le hbig)]

/-- Keys in order have their next nibbles in order. -/
theorem nibbleAt_mono {a b : Bytes32} (hdepth : depth < 64)
    (hdone : done.length = 4 * depth) (ha : Begins a.getMsbD done) (hb : Begins b.getMsbD done)
    (hle : a < b) : (nibbleAt a depth).val ≤ (nibbleAt b depth).val := by
  have hsame := div_eq_of_begins hdepth.le hdone ha hb
  have hexponent : 256 - 4 * depth = 252 - 4 * depth + 4 := by omega
  rw [hexponent, Nat.pow_add, ← Nat.div_div_eq_div_mul, ← Nat.div_div_eq_div_mul] at hsame
  have hdiv : a.toNat / 2 ^ (252 - 4 * depth) ≤ b.toNat / 2 ^ (252 - 4 * depth) :=
    Nat.div_le_div_right (BitVec.lt_def.mp hle).le
  rw [nibbleAt_val a hdepth, nibbleAt_val b hdepth]
  omega

/-- Keys with the same 64 nibbles are equal. -/
theorem eq_of_begins {a b : Bytes32} (hdone : 256 ≤ done.length)
    (ha : Begins a.getMsbD done) (hb : Begins b.getMsbD done) : a = b := by
  apply BitVec.eq_of_getMsbD_eq
  intro i hi
  rw [← ha i (by omega), ← hb i (by omega)]

section Order

variable {α : Type} {f : α → Fin 16} {xs : List α} {k : Fin 16}

/-- In front of a sorted list stand the elements of least value. -/
theorem takeWhile_dropWhile_eq_filter (hsorted : xs.Pairwise fun a b => f a ≤ f b)
    (hge : ∀ x ∈ xs, k ≤ f x) :
    (xs.takeWhile (fun x => f x = k) = xs.filter fun x => f x = k) ∧
      xs.dropWhile (fun x => f x = k) = xs.filter fun x => k.val + 1 ≤ (f x).val := by
  induction xs with
  | nil => exact ⟨rfl, rfl⟩
  | cons x xs ih =>
    obtain ⟨hx, hxs⟩ := pairwise_cons.mp hsorted
    obtain ⟨htake, hdrop⟩ := ih hxs fun y hy => hge y (mem_cons_of_mem x hy)
    by_cases hfx : f x = k
    · simp [hfx, htake, hdrop]
    have hxk : k < f x := lt_of_le_of_ne (hge x mem_cons_self) (Ne.symm hfx)
    have hall : ∀ y ∈ x :: xs, k < f y :=
      forall_mem_cons.mpr ⟨hxk, fun y hy => hxk.trans_le (hx y hy)⟩
    rw [takeWhile_cons_of_neg (by simpa using hfx), dropWhile_cons_of_neg (by simpa using hfx)]
    exact ⟨(filter_eq_nil_iff.mpr fun y hy => by simpa using (hall y hy).ne').symm,
      (filter_eq_self.mpr fun y hy => decide_eq_true (hall y hy)).symm⟩

end Order

/-! ## The updated leaves -/

/-- A set of leaves after updates. -/
def applied (S : Set (Bytes32 × Bytes)) (updates : List Update) : Set (Bytes32 × Bytes) :=
  {e | (e ∈ S ∧ ∀ u ∈ updates, u.1 ≠ e.1) ∨ (e.1, some e.2) ∈ updates}

variable {h : Hashes δ} {reader : TreeReader δ} {key : NodeKey} {depth : Nat}
  {S : Set (Bytes32 × Bytes)} {node : Node δ} {updates : List Update} {bits done : List Bool}

theorem applied_nil (S : Set (Bytes32 × Bytes)) : applied S [] = S := by
  ext e
  simp [applied]

/-- The updates of a nibble are the updates of its leaves. -/
theorem nibblePart_applied (n : Fin 16) : nibblePart (applied S updates) depth n =
      applied (nibblePart S depth n) (updates.filter fun u => nibbleAt u.1 depth = n) := by
  ext e
  constructor
  · rintro ⟨⟨he, hnone⟩ | hsome, hn⟩
    · exact .inl ⟨⟨he, hn⟩, fun u hu => hnone u (mem_of_mem_filter hu)⟩
    · exact .inr (mem_filter.mpr ⟨hsome, decide_eq_true hn⟩)
  · rintro (⟨⟨he, hn⟩, hnone⟩ | hsome)
    · refine ⟨.inl ⟨he, fun u hu hsame => ?_⟩, hn⟩
      refine hnone u (mem_filter.mpr ⟨hu, decide_eq_true ?_⟩) hsame
      rw [hsame, hn]
    · obtain ⟨hmem, hn⟩ := mem_filter.mp hsome
      exact ⟨.inr hmem, of_decide_eq_true hn⟩

/-- A node that can be rebuilt: an inner one is stored, a leaf or nothing may be on its way
down. -/
def Ready (h : Hashes δ) (reader : TreeReader δ) (key : NodeKey) (level : Nat)
    (S : Set (Bytes32 × Bytes)) : Node δ → Prop
  | .internal node => Stored h reader key level S (.internal node)
  | node => NodeHolds h level S node

theorem Stored.ready (hs : Stored h reader key depth S node) : Ready h reader key depth S node := by
  cases node with
  | null | leaf => exact hs.holds
  | internal => exact hs

/-- Leaves of a stored tree have different keys. -/
theorem Stored.key_inj (hs : Stored h reader key depth S node) {e e' : Bytes32 × Bytes} (he : e ∈ S)
    (he' : e' ∈ S) (hkey : e.1 = e'.1) : e = e' := by
  induction hs with
  | null => exact absurd he (Set.notMem_empty e)
  | leaf => exact he.trans he'.symm
  | @internal key level S node child read several absent present below ih =>
    cases hchild : node.children (nibbleAt e.1 level) with
    | none =>
      have hempty := absent _ hchild
      exact absurd (show e ∈ nibblePart S level _ from ⟨he, rfl⟩) (hempty ▸ Set.notMem_empty e)
    | some c => exact ih _ c hchild ⟨he, rfl⟩ ⟨he', by rw [hkey]⟩

/-- The slot of a node that holds leaves below a parent. -/
theorem slotHolds_of_node {version : Nat} {kind : NodeType} (hnode : NodeHolds h (depth + 1) S node)
    (hne : node ≠ .null) (hkind : (kind == .leaf) = node.isLeaf) :
    SlotHolds h (4 * (depth + 1)) S (some ⟨nodeHash h node, version, kind⟩) := by
  obtain ⟨t, hbuilds, hhash⟩ := hnode.builds
  have hleaf : (⟨nodeHash h node, version, kind⟩ : Child δ).isLeaf = node.isLeaf := hkind
  cases node with
  | null => exact absurd rfl hne
  | leaf =>
    obtain ⟨_, -, hset⟩ := hnode
    refine ⟨hset ▸ Set.singleton_nonempty _, ?_, t, hbuilds, hhash⟩
    rw [hleaf]
    exact iff_of_true rfl (hset ▸ Set.subsingleton_singleton)
  | internal =>
    refine ⟨hnode.1.nonempty, ?_, t, hbuilds, hhash⟩
    rw [hleaf]
    exact iff_of_false (by simp [Node.isLeaf]) hnode.1.not_subsingleton

/-! ## One round of the loop -/

/-- Where the leaf of a child is found. -/
def LeafFound (h : Hashes δ) (reader : TreeReader δ) (key : NodeKey) (depth : Nat)
    (S : Set (Bytes32 × Bytes)) (leaf? : Option (LeafNode δ)) (n : Fin 16) (child : Child δ) : Prop :=
  ∃ leaf, NodeHolds h (depth + 1) S (.leaf leaf) ∧ (leaf? = some leaf ∨
    leaf? = none ∧ reader.getNodeOption (key.genChildNodeKey child.version n) = .ok (some (.leaf leaf)))

variable {n : Fin 16}

/-- The child at a nibble before the updates holds the old leaves with that nibble. -/
theorem oldChild_spec (hready : Ready h reader key depth S node) {leaves : Fin 16 → Option (LeafNode δ)}
    (hn : leaves n = none) :
    ∃ old leaves', oldChild h key node depth leaves n = (old, leaves') ∧
      (∀ m, m ≠ n → leaves' m = leaves m) ∧
      SlotHolds h (4 * (depth + 1)) (nibblePart S depth n) old ∧
      (∀ child, old = some child → child.isLeaf = true →
        LeafFound h reader key depth (nibblePart S depth n) (leaves' n) n child) ∧
      ∃ below, childNode reader old (leaves' n)
          (key.genChildNodeKey ((old.map Child.version).getD key.version) n) = .ok below ∧
        Ready h reader (key.genChildNodeKey ((old.map Child.version).getD key.version) n) (depth + 1)
          (nibblePart S depth n) below := by
  cases node with
  | null =>
    obtain rfl : S = ∅ := hready
    have hempty : nibblePart (∅ : Set (Bytes32 × Bytes)) depth n = ∅ := Set.sep_empty _
    refine ⟨none, leaves, rfl, fun _ _ => rfl, hempty, (fun _ hsome => nomatch hsome), .null, ?_, hempty⟩
    rw [hn]
    rfl
  | leaf leaf =>
    obtain ⟨value, hvalue, rfl⟩ := hready
    by_cases hnibble : nibbleAt leaf.keyHash depth = n
    · have hpart : nibblePart {(leaf.keyHash, value)} depth n = {(leaf.keyHash, value)} := by
        ext e
        constructor
        · exact And.left
        · rintro rfl
          exact ⟨rfl, hnibble⟩
      have hholds : NodeHolds h (depth + 1) (nibblePart {(leaf.keyHash, value)} depth n) (.leaf leaf) :=
        ⟨value, hvalue, hpart⟩
      refine ⟨some ⟨leaf.hash h, key.version, .leaf⟩, Function.update leaves n (some leaf), ?_, ?_,
        ?_, ?_, .leaf leaf, ?_, hholds⟩
      · simp only [oldChild, if_pos hnibble]
      · intro m hm
        exact Function.update_of_ne hm _ _
      · exact slotHolds_of_node hholds (by simp) rfl
      · intro child _ _
        exact ⟨leaf, hholds, .inl (Function.update_self ..)⟩
      · rw [Function.update_self]
        rfl
    · have hpart : nibblePart {(leaf.keyHash, value)} depth n = ∅ := by
        rw [Set.eq_empty_iff_forall_notMem]
        rintro e ⟨rfl, he⟩
        exact hnibble he
      refine ⟨none, leaves, ?_, fun _ _ => rfl, hpart, (fun _ hsome => nomatch hsome), .null, ?_, hpart⟩
      · simp only [oldChild, if_neg hnibble]
      · rw [hn]
        rfl
  | internal int =>
    have hstored : Stored h reader key depth S (.internal int) := hready
    have hslot := hstored.holds.2 n
    refine ⟨int.children n, leaves, rfl, fun _ _ => rfl, hslot, ?_, ?_⟩
    · intro c hc hleaf
      obtain ⟨below, hbelow, -, hisLeaf⟩ := hstored.child hc
      cases below with
      | null | internal => rw [hisLeaf] at hleaf; cases hleaf
      | leaf leaf => exact ⟨leaf, hbelow.holds, .inr ⟨hn, hbelow.read_eq⟩⟩
    · cases hc : int.children n with
      | none =>
        rw [hc] at hslot
        exact ⟨.null, by rw [hn]; rfl, hslot⟩
      | some =>
        obtain ⟨below, hbelow, -⟩ := hstored.child hc
        refine ⟨below, ?_, hbelow.ready⟩
        rw [hn]
        simp only [childNode, Option.map_some, Option.getD_some, TreeReader.getNode, hbelow.read_eq]
        rfl

/-- Leaves and updates below a node on whole nibbles `done`, the updates in order and under
the subtree's path. -/
structure Scope (bits done : List Bool) (depth : Nat) (S : Set (Bytes32 × Bytes))
    (updates : List Update) : Prop where
  length : done.length = 4 * depth
  leaves : ∀ e ∈ S, Begins e.1.getMsbD done
  keys : ∀ u ∈ updates, Begins u.1.getMsbD done
  inside : ∀ u ∈ updates, Begins u.1.getMsbD bits
  sorted : updates.Pairwise fun a b => a.1 < b.1

theorem exists_nibble4 : ∀ n : Fin 16, ∃ b0 b1 b2 b3, n = nibble4 b0 b1 b2 b3 := by decide

namespace Scope

variable (hscope : Scope bits done depth S updates)

include hscope

theorem applied_leaves {e : Bytes32 × Bytes}
    (he : e ∈ applied S updates) : Begins e.1.getMsbD done := by
  rcases he with ⟨he, -⟩ | he
  · exact hscope.leaves e he
  · exact hscope.keys _ he

/-- Whole nibbles of updates down to the subtree begin its path. -/
theorem isPrefix (hne : updates ≠ []) (hdepth : depth ≤ bits.length / 4) : done <+: bits := by
  obtain ⟨u, hu⟩ := exists_mem_of_ne_nil updates hne
  rcases (hscope.keys u hu).nested (hscope.inside u hu) with hpre | hpre
  · exact hpre
  · have hle := hscope.length
    exact (hpre.eq_of_length_le (by omega)) ▸ prefix_rfl

/-- The scope of a child. -/
theorem child (n : Fin 16) :
    ∃ b0 b1 b2 b3, n = nibble4 b0 b1 b2 b3 ∧ Scope bits (done ++ [b0, b1, b2, b3]) (depth + 1)
      (nibblePart S depth n) (updates.filter fun u => nibbleAt u.1 depth = n) := by
  obtain ⟨b0, b1, b2, b3, rfl⟩ := exists_nibble4 n
  refine ⟨b0, b1, b2, b3, rfl, ?_, ?_, ?_, ?_, hscope.sorted.filter _⟩
  · rw [length_append, hscope.length]
    rfl
  · rintro e ⟨he, hnibble⟩
    exact (begins_nibble hscope.length (hscope.leaves e he)).mpr hnibble
  · intro u hu
    obtain ⟨hmem, hnibble⟩ := mem_filter.mp hu
    exact (begins_nibble hscope.length (hscope.keys u hmem)).mpr (of_decide_eq_true hnibble)
  · intro u hu
    exact hscope.inside u (mem_of_mem_filter hu)

/-- A commitment below a child that has updates is one below the node. -/
theorem isCommitment_child {c : δ}
    (hchanged : (updates.filter fun u => nibbleAt u.1 depth = n) ≠ [])
    (hdepth : depth < bits.length / 4)
    (hc : IsCommitment h bits (nibblePart (applied S updates) depth n) c) :
    IsCommitment h bits (applied S updates) c := by
  obtain ⟨_, _, _, _, rfl, hchild⟩ := hscope.child n
  rw [nibblePart_eq_under hscope.length fun e he => hscope.applied_leaves he] at hc
  exact IsCommitment.of_under (hchild.isPrefix hchanged hdepth) hchild.length hc

end Scope

/-- Rebuilding a node gives the updated leaves below it, and the subtree's commitment where the node
is on the way to it. -/
def Rebuilds (h : Hashes δ) (reader : TreeReader δ) (bits : List Bool) (depth : Nat)
    (rebuild : NodeKey → Node δ → List Update → Option δ → Except String (Node δ × Option δ)) : Prop :=
  ∀ key node S done updates subtree, Ready h reader key depth S node → updates ≠ [] →
    Scope bits done depth S updates → ∃ node' subtree',
      rebuild key node updates subtree = .ok (node', subtree') ∧
      NodeHolds h depth (applied S updates) node' ∧
      (depth ≤ bits.length / 4 → ∃ c, subtree' = some c ∧ IsCommitment h bits (applied S updates) c) ∧
      (bits.length / 4 < depth → subtree' = subtree)

/-- After the children below `k`. -/
structure LoopInv (h : Hashes δ) (reader : TreeReader δ) (bits : List Bool) (key : NodeKey)
    (depth : Nat) (S : Set (Bytes32 × Bytes)) (updates : List Update) (subtree : Option δ) (k : Nat)
    (st : PreviewState δ) : Prop where
  rest : st.rest = updates.filter fun u => decide (k ≤ (nibbleAt u.1 depth).val)
  slots : ∀ n : Fin 16, n.val < k →
    SlotHolds h (4 * (depth + 1)) (nibblePart (applied S updates) depth n) (st.children n)
  found : ∀ n : Fin 16, n.val < k → ∀ child, st.children n = some child → child.isLeaf = true →
    LeafFound h reader key depth (nibblePart (applied S updates) depth n) (st.leaves n) n child
  ahead : ∀ n : Fin 16, k ≤ n.val → st.children n = none ∧ st.leaves n = none
  inside : depth < bits.length / 4 → (∃ u ∈ updates, (nibbleAt u.1 depth).val < k) →
    ∃ c, st.subtree = some c ∧ IsCommitment h bits (applied S updates) c
  outside : bits.length / 4 ≤ depth → st.subtree = subtree

variable {subtree : Option δ} {st : PreviewState δ}
  {recur : NodeKey → Node δ → List Update → Option δ → Except String (Node δ × Option δ)}

/-- The updates of the next child are in front of those that are left. -/
theorem LoopInv.changed {k : Nat} (hinv : LoopInv h reader bits key depth S updates subtree k st)
    (hscope : Scope bits done depth S updates) (hdepth : depth < 64) (hk : n.val = k) :
    (st.rest.takeWhile fun u => nibbleAt u.1 depth = n) =
      (updates.filter fun u => nibbleAt u.1 depth = n) ∧
      (st.rest.dropWhile fun u => nibbleAt u.1 depth = n) =
        updates.filter fun u => decide (k + 1 ≤ (nibbleAt u.1 depth).val) := by
  subst hk
  have hge : ∀ u ∈ st.rest, n ≤ nibbleAt u.1 depth := by
    intro u hu
    rw [hinv.rest] at hu
    exact of_decide_eq_true (mem_filter.mp hu).2
  have hsorted : st.rest.Pairwise fun a b => nibbleAt a.1 depth ≤ nibbleAt b.1 depth := by
    rw [hinv.rest]
    refine List.Pairwise.filter _ ?_
    refine hscope.sorted.imp_of_mem fun ha hb hlt => ?_
    exact nibbleAt_mono hdepth hscope.length (hscope.keys _ ha) (hscope.keys _ hb) hlt
  obtain ⟨htake, hdrop⟩ := takeWhile_dropWhile_eq_filter hsorted hge
  rw [htake, hdrop, hinv.rest, filter_filter, filter_filter]
  constructor
  · refine filter_congr fun u _ => ?_
    rw [← Bool.decide_and]
    exact decide_eq_decide.mpr ⟨And.left, fun h => ⟨h, (Fin.ext_iff.mp h).ge⟩⟩
  · refine filter_congr fun u _ => ?_
    rw [← Bool.decide_and]
    exact decide_eq_decide.mpr ⟨And.left, fun h => ⟨h, by omega⟩⟩

/-- What a round has to leave for its own child, with everything before it kept. -/
theorem LoopInv.next {st' : PreviewState δ}
    (hinv : LoopInv h reader bits key depth S updates subtree n.val st)
    (hrest : st'.rest = updates.filter fun u => decide (n.val + 1 ≤ (nibbleAt u.1 depth).val))
    (hkept : ∀ m, m ≠ n → st'.children m = st.children m ∧ st'.leaves m = st.leaves m)
    (hslot : SlotHolds h (4 * (depth + 1)) (nibblePart (applied S updates) depth n) (st'.children n))
    (hfound : ∀ child, st'.children n = some child → child.isLeaf = true →
      LeafFound h reader key depth (nibblePart (applied S updates) depth n) (st'.leaves n) n child)
    (hinside : depth < bits.length / 4 → (∃ u ∈ updates, (nibbleAt u.1 depth).val < n.val + 1) →
      ∃ c, st'.subtree = some c ∧ IsCommitment h bits (applied S updates) c)
    (houtside : bits.length / 4 ≤ depth → st'.subtree = st.subtree) :
    LoopInv h reader bits key depth S updates subtree (n.val + 1) st' := by
  have hbefore : ∀ m : Fin 16, m.val < n.val + 1 → m = n ∨ m ≠ n ∧ m.val < n.val := by
    intro m hm
    rcases eq_or_ne m n with rfl | hne
    · exact .inl rfl
    · exact .inr ⟨hne, by omega⟩
  refine ⟨hrest, ?_, ?_, ?_, hinside, fun hle => (houtside hle).trans (hinv.outside hle)⟩
  · intro m hm
    rcases hbefore m hm with rfl | ⟨hne, hlt⟩
    · exact hslot
    · rw [(hkept m hne).1]
      exact hinv.slots m hlt
  · intro m hm
    rcases hbefore m hm with rfl | ⟨hne, hlt⟩
    · exact hfound
    · rw [(hkept m hne).1, (hkept m hne).2]
      exact hinv.found m hlt
  · intro m hm
    have hne : m ≠ n := by
      rintro rfl
      omega
    rw [(hkept m hne).1, (hkept m hne).2]
    exact hinv.ahead m (by omega)

/-- **One round** brings the next child's updated leaves into its place. -/
theorem previewChild_spec (hrecur : Rebuilds h reader bits (depth + 1) recur)
    (hready : Ready h reader key depth S node) (hscope : Scope bits done depth S updates)
    (hdepth : depth < 64) (hinv : LoopInv h reader bits key depth S updates subtree n.val st) :
    ∃ st', previewChild h reader recur key node depth st n = .ok st' ∧
      LoopInv h reader bits key depth S updates subtree (n.val + 1) st' := by
  obtain ⟨hchildNone, hleafNone⟩ := hinv.ahead n le_rfl
  obtain ⟨htake, hdrop⟩ := hinv.changed hscope hdepth rfl
  obtain ⟨old, _, hold, hkept, hslot, hfound, _, hbelow, hbelowReady⟩ :=
    oldChild_spec hready hleafNone
  simp only [previewChild, htake, hdrop, hold]
  by_cases hchanged : (updates.filter fun u => decide (nibbleAt u.1 depth = n)) = []
  · -- nothing changes below this child
    have hsame : nibblePart (applied S updates) depth n = nibblePart S depth n := by
      rw [nibblePart_applied, hchanged, applied_nil]
    have hchildren : (match old with
        | some child => Function.update st.children n (some child)
        | none => st.children) n = old := by
      cases old with
      | none => exact hchildNone
      | some => exact Function.update_self ..
    rw [if_pos hchanged]
    refine ⟨_, rfl, hinv.next rfl ?_ ?_ ?_ ?_ fun _ => rfl⟩
    · intro m hm
      refine ⟨?_, hkept m hm⟩
      cases old with
      | none => rfl
      | some => exact Function.update_of_ne hm _ _
    · dsimp only
      rw [hchildren, hsame]
      exact hslot
    · dsimp only
      rw [hchildren, hsame]
      exact hfound
    · rintro hlt ⟨u, hu, hk⟩
      refine hinv.inside hlt ⟨u, hu, ?_⟩
      have hne : nibbleAt u.1 depth ≠ n := by
        intro hn
        exact not_mem_nil (hchanged ▸ mem_filter.mpr ⟨hu, decide_eq_true hn⟩)
      omega
  · obtain ⟨_, _, _, _, -, hchild⟩ := hscope.child n
    obtain ⟨node', subtree', hnode, hholds, hon, hoff⟩ :=
      hrecur _ _ _ _ _ st.subtree hbelowReady hchanged hchild
    rw [← nibblePart_applied] at hholds hon
    rw [if_neg hchanged]
    simp only [hbelow, bind, Except.bind, hnode]
    have hinside : depth < bits.length / 4 → (∃ u ∈ updates, (nibbleAt u.1 depth).val < n.val + 1) →
        ∃ c, subtree' = some c ∧ IsCommitment h bits (applied S updates) c := by
      intro hlt _
      obtain ⟨c, hc, hcommit⟩ := hon hlt
      exact ⟨c, hc, hscope.isCommitment_child hchanged hlt hcommit⟩
    have houtside : bits.length / 4 ≤ depth → subtree' = st.subtree := fun hle => hoff (by omega)
    cases node' with
    | null =>
      refine ⟨_, rfl, hinv.next rfl (fun m hm => ⟨rfl, hkept m hm⟩) ?_ ?_ hinside houtside⟩
      · rw [hchildNone]
        exact hholds
      · intro child hsome
        rw [hchildNone] at hsome
        cases hsome
    | leaf leaf =>
      refine ⟨_, rfl, hinv.next rfl (fun m hm => ⟨Function.update_of_ne hm _ _, ?_⟩) ?_ ?_ hinside houtside⟩
      · dsimp only
        rw [Function.update_of_ne hm]
        exact hkept m hm
      · dsimp only
        rw [Function.update_self]
        exact slotHolds_of_node hholds (by simp) rfl
      · intro child _ _
        exact ⟨leaf, hholds, .inl (Function.update_self ..)⟩
    | internal int =>
      have hself : Function.update st.children n (some ⟨int.hash h, (key.genChildNodeKey
          ((old.map Child.version).getD key.version) n).version, int.nodeType⟩) n = _ :=
        Function.update_self ..
      refine ⟨_, rfl, hinv.next rfl (fun m hm => ⟨Function.update_of_ne hm _ _, hkept m hm⟩) ?_ ?_
        hinside houtside⟩
      · dsimp only
        rw [hself]
        exact slotHolds_of_node hholds (by simp) rfl
      · intro child hsome hleaf
        dsimp only at hsome
        rw [hself] at hsome
        obtain rfl := Option.some.inj hsome
        cases hleaf

/-! ## The whole preview -/

/-- The node over all sixteen children. -/
theorem previewResult_spec (hinv : LoopInv h reader bits key depth S updates subtree 16 st) :
    ∃ node', previewResult reader key st = .ok node' ∧ NodeHolds h depth (applied S updates) node' := by
  have hslots : ∀ n, SlotHolds h (4 * (depth + 1)) (nibblePart (applied S updates) depth n)
      ((InternalNode.new st.children).children n) := fun n => hinv.slots n n.isLt
  have hall : (InternalNode.new st.children).rangeChildren 0 16 =
      (InternalNode.new st.children).childrenSorted :=
    filter_eq_self.mpr fun c _ => decide_eq_true ⟨Nat.zero_le _, by have := c.1.isLt; omega⟩
  rw [previewResult]
  cases hsorted : (InternalNode.new st.children).childrenSorted with
  | nil =>
    have hempty := rangePart_eq_empty hslots (hall.trans hsorted)
    rw [rangePart_all] at hempty
    exact ⟨.null, rfl, hempty⟩
  | cons first =>
    obtain ⟨n, child⟩ := first
    have hcases := rangePart_cases hslots (hall.trans hsorted)
    rw [rangePart_all] at hcases
    dsimp only
    split at hcases
    · rename_i honly
      obtain ⟨e, hone, -⟩ := hcases
      have hchild : st.children n = some child := mem_childrenSorted.mp (hsorted ▸ mem_cons_self)
      obtain ⟨leaf, ⟨value, hvalue, hpart⟩, hfound⟩ :=
        hinv.found n n.isLt child hchild (by simpa using (Bool.and_eq_true_iff.mp honly).2)
      -- the only leaf of the node is that of the child
      have hset : applied S updates = {(leaf.keyHash, value)} := by
        have hmem : (leaf.keyHash, value) ∈ nibblePart (applied S updates) depth n := hpart ▸ rfl
        rw [hone, ← (hone ▸ hmem.1 : (leaf.keyHash, value) ∈ ({e} : Set (Bytes32 × Bytes)))]
      refine ⟨.leaf leaf, ?_, value, hvalue, hset⟩
      rw [if_pos honly]
      rcases hfound with hleaf | ⟨hleaf, hread⟩
      · rw [hleaf]
      rw [hleaf]
      simp only [TreeReader.getNode, hread, okOr, bind, bind]
      rfl
    · rename_i hseveral
      rw [if_neg hseveral]
      exact ⟨_, rfl, hcases, hslots⟩

/-- A node is rebuilt from its rebuilt children. -/
theorem rebuildNode_spec (hrecur : Rebuilds h reader bits (depth + 1) recur)
    (hready : Ready h reader key depth S node) (hne : updates ≠ [])
    (hscope : Scope bits done depth S updates) (hdepth : depth < 64) :
    ∃ node' subtree', rebuildNode h reader recur key node updates depth subtree = .ok (node', subtree') ∧
      NodeHolds h depth (applied S updates) node' ∧
      (depth < bits.length / 4 → ∃ c, subtree' = some c ∧ IsCommitment h bits (applied S updates) c) ∧
      (bits.length / 4 ≤ depth → subtree' = subtree) := by
  have hstart : LoopInv h reader bits key depth S updates subtree 0
      ⟨fun _ => none, fun _ => none, updates, subtree⟩ := by
    refine ⟨?_, fun n hn => absurd hn (Nat.not_lt_zero _), fun n hn => absurd hn (Nat.not_lt_zero _),
      fun n _ => ⟨rfl, rfl⟩, ?_, fun _ => rfl⟩
    · simp
    · rintro _ ⟨u, -, hu⟩
      exact absurd hu (Nat.not_lt_zero _)
  obtain ⟨st, hloop, hinv⟩ := foldlM_finRange
    (fun _ _ hinv => previewChild_spec hrecur hready hscope hdepth hinv) hstart
  obtain ⟨node', hresult, hholds⟩ := previewResult_spec hinv
  refine ⟨node', st.subtree, ?_, hholds, fun hlt => ?_, hinv.outside⟩
  · simp only [rebuildNode, ensure_of hdepth, hloop, hresult, bind, Except.bind]
    rfl
  · obtain ⟨u, hu⟩ := exists_mem_of_ne_nil updates hne
    exact hinv.inside hlt ⟨u, hu, (nibbleAt u.1 depth).isLt⟩

/-- A leaf that gives way is updated, so the updated leaves are the same. -/
theorem clearLeaf_spec (hready : Ready h reader key depth S node) :
    ∃ S', S' ⊆ S ∧ Ready h reader key depth S' (clearLeaf node updates) ∧
      applied S' updates = applied S updates ∧
      ∀ leaf, clearLeaf node updates = .leaf leaf → ∀ u ∈ updates, u.1 ≠ leaf.keyHash := by
  cases node with
  | null | internal => exact ⟨S, subset_rfl, hready, rfl, fun _ hleaf => nomatch hleaf⟩
  | leaf leaf =>
    simp only [clearLeaf]
    split
    · rename_i hany
      obtain ⟨u, hu, hkey⟩ := any_eq_true.mp hany
      obtain ⟨_, -, rfl⟩ := hready
      refine ⟨∅, Set.empty_subset _, rfl, ?_, fun _ hleaf => nomatch hleaf⟩
      ext e
      refine or_congr_left (iff_of_false (fun hmem => hmem.1) ?_)
      rintro ⟨rfl, hnone⟩
      exact hnone u hu (eq_of_beq hkey)
    · rename_i hany
      refine ⟨S, subset_rfl, hready, rfl, ?_⟩
      intro leaf' hleaf u hu hkey
      obtain rfl := Node.leaf.inj hleaf
      exact hany (any_eq_true.mpr ⟨u, hu, beq_iff_eq.mpr hkey⟩)

/-- Below the last nibble one key is left. -/
theorem Scope.depth_lt (hscope : Scope bits done depth S updates)
    (hready : Ready h reader key depth S node) (hne : updates ≠ []) (hdepth : depth ≤ 64)
    (hclear : ∀ leaf, node = .leaf leaf → ∀ u ∈ updates, u.1 ≠ leaf.keyHash)
    (hmore : ¬ (node = .null ∧ ∃ u, updates = [u])) : depth < 64 := by
  by_contra hnot
  have hlength : 256 ≤ done.length := by
    rw [hscope.length]
    omega
  obtain ⟨u, hu⟩ := exists_mem_of_ne_nil updates hne
  cases node with
  | null =>
    refine hmore ⟨rfl, ?_⟩
    match updates with
    | [] => exact absurd rfl hne
    | [u] => exact ⟨u, rfl⟩
    | u :: u' :: rest =>
      have hlt := rel_of_pairwise_cons hscope.sorted (mem_cons_self (a := u') (l := rest))
      have hsame := eq_of_begins hlength (hscope.keys u mem_cons_self)
        (hscope.keys u' (mem_cons_of_mem u mem_cons_self))
      exact absurd hlt (hsame ▸ BitVec.lt_irrefl _)
  | leaf leaf =>
    obtain ⟨_, -, rfl⟩ := hready
    exact hclear leaf rfl u hu (eq_of_begins hlength (hscope.keys u hu) (hscope.leaves _ rfl))
  | internal int =>
    have hstored : Stored h reader key depth S (.internal int) := hready
    obtain ⟨e, he, e', he', hdiff⟩ := hstored.holds.1
    exact hdiff (hstored.key_inj he he'
      (eq_of_begins hlength (hscope.leaves e he) (hscope.leaves e' he')))

/-- The subtree's root is noted where a node on the way to it decides it. -/
theorem markSubtree_spec {result : Node δ} (hscope : Scope bits done depth S updates)
    (hne : updates ≠ []) (hholds : NodeHolds h depth (applied S updates) result)
    (hbelow : depth < bits.length / 4 → (∃ int, result = .internal int) →
      ∃ c, subtree = some c ∧ IsCommitment h bits (applied S updates) c)
    (hdepth : depth ≤ bits.length / 4) :
    ∃ c, markSubtree h bits depth result subtree = some c ∧ IsCommitment h bits (applied S updates) c := by
  unfold markSubtree
  rw [if_pos hdepth]
  cases result with
  | null =>
    refine ⟨_, rfl, ?_⟩
    rw [show applied S updates = ∅ from hholds]
    exact isCommitment_null bits
  | leaf leaf =>
    obtain ⟨value, hvalue, hset⟩ := hholds
    refine ⟨_, rfl, ?_⟩
    rw [hset, show leaf = ⟨leaf.keyHash, h.value value⟩ by rw [← hvalue]]
    exact isCommitment_leaf _ _
  | internal int =>
    dsimp only
    split
    · rename_i hlevel
      have hdone : done = wholeBits bits := by
        have hwhole := isPrefix_take_whole (hscope.isPrefix hne hdepth) hscope.length
        refine hwhole.eq_of_length ?_
        rw [hscope.length, hlevel]
        exact (length_wholeBits bits).symm
      refine ⟨_, rfl, isCommitment_rangeRoot hholds (hdone ▸ hscope.length) fun e he => ?_⟩
      exact hdone ▸ hscope.applied_leaves he
    · exact hbelow (by omega) ⟨int, rfl⟩

/-- Beyond one update of nothing a node is rebuilt. -/
theorem previewNode_more {fuel : Nat} (hne : updates ≠ [])
    (hmore : ¬ (clearLeaf node updates = .null ∧ ∃ u, updates = [u])) :
    previewNode h reader bits (fuel + 1) key node updates depth subtree = (do
      let (result, subtree) ← rebuildNode h reader (fun childKey child changed subtree =>
        previewNode h reader bits fuel childKey child changed (depth + 1) subtree) key
        (clearLeaf node updates) updates depth subtree
      return (result, markSubtree h bits depth result subtree)) := by
  conv_lhs => unfold previewNode
  generalize clearLeaf node updates = cleared at hmore
  match cleared, updates with
  | _, [] => exact absurd rfl hne
  | .null, [u] => exact absurd ⟨rfl, u, rfl⟩ hmore
  | .leaf _, [_] | .internal _, [_] => simp only
  | .null, _ :: _ :: _ | .leaf _, _ :: _ :: _ | .internal _, _ :: _ :: _ => simp only

/-- **A previewed node holds the updated leaves**, and on the way to the subtree its
commitment is noted. -/
theorem previewNode_rebuilds {fuel : Nat} (hfuel : depth + fuel = 65) (hdepth : depth ≤ 64) :
    Rebuilds h reader bits depth fun key node updates subtree =>
      previewNode h reader bits fuel key node updates depth subtree := by
  induction fuel generalizing depth with
  | zero => omega
  | succ fuel ih =>
    intro key node S done updates subtree hready hne hscope
    obtain ⟨S', hsub, hready', happlied, hclear⟩ := clearLeaf_spec hready
    have hscope' : Scope bits done depth S' updates :=
      ⟨hscope.length, fun e he => hscope.leaves e (hsub he), hscope.keys, hscope.inside, hscope.sorted⟩
    rw [← happlied]
    -- it is enough to decide the node before the subtree is noted
    suffices hnode : ∃ result subtree', previewNode h reader bits (fuel + 1) key node updates depth
          subtree = .ok (result, markSubtree h bits depth result subtree') ∧
        NodeHolds h depth (applied S' updates) result ∧
        (depth < bits.length / 4 → (∃ int, result = .internal int) →
          ∃ c, subtree' = some c ∧ IsCommitment h bits (applied S' updates) c) ∧
        (bits.length / 4 ≤ depth → subtree' = subtree) by
      obtain ⟨result, _, heq, hholds, hbelow, houtside⟩ := hnode
      refine ⟨result, _, heq, hholds, markSubtree_spec hscope' hne hholds hbelow, fun hlt => ?_⟩
      unfold markSubtree
      rw [if_neg (by omega)]
      exact houtside (by omega)
    by_cases hmore : clearLeaf node updates = .null ∧ ∃ u, updates = [u]
    · obtain ⟨hnull, ⟨k, value⟩, rfl⟩ := hmore
      rw [hnull] at hready'
      obtain rfl : S' = ∅ := hready'
      cases value with
      | none =>
        refine ⟨.null, subtree, ?_, ?_, fun _ hint => (by obtain ⟨_, hint⟩ := hint; cases hint), fun _ => rfl⟩
        · simp only [previewNode, hnull]
          rfl
        · ext e
          simp [applied]
      | some value =>
        refine ⟨.leaf ⟨k, h.value value⟩, subtree, ?_, ⟨value, rfl, ?_⟩,
          fun _ hint => (by obtain ⟨_, hint⟩ := hint; cases hint), fun _ => rfl⟩
        · simp only [previewNode, hnull]
          rfl
        · ext e
          simp [applied, Prod.ext_iff]
    · have hlt := hscope'.depth_lt hready' hne hdepth hclear hmore
      obtain ⟨result, subtree', heq, hholds, hbelow, houtside⟩ :=
        rebuildNode_spec (ih (by omega) (by omega)) hready' hne hscope' hlt
      refine ⟨result, subtree', ?_, hholds, fun h _ => hbelow h, houtside⟩
      rw [previewNode_more hne hmore, heq]
      rfl

/-- A tree before its update: stored at a version, or nothing at all. -/
def Based (h : Hashes δ) (reader : TreeReader δ) (base : Nat) (S : Set (Bytes32 × Bytes)) : Prop :=
  Committed h reader base S ∨ S = ∅ ∧ reader.getNodeOption (.root base) = .ok none

theorem Based.ready {base : Nat} (hS : Based h reader base S) :
    ∃ node, (∃ found, reader.getNodeOption (.root base) = .ok found ∧ found.getD .null = node) ∧
      Ready h reader (.root base) 0 S node ∧
      (node = .null ∧ S = ∅ ∨ Committed h reader base S ∧ node ≠ .null) := by
  rcases hS with ⟨node, hs⟩ | ⟨rfl, hnone⟩
  · refine ⟨node, ⟨some node, hs.read_eq, rfl⟩, hs.ready, ?_⟩
    cases node with
    | null => exact .inl ⟨rfl, hs.holds⟩
    | leaf | internal => exact .inr ⟨⟨_, hs⟩, fun h => nomatch h⟩
  · exact ⟨.null, ⟨none, hnone, rfl⟩, rfl, .inl ⟨rfl, rfl⟩⟩

variable [DecidableEq δ]

/-- **A preview is the commitment of the updated leaves.** -/
theorem previewSubtreeRoot_isCommitment {version : Nat} (hS : Based h reader (baseVersion version) S)
    (hwidth : bits.length ≤ 256) (hsorted : updates.Pairwise fun a b => a.1 < b.1)
    (hunder : ∀ u ∈ updates, Begins u.1.getMsbD bits) :
    ∃ c, previewSubtreeRoot h reader version updates bits = .ok c ∧
      IsCommitment h bits (applied S updates) c := by
  obtain ⟨node, ⟨_, hfound, hnode⟩, hready, hstored⟩ := hS.ready
  have hinside : ∀ u ∈ updates, addrHasBitPrefix u.1 bits = true :=
    fun u hu => addrHasBitPrefix_iff.mpr (hunder u hu)
  simp only [previewSubtreeRoot, ensure_of hwidth, ensure_of hsorted,
    ensure_of hinside, hfound, hnode, bind, Except.bind]
  by_cases hne : updates = []
  · rw [if_pos hne, hne, applied_nil]
    rcases hstored with ⟨rfl, rfl⟩ | ⟨hcommitted, hnull⟩
    · exact ⟨_, rfl, isCommitment_null bits⟩
    obtain ⟨c, hroot, hcommit⟩ := subtreeRoot_isCommitment hcommitted hwidth
    refine ⟨c, ?_, hcommit⟩
    cases node with
    | null => exact absurd rfl hnull
    | leaf | internal => exact hroot
  · have hscope : Scope bits [] 0 S updates :=
      ⟨rfl, fun _ _ => begins_nil _, fun _ _ => begins_nil _, hunder, hsorted⟩
    obtain ⟨_, _, hpreview, -, hon, -⟩ :=
      @previewNode_rebuilds _ h reader 0 bits 65 rfl (by decide) _ _ _ _ _ none hready hne hscope
    dsimp only at hpreview
    obtain ⟨c, rfl, hcommit⟩ := hon (Nat.zero_le _)
    refine ⟨c, ?_, hcommit⟩
    rw [if_neg hne, hpreview]
    rfl

/-- **Previewed roots are the real ones**: the subtree root of any stored tree of the updated
leaves. -/
theorem preview_is_updated_root {reader' : TreeReader δ} {version version' : Nat}
    (hS : Based h reader (baseVersion version) S) (hsorted : updates.Pairwise fun a b => a.1 < b.1)
    (hunder : ∀ u ∈ updates, Begins u.1.getMsbD bits)
    (hS' : Committed h reader' version' (applied S updates)) :
    previewSubtreeRoot h reader version updates bits = subtreeRoot h reader' version' bits := by
  by_cases hwidth : bits.length ≤ 256
  · obtain ⟨_, hpreview, hcommit⟩ := previewSubtreeRoot_isCommitment hS hwidth hsorted hunder
    obtain ⟨_, hroot, hcommit'⟩ := subtreeRoot_isCommitment hS' hwidth
    rw [hpreview, hroot, hcommit.unique hcommit']
  · -- both refuse a path longer than a key
    rw [previewSubtreeRoot, subtreeRoot, ensure, if_neg hwidth]
    rfl

/-- Deleting one of two leaves leaves the other in place of the root. -/
theorem deleted_leaf_preview :
    previewSubtreeRoot digests (pairReader digests leafAt8 leafAt9) 1 [(leafAt9.1, none)] [true] =
      subtreeRoot digests (singleReader digests leafAt8) 0 [true] := by
  have happlied : applied {leafAt8, leafAt9} [(leafAt9.1, none)] = {leafAt8} := by
    ext e
    constructor
    · rintro (⟨rfl | rfl, hnone⟩ | hsome)
      · rfl
      · exact absurd rfl (hnone _ mem_cons_self)
      · simp at hsome
    · rintro rfl
      exact .inl ⟨.inl rfl, by decide⟩
  refine preview_is_updated_root (S := {leafAt8, leafAt9})
    (.inl (committed_pair digests (by decide))) (pairwise_singleton _ _) ?_ ?_
  · intro u hu
    rw [mem_singleton.mp hu]
    exact addrHasBitPrefix_iff.mp (by decide)
  · rw [happlied]
    exact committed_single digests leafAt8

end Jmt

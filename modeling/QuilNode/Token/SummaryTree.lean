import QuilNode.Token.CoinBlocks
import QuilNode.Token.ShardedTree

/-!
# The stored block summary (`token_intrinsic/summary_tree.rs`)

An application keeps, for every non-empty block, its coin count and root, and stores every node of
the binary tree over block ids above them.  The stored tree is a function of the blocks alone
(`Represents`), and a refresh keeps it so (`update_represents`).
-/

namespace Token

namespace SummaryTree

open SparseTree CoinBlocks OrdMap Option Nat

variable {ν : Type*} (h : Hasher ν)

/-- One stored node: the coins and non-empty blocks under it, and its value. -/
structure TreeNode (ν : Type*) where
  coins : Nat
  blocks : Nat
  node : ν
  deriving DecidableEq

/-- Levels above the leaves: the block index field. -/
def levels : Nat := blockIndexBits

/-- Non-empty blocks one application may have. -/
def maxNonemptyBlocks : Nat := 1024

def invalid : QuilError := .invalidArgument "coin block summary: invalid tree record"

/-- The tree's records, by level and index; a cleared node reads as absent. -/
abbrev StoredTree (ν : Type*) := Nat → Nat → Option (TreeNode ν)

/-- Read and decode one record. -/
def readNode (tree : StoredTree ν) (level index : Nat) : Result (Option (TreeNode ν)) :=
  if levels < level ∨ 1 <<< (levels - level) ≤ index then .error invalid
  else
    match tree level index with
    | none => .ok none
    | some t =>
      -- every block under a stored node holds at least one coin
      if t.blocks = 0 ∨ 1 <<< level < t.blocks ∨ t.coins < t.blocks then .error invalid
      else .ok (some t)

/-- The node over one shard's range in one width layer, at the report's
position counted from the coins. -/
def subtree (tree : StoredTree ν) (level index : Nat) : Result (Option (TreeNode ν)) :=
  if level < subtreeBits then .error invalid else readNode tree (level - subtreeBits) index

/-- The parent of two children at `level`; absent when both are.  The counts
are `u64`. -/
def parent (level : Nat) (left right : Option (TreeNode ν)) : Result (Option (TreeNode ν)) :=
  if left.isNone ∧ right.isNone then .ok none
  else
    let zero := zeroNode h (subtreeBits + level)
    let coins := (left.map TreeNode.coins).getD 0 + (right.map TreeNode.coins).getD 0
    let blocks := (left.map TreeNode.blocks).getD 0 + (right.map TreeNode.blocks).getD 0
    if 2 ^ 64 ≤ coins ∨ 2 ^ 64 ≤ blocks then .error invalid
    else
      .ok (some ⟨coins, blocks, h.parent ((left.map TreeNode.node).getD zero)
        ((right.map TreeNode.node).getD zero)⟩)

/-- The leaves of `(block, coins, root)` entries, each block once. -/
def leafLevel : List (Nat × Nat × ν) → OrdMap Nat (Option (TreeNode ν)) →
    Result (OrdMap Nat (Option (TreeNode ν)))
  | [], level => .ok level
  | (block, coins, root) :: rest, level =>
    if 1 <<< levels ≤ block then .error invalid
    else if (level.get? block).isSome then .error invalid
    else leafLevel rest (level.insert block (if 0 < coins then some ⟨coins, 1, root⟩ else none))

section Update

variable [DecidableEq ν]

/-- The leaves that differ from the stored ones. -/
def changedLeaves (tree : StoredTree ν) :
    List (Nat × Option (TreeNode ν)) → OrdMap Nat (Option (TreeNode ν)) →
      Result (OrdMap Nat (Option (TreeNode ν)))
  | [], changed => .ok changed
  | (block, leaf) :: rest, changed =>
    match readNode tree 0 block with
    | .error e => .error e
    | .ok stored =>
      changedLeaves tree rest (if stored = leaf then changed else changed.insert block leaf)

/-- Write a level's changed nodes. -/
def writeLevel (tree : StoredTree ν) (level : Nat)
    (changed : OrdMap Nat (Option (TreeNode ν))) : StoredTree ν :=
  fun l i => if l = level then (changed.get? i).getD (tree l i) else tree l i

/-- A child of the level: changed, or as stored. -/
def child (tree : StoredTree ν) (level : Nat) (changed : OrdMap Nat (Option (TreeNode ν)))
    (index : Nat) : Result (Option (TreeNode ν)) :=
  match changed.get? index with
  | some n => .ok n
  | none => readNode tree level index

/-- The parents, at `level + 1`, of a level's changed nodes that differ from
the stored ones. -/
def changedParents (tree : StoredTree ν) (level : Nat)
    (changed : OrdMap Nat (Option (TreeNode ν))) :
    List Nat → OrdMap Nat (Option (TreeNode ν)) → Result (OrdMap Nat (Option (TreeNode ν)))
  | [], parents => .ok parents
  | index :: rest, parents =>
    match child tree level changed (2 * index), child tree level changed (2 * index + 1) with
    | .ok left, .ok right =>
      match parent h level left right with
      | .error e => .error e
      | .ok n =>
        match readNode tree (level + 1) index with
        | .error e => .error e
        | .ok stored =>
          changedParents tree level changed rest
            (if stored = n then parents else parents.insert index n)
    | .error e, _ => .error e
    | _, .error e => .error e

/-- Write the changed nodes of `level` and of the `count` levels above it. -/
def updateLevels : Nat → Nat → StoredTree ν → OrdMap Nat (Option (TreeNode ν)) →
    Result (StoredTree ν)
  | 0, level, tree, changed => .ok (writeLevel tree level changed)
  | count + 1, level, tree, changed =>
    let written := writeLevel tree level changed
    match changedParents h written level changed
      (changed.entries.map fun e => e.1 / 2).dedup .empty with
    | .error e => .error e
    | .ok parents => updateLevels count (level + 1) written parents

/-- Set these blocks' `(coins, root)` and rewrite their ancestors. -/
def update (tree : StoredTree ν) (leaves : List (Nat × Nat × ν)) : Result (StoredTree ν) :=
  match leafLevel leaves .empty with
  | .error e => .error e
  | .ok level =>
    match changedLeaves tree level.entries .empty with
    | .error e => .error e
    | .ok changed =>
      match updateLevels h levels 0 tree changed with
      | .error e => .error e
      | .ok updated =>
        match readNode updated levels 0 with
        | .error e => .error e
        | .ok top =>
          if maxNonemptyBlocks < (top.map TreeNode.blocks).getD 0 then .error invalid
          else .ok updated

end Update

variable {h}

/-- Counts add up, values combine. -/
def treeHasher (h : Hasher ν) : Hasher (TreeNode ν) :=
  ⟨⟨0, 0, h.zero⟩, fun a b => ⟨a.coins + b.coins, a.blocks + b.blocks, h.parent a.node b.node⟩⟩

/-- Block contents `(coins, root)` as placements at the block level. -/
def blockPlace (c : Nat → Option (Nat × ν)) (l i : Nat) : Option (TreeNode ν) :=
  if l = subtreeBits then (c i).map fun v => ⟨v.1, 1, v.2⟩ else none

/-- The accumulator's node at a position, counted from the coins. -/
def content (h : Hasher ν) (c : Nat → Option (Nat × ν)) (l i : Nat) : TreeNode ν :=
  node (treeHasher h) (blockPlace c) l i

/-- A node as it is stored: absent when no block lies under it. -/
def present (t : TreeNode ν) : Option (TreeNode ν) := if t.blocks = 0 then none else some t

/-- The stored tree is the one the block contents determine. -/
def Represents (h : Hasher ν) (tree : StoredTree ν) (c : Nat → Option (Nat × ν)) : Prop :=
  ∀ l i, l ≤ levels → i < 2 ^ (levels - l) → tree l i = present (content h c (subtreeBits + l) i)

theorem zeroNode_treeHasher (l : Nat) : zeroNode (treeHasher h) l = ⟨0, 0, zeroNode h l⟩ := by
  induction l with
  | zero => rfl
  | succ l ih =>
    rw [zeroNode, ih]
    rfl

theorem content_succ (c : Nat → Option (Nat × ν)) {l : Nat} (hl : l + 1 ≠ subtreeBits) (i : Nat) :
    content h c (l + 1) i =
      (treeHasher h).parent (content h c l (2 * i)) (content h c l (2 * i + 1)) :=
  node_succ_of_none (by simp [blockPlace, hl])

/-- The node of a block. -/
theorem content_block (c : Nat → Option (Nat × ν)) (b : Nat) : content h c subtreeBits b =
      ((c b).map fun v => (⟨v.1, 1, v.2⟩ : TreeNode ν)).getD
        (zeroNode (treeHasher h) subtreeBits) := by
  cases hb : c b with
  | some => exact node_of_place (by simp [blockPlace, hb])
  | none =>
    apply node_eq_zeroNode
    rintro l i ⟨hle, rfl⟩
    unfold blockPlace
    split
    · rename_i heq
      subst heq
      simpa using hb
    · rfl

variable {c : Nat → Option (Nat × ν)}

/-- A node without blocks under it is the zero subtree. -/
theorem content_eq_zeroNode {l i : Nat} (hzero : (content h c l i).blocks = 0) :
    content h c l i = zeroNode (treeHasher h) l := by
  apply node_eq_zeroNode
  induction l generalizing i with
  | zero =>
    rintro l' i' ⟨hle, -⟩
    have hne : l' ≠ subtreeBits := by
      have : subtreeBits = 16 := rfl
      omega
    simp [blockPlace, hne]
  | succ l ih =>
    intro l' i' hu
    by_cases hl : l + 1 = subtreeBits
    · rw [hl] at hzero
      rw [content_block] at hzero
      cases hc : c i with
      | some => simp [hc] at hzero
      | none =>
        unfold blockPlace
        split
        · rename_i heq
          obtain ⟨-, hi⟩ := hu
          rw [heq, ← hl] at hi
          have hi' : i' = i := by simpa using hi
          rw [hi', hc]
          rfl
        · rfl
    · rw [content_succ c hl] at hzero
      obtain ⟨hleft, hright⟩ := Nat.add_eq_zero_iff.mp hzero
      rcases under_succ_iff.mp hu with ⟨rfl, rfl⟩ | hu | hu
      · simp [blockPlace, hl]
      · exact ih hleft l' i' hu
      · exact ih hright l' i' hu

variable {c' : Nat → Option (Nat × ν)}

theorem present_inj {l i : Nat} (heq : present (content h c l i) = present (content h c' l i)) :
    content h c l i = content h c' l i := by
  unfold present at heq
  split at heq
  · rename_i hzero
    split at heq
    · rename_i hzero'
      rw [content_eq_zeroNode hzero, content_eq_zeroNode hzero']
    · cases heq
  · split at heq
    · cases heq
    · exact some.inj heq

variable {tree : StoredTree ν}

theorem readNode_ok {l i : Nat} {r : Option (TreeNode ν)} (hr : readNode tree l i = .ok r) :
    r = tree l i ∧ l ≤ levels ∧ i < 2 ^ (levels - l) := by
  unfold readNode at hr
  split at hr
  · cases hr
  refine ⟨?_, by omega, by omega⟩
  split at hr
  · rename_i htree
    cases hr
    exact htree.symm
  · rename_i t htree
    split at hr
    · cases hr
    · cases hr
      exact htree.symm

variable {level : Nat}

/-- The stored parent of two stored children is the stored form of the tree's
own parent. -/
theorem parent_ok {a b : TreeNode ν} {r : Option (TreeNode ν)}
    (ha : a.blocks = 0 → a = zeroNode (treeHasher h) (subtreeBits + level))
    (hb : b.blocks = 0 → b = zeroNode (treeHasher h) (subtreeBits + level))
    (hr : parent h level (present a) (present b) = .ok r) :
    r = present ((treeHasher h).parent a b) := by
  have hfields : ∀ t : TreeNode ν,
      (t.blocks = 0 → t = zeroNode (treeHasher h) (subtreeBits + level)) →
      ((present t).map TreeNode.coins).getD 0 = t.coins ∧
      ((present t).map TreeNode.blocks).getD 0 = t.blocks ∧
      ((present t).map TreeNode.node).getD (zeroNode h (subtreeBits + level)) = t.node := by
    intro t ht
    by_cases hzero : t.blocks = 0
    · rw [ht hzero, zeroNode_treeHasher]
      simp [present]
    · simp [present, hzero]
  obtain ⟨hac, hab, han⟩ := hfields a ha
  obtain ⟨hbc, hbb, hbn⟩ := hfields b hb
  have hnone : ∀ t : TreeNode ν, (present t).isNone = true ↔ t.blocks = 0 := by
    intro t
    by_cases hzero : t.blocks = 0 <;> simp [present, hzero]
  unfold parent at hr
  simp only [hnone, hac, hab, han, hbc, hbb, hbn] at hr
  split at hr
  · rename_i hboth
    cases hr
    simp [present, treeHasher, hboth.1, hboth.2]
  · rename_i hsome
    split at hr
    · cases hr
    · cases hr
      have hne : ¬ (a.blocks = 0 ∧ b.blocks = 0) := hsome
      simp [present, treeHasher, hne]

/-- The block contents after setting these blocks' `(coins, root)`. -/
def setBlocks (c : Nat → Option (Nat × ν)) (leaves : List (Nat × Nat × ν)) (b : Nat) :
    Option (Nat × ν) :=
  match leaves.find? fun x => x.1 = b with
  | some x => if 0 < x.2.1 then some x.2 else none
  | none => c b

variable {leaves : List (Nat × Nat × ν)} {acc : OrdMap Nat (Option (TreeNode ν))}

section Leaves

variable {level : OrdMap Nat (Option (TreeNode ν))} (hlevel : leafLevel leaves acc = .ok level)
include hlevel

/-- A block that is set already is not set again. -/
theorem leafLevel_fresh {b : Nat} (hne : leaves.find? (fun x => x.1 = b) ≠ none) :
    acc.get? b = none := by
  induction leaves generalizing acc level with
  | nil => exact absurd rfl hne
  | cons x rest ih =>
    obtain ⟨block, _, _⟩ := x
    unfold leafLevel at hlevel
    split at hlevel
    · cases hlevel
    split at hlevel
    · cases hlevel
    rename_i hfresh
    by_cases hb : block = b
    · subst hb
      simpa using hfresh
    · have hrec := ih hlevel (by simpa [List.find?_cons, hb] using hne)
      rwa [get?_insert, if_neg hb] at hrec

/-- What `leafLevel` collects. -/
theorem leafLevel_ok : ∀ b, level.get? b = match leaves.find? fun x => x.1 = b with
      | some x => some (if 0 < x.2.1 then some ⟨x.2.1, 1, x.2.2⟩ else none)
      | none => acc.get? b := by
  induction leaves generalizing acc level with
  | nil =>
    intro b
    cases hlevel
    rfl
  | cons x rest ih =>
    intro b
    obtain ⟨block, _, _⟩ := x
    unfold leafLevel at hlevel
    split at hlevel
    · cases hlevel
    split at hlevel
    · cases hlevel
    have hrec := ih hlevel b
    by_cases hb : block = b
    · -- the block is not set again: a second entry would have been refused
      subst hb
      have hnone : rest.find? (fun x => x.1 = block) = none := by
        by_contra hsome
        have hunset := leafLevel_fresh hlevel hsome
        simp at hunset
      simp [hrec, hnone]
    · simp [hb, hrec]

end Leaves

section Update

variable [DecidableEq ν] {changed : OrdMap Nat (Option (TreeNode ν))}

/-- What `changedLeaves` collects: overlaid on the stored leaves it is the
given leaves. -/
theorem changedLeaves_ok {entries : List (Nat × Option (TreeNode ν))}
    (hsorted : entries.Pairwise fun a b => a.1 < b.1) (hfresh : ∀ e ∈ entries, acc.get? e.1 = none)
    (hchanged : changedLeaves tree entries acc = .ok changed) :
    ∀ b, (changed.get? b).getD (tree 0 b) =
      (lookup b entries).getD ((acc.get? b).getD (tree 0 b)) := by
  induction entries generalizing acc changed with
  | nil =>
    intro b
    cases hchanged
    rfl
  | cons e rest ih =>
    intro b
    obtain ⟨block, leaf⟩ := e
    obtain ⟨hhead, htail⟩ := List.pairwise_cons.mp hsorted
    unfold changedLeaves at hchanged
    split at hchanged
    · cases hchanged
    rename_i stored hread
    obtain ⟨rfl, -, -⟩ := readNode_ok hread
    have hnone : acc.get? block = none := hfresh (block, leaf) List.mem_cons_self
    have hfresh' : ∀ e ∈ rest, get?
        (if tree 0 block = leaf then acc else acc.insert block leaf) e.1 = none := by
      intro e he
      have hne : block ≠ e.1 := Nat.ne_of_lt (hhead e he)
      split
      · exact hfresh e (List.mem_cons_of_mem _ he)
      · rw [get?_insert, if_neg hne]
        exact hfresh e (List.mem_cons_of_mem _ he)
    rw [ih htail hfresh' hchanged b]
    by_cases hb : block = b
    · subst hb
      have hrest : lookup block rest = none :=
        lookup_eq_none fun e he => (Nat.ne_of_lt (hhead e he)).symm
      rw [hrest]
      simp only [lookup, if_true, getD_none, getD_some]
      split
      · rename_i heq
        rw [hnone]
        exact heq
      · simp
    · have hsame : get? (if tree 0 block = leaf then acc else acc.insert block leaf) b =
          acc.get? b := by
        split
        · rfl
        · rw [get?_insert, if_neg hb]
      rw [hsame]
      simp [lookup, hb]

/-- What `changedParents` collects for one index. -/
theorem changedParents_ok {indices : List Nat} (hnodup : indices.Nodup)
    {parents : OrdMap Nat (Option (TreeNode ν))} (hfresh : ∀ i ∈ indices, acc.get? i = none)
    (hparents : changedParents h tree level changed indices acc = .ok parents) :
    ∀ i, (i ∉ indices → parents.get? i = acc.get? i) ∧
      (i ∈ indices → ∃ left right n, child tree level changed (2 * i) = .ok left ∧
        child tree level changed (2 * i + 1) = .ok right ∧ parent h level left right = .ok n ∧
        (parents.get? i).getD (tree (level + 1) i) = n) := by
  induction indices generalizing acc parents with
  | nil =>
    intro i
    cases hparents
    simp
  | cons index rest ih =>
    intro i
    obtain ⟨hnot, hrest⟩ := List.nodup_cons.mp hnodup
    unfold changedParents at hparents
    split at hparents
    · rename_i left right hleft hright
      split at hparents
      · cases hparents
      rename_i n hn
      split at hparents
      · cases hparents
      rename_i stored hread
      obtain ⟨rfl, -, -⟩ := readNode_ok hread
      have hne : ∀ {j}, j ≠ index → get?
          (if tree (level + 1) index = n then acc else acc.insert index n) j = acc.get? j := by
        intro j hj
        split
        · rfl
        · rw [get?_insert, if_neg (Ne.symm hj)]
      have hfresh' : ∀ j ∈ rest, get?
          (if tree (level + 1) index = n then acc else acc.insert index n) j = none := by
        intro j hj
        rw [hne (fun heq => hnot (heq ▸ hj))]
        exact hfresh j (List.mem_cons_of_mem _ hj)
      obtain ⟨hout, hin⟩ := ih hrest hfresh' hparents i
      constructor
      · intro hi
        rw [List.mem_cons, not_or] at hi
        rw [hout hi.2, hne hi.1]
      · intro hi
        rcases List.mem_cons.mp hi with rfl | hi
        · refine ⟨left, right, n, hleft, hright, hn, ?_⟩
          rw [hout hnot]
          split
          · rename_i heq
            rw [hfresh i List.mem_cons_self]
            exact heq
          · simp
        · exact hin hi
    · cases hparents
    · cases hparents

/-- A refresh from contents `c` to `c'`: levels below `level` are written, the changed nodes of
`level` known, the rest as before. -/
structure Updating (h : Hasher ν) (c c' : Nat → Option (Nat × ν)) (level : Nat)
    (tree : StoredTree ν) (changed : OrdMap Nat (Option (TreeNode ν))) : Prop where
  below : ∀ l i, l < level → i < 2 ^ (levels - l) →
    tree l i = present (content h c' (subtreeBits + l) i)
  above : ∀ l i, level ≤ l → l ≤ levels → i < 2 ^ (levels - l) →
    tree l i = present (content h c (subtreeBits + l) i)
  here : ∀ i, i < 2 ^ (levels - level) →
    (changed.get? i).getD (tree level i) = present (content h c' (subtreeBits + level) i)

omit [DecidableEq ν] in
/-- Writing a level makes it, too, the new contents' own. -/
theorem Updating.written (hup : Updating h c c' level tree changed) :
    ∀ l i, l ≤ level → i < 2 ^ (levels - l) →
      writeLevel tree level changed l i = present (content h c' (subtreeBits + l) i) := by
  intro l i hle hi
  unfold writeLevel
  split
  · rename_i heq
    subst heq
    exact hup.here i hi
  · exact hup.below l i (by omega) hi

/-- The next level's changed nodes. -/
theorem Updating.next {parents : OrdMap Nat (Option (TreeNode ν))}
    (hup : Updating h c c' level tree changed) (hlt : level < levels)
    (hparents : changedParents h (writeLevel tree level changed) level changed
      (changed.entries.map fun e => e.1 / 2).dedup .empty = .ok parents) :
    Updating h c c' (level + 1) (writeLevel tree level changed) parents := by
  have habove : ∀ l i, level + 1 ≤ l → l ≤ levels → i < 2 ^ (levels - l) →
      writeLevel tree level changed l i = present (content h c (subtreeBits + l) i) := by
    intro l i hle hl hi
    unfold writeLevel
    rw [if_neg (by omega)]
    exact hup.above l i (by omega) hl hi
  refine ⟨fun l i hl hi => hup.written l i (by omega) hi, habove, ?_⟩
  intro i hi
  have hsucc : ∀ c : Nat → Option (Nat × ν), content h c (subtreeBits + (level + 1)) i =
      (treeHasher h).parent (content h c (subtreeBits + level) (2 * i))
        (content h c (subtreeBits + level) (2 * i + 1)) :=
    fun c => content_succ (l := subtreeBits + level) c (by omega) i
  have hexp : 2 ^ (levels - level) = 2 * 2 ^ (levels - (level + 1)) := by
    rw [← pow_succ']
    congr 1
    omega
  obtain ⟨hout, hin⟩ := changedParents_ok (List.nodup_dedup _) (by simp) hparents i
  by_cases hmem : i ∈ (changed.entries.map fun e => e.1 / 2).dedup
  · obtain ⟨_, _, _, hleft, hright, hn, hget⟩ := hin hmem
    have hchild : ∀ j node, j < 2 ^ (levels - level) →
        child (writeLevel tree level changed) level changed j = .ok node →
        node = present (content h c' (subtreeBits + level) j) := by
      intro j node hj hnode
      rw [← hup.here j hj]
      unfold child at hnode
      split at hnode
      · rename_i m hm
        cases hnode
        simp [hm]
      · obtain ⟨rfl, -, -⟩ := readNode_ok hnode
        simp [writeLevel]
    rw [hget, hsucc]
    rw [hchild _ _ (by omega) hleft, hchild _ _ (by omega) hright] at hn
    exact parent_ok content_eq_zeroNode content_eq_zeroNode hn
  · -- neither child changed, so the stored parent is already right
    have hkeep : ∀ j, j / 2 = i → j < 2 ^ (levels - level) →
        content h c (subtreeBits + level) j = content h c' (subtreeBits + level) j := by
      intro j hj hlt'
      apply present_inj
      have hnone : changed.get? j = none := by
        cases hget : changed.get? j with
        | none => rfl
        | some n =>
          refine absurd (List.mem_dedup.mpr (List.mem_map.mpr ⟨(j, n), ?_, hj⟩)) hmem
          exact mem_entries_iff.mpr hget
      rw [← hup.above level j le_rfl (by omega) hlt', ← hup.here j hlt', hnone]
      rfl
    rw [hout hmem, get?_empty, getD_none, habove _ i le_rfl (by omega) hi,
      hsucc c, hsucc c', hkeep (2 * i) (by omega) (by omega),
      hkeep (2 * i + 1) (by omega) (by omega)]

/-- All levels of a refresh. -/
theorem updateLevels_ok (count : Nat) {tree updated : StoredTree ν}
    (hlevel : level + count = levels) (hup : Updating h c c' level tree changed)
    (hupdated : updateLevels h count level tree changed = .ok updated) :
    Represents h updated c' := by
  induction count generalizing level tree updated changed with
  | zero =>
    cases hupdated
    intro l i hl hi
    exact hup.written l i (by omega) hi
  | succ count ih =>
    unfold updateLevels at hupdated
    simp only at hupdated
    split at hupdated
    · cases hupdated
    rename_i parents hparents
    exact ih (by omega) (hup.next (by omega) hparents) hupdated

/-- **A refresh keeps the summary exact.** -/
theorem update_represents {updated : StoredTree ν} (htree : Represents h tree c)
    (hupdated : update h tree leaves = .ok updated) :
    Represents h updated (setBlocks c leaves) := by
  unfold update at hupdated
  split at hupdated
  · cases hupdated
  rename_i level hlevel
  split at hupdated
  · cases hupdated
  rename_i changed hchanged
  split at hupdated
  · cases hupdated
  rename_i written hwritten
  split at hupdated
  · cases hupdated
  split at hupdated
  · cases hupdated
  cases hupdated
  have hup : Updating h c (setBlocks c leaves) 0 tree changed := by
    refine ⟨?_, ?_, ?_⟩
    · intro l i hl
      omega
    · intro l i _ hl hi
      exact htree l i hl hi
    · intro b hb
      rw [changedLeaves_ok level.sorted (by simp) hchanged b, get?_empty, getD_none]
      have hget : lookup b level.entries = level.get? b := rfl
      rw [hget, leafLevel_ok hlevel b, add_zero, content_block]
      unfold setBlocks
      cases hfind : leaves.find? fun x => x.1 = b with
      | some x =>
        by_cases hcoins : 0 < x.2.1
        · simp [hcoins, present]
        · simp [hcoins, present, zeroNode_treeHasher]
      | none =>
        rw [htree 0 b (zero_le _) hb]
        exact congrArg present (content_block c b)
  exact updateLevels_ok levels (zero_add _) hup hwritten

end Update

end SummaryTree

end Token

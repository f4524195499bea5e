import QuilNode.Token.SummaryTree

/-!
# Shard reports (`token_intrinsic/shard_accumulator.rs`)

A shard holding the addresses under bit path `p` owns every block whose path
begins with `p`.  In one width layer those blocks form exactly one subtree of
the accumulator, so the shard reports one node per layer.

`shardReport_ok` says what a report is: the layers that the block contents
determine, whatever summary tree they were read from.
-/

namespace Token

namespace ShardAccumulator

open SparseTree CoinBlocks SummaryTree List OrdMap Nat ShardedTree

variable {ν : Type*}

def invalid (msg : String) : QuilError :=
  .invalidArgument ("accumulator report: " ++ msg)

/-- Width layers a report can hold. -/
def maxLayers : Nat := maxBlockBits - initialBlockBits + 1

/-- One width layer of a shard's part of the accumulator. -/
structure SubtreeReport (ν : Type*) where
  width : Nat
  coins : Nat
  root : ν
  deriving DecidableEq

/-- What a shard holds of a block on its own path that it is too deep to own. -/
structure BlockAttestation where
  block : Nat
  coins : Nat
  escrows : Nat
  deriving DecidableEq

structure ShardReport (ν : Type*) where
  context : Bytes32
  subtrees : List (SubtreeReport ν)
  attestations : List BlockAttestation
  deriving DecidableEq

/-- Whether every item's key is above the one before it. -/
def ascending {α : Type*} (key : α → Nat) : List α → Bool
  | a :: b :: rest => decide (key a < key b) && ascending key (b :: rest)
  | _ => true

/-- The structural check of a report. -/
def ShardReport.validate (report : ShardReport ν) : Result Unit :=
  if (report.subtrees.isEmpty && report.attestations.isEmpty) ||
      decide (maxLayers < report.subtrees.length) then
    .error (invalid "a report carries 1..=MAX_LAYERS layers, or only attestations")
  else if decide (maxLayers < report.attestations.length) ||
      !ascending BlockAttestation.block report.attestations ||
      report.attestations.any fun a => !isAllocatedWidth maxBlockBits a.block then
    .error (invalid "attestations name distinct valid blocks in ascending order")
  else if !ascending SubtreeReport.width report.subtrees then
    .error (invalid "layers must be in strictly ascending width")
  else if report.subtrees.any fun x =>
      decide (x.coins = 0) || decide (x.width < initialBlockBits) ||
        decide (maxBlockBits < x.width) then
    .error (invalid "every layer holds coins at a valid width")
  else .ok ()

/-- Where a shard's subtree sits in the accumulator: `(level, index)`, counted from the leaves.  A
shard deeper than a layer's width is refused. -/
def subtreePosition (width : Nat) (shard : List Bool) : Result (Nat × Nat) :=
  if width < initialBlockBits ∨ maxBlockBits < width then
    .error (invalid "width outside the accumulator's range")
  else if width < shard.length then
    .error (invalid "a shard deeper than a layer's width owns part of a block")
  else .ok (subtreeBits + width - shard.length, 1 <<< shard.length ||| pathValue shard)

/-- The layers of a report: per width, the stored node over the shard's range. -/
def reportLayers (tree : StoredTree ν) (shard : List Bool) :
    List Nat → Result (List (SubtreeReport ν))
  | [] => .ok []
  | width :: widths =>
    if width < shard.length then reportLayers tree shard widths
    else
      match subtreePosition width shard with
      | .error e => .error e
      | .ok (level, index) =>
        match subtree tree level index with
        | .error e => .error e
        | .ok none => reportLayers tree shard widths
        | .ok (some n) =>
          match reportLayers tree shard widths with
          | .error e => .error e
          | .ok layers => .ok (⟨width, n.coins, n.node⟩ :: layers)

/-- The widths the accumulator allows. -/
def widths : List Nat := List.range' initialBlockBits maxLayers

/-- A shard's report from its stored summary tree, or none when it holds no
coins and attests nothing. -/
def shardReport (ctx : Bytes32) (tree : StoredTree ν) (shard : List Bool)
    (attestations : List BlockAttestation) : Result (Option (ShardReport ν)) :=
  match reportLayers tree shard widths with
  | .error e => .error e
  | .ok layers =>
    if layers.isEmpty && attestations.isEmpty then .ok none
    else .ok (some ⟨ctx, layers, attestations⟩)

/-- The positions of reported subtrees `(width, shard, root)`. -/
def subtreeNodes : List (Nat × List Bool × ν) → Result (List (Nat × Nat × ν))
  | [] => .ok []
  | (width, shard, root) :: rest =>
    match subtreePosition width shard with
    | .error e => .error e
    | .ok (level, index) =>
      match subtreeNodes rest with
      | .error e => .error e
      | .ok nodes => .ok ((level, index, root) :: nodes)

/-- The text a fold error is reported with. -/
def foldError : ShardedTree.TreeError → QuilError
  | .capacity => invalid "fold: Capacity"
  | .depth => invalid "fold: Depth"
  | .duplicateAddress => invalid "fold: DuplicateAddress"
  | .position => invalid "fold: Position"
  | .missingCoin => invalid "fold: MissingCoin"
  | .encoding => invalid "fold: Encoding"
  | .context => invalid "fold: Context"

/-- The application root from its shards' subtrees. -/
def foldApplicationRoot (h : Hasher ν) (subtrees : List (Nat × List Bool × ν)) : Result ν :=
  match subtreeNodes subtrees with
  | .error e => .error e
  | .ok nodes =>
    match ShardedTree.foldSparse h depth nodes with
    | .error e => .error (foldError e)
    | .ok root => .ok root

/-- The level of a shard's subtree in a width layer. -/
def layerLevel (width : Nat) (shard : List Bool) : Nat := subtreeBits + (width - shard.length)

/-- The index of a shard's subtree. -/
def layerIndex (shard : List Bool) : Nat := 2 ^ shard.length + pathValue shard

/-- Widths the accumulator has and a shard can report at. -/
def Reportable (width : Nat) (shard : List Bool) : Prop :=
  initialBlockBits ≤ width ∧ width ≤ maxBlockBits ∧ shard.length ≤ width

variable {shard : List Bool} {width : Nat}

theorem subtreePosition_ok_iff {p : Nat × Nat} : subtreePosition width shard = .ok p ↔
      Reportable width shard ∧ p = (layerLevel width shard, layerIndex shard) := by
  have hindex : 1 <<< shard.length ||| pathValue shard = layerIndex shard := by
    have hor := two_pow_add_eq_or_of_lt (pathValue_lt shard) 1
    rw [one_shiftLeft, layerIndex]
    simpa using hor.symm
  unfold subtreePosition Reportable
  rw [hindex]
  split
  · simp only [reduceCtorEq, false_iff, not_and]
    omega
  split
  · simp only [reduceCtorEq, false_iff, not_and]
    omega
  have hlevel : subtreeBits + width - shard.length = layerLevel width shard := by
    unfold layerLevel
    omega
  rw [hlevel, Except.ok.injEq, eq_comm]
  constructor
  · intro hp
    exact ⟨⟨by omega, by omega, by omega⟩, hp⟩
  · exact fun hp => hp.2

/-- A reported subtree lies below the root, and inside its level. -/
theorem Reportable.range (hr : Reportable width shard) : layerLevel width shard < depth ∧
      layerIndex shard < 2 ^ (depth - layerLevel width shard) := by
  obtain ⟨_, _, _⟩ := hr
  have hconst : depth = 32 ∧ subtreeBits = 16 ∧ maxBlockBits = 15 := ⟨rfl, rfl, rfl⟩
  have hlt := pathValue_lt shard
  unfold layerLevel layerIndex
  refine ⟨by omega, ?_⟩
  calc 2 ^ shard.length + pathValue shard < 2 ^ (shard.length + 1) := by
        omega
    _ ≤ 2 ^ (depth - (subtreeBits + (width - shard.length))) :=
        Nat.pow_le_pow_right (by omega) (by omega)

/-- The blocks below a shard's subtree are the shard's blocks of the width. -/
theorem under_layer_iff {block : Nat} (hpos : 0 < block) (hle : shard.length ≤ width) :
    Under subtreeBits block (layerLevel width shard) (layerIndex shard) ↔
      creationWidth block = width ∧ shard <+: blockPath block := by
  rw [owned_iff_div hpos hle]
  unfold Under layerLevel layerIndex
  rw [Nat.add_sub_cancel_left]
  constructor
  · exact fun hu => hu.2
  · exact fun hdiv => ⟨le_add_right _ _, hdiv⟩

/-- Every reported subtree has a block below it. -/
theorem Reportable.exists_block (hr : Reportable width shard) :
    ∃ block, 0 < block ∧ creationWidth block = width ∧ shard <+: blockPath block := by
  obtain ⟨_, _, _⟩ := hr
  have hlen : (shard ++ replicate (width - shard.length) false).length = width := by
    rw [length_append, length_replicate]
    omega
  have hlt := pathValue_lt (shard ++ replicate (width - shard.length) false)
  have hid : blockId (shard ++ replicate (width - shard.length) false).length
      (pathValue (shard ++ replicate (width - shard.length) false)) =
        .ok (2 ^ (shard ++ replicate (width - shard.length) false).length +
          pathValue (shard ++ replicate (width - shard.length) false)) :=
    blockId_ok_iff.mpr ⟨by omega, by omega, hlt, rfl⟩
  obtain ⟨hwidth, hpath⟩ := blockPath_blockId hid
  refine ⟨_, ?_, hwidth.trans hlen, ?_⟩
  · omega
  · rw [hpath]
    exact prefix_append _ _

/-- One reported subtree lies inside another exactly when their widths agree and the other's shard
is an ancestor. -/
theorem Reportable.under_iff {width' : Nat} {shard' : List Bool} (hr : Reportable width shard)
    (hr' : Reportable width' shard') :
    Under (layerLevel width shard) (layerIndex shard) (layerLevel width' shard')
      (layerIndex shard') ↔ width = width' ∧ shard' <+: shard := by
  constructor
  · intro hu
    obtain ⟨_, hpos, hwidth, hpath⟩ := hr.exists_block
    have hbelow := (under_layer_iff hpos hr.2.2).mpr ⟨hwidth, hpath⟩
    obtain ⟨hwidth', hpath'⟩ := (under_layer_iff hpos hr'.2.2).mp (hbelow.trans hu)
    have hsame : width = width' := hwidth.symm.trans hwidth'
    subst hsame
    refine ⟨rfl, prefix_of_prefix_length_le hpath' hpath ?_⟩
    have hlevel := hu.1
    unfold layerLevel at hlevel
    have hle' := hr'.2.2
    omega
  · rintro ⟨rfl, rest, rfl⟩
    have hle := hr.2.2
    rw [length_append] at hle
    refine ⟨by simp only [layerLevel, length_append]; omega, ?_⟩
    have hexp : layerLevel width shard' - layerLevel width (shard' ++ rest) = rest.length := by
      simp only [layerLevel, length_append]
      omega
    have hindex : layerIndex (shard' ++ rest) =
        2 ^ rest.length * layerIndex shard' + pathValue rest := by
      simp only [layerIndex, length_append, pathValue_append, pow_add]
      ring
    rw [hexp, hindex, Nat.mul_add_div (Nat.two_pow_pos _), Nat.div_eq_of_lt (pathValue_lt rest),
      add_zero]

/-- The contents of an application's blocks: `(coins, root)` of every non-empty
block. -/
structure Blocks (ν : Type*) where
  map : OrdMap Nat (Nat × ν)
  valid : ∀ block v, map.get? block = some v → isAllocatedWidth maxBlockBits block = true ∧ 0 < v.1

/-- No block holds coins. -/
def Blocks.empty : Blocks ν := ⟨.empty, by simp⟩

variable {h : Hasher ν}

/-- Blocks and coins under a stored node pass the record's own check. -/
theorem content_bounds (c : Blocks ν) (l i : Nat) :
    (content h c.map.get? (subtreeBits + l) i).blocks ≤ 2 ^ l ∧
      (content h c.map.get? (subtreeBits + l) i).blocks ≤
        (content h c.map.get? (subtreeBits + l) i).coins := by
  induction l generalizing i with
  | zero =>
    rw [add_zero, content_block]
    cases hv : c.map.get? i with
    | none => simp [zeroNode_treeHasher]
    | some v =>
      have hcoins : 1 ≤ v.1 := (c.valid i v hv).2
      simpa using hcoins
  | succ l ih =>
    have hsucc := content_succ (h := h) (l := subtreeBits + l) c.map.get? (by omega) i
    have hleft := ih (2 * i)
    have hright := ih (2 * i + 1)
    rw [add_assoc] at hsucc
    rw [hsucc, pow_succ]
    simp only [treeHasher]
    omega

variable {c : Blocks ν}

theorem readNode_represents {tree : StoredTree ν} (htree : Represents h tree c.map.get?)
    {l i : Nat} (hl : l ≤ levels) (hi : i < 2 ^ (levels - l)) :
    readNode tree l i = .ok (present (content h c.map.get? (subtreeBits + l) i)) := by
  obtain ⟨hblocks, hcoins⟩ := content_bounds (h := h) c l i
  unfold readNode
  rw [if_neg (by rw [one_shiftLeft]; omega), htree l i hl hi]
  generalize content h c.map.get? (subtreeBits + l) i = t at hblocks hcoins
  by_cases hzero : t.blocks = 0
  · simp [present, hzero]
  · have hcheck : ¬ (2 ^ l < t.blocks ∨ t.coins < t.blocks) := by omega
    simp only [present, hzero, if_false, one_shiftLeft, hcheck, false_or]

/-- A shard's node in one width layer. -/
def layer (h : Hasher ν) (c : Blocks ν) (shard : List Bool) (width : Nat) : TreeNode ν :=
  content h c.map.get? (layerLevel width shard) (layerIndex shard)

/-- The layers that the block contents determine: one per width the shard can
report at and holds coins in. -/
def layersOf (h : Hasher ν) (c : Blocks ν) (shard : List Bool) : List (SubtreeReport ν) :=
  widths.filterMap fun width =>
    if width < shard.length then none
    else (present (layer h c shard width)).map fun t => ⟨width, t.coins, t.node⟩

theorem mem_widths : width ∈ widths ↔ initialBlockBits ≤ width ∧ width ≤ maxBlockBits := by
  have hconst : maxLayers = 10 ∧ initialBlockBits = 6 ∧ maxBlockBits = 15 := ⟨rfl, rfl, rfl⟩
  simp only [widths, mem_range'_1]
  omega

theorem mem_layersOf {x : SubtreeReport ν} :
    x ∈ layersOf h c shard ↔ Reportable x.width shard ∧ (layer h c shard x.width).blocks ≠ 0 ∧
      x.coins = (layer h c shard x.width).coins ∧ x.root = (layer h c shard x.width).node := by
  simp only [layersOf, mem_filterMap, mem_widths, Reportable, present]
  constructor
  · rintro ⟨width, hwidth, hx⟩
    split at hx
    · cases hx
    split at hx
    · cases hx
    rename_i hlen hblocks
    cases hx
    exact ⟨⟨hwidth.1, hwidth.2, by simpa using hlen⟩, hblocks, rfl, rfl⟩
  · rintro ⟨⟨hlo, hhi, hlen⟩, hblocks, hcoins, hroot⟩
    refine ⟨x.width, ⟨hlo, hhi⟩, ?_⟩
    rw [if_neg (by omega), if_neg hblocks]
    simp [← hcoins, ← hroot]

theorem layer_mem_layersOf (hw : Reportable width shard)
    (hblocks : (layer h c shard width).blocks ≠ 0) :
    (⟨width, (layer h c shard width).coins, (layer h c shard width).node⟩ : SubtreeReport ν) ∈
      layersOf h c shard :=
  mem_layersOf.mpr ⟨hw, hblocks, rfl, rfl⟩

/-- **A report says what the blocks hold**: read from a summary tree of the block contents, it is
the contents' own layers. -/
theorem shardReport_ok {tree : StoredTree ν} (htree : Represents h tree c.map.get?)
    (ctx : Bytes32) (shard : List Bool) (attestations : List BlockAttestation) :
    shardReport ctx tree shard attestations =
      if (layersOf h c shard).isEmpty && attestations.isEmpty then .ok none
      else .ok (some ⟨ctx, layersOf h c shard, attestations⟩) := by
  have hlayers : ∀ ws : List Nat, (∀ w ∈ ws, w ∈ widths) → reportLayers tree shard ws =
      .ok (ws.filterMap fun width =>
        if width < shard.length then none
        else (present (layer h c shard width)).map fun t => ⟨width, t.coins, t.node⟩) := by
    intro ws
    induction ws with
    | nil => intro _; rfl
    | cons width ws ih =>
      intro hws
      have hrec := ih fun w hw => hws w (mem_cons_of_mem _ hw)
      by_cases hlen : width < shard.length
      · simp [reportLayers, hlen, hrec]
      obtain ⟨hlo, hhi⟩ := mem_widths.mp (hws width mem_cons_self)
      have hr : Reportable width shard := ⟨hlo, hhi, by omega⟩
      have hpos := subtreePosition_ok_iff.mpr ⟨hr, rfl⟩
      have hconst : levels = 16 ∧ subtreeBits = 16 ∧ depth = 32 ∧ maxBlockBits = 15 :=
        ⟨rfl, rfl, rfl, rfl⟩
      have hrange := hr.range
      have hread : subtree tree (layerLevel width shard) (layerIndex shard) =
          .ok (present (layer h c shard width)) := by
        have hlevel : layerLevel width shard - subtreeBits = width - shard.length := by
          unfold layerLevel
          omega
        have hexp : levels - (width - shard.length) = depth - layerLevel width shard := by
          unfold layerLevel
          omega
        unfold subtree
        rw [if_neg (by unfold layerLevel; omega), hlevel,
          readNode_represents htree (by omega) (by rw [hexp]; exact hrange.2)]
        rfl
      simp only [reportLayers, hlen, if_false, hpos, hread, filterMap_cons]
      by_cases hblocks : (layer h c shard width).blocks = 0 <;> simp [present, hblocks, hrec]
  unfold shardReport
  rw [hlayers widths fun w hw => hw]
  rfl

/-- The blocks as nodes of the accumulator. -/
def blockNodes (c : Blocks ν) : List (Nat × Nat × ν) :=
  c.map.entries.map fun e => (subtreeBits, e.1, e.2.2)

/-- The coins of all blocks. -/
def totalCoins (c : Blocks ν) : Nat := (c.map.entries.map fun e => e.2.1).sum

/-- Nodes at the block level, one per entry of the contents, are placed apart. -/
theorem prefixFree_blocks {μ : Type*} (c : Blocks ν) (f : Nat × ν → μ) :
    PrefixFree (c.map.entries.map fun e => (subtreeBits, e.1, f e.2)) :=
  prefixFree_row subtreeBits Prod.fst (fun e => f e.2) (c.map.sorted.imp ne_of_lt)

theorem placeOf_blocks {μ : Type*} (c : Blocks ν) (f : Nat × ν → μ) (l i : Nat) :
    placeOf (c.map.entries.map fun e => (subtreeBits, e.1, f e.2)) l i =
      if l = subtreeBits then (c.map.get? i).map f else none := by
  apply Option.ext
  intro n
  rw [(prefixFree_blocks c f).placeOf_eq_some_iff, mem_map]
  constructor
  · rintro ⟨e, he, heq⟩
    cases heq
    simp [mem_entries_iff.mp he]
  · intro hplace
    split at hplace
    · rename_i hl
      obtain ⟨v, hv, rfl⟩ := Option.map_eq_some_iff.mp hplace
      exact ⟨(i, v), mem_entries_iff.mpr hv, by rw [hl]⟩
    · cases hplace

/-- A block lies below the root. -/
theorem block_lt {block : Nat} {v : Nat × ν} (hv : c.map.get? block = some v) :
    block < 2 ^ blockIndexBits := by
  obtain ⟨_, -, _⟩ := isAllocatedWidth_iff.mp (c.valid block v hv).1
  have hlog : block < 2 ^ (creationWidth block + 1) := ((log2_eq_iff (by omega)).mp rfl).2
  exact hlog.trans_le (Nat.pow_le_pow_right (by omega) (by unfold blockIndexBits; omega))

/-- A view of the tree's nodes that respects zero and parents, from the view of
the blocks. -/
theorem content_view {μ : Type*} {g : Hasher μ} (f : TreeNode ν → μ)
    (hzero : f (treeHasher h).zero = g.zero)
    (hparent : ∀ a b, f ((treeHasher h).parent a b) = g.parent (f a) (f b)) (c : Blocks ν)
    (l i : Nat) :
    f (content h c.map.get? l i) = node g
      (placeOf (c.map.entries.map fun e => (subtreeBits, e.1, f ⟨e.2.1, 1, e.2.2⟩))) l i := by
  refine (node_hom (blockPlace c.map.get?) f hzero hparent l i).trans ?_
  apply node_congr
  intro l i _
  rw [placeOf_blocks c fun v => f ⟨v.1, 1, v.2⟩]
  unfold blockPlace
  split
  · rw [Option.map_map]
    rfl
  · rfl

/-- The code's own fold over all blocks is the root of the tree they determine. -/
theorem foldSparse_blockNodes (c : Blocks ν) :
    foldSparse h depth (blockNodes c) = .ok (content h c.map.get? depth 0).node := by
  have hconst : depth = 32 ∧ subtreeBits = 16 ∧ blockIndexBits = 16 ∧
      maxDepth = 32 := ⟨rfl, rfl, rfl, rfl⟩
  rw [content_view TreeNode.node rfl (fun _ _ => rfl)]
  apply foldSparse_ok (by omega) (by omega) (prefixFree_blocks c Prod.snd)
  intro x hx
  obtain ⟨_, he, rfl⟩ := mem_map.mp hx
  have hlt := block_lt (mem_entries_iff.mp he)
  refine ⟨by simp only; omega, ?_⟩
  exact hlt

/-- The coins of all blocks are the root's. -/
theorem totalCoins_eq (c : Blocks ν) : totalCoins c = (content h c.map.get? depth 0).coins := by
  have hconst : depth = 32 ∧ subtreeBits = 16 ∧ blockIndexBits = 16 := ⟨rfl, rfl, rfl⟩
  rw [@content_view _ h _ adder TreeNode.coins rfl (fun _ _ => rfl),
    node_sum _ (prefixFree_blocks c Prod.fst), map_map]
  · rfl
  · intro x hx
    obtain ⟨_, he, rfl⟩ := mem_map.mp hx
    have hlt := block_lt (mem_entries_iff.mp he)
    refine ⟨by simp only; omega, ?_⟩
    exact div_eq_of_lt hlt

end ShardAccumulator

end Token

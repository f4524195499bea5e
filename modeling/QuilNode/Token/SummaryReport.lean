import QuilNode.Lib.Results
import QuilNode.Token.RootConvergence

/-!
# Reports folded from a flat summary (`token_intrinsic/shard_accumulator.rs`)

`report_from_summary` folds a shard's report from the list of all blocks.  The blocks of one width
below a shard's position are the shard's own, so the fold is the tree's node there (`layer_view`)
and the report is the one read from a stored tree (`reportFromSummary_ok`).  Reports of a complete
prefix-free set of shards then fold to the root over all blocks.
-/

namespace Token

namespace ShardAccumulator

open SparseTree CoinBlocks SummaryTree List OrdMap PrefixCode GlobalAccumulator TreeNode

variable {ν : Type*}

/-- The shard's blocks that hold coins, by creation width. -/
def collectLayers (shard : List Bool) :
    List (Nat × Nat × ν) → OrdMap Nat (List (Nat × Nat × ν)) → OrdMap Nat (List (Nat × Nat × ν))
  | [], layers => layers
  | x :: rest, layers =>
    if 0 < x.2.1 ∧ shardOwnsBlock shard x.1 = true then
      collectLayers shard rest (layers.insert (creationWidth x.1)
        ((layers.get? (creationWidth x.1)).getD [] ++ [x]))
    else collectLayers shard rest layers

/-- The root of one layer's blocks.  A fold to the nodes' own level is refused, so a single block is
its own root. -/
def layerRoot (h : Hasher ν) (level index : Nat) (blocks : List (Nat × Nat × ν)) : Result ν :=
  let firstBlock := index <<< (level - subtreeBits)
  let nodes := blocks.map fun x => (subtreeBits, x.1 - firstBlock, x.2.2)
  if level = subtreeBits then
    match nodes with
    | [(_, 0, root)] => .ok root
    | _ => .error (invalid "a one-block subtree holds exactly its block")
  else
    match ShardedTree.foldSparse h level nodes with
    | .error e => .error (foldError e)
    | .ok root => .ok root

/-- One layer of the report.  Coins are counted in a `u64`. -/
def summaryLayer (h : Hasher ν) (shard : List Bool) (width : Nat)
    (blocks : List (Nat × Nat × ν)) : Result (SubtreeReport ν) :=
  match subtreePosition width shard with
  | .error e => .error e
  | .ok (level, index) =>
    match layerRoot h level index blocks with
    | .error e => .error e
    | .ok root =>
      let coins := (blocks.map fun x => x.2.1).sum
      if 2 ^ 64 ≤ coins then .error (invalid "coin count overflow") else .ok ⟨width, coins, root⟩

/-- A shard's report from the flat summary, `(block, coins, root)` ascending. -/
def reportFromSummary (h : Hasher ν) (ctx : Bytes32) (shard : List Bool)
    (summary : List (Nat × Nat × ν)) (attestations : List BlockAttestation) :
    Result (Option (ShardReport ν)) :=
  match (collectLayers shard summary .empty).entries.mapM fun e => summaryLayer h shard e.1 e.2 with
  | .error e => .error e
  | .ok subtrees =>
    if subtrees.isEmpty && attestations.isEmpty then .ok none
    else .ok (some ⟨ctx, subtrees, attestations⟩)

/-- The shard's blocks of one width that hold coins. -/
def ownBlocks (shard : List Bool) (summary : List (Nat × Nat × ν)) (width : Nat) :
    List (Nat × Nat × ν) :=
  summary.filter fun x => (0 < x.2.1 ∧ shardOwnsBlock shard x.1 = true) ∧ creationWidth x.1 = width

variable {h : Hasher ν} {c : Blocks ν} {shard : List Bool} {width : Nat}

theorem get?_collectLayers (summary : List (Nat × Nat × ν))
    (layers : OrdMap Nat (List (Nat × Nat × ν))) :
    (collectLayers shard summary layers).get? width =
      if ownBlocks shard summary width = [] then layers.get? width
      else some ((layers.get? width).getD [] ++ ownBlocks shard summary width) := by
  induction summary generalizing layers with
  | nil => simp [collectLayers, ownBlocks]
  | cons x rest ih =>
    rw [collectLayers]
    unfold ownBlocks at ih ⊢
    by_cases hown : 0 < x.2.1 ∧ shardOwnsBlock shard x.1 = true
    · rw [if_pos hown, ih, get?_insert, filter_cons]
      by_cases hwidth : creationWidth x.1 = width
      · subst hwidth
        simp only [hown, and_self, decide_true, if_true, Option.getD_some, append_assoc,
          singleton_append, reduceCtorEq, if_false]
        split
        · rename_i hnil
          rw [hnil]
        · rfl
      · simp only [hwidth, and_false, decide_false, Bool.false_eq_true, if_false]
    · rw [if_neg hown, ih, filter_cons_of_neg (by simp [hown])]

theorem mem_ownBlocks {x : Nat × Nat × ν} : x ∈ ownBlocks shard c.map.entries width ↔
      x ∈ c.map.entries ∧ creationWidth x.1 = width ∧ shard <+: blockPath x.1 := by
  have hcoins : x ∈ c.map.entries → 0 < x.2.1 := fun hx =>
    (c.valid x.1 x.2 (mem_entries_iff.mp hx)).2
  simp only [ownBlocks, mem_filter, decide_eq_true_eq, shardOwnsBlock_iff]
  tauto

/-- A block in a layer makes the shard report at its width. -/
theorem reportable_of_mem {x : Nat × Nat × ν} (hx : x ∈ ownBlocks shard c.map.entries width) :
    Reportable width shard ∧ Under subtreeBits x.1 (layerLevel width shard) (layerIndex shard) := by
  obtain ⟨hmem, hwidth, hpath⟩ := mem_ownBlocks.mp hx
  obtain ⟨hpos, hlo, hhi⟩ := isAllocatedWidth_iff.mp (c.valid x.1 x.2 (mem_entries_iff.mp hmem)).1
  have hle := hpath.length_le
  rw [blockPath_length, hwidth] at hle
  exact ⟨⟨hwidth ▸ hlo, hwidth ▸ hhi, hle⟩, (under_layer_iff hpos hle).mpr ⟨hwidth, hpath⟩⟩

theorem sorted_ownBlocks : (ownBlocks shard c.map.entries width).Pairwise fun a b => a.1 < b.1 :=
  c.map.sorted.filter _

/-- A layer's node, viewed over the shard's own blocks. -/
theorem layer_view {μ : Type*} {g : Hasher μ} (f : TreeNode ν → μ)
    (hzero : f (treeHasher h).zero = g.zero)
    (hparent : ∀ a b, f ((treeHasher h).parent a b) = g.parent (f a) (f b))
    (hr : Reportable width shard) :
    f (layer h c shard width) = node g (placeOf ((ownBlocks shard c.map.entries width).map fun x =>
      (subtreeBits, x.1, f ⟨x.2.1, 1, x.2.2⟩))) (layerLevel width shard) (layerIndex shard) := by
  have hfree := prefixFree_blocks c fun v => f ⟨v.1, 1, v.2⟩
  have hown := prefixFree_row subtreeBits Prod.fst (fun x => f ⟨x.2.1, 1, x.2.2⟩)
    ((@sorted_ownBlocks _ c shard width).imp Nat.ne_of_lt)
  rw [layer, content_view f hzero hparent]
  apply node_congr
  intro l i hu
  apply Option.ext
  intro n
  rw [hfree.placeOf_eq_some_iff, hown.placeOf_eq_some_iff, mem_map, mem_map]
  refine exists_congr fun e => and_congr_left fun heq => ?_
  obtain ⟨rfl, rfl, -⟩ : subtreeBits = l ∧ e.1 = i ∧ f ⟨e.2.1, 1, e.2.2⟩ = n := by
    simpa [Prod.ext_iff] using heq
  refine ⟨fun he => mem_ownBlocks.mpr ⟨he, ?_⟩, fun he => (mem_ownBlocks.mp he).1⟩
  have hpos := (isAllocatedWidth_iff.mp (c.valid e.1 e.2 (mem_entries_iff.mp he)).1).1
  exact (under_layer_iff hpos hr.2.2).mp hu

/-- What adds up over a layer is the sum over the shard's blocks. -/
theorem layer_sum (f : TreeNode ν → Nat) (hzero : f (treeHasher h).zero = 0)
    (hparent : ∀ a b, f ((treeHasher h).parent a b) = f a + f b) (hr : Reportable width shard) :
    f (layer h c shard width) =
      ((ownBlocks shard c.map.entries width).map fun x => f ⟨x.2.1, 1, x.2.2⟩).sum := by
  rw [@layer_view _ h c shard width _ adder f hzero hparent hr,
    node_sum _ (prefixFree_row subtreeBits Prod.fst _ (sorted_ownBlocks.imp ne_of_lt)),
    map_map]
  · rfl
  · intro y hy
    obtain ⟨_, hx, rfl⟩ := mem_map.mp hy
    exact (reportable_of_mem hx).2

theorem layer_blocks_ne_zero (hr : Reportable width shard) :
    (layer h c shard width).blocks ≠ 0 ↔ ownBlocks shard c.map.entries width ≠ [] := by
  rw [layer_sum blocks rfl (fun _ _ => rfl) hr, map_const', sum_replicate]
  simp

/-- **The fold of a layer is the tree's node.** -/
theorem layerRoot_ok (hsome : ownBlocks shard c.map.entries width ≠ []) :
    layerRoot h (layerLevel width shard) (layerIndex shard) (ownBlocks shard c.map.entries width) =
      .ok (layer h c shard width).node := by
  obtain ⟨x, hx⟩ := exists_mem_of_ne_nil _ hsome
  have hr := (reportable_of_mem hx).1
  have hunder := fun x hx => (@reportable_of_mem _ c shard width x hx).2
  rw [layer_view node rfl (fun _ _ => rfl) hr]
  generalize hblocks : ownBlocks shard c.map.entries width = blocks at hx hunder
  have hsorted := hblocks ▸ sorted_ownBlocks
  have hedge : ∀ x ∈ blocks, layerIndex shard * 2 ^ (layerLevel width shard - subtreeBits) ≤ x.1 :=
    fun x hx => (hunder x hx).2 ▸ Nat.div_mul_le_self ..
  unfold layerRoot
  rw [Nat.shiftLeft_eq]
  by_cases hlevel : layerLevel width shard = subtreeBits
  · -- every block of the layer is the one at the shard's own position
    have hone : ∀ x ∈ blocks, x.1 = layerIndex shard := fun x hx => by
      simpa [hlevel] using (hunder x hx).2
    have hsingle : blocks = [x] := by
      match blocks, hx, hsorted, hone with
      | [y], hx, _, _ => rw [mem_singleton.mp hx]
      | a :: b :: rest, _, hsorted, hone =>
        have hlt := (pairwise_cons.mp hsorted).1 b mem_cons_self
        have ha := hone a mem_cons_self
        have hb := hone b (mem_cons_of_mem a mem_cons_self)
        omega
    rw [hsingle, hlevel, ← hone x hx]
    simp [node_of_place (h := h) (show placeOf [(subtreeBits, x.1, x.2.2)] subtreeBits x.1 = some x.2.2
      by simp [placeOf])]
  · have hconst : ShardedTree.maxDepth = 32 ∧ depth = 32 := ⟨rfl, rfl⟩
    have hrange := hr.range
    have hbelow : subtreeBits ≤ layerLevel width shard := Nat.le_add_right ..
    have hfold := @ShardedTree.foldSparse_ok _ h (blocks.map fun x => (subtreeBits,
        x.1 - layerIndex shard * 2 ^ (layerLevel width shard - subtreeBits), x.2.2))
      (layerLevel width shard) (by omega) (by omega) ?_ ?_
    · have hnode := @node_renumbered _ h (blocks.map fun x => (subtreeBits, x.1, x.2.2))
        (layerLevel width shard) (layerIndex shard) fun y hy => by
          obtain ⟨x, hx, rfl⟩ := mem_map.mp hy
          exact hunder x hx
      rw [map_map] at hnode
      rw [if_neg hlevel, hfold, ← hnode]
      rfl
    · refine prefixFree_row subtreeBits _ _ (hsorted.imp_of_mem fun {a b} ha hb hlt => ?_)
      have := hedge a ha
      omega
    · intro y hy
      obtain ⟨x, hx, rfl⟩ := mem_map.mp hy
      refine ⟨by dsimp only; omega, ?_⟩
      have hdiv := Nat.div_add_mod x.1 (2 ^ (layerLevel width shard - subtreeBits))
      rw [(hunder x hx).2, mul_comm] at hdiv
      dsimp only
      omega

theorem summaryLayer_ok (hcoins : totalCoins c < 2 ^ 64)
    (hsome : ownBlocks shard c.map.entries width ≠ []) :
    summaryLayer h shard width (ownBlocks shard c.map.entries width) =
      .ok ⟨width, (layer h c shard width).coins, (layer h c shard width).node⟩ := by
  obtain ⟨x, hx⟩ := exists_mem_of_ne_nil _ hsome
  have hr := (reportable_of_mem hx).1
  have hle : ((ownBlocks shard c.map.entries width).map fun x => x.2.1).sum ≤ totalCoins c :=
    (filter_sublist.map _).sum_le_sum fun _ _ => Nat.zero_le _
  unfold summaryLayer
  rw [subtreePosition_ok_iff.mpr ⟨hr, rfl⟩, layer_sum coins rfl (fun _ _ => rfl) hr]
  simp only [layerRoot_ok hsome]
  rw [if_neg (by omega)]

theorem mem_collectLayers {e : Nat × List (Nat × Nat × ν)} :
    e ∈ (collectLayers shard c.map.entries .empty).entries ↔
      ownBlocks shard c.map.entries e.1 ≠ [] ∧ e.2 = ownBlocks shard c.map.entries e.1 := by
  refine mem_entries_iff.trans ?_
  rw [get?_collectLayers]
  split
  · rename_i hnil
    simp [hnil]
  · rename_i hsome
    simp [hsome, eq_comm]

theorem sorted_layersOf : (layersOf h c shard).Pairwise fun a b => a.width < b.width := by
  have hwidth : ∀ (w : Nat) (x : SubtreeReport ν), (if w < shard.length then none
      else (present (layer h c shard w)).map fun t => ⟨w, t.coins, t.node⟩) = some x →
        x.width = w := by
    intro w x hx
    split at hx
    · cases hx
    · obtain ⟨_, -, rfl⟩ := Option.map_eq_some_iff.mp hx
      rfl
  refine pairwise_filterMap.mpr (List.Pairwise.imp (fun {w w'} hlt a ha b hb => ?_)
    (pairwise_lt_range' (s := initialBlockBits) (n := maxLayers)))
  rwa [hwidth w a ha, hwidth w' b hb]

/-- The contents' own layers, over the layers collected: both ascend by width. -/
theorem layersOf_eq :
    layersOf h c shard = (collectLayers shard c.map.entries .empty).entries.map fun e =>
      ⟨e.1, (layer h c shard e.1).coins, (layer h c shard e.1).node⟩ := by
  have hsorted' : (map (fun e => (⟨e.1, (layer h c shard e.1).coins,
      (layer h c shard e.1).node⟩ : SubtreeReport ν))
      (collectLayers shard c.map.entries .empty).entries).Pairwise fun a b => a.width < b.width :=
    pairwise_map.mpr ((collectLayers shard c.map.entries .empty).sorted.imp id)
  have hne : ∀ {a b : SubtreeReport ν}, a.width < b.width → a ≠ b := by
    rintro a b hlt rfl
    exact lt_irrefl _ hlt
  refine List.Perm.eq_of_pairwise (fun a b _ _ hab hba => absurd hab (lt_asymm hba))
    sorted_layersOf hsorted' ((perm_ext_iff_of_nodup (sorted_layersOf.imp hne)
      (hsorted'.imp hne)).mpr fun x => ?_)
  rw [mem_layersOf, mem_map]
  constructor
  · rintro ⟨hr, hblocks, hcoins, hroot⟩
    exact ⟨(x.width, ownBlocks shard c.map.entries x.width),
      mem_collectLayers.mpr ⟨(layer_blocks_ne_zero hr).mp hblocks, rfl⟩, by rw [← hcoins, ← hroot]⟩
  · rintro ⟨e, he, rfl⟩
    obtain ⟨_, hy⟩ := exists_mem_of_ne_nil _ (mem_collectLayers.mp he).1
    have hr := (reportable_of_mem hy).1
    exact ⟨hr, (layer_blocks_ne_zero hr).mpr (mem_collectLayers.mp he).1, rfl, rfl⟩

/-- **A report folded from the flat summary** is the one read from a stored tree: the layers of the
block contents. -/
theorem reportFromSummary_ok (hcoins : totalCoins c < 2 ^ 64) (ctx : Bytes32)
    (shard : List Bool) (attestations : List BlockAttestation) :
    reportFromSummary h ctx shard c.map.entries attestations =
      if (layersOf h c shard).isEmpty && attestations.isEmpty then .ok none
      else .ok (some ⟨ctx, layersOf h c shard, attestations⟩) := by
  have hlayers : ((collectLayers shard c.map.entries .empty).entries.mapM fun e =>
      summaryLayer h shard e.1 e.2) = .ok (layersOf h c shard) := by
    rw [layersOf_eq, Results.mapM_ok, forall₂_map_right_iff, forall₂_same]
    intro e he
    obtain ⟨hsome, heq⟩ := mem_collectLayers.mp he
    rw [heq]
    exact summaryLayer_ok hcoins hsome
  unfold reportFromSummary
  rw [hlayers]

/-- The subtrees that shards report, each with its shard. -/
def reportedSubtrees (h : Hasher ν) (ctx : Bytes32) (summary : List (Nat × Nat × ν))
    (attest : List Bool → List BlockAttestation) :
    List (List Bool) → Result (List (List Bool × SubtreeReport ν))
  | [] => .ok []
  | shard :: rest =>
    match reportFromSummary h ctx shard summary (attest shard) with
    | .error e => .error e
    | .ok report =>
      match reportedSubtrees h ctx summary attest rest with
      | .error e => .error e
      | .ok subtrees =>
        .ok ((report.elim [] ShardReport.subtrees).map (fun x => (shard, x)) ++ subtrees)

theorem reportedSubtrees_ok (hcoins : totalCoins c < 2 ^ 64) (ctx : Bytes32)
    (attest : List Bool → List BlockAttestation) (shards : List (List Bool)) :
    reportedSubtrees h ctx c.map.entries attest shards =
      .ok (shards.flatMap fun p => (layersOf h c p).map fun x => (p, x)) := by
  induction shards with
  | nil => rfl
  | cons p rest ih =>
    rw [reportedSubtrees, reportFromSummary_ok hcoins, ih, flatMap_cons]
    by_cases hnone : ((layersOf h c p).isEmpty && (attest p).isEmpty) = true
    · have hnil := isEmpty_iff.mp (Bool.and_eq_true_iff.mp hnone).1
      rw [if_pos hnone, hnil]
      rfl
    · rw [if_neg hnone]
      rfl

/-- **Partition independence.**  Over any complete prefix-free set of shards, none deeper than the
narrowest width in use, the reported subtrees fold to the root over all blocks and the reported
coins are all coins. -/
theorem partition_reports_fold (h : Hasher ν) (c : Blocks ν) (hcoins : totalCoins c < 2 ^ 64)
    (ctx : Bytes32) (attest : List Bool → List BlockAttestation) {shards : List (List Bool)}
    (hnodup : shards.Nodup) (htiles : PrefixCode.Tiles id {p | p ∈ shards} [])
    (hdepth : ∀ p ∈ shards, ∀ e ∈ c.map.entries, p.length ≤ creationWidth e.1) :
    ∃ reported root, reportedSubtrees h ctx c.map.entries attest shards = .ok reported ∧
      foldApplicationRoot h (reported.map fun x => (x.2.width, x.1, x.2.root)) = .ok root ∧
      ShardedTree.foldSparse h depth (blockNodes c) = .ok root ∧
      (reported.map fun x => x.2.coins).sum = totalCoins c := by
  have hmem : ∀ x ∈ shards.flatMap fun p => (layersOf h c p).map fun x => (p, x),
      x.1 ∈ shards ∧ x.2 ∈ layersOf h c x.1 := by
    intro x hx
    obtain ⟨_, hp, hx⟩ := mem_flatMap.mp hx
    obtain ⟨_, hy, rfl⟩ := mem_map.mp hx
    exact ⟨hp, hy⟩
  have hfree : IndexFree
      ((shards.flatMap fun p => (layersOf h c p).map fun x => (p, x)).map fun x =>
        (x.2.width, x.1)) := by
    refine pairwise_map.mpr (pairwise_flatMap.mpr ⟨fun p _ => ?_, ?_⟩)
    · exact pairwise_map.mpr (sorted_layersOf.imp fun hlt heq => absurd heq (ne_of_lt hlt))
    · refine hnodup.imp_of_mem fun {p q} hp hq hne x hx y hy _ hnested => hne ?_
      obtain ⟨_, -, rfl⟩ := mem_map.mp hx
      obtain ⟨_, -, rfl⟩ := mem_map.mp hy
      exact hnested.elim (htiles.prefixFree p hp q hq) fun hqp => (htiles.prefixFree q hq p hp hqp).symm
  have hcover : ∀ block v, c.map.get? block = some v →
      ∃ p ∈ shards, ∃ x ∈ layersOf h c p, x.width = creationWidth block ∧ p <+: blockPath block := by
    intro block v hv
    have hmem := mem_entries_iff.mpr hv
    -- a branch through the block runs through some shard, which is not deeper than the block
    obtain ⟨p, hp, hbegins⟩ := htiles.complete (follow (blockPath block) fun _ => false)
      (begins_nil _)
    have hpath : p <+: blockPath block := by
      rcases hbegins.nested (begins_follow _ _) with hpre | hpre
      · exact hpre
      have hle := hdepth p hp _ hmem
      rw [hpre.eq_of_length_le (by rwa [blockPath_length])]
      exact prefix_refl _
    have hown := mem_ownBlocks.mpr ⟨hmem, rfl, hpath⟩
    have hr := (reportable_of_mem hown).1
    exact ⟨p, hp, _, layer_mem_layersOf hr ((layer_blocks_ne_zero hr).mpr (ne_nil_of_mem hown)),
      rfl, hpath⟩
  obtain ⟨hroot, hsum⟩ := foldApplicationRoot_entries (h := h) hfree (by
      intro e he
      obtain ⟨x, hx, rfl⟩ := mem_map.mp he
      exact (mem_layersOf.mp (hmem x hx).2).1)
    (by
      intro block v hv
      obtain ⟨p, hp, _, hx, hwidth, hpath⟩ := hcover block v hv
      exact ⟨_, mem_map_of_mem (mem_flatMap.mpr ⟨p, hp, mem_map_of_mem hx⟩), hwidth, hpath⟩)
  rw [map_map] at hroot hsum
  refine ⟨_, _, reportedSubtrees_ok hcoins ctx attest shards, ?_, foldSparse_blockNodes c, ?_⟩
  · rw [← hroot]
    refine congrArg _ (map_congr_left fun x hx => ?_)
    rw [(mem_layersOf.mp (hmem x hx).2).2.2.2]
    rfl
  · rw [totalCoins_eq (h := h), ← hsum]
    exact congrArg _ (map_congr_left fun x hx => (mem_layersOf.mp (hmem x hx).2).2.2.1)

/-- A block of width six on the left, one of width seven on the right. -/
def twoBlocks : Blocks Nat where
  map := (OrdMap.empty.insert 64 (2, 5)).insert 192 (1, 7)
  valid := by
    intro block v hv
    simp only [OrdMap.get?_insert, OrdMap.get?_empty] at hv
    split at hv
    · rename_i hblock
      cases hv
      exact hblock ▸ by decide
    · split at hv
      · rename_i hblock
        cases hv
        exact hblock ▸ by decide
      · cases hv

/-- Two shards report one block each. -/
theorem partition_reports_fold_halves :
    ∃ reported root, reportedSubtrees (GlobalAccumulator.plainNetwork.derive 0) 7
        twoBlocks.map.entries (fun _ => []) [[false], [true]] = .ok reported ∧
      ShardedTree.foldSparse (GlobalAccumulator.plainNetwork.derive 0) depth (blockNodes twoBlocks) =
        .ok root ∧ (reported.map fun x => x.2.coins).sum = 3 := by
  have htiles : Tiles id {p | p ∈ [[false], [true]]} [] := by
    have hset : {p | p ∈ [[false], [true]]} = ({[false], [true]} : Set (List Bool)) := by
      ext p
      simp
    rw [hset]
    exact tiles_halves [] false
  obtain ⟨reported, root, hreported, -, hroot, hsum⟩ :=
    partition_reports_fold (plainNetwork.derive 0) twoBlocks (by decide) 7
      (fun _ => []) (by decide) htiles (by decide)
  exact ⟨reported, root, hreported, hroot, hsum⟩

end ShardAccumulator

end Token

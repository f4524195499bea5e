import QuilNode.Token.GlobalAccumulator

/-!
# Histories of the accumulator

Blocks receive coins and the summary tree is refreshed, shards report what they hold, reports
travel and are materialized late, repeatedly or out of order, and the placement width rises.  With
each sent report the history keeps the block contents it was made from, which no step reads.
-/

namespace Token

namespace GlobalAccumulator

open SparseTree CoinBlocks SummaryTree ShardAccumulator GlobalCommit List GlobalState

variable {ν : Type*}

section Growth

variable {c c' : Blocks ν} {h : Hasher ν} {shard : List Bool} {w : Nat}

/-- The coins of a block. -/
def coinsAt (c : Blocks ν) (block : Nat) : Nat := ((c.map.get? block).map Prod.fst).getD 0

/-- The contents after blocks received coins: `(block, more, root)` adds
`more + 1` coins, and the block's root becomes `root`. -/
def receive (c : Blocks ν) (growths : List (Nat × Nat × ν))
    (hvalid : ∀ g ∈ growths, isAllocatedWidth maxBlockBits g.1 = true) : Blocks ν where
  map := growths.foldr (fun g m => m.insert g.1 (coinsAt c g.1 + g.2.1 + 1, g.2.2)) c.map
  valid := by
    induction growths with
    | nil => exact c.valid
    | cons g rest ih =>
      intro block v hv
      rw [List.foldr_cons, OrdMap.get?_insert] at hv
      split at hv
      · rename_i heq
        cases hv
        exact ⟨heq ▸ hvalid g List.mem_cons_self, by omega⟩
      · exact ih (fun g hg => hvalid g (List.mem_cons_of_mem _ hg)) block v hv

/-- The leaves a refresh writes for received coins. -/
def receivedLeaves (c : Blocks ν) (growths : List (Nat × Nat × ν)) : List (Nat × Nat × ν) :=
  growths.map fun g => (g.1, coinsAt c g.1 + g.2.1 + 1, g.2.2)

/-- Block contents grew from `c` to `c'`: no block lost coins, and one with as
many coins is the same. -/
def Grown (c c' : Blocks ν) : Prop :=
  ∀ block, coinsAt c block ≤ coinsAt c' block ∧
    (coinsAt c block = coinsAt c' block → c.map.get? block = c'.map.get? block)

theorem Grown.refl (c : Blocks ν) : Grown c c := fun _ => ⟨le_rfl, fun _ => rfl⟩

theorem Grown.trans {c1 c2 c3 : Blocks ν} (h1 : Grown c1 c2) (h2 : Grown c2 c3) : Grown c1 c3 := by
  intro block
  obtain ⟨hle1, heq1⟩ := h1 block
  obtain ⟨hle2, heq2⟩ := h2 block
  refine ⟨hle1.trans hle2, ?_⟩
  intro heq
  exact (heq1 (by omega)).trans (heq2 (by omega))

theorem get?_receive {growths : List (Nat × Nat × ν)}
    (hvalid : ∀ g ∈ growths, isAllocatedWidth maxBlockBits g.1 = true) (block : Nat) :
    (receive c growths hvalid).map.get? block =
      setBlocks c.map.get? (receivedLeaves c growths) block := by
  unfold receive setBlocks receivedLeaves
  simp only
  induction growths with
  | nil => rfl
  | cons g rest ih =>
    rw [foldr_cons, OrdMap.get?_insert, map_cons]
    by_cases hg : g.1 = block
    · subst hg
      simp
    · simp only [hg, if_false, find?_cons, decide_false]
      exact ih fun g hg => hvalid g (mem_cons_of_mem _ hg)

theorem grown_receive (c : Blocks ν) (growths : List (Nat × Nat × ν))
    (hvalid : ∀ g ∈ growths, isAllocatedWidth maxBlockBits g.1 = true) :
    Grown c (receive c growths hvalid) := by
  intro block
  have hget := get?_receive (c := c) hvalid block
  unfold setBlocks at hget
  split at hget
  · rename_i x hfind
    have hmem := mem_of_find?_eq_some hfind
    have hblock : x.1 = block := by simpa using find?_some hfind
    obtain ⟨g, -, rfl⟩ := mem_map.mp hmem
    simp only at hblock hget
    subst hblock
    have hcoins : coinsAt (receive c growths hvalid) g.1 = coinsAt c g.1 + g.2.1 + 1 := by
      conv_lhs => rw [coinsAt, hget]
      rfl
    exact ⟨by omega, by omega⟩
  · unfold coinsAt
    rw [hget]
    exact ⟨le_rfl, fun _ => rfl⟩

/-- A subtree's coins grow with its blocks, and a subtree with as many coins
has the same blocks. -/
theorem content_grown (hg : Grown c c') (l i : Nat) :
    (content h c.map.get? (subtreeBits + l) i).coins ≤
        (content h c'.map.get? (subtreeBits + l) i).coins ∧
      ((content h c.map.get? (subtreeBits + l) i).coins =
          (content h c'.map.get? (subtreeBits + l) i).coins →
        ∀ block, block / 2 ^ l = i → c.map.get? block = c'.map.get? block) := by
  induction l generalizing i with
  | zero =>
    have hcoins : ∀ c : Blocks ν, (content h c.map.get? (subtreeBits + 0) i).coins =
        coinsAt c i := by
      intro c
      rw [add_zero, content_block]
      cases hv : c.map.get? i <;> simp [coinsAt, hv, zeroNode_treeHasher]
    rw [hcoins, hcoins]
    refine ⟨(hg i).1, ?_⟩
    intro heq block hblock
    have hi : block = i := by simpa using hblock
    subst hi
    exact (hg block).2 heq
  | succ l ih =>
    have hsucc : ∀ c : Blocks ν, (content h c.map.get? (subtreeBits + (l + 1)) i).coins =
        (content h c.map.get? (subtreeBits + l) (2 * i)).coins +
          (content h c.map.get? (subtreeBits + l) (2 * i + 1)).coins := by
      intro c
      have heq := content_succ (h := h) (l := subtreeBits + l) c.map.get? (by omega) i
      rw [add_assoc] at heq
      rw [heq]
      rfl
    obtain ⟨hleft, hleft'⟩ := ih (2 * i)
    obtain ⟨hright, hright'⟩ := ih (2 * i + 1)
    rw [hsucc, hsucc]
    refine ⟨Nat.add_le_add hleft hright, ?_⟩
    intro heq block hblock
    have hhalf : block / 2 ^ l / 2 = i := by
      rw [Nat.div_div_eq_div_mul, ← Nat.pow_succ]
      exact hblock
    rcases Nat.mod_two_eq_zero_or_one (block / 2 ^ l) with hmod | hmod
    · exact hleft' (by omega) block (by omega)
    · exact hright' (by omega) block (by omega)

/-- The coins and root a layer is recorded with. -/
def recordOf (t : TreeNode ν) : Subtree ν := ⟨t.coins, t.node⟩

theorem layer_coins_le (hg : Grown c c') (shard : List Bool) (w : Nat) :
    (layer h c shard w).coins ≤ (layer h c' shard w).coins :=
  (content_grown hg (w - shard.length) (layerIndex shard)).1

/-- Two comparable contents that give a shard's layer the same coins agree on
its blocks. -/
theorem layer_blocks_eq (hg : Grown c c') {block : Nat}
    (hcoins : (layer h c shard w).coins = (layer h c' shard w).coins) (hle : shard.length ≤ w)
    (hpos : 0 < block) (hwidth : creationWidth block = w) (hpath : shard <+: blockPath block) :
    c.map.get? block = c'.map.get? block :=
  (content_grown hg (w - shard.length) (layerIndex shard)).2 hcoins block
    ((owned_iff_div hpos hle).mp ⟨hwidth, hpath⟩)

/-- A layer depends on the shard's blocks of its width only. -/
theorem layer_congr (hle : shard.length ≤ w)
    (hsame : ∀ block, 0 < block → creationWidth block = w → shard <+: blockPath block →
      c.map.get? block = c'.map.get? block) : layer h c shard w = layer h c' shard w := by
  apply node_congr
  intro l i hu
  unfold blockPlace
  split
  · rename_i heq
    subst heq
    by_cases hpos : 0 < i
    · obtain ⟨hwidth, hpath⟩ := (under_layer_iff hpos hle).mp hu
      rw [hsame i hpos hwidth hpath]
    · -- there is no block zero
      have hzero : ∀ c : Blocks ν, c.map.get? i = none := by
        intro c
        cases hv : c.map.get? i with
        | none => rfl
        | some v =>
          have := (isAllocatedWidth_iff.mp (c.valid i v hv).1).1
          omega
      rw [hzero, hzero]
  · rfl

/-- A layer without coins has no non-empty block. -/
theorem layer_blocks_zero_iff : (layer h c shard w).blocks = 0 ↔ (layer h c shard w).coins = 0 := by
  constructor
  · intro hzero
    have heq := content_eq_zeroNode hzero
    have hlayer : layer h c shard w = zeroNode (treeHasher h) (layerLevel w shard) := heq
    rw [hlayer, zeroNode_treeHasher]
  · intro hzero
    have hle : (layer h c shard w).blocks ≤ (layer h c shard w).coins :=
      (content_bounds (h := h) c (w - shard.length) (layerIndex shard)).2
    omega

end Growth

/-- A report that was sent, with the contents it was made from. -/
structure Sent (ν : Type*) where
  shard : List Bool
  blocks : Blocks ν
  report : ShardReport ν

/-- One application: what its blocks hold, the summary tree over them, the
reports sent so far and the GLOBAL records. -/
structure Deployment (ν : Type*) where
  blocks : Blocks ν
  tree : StoredTree ν
  sent : List (Sent ν)
  global : GlobalState ν

/-- Nothing has happened yet. -/
def Deployment.empty : Deployment ν := ⟨.empty, fun _ _ => none, [], .empty⟩

/-- One step of the history. -/
inductive AccumulatorOp (ν : Type*) where
  /-- Blocks receive coins and the summary is refreshed. -/
  | receive (growths : List (Nat × Nat × ν))
  /-- GLOBAL raises the placement width for a shard of this depth. -/
  | raise (shardDepth : Nat)
  /-- A shard sends a report of what it holds. -/
  | report (shard : List Bool) (attestations : List BlockAttestation)
  /-- The report sent as number `position` is materialized, at a global frame. -/
  | deliver (frame position : Nat)

/-- What a step returned. -/
inductive AccumulatorResult where
  | refreshed (result : Result Unit)
  | raised (result : Result Nat)
  | reported (result : Result Bool)
  | delivered (result : Result Bool)
  | undelivered
  deriving DecidableEq

section Steps

variable [DecidableEq ν] (net : Network ν) (app ctx : Bytes32)

/-- Perform one step.  A refused refresh or report changes nothing. -/
def accumulatorStep (d : Deployment ν) : AccumulatorOp ν → AccumulatorResult × Deployment ν
  | .receive growths =>
    if hvalid : ∀ g ∈ growths, isAllocatedWidth maxBlockBits g.1 = true then
      match update (net.derive ctx) d.tree (receivedLeaves d.blocks growths) with
      | .error e => (.refreshed (.error e), d)
      | .ok tree =>
        (.refreshed (.ok ()), { d with blocks := receive d.blocks growths hvalid, tree := tree })
    else (.refreshed (.error SummaryTree.invalid), d)
  | .raise shardDepth =>
    let (result, records) := raisePlacementWidth d.global.records app shardDepth
    (.raised result, { d with global := { d.global with records := records } })
  | .report shard attestations =>
    match shardReport ctx d.tree shard attestations with
    | .error e => (.reported (.error e), d)
    | .ok none => (.reported (.ok false), d)
    | .ok (some report) =>
      (.reported (.ok true), { d with sent := d.sent ++ [⟨shard, d.blocks, report⟩] })
  | .deliver frame position =>
    match d.sent[position]? with
    | none => (.undelivered, d)
    | some x =>
      match materializeReport net app d.global frame x.shard (some x.report) with
      | .error e => (.delivered (.error e), d)
      | .ok (changed, global) => (.delivered (.ok changed), { d with global := global })

abbrev AccumulatorEvent (ν : Type*) := Run.Event (Deployment ν) (AccumulatorOp ν) AccumulatorResult

/-- The state a history from nothing ends in. -/
def deployment (ops : List (AccumulatorOp ν)) : Deployment ν :=
  Run.final (accumulatorStep net app ctx) .empty ops

/-- The events of a history from nothing. -/
def accumulatorEvents (ops : List (AccumulatorOp ν)) : List (AccumulatorEvent ν) :=
  Run.events (accumulatorStep net app ctx) .empty ops

end Steps

section Kept

variable {h : Hasher ν} {net : Network ν} {app ctx : Bytes32} {d : Deployment ν}
  {report : ShardReport ν}
  {placement w : Nat} {shard p : List Bool} {work : Working ν} {x : SubtreeReport ν}
  {I I' : Set (List Bool)} {S S' : List Bool → Option (Subtree ν)}

/-- No two entries of one width overlap. -/
def IndexFree (index : Index) : Prop :=
  index.Pairwise fun a b => a.1 = b.1 → ¬ (a.2 <+: b.2 ∨ b.2 <+: a.2)

theorem IndexFree.perm {index index' : Index} (hfree : IndexFree index)
    (hperm : index'.Perm index) : IndexFree index' := by
  refine (hperm.pairwise_iff ?_).mpr hfree
  intro a b hab heq hover
  exact hab heq.symm hover.symm

/-- Two indexed entries of one width that overlap are one. -/
theorem IndexFree.eq_of_prefix {index : Index} (hfree : IndexFree index)
    {q : List Bool} (hp : p ∈ indexed index w) (hq : q ∈ indexed index w) (hpq : p <+: q) :
    p = q := by
  by_contra hne
  have hsymm : Std.Symm fun a b : Nat × List Bool =>
      a.1 = b.1 → ¬ (a.2 <+: b.2 ∨ b.2 <+: a.2) :=
    ⟨fun a b hab heq hover => hab heq.symm hover.symm⟩
  have hdistinct : ((w, p) : Nat × List Bool) ≠ (w, q) := fun heq => hne (Prod.mk.inj heq).2
  exact List.Pairwise.forall hfree hp hq hdistinct rfl (Or.inl hpq)

theorem indexFree_record (x : SubtreeReport ν) (hfree : IndexFree work.index) :
    IndexFree (recordLayer shard work x).index := by
  unfold IndexFree recordLayer
  rw [pairwise_append]
  refine ⟨hfree.filter _, pairwise_singleton _ _, ?_⟩
  intro a ha b hb hwidth hover
  rw [mem_singleton] at hb
  subst hb
  have hkeep := (mem_filter.mp ha).2
  rw [Bool.or_eq_true, decide_eq_true_eq, Bool.not_eq_true', ← Bool.not_eq_true,
    overlaps_iff] at hkeep
  rcases hkeep with hne | hnot
  · exact hne hwidth
  · exact hnot hover

/-- The tree is that of the blocks, every report was the truth when it was sent, every record was
sent, the index is free of overlaps, and the published root is its fold. -/
structure Sound (network : Network ν) (context : Bytes32) (d : Deployment ν) : Prop where
  tree : Represents (network.derive context) d.tree d.blocks.map.get?
  sent : ∀ x ∈ d.sent, x.report.subtrees = layersOf (network.derive context) x.blocks x.shard ∧
    x.report.context = context ∧ Grown x.blocks d.blocks
  chain : ∀ x ∈ d.sent, ∀ y ∈ d.sent, Grown x.blocks y.blocks ∨ Grown y.blocks x.blocks
  recorded : ∀ w p s, d.global.subtrees w p = some s → ∃ x ∈ d.sent, x.shard = p ∧
    Reportable w p ∧ (layer (network.derive context) x.blocks p w).blocks ≠ 0 ∧
    s = recordOf (layer (network.derive context) x.blocks p w)
  entries : ∀ w, ∀ p ∈ indexed d.global.entries w, d.global.subtrees w p ≠ none
  free : IndexFree d.global.entries
  same_context : ∀ c index, d.global.index = some (c, index) → c = context
  published : (d.global.index = none ∧ d.global.published = none) ∨
    ∃ index, d.global.index = some (context, index) ∧
      PublishedFrom network context index d.global.subtrees d.global.published

theorem content_empty (l i : Nat) :
    (content h (Blocks.empty : Blocks ν).map.get? l i).blocks = 0 := by
  have hzero : content h (Blocks.empty : Blocks ν).map.get? l i = zeroNode (treeHasher h) l := by
    apply node_eq_zeroNode
    intro l' i' _
    simp [blockPlace, Blocks.empty]
  rw [hzero, zeroNode_treeHasher]

theorem sound_empty (net : Network ν) (ctx : Bytes32) :
    Sound net ctx (Deployment.empty : Deployment ν) where
  tree := by
    intro l i _ _
    simp [Deployment.empty, present, content_empty]
  sent := by simp [Deployment.empty]
  chain := by simp [Deployment.empty]
  recorded := by simp [Deployment.empty, empty]
  entries := by simp [Deployment.empty, empty, entries, indexed]
  free := List.Pairwise.nil
  same_context := by simp [Deployment.empty, empty]
  published := Or.inl ⟨rfl, rfl⟩

/-- The entries and records of each width after a report. -/
theorem Materialized.effect {net : Network ν} {app : Bytes32}
    {state state' : GlobalState ν}
    (hm : Materialized net app state shard report placement work state') (w : Nat) :
    (∃ x ∈ report.subtrees, x.width = w ∧ LayerStep placement shard x (indexed state.entries w)
      (state.subtrees w) (indexed state'.entries w) (state'.subtrees w)) ∨
    ((∀ x ∈ report.subtrees, x.width ≠ w) ∧ indexed state'.entries w = indexed state.entries w ∧
      state'.subtrees w = state.subtrees w) := by
  have hindexed : indexed state'.entries w = indexed work.index w := by
    ext p
    exact hm.entries.mem_iff
  rw [hindexed, hm.subtrees]
  exact hm.widths w

theorem LayerStep.record_cases {s : Subtree ν}
    (hstep : LayerStep placement shard x I S I' S') (hs : S' p = some s) :
    S p = some s ∨ (p = shard ∧ s = ⟨x.coins, x.root⟩) := by
  cases hstep with
  | frozen | stale | repeated => exact Or.inl hs
  | admitted =>
    simp only at hs
    split at hs
    · rename_i hp
      cases hs
      exact Or.inr ⟨hp, rfl⟩
    · exact Or.inl hs

/-- A record after a report was there before, or is the report's own. -/
theorem Materialized.record_cases {net : Network ν} {app : Bytes32}
    {state state' : GlobalState ν}
    (hm : Materialized net app state shard report placement work state')
    {s : Subtree ν} (hs : state'.subtrees w p = some s) :
    state.subtrees w p = some s ∨
      (p = shard ∧ ∃ x ∈ report.subtrees, x.width = w ∧ s = ⟨x.coins, x.root⟩) := by
  rcases hm.effect w with ⟨x, hx, hxw, hstep⟩ | ⟨-, -, hsubtrees⟩
  · rcases hstep.record_cases hs with hold | ⟨hp, rfl⟩
    · exact Or.inl hold
    · exact Or.inr ⟨hp, x, hx, hxw, rfl⟩
  · rw [hsubtrees] at hs
    exact Or.inl hs

theorem LayerStep.entries_recorded (hstep : LayerStep placement shard x I S I' S')
    (hI : ∀ p ∈ I, S p ≠ none) : ∀ p ∈ I', S' p ≠ none := by
  cases hstep with
  | frozen | stale | repeated => exact hI
  | admitted =>
    intro p hp
    simp only
    split
    · simp
    rename_i hne
    rcases hp with rfl | hp
    · exact absurd rfl hne
    · exact hI p hp.1

section SoundSteps

variable (hd : Sound net ctx d)
include hd

/-- Coins arrive. -/
theorem sound_receive [DecidableEq ν] {growths : List (Nat × Nat × ν)}
    (hvalid : ∀ g ∈ growths, isAllocatedWidth maxBlockBits g.1 = true) {tree : StoredTree ν}
    (htree : update (net.derive ctx) d.tree (receivedLeaves d.blocks growths) = .ok tree) :
    Sound net ctx { d with blocks := receive d.blocks growths hvalid, tree := tree } where
  tree := by
    have hget : (receive d.blocks growths hvalid).map.get? =
        setBlocks d.blocks.map.get? (receivedLeaves d.blocks growths) := funext (get?_receive hvalid)
    have hupdated := update_represents hd.tree htree
    rw [← hget] at hupdated
    exact hupdated
  sent := by
    intro x hx
    obtain ⟨hlayers, hcontext, hgrown⟩ := hd.sent x hx
    exact ⟨hlayers, hcontext, hgrown.trans (grown_receive _ _ hvalid)⟩
  chain := hd.chain
  recorded := hd.recorded
  entries := hd.entries
  free := hd.free
  same_context := hd.same_context
  published := hd.published

/-- A report is sent. -/
theorem sound_report {attestations : List BlockAttestation}
    (hreport : shardReport ctx d.tree shard attestations = .ok (some report)) :
    Sound net ctx { d with sent := d.sent ++ [⟨shard, d.blocks, report⟩] } where
  tree := hd.tree
  sent := by
    intro x hx
    rcases mem_append.mp hx with hx | hx
    · exact hd.sent x hx
    rw [mem_singleton] at hx
    subst hx
    rw [shardReport_ok hd.tree] at hreport
    split at hreport
    · cases hreport
    · cases hreport
      exact ⟨rfl, rfl, Grown.refl _⟩
  chain := by
    -- the new report was made from the newest contents
    have hnewest : ∀ x ∈ d.sent ++ [(⟨shard, d.blocks, report⟩ : Sent ν)], Grown x.blocks d.blocks := by
      intro x hx
      rcases mem_append.mp hx with hx | hx
      · exact (hd.sent x hx).2.2
      rw [mem_singleton] at hx
      subst hx
      exact Grown.refl _
    intro x hx y hy
    rcases mem_append.mp hx with hx' | hx'
    · rcases mem_append.mp hy with hy' | hy'
      · exact hd.chain x hx' y hy'
      · rw [mem_singleton] at hy'
        subst hy'
        exact Or.inl (hnewest x hx)
    · rw [mem_singleton] at hx'
      subst hx'
      exact Or.inr (hnewest y hy)
  recorded := by
    intro w p s hs
    obtain ⟨x, hx, hrest⟩ := hd.recorded w p s hs
    exact ⟨x, mem_append_left _ hx, hrest⟩
  entries := hd.entries
  free := hd.free
  same_context := hd.same_context
  published := hd.published

/-- A report is materialized. -/
theorem sound_deliver {x : Sent ν} (hx : x ∈ d.sent) {global : GlobalState ν}
    (hm : Materialized net app d.global x.shard x.report placement work global)
    (hfree : IndexFree work.index) : Sound net ctx { d with global := global } where
  tree := hd.tree
  sent := hd.sent
  chain := hd.chain
  recorded := by
    intro w p s hs
    rcases hm.record_cases hs with hold | ⟨rfl, y, hy, rfl, rfl⟩
    · exact hd.recorded w p s hold
    rw [(hd.sent x hx).1] at hy
    obtain ⟨hreportable, hblocks, hcoins, hroot⟩ := mem_layersOf.mp hy
    refine ⟨x, hx, rfl, hreportable, hblocks, ?_⟩
    simp only [recordOf, hcoins, hroot]
  entries := by
    intro w
    rcases hm.effect w with ⟨y, hy, hyw, hstep⟩ | ⟨-, hindexed, hsubtrees⟩
    · exact hstep.entries_recorded (hd.entries w)
    simp only
    rw [hindexed, hsubtrees]
    exact hd.entries w
  free := hfree.perm hm.entries
  same_context := by
    intro c index hc
    rcases hm.outcome with ⟨hindex, -, -⟩ | ⟨index', hindex, -⟩
    · rw [hindex] at hc
      exact hd.same_context c index hc
    · rw [hindex] at hc
      cases hc
      exact (hd.sent x hx).2.1
  published := by
    simp only
    rcases hm.outcome with ⟨hindex, hpublished, hwork⟩ | ⟨index, hindex, hpublished⟩
    · rw [hindex, hpublished, hm.subtrees, hwork]
      exact hd.published
    · right
      rw [(hd.sent x hx).2.1] at hindex hpublished
      exact ⟨index, hindex, hpublished⟩

/-- Every step keeps a deployment sound. -/
theorem sound_step [DecidableEq ν] (op : AccumulatorOp ν) :
    Sound net ctx (accumulatorStep net app ctx d op).2 := by
  cases op with
  | receive =>
    simp only [accumulatorStep]
    split
    · rename_i hvalid
      split
      · exact hd
      · rename_i tree htree
        exact sound_receive hd hvalid htree
    · exact hd
  | raise =>
    exact ⟨hd.tree, hd.sent, hd.chain, hd.recorded, hd.entries, hd.free, hd.same_context,
      hd.published⟩
  | report =>
    simp only [accumulatorStep]
    split
    · exact hd
    · exact hd
    · rename_i report hreport
      exact sound_report hd hreport
  | deliver =>
    simp only [accumulatorStep]
    split
    · exact hd
    rename_i x hx
    split
    · exact hd
    rename_i changed global hmaterialized
    obtain ⟨_, work, hm, hwork⟩ := materializeReport_ok hmaterialized
    have hfree : IndexFree work.index :=
      admitLayers_invariant (P := fun work => IndexFree work.index)
        (fun _ y _ hfree => indexFree_record y hfree) hd.free hwork
    exact sound_deliver hd (mem_of_getElem? hx) hm hfree

end SoundSteps

/-- Every reachable deployment is sound. -/
theorem sound_run [DecidableEq ν] (net : Network ν) (app ctx : Bytes32)
    (ops : List (AccumulatorOp ν)) : Sound net ctx (deployment net app ctx ops) :=
  Run.state_invariant (accumulatorStep net app ctx) (Sound net ctx)
    (fun _ => True) (sound_empty net ctx) (fun _ op hd _ => sound_step hd op) ops
    (fun _ _ => trivial)

/-- **GLOBAL holds what was true**: a subtree of GLOBAL is what its own shard held when it reported;
its coins are all still there. -/
theorem recorded_subtrees_were_true [DecidableEq ν] (net : Network ν)
    (app ctx : Bytes32) (ops : List (AccumulatorOp ν)) :
    let d := deployment net app ctx ops
    Represents (net.derive ctx) d.tree d.blocks.map.get? ∧
      ∀ w p, ∀ s ∈ d.global.subtrees w p, ∃ x ∈ d.sent, x.shard = p ∧
        Grown x.blocks d.blocks ∧ s = recordOf (layer (net.derive ctx) x.blocks p w) ∧
        s.coins ≤ (layer (net.derive ctx) d.blocks p w).coins := by
  have hd := sound_run net app ctx ops
  refine ⟨hd.tree, fun w p s hs => ?_⟩
  obtain ⟨x, hx, rfl, -, -, rfl⟩ := hd.recorded w p s hs
  have hgrown := (hd.sent x hx).2.2
  exact ⟨x, hx, rfl, hgrown, rfl, layer_coins_le hgrown x.shard w⟩

end Kept

end GlobalAccumulator

end Token

import QuilNode.Token.AccumulatorRun

/-!
# The canonical root converges

Once every shard of the current grid has had its newest report materialized, the published root
should be the root over all blocks.  A layer is settled when it is indexed with its newest record,
or when an indexed ancestor of a frozen width stands for it.  The second is right only while the
ancestor's record contains what the deeper shard reports.
-/

namespace Token

namespace GlobalAccumulator

open SparseTree CoinBlocks SummaryTree ShardAccumulator GlobalCommit List Run

variable {ν : Type*}

/-- The record of the sender's layer `w` is the one this report carried. -/
def RecordedFrom (d : Deployment ν) (w : Nat) (x : Sent ν) : Prop :=
  x ∈ d.sent ∧ ∃ y ∈ x.report.subtrees, y.width = w ∧
    d.global.subtrees w x.shard = some ⟨y.coins, y.root⟩

/-- Whenever the frozen rule applies to a layer of a materialized report, the indexed ancestor's
record already has every coin of the layer's blocks. -/
def FrozenCovered (app : Bytes32) (e : AccumulatorEvent ν) : Prop :=
  ∀ frame position x placement, e.input = .deliver frame position →
    e.before.sent[position]? = some x →
    placementWidth e.before.global.records app = .ok placement →
    ∀ y ∈ x.report.subtrees, ∀ a ∈ indexed e.before.global.entries y.width,
      y.width < placement → a.length < x.shard.length → a <+: x.shard →
      ∃ z, RecordedFrom e.before y.width z ∧ z.shard = a ∧
        ∀ block, creationWidth block = y.width → shardOwnsBlock x.shard block = true →
          coinsAt x.blocks block ≤ coinsAt z.blocks block

/-- The step materialized a report of `shard` with these layers. -/
def Applies (e : AccumulatorEvent ν) (shard : List Bool) (layers : List (SubtreeReport ν)) : Prop :=
  ∃ frame position x changed, e.input = .deliver frame position ∧
    e.before.sent[position]? = some x ∧ x.shard = shard ∧ x.report.subtrees = layers ∧
    e.result = .delivered (.ok changed)

/-- No shard of the grid lies inside another. -/
def GridFree (grid : List (List Bool)) : Prop := ∀ p ∈ grid, ∀ q ∈ grid, p <+: q → p = q

/-! ## Settled layers -/

section Settled

variable (net : Network ν) (app ctx : Bytes32)

/-- The record at `(w, a)` has the blocks of width `w` below `p` as `F` does. -/
def HoldsBlocks (F : Blocks ν) (d : Deployment ν) (a : List Bool) (w : Nat) (p : List Bool) :
    Prop :=
  ∃ x ∈ d.sent, x.shard = a ∧
    d.global.subtrees w a = some (recordOf (layer (net.derive ctx) x.blocks a w)) ∧
    ∀ block, 0 < block → creationWidth block = w → p <+: blockPath block →
      x.blocks.map.get? block = F.map.get? block

/-- GLOBAL accounts for layer `w` of shard `p` as it is in `F`. -/
def Settled (F : Blocks ν) (p : List Bool) (w : Nat) (d : Deployment ν) : Prop :=
  (layer (net.derive ctx) F p w).blocks = 0 ∨
  (p ∈ indexed d.global.entries w ∧
    d.global.subtrees w p = some (recordOf (layer (net.derive ctx) F p w))) ∨
  ∃ a ∈ indexed d.global.entries w, a.length < p.length ∧ a <+: p ∧
    (∃ placement, placementWidth d.global.records app = .ok placement ∧ w < placement) ∧
    HoldsBlocks net ctx F d a w p

end Settled

variable {net : Network ν} {app ctx : Bytes32} {d : Deployment ν} {F : Blocks ν} {placement : Nat}

/-- The cases of a layer step, with what it leaves. -/
theorem LayerStep.inv {shard : List Bool} {x : SubtreeReport ν}
    {I I' : Set (List Bool)} {S S' : List Bool → Option (Subtree ν)}
    (hstep : LayerStep placement shard x I S I' S') :
    (I' = I ∧ S' = S ∧ (Frozen placement x.width shard I ∨
      (∃ existing, S shard = some existing ∧ x.coins < existing.coins) ∨
      (S shard = some ⟨x.coins, x.root⟩ ∧ shard ∈ I))) ∨
    (¬ Frozen placement x.width shard I ∧ (∀ existing, S shard = some existing →
        existing.coins < x.coins ∨ existing = ⟨x.coins, x.root⟩) ∧
      I' = insert shard {p ∈ I | ¬ (p <+: shard ∨ shard <+: p)} ∧
      S' = fun p => if p = shard then some ⟨x.coins, x.root⟩ else S p) := by
  cases hstep with
  | frozen hfrozen => exact .inl ⟨rfl, rfl, .inl hfrozen⟩
  | stale hexisting hcoins => exact .inl ⟨rfl, rfl, .inr (.inl ⟨_, hexisting, hcoins⟩)⟩
  | repeated hexisting hindexed => exact .inl ⟨rfl, rfl, .inr (.inr ⟨hexisting, hindexed⟩)⟩
  | admitted hopen hnewer => exact .inr ⟨hopen, hnewer, rfl, rfl⟩

variable {x : Sent ν}

/-- A record carried by a sent report is the layer of the contents it was made
from. -/
theorem Sound.recordedFrom (hd : Sound net ctx d) {w : Nat} (hx : RecordedFrom d w x) :
    d.global.subtrees w x.shard = some (recordOf (layer (net.derive ctx) x.blocks x.shard w)) := by
  obtain ⟨hmem, _, hy, rfl, hrecord⟩ := hx
  rw [(hd.sent x hmem).1] at hy
  obtain ⟨-, -, hcoins, hroot⟩ := mem_layersOf.mp hy
  rw [hrecord, recordOf, hcoins, hroot]

/-- No record has more coins than the shard's layer in contents the deployment
grew to. -/
theorem Sound.record_le (hd : Sound net ctx d) (hF : Grown d.blocks F) {w : Nat}
    {p : List Bool} {s : Subtree ν} (hs : d.global.subtrees w p = some s) :
    s.coins ≤ (layer (net.derive ctx) F p w).coins := by
  obtain ⟨x, hx, rfl, -, -, rfl⟩ := hd.recorded w p s hs
  exact layer_coins_le ((hd.sent x hx).2.2.trans hF) x.shard w

/-- **Settling.**  Materializing a shard's newest report settles its layers. -/
theorem settled_of_current (hd : Sound net ctx d) (hF : Grown d.blocks F) (hx : x ∈ d.sent)
    (hcurrent : x.report.subtrees = layersOf (net.derive ctx) F x.shard)
    {work : Working ν} {global : GlobalState ν}
    (hm : Materialized net app d.global x.shard x.report placement work global)
    (hcovered : ∀ y ∈ x.report.subtrees, ∀ a ∈ indexed d.global.entries y.width,
      y.width < placement → a.length < x.shard.length → a <+: x.shard →
      ∃ z, RecordedFrom d y.width z ∧ z.shard = a ∧
        ∀ block, creationWidth block = y.width → shardOwnsBlock x.shard block = true →
          coinsAt x.blocks block ≤ coinsAt z.blocks block) {w : Nat} (hw : Reportable w x.shard) :
    Settled net app ctx F x.shard w { d with global := global } := by
  by_cases hblocks : (layer (net.derive ctx) F x.shard w).blocks = 0
  · exact .inl hblocks
  right
  have hlayer := layer_mem_layersOf hw hblocks
  rw [← hcurrent] at hlayer
  rcases hm.effect w with ⟨y, hy, rfl, hstep⟩ | ⟨hnone, -, -⟩
  swap
  · exact absurd rfl (hnone _ hlayer)
  have hyF := hy
  rw [hcurrent] at hyF
  obtain ⟨-, -, hcoins, hroot⟩ := mem_layersOf.mp hyF
  have hrecord : (⟨y.coins, y.root⟩ : Subtree ν) =
      recordOf (layer (net.derive ctx) F x.shard y.width) := by
    rw [recordOf, hcoins, hroot]
  rcases hstep.inv with ⟨hI, hS, hskip⟩ | ⟨-, -, hI, hS⟩
  · rcases hskip with ⟨hlt, a, ha, hlen, hpre⟩ | ⟨existing, hexisting, hstale⟩ | ⟨hsame, hin⟩
    · -- frozen: the ancestor's record has these blocks, and no newer ones exist
      right
      obtain ⟨z, hz, rfl, hcoinsle⟩ := hcovered y hy a ha hlt hlen hpre
      refine ⟨z.shard, ?_, hlen, hpre, ⟨placement, hm.width_after, hlt⟩, z, hz.1, rfl, ?_, ?_⟩
      · simp only [hI]
        exact ha
      · simp only [hS]
        exact hd.recordedFrom hz
      · intro block hpos hwidth hpath
        have hxF : x.blocks.map.get? block = F.map.get? block := by
          have hyx := hy
          rw [(hd.sent x hx).1] at hyx
          obtain ⟨-, -, hcoins', -⟩ := mem_layersOf.mp hyx
          exact layer_blocks_eq ((hd.sent x hx).2.2.trans hF) (hcoins'.symm.trans hcoins) hw.2.2
            hpos hwidth hpath
        have hle := hcoinsle block hwidth (shardOwnsBlock_iff.mpr hpath)
        obtain ⟨_, heq⟩ := ((hd.sent z hz.1).2.2.trans hF) block
        apply heq
        have hcount : coinsAt x.blocks block = coinsAt F block := by
          unfold coinsAt
          rw [hxF]
        omega
    · -- stale: no record can be ahead of the newest contents
      have hle := hd.record_le hF hexisting
      omega
    · left
      simp only [hI, hS]
      rw [← hrecord]
      exact ⟨hin, hsame⟩
  · left
    simp only [hI, hS, if_true]
    rw [← hrecord]
    exact ⟨Set.mem_insert _ _, rfl⟩

/-! ## Settled layers stay settled -/

variable {grid : List (List Bool)} {p : List Bool} {w : Nat}

/-- The placement width of the application is still there, and no smaller. -/
def WidthKept (app : Bytes32) (r r' : Records) : Prop :=
  ∀ placement, placementWidth r app = .ok placement →
    ∃ placement', placementWidth r' app = .ok placement' ∧ placement ≤ placement'

/-- More reports and a greater placement width keep a settled layer, with the entries and records of
its width. -/
theorem Settled.mono {d' : Deployment ν} (hset : Settled net app ctx F p w d)
    (hindexed : indexed d'.global.entries w = indexed d.global.entries w)
    (hsubtrees : d'.global.subtrees w = d.global.subtrees w)
    (hsent : ∀ x ∈ d.sent, x ∈ d'.sent)
    (hwidth : WidthKept app d.global.records d'.global.records) :
    Settled net app ctx F p w d' := by
  unfold Settled HoldsBlocks at hset ⊢
  rw [hindexed, hsubtrees]
  rcases hset with hzero | hrecord | ⟨a, ha, hlen, hpre, ⟨placement, hplacement, hlt⟩, x, hx, hrest⟩
  · exact .inl hzero
  · exact .inr (.inl hrecord)
  · obtain ⟨placement', hplacement', _⟩ := hwidth placement hplacement
    exact .inr (.inr ⟨a, ha, hlen, hpre, ⟨placement', hplacement', by omega⟩, x, hsent x hx, hrest⟩)

/-- Materializing a report of a shard of the grid keeps a settled layer of the
grid settled. -/
theorem Settled.deliver (hd : Sound net ctx d) (hF : Grown d.blocks F)
    (hgrid : GridFree grid) (hp : p ∈ grid)
    (hset : Settled net app ctx F p w d) (hx : x ∈ d.sent)
    (hxgrid : x.shard ∈ grid) {work : Working ν} {global : GlobalState ν}
    (hm : Materialized net app d.global x.shard x.report placement work global) :
    Settled net app ctx F p w { d with global := global } := by
  have hwidth : WidthKept app d.global.records global.records := by
    intro placement' hplacement'
    rw [hm.width] at hplacement'
    cases hplacement'
    exact ⟨placement, hm.width_after, le_rfl⟩
  rcases hm.effect w with ⟨y, hy, rfl, hstep⟩ | ⟨-, hindexed, hsubtrees⟩
  swap
  · exact hset.mono hindexed hsubtrees (fun _ hx => hx) hwidth
  rcases hstep.inv with ⟨hI, hS, -⟩ | ⟨hopen, hnewer, hI, hS⟩
  · exact hset.mono hI hS (fun _ hx => hx) hwidth
  -- the sender's layer is recorded and its overlapping entries go
  have hne_grid : p ≠ x.shard → ¬ (p <+: x.shard ∨ x.shard <+: p) := by
    rintro hne (hpx | hxp)
    · exact hne (hgrid p hp x.shard hxgrid hpx)
    · exact hne (hgrid x.shard hxgrid p hp hxp).symm
  rcases hset with hzero | ⟨hin, hrecord⟩ | ⟨a, ha, hlen, hpre, ⟨q, hq, hlt⟩, z, hz, hza, hrec, hblocks⟩
  · exact .inl hzero
  · right
    left
    simp only [hI, hS]
    by_cases hpx : p = x.shard
    · -- the grid shard's own report: as many coins as are recorded, or fewer
      refine ⟨.inl hpx, ?_⟩
      rw [if_pos hpx]
      rw [hpx] at hrecord
      rcases hnewer _ hrecord with hmore | hsame
      · have hle : y.coins ≤ (layer (net.derive ctx) F x.shard y.width).coins := by
          rw [(hd.sent x hx).1] at hy
          obtain ⟨-, -, hcoins, -⟩ := mem_layersOf.mp hy
          rw [hcoins]
          exact layer_coins_le ((hd.sent x hx).2.2.trans hF) x.shard y.width
        simp only [recordOf] at hmore
        omega
      · rw [hpx, hsame]
    · rw [if_neg hpx]
      exact ⟨.inr ⟨hin, hne_grid hpx⟩, hrecord⟩
  · right
    right
    rw [hm.width] at hq
    cases hq
    -- the ancestor is not touched: below it the rule is frozen, and no grid shard is above it
    have hapart : ¬ (a <+: x.shard ∨ x.shard <+: a) := by
      rintro (hax | hxa)
      · rcases lt_or_ge a.length x.shard.length with hshort | hlong
        · exact hopen ⟨hlt, a, ha, hshort, hax⟩
        · have heq := hax.eq_of_length_le hlong
          have hap := hgrid x.shard hxgrid p hp (heq ▸ hpre)
          rw [← hap, heq] at hlen
          exact lt_irrefl _ hlen
      · have hxp := hgrid x.shard hxgrid p hp (hxa.trans hpre)
        have := hxa.length_le
        rw [hxp] at this
        omega
    have hne : a ≠ x.shard := by
      rintro rfl
      exact hapart (.inl (prefix_refl _))
    refine ⟨a, ?_, hlen, hpre, ⟨placement, hm.width_after, hlt⟩, z, hz, hza, ?_, hblocks⟩
    · simp only [hI]
      exact .inr ⟨ha, hapart⟩
    · simp only [hS, if_neg hne]
      exact hrec

/-- The reports materialized in the step come from the grid. -/
def FromGrid (grid : List (List Bool)) (e : AccumulatorEvent ν) : Prop :=
  ∀ shard layers, Applies e shard layers → shard ∈ grid

variable [DecidableEq ν]

/-- A delivered report, as a step of the history. -/
theorem deliver_event {frame position : Nat} {changed : Bool} {e : AccumulatorEvent ν}
    (he : e = event (accumulatorStep net app ctx) d (.deliver frame position))
    (hresult : e.result = .delivered (.ok changed)) (hx : d.sent[position]? = some x) :
    ∃ global, materializeReport net app d.global frame x.shard (some x.report) =
        .ok (changed, global) ∧
      (accumulatorStep net app ctx d (.deliver frame position)).2 =
        { d with global := global } := by
  subst he
  simp only [event_result, accumulatorStep, hx] at hresult ⊢
  split at hresult
  · cases hresult
  rename_i changed' global hmaterialized
  cases hresult
  exact ⟨global, hmaterialized, rfl⟩

section Grown

variable (net : Network ν) (app ctx : Bytes32) (d : Deployment ν)

theorem grown_step
    (op : AccumulatorOp ν) :
    Grown d.blocks (accumulatorStep net app ctx d op).2.blocks := by
  cases op with
  | receive =>
    simp only [accumulatorStep]
    split
    · rename_i hvalid
      split
      · exact Grown.refl _
      · exact grown_receive _ _ hvalid
    · exact Grown.refl _
  | raise => exact Grown.refl _
  | report =>
    simp only [accumulatorStep]
    split <;> exact Grown.refl _
  | deliver =>
    simp only [accumulatorStep]
    split
    · exact Grown.refl _
    · split <;> exact Grown.refl _

theorem grown_run
    (ops : List (AccumulatorOp ν)) :
    Grown d.blocks (final (accumulatorStep net app ctx) d ops).blocks := by
  induction ops generalizing d with
  | nil => exact Grown.refl _
  | cons op ops ih => exact (grown_step net app ctx d op).trans (ih _)

end Grown

/-- One step of the late phase keeps a settled layer. -/
theorem Settled.step (hd : Sound net ctx d) (hF : Grown d.blocks F)
    (hgrid : GridFree grid) (hp : p ∈ grid)
    (hset : Settled net app ctx F p w d) (op : AccumulatorOp ν)
    (hop : FromGrid grid (event (accumulatorStep net app ctx) d op)) :
    Settled net app ctx F p w
      (accumulatorStep net app ctx d op).2 := by
  have hsame : WidthKept app d.global.records d.global.records :=
    fun placement hplacement => ⟨placement, hplacement, le_rfl⟩
  cases op with
  | receive =>
    simp only [accumulatorStep]
    split
    · split
      · exact hset
      · exact hset.mono rfl rfl (fun _ hx => hx) hsame
    · exact hset
  | raise shardDepth =>
    refine hset.mono rfl rfl (fun _ hx => hx) ?_
    intro placement hplacement
    simp only [accumulatorStep]
    cases hraise : raisePlacementWidth d.global.records app shardDepth with
    | mk result =>
      cases result with
      | error =>
        rw [raisePlacementWidth_error hraise]
        exact hsame placement hplacement
      | ok width =>
        obtain ⟨_, hcurrent, _, hafter, -⟩ := raisePlacementWidth_ok hraise
        rw [hplacement] at hcurrent
        cases hcurrent
        exact ⟨width, hafter, by omega⟩
  | report =>
    simp only [accumulatorStep]
    split
    · exact hset
    · exact hset
    · exact hset.mono rfl rfl (fun _ hx => mem_append_left _ hx) hsame
  | deliver frame position =>
    cases hx : d.sent[position]? with
    | none =>
      simp only [accumulatorStep, hx]
      exact hset
    | some x =>
      cases hmaterialized : materializeReport net app d.global frame x.shard
        (some x.report) with
      | error e =>
        simp only [accumulatorStep, hx, hmaterialized]
        exact hset
      | ok outcome =>
        obtain ⟨changed, _⟩ := outcome
        obtain ⟨_, _, hm, -⟩ := materializeReport_ok hmaterialized
        have hxgrid : x.shard ∈ grid := by
          apply hop x.shard x.report.subtrees
          refine ⟨frame, position, x, changed, rfl, hx, rfl, rfl, ?_⟩
          simp only [event_result, accumulatorStep, hx, hmaterialized]
        simp only [accumulatorStep, hx, hmaterialized]
        exact hset.deliver hd hF hgrid hp (mem_of_getElem? hx) hxgrid hm

/-- A run of the late phase keeps a settled layer. -/
theorem Settled.run (hgrid : GridFree grid) (hp : p ∈ grid) (ops : List (AccumulatorOp ν))
    {d : Deployment ν} (hd : Sound net ctx d)
    (hF : Grown (final (accumulatorStep net app ctx) d ops).blocks F)
    (hops : ∀ e ∈ events (accumulatorStep net app ctx) d ops, FromGrid grid e)
    (hset : Settled net app ctx F p w d) :
    Settled net app ctx F p w
      (final (accumulatorStep net app ctx) d ops) := by
  induction ops generalizing d with
  | nil => exact hset
  | cons op ops ih =>
    have hgrown : Grown d.blocks F := (grown_run net app ctx d (op :: ops)).trans hF
    exact ih (sound_step hd op) hF (fun e he => hops e (mem_cons_of_mem _ he))
      (hset.step hd hgrown hgrid hp op (hops _ mem_cons_self))

omit [DecidableEq ν] in
/-- A settled layer with a non-empty block is accounted for by one entry above it, whose record has
the block as it is. -/
theorem Settled.covers (hset : Settled net app ctx F p w d)
    (hd : Sound net ctx d) (hF : Grown d.blocks F) (hw : p.length ≤ w) {block : Nat}
    {v : Nat × ν} (hv : F.map.get? block = some v) (hpos : 0 < block)
    (hwidth : creationWidth block = w) (hpath : p <+: blockPath block) :
    ∃ a ∈ indexed d.global.entries w, a <+: blockPath block ∧ ∃ x ∈ d.sent, x.shard = a ∧
      d.global.subtrees w a = some (recordOf (layer (net.derive ctx) x.blocks a w)) ∧
      x.blocks.map.get? block = F.map.get? block := by
  rcases hset with hzero | ⟨hin, hrecord⟩ | ⟨a, ha, -, hpre, -, x, hx, hxa, hrec, hblocks⟩
  · -- an empty layer has no non-empty block
    have hempty : Grown (Blocks.empty : Blocks ν) F := by
      intro b
      refine ⟨Nat.zero_le _, ?_⟩
      intro heq
      cases hget : F.map.get? b with
      | none => rfl
      | some u =>
        have hcoins := (F.valid b u hget).2
        simp [coinsAt, Blocks.empty, hget] at heq
        omega
    have hnone : (layer (net.derive ctx) (Blocks.empty : Blocks ν) p w).blocks = 0 :=
      content_empty _ _
    have hcoins := (layer_blocks_zero_iff.mp hnone).trans (layer_blocks_zero_iff.mp hzero).symm
    have heq := layer_blocks_eq hempty hcoins hw hpos hwidth hpath
    rw [hv] at heq
    cases heq
  · obtain ⟨x, hx, rfl, -, -, hs⟩ := hd.recorded w p _ hrecord
    refine ⟨x.shard, hin, hpath, x, hx, rfl, hs ▸ hrecord, ?_⟩
    have hcoins : (layer (net.derive ctx) F x.shard w).coins =
        (layer (net.derive ctx) x.blocks x.shard w).coins := congrArg Subtree.coins hs
    exact layer_blocks_eq ((hd.sent x hx).2.2.trans hF) hcoins.symm hw hpos hwidth hpath
  · exact ⟨a, ha, hpre.trans hpath, x, hx, hxa, hrec, hblocks block hpos hwidth hpath⟩

/-- Every non-empty block of `F` is accounted for by an entry above it. -/
def Accounted (net : Network ν) (ctx : Bytes32) (F : Blocks ν) (d : Deployment ν) : Prop :=
  ∀ block v, F.map.get? block = some v → ∃ x ∈ d.sent,
    x.shard ∈ indexed d.global.entries (creationWidth block) ∧ x.shard <+: blockPath block ∧
    d.global.subtrees (creationWidth block) x.shard =
      some (recordOf (layer (net.derive ctx) x.blocks x.shard (creationWidth block))) ∧
    x.blocks.map.get? block = F.map.get? block

omit [DecidableEq ν] in
/-- When every block is accounted for, every entry's record is the newest. -/
theorem Accounted.record_eq (hall : Accounted net ctx F d) (hd : Sound net ctx d)
    (hF : Grown d.blocks F) {a : List Bool} (ha : a ∈ indexed d.global.entries w) :
    Reportable w a ∧ d.global.subtrees w a = some (recordOf (layer (net.derive ctx) F a w)) := by
  obtain ⟨s, hs⟩ := Option.ne_none_iff_exists'.mp (hd.entries w a ha)
  obtain ⟨x, hx, rfl, hreportable, -, rfl⟩ := hd.recorded w a s hs
  refine ⟨hreportable, ?_⟩
  have hgrown := (hd.sent x hx).2.2.trans hF
  have hsame : layer (net.derive ctx) x.blocks x.shard w = layer (net.derive ctx) F x.shard w := by
    apply layer_congr hreportable.2.2
    intro block hpos hwidth hpath
    cases hv : F.map.get? block with
    | none =>
      have hzero : coinsAt F block = 0 := by simp [coinsAt, hv]
      obtain ⟨_, heq⟩ := hgrown block
      rw [← hv]
      exact heq (by omega)
    | some v =>
      obtain ⟨z, hz, hzin, hzpath, hzrecord, hzblock⟩ := hall block v hv
      subst hwidth
      -- two entries above one block are one entry
      have hzx : z.shard = x.shard := by
        rcases prefix_or_prefix_of_prefix hzpath hpath with hpre | hpre
        · exact hd.free.eq_of_prefix hzin ha hpre
        · exact (hd.free.eq_of_prefix ha hzin hpre).symm
      rw [hzx, hs] at hzrecord
      have hcoins : (layer (net.derive ctx) x.blocks x.shard (creationWidth block)).coins =
          (layer (net.derive ctx) z.blocks x.shard (creationWidth block)).coins :=
        congrArg Subtree.coins (Option.some.inj hzrecord)
      rw [← hv, ← hzblock]
      rcases hd.chain x hx z hz with hxz | hzx'
      · exact layer_blocks_eq hxz hcoins hreportable.2.2 hpos rfl hpath
      · exact (layer_blocks_eq hzx' hcoins.symm hreportable.2.2 hpos rfl hpath).symm
  rw [hs, hsame]

/-! ## Folding the entries -/

section Fold

omit [DecidableEq ν]

variable {h : Hasher ν} {index : Index}

/-- Coin counts with values. -/
def pairHasher (h : Hasher ν) : Hasher (Nat × ν) :=
  ⟨(0, h.zero), fun a b => (a.1 + b.1, h.parent a.2 b.2)⟩

/-- The coins and the value of a node. -/
def pairOf (t : TreeNode ν) : Nat × ν := (t.coins, t.node)

/-- The positions of the entries, each with a value taken from its layer. -/
def entryNodes {μ : Type*} (h : Hasher ν) (F : Blocks ν) (f : TreeNode ν → μ) (index : Index) :
    List (Nat × Nat × μ) :=
  index.map fun e => (layerLevel e.1 e.2, layerIndex e.2, f (layer h F e.2 e.1))

theorem placeOf_entryNodes {μ : Type*} (f : Nat × ν → μ) (l i : Nat) :
    (placeOf (entryNodes h F pairOf index) l i).map f =
      placeOf (entryNodes h F (fun t => f (pairOf t)) index) l i := by
  rw [← placeOf_map f]
  unfold entryNodes
  rw [map_map]
  rfl

theorem prefixFree_index {μ : Type*} (f : Nat × List Bool → μ) (hfree : IndexFree index)
    (hreport : ∀ e ∈ index, Reportable e.1 e.2) :
    PrefixFree (index.map fun e => (layerLevel e.1 e.2, layerIndex e.2, f e)) := by
  unfold PrefixFree
  rw [pairwise_map]
  apply hfree.imp_of_mem
  intro a b ha hb hab
  rw [(hreport a ha).under_iff (hreport b hb), (hreport b hb).under_iff (hreport a ha)]
  refine ⟨?_, ?_⟩
  · rintro ⟨hwidth, hpre⟩
    exact hab hwidth (.inr hpre)
  · rintro ⟨hwidth, hpre⟩
    exact hab hwidth.symm (.inl hpre)

/-- Entries that lie over all blocks, each with its layer of the contents, give
the root over all blocks. -/
theorem entries_node (hfree : IndexFree index) (hreport : ∀ e ∈ index, Reportable e.1 e.2)
    (hcover : ∀ block v, F.map.get? block = some v →
      ∃ e ∈ index, e.1 = creationWidth block ∧ e.2 <+: blockPath block) :
    node (pairHasher h) (placeOf (entryNodes h F pairOf index)) depth 0 =
      pairOf (content h F.map.get? depth 0) := by
  have hhom : ∀ l i, pairOf (content h F.map.get? l i) =
      node (pairHasher h) (fun l i => (blockPlace F.map.get? l i).map pairOf) l i :=
    fun l i => node_hom (h := treeHasher h) (g := pairHasher h) _ pairOf rfl (fun _ _ => rfl) l i
  have hfree' : PrefixFree (entryNodes h F pairOf index) := prefixFree_index _ hfree hreport
  rw [hhom]
  apply node_coarsen
  · intro l i n hn
    obtain ⟨_, _, heq⟩ := mem_map.mp (mem_of_placeOf hn)
    cases heq
    exact hhom _ _
  · intro l i hplaced
    unfold blockPlace at hplaced
    split at hplaced
    · rename_i hl
      subst hl
      cases hv : F.map.get? i with
      | none => simp [hv] at hplaced
      | some v =>
        obtain ⟨e, he, hwidth, hpre⟩ := hcover i v hv
        have hpos := (isAllocatedWidth_iff.mp (F.valid i v hv).1).1
        refine ⟨layerLevel e.1 e.2, layerIndex e.2, ?_, ?_⟩
        · exact (under_layer_iff hpos (hreport e he).2.2).mpr ⟨hwidth.symm, hpre⟩
        · have hmem : (layerLevel e.1 e.2, layerIndex e.2, pairOf (layer h F e.2 e.1)) ∈
              entryNodes h F pairOf index := mem_map.mpr ⟨e, he, rfl⟩
          rw [hfree'.placeOf_eq hmem]
          simp
    · exact absurd rfl hplaced
  · intro l i _ hlt
    cases hplace : placeOf (entryNodes h F pairOf index) l i with
    | none => rfl
    | some =>
      obtain ⟨e, he, heq⟩ := mem_map.mp (mem_of_placeOf hplace)
      cases heq
      have := (hreport e he).range.1
      omega

/-- What is collected from an index whose records are known. -/
theorem collectSubtrees_ok {subtrees : Nat → List Bool → Option (Subtree ν)}
    {f : Nat × List Bool → Subtree ν} (hrecords : ∀ e ∈ index, subtrees e.1 e.2 = some (f e))
    {start total : Nat} {nodes : List (Nat × List Bool × ν)}
    (hcollect : collectSubtrees subtrees index start = .ok (total, nodes)) :
    total = start + (index.map fun e => (f e).coins).sum ∧
      nodes = index.map fun e => (e.1, e.2, (f e).root) := by
  induction index generalizing start total nodes with
  | nil =>
    cases hcollect
    simp
  | cons e rest ih =>
    obtain ⟨width, shard⟩ := e
    have hhead := hrecords (width, shard) mem_cons_self
    simp only [collectSubtrees, hhead] at hcollect
    split at hcollect
    · cases hcollect
    split at hcollect
    · cases hcollect
    rename_i total' nodes' hrest
    cases hcollect
    obtain ⟨htotal, hnodes⟩ := ih (fun e he => hrecords e (mem_cons_of_mem _ he)) hrest
    rw [htotal, hnodes, map_cons, map_cons, sum_cons]
    exact ⟨by omega, rfl⟩

theorem subtreeNodes_ok (subtrees : List (Nat × List Bool × ν))
    (hreport : ∀ x ∈ subtrees, Reportable x.1 x.2.1) :
    subtreeNodes subtrees =
      .ok (subtrees.map fun x => (layerLevel x.1 x.2.1, layerIndex x.2.1, x.2.2)) := by
  induction subtrees with
  | nil => rfl
  | cons x rest ih =>
    obtain ⟨width, shard, root⟩ := x
    have hpos := subtreePosition_ok_iff.mpr ⟨hreport (width, shard, root) mem_cons_self, rfl⟩
    simp only [subtreeNodes, hpos, ih fun x hx => hreport x (mem_cons_of_mem _ hx)]
    rfl

/-- Entries that do not overlap fold without an error, whatever they hold. -/
theorem foldApplicationRoot_ok (hfree : IndexFree index)
    (hreport : ∀ e ∈ index, Reportable e.1 e.2) (f : Nat × List Bool → ν) :
    foldApplicationRoot h (index.map fun e => (e.1, e.2, f e)) =
      .ok (node h (placeOf (index.map fun e => (layerLevel e.1 e.2, layerIndex e.2, f e)))
        depth 0) := by
  have hconst : depth = 32 ∧ ShardedTree.maxDepth = 32 := ⟨rfl, rfl⟩
  have hnodes := subtreeNodes_ok (index.map fun e => (e.1, e.2, f e)) (by
      intro x hx
      obtain ⟨e, he, rfl⟩ := mem_map.mp hx
      exact hreport e he)
  have hfold := ShardedTree.foldSparse_ok (h := h) (show 0 < depth by omega) (by omega)
    (prefixFree_index f hfree hreport)
    (by
      intro x hx
      obtain ⟨e, he, rfl⟩ := mem_map.mp hx
      exact (hreport e he).range)
  rw [map_map] at hnodes
  simp only [foldApplicationRoot, hnodes, Function.comp_def, hfold]

/-- Over entries that account for all blocks, the application root is the root over all blocks and
the coins add up to theirs. -/
theorem foldApplicationRoot_entries (hfree : IndexFree index)
    (hreport : ∀ e ∈ index, Reportable e.1 e.2)
    (hcover : ∀ block v, F.map.get? block = some v →
      ∃ e ∈ index, e.1 = creationWidth block ∧ e.2 <+: blockPath block) :
    foldApplicationRoot h (index.map fun e => (e.1, e.2, (layer h F e.2 e.1).node)) =
        .ok (content h F.map.get? depth 0).node ∧
      (index.map fun e => (layer h F e.2 e.1).coins).sum =
        (content h F.map.get? depth 0).coins := by
  have hpair := entries_node (h := h) hfree hreport hcover
  constructor
  · have hroot := node_hom (h := pairHasher h) (g := h)
      (placeOf (entryNodes h F pairOf index)) Prod.snd rfl (fun _ _ => rfl) depth 0
    simp only [placeOf_entryNodes] at hroot
    rw [hpair] at hroot
    rw [foldApplicationRoot_ok hfree hreport]
    exact congrArg _ hroot.symm
  · have hcoins := node_hom (h := pairHasher h) (g := adder)
      (placeOf (entryNodes h F pairOf index)) Prod.fst rfl (fun _ _ => rfl) depth 0
    simp only [placeOf_entryNodes] at hcoins
    have hsum := prefixFree_index (fun e => (pairOf (layer h F e.2 e.1)).1) hfree hreport
    rw [hpair, entryNodes, node_sum _ hsum depth 0] at hcoins
    · rw [map_map] at hcoins
      exact hcoins.symm
    · intro x hx
      obtain ⟨e, he, rfl⟩ := mem_map.mp hx
      obtain ⟨hlevel, hindex⟩ := (hreport e he).range
      exact ⟨hlevel.le, Nat.div_eq_of_lt hindex⟩

end Fold

/-! ## Convergence -/

/-- The published root and count are the fold and the sum over all blocks; nothing is published
while there are none. -/
def RootIsCurrent (net : Network ν) (ctx : Bytes32) (d : Deployment ν) : Prop :=
  (d.global.published = none → d.blocks.map.entries = []) ∧
    ∀ current, d.global.published = some current →
      current.context = ctx ∧ current.depth = depth ∧ current.coins = totalCoins d.blocks ∧
        ShardedTree.foldSparse (net.derive ctx) depth (blockNodes d.blocks) = .ok current.root

open Option

omit [DecidableEq ν] in
/-- Where every block is accounted for, the root is current. -/
theorem Accounted.rootIsCurrent (hall : Accounted net ctx d.blocks d)
    (hd : Sound net ctx d) : RootIsCurrent net ctx d := by
  have hgrown := Grown.refl d.blocks
  have hcover : ∀ block v, d.blocks.map.get? block = some v →
      ∃ e ∈ d.global.entries, e.1 = creationWidth block ∧ e.2 <+: blockPath block := by
    intro block v hv
    obtain ⟨x, -, hin, hpre, -, -⟩ := hall block v hv
    exact ⟨(creationWidth block, x.shard), hin, rfl, hpre⟩
  rcases hd.published with ⟨hindex, hpublished⟩ | ⟨index, hindex, coins, nodes, root, hcollect, hfold,
    hpublished⟩
  · -- no entry, so no block
    refine ⟨fun _ => ?_, fun current hcurrent => by rw [hpublished] at hcurrent; cases hcurrent⟩
    have hentries : d.global.entries = [] := by simp [GlobalState.entries, hindex]
    rw [hentries] at hcover
    cases hblocks : d.blocks.map.entries with
    | nil => rfl
    | cons e =>
      have hmem : (e.1, e.2) ∈ d.blocks.map.entries := by rw [hblocks]; exact mem_cons_self
      obtain ⟨_, hnone, -⟩ := hcover e.1 e.2 (OrdMap.mem_entries_iff.mp hmem)
      cases hnone
  · have hentries : d.global.entries = index := by simp [GlobalState.entries, hindex]
    have hfree := hd.free
    rw [hentries] at hcover hfree
    have hrecords : ∀ e ∈ index, Reportable e.1 e.2 ∧ d.global.subtrees e.1 e.2 =
        some (recordOf (layer (net.derive ctx) d.blocks e.2 e.1)) := by
      intro e he
      apply hall.record_eq hd hgrown
      rw [hentries]
      exact he
    obtain ⟨htotal, hnodes⟩ := collectSubtrees_ok (fun e he => (hrecords e he).2) hcollect
    obtain ⟨hroot, hcoins⟩ := foldApplicationRoot_entries (h := net.derive ctx) hfree
      (fun e he => (hrecords e he).1) hcover
    refine ⟨fun hnone => (by rw [hpublished] at hnone; cases hnone), fun current hcurrent => ?_⟩
    obtain rfl := some.inj (hpublished.symm.trans hcurrent)
    refine ⟨rfl, rfl, ?_, ?_⟩
    · simp only
      rw [htotal, zero_add, totalCoins_eq (h := net.derive ctx)]
      exact hcoins
    · rw [hnodes] at hfold
      have heq := hroot.symm.trans hfold
      rw [foldSparse_blockNodes]
      exact congrArg _ (Except.ok.inj heq)

/-- In the late phase only shards of the grid reported, each with its newest contents, and every
non-empty block that no shard of the grid owns whole was fully reported by an indexed ancestor. -/
structure CaughtUp (network : Network ν) (app context : Bytes32)
    (early late : List (AccumulatorOp ν)) (grid : List (List Bool)) : Prop where
  grid_free : GridFree grid
  late_from_grid : ∀ e ∈ Run.events (accumulatorStep network app context)
    (deployment network app context early) late, FromGrid grid e
  current : ∀ p ∈ grid, ∀ report,
    shardReport context (deployment network app context (early ++ late)).tree p [] =
      .ok (some report) →
    ∃ e ∈ Run.events (accumulatorStep network app context)
      (deployment network app context early) late, Applies e p report.subtrees
  unowned : ∀ block v,
    (deployment network app context (early ++ late)).blocks.map.get? block = some v →
    (∀ p ∈ grid, shardOwnsBlock p block = false) →
    ∃ x, RecordedFrom (deployment network app context (early ++ late))
        (creationWidth block) x ∧
      x.shard ∈ indexed (deployment network app context (early ++ late)).global.entries
        (creationWidth block) ∧
      x.shard <+: blockPath block ∧ x.blocks.map.get? block = some v

/-- Every layer of the grid is settled once GLOBAL has caught up. -/
theorem CaughtUp.settled {early late : List (AccumulatorOp ν)}
    (hcaught : CaughtUp net app ctx early late grid)
    (hcovered : ∀ e ∈ accumulatorEvents net app ctx (early ++ late),
      FrozenCovered app e) (hp : p ∈ grid) (hw : Reportable w p) :
    Settled net app ctx
      (deployment net app ctx (early ++ late)).blocks p w
      (deployment net app ctx (early ++ late)) := by
  have hD := sound_run net app ctx (early ++ late)
  by_cases hempty : (layersOf (net.derive ctx)
      (deployment net app ctx (early ++ late)).blocks p).isEmpty
  · -- a shard without coins sends no report
    left
    by_contra hblocks
    have hmem := layer_mem_layersOf hw hblocks
    rw [isEmpty_iff.mp hempty] at hmem
    cases hmem
  · have hreport := shardReport_ok hD.tree ctx p []
    simp only [hempty, Bool.false_and, if_false, Bool.false_eq_true] at hreport
    obtain ⟨e, he, frame, position, x, _, hinput, hx, rfl, hlayers, hresult⟩ :=
      hcaught.current p hp _ hreport
    obtain ⟨before, after, hlate, hevent⟩ := mem_events _ he
    rw [hinput] at hlate hevent
    -- the deployment when the newest report arrives
    have hsplit : early ++ late = (early ++ before) ++ (.deliver frame position :: after) := by
      rw [hlate, append_assoc]
    have hbefore : final (accumulatorStep net app ctx)
        (deployment net app ctx early) before = deployment net app ctx (early ++ before) :=
      (final_append _ _ _ _).symm
    rw [hbefore] at hevent
    have hx' : (deployment net app ctx (early ++ before)).sent[position]? = some x := by
      rw [hevent] at hx
      exact hx
    have hsound := sound_run net app ctx (early ++ before)
    have hfinal : deployment net app ctx (early ++ late) = final (accumulatorStep net app ctx)
          (accumulatorStep net app ctx
            (deployment net app ctx (early ++ before))
            (.deliver frame position)).2 after := by
      rw [hsplit]
      exact final_append _ _ _ _
    have hgrown : Grown (deployment net app ctx (early ++ before)).blocks
        (deployment net app ctx (early ++ late)).blocks := by
      rw [hfinal]
      exact (grown_step net app ctx _ _).trans
        (grown_run net app ctx _ after)
    obtain ⟨_, hmaterialized, hstep⟩ := deliver_event hevent hresult hx'
    obtain ⟨placement, _, hm, -⟩ := materializeReport_ok hmaterialized
    have hmember : e ∈ accumulatorEvents net app ctx (early ++ late) := by
      unfold accumulatorEvents
      rw [events_append]
      exact mem_append_right _ he
    have hcov := hcovered e hmember frame position x placement hinput hx
    rw [hevent] at hcov
    have hset := settled_of_current hsound hgrown (mem_of_getElem? hx') hlayers hm
      (hcov hm.width) hw
    rw [← hstep] at hset
    have hrun := hset.run hcaught.grid_free hp after (sound_step hsound _)
      (by rw [← hfinal]; exact Grown.refl _)
      (by
        intro e' he'
        apply hcaught.late_from_grid
        rw [hlate, events_append, hbefore]
        exact mem_append_right _ (mem_cons_of_mem _ he'))
    rw [← hfinal] at hrun
    exact hrun

/-- **The canonical root converges.**  Where the frozen rule only skips layers that the ancestor's
record contains, once GLOBAL has caught up the published root and coin count are those of all
blocks. -/
theorem canonical_root_converges_when_covered (net : Network ν)
    (app ctx : Bytes32) (early late : List (AccumulatorOp ν))
    (grid : List (List Bool))
    (hcovered : ∀ e ∈ accumulatorEvents net app ctx (early ++ late), FrozenCovered app e)
    (hcaught : CaughtUp net app ctx early late grid) :
    RootIsCurrent net ctx (deployment net app ctx (early ++ late)) := by
  have hD := sound_run net app ctx (early ++ late)
  have hgrown := Grown.refl (deployment net app ctx (early ++ late)).blocks
  apply Accounted.rootIsCurrent _ hD
  intro block v hv
  obtain ⟨hpos, hlo, hhi⟩ := isAllocatedWidth_iff.mp (Blocks.valid _ block v hv).1
  by_cases howned : ∃ p ∈ grid, shardOwnsBlock p block = true
  · obtain ⟨p, hp, howns⟩ := howned
    have hpath := shardOwnsBlock_iff.mp howns
    have hlen : p.length ≤ creationWidth block := by
      rw [← blockPath_length]
      exact hpath.length_le
    have hset := hcaught.settled hcovered hp ⟨hlo, hhi, hlen⟩
    obtain ⟨_, ha, hpre, x, hx, rfl, hrecord, hblock⟩ :=
      hset.covers hD hgrown hlen hv hpos rfl hpath
    exact ⟨x, hx, ha, hpre, hrecord, hblock⟩
  · obtain ⟨x, hrecorded, hin, hpre, hblock⟩ := hcaught.unowned block v hv (by
      intro p hp
      rw [← Bool.not_eq_true]
      exact fun howns => howned ⟨p, hp, howns⟩)
    exact ⟨x, hrecorded.1, hin, hpre, hD.recordedFrom hrecorded, hblock.trans hv.symm⟩

/-- A network with a small node hash. -/
def plainNetwork : Network Nat where
  derive := fun _ => ⟨0, fun a b => 2 * a + 3 * b + 1⟩
  rootDigest := fun _ _ root => BitVec.ofNat 256 root
  blockRecordAddress := fun _ => 0
  orphanReplacementFrame := 0

/-- A complete grid that descends to seven bits along one path. -/
def deepGrid : List (List Bool) :=
  [[false], [true, false], [true, true, false], [true, true, true, false],
    [true, true, true, true, false], [true, true, true, true, true, false],
    [true, true, true, true, true, true, false], [true, true, true, true, true, true, true]]

/-- The whole application reports one coin of width six, then the split to
seven bits raises the width. -/
def beforeSplit : List (AccumulatorOp Nat) :=
  [.receive [(64, 0, 11)], .report [] [], .deliver 10 0, .raise 7]

/-- A second coin, committed before the split, arrives in the same block, and its owner reports it.
-/
def lateCoin : List (AccumulatorOp Nat) :=
  [.receive [(64, 0, 12)], .report [false] [], .deliver 12 1]

/-- The same reports without the late coin, and a coin of the new width. -/
def freshCoin : List (AccumulatorOp Nat) :=
  [.receive [(128, 0, 12)], .report [false] [], .deliver 12 1]

/-- The deployment before the last delivery of a late phase: the second report
is sent. -/
def reported (growths : List (Nat × Nat × Nat)) : Deployment Nat :=
  deployment plainNetwork 5 7 (beforeSplit ++ [.receive growths, .report [false] []])

/-- The deployment after the late phase. -/
def delivered (growths : List (Nat × Nat × Nat)) : Deployment Nat :=
  deployment plainNetwork 5 7 (beforeSplit ++ [.receive growths, .report [false] [], .deliver 12 1])

/-- A refresh, a report and its delivery catch up where the reporting shard owns every block and no
other shard of the grid one. -/
theorem caughtUp_of_one (growths : List (Nat × Nat × Nat)) (changed : Bool)
    (hshard : (reported growths).sent[1]?.map Sent.shard = some [false])
    (hresult : (accumulatorStep plainNetwork 5 7 (reported growths) (.deliver 12 1)).1 =
      .delivered (.ok changed))
    (hnewest : (shardReport 7 (delivered growths).tree [false] []).toOption.bind
        (Option.map ShardReport.subtrees) =
      (reported growths).sent[1]?.map fun x => x.report.subtrees)
    (hothers : ∀ p ∈ deepGrid.tail, shardReport 7 (delivered growths).tree p [] = .ok none)
    (howned : ∀ e ∈ (delivered growths).blocks.map.entries, shardOwnsBlock [false] e.1 = true) :
    CaughtUp plainNetwork 5 7 beforeSplit [.receive growths, .report [false] [], .deliver 12 1]
      deepGrid := by
  obtain ⟨x, hx, hshard⟩ := map_eq_some_iff.mp hshard
  rw [hx] at hnewest
  refine ⟨by unfold GridFree; decide, ?_, ?_, ?_⟩
  · intro e he shard layers happlies
    obtain ⟨_, _, y, _, hinput, hy, rfl, -, -⟩ := happlies
    simp only [events, mem_cons, not_mem_nil, or_false] at he
    rcases he with rfl | rfl | rfl
    · cases hinput
    · cases hinput
    · cases hinput
      have hxy : y = x := some.inj (hy.symm.trans hx)
      rw [hxy, hshard]
      exact mem_cons_self
  · intro p hp report hreport
    rcases mem_cons.mp hp with rfl | hp
    · refine ⟨_, mem_cons_of_mem _ (mem_cons_of_mem _ mem_cons_self), 12, 1, x,
        changed, rfl, hx, hshard, ?_, hresult⟩
      change shardReport 7 (delivered growths).tree [false] [] = _ at hreport
      rw [hreport] at hnewest
      exact (some.inj hnewest).symm
    · have hnone := hothers p hp
      change shardReport 7 (delivered growths).tree p [] = _ at hreport
      rw [hreport] at hnone
      cases hnone
  · intro block v hv hunowned
    have howns := howned (block, v) (OrdMap.mem_entries_iff.mpr hv)
    rw [hunowned [false] mem_cons_self] at howns
    cases howns

/-- The frozen rule keeps the report of one coin in place of that of two: every shard is caught up,
and the root lacks the coin. -/
theorem late_coin_missing_from_root : CaughtUp plainNetwork 5 7 beforeSplit lateCoin deepGrid ∧
      ¬ RootIsCurrent plainNetwork 7 (deployment plainNetwork 5 7 (beforeSplit ++ lateCoin)) := by
  refine ⟨caughtUp_of_one [(64, 0, 12)] false (by decide +kernel) (by decide +kernel)
    (by decide +kernel) (by decide +kernel) (by decide +kernel), ?_⟩
  have hpublished : (deployment plainNetwork 5 7 (beforeSplit ++ lateCoin)).global.published.map
      RootRecord.coins = some 1 := by decide +kernel
  have htotal : totalCoins (deployment plainNetwork 5 7 (beforeSplit ++ lateCoin)).blocks = 2 := by
    decide +kernel
  intro hroot
  obtain ⟨current, hcurrent, hcoins⟩ := map_eq_some_iff.mp hpublished
  have hsum := (hroot.2 current hcurrent).2.2.1
  rw [hcoins, htotal] at hsum
  cases hsum

/-- The refresh and report of a coin of the new width leave the frozen layer as the whole
application reported it. -/
theorem freshCoin_covered : ∀ e ∈ accumulatorEvents plainNetwork 5 7 (beforeSplit ++ freshCoin),
    FrozenCovered 5 e := by
  intro e he frame position x placement hinput hx hplacement y hy a ha hfrozen hlen hpre
  simp only [accumulatorEvents, beforeSplit, freshCoin, cons_append, nil_append, events,
    mem_cons, not_mem_nil, or_false] at he
  rcases he with rfl | rfl | rfl | rfl | rfl | rfl | rfl
  · cases hinput
  · cases hinput
  · -- the width is not raised yet
    cases hinput
    have hwidths : ∀ x ∈ (deployment plainNetwork 5 7 (beforeSplit.take 2)).sent[0]?,
        ∀ y ∈ x.report.subtrees, y.width = 6 := by decide +kernel
    have hwidth : placementWidth (deployment plainNetwork 5 7 (beforeSplit.take 2)).global.records 5 =
      .ok 6 := by decide +kernel
    have hplaced : placement = 6 := Except.ok.inj (hplacement.symm.trans hwidth)
    have hsix := hwidths x hx y hy
    omega
  · cases hinput
  · cases hinput
  · cases hinput
  · cases hinput
    have hrecord : ∃ z ∈ (reported [(128, 0, 12)]).sent, z.shard = [] ∧
        (∃ y ∈ z.report.subtrees, y.width = 6 ∧
          (reported [(128, 0, 12)]).global.subtrees 6 [] = some ⟨y.coins, y.root⟩) ∧
        ∀ x ∈ (reported [(128, 0, 12)]).sent[1]?, ∀ e ∈ x.blocks.map.entries,
          creationWidth e.1 = 6 → coinsAt x.blocks e.1 ≤ coinsAt z.blocks e.1 := by decide +kernel
    have hwidths : ∀ x ∈ (reported [(128, 0, 12)]).sent[1]?, ∀ y ∈ x.report.subtrees,
        y.width < 7 → y.width = 6 := by decide +kernel
    have hwidth : placementWidth (reported [(128, 0, 12)]).global.records 5 = .ok 7 := by
      decide +kernel
    have hindex : ∀ e ∈ (reported [(128, 0, 12)]).global.entries, e.2 = [] := by decide +kernel
    obtain rfl : placement = 7 := Except.ok.inj (hplacement.symm.trans hwidth)
    have hsix := hwidths x hx y hy hfrozen
    have hroot : a = [] := hindex (y.width, a) ha
    obtain ⟨z, hz, hshard, hfrom, hcoins⟩ := hrecord
    refine ⟨z, ⟨hz, ?_⟩, hshard.trans hroot.symm, ?_⟩
    · rw [hsix, hshard]
      exact hfrom
    · intro block hblock _
      cases hget : x.blocks.map.get? block with
      | none => simp only [coinsAt, hget, map_none, getD_none, Nat.zero_le]
      | some v =>
        exact hcoins x hx (block, v) (OrdMap.mem_entries_iff.mpr hget) (hblock.trans hsix)

/-- A coin of the new width is found by the root. -/
theorem fresh_coin_reaches_root : CaughtUp plainNetwork 5 7 beforeSplit freshCoin deepGrid ∧
      RootIsCurrent plainNetwork 7 (deployment plainNetwork 5 7 (beforeSplit ++ freshCoin)) := by
  have hcaught : CaughtUp plainNetwork 5 7 beforeSplit freshCoin deepGrid :=
    caughtUp_of_one [(128, 0, 12)] true (by decide +kernel) (by decide +kernel)
      (by decide +kernel) (by decide +kernel) (by decide +kernel)
  exact ⟨hcaught, canonical_root_converges_when_covered plainNetwork 5 7 beforeSplit freshCoin
    deepGrid freshCoin_covered hcaught⟩

end GlobalAccumulator

end Token

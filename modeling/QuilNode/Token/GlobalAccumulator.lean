import QuilNode.Token.OrphanMoves
import QuilNode.Token.ShardAccumulator

/-!
# The canonical application root (`token_intrinsic/global_accumulator.rs`)

The global materializer records each subtree a shard's header reports, keeps an index of the
subtrees that make up the application, folds them into its root and publishes that root into a
bounded history.  A report that fails is rolled back with its header message.
-/

namespace Token

namespace GlobalAccumulator

open SparseTree CoinBlocks ShardAccumulator GlobalCommit List Or

/-- Subtrees one application's index may hold. -/
def maxSubtrees : Nat := 4096

/-- Roots one history retains. -/
def historyLimit : Nat := 128

def invalid (msg : String) : QuilError :=
  .invalidArgument ("global accumulator: " ++ msg)

def historyInvalid : QuilError := .invalidArgument "coin root: invalid history record"

/-- The node hash of a parameter context, the digest of a root, the address of a block's records,
the frame attestations start at. -/
structure Network (ν : Type*) where
  derive : Bytes32 → Hasher ν
  rootDigest : Bytes32 → Nat → ν → Bytes32
  blockRecordAddress : Nat → Bytes32
  orphanReplacementFrame : Nat

/-- One recorded subtree. -/
structure Subtree (ν : Type*) where
  coins : Nat
  root : ν
  deriving DecidableEq

structure RootRecord (ν : Type*) where
  context : Bytes32
  depth : Nat
  coins : Nat
  root : ν
  deriving DecidableEq

/-- A published history: the current root and the retained digests, oldest
first. -/
structure History (ν : Type*) where
  current : RootRecord ν
  digests : List Bytes32

/-- The `(width, shard)` entries of the application's current subtrees. -/
abbrev Index := List (Nat × List Bool)

/-- One application's GLOBAL records: the index with its context, the recorded subtrees, the current
root, and the records of `GlobalCommit`. -/
structure GlobalState (ν : Type*) where
  index : Option (Bytes32 × Index)
  subtrees : Nat → List Bool → Option (Subtree ν)
  published : Option (RootRecord ν)
  records : Records

/-- The indexed entries. -/
def GlobalState.entries {ν : Type*} (state : GlobalState ν) : Index :=
  (state.index.map Prod.snd).getD []

/-- No report has arrived. -/
def GlobalState.empty {ν : Type*} : GlobalState ν := ⟨none, fun _ _ => none, none, Store.empty⟩

variable {ν : Type*}

section Materialize

variable [DecidableEq ν] (net : Network ν) (app : Bytes32)

/-- What decoding a history under `ctx` checks. -/
def History.wellFormed (history : History ν) (ctx : Bytes32) : Bool :=
  history.current.context == ctx &&
    (decide (history.current.depth ≠ 0) && decide (history.current.depth ≤ ShardedTree.maxDepth) &&
      decide (history.current.coins ≤ 1 <<< history.current.depth)) &&
    decide (history.digests ≠ []) && decide (history.digests.length ≤ historyLimit) &&
    decide history.digests.Nodup &&
    decide (history.digests.getLast? =
      some (net.rootDigest ctx history.current.depth history.current.root))

/-- The digests after publishing `digest`: it becomes the last, and the oldest
goes when the history is full. -/
def publishDigest (digests : List Bytes32) (digest : Bytes32) : List Bytes32 :=
  if digests.getLast? = some digest then digests
  else
    let kept := digests.filter (· ≠ digest) ++ [digest]
    if historyLimit < kept.length then kept.drop 1 else kept

/-- Publish `current` into a history, creating it when there is none. -/
def publishHistory (existing : Option (History ν)) (current : RootRecord ν) : Result (History ν) :=
  let history := existing.getD ⟨current, []⟩
  if existing.isSome && !history.wellFormed net current.context then .error historyInvalid
  else if current.context ≠ history.current.context then .error historyInvalid
  else
    let published : History ν := ⟨current, publishDigest history.digests
      (net.rootDigest current.context current.depth current.root)⟩
    if published.wellFormed net current.context then .ok published
    else .error historyInvalid

/-! ## Reports -/

/-- Whether one path is a prefix of the other. -/
def overlaps (a b : List Bool) : Bool :=
  let n := min a.length b.length
  a.take n == b.take n

/-- Whether `shard` holds the records of `block`: its path begins their
address. -/
def holdsBlockRecords (shard : List Bool) (block : Nat) : Bool :=
  decide (shard.length ≤ 256) &&
    decide (shard = addressBits shard.length (net.blockRecordAddress block))

/-- Every layer has a position for the shard. -/
def checkPositions (shard : List Bool) : List (SubtreeReport ν) → Result Unit
  | [] => .ok ()
  | x :: rest =>
    match subtreePosition x.width shard with
    | .error e => .error e
    | .ok _ => checkPositions shard rest

/-- Structural check of a report: layers the shard can own, attestations of narrower blocks on its
path whose records it holds. -/
def verifyReport (shard : List Bool) (report : ShardReport ν) : Result Unit :=
  match report.validate with
  | .error e => .error e
  | .ok () =>
    match checkPositions shard report.subtrees with
    | .error e => .error e
    | .ok () =>
      if report.attestations.any fun a =>
          decide (shard.length ≤ creationWidth a.block) ||
            !holdsBlockRecords net shard a.block then
        .error (invalid "an attestation for a block this shard does not hold")
      else .ok ()

/-- Apply a report's attestations in order. -/
def applyAttestations (records : Records) : List BlockAttestation → Result Records
  | [] => .ok records
  | a :: rest =>
    match applyOrphanAttestation records app a.block a.coins a.escrows with
    | (.error e, _) => .error e
    | (.ok _, records) => applyAttestations records rest

/-- The attestations of a report, refused before the replacement frame. -/
def materializeAttestations (frame : Nat) (records : Records)
    (attestations : List BlockAttestation) : Result Records :=
  if !attestations.isEmpty && decide (frame < net.orphanReplacementFrame) then
    .error (invalid "block attestations before the orphan re-placement frame")
  else applyAttestations app records attestations

/-- The context and entries a report is recorded under. -/
def readIndex (index : Option (Bytes32 × Index)) (ctx : Bytes32) : Result (Bytes32 × Index) :=
  match index with
  | none => .ok (ctx, [])
  | some (recorded, entries) =>
    if recorded ≠ ctx then
      .error (invalid "report context differs from the application's recorded context")
    else .ok (recorded, entries)

/-- Whether an indexed ancestor of `shard` records the width, and the width is
below the placement width. -/
def frozenUnderAncestor (placement width : Nat) (shard : List Bool) (index : Index) : Bool :=
  decide (width < placement) &&
    index.any fun e => e.1 == width && decide (e.2.length < shard.length) && e.2.isPrefixOf shard

/-- The index and subtrees a report works on, and whether it changed them. -/
structure Working (ν : Type*) where
  index : Index
  subtrees : Nat → List Bool → Option (Subtree ν)
  changed : Bool

/-- Record a layer: it replaces every overlapping entry of its width. -/
def recordLayer (shard : List Bool) (work : Working ν) (x : SubtreeReport ν) : Working ν :=
  { index := (work.index.filter fun e => decide (e.1 ≠ x.width) || !overlaps e.2 shard) ++
      [(x.width, shard)]
    subtrees := fun w p => if w = x.width ∧ p = shard then some ⟨x.coins, x.root⟩
      else work.subtrees w p
    changed := true }

/-- One layer of a report. -/
def admitLayer (placement : Nat) (shard : List Bool) (work : Working ν) (x : SubtreeReport ν) :
    Result (Working ν) :=
  if frozenUnderAncestor placement x.width shard work.index then .ok work
  else
    match work.subtrees x.width shard with
    | none => .ok (recordLayer shard work x)
    | some existing =>
      if x.coins < existing.coins then .ok work
      else if existing.coins = x.coins then
        if existing.root ≠ x.root then
          .error (invalid "equivocating report: same coins, different root")
        -- a heartbeat; after a topology change it may have to be re-admitted
        else if work.index.any fun e => e.1 == x.width && e.2 == shard then .ok work
        else .ok (recordLayer shard work x)
      else .ok (recordLayer shard work x)

/-- The layers of a report, in order. -/
def admitLayers (placement : Nat) (shard : List Bool) :
    List (SubtreeReport ν) → Working ν → Result (Working ν)
  | [], work => .ok work
  | x :: rest, work =>
    match admitLayer placement shard work x with
    | .error e => .error e
    | .ok work => admitLayers placement shard rest work

/-! ## Publication -/

/-- A shard path as its length and its bits, left-aligned in 64. -/
def packShard (shard : List Bool) : Result (Nat × Nat) :=
  if 64 < shard.length then .error (invalid "shard path longer than 64 bits")
  else .ok (shard.length, pathValue shard <<< (64 - shard.length))

/-- The order the index is stored in: by width, then by packed path. -/
def indexLe (a b : Nat × List Bool) : Bool :=
  decide (a.1 < b.1) || (decide (a.1 = b.1) &&
    (decide (a.2.length < b.2.length) || (decide (a.2.length = b.2.length) &&
      decide (pathValue a.2 ≤ pathValue b.2))))

/-- Encode the index's entries: every path must pack. -/
def packIndex : Index → Result Unit
  | [] => .ok ()
  | e :: rest =>
    match packShard e.2 with
    | .error e => .error e
    | .ok _ => packIndex rest

/-- The indexed subtrees with their coins added up, a `u64`. -/
def collectSubtrees (subtrees : Nat → List Bool → Option (Subtree ν)) :
    Index → Nat → Result (Nat × List (Nat × List Bool × ν))
  | [], coins => .ok (coins, [])
  | (width, shard) :: rest, coins =>
    match subtrees width shard with
    | none => .error (invalid "indexed subtree has no record")
    | some x =>
      if 2 ^ 64 ≤ coins + x.coins then .error (invalid "coin count overflow")
      else
        match collectSubtrees subtrees rest (coins + x.coins) with
        | .error e => .error e
        | .ok (total, nodes) => .ok (total, (width, shard, x.root) :: nodes)

/-- The history as it is stored. -/
def GlobalState.history (state : GlobalState ν) (app : Bytes32) : Option (History ν) :=
  match state.published, state.records (.rootHistory app) with
  | some current, some history => some ⟨current, history.digests⟩
  | _, _ => none

/-- Write a changed index, fold it and publish its root. -/
def publishIndex (state : GlobalState ν) (ctx : Bytes32) (work : Working ν) :
    Result (GlobalState ν) :=
  if maxSubtrees < work.index.length then
    .error (invalid "too many subtrees for one application")
  else
    let index := work.index.insertionSort fun a b => indexLe a b
    match packIndex index with
    | .error e => .error e
    | .ok () =>
      match collectSubtrees work.subtrees index 0 with
      | .error e => .error e
      | .ok (coins, subtrees) =>
        match foldApplicationRoot (net.derive ctx) subtrees with
        | .error e => .error e
        | .ok root =>
          match publishHistory net (state.history app)
            ⟨ctx, depth, coins, root⟩ with
          | .error e => .error e
          | .ok history =>
            .ok
              { index := some (ctx, index)
                subtrees := work.subtrees
                published := some history.current
                records := state.records.write (.rootHistory app)
                  ⟨ctx, history.digests⟩ }

/-- Record one certified header's report.  Returns whether the application's
canonical root changed. -/
def materializeReport (state : GlobalState ν) (frame : Nat) (shard : List Bool) :
    Option (ShardReport ν) → Result (Bool × GlobalState ν)
  | none => .ok (false, state)
  | some report =>
    match verifyReport net shard report with
    | .error e => .error e
    | .ok () =>
      match materializeAttestations net app frame state.records report.attestations with
      | .error e => .error e
      | .ok records =>
        match readIndex state.index report.context with
        | .error e => .error e
        | .ok (ctx, index) =>
          match placementWidth records app with
          | .error e => .error e
          | .ok placement =>
            match admitLayers placement shard report.subtrees ⟨index, state.subtrees, false⟩ with
            | .error e => .error e
            | .ok work =>
              if !work.changed then .ok (false, { state with records := records })
              else
                match publishIndex net app
                  { state with records := records } ctx work with
                | .error e => .error e
                | .ok published => .ok (true, published)

end Materialize

/-! ## One layer -/

/-- Two paths overlap where one begins the other. -/
theorem overlaps_iff {a b : List Bool} : overlaps a b = true ↔ a <+: b ∨ b <+: a := by
  simp only [overlaps, beq_iff_eq]
  rcases Nat.le_total a.length b.length with hle | hle
  · rw [Nat.min_eq_left hle, take_length]
    constructor
    · intro heq
      left
      rw [heq]
      exact take_prefix _ _
    · rintro (hab | hba)
      · exact prefix_iff_eq_take.mp hab
      · rw [hba.eq_of_length_le hle, take_length]
  · rw [Nat.min_eq_right hle, take_length]
    constructor
    · intro heq
      right
      rw [← heq]
      exact take_prefix _ _
    · rintro (hab | hba)
      · rw [hab.eq_of_length_le hle, take_length]
      · exact (prefix_iff_eq_take.mp hba).symm

/-- The shards indexed at one width. -/
def indexed (index : Index) (width : Nat) : Set (List Bool) := {p | (width, p) ∈ index}

/-- The width is frozen for `shard`: below the placement width, with an indexed
strict ancestor. -/
def Frozen (placement width : Nat) (shard : List Bool) (I : Set (List Bool)) : Prop :=
  width < placement ∧ ∃ a ∈ I, a.length < shard.length ∧ a <+: shard

/-- What one layer of a report does to the entries and records of its width. -/
inductive LayerStep (placement : Nat) (shard : List Bool) (x : SubtreeReport ν)
    (I : Set (List Bool)) (S : List Bool → Option (Subtree ν)) :
    Set (List Bool) → (List Bool → Option (Subtree ν)) → Prop
  | frozen (hfrozen : Frozen placement x.width shard I) : LayerStep placement shard x I S I S
  | stale {existing : Subtree ν} (hexisting : S shard = some existing)
      (hcoins : x.coins < existing.coins) : LayerStep placement shard x I S I S
  | repeated (hexisting : S shard = some ⟨x.coins, x.root⟩) (hindexed : shard ∈ I) :
      LayerStep placement shard x I S I S
  | admitted (hopen : ¬ Frozen placement x.width shard I)
      (hnewer : ∀ existing, S shard = some existing →
        existing.coins < x.coins ∨ existing = ⟨x.coins, x.root⟩) :
      LayerStep placement shard x I S (insert shard {p ∈ I | ¬ (p <+: shard ∨ shard <+: p)})
        (fun p => if p = shard then some ⟨x.coins, x.root⟩ else S p)

variable {shard : List Bool} {placement : Nat}

/-- The check decides the frozen rule. -/
theorem frozenUnderAncestor_iff {width : Nat} {index : Index} :
    frozenUnderAncestor placement width shard index = true ↔
      Frozen placement width shard (indexed index width) := by
  simp only [frozenUnderAncestor, Frozen, indexed, Bool.and_eq_true, decide_eq_true_eq,
    any_eq_true, beq_iff_eq, isPrefixOf_iff_prefix, Set.mem_ofPred_eq, Prod.exists]
  constructor
  · rintro ⟨hlt, w, p, hmem, ⟨rfl, hlen⟩, hpre⟩
    exact ⟨hlt, p, hmem, hlen, hpre⟩
  · rintro ⟨hlt, p, hmem, hlen, hpre⟩
    exact ⟨hlt, width, p, hmem, ⟨rfl, hlen⟩, hpre⟩

/-- Recording a layer replaces the entries that overlap it. -/
theorem recordLayer_indexed (shard : List Bool) (work : Working ν) (x : SubtreeReport ν) :
    indexed (recordLayer shard work x).index x.width =
      insert shard {p ∈ indexed work.index x.width | ¬ (p <+: shard ∨ shard <+: p)} := by
  ext p
  simp only [indexed, recordLayer, Set.mem_ofPred_eq, mem_append, mem_filter,
    ← overlaps_iff, mem_singleton, Prod.mk.injEq, true_and, Set.mem_insert_iff]
  simp only [ne_eq, not_true_eq_false, decide_false, Bool.false_or, Bool.not_eq_true',
    Bool.not_eq_true]
  exact or_comm

variable {work : Working ν} {x : SubtreeReport ν}

/-- Other widths stay. -/
theorem recordLayer_other {w : Nat} (hw : w ≠ x.width) :
    indexed (recordLayer shard work x).index w = indexed work.index w ∧
      (recordLayer shard work x).subtrees w = work.subtrees w := by
  constructor
  · ext p
    simp [indexed, recordLayer, hw]
  · funext p
    simp [recordLayer, hw]

/-- Recording a layer writes the shard's subtree alone. -/
theorem recordLayer_subtrees (shard : List Bool) (work : Working ν) (x : SubtreeReport ν) :
    (recordLayer shard work x).subtrees x.width =
      fun p => if p = shard then some ⟨x.coins, x.root⟩ else work.subtrees x.width p := by
  funext p
  simp [recordLayer]

/-- The effect of a layer, width by width. -/
structure LayerEffect (placement : Nat) (shard : List Bool) (x : SubtreeReport ν)
    (work work' : Working ν) : Prop where
  step : LayerStep placement shard x (indexed work.index x.width) (work.subtrees x.width)
    (indexed work'.index x.width) (work'.subtrees x.width)
  other : ∀ w, w ≠ x.width → indexed work'.index w = indexed work.index w ∧
    work'.subtrees w = work.subtrees w
  kept_or_recorded : work' = work ∨ work' = recordLayer shard work x

/-- A layer that is not recorded. -/
theorem LayerEffect.kept (step : LayerStep placement shard x (indexed work.index x.width)
      (work.subtrees x.width) (indexed work.index x.width) (work.subtrees x.width)) :
    LayerEffect placement shard x work work :=
  ⟨step, fun _ _ => ⟨rfl, rfl⟩, inl rfl⟩

/-- A layer that is recorded. -/
theorem LayerEffect.recorded (hopen : ¬ Frozen placement x.width shard (indexed work.index x.width))
    (hnewer : ∀ existing, work.subtrees x.width shard = some existing →
      existing.coins < x.coins ∨ existing = ⟨x.coins, x.root⟩) :
    LayerEffect placement shard x work (recordLayer shard work x) := by
  refine ⟨?_, fun w hw => recordLayer_other hw, inr rfl⟩
  rw [recordLayer_indexed, recordLayer_subtrees]
  exact .admitted hopen hnewer

variable {work' : Working ν}

/-- **What admitting a layer does.** -/
theorem admitLayer_ok [DecidableEq ν] (h : admitLayer placement shard work x = .ok work') :
    LayerEffect placement shard x work work' := by
  unfold admitLayer at h
  split at h
  · rename_i hfrozen
    cases h
    exact .kept (.frozen (frozenUnderAncestor_iff.mp hfrozen))
  rename_i hopen
  rw [frozenUnderAncestor_iff] at hopen
  split at h
  · rename_i hnone
    cases h
    exact .recorded hopen (by simp [hnone])
  rename_i existing hexisting
  split at h
  · rename_i hstale
    cases h
    exact .kept (.stale hexisting hstale)
  split at h
  · rename_i hsame
    split at h
    · cases h
    rename_i hroot
    -- the recorded subtree is the reported one
    have heq : existing = ⟨x.coins, x.root⟩ := by
      obtain ⟨_, _⟩ := existing
      simp only [ne_eq, not_not] at hsame hroot
      rw [hsame, hroot]
    split at h
    · rename_i hany
      cases h
      simp only [any_eq_true, Bool.and_eq_true, beq_iff_eq, Prod.exists] at hany
      obtain ⟨_, _, hmem, rfl, rfl⟩ := hany
      exact .kept (.repeated (hexisting.trans (congrArg some heq)) hmem)
    · cases h
      refine .recorded hopen ?_
      intro e he
      rw [hexisting] at he
      cases he
      exact inr heq
  · cases h
    refine .recorded hopen ?_
    intro e he
    rw [hexisting] at he
    cases he
    left
    omega

/-- The effect of a report's layers on one width. -/
def WidthEffect (placement : Nat) (shard : List Bool) (layers : List (SubtreeReport ν))
    (w : Nat) (work work' : Working ν) : Prop :=
  (∃ x ∈ layers, x.width = w ∧ LayerStep placement shard x (indexed work.index w)
    (work.subtrees w) (indexed work'.index w) (work'.subtrees w)) ∨
  ((∀ x ∈ layers, x.width ≠ w) ∧ indexed work'.index w = indexed work.index w ∧
    work'.subtrees w = work.subtrees w)

variable {layers : List (SubtreeReport ν)}

/-- **What admitting the layers does to each width.** -/
theorem admitLayers_ok [DecidableEq ν] (hdistinct : (layers.map SubtreeReport.width).Nodup)
    (h : admitLayers placement shard layers work = .ok work') :
    ∀ w, WidthEffect placement shard layers w work work' := by
  induction layers generalizing work work' with
  | nil =>
    intro w
    cases h
    exact inr ⟨by simp, rfl, rfl⟩
  | cons x rest ih =>
    intro w
    obtain ⟨hnot, hrest⟩ := nodup_cons.mp hdistinct
    unfold admitLayers at h
    split at h
    · cases h
    rename_i work1 hx
    have heffect := admitLayer_ok hx
    by_cases hw : x.width = w
    · -- the later layers have other widths
      have hother : ∀ y ∈ rest, y.width ≠ w := by
        intro y hy heq
        exact hnot (mem_map.mpr ⟨y, hy, heq.trans hw.symm⟩)
      rcases ih hrest h w with ⟨y, hy, hyw, -⟩ | ⟨-, hindex, hsubtrees⟩
      · exact absurd hyw (hother y hy)
      left
      refine ⟨x, mem_cons_self, hw, ?_⟩
      rw [hindex, hsubtrees, ← hw]
      exact heffect.step
    · obtain ⟨hindex, hsubtrees⟩ := heffect.other w (Ne.symm hw)
      rcases ih hrest h w with ⟨y, hy, hyw, hstep⟩ | ⟨hnone, hindex', hsubtrees'⟩
      · left
        rw [hindex, hsubtrees] at hstep
        exact ⟨y, mem_cons_of_mem _ hy, hyw, hstep⟩
      · right
        refine ⟨?_, hindex'.trans hindex, hsubtrees'.trans hsubtrees⟩
        intro y hy
        rcases mem_cons.mp hy with rfl | hy
        · exact hw
        · exact hnone y hy

/-- What holds of the worked-on index and is kept by recording a layer holds
after all of them. -/
theorem admitLayers_invariant [DecidableEq ν] {P : Working ν → Prop}
    (hrecord : ∀ work, ∀ x ∈ layers, P work → P (recordLayer shard work x))
    (hwork : P work) (h : admitLayers placement shard layers work = .ok work') : P work' := by
  induction layers generalizing work work' with
  | nil =>
    cases h
    exact hwork
  | cons x rest ih =>
    unfold admitLayers at h
    split at h
    · cases h
    rename_i work1 hx
    have hnext : P work1 := by
      rcases (admitLayer_ok hx).kept_or_recorded with rfl | rfl
      · exact hwork
      · exact hrecord work x mem_cons_self hwork
    exact ih (fun work y hy => hrecord work y (mem_cons_of_mem _ hy)) hnext h

/-! ## A whole report -/

/-- The current root is the fold of the index, under its context. -/
def PublishedFrom (net : Network ν) (ctx : Bytes32) (index : Index)
    (subtrees : Nat → List Bool → Option (Subtree ν)) (published : Option (RootRecord ν)) : Prop :=
  ∃ coins nodes root, collectSubtrees subtrees index 0 = .ok (coins, nodes) ∧
    foldApplicationRoot (net.derive ctx) nodes = .ok root ∧
    published = some ⟨ctx, depth, coins, root⟩

/-- The layers were admitted one by one, and the root was published again if one of them was
recorded. -/
structure Materialized (network : Network ν) (app : Bytes32) (state : GlobalState ν)
    (shard : List Bool) (report : ShardReport ν) (placement : Nat) (work : Working ν)
    (state' : GlobalState ν) : Prop where
  reportable : ∀ x ∈ report.subtrees, Reportable x.width shard
  distinct : (report.subtrees.map SubtreeReport.width).Nodup
  width : placementWidth state.records app = .ok placement
  width_after : placementWidth state'.records app = .ok placement
  context : ∀ c index, state.index = some (c, index) → c = report.context
  widths : ∀ w, WidthEffect placement shard report.subtrees w
    ⟨state.entries, state.subtrees, false⟩ work
  entries : state'.entries.Perm work.index
  subtrees : state'.subtrees = work.subtrees
  outcome : (state'.index = state.index ∧ state'.published = state.published ∧
      work = ⟨state.entries, state.subtrees, false⟩) ∨
    (∃ index, state'.index = some (report.context, index) ∧
      PublishedFrom network report.context index state'.subtrees state'.published)

/-- Ascending keys are distinct. -/
theorem nodup_of_ascending {α : Type*} {key : α → Nat} {l : List α}
    (h : ascending key l = true) : (l.map key).Nodup := by
  have hsorted : (l.map key).Pairwise (· < ·) := by
    induction l with
    | nil => exact List.Pairwise.nil
    | cons a rest ih =>
      cases rest with
      | nil => simp
      | cons =>
        simp only [ascending, Bool.and_eq_true, decide_eq_true_eq] at h
        have htail := ih h.2
        refine pairwise_cons.mpr ⟨?_, htail⟩
        intro k hk
        rcases mem_cons.mp hk with rfl | hk
        · exact h.1
        · exact h.1.trans ((pairwise_cons.mp htail).1 k hk)
  exact hsorted.imp Nat.ne_of_lt

/-- Checked layers can be reported by the shard. -/
theorem checkPositions_ok (h : checkPositions shard layers = .ok ()) :
    ∀ x ∈ layers, Reportable x.width shard := by
  induction layers with
  | nil => simp
  | cons x rest ih =>
    unfold checkPositions at h
    split at h
    · cases h
    rename_i p hp
    intro y hy
    rcases mem_cons.mp hy with rfl | hy
    · exact (subtreePosition_ok_iff.mp hp).1
    · exact ih h y hy

variable {net : Network ν}

/-- The layers of a verified report, one for each width. -/
theorem verifyReport_ok {report : ShardReport ν} (h : verifyReport net shard report = .ok ()) :
    (∀ x ∈ report.subtrees, Reportable x.width shard) ∧
      (report.subtrees.map SubtreeReport.width).Nodup := by
  unfold verifyReport at h
  split at h
  · cases h
  rename_i hvalid
  split at h
  · cases h
  rename_i hpositions
  refine ⟨checkPositions_ok hpositions, ?_⟩
  unfold ShardReport.validate at hvalid
  split at hvalid
  · cases hvalid
  split at hvalid
  · cases hvalid
  split at hvalid
  · cases hvalid
  rename_i hascending
  exact nodup_of_ascending (by simpa using hascending)

variable {app : Bytes32}

/-- Attestations leave the placement width alone. -/
theorem applyAttestations_width {attestations : List BlockAttestation} {records records' : Records}
    (h : applyAttestations app records attestations = .ok records') :
    placementWidth records' app = placementWidth records app := by
  induction attestations generalizing records records' with
  | nil =>
    cases h
    rfl
  | cons a rest ih =>
    unfold applyAttestations at h
    split at h
    · cases h
    rename_i applied records1 happly
    rw [ih h]
    apply placementWidth_congr
    cases applied with
    | false => rw [applyOrphanAttestation_false happly]
    | true =>
      obtain ⟨_, _, _, _, _, _, -, -, -, -, -, hcoins, hescrows, rfl⟩ :=
        applyOrphanAttestation_true happly
      rw [Store.write_of_ne _ _ (by simp), writeSequences_of_ne (by simp),
        writeSequences_of_ne (by simp), moveDeliveries_frame hescrows _ (by simp [laneDeliveries]),
        moveDeliveries_frame hcoins _ (by simp [laneDeliveries])]

/-- Attestations leave the placement width. -/
theorem materializeAttestations_width {frame : Nat} {records records' : Records}
    {attestations : List BlockAttestation}
    (h : materializeAttestations net app frame records attestations = .ok records') :
    placementWidth records' app = placementWidth records app := by
  unfold materializeAttestations at h
  split at h
  · cases h
  · exact applyAttestations_width h

variable {state : GlobalState ν}

/-- An index is read under its own context only. -/
theorem readIndex_ok {ctx recorded : Bytes32} {index : Index}
    (h : readIndex state.index ctx = .ok (recorded, index)) :
    recorded = ctx ∧ index = state.entries ∧
      ∀ c entries, state.index = some (c, entries) → c = ctx := by
  unfold readIndex at h
  unfold GlobalState.entries
  split at h
  · rename_i hnone
    cases h
    simp [hnone]
  · rename_i c entries hsome
    split at h
    · cases h
    rename_i hcontext
    cases h
    simp only [ne_eq, not_not] at hcontext
    refine ⟨hcontext, by simp [hsome], ?_⟩
    intro c' entries' heq
    rw [hsome] at heq
    cases heq
    exact hcontext

/-- What is published is current. -/
theorem publishHistory_current [DecidableEq ν] {existing : Option (History ν)}
    {current : RootRecord ν} {history : History ν}
    (h : publishHistory net existing current = .ok history) : history.current = current := by
  unfold publishHistory at h
  simp only at h
  split at h
  · cases h
  split at h
  · cases h
  split at h
  · cases h
    rfl
  · cases h

/-- **What publishing an index writes.** -/
theorem publishIndex_ok [DecidableEq ν] {ctx : Bytes32} {state' : GlobalState ν}
    (h : publishIndex net app state ctx work = .ok state') :
    ∃ index, index.Perm work.index ∧ state'.index = some (ctx, index) ∧
      state'.subtrees = work.subtrees ∧
      PublishedFrom net ctx index work.subtrees state'.published ∧
      placementWidth state'.records app = placementWidth state.records app := by
  unfold publishIndex at h
  split at h
  · cases h
  simp only at h
  split at h
  · cases h
  split at h
  · cases h
  rename_i coins nodes hcollect
  split at h
  · cases h
  rename_i root hroot
  split at h
  · cases h
  rename_i history hhistory
  cases h
  refine ⟨_, perm_insertionSort _ _, rfl, rfl, ⟨coins, nodes, root, hcollect, hroot, ?_⟩, ?_⟩
  · rw [publishHistory_current hhistory]
  · apply placementWidth_congr
    simp only
    rw [Store.write_of_ne _ _ (by simp)]

/-- **One report.**  What a materialized report did. -/
theorem materializeReport_ok [DecidableEq ν] {state' : GlobalState ν} {frame : Nat}
    {report : ShardReport ν}
    {changed : Bool} (h : materializeReport net app state frame shard (some report) =
      .ok (changed, state')) :
    ∃ placement work, Materialized net app state shard report placement work state' ∧
      admitLayers placement shard report.subtrees ⟨state.entries, state.subtrees, false⟩ =
        .ok work := by
  unfold materializeReport at h
  simp only at h
  split at h
  · cases h
  rename_i hverify
  obtain ⟨hreportable, hdistinct⟩ := verifyReport_ok hverify
  split at h
  · cases h
  rename_i records hattest
  have hrecords := materializeAttestations_width hattest
  split at h
  · cases h
  rename_i ctx index hindex
  obtain ⟨rfl, rfl, hcontext⟩ := readIndex_ok hindex
  split at h
  · cases h
  rename_i placement hplacement
  split at h
  · cases h
  rename_i work hwork
  have hwidths := admitLayers_ok hdistinct hwork
  have hbefore : placementWidth state.records app = .ok placement := by
    rw [← hrecords]
    exact hplacement
  refine ⟨placement, work, ?_, hwork⟩
  split at h
  · rename_i hunchanged
    cases h
    -- nothing was recorded, so nothing was written
    have hsame : work = ⟨state.entries, state.subtrees, false⟩ := by
      have hinv := admitLayers_invariant
        (P := fun w : Working ν => w.changed = true ∨ w = ⟨state.entries, state.subtrees, false⟩)
        (fun _ _ _ _ => inl rfl) (inr rfl) hwork
      rcases hinv with hchanged | hsame
      · simp [hchanged] at hunchanged
      · exact hsame
    subst hsame
    exact ⟨hreportable, hdistinct, hbefore, hplacement, hcontext, hwidths, List.Perm.refl _, rfl,
      inl ⟨rfl, rfl, rfl⟩⟩
  · split at h
    · cases h
    rename_i published hpublished
    cases h
    obtain ⟨index', hperm, hindex', hsubtrees, hroot, hwidth⟩ := publishIndex_ok hpublished
    refine ⟨hreportable, hdistinct, hbefore, hwidth.trans hplacement, hcontext, hwidths, ?_,
      hsubtrees, inr ⟨index', hindex', ?_⟩⟩
    · simpa [GlobalState.entries, hindex'] using hperm
    · rw [hsubtrees]
      exact hroot

end GlobalAccumulator

end Token

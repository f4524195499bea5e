import QuilNode.Lib.Run
import QuilNode.Lib.Tally
import QuilNode.Forest.ShardPath
import QuilNode.Hypergraph.Crdt

/-!
# Size buckets

Each sub-shard has a bucket: how many vertices were ever added in it and how many bytes are live.
`apply_mutations` keeps the buckets up to date; `scan_app_buckets` computes them from the database.

Both are measured against one sum over all locations (`total`).  A removal bumps the running
bucket by the difference at its location, an add by the whole new blob, whatever it replaces.  So
the running buckets are above the scan by these excesses (`running_agrees_iff`).
-/

namespace Hypergraph

open Results Forest Tally PreparedMutations List Run Cell Store Crdt

/-! ## The scan -/

/-- A pass of `for_each_vertex_underlying` over each phase set: every blob of the
application once, in any order. -/
structure Listing (stored : Store BlobKey fun _ => Bytes) (app : Bytes32) where
  entries : Phase → List (Location × Bytes)
  nodup : ∀ phase, ((entries phase).map Prod.fst).Nodup
  mem_iff : ∀ phase loc blob, (loc, blob) ∈ entries phase ↔
    loc.application = app ∧ stored ⟨phase, loc⟩ = some blob

/-- A count and a size for each sub-shard. -/
abbrev Buckets := Store Bytes fun _ => Nat × Int

/-- `scan_app_buckets`. -/
def scanAppBuckets (layout : ShardLayout) (app : Bytes32)
    (entries : Phase → List (Location × Bytes)) (buckets : Buckets) : Buckets :=
  if app = globalDomain then buckets
  else
    let route := fun loc : Location => layout.subShardIdFor app loc.data
    let vRemoved := (entries ⟨.vertex, .removes⟩).map Prod.fst
    let heRemoved := (entries ⟨.hyperedge, .removes⟩).map Prod.fst
    -- every vertex leaf counts; only a live one has a size
    let buckets := (entries ⟨.vertex, .adds⟩).foldl (fun buckets e =>
      Tally.add buckets (route e.1)
        (1, if e.2 ≠ [] ∧ e.1 ∉ vRemoved then (e.2.length : Int) else 0)) buckets
    (entries ⟨.hyperedge, .adds⟩).foldl (fun buckets e =>
      if e.2 ≠ [] ∧ e.1 ∉ heRemoved then Tally.add buckets (route e.1) (0, (e.2.length : Int))
      else buckets) buckets

/-- What the scan adds, in order. -/
def scanAdditions (layout : ShardLayout) (app : Bytes32)
    (entries : Phase → List (Location × Bytes)) : List (Bytes × Nat × Int) :=
  ((entries ⟨.vertex, .adds⟩).map fun e => (layout.subShardIdFor app e.1.data, 1,
    if e.2 ≠ [] ∧ e.1 ∉ (entries ⟨.vertex, .removes⟩).map Prod.fst then (e.2.length : Int) else 0)) ++
  ((entries ⟨.hyperedge, .adds⟩).filter fun e =>
    e.2 ≠ [] ∧ e.1 ∉ (entries ⟨.hyperedge, .removes⟩).map Prod.fst).map fun e =>
      (layout.subShardIdFor app e.1.data, 0, (e.2.length : Int))

/-- Scanning an application adds its additions to the buckets. -/
theorem scanAppBuckets_eq {layout : ShardLayout} {app : Bytes32} (happ : app ≠ globalDomain)
    (entries : Phase → List (Location × Bytes)) (buckets : Buckets) :
    scanAppBuckets layout app entries buckets =
      addAll buckets (scanAdditions layout app entries) := by
  unfold scanAppBuckets scanAdditions addAll
  rw [if_neg happ, foldl_append, foldl_map, foldl_map, foldl_filter]
  simp only [decide_eq_true_eq]

/-! ## Live sizes -/

/-- The cells of all locations. -/
abbrev Cells := Kind → Location → Cell

/-- The cells of a CRDT. -/
def Crdt.cells (c : Crdt) : Cells := c.cell

/-- The bytes readers of a cell see. -/
def Cell.live (cell : Cell) : Nat := if cell.removes.isSome then 0 else (cell.adds.getD []).length

/-- A location counts one for its vertex and the live bytes of its vertex and hyperedge. -/
def Cells.weight (cells : Cells) (loc : Location) : Int × Int :=
  (if (cells .vertex loc).adds.isSome then 1 else 0,
    (cells .vertex loc).live + (cells .hyperedge loc).live)

/-- The location is accounted in the bucket. -/
def InBucket (layout : ShardLayout) (b : Bytes) (loc : Location) : Prop :=
  loc.application ≠ globalDomain ∧ layout.subShardIdFor loc.application loc.data = b

instance (layout : ShardLayout) (b : Bytes) (loc : Location) : Decidable (InBucket layout b loc) :=
  inferInstanceAs (Decidable (_ ∧ _))

instance : Finite Location :=
  Finite.of_injective (fun loc => (loc.application.toFin, loc.data.toFin))
    fun a b h => by
      obtain ⟨happ, hdata⟩ := Prod.mk.injEq .. ▸ h
      cases a
      cases b
      rw [Location.mk.injEq]
      exact ⟨BitVec.eq_of_toFin_eq happ, BitVec.eq_of_toFin_eq hdata⟩

noncomputable instance : Fintype Location := Fintype.ofFinite Location

/-- The true contents of a bucket. -/
noncomputable def total (layout : ShardLayout) (cells : Cells) (b : Bytes) : Int × Int :=
  ∑ loc, if InBucket layout b loc then cells.weight loc else 0

/-- The cells after a mutation. -/
def Cells.apply (cells : Cells) (m : Mutation) : Cells := fun kind loc =>
  (cells kind loc).apply kind loc m

/-- A batch acts on each cell by itself. -/
theorem Cells.foldl_apply (cells : Cells) (ms : List Mutation) (kind : Kind) (loc : Location) :
    ms.foldl Cells.apply cells kind loc =
      ms.foldl (fun cell m => cell.apply kind loc m) (cells kind loc) := by
  induction ms generalizing cells with
  | nil => rfl
  | cons m ms ih =>
    rw [foldl_cons, foldl_cons, ih]
    rfl

/-! ## What a mutation bumps -/

/-- One `bump`, without metadata for the GLOBAL domain. -/
def bumpAt (layout : ShardLayout) (loc : Location) (count size : Int) : List (Bytes × Int × Int) :=
  if loc.application ≠ globalDomain then
    [(layout.subShardIdFor loc.application loc.data, count, size)]
  else []

/-- The bumps of a mutation that finds these cells. -/
def bumpsOf (layout : ShardLayout) (cells : Cells) : Mutation → List (Bytes × Int × Int)
  | .add .vertex loc data =>
    bumpAt layout loc (if (cells .vertex loc).adds.isNone then 1 else 0) data.length
  | .add .hyperedge loc data =>
    if (cells .hyperedge loc).removes.isSome then []
    else bumpAt layout loc 0 data.length
  | .remove kind loc =>
    let cell := cells kind loc
    let size := (cell.adds.map List.length).getD 0
    let present := size ≠ 0 ∧ cell.removes.isNone
    let placeholder := kind = .vertex ∧ cell.adds.isNone
    if present ∨ placeholder then
      bumpAt layout loc (if placeholder then 1 else 0) (if present then -size else 0)
    else []
  | .record _ _ => []

/-- What an add is bumped by beyond what it makes live. -/
def excess (cells : Cells) : Mutation → Nat
  | .add kind loc data =>
    let cell := cells kind loc
    if cell.removes.isSome then (if kind = .vertex then data.length else 0)
    else (cell.adds.getD []).length
  | _ => 0

/-- The location a mutation names. -/
def Mutation.location : Mutation → Option Location
  | .add _ loc _ => some loc
  | .remove _ loc => some loc
  | .record _ _ => none

/-- The excess of a mutation in a bucket. -/
def excessIn (layout : ShardLayout) (b : Bytes) (cells : Cells) (m : Mutation) : Nat :=
  if ∃ loc ∈ m.location, InBucket layout b loc then excess cells m else 0

open Cells (weight)

variable {layout : ShardLayout} {cells : Cells} {b : Bytes} {loc : Location} {m : Mutation}

/-- A bump counts in the buckets its location is in. -/
theorem contribution_bumpAt (loc : Location) (count size : Int) :
    contribution (bumpAt layout loc count size) b =
      if InBucket layout b loc then (count, size) else 0 := by
  unfold bumpAt InBucket
  by_cases happ : loc.application = globalDomain
  · simp [happ]
  · simp [happ]

/-- A mutation leaves the cells of other locations. -/
theorem Cells.apply_other {other : Location} (h : m.location = some loc)
    (hne : other ≠ loc) (kind : Kind) : cells.apply m kind other = cells kind other := by
  cases m with
  | add | remove =>
    obtain rfl := Option.some.inj h
    simp [Cells.apply, Cell.apply, Ne.symm hne]
  | record => cases h

/-- A mutation changes the sum at its own location. -/
theorem total_apply (h : m.location = some loc) :
    total layout (cells.apply m) b = total layout cells b +
      if InBucket layout b loc then (cells.apply m).weight loc - cells.weight loc
      else 0 := by
  have hsum := sum_of_agree_off
    (f := fun other => if InBucket layout b other then cells.weight other else 0)
    (g := fun other => if InBucket layout b other then (cells.apply m).weight other else 0)
    loc (fun other hne => by simp only [weight, Cells.apply_other h hne])
  unfold total
  rw [hsum]
  split
  · rfl
  · rw [sub_zero]

/-- A bump at a mutation's own location, against the change of the sum there. -/
theorem contribution_at (count size : Int) (h : m.location = some loc)
    {bumps : List (Bytes × Int × Int)}
    (hbumps : contribution bumps b = if InBucket layout b loc then (count, size) else 0)
    (hweight : (count, size) + cells.weight loc =
      (cells.apply m).weight loc + (0, (excess cells m : Int))) :
    contribution bumps b + total layout cells b =
      total layout (cells.apply m) b + (0, (excessIn layout b cells m : Int)) := by
  rw [hbumps, total_apply h]
  unfold excessIn
  by_cases hin : InBucket layout b loc
  · rw [if_pos hin, if_pos hin, if_pos ⟨loc, h, hin⟩]
    have hcount := eq_sub_of_add_eq hweight
    rw [hcount]
    abel
  · rw [if_neg hin, if_neg hin, if_neg]
    · rw [zero_add, add_zero, Nat.cast_zero]
      exact (add_zero _).symm
    · intro ⟨other, hother, hbucket⟩
      rw [Option.mem_def, h] at hother
      obtain rfl := Option.some.inj hother
      exact hin hbucket

/-- What a removal contributes to a bucket. -/
theorem contribution_remove (kind : Kind) (loc : Location) :
    contribution (bumpsOf layout cells (.remove kind loc)) b =
      if InBucket layout b loc then
        (if kind = .vertex ∧ (cells kind loc).adds.isNone then 1 else 0,
          if ((cells kind loc).adds.map length).getD 0 ≠ 0 ∧ (cells kind loc).removes.isNone
            then -(((cells kind loc).adds.map length).getD 0 : Int) else 0)
      else 0 := by
  simp only [bumpsOf]
  split
  · exact contribution_bumpAt _ _ _
  rename_i hnone
  obtain ⟨hpresent, hplaceholder⟩ := not_or.mp hnone
  rw [if_neg hpresent, if_neg hplaceholder, contribution_nil]
  exact (ite_self _).symm

/-- **One mutation.**  The bump is the change of the sum and the excess. -/
theorem contribution_bumpsOf (layout : ShardLayout) (cells : Cells) (b : Bytes) (m : Mutation) :
    contribution (bumpsOf layout cells m) b + total layout cells b =
      total layout (cells.apply m) b + (0, (excessIn layout b cells m : Int)) := by
  cases m with
  | add kind loc data =>
    cases kind with
    | vertex =>
      refine contribution_at _ _ rfl (contribution_bumpAt _ _ _) ?_
      simp only [weight, Cells.apply, Cell.apply, Cell.add, Cell.live, excess]
      cases (cells .vertex loc).adds <;> cases (cells .vertex loc).removes <;>
        simp <;> omega
    | hyperedge =>
      cases hremoves : (cells .hyperedge loc).removes with
      | some =>
        refine contribution_at 0 0 rfl ?_ ?_
        · simp only [bumpsOf, hremoves, Option.isSome_some, if_true, contribution_nil]
          exact (ite_self _).symm
        · simp [weight, Cells.apply, Cell.apply, Cell.add, Cell.live, excess, hremoves]
      | none =>
        refine contribution_at 0 data.length rfl ?_ ?_
        · simp only [bumpsOf, hremoves]
          exact contribution_bumpAt _ _ _
        · simp [weight, Cells.apply, Cell.apply, Cell.add, Cell.live, excess, hremoves]
          omega
  | remove kind loc =>
    refine contribution_at _ _ rfl (contribution_remove kind loc) ?_
    simp only [weight, Cells.apply, Cell.apply, Cell.remove, Cell.live, excess]
    cases kind with
    | vertex =>
      cases (cells .vertex loc).adds <;> cases (cells .vertex loc).removes <;> simp
      rename_i blob
      cases blob <;> simp
      omega
    | hyperedge =>
      cases (cells .hyperedge loc).adds <;> cases (cells .hyperedge loc).removes <;> simp
      rename_i blob
      cases blob <;> simp
      omega
  | record key value =>
    have hsame : cells.apply (.record key value) = cells := rfl
    rw [hsame]
    simp [bumpsOf, excessIn, Mutation.location]

/-! ## Batches -/

/-- The bumps of a batch, each mutation finding the cells the earlier ones left. -/
def batchBumps (layout : ShardLayout) : Cells → List Mutation → List (Bytes × Int × Int)
  | _, [] => []
  | cells, m :: ms => bumpsOf layout cells m ++ batchBumps layout (cells.apply m) ms

/-- The excess of a batch in a bucket. -/
def batchExcess (layout : ShardLayout) (b : Bytes) : Cells → List Mutation → Nat
  | _, [] => 0
  | cells, m :: ms => excessIn layout b cells m + batchExcess layout b (cells.apply m) ms

/-- A batch contributes the change of the total, plus the excess. -/
theorem contribution_batchBumps (layout : ShardLayout) (b : Bytes) (cells : Cells)
    (ms : List Mutation) :
    contribution (batchBumps layout cells ms) b + total layout cells b =
      total layout (ms.foldl Cells.apply cells) b + (0, (batchExcess layout b cells ms : Int)) := by
  induction ms generalizing cells with
  | nil =>
    rw [batchBumps, contribution_nil, zero_add]
    exact (add_zero _).symm
  | cons m ms ih =>
    have hone := contribution_bumpsOf layout cells b m
    have hrest := ih (cells.apply m)
    have hexcess : ((0, ((excessIn layout b cells m +
        batchExcess layout b (cells.apply m) ms : Nat) : Int)) : Int × Int) =
        (0, (excessIn layout b cells m : Int)) +
          (0, (batchExcess layout b (cells.apply m) ms : Int)) := by
      simp
    simp only [batchBumps, batchExcess, contribution_append, foldl_cons]
    rw [add_right_comm, hone, add_right_comm, add_comm (total _ _ _), hrest, hexcess]
    abel

variable {ms : List Mutation} {config : CrdtConfig} {c c' : Crdt} {faults : Faults}
  {p p' : PreparedMutations} {app : Bytes32}

/-- A bucket with its count as an integer. -/
def signed (x : Nat × Int) : Int × Int := (x.1, x.2)

/-- A bucket of the running metadata. -/
def Crdt.running (c : Crdt) (b : Bytes) : Int × Int :=
  ((Tally.amount c.subMeta b).1, (Tally.amount c.subMeta b).2)

/-- How far a running bucket is above the true one. -/
noncomputable def drift (layout : ShardLayout) (c : Crdt) (b : Bytes) : Int × Int :=
  c.running b - total layout c.cells b

@[simp] theorem PreparedMutations.bump_metadata (p : PreparedMutations)
    (hroute : config.subShardIdFor = layout.subShardIdFor) (loc : Location)
    (count size : Int) :
    (p.bump config loc count size).metadata = p.metadata ++ bumpAt layout loc count size := by
  unfold bump bumpAt
  rw [hroute]
  split <;> simp

/-- Staging a blob records no bump. -/
theorem PreparedMutations.stage_metadata {key : BlobKey} {blob : Bytes} {size : Option Nat}
    (h : p.stage config key blob size = .ok p') : p'.metadata = p.metadata := by
  obtain ⟨_, -, h⟩ := bind_ok.mp h
  rw [← pure_ok.mp h]

/-- A prepared mutation has recorded its bumps. -/
theorem PreparedMutations.apply_metadata (hroute : config.subShardIdFor = layout.subShardIdFor)
    (h : p.apply config c faults m = .ok p') :
    p'.metadata = p.metadata ++ bumpsOf layout (p.cell c) m := by
  cases m with
  | add kind loc =>
    cases kind with
    | vertex =>
      obtain ⟨existing, hexisting, h⟩ := bind_ok.mp h
      obtain ⟨_, hq, h⟩ := bind_ok.mp h
      have he : existing = (p.cell c .vertex loc).adds := read_ok hexisting
      rw [← pure_ok.mp h, bump_metadata _ hroute, stage_metadata hq, he]
      rfl
    | hyperedge =>
      obtain ⟨removed, hremoved, h⟩ := bind_ok.mp h
      have hr : removed = (p.cell c .hyperedge loc).removes := read_ok hremoved
      simp only [bumpsOf, ← hr]
      split at h
      · rename_i hsome
        rw [← pure_ok.mp h, if_pos hsome, append_nil]
      · rename_i hnone
        obtain ⟨_, hq, h⟩ := bind_ok.mp h
        rw [← pure_ok.mp h, bump_metadata _ hroute, stage_metadata hq, if_neg hnone]
  | remove kind loc =>
    obtain ⟨existing, hexisting, h⟩ := bind_ok.mp h
    obtain ⟨removed, hremoved, h⟩ := bind_ok.mp h
    have he : existing = (p.cell c kind loc).adds := read_ok hexisting
    have hr : removed = (p.cell c kind loc).removes := read_ok hremoved
    simp only [bind_ok] at h
    obtain ⟨_, hq, r, hr', h⟩ := h
    have hstaged : r.metadata = p.metadata := by
      rw [stage_metadata hr']
      split at hq
      · exact stage_metadata hq
      · rw [← Except.ok.inj hq]
    simp only [bumpsOf, ← he, ← hr]
    split at h
    · rename_i hbump
      rw [← pure_ok.mp h, bump_metadata _ hroute, hstaged, if_pos hbump]
    · rename_i hbump
      rw [← pure_ok.mp h, hstaged, if_neg hbump, append_nil]
  | record =>
    rw [← Except.ok.inj h]
    exact (append_nil _).symm

/-- A prepared mutation acts on the cells as specified. -/
theorem PreparedMutations.apply_cells (h : p.apply config c faults m = .ok p') :
    p'.cell c = Cells.apply (p.cell c) m := by
  funext kind loc
  exact apply_cell h kind loc

/-- A prepared batch records the bumps of its mutations. -/
theorem PreparedMutations.foldlM_metadata (hroute : config.subShardIdFor = layout.subShardIdFor)
    (h : ms.foldlM (fun p m => p.apply config c faults m) p = .ok p') :
    p'.metadata = p.metadata ++ batchBumps layout (p.cell c) ms := by
  induction ms generalizing p with
  | nil =>
    rw [← pure_ok.mp h]
    exact (append_nil _).symm
  | cons m ms ih =>
    obtain ⟨_, hq, h⟩ := bind_ok.mp h
    rw [ih h, apply_metadata hroute hq, apply_cells hq, append_assoc]
    rfl

/-- A metadata change that is accepted is an addition. -/
theorem bumpEntry_ok {entry entry' : Nat × Int} {count size : Int} (hcount : 0 ≤ count)
    (h : bumpEntry entry count size = .ok entry') :
    signed entry' = signed entry + (count, size) := by
  obtain ⟨_, hn, h⟩ := bind_ok.mp h
  rw [if_pos hcount] at hn
  split at hn
  · have hn := Except.ok.inj hn
    split at h
    · rw [← pure_ok.mp h, ← hn]
      simp [signed, hcount]
    · cases h
  · cases hn

/-- No bump lowers a count. -/
theorem bumps_count {x : Bytes × Int × Int} (h : x ∈ bumpsOf layout cells m) : 0 ≤ x.2.1 := by
  have hat : ∀ {loc : Location} {count size : Int}, 0 ≤ count →
      x ∈ bumpAt layout loc count size → 0 ≤ x.2.1 := by
    intro loc count size hcount hx
    unfold bumpAt at hx
    split at hx
    · rw [mem_singleton.mp hx]
      exact hcount
    · cases hx
  cases m with
  | add kind =>
    cases kind with
    | vertex => exact hat (by split <;> decide) h
    | hyperedge =>
      simp only [bumpsOf] at h
      split at h
      · cases h
      · exact hat (by decide) h
  | remove =>
    simp only [bumpsOf] at h
    split at h
    · exact hat (by split <;> decide) h
    · cases h
  | record => cases h

/-- No bump of a batch lowers a count. -/
theorem batchBumps_count {x : Bytes × Int × Int} (h : x ∈ batchBumps layout cells ms) :
    0 ≤ x.2.1 := by
  induction ms generalizing cells with
  | nil => cases h
  | cons m ms ih =>
    rcases mem_append.mp h with h | h
    · exact bumps_count h
    · exact ih h

/-- The metadata of a batch is added bucket by bucket. -/
theorem nextMetadata_ok {start next : Store Bytes fun _ => Nat × Int}
    {changes : List (Bytes × Int × Int)} (hcounts : ∀ x ∈ changes, 0 ≤ x.2.1)
    (h : nextMetadata start changes = .ok next) (b : Bytes) :
    signed (amount next b) = signed (amount start b) + contribution changes b := by
  induction changes generalizing start with
  | nil =>
    rw [← pure_ok.mp h, contribution_nil, add_zero]
  | cons x changes ih =>
    obtain ⟨_, hm, h⟩ := bind_ok.mp h
    obtain ⟨_, hentry, hm⟩ := bind_ok.mp hm
    have hentry := bumpEntry_ok (hcounts x mem_cons_self) hentry
    rw [ih (fun y hy => hcounts y (mem_cons_of_mem _ hy)) h, contribution_cons, ← add_assoc]
    congr 1
    rw [← pure_ok.mp hm]
    by_cases hb : x.1 = b
    · subst hb
      simp only [amount, write_self, Option.getD_some]
      exact hentry
    · rw [if_neg hb, add_zero]
      simp only [amount, write_of_ne _ _ (Ne.symm hb)]

/-- **One batch.**  A published batch moves the running buckets above the true
ones by its excess. -/
theorem drift_applyMutations (hroute : config.subShardIdFor = layout.subShardIdFor)
    (h : c.applyMutations config faults ms = .ok c') (b : Bytes) :
    drift layout c' b = drift layout c b + (0, (batchExcess layout b c.cells ms : Int)) := by
  have hcells : c'.cells = ms.foldl Cells.apply c.cells := by
    funext kind loc
    rw [Cells.foldl_apply]
    exact applyMutations_cell h kind loc
  obtain ⟨p, hp, h⟩ := bind_ok.mp h
  obtain ⟨_, hnext, h⟩ := bind_ok.mp h
  have hmetadata : p.metadata = batchBumps layout c.cells ms := foldlM_metadata hroute hp
  have hrunning : c'.running b = c.running b + contribution (batchBumps layout c.cells ms) b := by
    rw [← pure_ok.mp h, ← hmetadata]
    refine nextMetadata_ok (fun x hx => ?_) hnext b
    rw [hmetadata] at hx
    exact batchBumps_count hx
  have hsum := contribution_batchBumps layout b c.cells ms
  unfold drift
  rw [hrunning, hcells, ← sub_eq_zero]
  rw [← sub_eq_zero] at hsum
  rw [← hsum]
  abel

/-- Publishing does not change the drift. -/
theorem drift_publish (layout : ShardLayout) (c : Crdt) (b : Bytes) :
    drift layout c.publish b = drift layout c b := by
  rfl

/-! ## The scan finds the true buckets -/

section Listed

variable (listing : Listing c.stored app) (hpending : c.pendingBlobs = Store.empty)
include hpending

/-- What a listing says of a cell, where nothing is staged. -/
theorem Listing.cell {side : Side} {kind : Kind} (happ : loc.application = app) :
    ∀ blob, (loc, blob) ∈ listing.entries ⟨kind, side⟩ ↔
      c.peek ⟨⟨kind, side⟩, loc⟩ = some blob := by
  intro blob
  rw [listing.mem_iff]
  simp [happ, peek, hpending]

/-- A listing has exactly the locations that hold a blob. -/
theorem Listing.mem_locations {side : Side} {kind : Kind} (happ : loc.application = app) :
    loc ∈ (listing.entries ⟨kind, side⟩).map Prod.fst ↔
      (c.peek ⟨⟨kind, side⟩, loc⟩).isSome = true := by
  rw [mem_map, Option.isSome_iff_exists]
  constructor
  · rintro ⟨⟨_, blob⟩, hmem, rfl⟩
    exact ⟨blob, (listing.cell hpending happ blob).mp hmem⟩
  · rintro ⟨blob, hblob⟩
    exact ⟨(loc, blob), (listing.cell hpending happ blob).mpr hblob, rfl⟩

/-- A pass over the adds of a kind, summed for a bucket of the application. -/
theorem sum_entries (kind : Kind) {f : Location × Bytes → Int × Int} {g : Location → Int × Int}
    (hentry : ∀ loc blob, loc.application = app →
      (c.cells kind loc).adds = some blob → f (loc, blob) = g loc)
    (hnone : ∀ loc, (c.cells kind loc).adds = none → g loc = 0)
    (hoff : ∀ loc, loc.application ≠ app → g loc = 0) :
    ((listing.entries ⟨kind, .adds⟩).map f).sum = ∑ loc, g loc := by
  rw [← sum_listing (listing.nodup ⟨kind, .adds⟩), map_map]
  · congr 1
    apply map_congr_left
    intro e he
    obtain ⟨happ, -⟩ := (listing.mem_iff _ e.1 e.2).mp he
    exact hentry e.1 e.2 happ ((listing.cell hpending happ e.2).mp he)
  · intro loc hmem
    by_cases happ : loc.application = app
    · rw [listing.mem_locations hpending happ, Option.not_isSome_iff_eq_none] at hmem
      exact hnone loc hmem
    · exact hoff loc happ

end Listed

/-- Signed contributions are summed entry by entry. -/
theorem signed_contribution (entries : List (Bytes × Nat × Int)) (b : Bytes) :
    signed (contribution entries b) =
      (entries.map fun e => if e.1 = b then signed e.2 else 0).sum := by
  induction entries with
  | nil => rfl
  | cons e entries ih =>
    rw [contribution_cons, map_cons, sum_cons, ← ih]
    split
    · simp [signed]
    · simp [signed]

theorem sum_map_filter {α M : Type} [AddCommMonoid M] (p : α → Bool) (f : α → M) (xs : List α) :
    ((xs.filter p).map f).sum = (xs.map fun x => if p x then f x else 0).sum := by
  induction xs with
  | nil => rfl
  | cons x xs ih =>
    rw [filter_cons, map_cons, sum_cons, ← ih]
    split <;> simp

/-- Off the global domain a location is in its sub-shard's bucket. -/
theorem inBucket_iff (happ : app ≠ globalDomain) (hloc : loc.application = app) {b : Bytes} :
    InBucket layout b loc ↔ layout.subShardIdFor app loc.data = b := by
  unfold InBucket
  rw [hloc]
  exact and_iff_right happ

/-- What the vertex of a location contributes. -/
def Cells.vertexWeight (cells : Cells) (loc : Location) : Int × Int :=
  (if (cells .vertex loc).adds.isSome then 1 else 0, (cells .vertex loc).live)

/-- What the hyperedge of a location contributes. -/
def Cells.hyperedgeWeight (cells : Cells) (loc : Location) : Int × Int :=
  (0, (cells .hyperedge loc).live)

/-- A bucket's total is that of its vertices and hyperedges. -/
theorem total_eq (layout : ShardLayout) (cells : Cells) (b : Bytes) : total layout cells b =
      (∑ loc, if InBucket layout b loc then cells.vertexWeight loc else 0) +
        ∑ loc, if InBucket layout b loc then cells.hyperedgeWeight loc else 0 := by
  rw [← Finset.sum_add_distrib]
  apply Finset.sum_congr rfl
  intro loc _
  split
  · simp only [weight, Cells.vertexWeight, Cells.hyperedgeWeight, Prod.mk_add_mk, add_zero]
  · rw [add_zero]

/-- **The scan.**  Where nothing is staged, a scan finds the true bucket of every
row of the application. -/
theorem scan_total (happ : app ≠ globalDomain) (listing : Listing c.stored app)
    (hpending : c.pendingBlobs = Store.empty) (row : List UInt32) :
    signed (amount (scanAppBuckets layout app listing.entries Store.empty)
        (addrPathShardId app row)) =
      total layout c.cells (addrPathShardId app row) := by
  have hother : ∀ loc : Location, loc.application ≠ app →
      ¬ InBucket layout (addrPathShardId app row) loc :=
    fun loc hne hin => hne (addrPathShardId_injective hin.2).1
  rw [scanAppBuckets_eq happ, amount_addAll, amount_empty, zero_add,
    signed_contribution, scanAdditions, map_append, sum_append, map_map,
    map_map, sum_map_filter, total_eq]
  refine congrArg₂ (· + ·) ?_ ?_
  · refine sum_entries listing hpending .vertex ?_ ?_ (fun loc hne => if_neg (hother _ hne))
    · intro loc blob hloc hadds
      simp only [Function.comp_apply, inBucket_iff happ hloc, listing.mem_locations hpending hloc]
      congr 1
      have hremoves : (c.cells .vertex loc).removes = c.peek ⟨⟨.vertex, .removes⟩, loc⟩ := rfl
      simp only [signed, Cells.vertexWeight, live, hadds, hremoves]
      cases c.peek ⟨⟨.vertex, .removes⟩, loc⟩ <;> cases blob <;> simp
    · intro loc hnone
      simp [Cells.vertexWeight, live, hnone]
  · refine sum_entries listing hpending .hyperedge ?_ ?_ (fun loc hne => if_neg (hother _ hne))
    · intro loc blob hloc hadds
      simp only [Function.comp_apply, inBucket_iff happ hloc, listing.mem_locations hpending hloc]
      have hremoves : (c.cells .hyperedge loc).removes = c.peek ⟨⟨.hyperedge, .removes⟩, loc⟩ := rfl
      simp only [signed, Cells.hyperedgeWeight, live, hadds, hremoves]
      cases c.peek ⟨⟨.hyperedge, .removes⟩, loc⟩ <;> cases blob <;> simp [Prod.zero_eq_mk]
    · intro loc hnone
      simp [Cells.hyperedgeWeight, live, hnone]

/-! ## Runs -/

/-- What is done to a CRDT: a batch of mutations, or a durable frame commit. -/
inductive CrdtCall where
  | apply (faults : Faults) (mutations : List Mutation)
  | commit

/-- One call; a failed batch changes nothing. -/
def crdtStep (config : CrdtConfig) (c : Crdt) : CrdtCall → Result Unit × Crdt
  | .apply faults mutations =>
    match c.applyMutations config faults mutations with
    | .ok c' => (.ok (), c')
    | .error error => (.error error, c)
  | .commit => (.ok (), c.publish)

/-- The mutations a call has applied. -/
def appliedBy (e : Run.Event Crdt CrdtCall (Result Unit)) : List Mutation :=
  match e.input, e.result with
  | .apply _ mutations, .ok _ => mutations
  | _, _ => []

/-- **A cell replays its mutations**: a location holds what the mutations of the accepted batches
make of it in order. -/
theorem cell_replays_accepted (config : CrdtConfig) (c : Crdt) (calls : List CrdtCall)
    (kind : Kind) (loc : Location) :
    (Run.final (crdtStep config) c calls).cell kind loc =
      ((Run.events (crdtStep config) c calls).flatMap appliedBy).foldl
        (Cell.apply kind loc) (c.cell kind loc) := by
  induction calls generalizing c with
  | nil => rfl
  | cons call calls ih =>
    rw [Run.final, Run.events, flatMap_cons, foldl_append, ih]
    congr 1
    cases call with
    | commit => exact publish_cell c kind loc
    | apply faults mutations =>
      simp only [crdtStep, appliedBy, Run.event]
      cases happly : c.applyMutations config faults mutations with
      | ok => exact applyMutations_cell happly kind loc
      | error => rfl

/-- The mutation is no add outside GLOBAL that replaces a counted blob, or that a tombstone hides.
-/
def Mutation.Fresh (cells : Cells) : Mutation → Prop
  | .add kind loc data =>
    loc.application ≠ globalDomain →
      if (cells kind loc).removes.isSome then kind = .vertex → data = []
      else (cells kind loc).adds.getD [] = []
  | _ => True

/-- Every mutation of the batch is fresh where it finds the cells. -/
def FreshBatch : Cells → List Mutation → Prop
  | _, [] => True
  | cells, m :: ms => m.Fresh cells ∧ FreshBatch (cells.apply m) ms

/-- A published batch was fresh. -/
def FreshStep (e : Run.Event Crdt CrdtCall (Result Unit)) : Prop :=
  match e.input with
  | .apply _ mutations => e.result = .ok () → FreshBatch e.before.cells mutations
  | .commit => True

/-- The running buckets of every application are those of a scan. -/
def RunningAgrees (layout : ShardLayout) (c : Crdt) : Prop :=
  ∀ app, app ≠ globalDomain → ∀ (listing : Listing c.stored app) (data : Bytes32),
    Tally.amount c.subMeta (layout.subShardIdFor app data) =
      Tally.amount (scanAppBuckets layout app listing.entries Store.empty)
        (layout.subShardIdFor app data)

/-- There is a listing of every store. -/
theorem exists_listing (stored : Store BlobKey fun _ => Bytes) (app : Bytes32) :
    Nonempty (Listing stored app) := by
  refine ⟨⟨fun phase => (Finset.univ.filter fun loc : Location =>
      loc.application = app ∧ (stored ⟨phase, loc⟩).isSome = true).toList.map
        fun loc => (loc, (stored ⟨phase, loc⟩).getD []), fun phase => ?_, ?_⟩⟩
  · have hfst : (Prod.fst ∘ fun loc : Location =>
        (loc, (stored ⟨phase, loc⟩).getD [])) = id := rfl
    rw [map_map, hfst, map_id]
    exact Finset.nodup_toList _
  · intro phase loc blob
    simp only [mem_map, Finset.mem_toList, Finset.mem_filter, Finset.mem_univ, true_and,
      Prod.mk.injEq]
    constructor
    · rintro ⟨_, ⟨happ, hsome⟩, rfl, rfl⟩
      obtain ⟨_, hblob⟩ := Option.isSome_iff_exists.mp hsome
      simp [happ, hblob]
    · rintro ⟨happ, hblob⟩
      exact ⟨loc, ⟨happ, by simp [hblob]⟩, rfl, by simp [hblob]⟩

theorem signed_injective {x y : Nat × Int} (h : signed x = signed y) : x = y := by
  obtain ⟨hcount, hsize⟩ := Prod.mk.injEq .. ▸ h
  exact Prod.ext (Int.ofNat.inj hcount) hsize

/-- The running buckets agree with a scan where they are the true ones. -/
theorem runningAgrees_iff_drift (hpending : c.pendingBlobs = Store.empty) :
    RunningAgrees layout c ↔ ∀ app, app ≠ globalDomain → ∀ data,
      drift layout c (layout.subShardIdFor app data) = 0 := by
  unfold drift
  constructor
  · intro h app happ data
    obtain ⟨listing⟩ := exists_listing c.stored app
    have hscan := @scan_total layout c app happ listing hpending (layout.route app data)
    rw [sub_eq_zero]
    exact (congrArg signed (h app happ listing data)).trans hscan
  · intro h app happ listing data
    apply signed_injective
    exact (sub_eq_zero.mp (h app happ data)).trans
      (scan_total happ listing hpending (layout.route app data)).symm

/-- Where a mutation is fresh, no bucket is bumped beyond what becomes live. -/
theorem fresh_iff_excessIn : m.Fresh cells ↔ ∀ app, app ≠ globalDomain → ∀ data,
      excessIn layout (layout.subShardIdFor app data) cells m = 0 := by
  cases m with
  | add kind loc data =>
    have hexcess : (if (cells kind loc).removes.isSome then kind = .vertex → data = []
        else (cells kind loc).adds.getD [] = []) ↔ excess cells (.add kind loc data) = 0 := by
      cases hremoves : (cells kind loc).removes <;> cases kind <;> simp [excess, hremoves]
    constructor
    · intro h app happ d
      unfold excessIn
      split
      · rename_i hin
        obtain ⟨_, hother, hbucket⟩ := hin
        obtain rfl := Option.some.inj hother
        exact hexcess.mp (h hbucket.1)
      · rfl
    · intro h happ
      have hown := h loc.application happ loc.data
      rw [excessIn, if_pos ⟨loc, rfl, happ, rfl⟩] at hown
      exact hexcess.mpr hown
  | remove | record =>
    refine ⟨fun _ app happ d => ?_, fun _ => trivial⟩
    unfold excessIn excess
    split <;> rfl

/-- A batch is fresh exactly when it has no excess anywhere. -/
theorem freshBatch_iff : FreshBatch cells ms ↔ ∀ app, app ≠ globalDomain → ∀ data,
      batchExcess layout (layout.subShardIdFor app data) cells ms = 0 := by
  induction ms generalizing cells with
  | nil => exact ⟨fun _ _ _ _ => rfl, fun _ => trivial⟩
  | cons m ms ih =>
    unfold FreshBatch batchExcess
    rw [@fresh_iff_excessIn layout, ih]
    constructor
    · intro ⟨hm, hms⟩ app happ data
      rw [hm app happ data, hms app happ data]
    · intro h
      exact ⟨fun app happ data => (Nat.add_eq_zero_iff.mp (h app happ data)).1,
        fun app happ data => (Nat.add_eq_zero_iff.mp (h app happ data)).2⟩

/-- What a step adds to the drift of a bucket. -/
def stepExcess (layout : ShardLayout) (b : Bytes)
    (e : Run.Event Crdt CrdtCall (Result Unit)) : Nat :=
  match e.input, e.result with
  | .apply _ mutations, .ok _ => batchExcess layout b e.before.cells mutations
  | _, _ => 0

/-- A step changes the drift by its excess. -/
theorem drift_step (hroute : config.subShardIdFor = layout.subShardIdFor) (call : CrdtCall)
    (b : Bytes) :
    drift layout (crdtStep config c call).2 b =
      drift layout c b + (0, (stepExcess layout b (event (crdtStep config) c call) : Int)) := by
  cases call with
  | commit =>
    refine (drift_publish layout c b).trans ?_
    exact (add_zero _).symm
  | apply faults mutations =>
    simp only [crdtStep, stepExcess, event]
    cases happly : c.applyMutations config faults mutations with
    | ok => exact drift_applyMutations hroute happly b
    | error => exact (add_zero _).symm

/-- Over a run the drift grows by the excess of its steps. -/
theorem drift_run (hroute : config.subShardIdFor = layout.subShardIdFor) (calls : List CrdtCall)
    (b : Bytes) :
    drift layout (final (crdtStep config) c calls) b = drift layout c b +
      (0, (((events (crdtStep config) c calls).map (stepExcess layout b)).sum : Int)) := by
  induction calls generalizing c with
  | nil => exact (add_zero _).symm
  | cons call calls ih =>
    simp only [final, events, map_cons, sum_cons]
    rw [ih, drift_step hroute, add_assoc]
    rfl

/-- A step is fresh exactly when it has no excess anywhere. -/
theorem freshStep_iff {e : Run.Event Crdt CrdtCall (Result Unit)} :
    FreshStep e ↔ ∀ app, app ≠ globalDomain → ∀ data,
      stepExcess layout (layout.subShardIdFor app data) e = 0 := by
  unfold FreshStep stepExcess
  cases e.input with
  | commit => exact ⟨fun _ _ _ _ => rfl, fun _ => trivial⟩
  | apply =>
    cases e.result with
    | ok => exact ⟨fun h => freshBatch_iff.mp (h rfl), fun h _ => freshBatch_iff.mpr h⟩
    | error => exact ⟨fun _ _ _ _ => rfl, fun _ h => by cases h⟩

/-- **Running buckets against a scan.**  They agree exactly when every published batch was fresh: no
add outside GLOBAL replaced a counted blob, and no vertex add was hidden by a tombstone. -/
theorem running_agrees_iff (hroute : config.subShardIdFor = layout.subShardIdFor)
    (hpending : c.pendingBlobs = Store.empty) (hstart : RunningAgrees layout c)
    (calls : List CrdtCall) :
    RunningAgrees layout (final (crdtStep config) c calls).publish ↔
      ∀ e ∈ events (crdtStep config) c calls, FreshStep e := by
  have hzero := (runningAgrees_iff_drift hpending).mp hstart
  rw [runningAgrees_iff_drift rfl]
  have hdrift : ∀ app, app ≠ globalDomain → ∀ data,
      (drift layout (final (crdtStep config) c calls).publish (layout.subShardIdFor app data) = 0 ↔
        ∀ e ∈ events (crdtStep config) c calls,
          stepExcess layout (layout.subShardIdFor app data) e = 0) := by
    intro app happ data
    rw [drift_publish, drift_run hroute, hzero app happ data, zero_add, Prod.mk_eq_zero]
    simp only [true_and, Nat.cast_eq_zero, List.sum_eq_zero_iff_forall_eq_nat, List.forall_mem_map]
  constructor
  · intro h e he
    exact freshStep_iff.mpr fun app happ data => (hdrift app happ data).mp (h app happ data) e he
  · intro h app happ data
    exact (hdrift app happ data).mpr fun e he => freshStep_iff.mp (h e he) app happ data

/-- A CRDT that holds nothing. -/
def Crdt.empty : Crdt := ⟨.empty, .empty, .empty, .empty, .empty, .empty⟩

/-- Every application is one shard. -/
def singleLayout : ShardLayout := ⟨fun _ => none, fun _ => none⟩

/-- A node that stores everything, over a layout. -/
def layoutConfig (layout : ShardLayout) : CrdtConfig where
  coveredPrefix := []
  vertexCommitment := fun _ => .ok (List.replicate 32 0)
  subShardIdFor := layout.subShardIdFor

/-- The empty graph's running buckets agree with a scan. -/
theorem runningAgrees_empty (layout : ShardLayout) : RunningAgrees layout Crdt.empty := by
  intro app happ listing data
  have hnone : ∀ phase, listing.entries phase = [] := by
    intro phase
    rw [eq_nil_iff_forall_not_mem]
    rintro ⟨loc, blob⟩ hmem
    cases ((listing.mem_iff phase loc blob).mp hmem).2
  rw [scanAppBuckets_eq happ]
  simp [scanAdditions, hnone, addAll, Crdt.empty]

/-- What is live after a run from nothing, from what the run has counted. -/
theorem total_run_of_empty (hroute : config.subShardIdFor = layout.subShardIdFor)
    (calls : List CrdtCall) (happ : app ≠ globalDomain) (data : Bytes32) :
    total layout (final (crdtStep config) empty calls).publish.cells
        (layout.subShardIdFor app data) =
      (final (crdtStep config) empty calls).publish.running (layout.subShardIdFor app data) -
        (0, (((events (crdtStep config) empty calls).map
          (stepExcess layout (layout.subShardIdFor app data))).sum : Int)) := by
  have hzero := (runningAgrees_iff_drift rfl).mp (runningAgrees_empty layout) app happ data
  have hdrift := drift_run (c := empty) hroute calls (layout.subShardIdFor app data)
  rw [hzero, zero_add, ← drift_publish] at hdrift
  rw [← hdrift, drift, sub_sub_cancel]

section Decidable

instance (cells : Cells) : ∀ m : Mutation, Decidable (m.Fresh cells)
  | .add kind loc data => inferInstanceAs (Decidable (loc.application ≠ globalDomain →
      if (cells kind loc).removes.isSome then kind = .vertex → data = []
      else (cells kind loc).adds.getD [] = []))
  | .remove _ _ => inferInstanceAs (Decidable True)
  | .record _ _ => inferInstanceAs (Decidable True)

instance decidableFreshBatch : ∀ (cells : Cells) (ms : List Mutation), Decidable (FreshBatch cells ms)
  | _, [] => inferInstanceAs (Decidable True)
  | cells, m :: ms =>
    have := decidableFreshBatch (cells.apply m) ms
    inferInstanceAs (Decidable (m.Fresh cells ∧ FreshBatch (cells.apply m) ms))

instance (e : Run.Event Crdt CrdtCall (Result Unit)) : Decidable (FreshStep e) :=
  match e with
  | ⟨before, .apply _ mutations, .ok (), _⟩ =>
    decidable_of_iff (FreshBatch before.cells mutations) ⟨fun h _ => h, fun h => h rfl⟩
  | ⟨_, .apply _ _, .error _, _⟩ => .isTrue fun h => by cases h
  | ⟨_, .commit, _, _⟩ => .isTrue trivial

end Decidable

/-- A location of an application. -/
def plainLocation : Location := ⟨7, 9⟩

/-- Add a vertex and remove it, then add a hyperedge at the same location. -/
def freshCalls : List CrdtCall :=
  [.apply (fun _ => none) [.add .vertex plainLocation [1, 2, 3]], .commit,
    .apply (fun _ => none) [.remove .vertex plainLocation],
    .apply (fun _ => none) [.add .hyperedge plainLocation [4, 5]]]

theorem fresh_calls_agree : RunningAgrees singleLayout
      (final (crdtStep (layoutConfig singleLayout)) Crdt.empty freshCalls).publish :=
  (running_agrees_iff rfl rfl (runningAgrees_empty singleLayout) freshCalls).mpr (by decide +kernel)

/-- Add a vertex of three bytes and overwrite it with one of five. -/
def overwritingCalls : List CrdtCall :=
  [.apply (fun _ => none) [.add .vertex plainLocation [1, 2, 3]], .commit,
    .apply (fun _ => none) [.add .vertex plainLocation [1, 2, 3, 4, 5]]]

/-- The CRDT after these calls and a commit. -/
def overwritten : Crdt :=
  (Run.final (crdtStep (layoutConfig singleLayout)) Crdt.empty overwritingCalls).publish

/-- **Overwritten bytes stay counted**: the running bucket says eight bytes, every scan says five.
-/
theorem overwritten_vertex_counted_twice :
    amount overwritten.subMeta (singleLayout.subShardIdFor 7 9) = (1, 8) ∧
      (∀ listing : Listing overwritten.stored 7,
        amount (scanAppBuckets singleLayout 7 listing.entries Store.empty)
          (singleLayout.subShardIdFor 7 9) = (1, 5)) ∧
      ¬ RunningAgrees singleLayout overwritten := by
  have hglobal : (7 : Bytes32) ≠ globalDomain := by decide
  have hrunning : amount overwritten.subMeta (singleLayout.subShardIdFor 7 9) = (1, 8) := by
    decide +kernel
  have hscan : ∀ listing : Listing overwritten.stored 7,
      amount (scanAppBuckets singleLayout 7 listing.entries empty)
        (singleLayout.subShardIdFor 7 9) = (1, 5) := by
    intro listing
    apply signed_injective
    refine (scan_total hglobal listing rfl (singleLayout.route 7 9)).trans ?_
    refine (total_run_of_empty rfl overwritingCalls hglobal 9).trans ?_
    decide +kernel
  refine ⟨hrunning, hscan, fun h => ?_⟩
  obtain ⟨listing⟩ := exists_listing overwritten.stored 7
  have hsame := h 7 hglobal listing 9
  rw [hrunning, hscan listing] at hsame
  cases hsame

end Hypergraph

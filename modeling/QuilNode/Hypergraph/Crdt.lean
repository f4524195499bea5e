import QuilNode.Basic
import QuilNode.Lib.Store
import QuilNode.Lib.Results

/-!
# The hypergraph CRDT (`quil-hypergraph/src/crdt.rs`)

Vertices and hyperedges each have an adds set and a removes set of blobs.  A batch of mutations is
published only as a whole.  A location is read through its *cell*, the pair of its two blobs, on
which mutations act one by one (`applyMutations_cell`); a tombstoned vertex stays invisible however
often it is added again.
-/

namespace Hypergraph

open Results Store

/-- `quil_hypergraph::addressing::Location`; its `to_id` is `application ‖ data`. -/
structure Location where
  application : Bytes32
  data : Bytes32
  deriving DecidableEq

inductive Kind where
  | vertex
  | hyperedge
  deriving DecidableEq

inductive Side where
  | adds
  | removes
  deriving DecidableEq

/-- The four phase sets, in the order of the source's index 0 to 3: vertex adds and removes,
hyperedge adds and removes. -/
structure Phase where
  kind : Kind
  side : Side
  deriving DecidableEq

/-- A blob's phase set and location (the shard key is a function of the location's application). -/
structure BlobKey where
  phase : Phase
  location : Location
  deriving DecidableEq

/-- The adds key and the removes key of a location. -/
def addsKey (kind : Kind) (loc : Location) : BlobKey := ⟨⟨kind, .adds⟩, loc⟩

def removesKey (kind : Kind) (loc : Location) : BlobKey := ⟨⟨kind, .removes⟩, loc⟩

section Keys

variable {kind kind' : Kind} {loc loc' : Location}

@[simp] theorem addsKey_inj :
    addsKey kind' loc' = addsKey kind loc ↔ kind = kind' ∧ loc = loc' := by
  simp [addsKey, eq_comm]

@[simp] theorem removesKey_inj :
    removesKey kind' loc' = removesKey kind loc ↔ kind = kind' ∧ loc = loc' := by
  simp [removesKey, eq_comm]

@[simp] theorem addsKey_ne_removesKey : addsKey kind loc ≠ removesKey kind' loc' := by
  simp [addsKey, removesKey]

end Keys

/-- The 6-bit group of a key at a bit position, zero-padded at the end. -/
def nextNibble (key : List Bool) (pos : Nat) : Nat :=
  let group := (key.drop pos).take 6
  (group ++ List.replicate (6 - group.length) false).foldl (fun n bit => 2 * n + bit.toNat) 0

/-- `get_full_path`: the groups from the start of the key to its end. -/
def fullPath (key : List Bool) : List Nat :=
  (List.range ((key.length + 5) / 6)).map fun i => nextNibble key (6 * i)

/-- The path of a location's 64-byte id. -/
def Location.path (loc : Location) : List Nat :=
  fullPath (Bytes32.bits loc.application ++ Bytes32.bits loc.data)

/-- The prefix of the paths the node stores, the commitment of a vertex blob, and the sub-shard of a
data address. -/
structure CrdtConfig where
  coveredPrefix : List Nat
  vertexCommitment : Bytes → Result Bytes
  subShardIdFor : Bytes32 → Bytes32 → Bytes

/-- The gate of a node that stores a part of the state; an empty one accepts
every location. -/
def CrdtConfig.covers (config : CrdtConfig) (loc : Location) : Bool :=
  config.coveredPrefix.isEmpty || decide (config.coveredPrefix <+: loc.path)

/-- The stored blobs, the work staged over them and the running metadata (count and size) of each
sub-shard. -/
structure Crdt where
  stored : Store BlobKey fun _ => Bytes
  pendingBlobs : Store BlobKey fun _ => Bytes
  pendingLeaves : Store BlobKey fun _ => Bytes
  pendingRecords : Store Bytes fun _ => Option Bytes
  storedRecords : Store Bytes fun _ => Bytes
  subMeta : Store Bytes fun _ => Nat × Int

/-- Which loads of the database fail during a call, and how. -/
abbrev Faults := BlobKey → Option QuilError

/-- `read_blob_checked`: the staged blob, else the database's. -/
def Crdt.readBlobChecked (c : Crdt) (faults : Faults) (key : BlobKey) : Result (Option Bytes) :=
  match c.pendingBlobs key with
  | some blob => .ok (some blob)
  | none =>
    match faults key with
    | some error => .error error
    | none => .ok (c.stored key)

/-- `get_vertex_data_checked` and `get_hyperedge_data_checked`: nothing under a removes blob, else
the adds blob unless it is empty. -/
def Crdt.getDataChecked (c : Crdt) (faults : Faults) (kind : Kind) (loc : Location) :
    Result (Option Bytes) := do
  let removed ← c.readBlobChecked faults (removesKey kind loc)
  if removed.isSome then
    return none
  let blob ← c.readBlobChecked faults (addsKey kind loc)
  return blob.filter fun b => !b.isEmpty

/-- `AddVertex`, `RemoveVertex`, `AddHyperedge`, `RemoveHyperedge` and `Record`. -/
inductive Mutation where
  | add (kind : Kind) (loc : Location) (data : Bytes)
  | remove (kind : Kind) (loc : Location)
  | record (key : Bytes) (value : Option Bytes)

/-- The batch under preparation. -/
structure PreparedMutations where
  leaves : Store BlobKey fun _ => Bytes
  blobs : Store BlobKey fun _ => Bytes
  metadata : List (Bytes × Int × Int)
  records : Store Bytes fun _ => Option Bytes

/-- `PreparedMutations::default`. -/
def PreparedMutations.empty : PreparedMutations := ⟨.empty, .empty, [], .empty⟩

/-- What the batch so far, else the CRDT, holds. -/
def PreparedMutations.read (p : PreparedMutations) (c : Crdt) (faults : Faults)
    (key : BlobKey) : Result (Option Bytes) :=
  match p.blobs key with
  | some blob => .ok (some blob)
  | none => c.readBlobChecked faults key

/-- `vertex_leaf_value`: the commitment and the blob's size. -/
def vertexLeafValue (config : CrdtConfig) (blob : Bytes) : Result Bytes := do
  let commitment ← config.vertexCommitment blob
  return commitment ++ beBytes 8 blob.length

/-- `sized_tombstone_leaf_value`: the commitment of nothing and the removed size. -/
def sizedTombstoneLeafValue (config : CrdtConfig) (size : Nat) : Result Bytes := do
  let value ← vertexLeafValue config []
  return value.take 32 ++ beBytes 8 size

def PreparedMutations.stage (p : PreparedMutations) (config : CrdtConfig) (key : BlobKey)
    (blob : Bytes) (tombstoneSize : Option Nat) : Result PreparedMutations := do
  let leaf ← (match tombstoneSize with
    | some size => sizedTombstoneLeafValue config size
    | none => vertexLeafValue config blob)
  return { p with leaves := p.leaves.write key leaf, blobs := p.blobs.write key blob }

/-- The GLOBAL domain, all `0xff`, keeps no sub-shard metadata. -/
def globalDomain : Bytes32 := BitVec.allOnes 256

def PreparedMutations.bump (p : PreparedMutations) (config : CrdtConfig) (loc : Location)
    (count size : Int) : PreparedMutations :=
  if loc.application ≠ globalDomain then
    { p with metadata := p.metadata ++
        [(config.subShardIdFor loc.application loc.data, count, size)] }
  else p

/-- The add branch of the loop: a removed hyperedge is skipped, a vertex is staged whatever its
removes set holds. -/
def PreparedMutations.add (p : PreparedMutations) (config : CrdtConfig) (c : Crdt)
    (faults : Faults) (kind : Kind) (loc : Location) (data : Bytes) : Result PreparedMutations :=
  match kind with
  | .vertex => do
    let existing ← p.read c faults (addsKey .vertex loc)
    let p ← p.stage config (addsKey .vertex loc) data none
    return p.bump config loc (if existing.isNone then 1 else 0) data.length
  | .hyperedge => do
    let removed ← p.read c faults (removesKey .hyperedge loc)
    if removed.isSome then
      return p
    let p ← p.stage config (addsKey .hyperedge loc) data none
    return p.bump config loc 0 data.length

/-- The remove branch: a placeholder where nothing was added, and a tombstone. -/
def PreparedMutations.remove (p : PreparedMutations) (config : CrdtConfig) (c : Crdt)
    (faults : Faults) (kind : Kind) (loc : Location) : Result PreparedMutations := do
  let existing ← p.read c faults (addsKey kind loc)
  let removed ← p.read c faults (removesKey kind loc)
  let size := (existing.map List.length).getD 0
  let present := size ≠ 0 ∧ removed.isNone
  let p ← (if existing.isNone then p.stage config (addsKey kind loc) [] none else .ok p)
  let p ← p.stage config (removesKey kind loc) [] (some size)
  if present ∨ (kind = .vertex ∧ existing.isNone) then
    return p.bump config loc (if kind = .vertex ∧ existing.isNone then 1 else 0)
      (if present then -size else 0)
  return p

def PreparedMutations.apply (p : PreparedMutations) (config : CrdtConfig) (c : Crdt)
    (faults : Faults) : Mutation → Result PreparedMutations
  | .add kind loc data => p.add config c faults kind loc data
  | .remove kind loc => p.remove config c faults kind loc
  | .record key value => .ok { p with records := p.records.write key value }

/-- One metadata change: `u64` count and `i128` size. -/
def bumpEntry (entry : Nat × Int) (count size : Int) : Result (Nat × Int) := do
  let n ← (if 0 ≤ count then
      if entry.1 + count.toNat < 2 ^ 64 then .ok (entry.1 + count.toNat)
      else .error (.executionUnavailable "CRDT metadata count overflow")
    else .ok (entry.1 - count.natAbs))
  if -(2 ^ 127) ≤ entry.2 + size ∧ entry.2 + size < 2 ^ 127 then
    return (n, entry.2 + size)
  .error (.executionUnavailable "CRDT metadata size overflow")

/-- The metadata after the batch's changes, in order. -/
def nextMetadata (start : Store Bytes fun _ => Nat × Int) (changes : List (Bytes × Int × Int)) :
    Result (Store Bytes fun _ => Nat × Int) :=
  changes.foldlM (fun m x => do
    let entry ← bumpEntry ((m x.1).getD (0, 0)) x.2.1 x.2.2
    return m.write x.1 entry) start

/-- `apply_mutations`: prepare the whole batch, then publish it. -/
def Crdt.applyMutations (c : Crdt) (config : CrdtConfig) (faults : Faults)
    (mutations : List Mutation) : Result Crdt := do
  let p ← mutations.foldlM (fun p m => p.apply config c faults m) PreparedMutations.empty
  let subMeta ← nextMetadata c.subMeta p.metadata
  return { c with
    pendingBlobs := fun key => (p.blobs key).or (c.pendingBlobs key)
    pendingLeaves := fun key => (p.leaves key).or (c.pendingLeaves key)
    pendingRecords := fun key => (p.records key).or (c.pendingRecords key)
    subMeta := subMeta }

/-- A durable frame commit of the blobs and records; one that fails restores what
it took and changes nothing. -/
def Crdt.publish (c : Crdt) : Crdt :=
  { c with
    stored := fun key => (c.pendingBlobs key).or (c.stored key)
    pendingBlobs := .empty
    pendingLeaves := .empty
    pendingRecords := .empty
    storedRecords := fun key =>
      match c.pendingRecords key with
      | some value => value
      | none => c.storedRecords key }

/-- What a location holds in the two sets of a kind. -/
structure Cell where
  adds : Option Bytes
  removes : Option Bytes
  deriving DecidableEq

/-- The blob a fault-free read finds. -/
def Crdt.peek (c : Crdt) (key : BlobKey) : Option Bytes :=
  (c.pendingBlobs key).or (c.stored key)

def Crdt.cell (c : Crdt) (kind : Kind) (loc : Location) : Cell :=
  ⟨c.peek (addsKey kind loc), c.peek (removesKey kind loc)⟩

/-- What readers of the cell see. -/
def Cell.visible (cell : Cell) : Option Bytes :=
  if cell.removes.isSome then none else cell.adds.filter fun b => !b.isEmpty

/-- Adding to a cell: a removed hyperedge stays as it is. -/
def Cell.add (cell : Cell) (kind : Kind) (data : Bytes) : Cell :=
  if kind = .hyperedge ∧ cell.removes.isSome then cell else { cell with adds := some data }

/-- Removing from a cell leaves a tombstone over what was added. -/
def Cell.remove (cell : Cell) : Cell := ⟨cell.adds.or (some []), some []⟩

/-- The effect of a mutation on the cell of `loc`. -/
def Cell.apply (kind : Kind) (loc : Location) (cell : Cell) : Mutation → Cell
  | .add kind' loc' data => if kind' = kind ∧ loc' = loc then cell.add kind data else cell
  | .remove kind' loc' => if kind' = kind ∧ loc' = loc then cell.remove else cell
  | .record _ _ => cell

variable {faults : Faults} {key : BlobKey}

theorem readBlobChecked_ok {c : Crdt} {blob : Option Bytes}
    (h : c.readBlobChecked faults key = .ok blob) : blob = c.peek key := by
  unfold Crdt.readBlobChecked at h
  unfold Crdt.peek
  split at h
  · rename_i b hb
    simp [← Except.ok.inj h, hb]
  rename_i hb
  split at h
  · cases h
  · simp [← Except.ok.inj h, hb]

variable {kind : Kind} {loc : Location}

theorem getDataChecked_ok {c : Crdt}
    {data : Option Bytes} (h : c.getDataChecked faults kind loc = .ok data) :
    data = (c.cell kind loc).visible := by
  obtain ⟨_, hremoved, h⟩ := bind_ok.mp h
  unfold Cell.visible Crdt.cell
  rw [← readBlobChecked_ok hremoved]
  split at h
  · rename_i hsome
    rw [if_pos hsome]
    exact (pure_ok.mp h).symm
  · rename_i hnone
    obtain ⟨_, hblob, h⟩ := bind_ok.mp h
    rw [if_neg hnone, ← readBlobChecked_ok hblob]
    exact (pure_ok.mp h).symm

/-- The cell as the batch under preparation sees it. -/
def PreparedMutations.cell (p : PreparedMutations) (c : Crdt) (kind : Kind)
    (loc : Location) : Cell :=
  ⟨(p.blobs (addsKey kind loc)).or (c.peek (addsKey kind loc)),
    (p.blobs (removesKey kind loc)).or (c.peek (removesKey kind loc))⟩

namespace PreparedMutations

variable {p p' : PreparedMutations} {config : CrdtConfig} {c : Crdt} {faults : Faults}

theorem read_ok {blob : Option Bytes}
    (h : p.read c faults key = .ok blob) : blob = (p.blobs key).or (c.peek key) := by
  unfold read at h
  split at h
  · rename_i b hb
    simp [← Except.ok.inj h, hb]
  · rename_i hb
    simp [readBlobChecked_ok h, hb]

variable {blob : Bytes}

theorem stage_ok {size : Option Nat}
    (h : p.stage config key blob size = .ok p') : p'.blobs = p.blobs.write key blob := by
  obtain ⟨_, -, h⟩ := bind_ok.mp h
  rw [← pure_ok.mp h]

@[simp] theorem bump_blobs (p : PreparedMutations) (config : CrdtConfig)
    (loc : Location) (count size : Int) : (p.bump config loc count size).blobs = p.blobs := by
  unfold bump
  split <;> rfl

/-- The batch's view after a blob of this kind and location was staged. -/
theorem cell_adds {kind' : Kind} {loc' : Location}
    (hblobs : p'.blobs = p.blobs.write (addsKey kind loc) blob) :
    p'.cell c kind' loc' =
      if kind = kind' ∧ loc = loc' then { p.cell c kind' loc' with adds := some blob }
      else p.cell c kind' loc' := by
  unfold cell
  rw [hblobs, write_of_ne _ _ addsKey_ne_removesKey.symm, write_apply]
  simp only [addsKey_inj]
  split <;> rfl

/-- The batch's view after a tombstone was staged. -/
theorem cell_removes {kind' : Kind} {loc' : Location}
    (hblobs : p'.blobs = p.blobs.write (removesKey kind loc) blob) :
    p'.cell c kind' loc' = if kind = kind' ∧ loc = loc' then
        { p.cell c kind' loc' with removes := some blob }
      else p.cell c kind' loc' := by
  unfold cell
  rw [hblobs, write_of_ne _ _ addsKey_ne_removesKey, write_apply]
  simp only [removesKey_inj]
  split <;> rfl

/-- Adding to the batch acts on cells. -/
theorem add_cell {data : Bytes}
    (h : p.add config c faults kind loc data = .ok p') (kind' : Kind) (loc' : Location) :
    p'.cell c kind' loc' = (p.cell c kind' loc').apply kind' loc' (.add kind loc data) := by
  cases kind with
  | vertex =>
    obtain ⟨_, -, h⟩ := bind_ok.mp h
    obtain ⟨_, hq, h⟩ := bind_ok.mp h
    have hblobs : p'.blobs = p.blobs.write (addsKey .vertex loc) data := by
      rw [← pure_ok.mp h, bump_blobs, stage_ok hq]
    rw [cell_adds hblobs]
    simp only [Cell.apply, Cell.add]
    by_cases hsame : Kind.vertex = kind' ∧ loc = loc'
    · obtain ⟨rfl, rfl⟩ := hsame
      simp
    · rw [if_neg hsame, if_neg hsame]
  | hyperedge =>
    obtain ⟨removed, hremoved, h⟩ := bind_ok.mp h
    have hr : removed = (p.cell c .hyperedge loc).removes := read_ok hremoved
    simp only [Cell.apply, Cell.add]
    split at h
    · -- a removed hyperedge is skipped
      rename_i hsome
      rw [← pure_ok.mp h]
      by_cases hsame : Kind.hyperedge = kind' ∧ loc = loc'
      · obtain ⟨rfl, rfl⟩ := hsame
        rw [hr] at hsome
        simp [hsome]
      · rw [if_neg hsame]
    · rename_i hnone
      obtain ⟨_, hq, h⟩ := bind_ok.mp h
      have hblobs : p'.blobs = p.blobs.write (addsKey .hyperedge loc) data := by
        rw [← pure_ok.mp h, bump_blobs, stage_ok hq]
      rw [cell_adds hblobs]
      by_cases hsame : Kind.hyperedge = kind' ∧ loc = loc'
      · obtain ⟨rfl, rfl⟩ := hsame
        rw [hr] at hnone
        simp [hnone]
      · rw [if_neg hsame, if_neg hsame]

/-- Removing in the batch acts on cells. -/
theorem remove_cell
    (h : p.remove config c faults kind loc = .ok p') (kind' : Kind) (loc' : Location) :
    p'.cell c kind' loc' = (p.cell c kind' loc').apply kind' loc' (.remove kind loc) := by
  obtain ⟨existing, hexisting, h⟩ := bind_ok.mp h
  obtain ⟨_, -, h⟩ := bind_ok.mp h
  have he : existing = (p.cell c kind loc).adds := read_ok hexisting
  simp only [bind_ok] at h
  obtain ⟨q, hq, _, hr, h⟩ := h
  have hblobs : p'.blobs = q.blobs.write (removesKey kind loc) [] := by
    rw [← stage_ok hr]
    split at h
    · rw [← pure_ok.mp h, bump_blobs]
    · rw [← pure_ok.mp h]
  have hplaceholder : q.cell c kind' loc' = if kind = kind' ∧ loc = loc' then
        { p.cell c kind' loc' with adds := (p.cell c kind' loc').adds.or (some []) }
      else p.cell c kind' loc' := by
    split at hq
    · rename_i hnone
      rw [cell_adds (stage_ok hq)]
      split
      · rename_i hsame
        obtain ⟨rfl, rfl⟩ := hsame
        rw [← he, Option.isNone_iff_eq_none.mp hnone]
        rfl
      · rfl
    · rename_i hsome
      rw [← Except.ok.inj hq]
      split
      · rename_i hsame
        obtain ⟨rfl, rfl⟩ := hsame
        rw [← he]
        cases existing with
        | none => simp at hsome
        | some => rw [Option.some_or, he]
      · rfl
  rw [cell_removes hblobs, hplaceholder]
  simp only [Cell.apply, Cell.remove]
  split <;> rfl

theorem apply_cell {m : Mutation} (h : p.apply config c faults m = .ok p')
    (kind : Kind) (loc : Location) : p'.cell c kind loc = (p.cell c kind loc).apply kind loc m := by
  cases m with
  | add => exact add_cell h kind loc
  | remove => exact remove_cell h kind loc
  | record =>
    rw [← Except.ok.inj h]
    rfl

end PreparedMutations

/-- **A batch acts cell by cell.** -/
theorem applyMutations_cell {c c' : Crdt} {config : CrdtConfig}
    {mutations : List Mutation} (h : c.applyMutations config faults mutations = .ok c')
    (kind : Kind) (loc : Location) :
    c'.cell kind loc = mutations.foldl (fun cell m => cell.apply kind loc m) (c.cell kind loc) := by
  obtain ⟨p, hp, h⟩ := bind_ok.mp h
  obtain ⟨_, -, h⟩ := bind_ok.mp h
  have hcell : c'.cell kind loc = p.cell c kind loc := by
    rw [← pure_ok.mp h]
    simp [Crdt.cell, Crdt.peek, PreparedMutations.cell, Option.or_assoc]
  rw [hcell]
  exact foldlM_view (fun p m p' hm => PreparedMutations.apply_cell hm kind loc) hp

/-- A frame commit moves blobs without changing what is read. -/
@[simp] theorem publish_cell (c : Crdt) (kind : Kind) (loc : Location) :
    c.publish.cell kind loc = c.cell kind loc := by
  simp [Crdt.cell, Crdt.peek, Crdt.publish]

end Hypergraph

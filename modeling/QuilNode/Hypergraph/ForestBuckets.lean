import QuilNode.Lib.NibbleTree
import QuilNode.Hypergraph.SizeBuckets

/-!
# Size buckets from the forest

The unified tree keeps a Jellyfish tree of the leaves: an add leaf carries the length of its blob,
a tombstone leaf the length of the blob it was laid over.  `forest_app_buckets` reads a shard's
count and its live size, adds minus removes, off the sums at the shard's bit path.

An add of another length on a removed vertex leaves the two apart; without such adds the forest's
buckets are those of a scan (`forest_buckets_eq_scan`).
-/

namespace Hypergraph

open Results Forest Store Tally NibbleTree List Run

/-- The bits of a leaf's key. -/
def keyBit (data : Bytes32) (i : Nat) : Bool := data.getMsbD i

/-- `vertex_leaf_size`. -/
def vertexLeafSize (value : Bytes) : Nat :=
  if 40 ≤ value.length then natOfBytes ((value.drop 32).take 8) else 0

/-- The phase trees of each application. -/
abbrev PhaseTrees := Bytes32 → Phase → NibbleTree Bytes32 Bytes

/-- A CRDT and its committed forest. -/
structure ForestCrdt where
  crdt : Crdt
  trees : PhaseTrees

/-- Commit one leaf into its phase tree; keys have 64 nibbles. -/
def putLeaf (trees : PhaseTrees) (key : BlobKey) (leaf : Bytes) : PhaseTrees :=
  fun app phase =>
    if app = key.location.application ∧ phase = key.phase then
      (trees app phase).insert keyBit key.location.data leaf 64 0
    else trees app phase

/-- A durable frame commit on the unified tree; `deltas` are the pending leaves in
the order they are visited. -/
def ForestCrdt.commit (s : ForestCrdt) (deltas : List (BlobKey × Bytes)) : ForestCrdt :=
  ⟨s.crdt.publish, deltas.foldl (fun trees d => putLeaf trees d.1 d.2) s.trees⟩

/-- A visit of every pending leaf once. -/
structure VisitsAll (pending : Store BlobKey fun _ => Bytes) (deltas : List (BlobKey × Bytes)) :
    Prop where
  nodup : (deltas.map Prod.fst).Nodup
  mem_iff : ∀ key leaf, (key, leaf) ∈ deltas ↔ pending key = some leaf

/-- `app_subtree_leaf_count`. -/
def appSubtreeLeafCount (tree : NibbleTree Bytes32 Bytes) (bits : List Bool) : Nat :=
  tree.subtreeSum keyBit NibbleTree.leafCount List.sum bits bits

/-- `app_subtree_size`, a saturating `u128` sum. -/
def appSubtreeSize (tree : NibbleTree Bytes32 Bytes) (bits : List Bool) : Nat :=
  tree.subtreeSum keyBit (NibbleTree.sizeSum (2 ^ 128 - 1) vertexLeafSize)
    (NibbleTree.cappedSum (2 ^ 128 - 1)) bits bits

/-- A checked `i128` value. -/
def checkedSize (n : Int) : Result Int := do
  ensure (-(2 ^ 127) ≤ n ∧ n < 2 ^ 127) (QuilError.executionUnavailable "size accounting overflow")
  pure n

/-- The count and the live size at a shard's bit path. -/
def shardBucket (trees : Phase → NibbleTree Bytes32 Bytes) (bits : List Bool) :
    Result (Nat × Int) := do
  let count := appSubtreeLeafCount (trees ⟨.vertex, .adds⟩) bits
  let va ← checkedSize (appSubtreeSize (trees ⟨.vertex, .adds⟩) bits)
  let vr ← checkedSize (appSubtreeSize (trees ⟨.vertex, .removes⟩) bits)
  let ha ← checkedSize (appSubtreeSize (trees ⟨.hyperedge, .adds⟩) bits)
  let hr ← checkedSize (appSubtreeSize (trees ⟨.hyperedge, .removes⟩) bits)
  let size ← checkedSize (va - vr)
  let size ← checkedSize (size + ha)
  let size ← checkedSize (size - hr)
  pure (count, max size 0)

/-- `forest_app_buckets`; an application off the unified tree is scanned. -/
def forestAppBuckets (layout : ShardLayout) (unified : Bool) (app : Bytes32)
    (trees : Phase → NibbleTree Bytes32 Bytes) (entries : Phase → List (Location × Bytes))
    (buckets : Buckets) : Result Buckets :=
  if app = globalDomain then .ok buckets
  else if unified = false then .ok (scanAppBuckets layout app entries buckets)
  else do
    let rows := layout.appPrefixes app
    let paths := if layout.isSingle app then [[]] else layout.shardBitPaths app
    ensure (layout.isSingle app = true ∨ paths.length = rows.length)
      (QuilError.executionUnavailable "size accounting has misaligned shard paths")
    (rows.zip paths).foldlM (fun buckets shard => do
      let bucket ← shardBucket trees shard.2
      -- a shard without leaves gets no bucket
      if bucket = 0 then pure buckets
      else pure (Tally.add buckets (addrPathShardId app shard.1) bucket)) buckets

/-! ## Blobs and leaves -/

/-- Blobs and leaves of all keys: an add leaf has its blob's length, a tombstone leaf stands where a
removes blob does and has the length of the added blob. -/
structure SizesMatch (blob leaf : Store BlobKey fun _ => Bytes) : Prop where
  adds : ∀ kind loc, (blob (addsKey kind loc)).map List.length =
    (leaf (addsKey kind loc)).map vertexLeafSize
  removes : ∀ kind loc, (blob (removesKey kind loc)).isSome = (leaf (removesKey kind loc)).isSome
  sized : ∀ kind loc tombstone, leaf (removesKey kind loc) = some tombstone →
    ∃ b, blob (addsKey kind loc) = some b ∧ vertexLeafSize tombstone = b.length

theorem vertexLeafSize_lt (value : Bytes) : vertexLeafSize value < 2 ^ 64 := by
  unfold vertexLeafSize
  split
  · have hbytes := natOfBytes_lt ((value.drop 32).take 8)
    have htaken : ((value.drop 32).take 8).length = 8 := by
      rw [length_take, length_drop]
      omega
    rw [htaken] at hbytes
    exact lt_of_lt_of_eq hbytes (by decide)
  · decide

/-- A commitment followed by a size is read back. -/
theorem vertexLeafSize_append {commitment : Bytes} (hlength : commitment.length = 32) {n : Nat}
    (hn : n < 2 ^ 64) : vertexLeafSize (commitment ++ beBytes 8 n) = n := by
  have hmod : n % 256 ^ 8 = n := Nat.mod_eq_of_lt hn
  have hdrop : (commitment ++ beBytes 8 n).drop 32 = beBytes 8 n := by
    rw [← hlength, drop_left]
  have htake : (beBytes 8 n).take 8 = beBytes 8 n := take_of_length_le (by simp)
  have hlong : 40 ≤ (commitment ++ beBytes 8 n).length := by
    rw [length_append, hlength, beBytes_length]
  rw [vertexLeafSize, if_pos hlong, hdrop, htake, natOfBytes_beBytes, hmod]

namespace SizesMatch

variable {blob leaf : Store BlobKey fun _ => Bytes} {kind : Kind} {loc : Location}

/-- Writing an add keeps the account, where a tombstone over it has its length. -/
theorem write_adds (h : SizesMatch blob leaf) {data value : Bytes}
    (hsize : vertexLeafSize value = data.length)
    (htombstone : ∀ tombstone, leaf (removesKey kind loc) = some tombstone →
      vertexLeafSize tombstone = data.length) :
    SizesMatch (blob.write (addsKey kind loc) data) (leaf.write (addsKey kind loc) value) := by
  constructor
  · intro kind' loc'
    rw [write_apply, write_apply]
    split
    · simp [hsize]
    · exact h.adds kind' loc'
  · intro kind' loc'
    rw [write_of_ne _ _ addsKey_ne_removesKey.symm, write_of_ne _ _ addsKey_ne_removesKey.symm]
    exact h.removes kind' loc'
  · intro kind' loc' tombstone ht
    rw [write_of_ne _ _ addsKey_ne_removesKey.symm] at ht
    rw [write_apply]
    split
    · rename_i hsame
      obtain ⟨rfl, rfl⟩ := addsKey_inj.mp hsame
      exact ⟨data, rfl, htombstone tombstone ht⟩
    · exact h.sized kind' loc' tombstone ht

/-- Laying a tombstone with the length of the added blob keeps the account. -/
theorem write_removes (h : SizesMatch blob leaf) {data value mark : Bytes}
    (hadds : blob (addsKey kind loc) = some data) (hsize : vertexLeafSize value = data.length) :
    SizesMatch (blob.write (removesKey kind loc) mark)
      (leaf.write (removesKey kind loc) value) := by
  constructor
  · intro kind' loc'
    rw [write_of_ne _ _ addsKey_ne_removesKey, write_of_ne _ _ addsKey_ne_removesKey]
    exact h.adds kind' loc'
  · intro kind' loc'
    rw [write_apply, write_apply]
    split
    · rfl
    · exact h.removes kind' loc'
  · intro kind' loc' tombstone ht
    rw [write_of_ne _ _ addsKey_ne_removesKey]
    rw [write_apply] at ht
    split at ht
    · rename_i hsame
      obtain ⟨rfl, rfl⟩ := removesKey_inj.mp hsame
      obtain rfl := Option.some.inj ht
      exact ⟨data, hadds, hsize⟩
    · exact h.sized kind' loc' tombstone ht

/-- An added blob's length fits the size field. -/
theorem adds_lt (h : SizesMatch blob leaf) {data : Bytes}
    (hadds : blob (addsKey kind loc) = some data) : data.length < 2 ^ 64 := by
  have hsize := h.adds kind loc
  rw [hadds] at hsize
  obtain ⟨value, -, hvalue⟩ := Option.map_eq_some_iff.mp hsize.symm
  rw [← hvalue]
  exact vertexLeafSize_lt value

end SizesMatch

/-! ## Mutations keep the account -/

/-- An added blob's length fits a `u64`; on a removed vertex it is the length of the blob that is
there. -/
def Mutation.KeepsSize (cells : Cells) : Mutation → Prop
  | .add kind loc data =>
    data.length < 2 ^ 64 ∧ (kind = .vertex → (cells .vertex loc).removes.isSome →
      data.length = ((cells .vertex loc).adds.getD []).length)
  | _ => True

/-- Every mutation of the batch keeps sizes where it finds the cells. -/
def KeepsSizes : Cells → List Mutation → Prop
  | _, [] => True
  | cells, m :: ms => m.KeepsSize cells ∧ KeepsSizes (cells.apply m) ms

section Prepare

variable {config : CrdtConfig} {c : Crdt} {faults : Faults} {p p' : PreparedMutations}
  {base : Store BlobKey fun _ => Bytes}

/-- The blobs a batch under preparation sees. -/
def PreparedMutations.blobView (p : PreparedMutations) (c : Crdt) : Store BlobKey fun _ => Bytes :=
  fun key => (p.blobs key).or (c.peek key)

open PreparedMutations

/-- The leaves a batch under preparation would leave over others. -/
def PreparedMutations.leafView (p : PreparedMutations) (base : Store BlobKey fun _ => Bytes) :
    Store BlobKey fun _ => Bytes :=
  fun key => (p.leaves key).or (base key)

theorem write_or (s t : Store BlobKey fun _ => Bytes) (k : BlobKey) (v : Bytes) :
    (fun key => (s.write k v key).or (t key)) =
      write (V := fun _ => Bytes) (fun key => (s key).or (t key)) k v := by
  funext key
  by_cases hkey : key = k
  · subst hkey
    rw [write_self, write_self]
    rfl
  · rw [write_of_ne _ _ hkey, write_of_ne _ _ hkey]

/-- Staging writes the blob and a leaf of the blob's length, or of the length it is
given. -/
theorem PreparedMutations.stage_views (c : Crdt) (base : Store BlobKey fun _ => Bytes)
    (hcommitment : ∀ blob v, config.vertexCommitment blob = .ok v → v.length = 32)
    {key : BlobKey} {blob : Bytes} {tombstone : Option Nat}
    (h : p.stage config key blob tombstone = .ok p') (hsize : tombstone.getD blob.length < 2 ^ 64) :
    ∃ value, vertexLeafSize value = tombstone.getD blob.length ∧
      p'.blobView c = (p.blobView c).write key blob ∧
      p'.leafView base = (p.leafView base).write key value := by
  obtain ⟨value, hvalue, h⟩ := bind_ok.mp h
  refine ⟨value, ?_, ?_, ?_⟩
  · cases tombstone with
    | none =>
      obtain ⟨_, hc, hvalue⟩ := bind_ok.mp hvalue
      rw [← pure_ok.mp hvalue]
      exact vertexLeafSize_append (hcommitment _ _ hc) hsize
    | some =>
      obtain ⟨_, hplain, hvalue⟩ := bind_ok.mp hvalue
      obtain ⟨_, hc, hplain⟩ := bind_ok.mp hplain
      rw [← pure_ok.mp hvalue, ← pure_ok.mp hplain]
      refine vertexLeafSize_append ?_ hsize
      rw [length_take, length_append, hcommitment _ _ hc]
      omega
  · rw [← pure_ok.mp h]
    exact write_or _ _ _ _
  · rw [← pure_ok.mp h]
    exact write_or _ _ _ _

theorem SizesMatch.bump (h : SizesMatch (p.blobView c) (p.leafView base)) (loc : Location)
    (count size : Int) :
    SizesMatch ((p.bump config loc count size).blobView c)
      ((p.bump config loc count size).leafView base) := by
  unfold PreparedMutations.bump
  split <;> exact h

/-- **One mutation** that keeps sizes keeps the account. -/
theorem SizesMatch.apply
    (hcommitment : ∀ blob v, config.vertexCommitment blob = .ok v → v.length = 32)
    (h : SizesMatch (p.blobView c) (p.leafView base)) {m : Mutation} (hm : m.KeepsSize (p.cell c))
    (happly : p.apply config c faults m = .ok p') :
    SizesMatch (p'.blobView c) (p'.leafView base) := by
  cases m with
  | add kind loc =>
    obtain ⟨hdata, hsame⟩ := hm
    cases kind with
    | vertex =>
      obtain ⟨_, -, happly⟩ := bind_ok.mp happly
      obtain ⟨_, hq, happly⟩ := bind_ok.mp happly
      obtain ⟨_, hvalue, hblobs, hleaves⟩ := stage_views c base hcommitment hq hdata
      rw [← pure_ok.mp happly]
      apply SizesMatch.bump
      rw [hblobs, hleaves]
      refine h.write_adds hvalue fun tombstone ht => ?_
      obtain ⟨b, hb, hsize⟩ := h.sized .vertex loc tombstone ht
      have hremoved : ((p.cell c .vertex loc).removes).isSome = true := by
        have hiff := h.removes .vertex loc
        rw [ht] at hiff
        exact hiff
      have hlength := hsame rfl hremoved
      have hadds : (p.cell c .vertex loc).adds = some b := hb
      rw [hadds, Option.getD_some] at hlength
      rw [hsize, hlength]
    | hyperedge =>
      obtain ⟨removed, hremoved, happly⟩ := bind_ok.mp happly
      have hr : removed = p.blobView c (removesKey .hyperedge loc) := read_ok hremoved
      split at happly
      · rw [← pure_ok.mp happly]
        exact h
      rename_i hnone
      obtain ⟨_, hq, happly⟩ := bind_ok.mp happly
      obtain ⟨_, hvalue, hblobs, hleaves⟩ := stage_views c base hcommitment hq hdata
      rw [← pure_ok.mp happly]
      apply SizesMatch.bump
      rw [hblobs, hleaves]
      refine h.write_adds hvalue fun tombstone ht => ?_
      -- a hyperedge that is added again was not removed
      have hiff := h.removes .hyperedge loc
      rw [ht, ← hr] at hiff
      exact absurd hiff hnone
  | remove kind loc =>
    obtain ⟨existing, hexisting, happly⟩ := bind_ok.mp happly
    obtain ⟨_, -, happly⟩ := bind_ok.mp happly
    have he : existing = p.blobView c (addsKey kind loc) := read_ok hexisting
    simp only [bind_ok] at happly
    obtain ⟨q, hq, r, hr, happly⟩ := happly
    -- after the placeholder an add is there, with the length the tombstone gets
    have hplaced : SizesMatch (q.blobView c) (q.leafView base) ∧
        ∃ b, q.blobView c (addsKey kind loc) = some b ∧
          b.length = (existing.map length).getD 0 := by
      cases hexists : existing with
      | none =>
        rw [hexists, Option.isNone_none, if_pos rfl] at hq
        obtain ⟨_, hvalue, hblobs, hleaves⟩ := stage_views c base hcommitment hq (by simp)
        rw [hblobs, hleaves]
        refine ⟨h.write_adds hvalue fun tombstone ht => ?_, [], write_self _ _ _, rfl⟩
        obtain ⟨_, hb, -⟩ := h.sized kind loc tombstone ht
        rw [← he, hexists] at hb
        cases hb
      | some b =>
        rw [hexists, if_neg (by simp)] at hq
        rw [← Except.ok.inj hq]
        exact ⟨h, b, by rw [← he, hexists], rfl⟩
    obtain ⟨hq', _, hb, hlength⟩ := hplaced
    have hsmall : ((some ((existing.map length).getD 0)).getD ([] : Bytes).length) < 2 ^ 64 := by
      rw [Option.getD_some, ← hlength]
      exact hq'.adds_lt hb
    obtain ⟨_, hvalue, hblobs, hleaves⟩ := stage_views c base hcommitment hr hsmall
    have hr' : SizesMatch (r.blobView c) (r.leafView base) := by
      rw [hblobs, hleaves]
      refine hq'.write_removes hb ?_
      rw [hvalue, hlength, Option.getD_some]
    split at happly
    · rw [← pure_ok.mp happly]
      exact hr'.bump _ _ _
    · rw [← pure_ok.mp happly]
      exact hr'
  | record =>
    rw [← Except.ok.inj happly]
    exact h

/-- A batch that keeps sizes keeps the account. -/
theorem SizesMatch.batch
    (hcommitment : ∀ blob v, config.vertexCommitment blob = .ok v → v.length = 32)
    {ms : List Mutation} (h : SizesMatch (p.blobView c) (p.leafView base))
    (hms : KeepsSizes (p.cell c) ms)
    (hfold : ms.foldlM (fun p m => p.apply config c faults m) p = .ok p') :
    SizesMatch (p'.blobView c) (p'.leafView base) := by
  induction ms generalizing p with
  | nil =>
    rw [← pure_ok.mp hfold]
    exact h
  | cons m ms ih =>
    obtain ⟨_, hq, hfold⟩ := bind_ok.mp hfold
    exact ih (h.apply hcommitment hms.1 hq) (apply_cells hq ▸ hms.2) hfold

end Prepare

/-! ## Runs -/

/-- What is done to the CRDT: a batch, or a commit that visits the pending leaves
in some order. -/
inductive ForestCall where
  | apply (faults : Faults) (mutations : List Mutation)
  | commit (deltas : List (BlobKey × Bytes))

/-- One call; a failed batch changes nothing. -/
def forestStep (config : CrdtConfig) (s : ForestCrdt) : ForestCall → Result Unit × ForestCrdt
  | .apply faults mutations =>
    match s.crdt.applyMutations config faults mutations with
    | .ok c => (.ok (), { s with crdt := c })
    | .error error => (.error error, s)
  | .commit deltas => (.ok (), s.commit deltas)

/-- Nothing added and nothing committed. -/
def ForestCrdt.empty : ForestCrdt := ⟨Crdt.empty, fun _ _ => .null⟩

/-- A batch that is applied keeps sizes, and a commit visits every pending leaf once. -/
def SizeKept (e : Run.Event ForestCrdt ForestCall (Result Unit)) : Prop :=
  match e.input with
  | .apply _ mutations => e.result = .ok () → KeepsSizes e.before.crdt.cells mutations
  | .commit deltas => VisitsAll e.before.crdt.pendingLeaves deltas

variable {deltas : List (BlobKey × Bytes)}

section Runs

variable {config : CrdtConfig} {s : ForestCrdt}

/-- The leaves of the committed trees. -/
def treeLeaf (trees : PhaseTrees) : Store BlobKey fun _ => Bytes := fun key =>
  (trees key.location.application key.phase).lookup key.location.data

/-- The pending leaves over the committed ones. -/
def ForestCrdt.leaf (s : ForestCrdt) : Store BlobKey fun _ => Bytes := fun key =>
  (s.crdt.pendingLeaves key).or (treeLeaf s.trees key)

/-- The invariant of runs: the account holds and the trees are well placed. -/
structure ForestCrdt.Kept (s : ForestCrdt) : Prop where
  sizes : SizesMatch s.crdt.peek s.leaf
  placed : ∀ app phase, NibbleTree.Placed keyBit 0 (s.trees app phase)

/-- Addresses that agree on all nibbles are equal. -/
theorem keyBit_separates (a b : Bytes32)
    (h : ∀ i < 64, nibbleAt (keyBit a) i = nibbleAt (keyBit b) i) : a = b := by
  apply BitVec.eq_of_getMsbD_eq
  intro i hi
  obtain ⟨h0, h1, h2, h3⟩ := nibble4_inj (h (i / 4) (by omega))
  have hcases : i = 4 * (i / 4) ∨ i = 4 * (i / 4) + 1 ∨ i = 4 * (i / 4) + 2 ∨
      i = 4 * (i / 4) + 3 := by omega
  rcases hcases with hi | hi | hi | hi <;> rw [hi]
  · exact h0
  · exact h1
  · exact h2
  · exact h3

variable {trees : PhaseTrees}

section Placed

variable (h : ∀ app phase, NibbleTree.Placed keyBit 0 (trees app phase))
include h

theorem placed_putLeaf (key : BlobKey) (leaf : Bytes) :
    ∀ app phase, Placed keyBit 0 (putLeaf trees key leaf app phase) := by
  intro app phase
  unfold putLeaf
  split
  · exact (inserted_insert keyBit_separates (zero_add 64) (h app phase)
      (fun _ _ i hi => absurd hi (Nat.not_lt_zero i))).placed
  · exact h app phase

theorem treeLeaf_putLeaf (key : BlobKey) (leaf : Bytes) :
    treeLeaf (putLeaf trees key leaf) = (treeLeaf trees).write key leaf := by
  funext other
  unfold treeLeaf putLeaf
  by_cases hkey : other = key
  · subst hkey
    rw [if_pos ⟨rfl, rfl⟩, lookup_insert keyBit_separates (h _ _), if_pos rfl, write_self]
  rw [write_of_ne _ _ hkey]
  split
  · rw [lookup_insert keyBit_separates (h _ _), if_neg]
    intro hdata
    obtain ⟨_, _, _⟩ := other
    simp_all
  · rfl

/-- The trees after a commit hold the pending leaves over the old ones. -/
theorem treeLeaf_commit (deltas : List (BlobKey × Bytes)) : (∀ app phase, Placed keyBit 0
        (deltas.foldl (fun trees d => putLeaf trees d.1 d.2) trees app phase)) ∧
      treeLeaf (deltas.foldl (fun trees d => putLeaf trees d.1 d.2) trees) =
        (treeLeaf trees).writeEach deltas Prod.fst Prod.snd := by
  induction deltas generalizing trees with
  | nil => exact ⟨h, rfl⟩
  | cons d deltas ih =>
    rw [foldl_cons, writeEach_cons, ← treeLeaf_putLeaf h]
    exact ih (placed_putLeaf h d.1 d.2)

end Placed

theorem writeEach_visitsAll {pending base : Store BlobKey fun _ => Bytes}
    (h : VisitsAll pending deltas) :
    base.writeEach deltas Prod.fst Prod.snd = fun key => (pending key).or (base key) := by
  funext key
  cases hkey : pending key with
  | some leaf =>
    have hmem := (h.mem_iff key leaf).mpr hkey
    refine (writeEach_of_mem deltas base hmem fun d hd hsame => ?_).trans rfl
    exact inj_on_of_nodup_map h.nodup hd hmem hsame
  | none =>
    refine (writeEach_of_not_mem deltas base fun d hd hsame => ?_).trans rfl
    have hd' := (h.mem_iff d.1 d.2).mp hd
    rw [hsame, hkey] at hd'
    cases hd'

/-- A commit moves the leaves without changing what is seen. -/
theorem ForestCrdt.Kept.commit (h : s.Kept) (hvisits : VisitsAll s.crdt.pendingLeaves deltas) :
    (s.commit deltas).Kept := by
  obtain ⟨hplaced, hleaves⟩ := treeLeaf_commit h.placed deltas
  refine ⟨?_, hplaced⟩
  have hleaf : (s.commit deltas).leaf = s.leaf := by
    funext key
    exact congrFun (hleaves.trans (writeEach_visitsAll hvisits)) key
  have hpeek : (s.commit deltas).crdt.peek = s.crdt.peek := by
    funext key
    simp [ForestCrdt.commit, Crdt.peek, Crdt.publish]
  rw [hleaf, hpeek]
  exact h.sizes

/-- A batch that keeps sizes keeps the invariant. -/
theorem ForestCrdt.Kept.batch
    (hcommitment : ∀ blob v, config.vertexCommitment blob = .ok v → v.length = 32) (h : s.Kept)
    {faults : Faults} {ms : List Mutation} (hms : KeepsSizes s.crdt.cells ms) {c : Crdt}
    (happly : s.crdt.applyMutations config faults ms = .ok c) :
    ForestCrdt.Kept { s with crdt := c } := by
  obtain ⟨p, hp, happly⟩ := bind_ok.mp happly
  obtain ⟨_, -, happly⟩ := bind_ok.mp happly
  have hmatch : SizesMatch (p.blobView s.crdt) (p.leafView s.leaf) :=
    @SizesMatch.batch config s.crdt faults .empty p s.leaf hcommitment ms h.sizes hms hp
  refine ⟨?_, h.placed⟩
  have hpeek : c.peek = p.blobView s.crdt := by
    rw [← pure_ok.mp happly]
    funext key
    simp [Crdt.peek, PreparedMutations.blobView, Option.or_assoc]
  have hleaf : ForestCrdt.leaf { s with crdt := c } = p.leafView s.leaf := by
    rw [← pure_ok.mp happly]
    funext key
    simp [ForestCrdt.leaf, PreparedMutations.leafView, Option.or_assoc]
  rw [hleaf, hpeek]
  exact hmatch

theorem ForestCrdt.kept_empty : ForestCrdt.empty.Kept where
  sizes := ⟨fun _ _ => rfl, fun _ _ => rfl, fun _ _ _ h => by cases h⟩
  placed := fun _ _ => trivial

/-- **The account over runs.** -/
theorem kept_run (hcommitment : ∀ blob v, config.vertexCommitment blob = .ok v → v.length = 32)
    (calls : List ForestCall)
    (hkept : ∀ e ∈ events (forestStep config) ForestCrdt.empty calls, SizeKept e) :
    (final (forestStep config) ForestCrdt.empty calls).Kept := by
  refine state_invariant (forestStep config) ForestCrdt.Kept SizeKept ForestCrdt.kept_empty
    ?_ calls hkept
  intro s call h hok
  cases call with
  | commit => exact h.commit hok
  | apply faults mutations =>
    simp only [SizeKept, event, forestStep] at hok ⊢
    cases happly : s.crdt.applyMutations config faults mutations with
    | ok =>
      rw [happly] at hok
      exact h.batch hcommitment (hok rfl) happly
    | error => exact h

end Runs

/-! ## Sums at a bit path -/

section Sums

variable {app : Bytes32} {tree : NibbleTree Bytes32 Bytes}

/-- The leaves of a tree under a bit path. -/
def leavesUnder (tree : NibbleTree Bytes32 Bytes) (path : List Bool) : List (Bytes32 × Bytes) :=
  tree.entries.filter fun e => addrHasBitPrefix e.1 path

/-- The sizes of these leaves. -/
def sizeUnder (tree : NibbleTree Bytes32 Bytes) (path : List Bool) : Nat :=
  ((leavesUnder tree path).map fun e => vertexLeafSize e.2).sum

theorem appSubtreeLeafCount_eq (h : Placed keyBit 0 tree) (path : List Bool) :
    appSubtreeLeafCount tree path = (leavesUnder tree path).length :=
  subtreeSum_root sums_leafCount h path

theorem appSubtreeSize_eq (h : Placed keyBit 0 tree) (path : List Bool) :
    appSubtreeSize tree path = min (sizeUnder tree path) (2 ^ 128 - 1) := by
  have hsize : ∀ value, vertexLeafSize value ≤ 2 ^ 128 - 1 := fun value =>
    (vertexLeafSize_lt value).le.trans (by decide)
  exact subtreeSum_root (sums_sizeSum hsize) h path

/-- Fewer than `2^62` leaves have less than `2^126` bytes. -/
theorem sizeUnder_lt (hfew : tree.entries.length < 2 ^ 62) (path : List Bool) :
    sizeUnder tree path < 2 ^ 126 := by
  have hunder : sizeUnder tree path ≤ (leavesUnder tree path).length * 2 ^ 64 := by
    have hsum := sum_le_card_nsmul ((leavesUnder tree path).map fun e => vertexLeafSize e.2)
      (2 ^ 64) (forall_mem_map.mpr fun e _ => (vertexLeafSize_lt e.2).le)
    rwa [length_map, smul_eq_mul] at hsum
  have hlength : (leavesUnder tree path).length ≤ tree.entries.length := length_filter_le _ _
  omega

/-- The sum of a weight over the leaves under a path, as a sum over locations. -/
theorem sum_leavesUnder (h : Placed keyBit 0 tree) (app : Bytes32) (path : List Bool)
    (f : Bytes → Int) :
    ((leavesUnder tree path).map fun e => f e.2).sum =
      ∑ loc : Location, if loc.application = app ∧ addrHasBitPrefix loc.data path then
        ((tree.lookup loc.data).map f).getD 0 else 0 := by
  have hinjective : Function.Injective fun data : Bytes32 => (⟨app, data⟩ : Location) :=
    fun a b hab => (Location.mk.injEq .. ▸ hab).2
  have hnodup : (((leavesUnder tree path).map Prod.fst).map
      fun data => (⟨app, data⟩ : Location)).Nodup := by
    refine Nodup.map hinjective ?_
    exact (nodup_entries h).sublist ((filter_sublist).map _)
  rw [← sum_listing hnodup, map_map, map_map]
  · congr 1
    apply map_congr_left
    intro e he
    obtain ⟨hmem, hunder⟩ := mem_filter.mp he
    have hlookup : tree.lookup e.1 = some e.2 := (lookup_iff h).mpr hmem
    simp [hunder, hlookup]
  · intro loc hnot
    split
    · rename_i hin
      cases hlookup : tree.lookup loc.data with
      | none => rfl
      | some value =>
        refine absurd ?_ hnot
        rw [mem_map]
        refine ⟨loc.data, mem_map.mpr ⟨(loc.data, value), ?_, rfl⟩, ?_⟩
        · exact mem_filter.mpr ⟨(lookup_iff h).mp hlookup, hin.2⟩
        · rw [← hin.1]
    · rfl

end Sums

/-! ## The grid -/

variable {i : Nat} {row : List UInt32}

section Grid

variable {layout : ShardLayout} {app : Bytes32}

/-- The paths `forest_app_buckets` reads. -/
def shardPaths (layout : ShardLayout) (app : Bytes32) : List (List Bool) :=
  if layout.isSingle app then [[]] else layout.shardBitPaths app

/-- The shard set is complete and prefix-free: one path for each row, no row twice, every address
under exactly one path. -/
structure Partitions (layout : ShardLayout) (app : Bytes32) : Prop where
  aligned : (shardPaths layout app).length = (layout.appPrefixes app).length
  nodup : (layout.appPrefixes app).Nodup
  covers : ∀ data, ∃ i, ∃ h : i < (shardPaths layout app).length,
    addrHasBitPrefix data (shardPaths layout app)[i] = true ∧
      ∀ j, ∀ h' : j < (shardPaths layout app).length,
        addrHasBitPrefix data (shardPaths layout app)[j] = true → j = i

theorem partitions_of_single (h : layout.isSingle app = true) : Partitions layout app := by
  have hrows : layout.appPrefixes app = [[]] := beq_iff_eq.mp h
  have hpaths : shardPaths layout app = [[]] := by
    rw [shardPaths, if_pos h]
  constructor
  · rw [hrows, hpaths]
    rfl
  · rw [hrows]
    exact nodup_singleton _
  · intro data
    rw [hpaths]
    refine ⟨0, by simp, rfl, fun j hj _ => ?_⟩
    simpa using hj

/-- An address is accounted to the row whose path it is under. -/
theorem Partitions.route (h : Partitions layout app) {data : Bytes32}
    (hi : i < (shardPaths layout app).length)
    (hunder : addrHasBitPrefix data (shardPaths layout app)[i] = true) :
    (layout.appPrefixes app)[i]? = some (layout.route app data) := by
  have hrow : i < (layout.appPrefixes app).length := h.aligned ▸ hi
  unfold ShardLayout.route
  split
  · rename_i hsingle
    have hrows : layout.appPrefixes app = [[]] := beq_iff_eq.mp hsingle
    rw [hrows] at hrow ⊢
    have hzero : i = 0 := by simpa using hrow
    rw [hzero]
    rfl
  · rename_i hsingle
    have hpaths : shardPaths layout app = layout.shardBitPaths app := by
      rw [shardPaths, if_neg hsingle]
    obtain ⟨_, _, _, hunique⟩ := h.covers data
    obtain rfl := hunique i hi hunder
    have hindex : addressShardIndex data (layout.shardBitPaths app) = i := by
      rw [addressShardIndex, ← hpaths]
      have hfind : (shardPaths layout app).findIdx? (addrHasBitPrefix data) = some i := by
        rw [findIdx?_eq_some_iff_getElem]
        refine ⟨hi, hunder, fun j hj hjunder => ?_⟩
        have hsame := hunique j (hj.trans hi) hjunder
        omega
      rw [hfind, Option.getD_some]
    rw [hindex, getElem?_eq_getElem hrow, Option.getD_some]

/-- A bucket holds the locations under its row's path. -/
theorem Partitions.inBucket_iff (h : Partitions layout app) (happ : app ≠ globalDomain)
    (hi : i < (shardPaths layout app).length)
    (hrow : (layout.appPrefixes app)[i]? = some row) (loc : Location) :
    InBucket layout (addrPathShardId app row) loc ↔ loc.application = app ∧
      addrHasBitPrefix loc.data (shardPaths layout app)[i] = true := by
  constructor
  · intro ⟨_, hid⟩
    obtain ⟨hloc, hroute⟩ := addrPathShardId_injective hid
    refine ⟨hloc, ?_⟩
    obtain ⟨k, hk, hunder, -⟩ := h.covers loc.data
    have hkrow := h.route hk hunder
    rw [← hloc, hroute] at hkrow
    rw [hloc] at hkrow
    have hki : k = i := by
      have hlt : k < (layout.appPrefixes app).length := h.aligned ▸ hk
      exact (getElem?_inj hlt h.nodup).mp (hkrow.trans hrow.symm)
    subst hki
    exact hunder
  · intro ⟨hloc, hunder⟩
    refine ⟨hloc ▸ happ, ?_⟩
    have hown := h.route hi hunder
    rw [hrow] at hown
    rw [ShardLayout.subShardIdFor, hloc, Option.some.inj hown]

end Grid

/-! ## The forest's buckets -/

section Buckets

variable {layout : ShardLayout} {app : Bytes32} {s : ForestCrdt}

/-- What `shard_bucket` returns where nothing overflows. -/
def plainBucket (trees : Phase → NibbleTree Bytes32 Bytes) (path : List Bool) : Nat × Int :=
  ((leavesUnder (trees ⟨.vertex, .adds⟩) path).length,
    max ((sizeUnder (trees ⟨.vertex, .adds⟩) path : Int) -
      sizeUnder (trees ⟨.vertex, .removes⟩) path + sizeUnder (trees ⟨.hyperedge, .adds⟩) path -
      sizeUnder (trees ⟨.hyperedge, .removes⟩) path) 0)

theorem checkedSize_of_bounds {n : Int} (h : -(2 ^ 127) ≤ n) (h' : n < 2 ^ 127) :
    checkedSize n = .ok n :=
  bind_ok.mpr ⟨(), ensure_ok.mpr ⟨h, h'⟩, rfl⟩

variable {trees : Phase → NibbleTree Bytes32 Bytes}

/-- With fewer than `2^62` leaves in each tree nothing overflows. -/
theorem shardBucket_eq (hplaced : ∀ phase, Placed keyBit 0 (trees phase))
    (hfew : ∀ phase, (trees phase).entries.length < 2 ^ 62) (path : List Bool) :
    shardBucket trees path = .ok (plainBucket trees path) := by
  have hsmall : ∀ phase, sizeUnder (trees phase) path < 2 ^ 126 := fun phase =>
    sizeUnder_lt (hfew phase) path
  have hsize : ∀ phase, appSubtreeSize (trees phase) path = sizeUnder (trees phase) path := by
    intro phase
    have := hsmall phase
    rw [appSubtreeSize_eq (hplaced phase)]
    omega
  have hva := hsmall ⟨.vertex, .adds⟩
  have hvr := hsmall ⟨.vertex, .removes⟩
  have hha := hsmall ⟨.hyperedge, .adds⟩
  have hhr := hsmall ⟨.hyperedge, .removes⟩
  unfold shardBucket plainBucket
  simp only [hsize, appSubtreeLeafCount_eq (hplaced _)]
  iterate 6 refine bind_ok.mpr ⟨_, checkedSize_of_bounds (by omega) (by omega), ?_⟩
  exact bind_ok.mpr ⟨_, checkedSize_of_bounds (by omega) (by omega), rfl⟩

/-- What one location contributes to the sums of the four trees. -/
theorem SizesMatch.weight {c : Crdt} {leaf : Store BlobKey fun _ => Bytes}
    (h : SizesMatch c.peek leaf) (loc : Location) :
    c.cells.weight loc = (((leaf (addsKey .vertex loc)).map fun _ => (1 : Int)).getD 0,
        ((leaf (addsKey .vertex loc)).map fun v => (vertexLeafSize v : Int)).getD 0 -
          ((leaf (removesKey .vertex loc)).map fun v => (vertexLeafSize v : Int)).getD 0 +
        ((leaf (addsKey .hyperedge loc)).map fun v => (vertexLeafSize v : Int)).getD 0 -
          ((leaf (removesKey .hyperedge loc)).map fun v => (vertexLeafSize v : Int)).getD 0) := by
  have hlive : ∀ kind, ((c.cells kind loc).live : Int) =
      ((leaf (addsKey kind loc)).map fun v => (vertexLeafSize v : Int)).getD 0 -
        ((leaf (removesKey kind loc)).map fun v => (vertexLeafSize v : Int)).getD 0 := by
    intro kind
    have hadds := h.adds kind loc
    have hremoves := h.removes kind loc
    have hcell : c.cells kind loc = ⟨c.peek (addsKey kind loc), c.peek (removesKey kind loc)⟩ := rfl
    rw [hcell]
    unfold Cell.live
    cases htombstone : leaf (removesKey kind loc) with
    | none =>
      cases hb : c.peek (addsKey kind loc) <;>
        cases hl : leaf (addsKey kind loc) <;> simp_all
    | some tombstone =>
      rw [htombstone] at hremoves
      obtain ⟨_, hb, hsize⟩ := h.sized kind loc tombstone htombstone
      rw [hb] at hadds
      obtain ⟨_, hvalue, hlength⟩ := Option.map_eq_some_iff.mp hadds.symm
      simp [hremoves, hvalue, hsize, hlength]
  have hcount : (if (c.cells .vertex loc).adds.isSome then (1 : Int) else 0) =
      ((leaf (addsKey .vertex loc)).map fun _ => (1 : Int)).getD 0 := by
    have hadds := h.adds .vertex loc
    have hcell : (c.cells .vertex loc).adds = c.peek (addsKey .vertex loc) := rfl
    cases hb : c.peek (addsKey .vertex loc) <;>
      cases hl : leaf (addsKey .vertex loc) <;> simp_all
  unfold Cells.weight
  rw [hcount, hlive .vertex, hlive .hyperedge, add_sub_assoc]

/-- The size of the leaf a phase tree has for a location under a path. -/
noncomputable def leafWeight (trees : Phase → NibbleTree Bytes32 Bytes) (app : Bytes32)
    (path : List Bool) (phase : Phase) (loc : Location) : Int :=
  if loc.application = app ∧ addrHasBitPrefix loc.data path then
    (((trees phase).lookup loc.data).map fun v => (vertexLeafSize v : Int)).getD 0 else 0

theorem sizeUnder_eq {phase : Phase} (h : Placed keyBit 0 (trees phase)) (app : Bytes32)
    (path : List Bool) :
    (sizeUnder (trees phase) path : Int) = ∑ loc, leafWeight trees app path phase loc := by
  have hcast : (sizeUnder (trees phase) path : Int) =
      ((leavesUnder (trees phase) path).map fun e => (vertexLeafSize e.2 : Int)).sum := by
    rw [sizeUnder, Nat.cast_list_sum, map_map]
    rfl
  rw [hcast]
  exact sum_leavesUnder h app path fun v => (vertexLeafSize v : Int)

theorem length_leavesUnder_eq {tree : NibbleTree Bytes32 Bytes}
    (h : Placed keyBit 0 tree) (app : Bytes32) (path : List Bool) :
    ((leavesUnder tree path).length : Int) =
      ∑ loc : Location, if loc.application = app ∧ addrHasBitPrefix loc.data path then
        ((tree.lookup loc.data).map fun _ => (1 : Int)).getD 0 else 0 := by
  rw [← sum_leavesUnder h app path fun _ => (1 : Int), map_const', sum_replicate, nsmul_one]

/-- **One shard.**  Where nothing is pending, the forest's bucket at a row's path is
the true one. -/
theorem signed_plainBucket (h : s.Kept) (hpending : s.crdt.pendingLeaves = empty)
    (happ : app ≠ globalDomain) (hgrid : Partitions layout app)
    (hi : i < (shardPaths layout app).length) (hrow : (layout.appPrefixes app)[i]? = some row) :
    signed (plainBucket (s.trees app) (shardPaths layout app)[i]) =
      total layout s.crdt.cells (addrPathShardId app row) := by
  have hleaf : ∀ (phase : Phase) (loc : Location), loc.application = app →
      s.leaf ⟨phase, loc⟩ = (s.trees app phase).lookup loc.data := by
    intro phase loc hloc
    simp [ForestCrdt.leaf, treeLeaf, hpending, hloc]
  have hcount : (total layout s.crdt.cells (addrPathShardId app row)).1 =
      ((leavesUnder (s.trees app ⟨.vertex, .adds⟩) (shardPaths layout app)[i]).length : Int) := by
    rw [length_leavesUnder_eq (h.placed app _) app, total, Prod.fst_sum]
    apply Finset.sum_congr rfl
    intro loc _
    simp only [hgrid.inBucket_iff happ hi hrow]
    split
    · rename_i hin
      rw [h.sizes.weight, addsKey, hleaf _ _ hin.1]
    · rfl
  have hsize : (total layout s.crdt.cells (addrPathShardId app row)).2 =
      (sizeUnder (s.trees app ⟨.vertex, .adds⟩) (shardPaths layout app)[i] : Int) -
        sizeUnder (s.trees app ⟨.vertex, .removes⟩) (shardPaths layout app)[i] +
        sizeUnder (s.trees app ⟨.hyperedge, .adds⟩) (shardPaths layout app)[i] -
        sizeUnder (s.trees app ⟨.hyperedge, .removes⟩) (shardPaths layout app)[i] := by
    rw [sizeUnder_eq (h.placed app _) app, sizeUnder_eq (h.placed app _) app,
      sizeUnder_eq (h.placed app _) app, sizeUnder_eq (h.placed app _) app,
      ← Finset.sum_sub_distrib, ← Finset.sum_add_distrib, ← Finset.sum_sub_distrib, total,
      Prod.snd_sum]
    apply Finset.sum_congr rfl
    intro loc _
    simp only [hgrid.inBucket_iff happ hi hrow, leafWeight]
    split
    · rename_i hin
      rw [h.sizes.weight]
      simp only [addsKey, removesKey, hleaf _ _ hin.1]
    · simp
  have hnonneg : 0 ≤ (total layout s.crdt.cells (addrPathShardId app row)).2 := by
    rw [total, Prod.snd_sum]
    refine Finset.sum_nonneg fun loc _ => ?_
    split
    · simp only [Cells.weight]
      omega
    · exact le_rfl
  unfold signed plainBucket
  rw [← hsize, max_eq_left hnonneg, ← hcount]

/-- The buckets the forest adds: one for each shard that has something. -/
def forestAdditions (layout : ShardLayout) (app : Bytes32)
    (trees : Phase → NibbleTree Bytes32 Bytes) : List (Bytes × Nat × Int) :=
  (((layout.appPrefixes app).zip (shardPaths layout app)).filter
    fun shard => plainBucket trees shard.2 ≠ 0).map
      fun shard => (addrPathShardId app shard.1, plainBucket trees shard.2)

theorem forestAppBuckets_eq {entries : Phase → List (Location × Bytes)} (happ : app ≠ globalDomain)
    (hgrid : Partitions layout app) (hplaced : ∀ phase, Placed keyBit 0 (trees phase))
    (hfew : ∀ phase, (trees phase).entries.length < 2 ^ 62) (buckets : Buckets) :
    forestAppBuckets layout true app trees entries buckets =
      .ok (addAll buckets (forestAdditions layout app trees)) := by
  have hfold : ∀ (shards : List (List UInt32 × List Bool)) (buckets : Buckets),
      shards.foldlM (fun buckets shard => (do
        let bucket ← shardBucket trees shard.2
        if bucket = 0 then pure buckets
        else pure (add buckets (addrPathShardId app shard.1) bucket) : Result Buckets)) buckets =
        .ok (addAll buckets ((shards.filter fun shard => plainBucket trees shard.2 ≠ 0).map
          fun shard => (addrPathShardId app shard.1, plainBucket trees shard.2))) := by
    intro shards
    induction shards with
    | nil => exact fun _ => rfl
    | cons shard shards ih =>
      intro buckets
      have hbucket := shardBucket_eq hplaced hfew shard.2
      rw [foldlM_cons]
      by_cases hzero : plainBucket trees shard.2 = 0
      · rw [filter_cons_of_neg (by simp [hzero])]
        exact bind_ok.mpr ⟨buckets, bind_ok.mpr ⟨_, hbucket, if_pos hzero⟩, ih buckets⟩
      · rw [filter_cons_of_pos (by simp [hzero])]
        exact bind_ok.mpr ⟨_, bind_ok.mpr ⟨_, hbucket, if_neg hzero⟩, ih _⟩
  unfold forestAppBuckets
  rw [if_neg happ, if_neg (by simp)]
  exact bind_ok.mpr ⟨(), ensure_ok.mpr (.inr hgrid.aligned), hfold _ buckets⟩

/-- An addition of the scan is not nothing, and no other takes it back. -/
theorem scan_isSome {entries : Phase → List (Location × Bytes)} (happ : app ≠ globalDomain)
    {b : Bytes} (h : (scanAppBuckets layout app entries empty b).isSome = true) :
    amount (scanAppBuckets layout app entries empty) b ≠ 0 := by
  have hpos : ∀ x ∈ scanAdditions layout app entries, 0 ≤ x.2.2 ∧ (0 < x.2.1 ∨ 0 < x.2.2) := by
    intro x hx
    rcases mem_append.mp hx with hx | hx
    · obtain ⟨_, -, rfl⟩ := mem_map.mp hx
      refine ⟨?_, .inl one_pos⟩
      simp only
      split <;> omega
    · obtain ⟨_, he, rfl⟩ := mem_map.mp hx
      obtain ⟨-, hnonempty⟩ := mem_filter.mp he
      have hlength := length_pos_iff.mpr (of_decide_eq_true hnonempty).1
      exact ⟨by simp only; omega, .inr (by simp only; omega)⟩
  have hsum : ∀ xs : List (Bytes × Nat × Int), (∀ x ∈ xs, 0 ≤ x.2.2 ∧ (0 < x.2.1 ∨ 0 < x.2.2)) →
      0 ≤ (contribution xs b).2 ∧ ((∃ x ∈ xs, x.1 = b) →
        0 < (contribution xs b).1 ∨ 0 < (contribution xs b).2) := by
    intro xs
    induction xs with
    | nil => exact fun _ => ⟨le_rfl, fun ⟨_, hx, _⟩ => by cases hx⟩
    | cons x xs ih =>
      intro hxs
      obtain ⟨hnonneg, hsome⟩ := ih fun y hy => hxs y (mem_cons_of_mem _ hy)
      obtain ⟨_, _⟩ := hxs x mem_cons_self
      rw [contribution_cons]
      by_cases hb : x.1 = b
      · rw [if_pos hb, Prod.fst_add, Prod.snd_add]
        exact ⟨by omega, fun _ => by omega⟩
      rw [if_neg hb, zero_add]
      refine ⟨hnonneg, fun ⟨y, hy, hyb⟩ => hsome ⟨y, ?_, hyb⟩⟩
      rcases mem_cons.mp hy with rfl | hy
      · exact absurd hyb hb
      · exact hy
  rw [scanAppBuckets_eq happ] at h ⊢
  rw [amount_addAll, amount_empty, zero_add]
  rcases (addAll_isSome _ _ _).mp h with hnone | hsome
  · cases hnone
  have hpositive := (hsum _ hpos).2 hsome
  intro hzero
  rw [hzero] at hpositive
  simp at hpositive

/-- Shards without leaves change no amount. -/
theorem contribution_forestAdditions (trees : Phase → NibbleTree Bytes32 Bytes) (b : Bytes) :
    contribution (forestAdditions layout app trees) b =
      contribution (((layout.appPrefixes app).zip (shardPaths layout app)).map
        fun shard => (addrPathShardId app shard.1, plainBucket trees shard.2)) b := by
  unfold forestAdditions
  induction (layout.appPrefixes app).zip (shardPaths layout app) with
  | nil => rfl
  | cons shard shards ih =>
    rw [map_cons, contribution_cons, ← ih]
    by_cases hzero : plainBucket trees shard.2 = 0
    · simp [hzero]
    · rw [filter_cons_of_pos (by simp [hzero]), map_cons, contribution_cons]

/-- The forest's amount at a row is the bucket at its path. -/
theorem amount_forest (trees : Phase → NibbleTree Bytes32 Bytes) (hgrid : Partitions layout app)
    (hi : i < (shardPaths layout app).length) (hrow : (layout.appPrefixes app)[i]? = some row) :
    contribution (forestAdditions layout app trees) (addrPathShardId app row) =
      plainBucket trees (shardPaths layout app)[i] := by
  have hmem : (row, (shardPaths layout app)[i]) ∈
      (layout.appPrefixes app).zip (shardPaths layout app) := by
    refine mem_of_getElem? (i := i) ?_
    exact getElem?_zip_eq_some.mpr ⟨hrow, getElem?_eq_getElem hi⟩
  rw [contribution_forestAdditions]
  refine contribution_of_mem (e := (addrPathShardId app row, plainBucket trees _)) ?_
    (mem_map.mpr ⟨_, hmem, rfl⟩)
  have hids : (((layout.appPrefixes app).zip (shardPaths layout app)).map
      fun shard => (addrPathShardId app shard.1, plainBucket trees shard.2)).map Prod.fst =
        (layout.appPrefixes app).map (addrPathShardId app) := by
    rw [map_map]
    refine Eq.trans ?_ (congrArg (map _) (map_fst_zip hgrid.aligned.ge))
    rw [map_map]
    rfl
  rw [hids]
  exact hgrid.nodup.map fun a b hab => (addrPathShardId_injective hab).2

/-- **One application.**  Where nothing is pending, the forest and a scan give the
same buckets. -/
theorem forest_eq_scan (h : s.Kept) (hpending : s.crdt.pendingLeaves = empty)
    (hblobs : s.crdt.pendingBlobs = empty) (happ : app ≠ globalDomain)
    (hgrid : Partitions layout app)
    (hfew : ∀ phase, (s.trees app phase).entries.length < 2 ^ 62)
    (listing : Listing s.crdt.stored app) :
    forestAppBuckets layout true app (s.trees app) listing.entries empty =
      .ok (scanAppBuckets layout app listing.entries empty) := by
  rw [forestAppBuckets_eq happ hgrid (h.placed app) hfew]
  congr 1
  funext b
  refine eq_of_amount ?_ ?_ (scan_isSome happ)
  · rw [amount_addAll, amount_empty, zero_add]
    by_cases hrow : ∃ row ∈ layout.appPrefixes app, addrPathShardId app row = b
    · obtain ⟨_, hrow, rfl⟩ := hrow
      obtain ⟨i, hi⟩ := mem_iff_getElem?.mp hrow
      have hlt : i < (shardPaths layout app).length := by
        rw [hgrid.aligned]
        exact (List.getElem?_eq_some_iff.mp hi).1
      rw [amount_forest _ hgrid hlt hi]
      apply signed_injective
      rw [signed_plainBucket h hpending happ hgrid hlt hi, scan_total happ listing hblobs]
    · -- neither names a bucket that is no row's
      have hscan : ∀ e ∈ scanAdditions layout app listing.entries, e.1 ≠ b := by
        intro e he hb
        refine hrow ?_
        rcases mem_append.mp he with he | he
        all_goals
          obtain ⟨x, -, rfl⟩ := mem_map.mp he
          obtain ⟨_, hi, hunder, -⟩ := hgrid.covers x.1.data
          exact ⟨_, mem_of_getElem? (hgrid.route hi hunder), hb⟩
      have hforest : ∀ e ∈ forestAdditions layout app (s.trees app), e.1 ≠ b := by
        intro e he hb
        obtain ⟨shard, hshard, rfl⟩ := mem_map.mp he
        exact hrow ⟨shard.1, (of_mem_zip (mem_filter.mp hshard).1).1, hb⟩
      rw [scanAppBuckets_eq happ, amount_addAll, amount_empty, zero_add,
        contribution_of_forall_ne hscan, contribution_of_forall_ne hforest]
  · intro hsome
    rw [amount_addAll, amount_empty, zero_add]
    rcases (addAll_isSome _ _ _).mp hsome with hnone | ⟨e, he, rfl⟩
    · cases hnone
    obtain ⟨_, hshard, rfl⟩ := mem_map.mp he
    obtain ⟨hmem, hnonzero⟩ := mem_filter.mp hshard
    obtain ⟨_, hi⟩ := mem_iff_getElem?.mp hmem
    obtain ⟨hrow, hpath⟩ := getElem?_zip_eq_some.mp hi
    obtain ⟨hlt, hget⟩ := List.getElem?_eq_some_iff.mp hpath
    rw [amount_forest _ hgrid hlt hrow, hget]
    exact of_decide_eq_true hnonzero

end Buckets

/-- **The forest's buckets are a scan's** after every commit of a run whose batches keep sizes,
where the shard set is complete. -/
theorem forest_buckets_eq_scan {layout : ShardLayout} {config : CrdtConfig} {app : Bytes32}
    (hcommitment : ∀ blob v, config.vertexCommitment blob = .ok v → v.length = 32)
    (calls : List ForestCall) (deltas : List (BlobKey × Bytes))
    (hkept : ∀ e ∈ events (forestStep config) ForestCrdt.empty (calls ++ [.commit deltas]),
      SizeKept e)
    (hgrid : Partitions layout app)
    (hfew : ∀ phase, ((final (forestStep config) ForestCrdt.empty
      (calls ++ [.commit deltas])).trees app phase).entries.length < 2 ^ 62)
    (unified : Bool)
    (listing : Listing (final (forestStep config) ForestCrdt.empty
      (calls ++ [.commit deltas])).crdt.stored app) :
    forestAppBuckets layout unified app ((final (forestStep config) ForestCrdt.empty
        (calls ++ [.commit deltas])).trees app) listing.entries empty =
      .ok (scanAppBuckets layout app listing.entries empty) := by
  -- a commit leaves nothing pending
  have hcommit := final_append (forestStep config) ForestCrdt.empty calls [.commit deltas]
  have h := kept_run hcommitment _ hkept
  by_cases happ : app = globalDomain
  · unfold forestAppBuckets scanAppBuckets
    rw [if_pos happ, if_pos happ]
  · cases unified with
    | false =>
      unfold forestAppBuckets
      rw [if_neg happ, if_pos rfl]
    | true =>
      exact forest_eq_scan h (by rw [hcommit]; rfl) (by rw [hcommit]; rfl) happ hgrid hfew listing

/-- Add a vertex of three bytes, remove it and add it with other data. -/
def readdCalls (data : Bytes) : List ForestCall :=
  [.apply (fun _ => none) [.add .vertex plainLocation [1, 2, 3], .remove .vertex plainLocation,
    .add .vertex plainLocation data]]

/-- The leaf of a blob with a size; every commitment is zero here. -/
def plainLeaf (size : Nat) : Bytes := List.replicate 32 0 ++ beBytes 8 size

/-- The leaves that are then pending. -/
def readdDeltas (size : Nat) : List (BlobKey × Bytes) :=
  [(removesKey .vertex plainLocation, plainLeaf 3), (addsKey .vertex plainLocation, plainLeaf size)]

/-- The state of the node before the commit. -/
def readded (data : Bytes) : ForestCrdt :=
  Run.final (forestStep (layoutConfig singleLayout)) ForestCrdt.empty (readdCalls data)

theorem readdDeltas_visit (size : Nat) :
    VisitsAll (((empty.write (addsKey .vertex plainLocation) (plainLeaf 3)).write
      (removesKey .vertex plainLocation) (plainLeaf 3)).write
        (addsKey .vertex plainLocation) (plainLeaf size)) (readdDeltas size) := by
  refine ⟨by simp [readdDeltas, addsKey, removesKey], fun key leaf => ?_⟩
  by_cases hadds : key = addsKey .vertex plainLocation
  · subst hadds
    simp [readdDeltas, addsKey, removesKey, eq_comm]
  rw [write_of_ne _ _ hadds, write_apply, write_of_ne _ _ hadds]
  by_cases hremoves : key = removesKey .vertex plainLocation
  · simp [readdDeltas, hremoves, addsKey, removesKey, eq_comm]
  · simp [readdDeltas, hadds, hremoves, empty]

theorem readded_same_size_visits :
    VisitsAll (readded [4, 5, 6]).crdt.pendingLeaves (readdDeltas 3) := by
  convert readdDeltas_visit 3 using 1
  funext key
  exact Option.or_none

theorem readded_other_size_visits :
    VisitsAll (readded [4, 5, 6, 7, 8]).crdt.pendingLeaves (readdDeltas 5) := by
  convert readdDeltas_visit 5 using 1
  funext key
  exact Option.or_none

theorem readded_same_size_buckets :
    ∃ listing : Listing ((readded [4, 5, 6]).commit (readdDeltas 3)).crdt.stored 7,
      forestAppBuckets singleLayout true 7 (((readded [4, 5, 6]).commit (readdDeltas 3)).trees 7)
        listing.entries empty = .ok (scanAppBuckets singleLayout 7 listing.entries empty) := by
  obtain ⟨listing⟩ := exists_listing ((readded [4, 5, 6]).commit (readdDeltas 3)).crdt.stored 7
  refine ⟨listing, forest_buckets_eq_scan ?_
    (readdCalls [4, 5, 6]) (readdDeltas 3) ?_ (partitions_of_single rfl) ?_ true listing⟩
  · intro blob v hv
    cases hv
    rfl
  · intro e he
    rcases mem_cons.mp he with rfl | he
    · intro _
      exact ⟨⟨by decide, fun _ h => by cases h⟩, trivial, ⟨by decide, fun _ _ => rfl⟩, trivial⟩
    · obtain rfl := mem_singleton.mp he
      exact readded_same_size_visits
  · rintro ⟨kind, set⟩
    cases kind <;> cases set <;> decide +kernel

/-- **A re-added vertex counts the difference**: five bytes added over a tombstone of three count as
two; every scan says none. -/
theorem readded_vertex_counts_difference :
    VisitsAll (readded [4, 5, 6, 7, 8]).crdt.pendingLeaves (readdDeltas 5) ∧
      ∀ listing : Listing ((readded [4, 5, 6, 7, 8]).commit (readdDeltas 5)).crdt.stored 7,
        (forestAppBuckets singleLayout true 7
            (((readded [4, 5, 6, 7, 8]).commit (readdDeltas 5)).trees 7)
            listing.entries empty).map (amount · (singleLayout.subShardIdFor 7 9)) =
          .ok (1, 2) ∧
        amount (scanAppBuckets singleLayout 7 listing.entries empty)
          (singleLayout.subShardIdFor 7 9) = (1, 0) := by
  refine ⟨readded_other_size_visits, fun listing => ⟨?_, ?_⟩⟩
  · change (forestAppBuckets singleLayout true 7
      (((readded [4, 5, 6, 7, 8]).commit (readdDeltas 5)).trees 7) (fun _ => []) empty).map _ = _
    decide +kernel
  · apply signed_injective
    refine (scan_total (by decide) listing rfl (singleLayout.route 7 9)).trans ?_
    refine (@total_run_of_empty singleLayout (layoutConfig singleLayout) 7 rfl
      [.apply (fun _ => none) [.add .vertex plainLocation [1, 2, 3], .remove .vertex plainLocation,
        .add .vertex plainLocation [4, 5, 6, 7, 8]]] (by decide) 9).trans ?_
    decide +kernel

end Hypergraph

import QuilNode.Basic
import QuilNode.Lib.OrdMap
import QuilNode.Lib.WordOrder

/-!
# Which superseded versions a store may drop

Every commit of a tree adds an index entry: its root, its version and its frame.  A prune picks a
watermark for each tree and drops the entries, tree nodes and vertex blobs below it.

The watermark is the version that was current at the tree's cull frame, but never above a version
committed after it; a tree whose versions do not form one history gets none.  Blobs are shared by
the trees of an application, so their watermark is the least of those trees', and missing where one
of them is.
-/

namespace Retention

open Prod

/-! ## The index -/

/-- `TreeKey`: set byte, phase byte and shard id of one indexed tree. -/
structure TreeKey where
  set : UInt8
  phase : UInt8
  shardId : Bytes
  deriving DecidableEq

/-- `IndexEntry`. -/
structure IndexEntry where
  key : Bytes
  version : UInt64
  frame : UInt64
  deriving DecidableEq

/-- Trees and their entries.  A tree is listed once, and an index key, being a key of the store,
belongs to one entry. -/
structure Index where
  trees : List (TreeKey × List IndexEntry)
  distinctTrees : (trees.map Prod.fst).Nodup
  distinctKeys : ((trees.flatMap Prod.snd).map IndexEntry.key).Nodup

/-- `HG_ROOT_VERSION`, the first byte of an index key. -/
def hgRootVersion : UInt8 := 0x35

/-- The tree and entry of an index row: set byte, phase byte, shard id and 32-byte root behind the
first byte; the value is a version and a frame. -/
def parseRow (row : Bytes × Bytes) : Option (TreeKey × IndexEntry) :=
  match row.1 with
  | _ :: set :: phase :: rest =>
    if row.1.length < 35 ∨ row.2.length ≠ 16 then none
    else some (⟨set, phase, rest.take (rest.length - 32)⟩,
      ⟨row.1, UInt64.ofNat (natOfBytes (row.2.take 8)), UInt64.ofNat (natOfBytes (row.2.drop 8))⟩)
  | _ => none

/-- An entry pushed onto its tree. -/
def pushEntry (entry : TreeKey × IndexEntry) :
    List (TreeKey × List IndexEntry) → List (TreeKey × List IndexEntry)
  | [] => [(entry.1, [entry.2])]
  | tree :: trees =>
    if tree.1 = entry.1 then (tree.1, tree.2 ++ [entry.2]) :: trees
    else tree :: pushEntry entry trees

/-- `indexed_trees`: the index rows of a store, grouped by tree. -/
def indexedTrees (rows : OrdMap Bytes Bytes) : List (TreeKey × List IndexEntry) :=
  let index := (rows.entries.dropWhile (·.1 < [hgRootVersion])).takeWhile
    (·.1.head? = some hgRootVersion)
  (index.filterMap parseRow).foldl (fun trees entry => pushEntry entry trees) []

/-- `(set byte, phase byte, application)` of a blob keyspace. -/
abbrev Keyspace := UInt8 ×ₗ UInt8 ×ₗ Bytes32

/-- `PrunePlan`. -/
structure PrunePlan where
  deleteRoots : List Bytes
  trees : List (Bytes × Nat × UInt64)
  blobs : List (Keyspace × UInt64)
  restarted : Nat
  deriving DecidableEq

/-- `u64::MAX`. -/
def u64Max : UInt64 := 0xffffffffffffffff

/-! ## The plan -/

/-- The entries by version, then frame. -/
def sortEntries (entries : List IndexEntry) : List IndexEntry :=
  entries.insertionSort fun a b => toLex (a.version, a.frame) ≤ toLex (b.version, b.frame)

/-- The neighbours of a list, as `windows(2)` gives them. -/
def windows {α : Type} (l : List α) : List (α × α) := l.zip l.tail

/-- `one_history`: the entries sorted, and whether they are one history. -/
def oneHistory (entries : List IndexEntry) (head : Option UInt64) : List IndexEntry × Bool :=
  let entries := sortEntries entries
  (entries, match head with
    | none => (windows entries).all fun pair =>
      decide (pair.1.version < pair.2.version) && decide (pair.1.frame ≤ pair.2.frame)
    | some head => ((windows entries).all fun pair => decide (pair.1.version < pair.2.version)) &&
        entries.getLast?.all fun e => decide (e.version ≤ head))

/-- The version current at the cull frame, but never above one committed after it. -/
def watermarkAt (entries : List IndexEntry) (cull : UInt64) : Option UInt64 := do
  let current ← ((entries.filter (·.frame ≤ cull)).map IndexEntry.version).max?
  let later := ((entries.filter (cull < ·.frame)).map IndexEntry.version).min?
  some (later.elim current (min current))

/-- The watermark of a tree, from its sorted entries. -/
def watermarkOf (history : List IndexEntry × Bool) (cull : UInt64 → Option UInt64) :
    Option UInt64 :=
  let newest := if history.2 then (history.1.map IndexEntry.frame).max? else none
  ((newest.bind cull).bind (watermarkAt history.1)).filter (0 < ·)

/-- The application of a shard id: its first 32 bytes. -/
def applicationOf (shardId : Bytes) : Option Bytes32 :=
  if 32 ≤ shardId.length then some (BitVec.ofNat 256 (natOfBytes (shardId.take 32))) else none

/-- The blob keyspace of a tree. -/
def TreeKey.keyspace (key : TreeKey) : Option Keyspace :=
  (applicationOf key.shardId).map fun app => toLex (key.set, toLex (key.phase, app))

/-- The position of a tree among the four of its shard. -/
def TreeKey.phaseIdx (key : TreeKey) : Nat := key.set.toNat * 2 + key.phase.toNat

/-- A keyspace's slot after one of its trees. -/
def leastWatermark (slot : Option UInt64) (watermark : Option UInt64) : Option UInt64 :=
  match slot, watermark with
  | some least, some watermark => some (min least watermark)
  | _, _ => none

/-- The pass of `plan_prune` over one tree. -/
def planTree (cull : UInt64 → Option UInt64) (head : TreeKey → Option UInt64)
    (state : PrunePlan × OrdMap Keyspace (Option UInt64)) (tree : TreeKey × List IndexEntry) :
    PrunePlan × OrdMap Keyspace (Option UInt64) :=
  let (plan, keyspaces) := state
  let history := oneHistory tree.2 (head tree.1)
  let watermark := watermarkOf history cull
  let plan := if history.2 then plan else { plan with restarted := plan.restarted + 1 }
  let keyspaces := match tree.1.keyspace with
    | some keyspace =>
      keyspaces.insert keyspace
        (leastWatermark ((keyspaces.get? keyspace).getD (some u64Max)) watermark)
    | none => keyspaces
  match watermark with
  | none => (plan, keyspaces)
  | some watermark =>
    let plan := { plan with
      deleteRoots := plan.deleteRoots ++
        (history.1.filter (·.version < watermark)).map IndexEntry.key }
    if tree.1.phaseIdx < 4 then
      ({ plan with trees := plan.trees ++ [(tree.1.shardId, tree.1.phaseIdx, watermark)] }, keyspaces)
    else (plan, keyspaces)

/-- `plan_prune`. -/
def planPrune (trees : List (TreeKey × List IndexEntry)) (cull : UInt64 → Option UInt64)
    (head : TreeKey → Option UInt64) : PrunePlan :=
  let (plan, keyspaces) := trees.foldl (planTree cull head) (⟨[], [], [], 0⟩, .empty)
  { plan with
    blobs := keyspaces.entries.filterMap fun e => (e.2.filter (· ≠ u64Max)).map fun w => (e.1, w)
    trees := plan.trees.insertionSort fun a b =>
      toLex (a.1, toLex (a.2.1, a.2.2)) ≤ toLex (b.1, toLex (b.2.1, b.2.2))
    deleteRoots := plan.deleteRoots.insertionSort (· ≤ ·) }

/-! ## One history -/

/-- What `one_history` decides.  Without a head: of two commits, one has the higher version and no
lower frame.  With it: versions differ and none is above the head. -/
def OneHistory (entries : List IndexEntry) : Option UInt64 → Prop
  | none => entries.Pairwise fun a b =>
    (a.version < b.version ∧ a.frame ≤ b.frame) ∨ (b.version < a.version ∧ b.frame ≤ a.frame)
  | some head => entries.Pairwise (fun a b => a.version ≠ b.version) ∧
      ∀ e ∈ entries, e.version ≤ head

open List

theorem sortEntries_perm (entries : List IndexEntry) : (sortEntries entries).Perm entries :=
  perm_insertionSort _ _

variable {entries : List IndexEntry}

@[simp] theorem mem_sortEntries {e : IndexEntry} : e ∈ sortEntries entries ↔ e ∈ entries :=
  (sortEntries_perm entries).mem_iff

theorem sortEntries_version (entries : List IndexEntry) :
    (sortEntries entries).Pairwise fun a b => a.version ≤ b.version := by
  have hsorted : (sortEntries entries).Pairwise fun a b =>
      toLex (a.version, a.frame) ≤ toLex (b.version, b.frame) := by
    refine @pairwise_insertionSort _ _ _ ?_ ?_ entries
    · exact ⟨fun a b => le_total _ _⟩
    · exact ⟨fun a b c => le_trans⟩
  refine hsorted.imp fun {a b} h => ?_
  rcases Lex.toLex_le_toLex.mp h with hlt | ⟨heq, -⟩
  · exact hlt.le
  · exact heq.le

/-- Neighbours related by a transitive relation relate all pairs. -/
theorem windows_all {α : Type} {R : α → α → Prop} [DecidableRel R]
    (htrans : ∀ a b c, R a b → R b c → R a c) (l : List α) :
    ((windows l).all fun pair => decide (R pair.1 pair.2)) = true ↔ l.Pairwise R := by
  have htrans' : IsTrans α R := ⟨htrans⟩
  rw [← isChain_iff_pairwise]
  induction l with
  | nil => simp [windows]
  | cons a l ih =>
    cases l with
    | nil => simp [windows]
    | cons =>
      rw [isChain_cons_cons]
      refine Iff.trans ?_ (and_congr_right fun _ => ih)
      simp [windows]

/-- The last of the sorted entries has the highest version. -/
theorem getLast?_all_version (h : entries.Pairwise fun a b => a.version ≤ b.version)
    (head : UInt64) :
    (entries.getLast?.all fun e => decide (e.version ≤ head)) = true ↔
      ∀ e ∈ entries, e.version ≤ head := by
  induction entries using reverseRecOn with
  | nil => simp
  | append_singleton entries last =>
    obtain ⟨-, -, hlast⟩ := pairwise_append.mp h
    simp only [getLast?_concat, Option.all_some, decide_eq_true_eq]
    constructor
    · intro hle e he
      rcases mem_append.mp he with he | he
      · exact (hlast e he last (mem_singleton_self _)).trans hle
      · rw [mem_singleton.mp he]
        exact hle
    · exact fun hall => hall last (by simp)

/-- **`one_history` decides whether the entries are one history.** -/
theorem oneHistory_iff (entries : List IndexEntry) (head : Option UInt64) :
    (oneHistory entries head).2 = true ↔ OneHistory entries head := by
  have hperm := sortEntries_perm entries
  have hversion := sortEntries_version entries
  cases head with
  | none =>
    have hwindows := windows_all (R := fun a b : IndexEntry => a.version < b.version ∧ a.frame ≤ b.frame)
      (fun a b c hab hbc => ⟨hab.1.trans hbc.1, hab.2.trans hbc.2⟩) (sortEntries entries)
    simp only [oneHistory, OneHistory]
    rw [← hperm.pairwise_iff (fun {a b} h => h.symm)]
    simp only [Bool.decide_and] at hwindows
    rw [hwindows]
    constructor
    · exact fun h => h.imp .inl
    · intro h
      refine (h.and hversion).imp fun {a b} hab => ?_
      rcases hab with ⟨hab | hba, hle⟩
      · exact hab
      · exact absurd hle (not_le.mpr hba.1)
  | some =>
    have hwindows := windows_all (R := fun a b : IndexEntry => a.version < b.version)
      (fun a b c hab hbc => hab.trans hbc) (sortEntries entries)
    simp only [oneHistory, OneHistory, Bool.and_eq_true]
    rw [hwindows, getLast?_all_version hversion, ← hperm.pairwise_iff (fun {a b} h => Ne.symm h)]
    refine and_congr ⟨fun h => h.imp ne_of_lt, fun h => ?_⟩ (by simp)
    exact (h.and hversion).imp fun hab => lt_of_le_of_ne hab.2 hab.1

/-! ## The watermark -/

/-- The watermark of a tree. -/
def treeWatermark (cull : UInt64 → Option UInt64) (head : TreeKey → Option UInt64)
    (tree : TreeKey × List IndexEntry) : Option UInt64 :=
  watermarkOf (oneHistory tree.2 (head tree.1)) cull

/-- The cull frame of a tree: `cull` of its newest frame. -/
def CullAt (cull : UInt64 → Option UInt64) (entries : List IndexEntry) (frame : UInt64) : Prop :=
  ∃ newest ∈ entries, (∀ e ∈ entries, e.frame ≤ newest.frame) ∧ cull newest.frame = some frame

/-- The entry that was current at a frame: the highest version committed by then. -/
def CurrentAt (entries : List IndexEntry) (frame : UInt64) (e : IndexEntry) : Prop :=
  e ∈ entries ∧ e.frame ≤ frame ∧ ∀ e' ∈ entries, e'.frame ≤ frame → e'.version ≤ e.version

variable {w : UInt64}

theorem watermarkAt_le {cull : UInt64} (h : watermarkAt entries cull = some w) :
    (∀ e ∈ entries, cull < e.frame → w ≤ e.version) ∧
      ∀ e, CurrentAt entries cull e → w ≤ e.version := by
  simp only [watermarkAt, Option.bind_eq_bind, Option.bind_eq_some_iff, Option.some.injEq] at h
  obtain ⟨_, hcurrent, rfl⟩ := h
  obtain ⟨hmem, -⟩ := max?_eq_some_iff.mp hcurrent
  obtain ⟨top, htop, rfl⟩ := mem_map.mp hmem
  obtain ⟨htop, hframe⟩ := mem_filter.mp htop
  constructor
  · intro e he hlater
    cases hmin : ((entries.filter (cull < ·.frame)).map IndexEntry.version).min? with
    | none =>
      have hnil := min?_eq_none_iff.mp hmin
      have hmem : e ∈ entries.filter (cull < ·.frame) := mem_filter.mpr ⟨he, by simpa using hlater⟩
      rw [map_eq_nil_iff.mp hnil] at hmem
      cases hmem
    | some =>
      have hleast := (min?_eq_some_iff.mp hmin).2 e.version
        (mem_map_of_mem (mem_filter.mpr ⟨he, by simpa using hlater⟩))
      exact (min_le_right _ _).trans hleast
  · intro e he
    have hle : top.version ≤ e.version := he.2.2 top htop (by simpa using hframe)
    cases ((entries.filter (cull < ·.frame)).map IndexEntry.version).min? with
    | none => exact hle
    | some => exact (min_le_left _ _).trans hle

variable {cull : UInt64 → Option UInt64} {head : TreeKey → Option UInt64}
   {tree : TreeKey × List IndexEntry}

/-- **What a watermark rests on**: one history with a cull frame; it is at most every version
committed after it and the version current at it. -/
theorem treeWatermark_spec (h : treeWatermark cull head tree = some w) :
    OneHistory tree.2 (head tree.1) ∧ ∃ c, CullAt cull tree.2 c ∧
      (∀ e ∈ tree.2, c < e.frame → w ≤ e.version) ∧ ∀ e, CurrentAt tree.2 c e → w ≤ e.version := by
  obtain ⟨h, -⟩ := Option.filter_eq_some_iff.mp h
  obtain ⟨c, hc, hw⟩ := Option.bind_eq_some_iff.mp h
  obtain ⟨_, hnewest, hcull⟩ := Option.bind_eq_some_iff.mp hc
  split at hnewest
  · rename_i hclean
    obtain ⟨hmem, hmax⟩ := max?_eq_some_iff.mp hnewest
    obtain ⟨top, htop, rfl⟩ := mem_map.mp hmem
    obtain ⟨hafter, hcurrent⟩ := watermarkAt_le hw
    have hsorted : (oneHistory tree.2 (head tree.1)).1 = sortEntries tree.2 := rfl
    simp only [hsorted, mem_sortEntries] at htop hafter
    refine ⟨(oneHistory_iff _ _).mp hclean, c, ⟨top, htop, fun e he => ?_, hcull⟩, hafter, fun e he => ?_⟩
    · exact hmax e.frame (mem_map_of_mem (hsorted ▸ mem_sortEntries.mpr he))
    · refine hcurrent e ⟨hsorted ▸ mem_sortEntries.mpr he.1, he.2.1, fun e' he' => he.2.2 e' ?_⟩
      rwa [hsorted, mem_sortEntries] at he'
  · cases hnewest

/-! ## The plan of all trees -/

/-- What the pass over some trees has planned. -/
structure Planned (cull : UInt64 → Option UInt64) (head : TreeKey → Option UInt64)
    (trees : List (TreeKey × List IndexEntry))
    (state : PrunePlan × OrdMap Keyspace (Option UInt64)) : Prop where
  deleteRoots : ∀ k, k ∈ state.1.deleteRoots ↔ ∃ tree ∈ trees, ∃ w,
    treeWatermark cull head tree = some w ∧ ∃ e ∈ tree.2, e.version < w ∧ e.key = k
  forest : ∀ shardId idx w, (shardId, idx, w) ∈ state.1.trees ↔ ∃ tree ∈ trees,
    tree.1.shardId = shardId ∧ tree.1.phaseIdx = idx ∧ idx < 4 ∧
      treeWatermark cull head tree = some w
  keyspaces : ∀ ks slot, state.2.get? ks = some slot → ∀ tree ∈ trees, tree.1.keyspace = some ks →
    ∀ w, slot = some w → ∃ w', treeWatermark cull head tree = some w' ∧ w ≤ w'
  visited : ∀ tree ∈ trees, ∀ ks, tree.1.keyspace = some ks → (state.2.get? ks).isSome

/-- A slot after a tree holds a bound on that tree and on the ones before. -/
theorem leastWatermark_some {slot watermark : Option UInt64}
    (h : leastWatermark slot watermark = some w) :
    (∃ least, slot = some least ∧ w ≤ least) ∧ ∃ w', watermark = some w' ∧ w ≤ w' := by
  cases slot with
  | none => cases h
  | some least =>
    cases watermark with
    | none => cases h
    | some w' =>
      cases Option.some.inj h
      exact ⟨⟨least, rfl, min_le_left ..⟩, w', rfl, min_le_right ..⟩

/-- What the pass over one tree adds to the plan. -/
theorem planTree_eq (cull : UInt64 → Option UInt64) (head : TreeKey → Option UInt64)
    (state : PrunePlan × OrdMap Keyspace (Option UInt64)) (tree : TreeKey × List IndexEntry) :
    (planTree cull head state tree).1.deleteRoots = state.1.deleteRoots ++
        (treeWatermark cull head tree).elim [] (fun w =>
          ((sortEntries tree.2).filter (·.version < w)).map IndexEntry.key) ∧
      (planTree cull head state tree).1.trees = state.1.trees ++
        (treeWatermark cull head tree).elim [] (fun w =>
          if tree.1.phaseIdx < 4 then [(tree.1.shardId, tree.1.phaseIdx, w)] else []) ∧
      (planTree cull head state tree).2 = tree.1.keyspace.elim state.2 fun ks =>
        state.2.insert ks (leastWatermark ((state.2.get? ks).getD (some u64Max))
          (treeWatermark cull head tree)) := by
  have hsorted : (oneHistory tree.2 (head tree.1)).1 = sortEntries tree.2 := rfl
  unfold planTree treeWatermark
  dsimp only
  rw [hsorted]
  generalize watermarkOf (oneHistory tree.2 (head tree.1)) cull = watermark
  cases (oneHistory tree.2 (head tree.1)).2 <;> cases watermark <;> cases tree.1.keyspace <;>
    by_cases hidx : tree.1.phaseIdx < 4 <;> simp [hidx]

theorem exists_mem_concat {α : Type} {P : α → Prop} {l : List α} {a : α} :
    (∃ x ∈ l ++ [a], P x) ↔ (∃ x ∈ l, P x) ∨ P a := by
  simp [or_and_right, exists_or]

theorem mem_elim {α β : Type} {o : Option α} {f : α → List β} {b : β} :
    b ∈ o.elim [] f ↔ ∃ a, o = some a ∧ b ∈ f a := by
  cases o <;> simp

variable {trees : List (TreeKey × List IndexEntry)}

theorem Planned.step {state : PrunePlan × OrdMap Keyspace (Option UInt64)}
    (h : Planned cull head trees state) (tree : TreeKey × List IndexEntry) :
    Planned cull head (trees ++ [tree]) (planTree cull head state tree) := by
  obtain ⟨hroots, htrees, hkeyspaces⟩ := planTree_eq cull head state tree
  have hslots : ∀ ks, (planTree cull head state tree).2.get? ks = if tree.1.keyspace = some ks then
        some (leastWatermark ((state.2.get? ks).getD (some u64Max)) (treeWatermark cull head tree))
      else state.2.get? ks := by
    intro ks
    rw [hkeyspaces]
    cases tree.1.keyspace with
    | none => rfl
    | some ks' =>
      by_cases hks : ks = ks'
      · simp [hks]
      · simp [Ne.symm hks]
  constructor
  · intro k
    rw [hroots, mem_append, h.deleteRoots, exists_mem_concat, mem_elim]
    simp only [mem_map, mem_filter, mem_sortEntries, decide_eq_true_eq, and_assoc]
  · intro shardId idx w
    rw [htrees, mem_append, h.forest, exists_mem_concat, mem_elim]
    refine or_congr_right ⟨?_, ?_⟩
    · rintro ⟨w', hw', hmem⟩
      split at hmem
      · rename_i hidx
        obtain ⟨rfl, rfl, rfl⟩ : shardId = tree.1.shardId ∧ idx = tree.1.phaseIdx ∧ w = w' := by
          simpa using hmem
        exact ⟨rfl, rfl, hidx, hw'⟩
      · cases hmem
    · rintro ⟨rfl, rfl, hidx, hw⟩
      exact ⟨w, hw, by simp [hidx]⟩
  · intro ks slot hslot other hother hks w hw
    subst hw
    rw [hslots] at hslot
    -- the slot as it stood before this tree bounds the trees before it
    have hbefore : ∀ {least : UInt64}, (state.2.get? ks).getD (some u64Max) = some least →
        other ∈ trees → ∃ w', treeWatermark cull head other = some w' ∧ least ≤ w' := by
      intro least hleast hmem
      obtain ⟨slot', hslot'⟩ := Option.isSome_iff_exists.mp (h.visited other hmem ks hks)
      rw [hslot', Option.getD_some] at hleast
      exact h.keyspaces ks slot' hslot' other hmem hks least hleast
    by_cases htree : tree.1.keyspace = some ks
    · rw [if_pos htree] at hslot
      obtain ⟨⟨_, hleast, hle⟩, w', hw', hle'⟩ := leastWatermark_some (Option.some.inj hslot)
      rcases mem_append.mp hother with hmem | hmem
      · obtain ⟨w'', hw'', hle''⟩ := hbefore hleast hmem
        exact ⟨w'', hw'', hle.trans hle''⟩
      · rw [mem_singleton.mp hmem]
        exact ⟨w', hw', hle'⟩
    · rw [if_neg htree] at hslot
      rcases mem_append.mp hother with hmem | hmem
      · exact h.keyspaces ks _ hslot other hmem hks w rfl
      · exact absurd (mem_singleton.mp hmem ▸ hks) htree
  · intro other hother ks hks
    rw [hslots]
    by_cases htree : tree.1.keyspace = some ks
    · rw [if_pos htree]
      rfl
    rw [if_neg htree]
    rcases mem_append.mp hother with hmem | hmem
    · exact h.visited other hmem ks hks
    · exact absurd (mem_singleton.mp hmem ▸ hks) htree

theorem planned_foldl (cull : UInt64 → Option UInt64) (head : TreeKey → Option UInt64)
    (trees : List (TreeKey × List IndexEntry)) :
    Planned cull head trees (trees.foldl (planTree cull head) (⟨[], [], [], 0⟩, .empty)) := by
  induction trees using reverseRecOn with
  | nil => exact ⟨by simp, by simp, by simp, by simp⟩
  | append_singleton trees tree ih =>
    rw [foldl_append]
    exact ih.step tree

theorem mem_deleteRoots {k : Bytes} :
    k ∈ (planPrune trees cull head).deleteRoots ↔ ∃ tree ∈ trees, ∃ w,
      treeWatermark cull head tree = some w ∧ ∃ e ∈ tree.2, e.version < w ∧ e.key = k := by
  rw [← (planned_foldl cull head trees).deleteRoots]
  exact mem_insertionSort _

theorem mem_trees {shardId : Bytes} {idx : Nat} :
    (shardId, idx, w) ∈ (planPrune trees cull head).trees ↔ ∃ tree ∈ trees,
      tree.1.shardId = shardId ∧ tree.1.phaseIdx = idx ∧ idx < 4 ∧
        treeWatermark cull head tree = some w := by
  rw [← (planned_foldl cull head trees).forest]
  exact mem_insertionSort _

/-- A blob watermark bounds the watermark of every tree of its keyspace. -/
theorem blobs_le {ks : Keyspace} (h : (ks, w) ∈ (planPrune trees cull head).blobs)
    (htree : tree ∈ trees) (hks : tree.1.keyspace = some ks) :
    ∃ w', treeWatermark cull head tree = some w' ∧ w ≤ w' := by
  obtain ⟨⟨ks', slot⟩, hmem, hslot⟩ := mem_filterMap.mp h
  obtain ⟨w', hw', hpair⟩ := Option.map_eq_some_iff.mp hslot
  obtain ⟨rfl, rfl⟩ := Prod.ext_iff.mp hpair
  obtain ⟨hsome, -⟩ := Option.filter_eq_some_iff.mp hw'
  exact (planned_foldl cull head trees).keyspaces ks' slot (OrdMap.mem_entries_iff.mp hmem) tree
    htree hks w' hsome

/-! ## The index of a store -/

section Push

variable (entry : TreeKey × IndexEntry) (trees : List (TreeKey × List IndexEntry))

theorem pushEntry_trees : (pushEntry entry trees).map fst =
      if entry.1 ∈ trees.map fst then trees.map fst else trees.map fst ++ [entry.1] := by
  induction trees with
  | nil => simp [pushEntry]
  | cons tree trees ih =>
    unfold pushEntry
    by_cases h : tree.1 = entry.1
    · simp [h]
    rw [if_neg h, map_cons, ih]
    by_cases hmem : entry.1 ∈ trees.map fst
    · simp [hmem]
    · simp [hmem, Ne.symm h]

theorem pushEntry_entries :
    ((pushEntry entry trees).flatMap snd).Perm (entry.2 :: trees.flatMap snd) := by
  induction trees with
  | nil => simp [pushEntry]
  | cons tree trees ih =>
    unfold pushEntry
    split
    · simp
    · exact (ih.append_left tree.2).trans perm_middle

end Push

/-- Entries grouped by tree: the trees are distinct and the entries are those given. -/
theorem foldl_pushEntry (entries : List (TreeKey × IndexEntry)) :
    ((entries.foldl (fun trees entry => pushEntry entry trees) []).map fst).Nodup ∧
      ((entries.foldl (fun trees entry => pushEntry entry trees) []).flatMap snd).Perm
        (entries.map snd) := by
  induction entries using reverseRecOn with
  | nil => simp
  | append_singleton entries entry ih =>
    rw [foldl_append]
    dsimp only [foldl_cons, foldl_nil]
    constructor
    · rw [pushEntry_trees]
      split
      · exact ih.1
      · rename_i hnew
        exact ih.1.append (nodup_singleton _) (by simpa using hnew)
    · refine (pushEntry_entries ..).trans ((ih.2.cons entry.2).trans ?_)
      rw [map_append, map_singleton]
      exact (perm_append_singleton ..).symm

theorem parseRow_key {row : Bytes × Bytes} {entry : TreeKey × IndexEntry}
    (h : parseRow row = some entry) : entry.2.key = row.1 := by
  unfold parseRow at h
  split at h
  · split at h
    · cases h
    · cases Option.some.inj h
      rfl
  · cases h

/-- **The index a store holds.**  Index keys are keys of the store, so each names one
entry. -/
def Index.ofStore (rows : OrdMap Bytes Bytes) : Index where
  trees := indexedTrees rows
  distinctTrees := (foldl_pushEntry _).1
  distinctKeys := by
    refine (((foldl_pushEntry _).2.map IndexEntry.key).nodup_iff).mpr ?_
    rw [List.map_map]
    generalize hindex : (rows.entries.dropWhile (·.1 < [hgRootVersion])).takeWhile
      (·.1.head? = some hgRootVersion) = index
    have hsorted : index.Pairwise (fun a b => a.1 < b.1) :=
      rows.sorted.sublist (hindex ▸ (List.takeWhile_sublist _).trans (List.dropWhile_sublist _))
    refine List.pairwise_map.mpr (List.pairwise_filterMap.mpr (hsorted.imp ?_))
    intro row row' hlt entry hentry entry' hentry' heq
    dsimp only [Function.comp] at heq
    rw [parseRow_key hentry, parseRow_key hentry'] at heq
    exact hlt.ne heq

/-! ## What a prune keeps -/

/-- An index key names one entry of one tree. -/
theorem Index.entry_unique (index : Index) {tree' : TreeKey × List IndexEntry}
    (htree : tree ∈ index.trees) (htree' : tree' ∈ index.trees) {e e' : IndexEntry}
    (he : e ∈ tree.2) (he' : e' ∈ tree'.2) (hkey : e.key = e'.key) : tree = tree' ∧ e = e' := by
  have hnodup := index.distinctKeys
  rw [map_flatMap, nodup_flatMap] at hnodup
  have hsame : tree = tree' := by
    by_contra hne
    have hsymm : Std.Symm (Function.onFun List.Disjoint
        fun t : TreeKey × List IndexEntry => t.2.map IndexEntry.key) := ⟨fun _ _ h _ hx hx' => h hx' hx⟩
    have hdisjoint := hnodup.2.forall htree htree' hne
    exact hdisjoint (mem_map_of_mem he) (hkey ▸ mem_map_of_mem he')
  subst hsame
  exact ⟨rfl, inj_on_of_nodup_map (hnodup.1 tree htree) he he' hkey⟩

/-- An entry that is dropped lies below its own tree's watermark. -/
theorem Index.dropped (index : Index) (htree : tree ∈ index.trees) {e : IndexEntry}
    (he : e ∈ tree.2) (h : e.key ∈ (planPrune index.trees cull head).deleteRoots) :
    ∃ w, treeWatermark cull head tree = some w ∧ e.version < w := by
  obtain ⟨_, htree', w, hw, _, he', hlt, hkey⟩ := mem_deleteRoots.mp h
  obtain ⟨rfl, rfl⟩ := index.entry_unique htree htree' he he' hkey.symm
  exact ⟨w, hw, hlt⟩

/-- A tree has one cull frame. -/
theorem CullAt.unique {c c' : UInt64} (h : CullAt cull entries c) (h' : CullAt cull entries c') :
    c = c' := by
  obtain ⟨newest, hmem, hmax, hc⟩ := h
  obtain ⟨newest', hmem', hmax', hc'⟩ := h'
  rw [le_antisymm (hmax' newest hmem) (hmax newest' hmem'), hc'] at hc
  exact (Option.some.inj hc).symm

/-- Where the bytes are those the store writes, the position tells a shard's trees
apart. -/
theorem TreeKey.eq_of_phaseIdx {k k' : TreeKey} (hk : k.set ≤ 1 ∧ k.phase ≤ 1)
    (hk' : k'.set ≤ 1 ∧ k'.phase ≤ 1) (hshard : k.shardId = k'.shardId)
    (hidx : k.phaseIdx = k'.phaseIdx) : k = k' := by
  obtain ⟨set, phase, _⟩ := k
  obtain ⟨set', phase', _⟩ := k'
  simp only [UInt8.le_iff_toNat_le, TreeKey.phaseIdx] at hk hk' hidx
  have hone : (1 : UInt8).toNat = 1 := rfl
  have hset : set = set' := UInt8.toNat_inj.mp (by omega)
  have hphase : phase = phase' := UInt8.toNat_inj.mp (by omega)
  subst hset hphase
  exact congrArg _ hshard

/-- What a plan must leave alone. -/
structure Keeps (index : Index) (cull : UInt64 → Option UInt64) (head : TreeKey → Option UInt64)
    (plan : PrunePlan) : Prop where
  /-- Roots committed after the cull stay. -/
  later : ∀ tree ∈ index.trees, ∀ c, CullAt cull tree.2 c → ∀ e ∈ tree.2, c < e.frame →
    e.key ∉ plan.deleteRoots
  /-- The root current at the cull stays. -/
  current : ∀ tree ∈ index.trees, ∀ c, CullAt cull tree.2 c → ∀ e, CurrentAt tree.2 c e →
    e.key ∉ plan.deleteRoots
  /-- A tree without a cull frame loses nothing. -/
  uncut : ∀ tree ∈ index.trees, (∀ c, ¬ CullAt cull tree.2 c) → ∀ e ∈ tree.2,
    e.key ∉ plan.deleteRoots
  /-- A watermark is that of a tree with one history, and at most every version the tree
  committed after its cull. -/
  watermark : ∀ shardId idx w, (shardId, idx, w) ∈ plan.trees → ∃ tree ∈ index.trees,
    tree.1.shardId = shardId ∧ tree.1.phaseIdx = idx ∧ OneHistory tree.2 (head tree.1) ∧
      ∃ c, CullAt cull tree.2 c ∧ ∀ e ∈ tree.2, c < e.frame → w ≤ e.version
  /-- With the set and phase bytes the store writes, that tree is the one named. -/
  named : (∀ tree ∈ index.trees, tree.1.set ≤ 1 ∧ tree.1.phase ≤ 1) → ∀ tree ∈ index.trees, ∀ w,
    (tree.1.shardId, tree.1.phaseIdx, w) ∈ plan.trees →
      OneHistory tree.2 (head tree.1) ∧ treeWatermark cull head tree = some w ∧
        ∀ c, CullAt cull tree.2 c → ∀ e ∈ tree.2, c < e.frame → w ≤ e.version
  /-- A tree whose history restarted keeps its roots and all blobs of its keyspace. -/
  restarted : ∀ tree ∈ index.trees, ¬ OneHistory tree.2 (head tree.1) →
    (∀ e ∈ tree.2, e.key ∉ plan.deleteRoots) ∧
      ∀ ks, tree.1.keyspace = some ks → ∀ w, (ks, w) ∉ plan.blobs
  /-- A blob watermark is at most that of every tree of its keyspace, and every one of
  them has one. -/
  blobs : ∀ ks w, (ks, w) ∈ plan.blobs → ∀ tree ∈ index.trees, tree.1.keyspace = some ks →
    ∃ w', treeWatermark cull head tree = some w' ∧ w ≤ w'

/-- The plan for an index keeps what the index needs. -/
theorem Index.keeps (index : Index) (cull : UInt64 → Option UInt64)
    (head : TreeKey → Option UInt64) : Keeps index cull head (planPrune index.trees cull head) := by
  refine ⟨?_, ?_, ?_, ?_, ?_, ?_, fun ks w h tree htree hks => blobs_le h htree hks⟩
  · intro tree htree c hc e he hlater hdropped
    obtain ⟨_, hw, hlt⟩ := index.dropped htree he hdropped
    obtain ⟨-, _, hc', hafter, -⟩ := treeWatermark_spec hw
    rw [hc.unique hc'] at hlater
    exact absurd (hafter e he hlater) (not_le.mpr hlt)
  · intro tree htree c hc e hcurrent hdropped
    obtain ⟨_, hw, hlt⟩ := index.dropped htree hcurrent.1 hdropped
    obtain ⟨-, _, hc', -, hbound⟩ := treeWatermark_spec hw
    rw [hc.unique hc'] at hcurrent
    exact absurd (hbound e hcurrent) (not_le.mpr hlt)
  · intro tree htree hnone e he hdropped
    obtain ⟨_, hw, -⟩ := index.dropped htree he hdropped
    obtain ⟨-, c, hc, -⟩ := treeWatermark_spec hw
    exact hnone c hc
  · intro shardId idx w h
    obtain ⟨tree, htree, hshard, hidx, -, hw⟩ := mem_trees.mp h
    obtain ⟨hone, c, hc, hafter, -⟩ := treeWatermark_spec hw
    exact ⟨tree, htree, hshard, hidx, hone, c, hc, hafter⟩
  · intro hbytes tree htree w h
    obtain ⟨tree', htree', hshard, hidx, -, hw⟩ := mem_trees.mp h
    have hkey := TreeKey.eq_of_phaseIdx (hbytes tree' htree') (hbytes tree htree) hshard hidx
    have hsame : tree' = tree := inj_on_of_nodup_map index.distinctTrees htree' htree hkey
    subst hsame
    obtain ⟨hone, _, hc, hafter, -⟩ := treeWatermark_spec hw
    exact ⟨hone, hw, fun c' hc' => hc.unique hc' ▸ hafter⟩
  · intro tree htree hrestarted
    constructor
    · intro e he hdropped
      obtain ⟨_, hw, -⟩ := index.dropped htree he hdropped
      exact hrestarted (treeWatermark_spec hw).1
    · intro ks hks w h
      obtain ⟨_, hw', -⟩ := blobs_le h htree hks
      exact hrestarted (treeWatermark_spec hw').1

/-- **A prune keeps what is still needed,** for every index, cull and head, and so for the index
that `indexedTrees` reads from a store. -/
theorem plan_prune_keeps (index : Index) (cull : UInt64 → Option UInt64)
    (head : TreeKey → Option UInt64) :
    Keeps index cull head (planPrune index.trees cull head) ∧
      ∀ rows, Keeps (Index.ofStore rows) cull head (planPrune (indexedTrees rows) cull head) :=
  ⟨index.keeps cull head, fun rows => (Index.ofStore rows).keeps cull head⟩

end Retention

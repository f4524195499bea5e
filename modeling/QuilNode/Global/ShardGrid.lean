import QuilNode.Forest.FilterCodec
import QuilNode.Global.ShardChange

/-!
# The shard grid under splits and merges

A grid is in order when the paths of an application's rows tile the tree of addresses.  A split
keeps that where its children tile the subtree they branch from; a merge where every row that
overlaps the merged parent is one of its children.  Neither is checked: `ChangeKeeps` states what
a change needs of the grid it meets.
-/

namespace Global

open Results Forest PrefixCode List Grid Flip Run

/-- The application's registered shards are complete and prefix-free. -/
def Grid.Partition (grid : Grid) (app : Bytes) : Prop :=
  Tiles canonBits {row | row ∈ grid app} []

/-- The paths a change names for its children. -/
def PendingShardChange.childPaths (change : PendingShardChange) : List (List Bool) :=
  change.children.filterMap fun child => (decodeShardBitPath child 32).map Prod.snd

/-- The rows have one form: all spell their paths out, or all are levels of six bits. -/
def Uniform (rows : List (List UInt32)) : Prop :=
  (∀ row ∈ rows, (shardBitPathFromPrefix row).isSome = true) ∨
    ∀ row ∈ rows, ∀ level ∈ row, level.toNat < 64

/-- What a change of the application needs where it is applied. -/
def ChangeKeeps (app : Bytes) (s : Flip) (change : PendingShardChange) : Prop :=
  ∀ parent, decodeShardFilterOrRoot change.parent 32 = some (app, parent) → match change.kind with
    | .split => parent ∈ s.live app → parent ∈ s.grid.paths app ∧ Uniform (s.grid app) ∧
        Tiles id {path | path ∈ change.childPaths ∧ path ≠ parent}
          (longestCommonBitPrefix change.childPaths)
    | .merge => ∀ row ∈ s.grid app, parent <+: canonBits row ∨ canonBits row <+: parent →
        row = bitPathToPrefix parent ∨ ∃ path ∈ change.childPaths, row = bitPathToPrefix path

/-- Every change has what it needs where the loop reaches it. -/
def ChangesKeep (config : ShardConfig) (env : FlipEnv) (app : Bytes) :
    Flip → List PendingShardChange → Prop
  | _, [] => True
  | s, change :: changes => ChangeKeeps app s change ∧
      ∀ s', applyChange config env s change = .ok s' → ChangesKeep config env app s' changes

/-! ## Rows of the grid -/

section Rows

variable {grid : Grid} {app : Bytes} {row : List UInt32}

theorem Grid.mem_put {r : ShardRow} : row ∈ grid.put r app ↔ (app, row) = r ∨ row ∈ grid app := by
  unfold put
  by_cases happ : app = r.1
  · subst happ
    rw [Function.update_self, Prod.mk.injEq, eq_self, true_and]
    split
    · rename_i hmem
      exact ⟨.inr, fun h => h.elim (fun h => h ▸ hmem) id⟩
    · rw [mem_orderedInsert]
  · rw [Function.update_of_ne happ]
    exact ⟨.inr, fun h => h.resolve_left fun h => happ (congrArg Prod.fst h)⟩

theorem Grid.mem_delete {r : ShardRow} :
    row ∈ grid.delete r app ↔ row ∈ grid app ∧ (app, row) ≠ r := by
  unfold delete
  by_cases happ : app = r.1
  · subst happ
    simp [Prod.ext_iff]
  · rw [Function.update_of_ne happ]
    exact ⟨fun h => ⟨h, fun hr => happ (congrArg Prod.fst hr)⟩, And.left⟩

theorem mem_register (rows : List ShardRow) (s : Flip) :
    row ∈ (rows.foldl register s).grid app ↔ (app, row) ∈ rows ∨ row ∈ s.grid app := by
  induction rows generalizing s with
  | nil => simp
  | cons r rows ih =>
    rw [foldl_cons, ih, mem_cons]
    have hput : row ∈ (s.register r).grid app ↔ (app, row) = r ∨ row ∈ s.grid app := mem_put
    tauto

theorem mem_remove (rows : List ShardRow) (s : Flip) :
    row ∈ (rows.foldl remove s).grid app ↔ row ∈ s.grid app ∧ (app, row) ∉ rows := by
  induction rows generalizing s with
  | nil => simp
  | cons r rows ih =>
    rw [foldl_cons, ih, mem_cons]
    have hdelete : row ∈ (s.remove r).grid app ↔ row ∈ s.grid app ∧ (app, row) ≠ r := mem_delete
    tauto

/-- The loop of a migration, where no row it writes is one it deletes later. -/
theorem mem_respell (migrated : List (List UInt32 × List Bool))
    (hfresh : ∀ m ∈ migrated, ∀ m' ∈ migrated, bitPathToPrefix m.2 ≠ m'.1) :
    row ∈ migrated.foldl (fun grid m =>
        (grid.delete (app, m.1)).put (app, bitPathToPrefix m.2)) grid app ↔
      (∃ m ∈ migrated, row = bitPathToPrefix m.2) ∨
        (row ∈ grid app ∧ ¬ ∃ m ∈ migrated, row = m.1) := by
  induction migrated generalizing grid with
  | nil => simp
  | cons m migrated ih =>
    have hlater : ∀ m' ∈ migrated, bitPathToPrefix m.2 ≠ m'.1 := fun m' hm' =>
      hfresh m mem_cons_self m' (mem_cons_of_mem _ hm')
    rw [foldl_cons, ih fun m hm m' hm' =>
      hfresh m (mem_cons_of_mem _ hm) m' (mem_cons_of_mem _ hm')]
    rw [mem_put, mem_delete]
    simp only [mem_cons, exists_eq_or_imp, Prod.mk.injEq, ne_eq, true_and]
    constructor
    · intro h
      rcases h with hm | ⟨rfl | ⟨hrow, hne⟩, hnot⟩
      · exact .inl (.inr hm)
      · exact .inl (.inl rfl)
      · exact .inr ⟨hrow, fun h => h.elim hne hnot⟩
    · intro h
      rcases h with (rfl | hm) | ⟨hrow, hnot⟩
      · exact .inr ⟨.inl rfl, fun ⟨m', hm', h⟩ => hlater m' hm' h⟩
      · exact .inl hm
      · exact .inr ⟨.inr ⟨hrow, fun h => hnot (.inl h)⟩, fun h => hnot (.inr h)⟩

/-- Migration replaces rows of one form that tile the tree by their own paths, spelled out. -/
theorem mem_migrate (hgrid : grid.Partition app) (huniform : Uniform (grid app)) :
    row ∈ migrateAppShardsToSentinel grid app app ↔
      ∃ path ∈ grid.paths app, row = bitPathToPrefix path := by
  by_cases hall : (grid app).all fun row => (shardBitPathFromPrefix row).isSome
  · have hspelled : ∀ row ∈ grid app, row = bitPathToPrefix (canonBits row) := by
      intro row hrow
      obtain ⟨_, hpath⟩ := Option.isSome_iff_exists.mp (all_eq_true.mp hall row hrow)
      obtain rfl := eq_bitPathToPrefix hpath
      rw [canonBits_bitPathToPrefix]
    unfold migrateAppShardsToSentinel
    rw [if_pos hall]
    constructor
    · intro hrow
      exact ⟨_, mem_map_of_mem hrow, hspelled row hrow⟩
    · intro ⟨path, hpath, hrow⟩
      obtain ⟨row', hrow', rfl⟩ := mem_map.mp hpath
      rw [hrow, ← hspelled row' hrow']
      exact hrow'
  · have hsmall := huniform.resolve_left fun h => hall (all_eq_true.mpr h)
    have hplain : ∀ row ∈ grid app, shardBitPathFromPrefix row = none := by
      intro row hrow
      cases row with
      | nil => rfl
      | cons head =>
        have hhead := hsmall _ hrow head mem_cons_self
        have hne : head ≠ bitPathSentinel := by
          intro heq
          rw [heq] at hhead
          exact absurd hhead (by decide)
        rw [shardBitPathFromPrefix, if_pos hne]
    have hpath : ∀ row ∈ grid app, canonBits row = prefixToBits row 6 := fun row hrow => by
      rw [canonBits, hplain row hrow, Option.getD_none]
    have htiles : Tiles (prefixToBits · 6) {row | row ∈ grid app} [] := by
      have himage := hgrid.image (prefixToBits · 6) id fun row hrow => (hpath row hrow).symm
      rwa [Set.image_id] at himage
    have hcanonical : canonicalShardBitPaths (grid app) = grid.paths app :=
      map_congr_left fun row hrow =>
        (canonicalBits_of_tiles row hsmall htiles hrow).trans (hpath row hrow).symm
    have hfresh : ∀ m ∈ (grid app).zip (grid.paths app), ∀ m' ∈ (grid app).zip (grid.paths app),
        bitPathToPrefix m.2 ≠ m'.1 := by
      intro m _ m' hm' heq
      have hnone := hplain m'.1 (of_mem_zip hm').1
      rw [← heq, shardBitPathFromPrefix_bitPathToPrefix] at hnone
      cases hnone
    have hzip : (grid app).zip (grid.paths app) = (grid app).map fun row => (row, canonBits row) :=
      map_prod_left_eq_zip.symm
    unfold migrateAppShardsToSentinel
    rw [if_neg hall, hcanonical, mem_respell _ hfresh, hzip]
    simp only [mem_map, paths, exists_exists_and_eq_and]
    constructor
    · intro h
      rcases h with h | ⟨hrow, hnot⟩
      · exact h
      · exact absurd ⟨row, hrow, rfl⟩ hnot
    · exact .inl

/-- A migration touches one application. -/
theorem migrate_other {other : Bytes} (h : app ≠ other) :
    migrateAppShardsToSentinel grid other app = grid app := by
  unfold migrateAppShardsToSentinel
  split
  · rfl
  · refine foldlRecOn _ _ (motive := fun g : Grid => g app = grid app) rfl fun g hg m _ => ?_
    rw [put, Function.update_of_ne h, delete, Function.update_of_ne h, hg]

end Rows

/-! ## One change -/

section Change

variable {config : ShardConfig} {env : FlipEnv} {app : Bytes} {s s' : Flip}
  {change : PendingShardChange}

/-- What two paths have in common is kept where they are cut. -/
theorem isPrefix_take_common {p common path : List Bool} (hcommon : p <+: common)
    (hpath : p <+: path) :
    p <+: common.take ((common.zip path).takeWhile fun pair => pair.1 == pair.2).length := by
  induction p generalizing common path with
  | nil => exact nil_prefix
  | cons b p ih =>
    obtain ⟨t, rfl⟩ := hcommon
    obtain ⟨t', rfl⟩ := hpath
    have hrest := ih (prefix_append p t) (prefix_append p t')
    simpa using hrest

/-- A prefix of all paths is one of their longest common prefix. -/
theorem isPrefix_longestCommonBitPrefix {paths : List (List Bool)} {p : List Bool}
    (hne : paths ≠ []) (h : ∀ path ∈ paths, p <+: path) : p <+: longestCommonBitPrefix paths := by
  cases paths with
  | nil => exact absurd rfl hne
  | cons first rest =>
    refine foldlRecOn rest _ (motive := (p <+: ·)) (h first mem_cons_self)
      fun common hcommon path hpath => ?_
    exact isPrefix_take_common hcommon (h path (mem_cons_of_mem _ hpath))

/-- A filter that spells a path out is decoded as that path. -/
theorem decodeShardFilterOrRoot_of_bitPath {filter : Bytes} {x : Bytes × List Bool}
    (h : decodeShardBitPath filter 32 = some x) : decodeShardFilterOrRoot filter 32 = some x := by
  obtain ⟨happ, hpath, hfilter⟩ := eq_encodeShardBitPath h
  exact decodeShardFilterOrRoot_iff.mpr ⟨happ, .inr (.inr ⟨hpath, hfilter⟩)⟩

theorem decodeShardFilterOrRoot_app {filter : Bytes} {x : Bytes × List Bool}
    (h : decodeShardFilterOrRoot filter 32 = some x) : x.1 = filter.take 32 := by
  obtain ⟨hlength, ⟨rfl, -⟩ | ⟨level, rfl, -⟩ | ⟨-, rfl⟩⟩ := decodeShardFilterOrRoot_iff.mp h
  · exact (take_of_length_le hlength.le).symm
  · exact (take_left' hlength).symm
  · rw [encodeShardBitPath, append_assoc, take_left' hlength]

/-- What the children of an accepted change are: paths of the parent's application that
extend the parent's. -/
theorem bitPathChildren_ok {op : String} {parent : Bytes} {children : List Bytes}
    {decoded : List (Bytes × List Bool)} {parentApp : Bytes} {parentPath : List Bool}
    (hparent : decodeShardFilterOrRoot parent 32 = some (parentApp, parentPath))
    (h : children.mapM (bitPathChild op parent) = .ok decoded) :
    decoded = (children.filterMap fun child => (decodeShardBitPath child 32).map Prod.snd).map
        (fun path => (parentApp, path)) ∧
      decoded.length = children.length ∧
      ∀ path ∈ children.filterMap fun child => (decodeShardBitPath child 32).map Prod.snd,
        parentPath <+: path := by
  have hall := mapM_ok.mp h
  clear h
  induction hall with
  | nil => exact ⟨rfl, rfl, fun _ h => by cases h⟩
  | @cons child x children decoded hchild _ ih =>
    obtain ⟨heq, hlength, hbegin⟩ := ih
    obtain ⟨hextends, hchild⟩ := ensure_bind.mp hchild
    have hdecode := okOr_ok.mp hchild
    rw [shardFilterExtends, decodeShardFilterOrRoot_of_bitPath hdecode, hparent] at hextends
    obtain ⟨happ, hstarts⟩ := Bool.and_eq_true_iff.mp hextends
    have happ : x.1 = parentApp := beq_iff_eq.mp happ
    have hstarts : parentPath <+: x.2 := isPrefixOf_iff_prefix.mp hstarts
    rw [filterMap_cons_some (by rw [hdecode]; rfl), map_cons, ← heq]
    refine ⟨?_, by rw [length_cons, length_cons, hlength], ?_⟩
    · exact congrArg (· :: decoded) (Prod.ext happ rfl)
    · exact forall_mem_cons.mpr ⟨hstarts, hbegin⟩

/-- **What an accepted split does.** -/
theorem materializeShardSplit_ok {output : ShardSplitOutput}
    (h : materializeShardSplit change.parent change.children true = .ok output) :
    ∃ parentApp parentPath, decodeShardFilterOrRoot change.parent 32 = some (parentApp, parentPath) ∧
      parentApp = change.parent.take 32 ∧ 32 ≤ change.parent.length ∧ change.childPaths ≠ [] ∧
      (∀ path ∈ change.childPaths, parentPath <+: path) ∧
      output = ⟨change.childPaths.map (fun path => (parentApp, bitPathToPrefix path)) ++
        (splitSpineSiblings parentPath (longestCommonBitPrefix change.childPaths)).map
          (fun path => (parentApp, bitPathToPrefix path)),
        some (parentApp, bitPathToPrefix parentPath)⟩ := by
  obtain ⟨hlong, h⟩ := ensure_bind.mp h
  obtain ⟨hmany, h⟩ := ensure_bind.mp h
  obtain ⟨decoded, hdecoded, h⟩ := bind_ok.mp h
  obtain ⟨⟨parentApp, parentPath⟩, hparent, h⟩ := okOr_bind.mp h
  obtain ⟨heq, hlength, hbegin⟩ := bitPathChildren_ok hparent hdecoded
  have hpaths : decoded.map Prod.snd = change.childPaths := by
    rw [heq, map_map]
    exact map_id _
  have hchildren : decoded.map (fun child => (child.1, bitPathToPrefix child.2)) =
      change.childPaths.map fun path => (parentApp, bitPathToPrefix path) := by
    rw [heq, map_map]
    rfl
  refine ⟨parentApp, parentPath, hparent, decodeShardFilterOrRoot_app hparent, hlong,
    ?_, hbegin, ?_⟩
  · intro hnil
    have htwo := hmany
    rw [← hlength, ← length_map (f := Prod.snd), hpaths, hnil] at htwo
    exact absurd htwo (by decide)
  · rw [← Except.ok.inj h, hchildren, hpaths]

/-- **What an accepted merge does.** -/
theorem materializeShardMerge_ok {output : ShardMergeOutput}
    (h : materializeShardMerge change.children change.parent true = .ok output) :
    ∃ parentApp parentPath, decodeShardFilterOrRoot change.parent 32 = some (parentApp, parentPath) ∧
      (∀ path ∈ change.childPaths, parentPath <+: path) ∧
      output = ⟨change.childPaths.map fun path => (parentApp, bitPathToPrefix path),
        some (parentApp, bitPathToPrefix parentPath)⟩ := by
  obtain ⟨_, -, h⟩ := bind_ok.mp h
  obtain ⟨_, -, h⟩ := bind_ok.mp h
  obtain ⟨_, hdecoded, h⟩ := bind_ok.mp h
  obtain ⟨⟨parentApp, parentPath⟩, hparent, h⟩ := okOr_bind.mp h
  obtain ⟨heq, -, hbegin⟩ := bitPathChildren_ok hparent hdecoded
  refine ⟨parentApp, parentPath, hparent, hbegin, ?_⟩
  rw [← Except.ok.inj h, heq, map_map]
  rfl

theorem bitPathToPrefix_injective : Function.Injective bitPathToPrefix :=
  Function.LeftInverse.injective canonBits_bitPathToPrefix

theorem mem_pathRows {parentApp : Bytes} {paths : List (List Bool)} {row : List UInt32} :
    (app, row) ∈ paths.map (fun path => (parentApp, bitPathToPrefix path)) ↔
      app = parentApp ∧ ∃ path ∈ paths, row = bitPathToPrefix path := by
  rw [mem_map]
  simp only [Prod.mk.injEq]
  constructor
  · intro ⟨path, hpath, happ, hrow⟩
    exact ⟨happ.symm, path, hpath, hrow.symm⟩
  · intro ⟨happ, path, hpath, hrow⟩
    exact ⟨path, hpath, happ.symm, hrow.symm⟩

/-- The rows after a split: none is touched where the parent is not live. -/
theorem mem_applySplit (hmode : change.bitPathMode config = true)
    (h : applySplit config env s change = .ok s') :
    ∃ parentApp parent, decodeShardFilterOrRoot change.parent 32 = some (parentApp, parent) ∧
      change.childPaths ≠ [] ∧ (∀ path ∈ change.childPaths, parent <+: path) ∧
      if parent ∈ s.live parentApp then
        ∀ row, row ∈ s'.grid app ↔
          ((app = parentApp ∧ ∃ path, (path ∈ change.childPaths ∨ path ∈ splitSpineSiblings parent
              (longestCommonBitPrefix change.childPaths)) ∧ row = bitPathToPrefix path) ∨
            row ∈ migrateAppShardsToSentinel s.grid parentApp app) ∧
          ¬ (app = parentApp ∧ row = bitPathToPrefix parent)
      else s' = s := by
  obtain ⟨_, houtput, h⟩ := bind_ok.mp h
  rw [hmode] at houtput h
  obtain ⟨parentApp, parent, hparent, happ, hlong, hne, hbegin, rfl⟩ :=
    materializeShardSplit_ok houtput
  refine ⟨parentApp, parent, hparent, hne, hbegin, ?_⟩
  simp only [parentLive, canonBits_bitPathToPrefix, decide_eq_true_eq] at h
  split
  · rename_i hlive
    rw [if_pos hlive] at h
    obtain ⟨_, -, h⟩ := bind_ok.mp h
    obtain rfl := pure_ok.mp h
    intro row
    refine mem_delete.trans ?_
    rw [mem_register, if_pos ⟨trivial, hlong⟩, ← happ, ne_eq, Prod.mk.injEq]
    refine and_congr (or_congr ?_ Iff.rfl) Iff.rfl
    rw [← map_append, mem_pathRows]
    simp only [mem_append]
  · rename_i hlive
    rw [if_neg hlive] at h
    exact (pure_ok.mp h).symm

section Changes

variable (hgrid : s.grid.Partition app) (hmode : change.bitPathMode config = true)
include hgrid hmode

/-- **A split keeps the partition** where its children tile the subtree they branch
from. -/
theorem partition_split (hkind : change.kind = .split)
    (hkeeps : ChangeKeeps app s change) (h : applySplit config env s change = .ok s') :
    s'.grid.Partition app := by
  obtain ⟨parentApp, parent, hparent, hne, hbegin, hrows⟩ := mem_applySplit hmode h
  split at hrows
  · rename_i hlive
    by_cases happ : app = parentApp
    · subst happ
      have hkeeps := hkeeps parent hparent
      rw [hkind] at hkeeps
      obtain ⟨hregistered, huniform, hchildren⟩ := hkeeps hlive
      -- the paths of the rows tile the tree, the children and their spine the parent
      have hpaths := hgrid.image id canonBits fun _ _ => rfl
      obtain ⟨_, hbranch⟩ := isPrefix_longestCommonBitPrefix hne hbegin
      rw [← hbranch] at hchildren hrows
      have hmem : parent ∈ canonBits '' {row | row ∈ s.grid app} := by
        obtain ⟨row, hrow, hpath⟩ := mem_map.mp hregistered
        exact ⟨row, hrow, hpath⟩
      have hsplit := hpaths.split hmem (tiles_copath hchildren)
      have himage := hsplit.image canonBits bitPathToPrefix fun path _ =>
        canonBits_bitPathToPrefix path
      refine Eq.mp (congrArg (Tiles canonBits · []) (Set.ext fun row => ?_)) himage
      rw [Set.mem_ofPred_eq, hrows, mem_migrate hgrid huniform, splitSpineSiblings_append]
      constructor
      · intro ⟨path, hpath, hrow⟩
        subst hrow
        rcases hpath with ⟨⟨row, hrow, hrow'⟩, hne⟩ | hpath | ⟨hpath, hne⟩
        · refine ⟨.inr ⟨path, ?_, rfl⟩, fun ⟨_, heq⟩ => hne (bitPathToPrefix_injective heq)⟩
          exact mem_map.mpr ⟨row, hrow, hrow'⟩
        · refine ⟨.inl ⟨rfl, path, .inr hpath, rfl⟩, fun ⟨_, heq⟩ => ?_⟩
          have hlength := length_lt_of_mem_copath hpath
          rw [bitPathToPrefix_injective heq] at hlength
          exact absurd hlength (Nat.lt_irrefl _)
        · exact ⟨.inl ⟨rfl, path, .inl hpath, rfl⟩,
            fun ⟨_, heq⟩ => hne (bitPathToPrefix_injective heq)⟩
      · intro ⟨hrow, hnot⟩
        rcases hrow with ⟨_, path, hpath, rfl⟩ | ⟨path, hpath, rfl⟩
        · have hne : path ≠ parent := fun heq => hnot ⟨rfl, heq ▸ rfl⟩
          rcases hpath with hpath | hpath
          · exact ⟨path, .inr (.inr ⟨hpath, hne⟩), rfl⟩
          · exact ⟨path, .inr (.inl hpath), rfl⟩
        · have hne : path ≠ parent := fun heq => hnot ⟨rfl, heq ▸ rfl⟩
          obtain ⟨row, hrow, rfl⟩ := mem_map.mp hpath
          exact ⟨_, .inl ⟨⟨row, hrow, rfl⟩, hne⟩, rfl⟩
    · refine Eq.mp (congrArg (Tiles canonBits · []) (Set.ext fun row => ?_)) hgrid
      rw [Set.mem_ofPred_eq, Set.mem_ofPred_eq, hrows, migrate_other happ]
      simp [happ]
  · exact hrows ▸ hgrid

/-- **A merge keeps the partition** where every row that overlaps the parent is the
parent or one of the children. -/
theorem partition_merge (hkind : change.kind = .merge)
    (hkeeps : ChangeKeeps app s change) (h : applyMerge config s change = .ok s') :
    s'.grid.Partition app := by
  obtain ⟨_, houtput, h⟩ := bind_ok.mp h
  rw [hmode] at houtput
  obtain ⟨parentApp, parent, hparent, hbegin, rfl⟩ := materializeShardMerge_ok houtput
  obtain rfl := pure_ok.mp h
  have hrows : ∀ row, row ∈ ((change.childPaths.map fun path =>
      (parentApp, bitPathToPrefix path)).foldl remove s).grid.put
        (parentApp, bitPathToPrefix parent) app ↔
      (app = parentApp ∧ row = bitPathToPrefix parent) ∨ row ∈ s.grid app ∧
        ¬ (app = parentApp ∧ ∃ path ∈ change.childPaths, row = bitPathToPrefix path) := by
    intro row
    rw [mem_put, mem_remove, Prod.mk.injEq, mem_pathRows]
  by_cases happ : app = parentApp
  · subst happ
    have hkeeps := hkeeps parent hparent
    rw [hkind] at hkeeps
    have hmerge := hgrid.merge (bitPathToPrefix parent)
      {row | ∃ path ∈ change.childPaths, row = bitPathToPrefix path} nil_prefix ?_ ?_
    · refine Eq.mp (congrArg (Tiles canonBits · []) (Set.ext fun row => ?_)) hmerge
      rw [Set.mem_ofPred_eq, hrows]
      simp only [true_and]
      exact or_comm
    · rintro _ ⟨path, hpath, rfl⟩
      rw [canonBits_bitPathToPrefix, canonBits_bitPathToPrefix]
      exact hbegin path hpath
    · intro row hrow hoverlap
      rw [canonBits_bitPathToPrefix] at hoverlap
      exact hkeeps row hrow hoverlap
  · refine Eq.mp (congrArg (Tiles canonBits · []) (Set.ext fun row => ?_)) hgrid
    rw [Set.mem_ofPred_eq, Set.mem_ofPred_eq, hrows]
    simp [happ]

theorem partition_applyChange (hkeeps : ChangeKeeps app s change)
    (h : applyChange config env s change = .ok s') : s'.grid.Partition app := by
  obtain ⟨t, ht, h⟩ := bind_ok.mp h
  obtain rfl := pure_ok.mp h
  have hpartition : t.grid.Partition app := by
    cases hkind : change.kind with
    | split =>
      rw [hkind] at ht
      exact partition_split hgrid hmode hkind hkeeps ht
    | merge =>
      rw [hkind] at ht
      exact partition_merge hgrid hmode hkind hkeeps ht
  exact hpartition

end Changes

/-- Registering and removing rows leaves the pending changes. -/
theorem foldl_pending {f : Flip → ShardRow → Flip} (hf : ∀ s row, (f s row).pending = s.pending)
    (rows : List ShardRow) (s : Flip) : (rows.foldl f s).pending = s.pending :=
  foldlRecOn rows f (motive := fun t : Flip => t.pending = s.pending) rfl
    fun _ h _ _ => (hf _ _).trans h

/-- A round of the loop only consumes pending changes. -/
theorem applyChange_pending (h : applyChange config env s change = .ok s') :
    ∀ e ∈ s'.pending.entries, e ∈ s.pending.entries := by
  obtain ⟨t, ht, h⟩ := bind_ok.mp h
  obtain rfl := pure_ok.mp h
  have hsame : t.pending = s.pending := by
    cases hkind : change.kind with
    | split =>
      rw [hkind] at ht
      obtain ⟨_, -, ht⟩ := bind_ok.mp ht
      split at ht
      · obtain ⟨_, -, ht⟩ := bind_ok.mp ht
        split at ht <;> exact pure_ok.mp ht ▸ foldl_pending (f := register) (fun _ _ => rfl) _ _
      · rw [← pure_ok.mp ht]
    | merge =>
      rw [hkind] at ht
      obtain ⟨_, -, ht⟩ := bind_ok.mp ht
      dsimp only at ht
      split at ht <;> exact pure_ok.mp ht ▸ foldl_pending (f := remove) (fun _ _ => rfl) _ _
  intro e he
  exact hsame ▸ (OrdMap.mem_erase.mp he).1

/-- The loop over the due changes. -/
theorem partition_changes {changes : List PendingShardChange} (hgrid : s.grid.Partition app)
    (hmode : ∀ change ∈ changes, change.bitPathMode config = true)
    (hkeeps : ChangesKeep config env app s changes)
    (h : changes.foldlM (applyChange config env) s = .ok s') :
    s'.grid.Partition app ∧ ∀ e ∈ s'.pending.entries, e ∈ s.pending.entries := by
  induction changes generalizing s with
  | nil =>
    obtain rfl := pure_ok.mp h
    exact ⟨hgrid, fun _ he => he⟩
  | cons change changes ih =>
    obtain ⟨t, ht, h⟩ := bind_ok.mp h
    obtain ⟨hgrid', hpending⟩ := ih
      (partition_applyChange hgrid (hmode change mem_cons_self) hkeeps.1 ht)
      (fun change hchange => hmode change (mem_cons_of_mem _ hchange)) (hkeeps.2 t ht) h
    exact ⟨hgrid', fun e he => applyChange_pending ht e (hpending e he)⟩

end Change

/-! ## Runs -/

/-- Proposals are accepted from the cutover on, and what a frame applies finds the grid it
needs. -/
def TopologyKept (config : ShardConfig) (app : Bytes)
    (e : Run.Event Topology TopologyCall (Result Unit)) : Prop :=
  e.result = .ok () → match e.input with
    | .split _ frame _ => config.unifiedTreeCutoverFrame ≤ frame
    | .merge _ frame _ => config.unifiedTreeCutoverFrame ≤ frame
    | .applyDue env frame => e.before.dueFrame ≠ some frame →
        ChangesKeep config env app ⟨e.before.grid, e.before.grid.paths, e.before.pending, []⟩
          (e.before.due config frame)

/-- The invariant of runs: the grid is a partition, and what waits was proposed from the
cutover on. -/
structure Topology.Ordered (config : ShardConfig) (app : Bytes) (s : Topology) : Prop where
  grid : s.grid.Partition app
  pending : ∀ e ∈ s.pending.entries, config.unifiedTreeCutoverFrame ≤ e.2.proposedFrame

section Runs

variable {config : ShardConfig} {app : Bytes} {s s' : Topology}

theorem Topology.Ordered.putPending (h : s.Ordered config app) {change : PendingShardChange}
    (hframe : config.unifiedTreeCutoverFrame ≤ change.proposedFrame) :
    (s.putPending change).Ordered config app where
  grid := h.grid
  pending := fun e he => by
    rcases OrdMap.mem_insert he with rfl | he
    · exact hframe
    · exact h.pending e he

theorem Topology.Ordered.applyDue (h : s.Ordered config app) {env : FlipEnv} {frame : Nat}
    (hkeeps : s.dueFrame ≠ some frame →
      ChangesKeep config env app ⟨s.grid, s.grid.paths, s.pending, []⟩ (s.due config frame))
    (happly : applyDueShardChanges config env frame s = .ok s') : s'.Ordered config app := by
  unfold applyDueShardChanges at happly
  split at happly
  · exact pure_ok.mp happly ▸ h
  rename_i hdue
  simp only [bind_ok] at happly
  obtain ⟨⟨_, _⟩, hinner, _, -, happly⟩ := happly
  obtain rfl := pure_ok.mp happly
  unfold applyDueShardChangesInner at hinner
  split at hinner
  · obtain ⟨rfl, rfl⟩ := Prod.mk.inj (pure_ok.mp hinner)
    exact ⟨h.grid, h.pending⟩
  simp only [bind_ok] at hinner
  obtain ⟨_, -, _, hflip, hinner⟩ := hinner
  obtain ⟨rfl, rfl⟩ := Prod.mk.inj (pure_ok.mp hinner)
  have hmode : ∀ change ∈ s.due config frame, change.bitPathMode config = true := by
    intro change hchange
    obtain ⟨e, he, rfl⟩ := mem_map.mp (mem_filter.mp hchange).1
    exact decide_eq_true (h.pending e he)
  obtain ⟨hgrid, hpending⟩ := partition_changes h.grid hmode (hkeeps hdue) hflip
  exact ⟨hgrid, fun e he => h.pending e (hpending e he)⟩

/-- **The order of the grid over runs.** -/
theorem ordered_run (h : s.Ordered config app) (calls : List TopologyCall)
    (hkept : ∀ e ∈ events (topologyStep config) s calls, TopologyKept config app e) :
    (final (topologyStep config) s calls).Ordered config app := by
  refine state_invariant (topologyStep config) (Topology.Ordered config app)
    (TopologyKept config app) h ?_ calls hkept
  intro t call ht hok
  simp only [TopologyKept, event, topologyStep] at hok ⊢
  cases hcall : topologyCall config t call with
  | error => exact ht
  | ok =>
    rw [hcall] at hok
    have hok := hok rfl
    cases call with
    | split | merge =>
      obtain ⟨_, -, hcall⟩ := bind_ok.mp hcall
      obtain ⟨_, -, hcall⟩ := bind_ok.mp hcall
      split at hcall
      · exact pure_ok.mp hcall ▸ ht.putPending hok
      · exact pure_ok.mp hcall ▸ ht
    | applyDue => exact ht.applyDue hok hcall

end Runs

/-- **The grid stays a partition** in a run whose changes find the grid they need: every address
lies under exactly one registered shard. -/
theorem shard_grid_stays_partition {config : ShardConfig} {app : Bytes} {s : Topology}
    (h : s.Ordered config app) (calls : List TopologyCall)
    (hkept : ∀ e ∈ Run.events (topologyStep config) s calls, TopologyKept config app e) :
    (Run.final (topologyStep config) s calls).grid.Partition app ∧
      ∀ data : Bytes32, ∃! row, row ∈ (Run.final (topologyStep config) s calls).grid app ∧
        addrHasBitPrefix data (canonBits row) = true := by
  have hgrid := (ordered_run h calls hkept).grid
  refine ⟨hgrid, fun data => ?_⟩
  simp only [addrHasBitPrefix_iff]
  exact hgrid.existsUnique (begins_nil _)

/-- An application, a node that is past the cutover, and checks that pass. -/
def plainApp : Bytes := List.replicate 32 0

def plainShardConfig : ShardConfig := ⟨0, 0, true⟩

def acceptingProposer : ProposerEnv := ⟨fun _ => .ok (some [1]), fun _ _ _ _ => .ok true, fun _ => true⟩

def plainFlipEnv : FlipEnv := ⟨fun _ => .ok (), fun _ _ => .ok (), fun _ => .ok ()⟩

/-- The application is one shard at the root. -/
def rootTopology : Topology := ⟨fun app => if app = plainApp then [[]] else [], .empty, none⟩

/-- Propose a split of the root in epoch 1 and apply it in epoch 3. -/
def splitRoot (children : List Bytes) : List TopologyCall :=
  [.split acceptingProposer 720 ⟨plainApp, children, 720, some ⟨[], []⟩⟩,
    .applyDue plainFlipEnv 2160]

/-- The filters of the paths `0`, `1` and `00`. -/
def filterZero : Bytes := plainApp ++ [0, 1, 0]
def filterOne : Bytes := plainApp ++ [0, 1, 128]
def filterZeroZero : Bytes := plainApp ++ [0, 2, 0]

theorem ordered_rootTopology : rootTopology.Ordered plainShardConfig plainApp where
  grid := by
    have hrows : {row | row ∈ rootTopology.grid plainApp} = {[]} := by
      ext row
      simp [rootTopology]
    unfold Grid.Partition
    rw [hrows]
    exact Tiles.singleton canonBits []
  pending := fun e he => by cases he

/-- The change the split leaves. -/
def rootSplit (children : List Bytes) : PendingShardChange := ⟨.split, plainApp, children, 3, 720⟩

/-- The topology after it. -/
def splitTopology (children : List Bytes) : Topology :=
  Run.final (topologyStep plainShardConfig) rootTopology (splitRoot children)

theorem halved_root_is_partition :
    (splitTopology [filterZero, filterOne]).grid.Partition plainApp ∧
      ∀ data : Bytes32, ∃! row, row ∈ (splitTopology [filterZero, filterOne]).grid plainApp ∧
        addrHasBitPrefix data (canonBits row) = true := by
  refine shard_grid_stays_partition ordered_rootTopology _ fun e he => ?_
  rcases mem_cons.mp he with rfl | he
  · exact fun _ => Nat.zero_le _
  obtain rfl := mem_singleton.mp he
  intro _ _
  have hdue : ((topologyStep plainShardConfig rootTopology
      (.split acceptingProposer 720 ⟨plainApp, [filterZero, filterOne], 720, some ⟨[], []⟩⟩)).2.due
        plainShardConfig 2160) = [rootSplit [filterZero, filterOne]] := by
    decide +kernel
  refine Eq.mpr (congrArg (ChangesKeep plainShardConfig plainFlipEnv plainApp _) hdue)
    ⟨fun parent hparent => ?_, fun _ _ => trivial⟩
  obtain rfl : [] = parent := congrArg Prod.snd (Option.some.inj hparent)
  have hchildren : (rootSplit [filterZero, filterOne]).childPaths = [[false], [true]] := by
    decide +kernel
  refine fun _ => ⟨mem_singleton_self _, .inr fun row hrow => ?_, ?_⟩
  · obtain rfl := mem_singleton.mp hrow
    exact fun _ h => by cases h
  · rw [hchildren]
    refine Eq.mp (congrArg (Tiles id · []) (Set.ext fun path => ?_)) (tiles_halves [] false)
    simp only [nil_append, Bool.not_false, Set.mem_ofPred_eq, mem_cons, not_mem_nil, or_false]
    constructor
    · intro h
      exact ⟨h, by rcases h with rfl | rfl <;> simp⟩
    · exact And.left

/-- **A missing child leaves a hole**: the root is split into `00` and `1`, and no registered shard
has an address under `01`. -/
theorem incomplete_split_leaves_hole : rootTopology.grid.Partition plainApp ∧
      ((Run.events (topologyStep plainShardConfig) rootTopology
        (splitRoot [filterZeroZero, filterOne])).map Run.Event.result = [.ok (), .ok ()]) ∧
      (∀ row ∈ (splitTopology [filterZeroZero, filterOne]).grid plainApp,
        addrHasBitPrefix (BitVec.twoPow 256 254) (canonBits row) = false) ∧
      ¬ (splitTopology [filterZeroZero, filterOne]).grid.Partition plainApp := by
  have hhole : ∀ row ∈ (splitTopology [filterZeroZero, filterOne]).grid plainApp,
      addrHasBitPrefix (BitVec.twoPow 256 254) (canonBits row) = false := by
    decide +kernel
  refine ⟨ordered_rootTopology.grid, by decide +kernel, hhole, fun h => ?_⟩
  obtain ⟨row, hrow, hbegins⟩ := h.complete (BitVec.twoPow 256 254).getMsbD (begins_nil _)
  have hunder := addrHasBitPrefix_iff.mpr hbegins
  rw [hhole row hrow] at hunder
  cases hunder

end Global

import QuilNode.Basic
import QuilNode.Lib.SelfDelimiting

/-!
# Shard prefixes and address bit paths (`quil-forest/src/lib.rs`)

A registered shard is a list of `u32` levels.  What routes an address is the shard's bit path.
Rows written after the cutover spell it out behind a sentinel; older rows are level values whose
width depends on the siblings registered beside them (`canonicalShardBitPaths`).

`subShardIdFor` names the sub-shard a data address is accounted to.
-/

namespace Forest

open List

/-- `BIT_PATH_PREFIX_SENTINEL`: the first level of a spelled-out bit path. -/
def bitPathSentinel : UInt32 := 0xFFFFFFFF

/-- `bit_path_to_prefix`. -/
def bitPathToPrefix (path : List Bool) : List UInt32 :=
  bitPathSentinel :: path.map fun bit => if bit then 1 else 0

/-- A level behind the sentinel is a bit. -/
def levelBit (level : UInt32) : Option Bool :=
  if level = 0 then some false else if level = 1 then some true else none

/-- `shard_bit_path_from_prefix`: nothing for an older row or a malformed one. -/
def shardBitPathFromPrefix : List UInt32 → Option (List Bool)
  | [] => none
  | head :: rest => if head ≠ bitPathSentinel then none else rest.mapM levelBit

/-- The `width` low bits of a number, most significant first. -/
def bitsOf (width n : Nat) : List Bool := (List.range width).map fun i => n.testBit (width - 1 - i)

/-- `level_partition`: the width of a level with these sibling values, and the child index of each.
Dense siblings are their own index, others markers in a byte's high bits. -/
def levelPartition (values : List UInt32) : Nat × (UInt32 → Nat) :=
  let distinct := values.dedup.insertionSort (· ≤ ·)
  let n := distinct.length
  if n ≤ 1 then (0, fun _ => 0)
  else
    let dense := distinct.map UInt32.toNat = List.range n
    (Nat.log2 (n - 1) + 1, fun v => if dense then v.toNat else v.toNat / max (256 / n) 1)

/-- One row's part of `canonical_bit_paths_rec`; `group` are the remaining levels of the rows that
agree so far. -/
def canonicalBits (group : List (List UInt32)) : List UInt32 → List Bool
  | [] => []
  | v :: rest =>
    let part := levelPartition (group.filterMap List.head?)
    bitsOf part.1 (part.2 v) ++
      canonicalBits ((group.filter fun row => row.head? = some v).map List.tail) rest

/-- `canonical_shard_bit_paths`. -/
def canonicalShardBitPaths (rows : List (List UInt32)) : List (List Bool) :=
  rows.map (canonicalBits rows)

/-- `addr_has_bit_prefix`. -/
def addrHasBitPrefix (data : Bytes32) (path : List Bool) : Bool :=
  path.zipIdx.all fun (want, i) => data.getMsbD i == want

/-- `address_shard_index`: the first path the address has, else 0. -/
def addressShardIndex (data : Bytes32) (paths : List (List Bool)) : Nat :=
  (paths.findIdx? (addrHasBitPrefix data)).getD 0

/-- `addr_path_shard_id`. -/
def addrPathShardId (app : Bytes32) (levels : List UInt32) : Bytes :=
  Bytes32.bytes app ++ levels.flatMap fun level => beBytes 4 level.toNat

theorem selfDelimiting_level :
    SelfDelimiting (fun _ => True) fun level : UInt32 => beBytes 4 level.toNat :=
  .of_length (fun _ _ _ _ => by simp) fun a b _ _ h => UInt32.toNat_inj.mp
    (beBytes_injective (Nat.lt_of_lt_of_eq a.toNat_lt (by decide))
      (Nat.lt_of_lt_of_eq b.toNat_lt (by decide)) h)

/-- An id names its application and its row. -/
theorem addrPathShardId_injective {app app' : Bytes32} {xs ys : List UInt32}
    (h : addrPathShardId app xs = addrPathShardId app' ys) : app = app' ∧ xs = ys := by
  obtain ⟨happ, hlevels⟩ := append_inj h (by simp)
  have hlength : xs.length = ys.length := by
    have hbytes := congrArg length hlevels
    simp only [length_flatMap, beBytes_length, map_const', sum_replicate_nat] at hbytes
    omega
  have hrows := selfDelimiting_level.flatMap_inj hlength (fun _ _ => trivial) (fun _ _ => trivial)
    (congrArg (· ++ []) hlevels)
  exact ⟨Bytes32.bytes_injective happ, hrows.1⟩

/-- The shard rows each application has registered, and the bit paths declared
for it directly. -/
structure ShardLayout where
  rows : Bytes32 → Option (List (List UInt32))
  bitPaths : Bytes32 → Option (List (List Bool))

namespace ShardLayout

variable (layout : ShardLayout) (app data : Bytes32)

/-- `app_prefixes`: an application without rows is one shard. -/
def appPrefixes : List (List UInt32) := (layout.rows app).getD [[]]

/-- The application is one shard at the root. -/
def isSingle : Bool := layout.appPrefixes app == [[]]

/-- `shard_bit_paths`: the declared paths, else the decoded rows if all are
spelled out, else the canonical paths. -/
def shardBitPaths : List (List Bool) :=
  match layout.bitPaths app with
  | some paths => paths
  | none =>
    let rows := layout.appPrefixes app
    match rows.mapM shardBitPathFromPrefix with
    | some paths => if rows = [] then canonicalShardBitPaths rows else paths
    | none => canonicalShardBitPaths rows

/-- The row an address is accounted to. -/
def route : List UInt32 :=
  if layout.isSingle app then []
  else ((layout.appPrefixes app)[addressShardIndex data (layout.shardBitPaths app)]?).getD []

/-- `sub_shard_id_for`. -/
def subShardIdFor : Bytes := addrPathShardId app (layout.route app data)

end ShardLayout

end Forest

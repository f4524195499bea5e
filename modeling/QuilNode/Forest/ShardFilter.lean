import QuilNode.Forest.ShardPath
import QuilNode.Lib.PrefixCode

/-!
# Shard filters (`quil-forest/src/lib.rs`)

On the wire a shard is a filter: the application address, and behind it the length of the shard's
bit path and its bits, packed.  The root shard is the bare address; a shard of the genesis grid is
the address and one level byte.  `canonBits` reads a registered row, whichever form it has.
-/

namespace Forest

open PrefixCode List UInt32

/-- `prefix_to_bits`. -/
def prefixToBits (levels : List UInt32) (bitsPerLevel : Nat) : List Bool :=
  levels.flatMap fun level => bitsOf bitsPerLevel level.toNat

/-- Bit `i` of packed bits, most significant first. -/
def packedBit (packed : Bytes) (i : Nat) : Bool :=
  (packed.getD (i / 8) 0).toNat.testBit (7 - i % 8)

/-- `decode_shard_bit_path`: the length must be exact and the padding zero. -/
def decodeShardBitPath (filter : Bytes) (appLen : Nat) : Option (Bytes × List Bool) :=
  if filter.length < appLen + 2 then none
  else
    let n := natOfBytes ((filter.drop appLen).take 2)
    let nBytes := (n + 7) / 8
    if filter.length ≠ appLen + 2 + nBytes then none
    else
      let packed := filter.drop (appLen + 2)
      if (List.range' n (nBytes * 8 - n)).any (packedBit packed) then none
      else some (filter.take appLen, (List.range n).map (packedBit packed))

/-- `bit_path_starts_with`. -/
def bitPathStartsWith (child parent : List Bool) : Bool := parent.isPrefixOf child

/-- `decode_shard_filter_or_root`. -/
def decodeShardFilterOrRoot (filter : Bytes) (appLen : Nat) : Option (Bytes × List Bool) :=
  if filter.length = appLen then some (filter.take appLen, [])
  else if appLen < filter.length ∧ filter.length < appLen + 2 then
    some (filter.take appLen, prefixToBits ((filter.drop appLen).map UInt8.toUInt32) 6)
  else decodeShardBitPath filter appLen

/-- `shard_filter_extends`: one application, and the child's path begins with the parent's, which it
may equal. -/
def shardFilterExtends (childFilter parentFilter : Bytes) (appLen : Nat) : Bool :=
  match decodeShardFilterOrRoot childFilter appLen, decodeShardFilterOrRoot parentFilter appLen with
  | some (childApp, child), some (parentApp, parent) =>
    childApp == parentApp && bitPathStartsWith child parent
  | _, _ => false

/-- `split_spine_siblings`. -/
def splitSpineSiblings (parent branch : List Bool) : List (List Bool) :=
  (List.range' parent.length (branch.length - parent.length)).map fun i =>
    branch.take i ++ [!branch.getD i false]

/-- The path of a row: a spelled-out one, else six bits for each level. -/
def canonBits (row : List UInt32) : List Bool :=
  (shardBitPathFromPrefix row).getD (prefixToBits row 6)

theorem shardBitPathFromPrefix_bitPathToPrefix (path : List Bool) :
    shardBitPathFromPrefix (bitPathToPrefix path) = some path := by
  have hbits : (path.map fun bit => if bit then (1 : UInt32) else 0).mapM levelBit = some path := by
    induction path with
    | nil => rfl
    | cons bit path ih =>
      rw [map_cons, mapM_cons, ih]
      cases bit <;> rfl
  simpa [shardBitPathFromPrefix, bitPathToPrefix] using hbits

@[simp] theorem canonBits_bitPathToPrefix (path : List Bool) :
    canonBits (bitPathToPrefix path) = path := by
  rw [canonBits, shardBitPathFromPrefix_bitPathToPrefix, Option.getD_some]

/-- A row that spells a path out is the one written for it. -/
theorem eq_bitPathToPrefix {row : List UInt32} {path : List Bool}
    (h : shardBitPathFromPrefix row = some path) : row = bitPathToPrefix path := by
  have hlevels : ∀ {levels : List UInt32} {path : List Bool}, levels.mapM levelBit = some path →
      levels = path.map fun bit => if bit then 1 else 0 := by
    intro levels
    induction levels with
    | nil =>
      intro path h
      obtain rfl : [] = path := by simpa using h
      rfl
    | cons level levels ih =>
      intro path h
      rw [mapM_cons] at h
      obtain ⟨bit, hbit, h⟩ := Option.bind_eq_some_iff.mp h
      obtain ⟨rest, hrest, h⟩ := Option.bind_eq_some_iff.mp h
      obtain rfl : bit :: rest = path := Option.some.inj h
      have hlevel : level = if bit then 1 else 0 := by
        unfold levelBit at hbit
        split at hbit
        · rename_i hzero
          cases hbit
          exact hzero
        · split at hbit
          · rename_i hone
            cases hbit
            exact hone
          · cases hbit
      rw [map_cons, ← hlevel, ← ih hrest]
  cases row with
  | nil => cases h
  | cons head =>
    rw [shardBitPathFromPrefix] at h
    by_cases hhead : head = bitPathSentinel
    · rw [if_neg (not_not.mpr hhead)] at h
      rw [bitPathToPrefix, ← hlevels h, hhead]
    · rw [if_pos hhead] at h
      cases h

/-- The spine is the co-path. -/
theorem splitSpineSiblings_append (parent rest : List Bool) :
    splitSpineSiblings parent (parent ++ rest) = copath parent rest := by
  induction rest generalizing parent with
  | nil => simp [splitSpineSiblings, copath]
  | cons bit rest ih =>
    have hstep := ih (parent ++ [bit])
    rw [copath, ← hstep, ← append_cons]
    unfold splitSpineSiblings
    have hlength : (parent ++ bit :: rest).length - parent.length = rest.length + 1 := by simp
    have hlength' : (parent ++ bit :: rest).length - (parent ++ [bit]).length = rest.length := by
      simp only [length_append, length_cons, length_nil]
      omega
    have hstart : (parent ++ [bit]).length = parent.length + 1 := by simp
    rw [hlength, hlength', hstart, range'_succ, map_cons]
    simp

/-- An address is below the paths its bits begin with. -/
theorem addrHasBitPrefix_iff {data : Bytes32} {path : List Bool} :
    addrHasBitPrefix data path = true ↔ Begins data.getMsbD path := all_zipIdx_iff

theorem bitsOf_length (width n : Nat) : (bitsOf width n).length = width := by
  simp [bitsOf]

theorem bitsOf_injective {width m n : Nat} (hm : m < 2 ^ width) (hn : n < 2 ^ width)
    (h : bitsOf width m = bitsOf width n) : m = n := by
  apply Nat.eq_of_testBit_eq
  intro i
  by_cases hi : i < width
  · have hbit := congrArg (·[width - 1 - i]?) h
    have hlt : width - 1 - i < width := by omega
    have hback : width - 1 - (width - 1 - i) = i := by omega
    simpa [bitsOf, hlt, hback] using hbit
  · have hpow : 2 ^ width ≤ 2 ^ i := Nat.pow_le_pow_right (by decide) (by omega)
    rw [Nat.testBit_lt_two_pow (by omega), Nat.testBit_lt_two_pow (by omega)]

@[simp] theorem prefixToBits_cons (level : UInt32) (levels : List UInt32) (width : Nat) :
    prefixToBits (level :: levels) width = bitsOf width level.toNat ++ prefixToBits levels width := by
  simp [prefixToBits]

/-- A level is read off the values it has. -/
theorem levelPartition_congr {values values' : List UInt32}
    (h : ∀ v, v ∈ values ↔ v ∈ values') : levelPartition values = levelPartition values' := by
  have hsorted : values.dedup.insertionSort (· ≤ ·) = values'.dedup.insertionSort (· ≤ ·) := by
    refine Perm.eq_of_pairwise (fun a b _ _ => UInt32.le_antisymm)
      (pairwise_insertionSort _ _) (pairwise_insertionSort _ _) ?_
    refine (perm_insertionSort _ _).trans (Perm.trans ?_ (perm_insertionSort _ _).symm)
    exact (perm_ext_iff_of_nodup (nodup_dedup _) (nodup_dedup _)).mpr fun v => by simpa using h v
  unfold levelPartition
  rw [hsorted]

/-- The 64 levels of the genesis grid are six bits. -/
theorem levelPartition_range : levelPartition ((range 64).map ofNat) = (6, toNat) := by
  have hsorted : ((range 64).map ofNat).dedup.insertionSort (· ≤ ·) =
      (range 64).map ofNat := by decide +kernel
  unfold levelPartition
  simp only [hsorted]
  rfl

section Canonical

variable {group : List (List UInt32)}

section Tiling

variable {v : UInt32} {rest : List UInt32} (hsmall : ∀ row ∈ group, ∀ level ∈ row, level.toNat < 64)
  (htiles : Tiles (prefixToBits · 6) {row | row ∈ group} []) (hrow : v :: rest ∈ group)
include hsmall htiles hrow

/-- In a tiling with more than the root row, a branch through a level runs through a row that begins
with this level. -/
theorem exists_row_of_level {i : Nat} (hi : i < 64) (s : Nat → Bool) :
    ∃ w tail, w :: tail ∈ group ∧ w.toNat = i ∧ Begins s (prefixToBits tail 6) := by
  obtain ⟨row, hmem, hbegins⟩ := htiles.complete (follow (bitsOf 6 i) s) (begins_nil _)
  cases row with
  | nil =>
    have hsame := htiles.prefixFree [] hmem _ hrow (by simp [prefixToBits])
    cases hsame
  | cons w tail =>
    have hw : w.toNat < 64 := hsmall _ hmem w mem_cons_self
    simp only [prefixToBits_cons] at hbegins
    have hlength : (bitsOf 6 w.toNat).length = (bitsOf 6 i).length := by
      rw [bitsOf_length, bitsOf_length]
    have hbits : bitsOf 6 w.toNat = bitsOf 6 i := by
      rcases (begins_append.mp hbegins).1.nested (begins_follow (bitsOf 6 i) s) with h | h
      · exact h.eq_of_length hlength
      · exact (h.eq_of_length hlength.symm).symm
    rw [hbits, begins_follow_append] at hbegins
    exact ⟨w, tail, hmem, bitsOf_injective hw hi hbits, hbegins⟩

/-- A level of a tiling has 64 dense siblings, so six bits. -/
theorem levelPartition_of_tiles : levelPartition (group.filterMap head?) = (6, toNat) := by
  rw [← levelPartition_range]
  refine levelPartition_congr fun w => ?_
  rw [mem_filterMap, mem_map]
  constructor
  · intro ⟨row, hmem, hhead⟩
    exact ⟨w.toNat, mem_range.mpr (hsmall row hmem w (mem_of_mem_head? hhead)), UInt32.ofNat_toNat⟩
  · intro ⟨i, hi, hw⟩
    have hi := mem_range.mp hi
    obtain ⟨_, _, hmem, hw', -⟩ := exists_row_of_level hsmall htiles hrow hi fun _ => false
    refine ⟨_, hmem, ?_⟩
    rw [← hw, ← hw', UInt32.ofNat_toNat]
    rfl

end Tiling

/-- **Older rows keep their routing.**  Where the six-bit paths of a row set tile the
tree, they are its canonical paths. -/
theorem canonicalBits_of_tiles (row : List UInt32)
    (hsmall : ∀ row ∈ group, ∀ level ∈ row, level.toNat < 64)
    (htiles : Tiles (prefixToBits · 6) {row | row ∈ group} []) (hrow : row ∈ group) :
    canonicalBits group row = prefixToBits row 6 := by
  induction row generalizing group with
  | nil => rfl
  | cons v rest ih =>
    have hmem : ∀ tail, tail ∈ (group.filter fun row => row.head? = some v).map List.tail ↔
        v :: tail ∈ group := by
      intro tail
      rw [List.mem_map]
      constructor
      · intro ⟨row, hrow, htail⟩
        obtain ⟨hgroup, hhead⟩ := List.mem_filter.mp hrow
        rw [← htail, ← List.eq_cons_of_mem_head? (of_decide_eq_true hhead)]
        exact hgroup
      · intro htail
        exact ⟨_, List.mem_filter.mpr ⟨htail, by simp⟩, rfl⟩
    rw [canonicalBits, levelPartition_of_tiles hsmall htiles hrow, prefixToBits_cons]
    congr 1
    refine ih (fun tail htail level hlevel => ?_) ?_ ((hmem rest).mpr hrow)
    · exact hsmall _ ((hmem tail).mp htail) level (List.mem_cons_of_mem _ hlevel)
    · refine ⟨fun _ _ => List.nil_prefix, fun s _ => ?_, fun a ha b hb hbegin => ?_⟩
      · have hv : v.toNat < 64 := hsmall _ hrow v List.mem_cons_self
        obtain ⟨_, tail, htail, hw, hbegins⟩ := exists_row_of_level hsmall htiles hrow hv s
        obtain rfl := UInt32.toNat_inj.mp hw
        exact ⟨tail, (hmem tail).mpr htail, hbegins⟩
      · have hsame := htiles.prefixFree _ ((hmem a).mp ha) _ ((hmem b).mp hb)
          (by simpa using hbegin)
        exact (List.cons.inj hsame).2

end Canonical

end Forest

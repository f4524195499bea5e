import QuilNode.Basic
import QuilNode.Lib.PrefixCode

/-!
# Coin blocks (`token_intrinsic/coin_blocks.rs`)

A block is the region of the coin accumulator that one shard appends to.  Its
id carries its own width as a sentinel bit above the path, so the width a
block was created at, and the path its owner's bits must begin, are read from
the id alone and never change however wide the tree becomes.
-/

namespace Token

namespace CoinBlocks

open List Nat

/-- Widest the block field may grow. -/
def maxBlockBits : Nat := 15

/-- Levels below a block: coins addressable within one append region. -/
def subtreeBits : Nat := 16

/-- Block levels an application starts with. -/
def initialBlockBits : Nat := 6

/-- Index bits reserved for the sentinel-encoded block id. -/
def blockIndexBits : Nat := maxBlockBits + 1

/-- Total accumulator depth. -/
def depth : Nat := blockIndexBits + subtreeBits

def invalid (msg : String) : QuilError :=
  .invalidArgument ("coin block: " ++ msg)

/-- The number a bit path spells, most significant bit first. -/
def pathValue (bits : List Bool) : Nat :=
  bits.foldl (fun acc bit => acc <<< 1 ||| bit.toNat) 0

/-- `id = (1 << width) | path`, refused outside the accumulator's range. -/
def blockId (width path : Nat) : Result Nat :=
  if width < initialBlockBits ∨ maxBlockBits < width ∨ 1 <<< width ≤ path then
    .error (invalid "block path does not fit its width")
  else
    .ok (1 <<< width ||| path)

/-- The width a block was created at, read from its sentinel bit. -/
def creationWidth (block : Nat) : Nat := block.log2

/-- The block's bit path: its id below the sentinel, most significant first. -/
def blockPath (block : Nat) : List Bool :=
  let width := creationWidth block
  let path := block &&& (1 <<< width - 1)
  (List.range width).map fun bit => path.testBit (width - 1 - bit)

/-- The leading `width` bits of an address. -/
def addressBits (width : Nat) (addr : Bytes32) : List Bool :=
  (List.range width).map addr.getMsbD

/-- The block a coin belongs to at `width`. -/
def blockForAddress (width : Nat) (addr : Bytes32) : Result Nat :=
  blockId width (pathValue (addressBits width addr))

/-- Whether the shard at bit path `shard` owns `block` whole. -/
def shardOwnsBlock (shard : List Bool) (block : Nat) : Bool :=
  let path := blockPath block
  decide (shard.length ≤ path.length) && (shard.zip path).all fun (a, b) => a == b

/-- Whether a block exists at all at width `blockBits`. -/
def isAllocatedWidth (blockBits block : Nat) : Bool :=
  let width := creationWidth block
  decide (0 < block) && decide (initialBlockBits ≤ width) && decide (width ≤ blockBits)

/-- The ids of the blocks of one width that a shard owns. -/
def ownedAt (shard : List Bool) (width : Nat) : List Nat :=
  let free := width - shard.length
  (List.range (1 <<< free)).map fun rest => 1 <<< width ||| pathValue shard <<< free ||| rest

/-- `owned_blocks`, narrowest first; a width narrower than the shard is skipped. -/
def ownedBlocks (shard : List Bool) (maxWidth : Nat) : List Nat :=
  ((List.range' initialBlockBits (min maxWidth maxBlockBits + 1 - initialBlockBits)).filter
    fun width => shard.length ≤ width).flatMap (ownedAt shard)

/-- The position of the `index`-th coin of `block`. -/
def position (blockBits block index : Nat) : Result Nat :=
  if !isAllocatedWidth blockBits block then
    .error (invalid "block beyond the accumulator's current width")
  else if 1 <<< subtreeBits ≤ index then
    .error (invalid "block is full: grant the shard another block")
  else
    .ok ((block <<< subtreeBits) + index)

@[simp] theorem pathValue_nil : pathValue [] = 0 := rfl

theorem pathValue_concat (bits : List Bool) (bit : Bool) :
    pathValue (bits ++ [bit]) = 2 * pathValue bits + bit.toNat := by
  have hor : ∀ acc : Nat, acc <<< 1 ||| bit.toNat = 2 * acc + bit.toNat := by
    intro acc
    have h := two_pow_add_eq_or_of_lt (i := 1) (b := bit.toNat) (by cases bit <;> decide) acc
    rw [shiftLeft_eq, mul_comm acc]
    simpa using h.symm
  simp [pathValue, foldl_append, hor]

/-- A path of `n` bits spells a number below `2 ^ n`. -/
theorem pathValue_lt (bits : List Bool) : pathValue bits < 2 ^ bits.length := by
  induction bits using reverseRecOn with
  | nil => simp
  | append_singleton bits bit =>
    rw [pathValue_concat, length_append, length_singleton, pow_succ]
    have : bit.toNat ≤ 1 := by cases bit <;> decide
    omega

/-- The bits of the number a path spells are the path's own, last bit first. -/
theorem testBit_pathValue (bits : List Bool) (j : Nat) :
    (pathValue bits).testBit j = bits.reverse.getD j false := by
  induction bits using reverseRecOn generalizing j with
  | nil => simp
  | append_singleton bits bit ih =>
    have hbit : bit.toNat < 2 := by cases bit <;> decide
    rw [pathValue_concat, reverse_concat]
    cases j with
    | zero => cases bit <;> simp [testBit_zero, add_mod]
    | succ =>
      have hdiv : (2 * pathValue bits + bit.toNat) / 2 = pathValue bits := by omega
      rw [testBit_add_one, hdiv, ih, getD_cons_succ]

@[simp] theorem addressBits_length (width : Nat) (addr : Bytes32) :
    (addressBits width addr).length = width := by
  simp [addressBits]

variable {width block : Nat}

/-- An accepted id is the path plus its sentinel bit. -/
theorem blockId_ok_iff {path : Nat} : blockId width path = .ok block ↔
      initialBlockBits ≤ width ∧ width ≤ maxBlockBits ∧ path < 2 ^ width ∧
        block = 2 ^ width + path := by
  unfold blockId
  simp only [one_shiftLeft]
  split
  · constructor
    · intro habs; cases habs
    · rintro ⟨h1, h2, h3, -⟩; omega
  · have hpath : path < 2 ^ width := by omega
    have hor : 2 ^ width ||| path = 2 ^ width + path := by
      have := two_pow_add_eq_or_of_lt hpath 1
      simpa using this.symm
    rw [hor]
    constructor
    · intro heq; cases heq; exact ⟨by omega, by omega, hpath, rfl⟩
    · rintro ⟨-, -, -, rfl⟩; rfl

/-- The sentinel bit is the highest: the width is read back from the id. -/
theorem creationWidth_add {path : Nat} (h : path < 2 ^ width) :
    creationWidth (2 ^ width + path) = width := by
  unfold creationWidth
  rw [log2_eq_iff (by omega), pow_succ]
  omega

/-- **Self-describing ids**: the width and path a block was created with are functions of its id. -/
theorem blockPath_blockId {bits : List Bool} (h : blockId bits.length (pathValue bits) = .ok block) :
    creationWidth block = bits.length ∧ blockPath block = bits := by
  obtain ⟨-, -, hlt, rfl⟩ := blockId_ok_iff.mp h
  have hwidth := creationWidth_add hlt
  refine ⟨hwidth, ?_⟩
  have hmask : (2 ^ bits.length + pathValue bits) &&& (1 <<< bits.length - 1) = pathValue bits := by
    rw [Nat.one_shiftLeft, Nat.and_two_pow_sub_one_eq_mod, Nat.add_mod_left, Nat.mod_eq_of_lt hlt]
  unfold blockPath
  simp only [hwidth, hmask]
  refine ext_getElem (by simp) fun i _ hi => ?_
  have hlast : bits.length - 1 - i < bits.length := by omega
  simp [testBit_pathValue, hlast, Nat.sub_sub_self (Nat.le_sub_one_of_lt hi)]

/-- Inside the accumulator's range every address selects a block. -/
theorem blockForAddress_ok (hlo : initialBlockBits ≤ width) (hhi : width ≤ maxBlockBits)
    (addr : Bytes32) : ∃ block, blockForAddress width addr = .ok block := by
  have hlt := pathValue_lt (addressBits width addr)
  rw [addressBits_length] at hlt
  exact ⟨_, blockId_ok_iff.mpr ⟨hlo, hhi, hlt, rfl⟩⟩

section Selected

variable {addr : Bytes32} (h : blockForAddress width addr = .ok block)
include h

/-- The block an address selects was created at the selecting width, on the
address's own leading bits. -/
theorem blockForAddress_spec :
    creationWidth block = width ∧ blockPath block = addressBits width addr := by
  have h' : blockId (addressBits width addr).length
      (pathValue (addressBits width addr)) = .ok block := by
    simpa [blockForAddress] using h
  simpa using blockPath_blockId h'

/-- A block an address selects is allocated, and holds every local index below
the capacity. -/
theorem position_ok {index : Nat} (hindex : index < 1 <<< subtreeBits) :
    ∃ p, position maxBlockBits block index = .ok p := by
  obtain ⟨hlo, hhi, -, _⟩ := blockId_ok_iff.mp h
  have hwidth := (blockForAddress_spec h).1
  have hpos : 0 < block := by
    have := Nat.two_pow_pos width
    omega
  refine ⟨(block <<< subtreeBits) + index, ?_⟩
  simp [position, isAllocatedWidth, hwidth, hlo, hhi, hpos, not_le.mpr hindex]

/-- Selecting again at the block's own width gives the block back. -/
theorem blockForAddress_creationWidth : blockForAddress (creationWidth block) addr = .ok block := by
  rw [(blockForAddress_spec h).1]; exact h

end Selected

theorem pathValue_append (a b : List Bool) :
    pathValue (a ++ b) = pathValue a * 2 ^ b.length + pathValue b := by
  induction b using reverseRecOn with
  | nil => simp
  | append_singleton b bit ih =>
    rw [← append_assoc, pathValue_concat, pathValue_concat, ih, length_append,
      length_singleton, pow_succ]
    ring

/-- Paths of one length that spell the same number are equal. -/
theorem pathValue_inj {a b : List Bool} (hlen : a.length = b.length)
    (hvalue : pathValue a = pathValue b) : a = b := by
  refine reverse_injective (ext_getElem (by simp [hlen]) fun i ha hb => ?_)
  rw [← getD_eq_getElem _ false ha, ← testBit_pathValue, hvalue, testBit_pathValue,
    getD_eq_getElem _ false hb]

@[simp] theorem blockPath_length (block : Nat) :
    (blockPath block).length = creationWidth block := by
  simp [blockPath]

/-- A block id is its sentinel bit and the number its path spells. -/
theorem two_pow_add_pathValue (hpos : 0 < block) :
    2 ^ creationWidth block + pathValue (blockPath block) = block := by
  have hlog : 2 ^ creationWidth block ≤ block ∧ block < 2 ^ (creationWidth block + 1) :=
    (log2_eq_iff (by omega)).mp rfl
  have hpath : pathValue (blockPath block) = block % 2 ^ creationWidth block := by
    refine eq_of_testBit_eq fun i => ?_
    rw [testBit_pathValue, testBit_mod_two_pow]
    by_cases hi : i < creationWidth block
    · have hback : creationWidth block - 1 - (creationWidth block - 1 - i) = i := by omega
      simp [blockPath, hi, hback, one_shiftLeft, and_two_pow_sub_one_eq_mod]
    · simp [hi]
  have hmod : block % 2 ^ creationWidth block = block - 2 ^ creationWidth block := by
    rw [mod_eq_sub_mod hlog.1, mod_eq_of_lt (by omega)]
  omega

theorem isAllocatedWidth_iff {bits : Nat} : isAllocatedWidth bits block = true ↔
      0 < block ∧ initialBlockBits ≤ creationWidth block ∧ creationWidth block ≤ bits := by
  simp [isAllocatedWidth, and_assoc]

/-- A shard owns the blocks whose path begins with its own. -/
theorem shardOwnsBlock_iff {shard : List Bool} :
    shardOwnsBlock shard block = true ↔ shard <+: blockPath block := by
  have hzip : ∀ path : List Bool, shard.length ≤ path.length →
      ((shard.zip path).all (fun x => x.1 == x.2) = true ↔ shard <+: path) := by
    induction shard with
    | nil => simp
    | cons bit shard ih =>
      intro path hle
      cases path with
      | nil => simp at hle
      | cons bit' path =>
        have hle' : shard.length ≤ path.length := by simpa using hle
        simp [cons_prefix_cons, ih path hle']
  unfold shardOwnsBlock
  simp only [Bool.and_eq_true, decide_eq_true_eq]
  constructor
  · rintro ⟨hle, hall⟩
    exact (hzip _ hle).mp hall
  · intro hpath
    have hle := hpath.length_le
    exact ⟨hle, (hzip _ hle).mpr hpath⟩

/-- The first bits of a block id are its sentinel bit and the first bits of its path. -/
theorem div_eq_pathValue_take (hpos : 0 < block) {n : Nat} (hn : n ≤ creationWidth block) :
    block / 2 ^ (creationWidth block - n) = 2 ^ n + pathValue ((blockPath block).take n) := by
  have hblock := two_pow_add_pathValue hpos
  have hsplit := pathValue_append ((blockPath block).take n) ((blockPath block).drop n)
  have hrest := pathValue_lt ((blockPath block).drop n)
  rw [length_drop, blockPath_length] at hsplit hrest
  rw [take_append_drop] at hsplit
  have hpow : 2 ^ creationWidth block = 2 ^ n * 2 ^ (creationWidth block - n) := by
    rw [← Nat.pow_add, Nat.add_sub_cancel' hn]
  rw [hsplit, hpow, ← Nat.add_assoc, ← Nat.add_mul, Nat.mul_comm] at hblock
  nth_rewrite 1 [← hblock]
  rw [Nat.mul_add_div (Nat.two_pow_pos _), Nat.div_eq_of_lt hrest, Nat.add_zero]

/-- The width-`w` blocks of a shard are an aligned range of block ids. -/
theorem owned_iff_div {shard : List Bool} (hpos : 0 < block) (hle : shard.length ≤ width) :
    (creationWidth block = width ∧ shard <+: blockPath block) ↔
      block / 2 ^ (width - shard.length) = 2 ^ shard.length + pathValue shard := by
  constructor
  · rintro ⟨rfl, hpre⟩
    rw [div_eq_pathValue_take hpos hle, ← prefix_iff_eq_take.mp hpre]
  · intro hdiv
    have hshard := pathValue_lt shard
    have hpow : 2 ^ width = 2 ^ shard.length * 2 ^ (width - shard.length) := by
      rw [← Nat.pow_add, Nat.add_sub_cancel' hle]
    have hunit := Nat.two_pow_pos (width - shard.length)
    have hlow : 2 ^ width ≤ block := by
      rw [hpow]
      exact (le_div_iff_mul_le hunit).mp (by omega)
    have hhigh : block < 2 ^ (width + 1) := by
      rw [pow_succ, hpow, mul_right_comm, ← pow_succ]
      exact (div_lt_iff_lt_mul hunit).mp (by rw [pow_succ]; omega)
    have hwidth : creationWidth block = width := (log2_eq_iff (by omega)).mpr ⟨hlow, hhigh⟩
    refine ⟨hwidth, ?_⟩
    -- the block's first bits spell what the shard's path spells
    have htake := div_eq_pathValue_take hpos (hwidth ▸ hle)
    rw [hwidth, hdiv] at htake
    rw [pathValue_inj (a := shard) (b := (blockPath block).take shard.length)
      (by simp [hwidth, hle]) (by omega)]
    exact take_prefix _ _

variable {shard : List Bool} {width block : Nat}

/-- The ids listed for one width are consecutive. -/
theorem ownedAt_eq (hle : shard.length ≤ width) :
    ownedAt shard width = (range (2 ^ (width - shard.length))).map fun rest =>
      2 ^ (width - shard.length) * (2 ^ shard.length + pathValue shard) + rest := by
  obtain ⟨free, rfl⟩ := Nat.exists_eq_add_of_le hle
  simp only [ownedAt, Nat.add_sub_cancel_left, Nat.one_shiftLeft free]
  refine map_congr_left fun rest hrest => ?_
  calc 1 <<< (shard.length + free) ||| pathValue shard <<< free ||| rest
      = (1 <<< shard.length ||| pathValue shard) <<< free ||| rest := by
        rw [Nat.shiftLeft_or_distrib, Nat.shiftLeft_add]
    _ = (1 <<< shard.length + pathValue shard) <<< free + rest := by
        rw [Nat.shiftLeft_add_eq_or_of_lt (mem_range.mp hrest),
          Nat.shiftLeft_add_eq_or_of_lt (pathValue_lt shard)]
    _ = 2 ^ free * (2 ^ shard.length + pathValue shard) + rest := by
        rw [Nat.one_shiftLeft, Nat.shiftLeft_eq, Nat.mul_comm]

/-- They are the shard's blocks of that width. -/
theorem mem_ownedAt (hle : shard.length ≤ width) : block ∈ ownedAt shard width ↔
      0 < block ∧ creationWidth block = width ∧ shard <+: blockPath block := by
  have hunit := Nat.two_pow_pos (width - shard.length)
  rw [ownedAt_eq hle, mem_map]
  constructor
  · rintro ⟨rest, hrest, rfl⟩
    have hpos : 0 < 2 ^ (width - shard.length) * (2 ^ shard.length + pathValue shard) + rest :=
      Nat.add_pos_left (Nat.mul_pos hunit (Nat.add_pos_left (Nat.two_pow_pos _) _)) _
    refine ⟨hpos, (owned_iff_div hpos hle).mpr ?_⟩
    rw [Nat.mul_add_div hunit, Nat.div_eq_of_lt (mem_range.mp hrest), Nat.add_zero]
  · rintro ⟨hpos, howned⟩
    refine ⟨block % 2 ^ (width - shard.length), mem_range.mpr (Nat.mod_lt _ hunit), ?_⟩
    rw [← (owned_iff_div hpos hle).mp howned, Nat.div_add_mod]

theorem mem_ownedBlocks {maxWidth : Nat} : block ∈ ownedBlocks shard maxWidth ↔
      isAllocatedWidth (min maxWidth maxBlockBits) block = true ∧
        shardOwnsBlock shard block = true := by
  rw [isAllocatedWidth_iff, shardOwnsBlock_iff]
  simp only [ownedBlocks, mem_flatMap, mem_filter, mem_range'_1, decide_eq_true_eq]
  constructor
  · rintro ⟨width, ⟨hwidth, hle⟩, hid⟩
    obtain ⟨hpos, rfl, howned⟩ := (mem_ownedAt hle).mp hid
    exact ⟨⟨hpos, hwidth.1, by omega⟩, howned⟩
  · rintro ⟨⟨hpos, hlo, hhi⟩, howned⟩
    have hle : shard.length ≤ creationWidth block := blockPath_length block ▸ howned.length_le
    exact ⟨_, ⟨⟨hlo, by omega⟩, hle⟩, (mem_ownedAt hle).mpr ⟨hpos, rfl, howned⟩⟩

theorem nodup_ownedBlocks (shard : List Bool) (maxWidth : Nat) :
    (ownedBlocks shard maxWidth).Nodup := by
  refine nodup_flatMap.mpr ⟨fun width hwidth => ?_, ?_⟩
  · rw [ownedAt_eq (of_decide_eq_true (mem_filter.mp hwidth).2)]
    exact nodup_range.map (add_right_injective _)
  · -- an id has one width
    refine ((nodup_range' _).filter _).imp_of_mem fun {w w'} hw hw' hne block hblock hblock' => ?_
    have hwidth := (mem_ownedAt (of_decide_eq_true (mem_filter.mp hw).2)).mp hblock
    have hwidth' := (mem_ownedAt (of_decide_eq_true (mem_filter.mp hw').2)).mp hblock'
    exact hne (hwidth.2.1.symm.trans hwidth'.2.1)

/-- **Block ownership.**  A shard's blocks are listed once each; in a complete prefix-free set of
shards a block has at most one owner, and one where some shard's path begins its path; a block an
address selects belongs to the shards whose path begins the address. -/
theorem owned_blocks_partition : (∀ shard maxWidth, (ownedBlocks shard maxWidth).Nodup ∧
      ∀ block, block ∈ ownedBlocks shard maxWidth ↔
        isAllocatedWidth (min maxWidth maxBlockBits) block = true ∧
          shardOwnsBlock shard block = true) ∧
    (∀ shards : Set (List Bool), PrefixCode.Tiles id shards [] → ∀ block,
      (∀ p ∈ shards, ∀ q ∈ shards, shardOwnsBlock p block = true →
        shardOwnsBlock q block = true → p = q) ∧
      ((∃ p ∈ shards, p <+: blockPath block) → ∃! p, p ∈ shards ∧ shardOwnsBlock p block = true)) ∧
    ∀ width, initialBlockBits ≤ width → width ≤ maxBlockBits → ∀ addr,
      ∃ block, blockForAddress width addr = .ok block ∧ ∀ shard : List Bool, shard.length ≤ width →
          (shardOwnsBlock shard block = true ↔ shard <+: addressBits 256 addr) := by
  refine ⟨fun shard maxWidth => ⟨nodup_ownedBlocks shard maxWidth, fun _ => mem_ownedBlocks⟩, ?_, ?_⟩
  · intro shards htiles block
    have hone : ∀ p ∈ shards, ∀ q ∈ shards, shardOwnsBlock p block = true →
        shardOwnsBlock q block = true → p = q := by
      intro p hp q hq hpowns hqowns
      have hbegins := PrefixCode.begins_follow (blockPath block) fun _ => false
      exact htiles.eq_of_begins hp hq (hbegins.of_isPrefix (shardOwnsBlock_iff.mp hpowns))
        (hbegins.of_isPrefix (shardOwnsBlock_iff.mp hqowns))
    refine ⟨hone, ?_⟩
    rintro ⟨p, hp, hpath⟩
    have howns := shardOwnsBlock_iff.mpr hpath
    exact ⟨p, ⟨hp, howns⟩, fun q hq => hone q hq.1 p hp hq.2 howns⟩
  · intro width hlo hhi addr
    obtain ⟨block, hblock⟩ := blockForAddress_ok hlo hhi addr
    have htake : addressBits width addr = (addressBits 256 addr).take width := by
      have hwide : width ≤ 256 := hhi.trans (by decide)
      rw [addressBits, addressBits, ← map_take, take_range, min_eq_left hwide]
    refine ⟨block, hblock, fun shard hle => ?_⟩
    rw [shardOwnsBlock_iff, (blockForAddress_spec hblock).2, htake, prefix_take_iff]
    exact and_iff_left hle

end CoinBlocks

end Token

import QuilNode.Forest.ShardFilter

/-!
# The spellings of a shard (`quil-forest/src/lib.rs`)

`encodeShardBitPath` writes the filter `decodeShardBitPath` reads, and it writes the only one.
`decodeShardFilterOrRoot` also reads two older spellings, so that a shard has several filters:
the root also the bare address, and a shard of six bits the address with its index, a byte below
64.  `shard_filters_unique` lists the filters of a shard.
-/

namespace Forest

open List Nat

/-- `out[i / 8] |= 1 << (7 - i % 8)`. -/
def setPackedBit (out : Bytes) (i : Nat) : Bytes :=
  out.set (i / 8) (out.getD (i / 8) 0 ||| UInt8.ofNat (2 ^ (7 - i % 8)))

/-- `pack_bits`. -/
def packBits (path : List Bool) : Bytes :=
  path.zipIdx.foldl (fun out bit => if bit.1 then setPackedBit out bit.2 else out)
    (List.replicate ((path.length + 7) / 8) 0)

/-- `encode_shard_bit_path`; the length is cast to a `u16`. -/
def encodeShardBitPath (app : Bytes) (path : List Bool) : Bytes :=
  app ++ beBytes 2 path.length ++ packBits path

theorem packedBit_setPackedBit {out : Bytes} {i : Nat} (hi : i / 8 < out.length) (j : Nat) :
    packedBit (setPackedBit out i) j = (packedBit out j || decide (j = i)) := by
  unfold packedBit setPackedBit
  by_cases hbyte : j / 8 = i / 8
  · have hpow : 2 ^ (7 - i % 8) < 256 := Nat.pow_lt_pow_right (n := 8) (by decide) (by omega)
    rw [hbyte, getD_eq_getElem?_getD, getElem?_set_self hi, Option.getD_some, UInt8.toNat_or,
      testBit_or, UInt8.toNat_ofNat_of_lt' hpow, testBit_two_pow]
    congr 2
    exact propext (by omega)
  · have hne : j ≠ i := fun h => hbyte (by rw [h])
    simp [getElem?_set_ne (Ne.symm hbyte), hne]

/-- The fold sets the bits of a path behind those already set. -/
theorem packedBit_fold (path : List Bool) (k : Nat) (out : Bytes)
    (h : k + path.length ≤ 8 * out.length) :
    let packed := (path.zipIdx k).foldl
      (fun out bit => if bit.1 then setPackedBit out bit.2 else out) out
    packed.length = out.length ∧
      ∀ j, packedBit packed j = (packedBit out j || decide ((true, j) ∈ path.zipIdx k)) := by
  induction path generalizing k out with
  | nil => simp
  | cons bit path ih =>
    rw [length_cons] at h
    simp only [zipIdx_cons, foldl_cons]
    cases bit with
    | false => simpa using ih (k + 1) out (by omega)
    | true =>
      have hset : (setPackedBit out k).length = out.length := length_set
      obtain ⟨hlength, hbits⟩ := ih (k + 1) (setPackedBit out k) (by omega)
      refine ⟨hlength.trans hset, fun j => (hbits j).trans ?_⟩
      rw [packedBit_setPackedBit (by omega), Bool.or_assoc]
      simp

theorem packBits_spec (path : List Bool) : (packBits path).length = (path.length + 7) / 8 ∧
    ∀ j, packedBit (packBits path) j = path.getD j false := by
  have h := packedBit_fold path 0 (replicate ((path.length + 7) / 8) 0) (by simp; omega)
  rw [length_replicate] at h
  refine ⟨h.1, fun j => (h.2 j).trans ?_⟩
  have hzero : packedBit (replicate ((path.length + 7) / 8) 0) j = false := by
    unfold packedBit
    rw [getD_eq_getElem?_getD, getElem?_replicate]
    split <;> simp
  rw [hzero, Bool.false_or, getD_eq_getElem?_getD]
  rcases h : path[j]? with - | - | - <;> simp [mem_zipIdx_iff_getElem?, h]

/-- Byte strings of one length with the same bits are the same. -/
theorem eq_of_packedBit {a b : Bytes} (hlen : a.length = b.length)
    (h : ∀ j, packedBit a j = packedBit b j) : a = b := by
  refine ext_getElem hlen fun i ha hb => UInt8.toNat_inj.mp (eq_of_testBit_eq fun t => ?_)
  by_cases ht : t < 8
  · have hbit := h (8 * i + (7 - t))
    have hbyte : (8 * i + (7 - t)) / 8 = i := by omega
    have hplace : 7 - (8 * i + (7 - t)) % 8 = t := by omega
    unfold packedBit at hbit
    rw [hbyte, hplace] at hbit
    simpa [ha, hb] using hbit
  · have hpow : 2 ^ 8 ≤ 2 ^ t := Nat.pow_le_pow_right (by decide) (by omega)
    have hlt : ∀ byte : UInt8, byte.toNat < 2 ^ t := fun byte => byte.toNat_lt.trans_le hpow
    rw [testBit_lt_two_pow (hlt _), testBit_lt_two_pow (hlt _)]

theorem decode_encodeShardBitPath (app : Bytes) {path : List Bool} (h : path.length ≤ 65535) :
    decodeShardBitPath (encodeShardBitPath app path) app.length = some (app, path) := by
  have hheader : natOfBytes (beBytes 2 path.length) = path.length := by
    rw [natOfBytes_beBytes, Nat.mod_eq_of_lt (by omega)]
  have hpadding : (range' path.length ((path.length + 7) / 8 * 8 - path.length)).any
      (packedBit (packBits path)) = false := by
    rw [any_eq_false]
    intro j hj
    have hend : path.length ≤ j := (mem_range'_1.mp hj).1
    simp [(packBits_spec _).2, hend]
  have hbits : (range path.length).map (packedBit (packBits path)) = path := by
    refine ext_getElem (by simp) fun i _ hi => ?_
    simp [(packBits_spec _).2, hi]
  unfold decodeShardBitPath encodeShardBitPath
  rw [append_assoc, if_neg (by simp only [length_append, beBytes_length]; omega)]
  simp [hheader, (packBits_spec _).1, hpadding, hbits, Nat.add_assoc]

/-- An accepted filter is the one written for what it says. -/
theorem eq_encodeShardBitPath {filter app : Bytes} {n : Nat} {path : List Bool}
    (h : decodeShardBitPath filter n = some (app, path)) :
    app.length = n ∧ path.length ≤ 65535 ∧ filter = encodeShardBitPath app path := by
  unfold decodeShardBitPath at h
  simp only [Option.ite_none_left_eq_some] at h
  obtain ⟨_, _, hpadding, h⟩ := h
  have htwo : ((filter.drop n).take 2).length = 2 := by
    rw [length_take, length_drop]
    omega
  have hheader := beBytes_natOfBytes ((filter.drop n).take 2)
  have hbound := natOfBytes_lt ((filter.drop n).take 2)
  rw [htwo] at hheader hbound
  generalize natOfBytes ((filter.drop n).take 2) = bits at *
  obtain ⟨rfl, rfl⟩ := Prod.mk.inj (Option.some.inj h)
  have hpacked : packBits ((range bits).map (packedBit (filter.drop (n + 2)))) =
      filter.drop (n + 2) := by
    refine eq_of_packedBit (by simp [(packBits_spec _).1]; omega) fun j => ?_
    rw [(packBits_spec _).2]
    by_cases hj : j < bits
    · simp [hj]
    · -- a bit behind the path is padding, or behind the last byte
      have hclear : packedBit (filter.drop (n + 2)) j = false := by
        by_cases hbyte : j / 8 < (bits + 7) / 8
        · have hmem : j ∈ range' bits ((bits + 7) / 8 * 8 - bits) :=
            mem_range'_1.mpr ⟨by omega, by omega⟩
          exact Bool.eq_false_iff.mpr fun hset => hpadding (any_eq_true.mpr ⟨j, hmem, hset⟩)
        · rw [packedBit, getD_eq_getElem?_getD, getElem?_eq_none (by rw [length_drop]; omega)]
          exact zero_testBit _
      simp [hj, hclear]
  refine ⟨by simp; omega, by simp; omega, ?_⟩
  unfold encodeShardBitPath
  rw [hpacked, length_map, length_range, hheader, append_assoc, ← drop_drop,
    take_append_drop, take_append_drop]

theorem encodeShardBitPath_length (app : Bytes) (path : List Bool) :
    (encodeShardBitPath app path).length = app.length + 2 + (path.length + 7) / 8 := by
  simp [encodeShardBitPath, (packBits_spec _).1, Nat.add_assoc]

/-- A level byte is the index of a shard, below 64. -/
def LevelInRange (n : Nat) (filter : Bytes) : Prop :=
  ∀ (app : Bytes) (level : UInt8), filter = app ++ [level] → app.length = n → level.toNat < 64

/-- **What the lenient decoder accepts** beside the length-prefixed filter: for the root the bare
address, for six bits the address with a byte. -/
theorem decodeShardFilterOrRoot_iff {filter app : Bytes} {n : Nat} {path : List Bool} :
    decodeShardFilterOrRoot filter n = some (app, path) ↔ app.length = n ∧
      (filter = app ∧ path = [] ∨ (∃ level : UInt8, filter = app ++ [level] ∧
        path = bitsOf 6 level.toNat) ∨
        path.length ≤ 65535 ∧ filter = encodeShardBitPath app path) := by
  unfold decodeShardFilterOrRoot
  constructor
  · intro h
    by_cases hbare : filter.length = n
    · rw [if_pos hbare, ← hbare, take_length] at h
      obtain ⟨rfl, rfl⟩ := Prod.mk.inj (Option.some.inj h)
      exact ⟨hbare, .inl ⟨rfl, rfl⟩⟩
    · rw [if_neg hbare] at h
      split at h
      · obtain ⟨rfl, rfl⟩ := Prod.mk.inj (Option.some.inj h)
        have hone : (filter.drop n).length = 1 := by
          rw [length_drop]
          omega
        obtain ⟨level, hlevel⟩ := length_eq_one_iff.mp hone
        refine ⟨by simp; omega, .inr (.inl ⟨level, ?_, ?_⟩)⟩
        · rw [← hlevel, take_append_drop]
        · simp [hlevel, prefixToBits]
      · obtain ⟨hlength, hpath, hfilter⟩ := eq_encodeShardBitPath h
        exact ⟨hlength, .inr (.inr ⟨hpath, hfilter⟩)⟩
  · rintro ⟨rfl, ⟨rfl, rfl⟩ | ⟨level, rfl, rfl⟩ | ⟨h, rfl⟩⟩
    · simp
    · simp [prefixToBits]
    · rw [encodeShardBitPath_length, if_neg (by omega), if_neg (by omega)]
      exact decode_encodeShardBitPath app h

/-- **What names a shard.**  The length-prefixed filter of a path is read back and the strict
decoder accepts no other.  Of the filters with an index below 64 the lenient one accepts also the
bare address and the address with the index of a six-bit shard. -/
theorem shard_filters_unique : (∀ app path, path.length ≤ 65535 →
      decodeShardBitPath (encodeShardBitPath app path) app.length = some (app, path) ∧
        decodeShardFilterOrRoot (encodeShardBitPath app path) app.length = some (app, path)) ∧
    (∀ n filter filter' app path, decodeShardBitPath filter n = some (app, path) →
      decodeShardBitPath filter' n = some (app, path) → filter = filter') ∧
    (∀ n filter app path, LevelInRange n filter →
      (decodeShardFilterOrRoot filter n = some (app, path) ↔ app.length = n ∧
        (filter = app ∧ path = [] ∨ (∃ level : UInt8, filter = app ++ [level] ∧
          level.toNat < 64 ∧ path = bitsOf 6 level.toNat) ∨
          path.length ≤ 65535 ∧ filter = encodeShardBitPath app path))) ∧
    (∀ i < 64, ∀ j < 64, bitsOf 6 i = bitsOf 6 j → i = j) ∧
    (∀ row path, shardBitPathFromPrefix row = some path ↔ row = bitPathToPrefix path) := by
  refine ⟨fun app path h => ⟨decode_encodeShardBitPath app h,
    decodeShardFilterOrRoot_iff.mpr ⟨rfl, .inr (.inr ⟨h, rfl⟩)⟩⟩, ?_, ?_, ?_,
    fun row path => ⟨eq_bitPathToPrefix, ?_⟩⟩
  · intro n filter filter' app path h h'
    rw [(eq_encodeShardBitPath h).2.2, (eq_encodeShardBitPath h').2.2]
  · intro n filter app path hlevel
    rw [decodeShardFilterOrRoot_iff]
    refine and_congr_right fun happ => or_congr_right (or_congr_left (exists_congr fun level => ?_))
    exact and_congr_right fun hfilter => (and_iff_right (hlevel app level hfilter happ)).symm
  · decide +kernel
  · rintro rfl
    exact shardBitPathFromPrefix_bitPathToPrefix path

/-- The root of an application has two filters, and so has a shard of six bits. -/
theorem shard_has_several_filters :
    decodeShardFilterOrRoot (List.replicate 32 7) 32 = some (List.replicate 32 7, []) ∧
      decodeShardFilterOrRoot (List.replicate 32 7 ++ [0, 0]) 32 = some (List.replicate 32 7, []) ∧
      ∀ filter ∈ [[5], [0, 6, 20]], decodeShardFilterOrRoot (List.replicate 32 7 ++ filter) 32 =
          some (List.replicate 32 7, [false, false, false, true, false, true]) := by
  decide +kernel

end Forest

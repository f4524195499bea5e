import QuilNode.Execution.Pricing

/-!
# Ring rewards (`allocation_ring_reward`, `OptRewardIssuance::calculate`)

A shard's reward is its share of the world's state, by the root of its data shard count, halved
once more for each ring up to 62.  Multiplied out, the rounded rewards of a shard add up to its
numerator times the weights of its rings, and distinct rings below 62 leave room for two rings at
the clamp and no more.
-/

namespace Pricing

open List Nat Or

/-- `allocation_ring_reward`, before it is divided among the eight prover slots. -/
def allocationRingReward (basis stateSize worldBytes : Int) (ring dataShards : Nat) : Int :=
  if basis ≤ 0 ∨ stateSize ≤ 0 ∨ worldBytes ≤ 0 ∨ dataShards = 0 then 0
  else
    let divisor : Int := 2 ^ (min ring 62 + 1)
    let sqrt : Int := Nat.sqrt (dataShards <<< (2 * pomwScaleBits))
    stateSize * basis * 2 ^ pomwScaleBits / (worldBytes * divisor * sqrt)

/-- The fields of a `ProverAllocation` that its reward reads. -/
structure RewardAllocation where
  stateSize : Nat
  ring : Nat
  shards : Nat

/-- The loop over a prover's allocations. -/
def totalReward (basis world : Nat) (allocations : List RewardAllocation) : Int :=
  (allocations.map fun alloc =>
    allocationRingReward basis alloc.stateSize world alloc.ring alloc.shards).sum

/-- `OptRewardIssuance::calculate`: one total for each prover's allocations. -/
def calculate (difficulty worldStateBytes units : Nat) (provers : List (List RewardAllocation)) :
    List Int :=
  let basis := pomwBasis difficulty worldStateBytes units
  if worldStateBytes = 0 then provers.map fun _ => 0
  else provers.map (totalReward basis worldStateBytes)

/-- A shard, and the rings that are rewarded on it. -/
structure RewardShard where
  stateSize : Nat
  dataShards : Nat
  rings : List Nat

open RewardShard

/-- One allocation for each of a shard's rings. -/
def RewardShard.allocations (shard : RewardShard) : List RewardAllocation :=
  shard.rings.map fun ring => ⟨shard.stateSize, ring, shard.dataShards⟩

/-- The root of a shard count that is not zero is at least one, in fixed point. -/
theorem scale_le_sqrt {dataShards : Nat} (h : 0 < dataShards) :
    2 ^ pomwScaleBits ≤ sqrt (dataShards <<< (2 * pomwScaleBits)) := by
  rw [le_sqrt', ← pow_mul, shiftLeft_eq, mul_comm pomwScaleBits]
  exact Nat.le_mul_of_pos_left _ h

variable {basis world : Nat}

/-- A reward where there is one, as a quotient of natural numbers. -/
theorem allocationRingReward_of_pos {size ring shards : Nat} (hbasis : 0 < basis)
    (hsize : 0 < size) (hworld : 0 < world) (hshards : 0 < shards) :
    allocationRingReward basis size world ring shards = (size * basis * 2 ^ pomwScaleBits /
        (world * 2 ^ (min ring 62 + 1) * sqrt (shards <<< (2 * pomwScaleBits))) : Nat) := by
  have hcheck : ¬ ((basis : Int) ≤ 0 ∨ (size : Int) ≤ 0 ∨ (world : Int) ≤ 0 ∨ shards = 0) := by omega
  simp only [allocationRingReward, if_neg hcheck]
  rfl

theorem allocationRingReward_of_zero {size ring shards : Nat}
    (h : basis = 0 ∨ size = 0 ∨ world = 0 ∨ shards = 0) :
    allocationRingReward basis size world ring shards = 0 := by
  have hcheck : (basis : Int) ≤ 0 ∨ (size : Int) ≤ 0 ∨ (world : Int) ≤ 0 ∨ shards = 0 := by omega
  simp only [allocationRingReward, if_pos hcheck]

/-- No reward without a basis, a state, a world and a data shard; otherwise all three sizes
are natural numbers. -/
theorem allocationRingReward_cases (basis size world : Int) (shards : Nat) :
    (∀ ring, allocationRingReward basis size world ring shards = 0) ∨
      ∃ b s w : Nat, 0 < b ∧ 0 < s ∧ 0 < w ∧ 0 < shards ∧ basis = b ∧ size = s ∧ world = w := by
  by_cases h : basis ≤ 0 ∨ size ≤ 0 ∨ world ≤ 0 ∨ shards = 0
  · exact inl fun ring => if_pos h
  · refine inr ⟨basis.toNat, size.toNat, world.toNat, ?_⟩
    omega

theorem allocationRingReward_nonneg (basis size world : Int) (ring shards : Nat) :
    0 ≤ allocationRingReward basis size world ring shards := by
  rcases allocationRingReward_cases basis size world shards with
    h | ⟨b, s, w, hb, hs, hw, hshards, rfl, rfl, rfl⟩
  · rw [h ring]
  · rw [allocationRingReward_of_pos hb hs hw hshards]
    exact Int.natCast_nonneg _

/-- A reward does not fall with a larger state, an earlier ring or fewer data shards, as long
as there is one. -/
theorem allocationRingReward_mono {basis size size' world : Int} {ring ring' shards shards' : Nat}
    (hsize : size ≤ size') (hring : ring' ≤ ring) (hshards : shards' ≤ shards)
    (hpos : 0 < shards') :
    allocationRingReward basis size world ring shards ≤
      allocationRingReward basis size' world ring' shards' := by
  rcases allocationRingReward_cases basis size world shards with
    h | ⟨b, s, w, hb, hs, hw, hn, rfl, rfl, rfl⟩
  · rw [h ring]
    exact allocationRingReward_nonneg ..
  obtain ⟨s', rfl⟩ : ∃ s' : Nat, size' = s' := ⟨size'.toNat, by omega⟩
  have hle : s ≤ s' := by exact_mod_cast hsize
  rw [allocationRingReward_of_pos hb hs hw hn, allocationRingReward_of_pos hb (by omega) hw hpos]
  have hroot : sqrt (shards' <<< (2 * pomwScaleBits)) ≤ sqrt (shards <<< (2 * pomwScaleBits)) := by
    refine sqrt_le_sqrt ?_
    rw [shiftLeft_eq, shiftLeft_eq]
    exact mul_le_mul_right _ hshards
  have hdivisor : 2 ^ (min ring' 62 + 1) ≤ 2 ^ (min ring 62 + 1) :=
    Nat.pow_le_pow_right (by decide) (by omega)
  have hrootPos : 0 < sqrt (shards' <<< (2 * pomwScaleBits)) :=
    (Nat.two_pow_pos _).trans_le (scale_le_sqrt hpos)
  have hdenominator : 0 < w * 2 ^ (min ring' 62 + 1) * sqrt (shards' <<< (2 * pomwScaleBits)) :=
    Nat.mul_pos (Nat.mul_pos hw (Nat.two_pow_pos _)) hrootPos
  refine Int.ofNat_le.mpr (Nat.div_le_div ?_ ?_ hdenominator.ne')
  · exact Nat.mul_le_mul_right _ (Nat.mul_le_mul_right _ hle)
  · exact Nat.mul_le_mul (Nat.mul_le_mul_left w hdivisor) hroot

/-- The share of a ring in parts of 2 ^ 63. -/
def ringWeight (ring : Nat) : Nat := 2 ^ (62 - min ring 62)

/-- A reward, multiplied out, is at most its ring's part of the shard's numerator. -/
theorem allocationRingReward_mul_le (basis size world ring shards : Nat) :
    allocationRingReward basis size world ring shards * (world * 2 ^ 63) ≤
      size * basis * ringWeight ring := by
  by_cases h : basis = 0 ∨ size = 0 ∨ world = 0 ∨ shards = 0
  · rw [allocationRingReward_of_zero h, Int.zero_mul]
    exact_mod_cast zero_le _
  have hshards : 0 < shards := by omega
  rw [allocationRingReward_of_pos (by omega) (by omega) (by omega) hshards]
  set scale := 2 ^ pomwScaleBits with hscale
  set sqrt := sqrt (shards <<< (2 * pomwScaleBits)) with hsqrt
  have hroot : scale ≤ sqrt := scale_le_sqrt hshards
  have hscalePos : 0 < scale := Nat.two_pow_pos _
  set q := size * basis * scale / (world * 2 ^ (min ring 62 + 1) * sqrt) with hq
  have hdiv : q * (world * 2 ^ (min ring 62 + 1) * sqrt) ≤ size * basis * scale :=
    div_mul_le_self _ _
  have hone : q * (world * 2 ^ (min ring 62 + 1)) ≤ size * basis := by
    refine le_of_mul_le_mul_right ?_ hscalePos
    calc q * (world * 2 ^ (min ring 62 + 1)) * scale
        ≤ q * (world * 2 ^ (min ring 62 + 1)) * sqrt := mul_le_mul_left _ hroot
      _ = q * (world * 2 ^ (min ring 62 + 1) * sqrt) := by ring
      _ ≤ size * basis * scale := hdiv
  have hpow : 2 ^ (min ring 62 + 1) * ringWeight ring = 2 ^ 63 := by
    have hexponent : min ring 62 + 1 + (62 - min ring 62) = 63 := by omega
    rw [ringWeight, ← pow_add, hexponent]
  have hfinal : q * (world * 2 ^ 63) ≤ size * basis * ringWeight ring := by
    calc q * (world * 2 ^ 63)
        = q * (world * 2 ^ (min ring 62 + 1)) * ringWeight ring := by rw [← hpow]; ring
      _ ≤ size * basis * ringWeight ring := mul_le_mul_right _ hone
  exact_mod_cast hfinal

/-- Distinct rings of which two at most are clamped weigh one shard at most. -/
theorem ringWeight_sum_le {rings : List Nat} (hnodup : rings.Nodup)
    (hclamped : (rings.filter (62 ≤ ·)).length ≤ 2) : (rings.map ringWeight).sum ≤ 2 ^ 63 := by
  have hsplit : (rings.map ringWeight).sum = ((rings.filter (62 ≤ ·)).map ringWeight).sum +
        ((rings.filter fun ring => !decide (62 ≤ ring)).map ringWeight).sum := by
    rw [← List.sum_append, ← map_append]
    exact ((filter_append_perm _ rings).map ringWeight).sum_eq.symm
  have hhigh : ((rings.filter (62 ≤ ·)).map ringWeight).sum ≤ 2 := by
    have hone : ∀ w ∈ (rings.filter (62 ≤ ·)).map ringWeight, w ≤ 1 := by
      intro w hw
      obtain ⟨ring, hring, rfl⟩ := mem_map.mp hw
      have hle : 62 ≤ ring := of_decide_eq_true (mem_filter.mp hring).2
      rw [ringWeight, min_eq_right hle]
      exact le_refl 1
    calc ((rings.filter (62 ≤ ·)).map ringWeight).sum
        ≤ ((rings.filter (62 ≤ ·)).map ringWeight).length • 1 := sum_le_card_nsmul _ 1 hone
      _ ≤ 2 := by rw [length_map, nsmul_one]; exact_mod_cast hclamped
  -- below the clamp the weights are part of one geometric series
  have hlow : ((rings.filter fun ring => !decide (62 ≤ ring)).map ringWeight).sum ≤ 2 ^ 63 - 2 := by
    rw [← sum_toFinset ringWeight (hnodup.filter _)]
    calc ∑ ring ∈ (rings.filter fun ring => !decide (62 ≤ ring)).toFinset, ringWeight ring
        ≤ ∑ ring ∈ Finset.range 62, ringWeight ring := by
          refine Finset.sum_le_sum_of_subset ?_
          intro ring hring
          simp only [mem_toFinset, mem_filter] at hring
          simpa using hring.2
      _ = 2 ^ 63 - 2 := by decide +kernel
  omega

/-- The rewards of a shard's rings, multiplied out, are at most the shard's numerator. -/
theorem RewardShard.total_mul_le {shard : RewardShard}
    (hnodup : shard.rings.Nodup) (hclamped : (shard.rings.filter (62 ≤ ·)).length ≤ 2) :
    totalReward basis world shard.allocations * world ≤ shard.stateSize * basis := by
  have hrings : ∀ rings : List Nat,
      totalReward basis world (rings.map fun ring => ⟨shard.stateSize, ring, shard.dataShards⟩) *
        (world * 2 ^ 63) ≤ shard.stateSize * basis * ((rings.map ringWeight).sum : Nat) := by
    intro rings
    induction rings with
    | nil => simp [totalReward]
    | cons ring rings ih =>
      have hfirst := allocationRingReward_mul_le basis shard.stateSize world ring shard.dataShards
      simp only [totalReward, map_cons, sum_cons] at ih ⊢
      push_cast at hfirst ih ⊢
      rw [add_mul, mul_add]
      exact add_le_add hfirst ih
  have hall := hrings shard.rings
  have hweight := ringWeight_sum_le hnodup hclamped
  have hpos : (0 : Int) < 2 ^ 63 := by positivity
  refine le_of_mul_le_mul_right ?_ hpos
  calc totalReward basis world shard.allocations * world * 2 ^ 63
      = totalReward basis world shard.allocations * (world * 2 ^ 63) := by ring
    _ ≤ (shard.stateSize * basis : Int) * ((shard.rings.map ringWeight).sum : Nat) := hall
    _ ≤ (shard.stateSize * basis : Int) * 2 ^ 63 := by
        refine mul_le_mul_of_nonneg_left ?_ (by positivity)
        exact_mod_cast hweight

theorem totalReward_append (basis world : Nat) (as bs : List RewardAllocation) :
    totalReward basis world (as ++ bs) =
      totalReward basis world as + totalReward basis world bs := by
  simp [totalReward]

/-- What is issued to the provers is the reward of all their allocations. -/
theorem calculate_sum (difficulty world units : Nat) (provers : List (List RewardAllocation)) :
    (calculate difficulty world units provers).sum =
      totalReward (pomwBasis difficulty world units) world provers.flatten := by
  induction provers with
  | nil => simp [calculate, totalReward]
  | cons allocations provers ih =>
    rw [flatten_cons, totalReward_append, ← ih]
    by_cases hworld : world = 0
    · have hzero : totalReward (pomwBasis difficulty world units) world allocations = 0 := by
        refine sum_eq_zero fun reward hreward => ?_
        obtain ⟨_, -, rfl⟩ := mem_map.mp hreward
        exact allocationRingReward_of_zero (inr (inr (inl hworld)))
      simp [calculate, hworld ▸ hzero, hworld]
    · simp [calculate, hworld]

/-- Every shard's part, multiplied out. -/
theorem totalReward_mul_le {shards : List RewardShard}
    (hrings : ∀ shard ∈ shards, shard.rings.Nodup ∧ (shard.rings.filter (62 ≤ ·)).length ≤ 2) :
    totalReward basis world (shards.flatMap allocations) * world ≤
      ((shards.map stateSize).sum : Nat) * basis := by
  induction shards with
  | nil => simp [totalReward]
  | cons shard shards ih =>
    have hfirst := (hrings shard mem_cons_self)
    have hshard := @total_mul_le basis world shard hfirst.1 hfirst.2
    have hrest := ih fun other hother => hrings other (mem_cons_of_mem shard hother)
    rw [flatMap_cons, totalReward_append, map_cons, sum_cons]
    push_cast at hrest ⊢
    rw [add_mul, add_mul]
    exact add_le_add hshard hrest

/-- The rewards of all shards stay within the basis. -/
theorem totalReward_le_basis {shards : List RewardShard}
    (hsizes : (shards.map stateSize).sum ≤ world)
    (hrings : ∀ shard ∈ shards, shard.rings.Nodup ∧ (shard.rings.filter (62 ≤ ·)).length ≤ 2) :
    totalReward basis world (shards.flatMap allocations) ≤ basis := by
  rcases Nat.eq_zero_or_pos world with hworld | hworld
  · have hzero : totalReward basis world (shards.flatMap allocations) = 0 := by
      refine sum_eq_zero fun reward hreward => ?_
      obtain ⟨_, -, rfl⟩ := mem_map.mp hreward
      exact allocationRingReward_of_zero (inr (inr (inl hworld)))
    rw [hzero]
    exact Int.natCast_nonneg basis
  · have hpos : (0 : Int) < world := by exact_mod_cast hworld
    refine le_of_mul_le_mul_right ?_ hpos
    calc totalReward basis world (shards.flatMap allocations) * world
        ≤ ((shards.map stateSize).sum : Nat) * basis := totalReward_mul_le hrings
      _ ≤ world * basis := by
          refine mul_le_mul_of_nonneg_right ?_ (Int.natCast_nonneg basis)
          exact_mod_cast hsizes
      _ = basis * world := mul_comm _ _

/-- **Rewards stay within the basis**, as long as two rings at most of a shard are past the clamp.
A reward falls neither with an earlier ring, nor with fewer data shards, nor with a larger state. -/
theorem rewards_within_basis {difficulty world units : Nat} {shards : List RewardShard}
    (hsizes : (shards.map stateSize).sum ≤ world)
    (hrings : ∀ shard ∈ shards, shard.rings.Nodup ∧ (shard.rings.filter (62 ≤ ·)).length ≤ 2) :
    totalReward (pomwBasis difficulty world units) world
        (shards.flatMap allocations) ≤ pomwBasis difficulty world units ∧
      (∀ provers : List (List RewardAllocation), provers.flatten.Perm (shards.flatMap allocations) →
          (calculate difficulty world units provers).sum ≤ pomwBasis difficulty world units) ∧
      ∀ (basis size size' world : Int) (ring ring' data data' : Nat),
        (ring' ≤ ring → allocationRingReward basis size world ring data ≤
          allocationRingReward basis size world ring' data) ∧
        (0 < data' → data' ≤ data → allocationRingReward basis size world ring data ≤
          allocationRingReward basis size world ring data') ∧
        (size ≤ size' → allocationRingReward basis size world ring data ≤
          allocationRingReward basis size' world ring data) := by
  have hbound := @totalReward_le_basis (pomwBasis difficulty world units) world shards hsizes hrings
  refine ⟨hbound, ?_, ?_⟩
  · intro provers hprovers
    rw [calculate_sum, totalReward, (hprovers.map _).sum_eq]
    exact hbound
  · intro basis size size' world ring ring' data data'
    refine ⟨?_, ?_, ?_⟩
    · intro hring
      rcases Nat.eq_zero_or_pos data with rfl | hdata
      · simp [allocationRingReward]
      · exact allocationRingReward_mono le_rfl hring le_rfl hdata
    · intro hpos hdata
      exact allocationRingReward_mono le_rfl le_rfl hdata hpos
    · intro hsize
      rcases Nat.eq_zero_or_pos data with rfl | hdata
      · simp [allocationRingReward]
      · exact allocationRingReward_mono hsize le_rfl le_rfl hdata

/-- Two shards that share a world, with the clamp reached on one of them. -/
theorem clamped_pair_within_basis : totalReward (pomwBasis 50000 100 quilTokenUnits) 100
      ([⟨60, 4, [0, 1, 62, 63]⟩, ⟨40, 1, [0]⟩].flatMap allocations) ≤
        pomwBasis 50000 100 quilTokenUnits :=
  (rewards_within_basis (by decide) (by decide)).1

/-- With every ring of a world of one byte rewarded, the rewards exceed the basis; and a shard with
no data shards earns less than one with one. -/
theorem clamped_rings_exceed_basis :
    (¬ ∀ (difficulty world units : Nat) (shards : List RewardShard),
      (shards.map stateSize).sum ≤ world →
      (∀ shard ∈ shards, shard.rings.Nodup ∧ ∀ ring ∈ shard.rings, ring < 256) →
        totalReward (pomwBasis difficulty world units) world
          (shards.flatMap allocations) ≤ pomwBasis difficulty world units) ∧
      allocationRingReward 1600 1 1 0 0 < allocationRingReward 1600 1 1 0 1 := by
  refine ⟨fun hall => ?_, by decide +kernel⟩
  have hrings : ∀ shard ∈ [(⟨1, 1, range 256⟩ : RewardShard)],
      shard.rings.Nodup ∧ ∀ ring ∈ shard.rings, ring < 256 := by
    intro shard hshard
    rw [mem_singleton.mp hshard]
    dsimp only
    exact ⟨nodup_range, fun ring hring => mem_range.mp hring⟩
  have hle := hall 0 1 quilTokenUnits _ (le_refl 1) hrings
  revert hle
  decide +kernel

end Pricing

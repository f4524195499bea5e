import QuilNode.Basic
import QuilNode.Lib.Results

/-!
# Fee arithmetic (`quil-execution/src/pricing.rs`)

The PoMW basis is a fixed numerator over the world's size, with a root whose degree grows with the
difficulty.  What `added` bytes cost is how far they push the basis down, squared, and at least
one unit a byte.  A fee is charged per unit of cost, rounded up, so a budget for every payload up
to a limit adds the largest rounding to the baseline of the limit.
-/

namespace Pricing

open Results Nat Int

def pomwScaleBits : Nat := 53
def pomwNumerator : Nat := 1125899906842624
def quilTokenUnits : Nat := 8000000000
def mainnetNetwork : Nat := 0
def nonMainnetUnitsPerByte : Nat := 1

/-- The loop `while difflog >= 10_000`, at most `fuel` rounds. -/
def countGenerations : Nat → Nat → Nat
  | 0, _ => 0
  | fuel + 1, difflog => if difflog < 10000 then 0 else countGenerations fuel (difflog / 10000) + 1

/-- How often a difficulty can be divided by 10000. -/
def generation (difficulty : Nat) : Nat := countGenerations difficulty difficulty

/-- `pomw_basis`. -/
def pomwBasis (difficulty worldStateBytes units : Nat) : Nat :=
  if worldStateBytes = 0 then 0
  else if generation difficulty = 0 then pomwNumerator / worldStateBytes * units
  else
    let degree := 2 ^ generation difficulty
    let scaled := (pomwNumerator <<< (degree * pomwScaleBits)) / worldStateBytes
    (Nat.nthRoot degree scaled * units) >>> pomwScaleBits

/-- `get_baseline_fee`. -/
def getBaselineFee (difficulty worldStateBytes totalAdded units : Nat) : Nat :=
  let current := pomwBasis difficulty worldStateBytes units
  let affected := pomwBasis difficulty (worldStateBytes + totalAdded) units
  let delta : Int := current - affected
  if worldStateBytes = 0 then totalAdded
  else
    let lhs := (delta * delta).toNat / worldStateBytes
    if totalAdded ≤ lhs then lhs else totalAdded

/-- `fee_multiplier_for_cost`; the cost is a `BigInt`. -/
def feeMultiplierForCost (net difficulty worldStateBytes : Nat) (cost : Int) (vote : Nat) :
    Result Nat :=
  if cost = 0 then .ok 0
  else do
    ensure (0 ≤ cost ∧ cost < 2 ^ 64 ∧ worldStateBytes + cost < 2 ^ 64)
      (.invalidArgument "fee cost is outside the supported u64 state-size range")
    if net ≠ mainnetNetwork then return nonMainnetUnitsPerByte * vote
    else
      let baseline := getBaselineFee difficulty worldStateBytes cost.toNat quilTokenUnits
      let perUnit := (baseline + cost.toNat - 1) / cost.toNat
      return perUnit * vote

/-- `fee_budget_for_payload_limit`. -/
def feeBudgetForPayloadLimit (net difficulty worldStateBytes payloadLimit vote : Nat) :
    Result Nat :=
  if payloadLimit = 0 then .ok 0
  else do
    ensure (worldStateBytes + payloadLimit < 2 ^ 64)
      (.invalidArgument "fee payload limit exceeds state-size range")
    if net ≠ mainnetNetwork then return payloadLimit * nonMainnetUnitsPerByte * vote
    else
      let baseline := getBaselineFee difficulty worldStateBytes payloadLimit quilTokenUnits
      return (baseline + (payloadLimit - 1)) * vote

theorem pomwBasis_antitone (difficulty units : Nat) {world world' : Nat} (hpos : 0 < world)
    (hle : world ≤ world') : pomwBasis difficulty world' units ≤ pomwBasis difficulty world units := by
  have hpos' : 0 < world' := hpos.trans_le hle
  simp only [pomwBasis, if_neg hpos.ne', if_neg hpos'.ne']
  by_cases hgeneration : generation difficulty = 0
  · simp only [if_pos hgeneration]
    exact mul_le_mul_right units (div_le_div_left hle hpos)
  have hscaled := div_le_div_left (a := pomwNumerator <<< (2 ^ generation difficulty *
    pomwScaleBits)) hle hpos
  have hpow := (Nat.two_pow_pos (generation difficulty)).ne'
  have hroot := (le_nthRoot_iff hpow).mpr ((pow_nthRoot_le (.inl hpow)).trans hscaled)
  simp only [if_neg hgeneration, Nat.shiftRight_eq_div_pow]
  exact Nat.div_le_div_right (Nat.mul_le_mul_right units hroot)

/-- The squared fall of the basis. -/
theorem getBaselineFee_of_pos (difficulty units added : Nat) {world : Nat} (hpos : 0 < world) :
    getBaselineFee difficulty world added units =
      max ((pomwBasis difficulty world units - pomwBasis difficulty (world + added) units) ^ 2 / world)
        added := by
  have hfall := pomwBasis_antitone difficulty units hpos (le_add_right world added)
  have hdelta : ((pomwBasis difficulty world units : Int) -
      pomwBasis difficulty (world + added) units) =
      (pomwBasis difficulty world units - pomwBasis difficulty (world + added) units : Nat) := by
    omega
  have hsquare : ∀ n : Nat, ((n : Int) * n).toNat = n ^ 2 := fun n => by
    rw [← natCast_mul, toNat_natCast, sq]
  simp only [getBaselineFee, if_neg hpos.ne', hdelta, hsquare]
  split
  · rename_i hadded
    exact (max_eq_left hadded).symm
  · rename_i hadded
    exact (max_eq_right (Nat.le_of_not_le hadded)).symm

theorem getBaselineFee_mono (difficulty world units : Nat) {added added' : Nat}
    (hle : added ≤ added') :
    getBaselineFee difficulty world added units ≤ getBaselineFee difficulty world added' units := by
  rcases Nat.eq_zero_or_pos world with rfl | hpos
  · simpa [getBaselineFee] using hle
  have hfall := pomwBasis_antitone difficulty units (Nat.add_pos_left hpos added)
    (Nat.add_le_add_left hle world)
  rw [getBaselineFee_of_pos _ _ _ hpos, getBaselineFee_of_pos _ _ _ hpos]
  have hsquare := Nat.pow_le_pow_left (Nat.sub_le_sub_left hfall
    (pomwBasis difficulty world units)) 2
  exact max_le_max (Nat.div_le_div_right hsquare) hle

/-- Rounding a price per unit up adds less than one unit's worth to the charge. -/
theorem ceil_mul_le (baseline : Nat) {cost : Nat} (hcost : 1 ≤ cost) :
    baseline ≤ (baseline + cost - 1) / cost * cost ∧
      (baseline + cost - 1) / cost * cost ≤ baseline + (cost - 1) := by
  have hsplit := div_add_mod (baseline + cost - 1) cost
  have hmod := mod_lt (baseline + cost - 1) hcost
  rw [mul_comm] at hsplit
  omega

/-- The multiplier of a cost that fits, by network. -/
theorem feeMultiplierForCost_ok {net difficulty world vote cost : Nat} (hcost : 1 ≤ cost)
    (hfit : world + cost < 2 ^ 64) :
    feeMultiplierForCost net difficulty world cost vote =
      .ok (if net ≠ mainnetNetwork then nonMainnetUnitsPerByte * vote
        else (getBaselineFee difficulty world cost quilTokenUnits + cost - 1) / cost * vote) := by
  have hzero : ((cost : Nat) : Int) ≠ 0 := by omega
  have hcheck : (0 : Int) ≤ cost ∧ (cost : Int) < 2 ^ 64 ∧ (world : Int) + cost < 2 ^ 64 := by omega
  simp only [feeMultiplierForCost, if_neg hzero, ensure, if_pos hcheck, toNat_natCast]
  split <;> rfl

theorem feeBudgetForPayloadLimit_ok {net difficulty world vote limit : Nat} (hlimit : 1 ≤ limit)
    (hfit : world + limit < 2 ^ 64) :
    feeBudgetForPayloadLimit net difficulty world limit vote =
      .ok (if net ≠ mainnetNetwork then limit * nonMainnetUnitsPerByte * vote
        else (getBaselineFee difficulty world limit quilTokenUnits + (limit - 1)) * vote) := by
  have hzero : limit ≠ 0 := by omega
  simp only [feeBudgetForPayloadLimit, if_neg hzero, ensure, if_pos hfit]
  split <;> rfl

/-- **A budget for a payload limit pays for every payload within it.**  With vote one, the
multiplier is the least price that covers the baseline; the basis falls with the world's size. -/
theorem payload_budget_covers (net difficulty world limit vote : Nat) (hlimit : 1 ≤ limit)
    (hfit : world + limit < 2 ^ 64) :
    (∃ budget, feeBudgetForPayloadLimit net difficulty world limit vote = .ok budget ∧
      ∀ cost : Nat, 1 ≤ cost → cost ≤ limit → ∃ multiplier,
        feeMultiplierForCost net difficulty world cost vote = .ok multiplier ∧
        multiplier * cost ≤ budget ∧
        (net = mainnetNetwork → vote = 1 →
          IsLeast {m : Int | (getBaselineFee difficulty world cost quilTokenUnits : Int) ≤ m * cost}
            multiplier)) ∧
    (∀ units, AntitoneOn (fun w => pomwBasis difficulty w units) (Set.Ioi 0)) ∧
    ∀ units, Monotone fun added => getBaselineFee difficulty world added units := by
  refine ⟨⟨_, feeBudgetForPayloadLimit_ok hlimit hfit, fun cost hcost hle => ?_⟩, ?_, ?_⟩
  · refine ⟨_, feeMultiplierForCost_ok hcost (by omega), ?_, ?_⟩
    · split
      · rw [mul_comm limit, mul_assoc nonMainnetUnitsPerByte, mul_assoc, mul_comm limit]
        exact mul_le_mul_left _ (mul_le_mul_left vote hle)
      · -- rounding costs less than `cost`, and the baseline of the limit is at least as high
        have hround := (ceil_mul_le (getBaselineFee difficulty world cost quilTokenUnits) hcost).2
        have hbaseline := getBaselineFee_mono difficulty world quilTokenUnits hle
        rw [mul_right_comm]
        exact mul_le_mul_right vote (by omega)
    · rintro rfl rfl
      simp only [ne_eq, not_true_eq_false, if_false, mul_one]
      have hround := ceil_mul_le (getBaselineFee difficulty world cost quilTokenUnits) hcost
      constructor
      · show (_ : Int) ≤ _
        exact_mod_cast hround.1
      · intro m hm
        by_contra hlt
        have hsucc : (m + 1) * cost ≤
            ((getBaselineFee difficulty world cost quilTokenUnits + cost - 1) / cost : Nat) * cost :=
          mul_le_mul_of_nonneg_right (by omega) (by omega)
        have hm : (getBaselineFee difficulty world cost quilTokenUnits : Int) ≤ m * cost := hm
        rw [add_mul, one_mul] at hsucc
        omega
  · exact fun units world' hpos world'' _ hle => pomwBasis_antitone difficulty units hpos hle
  · exact fun units added added' hle => getBaselineFee_mono difficulty world units hle

/-- A megabyte's budget on a gigabyte world pays for any kilobyte in it. -/
theorem megabyte_budget_pays : 1 ≤ (2 ^ 20 : Nat) ∧ 2 ^ 30 + 2 ^ 20 < 2 ^ 64 ∧
      ∃ budget, feeBudgetForPayloadLimit mainnetNetwork 50000 (2 ^ 30) (2 ^ 20) 1 = .ok budget ∧
        ∃ multiplier, feeMultiplierForCost mainnetNetwork 50000 (2 ^ 30) (2 ^ 10 : Nat) 1 =
          .ok multiplier ∧ multiplier * 2 ^ 10 ≤ budget := by
  obtain ⟨⟨budget, hbudget, hcovers⟩, -⟩ := payload_budget_covers mainnetNetwork 50000 (2 ^ 30)
    (2 ^ 20) 1 (by decide) (by decide)
  obtain ⟨multiplier, hmultiplier, hle, -⟩ := hcovers (2 ^ 10) (by decide) (by decide)
  exact ⟨by decide, by decide, budget, hbudget, multiplier, hmultiplier, hle⟩

end Pricing

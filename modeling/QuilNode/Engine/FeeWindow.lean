import QuilNode.Basic
import QuilNode.Lib.Run
import QuilNode.Lib.Store

/-!
# The fee multiplier (`quil-engine/src/fees.rs`)

The next fee multiplier is the mean of the last votes.  The manager keeps a window of votes for
each filter with their sum, a `u64` that wraps: it is the true sum modulo `2^64` at every point,
so the mean is exact just while the true sum is below `2^64`.
-/

namespace Fees

open List Store Run UInt64 Nat

def maxWindowSize : Nat := 360
def defaultFeeMultiplier : UInt64 := 100

structure FeeVote where
  frameNumber : UInt64
  feeMultiplierVote : UInt64
  deriving DecidableEq

/-- The time of the last vote is left out; only `prune_old_data` reads it. -/
structure FilterFeeData where
  votes : List FeeVote
  sumVotes : UInt64
  deriving DecidableEq

def FilterFeeData.new : FilterFeeData := ⟨[], 0⟩

structure InMemoryDynamicFeeManager where
  filterData : Store Bytes fun _ => FilterFeeData
  windowSize : Nat

namespace InMemoryDynamicFeeManager

def new (windowSize : Nat) : InMemoryDynamicFeeManager := ⟨empty, min windowSize maxWindowSize⟩

/-- Push a vote, and drop the oldest one above the cap. -/
def pushVote (windowSize : Nat) (data : FilterFeeData) (vote : FeeVote) : FilterFeeData :=
  match data.votes ++ [vote] with
  | old :: rest =>
    if windowSize < rest.length + 1 then
      ⟨rest, data.sumVotes + vote.feeMultiplierVote - old.feeMultiplierVote⟩
    else ⟨old :: rest, data.sumVotes + vote.feeMultiplierVote⟩
  | [] => data

def addFrameFeeVote (m : InMemoryDynamicFeeManager) (filter : Bytes) (vote : FeeVote) :
    Result Unit × InMemoryDynamicFeeManager :=
  let data := (m.filterData filter).getD .new
  let pushed := { m with filterData := m.filterData.write filter (pushVote m.windowSize data vote) }
  match data.votes.getLast? with
  | some last =>
    if vote.frameNumber ≤ last.frameNumber then
      (.error (.invalidArgument
        s!"frame {vote.frameNumber} is not newer than last frame {last.frameNumber}"),
        { m with filterData := m.filterData.write filter data })
    else (.ok (), pushed)
  | none => (.ok (), pushed)

def getNextFeeMultiplier (m : InMemoryDynamicFeeManager) (filter : Bytes) : UInt64 :=
  match m.filterData filter with
  | some data =>
    if data.votes ≠ [] then data.sumVotes / UInt64.ofNat data.votes.length else defaultFeeMultiplier
  | none => defaultFeeMultiplier

/-- Take back the votes of later frames; the answer is their number. -/
def rewindToFrame (m : InMemoryDynamicFeeManager) (filter : Bytes) (frameNumber : UInt64) :
    Nat × InMemoryDynamicFeeManager :=
  match m.filterData filter with
  | none => (0, m)
  | some data =>
    let keepIndex := data.votes.findIdx fun v => frameNumber < v.frameNumber
    let removed := data.votes.drop keepIndex
    let kept : FilterFeeData := ⟨data.votes.take keepIndex,
      removed.foldl (fun sum v => sum - v.feeMultiplierVote) data.sumVotes⟩
    if removed.length = 0 then (0, m)
    else (removed.length, { m with filterData := m.filterData.write filter kept })

end InMemoryDynamicFeeManager

open InMemoryDynamicFeeManager

inductive FeeCall where
  | vote (filter : Bytes) (vote : FeeVote)
  | rewind (filter : Bytes) (frameNumber : UInt64)

/-- One call, with what it answers. -/
def feeStep (m : InMemoryDynamicFeeManager) :
    FeeCall → (Result Unit ⊕ Nat) × InMemoryDynamicFeeManager
  | .vote filter vote => (.inl (m.addFrameFeeVote filter vote).1, (m.addFrameFeeVote filter vote).2)
  | .rewind filter frameNumber =>
    (.inr (m.rewindToFrame filter frameNumber).1, (m.rewindToFrame filter frameNumber).2)

/-- The votes kept for a filter. -/
def keptVotes (m : InMemoryDynamicFeeManager) (filter : Bytes) : List FeeVote :=
  ((m.filterData filter).getD .new).votes

/-- What the votes add up to. -/
def trueSum (votes : List FeeVote) : Nat := (votes.map fun v => v.feeMultiplierVote.toNat).sum

/-- The mean of the votes, rounded down, and the default of none. -/
def mean (votes : List FeeVote) : Nat :=
  if votes = [] then defaultFeeMultiplier.toNat else trueSum votes / votes.length

/-- The invariant of a window: frames increase, the cap holds, and the sum is the true one
modulo `2^64`. -/
structure Windowed (windowSize : Nat) (data : FilterFeeData) : Prop where
  increasing : data.votes.Pairwise fun v w => v.frameNumber < w.frameNumber
  capped : data.votes.length ≤ windowSize
  sum : data.sumVotes.toNat = trueSum data.votes % 2 ^ 64

variable {windowSize : Nat} {data : FilterFeeData}

theorem trueSum_append (votes votes' : List FeeVote) :
    trueSum (votes ++ votes') = trueSum votes + trueSum votes' := by
  simp [trueSum]

theorem Windowed.pushVote (h : Windowed windowSize data) {vote : FeeVote}
    (hnewer : ∀ v ∈ data.votes, v.frameNumber < vote.frameNumber) :
    Windowed windowSize (pushVote windowSize data vote) := by
  have hincreasing : (data.votes ++ [vote]).Pairwise fun v w => v.frameNumber < w.frameNumber :=
    pairwise_append.mpr ⟨h.increasing, pairwise_singleton _ _, fun v hv w hw =>
      mem_singleton.mp hw ▸ hnewer v hv⟩
  have hsum : (data.sumVotes + vote.feeMultiplierVote).toNat =
      trueSum (data.votes ++ [vote]) % 2 ^ 64 := by
    rw [UInt64.toNat_add, h.sum, trueSum_append, Nat.mod_add_mod]
    simp [trueSum]
  have hlength : (data.votes ++ [vote]).length ≤ windowSize + 1 := by
    simpa using h.capped
  unfold InMemoryDynamicFeeManager.pushVote
  generalize data.votes ++ [vote] = votes at *
  match votes with
  | [] => exact h
  | old :: rest =>
    dsimp only
    split
    · refine ⟨hincreasing.of_cons, le_of_succ_le_succ hlength, ?_⟩
      have hold := old.feeMultiplierVote.toNat_lt
      rw [UInt64.toNat_sub, hsum]
      simp only [trueSum, map_cons, sum_cons]
      omega
    · rename_i hfits
      exact ⟨hincreasing, Nat.le_of_not_lt hfits, hsum⟩

/-- Taking votes back takes them out of the sum. -/
theorem sum_removed (removed : List FeeVote) (kept : Nat) (sum : UInt64)
    (h : sum.toNat = (kept + trueSum removed) % 2 ^ 64) :
    (removed.foldl (fun sum v => sum - v.feeMultiplierVote) sum).toNat = kept % 2 ^ 64 := by
  induction removed generalizing sum with
  | nil => simpa [trueSum] using h
  | cons v removed ih =>
    refine ih (sum - v.feeMultiplierVote) ?_
    have hv := v.feeMultiplierVote.toNat_lt
    rw [UInt64.toNat_sub, h]
    simp only [trueSum, map_cons, sum_cons]
    omega

/-- All windows of a manager keep the invariant, with the size it was made for. -/
def AllWindowed (windowSize : Nat) (m : InMemoryDynamicFeeManager) : Prop :=
  m.windowSize = min windowSize maxWindowSize ∧
    ∀ filter, Windowed m.windowSize ((m.filterData filter).getD .new)

variable {m : InMemoryDynamicFeeManager}

theorem AllWindowed.write (h : AllWindowed windowSize m) (filter : Bytes)
    (hdata : Windowed m.windowSize data) :
    AllWindowed windowSize { m with filterData := m.filterData.write filter data } := by
  refine ⟨h.1, fun filter' => ?_⟩
  dsimp only
  rw [write_apply]
  split
  · exact hdata
  · exact h.2 filter'

theorem AllWindowed.step (h : AllWindowed windowSize m) (call : FeeCall) :
    AllWindowed windowSize (feeStep m call).2 := by
  cases call with
  | vote filter =>
    have hdata := h.2 filter
    simp only [feeStep, addFrameFeeVote]
    cases hlast : ((m.filterData filter).getD .new).votes.getLast? with
    | none =>
      refine h.write filter (hdata.pushVote fun v hv => ?_)
      rw [getLast?_eq_none_iff.mp hlast] at hv
      cases hv
    | some last =>
      dsimp only
      split
      · exact h.write filter hdata
      rename_i hnewer
      refine h.write filter (hdata.pushVote fun v hv => ?_)
      -- the last vote of the window has its newest frame
      obtain ⟨_, hinit⟩ := getLast?_eq_some_iff.mp hlast
      have hincreasing := hdata.increasing
      rw [hinit] at hincreasing hv
      have hle : v.frameNumber ≤ last.frameNumber := by
        rcases mem_append.mp hv with hv | hv
        · exact UInt64.le_of_lt ((pairwise_append.mp hincreasing).2.2 v hv last (by simp))
        · exact mem_singleton.mp hv ▸ UInt64.le_refl _
      exact UInt64.lt_of_le_of_lt hle (UInt64.not_le.mp hnewer)
  | rewind filter =>
    simp only [feeStep, rewindToFrame]
    cases hfound : m.filterData filter with
    | none => exact h
    | some =>
      have hdata := h.2 filter
      rw [hfound] at hdata
      dsimp only
      split
      · exact h
      refine h.write filter ⟨hdata.increasing.sublist (take_sublist _ _),
        (length_take_le' _ _).trans hdata.capped, sum_removed _ _ _ ?_⟩
      rw [← trueSum_append, take_append_drop]
      exact hdata.sum

theorem allWindowed_run (windowSize : Nat) (calls : List FeeCall) :
    AllWindowed windowSize (final feeStep (new windowSize) calls) :=
  state_invariant feeStep (AllWindowed windowSize) (fun _ => True)
    ⟨rfl, fun _ => ⟨Pairwise.nil, zero_le _, rfl⟩⟩ (fun _ call h _ => h.step call) calls
    fun _ _ => trivial

/-- A multiplier that is the floor of the mean of the votes lies between two of them. -/
theorem between_of_mean {votes : List FeeVote} (hne : votes ≠ []) {next : UInt64}
    (h : next.toNat = trueSum votes / votes.length) :
    (∃ v ∈ votes, v.feeMultiplierVote ≤ next) ∧ ∃ v ∈ votes, next ≤ v.feeMultiplierVote := by
  have hlength : 0 < votes.length := length_pos_iff.mpr hne
  have hconst : ∀ n, (votes.map fun _ => n).sum = votes.length * n := by simp
  constructor
  · obtain ⟨v, hv, hlt⟩ := exists_lt_of_sum_lt (l := votes) (fun v => v.feeMultiplierVote.toNat)
      (fun _ => next.toNat + 1) (by
        rw [hconst, h]
        exact lt_mul_div_succ _ hlength)
    exact ⟨v, hv, le_iff_toNat_le.mpr (le_of_lt_succ hlt)⟩
  · obtain ⟨v, hv, hle⟩ := exists_le_of_sum_le (l := votes) hne (f := fun _ => next.toNat)
      (g := fun v => v.feeMultiplierVote.toNat) (by
        rw [hconst, h]
        exact mul_div_le _ _)
    exact ⟨v, hv, le_iff_toNat_le.mpr hle⟩

/-- **The next fee multiplier** is the floor of the mean of the window's votes exactly as long as
they add up to less than `2^64`. -/
theorem fee_multiplier_is_mean_iff (windowSize : Nat) (calls : List FeeCall) (filter : Bytes) :
    let m := final feeStep (InMemoryDynamicFeeManager.new windowSize) calls
    let votes := keptVotes m filter
    votes.Pairwise (fun v w => v.frameNumber < w.frameNumber) ∧ votes.length ≤ windowSize ∧
      ((m.getNextFeeMultiplier filter).toNat = mean votes ↔ trueSum votes < 2 ^ 64) ∧
      (trueSum votes < 2 ^ 64 → votes ≠ [] →
        (∃ v ∈ votes, v.feeMultiplierVote ≤ m.getNextFeeMultiplier filter) ∧
          ∃ v ∈ votes, m.getNextFeeMultiplier filter ≤ v.feeMultiplierVote) := by
  intro m votes
  have hrun := allWindowed_run windowSize calls
  have hdata : Windowed m.windowSize ((m.filterData filter).getD .new) := hrun.2 filter
  have hcap : votes.length ≤ min windowSize 360 := hdata.capped.trans_eq hrun.1
  have hmean : (m.getNextFeeMultiplier filter).toNat = if votes = [] then defaultFeeMultiplier.toNat
      else trueSum votes % 2 ^ 64 / votes.length := by
    simp only [getNextFeeMultiplier, votes, keptVotes] at hcap ⊢
    cases hfound : m.filterData filter with
    | none => rfl
    | some =>
      rw [hfound, Option.getD_some] at hcap hdata
      simp only [Option.getD_some, ite_not]
      split
      · rfl
      · rw [UInt64.toNat_div, hdata.sum, UInt64.toNat_ofNat_of_lt' (by simp [UInt64.size]; omega)]
  have hiff : (m.getNextFeeMultiplier filter).toNat = mean votes ↔ trueSum votes < 2 ^ 64 := by
    rw [hmean, mean]
    split
    · rename_i hempty
      simp [hempty, trueSum]
    rename_i hne
    refine ⟨fun hsame => ?_, fun hlt => by rw [mod_eq_of_lt hlt]⟩
    by_contra hover
    -- what is lost is worth at least one for each vote
    have hlost : trueSum votes % 2 ^ 64 + votes.length ≤ trueSum votes := by omega
    have hle := Nat.div_le_div_right (c := votes.length) hlost
    rw [add_div_right _ (length_pos_iff.mpr hne)] at hle
    omega
  refine ⟨hdata.increasing, hcap.trans (min_le_left _ _), hiff, fun hlt hne => ?_⟩
  exact between_of_mean hne (by rw [hiff.mpr hlt, mean, if_neg hne])

/-- Two votes of `2^63` average to zero. -/
theorem two_large_votes_average_to_zero :
    let m := final feeStep (InMemoryDynamicFeeManager.new 360)
      [.vote [7] ⟨1, 2 ^ 63⟩, .vote [7] ⟨2, 2 ^ 63⟩]
    m.getNextFeeMultiplier [7] = 0 ∧ mean (keptVotes m [7]) = 2 ^ 63 := by
  decide +kernel

end Fees

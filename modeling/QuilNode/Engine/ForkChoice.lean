import QuilNode.Basic

/-!
# Fork choice (`quil-engine/src/fork_choice.rs`)

A replica extends the branch with the best score, and stays with its previous choice unless a
branch beats it by more than `epsilon`.  A previous choice outside the list is an incumbent of
score zero: where no branch scores more than `epsilon` it is what the scan returns.
-/

namespace ForkChoice

open List

/-- `SCALE`. -/
def scale : UInt64 := 0xFFFFFFFFFFFFFFFF

structure Frame where
  distance : Int
  seniority : UInt64
  proverAddress : Bytes
  deriving DecidableEq

structure Branch where
  frames : List Frame
  deriving DecidableEq

structure Params where
  rMax : Int
  wrNumer : UInt64
  wpNumer : UInt64
  wDenom : UInt64
  alNumer : UInt64
  alDenom : UInt64
  blendWindow : Nat
  betaNumer : UInt64
  betaDenom : UInt64
  epsilon : UInt64

def Params.defaultParams : Params :=
  { rMax := scale.toNat, wrNumer := 7, wpNumer := 3, wDenom := 10, alNumer := 9, alDenom := 10,
    blendWindow := 5, betaNumer := 1, betaDenom := 10, epsilon := 0 }

def clamp (x lo hi : UInt64) : UInt64 :=
  if x < lo then lo else if hi < x then hi else x

/-- Divisions truncate.  The code panics where a denominator is zero; `tdiv` is zero there, and the
results below hold for it as well. -/
def rhoScaled (rank rMax : Int) : UInt64 :=
  let result := ((rMax - rank) * scale.toNat).tdiv rMax
  if result < 0 then 0
  else if scale.toNat < result then scale
  else UInt64.ofNat result.toNat

def branchScore (br : Branch) (cfg : Params) : Int :=
  if br.frames = [] then 0
  else
    let raw : Int := br.frames.foldl (fun raw frame =>
      let rho : Int := (rhoScaled frame.distance cfg.rMax).toNat
      let pi : Int := (clamp frame.seniority 0 scale).toNat
      let frameScore := (cfg.wrNumer.toNat * rho + cfg.wpNumer.toNat * pi).tdiv cfg.wDenom.toNat
      (raw * cfg.alNumer.toNat).tdiv cfg.alDenom.toNat + frameScore) 0
    let m := min cfg.blendWindow br.frames.length
    if m = 0 then 0
    else
      let active := (br.frames.drop (br.frames.length - m)).filter (0 < ·.seniority)
      let unique : Int := (active.map Frame.proverAddress).dedup.length
      let blendScaled := (unique * scale.toNat).tdiv m
      let divBonus := scale.toNat + (cfg.betaNumer.toNat * blendScaled).tdiv cfg.betaDenom.toNat
      (raw * divBonus).tdiv scale.toNat

/-- The score of the branch at an index, and zero outside the list. -/
def scoreAt (branches : List Branch) (cfg : Params) (i : Nat) : Int :=
  (branches[i]?.map (branchScore · cfg)).getD 0

/-- One turn of the scan: a branch unseats the incumbent if it beats it by more than `epsilon`. -/
def consider (cfg : Params) (best : Nat × Int) (candidate : Branch × Nat) : Nat × Int :=
  let score := branchScore candidate.1 cfg
  if best.2 + cfg.epsilon.toNat < score then (candidate.2, score) else best

def forkChoice (branches : List Branch) (cfg : Params) (prevChoice : Nat) : Nat :=
  (branches.zipIdx.foldl (consider cfg) (prevChoice, scoreAt branches cfg prevChoice)).1

variable {branches : List Branch} {cfg : Params}

/-- The incumbent only changes for a branch that scores more than `epsilon` above it, and in the
end no branch does. -/
theorem scan_spec (candidates : List (Branch × Nat)) (best : Nat × Int) {out : Nat × Int}
    (hscan : candidates.foldl (consider cfg) best = out) :
    (out = best ∨ best.2 + cfg.epsilon.toNat < out.2 ∧
      ∃ c ∈ candidates, out = (c.2, branchScore c.1 cfg)) ∧
      ∀ c ∈ candidates, branchScore c.1 cfg ≤ out.2 + cfg.epsilon.toNat := by
  induction candidates generalizing best with
  | nil => exact ⟨.inl hscan.symm, fun c hc => absurd hc not_mem_nil⟩
  | cons c candidates ih =>
    obtain ⟨hfrom, hbelow⟩ := ih (consider cfg best c) hscan
    rw [forall_mem_cons]
    by_cases hbeats : best.2 + cfg.epsilon.toNat < branchScore c.1 cfg
    · have hturn : consider cfg best c = (c.2, branchScore c.1 cfg) := if_pos hbeats
      rw [hturn] at hfrom
      rcases hfrom with rfl | ⟨hmore, c', hc', rfl⟩
      · exact ⟨.inr ⟨hbeats, c, mem_cons_self, rfl⟩,
          Int.le_add_of_nonneg_right (Int.natCast_nonneg _), hbelow⟩
      · refine ⟨.inr ⟨?_, c', mem_cons_of_mem _ hc', rfl⟩, ?_, hbelow⟩ <;> dsimp only <;> omega
    · have hturn : consider cfg best c = best := if_neg hbeats
      rw [hturn] at hfrom
      rcases hfrom with rfl | ⟨hmore, c', hc', rfl⟩
      · exact ⟨.inl rfl, Int.not_lt.mp hbeats, hbelow⟩
      · refine ⟨.inr ⟨hmore, c', mem_cons_of_mem _ hc', rfl⟩, ?_, hbelow⟩
        omega

/-- The same of a fork choice, with the scores at the indices. -/
theorem forkChoice_spec (branches : List Branch) (cfg : Params) (prevChoice : Nat) {i : Nat}
    (hi : forkChoice branches cfg prevChoice = i) :
    (i = prevChoice ∨ i < branches.length ∧
      scoreAt branches cfg prevChoice + cfg.epsilon.toNat < scoreAt branches cfg i) ∧
      ∀ br ∈ branches, branchScore br cfg ≤ scoreAt branches cfg i + cfg.epsilon.toNat := by
  obtain ⟨hfrom, hbelow⟩ :=
    scan_spec branches.zipIdx (prevChoice, scoreAt branches cfg prevChoice) rfl
  unfold forkChoice at hi
  generalize branches.zipIdx.foldl (consider cfg) _ = out at hi hfrom hbelow
  subst hi
  have hall : ∀ br ∈ branches, branchScore br cfg ≤ out.2 + cfg.epsilon.toNat := fun br hbr => by
    obtain ⟨i, hi⟩ := getElem?_of_mem hbr
    exact hbelow (br, i) (mk_mem_zipIdx_iff_getElem?.mpr hi)
  rcases hfrom with rfl | ⟨hmore, c, hc, rfl⟩
  · exact ⟨.inl rfl, hall⟩
  have hget : branches[c.2]? = some c.1 := mk_mem_zipIdx_iff_getElem?.mp hc
  have hscore : scoreAt branches cfg c.2 = branchScore c.1 cfg := by simp [scoreAt, hget]
  rw [hscore]
  exact ⟨.inr ⟨(List.getElem?_eq_some_iff.mp hget).1, hmore⟩, hall⟩

/-- A choice in the list, the previous one or more than `epsilon` above it, with no branch more than
`epsilon` above it, chosen again. -/
structure StableChoice (branches : List Branch) (cfg : Params) (prevChoice i : Nat) : Prop where
  inRange : i < branches.length
  sticks : prevChoice < branches.length → i = prevChoice ∨
    scoreAt branches cfg prevChoice + cfg.epsilon.toNat < scoreAt branches cfg i
  optimal : ∀ br ∈ branches, branchScore br cfg ≤ scoreAt branches cfg i + cfg.epsilon.toNat
  stable : forkChoice branches cfg i = i

theorem scoreAt_le {bound : Int} (h : ∀ br ∈ branches, branchScore br cfg ≤ bound) {i : Nat}
    (hi : i < branches.length) : scoreAt branches cfg i ≤ bound := by
  simpa [scoreAt, hi] using h _ (getElem_mem hi)

/-- **Fork choice is stable** (one of the branches, optimal up to `epsilon`, chosen again) exactly
where the previous choice is in the list or some branch scores more than `epsilon`. -/
theorem forkChoice_stable_iff (branches : List Branch) (cfg : Params) (prevChoice : Nat) :
    StableChoice branches cfg prevChoice (forkChoice branches cfg prevChoice) ↔
      prevChoice < branches.length ∨ ∃ br ∈ branches, cfg.epsilon.toNat < branchScore br cfg := by
  generalize hi : forkChoice branches cfg prevChoice = i
  obtain ⟨hfrom, hbelow⟩ := forkChoice_spec branches cfg prevChoice hi
  have houtside : ¬ prevChoice < branches.length → scoreAt branches cfg prevChoice = 0 :=
    fun h => by simp [scoreAt, h]
  constructor
  · intro hstable
    by_contra hneither
    simp only [not_or, not_exists, not_and, Int.not_lt] at hneither
    rcases hfrom with rfl | ⟨hin, hmore⟩
    · exact hneither.1 hstable.inRange
    · have := scoreAt_le hneither.2 hin
      omega
  · intro hcond
    have hrange : i < branches.length := by
      rcases hfrom with rfl | ⟨hin, -⟩
      · by_contra hout
        obtain ⟨br, hbr, _⟩ := hcond.resolve_left hout
        have := hbelow br hbr
        omega
      · exact hin
    refine ⟨hrange, fun _ => hfrom.imp_right And.right, hbelow, ?_⟩
    rcases (forkChoice_spec branches cfg i rfl).1 with hsame | ⟨hin, hmore⟩
    · exact hsame
    · exact absurd (scoreAt_le hbelow hin) (Int.not_le.mpr hmore)

/-- One branch, far from the target with an evicted prover, scores zero, and the previous choice
five is chosen again. -/
theorem forkChoice_outside : forkChoice [⟨[⟨scale.toNat, 0, [1]⟩]⟩] .defaultParams 5 = 5 := by
  decide +kernel

end ForkChoice

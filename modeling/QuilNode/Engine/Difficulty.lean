import Mathlib

/-!
# The ASERT difficulty (`quil-engine/src/difficulty.rs`)

The next difficulty is the anchor's times a power of two, by how many half-lives the chain is ahead
of its schedule: the fraction of the exponent becomes a factor by a cubic polynomial, the whole
part a shift of a 64-bit word.  A shift that leaves the word drops its high bits, so the schedule
is followed as far as the value fits.
-/

namespace Difficulty

open UInt64

def idealFrameTime : Int := 10000
def halfLife : Int := 7200000
def minDifficulty : Nat := 50000
def bootstrapDifficulty : Nat := 50000
def radix : Int := 65536
def u64Max : Nat := 2 ^ 64 - 1

/-- The anchor's frame, the time of its parent and its difficulty. -/
structure AsertDifficultyAdjuster where
  anchorFrameNumber : UInt64
  anchorParentTime : Int64
  anchorDifficulty : UInt32

open AsertDifficultyAdjuster

/-- The signed word an integer wraps to. -/
def wrapI64 (x : Int) : Int := x.bmod (2 ^ 64)

/-- The approximation of `2 ^ (frac / 65536)`, before it is rounded to 16 bits. -/
def poly (frac : Nat) : Nat :=
  195766423245049 * frac + 971821376 * frac * frac + 5127 * frac * frac * frac + 1 <<< 47

def factor (frac : Nat) : Nat := 65536 + poly frac >>> 48

/-- The last two steps: Q16 to an integer, and the floor. -/
def floored (scaled : Nat) : Nat :=
  let scaled := scaled >>> 16
  if scaled < minDifficulty then minDifficulty else scaled

/-- From the Q16 exponent on.  No shift of an exponent is cut by the cast to `u32`. -/
def difficultyAt (anchorDifficulty : Nat) (exponent : Int) : Nat :=
  -- the arithmetic shift by 16 and the mask of the low 16 bits
  let shifts := exponent / 65536
  let frac := (exponent % 65536).toNat
  let scaled := anchorDifficulty * factor frac
  if shifts < 0 then
    let k := (-shifts).toNat
    floored (if 64 ≤ k then 0 else scaled >>> k)
  else if 48 < shifts ∧ 0 < anchorDifficulty then u64Max
  else
    let k := shifts.toNat
    if 64 ≤ k then u64Max else floored ((scaled <<< k) % 2 ^ 64)

namespace AsertDifficultyAdjuster

/-- The Q16 exponent; every signed operation wraps. -/
def exponent (a : AsertDifficultyAdjuster) (currentFrameNumber : UInt64) (currentTime : Int64) : Int :=
  let frameNumberDelta :=
    wrapI64 (wrapI64 currentFrameNumber.toNat - wrapI64 a.anchorFrameNumber.toNat)
  let timeDelta := wrapI64 (currentTime.toInt - a.anchorParentTime.toInt)
  let idealXDelta := wrapI64 (idealFrameTime * wrapI64 (frameNumberDelta + 1))
  let inner := wrapI64 (timeDelta - idealXDelta)
  let numerator := wrapI64 (-wrapI64 (inner * radix))
  numerator.tdiv halfLife

def getNextDifficulty (a : AsertDifficultyAdjuster) (currentFrameNumber : UInt64)
    (currentTime : Int64) : Nat :=
  if a.anchorDifficulty = 0 then bootstrapDifficulty
  else difficultyAt a.anchorDifficulty.toNat (a.exponent currentFrameNumber currentTime)

/-- How far the chain is ahead of its schedule, in milliseconds. -/
def lead (a : AsertDifficultyAdjuster) (frame : UInt64) (time : Int64) : Int :=
  idealFrameTime * (frame.toNat - a.anchorFrameNumber.toNat + 1) -
    (time.toInt - a.anchorParentTime.toInt)

end AsertDifficultyAdjuster

/-- The integers a signed word holds. -/
def InI64 (x : Int) : Prop := -2 ^ 63 ≤ x ∧ x < 2 ^ 63

instance (x : Int) : Decidable (InI64 x) := inferInstanceAs (Decidable (_ ∧ _))

/-- No signed operation of the exponent wraps. -/
structure NoWrap (a : AsertDifficultyAdjuster) (frame : UInt64) (time : Int64) : Prop where
  frames : InI64 (idealFrameTime * (frame.toNat - a.anchorFrameNumber.toNat + 1))
  elapsed : InI64 (time.toInt - a.anchorParentTime.toInt)
  scaled : InI64 (a.lead frame time * radix)
  negated : InI64 (-(a.lead frame time * radix))

theorem wrapI64_of_mem {x : Int} (h : InI64 x) : wrapI64 x = x :=
  Int.bmod_eq_of_le_mul_two (by have := h.1; push_cast; omega) (by have := h.2; push_cast; omega)

variable {a : AsertDifficultyAdjuster} {frame : UInt64} {time : Int64}

/-- Where nothing wraps, the exponent is the lead in half-lives. -/
theorem exponent_eq (h : NoWrap a frame time) :
    a.exponent frame time = (a.lead frame time * radix).tdiv halfLife := by
  obtain ⟨hframes, helapsed, hscaled, hnegated⟩ := h
  have hdelta : wrapI64 (wrapI64 frame.toNat - wrapI64 a.anchorFrameNumber.toNat) =
      (frame.toNat - a.anchorFrameNumber.toNat : Int) := by
    have hsub : wrapI64 (wrapI64 frame.toNat - wrapI64 a.anchorFrameNumber.toNat) =
        wrapI64 (frame.toNat - a.anchorFrameNumber.toNat : Int) := by
      rw [wrapI64, wrapI64, wrapI64, Int.bmod_sub_bmod, Int.sub_bmod_bmod]
      rfl
    rw [hsub]
    refine wrapI64_of_mem ?_
    simp only [InI64, idealFrameTime] at hframes ⊢
    omega
  have hone : InI64 (frame.toNat - a.anchorFrameNumber.toNat + 1 : Int) := by
    simp only [InI64, idealFrameTime] at hframes ⊢
    omega
  have hinner : InI64 (-a.lead frame time) := by
    simp only [InI64, radix] at hscaled hnegated ⊢
    omega
  have hlead : (time.toInt - a.anchorParentTime.toInt) -
      idealFrameTime * (frame.toNat - a.anchorFrameNumber.toNat + 1) = -a.lead frame time := by
    rw [lead]
    ring
  simp only [exponent]
  rw [hdelta, wrapI64_of_mem hone, wrapI64_of_mem hframes, wrapI64_of_mem helapsed, hlead,
    wrapI64_of_mem hinner, Int.neg_mul, wrapI64_of_mem hnegated, Int.neg_neg, wrapI64_of_mem hscaled]

variable {frac : Nat}

/-- The polynomial stays within a word. -/
theorem poly_lt (h : frac < 65536) : poly frac < 2 ^ 64 := by
  have hsquare : frac * frac ≤ 65535 * 65535 := Nat.mul_le_mul (by omega) (by omega)
  have hcube : frac * frac * frac ≤ 65535 * 65535 * 65535 := Nat.mul_le_mul hsquare (by omega)
  have hpoly : poly frac = 195766423245049 * frac + 971821376 * (frac * frac) +
      5127 * (frac * frac * frac) + 2 ^ 47 := by
    rw [poly, Nat.one_shiftLeft]
    ring
  omega

theorem factor_eq (frac : Nat) : factor frac = 65536 + poly frac / 2 ^ 48 := by
  rw [factor, Nat.shiftRight_eq_div_pow]

theorem factor_zero : factor 0 = 65536 := by decide

theorem poly_mono {frac' : Nat} (h : frac ≤ frac') : poly frac ≤ poly frac' := by
  have hsquare : 971821376 * frac * frac ≤ 971821376 * frac' * frac' := by gcongr
  have hcube : 5127 * frac * frac * frac ≤ 5127 * frac' * frac' * frac' := by gcongr
  simp only [poly]
  omega

theorem factor_mono {frac' : Nat} (h : frac ≤ frac') : factor frac ≤ factor frac' := by
  rw [factor_eq, factor_eq]
  exact Nat.add_le_add_left (Nat.div_le_div_right (poly_mono h)) _

/-- The factor ends below two. -/
theorem factor_le (h : frac < 65536) : factor frac ≤ 131071 := by
  have := poly_lt h
  rw [factor_eq]
  omega

/-- One more step of the fraction adds two at most. -/
theorem factor_succ_le (h : frac < 65536) : factor (frac + 1) ≤ factor frac + 2 := by
  have hsquare : frac * frac ≤ 65535 * 65535 := Nat.mul_le_mul (by omega) (by omega)
  have hstep : poly (frac + 1) = poly frac + 195766423245049 + 971821376 * (2 * frac + 1) +
      5127 * (3 * (frac * frac) + 3 * frac + 1) := by
    simp only [poly]
    ring
  rw [factor_eq, factor_eq, hstep]
  omega

/-- A number shifted by a signed amount. -/
def shiftBy (x : Nat) (shifts : Int) : Nat :=
  if shifts < 0 then x / 2 ^ (-shifts).toNat else x * 2 ^ shifts.toNat

/-- The scaled difficulty at an exponent, with all its bits. -/
def level (anchorDifficulty : Nat) (exponent : Int) : Nat :=
  shiftBy (anchorDifficulty * factor (exponent % 65536).toNat) (exponent / 65536)

theorem shiftBy_mono {x y : Nat} (h : x ≤ y) (shifts : Int) : shiftBy x shifts ≤ shiftBy y shifts := by
  unfold shiftBy
  split
  · exact Nat.div_le_div_right h
  · exact Nat.mul_le_mul_right _ h

/-- One shift more is the double. -/
theorem shiftBy_succ (x : Nat) (shifts : Int) : shiftBy x (shifts + 1) = shiftBy (2 * x) shifts := by
  rcases lt_trichotomy shifts (-1) with h | h | h
  · have hk : (-shifts).toNat = (-(shifts + 1)).toNat + 1 := by omega
    rw [shiftBy, shiftBy, if_pos (by omega), if_pos (by omega), hk, Nat.pow_succ',
      Nat.mul_div_mul_left _ _ two_pos]
  · subst h
    simp [shiftBy]
  · have hk : (shifts + 1).toNat = shifts.toNat + 1 := by omega
    rw [shiftBy, shiftBy, if_neg (by omega), if_neg (by omega), hk]
    ring

/-- The next exponent: the next fraction at the same shift, or the first at the next. -/
theorem level_succ (d : Nat) (e : Int) :
    (∃ frac : Nat, frac < 65535 ∧ level d e = shiftBy (d * factor frac) (e / 65536) ∧
      level d (e + 1) = shiftBy (d * factor (frac + 1)) (e / 65536)) ∨
    (level d e = shiftBy (d * factor 65535) (e / 65536) ∧
      level d (e + 1) = shiftBy (d * 131072) (e / 65536)) := by
  rcases Int.lt_or_le (e % 65536) 65535 with hfrac | hfrac
  · left
    have hdiv : (e + 1) / 65536 = e / 65536 := by omega
    have hmod : ((e + 1) % 65536).toNat = (e % 65536).toNat + 1 := by omega
    refine ⟨(e % 65536).toNat, by omega, rfl, ?_⟩
    rw [level, hdiv, hmod]
  · right
    have hlast : (e % 65536).toNat = 65535 := by omega
    have hdiv : (e + 1) / 65536 = e / 65536 + 1 := by omega
    have hmod : ((e + 1) % 65536).toNat = 0 := by omega
    refine ⟨by rw [level, hlast], ?_⟩
    rw [level, hdiv, hmod, factor_zero, shiftBy_succ]
    congr 1
    ring

theorem level_mono (d : Nat) : Monotone (level d) := by
  refine monotone_int_of_le_succ fun e => ?_
  rcases level_succ d e with ⟨frac, -, he, hnext⟩ | ⟨he, hnext⟩
  · rw [he, hnext]
    exact shiftBy_mono (Nat.mul_le_mul_left d (factor_mono (Nat.le_succ frac))) _
  · rw [he, hnext]
    refine shiftBy_mono (Nat.mul_le_mul_left d ?_) _
    exact (factor_le (by decide)).trans (by decide)

variable {d : Nat} {e : Int}

/-- From a shift of zero on, one step of the exponent adds little. -/
theorem level_succ_le (h : 0 ≤ e / 65536) :
    level d (e + 1) ≤ level d e + d * 2 ^ ((e / 65536).toNat + 1) := by
  have hshift : ∀ x, shiftBy x (e / 65536) = x * 2 ^ (e / 65536).toNat := fun x => if_neg (by omega)
  have hadd : ∀ f g : Nat, g ≤ f + 2 → d * g * 2 ^ (e / 65536).toNat ≤
      d * f * 2 ^ (e / 65536).toNat + d * 2 ^ ((e / 65536).toNat + 1) := by
    intro f g hfg
    calc d * g * 2 ^ (e / 65536).toNat ≤ d * (f + 2) * 2 ^ (e / 65536).toNat :=
          Nat.mul_le_mul_right _ (Nat.mul_le_mul_left d hfg)
      _ = d * f * 2 ^ (e / 65536).toNat + d * 2 ^ ((e / 65536).toNat + 1) := by ring
  rcases level_succ d e with ⟨frac, hfrac, he, hnext⟩ | ⟨he, hnext⟩
  · rw [he, hnext, hshift, hshift]
    exact hadd _ _ (factor_succ_le (by omega))
  · rw [he, hnext, hshift, hshift]
    exact hadd _ _ (Nat.add_le_add_right (by decide +kernel : 131070 ≤ factor 65535) 2)

/-- A few steps add little, too. -/
theorem level_add_le (h : 0 ≤ e / 65536) (n : Nat) (hn : n ≤ 65536) :
    level d (e + n) ≤ level d e + n * (d * 2 ^ ((e / 65536).toNat + 2)) := by
  induction n with
  | zero => simp
  | succ n ih =>
    have hstep := @level_succ_le d (e + n) (by omega)
    -- at most one shift is gained on the way
    have hpow : 2 ^ (((e + n) / 65536).toNat + 1) ≤ 2 ^ ((e / 65536).toNat + 2) :=
      Nat.pow_le_pow_right two_pos (by omega)
    have hcast : e + ((n + 1 : Nat) : Int) = e + n + 1 := by push_cast; ring
    rw [hcast]
    calc level d (e + n + 1) ≤ level d (e + n) + d * 2 ^ (((e + n) / 65536).toNat + 1) := hstep
      _ ≤ level d e + n * (d * 2 ^ ((e / 65536).toNat + 2)) + d * 2 ^ ((e / 65536).toNat + 2) :=
          Nat.add_le_add (ih (by omega)) (Nat.mul_le_mul_left d hpow)
      _ = level d e + (n + 1) * (d * 2 ^ ((e / 65536).toNat + 2)) := by ring

theorem floored_eq (scaled : Nat) : floored scaled = max minDifficulty (scaled / 65536) := by
  have h : scaled >>> 16 = scaled / 65536 := by rw [Nat.shiftRight_eq_div_pow]
  simp only [floored, h]
  split <;> omega

/-- A product of a difficulty and a factor has at most 49 bits. -/
theorem mul_factor_lt (hd : d < 2 ^ 32) (hfrac : frac < 65536) : d * factor frac < 2 ^ 49 := by
  calc d * factor frac ≤ d * 131071 := Nat.mul_le_mul_left d (factor_le hfrac)
    _ < 2 ^ 49 := by omega

/-- A level that fits the word and has a shift to the left keeps the shift small. -/
theorem shift_bound (hshift : 0 ≤ e / 65536) (h : level d e < 2 ^ 64) :
    d * 2 ^ (e / 65536).toNat < 2 ^ 48 := by
  have hlevel : level d e = d * factor (e % 65536).toNat * 2 ^ (e / 65536).toNat :=
    if_neg (by omega)
  have hle : d * 2 ^ (e / 65536).toNat * 65536 ≤ level d e := by
    calc d * 2 ^ (e / 65536).toNat * 65536 ≤ d * 2 ^ (e / 65536).toNat * factor (e % 65536).toNat :=
          Nat.mul_le_mul_left _ (Nat.le_add_right _ _)
      _ = level d e := by rw [hlevel]; ring
  omega

theorem lt_of_mul_two_pow_lt {k n : Nat} (hd : 0 < d) (h : d * 2 ^ k < 2 ^ n) : k < n := by
  refine (Nat.pow_lt_pow_iff_right (a := 2) (by decide)).mp ?_
  exact (Nat.le_mul_of_pos_left _ hd).trans_lt h

/-- As long as the level fits the word, the difficulty is the level, floored. -/
theorem difficultyAt_of_fits (hd : 0 < d) (hsmall : d < 2 ^ 32)
    (h : level d e < 2 ^ 64) : difficultyAt d e = max minDifficulty (level d e / 65536) := by
  have hbits : d * factor (e % 65536).toNat < 2 ^ 49 := mul_factor_lt hsmall (by omega)
  rw [← floored_eq]
  simp only [difficultyAt]
  by_cases hneg : e / 65536 < 0
  · rw [if_pos hneg]
    have hlevel : level d e = d * factor (e % 65536).toNat / 2 ^ (-(e / 65536)).toNat := if_pos hneg
    rw [hlevel]
    congr 1
    split
    · symm
      refine Nat.div_eq_of_lt (hbits.trans_le ?_)
      exact Nat.pow_le_pow_right two_pos (by omega)
    · rw [Nat.shiftRight_eq_div_pow]
  · have hlevel : level d e = d * factor (e % 65536).toNat * 2 ^ (e / 65536).toNat := if_neg hneg
    have hk := lt_of_mul_two_pow_lt hd (shift_bound (by omega) h)
    rw [if_neg hneg, if_neg (by omega), if_neg (by omega), Nat.shiftLeft_eq, ← hlevel,
      Nat.mod_eq_of_lt h]

/-- A level past the word is at least one half-life ahead. -/
theorem one_le_shift_of_past (hsmall : d < 2 ^ 32) (h : 2 ^ 64 ≤ level d e) : 1 ≤ e / 65536 := by
  have hbits : d * factor (e % 65536).toNat < 2 ^ 49 := mul_factor_lt hsmall (by omega)
  by_contra hnot
  have hup : level d e ≤ d * factor (e % 65536).toNat := by
    unfold level shiftBy
    split
    · exact Nat.div_le_self _ _
    · have hzero : (e / 65536).toNat = 0 := by omega
      rw [hzero, Nat.pow_zero, Nat.mul_one]
  omega

/-- Just past the word the difficulty is far below what it was just before. -/
theorem difficultyAt_drops {e' : Int} (hd : 0 < d) (hsmall : d < 2 ^ 32)
    (hle : e' ≤ e) (hnear : e ≤ e' + 92) (hfits : level d e' < 2 ^ 64)
    (hpast : 2 ^ 64 ≤ level d e) : difficultyAt d e < difficultyAt d e' := by
  have hshift := one_le_shift_of_past hsmall hpast
  have hprev : 0 ≤ e' / 65536 := by omega
  have hbound := shift_bound hprev hfits
  have hk := lt_of_mul_two_pow_lt hd hbound
  -- the level just past the word is within 2 ^ 57 of the one before
  have hgap : level d e < level d e' + 2 ^ 57 := by
    obtain ⟨n, rfl⟩ : ∃ n : Nat, e = e' + n := ⟨(e - e').toNat, by omega⟩
    have hn : n ≤ 92 := by omega
    calc level d (e' + n) ≤ level d e' + n * (d * 2 ^ ((e' / 65536).toNat + 2)) :=
          level_add_le hprev n (by omega)
      _ = level d e' + n * 4 * (d * 2 ^ (e' / 65536).toNat) := by ring
      _ ≤ level d e' + 92 * 4 * (d * 2 ^ (e' / 65536).toNat) :=
          Nat.add_le_add_left (Nat.mul_le_mul_right _ (Nat.mul_le_mul_right _ hn)) _
      _ < level d e' + 2 ^ 57 := by omega
  have hlevel : level d e = d * factor (e % 65536).toNat * 2 ^ (e / 65536).toNat :=
    if_neg (by omega)
  have hvalue : difficultyAt d e = max minDifficulty ((level d e - 2 ^ 64) / 65536) := by
    have hmod : level d e % 2 ^ 64 = level d e - 2 ^ 64 := by omega
    rw [← floored_eq, ← hmod]
    simp only [difficultyAt]
    rw [if_neg (by omega), if_neg (by omega), if_neg (by omega), Nat.shiftLeft_eq, ← hlevel]
  have hlow : (level d e - 2 ^ 64) / 65536 < 2 ^ 41 := by omega
  have hhigh : 2 ^ 41 ≤ level d e' / 65536 := by omega
  rw [hvalue, difficultyAt_of_fits hd hsmall hfits]
  refine (max_lt ?_ hlow).trans_le (hhigh.trans (le_max_right _ _))
  decide

/-- The difficulty is never below the floor. -/
theorem minDifficulty_le (d : Nat) (e : Int) : minDifficulty ≤ difficultyAt d e := by
  have hfloored : ∀ x, minDifficulty ≤ floored x := fun x => by
    rw [floored_eq]
    exact le_max_left _ _
  have hmax : minDifficulty ≤ u64Max := by decide
  simp only [difficultyAt]
  split
  · exact hfloored _
  split
  · exact hmax
  split
  · exact hmax
  · exact hfloored _

theorem level_zero (d : Nat) : level d 0 = d * 65536 := by
  have h : level d 0 = d * factor 0 * 2 ^ 0 := rfl
  rw [h, factor_zero, Nat.pow_zero, Nat.mul_one]

/-- **The schedule**, on the inputs with at most this lead. -/
structure FollowsSchedule (a : AsertDifficultyAdjuster) (bound : Int) : Prop where
  time : ∀ frame time time', NoWrap a frame time → NoWrap a frame time' →
    a.lead frame time ≤ bound → time ≤ time' →
      a.getNextDifficulty frame time' ≤ a.getNextDifficulty frame time
  frame : ∀ frame frame' time, NoWrap a frame time → NoWrap a frame' time →
    a.lead frame' time ≤ bound → frame ≤ frame' →
      a.getNextDifficulty frame time ≤ a.getNextDifficulty frame' time
  floor : ∀ frame time, NoWrap a frame time → minDifficulty ≤ a.getNextDifficulty frame time
  onSchedule : ∀ frame time, NoWrap a frame time → a.lead frame time = 0 →
    a.getNextDifficulty frame time = max a.anchorDifficulty.toNat minDifficulty

theorem anchor_pos (ha : a.anchorDifficulty ≠ 0) : 0 < a.anchorDifficulty.toNat :=
  Nat.pos_of_ne_zero fun h => ha (UInt32.toNat_inj.mp h)

theorem getNextDifficulty_eq (ha : a.anchorDifficulty ≠ 0) (h : NoWrap a frame time) :
    a.getNextDifficulty frame time =
      difficultyAt a.anchorDifficulty.toNat ((a.lead frame time * radix).tdiv halfLife) := by
  rw [getNextDifficulty, if_neg ha, exponent_eq h]

theorem exponent_mono {x y : Int} (h : x ≤ y) :
    (x * radix).tdiv halfLife ≤ (y * radix).tdiv halfLife :=
  Int.tdiv_le_tdiv (by decide) (Int.mul_le_mul_of_nonneg_right h (by decide))

/-- One more frame of lead moves the exponent by 92 at most. -/
theorem exponent_near {x y : Int} (hx : 0 ≤ x) (hxy : y ≤ x + 10000) (hy : 0 ≤ y) :
    (y * radix).tdiv halfLife ≤ (x * radix).tdiv halfLife + 92 := by
  rw [Int.tdiv_eq_ediv_of_nonneg (Int.mul_nonneg hy (by decide)),
    Int.tdiv_eq_ediv_of_nonneg (Int.mul_nonneg hx (by decide))]
  simp only [radix, halfLife]
  omega

/-- A lead of more than a frame can be made smaller by at most a frame. -/
theorem exists_smaller_lead (h : NoWrap a frame time) (hlead : 10000 < a.lead frame time) :
    ∃ frame' time', NoWrap a frame' time' ∧ a.lead frame' time' < a.lead frame time ∧
      a.lead frame time ≤ a.lead frame' time' + 10000 ∧
      ((frame' = frame ∧ time ≤ time') ∨ (time' = time ∧ frame' ≤ frame)) := by
  obtain ⟨⟨_, _⟩, ⟨_, _⟩, ⟨_, _⟩, -⟩ := h
  have hanchor := a.anchorParentTime.toInt_lt
  have htime := time.le_toInt
  simp only [lead, idealFrameTime, radix] at *
  by_cases hlast : time.toInt + 1 < 2 ^ 63
  · have hnext : (Int64.ofInt (time.toInt + 1)).toInt = time.toInt + 1 :=
      Int64.toInt_ofInt_of_le (by omega) (by omega)
    refine ⟨frame, Int64.ofInt (time.toInt + 1), ⟨?_, ?_, ?_, ?_⟩, ?_, ?_, Or.inl ⟨rfl, ?_⟩⟩
    all_goals
      simp only [Int64.le_iff_toInt_le, InI64, lead, idealFrameTime, radix, hnext]
      omega
  · have hframe := frame.toNat_lt
    have hprev : (ofNat (frame.toNat - 1)).toNat = frame.toNat - 1 :=
      toNat_ofNat_of_lt' (by simp only [size]; omega)
    refine ⟨ofNat (frame.toNat - 1), time, ⟨?_, ?_, ?_, ?_⟩, ?_, ?_, Or.inr ⟨rfl, ?_⟩⟩
    all_goals
      simp only [le_iff_toNat_le, InI64, lead, idealFrameTime, radix, hprev]
      omega

/-- Where every level fits, the schedule is followed. -/
theorem followsSchedule_of_fits (ha : a.anchorDifficulty ≠ 0)
    {bound : Int} (hfits : ∀ frame time, NoWrap a frame time → a.lead frame time ≤ bound →
      level a.anchorDifficulty.toNat (a.exponent frame time) < 2 ^ 64) :
    FollowsSchedule a bound := by
  have hpos := anchor_pos ha
  have hsmall : a.anchorDifficulty.toNat < 2 ^ 32 := a.anchorDifficulty.toNat_lt
  -- both directions of the schedule are one: a larger lead gives no smaller difficulty
  have hmono : ∀ {frame frame' time time'}, NoWrap a frame time → NoWrap a frame' time' →
      a.lead frame' time' ≤ bound → a.lead frame time ≤ a.lead frame' time' →
        a.getNextDifficulty frame time ≤ a.getNextDifficulty frame' time' := by
    intro frame frame' time time' h h' hbound hlead
    have hlevel := hfits frame' time' h' hbound
    have hlevelLow := hfits frame time h (hlead.trans hbound)
    rw [exponent_eq h'] at hlevel
    rw [exponent_eq h] at hlevelLow
    rw [getNextDifficulty_eq ha h, getNextDifficulty_eq ha h',
      difficultyAt_of_fits hpos hsmall hlevel, difficultyAt_of_fits hpos hsmall hlevelLow]
    exact max_le_max le_rfl (Nat.div_le_div_right (level_mono _ (exponent_mono hlead)))
  refine ⟨?_, ?_, ?_, ?_⟩
  · intro frame time time' h h' hbound htime
    refine hmono h' h hbound ?_
    rw [Int64.le_iff_toInt_le] at htime
    simp only [lead]
    omega
  · intro frame frame' time h h' hbound hframe
    refine hmono h h' hbound ?_
    rw [le_iff_toNat_le] at hframe
    simp only [lead, idealFrameTime]
    omega
  · intro frame time h
    rw [getNextDifficulty_eq ha h]
    exact minDifficulty_le _ _
  · intro frame time h hlead
    rw [getNextDifficulty_eq ha h, hlead, Int.zero_mul, Int.zero_tdiv,
      difficultyAt_of_fits hpos hsmall (by rw [level_zero]; omega), level_zero,
      Nat.mul_div_cancel _ (by decide), max_comm]

/-- **The schedule holds as far as the word reaches**: on inputs that wrap no signed operation,
exactly if every scaled difficulty fits 64 bits. -/
theorem schedule_iff_fits {a : AsertDifficultyAdjuster} (ha : a.anchorDifficulty ≠ 0)
    (bound : Int) :
    FollowsSchedule a bound ↔ ∀ frame time, NoWrap a frame time → a.lead frame time ≤ bound →
      level a.anchorDifficulty.toNat (a.exponent frame time) < 2 ^ 64 := by
  refine ⟨?_, followsSchedule_of_fits ha⟩
  intro hschedule frame time h hbound
  have hpos := anchor_pos ha
  have hsmall : a.anchorDifficulty.toNat < 2 ^ 32 := a.anchorDifficulty.toNat_lt
  induction hn : (a.lead frame time).toNat using Nat.strong_induction_on generalizing frame time with
  | _ n ih =>
    by_contra hpast
    rw [exponent_eq h, Nat.not_lt] at hpast
    have hshift := one_le_shift_of_past hsmall hpast
    have hlead : 7200000 ≤ a.lead frame time := by
      by_contra hless
      have hle := exponent_mono (show a.lead frame time ≤ 7199999 by omega)
      have hvalue : ((7199999 : Int) * radix).tdiv halfLife = 65535 := by decide
      omega
    -- the first input with a smaller lead that fits shows the drop
    obtain ⟨frame', time', h', hless, hnear, hstep⟩ := exists_smaller_lead h (by omega)
    have hfits := ih (a.lead frame' time').toNat (by omega) frame' time' h' (by omega) rfl
    rw [exponent_eq h'] at hfits
    have hdrop := difficultyAt_drops hpos hsmall (exponent_mono hless.le)
      (exponent_near (by omega) hnear (by omega)) hfits hpast
    rw [← getNextDifficulty_eq ha h, ← getNextDifficulty_eq ha h'] at hdrop
    rcases hstep with ⟨rfl, htime⟩ | ⟨rfl, hframe⟩
    · exact absurd (hschedule.time _ _ _ h h' hbound htime) (by omega)
    · exact absurd (hschedule.frame _ _ _ h' h hbound hframe) (by omega)

/-- The anchor of the main network. -/
def mainnetAnchor : AsertDifficultyAdjuster := ⟨244200, 1762862400000, 80000⟩

/-- The main network's schedule holds up to thirty half-lives of lead. -/
theorem mainnet_follows_schedule : FollowsSchedule mainnetAnchor 216000000 := by
  refine (schedule_iff_fits (by decide) 216000000).mpr ?_
  intro frame time h hbound
  have hexponent : ((216000000 : Int) * radix).tdiv halfLife = 30 * 65536 := by decide
  have hlevel : level mainnetAnchor.anchorDifficulty.toNat (30 * 65536) < 2 ^ 64 := by
    decide +kernel
  rw [exponent_eq h]
  refine (level_mono _ ?_).trans_lt hlevel
  exact hexponent ▸ exponent_mono hbound

/-- Thirty-two half-lives ahead, two hours more of elapsed time raise the main network's
difficulty. -/
theorem mainnet_difficulty_rises : mainnetAnchor.anchorDifficulty ≠ 0 ∧
      NoWrap mainnetAnchor 267239 1762862400000 ∧ NoWrap mainnetAnchor 267239 1762869600000 ∧
      (1762862400000 : Int64) ≤ 1762869600000 ∧
      mainnetAnchor.getNextDifficulty 267239 1762862400000 <
        mainnetAnchor.getNextDifficulty 267239 1762869600000 :=
  ⟨by decide, ⟨by decide, by decide, by decide, by decide⟩,
    ⟨by decide, by decide, by decide, by decide⟩, by decide, by decide +kernel⟩

end Difficulty

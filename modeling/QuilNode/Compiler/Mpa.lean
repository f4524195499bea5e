import Mathlib

/-!
# Constant arithmetic (`mpa.rs`)

A constant is an unbounded integer with a width.  Every result is masked through a signed 64-bit
word: outside the word's range it becomes zero whatever its low bits are, and at width 64 a word
with its top bit set is stored as a negative number.
-/

namespace Mpa

/-- `Int`. -/
structure MpInt where
  bits : Nat
  value : Int

/-- `to_i64` succeeds. -/
def FitsI64 (x : Int) : Prop := -2 ^ 63 ≤ x ∧ x < 2 ^ 63
  deriving Decidable

namespace MpInt

def mask (x : MpInt) : MpInt :=
  if 0 < x.bits ∧ x.bits ≤ 64 then
    let mask := if 64 ≤ x.bits then 2 ^ 64 - 1 else 1 <<< x.bits - 1
    let v := (if FitsI64 x.value then x.value else 0) % 2 ^ 64
    ⟨x.bits, Int.bmod (v.toNat &&& mask : Nat) (2 ^ 64)⟩
  else x

def fromBigint (x : Int) (bits : Nat) : MpInt :=
  let length := x.natAbs.size
  mask ⟨if bits = 0 then (if 32 < length then max 64 length else max 32 length) else bits, x⟩

def add (x y : MpInt) : MpInt := fromBigint (x.value + y.value) (max x.bits y.bits)

def sub (x y : MpInt) : MpInt := fromBigint (x.value - y.value) (max x.bits y.bits)

def mul (x y : MpInt) : MpInt := fromBigint (x.value * y.value) (max x.bits y.bits)

/-- `lsh`, with the loop that clears the bits above the width. -/
def lsh (x : MpInt) (n : Nat) : MpInt :=
  let result := fromBigint (x.value <<< n) x.bits
  let above := List.range' x.bits (result.value.natAbs.size - x.bits)
  if 0 < x.bits then
    ⟨result.bits, above.foldl (fun v i => v.land (Int.lnot (1 <<< i))) result.value⟩
  else result

/-- The exact result modulo `2 ^ bits`, with no bit at or above the width. -/
def Wraps (r : MpInt) (bits : Nat) (exact : Int) : Prop :=
  r.value % 2 ^ bits = exact % 2 ^ bits ∧ ∀ i ≥ bits, r.value.testBit i = false

end MpInt

/-- The exact result is read in full, or zero is right; at width 64 it is not negative. -/
def Kept (bits : Nat) (exact : Int) : Prop :=
  (FitsI64 exact ∨ 2 ^ bits ∣ exact) ∧ (bits = 64 → FitsI64 exact → 0 ≤ exact)

open MpInt

/-- Bits at and above the width are those of the sign. -/
theorem above_iff {w : Nat} {v : Int} (h : v.natAbs < 2 ^ w) :
    (∀ i ≥ w, v.testBit i = false) ↔ 0 ≤ v := by
  cases v with
  | ofNat m =>
    refine iff_of_true (fun i hi => ?_) (Int.natCast_nonneg m)
    exact Nat.testBit_lt_two_pow (h.trans_le (Nat.pow_le_pow_right (by decide) hi))
  | negSucc m =>
    refine iff_of_false (fun hbits => ?_) (by omega)
    have hbit : m.testBit w = false := Nat.testBit_lt_two_pow (Nat.lt_of_succ_lt h)
    have hset := hbits w le_rfl
    simp [Int.testBit, hbit] at hset

section Width

variable {w : Nat} (hw : 0 < w) (hw64 : w ≤ 64) {z : Int}
include hw hw64

/-- **The stored value.** -/
theorem fromBigint_value : (fromBigint z w).value =
    if FitsI64 z then (if w = 64 then z else z % 2 ^ w) else 0 := by
  have hmask : (if 64 ≤ w then 2 ^ 64 - 1 else 1 <<< w - 1) = 2 ^ w - 1 := by
    split
    · rw [show w = 64 by omega]
    · rw [Nat.one_shiftLeft]
  have hread (v : Int) : (((v % 2 ^ 64).toNat &&& 2 ^ w - 1 : Nat) : Int) = v % 2 ^ w := by
    rw [Nat.and_two_pow_sub_one_eq_mod, Int.natCast_emod,
      Int.toNat_of_nonneg (Int.emod_nonneg _ (by decide))]
    exact Int.emod_emod_of_dvd _ (pow_dvd_pow (2 : Int) hw64)
  simp only [fromBigint, mask, if_neg hw.ne', hw, hw64, and_self, if_true, hmask, hread]
  split_ifs with hz h64
  · obtain ⟨hlow, hhigh⟩ := hz
    rw [h64]
    exact (Int.emod_bmod z (2 ^ 64)).trans (Int.bmod_eq_of_le (by omega) (by omega))
  · have hpow : (2 : Int) ^ w ≤ 2 ^ 63 := by exact_mod_cast Nat.pow_le_pow_right Nat.two_pos (by omega)
    have hless := Int.emod_lt_of_pos z (Int.pow_pos (by decide) : (0 : Int) < 2 ^ w)
    exact Int.bmod_eq_of_le (by omega) (by omega)
  · simp

theorem natAbs_fromBigint : (fromBigint z w).value.natAbs < 2 ^ w := by
  rw [fromBigint_value hw hw64]
  split_ifs with hz h64
  · obtain ⟨hlow, hhigh⟩ := hz
    rw [h64]
    omega
  · have hpos : (0 : Int) < 2 ^ w := Int.pow_pos (by decide)
    have hless := Int.natAbs_lt_natAbs_of_nonneg_of_lt (Int.emod_nonneg z hpos.ne')
      (Int.emod_lt_of_pos z hpos)
    rwa [Int.natAbs_pow] at hless
  · exact Nat.two_pow_pos w

theorem wraps_fromBigint : (fromBigint z w).Wraps w z ↔ Kept w z := by
  rw [Wraps, above_iff (natAbs_fromBigint hw hw64), fromBigint_value hw hw64, Kept]
  split_ifs with hz h64
  · simp [hz, h64]
  · simp [hz, h64, Int.emod_nonneg]
  · simp only [hz, Int.zero_emod, le_refl, and_true, false_or, false_imp_iff, imp_true_iff]
    exact eq_comm.trans Int.dvd_iff_emod_eq_zero.symm

theorem lsh_value (x : Int) (n : Nat) : (lsh ⟨w, x⟩ n).value = (fromBigint (x <<< n) w).value := by
  have hsize := Nat.size_le.mpr (natAbs_fromBigint hw hw64 (z := x <<< n))
  simp [lsh, hw, Nat.sub_eq_zero_of_le hsize]

end Width

/-- Constant arithmetic wraps at its width exactly where the exact result is kept. -/
theorem arithmetic_wraps_iff_kept (w : Nat) (hw : 0 < w) (hw64 : w ≤ 64) (a b : Int) (n : Nat) :
    ((add ⟨w, a⟩ ⟨w, b⟩).Wraps w (a + b) ↔ Kept w (a + b)) ∧
    ((sub ⟨w, a⟩ ⟨w, b⟩).Wraps w (a - b) ↔ Kept w (a - b)) ∧
    ((mul ⟨w, a⟩ ⟨w, b⟩).Wraps w (a * b) ↔ Kept w (a * b)) ∧
    ((lsh ⟨w, a⟩ n).Wraps w (a * 2 ^ n) ↔ Kept w (a * 2 ^ n)) := by
  simp only [add, sub, mul, max_self, wraps_fromBigint hw hw64, true_and]
  rw [Wraps, lsh_value hw hw64, Int.shiftLeft_eq]
  exact wraps_fromBigint hw hw64

theorem arithmetic_at_eight : Kept 8 (200 + 100) ∧ (add ⟨8, 200⟩ ⟨8, 100⟩).Wraps 8 (200 + 100) :=
  have hkept : Kept 8 (200 + 100) := ⟨.inl (by decide), nofun⟩
  ⟨hkept, (arithmetic_wraps_iff_kept 8 (by decide) (by decide) 200 100 0).1.mpr hkept⟩

/-- The square of the largest 32-bit constant is stored as zero, and not as one. -/
theorem square_stored_as_zero :
    ¬ (mul ⟨32, 2 ^ 32 - 1⟩ ⟨32, 2 ^ 32 - 1⟩).Wraps 32 ((2 ^ 32 - 1) * (2 ^ 32 - 1)) := by
  rintro ⟨hvalue, -⟩
  revert hvalue
  decide

end Mpa

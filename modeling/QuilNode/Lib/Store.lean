import Mathlib

/-!
# Stores of typed records

A store maps each address to at most one record, and the address fixes the
type of record it can hold: a record of another kind at an address cannot be
written down.  Writing is `Function.update`; this file adds loops of writes and
the frame relation "everything outside these addresses is as before".
-/

universe u v w

/-- At most one record of its own kind at every address. -/
abbrev Store (K : Type u) (V : K → Type v) := ∀ k : K, Option (V k)

namespace Store

open List

variable {K : Type u} {V : K → Type v}

/-- The store that holds nothing. -/
def empty : Store K V := fun _ => none

@[simp] theorem empty_apply (k : K) : (empty : Store K V) k = none := rfl

/-- `t` differs from `s` at addresses in `A` only. -/
def AgreeOutside (A : Set K) (s t : Store K V) : Prop :=
  ∀ k, k ∉ A → t k = s k

namespace AgreeOutside

variable {A B : Set K} {s t u : Store K V}

theorem refl (A : Set K) (s : Store K V) : AgreeOutside A s s := fun _ _ => rfl

theorem trans (h : AgreeOutside A s t) (h' : AgreeOutside A t u) :
    AgreeOutside A s u := fun k hk => (h' k hk).trans (h k hk)

theorem mono (h : AgreeOutside A s t) (hAB : A ⊆ B) : AgreeOutside B s t :=
  fun k hk => h k fun hA => hk (hAB hA)

end AgreeOutside

variable [DecidableEq K]

def write (s : Store K V) (k : K) (v : V k) : Store K V :=
  Function.update s k (some v)

def clear (s : Store K V) (k : K) : Store K V :=
  Function.update s k none

@[simp] theorem write_self (s : Store K V) (k : K) (v : V k) : s.write k v k = some v := by
  simp [write]

theorem write_of_ne (s : Store K V) {k k' : K} (v : V k) (h : k' ≠ k) : s.write k v k' = s k' := by
  simp [write, Function.update_of_ne h]

/-- A write to a store of one kind of records. -/
theorem write_apply {α : Type*} (s : Store K fun _ => α) (k k' : K) (v : α) :
    s.write k v k' = if k' = k then some v else s k' := by
  by_cases h : k' = k
  · subst h
    rw [write_self, if_pos rfl]
  · rw [write_of_ne s v h, if_neg h]

theorem clear_of_ne (s : Store K V) {k k' : K} (h : k' ≠ k) : s.clear k k' = s k' := by
  simp [clear, Function.update_of_ne h]

section Loops

variable {ι : Type w}

/-- Write `record i` at `address i` for each `i` of the list, in order. -/
def writeEach (s : Store K V) (xs : List ι) (addr : ι → K)
    (record : ∀ i, V (addr i)) : Store K V :=
  xs.foldl (fun s i => s.write (addr i) (record i)) s

variable {addr : ι → K} {record : ∀ i, V (addr i)}

@[simp] theorem writeEach_cons (s : Store K V) (i : ι) (xs : List ι) :
    s.writeEach (i :: xs) addr record =
      (s.write (addr i) (record i)).writeEach xs addr record := rfl

/-- A loop leaves every address it does not name alone. -/
theorem writeEach_of_not_mem {k : K} (xs : List ι) (s : Store K V) (h : ∀ i ∈ xs, addr i ≠ k) :
    s.writeEach xs addr record k = s k := by
  induction xs generalizing s with
  | nil => rfl
  | cons i xs ih =>
    rw [writeEach_cons, ih _ fun j hj => h j (mem_cons_of_mem i hj)]
    exact write_of_ne s _ (h i mem_cons_self).symm

/-- A loop that names each address for one item only leaves that item's record
there. -/
theorem writeEach_of_mem {i : ι} (xs : List ι) :
    ∀ s : Store K V, i ∈ xs → (∀ j ∈ xs, addr j = addr i → j = i) →
      s.writeEach xs addr record (addr i) = some (record i) := by
  induction xs with
  | nil => intro s hi; cases hi
  | cons j xs ih =>
    intro s hi hone
    rw [writeEach_cons]
    by_cases hmem : i ∈ xs
    · exact ih _ hmem fun k hk => hone k (mem_cons_of_mem j hk)
    have hji : i = j := by
      rcases mem_cons.mp hi with h | h
      · exact h
      · exact absurd h hmem
    subst hji
    rw [writeEach_of_not_mem xs _ fun k hk heq =>
      hmem (hone k (mem_cons_of_mem i hk) heq ▸ hk)]
    exact write_self s _ _

/-- What a loop leaves at an address depends on what was there only. -/
theorem writeEach_congr {k : K} (xs : List ι) (s s' : Store K V) (h : s' k = s k) :
    s'.writeEach xs addr record k = s.writeEach xs addr record k := by
  induction xs generalizing s s' with
  | nil => exact h
  | cons i xs ih =>
    rw [writeEach_cons, writeEach_cons]
    apply ih
    by_cases hk : k = addr i
    · subst hk
      rw [write_self, write_self]
    · rw [write_of_ne _ _ hk, write_of_ne _ _ hk, h]

end Loops

namespace AgreeOutside

variable {A : Set K} {s t : Store K V}

theorem write {k : K} (h : AgreeOutside A s t) (hk : k ∈ A) (v : V k) :
    AgreeOutside A s (t.write k v) := by
  intro j hj
  have hne : j ≠ k := by rintro rfl; exact hj hk
  rw [write_of_ne t v hne]
  exact h j hj

theorem clear {k : K} (h : AgreeOutside A s t) (hk : k ∈ A) : AgreeOutside A s (t.clear k) := by
  intro j hj
  have hne : j ≠ k := by rintro rfl; exact hj hk
  rw [clear_of_ne t hne]
  exact h j hj

theorem writeEach {ι : Type w} {addr : ι → K} {record : ∀ i, V (addr i)}
    (h : AgreeOutside A s t) {xs : List ι} (hmem : ∀ i ∈ xs, addr i ∈ A) :
    AgreeOutside A s (t.writeEach xs addr record) := by
  intro j hj
  have hne : ∀ i ∈ xs, addr i ≠ j := by
    rintro i hi rfl
    exact hj (hmem i hi)
  rw [writeEach_of_not_mem xs t hne]
  exact h j hj

end AgreeOutside

/-- One write differs at its own address only. -/
theorem agreeOutside_write (s : Store K V) (k : K) (v : V k) : AgreeOutside {k} s (s.write k v) :=
  (AgreeOutside.refl {k} s).write (Set.mem_singleton k) v

end Store

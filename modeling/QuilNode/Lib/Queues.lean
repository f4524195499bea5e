import Mathlib

/-!
# Families of append-only queues kept as counters and slots

A store keeps a family of queues as a counter for every queue and a slot for every position;
`Stored` says that they spell the lists out.  Two operations are matched with their slot-level
counterparts: appending a batch whose positions were reserved (`Lands`, `fill`), and moving the end
of one queue to others one item at a time, which leaves holes while it runs (`Holed`).
-/

namespace Queues

open Function List

variable {β α : Type*}

/-- Counters and slots spell out the queues `Q`. -/
structure Stored (next : β → Nat) (slot : β → Nat → Option α) (Q : β → List α) : Prop where
  next_eq : ∀ b, next b = (Q b).length
  slot_eq : ∀ b n, slot b n = (Q b)[n]?

variable {slot : β → Nat → Option α} {Q : β → List α}

/-- The occupied slots are exactly those below the counter. -/
theorem Stored.dense {next : β → Nat} (h : Stored next slot Q) (b : β) (n : Nat) :
    (slot b n).isSome ↔ n < next b := by
  rw [h.slot_eq, h.next_eq]
  simp

/-- Appending changes nothing below or above the new position. -/
theorem getElem?_concat_of_ne {l : List α} {x : α} {n : Nat} (hn : n ≠ l.length) :
    (l ++ [x])[n]? = l[n]? := by
  by_cases hlt : n < l.length
  · rw [getElem?_append_left hlt]
  have hlong : (l ++ [x]).length ≤ n := by
    rw [length_append, length_singleton]
    omega
  rw [getElem?_eq_none hlong, getElem?_eq_none (by omega)]

variable [DecidableEq β]

/-- Append `x` to queue `b`. -/
def push (Q : β → List α) (b : β) (x : α) : β → List α :=
  Function.update Q b (Q b ++ [x])

@[simp] theorem push_self (Q : β → List α) (b : β) (x : α) : push Q b x b = Q b ++ [x] := by
  simp [push]

variable {b : β}

theorem push_of_ne (Q : β → List α) {b' : β} (x : α) (h : b' ≠ b) : push Q b x b' = Q b' := by
  simp [push, update_of_ne h]

theorem mem_push {b' : β} {x y : α} : y ∈ push Q b x b' ↔ y ∈ Q b' ∨ b' = b ∧ y = x := by
  by_cases hb : b' = b
  · subst hb
    simp
  · simp [push_of_ne Q x hb, hb]

/-- Append a batch, in order. -/
def pushAll (Q : β → List α) (xs : List (β × α)) : β → List α :=
  xs.foldl (fun Q x => push Q x.1 x.2) Q

@[simp] theorem pushAll_nil (Q : β → List α) : pushAll Q [] = Q := rfl

@[simp] theorem pushAll_cons (Q : β → List α) (x : β × α) (xs : List (β × α)) :
    pushAll Q (x :: xs) = pushAll (push Q x.1 x.2) xs := rfl

theorem pushAll_append (Q : β → List α) (xs ys : List (β × α)) :
    pushAll Q (xs ++ ys) = pushAll (pushAll Q xs) ys :=
  foldl_append

/-- A batch extends each queue by its own items, in order. -/
theorem pushAll_apply (xs : List (β × α)) (Q : β → List α) (b : β) :
    pushAll Q xs b = Q b ++ (xs.filter fun x => x.1 = b).map Prod.snd := by
  induction xs generalizing Q b with
  | nil => simp
  | cons x xs ih =>
    rw [pushAll_cons, ih]
    by_cases hb : x.1 = b
    · subst hb
      simp
    · rw [push_of_ne Q x.2 (Ne.symm hb)]
      simp [hb]

variable {xs : List (β × α)}

theorem mem_pushAll {y : α} : y ∈ pushAll Q xs b ↔ y ∈ Q b ∨ (b, y) ∈ xs := by
  simp [pushAll_apply]

theorem pushAll_of_ne (h : ∀ x ∈ xs, x.1 ≠ b) (Q : β → List α) : pushAll Q xs b = Q b := by
  rw [pushAll_apply, filter_eq_nil_iff.mpr (by simpa using h), map_nil, append_nil]

/-- Every item of the batch was given the next free position of its queue. -/
def Lands : (β → List α) → List (β × Nat × α) → Prop
  | _, [] => True
  | Q, (b, n, x) :: rest => n = (Q b).length ∧ Lands (push Q b x) rest

/-- Overwrite one slot. -/
def setSlot (slot : β → Nat → Option α) (b : β) (n : Nat) (x : Option α) : β → Nat → Option α :=
  fun b' n' => if b' = b ∧ n' = n then x else slot b' n'

/-- Fill the reserved slots of a batch, in order. -/
def fill (slot : β → Nat → Option α) (xs : List (β × Nat × α)) : β → Nat → Option α :=
  xs.foldl (fun slot x => setSlot slot x.1 x.2.1 (some x.2.2)) slot

/-- Filling the next free slot of a queue appends to it. -/
theorem setSlot_push (h : ∀ b n, slot b n = (Q b)[n]?) (b : β) (x : α) (b' : β) (n : Nat) :
    setSlot slot b (Q b).length (some x) b' n = (push Q b x b')[n]? := by
  unfold setSlot
  by_cases hb : b' = b
  · subst hb
    rw [push_self]
    by_cases hn : n = (Q b').length
    · subst hn
      simp
    · rw [if_neg (fun hh => hn hh.2), h, getElem?_concat_of_ne hn]
  · rw [if_neg (by simp [hb]), push_of_ne Q x hb, h]

/-- Filling reserved slots appends the batch. -/
theorem fill_lands (xs : List (β × Nat × α)) (slot : β → Nat → Option α) (Q : β → List α)
    (h : ∀ b n, slot b n = (Q b)[n]?) (hlands : Lands Q xs) :
    ∀ b n, fill slot xs b n = (pushAll Q (xs.map fun x => (x.1, x.2.2)) b)[n]? := by
  induction xs generalizing slot Q with
  | nil => intro b n; exact h b n
  | cons x xs ih =>
    intro b n
    obtain ⟨b', _, y⟩ := x
    obtain ⟨hn, hrest⟩ := hlands
    subst hn
    exact ih _ _ (setSlot_push h b' y) hrest b n

/-- Batches that land below a capacity keep every queue within it. -/
theorem Lands.length_le {capacity : Nat} (xs : List (β × Nat × α)) (Q : β → List α)
    (hlands : Lands Q xs) (hroom : ∀ x ∈ xs, x.2.1 < capacity) (h : ∀ b, (Q b).length ≤ capacity) :
    ∀ b, (pushAll Q (xs.map fun x => (x.1, x.2.2)) b).length ≤ capacity := by
  induction xs generalizing Q with
  | nil => intro b; exact h b
  | cons x xs ih =>
    intro b
    obtain ⟨b', n, y⟩ := x
    obtain ⟨_, hrest⟩ := hlands
    apply ih _ hrest (fun x hx => hroom x (mem_cons_of_mem _ hx))
    intro b''
    by_cases hb : b'' = b'
    · subst hb
      have hlt : n < capacity := hroom _ mem_cons_self
      rw [push_self, length_append, length_singleton]
      omega
    · rw [push_of_ne Q y hb]
      exact h b''

/-- Reading a list by its positions gives the list back. -/
theorem filterMap_range_getElem? {γ : Type*} (f : α → γ) (l : List α) :
    (range l.length).filterMap (fun n => l[n]?.map f) = l.map f := by
  induction l with
  | nil => rfl
  | cons x l ih =>
    rw [length_cons, range_succ_eq_map, filterMap_cons, filterMap_map]
    simpa [comp_def] using ih

/-- Sorting a batch by queue name loses and repeats nothing. -/
theorem sum_filter_map {γ : Type*} (f : β × α → γ) (B : Finset β) (xs : List (β × α))
    (h : ∀ x ∈ xs, x.1 ∈ B) :
    ∑ b ∈ B, (((xs.filter fun x => x.1 = b).map f : List γ) : Multiset γ) =
      ((xs.map f : List γ) : Multiset γ) := by
  induction xs with
  | nil => simp
  | cons x xs ih =>
    have hx : x.1 ∈ B := h x mem_cons_self
    have hsplit : ∀ b, ((((x :: xs).filter fun x => x.1 = b).map f : List γ) : Multiset γ) =
        (if x.1 = b then {f x} else 0) +
          (((xs.filter fun x => x.1 = b).map f : List γ) : Multiset γ) := by
      intro b
      by_cases hb : x.1 = b <;> simp [hb]
    rw [Finset.sum_congr rfl fun b _ => hsplit b, Finset.sum_add_distrib,
      Finset.sum_ite_eq B x.1, if_pos hx, ih fun y hy => h y (mem_cons_of_mem x hy)]
    simp

/-- The slots spell out `Q` except for a hole in queue `b` at `lo ≤ n < hi`. -/
def Holed (slot : β → Nat → Option α) (Q : β → List α) (b : β) (lo hi : Nat) : Prop :=
  ∀ b' n, slot b' n = if b' = b ∧ lo ≤ n ∧ n < hi then none else (Q b')[n]?

/-- Moving the next item of queue `b` to another queue widens the hole by one. -/
theorem Holed.move {target : β} {lo hi : Nat} (h : Holed slot Q b lo hi) (hlo : lo ≤ hi)
    (hne : target ≠ b) (x : α) :
    Holed (setSlot (setSlot slot target (Q target).length (some x)) b hi none)
      (push Q target x) b lo (hi + 1) := by
  intro b' n
  unfold setSlot
  by_cases hb : b' = b
  · subst hb
    rw [push_of_ne Q x (Ne.symm hne)]
    by_cases hn : n = hi
    · subst hn
      simp [hlo]
    · rw [if_neg (fun hh => hn hh.2), if_neg (fun hh => hne hh.1.symm), h b' n]
      have hiff : n < hi + 1 ↔ n < hi := by omega
      simp only [hiff]
  · have hold := h b' n
    rw [if_neg fun hh => hb hh.1] at hold
    rw [if_neg (fun hh => hb hh.1 : ¬ (b' = b ∧ n = hi)),
      if_neg (fun hh => hb hh.1 : ¬ (b' = b ∧ lo ≤ n ∧ n < hi + 1))]
    by_cases ht : b' = target
    · subst ht
      rw [push_self]
      by_cases hn : n = (Q b').length
      · subst hn
        simp
      · rw [if_neg (fun hh => hn hh.2), hold, getElem?_concat_of_ne hn]
    · rw [if_neg (fun hh => ht hh.1), push_of_ne Q x ht, hold]

/-- A hole that reaches the end of its queue is a shorter queue. -/
theorem Holed.truncate {lo : Nat} (h : Holed slot Q b lo (Q b).length) (b' : β) (n : Nat) :
    slot b' n = (update Q b ((Q b).take lo) b')[n]? := by
  rw [h b' n]
  by_cases hb : b' = b
  · subst hb
    rw [update_self]
    by_cases hn : n < lo
    · rw [if_neg (by omega), getElem?_take_of_lt hn]
    rw [getElem?_eq_none (l := take lo (Q b')) (by simp; omega)]
    split
    · rfl
    rename_i hnot
    have hge : (Q b').length ≤ n := by
      by_contra hlt
      exact hnot ⟨rfl, by omega, by omega⟩
    rw [getElem?_eq_none hge]
  · rw [if_neg (by simp [hb]), update_of_ne hb]

/-- A batch to other queues can be appended before or after a queue is cut. -/
theorem update_pushAll (xs : List (β × α)) (Q : β → List α) (b : β) (l : List α)
    (hne : ∀ x ∈ xs, x.1 ≠ b) : update (pushAll Q xs) b l = pushAll (update Q b l) xs := by
  funext b'
  by_cases hb : b' = b
  · subst hb
    rw [update_self, pushAll_of_ne hne, update_self]
  · rw [update_of_ne hb, pushAll_apply, pushAll_apply, update_of_ne hb]

/-- A cut queue and the batch of its end hold what was there. -/
theorem mem_of_mem_cut {b' : β} {n : Nat} {y : α} (hxs : xs.map Prod.snd = (Q b).drop n)
    (h : y ∈ pushAll (update Q b ((Q b).take n)) xs b') : y ∈ Q b' ∨ (b', y) ∈ xs ∧ y ∈ Q b := by
  rcases mem_pushAll.mp h with hold | hnew
  · left
    by_cases hb : b' = b
    · subst hb
      rw [update_self] at hold
      exact mem_of_mem_take hold
    · rwa [update_of_ne hb] at hold
  · exact .inr ⟨hnew, mem_of_mem_drop (hxs ▸ mem_map_of_mem (f := Prod.snd) hnew)⟩

section Distinct

variable {κ : Type*} {key : α → κ} {Q : β → List α}

/-- No key occurs twice in the family. -/
structure Distinct (key : α → κ) (Q : β → List α) : Prop where
  nodup : ∀ b, ((Q b).map key).Nodup
  disjoint : ∀ b b', b ≠ b' → ∀ x ∈ Q b, ∀ y ∈ Q b', key x ≠ key y

/-- The same key at two positions is one position. -/
theorem Distinct.position_unique (h : Distinct key Q) {b' : β} {n n' : Nat} {x y : α}
    (hx : (Q b)[n]? = some x) (hy : (Q b')[n']? = some y) (hkey : key x = key y) :
    b = b' ∧ n = n' := by
  by_cases hb : b = b'
  · subst hb
    refine ⟨rfl, ?_⟩
    have hx' : ((Q b).map key)[n]? = some (key x) := by simp [hx]
    have hy' : ((Q b).map key)[n']? = some (key y) := by simp [hy]
    obtain ⟨hlt, -⟩ := List.getElem?_eq_some_iff.mp hx'
    exact (getElem?_inj hlt (h.nodup b)).mp (by rw [hx', hy', hkey])
  · exact absurd hkey (h.disjoint b b' hb x (mem_of_getElem? hx) y (mem_of_getElem? hy))

theorem Distinct.push (h : Distinct key Q) (b : β) {x : α}
    (hx : ∀ b', ∀ y ∈ Q b', key y ≠ key x) : Distinct key (push Q b x) := by
  constructor
  · intro b'
    by_cases hb : b' = b
    · subst hb
      rw [push_self, map_append, nodup_append]
      refine ⟨h.nodup b', by simp, ?_⟩
      intro k hk k' hk'
      obtain ⟨y, hy, rfl⟩ := mem_map.mp hk
      obtain rfl : k' = key x := by simpa using hk'
      exact hx b' y hy
    · rw [push_of_ne Q x hb]
      exact h.nodup b'
  · intro b1 b2 hne y hy z hz
    rcases mem_push.mp hy with hold | ⟨hb1, rfl⟩
    · rcases mem_push.mp hz with hold' | ⟨hb2, rfl⟩
      · exact h.disjoint b1 b2 hne y hold z hold'
      · exact hx b1 y hold
    · rcases mem_push.mp hz with hold' | ⟨hb2, -⟩
      · exact (hx b2 z hold').symm
      · exact absurd (hb1.trans hb2.symm) hne

/-- A batch of new, distinct keys keeps the family distinct. -/
theorem Distinct.pushAll (xs : List (β × α)) (Q : β → List α) (h : Distinct key Q)
    (hnodup : (xs.map fun x => key x.2).Nodup) (hnew : ∀ x ∈ xs, ∀ b, ∀ y ∈ Q b, key y ≠ key x.2) :
    Distinct key (pushAll Q xs) := by
  induction xs generalizing Q with
  | nil => exact h
  | cons x xs ih =>
    rw [map_cons, nodup_cons] at hnodup
    apply ih _ (h.push x.1 (hnew x mem_cons_self)) hnodup.2
    intro y hy b z hz
    rcases mem_push.mp hz with hz | ⟨-, rfl⟩
    · exact hnew y (mem_cons_of_mem x hy) b z hz
    · intro heq
      exact hnodup.1 (mem_map.mpr ⟨y, hy, heq.symm⟩)

/-- Cutting a queue keeps the family distinct. -/
theorem Distinct.take (h : Distinct key Q) (b : β) (n : Nat) :
    Distinct key (update Q b ((Q b).take n)) := by
  have hsub : ∀ b', (update Q b ((Q b).take n) b').Sublist (Q b') := by
    intro b'
    by_cases hb : b' = b
    · subst hb
      rw [update_self]
      exact take_sublist n (Q b')
    · rw [update_of_ne hb]
  constructor
  · intro b'
    exact (h.nodup b').sublist ((hsub b').map key)
  · intro b1 b2 hne x hx y hy
    exact h.disjoint b1 b2 hne x ((hsub b1).subset hx) y ((hsub b2).subset hy)

/-- Cutting a queue and appending the rest elsewhere keeps the family
distinct. -/
theorem Distinct.cut (h : Distinct key Q) (b : β) (n : Nat) (hxs : xs.map Prod.snd = (Q b).drop n) :
    Distinct key (Queues.pushAll (update Q b ((Q b).take n)) xs) := by
  have hkeys : (xs.map fun x => key x.2) = ((Q b).drop n).map key := by
    rw [← hxs, map_map]
    rfl
  have hsplit : (((Q b).take n).map key ++ ((Q b).drop n).map key).Nodup := by
    rw [← map_append, take_append_drop]
    exact h.nodup b
  obtain ⟨-, hdrop, hapart⟩ := nodup_append.mp hsplit
  apply Distinct.pushAll xs _ (h.take b n) (by rw [hkeys]; exact hdrop)
  intro x hx b' y hy
  have hx' : x.2 ∈ (Q b).drop n := by
    rw [← hxs]
    exact mem_map_of_mem hx
  by_cases hb : b' = b
  · subst hb
    rw [update_self] at hy
    exact hapart _ (mem_map_of_mem hy) _ (mem_map_of_mem hx')
  · rw [update_of_ne hb] at hy
    exact h.disjoint b' b hb y hy x.2 (mem_of_mem_drop hx')

end Distinct

end Queues

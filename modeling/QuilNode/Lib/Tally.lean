import QuilNode.Lib.Store

/-!
# Tallies

A tally keeps an amount for each of some keys and is added to entry by entry.  An amount is the sum
of what was added (`amount_addAll`), or a sum over a finite universe of items, which changes by one
item's difference when one item changes (`sum_of_agree_off`) and is what a pass over a listing of
the contributing items finds (`sum_listing`).
-/

namespace Tally

open List Function Store

variable {κ M : Type*} [DecidableEq κ] [AddCommMonoid M]

/-- The amount of a key. -/
def amount (m : Store κ fun _ => M) (k : κ) : M := (m k).getD 0

/-- Add to a key's bucket, opening it where there is none. -/
def add (m : Store κ fun _ => M) (k : κ) (x : M) : Store κ fun _ => M :=
  m.write k (amount m k + x)

/-- Add the entries of a list in order. -/
def addAll (m : Store κ fun _ => M) (entries : List (κ × M)) : Store κ fun _ => M :=
  entries.foldl (fun m e => add m e.1 e.2) m

/-- What a list of entries brings to a key. -/
def contribution (entries : List (κ × M)) (k : κ) : M :=
  (entries.map fun e => if e.1 = k then e.2 else 0).sum

@[simp] theorem contribution_nil (k : κ) : contribution ([] : List (κ × M)) k = 0 := rfl

@[simp] theorem contribution_cons (e : κ × M) (entries : List (κ × M)) (k : κ) :
    contribution (e :: entries) k = (if e.1 = k then e.2 else 0) + contribution entries k := by
  simp [contribution]

@[simp] theorem contribution_append (xs ys : List (κ × M)) (k : κ) :
    contribution (xs ++ ys) k = contribution xs k + contribution ys k := by
  simp [contribution]

omit [DecidableEq κ] in
@[simp] theorem amount_empty (k : κ) : amount (empty : Store κ fun _ => M) k = 0 := rfl

theorem amount_add (m : Store κ fun _ => M) (k k' : κ) (x : M) :
    amount (add m k x) k' = amount m k' + if k = k' then x else 0 := by
  unfold add amount
  by_cases h : k = k'
  · subst h
    rw [write_self, if_pos rfl]
    rfl
  · rw [write_of_ne _ _ (Ne.symm h), if_neg h, add_zero]

theorem amount_addAll (m : Store κ fun _ => M) (entries : List (κ × M)) (k : κ) :
    amount (addAll m entries) k = amount m k + contribution entries k := by
  induction entries generalizing m with
  | nil => simp [addAll]
  | cons e entries ih =>
    have hcons : addAll m (e :: entries) = addAll (add m e.1 e.2) entries := rfl
    rw [hcons, ih, amount_add, contribution_cons, add_assoc]

/-- A bucket is there if it was, or if an entry went to it. -/
theorem addAll_isSome (m : Store κ fun _ => M) (entries : List (κ × M)) (k : κ) :
    (addAll m entries k).isSome = true ↔ (m k).isSome = true ∨ ∃ e ∈ entries, e.1 = k := by
  induction entries generalizing m with
  | nil => simp [addAll]
  | cons e entries ih =>
    have hcons : addAll m (e :: entries) = addAll (add m e.1 e.2) entries := rfl
    rw [hcons, ih]
    by_cases h : e.1 = k
    · subst h
      simp [add]
    · rw [add, write_of_ne _ _ (Ne.symm h)]
      simp [h]

theorem contribution_of_forall_ne {entries : List (κ × M)} {k : κ} (h : ∀ e ∈ entries, e.1 ≠ k) :
    contribution entries k = 0 := by
  induction entries with
  | nil => rfl
  | cons e entries ih =>
    rw [contribution_cons, if_neg (h e mem_cons_self),
      ih fun x hx => h x (mem_cons_of_mem _ hx), add_zero]

/-- Where keys do not repeat, a key gets its own entry. -/
theorem contribution_of_mem {entries : List (κ × M)} (hnodup : (entries.map Prod.fst).Nodup)
    {e : κ × M} (he : e ∈ entries) : contribution entries e.1 = e.2 := by
  induction entries with
  | nil => cases he
  | cons x entries ih =>
    rw [map_cons, nodup_cons] at hnodup
    rw [contribution_cons]
    rcases mem_cons.mp he with rfl | he
    · rw [if_pos rfl, contribution_of_forall_ne, add_zero]
      intro y hy heq
      exact hnodup.1 (heq ▸ mem_map_of_mem hy)
    · rw [if_neg, ih hnodup.2 he, zero_add]
      intro heq
      exact hnodup.1 (heq ▸ mem_map_of_mem he)

omit [DecidableEq κ] in
/-- Two tallies agree at a key where the amounts agree and neither has a bucket
of nothing. -/
theorem eq_of_amount {m m' : Store κ fun _ => M} {k : κ} (h : amount m k = amount m' k)
    (hm : (m k).isSome = true → amount m k ≠ 0) (hm' : (m' k).isSome = true → amount m' k ≠ 0) :
    m k = m' k := by
  unfold amount at h hm hm'
  cases hk : m k with
  | none =>
    cases hk' : m' k with
    | none => rfl
    | some =>
      rw [hk, hk'] at h
      rw [hk'] at hm'
      exact absurd h.symm (hm' rfl)
  | some =>
    cases hk' : m' k with
    | none =>
      rw [hk, hk'] at h
      rw [hk] at hm
      exact absurd h (hm rfl)
    | some =>
      rw [hk, hk'] at h
      exact congrArg some h

section Universe

variable {ι : Type*} [Fintype ι] [DecidableEq ι]

/-- A pass over the items that contribute finds the sum over all. -/
theorem sum_listing {items : List ι} (hnodup : items.Nodup) {f : ι → M}
    (hoff : ∀ i, i ∉ items → f i = 0) : (items.map f).sum = ∑ i, f i := by
  rw [← sum_toFinset f hnodup]
  refine Finset.sum_subset (Finset.subset_univ _) fun i _ hi => hoff i ?_
  rwa [mem_toFinset] at hi

/-- Where one item changes, the sum changes by that item's difference. -/
theorem sum_of_agree_off {G : Type*} [AddCommGroup G] {f g : ι → G} (i : ι)
    (h : ∀ j, j ≠ i → g j = f j) : ∑ j, g j = ∑ j, f j + (g i - f i) := by
  have hg : g = update f i (g i) := by
    funext j
    by_cases hj : j = i
    · subst hj
      rw [update_self]
    · rw [update_of_ne hj, h j hj]
  rw [hg, Finset.sum_update_of_mem (Finset.mem_univ i), update_self,
    ← Finset.add_sum_erase _ f (Finset.mem_univ i), Finset.sdiff_singleton_eq_erase]
  abel

end Universe

end Tally

import QuilNode.Lib.OrdMap

/-!
# Keeping the newest entries

Entries come under keys, in any order and with repeats, and only the `n` with the highest keys are
kept.  Keeping the newest of what was kept, step by step, is keeping the newest of everything
(`rtake_insertEntry`), and a lookup finds the last entry of its key exactly where fewer than `n`
keys are higher (`lookup_rtake`).
-/

namespace OrdMap

open List Prod Nat

variable {κ α : Type*} [LinearOrder κ]

theorem rtake_cons {x : α} {l : List α} {n : Nat} (h : n ≤ l.length) :
    (x :: l).rtake n = l.rtake n := by
  rw [rtake, rtake, length_cons, succ_sub h, drop_succ_cons]

theorem rtake_of_length_le {l : List α} {n : Nat} (h : l.length ≤ n) : l.rtake n = l := by
  rw [rtake, Nat.sub_eq_zero_of_le h, drop_zero]

theorem length_insertEntry (k : κ) (v : α) (l : List (κ × α)) :
    l.length ≤ (insertEntry k v l).length := by
  induction l with
  | nil => exact zero_le _
  | cons e rest ih =>
    unfold insertEntry
    split
    · exact le_succ _
    split
    · exact le_rfl
    · exact succ_le_succ ih

variable {k : κ} {v : α} {l : List (κ × α)}

theorem insertEntry_of_lt (h : ∀ e ∈ l, k < e.1) : insertEntry k v l = (k, v) :: l := by
  cases l with
  | nil => rfl
  | cons e => rw [insertEntry, if_pos (h e mem_cons_self)]

/-- The oldest of more than `n` entries is out of the newest `n` for good. -/
theorem rtake_insertEntry_cons {e : κ × α} {n : Nat}
    (hs : (e :: l).Pairwise (fun a b => a.1 < b.1)) (h : n ≤ l.length) :
    (insertEntry k v (e :: l)).rtake n = (insertEntry k v l).rtake n := by
  obtain ⟨hhead, -⟩ := pairwise_cons.mp hs
  rw [insertEntry]
  split
  · rename_i hlt
    rw [insertEntry_of_lt fun x hx => hlt.trans (hhead x hx),
      rtake_cons (h.trans (le_succ _)), rtake_cons h, rtake_cons h]
  · split
    · rename_i heq
      rw [insertEntry_of_lt fun x hx => heq ▸ hhead x hx]
    · exact rtake_cons (h.trans (length_insertEntry k v l))

/-- **What was dropped does not matter** to the newest after an insertion. -/
theorem rtake_insertEntry (hs : l.Pairwise (fun a b => a.1 < b.1)) (n : Nat) :
    (insertEntry k v (l.rtake n)).rtake n = (insertEntry k v l).rtake n := by
  induction l with
  | nil => rw [rtake_nil]
  | cons e l ih =>
    by_cases h : n ≤ l.length
    · rw [rtake_cons h, ih (pairwise_cons.mp hs).2, rtake_insertEntry_cons hs h]
    · have hall : (e :: l).rtake n = e :: l := rtake_of_length_le (not_le.mp h)
      rw [hall]

/-- A lookup in the newest entries. -/
theorem lookup_rtake (hs : l.Pairwise (fun a b => a.1 < b.1)) (n : Nat) (k : κ) :
    lookup k (l.rtake n) = if (l.filter (k < ·.1)).length < n then lookup k l else none := by
  induction l with
  | nil => rw [rtake_nil, lookup, ite_self]
  | cons e l ih =>
    obtain ⟨hhead, htail⟩ := pairwise_cons.mp hs
    have hall : e.1 = k → l.filter (k < ·.1) = l := fun hk =>
      filter_eq_self.mpr fun x hx => by simpa [← hk] using hhead x hx
    by_cases h : n ≤ l.length
    · rw [rtake_cons h, ih htail]
      by_cases hk : e.1 = k
      · -- as many entries above as are kept
        have hlong : ¬ l.length < n := by omega
        simp [hall hk, hk, hlong]
      · by_cases hlt : k < e.1
        · have hnone : lookup k l = none := lookup_eq_none fun x hx => (hlt.trans (hhead x hx)).ne'
          simp [lookup, hk, hnone]
        · simp [lookup, hk, hlt]
    · rw [rtake_of_length_le (not_le.mp h)]
      by_cases hk : e.1 = k
      · have hshort : l.length < n := by omega
        simp [hall hk, hk, hshort]
      by_cases hlt : k < e.1
      · have hnone : lookup k (e :: l) = none := by
          rw [lookup, if_neg hk]
          exact lookup_eq_none fun x hx => (hlt.trans (hhead x hx)).ne'
        simp [hnone]
      · have hshort : (l.filter (k < ·.1)).length < n := (length_filter_le ..).trans_lt (by omega)
        simp [hlt, hshort]

theorem orderedInsert_of_le {e : κ × α} (h : ∀ x ∈ l, e.1 ≤ x.1) :
    l.orderedInsert (fun a b => a.1 ≤ b.1) e = e :: l := by
  cases l with
  | nil => rfl
  | cons x l => exact orderedInsert_cons_of_le _ l (h x mem_cons_self)

/-- Replacing a key's entry and sorting is inserting at its place. -/
theorem insertionSort_replace (hs : l.Pairwise (fun a b => a.1 < b.1)) :
    ((l.filter (·.1 ≠ k)) ++ [(k, v)]).insertionSort (fun a b => a.1 ≤ b.1) = insertEntry k v l := by
  induction l with
  | nil => rfl
  | cons e l ih =>
    obtain ⟨hhead, htail⟩ := pairwise_cons.mp hs
    have hle : ∀ x ∈ l, e.1 ≤ x.1 := fun x hx => (hhead x hx).le
    rw [insertEntry]
    rcases lt_trichotomy e.1 k with hlt | rfl | hgt
    · rw [filter_cons_of_pos (by simpa using hlt.ne), cons_append, insertionSort_cons, ih htail,
        if_neg hlt.not_gt, if_neg hlt.ne]
      refine orderedInsert_of_le fun x hx => ?_
      rcases mem_insertEntry hx with rfl | hx
      · exact hlt.le
      · exact hle x hx
    · rw [filter_cons_of_neg (by simp), ih htail, insertEntry_of_lt hhead, if_neg (lt_irrefl _),
        if_pos rfl]
    · rw [filter_cons_of_pos (by simpa using hgt.ne'), cons_append, insertionSort_cons, ih htail,
        insertEntry_of_lt fun x hx => hgt.trans (hhead x hx), if_pos hgt,
        orderedInsert_cons, if_neg hgt.not_ge, orderedInsert_of_le hle]

/-- The last value that came under each key. -/
def ofList (l : List (κ × α)) : OrdMap κ α := l.foldl (fun m e => m.insert e.1 e.2) .empty

theorem ofList_concat (l : List (κ × α)) (e : κ × α) :
    ofList (l ++ [e]) = (ofList l).insert e.1 e.2 := by
  rw [ofList, foldl_append]
  rfl

theorem get?_ofList (l : List (κ × α)) (k : κ) : (ofList l).get? k = lookup k l.reverse := by
  induction l using reverseRecOn with
  | nil => rfl
  | append_singleton l e ih =>
    rw [ofList_concat, get?_insert, ih, reverse_append, reverse_singleton, singleton_append, lookup]

theorem lookup_isSome : (lookup k l).isSome ↔ k ∈ l.map fst := by
  induction l with
  | nil => simp [lookup]
  | cons e l ih =>
    rw [lookup, map_cons, mem_cons, ← ih]
    by_cases hk : e.1 = k
    · simp [hk]
    · simp [hk, Ne.symm hk]

/-- How many keys that came are higher. -/
theorem card_higher (l : List (κ × α)) (k : κ) : ((l.map fst).toFinset.filter (k < ·)).card =
      ((ofList l).entries.filter (k < ·.1)).length := by
  have hkeys : (l.map fst).toFinset = ((ofList l).entries.map fst).toFinset := by
    refine toFinset.ext fun k' => ?_
    have hget : lookup k' (ofList l).entries = lookup k' l.reverse := get?_ofList l k'
    rw [← mem_reverse, ← map_reverse, ← lookup_isSome, ← hget, lookup_isSome]
  have hnodup : (((ofList l).entries.map fst).filter (k < ·)).Nodup :=
    (pairwise_map.mpr ((ofList l).sorted.imp fun hlt => hlt.ne)).filter _
  calc ((l.map fst).toFinset.filter (k < ·)).card
      = (((ofList l).entries.map fst).filter (k < ·)).toFinset.card := by
        rw [hkeys, toFinset_filter]
        simp
    _ = ((ofList l).entries.filter (k < ·.1)).length := by
        rw [toFinset_card_of_nodup hnodup, filter_map, length_map]
        rfl

/-- The newest `n` of what came, looked up. -/
theorem lookup_newest (l : List (κ × α)) (n : Nat) (k : κ) : lookup k ((ofList l).entries.rtake n) =
      if ((l.map fst).toFinset.filter (k < ·)).card < n then lookup k l.reverse else none := by
  rw [lookup_rtake (ofList l).sorted, card_higher, ← get?_ofList]
  rfl

end OrdMap

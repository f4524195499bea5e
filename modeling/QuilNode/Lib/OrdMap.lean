import Mathlib

/-!
# Ordered finite maps

A finite map over a linear order, kept as the list of its entries in strictly
ascending key order.  The order is a field, so every map that can be built is
sorted and two maps with the same lookups are equal.

The list is the iteration order: code that walks a map front to back, or back
to front, walks `entries` or its reverse.
-/

open List Option

/-- A finite map whose entries are in strictly ascending key order. -/
structure OrdMap (κ α : Type*) [LinearOrder κ] where
  entries : List (κ × α)
  sorted : entries.Pairwise (fun a b => a.1 < b.1)

namespace OrdMap

variable {κ α : Type*} [LinearOrder κ]

/-- The value stored under `k` in an entry list. -/
def lookup (k : κ) : List (κ × α) → Option α
  | [] => none
  | e :: rest => if e.1 = k then some e.2 else lookup k rest

/-- The entry list with `k` bound to `v`, at its place in the order. -/
def insertEntry (k : κ) (v : α) : List (κ × α) → List (κ × α)
  | [] => [(k, v)]
  | e :: rest =>
    if k < e.1 then (k, v) :: e :: rest
    else if e.1 = k then (k, v) :: rest
    else e :: insertEntry k v rest

variable {l : List (κ × α)} {k : κ}

theorem lookup_eq_none (h : ∀ e ∈ l, e.1 ≠ k) : lookup k l = none := by
  induction l with
  | nil => rfl
  | cons e rest ih =>
    have hne : e.1 ≠ k := h e mem_cons_self
    have htail : lookup k rest = none := ih (fun x hx => h x (mem_cons_of_mem _ hx))
    simp [lookup, hne, htail]

variable {v : α}

theorem mem_of_lookup (h : lookup k l = some v) : (k, v) ∈ l := by
  induction l with
  | nil => cases h
  | cons e rest ih =>
    by_cases hk : e.1 = k
    · have hv : e.2 = v := by simpa [lookup, hk] using h
      have he : e = (k, v) := Prod.ext hk hv
      exact he ▸ mem_cons_self
    · exact mem_cons_of_mem _ (ih (by simpa [lookup, hk] using h))

theorem lookup_of_mem (hs : l.Pairwise (fun a b => a.1 < b.1)) (h : (k, v) ∈ l) :
    lookup k l = some v := by
  induction l with
  | nil => cases h
  | cons e rest ih =>
    obtain ⟨hhead, htail⟩ := pairwise_cons.mp hs
    rcases mem_cons.mp h with rfl | hrest
    · simp [lookup]
    · have hne : e.1 ≠ k := ne_of_lt (hhead _ hrest)
      simpa [lookup, hne] using ih htail hrest

theorem mem_insertEntry {e : κ × α} (h : e ∈ insertEntry k v l) : e = (k, v) ∨ e ∈ l := by
  induction l with
  | nil => exact .inl (mem_singleton.mp h)
  | cons x rest ih =>
    unfold insertEntry at h
    split at h
    · exact mem_cons.mp h
    split at h
    · rcases mem_cons.mp h with he | he
      · exact .inl he
      · exact .inr (mem_cons_of_mem _ he)
    · rcases mem_cons.mp h with he | he
      · exact .inr (he ▸ mem_cons_self)
      · exact (ih he).imp_right (mem_cons_of_mem _)

theorem sorted_insertEntry (hs : l.Pairwise (fun a b => a.1 < b.1)) :
    (insertEntry k v l).Pairwise (fun a b => a.1 < b.1) := by
  induction l with
  | nil => exact pairwise_singleton _ _
  | cons e rest ih =>
    obtain ⟨hhead, htail⟩ := pairwise_cons.mp hs
    unfold insertEntry
    split
    · rename_i hlt
      refine pairwise_cons.mpr ⟨fun x hx => ?_, hs⟩
      rcases mem_cons.mp hx with rfl | hx
      · exact hlt
      · exact hlt.trans (hhead x hx)
    · split
      · rename_i heq
        exact pairwise_cons.mpr ⟨fun x hx => heq ▸ hhead x hx, htail⟩
      · rename_i hnlt hne
        refine pairwise_cons.mpr ⟨fun x hx => ?_, ih htail⟩
        rcases mem_insertEntry hx with rfl | hx
        · exact lt_of_le_of_ne (not_lt.mp hnlt) hne
        · exact hhead x hx

theorem lookup_insertEntry (k : κ) (v : α) (hs : l.Pairwise (fun a b => a.1 < b.1)) (k' : κ) :
    lookup k' (insertEntry k v l) = if k = k' then some v else lookup k' l := by
  induction l with
  | nil => simp [insertEntry, lookup]
  | cons e rest ih =>
    obtain ⟨_, htail⟩ := pairwise_cons.mp hs
    unfold insertEntry
    split
    · simp [lookup]
    split
    · rename_i heq
      by_cases hk : k = k'
      · simp [lookup, hk]
      · simp [lookup, hk, heq]
    · rename_i hne
      by_cases hk : k = k'
      · subst hk
        simp [lookup, hne, ih htail]
      · simp [lookup, ih htail, hk]

/-- The map with no entries. -/
def empty : OrdMap κ α := ⟨[], List.Pairwise.nil⟩

instance : Inhabited (OrdMap κ α) := ⟨empty⟩

/-- The value bound to `k`. -/
def get? (m : OrdMap κ α) (k : κ) : Option α := lookup k m.entries

/-- Bind `k` to `v`, replacing an earlier binding. -/
def insert (m : OrdMap κ α) (k : κ) (v : α) : OrdMap κ α :=
  ⟨insertEntry k v m.entries, sorted_insertEntry m.sorted⟩

/-- Drop the binding of `k`. -/
def erase (m : OrdMap κ α) (k : κ) : OrdMap κ α :=
  ⟨m.entries.filter fun e => e.1 ≠ k, m.sorted.filter _⟩

@[simp] theorem get?_empty (k : κ) : (empty : OrdMap κ α).get? k = none := rfl

variable (m : OrdMap κ α)

@[simp] theorem get?_insert (k k' : κ) (v : α) :
    (m.insert k v).get? k' = if k = k' then some v else m.get? k' :=
  lookup_insertEntry k v m.sorted k'

variable {m : OrdMap κ α}

theorem mem_entries_iff : (k, v) ∈ m.entries ↔ m.get? k = some v :=
  ⟨lookup_of_mem m.sorted, mem_of_lookup⟩

theorem mem_insert {e : κ × α} (h : e ∈ (m.insert k v).entries) : e = (k, v) ∨ e ∈ m.entries :=
  mem_insertEntry h

theorem mem_erase {e : κ × α} : e ∈ (m.erase k).entries ↔ e ∈ m.entries ∧ e.1 ≠ k := by
  simp [erase]

theorem nodup_entries : m.entries.Nodup :=
  m.sorted.imp fun h heq => absurd (congrArg Prod.fst heq) (ne_of_lt h)

/-- Two maps with the same lookups are equal. -/
theorem ext_get? {m' : OrdMap κ α} (h : ∀ k, m.get? k = m'.get? k) : m = m' := by
  have hmem : ∀ e, e ∈ m.entries ↔ e ∈ m'.entries := by
    rintro ⟨k, v⟩
    rw [mem_entries_iff, mem_entries_iff, h k]
  have hperm := (perm_ext_iff_of_nodup m.nodup_entries m'.nodup_entries).mpr hmem
  have hlist : m.entries = m'.entries :=
    hperm.eq_of_pairwise (fun a b _ _ hab hba => absurd hba (not_lt_of_gt hab)) m.sorted m'.sorted
  cases m
  cases hlist
  rfl

@[simp] theorem get?_erase (k k' : κ) :
    (m.erase k).get? k' = if k = k' then none else m.get? k' := by
  apply ext
  intro v
  rw [← mem_entries_iff, mem_erase]
  by_cases hk : k = k'
  · simp [hk]
  · simp [mem_entries_iff, hk, Ne.symm hk]

/-- What is bound in no map is bound nowhere. -/
theorem entries_eq_nil : m.entries = [] ↔ ∀ k, m.get? k = none := by
  constructor
  · intro h k
    simp [get?, h, lookup]
  · intro h
    have hempty : m = empty := ext_get? fun k => by rw [h k, get?_empty]
    rw [hempty]
    rfl

/-- The bindings a function keeps, with the values it gives them. -/
def filterMap {β : Type*} (f : κ → α → Option β) (m : OrdMap κ α) : OrdMap κ β where
  entries := m.entries.filterMap fun e => (f e.1 e.2).map fun v => (e.1, v)
  sorted := by
    refine List.Pairwise.filterMap _ (fun a b hab c hc d hd => ?_) m.sorted
    obtain ⟨_, _, rfl⟩ := Option.map_eq_some_iff.mp hc
    obtain ⟨_, _, rfl⟩ := Option.map_eq_some_iff.mp hd
    exact hab

@[simp] theorem get?_filterMap {β : Type*} (f : κ → α → Option β) (m : OrdMap κ α) (k : κ) :
    (m.filterMap f).get? k = (m.get? k).bind (f k) := by
  apply ext
  intro v
  rw [← mem_entries_iff, bind_eq_some_iff]
  simp only [filterMap, mem_filterMap, map_eq_some_iff, Prod.mk.injEq, Prod.exists]
  constructor
  · rintro ⟨k', a, hmem, v', hf, rfl, rfl⟩
    exact ⟨a, mem_entries_iff.mp hmem, hf⟩
  · rintro ⟨a, hget, hf⟩
    exact ⟨k, a, mem_entries_iff.mpr hget, v, hf, rfl, rfl⟩

/-- Bind `k` to a value, or unbind it. -/
def set (m : OrdMap κ α) (k : κ) : Option α → OrdMap κ α
  | none => m.erase k
  | some v => m.insert k v

@[simp] theorem get?_set (k k' : κ) (o : Option α) :
    (m.set k o).get? k' = if k = k' then o else m.get? k' := by
  cases o <;> simp [set]

theorem set_get? (k : κ) : m.set k (m.get? k) = m := by
  apply ext_get?
  intro k'
  rw [get?_set]
  split
  · rename_i h
    rw [h]
  · rfl

theorem insert_erase (k : κ) (v : α) : (m.erase k).insert k v = m.insert k v := by
  apply ext_get?
  intro k'
  simp only [get?_erase, get?_insert]
  split <;> rfl

theorem erase_of_get? (h : m.get? k = none) : m.erase k = m := by
  have hset := m.set_get? k
  rwa [h] at hset

end OrdMap

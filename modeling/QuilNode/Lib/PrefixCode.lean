import Mathlib

/-!
# Complete prefix-free sets of paths

Paths over an alphabet name the subtrees of an infinite tree; a stream is one of
its branches.  Rows tile a subtree when no row's path is a prefix of another's and
every branch of the subtree runs through some row, so through exactly one.

A tiling survives two changes: a row gives way to rows that tile its own subtree,
and the rows that overlap a subtree give way to one row for all of it.
-/

namespace PrefixCode

open List

variable {α ρ : Type*}

/-- The branch runs through the path's subtree. -/
def Begins (s : Nat → α) (p : List α) : Prop := ∀ i, ∀ h : i < p.length, p[i] = s i

/-- The branch that follows a path and goes on as another branch. -/
def follow (p : List α) (s : Nat → α) : Nat → α := fun i =>
  if h : i < p.length then p[i] else s (i - p.length)

@[simp] theorem begins_nil (s : Nat → α) : Begins s [] := fun _ h => absurd h (by simp)

variable {s : Nat → α} {p : List α}

/-- A path is compared with the branch bit by bit. -/
theorem all_zipIdx_iff [BEq α] [LawfulBEq α] :
    (p.zipIdx.all fun x => s x.2 == x.1) = true ↔ Begins s p := by
  simp only [all_eq_true, mem_zipIdx_iff_getElem?, beq_iff_eq, Prod.forall]
  constructor
  · intro h i hi
    exact (h _ _ (List.getElem?_eq_getElem hi)).symm
  · intro h b i hb
    obtain ⟨hi, rfl⟩ := List.getElem?_eq_some_iff.mp hb
    exact (h i hi).symm

theorem begins_append {q : List α} :
    Begins s (p ++ q) ↔ Begins s p ∧ Begins (fun i => s (p.length + i)) q := by
  constructor
  · intro h
    refine ⟨fun i hi => ?_, fun i hi => ?_⟩
    · rw [← h i (by simp; omega), getElem_append_left hi]
    · have hnext := h (p.length + i) (by simp; omega)
      simpa using hnext
  · intro ⟨hp, hq⟩ i hi
    by_cases hlt : i < p.length
    · rw [getElem_append_left hlt, hp i hlt]
    have hlength : i - p.length < q.length := by
      rw [length_append] at hi
      omega
    rw [getElem_append_right (by omega), hq _ hlength]
    exact congrArg s (Nat.add_sub_cancel' (by omega))

theorem begins_concat {a : α} : Begins s (p ++ [a]) ↔ Begins s p ∧ s p.length = a := by
  rw [begins_append]
  refine and_congr_right fun _ => ⟨fun h => (h 0 (by simp)).symm, fun h i hi => ?_⟩
  obtain rfl : i = 0 := by simpa using hi
  exact h.symm

theorem begins_follow (p : List α) (s : Nat → α) : Begins (follow p s) p := fun i hi => by
  rw [follow, dif_pos hi]

theorem begins_follow_append {q : List α} : Begins (follow p s) (p ++ q) ↔ Begins s q := by
  have htail : (fun i => follow p s (p.length + i)) = s := by
    funext i
    rw [follow, dif_neg (by omega)]
    congr 1
    omega
  rw [begins_append, htail]
  exact ⟨And.right, fun h => ⟨begins_follow p s, h⟩⟩

theorem Begins.of_isPrefix {q : List α} (h : Begins s q) (hpq : p <+: q) : Begins s p := by
  obtain ⟨_, rfl⟩ := hpq
  exact (begins_append.mp h).1

/-- Two subtrees with a common branch are nested. -/
theorem Begins.nested {q : List α} (hp : Begins s p) (hq : Begins s q) : p <+: q ∨ q <+: p := by
  have hbegin : ∀ {p q : List α}, Begins s p → Begins s q → p.length ≤ q.length → p <+: q := by
    intro p q hp hq hle
    rw [prefix_iff_getElem]
    exact ⟨hle, fun i hi => (hp i hi).trans (hq i (by omega)).symm⟩
  rcases Nat.le_total p.length q.length with hle | hle
  · exact .inl (hbegin hp hq hle)
  · exact .inr (hbegin hq hp hle)

/-- The rows tile the subtree of `top`: they lie below it, every branch below it runs through one,
and none is a prefix of another. -/
structure Tiles (path : ρ → List α) (rows : Set ρ) (top : List α) : Prop where
  below : ∀ r ∈ rows, top <+: path r
  complete : ∀ s, Begins s top → ∃ r ∈ rows, Begins s (path r)
  prefixFree : ∀ r ∈ rows, ∀ r' ∈ rows, path r <+: path r' → r = r'

namespace Tiles

variable {path : ρ → List α} {rows : Set ρ} {top : List α}

/-- A branch runs through one row only. -/
theorem eq_of_begins (h : Tiles path rows top) {r r' : ρ} (hr : r ∈ rows)
    (hr' : r' ∈ rows) (hs : Begins s (path r)) (hs' : Begins s (path r')) : r = r' := by
  rcases hs.nested hs' with hbegin | hbegin
  · exact h.prefixFree r hr r' hr' hbegin
  · exact (h.prefixFree r' hr' r hr hbegin).symm

theorem existsUnique (h : Tiles path rows top) (hs : Begins s top) :
    ∃! r, r ∈ rows ∧ Begins s (path r) := by
  obtain ⟨r, hr, hbegins⟩ := h.complete s hs
  exact ⟨r, ⟨hr, hbegins⟩, fun r' hr' => h.eq_of_begins hr'.1 hr hr'.2 hbegins⟩

/-- Rows that share no branch are prefix-free. -/
theorem of_separate [Inhabited α] (hbelow : ∀ r ∈ rows, top <+: path r)
    (hcomplete : ∀ s, Begins s top → ∃ r ∈ rows, Begins s (path r))
    (hseparate : ∀ s, ∀ r ∈ rows, ∀ r' ∈ rows, Begins s (path r) → Begins s (path r') → r = r') :
    Tiles path rows top := by
  refine ⟨hbelow, hcomplete, fun r hr r' hr' hbegin => ?_⟩
  have hbegins := begins_follow (path r') fun _ => default
  exact hseparate _ r hr r' hr' (hbegins.of_isPrefix hbegin) hbegins

/-- One row tiles its own subtree. -/
theorem singleton (path : ρ → List α) (r : ρ) : Tiles path {r} (path r) where
  below := fun _ hr => hr ▸ prefix_refl _
  complete := fun _ hs => ⟨r, rfl, hs⟩
  prefixFree := fun _ hr _ hr' _ => hr.trans hr'.symm

/-- **Splitting.**  A row gives way to rows that tile its subtree. -/
theorem split [Inhabited α] (h : Tiles path rows top) {r0 : ρ} (hr0 : r0 ∈ rows) {parts : Set ρ}
    (hparts : Tiles path parts (path r0)) : Tiles path (rows \ {r0} ∪ parts) top := by
  have hpart : ∀ {s r}, r ∈ parts → Begins s (path r) → Begins s (path r0) := fun hr hs =>
    hs.of_isPrefix (hparts.below _ hr)
  refine of_separate ?_ ?_ ?_
  · intro r hr
    rcases hr with hr | hr
    · exact h.below r hr.1
    · exact (h.below r0 hr0).trans (hparts.below r hr)
  · intro s hs
    obtain ⟨r, hr, hbegins⟩ := h.complete s hs
    by_cases hsame : r = r0
    · subst hsame
      obtain ⟨q, hq, hqbegins⟩ := hparts.complete s hbegins
      exact ⟨q, .inr hq, hqbegins⟩
    · exact ⟨r, .inl ⟨hr, hsame⟩, hbegins⟩
  · intro s r hr r' hr' hs hs'
    rcases hr with hr | hr <;> rcases hr' with hr' | hr'
    · exact h.eq_of_begins hr.1 hr'.1 hs hs'
    · exact absurd (h.eq_of_begins hr.1 hr0 hs (hpart hr' hs')) hr.2
    · exact absurd (h.eq_of_begins hr'.1 hr0 hs' (hpart hr hs)) hr'.2
    · exact hparts.eq_of_begins hr hr' hs hs'

/-- **Merging.**  One row takes the place of those in its subtree, among which is every row that
overlaps it. -/
theorem merge [Inhabited α] (h : Tiles path rows top) (r0 : ρ) (parts : Set ρ)
    (hbelow : top <+: path r0) (hparts : ∀ r ∈ parts, path r0 <+: path r)
    (hoverlap : ∀ r ∈ rows, path r0 <+: path r ∨ path r <+: path r0 → r = r0 ∨ r ∈ parts) :
    Tiles path (rows \ parts ∪ {r0}) top := by
  have hkept : ∀ {s r}, r ∈ rows \ parts → Begins s (path r) → Begins s (path r0) → r = r0 := by
    intro s r hr hs hs0
    exact (hoverlap r hr.1 (hs0.nested hs)).resolve_right hr.2
  refine of_separate ?_ ?_ ?_
  · intro r hr
    rcases hr with hr | hr
    · exact h.below r hr.1
    · exact hr ▸ hbelow
  · intro s hs
    by_cases hs0 : Begins s (path r0)
    · exact ⟨r0, .inr rfl, hs0⟩
    obtain ⟨r, hr, hbegins⟩ := h.complete s hs
    refine ⟨r, .inl ⟨hr, fun hpart => hs0 ?_⟩, hbegins⟩
    exact hbegins.of_isPrefix (hparts r hpart)
  · intro s r hr r' hr' hs hs'
    rcases hr with hr | hr <;> rcases hr' with hr' | hr'
    · exact h.eq_of_begins hr.1 hr'.1 hs hs'
    · exact (hkept hr hs (hr' ▸ hs')).trans hr'.symm
    · exact hr.trans (hkept hr' hs' (hr ▸ hs)).symm
    · exact hr.trans hr'.symm

/-- A tiling through other names for the rows. -/
theorem image {σ : Type*} (h : Tiles path rows top) (path' : σ → List α) (f : ρ → σ)
    (hf : ∀ r ∈ rows, path' (f r) = path r) : Tiles path' (f '' rows) top where
  below := by
    rintro _ ⟨r, hr, rfl⟩
    exact hf r hr ▸ h.below r hr
  complete := by
    intro s hs
    obtain ⟨r, hr, hbegins⟩ := h.complete s hs
    exact ⟨f r, ⟨r, hr, rfl⟩, hf r hr ▸ hbegins⟩
  prefixFree := by
    rintro _ ⟨r, hr, rfl⟩ _ ⟨r', hr', rfl⟩ hbegin
    rw [hf r hr, hf r' hr'] at hbegin
    rw [h.prefixFree r hr r' hr' hbegin]

end Tiles

/-- The siblings passed on the way from `p` down to `p ++ q`. -/
def copath (p : List Bool) : List Bool → List (List Bool)
  | [] => []
  | b :: q => (p ++ [!b]) :: copath (p ++ [b]) q

theorem length_lt_of_mem_copath {p q r : List Bool} (h : r ∈ copath p q) : p.length < r.length := by
  induction q generalizing p with
  | nil => cases h
  | cons b q ih =>
    rcases mem_cons.mp h with rfl | h
    · simp
    have := ih h
    rw [length_append, length_singleton] at this
    omega

/-- The two halves of a subtree. -/
theorem tiles_halves (p : List Bool) (b : Bool) : Tiles id {p ++ [b], p ++ [!b]} p := by
  refine Tiles.of_separate ?_ ?_ ?_
  · intro r hr
    rcases hr with rfl | rfl
    · exact prefix_append _ _
    · exact prefix_append _ _
  · intro s hs
    by_cases hb : s p.length = b
    · exact ⟨_, .inl rfl, begins_concat.mpr ⟨hs, hb⟩⟩
    · exact ⟨_, .inr rfl, begins_concat.mpr ⟨hs, Bool.eq_not.mpr hb⟩⟩
  · intro s r hr r' hr' hs hs'
    rcases hr with rfl | rfl <;> rcases hr' with rfl | rfl
    case inl.inl | inr.inr => rfl
    all_goals simpa using (begins_concat.mp hs).2.symm.trans (begins_concat.mp hs').2

/-- **A descent leaves its co-path**: rows that tile its end and the siblings passed on the way tile
the subtree it started in. -/
theorem tiles_copath {p q : List Bool} {parts : Set (List Bool)}
    (hparts : Tiles id parts (p ++ q)) : Tiles id ({r | r ∈ copath p q} ∪ parts) p := by
  induction q generalizing p with
  | nil => simpa [copath] using hparts
  | cons b q ih =>
    have hne : p ++ [!b] ≠ p ++ [b] := by simp
    rw [append_cons] at hparts
    have hsplit := (tiles_halves p b).split (.inl rfl) (ih hparts)
    have hsets : {r | r ∈ copath p (b :: q)} ∪ parts =
        {p ++ [b], p ++ [!b]} \ {p ++ [b]} ∪ ({r | r ∈ copath (p ++ [b]) q} ∪ parts) := by
      ext r
      constructor
      · intro hr
        rcases hr with hr | hr
        · rcases mem_cons.mp hr with rfl | hr
          · exact .inl ⟨.inr rfl, hne⟩
          · exact .inr (.inl hr)
        · exact .inr (.inr hr)
      · intro hr
        rcases hr with ⟨rfl | rfl, hr⟩ | hr | hr
        · exact absurd rfl hr
        · exact .inl mem_cons_self
        · exact .inl (mem_cons_of_mem _ hr)
        · exact .inr hr
    rw [hsets]
    exact hsplit

end PrefixCode

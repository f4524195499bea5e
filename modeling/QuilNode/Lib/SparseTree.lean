import Mathlib

/-!
# Sparse binary trees

A binary tree over positions `(level, index)`, counted from the leaves.  Some positions have a node
placed at them; every other node is the parent of its children, and a leaf without a placement is
zero.  A position's value (`node`) depends on the placements at or below it only (`node_congr`), and
placements may be exchanged for coarser ones (`node_coarsen`).
-/

namespace SparseTree

open List Option Nat Or

/-- A zero leaf and a way to combine two children. -/
structure Hasher (ν : Type*) where
  zero : ν
  parent : ν → ν → ν

variable {ν : Type*} (h : Hasher ν)

/-- The root of the subtree of `level` levels without placements. -/
def zeroNode : Nat → ν
  | 0 => h.zero
  | level + 1 => h.parent (zeroNode level) (zeroNode level)

/-- The value at a position, over the placed nodes. -/
def node (place : Nat → Nat → Option ν) : Nat → Nat → ν
  | 0, i => (place 0 i).getD h.zero
  | l + 1, i =>
    match place (l + 1) i with
    | some n => n
    | none => h.parent (node place l (2 * i)) (node place l (2 * i + 1))

/-- Position `(l, i)` is `(l', i')` or lies in its subtree. -/
def Under (l i l' i' : Nat) : Prop := l ≤ l' ∧ i / 2 ^ (l' - l) = i'

variable {h} {place place' : Nat → Nat → Option ν} {l i l' i' l'' i'' : Nat}

@[simp] theorem under_refl (l i : Nat) : Under l i l i := by
  simp [Under]

theorem Under.trans (hab : Under l i l' i') (hbc : Under l' i' l'' i'') : Under l i l'' i'' := by
  obtain ⟨hl, rfl⟩ := hab
  obtain ⟨hl', rfl⟩ := hbc
  refine ⟨hl.trans hl', ?_⟩
  have hexp : l'' - l = (l' - l) + (l'' - l') := by omega
  rw [hexp, Nat.pow_add, Nat.div_div_eq_div_mul]

/-- A position below `(l + 1, i)` is that position or lies below a child. -/
theorem under_succ_iff : Under l' i' (l + 1) i ↔
      (l' = l + 1 ∧ i' = i) ∨ Under l' i' l (2 * i) ∨ Under l' i' l (2 * i + 1) := by
  by_cases htop : l' = l + 1
  · subst htop
    simp [Under]
  by_cases hle : l' ≤ l
  · have hexp : l + 1 - l' = (l - l') + 1 := by omega
    have hdiv : i' / 2 ^ (l + 1 - l') = i' / 2 ^ (l - l') / 2 := by
      rw [hexp, Nat.pow_succ, Nat.div_div_eq_div_mul]
    unfold Under
    omega
  · simp only [Under]
    omega

theorem under_left (l i : Nat) : Under l (2 * i) (l + 1) i :=
  under_succ_iff.mpr (inr (inl (under_refl l (2 * i))))

theorem under_right (l i : Nat) : Under l (2 * i + 1) (l + 1) i :=
  under_succ_iff.mpr (inr (inr (under_refl l (2 * i + 1))))

theorem under_level_iff : Under l i l i' ↔ i = i' := by
  simp [Under]

/-- Of two positions at or above one, the lower is under the higher. -/
theorem Under.of_le (hab : Under l i l' i') (hac : Under l i l'' i'') (hle : l' ≤ l'') :
    Under l' i' l'' i'' := by
  obtain ⟨_, rfl⟩ := hab
  obtain ⟨-, rfl⟩ := hac
  have hexp : l'' - l = (l' - l) + (l'' - l') := by omega
  exact ⟨hle, by rw [hexp, Nat.pow_add, Nat.div_div_eq_div_mul]⟩

theorem node_of_place {n : ν} (hn : place l i = some n) : node h place l i = n := by
  cases l <;> simp [node, hn]

theorem node_succ_of_none (hn : place (l + 1) i = none) :
    node h place (l + 1) i = h.parent (node h place l (2 * i)) (node h place l (2 * i + 1)) := by
  simp [node, hn]

/-- **Locality.**  A value depends on the placements at or below it only. -/
theorem node_congr {l i : Nat} (hsame : ∀ l' i', Under l' i' l i → place l' i' = place' l' i') :
    node h place l i = node h place' l i := by
  induction l generalizing i with
  | zero =>
    simp [node, hsame 0 i (under_refl 0 i)]
  | succ l ih =>
    have hleft := ih (i := 2 * i) fun l' i' hu => hsame l' i' (hu.trans (under_left l i))
    have hright := ih (i := 2 * i + 1) fun l' i' hu => hsame l' i' (hu.trans (under_right l i))
    simp only [node, hsame (l + 1) i (under_refl _ i), hleft, hright]

/-- A subtree without placements is the zero subtree of its level. -/
theorem node_eq_zeroNode (hnone : ∀ l' i', Under l' i' l i → place l' i' = none) :
    node h place l i = zeroNode h l := by
  induction l generalizing i with
  | zero => simp [node, zeroNode, hnone 0 i (under_refl 0 i)]
  | succ l ih =>
    rw [node_succ_of_none (hnone _ _ (under_refl _ i)), zeroNode,
      ih fun l' i' hu => hnone l' i' (hu.trans (under_left l i)),
      ih fun l' i' hu => hnone l' i' (hu.trans (under_right l i))]

/-- **Coarser placements.**  If `coarse` places the nodes of `place`, and every placed position lies
under one of `coarse`, both give the same value to every position that no placement of `coarse` lies
strictly above. -/
theorem node_coarsen {coarse : Nat → Nat → Option ν}
    (hvalue : ∀ l i n, coarse l i = some n → n = node h place l i)
    (hcover : ∀ l i, place l i ≠ none → ∃ l' i', Under l i l' i' ∧ coarse l' i' ≠ none) :
    ∀ {l i : Nat}, (∀ l' i', Under l i l' i' → l < l' → coarse l' i' = none) →
      node h coarse l i = node h place l i := by
  -- at a free position nothing coarse lies at or above it, and so nothing is placed there
  have hfree : ∀ {l i : Nat}, (∀ l' i', Under l i l' i' → l < l' → coarse l' i' = none) →
      coarse l i = none → (∀ l' i', Under l i l' i' → coarse l' i' = none) ∧ place l i = none := by
    intro l i habove hc
    have hall : ∀ l' i', Under l i l' i' → coarse l' i' = none := by
      intro l' i' hu
      rcases eq_or_lt_of_le hu.1 with rfl | hlt
      · exact under_level_iff.mp hu ▸ hc
      · exact habove l' i' hu hlt
    refine ⟨hall, ?_⟩
    by_contra hne
    obtain ⟨l', i', hu, hsome⟩ := hcover l i hne
    exact hsome (hall l' i' hu)
  intro l i habove
  induction l generalizing i with
  | zero =>
    cases hc : coarse 0 i with
    | some n => rw [node_of_place hc, hvalue 0 i n hc]
    | none => simp [node, hc, (hfree habove hc).2]
  | succ l ih =>
    cases hc : coarse (l + 1) i with
    | some n => rw [node_of_place hc, hvalue (l + 1) i n hc]
    | none =>
      obtain ⟨hall, hp⟩ := hfree habove hc
      have hchild : ∀ c, Under l c (l + 1) i →
          ∀ l' i', Under l c l' i' → l < l' → coarse l' i' = none :=
        fun c hc l' i' hu hlt => hall l' i' (hc.of_le hu hlt)
      rw [node_succ_of_none hc, node_succ_of_none hp,
        ih (hchild _ (under_left l i)), ih (hchild _ (under_right l i))]

/-- A subtree read with indices counted from its own left edge. -/
theorem node_shift {top base : Nat} {l j : Nat} (hle : l ≤ top) :
    node h (fun l j => place l (j + base * 2 ^ (top - l))) l j =
      node h place l (j + base * 2 ^ (top - l)) := by
  induction l generalizing j with
  | zero => rfl
  | succ l ih =>
    have hexp : top - l = (top - (l + 1)) + 1 := by omega
    have hleft : 2 * j + base * 2 ^ (top - l) = 2 * (j + base * 2 ^ (top - (l + 1))) := by
      rw [hexp, pow_succ]
      ring
    have hright : 2 * j + 1 + base * 2 ^ (top - l) = 2 * (j + base * 2 ^ (top - (l + 1))) + 1 := by
      rw [← hleft]
      ring
    simp only [node]
    rw [ih (by omega), ih (by omega), hleft, hright]

/-- Values carry over along a map that respects zero and parents. -/
theorem node_hom {μ : Type*} {g : Hasher μ} (place : Nat → Nat → Option ν) (f : ν → μ)
    (hzero : f h.zero = g.zero)
    (hparent : ∀ a b, f (h.parent a b) = g.parent (f a) (f b)) (l i : Nat) :
    f (node h place l i) = node g (fun l i => (place l i).map f) l i := by
  induction l generalizing i with
  | zero => cases hp : place 0 i <;> simp [node, hp, hzero]
  | succ l ih => cases hp : place (l + 1) i <;> simp [node, hp, hparent, ih]

section Lists

/-- The placements of a node list. -/
def placeOf (nodes : List (Nat × Nat × ν)) (l i : Nat) : Option ν :=
  (nodes.find? fun x => x.1 = l ∧ x.2.1 = i).map fun x => x.2.2

/-- No placement lies at or inside another's position. -/
def PrefixFree (nodes : List (Nat × Nat × ν)) : Prop :=
  nodes.Pairwise fun a b => ¬ Under a.1 a.2.1 b.1 b.2.1 ∧ ¬ Under b.1 b.2.1 a.1 a.2.1

variable {nodes : List (Nat × Nat × ν)}

theorem mem_of_placeOf {l i : Nat} {n : ν} (hn : placeOf nodes l i = some n) :
    (l, i, n) ∈ nodes := by
  unfold placeOf at hn
  rw [map_eq_some_iff] at hn
  obtain ⟨_, hfind, rfl⟩ := hn
  have hmem := mem_of_find?_eq_some hfind
  have hx := find?_some hfind
  simp only [decide_eq_true_eq] at hx
  rw [← hx.1, ← hx.2]
  exact hmem

/-- Two placements of a prefix-free list, one under the other, are one. -/
theorem PrefixFree.eq_of_under (hfree : PrefixFree nodes) {a b : Nat × Nat × ν}
    (ha : a ∈ nodes) (hb : b ∈ nodes) (hu : Under a.1 a.2.1 b.1 b.2.1) : a = b := by
  by_contra hne
  have hsymm : Std.Symm fun a b : Nat × Nat × ν =>
      ¬ Under a.1 a.2.1 b.1 b.2.1 ∧ ¬ Under b.1 b.2.1 a.1 a.2.1 := ⟨fun _ _ h => ⟨h.2, h.1⟩⟩
  exact (List.Pairwise.forall hfree ha hb hne).1 hu

theorem PrefixFree.placeOf_eq (hfree : PrefixFree nodes) {l i : Nat} {n : ν}
    (hmem : (l, i, n) ∈ nodes) : placeOf nodes l i = some n := by
  cases hplace : placeOf nodes l i with
  | none =>
    simp only [placeOf, map_eq_none_iff, find?_eq_none] at hplace
    exact absurd (hplace _ hmem) (by simp)
  | some =>
    have heq := hfree.eq_of_under (mem_of_placeOf hplace) hmem (under_refl l i)
    cases heq
    rfl

theorem PrefixFree.placeOf_eq_some_iff (hfree : PrefixFree nodes) {l i : Nat} {n : ν} :
    placeOf nodes l i = some n ↔ (l, i, n) ∈ nodes :=
  ⟨mem_of_placeOf, hfree.placeOf_eq⟩

/-- Nodes of one level at distinct indices. -/
theorem prefixFree_row {α : Type*} (l : Nat) (key : α → Nat) (f : α → ν) {as : List α}
    (hne : as.Pairwise fun a b => key a ≠ key b) :
    PrefixFree (as.map fun a => (l, key a, f a)) := by
  refine pairwise_map.mpr (hne.imp fun {a b} hab => ?_)
  exact ⟨fun hu => hab (under_level_iff.mp hu), fun hu => hab (under_level_iff.mp hu).symm⟩

section Permuted

variable {nodes' : List (Nat × Nat × ν)} (hfree : PrefixFree nodes) (hperm : nodes.Perm nodes')
include hfree hperm

theorem PrefixFree.perm : PrefixFree nodes' :=
  hperm.pairwise hfree fun hab => ⟨hab.2, hab.1⟩

/-- Placements may be listed in any order. -/
theorem PrefixFree.placeOf_perm : placeOf nodes' = placeOf nodes := by
  funext l i
  apply ext
  intro n
  rw [hfree.placeOf_eq_some_iff, (hfree.perm hperm).placeOf_eq_some_iff, hperm.mem_iff]

end Permuted

/-- Mapping the placed nodes maps the placements. -/
theorem placeOf_map {μ : Type*} (f : ν → μ) (nodes : List (Nat × Nat × ν)) (l i : Nat) :
    placeOf (nodes.map fun x => (x.1, x.2.1, f x.2.2)) l i = (placeOf nodes l i).map f := by
  unfold placeOf
  rw [find?_map, Option.map_map, Option.map_map]
  rfl

/-- A subtree's nodes renumbered from its own left edge. -/
theorem node_renumbered {l i : Nat} (hunder : ∀ x ∈ nodes, Under x.1 x.2.1 l i) :
    node h (placeOf (nodes.map fun x => (x.1, x.2.1 - i * 2 ^ (l - x.1), x.2.2))) l 0 =
      node h (placeOf nodes) l i := by
  have hplace : ∀ l' j, placeOf (nodes.map fun x => (x.1, x.2.1 - i * 2 ^ (l - x.1), x.2.2)) l' j =
      placeOf nodes l' (j + i * 2 ^ (l - l')) := by
    intro l' j
    unfold placeOf
    induction nodes with
    | nil => rfl
    | cons x rest ih =>
      obtain ⟨hx, hrest⟩ := forall_mem_cons.mp hunder
      have hedge : i * 2 ^ (l - x.1) ≤ x.2.1 := hx.2 ▸ div_mul_le_self ..
      have hiff : (x.1 = l' ∧ x.2.1 - i * 2 ^ (l - x.1) = j) ↔
          (x.1 = l' ∧ x.2.1 = j + i * 2 ^ (l - l')) := by
        refine and_congr_right fun hl => ?_
        subst hl
        omega
      simp only [map_cons, find?_cons, hiff]
      split
      · rfl
      · exact ih hrest
  have hshift := @node_shift _ h (placeOf nodes) l i l 0 le_rfl
  rw [Nat.sub_self, Nat.pow_zero, Nat.mul_one, Nat.zero_add] at hshift
  rw [← hshift]
  exact node_congr fun l' j _ => hplace l' j

end Lists

/-- Numbers with addition: a position's value is the sum of what is placed at
or below it. -/
def adder : Hasher Nat := ⟨0, (· + ·)⟩

theorem zeroNode_adder (l : Nat) : zeroNode adder l = 0 := by
  induction l with
  | zero => rfl
  | succ l ih => simp [zeroNode, adder] at ih ⊢; exact ih

instance (l i l' i' : Nat) : Decidable (Under l i l' i') :=
  inferInstanceAs (Decidable (_ ∧ _))

/-- One more placement, neither above nor below another, adds its value to
every position above it. -/
theorem node_add {place place' : Nat → Nat → Option Nat} {l0 i0 v : Nat}
    (hnew : place' l0 i0 = some v)
    (hbelow : ∀ l i, Under l i l0 i0 → place l i = none)
    (habove : ∀ l i, Under l0 i0 l i → place l i = none)
    (hsame : ∀ l i, ¬ (l = l0 ∧ i = i0) → place' l i = place l i) (l i : Nat) :
    node adder place' l i = node adder place l i + if Under l0 i0 l i then v else 0 := by
  have hself : node adder place' l0 i0 = node adder place l0 i0 + v := by
    rw [node_of_place hnew, node_eq_zeroNode hbelow, zeroNode_adder, zero_add]
  induction l generalizing i with
  | zero =>
    by_cases hat : 0 = l0 ∧ i = i0
    · obtain ⟨rfl, rfl⟩ := hat
      rw [hself, if_pos (under_refl 0 i)]
    have hnot : ¬ Under l0 i0 0 i := by
      intro hu
      obtain rfl : l0 = 0 := le_zero.mp hu.1
      exact hat ⟨rfl, (under_level_iff.mp hu).symm⟩
    simp [node, hsame 0 i hat, hnot]
  | succ l ih =>
    by_cases hat : l + 1 = l0 ∧ i = i0
    · obtain ⟨rfl, rfl⟩ := hat
      rw [hself, if_pos (under_refl (l + 1) i)]
    cases hp : place (l + 1) i with
    | some n =>
      have hnot : ¬ Under l0 i0 (l + 1) i := by
        intro hu
        rw [habove _ _ hu] at hp
        cases hp
      have hp' : place' (l + 1) i = some n := (hsame _ _ hat).trans hp
      rw [node_of_place hp, node_of_place hp', if_neg hnot, add_zero]
    | none =>
      have hp' : place' (l + 1) i = none := (hsame _ _ hat).trans hp
      have hdisjoint : Under l0 i0 l (2 * i) → ¬ Under l0 i0 l (2 * i + 1) := by
        rintro ⟨-, hl⟩ ⟨-, hr⟩
        omega
      have hsplit : Under l0 i0 (l + 1) i ↔ Under l0 i0 l (2 * i) ∨ Under l0 i0 l (2 * i + 1) := by
        rw [under_succ_iff]
        constructor
        · rintro (⟨rfl, rfl⟩ | hu)
          · exact absurd ⟨rfl, rfl⟩ hat
          · exact hu
        · exact inr
      rw [node_succ_of_none hp, node_succ_of_none hp', ih, ih]
      simp only [adder, hsplit]
      by_cases hl : Under l0 i0 l (2 * i)
      · simp [hl, hdisjoint hl]
        omega
      · by_cases hr : Under l0 i0 l (2 * i + 1) <;> simp [hl, hr]
        omega

/-- **The sum of a prefix-free list.** -/
theorem node_sum (nodes : List (Nat × Nat × Nat)) (hfree : PrefixFree nodes) (l i : Nat)
    (hunder : ∀ x ∈ nodes, Under x.1 x.2.1 l i) :
    node adder (placeOf nodes) l i = (nodes.map fun x => x.2.2).sum := by
  induction nodes with
  | nil =>
    rw [node_eq_zeroNode (by simp [placeOf]), zeroNode_adder]
    rfl
  | cons x rest ih =>
    obtain ⟨hhead, htail⟩ := pairwise_cons.mp hfree
    have hplaced : ∀ l i n, placeOf rest l i = some n →
        ¬ Under x.1 x.2.1 l i ∧ ¬ Under l i x.1 x.2.1 :=
      fun l i n hn => hhead _ (mem_of_placeOf hn)
    have hnone : ∀ l i, Under x.1 x.2.1 l i ∨ Under l i x.1 x.2.1 → placeOf rest l i = none := by
      intro l i hu
      cases hn : placeOf rest l i with
      | none => rfl
      | some n => exact absurd hu (not_or.mpr (hplaced l i n hn))
    have hself : placeOf (x :: rest) x.1 x.2.1 = some x.2.2 := hfree.placeOf_eq mem_cons_self
    rw [node_add hself (fun l i hu => hnone l i (inr hu)) (fun l i hu => hnone l i (inl hu)),
      if_pos (hunder x mem_cons_self),
      ih htail (fun y hy => hunder y (mem_cons_of_mem x hy)), map_cons, sum_cons,
      add_comm]
    intro l i hne
    have hskip : ¬ (x.1 = l ∧ x.2.1 = i) := fun heq => hne ⟨heq.1.symm, heq.2.symm⟩
    simp [placeOf, hskip]

end SparseTree

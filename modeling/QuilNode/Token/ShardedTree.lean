import QuilNode.Lib.OrdMap
import QuilNode.Lib.SparseTree

/-!
# Folding shard reports into one root (`confidential/sharded_tree.rs`)

The coin accumulator is one binary tree.  `foldSparse` folds nodes placed at arbitrary levels into
the root above them; everything absent is the zero subtree of its level.  It computes the node of
the sparse tree with these placements, whenever no placement lies inside another
(`foldSparse_ok`).
-/

namespace Token

namespace ShardedTree

open SparseTree UInt8 Nat List.Pairwise Or
open List hiding count
open Prod (fst)

variable {ν : Type*} (h : Hasher ν)

inductive TreeError where
  | capacity
  | depth
  | duplicateAddress
  | position
  | missingCoin
  | encoding
  | context
  deriving DecidableEq

/-- Deepest tree the membership relation allows. -/
def maxDepth : Nat := 32

/-- One level of the fold, sorted by index without repetition: neighbours under one parent are
combined, a lone node with the level's zero. -/
def foldOnce (zero : ν) : List (Nat × ν) → List (Nat × ν)
  | [] => []
  | [(index, n)] =>
    [(index / 2, if index % 2 = 0 then h.parent n zero else h.parent zero n)]
  | (index, n) :: (next, sibling) :: rest =>
    if index % 2 = 0 then
      if next = index + 1 then (index / 2, h.parent n sibling) :: foldOnce zero rest
      else (index / 2, h.parent n zero) :: foldOnce zero ((next, sibling) :: rest)
    else (index / 2, h.parent zero n) :: foldOnce zero ((next, sibling) :: rest)

/-- Whether two neighbours have one index. -/
def hasRepeat : List (Nat × ν) → Bool
  | a :: b :: rest => a.1 == b.1 || hasRepeat (b :: rest)
  | _ => false

/-- A level sorted by index; a repeated index is refused. -/
def sortedLevel (nodes : List (Nat × ν)) : Except TreeError (List (Nat × ν)) :=
  let sorted := nodes.insertionSort fun a b => a.1 ≤ b.1
  if hasRepeat sorted then .error .position else .ok sorted

/-- The nodes placed at `level`, with their indices. -/
def placedAt (nodes : List (Nat × Nat × ν)) (level : Nat) : List (Nat × ν) :=
  (nodes.filter fun x => x.1 = level).map Prod.snd

/-- The levels from `level` on: the level's own nodes join the carried ones. -/
def foldLevels (nodes : List (Nat × Nat × ν)) :
    Nat → Nat → List (Nat × ν) → Except TreeError (List (Nat × ν))
  | 0, _, carried => .ok carried
  | count + 1, level, carried =>
    match sortedLevel (placedAt nodes level ++ carried) with
    | .error e => .error e
    | .ok here => foldLevels nodes count (level + 1) (foldOnce h (zeroNode h level) here)

/-- Fold nodes `(level, index, node)` placed at arbitrary levels into the node
at `(topLevel, 0)`. -/
def foldSparse (topLevel : Nat) (nodes : List (Nat × Nat × ν)) : Except TreeError ν :=
  if topLevel = 0 ∨ maxDepth < topLevel then .error .depth
  else if nodes.any fun x =>
      decide (topLevel ≤ x.1) || decide (1 <<< (topLevel - x.1) ≤ x.2.1) then
    .error .position
  else
    match (nodes.map Prod.fst).min? with
    | none => .ok (zeroNode h topLevel)
    | some start =>
      match foldLevels h nodes (topLevel - start) start [] with
      | .error e => .error e
      | .ok [] => .ok (zeroNode h topLevel)
      | .ok [(0, n)] => .ok n
      | .ok _ => .error .position

variable {h}

/-! ## One level -/

/-- What folding one level does: `f` gives the values of the level. -/
structure FoldSpec (h : Hasher ν) (f : Nat → ν) (k : Nat) (l out : List (Nat × ν)) : Prop where
  sorted : out.Pairwise fun a b => a.1 < b.1
  lower : ∀ x ∈ out, k ≤ x.1
  mem : ∀ j m, (j, m) ∈ out ↔ (2 * j ∈ l.map Prod.fst ∨ 2 * j + 1 ∈ l.map Prod.fst) ∧
      m = h.parent (f (2 * j)) (f (2 * j + 1))

theorem FoldSpec.mono {f : Nat → ν} {k k' : Nat} {l out : List (Nat × ν)}
    (hspec : FoldSpec h f k' l out) (hle : k ≤ k') : FoldSpec h f k l out :=
  ⟨hspec.sorted, fun x hx => hle.trans (hspec.lower x hx), hspec.mem⟩

/-- One parent in front of the fold of what lies to its right. -/
theorem FoldSpec.cons {f : Nat → ν} {j : Nat} {rest out : List (Nat × ν)}
    (hrest : FoldSpec h f (j + 1) rest out) (pair : List (Nat × ν))
    (hpair : ∀ i, i ∈ pair.map fst → i = 2 * j ∨ i = 2 * j + 1) (hne : pair ≠ []) :
    FoldSpec h f j (pair ++ rest) ((j, h.parent (f (2 * j)) (f (2 * j + 1))) :: out) := by
  have hself : 2 * j ∈ pair.map fst ∨ 2 * j + 1 ∈ pair.map fst := by
    obtain ⟨x, _, rfl⟩ := exists_cons_of_ne_nil hne
    rcases hpair x.1 (by simp) with hx | hx
    · left
      simp [← hx]
    · right
      simp [← hx]
  constructor
  · refine pairwise_cons.mpr ⟨?_, hrest.sorted⟩
    intro x hx
    exact hrest.lower x hx
  · intro x hx
    rcases mem_cons.mp hx with rfl | hx
    · exact le_refl _
    · have := hrest.lower x hx
      omega
  · intro j' m
    rw [mem_cons, hrest.mem, map_append, mem_append, mem_append]
    constructor
    · rintro (heq | ⟨hin, rfl⟩)
      · cases heq
        exact ⟨hself.imp inl inl, rfl⟩
      · exact ⟨hin.imp inr inr, rfl⟩
    · rintro ⟨hin, rfl⟩
      by_cases hj : j' = j
      · subst hj
        exact inl rfl
      right
      refine ⟨?_, rfl⟩
      rcases hin with (hin | hin) | (hin | hin)
      · have := hpair _ hin
        omega
      · exact inl hin
      · have := hpair _ hin
        omega
      · exact inr hin

/-- A node without its sibling next to it is combined with the zero. -/
theorem foldOnce_lone {zero n : ν} {index : Nat} {rest : List (Nat × ν)}
    (hlone : ¬ (index % 2 = 0 ∧ ∃ sibling rest', rest = (index + 1, sibling) :: rest')) :
    foldOnce h zero ((index, n) :: rest) =
      (index / 2, if index % 2 = 0 then h.parent n zero else h.parent zero n) ::
        foldOnce h zero rest := by
  match rest with
  | [] => rfl
  | (next, sibling) :: rest =>
    by_cases heven : index % 2 = 0
    · have hadj : next ≠ index + 1 := by
        rintro rfl
        exact hlone ⟨heven, sibling, rest, rfl⟩
      simp [foldOnce, heven, hadj]
    · simp [foldOnce, heven]

/-- Folding one level computes the parents of its values. -/
theorem foldOnce_spec {f : Nat → ν} {zero : ν} (l : List (Nat × ν)) (k : Nat)
    (hsorted : l.Pairwise fun a b => a.1 < b.1) (hmem : ∀ x ∈ l, 2 * k ≤ x.1 ∧ x.2 = f x.1)
    (hzero : ∀ i, 2 * k ≤ i → i ∉ l.map fst → f i = zero) :
    FoldSpec h f k l (foldOnce h zero l) := by
  match l with
  | [] => constructor <;> simp [foldOnce]
  | (index, n) :: rest =>
    obtain ⟨hhead, hrest⟩ := pairwise_cons.mp hsorted
    obtain ⟨⟨_, hn⟩, hmem⟩ := forall_mem_cons.mp hmem
    by_cases hpair : index % 2 = 0 ∧ ∃ sibling rest', rest = (index + 1, sibling) :: rest'
    · obtain ⟨heven, sibling, rest, rfl⟩ := hpair
      obtain ⟨hnext, hrest⟩ := pairwise_cons.mp hrest
      obtain ⟨⟨-, hsib⟩, hmem⟩ := forall_mem_cons.mp hmem
      -- what is left lies to the right of the pair
      have hrec := foldOnce_spec rest (index / 2 + 1) hrest
        (fun x hx => ⟨by have := hnext x hx; omega, (hmem x hx).2⟩)
        (fun i hi hout => hzero i (by omega) (by
          simp only [map_cons, mem_cons, not_or]
          exact ⟨by omega, by omega, hout⟩))
      have hcons := hrec.cons [(index, n), (index + 1, sibling)] (by simp; omega) (by simp)
      have hleft : 2 * (index / 2) = index := by omega
      rw [hleft, ← hn, ← hsib] at hcons
      simp only [foldOnce, heven, if_true]
      exact hcons.mono (by omega)
    · have hright : ∀ x ∈ rest, 2 * (index / 2 + 1) ≤ x.1 := by
        intro x hx
        by_contra hnot
        obtain ⟨⟨next, sibling⟩, rest', rfl⟩ := exists_cons_of_ne_nil (ne_nil_of_mem hx)
        have hnext := hhead _ mem_cons_self
        have hle : next ≤ x.1 := by
          rcases mem_cons.mp hx with rfl | hx
          · exact le_rfl
          · exact ((pairwise_cons.mp hrest).1 x hx).le
        obtain rfl : next = index + 1 := by simp only at hnext; omega
        exact hpair ⟨by omega, sibling, rest', rfl⟩
      have hrec := foldOnce_spec rest (index / 2 + 1) hrest
        (fun x hx => ⟨hright x hx, (hmem x hx).2⟩)
        (fun i hi hout => hzero i (by omega) (by
          simp only [map_cons, mem_cons, not_or]
          exact ⟨by omega, hout⟩))
      have hcons := hrec.cons [(index, n)] (by simp; omega) (by simp)
      have habsent : ∀ i, i ≠ index → i / 2 = index / 2 → 2 * k ≤ i → f i = zero := by
        intro i hne hhalf hi
        refine hzero i hi fun hin => ?_
        obtain ⟨x, hx, rfl⟩ := mem_map.mp ((mem_cons.mp hin).resolve_left hne)
        have := hright x hx
        omega
      rw [foldOnce_lone hpair]
      by_cases heven : index % 2 = 0
      · have hleft : 2 * (index / 2) = index := by omega
        rw [hleft, habsent (index + 1) (by omega) (by omega) (by omega), ← hn] at hcons
        rw [if_pos heven]
        exact hcons.mono (by omega)
      · have hodd : 2 * (index / 2) + 1 = index := by omega
        rw [hodd, habsent (2 * (index / 2)) (by omega) (by omega) (by omega), ← hn] at hcons
        rw [if_neg heven]
        exact hcons.mono (by omega)
termination_by l.length

theorem hasRepeat_eq_false_iff {l : List (Nat × ν)} (hle : l.Pairwise fun a b => a.1 ≤ b.1) :
    hasRepeat l = false ↔ l.Pairwise fun a b => a.1 < b.1 := by
  induction l with
  | nil => simp [hasRepeat]
  | cons a rest ih =>
    obtain ⟨hhead, htail⟩ := pairwise_cons.mp hle
    cases rest with
    | nil => simp [hasRepeat]
    | cons b rest =>
      simp only [hasRepeat, Bool.or_eq_false_iff, beq_eq_false_iff_ne, ih htail]
      rw [pairwise_cons (l := b :: rest)]
      refine and_congr_left fun hrest => ⟨fun hab c hc => ?_, fun hlt => ?_⟩
      · have hlt : a.1 < b.1 := lt_of_le_of_ne (hhead b (by simp)) hab
        rcases mem_cons.mp hc with rfl | hc
        · exact hlt
        · exact hlt.trans ((pairwise_cons.mp hrest).1 c hc)
      · exact (hlt b (by simp)).ne

theorem nodup_indices {l : List (Nat × ν)} (hl : l.Pairwise fun a b => a.1 < b.1) :
    (l.map fst).Nodup :=
  pairwise_map.mpr (hl.imp ne_of_lt)

/-- A level without repeated indices is sorted into ascending order, any other refused. -/
theorem sortedLevel_cases (l : List (Nat × ν)) :
    ((l.map fst).Nodup ∧ ∃ sorted, sortedLevel l = .ok sorted ∧ sorted.Perm l ∧
      sorted.Pairwise fun a b => a.1 < b.1) ∨
    (¬ (l.map fst).Nodup ∧ sortedLevel l = .error .position) := by
  have hperm := perm_insertionSort (fun a b : Nat × ν => a.1 ≤ b.1) l
  have hle : (l.insertionSort fun a b => a.1 ≤ b.1).Pairwise fun a b => a.1 ≤ b.1 := by
    exact pairwise_insertionSort _ l
  have hiff := hasRepeat_eq_false_iff hle
  rw [← (hperm.map fst).nodup_iff]
  cases hrepeat : hasRepeat (l.insertionSort fun a b => a.1 ≤ b.1) with
  | false =>
    have hlt := hiff.mp hrepeat
    exact inl ⟨nodup_indices hlt, _, by simp [sortedLevel, hrepeat], hperm, hlt⟩
  | true =>
    refine inr ⟨fun hnodup => ?_, by simp [sortedLevel, hrepeat]⟩
    have hlt := (hle.and (pairwise_map.mp hnodup)).imp fun hab => lt_of_le_of_ne hab.1 hab.2
    rw [hiff.mpr hlt] at hrepeat
    cases hrepeat

/-! ## The whole fold -/

variable {nodes : List (Nat × Nat × ν)}

/-- Some placement below `level` lies under position `i` of it. -/
def Below (nodes : List (Nat × Nat × ν)) (level i : Nat) : Prop :=
  ∃ x ∈ nodes, x.1 < level ∧ Under x.1 x.2.1 level i

/-- Below the next level lies what is placed at this one or below it. -/
theorem below_succ_iff {level j : Nat} : Below nodes (level + 1) j ↔
      (∃ x ∈ nodes, Under x.1 x.2.1 level (2 * j)) ∨
        ∃ x ∈ nodes, Under x.1 x.2.1 level (2 * j + 1) := by
  constructor
  · rintro ⟨x, hx, hlt, hu⟩
    rcases under_succ_iff.mp hu with ⟨heq, -⟩ | hu | hu
    · omega
    · exact inl ⟨x, hx, hu⟩
    · exact inr ⟨x, hx, hu⟩
  · rintro (⟨x, hx, hu⟩ | ⟨x, hx, hu⟩)
    · exact ⟨x, hx, lt_succ_of_le hu.1, hu.trans (under_left level j)⟩
    · exact ⟨x, hx, lt_succ_of_le hu.1, hu.trans (under_right level j)⟩

/-- The carried nodes of the fold at `level`. -/
structure Carried (h : Hasher ν) (nodes : List (Nat × Nat × ν)) (level : Nat)
    (carried : List (Nat × ν)) : Prop where
  sorted : carried.Pairwise fun a b => a.1 < b.1
  mem : ∀ i n, (i, n) ∈ carried ↔ Below nodes level i ∧ n = node h (placeOf nodes) level i

theorem mem_placedAt {level i : Nat} {n : ν} :
    (i, n) ∈ placedAt nodes level ↔ (level, i, n) ∈ nodes := by
  simp only [placedAt, mem_map, mem_filter, decide_eq_true_eq]
  constructor
  · rintro ⟨⟨_, _, _⟩, ⟨hx, rfl⟩, heq⟩
    cases heq
    exact hx
  · intro hx
    exact ⟨_, ⟨hx, rfl⟩, rfl⟩

/-- The indices of a level and of what is carried to it do not repeat. -/
theorem nodup_level {level : Nat} {carried : List (Nat × ν)} (hfree : PrefixFree nodes)
    (hcarried : Carried h nodes level carried) :
    ((placedAt nodes level ++ carried).map fst).Nodup := by
  rw [map_append, nodup_append]
  refine ⟨?_, ?_, ?_⟩
  · unfold placedAt
    rw [map_map, List.Nodup, pairwise_map]
    refine (hfree.filter _).imp_of_mem fun {a b} ha hb hab heq => hab.1 ?_
    have hla : a.1 = level := by simpa using (mem_filter.mp ha).2
    have hlb : b.1 = level := by simpa using (mem_filter.mp hb).2
    rw [hla, hlb]
    exact under_level_iff.mpr heq
  · exact nodup_indices hcarried.sorted
  · intro i hi j hj heq
    subst heq
    obtain ⟨⟨_, _⟩, hplaced, rfl⟩ := mem_map.mp hi
    obtain ⟨⟨_, m⟩, hbelow, hij⟩ := mem_map.mp hj
    subst hij
    obtain ⟨⟨_, hx, hlt, hu⟩, -⟩ := (hcarried.mem _ m).mp hbelow
    have heq := hfree.eq_of_under hx (mem_placedAt.mp hplaced) hu
    rw [heq] at hlt
    exact lt_irrefl _ hlt

/-- A level of the fold: the positions with a placement at or below them, each
with its node. -/
structure LevelOf (h : Hasher ν) (nodes : List (Nat × Nat × ν)) (level : Nat)
    (here : List (Nat × ν)) : Prop where
  sorted : here.Pairwise fun a b => a.1 < b.1
  mem : ∀ i n, (i, n) ∈ here ↔
    (∃ x ∈ nodes, Under x.1 x.2.1 level i) ∧ n = node h (placeOf nodes) level i

theorem LevelOf.mem_indices {level : Nat} {here : List (Nat × ν)} (hlevel : LevelOf h nodes level here)
    (i : Nat) : i ∈ here.map fst ↔ ∃ x ∈ nodes, Under x.1 x.2.1 level i := by
  constructor
  · intro hi
    obtain ⟨⟨_, n⟩, hin, rfl⟩ := mem_map.mp hi
    exact ((hlevel.mem _ n).mp hin).1
  · intro hocc
    exact mem_map.mpr ⟨(i, _), (hlevel.mem i _).mpr ⟨hocc, rfl⟩, rfl⟩

/-- Away from the level's positions everything is zero. -/
theorem LevelOf.zero {level : Nat} {here : List (Nat × ν)} (hlevel : LevelOf h nodes level here)
    {i : Nat} (hi : i ∉ here.map fst) : node h (placeOf nodes) level i = zeroNode h level := by
  apply node_eq_zeroNode
  intro l' i' hu
  cases hplace : placeOf nodes l' i' with
  | none => rfl
  | some => exact absurd ((hlevel.mem_indices i).mpr ⟨_, mem_of_placeOf hplace, hu⟩) hi

/-- The carried nodes and the placed ones make up the level. -/
theorem Carried.level {level : Nat} {carried here : List (Nat × ν)} (hfree : PrefixFree nodes)
    (hcarried : Carried h nodes level carried)
    (hperm : here.Perm (placedAt nodes level ++ carried))
    (hsorted : here.Pairwise fun a b => a.1 < b.1) : LevelOf h nodes level here := by
  refine ⟨hsorted, ?_⟩
  intro i n
  rw [hperm.mem_iff, mem_append, mem_placedAt, hcarried.mem]
  constructor
  · rintro (hplaced | ⟨⟨x, hx, -, hu⟩, rfl⟩)
    · exact ⟨⟨_, hplaced, under_refl level i⟩, (node_of_place (hfree.placeOf_eq hplaced)).symm⟩
    · exact ⟨⟨x, hx, hu⟩, rfl⟩
  · rintro ⟨⟨⟨l, j, m⟩, hx, hu⟩, rfl⟩
    rcases eq_or_lt_of_le hu.1 with rfl | hlt
    · obtain rfl := under_level_iff.mp hu
      rw [node_of_place (hfree.placeOf_eq hx)]
      exact inl hx
    · exact inr ⟨⟨_, hx, hlt, hu⟩, rfl⟩

/-- One round of the fold: the parents of a level. -/
theorem LevelOf.carried {level : Nat} {here : List (Nat × ν)} (hfree : PrefixFree nodes)
    (hlevel : LevelOf h nodes level here) :
    Carried h nodes (level + 1) (foldOnce h (zeroNode h level) here) := by
  have hspec : FoldSpec h (node h (placeOf nodes) level) 0 here
      (foldOnce h (zeroNode h level) here) := by
    apply foldOnce_spec here 0 hlevel.sorted
    · intro x hx
      exact ⟨zero_le _, ((hlevel.mem x.1 x.2).mp hx).2⟩
    · intro i _ hi
      exact hlevel.zero hi
  refine ⟨hspec.sorted, ?_⟩
  intro j m
  rw [hspec.mem, hlevel.mem_indices, hlevel.mem_indices, ← below_succ_iff]
  -- a parent above a placement is not itself placed
  have hparent : Below nodes (level + 1) j → node h (placeOf nodes) (level + 1) j =
      h.parent (node h (placeOf nodes) level (2 * j)) (node h (placeOf nodes) level (2 * j + 1)) := by
    rintro ⟨x, hx, hlt, hu⟩
    apply node_succ_of_none
    cases hplace : placeOf nodes (level + 1) j with
    | none => rfl
    | some =>
      have heq := hfree.eq_of_under hx (mem_of_placeOf hplace) hu
      rw [heq] at hlt
      exact absurd hlt (lt_irrefl _)
  exact and_congr_right fun hb => by rw [hparent hb]

/-- All rounds of the fold. -/
theorem foldLevels_ok (hfree : PrefixFree nodes) : ∀ (count level : Nat)
    (carried : List (Nat × ν)), Carried h nodes level carried →
    ∃ out, foldLevels h nodes count level carried = .ok out ∧ Carried h nodes (level + count) out
  | 0, _, carried, hcarried => ⟨carried, rfl, hcarried⟩
  | count + 1, level, carried, hcarried => by
    obtain ⟨-, here, hhere, hperm, hsorted⟩ := (sortedLevel_cases _).resolve_right fun hbad =>
      hbad.1 (nodup_level hfree hcarried)
    obtain ⟨out, hout, hcarried'⟩ := foldLevels_ok hfree count (level + 1) _
      ((hcarried.level hfree hperm hsorted).carried hfree)
    refine ⟨out, ?_, ?_⟩
    · simp only [foldLevels, hhere]
      exact hout
    · have harith : level + (count + 1) = level + 1 + count := by omega
      rw [harith]
      exact hcarried'

/-- Every placement lies below the top, at an index its level has. -/
def InRange (top : Nat) (nodes : List (Nat × Nat × ν)) : Prop :=
  ∀ x ∈ nodes, x.1 < top ∧ x.2.1 < 2 ^ (top - x.1)

theorem out_of_range_iff {top : Nat} :
    (nodes.any fun x => decide (top ≤ x.1) || decide (1 <<< (top - x.1) ≤ x.2.1)) = true ↔
      ¬ InRange top nodes := by
  simp only [InRange, any_eq_true, Bool.or_eq_true, decide_eq_true_eq, one_shiftLeft,
    not_forall, exists_prop]
  exact exists_congr fun x => and_congr_right fun _ => by omega

/-- Nothing lies below the first level. -/
theorem not_below_start {start i : Nat} (hle : ∀ l ∈ nodes.map fst, start ≤ l) :
    ¬ Below nodes start i := by
  rintro ⟨x, hx, hlt, -⟩
  have := hle x.1 (mem_map_of_mem hx)
  omega

/-- **The fold is the tree**: prefix-free placements below the top fold to the top's node of their
sparse tree. -/
theorem foldSparse_ok {top : Nat} (hpos : 0 < top) (htop : top ≤ maxDepth)
    (hfree : PrefixFree nodes) (hrange : InRange top nodes) :
    foldSparse h top nodes = .ok (node h (placeOf nodes) top 0) := by
  unfold foldSparse
  rw [if_neg (by omega), if_neg]
  · cases hmin : (nodes.map fst).min? with
    | none =>
      have hnil : nodes = [] := by simpa using min?_eq_none_iff.mp hmin
      subst hnil
      rw [node_eq_zeroNode (by simp [placeOf])]
    | some start =>
      obtain ⟨hmem, hle⟩ := min?_eq_some_iff.mp hmin
      obtain ⟨least, hleast, hstart⟩ := mem_map.mp hmem
      have hlt : start < top := hstart ▸ (hrange least hleast).1
      have hempty : Carried h nodes start [] := ⟨nil, fun i n =>
        ⟨fun hnil => absurd hnil not_mem_nil, fun hb => absurd hb.1 (not_below_start hle)⟩⟩
      obtain ⟨out, hout, hcarried⟩ := foldLevels_ok (h := h) hfree (top - start) start [] hempty
      have hsum : start + (top - start) = top := by omega
      rw [hsum] at hcarried
      -- in range, everything ends below index 0
      have hzero : ∀ i, Below nodes top i → i = 0 := by
        rintro i ⟨x, hx, -, -, rfl⟩
        exact div_eq_of_lt (hrange x hx).2
      have hroot : (0, node h (placeOf nodes) top 0) ∈ out := by
        refine (hcarried.mem _ _).mpr ⟨⟨least, hleast, (hrange least hleast).1, ?_⟩, rfl⟩
        exact ⟨(hrange least hleast).1.le, div_eq_of_lt (hrange least hleast).2⟩
      have hout' : out = [(0, node h (placeOf nodes) top 0)] := by
        obtain ⟨hsorted, hmem'⟩ := hcarried
        rcases out with _ | ⟨x, _ | ⟨y, rest⟩⟩
        · exact absurd hroot not_mem_nil
        · rw [mem_singleton.mp hroot]
        · have hy := hzero _ ((hmem' y.1 y.2).mp (by simp)).1
          have hxy : x.1 < y.1 := (pairwise_cons.mp hsorted).1 y (by simp)
          omega
      simp only [hout, hout']
  · rw [out_of_range_iff]
    exact not_not.mpr hrange

/-! ## Refused placements

The fold never compares two placements.  It sees an overlap when a parent it
carries up meets a node placed there, so a fold that goes through has met every
level without a repeated index, and that leaves no overlap anywhere.
-/

/-- Folding one level halves its indices, whatever the nodes are. -/
theorem foldOnce_indices {zero : ν} {l : List (Nat × ν)}
    (hsorted : l.Pairwise fun a b => a.1 < b.1) :
    ((foldOnce h zero l).Pairwise fun a b => a.1 < b.1) ∧ ∀ j, j ∈ (foldOnce h zero l).map fst ↔
        2 * j ∈ l.map fst ∨ 2 * j + 1 ∈ l.map fst := by
  -- the level's own values, read back by index
  have hspec : FoldSpec h (fun i => (OrdMap.lookup i l).getD zero) 0 l (foldOnce h zero l) := by
    refine foldOnce_spec l 0 hsorted (fun x hx => ⟨zero_le _, ?_⟩) fun i _ hi => ?_
    · rw [OrdMap.lookup_of_mem hsorted hx, Option.getD_some]
    · rw [OrdMap.lookup_eq_none fun x hx heq => hi (mem_map.mpr ⟨x, hx, heq⟩), Option.getD_none]
  refine ⟨hspec.sorted, fun j => ?_⟩
  constructor
  · intro hj
    obtain ⟨⟨_, m⟩, hm, rfl⟩ := mem_map.mp hj
    exact ((hspec.mem _ m).mp hm).1
  · intro hj
    exact mem_map.mpr ⟨_, (hspec.mem j _).mpr ⟨hj, rfl⟩, rfl⟩

/-- The indices carried to `level`: those with a placement strictly below. -/
structure CarriedAt (nodes : List (Nat × Nat × ν)) (level : Nat) (carried : List (Nat × ν)) :
    Prop where
  sorted : carried.Pairwise fun a b => a.1 < b.1
  mem : ∀ i, i ∈ carried.map Prod.fst ↔ Below nodes level i

/-- What the fold has found at a level it went through. -/
structure Clear (nodes : List (Nat × Nat × ν)) (level : Nat) : Prop where
  nodup : ((placedAt nodes level).map Prod.fst).Nodup
  above : ∀ i ∈ (placedAt nodes level).map Prod.fst, ¬ Below nodes level i

theorem mem_placedAt_indices {level i : Nat} :
    i ∈ (placedAt nodes level).map fst ↔ ∃ n, (level, i, n) ∈ nodes := by
  simp [mem_placedAt]

theorem exists_under_iff {level i : Nat} : (∃ x ∈ nodes, Under x.1 x.2.1 level i) ↔
      i ∈ (placedAt nodes level).map fst ∨ Below nodes level i := by
  rw [mem_placedAt_indices]
  constructor
  · rintro ⟨⟨l, j, n⟩, hx, hu⟩
    rcases eq_or_lt_of_le hu.1 with rfl | hlt
    · exact inl ⟨n, under_level_iff.mp hu ▸ hx⟩
    · exact inr ⟨_, hx, hlt, hu⟩
  · rintro (⟨n, hx⟩ | ⟨x, hx, -, hu⟩)
    · exact ⟨_, hx, under_refl level i⟩
    · exact ⟨x, hx, hu⟩

/-- A level that passes is clear, and the next one is carried its indices. -/
theorem CarriedAt.step {level : Nat} {carried here : List (Nat × ν)}
    (hcarried : CarriedAt nodes level carried)
    (hhere : sortedLevel (placedAt nodes level ++ carried) = .ok here) (zero : ν) :
    Clear nodes level ∧ CarriedAt nodes (level + 1) (foldOnce h zero here) := by
  obtain ⟨hnodup, _, hok, hperm, hsorted⟩ := (sortedLevel_cases _).resolve_right fun hbad => by
    rw [hbad.2] at hhere
    cases hhere
  obtain rfl := Except.ok.inj (hhere.symm.trans hok)
  rw [map_append, nodup_append] at hnodup
  obtain ⟨hplaced, -, hdisjoint⟩ := hnodup
  have hindex : ∀ i, i ∈ here.map fst ↔ ∃ x ∈ nodes, Under x.1 x.2.1 level i := by
    intro i
    rw [(hperm.map fst).mem_iff, map_append, mem_append, hcarried.mem, exists_under_iff]
  obtain ⟨hout, hmem⟩ := foldOnce_indices hsorted
  refine ⟨⟨hplaced, ?_⟩, ⟨hout, ?_⟩⟩
  · intro i hi hbelow
    exact hdisjoint i hi i ((hcarried.mem i).mpr hbelow) rfl
  · intro j
    rw [hmem, hindex, hindex, below_succ_iff]

/-- Every level of a fold that goes through is clear. -/
theorem foldLevels_clear : ∀ (count level : Nat) {carried out : List (Nat × ν)},
    CarriedAt nodes level carried → foldLevels h nodes count level carried = .ok out →
      ∀ l, level ≤ l → l < level + count → Clear nodes l
  | 0, _, _, _, _, _ => by
    intro l hle hlt
    omega
  | count + 1, level, carried, out, hcarried, hout => by
    simp only [foldLevels] at hout
    split at hout
    · cases hout
    rename_i here hhere
    obtain ⟨hclear, hnext⟩ := hcarried.step (h := h) hhere (zeroNode h level)
    intro l hle hlt
    rcases eq_or_lt_of_le hle with rfl | hlt'
    · exact hclear
    · exact foldLevels_clear count (level + 1) hnext hout l hlt' (by omega)

/-- Clear levels hold no overlap. -/
theorem prefixFree_of_clear (hclear : ∀ x ∈ nodes, Clear nodes x.1) : PrefixFree nodes := by
  unfold PrefixFree
  rw [pairwise_iff_forall_sublist]
  intro a b hab
  have ha : a ∈ nodes := hab.subset (by simp)
  have hb : b ∈ nodes := hab.subset (by simp)
  -- on one level the two would repeat an index
  have hsame : a.1 = b.1 → a.2.1 ≠ b.2.1 := by
    intro hl
    have hnodup := (hclear b hb).nodup
    unfold placedAt at hnodup
    rw [map_map, List.Nodup, pairwise_map, pairwise_iff_forall_sublist] at hnodup
    apply hnodup
    simpa [hl] using hab.filter fun x => x.1 = b.1
  -- on two, the deeper one would be carried to the other
  have hdeeper : ∀ x ∈ nodes, ∀ y ∈ nodes, x.1 ≠ y.1 → ¬ Under x.1 x.2.1 y.1 y.2.1 := by
    intro x hx y hy hne hu
    exact (hclear y hy).above y.2.1 (mem_placedAt_indices.mpr ⟨y.2.2, hy⟩)
      ⟨x, hx, lt_of_le_of_ne hu.1 hne, hu⟩
  by_cases hl : a.1 = b.1
  · rw [hl, under_level_iff, under_level_iff]
    exact ⟨hsame hl, (hsame hl).symm⟩
  · exact ⟨hdeeper a ha b hb hl, hdeeper b hb a ha (Ne.symm hl)⟩

theorem foldLevels_error : ∀ (count level : Nat) {carried : List (Nat × ν)} {e : TreeError},
    foldLevels h nodes count level carried = .error e → e = .position
  | 0, _, _, _, he => by cases he
  | count + 1, level, carried, e, he => by
    simp only [foldLevels] at he
    split at he
    · rename_i e' hsorted
      rcases sortedLevel_cases (placedAt nodes level ++ carried) with ⟨-, _, hok, -⟩ | ⟨-, hbad⟩
      · cases hok.symm.trans hsorted
      · cases hbad.symm.trans hsorted
        cases he
        rfl
    · exact foldLevels_error count (level + 1) he

/-- Anything out of range or overlapping is refused. -/
theorem foldSparse_error {top : Nat} (hpos : 0 < top) (htop : top ≤ maxDepth)
    (hbad : ¬ (InRange top nodes ∧ PrefixFree nodes)) :
    foldSparse h top nodes = .error .position := by
  unfold foldSparse
  rw [if_neg (by omega)]
  split
  · rfl
  rename_i hany
  have hrange : InRange top nodes := not_not.mp (mt out_of_range_iff.mpr hany)
  split
  · rename_i hmin
    have hnil : nodes = [] := by simpa using min?_eq_none_iff.mp hmin
    subst hnil
    exact absurd ⟨hrange, nil⟩ hbad
  · rename_i start hmin
    obtain ⟨-, hle⟩ := min?_eq_some_iff.mp hmin
    split
    · rename_i e he
      rw [foldLevels_error _ _ he]
    all_goals
      rename_i hout
      have hempty : CarriedAt nodes start [] := ⟨nil, fun i =>
        ⟨fun hnil => absurd hnil not_mem_nil, fun hb => absurd hb (not_below_start hle)⟩⟩
      have hclear := foldLevels_clear _ _ hempty hout
      refine absurd ⟨hrange, prefixFree_of_clear fun x hx => hclear x.1 ?_ ?_⟩ hbad
      · exact hle x.1 (mem_map_of_mem hx)
      · have := (hrange x hx).1
        omega

/-- **The sparse fold accepts exactly the disjoint placements**: it succeeds just when every
placement is in range and none equals or lies inside another, and gives the root of the tree with
them, in whatever order. -/
theorem fold_sparse_accepts_disjoint (h : Hasher ν) (top : Nat) (nodes : List (Nat × Nat × ν)) :
    (∀ root, foldSparse h top nodes = .ok root ↔
      (0 < top ∧ top ≤ maxDepth) ∧ InRange top nodes ∧ PrefixFree nodes ∧
        root = node h (placeOf nodes) top 0) ∧
    ∀ nodes', nodes.Perm nodes' → foldSparse h top nodes' = foldSparse h top nodes := by
  by_cases hdepth : 0 < top ∧ top ≤ maxDepth
  · obtain ⟨hpos, htop⟩ := hdepth
    by_cases hgood : InRange top nodes ∧ PrefixFree nodes
    · have hok := foldSparse_ok (h := h) hpos htop hgood.2 hgood.1
      refine ⟨fun root => ?_, fun nodes' hperm => ?_⟩
      · rw [hok]
        constructor
        · intro heq
          cases heq
          exact ⟨⟨hpos, htop⟩, hgood.1, hgood.2, rfl⟩
        · rintro ⟨-, -, -, rfl⟩
          rfl
      · have hrange' : InRange top nodes' := fun x hx => hgood.1 x (hperm.symm.subset hx)
        rw [hok, foldSparse_ok hpos htop (hgood.2.perm hperm) hrange', hgood.2.placeOf_perm hperm]
    · have herror := foldSparse_error (h := h) hpos htop hgood
      refine ⟨fun root => ?_, fun nodes' hperm => ?_⟩
      · rw [herror]
        constructor
        · intro heq
          cases heq
        · rintro ⟨-, hrange, hfree, -⟩
          exact absurd ⟨hrange, hfree⟩ hgood
      · rw [herror, foldSparse_error hpos htop]
        rintro ⟨hrange, hfree⟩
        exact hgood ⟨fun x hx => hrange x (hperm.subset hx), hfree.perm hperm.symm⟩
  · have hrefused : ∀ nodes' : List (Nat × Nat × ν), foldSparse h top nodes' = .error .depth := by
      intro nodes'
      unfold foldSparse
      rw [if_pos (by omega)]
    refine ⟨fun root => ?_, fun nodes' _ => ?_⟩
    · rw [hrefused]
      constructor
      · intro heq
        cases heq
      · rintro ⟨hin, -⟩
        exact absurd hin hdepth
    · rw [hrefused, hrefused]

/-! ## Roots of one level -/

/-- The loop of `fold_level`. -/
def foldUp (h : Hasher ν) (zeros : Nat → ν) : Nat → Nat → List (Nat × ν) → List (Nat × ν)
  | 0, _, nodes => nodes
  | count + 1, level, nodes => foldUp h zeros count (level + 1) (foldOnce h (zeros level) nodes)

/-- `fold_level`; `zeros` starts at the level of the nodes. -/
def foldLevel (h : Hasher ν) (zeros : Nat → ν) (nodes : List (Nat × ν)) (levels : Nat) :
    Except TreeError ν :=
  match sortedLevel nodes with
  | .error e => .error e
  | .ok nodes =>
    match foldUp h zeros levels 0 nodes with
    | [] => .ok (zeros levels)
    | (index, n) :: _ => if index = 0 then .ok n else .error .position

/-- `fold_subtree_roots`, with the bits of the shape. -/
def foldSubtreeRoots (h : Hasher ν) (subtreeBits shardBits : Nat) (roots : List (Nat × ν)) :
    Except TreeError ν :=
  if subtreeBits = 0 ∨ maxDepth < subtreeBits + shardBits then .error .depth
  else if roots.any fun root => decide (1 <<< shardBits ≤ root.1) then .error .position
  else foldLevel h (fun level => zeroNode h (subtreeBits + level)) roots shardBits

theorem foldUp_nil (zeros : Nat → ν) (count level : Nat) : foldUp h zeros count level [] = [] := by
  induction count generalizing level with
  | zero => rfl
  | succ count ih => exact ih (level + 1)

theorem sortedLevel_of_sorted {l : List (Nat × ν)} (hsorted : l.Pairwise fun a b => a.1 < b.1) :
    sortedLevel l = .ok l := by
  have hle := hsorted.imp le_of_lt
  rw [sortedLevel, hle.insertionSort_eq, (hasRepeat_eq_false_iff hle).mpr hsorted]
  rfl

/-- Above every placement the levels are those of `fold_level`. -/
theorem foldLevels_eq_foldUp (base : Nat) : ∀ (count level : Nat) {carried : List (Nat × ν)},
    (∀ x ∈ nodes, x.1 < base + level) → (carried.Pairwise fun a b => a.1 < b.1) →
    (∀ i ∈ carried.map fst, i < 2 ^ count) →
    ∃ out, foldLevels h nodes count (base + level) carried = .ok out ∧
      foldUp h (fun level => zeroNode h (base + level)) count level carried = out ∧
        (out.Pairwise fun a b => a.1 < b.1) ∧ ∀ i ∈ out.map fst, i = 0
  | 0, _, carried, _, hsorted, hindex =>
    ⟨carried, rfl, rfl, hsorted, fun i hi => lt_one_iff.mp (hindex i hi)⟩
  | count + 1, level, carried, hnone, hsorted, hindex => by
    have hplaced : placedAt nodes (base + level) = [] := by
      rw [placedAt, map_eq_nil_iff, filter_eq_nil_iff]
      intro x hx
      simpa using (hnone x hx).ne
    obtain ⟨hsorted', hmem⟩ := @foldOnce_indices _ h (zeroNode h (base + level)) _ hsorted
    obtain ⟨out, hout, hup, hspec⟩ := foldLevels_eq_foldUp base count (level + 1)
      (fun x hx => by have := hnone x hx; omega) hsorted' fun i hi => by
        rw [pow_succ] at hindex
        rcases (hmem i).mp hi with hi | hi
        all_goals
          have := hindex _ hi
          omega
    refine ⟨out, ?_, hup, hspec⟩
    rw [foldLevels, hplaced, nil_append, sortedLevel_of_sorted hsorted]
    exact hout

/-- **Folding the roots of one level is the sparse fold** with every root placed there. -/
theorem foldSubtreeRoots_eq {subtreeBits : Nat} (hbits : 0 < subtreeBits) (shardBits : Nat)
    (roots : List (Nat × ν)) :
    foldSubtreeRoots h subtreeBits (shardBits + 1) roots =
      foldSparse h (subtreeBits + (shardBits + 1)) (roots.map (subtreeBits, ·)) := by
  have hany : (roots.map (subtreeBits, ·)).any (fun x =>
      decide (subtreeBits + (shardBits + 1) ≤ x.1) ||
        decide (1 <<< (subtreeBits + (shardBits + 1) - x.1) ≤ x.2.1)) =
      roots.any fun root => decide (1 <<< (shardBits + 1) ≤ root.1) := by
    simp [any_map, Function.comp_def]
  unfold foldSubtreeRoots foldSparse
  rw [hany]
  by_cases hdepth : maxDepth < subtreeBits + (shardBits + 1)
  · rw [if_pos (.inr hdepth), if_pos (.inr hdepth)]
  rw [if_neg (not_or.mpr ⟨hbits.ne', hdepth⟩), if_neg (not_or.mpr ⟨by omega, hdepth⟩)]
  by_cases hrange : (roots.any fun root => decide (1 <<< (shardBits + 1) ≤ root.1)) = true
  · rw [if_pos hrange, if_pos hrange]
  rw [if_neg hrange, if_neg hrange]
  unfold foldLevel
  by_cases hroots : roots = []
  · subst hroots
    rw [sortedLevel_of_sorted nil]
    dsimp only
    rw [foldUp_nil]
    rfl
  have hmin : ((roots.map (subtreeBits, ·)).map fst).min? = some subtreeBits := by
    rw [min?_eq_some_iff]
    simpa using hroots
  have hplaced : placedAt (roots.map (subtreeBits, ·)) subtreeBits = roots := by
    simp [placedAt, filter_map, Function.comp_def]
  simp only [hmin, Nat.add_sub_cancel_left, foldLevels, hplaced, append_nil]
  rcases sortedLevel_cases roots with ⟨-, here, hhere, hperm, hsorted⟩ | ⟨-, hbad⟩
  · have hlt : ∀ i ∈ here.map fst, i < 2 ^ shardBits * 2 := by
      intro i hi
      obtain ⟨x, hx, rfl⟩ := mem_map.mp hi
      by_contra hge
      refine hrange (any_eq_true.mpr ⟨x, hperm.subset hx, ?_⟩)
      simpa [one_shiftLeft, pow_succ] using hge
    obtain ⟨hsorted', hmem⟩ := @foldOnce_indices _ h (zeroNode h subtreeBits) _ hsorted
    obtain ⟨out, hout, hup, hout', hzero⟩ := @foldLevels_eq_foldUp _ h
      (roots.map (subtreeBits, ·)) subtreeBits shardBits 1 _ (by simp +contextual) hsorted' fun i hi => by
        rcases (hmem i).mp hi with hi | hi
        all_goals
          have := hlt _ hi
          omega
    simp only [hhere, hout, foldUp, Nat.add_zero, hup]
    rcases out with _ | ⟨⟨i, n⟩, _ | ⟨y, rest⟩⟩
    · rfl
    · obtain rfl : i = 0 := hzero i (by simp)
      rfl
    · have hne : i < y.1 := (pairwise_cons.mp hout').1 y mem_cons_self
      rw [hzero i (by simp), hzero y.1 (by simp)] at hne
      exact absurd hne (lt_irrefl 0)
  · rw [hbad]

/-! ## Positions -/

/-- Split a position into `(shard, local)`. -/
def splitPosition (position : UInt64) (subtreeBits : UInt8) : UInt64 × UInt64 :=
  if 64 ≤ subtreeBits then (0, position)
  else (position >>> subtreeBits.toUInt64, position &&& ((1 <<< subtreeBits.toUInt64) - 1))

/-- Compose a position.  `checked_shl` checks the amount only: bits shifted out of the shard are
lost. -/
def positionOf (shard leaf : UInt64) (subtreeBits : UInt8) : Except TreeError UInt64 :=
  if 64 ≤ subtreeBits ∨ (1 <<< subtreeBits.toUInt64) ≤ leaf then .error .position
  else
    let high := shard <<< subtreeBits.toUInt64
    if 2 ^ 64 ≤ high.toNat + leaf.toNat then .error .position else .ok (high + leaf)

/-- Shards whose index survives the shift. -/
def ShardFits (shard : UInt64) (subtreeBits : UInt8) : Prop :=
  shard.toNat < 2 ^ (64 - subtreeBits.toNat)

variable {bits : UInt8}

theorem one_shiftLeft_toNat (hbits : bits.toNat < 64) :
    ((1 : UInt64) <<< bits.toUInt64).toNat = 2 ^ bits.toNat := by
  have hlt : 2 ^ bits.toNat < 2 ^ 64 := Nat.pow_lt_pow_right (by decide) hbits
  rw [UInt64.toNat_shiftLeft, toNat_toUInt64, mod_eq_of_lt hbits, UInt64.toNat_one,
    one_shiftLeft, mod_eq_of_lt hlt]

theorem shiftLeft_toNat {shard : UInt64} (hbits : bits.toNat < 64) :
    (shard <<< bits.toUInt64).toNat = shard.toNat % 2 ^ (64 - bits.toNat) * 2 ^ bits.toNat := by
  have hsplit : 2 ^ 64 = 2 ^ (64 - bits.toNat) * 2 ^ bits.toNat := by
    rw [← Nat.pow_add, Nat.sub_add_cancel hbits.le]
  rw [UInt64.toNat_shiftLeft, toNat_toUInt64, mod_eq_of_lt hbits, shiftLeft_eq,
    hsplit, mul_mod_mul_right]

/-- The surviving bits of a shard leave room for every leaf. -/
theorem position_lt {shard leaf : Nat} {bits : Nat} (hbits : bits < 64) (hleaf : leaf < 2 ^ bits) :
    shard % 2 ^ (64 - bits) * 2 ^ bits + leaf < 2 ^ 64 := by
  have hshard : shard % 2 ^ (64 - bits) < 2 ^ (64 - bits) := Nat.mod_lt _ (Nat.two_pow_pos _)
  calc shard % 2 ^ (64 - bits) * 2 ^ bits + leaf
      < (shard % 2 ^ (64 - bits) + 1) * 2 ^ bits := by rw [succ_mul]; omega
    _ ≤ 2 ^ (64 - bits) * 2 ^ bits := mul_le_mul_right _ hshard
    _ = 2 ^ 64 := by rw [← Nat.pow_add, Nat.sub_add_cancel hbits.le]

/-- A position holds the leaf below the bits of the shard that the shift keeps. -/
theorem positionOf_ok_iff {shard leaf p : UInt64} :
    positionOf shard leaf bits = .ok p ↔ bits.toNat < 64 ∧ leaf.toNat < 2 ^ bits.toNat ∧
      p.toNat = shard.toNat % 2 ^ (64 - bits.toNat) * 2 ^ bits.toNat + leaf.toNat := by
  unfold positionOf
  by_cases hbits : bits.toNat < 64
  · have hwide : ¬ (64 : UInt8) ≤ bits := by rw [le_iff_toNat_le]; exact not_le.mpr hbits
    by_cases hleaf : leaf.toNat < 2 ^ bits.toNat
    · have hroom := @position_lt shard.toNat _ _ hbits hleaf
      have hrange : ¬ (1 : UInt64) <<< bits.toUInt64 ≤ leaf := by
        rw [UInt64.le_iff_toNat_le, one_shiftLeft_toNat hbits]
        omega
      rw [if_neg (not_or.mpr ⟨hwide, hrange⟩)]
      simp only [shiftLeft_toNat hbits, if_neg (not_le.mpr hroom), Except.ok.injEq, hbits,
        hleaf, true_and]
      rw [← UInt64.toNat_inj, UInt64.toNat_add, shiftLeft_toNat hbits, mod_eq_of_lt hroom]
      exact eq_comm
    · have hrange : (1 : UInt64) <<< bits.toUInt64 ≤ leaf := by
        rw [UInt64.le_iff_toNat_le, one_shiftLeft_toNat hbits]
        omega
      rw [if_pos (inr hrange)]
      simp [hleaf]
  · rw [if_pos (inl (le_iff_toNat_le.mpr (not_lt.mp hbits)))]
    simp [hbits]

theorem splitPosition_eq {p : UInt64} (hbits : bits.toNat < 64) :
    ((splitPosition p bits).1.toNat, (splitPosition p bits).2.toNat) =
      (p.toNat / 2 ^ bits.toNat, p.toNat % 2 ^ bits.toNat) := by
  have hwide : ¬ (64 : UInt8) ≤ bits := by rw [le_iff_toNat_le]; exact not_le.mpr hbits
  have hone : (1 : UInt64) ≤ 1 <<< bits.toUInt64 := by
    rw [UInt64.le_iff_toNat_le, one_shiftLeft_toNat hbits]
    exact Nat.one_le_two_pow
  rw [splitPosition, if_neg hwide]
  simp only [UInt64.toNat_shiftRight, UInt64.toNat_and, UInt64.toNat_sub_of_le _ _ hone,
    one_shiftLeft_toNat hbits, toNat_toUInt64, mod_eq_of_lt hbits, UInt64.toNat_one,
    shiftRight_eq_div_pow, and_two_pow_sub_one_eq_mod]

theorem splitPosition_positionOf {shard leaf p : UInt64} (hp : positionOf shard leaf bits = .ok p) :
    splitPosition p bits = (shard, leaf) ↔ ShardFits shard bits := by
  obtain ⟨hbits, hleaf, hval⟩ := positionOf_ok_iff.mp hp
  have hsplit := splitPosition_eq (p := p) hbits
  rw [hval, Nat.add_comm, Nat.add_mul_div_right _ _ (Nat.two_pow_pos _), Nat.add_mul_mod_self_right,
    Nat.div_eq_of_lt hleaf, Nat.mod_eq_of_lt hleaf, Nat.zero_add, Prod.mk.injEq] at hsplit
  rw [Prod.ext_iff, ← UInt64.toNat_inj, ← UInt64.toNat_inj, hsplit.1, hsplit.2]
  simp [ShardFits, Nat.mod_eq_iff_lt]

/-- **Which positions split back**: those of shards whose index fits above the leaf bits, and no two
of them share one. -/
theorem position_splits_iff_fits {shard leaf p : UInt64} {bits : UInt8}
    (hp : positionOf shard leaf bits = .ok p) :
    (splitPosition p bits = (shard, leaf) ↔ ShardFits shard bits) ∧
      ((∀ shard' leaf', positionOf shard' leaf' bits = .ok p → ShardFits shard' bits →
        (shard', leaf') = (shard, leaf)) ↔ ShardFits shard bits) := by
  refine ⟨splitPosition_positionOf hp, fun honly => ?_, fun hfits shard' leaf' hp' hfits' => ?_⟩
  · -- the shard's surviving bits are a shard that fits, at the same position
    obtain ⟨hbits, hleaf, hval⟩ := positionOf_ok_iff.mp hp
    have hlow : shard.toNat % 2 ^ (64 - bits.toNat) < 2 ^ (64 - bits.toNat) :=
      Nat.mod_lt _ (Nat.two_pow_pos _)
    have hnat : (UInt64.ofNat (shard.toNat % 2 ^ (64 - bits.toNat))).toNat =
        shard.toNat % 2 ^ (64 - bits.toNat) :=
      UInt64.toNat_ofNat_of_lt' ((mod_le _ _).trans_lt shard.toNat_lt)
    have hsame := honly (UInt64.ofNat (shard.toNat % 2 ^ (64 - bits.toNat))) leaf
      (positionOf_ok_iff.mpr ⟨hbits, hleaf, by rw [hnat, mod_mod, hval]⟩)
      (by rwa [ShardFits, hnat])
    rw [← (Prod.mk.inj hsame).1, ShardFits, hnat]
    exact hlow
  · rw [← (splitPosition_positionOf hp').mpr hfits', (splitPosition_positionOf hp).mpr hfits]

theorem position_splits_at_depth : positionOf 5 3 8 = .ok 1283 ∧
    (splitPosition 1283 8 = (5, 3) ↔ ShardFits 5 8) :=
  ⟨by decide, (position_splits_iff_fits (by decide : positionOf 5 3 8 = .ok 1283)).1⟩

/-- The shard's high bit is lost: shard `2 ^ 32` takes the position of shard `0`. -/
theorem shifted_out_shard_shares_position :
    positionOf 4294967296 7 32 = .ok 7 ∧ positionOf 0 7 32 = .ok 7 ∧
      splitPosition 7 32 ≠ (4294967296, 7) := by
  decide

end ShardedTree

end Token

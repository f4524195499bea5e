import QuilNode.Forest.ShardFilter
import QuilNode.Hypergraph.ForestBuckets

/-!
# Deep splits (`first_split_bifurcation`)

A shard that is too large is cut where its data divides, not at its next bit.  The search follows
the one side that holds leaves, a bit at a time, until both sides do, so it ends at the longest
common path of the shard's leaves, and the sides it passed by are empty.  The children and these
empty sides, the spine, tile the shard.
-/

namespace Hypergraph

open Forest PrefixCode List NibbleTree

/-- The loop of `first_split_bifurcation`, with the bits that are left of the budget. -/
def bifurcationFrom (tree : NibbleTree Bytes32 Bytes) : Nat → List Bool → Option (List (List Bool))
  | 0, _ => none
  | budget + 1, path =>
    let p0 := path ++ [false]
    let p1 := path ++ [true]
    match decide (0 < appSubtreeLeafCount tree p0), decide (0 < appSubtreeLeafCount tree p1) with
    | true, true => some [p0, p1]
    | true, false => bifurcationFrom tree budget p0
    | false, true => bifurcationFrom tree budget p1
    | false, false => none

def firstSplitBifurcation (tree : NibbleTree Bytes32 Bytes) (shardBits : List Bool)
    (maxExtraBits : Nat) : Option (List (List Bool)) :=
  if appSubtreeLeafCount tree shardBits < 2 then none
  else bifurcationFrom tree maxExtraBits shardBits

section Search

variable {tree : NibbleTree Bytes32 Bytes} {path shard branch : List Bool} {e : Bytes32 × Bytes}
  {b : Bool}

theorem mem_leavesUnder :
    e ∈ leavesUnder tree path ↔ e ∈ tree.entries ∧ Begins e.1.getMsbD path := by
  rw [leavesUnder, mem_filter, addrHasBitPrefix_iff]

/-- A leaf under a path is under the one longer path its next bit leads to. -/
theorem mem_leavesUnder_next :
    e ∈ leavesUnder tree (path ++ [b]) ↔ e ∈ leavesUnder tree path ∧ e.1.getMsbD path.length = b := by
  rw [mem_leavesUnder, mem_leavesUnder, begins_concat, and_assoc]

/-- Where one side is empty, the leaves are on the other. -/
theorem mem_side (hempty : leavesUnder tree (path ++ [!b]) = [])
    (he : e ∈ leavesUnder tree path) : e ∈ leavesUnder tree (path ++ [b]) := by
  refine mem_leavesUnder_next.mpr ⟨he, ?_⟩
  by_contra hne
  have hother : e ∈ leavesUnder tree (path ++ [!b]) :=
    mem_leavesUnder_next.mpr ⟨he, Bool.eq_not.mpr hne⟩
  rw [hempty] at hother
  exact not_mem_nil hother

/-- The shard's leaves divide at the end of the branch: both sides hold some, and all are
on it. -/
structure Divides (tree : NibbleTree Bytes32 Bytes) (shard branch : List Bool) : Prop where
  below : shard <+: branch
  onBranch : ∀ e ∈ leavesUnder tree shard, e ∈ leavesUnder tree branch
  left : leavesUnder tree (branch ++ [false]) ≠ []
  right : leavesUnder tree (branch ++ [true]) ≠ []

/-- The branch is the longest path that all leaves of the shard have. -/
structure LongestCommon (tree : NibbleTree Bytes32 Bytes) (shard branch : List Bool) : Prop where
  common : ∀ e ∈ leavesUnder tree shard, Begins e.1.getMsbD branch
  longest : ∀ path, (∀ e ∈ leavesUnder tree shard, Begins e.1.getMsbD path) → path <+: branch

theorem LongestCommon.eq {branch' : List Bool} (h : LongestCommon tree shard branch)
    (h' : LongestCommon tree shard branch') : branch = branch' :=
  (h'.longest branch h.common).eq_of_length_le (h.longest branch' h'.common).length_le

theorem Divides.ne_nil (h : Divides tree shard branch) (b : Bool) :
    leavesUnder tree (branch ++ [b]) ≠ [] := by
  cases b
  · exact h.left
  · exact h.right

theorem Divides.exists_leaf (h : Divides tree shard branch) (b : Bool) :
    ∃ e ∈ leavesUnder tree shard, Begins e.1.getMsbD branch ∧ e.1.getMsbD branch.length = b := by
  obtain ⟨e, he⟩ := exists_mem_of_ne_nil _ (h.ne_nil b)
  obtain ⟨hbranch, hbit⟩ := mem_leavesUnder_next.mp he
  obtain ⟨hentry, hbegins⟩ := mem_leavesUnder.mp hbranch
  exact ⟨e, mem_leavesUnder.mpr ⟨hentry, hbegins.of_isPrefix h.below⟩, hbegins, hbit⟩

/-- Leaves divide at the end of their longest common path. -/
theorem divides_iff_longestCommon :
    Divides tree shard branch ↔ LongestCommon tree shard branch := by
  constructor
  · intro h
    refine ⟨fun e he => (mem_leavesUnder.mp (h.onBranch e he)).2, fun path hpath => ?_⟩
    obtain ⟨e, he, hbegins, -⟩ := h.exists_leaf false
    rcases (hpath e he).nested hbegins with hshort | ⟨rest, rfl⟩
    · exact hshort
    · cases rest with
      | nil => rw [append_nil]
      | cons c =>
        -- a longer common path would go to both sides
        have hboth : ∀ b, c = b := fun b => by
          obtain ⟨e, he, -, hbit⟩ := h.exists_leaf b
          exact ((begins_append.mp (hpath e he)).2 0 (by simp)).trans hbit
        exact absurd ((hboth false).symm.trans (hboth true)) (by decide)
  · intro h
    have hbranch : ∀ e ∈ leavesUnder tree shard, e ∈ leavesUnder tree branch := fun e he =>
      mem_leavesUnder.mpr ⟨(mem_leavesUnder.mp he).1, h.common e he⟩
    have hside : ∀ b, leavesUnder tree (branch ++ [b]) ≠ [] := by
      intro b hempty
      rw [← Bool.not_not b] at hempty
      have hlonger := h.longest (branch ++ [!b]) fun e he =>
        (mem_leavesUnder.mp (mem_side hempty (hbranch e he))).2
      have := hlonger.length_le
      rw [length_append, length_singleton] at this
      omega
    exact ⟨h.longest shard fun e he => (mem_leavesUnder.mp he).2, hbranch, hside false, hside true⟩

/-- Leaves that divide are two at least. -/
theorem Divides.two_le (h : Divides tree shard branch) : 2 ≤ (leavesUnder tree shard).length := by
  obtain ⟨e0, he0, -, hleft⟩ := h.exists_leaf false
  obtain ⟨e1, he1, -, hright⟩ := h.exists_leaf true
  have hne : e0 ≠ e1 := by
    rintro rfl
    cases hleft.symm.trans hright
  match hleaves : leavesUnder tree shard with
  | [] => rw [hleaves] at he0; cases he0
  | [e] =>
    rw [hleaves, mem_singleton] at he0 he1
    exact absurd (he0.trans he1.symm) hne
  | _ :: _ :: _ => simp

/-- Where one side is empty, the leaves divide where those of the other side do. -/
theorem Divides.of_side (hempty : leavesUnder tree (path ++ [!b]) = [])
    (hdivides : Divides tree (path ++ [b]) branch) : Divides tree path branch where
  below := (prefix_append path [b]).trans hdivides.below
  onBranch := fun e he => hdivides.onBranch e (mem_side hempty he)
  left := hdivides.left
  right := hdivides.right

/-- A branch that does not end at once goes to the side that holds leaves. -/
theorem Divides.side (hempty : leavesUnder tree (path ++ [!b]) = [])
    (hne : leavesUnder tree (path ++ [b]) ≠ []) (hdivides : Divides tree path branch) :
    Divides tree (path ++ [b]) branch := by
  obtain ⟨e, he⟩ := exists_mem_of_ne_nil _ hne
  obtain ⟨hpath, hbit⟩ := mem_leavesUnder_next.mp he
  obtain ⟨rest, rfl⟩ := hdivides.below
  have hbranch := (mem_leavesUnder.mp (hdivides.onBranch e hpath)).2
  have hbelow : path ++ [b] <+: path ++ rest := by
    cases rest with
    | nil =>
      -- the branch ends here, but one of its sides is empty
      refine absurd ?_ (hdivides.ne_nil !b)
      rw [append_nil]
      exact hempty
    | cons c rest =>
      have hc : c = e.1.getMsbD path.length := (begins_append.mp hbranch).2 0 (by simp)
      rw [hc, hbit]
      exact ⟨rest, by simp⟩
  refine ⟨hbelow, fun e' he' => ?_, hdivides.left, hdivides.right⟩
  exact hdivides.onBranch e' (mem_leavesUnder_next.mp he').1

/-- The search finds the branch where the leaves divide, within its budget. -/
theorem bifurcationFrom_iff (h : Placed keyBit 0 tree) {budget : Nat}
    {children : List (List Bool)} :
    bifurcationFrom tree budget path = some children ↔
      ∃ branch, children = [branch ++ [false], branch ++ [true]] ∧ Divides tree path branch ∧
        branch.length < path.length + budget := by
  induction budget generalizing path with
  | zero =>
    refine iff_of_false (by simp [bifurcationFrom]) ?_
    rintro ⟨branch, -, hdivides, hlength⟩
    have := hdivides.below.length_le
    omega
  | succ budget ih =>
    have hsearch : ∀ b, leavesUnder tree (path ++ [b]) ≠ [] → leavesUnder tree (path ++ [!b]) = [] →
        (bifurcationFrom tree budget (path ++ [b]) = some children ↔
          ∃ branch, children = [branch ++ [false], branch ++ [true]] ∧ Divides tree path branch ∧
            branch.length < path.length + (budget + 1)) := by
      intro b hne hempty
      rw [ih]
      constructor
      · rintro ⟨branch, hchildren, hdivides, hlength⟩
        refine ⟨branch, hchildren, hdivides.of_side hempty, ?_⟩
        rw [length_append, length_singleton] at hlength
        omega
      · rintro ⟨branch, hchildren, hdivides, hlength⟩
        refine ⟨branch, hchildren, hdivides.side hempty hne, ?_⟩
        rw [length_append, length_singleton]
        omega
    simp only [bifurcationFrom, appSubtreeLeafCount_eq h, length_pos_iff]
    by_cases hleft : leavesUnder tree (path ++ [false]) = []
    · by_cases hright : leavesUnder tree (path ++ [true]) = []
      · simp only [hleft, hright, ne_eq, not_true, decide_false]
        refine iff_of_false (by simp) ?_
        rintro ⟨branch, -, hdivides, -⟩
        obtain ⟨e, he, -⟩ := hdivides.exists_leaf false
        exact not_mem_nil (hleft ▸ mem_side hright he)
      · simp only [hleft, hright, ne_eq, not_true, not_false_eq_true, decide_false, decide_true]
        exact hsearch true hright hleft
    · by_cases hright : leavesUnder tree (path ++ [true]) = []
      · simp only [hleft, hright, ne_eq, not_true, not_false_eq_true, decide_false, decide_true]
        exact hsearch false hleft hright
      · simp only [hleft, hright, ne_eq, not_false_eq_true, decide_true]
        have hends : Divides tree path path := ⟨prefix_rfl, fun _ he => he, hleft, hright⟩
        constructor
        · intro hsome
          exact ⟨path, (Option.some.inj hsome).symm, hends, by omega⟩
        · rintro ⟨branch, rfl, hdivides, -⟩
          rw [(divides_iff_longestCommon.mp hdivides).eq (divides_iff_longestCommon.mp hends)]

/-- A descent leaves the subtrees of its co-path. -/
theorem not_begins_copath {s : Nat → Bool} {p q r : List Bool} (hr : r ∈ copath p q)
    (hs : Begins s (p ++ q)) : ¬ Begins s r := by
  induction q generalizing p with
  | nil => cases hr
  | cons b q ih =>
    rw [append_cons] at hs
    rcases mem_cons.mp hr with rfl | hr
    · intro hother
      have hhere := (begins_concat.mp (begins_append.mp hs).1).2
      simpa using hhere.symm.trans (begins_concat.mp hother).2
    · exact ih hr hs

/-- The children and the spine of a split. -/
def splitCover (shard branch : List Bool) : Set (List Bool) :=
  {r | r ∈ splitSpineSiblings shard branch} ∪ {branch ++ [false], branch ++ [true]}

/-- What a split at the end of a branch gives. -/
structure Covers (tree : NibbleTree Bytes32 Bytes) (shard branch : List Bool) : Prop where
  nonempty : ∀ b, leavesUnder tree (branch ++ [b]) ≠ []
  leaves : ∀ e ∈ leavesUnder tree shard, ∃ b, e ∈ leavesUnder tree (branch ++ [b])
  tiles : Tiles id (splitCover shard branch) shard
  spine : ∀ r ∈ splitSpineSiblings shard branch, leavesUnder tree r = []

theorem Divides.covers (h : Divides tree shard branch) : Covers tree shard branch := by
  obtain ⟨rest, rfl⟩ := h.below
  refine ⟨h.ne_nil, fun e he => ⟨_, mem_leavesUnder_next.mpr ⟨h.onBranch e he, rfl⟩⟩, ?_, ?_⟩
  · rw [splitCover, splitSpineSiblings_append]
    exact tiles_copath (tiles_halves (shard ++ rest) false)
  · intro r hr
    rw [splitSpineSiblings_append] at hr
    rw [eq_nil_iff_forall_not_mem]
    intro e he
    obtain ⟨hentry, hbegins⟩ := mem_leavesUnder.mp he
    -- the spine lies below the shard, so its leaves would be on the branch
    have hbelow : shard <+: r := (tiles_copath (tiles_halves (shard ++ rest) false)).below r (.inl hr)
    have hbranch := h.onBranch e (mem_leavesUnder.mpr ⟨hentry, hbegins.of_isPrefix hbelow⟩)
    exact not_begins_copath hr (mem_leavesUnder.mp hbranch).2 hbegins

/-- **Deep splits cover their shard.**  One is found exactly when two leaves lie under the shard and
their longest common path is within the budget.  Both children hold leaves, and with the spine,
which holds none, they tile the shard. -/
theorem deep_split_covers (h : NibbleTree.Placed keyBit 0 tree) (shard : List Bool) (budget : Nat) :
    ((firstSplitBifurcation tree shard budget).isSome ↔ 2 ≤ (leavesUnder tree shard).length ∧
        ∃ branch, LongestCommon tree shard branch ∧ branch.length < shard.length + budget) ∧
      ∀ children, firstSplitBifurcation tree shard budget = some children →
        ∃ branch, children = [branch ++ [false], branch ++ [true]] ∧
          LongestCommon tree shard branch ∧ Covers tree shard branch := by
  have hfound : ∀ children, firstSplitBifurcation tree shard budget = some children ↔
      ∃ branch, children = [branch ++ [false], branch ++ [true]] ∧ Divides tree shard branch ∧
        branch.length < shard.length + budget := by
    intro children
    rw [firstSplitBifurcation, appSubtreeLeafCount_eq h]
    by_cases hfew : (leavesUnder tree shard).length < 2
    · rw [if_pos hfew]
      refine iff_of_false (by simp) ?_
      rintro ⟨branch, -, hdivides, -⟩
      have := hdivides.two_le
      omega
    · rw [if_neg hfew]
      exact bifurcationFrom_iff h
  refine ⟨?_, ?_⟩
  · rw [Option.isSome_iff_exists]
    constructor
    · rintro ⟨children, hchildren⟩
      obtain ⟨branch, -, hdivides, hlength⟩ := (hfound children).mp hchildren
      exact ⟨hdivides.two_le, branch, divides_iff_longestCommon.mp hdivides, hlength⟩
    · rintro ⟨-, branch, hlongest, hlength⟩
      exact ⟨_, (hfound _).mpr ⟨branch, rfl, divides_iff_longestCommon.mpr hlongest, hlength⟩⟩
  · intro children hchildren
    obtain ⟨branch, hshape, hdivides, -⟩ := (hfound children).mp hchildren
    exact ⟨branch, hshape, divides_iff_longestCommon.mp hdivides, hdivides.covers⟩

end Search

/-- Two leaves whose keys have their first seven bits in common. -/
def twoLeaves : NibbleTree Bytes32 Bytes :=
  ((NibbleTree.null : NibbleTree Bytes32 Bytes).insert keyBit 0#256 [1] 64 0).insert keyBit
    (1#256 <<< 248) [2] 64 0

theorem placed_twoLeaves : Placed keyBit 0 twoLeaves := by
  have hput : ∀ {t : NibbleTree Bytes32 Bytes} (key : Bytes32) (value : Bytes),
      Placed keyBit 0 t → Placed keyBit 0 (t.insert keyBit key value 64 0) :=
    fun {t} key value ht => (@inserted_insert _ _ keyBit _ 64 keyBit_separates key value 64 0 t
      rfl ht fun _ _ i hi => absurd hi (Nat.not_lt_zero i)).placed
  exact hput _ _ (hput _ _ (t := .null) trivial)

/-- The split of two leaves, seven bits down. -/
theorem two_leaves_split : ∃ branch, [replicate 7 false ++ [false], replicate 7 false ++ [true]] =
        [branch ++ [false], branch ++ [true]] ∧
      LongestCommon twoLeaves [] branch ∧ Covers twoLeaves [] branch :=
  (deep_split_covers placed_twoLeaves [] 8).2 _ (by decide +kernel)

end Hypergraph

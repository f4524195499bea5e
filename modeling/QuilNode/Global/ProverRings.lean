import QuilNode.Lib.Results
import QuilNode.Lib.WordOrder
import QuilNode.Basic

/-!
# Reward rings (`global_intrinsic/prover_rings.rs`)

The members of a shard are ranked by cohort, then seniority, then address, and eight at a time
share a ring.  The ranking is the order of one lexicographic key (`rankKey`), so a member's place
is the number of members with a smaller key (`assign_eq`).  A split cuts the ranking by seniority
into contiguous groups.
-/

namespace Global

open List Prod.Lex

/-- What ranks one member of a shard. -/
structure RingKey where
  cohort : Nat
  seniority : Nat
  deriving DecidableEq

/-- A prover's address and key. -/
abbrev Member := Bytes × RingKey

/-- `rank`. -/
def rank (a b : Member) (oneCohort : Bool) : Ordering :=
  (if oneCohort then .eq else cmp a.2.cohort b.2.cohort).then
    ((cmp b.2.seniority a.2.seniority).then (cmp a.1 b.1))

/-- `RING_GROUP_SIZE`. -/
def ringGroupSize : Nat := 8

/-- The ring of a position, in a `u8`. -/
def ringAt (position : Nat) : Nat := min (position / ringGroupSize) 255

/-- `assign`.  The order has every index once: the loop writes the ring of an index at its
position there. -/
def assign (members : List Member) (oneCohort : Bool) : List Nat :=
  let order := (List.finRange members.length).mergeSort fun a b =>
    (rank (members.get a) (members.get b) oneCohort).isLE
  (List.finRange members.length).map fun index => ringAt (order.idxOf index)

/-- `split_groups`. -/
def splitGroups {T : Type} (provers : List (T × Member)) (k : Nat) : Result (List (List T)) :=
  if k = 0 then .error (.invalidArgument "split has no children")
  else
    let sorted := provers.mergeSort fun a b => (rank a.2 b.2 true).isLE
    let base := provers.length / k
    let extra := provers.length % k
    let sizes := (List.range k).map fun group => base + if group < extra then 1 else 0
    .ok ((sizes.splitLengths sorted).map (List.map Prod.fst))

/-- What `rank` compares. -/
def rankKey (oneCohort : Bool) (member : Member) : Nat ×ₗ Natᵒᵈ ×ₗ Bytes :=
  toLex (if oneCohort then 0 else member.2.cohort,
    toLex (OrderDual.toDual member.2.seniority, member.1))

theorem rank_isLE {a b : Member} {oneCohort : Bool} :
    (rank a b oneCohort).isLE = true ↔ rankKey oneCohort a ≤ rankKey oneCohort b := by
  have haddress : (cmp a.1 b.1).isLE = true ↔ a.1 ≤ b.1 := by
    unfold cmp cmpUsing
    split_ifs with hlt hgt
    · exact iff_of_true rfl (le_of_lt hlt)
    · exact iff_of_false (by decide) (not_le_of_gt hgt)
    · exact iff_of_true rfl (le_of_not_gt hgt)
  cases oneCohort with
  | false | true =>
    simp [rank, rankKey, toLex_le_toLex, Ordering.isLE_then_iff_or, haddress,
      @eq_comm _ b.2.seniority]

theorem pairwise_mergeSort_rank {α : Type*} (member : α → Member) (oneCohort : Bool) (l : List α) :
    (l.mergeSort fun a b => (rank (member a) (member b) oneCohort).isLE).Pairwise
      fun a b => rankKey oneCohort (member a) ≤ rankKey oneCohort (member b) := by
  simp only [← rank_isLE]
  refine pairwise_mergeSort (fun a b c hab hbc => ?_) (fun a b => ?_) l
  · exact rank_isLE.mpr ((rank_isLE.mp hab).trans (rank_isLE.mp hbc))
  · simpa only [Bool.or_eq_true, rank_isLE] using le_total _ _

/-- The position in a strictly sorted list is the number of smaller elements. -/
theorem idxOf_eq_countP {α β : Type*} [DecidableEq α] [LinearOrder β] {key : α → β} {l : List α}
    (h : l.Pairwise fun a b => key a < key b) {x : α} (hx : x ∈ l) :
    l.idxOf x = l.countP fun a => decide (key a < key x) := by
  induction l with
  | nil => cases hx
  | cons a l ih =>
    obtain ⟨hhead, htail⟩ := pairwise_cons.mp h
    by_cases hax : a = x
    · subst hax
      rw [idxOf_cons_self, eq_comm, countP_eq_zero]
      intro b hb
      rcases mem_cons.mp hb with rfl | hb
      · simp
      · simpa using (hhead b hb).le
    · have hmem : x ∈ l := (mem_cons.mp hx).resolve_left (Ne.symm hax)
      rw [idxOf_cons_ne _ hax, ih htail hmem, countP_cons_of_pos (by simpa using hhead x hmem)]

/-- **A member's ring is the number of members ranked before it.** -/
theorem assign_eq {members : List Member} (hdistinct : (members.map Prod.fst).Nodup)
    (oneCohort : Bool) :
    assign members oneCohort = members.map fun member => ringAt
      (members.countP fun other => decide (rankKey oneCohort other < rankKey oneCohort member)) := by
  have hperm := mergeSort_perm (finRange members.length) fun a b =>
    (rank (members.get a) (members.get b) oneCohort).isLE
  have hget := (List.Nodup.of_map _ hdistinct).injective_get
  have hsorted : ((finRange members.length).mergeSort fun a b =>
      (rank (members.get a) (members.get b) oneCohort).isLE).Pairwise
        fun a b => rankKey oneCohort (members.get a) < rankKey oneCohort (members.get b) := by
    refine (pairwise_mergeSort_rank members.get oneCohort _).imp₂
      (fun a b hle hne => hle.lt_of_ne fun heq => hne (hget ?_))
      (hperm.nodup_iff.mpr (nodup_finRange _))
    exact inj_on_of_nodup_map hdistinct (get_mem _ _) (get_mem _ _)
      (Prod.mk.inj (Prod.mk.inj heq).2).2
  have hmap : ∀ ring : Member → Nat,
      members.map ring = (finRange members.length).map (ring ∘ members.get) := fun ring => by
    rw [← map_map, map_get_finRange]
  have hcount : ∀ before : Member → Bool, (finRange members.length).countP
      (before ∘ members.get) = members.countP before := fun before => by
    rw [← countP_map, map_get_finRange]
  rw [hmap]
  refine map_congr_left fun i hi => congrArg ringAt ?_
  rw [idxOf_eq_countP hsorted (hperm.mem_iff.mpr hi), hperm.countP_eq]
  exact hcount fun other => decide (rankKey oneCohort other < rankKey oneCohort (members.get i))

/-- A member of a list has a ring. -/
def RingOf (members : List Member) (oneCohort : Bool) (member : Member) (ring : Nat) : Prop :=
  (member, ring) ∈ members.zip (assign members oneCohort)

theorem ringOf_iff {members : List Member} (hdistinct : (members.map Prod.fst).Nodup)
    {oneCohort : Bool} {member : Member} {ring : Nat} :
    RingOf members oneCohort member ring ↔ member ∈ members ∧ ring = ringAt
      (members.countP fun other => decide (rankKey oneCohort other < rankKey oneCohort member)) := by
  rw [RingOf, assign_eq hdistinct, ← map_prod_left_eq_zip, mem_map]
  constructor
  · rintro ⟨other, hmem, h⟩
    obtain ⟨rfl, rfl⟩ := Prod.mk.inj h
    exact ⟨hmem, rfl⟩
  · rintro ⟨hmem, rfl⟩
    exact ⟨member, hmem, rfl⟩

theorem sum_sizes (base extra k : Nat) :
    ((range k).map fun group => base + if group < extra then 1 else 0).sum =
      k * base + min extra k := by
  induction k with
  | zero => simp
  | succ k ih =>
    rw [range_succ, map_append, sum_append, ih, map_singleton, sum_singleton, Nat.succ_mul]
    split <;> omega

/-- **Rings are canonical, and a split keeps the most senior together.**  Every member has one ring,
in any order of the list; later cohorts do not change it and departures do not raise it.  The groups
of a split partition its provers, the first `n % k` one larger, none more senior than an earlier
group. -/
theorem rings_are_canonical :
    (∀ (members : List Member) (oneCohort : Bool), (members.map Prod.fst).Nodup →
      ∀ member ∈ members, ∃! ring, RingOf members oneCohort member ring) ∧
    (∀ (members members' : List Member) (oneCohort : Bool), (members.map Prod.fst).Nodup →
      members.Perm members' → ∀ member ring,
        RingOf members oneCohort member ring ↔ RingOf members' oneCohort member ring) ∧
    (∀ members added : List Member, ((members ++ added).map Prod.fst).Nodup → ∀ member ring,
      (∀ later ∈ added, member.2.cohort < later.2.cohort) →
        RingOf members false member ring → RingOf (members ++ added) false member ring) ∧
    (∀ (members removed : List Member) (oneCohort : Bool),
      ((members ++ removed).map Prod.fst).Nodup → ∀ member ring ring',
        RingOf (members ++ removed) oneCohort member ring →
          RingOf members oneCohort member ring' → ring' ≤ ring) ∧
    (∀ (T : Type) (provers : List (T × Member)) (k : Nat), 1 ≤ k →
      ∃ groups : List (List (T × Member)), splitGroups provers k = .ok (groups.map (map Prod.fst)) ∧
        groups.flatten.Perm provers ∧
        groups.map length = (range k).map (fun group =>
          provers.length / k + if group < provers.length % k then 1 else 0) ∧
        groups.Pairwise fun earlier later => ∀ a ∈ earlier, ∀ b ∈ later,
          b.2.2.seniority ≤ a.2.2.seniority) := by
  refine ⟨?_, ?_, ?_, ?_, ?_⟩
  · intro members oneCohort hdistinct member hmember
    exact ⟨_, (ringOf_iff hdistinct).mpr ⟨hmember, rfl⟩, fun _ h => ((ringOf_iff hdistinct).mp h).2⟩
  · intro members members' oneCohort hdistinct hperm member ring
    rw [ringOf_iff hdistinct, ringOf_iff ((hperm.map _).nodup_iff.mp hdistinct), hperm.mem_iff,
      hperm.countP_eq]
  · intro members added hdistinct member ring hlater h
    have hmembers : (members.map Prod.fst).Nodup := by
      rw [map_append] at hdistinct
      exact hdistinct.of_append_left
    obtain ⟨hmem, rfl⟩ := (ringOf_iff hmembers).mp h
    refine (ringOf_iff hdistinct).mpr ⟨mem_append_left _ hmem, ?_⟩
    have hnone : added.countP (fun other => decide (rankKey false other < rankKey false member)) =
        0 := by
      rw [countP_eq_zero]
      intro other hother
      have hlt : rankKey false member < rankKey false other :=
        toLex_lt_toLex.mpr (.inl (hlater other hother))
      simpa using hlt.le
    rw [countP_append, hnone, Nat.add_zero]
  · intro members removed oneCohort hdistinct member ring ring' h h'
    have hmembers : (members.map Prod.fst).Nodup := by
      rw [map_append] at hdistinct
      exact hdistinct.of_append_left
    obtain ⟨-, rfl⟩ := (ringOf_iff hdistinct).mp h
    obtain ⟨-, rfl⟩ := (ringOf_iff hmembers).mp h'
    refine min_le_min_right _ (Nat.div_le_div_right ?_)
    exact (sublist_append_left members removed).countP_le
  · intro T provers k hk
    have hsum := sum_sizes (provers.length / k) (provers.length % k) k
    rw [min_eq_left (Nat.mod_lt _ hk).le, Nat.div_add_mod] at hsum
    have hperm := mergeSort_perm provers fun a b => (rank a.2 b.2 true).isLE
    have hlength := hsum.trans hperm.length_eq.symm
    have hflatten := flatten_splitLengths _ _ hlength.ge
    have hsorted := pairwise_mergeSort_rank Prod.snd true provers
    refine ⟨_, if_neg (Nat.pos_iff_ne_zero.mp hk), ?_, map_splitLengths_length _ _ hlength.le, ?_⟩
    · rwa [hflatten]
    · rw [← hflatten, pairwise_flatten] at hsorted
      refine hsorted.2.imp fun h a ha b hb => ?_
      rcases toLex_le_toLex.mp (h a ha b hb) with hlt | ⟨-, hle⟩
      · exact absurd hlt (lt_irrefl 0)
      rcases toLex_le_toLex.mp hle with hlt | ⟨heq, -⟩
      · exact le_of_lt hlt
      · exact (congrArg OrderDual.ofDual heq).ge

end Global

import QuilNode.Engine.TimeReelDepth

/-!
# A chain of frames in any order

The frames of a chain arrive one by one after its root.  Those up to some `k` hang in a row under
the root, the others are pending (`Grown`).  The frame after the row hangs itself and all that
follow it without a gap, and once the row is complete the fork choice ends at its last frame.
-/

namespace TimeReel

open Reel List Option Nat FrameNode

/-- At most `maxTreeDepth` frames after a root, each naming the one before it. -/
structure Chain (env : ReelEnv) where
  length : Nat
  frame : Nat → Header
  short : length ≤ maxTreeDepth
  names : ∀ i < length,
    (frame (i + 1)).parentSelector = env.computePoseidonSelector (frame i).output

variable {j : Nat}

namespace Chain

variable {env : ReelEnv}

def id (c : Chain env) (i : Nat) : FrameId := computeFrameId (c.frame i)

/-- The frames have outputs of their own, and none has the genesis number or one so far above the
last that the head would jump back to it. -/
structure Plain (c : Chain env) : Prop where
  outputs : ∀ i ≤ c.length, ∀ j ≤ c.length, (c.frame i).output = (c.frame j).output → i = j
  genesis : ∀ i < c.length, (c.frame (i + 1)).frameNumber ≠ env.genesisFrameNumber
  numbers : ∀ i < c.length,
    (c.frame (i + 1)).frameNumber ≤ (c.frame c.length).frameNumber + maxTreeDepth

variable {c : Chain env}

theorem Plain.id_inj (h : c.Plain) {i : Nat} (hi : i ≤ c.length)
    (hj : j ≤ c.length) (hid : c.id i = c.id j) : i = j :=
  h.outputs i hi j hj (congrArg FrameId.output hid)

/-- A frame names the frame before it and no other. -/
theorem Plain.names_iff (h : c.Plain) {i k : Nat} (hi : 0 < i)
    (hin : i ≤ c.length) (hk : k ≤ c.length) :
    (c.frame i).parentSelector = env.computePoseidonSelector (c.frame k).output ↔ i = k + 1 := by
  obtain ⟨j, rfl⟩ : ∃ j, i = j + 1 := ⟨i - 1, by omega⟩
  rw [c.names j (by omega)]
  constructor
  · intro heq
    have := h.outputs j (by omega) k hk (env.selector_injective heq)
    omega
  · intro heq
    rw [show j = k by omega]

/-- The node of frame `i` when the frames up to `k` hang in a row. -/
def node (c : Chain env) (k i : Nat) : FrameNode :=
  ⟨c.frame i, if i = 0 then none else some (c.id (i - 1)), if i < k then [c.id (i + 1)] else [], i⟩

end Chain

namespace Reel

open Chain

section Row

variable {env : ReelEnv}

/-- The frames up to `k` hang in a row; the others that arrived are pending, and stored alone
or not at all. -/
structure Grown (c : Chain env) (arrived : List Nat) (k : Nat) (s : Reel) : Prop where
  distinct : s.Distinct
  rooted : s.root ≠ none
  le : k ≤ c.length
  row : ∀ i ≤ k, s.get (c.id i) = some (c.node k i)
  apart : ∀ i, k < i → i ≤ c.length →
    s.get (c.id i) = none ∨ i ∈ arrived ∧ s.get (c.id i) = some ⟨c.frame i, none, [], 1⟩
  only : ∀ m ∈ s.nodes, ∃ i ≤ c.length, m.frame = c.frame i
  pending : ∀ h, h ∈ s.pendingFrames ↔ ∃ i ∈ arrived, k < i ∧ h = c.frame i
  once : s.pendingFrames.Nodup
  head : ∃ m ∈ s.nodes, s.head = some m.id
  indices : ∀ i ∈ arrived, 0 < i ∧ i ≤ c.length
  hung : ∀ i, 0 < i → i ≤ k → i ∈ arrived

/-! ## The head -/

theorem getD_id_cases (nodes : List FrameNode) (i : Nat) (default : FrameId) :
    ((nodes[i]?).map FrameNode.id).getD default = default ∨
      ∃ n ∈ nodes, ((nodes[i]?).map FrameNode.id).getD default = n.id := by
  cases hget : nodes[i]? with
  | none => exact .inl rfl
  | some n => exact .inr ⟨n, mem_of_getElem? hget, rfl⟩

/-- The head is chosen among the old head, the new node and the stored leaves. -/
theorem chooseHead_stored (env : ReelEnv) (order : IterOrder) {s : Reel} {new : FrameId}
    (hnew : ∃ m ∈ s.nodes, new = m.id) (hhead : ∃ m ∈ s.nodes, s.head = some m.id) :
    ∃ m ∈ s.nodes, s.chooseHead env order new = m.id := by
  obtain ⟨old, hold, hhead⟩ := hhead
  have hleaf : ∀ {n : FrameNode} {p : FrameNode → Bool},
      n ∈ (s.findLeafNodes order old.id).filter p → n ∈ s.nodes := fun hn =>
    order.mem.mp (mem_of_mem_filter (mem_of_mem_filter hn))
  unfold chooseHead
  rw [hhead]
  dsimp only
  split
  · exact hnew
  split
  · split
    · exact hnew
    · exact ⟨old, hold, rfl⟩
  · split
    · rename_i chosen heq
      exact ⟨chosen, hleaf (heq ▸ mem_singleton_self chosen), rfl⟩
    · rcases getD_id_cases _ _ old.id with h | ⟨n, hn, h⟩
      · exact ⟨old, hold, h⟩
      · exact ⟨n, hleaf hn, h⟩

variable {c : Chain env} {arrived : List Nat} {k : Nat} {s s₁ : Reel}

section Growth

variable (h : Grown c arrived k s)
include h

theorem Grown.stored {m : FrameNode} (hm : m ∈ s.nodes) :
    ∃ i ≤ c.length, m.frame = c.frame i ∧ s.get (c.id i) = some m := by
  obtain ⟨i, hi, hframe⟩ := h.only m hm
  refine ⟨i, hi, hframe, ?_⟩
  rw [← show m.id = c.id i from congrArg computeFrameId hframe]
  exact h.distinct.get hm

theorem Grown.get_new (hj : k < j) (hjn : j ≤ c.length)
    (hnew : j ∉ arrived) : s.get (c.id j) = none := by
  rcases h.apart j hj hjn with hnone | ⟨harrived, -⟩
  · exact hnone
  · exact absurd harrived hnew

theorem Grown.indices_cons (hj : k < j) (hjn : j ≤ c.length) :
    ∀ i ∈ j :: arrived, 0 < i ∧ i ≤ c.length :=
  forall_mem_cons.mpr ⟨⟨by omega, hjn⟩, h.indices⟩

theorem Grown.evaluateForkChoice (order : IterOrder) {new : FrameId}
    (hnew : ∃ m ∈ s.nodes, new = m.id) :
    Grown c arrived k (s.evaluateForkChoice env order new) := by
  obtain ⟨m, hm, hchosen⟩ := chooseHead_stored env order hnew h.head
  exact { h with head := ⟨m, hm, congrArg some hchosen⟩ }

end Growth

/-- In a complete row the last frame is the only leaf. -/
theorem Grown.leaves (h : Grown c arrived c.length s) (order : IterOrder) (headId : FrameId) :
    (s.findLeafNodes order headId).length ≤ 1 := by
  have hall : ∀ m ∈ s.findLeafNodes order headId, m = c.node c.length c.length := by
    intro m hm
    obtain ⟨hmem, hleaf⟩ := mem_filter.mp hm
    obtain ⟨i, hi, -, hget⟩ := h.stored (order.mem.mp hmem)
    obtain rfl := some.inj ((h.row i hi).symm.trans hget)
    by_cases hlt : i < c.length
    · simp [node, hlt] at hleaf
    · rw [show i = c.length by omega]
  have hnodup : (s.findLeafNodes order headId).Nodup :=
    ((order.perm s.nodes).nodup_iff.mpr (List.Nodup.of_map _ h.distinct)).filter _
  match hl : s.findLeafNodes order headId with
  | [] => simp
  | [_] => simp
  | a :: b :: rest =>
    rw [hl] at hall hnodup
    have hab : a = b := (hall a (by simp)).trans (hall b (by simp)).symm
    simp [hab] at hnodup

/-- In a complete row the head becomes the last frame when that is new, and stays there. -/
theorem Grown.chooseHead_last (h : Grown c arrived c.length s) (hc : c.Plain) (order : IterOrder)
    {i : Nat} (hi : i ≤ c.length) (hpos : 0 < i)
    (hlast : i = c.length ∨ s.head = some (c.id c.length)) :
    s.chooseHead env order (c.id i) = c.id c.length := by
  obtain ⟨m, hm, hmhead⟩ := h.head
  obtain ⟨j, hj, hframe⟩ := h.only m hm
  have hhead : s.head = some (c.id j) :=
    hmhead.trans (congrArg (fun f => some (computeFrameId f)) hframe)
  have hnumber : ∀ i ≤ c.length, s.frameNumberOf (c.id i) = (c.frame i).frameNumber := by
    intro i hi
    simp [frameNumberOf, h.row i hi, node]
  have hdepth : ∀ i ≤ c.length, s.depthOf (c.id i) = i := by
    intro i hi
    simp [depthOf, h.row i hi, node]
  unfold chooseHead
  rw [hhead]
  dsimp only
  rw [hnumber i hi, hnumber j hj, hdepth i hi, hdepth j hj, if_pos (h.leaves order _)]
  rcases hlast with rfl | hlast
  · split
    · rfl
    · split
      · rfl
      · rw [show j = c.length by omega]
  · have hjn : j = c.length := hc.id_inj hj (Nat.le_refl _) (some.inj (hhead.symm.trans hlast))
    subst hjn
    obtain ⟨i, rfl⟩ : ∃ i', i = i' + 1 := ⟨i - 1, by omega⟩
    have hbound := hc.numbers i (by omega)
    rw [if_neg (by omega), if_neg (by omega)]

/-- The frame after the row is hung under its end. -/
theorem Grown.hang (h : Grown c arrived k s) (hc : c.Plain) {n : FrameNode} {arrived' : List Nat}
    {waiting : List Header} (hhang : Hangs { s with pendingFrames := waiting } s₁ (c.node k k) n)
    (hframe : n.frame = c.frame (k + 1))
    (hchildren : n.children = []) (hk : k + 1 ≤ c.length)
    (hmore : ∀ i ∈ arrived, i ∈ arrived') (hnext : k + 1 ∈ arrived')
    (hindices : ∀ i ∈ arrived', 0 < i ∧ i ≤ c.length)
    (hpending : ∀ f, f ∈ s₁.pendingFrames ↔ ∃ i ∈ arrived', k + 1 < i ∧ f = c.frame i)
    (honce : s₁.pendingFrames.Nodup) : Grown c arrived' (k + 1) s₁ := by
  have hid : n.id = c.id (k + 1) := congrArg computeFrameId hframe
  have hne : ∀ {i j : Nat}, i ≤ c.length → j ≤ c.length → i ≠ j → c.id i ≠ c.id j :=
    fun hi hj hij heq => hij (hc.id_inj hi hj heq)
  have hnodeid : (c.node k k).id = c.id k := rfl
  have hdistinct : s₁.Distinct := hhang.distinct h.distinct
  refine
    { distinct := hdistinct
      rooted := hhang.root ▸ h.rooted
      le := hk
      row := ?_
      apart := ?_
      only := ?_
      pending := hpending
      once := honce
      head := ?_
      indices := hindices
      hung := ?_ }
  · intro i hi
    rw [hhang.get, hnodeid, hid]
    by_cases hik : i = k
    · subst hik
      rw [if_pos rfl]
      simp [withChild, node]
    · by_cases hik' : i = k + 1
      · subst hik'
        rw [if_neg (hne hk h.le (by omega)), if_pos rfl]
        simp [node, hframe, hchildren]
      · rw [if_neg (hne (by omega) h.le hik), if_neg (hne (by omega) hk hik')]
        refine (h.row i (by omega)).trans ?_
        simp [node, show i < k by omega, show i < k + 1 by omega]
  · intro i hi hin
    rw [hhang.get, hnodeid, hid, if_neg (hne hin h.le (by omega)), if_neg (hne hin hk (by omega))]
    rcases h.apart i (by omega) hin with hnone | ⟨harrived, horphan⟩
    · exact .inl hnone
    · exact .inr ⟨hmore i harrived, horphan⟩
  · intro m hm
    have hstored := hdistinct.get hm
    rw [hhang.get] at hstored
    split at hstored
    · cases hstored
      exact ⟨k, h.le, rfl⟩
    split at hstored
    · cases hstored
      exact ⟨k + 1, hk, hframe⟩
    · exact h.only m (mem_of_get hstored)
  · obtain ⟨m, hm, hm'⟩ := h.head
    by_cases heq : m.id = n.id
    · exact ⟨_, mem_of_get hhang.hung, by rw [hhang.head, hm', heq]; rfl⟩
    obtain ⟨m', hget', _, -⟩ := hhang.stays (h.distinct.get hm) heq
    refine ⟨m', mem_of_get hget', ?_⟩
    rw [hhang.head, hm', get_id hget']
  · intro i hpos hi
    by_cases hik : i = k + 1
    · exact hik ▸ hnext
    · exact hmore i (h.hung i hpos (by omega))

/-! ## What is pending below the row -/

/-- The pending frames that name the end of the row are the next frame, if it arrived. -/
theorem Grown.waiting (h : Grown c arrived k s) (hc : c.Plain) : s.pendingFrames.filter (fun f =>
        f.parentSelector = env.computePoseidonSelector (c.frame k).output) =
      if k + 1 ∈ arrived then [c.frame (k + 1)] else [] := by
  have hmem : ∀ f, f ∈ s.pendingFrames.filter (fun f =>
      f.parentSelector = env.computePoseidonSelector (c.frame k).output) ↔
        k + 1 ∈ arrived ∧ f = c.frame (k + 1) := by
    intro f
    rw [mem_filter, h.pending, decide_eq_true_eq]
    constructor
    · rintro ⟨⟨i, hi, hki, rfl⟩, hnames⟩
      obtain rfl := (hc.names_iff (h.indices i hi).1 (h.indices i hi).2 h.le).mp hnames
      exact ⟨hi, rfl⟩
    · rintro ⟨hi, rfl⟩
      exact ⟨⟨k + 1, hi, by omega, rfl⟩, (hc.names_iff (by omega) (h.indices _ hi).2 h.le).mpr rfl⟩
  split
  · rename_i hnext
    refine perm_singleton.mp ((perm_ext_iff_of_nodup (h.once.filter _)
      (nodup_singleton _)).mpr fun f => ?_)
    rw [hmem, mem_singleton]
    exact ⟨And.right, fun hf => ⟨hnext, hf⟩⟩
  · rename_i hnext
    refine eq_nil_iff_forall_not_mem.mpr fun f hf => hnext ((hmem f).mp hf).1

/-- Those that stay pending are further up the chain. -/
theorem Grown.rest (h : Grown c arrived k s) (hc : c.Plain) (f : Header) :
    f ∈ s.pendingFrames.filter (fun f =>
        f.parentSelector ≠ env.computePoseidonSelector (c.frame k).output) ↔
      ∃ i ∈ arrived, k + 1 < i ∧ f = c.frame i := by
  rw [mem_filter, h.pending, decide_eq_true_eq]
  constructor
  · rintro ⟨⟨i, hi, hki, rfl⟩, hnames⟩
    refine ⟨i, hi, ?_, rfl⟩
    have hne : i ≠ k + 1 := fun heq =>
      hnames ((hc.names_iff (h.indices i hi).1 (h.indices i hi).2 h.le).mpr heq)
    omega
  · rintro ⟨i, hi, hki, rfl⟩
    refine ⟨⟨i, hi, by omega, rfl⟩, fun hnames => ?_⟩
    have := (hc.names_iff (h.indices i hi).1 (h.indices i hi).2 h.le).mp hnames
    omega

/-- The row ends where the next frame has not arrived; a complete one that was extended, or had its
last frame as head, has its last frame as head. -/
def Extended (c : Chain env) (arrived : List Nat) (k : Nat) (s s' : Reel) : Prop :=
  ∃ k', k ≤ k' ∧ Grown c arrived k' s' ∧ k' + 1 ∉ arrived ∧
    (k' = c.length → k < k' ∨ s.head = some (c.id c.length) → s'.head = some (c.id c.length))

/-- A row that ends in a gap, and with its last frame as head if it is complete. -/
def Ended (c : Chain env) (arrived : List Nat) (k : Nat) (s : Reel) : Prop :=
  Grown c arrived k s ∧ k + 1 ∉ arrived ∧ (k = c.length → s.head = some (c.id c.length))

/-- The head is chosen again for the frame the row was extended from. -/
theorem Extended.evaluateForkChoice {s' : Reel} (h : Extended c arrived (k + 1) s s')
    (hc : c.Plain) (order : IterOrder) :
    ∃ k', k + 1 ≤ k' ∧ Ended c arrived k' (s'.evaluateForkChoice env order (c.id (k + 1))) := by
  obtain ⟨k', hle, hgrown, hgap, hhead⟩ := h
  refine ⟨k', hle, hgrown.evaluateForkChoice order
    ⟨_, mem_of_get (hgrown.row (k + 1) hle), rfl⟩, hgap, ?_⟩
  rintro rfl
  refine congrArg some (hgrown.chooseHead_last hc order hle (by omega) ?_)
  by_cases hlast : k + 1 = c.length
  · exact .inl hlast
  · exact .inr (hhead rfl (.inl (by omega)))

/-- With enough fuel `process_pending` hangs every frame that follows the row without a gap. -/
theorem Grown.processPendingFrom (hc : c.Plain) (order : IterOrder) (fuel : Nat) :
    ∀ {k : Nat} {s : Reel}, Grown c arrived k s → s.pendingFrames.length < fuel →
      Extended c arrived k s (processPendingFrom env order fuel s (c.id k)) := by
  induction fuel with
  | zero => exact fun _ h => absurd h (not_lt_zero _)
  | succ fuel ih =>
    intro k s h hfuel
    have hparent : s.get (c.id k) = some (c.node k k) := h.row k (Nat.le_refl _)
    have hframe : (c.node k k).frame = c.frame k := rfl
    simp only [Reel.processPendingFrom, hparent, hframe, h.waiting hc]
    split
    · rename_i hnext
      have hk : k + 1 ≤ c.length := (h.indices _ hnext).2
      set t : Reel := { s with pendingFrames := s.pendingFrames.filter fun f =>
        f.parentSelector ≠ env.computePoseidonSelector (c.frame k).output } with ht
      have hp : t.get (c.node k k).id = some (c.node k k) := hparent
      have hshorter : t.pendingFrames.length < fuel := by
        have hin : c.frame (k + 1) ∈ s.pendingFrames :=
          (h.pending _).mpr ⟨k + 1, hnext, by omega, rfl⟩
        have hlt : t.pendingFrames.length < s.pendingFrames.length := by
          refine length_filter_lt_length_iff_exists.mpr ⟨_, hin, ?_⟩
          simp [(hc.names_iff (by omega) hk h.le).mpr rfl]
        omega
      -- the next frame is hung, whether it was stored alone or not at all
      have hstep : ∃ s₁ n, Hangs t s₁ (c.node k k) n ∧ n.frame = c.frame (k + 1) ∧ n.children = [] ∧
          connect env order (Reel.processPendingFrom env order fuel) (c.id k) k t
            (c.frame (k + 1)) =
            (Reel.processPendingFrom env order fuel s₁ (c.id (k + 1))).evaluateForkChoice env order
              (c.id (k + 1)) := by
        have hself : (c.node k k).id ≠ c.id (k + 1) := fun heq =>
          absurd (hc.id_inj h.le hk heq) (by omega)
        unfold connect
        dsimp only
        rcases h.apart (k + 1) (by omega) hk with hnone | ⟨-, horphan⟩
        · have hnone' : t.get (computeFrameId (c.frame (k + 1))) = none := hnone
          rw [hnone']
          exact ⟨_, _, adopt_hangs hp hnone', rfl, rfl, rfl⟩
        · have horphan' : t.get (computeFrameId (c.frame (k + 1))) =
              some ⟨c.frame (k + 1), none, [], 1⟩ := horphan
          rw [horphan']
          exact ⟨_, ⟨c.frame (k + 1), none, [], 1⟩,
            reparent_hangs hp horphan' rfl hself, rfl, rfl, rfl⟩
      obtain ⟨s₁, _, hhang, hnframe, hnchildren, hconnect⟩ := hstep
      have hgrown : Grown c arrived (k + 1) s₁ :=
        h.hang hc hhang hnframe hnchildren hk (fun _ hi => hi) hnext h.indices
          (by rw [hhang.pending]; exact h.rest hc)
          (by rw [hhang.pending]; exact h.once.filter _)
      obtain ⟨k', _, hdone, hgap, hhead⟩ :=
        (ih hgrown (by rw [hhang.pending]; exact hshorter)).evaluateForkChoice hc order
      show Extended c arrived k s (connect env order _ (c.id k) k t (c.frame (k + 1)))
      rw [hconnect]
      exact ⟨k', by omega, hdone, hgap, fun hlast _ => hhead hlast⟩
    · rename_i hgap
      rw [foldl_nil]
      refine ⟨k, (Nat.le_refl _), { h with pending := ?_, once := h.once.filter _ }, hgap, ?_⟩
      · intro f
        rw [h.rest hc]
        refine exists_congr fun i => and_congr_right fun hi => and_congr_left fun _ => ?_
        have hne : i ≠ k + 1 := fun heq => hgap (heq ▸ hi)
        omega
      · rintro - (hlt | hhead)
        · exact absurd hlt (Nat.lt_irrefl k)
        · exact hhead

/-! ## One arrival -/

/-- No pending frame is too old to be kept. -/
def Fresh (s : Reel) (now : Int) : Prop :=
  ∀ p ∈ s.pendingFrames, now - pendingFrameMaxAgeMs ≤ p.timestamp

instance (s : Reel) (now : Int) : Decidable (Fresh s now) := by
  unfold Fresh
  infer_instance

/-- The tree after some frames arrived; once all did, only the head is described, since the root
may be pruned then. -/
def Reached (c : Chain env) (arrived : List Nat) (s : Reel) : Prop :=
  (∃ k, Ended c arrived k s) ∨
    (∀ i, 0 < i → i ≤ c.length → i ∈ arrived) ∧ s.head = some (c.id c.length)

theorem removeNodes_head (removed : List FrameNode) (s : Reel) :
    (removed.foldl removeNode s).head = s.head := by
  induction removed generalizing s with
  | nil => rfl
  | cons r removed ih => exact ih (s.removeNode r)

theorem pruneOldFrames_head (order : IterOrder) (s : Reel) :
    (s.pruneOldFrames order).head = s.head := by
  unfold pruneOldFrames
  dsimp only
  split
  · rfl
  split
  · rfl
  split
  · rfl
  · split <;> exact removeNodes_head _ s

/-- Nothing is pruned before the row is complete: its nodes are not deep enough. -/
theorem Grown.pruneOldFrames (h : Grown c arrived k s) (hk : k < c.length) (order : IterOrder) :
    s.pruneOldFrames order = s := by
  obtain ⟨m, hm, hhead⟩ := h.head
  obtain ⟨i, hi, -, hget⟩ := h.stored hm
  have hshallow : m.depth < maxTreeDepth := by
    have hshort := c.short
    by_cases hik : i ≤ k
    · cases hget.symm.trans (h.row i hik)
      show i < maxTreeDepth
      omega
    · rcases h.apart i (by omega) hi with hnone | ⟨-, horphan⟩
      · cases hnone.symm.trans hget
      · cases hget.symm.trans horphan
        show 1 < maxTreeDepth
        decide
  unfold Reel.pruneOldFrames
  rw [hhead, bind_some, h.distinct.get hm]
  exact if_pos hshallow

/-- Pruning leaves a row alone while it is incomplete, and the head in any case. -/
theorem Ended.prune (h : Ended c arrived k s) (order : IterOrder) {now : Int}
    (hfresh : Fresh s now) : Reached c arrived ((s.pruneOldFrames order).pruneOldPending now) := by
  obtain ⟨hgrown, hgap, hhead⟩ := h
  by_cases hlast : k = c.length
  · right
    refine ⟨fun i hpos hi => hgrown.hung i hpos (by omega), ?_⟩
    exact (pruneOldFrames_head order s).trans (hhead hlast)
  · left
    have hle := hgrown.le
    have hpending : s.pendingFrames.filter (fun p => now - pendingFrameMaxAgeMs ≤ p.timestamp) =
        s.pendingFrames := filter_eq_self.mpr fun p hp => decide_eq_true (hfresh p hp)
    rw [hgrown.pruneOldFrames (by omega) order]
    unfold pruneOldPending
    rw [hpending]
    exact ⟨k, hgrown, hgap, hhead⟩

/-- A frame whose predecessor is not stored waits. -/
theorem Grown.insertPending (h : Grown c arrived k s) (hc : c.Plain) (order : IterOrder)
    (hj : k < j) (hjn : j ≤ c.length) (hnew : j ∉ arrived) :
    Grown c (j :: arrived) k (s.insertPending env order (c.frame j)) := by
  have hnone := h.get_new hj hjn hnew
  have hfresh : c.frame j ∉ s.pendingFrames := by
    intro hmem
    obtain ⟨i, hi, -, hframe⟩ := (h.pending _).mp hmem
    exact hnew (hc.outputs j hjn i (h.indices i hi).2 (congrArg Header.output hframe) ▸ hi)
  have hwaiting : Grown c (j :: arrived) k
      { s with pendingFrames := s.pendingFrames ++ [c.frame j] } :=
    { h with
      apart := fun i hki hin => (h.apart i hki hin).imp_right fun hi =>
        ⟨mem_cons_of_mem j hi.1, hi.2⟩
      pending := by
        intro f
        rw [mem_append, h.pending, mem_singleton]
        constructor
        · rintro (⟨i, hi, hki, rfl⟩ | rfl)
          · exact ⟨i, mem_cons_of_mem j hi, hki, rfl⟩
          · exact ⟨j, mem_cons_self, hj, rfl⟩
        · rintro ⟨i, hi, hki, rfl⟩
          rcases mem_cons.mp hi with rfl | hi
          · exact .inr rfl
          · exact .inl ⟨i, hi, hki, rfl⟩
      once := List.Nodup.append h.once (nodup_singleton _) (disjoint_singleton.mpr hfresh)
      indices := h.indices_cons hj hjn
      hung := fun i hpos hi => mem_cons_of_mem j (h.hung i hpos hi) }
  unfold Reel.insertPending
  dsimp only
  split
  · -- stored alone as well
    refine Grown.evaluateForkChoice (k := k) ?_ order
      ⟨⟨c.frame j, none, [], 1⟩, by simp [add], rfl⟩
    refine { hwaiting with
        distinct := hwaiting.distinct.add hnone
        row := ?_
        apart := ?_
        only := ?_
        head := ?_ }
    · intro i hi
      rw [get_add, hwaiting.row i hi, some_or]
    · intro i hki hin
      rw [get_add, id_mk]
      by_cases hij : i = j
      · subst hij
        have hnone' : get { s with pendingFrames := s.pendingFrames ++ [c.frame i] }
            (c.id i) = none := hnone
        right
        refine ⟨mem_cons_self, ?_⟩
        rw [hnone', none_or]
        exact if_pos rfl
      · have hne : computeFrameId (c.frame j) ≠ c.id i := fun heq =>
          hij (hc.id_inj hin hjn heq.symm)
        rw [if_neg hne, or_none]
        exact hwaiting.apart i hki hin
    · intro m hm
      rcases mem_append.mp hm with hm | hm
      · exact h.only m hm
      · rw [mem_singleton.mp hm]
        exact ⟨j, hjn, rfl⟩
    · obtain ⟨m, hm, hhead⟩ := h.head
      exact ⟨m, mem_append_left _ hm, hhead⟩
  · exact hwaiting

/-- The frame after the row hangs itself and what waits for it. -/
theorem Grown.insertChild (h : Grown c arrived k s) (hc : c.Plain) (order : IterOrder) {now : Int}
    (hgap : k + 1 ∉ arrived) (hk : k + 1 ≤ c.length) (hfresh : Fresh s now) :
    Reached c ((k + 1) :: arrived)
      (s.insertChild env order now (c.node k k) (c.frame (k + 1))) := by
  have hnone := h.get_new k.lt_succ_self hk hgap
  have hhang : Hangs s (s.adopt (c.id k) k (c.frame (k + 1))) (c.node k k)
      ⟨c.frame (k + 1), none, [], 0⟩ := adopt_hangs (p := c.node k k) (h.row k (Nat.le_refl k)) hnone
  have hpending : ∀ f, f ∈ s.pendingFrames ↔
      ∃ i ∈ (k + 1) :: arrived, k + 1 < i ∧ f = c.frame i := by
    intro f
    rw [h.pending]
    constructor
    · rintro ⟨i, hi, hki, rfl⟩
      have hne : i ≠ k + 1 := fun heq => hgap (heq ▸ hi)
      exact ⟨i, mem_cons_of_mem _ hi, by omega, rfl⟩
    · rintro ⟨i, hi, hki, rfl⟩
      rcases mem_cons.mp hi with rfl | hi
      · exact absurd hki (Nat.lt_irrefl _)
      · exact ⟨i, hi, by omega, rfl⟩
  have hgrown := h.hang hc hhang rfl rfl hk (fun i hi => mem_cons_of_mem (k + 1) hi) mem_cons_self
    (h.indices_cons k.lt_succ_self hk)
    (by rw [hhang.pending]; exact hpending) (by rw [hhang.pending]; exact h.once)
  obtain ⟨_, _, hended⟩ :=
    (hgrown.processPendingFrom hc order _ (lt_succ_self _)).evaluateForkChoice hc order
  refine hended.prune order fun f hf => ?_
  obtain ⟨i, hi, _, rfl⟩ := (hended.1.pending f).mp hf
  exact hfresh _ ((hpending _).mpr ⟨i, hi, by omega, rfl⟩)

/-- One arrival of a chain's frame in a settled tree. -/
theorem Ended.insert (h : Ended c arrived k s) (hc : c.Plain) {a : Arrival}
    (hframe : a.frame = some (c.frame j)) (hpos : 0 < j) (hjn : j ≤ c.length) (hnew : j ∉ arrived)
    (hsettled : Settled env s (c.frame j)) (hfresh : Fresh s a.now) :
    Reached c (j :: arrived) (s.insert env a).2 := by
  obtain ⟨hgrown, hgap, -⟩ := h
  have hkj : k < j := by
    by_contra hle
    exact hnew (hgrown.hung j hpos (by omega))
  have hnone : s.get (computeFrameId (c.frame j)) = none := hgrown.get_new hkj hjn hnew
  have hg : Grown c arrived k (s.detectEquivocation (c.frame j)) := { hgrown with }
  have hgenesis : (c.frame j).frameNumber ≠ env.genesisFrameNumber := by
    have := hc.genesis (j - 1) (by omega)
    rwa [show j - 1 + 1 = j by omega] at this
  unfold Reel.insert
  rw [hframe]
  dsimp only
  rw [hnone, if_neg (by simp), if_neg hgenesis, if_neg fun hstart => hg.rooted hstart.1]
  split
  · rename_i p hfound
    have hp : p ∈ s.nodes := a.order.mem.mp (mem_of_find?_eq_some hfound)
    have hnames : env.computePoseidonSelector p.frame.output = (c.frame j).parentSelector := by
      simpa using find?_some hfound
    rw [if_neg (not_not.mpr hnames)]
    obtain ⟨i, hi, hpframe, hget⟩ := hgrown.stored hp
    have hji : j = i + 1 := (hc.names_iff hpos hjn hi).mp (by rw [← hnames, hpframe])
    by_cases hik : i ≤ k
    · obtain rfl : i = k := by omega
      subst hji
      cases hget.symm.trans (hgrown.row i (Nat.le_refl i))
      exact hg.insertChild hc a.order hgap hjn hfresh
    · -- a frame stored alone is pending, and the tree is settled
      exfalso
      rcases hgrown.apart i (by omega) hi with hnone' | ⟨harrived, horphan⟩
      · cases hnone'.symm.trans hget
      · cases hget.symm.trans horphan
        exact (hsettled _ hp rfl ⟨c.frame i, (hgrown.pending _).mpr
          ⟨i, harrived, by omega, rfl⟩, rfl⟩).2 hnames
  · rename_i hfound
    have hne : k + 1 ≠ j := by
      rintro rfl
      have := find?_eq_none.mp hfound (c.node k k)
        (a.order.mem.mpr (mem_of_get (hgrown.row k (Nat.le_refl k))))
      exact this (decide_eq_true ((hc.names_iff hpos hjn hgrown.le).mpr rfl).symm)
    refine .inl ⟨k, hg.insertPending hc a.order hkj hjn hnew, ?_, fun hlast => ?_⟩
    · intro hmem
      rcases mem_cons.mp hmem with heq | hmem
      · exact hne heq
      · exact hgap hmem
    · omega

/-! ## Whole runs -/

/-- The call finds the tree settled. -/
def SettledCall (env : ReelEnv) (e : Run.Event Reel Arrival (Except String Unit)) : Prop :=
  ∀ frame ∈ e.input.frame, Settled env e.before frame

/-- The call finds no pending frame too old. -/
def FreshCall (e : Run.Event Reel Arrival (Except String Unit)) : Prop :=
  Fresh e.before e.input.now

instance (env : ReelEnv) (e : Run.Event Reel Arrival (Except String Unit)) :
    Decidable (SettledCall env e) := by
  unfold SettledCall
  infer_instance

instance (e : Run.Event Reel Arrival (Except String Unit)) : Decidable (FreshCall e) := by
  unfold FreshCall
  infer_instance

theorem Reached.run (hc : c.Plain) (js : List Nat) {arrivals : List Arrival} {arrived : List Nat}
    {s : Reel} (h : Reached c arrived s) (hnodup : js.Nodup)
    (hjs : ∀ j ∈ js, 0 < j ∧ j ≤ c.length ∧ j ∉ arrived)
    (hframes : arrivals.map Arrival.frame = js.map (fun j => some (c.frame j)))
    (hok : ∀ e ∈ Run.events (insert env) s arrivals, SettledCall env e ∧ FreshCall e) :
    Reached c (js.reverse ++ arrived) (Run.final (insert env) s arrivals) := by
  induction js generalizing arrivals arrived s with
  | nil =>
    rw [map_nil, map_eq_nil_iff] at hframes
    subst hframes
    exact h
  | cons j js ih =>
    cases arrivals with
    | nil => cases hframes
    | cons a =>
      obtain ⟨hframe, hframes⟩ := cons.inj hframes
      obtain ⟨hpos, hjn, hnew⟩ := hjs j mem_cons_self
      obtain ⟨hjjs, hnodup⟩ := nodup_cons.mp hnodup
      have hstep : Reached c (j :: arrived) (s.insert env a).2 := by
        rcases h with ⟨k, hended⟩ | ⟨hall, -⟩
        · obtain ⟨hsettled, hfresh⟩ := hok _ mem_cons_self
          exact hended.insert hc hframe hpos hjn hnew (hsettled _ hframe) hfresh
        · exact absurd (hall j hpos hjn) hnew
      have hrest := ih hstep hnodup (fun i hi => ⟨(hjs i (mem_cons_of_mem j hi)).1,
          (hjs i (mem_cons_of_mem j hi)).2.1, fun hmem => by
            rcases mem_cons.mp hmem with rfl | hmem
            · exact hjjs hi
            · exact (hjs i (mem_cons_of_mem j hi)).2.2 hmem⟩)
        hframes (fun e he => hok e (mem_cons_of_mem _ he))
      rw [reverse_cons, append_assoc]
      exact hrest

/-- The root alone. -/
theorem ended_root (hc : c.Plain) {a : Arrival} (hframe : a.frame = some (c.frame 0)) :
    Ended c [] 0 (empty.insert env a).2 := by
  have hstate : (empty.insert env a).2 =
      ⟨some (c.id 0), some (c.id 0), [⟨c.frame 0, none, [], 0⟩], [], []⟩ := by
    unfold insert
    rw [hframe]
    dsimp only
    have hgenesis : ((empty.detectEquivocation (c.frame 0)).insertGenesis env a.order
        (c.frame 0)).2 = ⟨some (c.id 0), some (c.id 0), [⟨c.frame 0, none, [], 0⟩], [], []⟩ := by
      unfold insertGenesis
      dsimp only
      rw [processPending_nil env a.order rfl]
      unfold pruneOldFrames
      simp [get, add, empty, detectEquivocation, maxTreeDepth, Chain.id]
    rw [if_neg (by simp [get, empty])]
    split
    · exact hgenesis
    · exact hgenesis
  rw [hstate]
  refine ⟨?_, by simp, fun hlast => congrArg (fun i => some (c.id i)) hlast⟩
  refine
    { distinct := nodup_singleton _
      rooted := some_ne_none _
      le := zero_le _
      row := ?_
      apart := ?_
      only := fun m hm => ⟨0, zero_le _, by rw [mem_singleton.mp hm]⟩
      pending := by simp
      once := nodup_nil
      head := ⟨_, mem_singleton_self _, rfl⟩
      indices := by simp
      hung := by omega }
  · intro i hi
    obtain rfl : i = 0 := by omega
    simp [get, Chain.node, Chain.id]
  · intro i hi hin
    left
    have hne : c.id 0 ≠ c.id i := fun heq => absurd (hc.id_inj (zero_le _) hin heq) (by omega)
    refine find?_eq_none.mpr fun m hm => ?_
    rw [mem_singleton.mp hm, decide_eq_true_eq]
    exact hne

end Row

/-- Every stored node with a parent is one deeper than it. -/
def DepthsAgree (s : Reel) : Prop :=
  ∀ n ∈ s.nodes, ∀ pid ∈ n.parent, ∃ p ∈ s.nodes, p.id = pid ∧ n.depth = p.depth + 1

/-- **Depths and head.**  If no call finds a pending orphan with a child, or extends one, every node
is one deeper than its parent, and a chain ends with its last frame as head. -/
theorem depths_and_head (env : ReelEnv) : (∀ arrivals : List Arrival,
      (∀ e ∈ Run.events (insert env) empty arrivals, SettledCall env e) →
        (Run.final (insert env) empty arrivals).DepthsAgree) ∧
    ∀ c : Chain env, c.Plain → ∀ (first : Arrival) (rest : List Arrival) (js : List Nat),
      first.frame = some (c.frame 0) → js.Perm (range' 1 c.length) →
      rest.map Arrival.frame = js.map (fun j => some (c.frame j)) →
      (∀ e ∈ Run.events (insert env) empty (first :: rest), SettledCall env e ∧ FreshCall e) →
      (Run.final (insert env) empty (first :: rest)).head = some (c.id c.length) := by
  constructor
  · intro arrivals hok
    have hsound : (Run.final (insert env) empty arrivals).Sound :=
      Run.state_invariant (insert env) Sound (SettledCall env) sound_empty
        (fun s a h hcall => h.insert env a hcall) arrivals hok
    intro n hn pid hpid
    obtain ⟨p, hp, hdepth, -⟩ := hsound.linked.parent (hsound.linked.distinct.get hn) hpid
    exact ⟨p, mem_of_get hp, get_id hp, hdepth⟩
  · intro c hc first rest js hfirst hperm hframes hok
    have hmem : ∀ j, j ∈ js ↔ 0 < j ∧ j ≤ c.length := by
      intro j
      rw [hperm.mem_iff, mem_range'_1]
      omega
    have hreached := Reached.run hc js (.inl ⟨0, ended_root hc hfirst⟩)
      (hperm.nodup_iff.mpr (nodup_range' 1))
      (fun j hj => ⟨((hmem j).mp hj).1, ((hmem j).mp hj).2, not_mem_nil⟩) hframes
      (fun e he => hok e (mem_cons_of_mem _ he))
    rcases hreached with ⟨k, hgrown, hgap, hhead⟩ | ⟨-, hhead⟩
    · -- every index arrived, so the gap after the row is the end of the chain
      refine hhead ?_
      by_contra hne
      have hle := hgrown.le
      exact hgap (mem_append_left _ (mem_reverse.mpr ((hmem (k + 1)).mpr ⟨by omega, by omega⟩)))
    · exact hhead

/-! ## A chain of frames with one byte of output -/

def plainEnv : ReelEnv := ⟨fun output => output, fun _ _ h => h, 0, fun _ _ => 0⟩

def numbered (i : Nat) : Header :=
  ⟨i, 1000 + i * 10000, 80000, [UInt8.ofNat i], [UInt8.ofNat (i - 1)], none⟩

def numberedChain (length : Nat) (short : length ≤ maxTreeDepth) : Chain plainEnv :=
  ⟨length, numbered, short, fun _ _ => rfl⟩

/-- Frames arriving in the order of the list. -/
def arriving (js : List Nat) : List Arrival :=
  js.map fun j => ⟨some (numbered j), 50000, ⟨fun nodes => nodes, fun _ => .refl _⟩⟩

/-- The third frame before the second. -/
theorem gap_closed : (Run.final (insert plainEnv) empty (arriving [0, 1, 3, 2])).DepthsAgree ∧
      (Run.final (insert plainEnv) empty (arriving [0, 1, 3, 2])).head =
        some (computeFrameId (numbered 3)) :=
  ⟨(depths_and_head plainEnv).1 (arriving [0, 1, 3, 2]) (by decide +kernel),
    (depths_and_head plainEnv).2 (numberedChain 3 (by decide))
      ⟨by decide +kernel, by decide +kernel, by decide +kernel⟩
      ⟨some (numbered 0), 50000, ⟨fun nodes => nodes, fun _ => .refl _⟩⟩ (arriving [1, 3, 2])
      [1, 3, 2] rfl (by decide) rfl (by decide +kernel)⟩

/-- An orphan is extended before it is hung: in the order 0, 2, 3, 1 two depths agree, in the order
0, 1, 3, 4, 2 the third of four frames is head. -/
theorem extended_orphan : (∃ n ∈ (Run.final (insert plainEnv) empty (arriving [0, 2, 3, 1])).nodes,
      ∃ p ∈ (Run.final (insert plainEnv) empty (arriving [0, 2, 3, 1])).nodes,
        n.parent = some p.id ∧ n.depth = 2 ∧ p.depth = 2) ∧
      (Run.final (insert plainEnv) empty (arriving [0, 1, 3, 4, 2])).head =
        some ((numberedChain 4 (by decide)).id 3) ∧
      (numberedChain 4 (by decide)).id 3 ≠ (numberedChain 4 (by decide)).id 4 := by
  decide +kernel

end Reel

end TimeReel

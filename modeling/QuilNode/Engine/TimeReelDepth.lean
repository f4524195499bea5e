import QuilNode.Engine.TimeReel

/-!
# Depths in the tree of frames

Every change of the tree but pruning hangs one parentless or new node under a stored one
(`Hangs`).  That keeps "one deeper than the parent" if the node has no stored child.  A call moves
only ids that are pending when it starts, so those of them that are stored without a parent have
to be bare (`Tidy`).
-/

namespace TimeReel

open FrameNode List

@[simp] theorem FrameNode.id_mk (frame : Header) (parent : Option FrameId) (children : List FrameId)
    (depth : Nat) : (⟨frame, parent, children, depth⟩ : FrameNode).id = computeFrameId frame := rfl

variable {n : FrameNode}

theorem FrameNode.id_ite (c : Prop) [Decidable c] {m : FrameNode} (h : m.id = n.id) :
    (if c then m else n).id = n.id := by
  split
  · exact h
  · rfl

variable {f : FrameNode → FrameNode}

/-- A change of nodes that keeps their ids commutes with looking one up. -/
theorem find?_map_of_id (hf : ∀ n, (f n).id = n.id) (nodes : List FrameNode) (id : FrameId) :
    (nodes.map f).find? (fun n => n.id = id) = (nodes.find? fun n => n.id = id).map f := by
  have hcomp : (fun n : FrameNode => decide (n.id = id)) ∘ f = fun n => decide (n.id = id) := by
    funext n
    simp only [Function.comp_apply, hf]
  rw [find?_map, hcomp]

/-- An update that keeps identities keeps their list. -/
theorem map_id_map_of_id (hf : ∀ n, (f n).id = n.id) (nodes : List FrameNode) :
    (nodes.map f).map FrameNode.id = nodes.map FrameNode.id := by
  rw [map_map]
  exact map_congr_left fun n _ => hf n

variable {p : FrameNode} {id : FrameId}

/-- Recording a child keeps the children there were. -/
theorem FrameNode.mem_withChild (x : FrameId) (h : id = x ∨ id ∈ p.children) :
    id ∈ (p.withChild x).children := by
  unfold withChild
  by_cases hx : x ∈ p.children <;> grind

namespace Reel

variable {s : Reel}

/-- A lookup returns a node under its own identity. -/
theorem get_id (h : s.get id = some n) : n.id = id := by
  simpa using find?_some h

theorem mem_of_get (h : s.get id = some n) : n ∈ s.nodes := mem_of_find?_eq_some h

/-- No two stored nodes have the same id. -/
def Distinct (s : Reel) : Prop := (s.nodes.map FrameNode.id).Nodup

/-- Distinct identities: every held node is the one looked up. -/
theorem Distinct.get (h : s.Distinct) (hn : n ∈ s.nodes) : s.get n.id = some n := by
  cases hget : s.get n.id with
  | none =>
    have := find?_eq_none.mp hget n hn
    simp at this
  | some => exact congrArg some (inj_on_of_nodup_map h (mem_of_get hget) hn (get_id hget))

/-- A failed lookup means no node has the identity. -/
theorem not_mem_of_get_none (h : s.get id = none) : id ∉ s.nodes.map FrameNode.id := by
  intro hmem
  obtain ⟨n, hn, rfl⟩ := mem_map.mp hmem
  have := find?_eq_none.mp h n hn
  simp at this

/-- What a lookup finds after a node is appended. -/
theorem get_add (s : Reel) (n : FrameNode) (id : FrameId) :
    (s.add n).get id = (s.get id).or (if n.id = id then some n else none) := by
  by_cases h : n.id = id <;> simp [get, add, find?_append, h]

/-- What a lookup finds after one node is updated. -/
theorem get_modify (s : Reel) (j id : FrameId) (hf : ∀ n, (f n).id = n.id) :
    (s.modify j f).get id = if id = j then (s.get id).map f else s.get id := by
  unfold get modify
  rw [find?_map_of_id fun n => id_ite _ (hf n)]
  cases hget : s.nodes.find? fun n => decide (n.id = id) with
  | none => simp
  | some n =>
    have hn : n.id = id := get_id hget
    by_cases hj : id = j <;> simp [hn, hj]

/-- Adding a node under a fresh identity keeps them distinct. -/
theorem Distinct.add (h : s.Distinct) (hn : s.get n.id = none) : (s.add n).Distinct := by
  unfold Distinct Reel.add
  rw [map_append, map_singleton]
  exact List.Nodup.append h (nodup_singleton _) (disjoint_singleton.mpr (not_mem_of_get_none hn))

/-- An update that keeps identities keeps them distinct. -/
theorem Distinct.modify (h : s.Distinct) (j : FrameId) (hf : ∀ n, (f n).id = n.id) :
    (s.modify j f).Distinct := by
  unfold Distinct Reel.modify
  rw [map_id_map_of_id fun n => id_ite _ (hf n)]
  exact h

/-- The node `n`, new or without a parent, is hung under the stored node `p`. -/
structure Hangs (s s' : Reel) (p n : FrameNode) : Prop where
  parent : s.get p.id = some p
  free : n.parent = none
  before : s.get n.id = some n ∨ s.get n.id = none ∧ n.children = []
  ne : p.id ≠ n.id
  get : ∀ id, s'.get id = if id = p.id then some (p.withChild n.id)
    else if id = n.id then some { n with parent := some p.id, depth := p.depth + 1 }
    else s.get id
  distinct : s.Distinct → s'.Distinct
  root : s'.root = s.root
  head : s'.head = s.head
  pending : s'.pendingFrames = s.pendingFrames

/-- Reparenting hangs a parentless node under its parent. -/
theorem reparent_hangs (hp : s.get p.id = some p) (hn : s.get n.id = some n)
    (hfree : n.parent = none) (hne : p.id ≠ n.id) : Hangs s (s.reparent p.id p.depth n.id) p n where
  parent := hp
  free := hfree
  before := .inl hn
  ne := hne
  get id := by
    unfold reparent addChild
    rw [get_modify _ _ _ (by intro m; rfl), get_modify _ _ _ (by intro m; rfl)]
    by_cases hid : id = p.id
    · subst hid
      simp [hne, hp]
    by_cases hid' : id = n.id
    · subst hid'
      simp [hid, hn]
    · simp [hid, hid']
  distinct h := (h.modify _ (by intro m; rfl)).modify _ (by intro m; rfl)
  root := rfl
  head := rfl
  pending := rfl

variable {frame : Header}

/-- Adopting a frame hangs a fresh node under its parent. -/
theorem adopt_hangs (hp : s.get p.id = some p) (hnew : s.get (computeFrameId frame) = none) :
    Hangs s (s.adopt p.id p.depth frame) p ⟨frame, none, [], 0⟩ where
  parent := hp
  free := rfl
  before := .inr ⟨hnew, rfl⟩
  ne := by
    intro h
    rw [h] at hp
    exact absurd (hnew.symm.trans hp) (by simp)
  get id := by
    unfold adopt addChild
    rw [get_modify _ _ _ (by intro m; rfl), get_add]
    by_cases hid : id = p.id
    · subst hid
      simp [hp]
    by_cases hid' : id = computeFrameId frame
    · subst hid'
      simp [hid, hnew]
    · have hid'' : ¬ computeFrameId frame = id := fun h => hid' h.symm
      simp [hid, hid', hid'']
  distinct h := by
    refine Distinct.modify (h.add ?_) _ (by intro m; rfl)
    exact hnew
  root := rfl
  head := rfl
  pending := rfl

/-- What `process_pending` does with a pending frame: nothing if it has a parent, else hang it, go
on below it and choose the head. -/
theorem connect_cases (env : ReelEnv) (order : IterOrder) (recur : Reel → FrameId → Reel)
    (hp : s.get p.id = some p) (frame : Header)
    (hself : p.id = computeFrameId frame → p.parent ≠ none) :
    connect env order recur p.id p.depth s frame = s ∨
      ∃ s1 n, Hangs s s1 p n ∧ n.id = computeFrameId frame ∧
        connect env order recur p.id p.depth s frame =
          (recur s1 n.id).evaluateForkChoice env order n.id := by
  unfold connect
  dsimp only
  cases hget : s.get (computeFrameId frame) with
  | none => exact .inr ⟨_, ⟨frame, none, [], 0⟩, adopt_hangs hp hget, rfl, rfl⟩
  | some n =>
    have hid : n.id = computeFrameId frame := get_id hget
    by_cases hfree : n.parent = none
    · right
      have hne : p.id ≠ n.id := by
        intro h
        have hpn : some p = some n := by rw [← hp, h, hid, hget]
        cases hpn
        exact hself hid hfree
      refine ⟨_, n, reparent_hangs hp (hid ▸ hget) hfree hne, hid, ?_⟩
      show (if n.parent = none then _ else _) = _
      rw [if_pos hfree, hid]
    · left
      exact if_neg hfree

/-- Every node with a parent is one deeper than it, and is one of its children. -/
structure Linked (s : Reel) : Prop where
  distinct : s.Distinct
  parent : ∀ {id : FrameId} {n : FrameNode} {pid : FrameId}, s.get id = some n →
    n.parent = some pid → ∃ p, s.get pid = some p ∧ n.depth = p.depth + 1 ∧ id ∈ p.children

/-- The stored nodes without a parent among `W` have no stored child, and what is pending is
in `W`. -/
structure Tidy (W : FrameId → Prop) (s : Reel) : Prop where
  linked : s.Linked
  bare : ∀ {x : FrameId} {n : FrameNode}, s.get x = some n → n.parent = none → W x →
    ∀ {id : FrameId} {m : FrameNode}, s.get id = some m → m.parent ≠ some x
  waiting : ∀ f ∈ s.pendingFrames, W (computeFrameId f)
  rooted : s.root ≠ none

/-- A node that `process_pending` does not move. -/
def Anchored (W : FrameId → Prop) (p : FrameNode) : Prop := p.parent = none → ¬ W p.id

/-- Anchored nodes stay as they are, up to their children. -/
def Keeps (W : FrameId → Prop) (s s' : Reel) : Prop :=
  ∀ p : FrameNode, s.get p.id = some p → Anchored W p →
    ∃ p', s'.get p.id = some p' ∧ p'.frame = p.frame ∧ p'.parent = p.parent ∧ p'.depth = p.depth

section Moves

variable {W : FrameId → Prop} {s s' s'' : Reel} {p n : FrameNode}

theorem Keeps.refl : Keeps W s s := fun _ hp _ => ⟨_, hp, rfl, rfl, rfl⟩

theorem Keeps.trans (h : Keeps W s s') (h' : Keeps W s' s'') : Keeps W s s'' := by
  intro p hp hanchored
  obtain ⟨q, hq, hframe, hparent, hdepth⟩ := h p hp hanchored
  have hid : q.id = p.id := congrArg computeFrameId hframe
  obtain ⟨r, hr, hframe', hparent', hdepth'⟩ := h' q (hid ▸ hq) (by
    unfold Anchored
    rw [hparent, hid]
    exact hanchored)
  exact ⟨r, hid ▸ hr, hframe'.trans hframe, hparent'.trans hparent, hdepth'.trans hdepth⟩

section Hang

variable (h : Hangs s s' p n)
include h

/-- The hung node has its parent and a depth one below it. -/
theorem Hangs.hung : s'.get n.id = some { n with parent := some p.id, depth := p.depth + 1 } := by
  rw [h.get, if_neg h.ne.symm, if_pos rfl]

/-- Nodes other than the one that is hung stay, with at least their children. -/
theorem Hangs.stays {q : FrameNode} (hq : s.get id = some q) (hne : id ≠ n.id) :
    ∃ q', s'.get id = some q' ∧ q'.frame = q.frame ∧ q'.parent = q.parent ∧ q'.depth = q.depth ∧
      ∀ c ∈ q.children, c ∈ q'.children := by
  by_cases hid : id = p.id
  · subst hid
    have hqp : q = p := Option.some.inj (hq.symm.trans h.parent)
    subst hqp
    exact ⟨q.withChild n.id, by rw [h.get, if_pos rfl], rfl, rfl, rfl,
      fun c hc => mem_withChild n.id (.inr hc)⟩
  · exact ⟨q, by rw [h.get, if_neg hid, if_neg hne, hq], rfl, rfl, rfl, fun c hc => hc⟩

/-- A node of the tree after hanging `n` is `n` or was there, under the same parent. -/
theorem Hangs.cases {m : FrameNode} (hm : s'.get id = some m) :
    (id = n.id ∧ m = { n with parent := some p.id, depth := p.depth + 1 }) ∨
      id ≠ n.id ∧ ∃ q, s.get id = some q ∧ m.parent = q.parent ∧ m.depth = q.depth := by
  rw [h.get] at hm
  split at hm
  · rename_i hid
    subst hid
    cases hm
    exact .inr ⟨h.ne, p, h.parent, rfl, rfl⟩
  · split at hm
    · rename_i hid
      cases hm
      exact .inl ⟨hid, rfl⟩
    · rename_i hid
      exact .inr ⟨hid, m, hm, rfl, rfl⟩

/-- A node that has no stored child in a linked tree may be hung. -/
theorem Hangs.linked (hl : s.Linked)
    (hbare : ∀ {id : FrameId} {m : FrameNode}, s.get id = some m → m.parent ≠ some n.id) :
    s'.Linked where
  distinct := h.distinct hl.distinct
  parent := by
    intro id m pid hm hpid
    rcases h.cases hm with ⟨rfl, rfl⟩ | ⟨-, q, hq, hparent, hdepth⟩
    · cases hpid
      exact ⟨p.withChild n.id, by rw [h.get, if_pos rfl], rfl, mem_withChild n.id (.inl rfl)⟩
    rw [hparent] at hpid
    have hne : pid ≠ n.id := by
      rintro rfl
      exact hbare hq hpid
    obtain ⟨_, hr, hrdepth, hchild⟩ := hl.parent hq hpid
    obtain ⟨r', hr', -, -, hr'depth, hchildren⟩ := h.stays hr hne
    exact ⟨r', hr', by rw [hdepth, hrdepth, hr'depth], hchildren _ hchild⟩

/-- Hanging a node keeps the reel tidy. -/
theorem Hangs.tidy (ht : Tidy W s) (hp : Anchored W p) (hn : W n.id) : Tidy W s' where
  linked := by
    apply h.linked ht.linked
    intro id m hm hparent
    rcases h.before with hstored | ⟨hnew, -⟩
    · exact ht.bare hstored h.free hn hm hparent
    · obtain ⟨_, hq, -⟩ := ht.linked.parent hm hparent
      exact absurd (hnew.symm.trans hq) (by simp)
  bare := by
    intro x nx hx hfree hW id m hm hparent
    rcases h.cases hx with ⟨-, rfl⟩ | ⟨-, q, hq, hqparent, -⟩
    · cases hfree
    rcases h.cases hm with ⟨-, rfl⟩ | ⟨-, r, hr, hrparent, -⟩
    · -- the hung node's parent is anchored, so it is not one of the loose ones
      cases hparent
      have hqp : q = p := Option.some.inj (hq.symm.trans h.parent)
      subst hqp
      exact hp (hqparent ▸ hfree) hW
    · exact ht.bare hq (hqparent ▸ hfree) hW hr (hrparent ▸ hparent)
  waiting := by
    rw [h.pending]
    exact ht.waiting
  rooted := by
    rw [h.root]
    exact ht.rooted

/-- Hanging a node of `W` keeps every anchored node. -/
theorem Hangs.keeps (hn : W n.id) : Keeps W s s' := by
  intro q hq hanchored
  have hne : q.id ≠ n.id := by
    intro hid
    rcases h.before with hstored | ⟨hnew, -⟩
    · have hqn : q = n := by
        rw [hid] at hq
        exact Option.some.inj (hq.symm.trans hstored)
      subst hqn
      exact hanchored h.free hn
    · rw [hid, hnew] at hq
      cases hq
  obtain ⟨q', hq', hframe, hparent, hdepth, -⟩ := h.stays hq hne
  exact ⟨q', hq', hframe, hparent, hdepth⟩

end Hang

/-- One pending frame, if what is done below it keeps the tree tidy. -/
theorem connect_tidy (env : ReelEnv) (order : IterOrder) {recur : Reel → FrameId → Reel}
    (hrecur : ∀ {t : Reel} {q : FrameNode}, Tidy W t → t.get q.id = some q → Anchored W q →
      Tidy W (recur t q.id) ∧ Keeps W t (recur t q.id))
    (ht : Tidy W s) (hp : s.get p.id = some p) (hanchored : Anchored W p)
    (hframe : W (computeFrameId frame)) :
    Tidy W (connect env order recur p.id p.depth s frame) ∧
      Keeps W s (connect env order recur p.id p.depth s frame) := by
  have hself : p.id = computeFrameId frame → p.parent ≠ none :=
    fun hid hfree => hanchored hfree (hid ▸ hframe)
  rcases connect_cases env order recur hp frame hself with h | ⟨s1, n, hhang, hid, h⟩
  · rw [h]
    exact ⟨ht, Keeps.refl⟩
  rw [h]
  have hW : W n.id := hid ▸ hframe
  obtain ⟨htidy, hkeeps⟩ := @hrecur s1 { n with parent := some p.id, depth := p.depth + 1 }
    (hhang.tidy ht hanchored hW) hhang.hung (fun hnone => nomatch hnone)
  exact ⟨⟨⟨htidy.linked.distinct, htidy.linked.parent⟩, htidy.bare, htidy.waiting, htidy.rooted⟩,
    (hhang.keeps hW).trans hkeeps⟩

/-- Below an anchored node of a tidy tree `process_pending` leaves the tree tidy and the anchored
nodes in place. -/
theorem processPendingFrom_tidy (env : ReelEnv) (order : IterOrder) (fuel : Nat) :
    ∀ {s : Reel} {p : FrameNode}, Tidy W s → s.get p.id = some p → Anchored W p →
      Tidy W (processPendingFrom env order fuel s p.id) ∧
        Keeps W s (processPendingFrom env order fuel s p.id) := by
  induction fuel with
  | zero => exact fun ht _ _ => ⟨ht, Keeps.refl⟩
  | succ fuel ih =>
    intro s p ht hp hanchored
    simp only [processPendingFrom, hp]
    set selector := env.computePoseidonSelector p.frame.output
    have hwaiting : ∀ f ∈ s.pendingFrames.filter fun f => f.parentSelector = selector,
        W (computeFrameId f) := fun f hf => ht.waiting f (mem_of_mem_filter hf)
    have htidy : Tidy W
        { s with pendingFrames := s.pendingFrames.filter fun f => f.parentSelector ≠ selector } :=
      ⟨⟨ht.linked.distinct, ht.linked.parent⟩, ht.bare,
        fun f hf => ht.waiting f (mem_of_mem_filter hf), ht.rooted⟩
    -- the loop over the pending frames: the parent stays anchored at its depth
    refine foldlRecOn _ _ (motive := fun t => Tidy W t ∧ Keeps W s t) ⟨htidy, Keeps.refl⟩ ?_
    rintro t ⟨htt, htk⟩ f hf
    obtain ⟨q, hq, hframe, hparent, hdepth⟩ := htk p hp hanchored
    have hid : q.id = p.id := congrArg computeFrameId hframe
    have hqanchored : Anchored W q := by
      unfold Anchored
      rw [hparent, hid]
      exact hanchored
    have hstep := connect_tidy env order ih htt (hid ▸ hq) hqanchored (hwaiting f hf)
    rw [hid, hdepth] at hstep
    exact ⟨hstep.1, htk.trans hstep.2⟩

end Moves

/-- What a lookup finds after a removal: children lose their parent. -/
theorem get_removeNode (s : Reel) (r : FrameNode) (id : FrameId) : (s.removeNode r).get id =
      if id = r.id then none
      else (s.get id).map fun n => if n.id ∈ r.children then { n with parent := none } else n := by
  unfold get removeNode
  rw [find?_map_of_id (by intro n; exact id_ite _ rfl), find?_filter]
  by_cases hid : id = r.id
  · rw [if_pos hid, Option.map_eq_none_iff, find?_eq_none]
    intro n _ h
    simp only [ne_eq, decide_eq_true_eq] at h
    exact h.1 (h.2.trans hid)
  · rw [if_neg hid]
    congr 2
    funext n
    by_cases h : n.id = id
    · simp [h, hid]
    · simp [h]

/-- A removed node cuts off its children, so no node is left without its parent. -/
theorem Linked.removeNode (h : s.Linked) {r : FrameNode}
    (hr : ∀ n, s.get r.id = some n → n.children = r.children) : (s.removeNode r).Linked where
  distinct := by
    unfold Distinct Reel.removeNode
    dsimp only
    rw [map_id_map_of_id (by intro n; exact id_ite _ rfl)]
    exact h.distinct.sublist (filter_sublist.map _)
  parent := by
    intro id m pid hm hpid
    rw [get_removeNode] at hm
    split at hm
    · cases hm
    obtain ⟨_, hq, hmq⟩ := Option.map_eq_some_iff.mp hm
    split at hmq
    · subst hmq
      cases hpid
    rename_i hcut
    subst hmq
    obtain ⟨p, hp, hdepth, hchild⟩ := h.parent hq hpid
    have hne : pid ≠ r.id := by
      rintro rfl
      rw [hr p hp] at hchild
      exact hcut (get_id hq ▸ hchild)
    rw [get_removeNode, if_neg hne, hp, Option.map_some]
    refine ⟨_, rfl, ?_⟩
    split <;> exact ⟨hdepth, hchild⟩

/-- Removal changes no children list. -/
theorem removeNode_children {r : FrameNode} (h : (s.removeNode r).get id = some n) :
    ∃ m, s.get id = some m ∧ n.children = m.children := by
  rw [get_removeNode] at h
  split at h
  · cases h
  obtain ⟨m, hm, rfl⟩ := Option.map_eq_some_iff.mp h
  refine ⟨m, hm, ?_⟩
  split <;> rfl

/-- Removing held nodes keeps the links and the root. -/
theorem Linked.removeNodes (h : s.Linked) (removed : List FrameNode)
    (hr : ∀ r ∈ removed, r ∈ s.nodes) :
    (removed.foldl Reel.removeNode s).Linked ∧ (removed.foldl Reel.removeNode s).root = s.root := by
  have hfold : (removed.foldl Reel.removeNode s).Linked ∧
      (removed.foldl Reel.removeNode s).root = s.root ∧
        ∀ id n, (removed.foldl Reel.removeNode s).get id = some n →
          ∃ m, s.get id = some m ∧ n.children = m.children := by
    refine foldlRecOn _ _ (motive := fun t : Reel => t.Linked ∧ t.root = s.root ∧
      ∀ id n, t.get id = some n → ∃ m, s.get id = some m ∧ n.children = m.children)
      ⟨h, rfl, fun _ n hn => ⟨n, hn, rfl⟩⟩ ?_
    rintro t ⟨hlinked, hroot, hchildren⟩ r hmem
    refine ⟨hlinked.removeNode fun n hn => ?_, hroot, fun id n hn => ?_⟩
    · obtain ⟨m, hm, heq⟩ := hchildren _ n hn
      have hmr : m = r := Option.some.inj (hm.symm.trans (h.distinct.get (hr r hmem)))
      rw [heq, hmr]
    · obtain ⟨m, hm, heq⟩ := removeNode_children hn
      obtain ⟨k, hk, heq'⟩ := hchildren id m hm
      exact ⟨k, hk, heq.trans heq'⟩
  exact ⟨hfold.1, hfold.2.1⟩

/-- Pruning keeps the links and a root. -/
theorem Linked.pruneOldFrames (h : s.Linked) (hroot : s.root ≠ none) (order : IterOrder) :
    (s.pruneOldFrames order).Linked ∧ (s.pruneOldFrames order).root ≠ none := by
  unfold Reel.pruneOldFrames
  dsimp only
  split
  · exact ⟨h, hroot⟩
  rename_i head _
  split
  · exact ⟨h, hroot⟩
  split
  · exact ⟨h, hroot⟩
  obtain ⟨hlinked, hsame⟩ := h.removeNodes
    ((order.arrange s.nodes).filter fun n => n.depth < head.depth - maxTreeDepth + 1)
    fun r hr => order.mem.mp (mem_of_mem_filter hr)
  split
  · exact ⟨⟨hlinked.distinct, hlinked.parent⟩, Option.some_ne_none _⟩
  · exact ⟨hlinked, hsame ▸ hroot⟩

/-- No pending frame that is stored without a parent has a stored child, and the frame is not
the child of one. -/
def Settled (env : ReelEnv) (s : Reel) (frame : Header) : Prop :=
  ∀ n ∈ s.nodes, n.parent = none → (∃ p ∈ s.pendingFrames, computeFrameId p = n.id) →
    (∀ m ∈ s.nodes, m.parent ≠ some n.id) ∧
      env.computePoseidonSelector n.frame.output ≠ frame.parentSelector

instance (env : ReelEnv) (s : Reel) (frame : Header) : Decidable (Settled env s frame) := by
  unfold Settled
  infer_instance

/-- The tree between two calls. -/
structure Sound (s : Reel) : Prop where
  linked : s.Linked
  start : s.root = none → s.nodes = [] ∧ s.pendingFrames = []

/-- A linked reel with a root is sound. -/
theorem Sound.of_rooted (h : s.Linked ∧ s.root ≠ none) : s.Sound :=
  ⟨h.1, fun hnone => absurd hnone h.2⟩

theorem sound_empty : Reel.empty.Sound :=
  ⟨⟨nodup_nil, fun h => nomatch h⟩, fun _ => ⟨rfl, rfl⟩⟩

/-- A sound reel that has started has a root. -/
theorem Sound.rooted (h : s.Sound) (hstarted : ¬ (s.root = none ∧ s.nodes = [])) :
    s.root ≠ none := fun hnone => hstarted ⟨hnone, (h.start hnone).1⟩

theorem Sound.detectEquivocation (h : s.Sound) (frame : Header) :
    (s.detectEquivocation frame).Sound := ⟨⟨h.linked.distinct, h.linked.parent⟩, h.start⟩

/-- A node without a parent and without children keeps a tree linked. -/
theorem Linked.add_free (h : s.Linked) (hnew : s.get n.id = none) (hfree : n.parent = none) :
    (s.add n).Linked where
  distinct := h.distinct.add hnew
  parent := by
    intro id m pid hm hpid
    rw [get_add] at hm
    cases hget : s.get id with
    | none =>
      rw [hget, Option.none_or] at hm
      split at hm
      · cases hm
        rw [hfree] at hpid
        cases hpid
      · cases hm
    | some =>
      rw [hget, Option.some_or] at hm
      cases hm
      obtain ⟨p, hp, hdepth, hchild⟩ := h.parent hget hpid
      exact ⟨p, by rw [get_add, hp, Option.some_or], hdepth, hchild⟩

/-- Without pending frames there is nothing to process. -/
theorem processPending_nil (env : ReelEnv) (order : IterOrder) (h : s.pendingFrames = [])
    (id : FrameId) : s.processPending env order id = s := by
  obtain ⟨_, _, _, _, _⟩ := s
  subst h
  unfold processPending processPendingFrom
  split <;> rfl

section Insert

variable (h : s.Sound) (env : ReelEnv) (order : IterOrder)
include h

/-- The genesis frame leaves a sound reel. -/
theorem Sound.insertGenesis (hnew : s.get (computeFrameId frame) = none) :
    (s.insertGenesis env order frame).2.Sound := by
  unfold Reel.insertGenesis
  split
  · exact h
  rename_i hroot
  have hpending : s.pendingFrames = [] := (h.start (by simpa using hroot)).2
  have hlinked : (s.add ⟨frame, none, [], 0⟩).Linked := h.linked.add_free hnew rfl
  dsimp only
  rw [processPending_nil env order (by exact hpending)]
  refine Sound.of_rooted (Linked.pruneOldFrames ?_ ?_ order)
  · exact ⟨hlinked.distinct, hlinked.parent⟩
  · exact Option.some_ne_none _

/-- A frame inserted under its parent leaves a sound reel. -/
theorem Sound.insertChild (now : Int)
    (hp : p ∈ s.nodes) (hroot : s.root ≠ none) (hnew : s.get (computeFrameId frame) = none)
    (hsettled : Settled env s frame)
    (hnames : env.computePoseidonSelector p.frame.output = frame.parentSelector) :
    (s.insertChild env order now p frame).Sound := by
  -- the frame itself is counted among the pending ones: it has no stored child either
  let W : FrameId → Prop := fun id =>
    (∃ f ∈ s.pendingFrames, computeFrameId f = id) ∨ id = computeFrameId frame
  have hget : s.get p.id = some p := h.linked.distinct.get hp
  have htidy : Tidy W s := by
    refine ⟨h.linked, ?_, fun f hf => .inl ⟨f, hf, rfl⟩, hroot⟩
    rintro x n hx hfree (hW | rfl) id m hm
    · rw [← get_id hx] at hW ⊢
      exact (hsettled n (mem_of_get hx) hfree hW).1 m (mem_of_get hm)
    · rw [hnew] at hx
      cases hx
  have hanchored : Anchored W p := by
    rintro hfree (hW | hW)
    · exact (hsettled p hp hfree hW).2 hnames
    · rw [hW, hnew] at hget
      cases hget
  have hhang := adopt_hangs hget hnew
  have hstored : (s.adopt p.id p.depth frame).get (computeFrameId frame) =
      some ⟨frame, some p.id, [], p.depth + 1⟩ := hhang.hung
  obtain ⟨hdone, -⟩ := processPendingFrom_tidy env order
    ((s.adopt p.id p.depth frame).pendingFrames.length + 1)
    (hhang.tidy htidy hanchored (.inr rfl)) (p := ⟨frame, some p.id, [], p.depth + 1⟩) hstored
    (fun hnone => nomatch hnone)
  have hpruned := Linked.pruneOldFrames (s := ((s.adopt p.id p.depth frame).processPending env order
      (computeFrameId frame)).evaluateForkChoice env order (computeFrameId frame))
    ⟨hdone.linked.distinct, hdone.linked.parent⟩ hdone.rooted order
  exact Sound.of_rooted ⟨⟨hpruned.1.distinct, hpruned.1.parent⟩, hpruned.2⟩

/-- A frame put aside leaves a sound reel. -/
theorem Sound.insertPending (hroot : s.root ≠ none) (hnew : s.get (computeFrameId frame) = none) :
    (s.insertPending env order frame).Sound := by
  unfold Reel.insertPending
  dsimp only
  split
  · have hlinked : (s.add ⟨frame, none, [], 1⟩).Linked := h.linked.add_free hnew rfl
    exact Sound.of_rooted ⟨⟨hlinked.distinct, hlinked.parent⟩, hroot⟩
  · exact Sound.of_rooted ⟨⟨h.linked.distinct, h.linked.parent⟩, hroot⟩

end Insert

/-- One call in a settled tree. -/
theorem Sound.insert (h : s.Sound) (env : ReelEnv) (a : Arrival)
    (hsettled : ∀ frame, a.frame = some frame → Settled env s frame) :
    (s.insert env a).2.Sound := by
  unfold Reel.insert
  cases hframe : a.frame with
  | none => exact h
  | some frame =>
    dsimp only
    split
    · exact h
    rename_i hstored
    have hnew : s.get (computeFrameId frame) = none := by simpa using hstored
    have hs : (s.detectEquivocation frame).Sound := h.detectEquivocation frame
    split
    · exact hs.insertGenesis env a.order hnew
    split
    · exact hs.insertGenesis env a.order hnew
    rename_i hstarted
    have hroot := hs.rooted hstarted
    split
    · rename_i p hfound
      split
      · exact hs
      rename_i hnames
      exact hs.insertChild env a.order a.now
        (a.order.mem.mp (mem_of_find?_eq_some hfound)) hroot hnew
        (hsettled frame hframe) (not_not.mp hnames)
    · exact hs.insertPending env a.order hroot hnew

end Reel

end TimeReel

import QuilNode.Global.ProverKick

/-!
# A kick reaches every allocation

Each operation of a prover keeps its allocations covered by its hyperedge, so they are covered
after every run, and a kick at any point marks each of them.  Hashes are collision free as far
as the run goes: nothing it writes lands on the prover's own vertex, and no allocation address
it derives holds another prover's allocation.
-/

namespace Global

open Results VertexTree List Run SameOwner ProverField

variable {a : Bytes32} {tree : VertexTree}

section Steps

variable {env : GlobalEnv} {pubkey : Bytes} {derived : Bytes32 → Prop} {s s' : GlobalState}

/-- The classes of vertices have type hashes of their own. -/
def TypesApart (env : GlobalEnv) : Prop :=
  ∀ cls, computeTypeHash env.poseidon cls = computeTypeHash env.poseidon .allocation →
    cls = .allocation

/-! ## Joins -/

section Writes

variable {α : Type} (addr : α → Bytes32) (tree : α → VertexTree) (items : List α)

/-- Writing vertices and writing a hyperedge commute. -/
theorem foldl_setHyperedge (prover : Bytes32) (links : List Bytes32) (s : GlobalState) :
    (items.foldl (fun s i => s.setVertex (addr i) (tree i)) s).setHyperedge prover links =
      items.foldl (fun s i => s.setVertex (addr i) (tree i)) (s.setHyperedge prover links) := by
  induction items generalizing s with
  | nil => rfl
  | cons i items ih => exact ih (s.setVertex (addr i) (tree i))

/-- Writing vertices leaves the hyperedges. -/
theorem foldl_setVertex_hyperedges (s : GlobalState) :
    (items.foldl (fun s i => s.setVertex (addr i) (tree i)) s).hyperedges = s.hyperedges :=
  foldlRecOn items _ (motive := fun t : GlobalState => t.hyperedges = s.hyperedges) rfl
    fun _ h _ _ => h

end Writes

/-- A new allocation is the prover's. -/
theorem createAllocationVertexTree_owner (env : GlobalEnv) (prover : Bytes32) (filter : Bytes)
    (frame : Nat) :
    IsAllocationOf env prover (createAllocationVertexTree env.poseidon prover filter frame) := by
  have hsame : SameOwner ((new.writeType env.poseidon .allocation).write .prover
      prover.bytes) (createAllocationVertexTree env.poseidon prover filter frame) :=
    (((refl _).write (by decide) _).write (by decide) _).write (by decide) _
  refine (hsame.isAllocationOf_iff env prover).mpr ⟨?_, ?_⟩
  · rw [show ((new.writeType env.poseidon .allocation).write .prover prover.bytes)
      typeKey = (new.writeType env.poseidon .allocation) typeKey from
        insert_other _ _ (typeKey_ne_orderToKey _)]
    exact insert_same _ _ _
  · rw [read_write, if_pos rfl]

/-- A new prover has its key. -/
theorem createProverVertexTree_key (env : GlobalEnv) (pubkey : Bytes) (seniority : Nat) :
    createProverVertexTree env pubkey seniority ProverField.publicKey.key = some pubkey := by
  have hne : ∀ {f : ProverField}, f ≠ .publicKey → ProverField.publicKey.key ≠ f.key :=
    fun hf heq => hf (key_injective heq).symm
  unfold createProverVertexTree
  rw [insert_other _ _ (hne (by decide)), insert_other _ _ (hne (by decide)),
    insert_other _ _ (hne (by decide)), insert_same]

variable {filters : List Bytes}

/-- What a join links are allocations of its filters. -/
theorem mem_unlinkedAllocations {linked : List Bytes32}
    (h : a ∈ unlinkedAllocations env s pubkey linked filters) :
    ∃ f ∈ filters, a = allocationAddress env pubkey f := by
  refine foldlRecOn filters _ (motive := fun unlinked => ∀ a ∈ unlinked,
    ∃ f ∈ filters, a = allocationAddress env pubkey f) (by simp) ?_ a h
  intro unlinked ih f hf a ha
  dsimp only at ha
  split at ha
  · exact ih a ha
  split at ha
  · rcases mem_append.mp ha with ha | ha
    · exact ih a ha
    · exact ⟨f, hf, mem_singleton.mp ha⟩
  · exact ih a ha

section Kept

variable (h : Covered env pubkey derived s)

include h

/-- The allocations of a join, once their addresses are linked. -/
theorem Covered.joinAllocations (frame : Nat)
    (hfilters : ∀ f ∈ filters, derived (allocationAddress env pubkey f))
    (hprover : ¬ derived (proverAddressFromPubkey env pubkey))
    (hstored : (s.vertices (proverAddressFromPubkey env pubkey)).isSome)
    (hlinks : ∀ f ∈ filters, allocationAddress env pubkey f ∈
      s.hyperedges (proverAddressFromPubkey env pubkey)) :
    Covered env pubkey derived (filters.foldl (fun s filter =>
      s.setVertex (allocationAddress env pubkey filter)
        (createAllocationVertexTree env.poseidon (proverAddressFromPubkey env pubkey) filter
          frame)) s) := by
  refine (foldlRecOn filters _ (motive := fun t => Covered env pubkey derived t ∧
    (t.vertices (proverAddressFromPubkey env pubkey)).isSome ∧ t.hyperedges = s.hyperedges)
    ⟨h, hstored, rfl⟩ fun t ⟨ht, hstored, hedges⟩ f hf => ?_).1
  have hne : proverAddressFromPubkey env pubkey ≠ allocationAddress env pubkey f :=
    fun heq => hprover (heq ▸ hfilters f hf)
  refine ⟨ht.setVertex (fun heq => absurd heq hne) (fun _ => hstored)
    (fun _ => (createAllocationVertexTree_owner env _ f frame).2)
    (fun _ _ => hedges ▸ hlinks f hf), ?_, hedges⟩
  rw [setVertex_apply, if_neg hne]
  exact hstored

/-- The vertices and links of a join. -/
theorem Covered.writeJoin (htypes : TypesApart env)
    (hprover : ¬ derived (proverAddressFromPubkey env pubkey))
    (hfilters : ∀ f ∈ filters, derived (allocationAddress env pubkey f)) (frame seniority : Nat) :
    Covered env pubkey derived (writeJoin env s pubkey filters frame seniority) := by
  unfold Global.writeJoin
  dsimp only
  rw [foldl_setVertex_hyperedges, foldl_setHyperedge]
  have hwritten := h.setProver (createProverVertexTree_key env pubkey seniority) (fun htype => by
      cases htypes .prover (Option.some.inj htype))
  refine (hwritten.setLinks (fun a ha => mem_extendHyperedge.mpr (.inl ha)) ?_).joinAllocations
    frame hfilters hprover ?_ ?_
  · intro a ha
    rcases mem_extendHyperedge.mp ha with ha | ha
    · exact h.own a ha
    · obtain ⟨f, hf, rfl⟩ := mem_map.mp ha
      exact hfilters f hf
  · show ((s.setVertex _ _).vertices _).isSome
    rw [setVertex_apply, if_pos rfl]
    rfl
  · intro f hf
    show _ ∈ Function.update s.hyperedges _ _ _
    rw [Function.update_self]
    exact mem_extendHyperedge.mpr (.inr (mem_map_of_mem hf))

/-- The spent markers of a join. -/
theorem Covered.stampMarkers (htypes : TypesApart env)
    {targets : List SeniorityMerge} (hne : ∀ t ∈ targets, proverAddressFromPubkey env pubkey ≠
      spentJoinMergeAddress env t.proverPublicKey) :
    Covered env pubkey derived (targets.foldl (fun s target =>
      stampMarker env (proverAddressFromPubkey env pubkey)
        (spentJoinMergeAddress env target.proverPublicKey) s) s) := by
  refine foldlRecOn targets _ h fun s h t ht => ?_
  unfold stampMarker
  split
  · exact h
  · refine h.setOther (hne t ht) fun htype => ?_
    cases htypes .spentMerge (Option.some.inj htype)

/-- The reward vertex of a join. -/
theorem Covered.writeReward (htypes : TypesApart env) (hne : proverAddressFromPubkey env pubkey ≠
      rewardAddress env (proverAddressFromPubkey env pubkey)) (delegate : Bytes) :
    Covered env pubkey derived
      (writeReward env s (proverAddressFromPubkey env pubkey) delegate) := by
  unfold Global.writeReward
  split
  · exact h
  · refine h.setOther hne fun htype => ?_
    cases htypes .reward (Option.some.inj htype)

variable {frame : Nat}

/-- **A join keeps the coverage.** -/
theorem Covered.invokeJoin (htypes : TypesApart env)
    (hprover : ¬ derived (proverAddressFromPubkey env pubkey)) {grid : Option GridView}
    {op : ProverJoin} (hkey : joinPublicKey op = pubkey)
    (hfilters : ∀ f ∈ op.filters, derived (allocationAddress env pubkey f))
    (hmarkers : ∀ t ∈ op.mergeTargets, proverAddressFromPubkey env pubkey ≠
      spentJoinMergeAddress env t.proverPublicKey)
    (hreward : proverAddressFromPubkey env pubkey ≠
      rewardAddress env (proverAddressFromPubkey env pubkey))
    (hok : invokeJoin env grid frame op s = .ok s') : Covered env pubkey derived s' := by
  unfold Global.invokeJoin at hok
  rw [hkey] at hok
  iterate 5 obtain ⟨_, -, hok⟩ := bind_ok.mp hok
  obtain ⟨_, ht, hok⟩ := bind_ok.mp hok
  cases hok
  have hwritten := h.writeJoin htypes hprover hfilters frame
    (joinSeniority env s (proverAddressFromPubkey env pubkey) op.mergeTargets)
  exact ((hwritten.deriveProverStatus ht).stampMarkers htypes hmarkers).writeReward htypes hreward
    op.delegateAddress

/-- One operation of a message keeps the coverage. -/
theorem Covered.invokeFilterOp (hprover : ¬ derived (proverAddressFromPubkey env pubkey))
    {verify : VertexTree → VertexTree → Result Bool}
    {request : Bytes × FilterOp} (hfilter : derived (allocationAddress env pubkey request.1))
    (hok : invokeFilterOp env verify frame (proverAddressFromPubkey env pubkey) s request =
      .ok s') : Covered env pubkey derived s' := by
  obtain ⟨prover, hstored, hok⟩ := okOr_bind.mp hok
  rw [(h.prover hstored).1, Option.getD_some] at hok
  obtain ⟨_, -, hok⟩ := bind_ok.mp hok
  obtain ⟨_, htree, hok⟩ := okOr_bind.mp hok
  simp only [bind_ok] at hok
  obtain ⟨_, -, _, -, _, hmutated, hok⟩ := hok
  cases hok
  obtain ⟨hsame, hlive⟩ := applyFilterOp_keeps hmutated
  refine h.setVertex (fun heq => absurd (heq ▸ hfilter) hprover)
    (fun _ => by rw [hstored]; rfl) (fun htype => ?_) (fun halloc _ => ?_)
  · rw [hsame.2]
    exact h.unshared hfilter htree (hsame.1 ▸ htype)
  · exact h.linked htree ((hsame.isAllocationOf_iff env _).mp halloc) hlive

/-- Deriving the prover's status keeps the coverage. -/
theorem Covered.refreshProverStatus
    (hfilters : ∀ f ∈ filters, derived (allocationAddress env pubkey f))
    (hok : refreshProverStatus env filters (proverAddressFromPubkey env pubkey) s = .ok s') :
    Covered env pubkey derived s' := by
  obtain ⟨prover, hstored, hok⟩ := okOr_bind.mp hok
  rw [(h.prover hstored).1, Option.getD_some] at hok
  obtain ⟨_, -, hok⟩ := bind_ok.mp hok
  refine Covered.deriveProverStatus ?_ hok
  unfold linkMissing
  dsimp only
  split
  · exact h
  refine h.setLinks (fun a ha => mem_extendHyperedge.mpr (.inl ha)) fun a ha => ?_
  rcases mem_extendHyperedge.mp ha with ha | ha
  · exact h.own a ha
  · obtain ⟨f, hf, rfl⟩ := mem_unlinkedAllocations ha
    exact hfilters f hf

/-- Registering leaf roots writes vertices of another class. -/
theorem Covered.leafRoots (htypes : TypesApart env) {roots : List LeafRootWrite}
    (hne : ∀ r ∈ roots, proverAddressFromPubkey env pubkey ≠
      leafRootAddress env (proverAddressFromPubkey env pubkey) r.leafId) :
    Covered env pubkey derived
      (roots.foldl (registerLeafRoot env frame (proverAddressFromPubkey env pubkey)) s) := by
  refine foldlRecOn roots _ h fun _ ht r hr => ht.setOther (hne r hr) fun htype => ?_
  rw [Registry.upsertLeafRootRegistration_typeKey] at htype
  cases htypes .leafRoot (Option.some.inj htype)

/-- **A message keeps the coverage.** -/
theorem Covered.invokeFilterMessage (htypes : TypesApart env)
    (hprover : ¬ derived (proverAddressFromPubkey env pubkey))
    {verify : VertexTree → VertexTree → Result Bool} {msg : FilterMessage}
    (hfilters : ∀ r ∈ msg.requests, derived (allocationAddress env pubkey r.1))
    (hroots : ∀ r ∈ msg.leafRoots, proverAddressFromPubkey env pubkey ≠
      leafRootAddress env (proverAddressFromPubkey env pubkey) r.leafId)
    (hok : invokeFilterMessage env verify frame (proverAddressFromPubkey env pubkey) msg s =
      .ok s') : Covered env pubkey derived s' := by
  obtain ⟨_, -, hok⟩ := bind_ok.mp hok
  obtain ⟨_, hchanged, hok⟩ := bind_ok.mp hok
  obtain ⟨_, hrefreshed, hok⟩ := bind_ok.mp hok
  cases hok
  have hcovered := (foldlM_invariant (P := fun requests t =>
    (∀ r ∈ requests, derived (allocationAddress env pubkey r.1)) ∧ Covered env pubkey derived t)
    (fun r requests s t hr ⟨hall, hs⟩ => ⟨fun q hq => hall q (mem_cons_of_mem r hq),
      hs.invokeFilterOp hprover (hall r mem_cons_self) hr⟩) hchanged ⟨hfilters, h⟩).2
  refine (hcovered.refreshProverStatus (fun f hf => ?_) hrefreshed).leafRoots htypes hroots
  obtain ⟨r, hr, rfl⟩ := mem_map.mp hf
  exact hfilters r hr

end Kept

/-! ## Re-keyings -/

section Rekey

variable {oldFilter newFilter : Bytes} {ringKey : Option (Nat × Nat)} {prover : Bytes32}
  {tree : VertexTree}

/-- A re-keying leaves the moved allocation at its new address, and the old one retired unless the
addresses are the same. -/
theorem rekey_apply (htree : s.vertices (allocationAddress env pubkey oldFilter) = some tree)
    (b : Bytes32) :
    (rekeyAllocationWithKey env pubkey prover oldFilter newFilter ringKey s).vertices b =
      if b = allocationAddress env pubkey newFilter then
        some (writeMovedKey (tree.write .confirmationFilter newFilter) ringKey)
      else if b = allocationAddress env pubkey oldFilter then
        some (tree.write .status [statusHistoric])
      else s.vertices b := by
  unfold rekeyAllocationWithKey
  dsimp only
  rw [htree]
  dsimp only
  split
  · rename_i hmove
    rw [setVertex_apply]
    show (if _ then _ else (s.setVertex _ _).vertices b) = _
    rw [setVertex_apply]
    by_cases hb : b = allocationAddress env pubkey newFilter
    · rw [if_pos hb, if_pos hb, if_neg (hb ▸ hmove)]
    · rw [if_neg hb, if_neg hb]
  · rename_i hsame
    show (s.setVertex _ _).vertices b = _
    rw [setVertex_apply]
    by_cases hb : b = allocationAddress env pubkey newFilter
    · rw [if_pos hb, if_pos hb]
    · rw [if_neg hb, if_neg hb, if_neg (not_not.mp hsame ▸ hb)]

/-- A re-keying replaces the link. -/
theorem rekey_hyperedges
    (htree : s.vertices (allocationAddress env pubkey oldFilter) = some tree) :
    (rekeyAllocationWithKey env pubkey prover oldFilter newFilter ringKey s).hyperedges prover =
      reassignLink (s.hyperedges prover) (allocationAddress env pubkey oldFilter)
        (allocationAddress env pubkey newFilter) := by
  unfold rekeyAllocationWithKey
  dsimp only
  rw [htree]
  dsimp only
  split <;> exact Function.update_self _ _ _

/-- The links after one is replaced. -/
theorem mem_reassignLink {linked : List Bytes32} {old new : Bytes32} :
    a ∈ reassignLink linked old new ↔ (a ∈ linked ∧ a ≠ old ∧ a ≠ new) ∨ a = new := by
  unfold reassignLink
  rw [mem_append, mem_filter, decide_eq_true_eq, mem_singleton]

/-- A vertex after a re-keying is Historic, the moved allocation, or was there before; its owner is
that of the vertex it comes from. -/
theorem rekey_cases (htree : s.vertices (allocationAddress env pubkey oldFilter) = some tree)
    {b : Bytes32} {t : VertexTree}
    (ht : (rekeyAllocationWithKey env pubkey prover oldFilter newFilter ringKey s).vertices b =
      some t) :
    (SameOwner tree t ∧ (b = allocationAddress env pubkey newFilter ∨
      t.statusByte = some statusHistoric)) ∨
      b ≠ allocationAddress env pubkey newFilter ∧
        b ≠ allocationAddress env pubkey oldFilter ∧ s.vertices b = some t := by
  rw [rekey_apply htree] at ht
  split at ht
  · rename_i hb
    cases ht
    exact .inl ⟨((refl tree).write (by decide) _).writeMovedKey ringKey, .inl hb⟩
  · rename_i hb
    split at ht
    · cases ht
      exact .inl ⟨(refl tree).write (by decide) _, .inr rfl⟩
    · rename_i hb'
      exact .inr ⟨hb, hb', ht⟩

/-- **A re-keying keeps the coverage.** -/
theorem Covered.rekey (h : Covered env pubkey derived s)
    (hprover : ¬ derived (proverAddressFromPubkey env pubkey))
    (hold : derived (allocationAddress env pubkey oldFilter))
    (hnew : derived (allocationAddress env pubkey newFilter)) (ringKey : Option (Nat × Nat)) :
    Covered env pubkey derived (rekeyAllocationWithKey env pubkey
      (proverAddressFromPubkey env pubkey) oldFilter newFilter ringKey s) := by
  cases htree : s.vertices (allocationAddress env pubkey oldFilter) with
  | none =>
    unfold rekeyAllocationWithKey
    dsimp only
    rw [htree]
    exact h
  | some =>
    have hne : ∀ {a : Bytes32}, derived a → proverAddressFromPubkey env pubkey ≠ a :=
      fun ha heq => hprover (heq ▸ ha)
    have hvertex : (rekeyAllocationWithKey env pubkey (proverAddressFromPubkey env pubkey)
        oldFilter newFilter ringKey s).vertices (proverAddressFromPubkey env pubkey) =
          s.vertices (proverAddressFromPubkey env pubkey) := by
      rw [rekey_apply htree, if_neg (hne hnew), if_neg (hne hold)]
    refine
      { prover := fun ht => h.prover (hvertex ▸ ht)
        registered := ?_
        linked := ?_
        own := ?_
        unshared := ?_ }
    · intro b t ht halloc
      rw [hvertex]
      rcases rekey_cases htree ht with ⟨hsame, -⟩ | ⟨-, -, ht⟩
      · exact h.registered htree ((hsame.isAllocationOf_iff env _).mp halloc)
      · exact h.registered ht halloc
    · intro b t ht halloc hlive
      rw [rekey_hyperedges htree, mem_reassignLink]
      rcases rekey_cases htree ht with ⟨-, hb | hhistoric⟩ | ⟨hbnew, hbold, ht⟩
      · exact .inr hb
      · exact absurd hhistoric hlive
      · exact .inl ⟨h.linked ht halloc hlive, hbold, hbnew⟩
    · intro a ha
      rw [rekey_hyperedges htree, mem_reassignLink] at ha
      rcases ha with ⟨ha, -⟩ | rfl
      · exact h.own a ha
      · exact hnew
    · intro b t hb ht htype
      rcases rekey_cases htree ht with ⟨hsame, -⟩ | ⟨-, -, ht⟩
      · exact hsame.2.trans (h.unshared hold htree (hsame.1 ▸ htype))
      · exact h.unshared hb ht htype

end Rekey

/-! ## Kicks -/

/-- The allocation is kicked at the frame. -/
def KickedAt (frame : Nat) (tree : VertexTree) : Prop :=
  tree.statusByte = some statusKicked ∧ tree.read .kickFrameNumber = some (beBytes 8 frame)

/-- A kick of an allocation writes its vertex alone. -/
theorem kickAllocation_apply (frame : Nat) (s : GlobalState) (a b : Bytes32) :
    (kickAllocation frame s a).vertices b =
      if b = a then (s.vertices b).map (materializeProverKickAllocation · frame)
      else s.vertices b := by
  unfold kickAllocation
  by_cases hb : b = a
  · subst hb
    rw [if_pos rfl]
    cases hget : s.vertices b with
    | none => exact hget
    | some =>
      rw [setVertex_apply, if_pos rfl]
      rfl
  · rw [if_neg hb]
    split
    · rfl
    · rw [setVertex_apply, if_neg hb]

/-- What the loop of a kick leaves at an address. -/
theorem kickAllocations_apply (frame : Nat) (linked : List Bytes32) :
    ∀ (s : GlobalState) (a : Bytes32),
      (a ∉ linked → (linked.foldl (kickAllocation frame) s).vertices a = s.vertices a) ∧
      ∀ tree, s.vertices a = some tree → a ∈ linked ∨ KickedAt frame tree →
        ∃ kicked, (linked.foldl (kickAllocation frame) s).vertices a = some kicked ∧
          KickedAt frame kicked := by
  induction linked with
  | nil =>
    intro s a
    refine ⟨fun _ => rfl, fun tree htree h => ⟨tree, htree, ?_⟩⟩
    exact h.resolve_left not_mem_nil
  | cons b linked ih =>
    intro s a
    obtain ⟨hkeep, hkick⟩ := ih (kickAllocation frame s b) a
    constructor
    · intro ha
      rw [foldl_cons, hkeep fun h => ha (mem_cons_of_mem b h), kickAllocation_apply,
        if_neg (fun h : a = b => ha (h ▸ mem_cons_self))]
    · intro tree htree h
      by_cases hab : a = b
      · refine hkick (materializeProverKickAllocation tree frame) ?_ (.inr ⟨rfl, rfl⟩)
        rw [kickAllocation_apply, if_pos hab, htree]
        rfl
      · refine hkick tree (by rw [kickAllocation_apply, if_neg hab, htree]) ?_
        exact h.imp_left fun h => (mem_cons.mp h).resolve_left hab

section Kick

variable (h : Covered env pubkey derived s)
  (hprover : ¬ derived (proverAddressFromPubkey env pubkey)) (frame : Nat)
include h hprover

/-- **A kick keeps the coverage.** -/
theorem Covered.kick : Covered env pubkey derived
      (kickProverByAddress frame (proverAddressFromPubkey env pubkey) s) := by
  unfold kickProverByAddress
  split
  · exact h
  rename_i tree htree
  have hfirst : Covered env pubkey derived (s.setVertex (proverAddressFromPubkey env pubkey)
      (materializeProverKick tree frame)) :=
    h.insertProver htree [(.status, [statusKicked]), (.kickFrameNumber, beBytes 8 frame),
      (.seniority, beBytes 8 0)] (by simp)
  have hstored : ((s.setVertex (proverAddressFromPubkey env pubkey)
      (materializeProverKick tree frame)).vertices
        (proverAddressFromPubkey env pubkey)).isSome := by
    rw [setVertex_apply, if_pos rfl]
    rfl
  -- each linked address is derived, and stays linked
  refine (foldlRecOn _ _ (motive := fun t => Covered env pubkey derived t ∧
    (t.vertices (proverAddressFromPubkey env pubkey)).isSome ∧ t.hyperedges = s.hyperedges)
    ⟨hfirst, hstored, rfl⟩ fun t ⟨ht, hstored, hedges⟩ a ha => ?_).1
  have ha : a ∈ t.hyperedges (proverAddressFromPubkey env pubkey) := hedges ▸ ha
  have hne : proverAddressFromPubkey env pubkey ≠ a := fun heq => hprover (heq ▸ ht.own a ha)
  refine ⟨?_, ?_, by unfold kickAllocation; split <;> exact hedges⟩
  · unfold kickAllocation
    split
    · exact ht
    rename_i old hold
    have hsame := SameOwner.kick old frame
    exact ht.setVertex (fun heq => absurd heq hne) (fun _ => hstored)
      (fun htype => hsame.2.trans (ht.unshared (ht.own a ha) hold (hsame.1 ▸ htype)))
      (fun _ _ => ha)
  · rw [kickAllocation_apply, if_neg hne]
    exact hstored

/-- A kick marks every covered allocation. -/
theorem Covered.kick_reaches (htree : s.vertices a = some tree)
    (halloc : IsAllocationOf env (proverAddressFromPubkey env pubkey) tree)
    (hlive : tree.statusByte ≠ some statusHistoric) :
    ∃ kicked, (kickProverByAddress frame (proverAddressFromPubkey env pubkey) s).vertices a =
      some kicked ∧ KickedAt frame kicked := by
  have ha := h.linked htree halloc hlive
  have hne : a ≠ proverAddressFromPubkey env pubkey := fun heq => hprover (heq ▸ h.own a ha)
  obtain ⟨_, hstored⟩ := Option.isSome_iff_exists.mp (h.registered htree halloc)
  unfold kickProverByAddress
  rw [hstored]
  refine (kickAllocations_apply frame _ _ a).2 tree ?_ (.inl ha)
  rw [setVertex_apply, if_neg hne]
  exact htree

end Kick

/-- A kick leaves the allocations of other provers alone. -/
theorem Covered.kick_spares (h : Covered env pubkey derived s) (frame : Nat)
    (htree : s.vertices a = some tree)
    (htype : tree typeKey = some (computeTypeHash env.poseidon .allocation))
    (hother : tree.read .prover ≠ some (proverAddressFromPubkey env pubkey).bytes) :
    (kickProverByAddress frame (proverAddressFromPubkey env pubkey) s).vertices a = some tree := by
  have hne : a ≠ proverAddressFromPubkey env pubkey := by
    rintro rfl
    exact (h.prover htree).2 htype
  have hunlinked : a ∉ s.hyperedges (proverAddressFromPubkey env pubkey) :=
    fun ha => hother (h.unshared (h.own a ha) htree htype)
  unfold kickProverByAddress
  split
  · exact htree
  refine ((kickAllocations_apply frame _ _ a).1 hunlinked).trans ?_
  rw [setVertex_apply, if_neg hne]
  exact htree

end Steps

/-! ## Runs of one prover -/

section Runs

variable (env : GlobalEnv)

/-- What changes a prover's allocations.  A re-keying moves the prover to another filter, as a split
or merge assigns it. -/
inductive LifecycleOp where
  | join (grid : Option GridView) (op : ProverJoin)
  | message (verify : VertexTree → VertexTree → Result Bool) (content : FilterMessage)
  | rekey (oldFilter newFilter : Bytes) (ringKey : Option (Nat × Nat))
  | kick

structure LifecycleCall where
  frame : Nat
  op : LifecycleOp

/-- One call for the prover with the public key. -/
def applyLifecycle (pubkey : Bytes) (s : GlobalState) (call : LifecycleCall) : Result GlobalState :=
  let prover := proverAddressFromPubkey env pubkey
  match call.op with
  | .join grid op => invokeJoin env grid call.frame op s
  | .message verify content => invokeFilterMessage env verify call.frame prover content s
  | .rekey oldFilter newFilter ringKey =>
    .ok (rekeyAllocationWithKey env pubkey prover oldFilter newFilter ringKey s)
  | .kick => .ok (kickProverByAddress call.frame prover s)

/-- A call, committed where it is accepted. -/
def lifecycleStep (pubkey : Bytes) (s : GlobalState) (call : LifecycleCall) :
    Result Unit × GlobalState :=
  match applyLifecycle env pubkey s call with
  | .ok s' => (.ok (), s')
  | .error error => (.error error, s)

variable {env}

/-- A join is the prover's own. -/
def LifecycleOp.OfProver (pubkey : Bytes) : LifecycleOp → Prop
  | .join _ op => joinPublicKey op = pubkey
  | _ => True

/-- The filters a call derives allocation addresses from. -/
def LifecycleOp.filters : LifecycleOp → List Bytes
  | .join _ op => op.filters
  | .message _ content => content.requests.map Prod.fst
  | .rekey oldFilter newFilter _ => [oldFilter, newFilter]
  | .kick => []

/-- The other addresses a call may write, the prover's own apart. -/
def LifecycleOp.otherAddresses (env : GlobalEnv) (prover : Bytes32) : LifecycleOp → List Bytes32
  | .join _ op => rewardAddress env prover ::
      op.mergeTargets.map fun target => spentJoinMergeAddress env target.proverPublicKey
  | .message _ content => content.leafRoots.map fun root => leafRootAddress env prover root.leafId
  | _ => []

/-- The prover has not joined yet. -/
structure Unregistered (env : GlobalEnv) (publicKey : Bytes) (s : GlobalState) : Prop where
  vertex : s.vertices (proverAddressFromPubkey env publicKey) = none
  links : s.hyperedges (proverAddressFromPubkey env publicKey) = []
  allocations : ∀ a tree, s.vertices a = some tree →
    ¬ IsAllocationOf env (proverAddressFromPubkey env publicKey) tree

/-- No collision among the hashes of a run: the prover's address is no other address written, and
derived allocation addresses hold no allocation of another prover. -/
structure AddressesApart (env : GlobalEnv) (publicKey : Bytes) (s : GlobalState)
    (calls : List LifecycleCall) : Prop where
  types : TypesApart env
  prover : ∀ call ∈ calls,
    proverAddressFromPubkey env publicKey ∉ call.op.filters.map (allocationAddress env publicKey) ∧
      proverAddressFromPubkey env publicKey ∉
        call.op.otherAddresses env (proverAddressFromPubkey env publicKey)
  unshared : ∀ call ∈ calls, ∀ f ∈ call.op.filters, ∀ tree,
    s.vertices (allocationAddress env publicKey f) = some tree →
      tree typeKey = some (computeTypeHash env.poseidon .allocation) →
        tree.read .prover = some (proverAddressFromPubkey env publicKey).bytes

/-- The allocation addresses the calls derive. -/
def DerivedBy (env : GlobalEnv) (pubkey : Bytes) (calls : List LifecycleCall)
    (a : Bytes32) : Prop :=
  ∃ call ∈ calls, ∃ f ∈ call.op.filters, a = allocationAddress env pubkey f

variable {pubkey : Bytes} {s : GlobalState} {calls : List LifecycleCall}

/-- The prover's address is no allocation address. -/
theorem AddressesApart.prover_not_derived (h : AddressesApart env pubkey s calls) :
    ¬ DerivedBy env pubkey calls (proverAddressFromPubkey env pubkey) := by
  rintro ⟨call, hcall, f, hf, heq⟩
  exact (h.prover call hcall).1 (heq ▸ mem_map_of_mem hf)

/-- An unregistered prover is covered. -/
theorem covered_unregistered (hstart : Unregistered env pubkey s)
    (h : AddressesApart env pubkey s calls) :
    Covered env pubkey (DerivedBy env pubkey calls) s where
  prover := by
    intro tree htree
    rw [hstart.vertex] at htree
    cases htree
  registered := fun htree halloc => absurd halloc (hstart.allocations _ _ htree)
  linked := fun htree halloc _ => absurd halloc (hstart.allocations _ _ htree)
  own := by
    rw [hstart.links]
    exact fun a ha => nomatch ha
  unshared := by
    rintro a tree ⟨call, hcall, f, hf, rfl⟩ htree htype
    exact h.unshared call hcall f hf tree htree htype

/-- One accepted call keeps the allocations covered. -/
theorem Covered.applyLifecycle {t t' : GlobalState}
    (ht : Covered env pubkey (DerivedBy env pubkey calls) t)
    (h : AddressesApart env pubkey s calls) {call : LifecycleCall} (hcall : call ∈ calls)
    (hmine : call.op.OfProver pubkey) (hok : applyLifecycle env pubkey t call = .ok t') :
    Covered env pubkey (DerivedBy env pubkey calls) t' := by
  have hprover := h.prover_not_derived
  have hderived : ∀ f ∈ call.op.filters,
      DerivedBy env pubkey calls (allocationAddress env pubkey f) :=
    fun f hf => ⟨call, hcall, f, hf, rfl⟩
  have hother := (h.prover call hcall).2
  unfold Global.applyLifecycle at hok
  cases hop : call.op with
  | join =>
    rw [hop] at hok hderived hother hmine
    refine ht.invokeJoin h.types hprover hmine hderived (fun target htarget heq => ?_)
      (fun heq => ?_) hok
    · exact hother (mem_cons_of_mem _ (mem_map.mpr ⟨target, htarget, heq.symm⟩))
    · exact hother (mem_cons.mpr (.inl heq))
  | message =>
    rw [hop] at hok hderived hother
    refine ht.invokeFilterMessage h.types hprover (fun r hr => ?_) (fun root hroot heq => ?_) hok
    · exact hderived r.1 (mem_map_of_mem hr)
    · exact hother (mem_map.mpr ⟨root, hroot, heq.symm⟩)
  | rekey oldFilter newFilter ringKey =>
    rw [hop] at hok hderived
    cases hok
    exact ht.rekey hprover (hderived oldFilter (by simp [LifecycleOp.filters]))
      (hderived newFilter (by simp [LifecycleOp.filters])) ringKey
  | kick =>
    rw [hop] at hok
    cases hok
    exact ht.kick hprover call.frame

/-- The coverage holds after any run. -/
theorem covered_run (hstart : Unregistered env pubkey s)
    (h : AddressesApart env pubkey s calls)
    (hmine : ∀ call ∈ calls, call.op.OfProver pubkey) :
    Covered env pubkey (DerivedBy env pubkey calls)
      (final (lifecycleStep env pubkey) s calls) := by
  refine state_invariant (lifecycleStep env pubkey)
    (Covered env pubkey (DerivedBy env pubkey calls)) (fun e => e.input ∈ calls)
    (covered_unregistered hstart h) (fun t call ht hcall => ?_) calls (fun e he => ?_)
  · unfold lifecycleStep
    cases hok : applyLifecycle env pubkey t call with
    | error => exact ht
    | ok => exact ht.applyLifecycle h hcall (hmine call hcall) hok
  · obtain ⟨_, _, hsplit, -⟩ := mem_events _ he
    rw [hsplit]
    exact mem_append_right _ mem_cons_self

/-- **A kick reaches every allocation.**  After any run of a prover its hyperedge links each of its
allocations that is not Historic; a kick marks each of them and no allocation of another prover. -/
theorem kick_reaches_every_allocation (hstart : Unregistered env pubkey s)
    (hapart : AddressesApart env pubkey s calls)
    (hmine : ∀ call ∈ calls, call.op.OfProver pubkey) (frame : Nat) :
    (∀ a tree, (final (lifecycleStep env pubkey) s calls).vertices a = some tree →
      IsAllocationOf env (proverAddressFromPubkey env pubkey) tree →
      tree.statusByte ≠ some statusHistoric →
        a ∈ (final (lifecycleStep env pubkey) s calls).hyperedges
          (proverAddressFromPubkey env pubkey) ∧
        ∃ kicked, (kickProverByAddress frame (proverAddressFromPubkey env pubkey)
          (final (lifecycleStep env pubkey) s calls)).vertices a = some kicked ∧
            KickedAt frame kicked) ∧
    ∀ a tree, (final (lifecycleStep env pubkey) s calls).vertices a = some tree →
      tree typeKey = some (computeTypeHash env.poseidon .allocation) →
      tree.read .prover ≠ some (proverAddressFromPubkey env pubkey).bytes →
        (kickProverByAddress frame (proverAddressFromPubkey env pubkey)
          (final (lifecycleStep env pubkey) s calls)).vertices a = some tree := by
  have hcovered := covered_run hstart hapart hmine
  constructor
  · intro a tree htree halloc hlive
    exact ⟨hcovered.linked htree halloc hlive,
      hcovered.kick_reaches hapart.prover_not_derived frame htree halloc hlive⟩
  · intro a tree htree htype hother
    exact hcovered.kick_spares frame htree htype hother

end Runs

def otherKey : Bytes := List.replicate 897 2

def childFilter : Bytes := List.replicate 32 8

def otherFilter : Bytes := List.replicate 32 9

def otherAllocation : VertexTree :=
  createAllocationVertexTree plainEnv.poseidon (proverAddressFromPubkey plainEnv otherKey)
    otherFilter 1

/-- Another prover's allocation, and nothing else. -/
def otherState : GlobalState :=
  (GlobalState.mk Store.empty fun _ => []).setVertex
    (allocationAddress plainEnv otherKey otherFilter) otherAllocation

/-- A join, its confirm, and a move to a child shard. -/
def movedCalls : List LifecycleCall :=
  [⟨1, .join none (plainJoin 1)⟩, ⟨720, .message (fun _ _ => .ok true)
      (.confirm 720 [(plainFilter, ⟨true, false, none, none, none⟩)] [⟨plainFilter, [], [9], 3⟩])⟩,
    ⟨1440, .rekey plainFilter childFilter none⟩]

def movedState : GlobalState := final (lifecycleStep plainEnv plainKey) otherState movedCalls

/-- The prover kicked after that. -/
def kickedState : GlobalState :=
  kickProverByAddress 1500 (proverAddressFromPubkey plainEnv plainKey) movedState

/-- The start holds one vertex. -/
theorem otherState_vertices (h : otherState.vertices a = some tree) :
    a = allocationAddress plainEnv otherKey otherFilter ∧ tree = otherAllocation := by
  unfold otherState at h
  rw [setVertex_apply] at h
  split at h
  · rename_i ha
    cases h
    exact ⟨ha, rfl⟩
  · cases h

/-- The moved allocation is live and is kicked; the other prover's stays. -/
theorem moved_prover_kicked :
    (∃ tree, movedState.vertices (allocationAddress plainEnv plainKey childFilter) = some tree ∧
        tree.statusByte = some statusActive) ∧
      (∃ kicked, kickedState.vertices (allocationAddress plainEnv plainKey childFilter) =
        some kicked ∧ KickedAt 1500 kicked) ∧
      ∃ tree, kickedState.vertices (allocationAddress plainEnv otherKey otherFilter) = some tree ∧
        tree.statusByte = some statusJoining := by
  have hstart : Unregistered plainEnv plainKey otherState :=
    ⟨by decide +kernel, rfl, fun a tree h halloc => by
      obtain ⟨-, rfl⟩ := otherState_vertices h
      exact absurd halloc.2 (by decide +kernel)⟩
  have hapart : AddressesApart plainEnv plainKey otherState movedCalls := by
    refine ⟨fun cls => ?_, by decide +kernel, fun call hcall f hf tree h => ?_⟩
    · cases cls <;> decide +kernel
    · have hne : ∀ call ∈ movedCalls, ∀ f ∈ call.op.filters,
          allocationAddress plainEnv plainKey f ≠ allocationAddress plainEnv otherKey otherFilter := by
        decide +kernel
      exact absurd (otherState_vertices h).1 (hne call hcall f hf)
  have hmine : ∀ call ∈ movedCalls, call.op.OfProver plainKey := by
    intro call hcall
    simp only [movedCalls, mem_cons, not_mem_nil, or_false] at hcall
    rcases hcall with rfl | rfl | rfl
    · exact rfl
    · exact trivial
    · exact trivial
  have hall := kick_reaches_every_allocation hstart hapart hmine 1500
  obtain ⟨tree, htree, hread⟩ := (Option.any_eq_true _ _).mp (show (movedState.vertices
      (allocationAddress plainEnv plainKey childFilter)).any (fun t =>
        t.statusByte = some statusActive ∧
        t typeKey = some (computeTypeHash plainEnv.poseidon .allocation) ∧
        t.read .prover = some (proverAddressFromPubkey plainEnv plainKey).bytes) = true by
    decide +kernel)
  obtain ⟨other, hother, hreadOther⟩ := (Option.any_eq_true _ _).mp (show (movedState.vertices
      (allocationAddress plainEnv otherKey otherFilter)).any (fun t =>
        t.statusByte = some statusJoining ∧
        t typeKey = some (computeTypeHash plainEnv.poseidon .allocation) ∧
        t.read .prover = some (proverAddressFromPubkey plainEnv otherKey).bytes) = true by
    decide +kernel)
  obtain ⟨hstatus, howner⟩ := of_decide_eq_true hread
  obtain ⟨hjoining, htype, hprover⟩ := of_decide_eq_true hreadOther
  unfold kickedState movedState at *
  refine ⟨⟨tree, htree, hstatus⟩, (hall.1 _ tree htree howner (by rw [hstatus]; decide)).2,
    other, hall.2 _ other hother htype ?_, hjoining⟩
  rw [hprover]
  decide +kernel

end Global

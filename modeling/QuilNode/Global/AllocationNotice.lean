import QuilNode.Global.AllocationLifecycle

/-!
# The notice of a leave

A leave accepted in epoch `E` is to keep the allocation in its committee through `E + 1` and to
end it at `E + 2`.  Over the whole history of a vertex this depends on whether an earlier leave
has left its `LeaveConfirmFrameNumber` behind, and on no join being accepted after the leave, which
would replace the allocation (`leave_serves_notice_iff`).
-/

namespace Global

open Results VertexTree Run List Option

/-- What the history of one prover's allocation for one filter consists of. -/
inductive HistoryOp where
  | join
  | kick
  | filterOp (op : FilterOp)
  deriving DecidableEq

/-- A step of a history and the frame it is executed at. -/
structure HistoryCall where
  frame : Frame
  op : HistoryOp
  deriving DecidableEq

section History

variable (poseidon : Bytes → Bytes32) (o : Nat) (prover : Bytes32) (filter : Bytes)

/-- What a call makes of the allocation stored for the filter. -/
def applyHistoryCall (stored : Option VertexTree) (call : HistoryCall) : Result VertexTree :=
  match call.op, stored with
  | .join, none => pure (createAllocationVertexTree poseidon prover filter call.frame)
  | .join, some tree => do
    let _ ← verifyAllocationExpired call.frame tree
    pure (createAllocationVertexTree poseidon prover filter call.frame)
  | .kick, some tree => pure (materializeProverKickAllocation tree call.frame)
  | .filterOp op, some tree => applyFilterOp o filter op tree call.frame
  | _, none => .error (.invalidArgument "invoke_step: allocation not found")

/-- One step of a history; a refused call leaves the stored vertex. -/
def historyStep (stored : Option VertexTree) (call : HistoryCall) :
    Result Unit × Option VertexTree :=
  match applyHistoryCall poseidon o prover filter stored call with
  | .ok tree => (.ok (), some tree)
  | .error error => (.error error, stored)

end History

/-- A change of an allocation's vertex that leaves its type and its prover. -/
def SameOwner (tree tree' : VertexTree) : Prop :=
  tree' typeKey = tree typeKey ∧ tree'.read .prover = tree.read .prover

namespace SameOwner

variable {t t' t'' : VertexTree}

theorem refl (t : VertexTree) : SameOwner t t := ⟨rfl, rfl⟩

theorem trans (h : SameOwner t t') (h' : SameOwner t' t'') : SameOwner t t'' :=
  ⟨h'.1.trans h.1, h'.2.trans h.2⟩

theorem write (h : SameOwner t t') {field : AllocationField} (hne : field ≠ .prover)
    (value : Bytes) : SameOwner t (t'.write field value) := by
  refine h.trans ⟨?_, ?_⟩
  · exact insert_other _ _ (typeKey_ne_orderToKey _)
  · rw [read_write, if_neg hne.symm]

theorem writeRelease (h : SameOwner t t') (release : Option Bytes) :
    SameOwner t (writeRelease t' release) := by
  cases release with
  | none => exact h
  | some bytes => exact h.write (by decide) bytes

end SameOwner

section Reads

variable {poseidon : Bytes → Bytes32} {o frame : Nat} {prover : Bytes32} {filter : Bytes}
  {tree tree' : VertexTree}

theorem createAllocation_status :
    (createAllocationVertexTree poseidon prover filter frame).read .status =
      some [statusJoining] := by
  simp [createAllocationVertexTree, read_write]

/-- An accepted join writes the allocation anew. -/
theorem created_of_join {stored : Option VertexTree} {call : HistoryCall} (hop : call.op = .join)
    (h : applyHistoryCall poseidon o prover filter stored call = .ok tree) :
    tree = createAllocationVertexTree poseidon prover filter call.frame := by
  cases stored with
  | none =>
    simp only [applyHistoryCall, hop] at h
    exact (pure_ok.mp h).symm
  | some =>
    simp only [applyHistoryCall, hop] at h
    obtain ⟨_, -, h⟩ := bind_ok.mp h
    exact (pure_ok.mp h).symm

/-- A new allocation is not leaving. -/
theorem created_not_leaving {g : Nat} :
    effectiveStatusAt o (createAllocationVertexTree poseidon prover filter frame) g ≠
      some .leaving := by
  intro h
  obtain ⟨-, byte, hbyte, hleaving⟩ := read_of_effectiveStatusAt h
  obtain rfl : statusJoining = byte := by simpa [createAllocation_status] using hbyte
  simp only [ProverAllocationInfo.effectiveStatus, allocationInfo, mapAllocationStatus,
    statusJoining, if_true] at hleaving
  split at hleaving <;> cases hleaving

/-- What an executed confirm found and, on a leave, what it wrote. -/
theorem confirm_cases {ctx : ConfirmContext}
    (h : confirmAllocation o filter ctx tree frame = .ok tree') :
    validateConfirmTiming o frame tree = .ok () ∧ SameOwner tree tree' ∧
      (tree.statusByte = some statusLeaving →
        tree' = tree.write .leaveConfirmFrameNumber (beBytes 8 frame)) := by
  have hrefl := SameOwner.refl tree
  obtain ⟨_, htiming, h⟩ := bind_ok.mp h
  refine ⟨htiming, ?_⟩
  simp only at h
  split at h
  · -- a join the grid no longer has is left as it is
    rename_i hgrid
    cases h
    refine ⟨hrefl, fun hs => ?_⟩
    rw [hs] at hgrid
    exact absurd hgrid.1 (by decide)
  · simp only [bind_ok] at h
    obtain ⟨_, -, confirmed, hconfirmed, h⟩ := h
    have hkeeps : SameOwner tree confirmed ∧ (tree.statusByte = some statusLeaving →
        confirmed = tree.write .leaveConfirmFrameNumber (beBytes 8 frame)) := by
      unfold materializeProverConfirm at hconfirmed
      simp only at hconfirmed
      split at hconfirmed
      · rename_i hs
        cases hconfirmed
        exact ⟨((((hrefl.write (by decide) _).write (by decide) _).write (by decide) _).write
          (by decide) _).writeRelease _, fun hl => absurd hs (by rw [hl]; decide)⟩
      · split at hconfirmed
        · rename_i hs
          cases hconfirmed
          exact ⟨((hrefl.write (by decide) _).write (by decide) _).writeRelease _,
            fun hl => absurd hs (by rw [hl]; decide)⟩
        · split at hconfirmed
          · cases hconfirmed
            exact ⟨hrefl.write (by decide) _, fun _ => rfl⟩
          · cases hconfirmed
    split at h
    · split at h
      · rename_i hs
        cases h
        exact ⟨(hkeeps.1.write (by decide) _).write (by decide) _,
          fun hl => absurd hs (by rw [hl]; decide)⟩
      · cases h
        exact hkeeps
    · cases h
      exact hkeeps

end Reads

/-- An allocation past its join has seen a frame after the first. -/
def Grounded (log : List (Run.Event (Option VertexTree) HistoryCall (Result Unit)))
    (stored : Option VertexTree) : Prop :=
  ∀ tree, stored = some tree → (tree.read .prover).getD [] ≠ [] ∧
    (tree.statusByte = some statusActive ∨ tree.statusByte = some statusPaused ∨
      tree.statusByte = some statusLeaving → ∃ e ∈ log, 0 < e.input.frame.val)

variable {log : List (Run.Event (Option VertexTree) HistoryCall (Result Unit))}

section Grounding

variable {poseidon : Bytes → Bytes32} {o : Nat} {prover : Bytes32} {filter : Bytes}
  {tree tree' : VertexTree}

theorem statusByte_write_status (byte : UInt8) :
    (tree.write .status [byte]).statusByte = some byte := by
  simp [statusByte, read_write]

theorem statusByte_write_other {field : AllocationField} {value : Bytes}
    (h : field ≠ .status) : (tree.write field value).statusByte = tree.statusByte := by
  simp [statusByte, read_write, h.symm]

/-- What one operation needs to find and what it keeps. -/
theorem filterOp_cases {op : FilterOp} {frame : Nat}
    (h : applyFilterOp o filter op tree frame = .ok tree') :
    SameOwner tree tree' ∧ (tree.statusByte = some statusJoining ∧
        (tree'.statusByte = some statusKicked ∨ 0 < frame) ∨
      tree.statusByte = some statusActive ∨ tree.statusByte = some statusPaused ∨
        tree.statusByte = some statusLeaving) := by
  have htwo : ∀ {f g : AllocationField} {v w : Bytes}, f ≠ .prover → g ≠ .prover →
      SameOwner tree ((tree.write f v).write g w) :=
    fun hf hg => ((SameOwner.refl tree).write hf _).write hg _
  cases op with
  | pause =>
    obtain ⟨_, hs, h⟩ := bind_ok.mp h
    cases h
    exact ⟨htwo (by decide) (by decide), .inr (.inl (some_of_getD (by decide) (ensure_ok.mp hs)))⟩
  | resume =>
    obtain ⟨_, hs, h⟩ := bind_ok.mp h
    cases h
    exact ⟨htwo (by decide) (by decide),
      .inr (.inr (.inl (some_of_getD (by decide) (ensure_ok.mp hs))))⟩
  | leave =>
    obtain ⟨_, hs, h⟩ := bind_ok.mp h
    cases h
    refine ⟨htwo (by decide) (by decide), .inr ?_⟩
    rcases ensure_ok.mp hs with hs | hs
    · exact .inl (some_of_getD (by decide) hs)
    · exact .inr (.inl (some_of_getD (by decide) hs))
  | confirm =>
    obtain ⟨htiming, hsame, -⟩ := confirm_cases h
    refine ⟨hsame, ?_⟩
    rcases timing_cases htiming with ⟨hs, j, -, heq⟩ | ⟨hs, -⟩ | hs
    · -- a confirmed join has waited for the next epoch
      refine .inl ⟨hs, .inr (Nat.pos_of_ne_zero fun hzero => ?_)⟩
      rw [hzero] at heq
      simp [epochForFrame] at heq
    · exact .inr (.inr (.inr hs))
    · exact .inr (.inl hs)
  | reject =>
    unfold applyFilterOp materializeProverReject at h
    simp only at h
    split at h
    · rename_i hs
      cases h
      refine ⟨htwo (by decide) (by decide), .inl ⟨some_of_getD (by decide) hs, .inl ?_⟩⟩
      rw [statusByte_write_other (by decide), statusByte_write_status]
    · split at h
      · rename_i hs
        cases h
        exact ⟨(htwo (by decide) (by decide)).write (by decide) _,
          .inr (.inr (.inr (some_of_getD (by decide) hs)))⟩
      · cases h

theorem grounded_step {stored : Option VertexTree} (call : HistoryCall)
    (hgrounded : Grounded log stored) :
    Grounded (log ++ [event (historyStep poseidon o prover filter) stored call])
      (historyStep poseidon o prover filter stored call).2 := by
  intro tree htree
  have hlog : (∃ e ∈ log, 0 < e.input.frame.val) →
      ∃ e ∈ log ++ [event (historyStep poseidon o prover filter) stored call],
        0 < e.input.frame.val :=
    fun ⟨e, he, hpos⟩ => ⟨e, mem_append_left _ he, hpos⟩
  have hcreated : ∀ f,
      ((createAllocationVertexTree poseidon prover filter f).read .prover).getD [] ≠ [] ∧
      (createAllocationVertexTree poseidon prover filter f).statusByte = some statusJoining := by
    intro f
    refine ⟨fun hnil => ?_, statusByte_of_read createAllocation_status⟩
    have hlen := congrArg length hnil
    simp [createAllocationVertexTree, read_write] at hlen
  unfold historyStep at htree
  cases happly : applyHistoryCall poseidon o prover filter stored call with
  | error =>
    rw [happly] at htree
    obtain ⟨hprover, hframe⟩ := hgrounded tree htree
    exact ⟨hprover, fun hs => hlog (hframe hs)⟩
  | ok tree' =>
    rw [happly] at htree
    have heq : tree' = tree := some.inj htree
    subst heq
    cases hop : call.op with
    | join =>
      obtain ⟨hprover, hs⟩ := hcreated call.frame
      rw [created_of_join hop happly, hs]
      exact ⟨hprover, fun h => absurd h (by decide)⟩
    | kick =>
      cases stored with
      | none => simp [applyHistoryCall, hop] at happly
      | some old =>
        simp only [applyHistoryCall, hop] at happly
        rw [← pure_ok.mp happly]
        unfold materializeProverKickAllocation
        rw [statusByte_write_other (by decide), statusByte_write_status]
        refine ⟨?_, fun h => absurd h (by decide)⟩
        simpa [read_write] using (hgrounded old rfl).1
    | filterOp =>
      cases stored with
      | none => simp [applyHistoryCall, hop] at happly
      | some old =>
        simp only [applyHistoryCall, hop] at happly
        obtain ⟨hsame, hcases⟩ := filterOp_cases happly
        obtain ⟨hold, hframe⟩ := hgrounded old rfl
        refine ⟨by rw [hsame.2]; exact hold, fun hs => ?_⟩
        rcases hcases with ⟨-, hk | hpos⟩ | hold
        · rw [hk] at hs
          exact absurd hs (by decide)
        · exact ⟨_, mem_append_right _ mem_cons_self, hpos⟩
        · exact hlog (hframe hold)

theorem grounded_history (history : List HistoryCall) :
    Grounded (events (historyStep poseidon o prover filter) none history)
      (final (historyStep poseidon o prover filter) none history) :=
  history_invariant _ Grounded (fun _ => True) (fun _ h => by cases h)
    (fun _ _ call h _ => grounded_step call h) history (fun _ _ => trivial)

end Grounding

/-- No confirm of a leave is recorded on the vertex. -/
def Unconfirmed (tree : VertexTree) : Prop :=
  (tree.read .leaveConfirmFrameNumber).getD [] = [] ∨
    (tree.read .leaveConfirmFrameNumber).getD [] = List.replicate 8 0

instance (tree : VertexTree) : Decidable (Unconfirmed tree) :=
  inferInstanceAs (Decidable (_ ∨ _))

/-- The vertex carries the leave of a frame. -/
structure Serving (leave : Frame) (tree : VertexTree) : Prop where
  prover : (tree.read .prover).getD [] ≠ []
  status : tree.read .status = some [statusLeaving]
  leaveFrame : tree.read .leaveFrameNumber = some (beBytes 8 leave)
  positive : 0 < leave.val

/-- The leave was confirmed in the epoch after it. -/
def ConfirmedInNextEpoch (o : Nat) (leave : Frame) (tree : VertexTree) : Prop :=
  ∃ x : Frame, 0 < x.val ∧ epochForFrame o x = epochForFrame o leave + 1 ∧
    tree.read .leaveConfirmFrameNumber = some (beBytes 8 x)

section Notice

variable {o g : Nat} {filter : Bytes} {leave : Frame} {tree tree' : VertexTree}

/-- The status of a leave that is on time: with or without its confirm. -/
theorem Serving.effectiveStatusAt_eq (h : Serving leave tree)
    (hconfirm : Unconfirmed tree ∨ ConfirmedInNextEpoch o leave tree) :
    effectiveStatusAt o tree g = some
      (if epochForFrame o g ≤ epochForFrame o leave + 1 then .leaving else .expiredLeaving) := by
  have hleave := readU64_of_exact h.leaveFrame (u64Exact_beBytes leave.isLt)
  have hpos := h.positive
  rw [effectiveStatusAt_of_read h.prover h.status]
  simp only [ProverAllocationInfo.effectiveStatus, allocationInfo, mapAllocationStatus,
    statusLeaving, hleave]
  rcases hconfirm with hunset | ⟨x, hx, hepoch, hread⟩
  · have hzero := readU64_of_unset hunset
    by_cases hg : epochForFrame o g ≤ epochForFrame o leave + 1
    · simp [hzero, hpos, hg]
    · have hlt : epochForFrame o leave + 1 < epochForFrame o g := by omega
      simp [hzero, hpos, hg, hlt]
  · have hx' := readU64_of_exact hread (u64Exact_beBytes x.isLt)
    by_cases hg : epochForFrame o g ≤ epochForFrame o leave + 1
    · have hlt : epochForFrame o g < epochForFrame o leave + 1 + 1 := by omega
      simp [hx', hx, hepoch, hg, hlt]
    · have hlt : ¬ epochForFrame o g < epochForFrame o leave + 1 + 1 := by omega
      simp [hx', hx, hepoch, hg, hlt]

/-- An unconfirmed leave can be confirmed throughout the epoch after it. -/
theorem Serving.timing_ok (h : Serving leave tree) (hunset : Unconfirmed tree)
    (hg : epochForFrame o g = epochForFrame o leave + 1) :
    validateConfirmTiming o g tree = .ok () := by
  have hbyte := statusByte_of_read h.status
  have hexact := u64Exact_beBytes leave.isLt
  unfold validateConfirmTiming
  simp only [hbyte, getD_some, h.leaveFrame]
  exact bind_ok.mpr ⟨(), ensure_ok.mpr hunset, bind_ok.mpr ⟨leave, okOr_ok.mpr hexact,
    ensure_ok.mpr hg⟩⟩

/-- An accepted leave starts its notice. -/
theorem serving_of_leave (hprover : (tree.read .prover).getD [] ≠ []) (hpos : 0 < leave.val)
    (h : applyFilterOp o filter .leave tree leave = .ok tree') :
    Serving leave tree' ∧
      tree'.read .leaveConfirmFrameNumber = tree.read .leaveConfirmFrameNumber := by
  obtain ⟨_, -, h⟩ := bind_ok.mp h
  rw [← pure_ok.mp h]
  refine ⟨⟨?_, ?_, ?_, hpos⟩, ?_⟩
  · simpa [read_write] using hprover
  all_goals simp [read_write]

/-- The only operation a serving allocation takes, rejects apart, is its
confirm. -/
theorem Serving.step (h : Serving leave tree) {op : FilterOp} {frame : Frame} (hop : op ≠ .reject)
    (happly : applyFilterOp o filter op tree frame = .ok tree') :
    (∃ ctx, op = .confirm ctx) ∧ Serving leave tree' ∧ ConfirmedInNextEpoch o leave tree' := by
  have hbyte := statusByte_of_read h.status
  cases op with
  | pause | resume =>
    obtain ⟨_, hs, -⟩ := bind_ok.mp happly
    rw [hbyte] at hs
    cases hs
  | leave =>
    obtain ⟨_, hs, -⟩ := bind_ok.mp happly
    rw [hbyte] at hs
    obtain hs | hs := hs
  | reject => exact absurd rfl hop
  | confirm ctx =>
    obtain ⟨htiming, -, hwrite⟩ := confirm_cases happly
    have htree := hwrite hbyte
    refine ⟨⟨ctx, rfl⟩, ?_, ?_⟩
    · rw [htree]
      exact ⟨by simpa [read_write] using h.prover, by simpa [read_write] using h.status,
        by simpa [read_write] using h.leaveFrame, h.positive⟩
    · rcases timing_cases htiming with ⟨hs, -⟩ | ⟨-, -, l, hl, hepoch⟩ | hs
      · rw [hbyte] at hs
        cases hs
      · rw [h.leaveFrame, getD_some, u64Exact_beBytes leave.isLt] at hl
        have hl := some.inj hl
        subst hl
        refine ⟨frame, Nat.pos_of_ne_zero fun hzero => ?_, hepoch, ?_⟩
        · rw [hzero] at hepoch
          simp [epochForFrame] at hepoch
        · rw [htree]
          simp [read_write]
      · rw [hbyte] at hs
        cases hs

end Notice

/-- A step that neither rejects nor kicks the allocation. -/
def Undisturbed (e : Run.Event (Option VertexTree) HistoryCall (Result Unit)) : Prop :=
  e.result = .ok () → e.input.op ≠ .kick ∧ e.input.op ≠ .filterOp .reject

/-- A join that was accepted. -/
def IsJoin (e : Run.Event (Option VertexTree) HistoryCall (Result Unit)) : Prop :=
  e.result = .ok () ∧ e.input.op = .join

/-- A confirm that was executed. -/
def IsConfirm (e : Run.Event (Option VertexTree) HistoryCall (Result Unit)) : Prop :=
  e.result = .ok () ∧ ∃ ctx, e.input.op = .filterOp (.confirm ctx)

/-- A leave of epoch `E` serves its notice over the calls that follow: the allocation is `Leaving`
to the end of `E + 1`, can be confirmed in `E + 1` unless it was, and is `ExpiredLeaving` from `E +
2` on. -/
structure ServesNotice (o : Nat) (leave : Frame) (confirmed : Prop) (tree : VertexTree) : Prop where
  leaving : ∀ g, epochForFrame o g ≤ epochForFrame o leave + 1 →
    effectiveStatusAt o tree g = some .leaving
  confirmable : ¬ confirmed → ∀ g, epochForFrame o g = epochForFrame o leave + 1 →
    validateConfirmTiming o g tree = .ok ()
  expired : ∀ g, epochForFrame o leave + 2 ≤ epochForFrame o g →
    effectiveStatusAt o tree g = some .expiredLeaving

section Run

variable {poseidon : Bytes → Bytes32} {o : Nat} {prover : Bytes32} {filter : Bytes}
  {leave : Frame} {tree : VertexTree}

/-- What holds while a leave serves its notice. -/
def NoticeKept (o : Nat) (leave : Frame)
    (log : List (Run.Event (Option VertexTree) HistoryCall (Result Unit)))
    (stored : Option VertexTree) : Prop :=
  ∃ tree, stored = some tree ∧ Serving leave tree ∧
    (Unconfirmed tree ∨ (ConfirmedInNextEpoch o leave tree ∧ ∃ e ∈ log, IsConfirm e))

theorem notice_kept_step {stored : Option VertexTree} {call : HistoryCall}
    (h : NoticeKept o leave log stored)
    (hquiet : Undisturbed (event (historyStep poseidon o prover filter) stored call))
    (hjoin : ¬ IsJoin (event (historyStep poseidon o prover filter) stored call)) :
    NoticeKept o leave (log ++ [event (historyStep poseidon o prover filter) stored call])
      (historyStep poseidon o prover filter stored call).2 := by
  obtain ⟨tree, rfl, hserving, hconfirm⟩ := h
  cases happly : applyHistoryCall poseidon o prover filter (some tree) call with
  | error =>
    refine ⟨tree, by simp [historyStep, happly], hserving, ?_⟩
    rcases hconfirm with hunset | ⟨hnext, e, he, hise⟩
    · exact .inl hunset
    · exact .inr ⟨hnext, e, mem_append_left _ he, hise⟩
  | ok tree' =>
    have hresult : (event (historyStep poseidon o prover filter) (some tree) call).result =
        .ok () := by simp [historyStep, happly]
    obtain ⟨hkick, hreject⟩ := hquiet hresult
    cases hop : call.op with
    | join => exact absurd ⟨hresult, hop⟩ hjoin
    | kick => exact absurd hop hkick
    | filterOp op =>
      simp only [applyHistoryCall, hop] at happly
      have hne : op ≠ .reject := by
        intro heq
        exact hreject (by rw [event_input, hop, heq])
      obtain ⟨⟨ctx, hctx⟩, hserving', hnext⟩ := hserving.step hne happly
      refine ⟨tree', by simp [historyStep, applyHistoryCall, hop, happly], hserving',
        .inr ⟨hnext, _, mem_append_right _ mem_cons_self, hresult, ctx, ?_⟩⟩
      rw [event_input, hop, hctx]

theorem notice_kept_run (hserving : Serving leave tree) (hunset : Unconfirmed tree)
    {rest : List HistoryCall}
    (hquiet : ∀ e ∈ events (historyStep poseidon o prover filter) (some tree) rest,
      Undisturbed e ∧ ¬ IsJoin e) :
    NoticeKept o leave (events (historyStep poseidon o prover filter) (some tree) rest)
      (final (historyStep poseidon o prover filter) (some tree) rest) :=
  history_invariant _ (NoticeKept o leave) (fun e => Undisturbed e ∧ ¬ IsJoin e)
    ⟨tree, rfl, hserving, .inl hunset⟩ (fun _ _ _ h hok => notice_kept_step h hok.1 hok.2) rest
    hquiet

theorem NoticeKept.servesNotice (h : NoticeKept o leave log (some tree)) :
    ServesNotice o leave (∃ e ∈ log, IsConfirm e) tree := by
  obtain ⟨_, heq, hserving, hconfirm⟩ := h
  have heq := some.inj heq
  subst heq
  have hstatus : Unconfirmed tree ∨ ConfirmedInNextEpoch o leave tree := hconfirm.imp_right And.left
  constructor
  · intro g hg
    rw [hserving.effectiveStatusAt_eq hstatus, if_pos hg]
  · intro hnone g hg
    rcases hconfirm with hunset | ⟨-, hsome⟩
    · exact hserving.timing_ok hunset hg
    · exact absurd hsome hnone
  · intro g hg
    rw [hserving.effectiveStatusAt_eq hstatus, if_neg (by omega)]

/-- The leave serves its notice at every point of what follows it. -/
def NoticeServed (poseidon : Bytes → Bytes32) (o : Nat) (prover : Bytes32) (filter : Bytes)
    (leave : Frame) (left : VertexTree) (rest : List HistoryCall) : Prop :=
  ∀ front, front <+: rest →
    ∃ now, Run.final (historyStep poseidon o prover filter) (some left) front = some now ∧
      ServesNotice o leave
        (∃ e ∈ Run.events (historyStep poseidon o prover filter) (some left) front, IsConfirm e) now

/-- A notice that is served sees no join. -/
theorem NoticeServed.not_join {rest : List HistoryCall}
    (h : NoticeServed poseidon o prover filter leave tree rest)
    {e : Run.Event (Option VertexTree) HistoryCall (Result Unit)}
    (he : e ∈ Run.events (historyStep poseidon o prover filter) (some tree) rest) : ¬ IsJoin e := by
  rintro ⟨hresult, hop⟩
  obtain ⟨before, after, hrest, hevent⟩ := Run.mem_events _ he
  obtain ⟨now, hnow, hnotice⟩ := h (before ++ [e.input]) ⟨after, by simp [hrest]⟩
  rw [Run.final_append, Run.final, Run.final] at hnow
  rw [hevent, event_result] at hresult
  cases happly : applyHistoryCall poseidon o prover filter
      (Run.final (historyStep poseidon o prover filter) (some tree) before) e.input with
  | error => simp [historyStep, happly] at hresult
  | ok =>
    simp only [historyStep, happly, some.injEq] at hnow
    have hleaving := hnotice.leaving leave (Nat.le_succ _)
    rw [← hnow, created_of_join hop happly] at hleaving
    exact created_not_leaving hleaving

end Run

/-- **Which leaves serve their notice**, over any calls of which none rejects or kicks the
allocation: exactly those where the vertex records no confirm of an earlier leave and no join of the
filter is accepted afterwards. -/
theorem leave_serves_notice_iff {poseidon : Bytes → Bytes32} {o : Nat} {prover : Bytes32}
    {filter : Bytes} {history rest : List HistoryCall} {leave : Frame} {tree left : VertexTree}
    (hreached : Run.final (historyStep poseidon o prover filter) none history = some tree)
    (hframes : ∀ call ∈ history, call.frame ≤ leave)
    (haccepted : applyFilterOp o filter .leave tree leave = .ok left)
    (hquiet : ∀ e ∈ Run.events (historyStep poseidon o prover filter) (some left) rest,
      Undisturbed e) :
    NoticeServed poseidon o prover filter leave left rest ↔ Unconfirmed tree ∧
      ∀ e ∈ Run.events (historyStep poseidon o prover filter) (some left) rest, ¬ IsJoin e := by
  obtain ⟨hprover, hseen⟩ := grounded_history history tree hreached
  have hpos : 0 < leave.val := by
    obtain ⟨_, hs, -⟩ := bind_ok.mp haccepted
    have hbyte : tree.statusByte = some statusActive ∨ tree.statusByte = some statusPaused :=
      (ensure_ok.mp hs).imp (some_of_getD (by decide)) (some_of_getD (by decide))
    obtain ⟨e, he, _⟩ := hseen (hbyte.imp_right .inl)
    obtain ⟨_, _, heq, -⟩ := Run.mem_events _ he
    have hle : e.input.frame ≤ leave := hframes e.input (by rw [heq]; simp)
    have hle' : e.input.frame.val ≤ leave.val := hle
    omega
  obtain ⟨hserving, hleft⟩ := serving_of_leave hprover hpos haccepted
  have hsame : Unconfirmed left ↔ Unconfirmed tree := by
    unfold Unconfirmed
    rw [hleft]
  constructor
  · intro h
    refine ⟨?_, fun e he => h.not_join he⟩
    -- before anything follows the leave, its confirm must be possible
    obtain ⟨now, hnow, hnotice⟩ := h [] nil_prefix
    have heq : left = now := some.inj hnow
    subst heq
    have hfirst : epochForFrame o ((epochForFrame o leave + 1) * epochLengthFrames o) =
        epochForFrame o leave + 1 :=
      Nat.mul_div_cancel _ (epochLengthFrames_pos o)
    have htiming := hnotice.confirmable (fun ⟨e, he, _⟩ => by cases he) _ hfirst
    have hbyte := statusByte_of_read hserving.status
    rcases timing_cases htiming with ⟨hs, -⟩ | ⟨-, hunset, -⟩ | hs
    · rw [hbyte] at hs
      cases hs
    · exact hsame.mp hunset
    · rw [hbyte] at hs
      cases hs
  · rintro ⟨hunset, hjoins⟩ front ⟨back, rfl⟩
    have hkept : NoticeKept o leave
        (Run.events (historyStep poseidon o prover filter) (some left) front)
        (Run.final (historyStep poseidon o prover filter) (some left) front) := by
      refine notice_kept_run hserving (hsame.mpr hunset) fun e he => ?_
      have hmem : e ∈ Run.events (historyStep poseidon o prover filter) (some left)
          (front ++ back) := by
        rw [Run.events_append]
        exact mem_append_left _ he
      exact ⟨hquiet e hmem, hjoins e hmem⟩
    obtain ⟨now, hnow, -⟩ := id hkept
    rw [hnow] at hkept
    exact ⟨now, hnow, hkept.servesNotice⟩

/-- The vertex of a join at frame 1 confirmed at frame 720. -/
def confirmedVertex : VertexTree :=
  ((((joinedVertex.write .status [statusActive]).write .joinConfirmFrameNumber
    (beBytes 8 720)).write .lastActiveFrameNumber (beBytes 8 720)).write .epoch (beBytes 8 2))

/-- A first leave, at frame 1440, that is confirmed at 2160 serves its notice. -/
theorem first_leave_serves_notice : NoticeServed (fun _ => 0) 0 0 [7] 1440
    ((confirmedVertex.write .status [statusLeaving]).write .leaveFrameNumber (beBytes 8 1440))
    [⟨2160, .filterOp plainConfirm⟩] :=
  (@leave_serves_notice_iff (fun _ => 0) 0 0 [7] [⟨1, .join⟩, ⟨720, .filterOp plainConfirm⟩]
    [⟨2160, .filterOp plainConfirm⟩] 1440 confirmedVertex _ rfl (by decide)
    (bind_ok.mpr ⟨(), ensure_ok.mpr (.inl (by decide +kernel)), rfl⟩)
    (by simp [Run.events, Undisturbed, plainConfirm])).mpr
    ⟨by decide +kernel, by simp [Run.events, IsJoin]⟩

/-- The bundles of a leave that is confirmed and rejected in one bundle, up to
the re-confirm after it. -/
def confirmedThenRejectedBundles : List Bundle :=
  [⟨720, [plainConfirm]⟩, ⟨1440, [plainConfirm]⟩, ⟨1440, [.leave]⟩,
    ⟨2160, [plainConfirm, .reject]⟩, ⟨2160, [plainConfirm]⟩]

/-- The history those bundles make of a join at frame 1. -/
def confirmedThenRejectedHistory : List HistoryCall :=
  ⟨1, .join⟩ :: (bundleCalls confirmedThenRejectedBundles).map fun call =>
    ⟨call.frame, .filterOp call.op⟩

/-- **A leave without notice**: the allocation departs at the frame of the leave, and a confirm in
the next epoch is refused. -/
theorem second_leave_serves_no_notice :
    (applyBundles 0 [7] joinedVertex confirmedThenRejectedBundles).isOk = true ∧
      (event (historyStep (fun _ => 0) 0 0 [7])
        (final (historyStep (fun _ => 0) 0 0 [7]) none confirmedThenRejectedHistory)
        ⟨2880, .filterOp .leave⟩).result = .ok () ∧
      ∃ left, final (historyStep (fun _ => 0) 0 0 [7]) none
          (confirmedThenRejectedHistory ++ [⟨2880, .filterOp .leave⟩]) = some left ∧
        effectiveStatusAt 0 left 2880 = some .expiredLeaving ∧
        validateConfirmTiming 0 3600 left =
          .error (.invalidArgument "confirm: leave already confirmed") := by
  refine ⟨by decide +kernel, by decide +kernel, _, rfl, by decide +kernel, by decide +kernel⟩

end Global

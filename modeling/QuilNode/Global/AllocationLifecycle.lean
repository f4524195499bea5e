import QuilNode.Global.Allocation

/-!
# Departed allocations and served notices

Expiry is never written back.  What keeps a departed allocation departed is the timing check of
its confirms (`departed_not_timed`): a window that has closed never opens again.  Frame fields are
never cleared either, so a leave after a rejected one finds itself confirmed.
-/

namespace Global

open Results VertexTree EffectiveStatus List Option ProverAllocationInfo

section Status

variable {o f g : Nat} {tree : VertexTree}

theorem statusByte_of_read {byte : UInt8} (h : tree.read .status = some [byte]) :
    tree.statusByte = some byte := by
  simp [statusByte, h]

theorem effectiveStatusAt_of_read {byte : UInt8} (hprover : (tree.read .prover).getD [] ≠ [])
    (hstatus : tree.read .status = some [byte]) :
    effectiveStatusAt o tree f = some ((allocationInfo tree byte).effectiveStatus o f) := by
  rw [effectiveStatusAt, decodeAllocation, if_neg hprover, hstatus]
  rfl

theorem read_of_effectiveStatusAt {s : EffectiveStatus} (h : effectiveStatusAt o tree f = some s) :
    (tree.read .prover).getD [] ≠ [] ∧ ∃ byte, tree.read .status = some [byte] ∧
      s = (allocationInfo tree byte).effectiveStatus o f := by
  unfold effectiveStatusAt decodeAllocation at h
  split at h
  · cases h
  rename_i hprover
  split at h
  · rename_i byte hbyte
    exact ⟨hprover, byte, hbyte, (some.inj h).symm⟩
  · cases h

/-- The leave recorded on a vertex has run out by a frame. -/
def LeaveExpired (o : Nat) (tree : VertexTree) (f : Nat) : Prop :=
  (0 < tree.readU64 .leaveConfirmFrameNumber ∧
    epochForFrame o (tree.readU64 .leaveConfirmFrameNumber) + 1 ≤ epochForFrame o f) ∨
  (tree.readU64 .leaveConfirmFrameNumber = 0 ∧ 0 < tree.readU64 .leaveFrameNumber ∧
    epochForFrame o (tree.readU64 .leaveFrameNumber) + 1 < epochForFrame o f)

/-- The join recorded on a vertex has run out by a frame. -/
def JoinExpired (o : Nat) (tree : VertexTree) (f : Nat) : Prop :=
  0 < tree.readU64 .joinFrameNumber ∧
    epochForFrame o (tree.readU64 .joinFrameNumber) + 1 < epochForFrame o f

/-- An allocation's status is terminal in one of four ways. -/
theorem isTerminal_iff {byte : UInt8} :
    ((allocationInfo tree byte).effectiveStatus o f).isTerminal = true ↔
      byte = 4 ∨ byte = 5 ∨ (byte = 0 ∧ JoinExpired o tree f) ∨
        (byte = 3 ∧ LeaveExpired o tree f) := by
  unfold JoinExpired LeaveExpired
  by_cases h0 : byte = 0
  · subst h0
    by_cases hexp : 0 < tree.readU64 .joinFrameNumber ∧
        epochForFrame o (tree.readU64 .joinFrameNumber) + 1 < epochForFrame o f
    all_goals simp [effectiveStatus, allocationInfo, mapAllocationStatus, hexp, isTerminal]
  by_cases h1 : byte = 1
  · subst h1
    simp only [effectiveStatus, allocationInfo, mapAllocationStatus]
    split_ifs <;> simp_all [isTerminal]
  by_cases h3 : byte = 3
  · subst h3
    simp only [effectiveStatus, allocationInfo, mapAllocationStatus]
    split_ifs <;> simp_all [isTerminal] <;> omega
  · simp only [effectiveStatus, allocationInfo, mapAllocationStatus]
    split_ifs <;> simp_all [isTerminal]

/-- A vertex has departed in one of four ways. -/
theorem departedAt_iff : departedAt o tree f = true ↔
    (tree.read .prover).getD [] ≠ [] ∧ ∃ byte, tree.read .status = some [byte] ∧
      (byte = 4 ∨ byte = 5 ∨ (byte = 0 ∧ JoinExpired o tree f) ∨
        (byte = 3 ∧ LeaveExpired o tree f)) := by
  constructor
  · intro h
    obtain ⟨_, hs, hterm⟩ := (any_eq_true _ _).mp h
    obtain ⟨hprover, byte, hbyte, rfl⟩ := read_of_effectiveStatusAt hs
    exact ⟨hprover, byte, hbyte, isTerminal_iff.mp hterm⟩
  · rintro ⟨hprover, byte, hbyte, hcases⟩
    rw [departedAt, effectiveStatusAt_of_read hprover hbyte]
    exact isTerminal_iff.mpr hcases

/-- Time does not bring a departed allocation back. -/
theorem departedAt_mono (hfg : f ≤ g) (h : departedAt o tree f = true) :
    departedAt o tree g = true := by
  have hepoch := epochForFrame_mono o hfg
  obtain ⟨hprover, byte, hbyte, hcases⟩ := departedAt_iff.mp h
  refine departedAt_iff.mpr ⟨hprover, byte, hbyte, ?_⟩
  unfold JoinExpired LeaveExpired at hcases ⊢
  grind

theorem not_live_of_departed (h : departedAt o tree f = true) : liveAt o tree f = false := by
  unfold liveAt
  obtain ⟨s, _, _⟩ := (any_eq_true _ _).mp h
  cases s <;> simp_all [isTerminal, isLive]

end Status

section Timing

variable {o f frame : Nat} {tree : VertexTree}

theorem some_of_getD {x : Option UInt8} {d b : UInt8} (hd : d ≠ b) (h : x.getD d = b) :
    x = some b := by
  cases x with
  | none => exact absurd h hd
  | some => exact congrArg some h

/-- What a passed timing check says, by the byte it found. -/
theorem timing_cases (h : validateConfirmTiming o frame tree = .ok ()) :
    (tree.statusByte = some 0 ∧ ∃ j, u64Exact ((tree.read .joinFrameNumber).getD []) = some j ∧
      epochForFrame o frame = epochForFrame o j + 1) ∨
    (tree.statusByte = some 3 ∧ ((tree.read .leaveConfirmFrameNumber).getD [] = [] ∨
        (tree.read .leaveConfirmFrameNumber).getD [] = List.replicate 8 0) ∧
      ∃ l, u64Exact ((tree.read .leaveFrameNumber).getD []) = some l ∧
        epochForFrame o frame = epochForFrame o l + 1) ∨
    tree.statusByte = some 1 := by
  unfold validateConfirmTiming at h
  simp only at h
  split at h
  · rename_i hs
    obtain ⟨j, hj, h⟩ := okOr_bind.mp h
    exact .inl ⟨some_of_getD (by decide) hs, j, hj, ensure_ok.mp h⟩
  · split at h
    · rename_i hs
      obtain ⟨hconfirmed, h⟩ := ensure_bind.mp h
      obtain ⟨l, hl, h⟩ := okOr_bind.mp h
      exact .inr (.inl ⟨some_of_getD (by decide) hs, hconfirmed, l, hl, ensure_ok.mp h⟩)
    · split at h
      · rename_i hs
        exact .inr (.inr (some_of_getD (by decide) hs))
      · cases h

/-- The number of a field that holds eight bytes, or nothing. -/
theorem readU64_of_u64Exact {field : AllocationField} {n : Nat}
    (h : u64Exact ((tree.read field).getD []) = some n) : tree.readU64 field = n := by
  cases hread : tree.read field with
  | none =>
    rw [hread] at h
    simp [u64Exact] at h
  | some =>
    rw [hread] at h
    exact readU64_of_exact hread h

/-- An absent or zero field reads as zero. -/
theorem readU64_of_unset {field : AllocationField}
    (h : (tree.read field).getD [] = [] ∨ (tree.read field).getD [] = List.replicate 8 0) :
    tree.readU64 field = 0 := by
  unfold readU64
  cases hread : tree.read field with
  | none => rfl
  | some bytes =>
    rw [hread] at h
    rcases h with h | h
    · have hb : bytes = [] := h
      simp [hb]
    · have hb : bytes = replicate 8 0 := h
      rw [hb]
      decide

/-- No confirm or reject passes the timing check of an allocation that has departed. -/
theorem departed_not_timed (hframe : f ≤ frame) (hdeparted : departedAt o tree f = true) :
    validateConfirmTiming o frame tree ≠ .ok () := by
  intro h
  have hepoch := epochForFrame_mono o hframe
  obtain ⟨-, byte, hread, hcases⟩ := departedAt_iff.mp hdeparted
  have hbyte := statusByte_of_read hread
  unfold JoinExpired LeaveExpired at hcases
  rcases timing_cases h with ⟨hs, j, hj, heq⟩ | ⟨hs, hunset, l, hl, heq⟩ | hs
  · have hb : byte = 0 := some.inj (hbyte.symm.trans hs)
    have hjoin := readU64_of_u64Exact hj
    subst hb
    rcases hcases with h | h | ⟨-, hexp⟩ | ⟨h, -⟩
    · cases h
    · cases h
    · rw [hjoin] at hexp
      omega
    · cases h
  · have hb : byte = 3 := some.inj (hbyte.symm.trans hs)
    have hleave := readU64_of_u64Exact hl
    have hconfirm := readU64_of_unset hunset
    subst hb
    rcases hcases with h | h | ⟨h, -⟩ | ⟨-, hexp⟩
    · cases h
    · cases h
    · cases h
    · rw [hleave, hconfirm] at hexp
      omega
  · have hb : byte = 1 := some.inj (hbyte.symm.trans hs)
    subst hb
    rcases hcases with h | h | ⟨h, -⟩ | ⟨h, -⟩ <;> cases h

end Timing

/-- A filter operation and the frame it is executed at. -/
structure Call where
  frame : Frame
  op : FilterOp
  deriving DecidableEq

/-- One call: a refused operation leaves the vertex as it was. -/
def callStep (o : Nat) (filter : Bytes) (tree : VertexTree) (call : Call) :
    Result Unit × VertexTree :=
  match applyFilterOp o filter call.op tree call.frame with
  | .ok tree' => (.ok (), tree')
  | .error error => (.error error, tree)

/-- The operations of one bundle, all executed at its frame. -/
structure Bundle where
  frame : Frame
  ops : List FilterOp
  deriving DecidableEq

/-- The calls a list of bundles executes, in order. -/
def bundleCalls (bundles : List Bundle) : List Call :=
  bundles.flatMap fun b => b.ops.map fun op => ⟨b.frame, op⟩

/-- Bundles validated and executed one after the other. -/
def applyBundles (o : Nat) (filter : Bytes) (tree : VertexTree) (bundles : List Bundle) :
    Result VertexTree :=
  bundles.foldlM (fun current b => applyBundle o filter current b.frame b.ops) tree

/-- A reject of a leave stays in the window `validate_confirm_timing` sets. -/
def RejectInWindow (o : Nat) (e : Run.Event VertexTree Call (Result Unit)) : Prop :=
  e.input.op = .reject → e.before.statusByte = some statusLeaving →
    validateConfirmTiming o e.input.frame e.before = .ok ()

instance (o : Nat) (e : Run.Event VertexTree Call (Result Unit)) : Decidable (RejectInWindow o e) :=
  inferInstanceAs (Decidable (_ → _ → _ = _))

section Departed

variable {o f frame : Nat} {filter : Bytes} {tree tree' : VertexTree}

theorem statusByte_of_departed (h : departedAt o tree f = true) :
    tree.statusByte = some 4 ∨ tree.statusByte = some 5 ∨ tree.statusByte = some 0 ∨
      tree.statusByte = some 3 := by
  obtain ⟨-, _, hread, _⟩ := departedAt_iff.mp h
  rw [statusByte_of_read hread]
  grind

/-- A join is rejected by overwriting its byte with a terminal one. -/
theorem departed_of_rejected_join (hprover : (tree.read .prover).getD [] ≠ []) :
    departedAt o ((tree.write .status [statusKicked]).write .joinRejectFrameNumber
      (beBytes 8 frame)) f = true := by
  refine departedAt_iff.mpr ⟨?_, 4, ?_, .inl rfl⟩
  · simpa [read_write] using hprover
  · simp [read_write, statusKicked]

/-- **One operation on a departed allocation** leaves it departed, a reject of a leave outside its
window excepted. -/
theorem departed_step (hframe : f ≤ frame) (hdeparted : departedAt o tree f = true) {op : FilterOp}
    (htimed : op = .reject → tree.statusByte = some statusLeaving →
      validateConfirmTiming o frame tree = .ok ())
    (h : applyFilterOp o filter op tree frame = .ok tree') : departedAt o tree' f = true := by
  have hbyte := statusByte_of_departed hdeparted
  have hnot := departed_not_timed hframe hdeparted
  cases op with
  | pause =>
    obtain ⟨_, hactive, -⟩ := bind_ok.mp h
    rcases hbyte with hb | hb | hb | hb <;> rw [hb] at hactive <;> cases hactive
  | resume =>
    obtain ⟨_, hpaused, -⟩ := bind_ok.mp h
    rcases hbyte with hb | hb | hb | hb <;> rw [hb] at hpaused <;> cases hpaused
  | leave =>
    obtain ⟨_, hserving, -⟩ := bind_ok.mp h
    rcases hbyte with hb | hb | hb | hb <;> rw [hb] at hserving <;>
      obtain hs | hs := hserving
  | confirm =>
    obtain ⟨_, htiming, -⟩ := bind_ok.mp h
    exact absurd htiming hnot
  | reject =>
    obtain ⟨hprover, -⟩ := departedAt_iff.mp hdeparted
    unfold applyFilterOp materializeProverReject at h
    rcases hbyte with hb | hb | hb | hb <;> rw [hb] at h
    · cases h
    · cases h
    · rw [← pure_ok.mp h]
      exact departed_of_rejected_join hprover
    · exact absurd (htimed rfl hb) hnot

theorem departed_run {calls : List Call} (hdeparted : departedAt o tree f = true)
    (hframes : ∀ c ∈ calls, f ≤ c.frame)
    (htimed : ∀ e ∈ Run.events (callStep o filter) tree calls, RejectInWindow o e) :
    departedAt o (Run.final (callStep o filter) tree calls) f = true := by
  induction calls generalizing tree with
  | nil => exact hdeparted
  | cons call calls ih =>
    have hnow := htimed _ mem_cons_self
    have hnext : departedAt o (callStep o filter tree call).2 f = true := by
      unfold callStep
      cases happly : applyFilterOp o filter call.op tree call.frame with
      | ok => exact departed_step (hframes call mem_cons_self) hdeparted hnow happly
      | error => exact hdeparted
    exact ih hnext (fun c hc => hframes c (mem_cons_of_mem _ hc))
      (fun e he => htimed e (mem_cons_of_mem _ he))

end Departed

/-- **Departed allocations stay departed**, as long as each reject of a leave is executed inside its
window. -/
theorem departed_stays_departed {o : Nat} {poseidon : Bytes → Bytes32} {prover : Bytes32}
    {filter : Bytes} {joined : Frame} {earlier later : List Call} {f g : Nat}
    (hdeparted : departedAt o (Run.final (callStep o filter)
      (createAllocationVertexTree poseidon prover filter joined) earlier) f = true)
    (hlater : ∀ c ∈ later, f ≤ c.frame)
    (htimed : ∀ e ∈ Run.events (callStep o filter) (Run.final (callStep o filter)
      (createAllocationVertexTree poseidon prover filter joined) earlier) later,
      RejectInWindow o e)
    (hg : f ≤ g) :
    liveAt o (Run.final (callStep o filter)
      (createAllocationVertexTree poseidon prover filter joined) (earlier ++ later)) g = false := by
  rw [Run.final_append]
  exact not_live_of_departed (departedAt_mono hg (departed_run hdeparted hlater htimed))

/-- A confirm on a registered grid, with no registry, release or ring rule. -/
def plainConfirm : FilterOp := .confirm ⟨true, false, none, none, none⟩

/-- The vertex of a join for the filter `[7]` at frame 1. -/
def joinedVertex : VertexTree := createAllocationVertexTree (fun _ => 0) 0 [7] 1

/-- A leave proposed in epoch 2 and never confirmed has departed by epoch 4;
what is tried then changes nothing. -/
theorem unconfirmed_leave_stays_departed : liveAt 0 (Run.final (callStep 0 [7]) joinedVertex
      (([⟨720, plainConfirm⟩, ⟨1440, .leave⟩] : List Call) ++
        [⟨2880, .pause⟩, ⟨2881, plainConfirm⟩, ⟨2882, .leave⟩])) 5000 = false :=
  @departed_stays_departed 0 (fun _ => 0) 0 [7] 1 _ _ 2880 5000
    (by decide +kernel) (by decide +kernel) (by decide +kernel) (by decide)

/-- A leave confirmed and rejected in one bundle, and a second leave rejected in the bundle that
makes it. -/
def rejectedLeaveBundles : List Bundle :=
  [⟨720, [plainConfirm]⟩, ⟨1440, [plainConfirm]⟩, ⟨1440, [.leave]⟩,
    ⟨2160, [plainConfirm, .reject]⟩, ⟨2160, [plainConfirm]⟩, ⟨2880, [.leave, .reject]⟩]

/-- **A departed allocation that comes back**: the second leave departs at once, and the reject
behind it makes the allocation live again at the same frame. -/
theorem rejected_leave_revives_departed :
    (applyBundles 0 [7] joinedVertex rejectedLeaveBundles).isOk = true ∧
      ∃ earlier, bundleCalls rejectedLeaveBundles = earlier ++ [⟨2880, .reject⟩] ∧
        effectiveStatusAt 0 (Run.final (callStep 0 [7]) joinedVertex earlier) 2880 =
          some .expiredLeaving ∧
        liveAt 0 (Run.final (callStep 0 [7]) joinedVertex (earlier ++ [⟨2880, .reject⟩])) 2880 =
          true :=
  ⟨by decide +kernel,
    [⟨720, plainConfirm⟩, ⟨1440, plainConfirm⟩, ⟨1440, .leave⟩, ⟨2160, plainConfirm⟩,
      ⟨2160, .reject⟩, ⟨2160, plainConfirm⟩, ⟨2880, .leave⟩],
    by decide +kernel, by decide +kernel, by decide +kernel⟩

end Global

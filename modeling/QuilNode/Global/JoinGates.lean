import QuilNode.Global.Seniority

/-!
# The gates of a join, at validation and at execution

Whether a prover was kicked, and whether it still holds an allocation of a filter it asks for, is
asked at validation and again at execution.  Validation looks for a kick frame under an
allocation's key first, asks about allocations also without a prover vertex, and refuses one
without a readable join frame; execution's sum of a join frame and the window wraps.
`join_gates_agree_iff` says when this makes no difference.
-/

namespace Global

open Results Option

/-- The kicked-prover and existing-allocation gates of `validateJoin`. -/
def validationJoinGates (env : GlobalEnv) (s : GlobalState) (frame : Nat) (op : ProverJoin) :
    Result Unit := do
  let pubkey := joinPublicKey op
  let _ ← (match s.vertices (proverAddressFromPubkey env pubkey) with
    | none => pure ()
    | some prover => verifyProverJoinNotKicked env prover frame : Result Unit)
  verifyProverJoinAllocationsExpired env s op pubkey frame

/-- The same gates inside `invokeJoin`. -/
def executionJoinGates (env : GlobalEnv) (s : GlobalState) (frame : Nat) (op : ProverJoin) :
    Result Unit :=
  joinStateGate env s (joinPublicKey op) frame op.filters

/-- A stored kick frame bars a join. -/
def barredBy (env : GlobalEnv) (frame : Nat) (stored : Option Bytes) : Bool :=
  (stored.bind u64Exact).any fun kick => kickBarsRejoin env kick frame

/-- The kick frame validation reads of a prover. -/
def validatedKick (prover : VertexTree) : Option Bytes :=
  (prover AllocationField.kickFrameNumber.key).or (prover ProverField.kickFrameNumber.key)

/-- An allocation whose status alone admits a new join. -/
abbrev VertexTree.Rejoinable (tree : VertexTree) : Prop :=
  tree.statusByte.getD 4 = 4 ∨ tree.statusByte.getD 4 = statusHistoric

/-- The join frame of an allocation, where it is eight bytes. -/
def VertexTree.joinFrame? (tree : VertexTree) : Option Nat :=
  (tree.read .joinFrameNumber).bind u64Exact

section Gates

variable {env : GlobalEnv} {s : GlobalState} {frame : Nat} {op : ProverJoin} {tree : VertexTree}

theorem verifyProverJoinNotKicked_ok {prover : VertexTree} :
    verifyProverJoinNotKicked env prover frame = .ok () ↔
      barredBy env frame (validatedKick prover) = false := by
  unfold verifyProverJoinNotKicked barredBy validatedKick
  dsimp only
  cases ((prover AllocationField.kickFrameNumber.key).or
    (prover ProverField.kickFrameNumber.key)).bind u64Exact with
  | none => simp [pure_ok]
  | some => simp [ensure_ok]

theorem verifyAllocationExpired_ok : verifyAllocationExpired frame tree = .ok () ↔ tree.Rejoinable ∨
      ∃ joined, tree.joinFrame? = some joined ∧
        min (joined + rejoinWindowFrames) (2 ^ 64 - 1) ≤ frame := by
  unfold verifyAllocationExpired
  by_cases hstatus : tree.Rejoinable
  · simp [hstatus, pure_ok]
  rw [if_neg hstatus]
  simp only [bind_ok, okOr_ok, ensure_ok, hstatus, false_or, VertexTree.joinFrame?,
    bind_eq_some_iff]
  constructor
  · rintro ⟨bytes, hread, joined, hexact, hover⟩
    exact ⟨joined, ⟨bytes, hread, hexact⟩, hover⟩
  · rintro ⟨joined, ⟨bytes, hread, hexact⟩, hover⟩
    exact ⟨bytes, hread, joined, hexact, hover⟩

theorem joinAllocationGate_ok : joinAllocationGate frame tree = .ok () ↔ tree.Rejoinable ∨
      ∀ joined, tree.joinFrame? = some joined → (joined + rejoinWindowFrames) % 2 ^ 64 ≤ frame := by
  have hread : u64Exact ((tree.read .joinFrameNumber).getD []) = tree.joinFrame? := by
    unfold VertexTree.joinFrame?
    cases tree.read .joinFrameNumber with
    | none => rfl
    | some => rfl
  unfold joinAllocationGate
  by_cases hstatus : tree.Rejoinable
  · simp [hstatus, pure_ok]
  rw [if_neg hstatus, hread]
  cases tree.joinFrame? with
  | none => simp [pure_ok]
  | some => simp [ensure_ok, hstatus, rejoinWindowFrames]

/-- The stored allocations of a key pass a gate. -/
def AllocationsPass (env : GlobalEnv) (s : GlobalState) (op : ProverJoin)
    (gate : VertexTree → Result Unit) : Prop :=
  ∀ filter ∈ op.filters, ∀ tree,
    s.vertices (allocationAddress env (joinPublicKey op) filter) = some tree → gate tree = .ok ()

theorem verifyProverJoinAllocationsExpired_ok :
    verifyProverJoinAllocationsExpired env s op (joinPublicKey op) frame = .ok () ↔
      AllocationsPass env s op (verifyAllocationExpired frame) := by
  unfold verifyProverJoinAllocationsExpired AllocationsPass
  simp only [bind_ok, pure_ok, and_true, mapM_unit_ok]
  refine forall₂_congr fun filter _ => ?_
  cases s.vertices (allocationAddress env (joinPublicKey op) filter) with
  | none => simp [pure_ok]
  | some => simp

theorem validationJoinGates_ok : validationJoinGates env s frame op = .ok () ↔
      (s.vertices (proverAddressFromPubkey env (joinPublicKey op))).any
        (fun prover => barredBy env frame (validatedKick prover)) = false ∧
      AllocationsPass env s op (verifyAllocationExpired frame) := by
  unfold validationJoinGates
  simp only [bind_ok, verifyProverJoinAllocationsExpired_ok, exists_and_right]
  refine and_congr_left fun _ => ?_
  cases s.vertices (proverAddressFromPubkey env (joinPublicKey op)) with
  | none => simp [pure_ok]
  | some =>
    rw [any_some, ← verifyProverJoinNotKicked_ok]
    exact ⟨fun ⟨_, h⟩ => h, fun h => ⟨(), h⟩⟩

theorem executionJoinGates_ok : executionJoinGates env s frame op = .ok () ↔
      ∀ prover, s.vertices (proverAddressFromPubkey env (joinPublicKey op)) = some prover →
        barredBy env frame (prover ProverField.kickFrameNumber.key) = false ∧
          AllocationsPass env s op (joinAllocationGate frame) := by
  unfold executionJoinGates joinStateGate
  cases s.vertices (proverAddressFromPubkey env (joinPublicKey op)) with
  | none => simp [pure_ok]
  | some =>
    simp only [bind_ok, ensure_ok, pure_ok, and_true, mapM_unit_ok, exists_const,
      some.injEq, forall_eq']
    refine and_congr_right fun _ => forall₂_congr fun filter _ => ?_
    cases s.vertices (allocationAddress env (joinPublicKey op) filter) with
    | none => simp [pure_ok]
    | some => simp

end Gates

/-- It may be joined again, or its join frame is readable and its window over for both or, with a
prover that execution looks at, for neither. -/
def ReadAlike (known : Bool) (frame : Nat) (tree : VertexTree) : Prop :=
  tree.Rejoinable ∨ ∃ joined, tree.joinFrame? = some joined ∧
    (min (joined + rejoinWindowFrames) (2 ^ 64 - 1) ≤ frame ∨
      known = true ∧ frame < (joined + rejoinWindowFrames) % 2 ^ 64)

/-- What validation lets pass, execution lets pass. -/
theorem joinAllocationGate_of_verified {frame : Nat} {tree : VertexTree}
    (h : verifyAllocationExpired frame tree = .ok ()) : joinAllocationGate frame tree = .ok () := by
  rw [joinAllocationGate_ok]
  refine (verifyAllocationExpired_ok.mp h).imp_right ?_
  rintro ⟨joined, hjoined, hover⟩ other hother
  obtain rfl := some.inj (hjoined.symm.trans hother)
  omega

theorem readAlike_iff {known : Bool} {frame : Nat} {tree : VertexTree} :
    ReadAlike known frame tree ↔ verifyAllocationExpired frame tree = .ok () ∨
      known = true ∧ joinAllocationGate frame tree ≠ .ok () := by
  rw [verifyAllocationExpired_ok, Ne, joinAllocationGate_ok]
  unfold ReadAlike
  by_cases hstatus : tree.Rejoinable
  · simp [hstatus]
  simp only [hstatus, false_or]
  cases tree.joinFrame? with
  | none => simp
  | some => simp

/-- **Which stored vertices both gates read alike**: those where both read the key's kick alike and,
unless both bar it, every allocation stored for the key. -/
theorem join_gates_agree_iff (env : GlobalEnv) (s : GlobalState) (pubkey : Bytes) (frame : Nat) :
    (∀ op, joinPublicKey op = pubkey → (validationJoinGates env s frame op = .ok () ↔
      executionJoinGates env s frame op = .ok ())) ↔
    (let prover := s.vertices (proverAddressFromPubkey env pubkey)
     let barred := prover.any fun tree => barredBy env frame (tree ProverField.kickFrameNumber.key)
     (prover.any fun tree => barredBy env frame (validatedKick tree)) = barred ∧
      (barred = false → ∀ filter tree,
        s.vertices (allocationAddress env pubkey filter) = some tree →
          ReadAlike prover.isSome frame tree)) := by
  simp only [validationJoinGates_ok, executionJoinGates_ok]
  constructor
  · intro h
    -- a join of no filter compares the kick frames, a join of one filter its allocation
    have hop := fun filters => h ⟨filters, 0, some ⟨[], some pubkey, []⟩, [], [], []⟩ rfl
    have hnone := hop []
    have hone := fun filter => hop [filter]
    simp only [AllocationsPass, joinPublicKey, bind_some, getD_some,
      List.mem_singleton, forall_eq, List.not_mem_nil, false_imp_iff, implies_true,
      and_true] at hnone hone
    cases hprover : s.vertices (proverAddressFromPubkey env pubkey) with
    | none =>
      refine ⟨rfl, fun _ filter tree htree => readAlike_iff.mpr (.inl ?_)⟩
      have hverified := (hone filter).mpr (by simp [hprover])
      exact hverified.2 tree htree
    | some =>
      simp only [hprover, any_some, some.injEq, forall_eq'] at hnone hone ⊢
      refine ⟨Bool.eq_iff_iff.mpr (by simpa using not_congr hnone), fun hfree filter tree htree => ?_⟩
      have hgate := hone filter
      simp only [hnone.mpr hfree, hfree, htree, some.injEq, forall_eq', true_and] at hgate
      rw [readAlike_iff, hgate]
      exact (em _).imp_right fun hbar => ⟨rfl, hbar⟩
  · rintro ⟨hkick, halike⟩ op rfl
    cases hprover : s.vertices (proverAddressFromPubkey env (joinPublicKey op)) with
    | none =>
      simp only [hprover, any_none, true_imp_iff] at halike
      simp only [any_none, true_and]
      refine iff_of_true (fun filter _ tree htree => ?_) (by simp)
      have hread := readAlike_iff.mp (halike filter tree htree)
      simpa using hread
    | some =>
      simp only [hprover, any_some, isSome_some] at hkick halike
      simp only [any_some, some.injEq, forall_eq', hkick]
      refine and_congr_right fun hfree => forall₄_congr fun filter _ tree htree => ?_
      have hread := readAlike_iff.mp (halike hfree filter tree htree)
      refine ⟨joinAllocationGate_of_verified, fun hgate => ?_⟩
      exact hread.resolve_right fun hbar => hbar.2 hgate

/-- An active allocation without a join frame. -/
def framelessAllocation : VertexTree := VertexTree.new.write .status [statusActive]

/-- **A join the two gates disagree on**: an active allocation without a join frame is refused at
validation and let through at execution. -/
theorem frameless_allocation_divides_gates :
    validationJoinGates plainEnv (stateWith framelessAllocation) 5000 (plainJoin 5000) =
        .error (.invalidArgument ("ProverJoin verify: existing allocation for filter is active " ++
          "(status=1) with no JoinFrameNumber — refusing to rejoin")) ∧
      executionJoinGates plainEnv (stateWith framelessAllocation) 5000 (plainJoin 5000) =
        .ok () := by
  refine ⟨by decide +kernel, by decide +kernel⟩

end Global

import QuilNode.Global.ProverJoin

/-!
# Legacy seniority

A legacy key hands its seniority to a prover as a merge target of the prover's join.  The join
stamps a marker for the key, and a join skips a key whose marker another prover holds.

A second way, `ProverSeniorityMerge`, is closed: the dispatcher looks for the prefix `0x0310` and
then parses a message that must start with `0x031a`.  So every accepted operation is a join, and a
key is credited to one prover (`seniority_credited_once`).
-/

namespace Global

open Results List GlobalState Run Option ProverField

/-- `ProverSeniorityMerge`; an address of another length than 32 is refused. -/
structure ProverSeniorityMerge where
  frameNumber : Frame
  /-- The signature and the address of its prover. -/
  addressedSignature : Option (Bytes × Bytes32)
  mergeTargets : List SeniorityMerge
  deriving DecidableEq

section Operations

variable (env : GlobalEnv)

/-- The bytes hashed to a key's `PROVER_SENIORITY_MERGE` marker. -/
def seniorityMarkerPreimage (key : Bytes) : Bytes := asciiBytes "PROVER_SENIORITY_MERGE" ++ key

/-- `spent_seniority_merge_address`. -/
def spentSeniorityMergeAddress (key : Bytes) : Bytes32 :=
  env.poseidon (seniorityMarkerPreimage key)

/-- `validate_prover_join_structural`: the public key of a well-formed join. -/
def validateProverJoinStructural (op : ProverJoin) (currentFrame : Nat) : Result Bytes := do
  let _ ← op.filters.zipIdx.mapM fun (filter, i) =>
    ensure (32 ≤ filter.length) (.invalidArgument
      s!"prover join: filter {i} is {filter.length} bytes (min 32)")
  ensure (currentFrame ≤ op.frameNumber.val + 10) (.invalidArgument
    s!"prover join: request frame {op.frameNumber.val} is too old (current {currentFrame})")
  let sig ← okOr op.publicKeySignature
    (.invalidArgument "prover join: missing signature with PoP")
  let pubkey ← okOr sig.publicKey
    (.invalidArgument "prover join: signature has no public key")
  ensure (pubkey ≠ []) (.invalidArgument "prover join: empty public key")
  pure pubkey

/-- `verify_prover_join_not_kicked`: the kick frame is read under the key of an allocation's, then
of a prover's. -/
def verifyProverJoinNotKicked (prover : VertexTree) (currentFrame : Nat) : Result Unit :=
  let bytes := (prover AllocationField.kickFrameNumber.key).or
    (prover ProverField.kickFrameNumber.key)
  match bytes.bind u64Exact with
  | none => pure ()
  | some kick => ensure (kickBarsRejoin env kick currentFrame = false) (.invalidArgument
      s!"ProverJoin verify: prover has been previously kicked (KickFrameNumber={kick})")

/-- `validate` of a join, against the committed state. -/
def validateJoin (s : GlobalState) (frame : Nat) (op : ProverJoin) : Result Bool := do
  let pubkey ← validateProverJoinStructural op frame
  let signed ← verifyProverJoinKeySignatures env op pubkey
  if signed = false then pure false
  else do
    let _ ← (match s.vertices (proverAddressFromPubkey env pubkey) with
      | none => pure ()
      | some prover => verifyProverJoinNotKicked env prover frame : Result Unit)
    let _ ← verifyProverJoinAllocationsExpired env s op pubkey frame
    verifyProverJoinMergeSignatures env op pubkey

/-- `verify_prover_seniority_merge`, against the prover's vertex. -/
def verifyProverSeniorityMerge (op : ProverSeniorityMerge) (prover : VertexTree)
    (currentFrame : Nat) : Result Bool := do
  ensure (op.mergeTargets ≠ [])
    (.invalidArgument "prover seniority merge: no merge targets")
  let sig ← okOr op.addressedSignature
    (.invalidArgument "prover seniority merge: missing signature")
  ensure (currentFrame ≤ op.frameNumber.val + 10)
    (.invalidArgument "prover seniority merge: outdated request")
  ensure (prover typeKey = some (computeTypeHash env.poseidon .prover))
    (.invalidArgument "prover seniority merge: expected prover:Prover")
  let pubkey ← okOr (prover ProverField.publicKey.key)
    (.invalidArgument "prover seniority merge: no PublicKey")
  if proverAddressFromPubkey env pubkey ≠ sig.2 then pure false
  else do
    let targets ← verifyMergeTargets env "prover seniority merge"
      (asciiBytes "PROVER_SENIORITY_MERGE") pubkey op.mergeTargets
    if targets = false then pure false
    else
      env.keyManager.validateSignature .falcon512 pubkey
        (putU64 op.frameNumber ++ op.mergeTargets.flatMap SeniorityMerge.proverPublicKey) sig.1
        (env.poseidon (globalIntrinsicAddress ++ asciiBytes "PROVER_SENIORITY_MERGE")).bytes

/-- `verify_prover_seniority_merge_spent_markers`. -/
def verifySpentMarkers (s : GlobalState) (op : ProverSeniorityMerge) : Result Unit := do
  let _ ← op.mergeTargets.mapM fun target => do
    ensure (s.vertices (spentJoinMergeAddress env target.proverPublicKey) = none)
      (.invalidArgument "ProverSeniorityMerge verify: merge target already consumed (PROVER_JOIN_MERGE tombstone)")
    ensure (s.vertices (spentSeniorityMergeAddress env target.proverPublicKey) = none)
      (.invalidArgument "ProverSeniorityMerge verify: merge target already consumed (PROVER_SENIORITY_MERGE tombstone)")
  pure ()

/-- The prover a seniority merge is addressed to. -/
def ProverSeniorityMerge.prover (op : ProverSeniorityMerge) : Option Bytes32 :=
  op.addressedSignature.map Prod.snd

/-- `validate` of a seniority merge, against the committed state. -/
def validateSeniorityMerge (s : GlobalState) (frame : Nat) (op : ProverSeniorityMerge) :
    Result Bool := do
  let prover ← okOr (op.prover.bind s.vertices) (.invalidArgument
    "ProverSeniorityMerge: prover tree unavailable — cannot verify signature")
  let signed ← verifyProverSeniorityMerge env op prover frame
  if signed = false then pure false
  else do
    let _ ← verifySpentMarkers env s op
    pure true

/-- The legacy keys a seniority merge counts. -/
def mergeCountedKeys (targets : List SeniorityMerge) : List Bytes :=
  (targets.filter SeniorityMerge.isLegacyPeer).map SeniorityMerge.proverPublicKey

/-- The prover vertex of `materialize_seniority_merge`. -/
def addSeniority (prover : VertexTree) (merged : Nat) : VertexTree :=
  prover.insert ProverField.seniority.key
    (beBytes 8 (min (readSeniority prover + merged) (2 ^ 64 - 1)))

/-- `invoke_seniority_merge`. -/
def invokeSeniorityMerge (frame : Nat) (op : ProverSeniorityMerge) (s : GlobalState) :
    Result GlobalState := do
  ensure (op.mergeTargets ≠ [])
    (.invalidArgument "invoke_step seniority_merge: no merge targets")
  let addr ← okOr op.prover
    (.invalidArgument "invoke_step seniority_merge: address too short")
  let prover ← okOr (s.vertices addr)
    (.invalidArgument "invoke_step seniority_merge: prover not found")
  let verified ← verifyProverSeniorityMerge env op prover frame
  ensure (verified = true)
    (.invalidArgument "invoke_step seniority_merge: signature verification failed")
  let merged := seniorityOf env (mergeCountedKeys op.mergeTargets)
  let written := s.setVertex addr (addSeniority prover merged)
  pure (op.mergeTargets.foldl (fun s target => stampMarker env addr
    (spentSeniorityMergeAddress env target.proverPublicKey) s) written)

end Operations

/-! ## Messages -/

/-- The messages that carry legacy keys, decoded. -/
inductive ProverMessage where
  | proverJoin (op : ProverJoin)
  | proverSeniorityMerge (op : ProverSeniorityMerge)
  /-- A merge target on its own. -/
  | seniorityMerge (op : SeniorityMerge)

/-- `TYPE_PROVER_JOIN`. -/
def typeProverJoin : Nat := 0x0301

/-- `TYPE_SENIORITY_MERGE`. -/
def typeSeniorityMerge : Nat := 0x0310

/-- `TYPE_PROVER_SENIORITY_MERGE`. -/
def typeProverSeniorityMerge : Nat := 0x031A

/-- The prefix a message starts with. -/
def ProverMessage.typePrefix : ProverMessage → Nat
  | .proverJoin _ => typeProverJoin
  | .proverSeniorityMerge _ => typeProverSeniorityMerge
  | .seniorityMerge _ => typeSeniorityMerge

/-- A prefix as the errors print it. -/
def hexPrefix (typePrefix : Nat) : String := "0x" ++ hexEncode (beBytes 4 typePrefix)

/-- `ProverJoin::from_canonical_bytes`. -/
def parseProverJoin : ProverMessage → Result ProverJoin
  | .proverJoin op => pure op
  | m => .error (.invalidArgument s!"ProverJoin: invalid type prefix {hexPrefix m.typePrefix}")

/-- `ProverSeniorityMerge::from_canonical_bytes`. -/
def parseProverSeniorityMerge : ProverMessage → Result ProverSeniorityMerge
  | .proverSeniorityMerge op => pure op
  | m => .error (.invalidArgument s!"ProverSeniorityMerge: bad type {hexPrefix m.typePrefix}")

/-- `validate` of the messages that carry legacy keys. -/
def validate (env : GlobalEnv) (s : GlobalState) (frame : Nat) (m : ProverMessage) : Result Bool :=
  if m.typePrefix = typeProverJoin then do
    let op ← parseProverJoin m
    validateJoin env s frame op
  else if m.typePrefix = typeSeniorityMerge then do
    let op ← parseProverSeniorityMerge m
    validateSeniorityMerge env s frame op
  else
    .error (.invalidArgument
      s!"global intrinsic: unknown type prefix {hexPrefix m.typePrefix}")

/-- `invoke_step` of the same messages. -/
def invokeStep (env : GlobalEnv) (grid : Option GridView) (frame : Nat) (m : ProverMessage)
    (s : GlobalState) : Result GlobalState :=
  if m.typePrefix = typeProverJoin then do
    let op ← parseProverJoin m
    invokeJoin env grid frame op s
  else if m.typePrefix = typeSeniorityMerge then do
    let op ← parseProverSeniorityMerge m
    invokeSeniorityMerge env frame op s
  else
    .error (.invalidArgument
      s!"global intrinsic invoke_step: unknown type prefix {hexPrefix m.typePrefix}")

/-- What `invoke_step` executes is a join. -/
theorem invokeStep_ok {env : GlobalEnv} {grid : Option GridView} {frame : Nat} {m : ProverMessage}
    {s s' : GlobalState} (h : invokeStep env grid frame m s = .ok s') :
    ∃ op, m = .proverJoin op ∧ invokeJoin env grid frame op s = .ok s' := by
  cases m with
  | proverJoin op => exact ⟨op, rfl, h⟩
  | proverSeniorityMerge => cases h
  | seniorityMerge => cases h

/-! ## Runs -/

/-- A message, the frame that includes it and the grid it finds. -/
structure ProverCall where
  frame : Frame
  grid : Option GridView
  message : ProverMessage

/-- `validate` and then `invoke_step`. -/
def applyProverCall (env : GlobalEnv) (s : GlobalState) (call : ProverCall) :
    Result GlobalState := do
  let valid ← validate env s call.frame call.message
  ensure (valid = true) (.invalidArgument "global: signature verification failed")
  invokeStep env call.grid call.frame call.message s

/-- One operation, committed where it is accepted. -/
def proverStep (env : GlobalEnv) (s : GlobalState) (call : ProverCall) :
    Result Unit × GlobalState :=
  match applyProverCall env s call with
  | .ok s' => (.ok (), s')
  | .error error => (.error error, s)

/-- A step of a run. -/
abbrev ProverEvent := Run.Event GlobalState ProverCall (Result Unit)

/-- The operation was accepted. -/
def Accepted (e : ProverEvent) : Prop := e.result = .ok ()

/-- The prover of an operation. -/
def eventProver (env : GlobalEnv) (e : ProverEvent) : Option Bytes32 :=
  match e.input.message with
  | .proverJoin op => some (proverAddressFromPubkey env (joinPublicKey op))
  | .proverSeniorityMerge op => op.prover
  | .seniorityMerge _ => none

/-- The legacy keys an operation counts. -/
def countedKeys (env : GlobalEnv) (e : ProverEvent) : List Bytes :=
  match e.input.message with
  | .proverJoin op => joinCountedKeys env e.before (proverAddressFromPubkey env (joinPublicKey op))
      op.mergeTargets
  | .proverSeniorityMerge op => mergeCountedKeys op.mergeTargets
  | .seniorityMerge _ => []

/-- What an operation hashes to an address; the parsers of the other messages hash nothing. -/
def hashedInputs (env : GlobalEnv) (e : ProverEvent) : List Bytes :=
  match e.input.message with
  | .proverJoin op => joinPublicKey op ::
      rewardPreimage (proverAddressFromPubkey env (joinPublicKey op)) ::
      op.filters.map (allocationPreimage (joinPublicKey op)) ++
      op.mergeTargets.map (fun t => joinMarkerPreimage t.proverPublicKey)
  | _ => []

/-- The hash is collision-free on what the operations of a run hash. -/
def CollisionFree (env : GlobalEnv) (events : List ProverEvent) : Prop :=
  ∀ e ∈ events, ∀ e' ∈ events, ∀ x ∈ hashedInputs env e, ∀ y ∈ hashedInputs env e',
    env.poseidon x = env.poseidon y → x = y

/-! ## Markers -/

section Markers

variable {env : GlobalEnv} {s s' : GlobalState} {prover a : Bytes32} {stamps : List Bytes32}
  {targets : List SeniorityMerge} {filters : List Bytes} {pubkey : Bytes} {frame : Nat}

/-- A prover's address is stamped on the marker. -/
def Stamped (s : GlobalState) (a : Bytes32) : Bool :=
  (markerHolder s a).any fun holder => holder.length == 32

theorem markerHolder_congr (h : s'.vertices a = s.vertices a) :
    markerHolder s' a = markerHolder s a := by
  unfold markerHolder
  rw [h]

theorem stamped_congr (h : markerHolder s' a = markerHolder s a) : Stamped s' a = Stamped s a := by
  unfold Stamped
  rw [h]

/-- A marker among `stamps` names the prover afterwards, where nobody had stamped it. -/
def StampedFor (prover : Bytes32) (stamps : List Bytes32) (s s' : GlobalState) (a : Bytes32) :
    Prop :=
  markerHolder s' a =
    if a ∈ stamps ∧ Stamped s a = false then some prover.bytes else markerHolder s a

/-- A marker that names a prover goes on naming it. -/
theorem StampedFor.kept (h : StampedFor prover stamps s s' a) {holder : Bytes32}
    (hholder : markerHolder s a = some holder.bytes) : markerHolder s' a = some holder.bytes := by
  have hstamped : Stamped s a = true := by simp [Stamped, hholder]
  rw [h, if_neg (by simp [hstamped]), hholder]

/-- The prover's marker names it, if it did where it was stamped before. -/
theorem StampedFor.own (h : StampedFor prover stamps s s' a) (ha : a ∈ stamps)
    (hbefore : Stamped s a = true → markerHolder s a = some prover.bytes) :
    markerHolder s' a = some prover.bytes := by
  cases hstamped : Stamped s a with
  | false => rw [h, if_pos ⟨ha, hstamped⟩]
  | true => exact h.kept (hbefore hstamped)

/-- What one stamp leaves on a marker. -/
theorem markerHolder_stampMarker (env : GlobalEnv) (prover b : Bytes32) (s : GlobalState)
    (a : Bytes32) :
    markerHolder (stampMarker env prover b s) a =
      if a = b ∧ Stamped s a = false then some prover.bytes else markerHolder s a := by
  have hdef : stampMarker env prover b s =
      if Stamped s b = true then s else s.setVertex b (createSpentMergeTree env prover) := rfl
  rw [hdef]
  cases hs : Stamped s b with
  | true =>
    rw [if_pos rfl, if_neg]
    rintro ⟨rfl, h⟩
    rw [hs] at h
    cases h
  | false =>
    rw [if_neg (by simp)]
    by_cases hab : a = b
    · subst hab
      rw [if_pos ⟨rfl, hs⟩]
      simp [markerHolder, createSpentMergeTree]
    · rw [if_neg (fun h => hab h.1)]
      exact markerHolder_congr (setVertex_of_ne _ _ hab)

/-- What a loop of stamps leaves on a marker: the first stamp stays. -/
theorem markerHolder_stampTargets (env : GlobalEnv) (prover : Bytes32)
    (addr : SeniorityMerge → Bytes32) (targets : List SeniorityMerge) (s : GlobalState)
    (a : Bytes32) :
    StampedFor prover (targets.map addr) s
      (targets.foldl (fun s t => stampMarker env prover (addr t) s) s) a := by
  unfold StampedFor
  induction targets generalizing s with
  | nil => simp
  | cons t targets ih =>
    rw [foldl_cons, ih]
    have hstep := markerHolder_stampMarker env prover (addr t) s a
    by_cases hfirst : a = addr t ∧ Stamped s a = false
    · rw [if_pos hfirst] at hstep
      have hnow : Stamped (stampMarker env prover (addr t) s) a = true := by
        simp [Stamped, hstep]
      rw [if_neg (by simp [hnow]), hstep, if_pos ⟨by simp [hfirst.1], hfirst.2⟩]
    · rw [if_neg hfirst] at hstep
      rw [stamped_congr hstep, hstep]
      by_cases hs : Stamped s a = false
      · have hab : a ≠ addr t := fun h => hfirst ⟨h, hs⟩
        simp [hab]
      · simp [hs]

/-- The allocations a join writes, and the vertices they leave. -/
theorem allocations_vertices (hne : ∀ f ∈ filters, a ≠ allocationAddress env pubkey f)
    (t : GlobalState) :
    (filters.foldl (fun s filter => s.setVertex (allocationAddress env pubkey filter)
      (createAllocationVertexTree env.poseidon (proverAddressFromPubkey env pubkey) filter
        frame)) t).vertices a = t.vertices a := by
  refine foldlRecOn filters _ (motive := fun s : GlobalState => s.vertices a = t.vertices a) rfl
    fun s hs f hf => ?_
  exact (setVertex_of_ne _ _ (hne f hf)).trans hs

theorem writeJoin_vertices {seniority : Nat} (hprover : a ≠ proverAddressFromPubkey env pubkey)
    (hfilters : ∀ f ∈ filters, a ≠ allocationAddress env pubkey f) :
    (writeJoin env s pubkey filters frame seniority).vertices a = s.vertices a :=
  (allocations_vertices hfilters _).trans (setVertex_of_ne _ _ hprover)

theorem deriveProverStatus_vertices (h : deriveProverStatus s prover = .ok s') (hne : a ≠ prover) :
    s'.vertices a = s.vertices a := by
  obtain ⟨_, -, h⟩ := bind_ok.mp h
  obtain ⟨_, -, h⟩ := bind_ok.mp h
  simp only at h
  split at h
  · rw [pure_ok.mp h]
  · rw [← pure_ok.mp h]
    exact setVertex_of_ne _ _ hne

theorem writeReward_vertices {delegate : Bytes} (hne : a ≠ rewardAddress env prover) :
    (writeReward env s prover delegate).vertices a = s.vertices a := by
  unfold writeReward
  split
  · rfl
  · exact setVertex_of_ne _ _ hne

end Markers

section Inversion

variable {env : GlobalEnv} {s s' : GlobalState} {targets : List SeniorityMerge} {frame : Nat}

/-- Verified merge targets are Ed448 keys. -/
theorem verifyMergeTargets_length {operation : String} {domain pubkey : Bytes}
    (h : verifyMergeTargets env operation domain pubkey targets = .ok true) :
    ∀ t ∈ targets, t.proverPublicKey.length = 57 := by
  induction targets with
  | nil => intro t ht; cases ht
  | cons target targets ih =>
    obtain ⟨_, -, h⟩ := bind_ok.mp h
    obtain ⟨signed, hsigned, h⟩ := bind_ok.mp h
    cases signed with
    | false => cases pure_ok.mp h
    | true =>
      intro t ht
      rcases mem_cons.mp ht with rfl | ht
      · exact env.keyManager.ed448_length hsigned
      · exact ih h t ht

/-- What an executed join says of its keys and does to a vertex that is not the prover's, an
allocation's or the reward's. -/
theorem invokeJoin_cases {grid : Option GridView} {op : ProverJoin}
    (h : invokeJoin env grid frame op s = .ok s') :
    (joinPublicKey op).length = 897 ∧ (∀ t ∈ op.mergeTargets, t.proverPublicKey.length = 57) ∧
      ∀ a, a ≠ proverAddressFromPubkey env (joinPublicKey op) →
        (∀ f ∈ op.filters, a ≠ allocationAddress env (joinPublicKey op) f) →
        a ≠ rewardAddress env (proverAddressFromPubkey env (joinPublicKey op)) →
        StampedFor (proverAddressFromPubkey env (joinPublicKey op))
          (op.mergeTargets.map fun t => spentJoinMergeAddress env t.proverPublicKey) s s' a := by
  obtain ⟨_, -, h⟩ := bind_ok.mp h
  obtain ⟨verified, hverified, h⟩ := bind_ok.mp h
  obtain ⟨htrue, h⟩ := ensure_bind.mp h
  simp only [bind_ok] at h
  obtain ⟨_, -, _, -, derived, hderived, h⟩ := h
  have htrue : verified = true := htrue
  rw [htrue] at hverified
  obtain ⟨signed, hsigned, htargets⟩ := bind_ok.mp hverified
  have hkeys : signed = true ∧ verifyProverJoinMergeSignatures env op (joinPublicKey op) = .ok true := by
    cases signed with
    | false => cases pure_ok.mp htargets
    | true => exact ⟨rfl, htargets⟩
  obtain ⟨rfl, hmerge⟩ := hkeys
  refine ⟨?_, verifyMergeTargets_length hmerge, ?_⟩
  · obtain ⟨_, -, hsigned⟩ := bind_ok.mp hsigned
    obtain ⟨first, hfirst, hsigned⟩ := bind_ok.mp hsigned
    cases first with
    | false => cases pure_ok.mp hsigned
    | true => exact env.keyManager.falcon512_length hfirst
  · intro a hprover hfilters hreward
    have hbefore : markerHolder derived a = markerHolder s a :=
      markerHolder_congr ((deriveProverStatus_vertices hderived hprover).trans
        (writeJoin_vertices hprover hfilters))
    rw [StampedFor, ← pure_ok.mp h, markerHolder_congr (writeReward_vertices hreward),
      markerHolder_stampTargets, stamped_congr hbefore, hbefore]

end Inversion

/-! ## Addresses of one run -/

section Separation

variable {env : GlobalEnv} {events : List ProverEvent} {e : ProverEvent}

/-- An address a run uses for a marker. -/
def IsMarker (env : GlobalEnv) (events : List ProverEvent) (a : Bytes32) : Prop :=
  ∃ e ∈ events, ∃ x ∈ hashedInputs env e, x.length = 74 ∧ a = env.poseidon x

theorem joinMarkerPreimage_length (key : Bytes) :
    (joinMarkerPreimage key).length = 17 + key.length := by
  have htag : (asciiBytes "PROVER_JOIN_MERGE").length = 17 := by decide
  rw [joinMarkerPreimage, length_append, htag]

theorem allocationPreimage_length (pubkey filter : Bytes) :
    (allocationPreimage pubkey filter).length = 17 + pubkey.length + filter.length := by
  have htag : (asciiBytes "PROVER_ALLOCATION").length = 17 := by decide
  rw [allocationPreimage, length_append, length_append, htag]

theorem rewardPreimage_length (prover : Bytes32) : (rewardPreimage prover).length = 64 := by
  simp [rewardPreimage]

/-- No other input of the run hashes to a marker. -/
theorem IsMarker.ne {a : Bytes32} (ha : IsMarker env events a) (hfree : CollisionFree env events)
    (he : e ∈ events) {y : Bytes} (hy : y ∈ hashedInputs env e) (hlen : y.length ≠ 74) :
    a ≠ env.poseidon y := by
  obtain ⟨e', he', x, hx, _, rfl⟩ := ha
  intro heq
  have hxy := hfree e' he' e he x hx y hy heq
  subst hxy
  omega

/-- What the inputs of a join are. -/
theorem mem_hashedInputs_join (env : GlobalEnv) {op : ProverJoin}
    (hop : e.input.message = .proverJoin op) :
    joinPublicKey op ∈ hashedInputs env e ∧
      rewardPreimage (proverAddressFromPubkey env (joinPublicKey op)) ∈ hashedInputs env e ∧
      (∀ f ∈ op.filters, allocationPreimage (joinPublicKey op) f ∈ hashedInputs env e) ∧
      (∀ t ∈ op.mergeTargets, joinMarkerPreimage t.proverPublicKey ∈ hashedInputs env e) := by
  unfold hashedInputs
  rw [hop]
  simp only [cons_append, mem_cons, mem_append]
  refine ⟨.inl trivial, .inr (.inl trivial), fun f hf => ?_, fun t ht => ?_⟩
  · exact .inr (.inr (.inl (mem_map_of_mem hf)))
  · exact .inr (.inr (.inr (mem_map.mpr ⟨t, ht, rfl⟩)))

end Separation

/-! ## What a run records -/

section Recorded

variable {env : GlobalEnv} {events : List ProverEvent} {s : GlobalState} {call : ProverCall}
  {prover : Bytes32} {key : Bytes} {targets : List SeniorityMerge}

/-- The marker of a counted key names the prover it was counted for. -/
def Credited (env : GlobalEnv) (e : ProverEvent) (s : GlobalState) : Prop :=
  ∀ key ∈ countedKeys env e, ∃ prover, eventProver env e = some prover ∧
    markerHolder s (spentJoinMergeAddress env key) = some prover.bytes

/-- The event of one call. -/
abbrev callEvent (env : GlobalEnv) (s : GlobalState) (call : ProverCall) : ProverEvent :=
  Run.event (proverStep env) s call

/-- A counted key is a target's, and no other prover holds its marker. -/
theorem mem_of_mem_joinCountedKeys (h : key ∈ joinCountedKeys env s prover targets) :
    (∃ t ∈ targets, t.proverPublicKey = key) ∧ heldByAnother env s prover key = false := by
  obtain ⟨t, ht, rfl⟩ := mem_map.mp h
  obtain ⟨hmem, hcounted⟩ := mem_filter.mp ht
  rw [Bool.and_eq_true, Bool.not_eq_true'] at hcounted
  exact ⟨⟨t, hmem, rfl⟩, hcounted.1⟩

/-- **An accepted operation is a join**: no seniority merge is accepted. -/
theorem accepted_join (h : Accepted (callEvent env s call)) : ∃ op, call.message = .proverJoin op ∧
      invokeJoin env call.grid call.frame op s = .ok (proverStep env s call).2 := by
  obtain ⟨s', hs'⟩ : ∃ s', applyProverCall env s call = .ok s' := by
    cases happly : applyProverCall env s call with
    | ok s' => exact ⟨s', rfl⟩
    | error => simp [Accepted, proverStep, happly] at h
  have hafter : (proverStep env s call).2 = s' := by
    unfold proverStep
    rw [hs']
  rw [hafter]
  obtain ⟨_, -, hs'⟩ := bind_ok.mp hs'
  obtain ⟨_, -, hs'⟩ := bind_ok.mp hs'
  exact invokeStep_ok hs'

/-- A refused operation changes nothing. -/
theorem refused_same (h : ¬ Accepted (callEvent env s call)) : (proverStep env s call).2 = s := by
  unfold proverStep
  cases happly : applyProverCall env s call with
  | ok => simp [Accepted, proverStep, happly] at h
  | error => rfl

/-- A join counts a key only where its marker is free or names the join's own
prover. -/
theorem markerHolder_of_not_heldByAnother (h : heldByAnother env s prover key = false)
    (hstamped : Stamped s (spentJoinMergeAddress env key) = true) :
    markerHolder s (spentJoinMergeAddress env key) = some prover.bytes := by
  unfold heldByAnother at h
  unfold Stamped at hstamped
  cases hholder : markerHolder s (spentJoinMergeAddress env key) with
  | none => simp [hholder] at hstamped
  | some =>
    rw [hholder, any_some] at h hstamped
    rw [hstamped, Bool.true_and, bne_eq_false_iff_eq] at h
    rw [h]

/-- After an accepted operation the markers of the keys it counts name its prover, and one that
names a prover goes on naming it. -/
theorem markers_after (hfree : CollisionFree env events) (he : callEvent env s call ∈ events)
    (hacc : Accepted (callEvent env s call)) :
    ∃ prover, eventProver env (callEvent env s call) = some prover ∧
      (∀ key ∈ countedKeys env (callEvent env s call),
        IsMarker env events (spentJoinMergeAddress env key) ∧
        markerHolder (proverStep env s call).2 (spentJoinMergeAddress env key) =
          some prover.bytes) ∧
      ∀ a, IsMarker env events a → ∀ holder : Bytes32, markerHolder s a = some holder.bytes →
        markerHolder (proverStep env s call).2 a = some holder.bytes := by
  obtain ⟨op, hop, hinvoke⟩ := accepted_join hacc
  obtain ⟨_, hed448, hstamps⟩ := invokeJoin_cases hinvoke
  obtain ⟨hpublic, hreward, hfilters, hmerge⟩ := mem_hashedInputs_join env
    (e := callEvent env s call) hop
  have hafter (a : Bytes32) (ha : IsMarker env events a) :=
    hstamps a (ha.ne hfree he hpublic (by omega))
      (fun f hf => ha.ne hfree he (hfilters f hf) (by rw [allocationPreimage_length]; omega))
      (ha.ne hfree he hreward (by rw [rewardPreimage_length]; omega))
  refine ⟨proverAddressFromPubkey env (joinPublicKey op), by simp [eventProver, hop],
    fun key hcounted => ?_, fun a ha holder => (hafter a ha).kept⟩
  simp only [countedKeys, event_input, event_before, hop] at hcounted
  obtain ⟨⟨t, ht, rfl⟩, hfree⟩ := mem_of_mem_joinCountedKeys hcounted
  have hlength := joinMarkerPreimage_length t.proverPublicKey
  have hed448 := hed448 t ht
  have hmarker : IsMarker env events (spentJoinMergeAddress env t.proverPublicKey) :=
    ⟨_, he, _, hmerge t ht, by omega, rfl⟩
  exact ⟨hmarker, (hafter _ hmarker).own (mem_map.mpr ⟨t, ht, rfl⟩)
    (markerHolder_of_not_heldByAnother hfree)⟩

/-- No operation changes a marker that names a prover. -/
theorem markerHolder_kept (hfree : CollisionFree env events) (he : callEvent env s call ∈ events)
    {a : Bytes32} (ha : IsMarker env events a) (h : markerHolder s a = some prover.bytes) :
    markerHolder (proverStep env s call).2 a = some prover.bytes := by
  by_cases hacc : Accepted (callEvent env s call)
  · obtain ⟨_, -, -, hkept⟩ := markers_after hfree he hacc
    exact hkept a ha prover h
  · rw [refused_same hacc, h]

/-- Two accepted operations that count one key belong to one prover. -/
def CreditedOnce (env : GlobalEnv) (e₁ e₂ : ProverEvent) : Prop :=
  Accepted e₁ → Accepted e₂ → ∀ key ∈ countedKeys env e₁, key ∈ countedKeys env e₂ →
    eventProver env e₁ = eventProver env e₂

/-- The rule of one step: a key marked for an earlier operation is counted again
only for the same prover. -/
theorem creditedOnce_of_credited {e1 : ProverEvent} (h1 : Credited env e1 s) :
    CreditedOnce env e1 (callEvent env s call) := by
  intro _ hacc key hkey1 hkey2
  obtain ⟨_, hprover, hholder⟩ := h1 key hkey1
  obtain ⟨op, hop, -⟩ := accepted_join hacc
  simp only [countedKeys, event_input, event_before, hop] at hkey2
  have hown := markerHolder_of_not_heldByAnother (mem_of_mem_joinCountedKeys hkey2).2
    (by simp [Stamped, hholder])
  rw [hprover]
  simp only [eventProver, event_input, hop]
  exact congrArg some (Bytes32.bytes_injective (some.inj (hholder.symm.trans hown)))

/-- What a run has recorded: every key counted so far is marked for its prover,
and no key was credited twice. -/
structure Recorded (env : GlobalEnv) (events log : List ProverEvent) (s : GlobalState) : Prop where
  credited : ∀ e ∈ log, Accepted e → Credited env e s ∧
    ∀ key ∈ countedKeys env e, IsMarker env events (spentJoinMergeAddress env key)
  once : log.Pairwise (CreditedOnce env)

/-- One more operation keeps the record. -/
theorem Recorded.extend {log : List ProverEvent} (h : Recorded env events log s)
    (hfree : CollisionFree env events) (he : callEvent env s call ∈ events) :
    Recorded env events (log ++ [callEvent env s call]) (proverStep env s call).2 := by
  constructor
  · intro e hmem hacc
    rcases mem_append.mp hmem with hold | hnew
    · obtain ⟨hcredited, hmarkers⟩ := h.credited e hold hacc
      refine ⟨fun key hkey => ?_, hmarkers⟩
      obtain ⟨prover, hprover, hholder⟩ := hcredited key hkey
      exact ⟨prover, hprover, markerHolder_kept hfree he (hmarkers key hkey) hholder⟩
    · obtain rfl := mem_singleton.mp hnew
      obtain ⟨prover, hprover, hcounted, -⟩ := markers_after hfree he hacc
      exact ⟨fun key hkey => ⟨prover, hprover, (hcounted key hkey).2⟩,
        fun key hkey => (hcounted key hkey).1⟩
  · refine pairwise_append.mpr ⟨h.once, pairwise_singleton _ _, ?_⟩
    intro e1 hold e2 hnew
    obtain rfl := mem_singleton.mp hnew
    intro hacc1
    exact creditedOnce_of_credited (h.credited e1 hold hacc1).1 hacc1

end Recorded

/-- No vertices. -/
def emptyState : GlobalState := ⟨Store.empty, fun _ => []⟩

end Global

import QuilNode.Token.GlobalCommit

/-!
# What one commit can do

One inversion of `commitEntry`, from any records: a call fails, finds the
operation decided, rejects it, or commits it.  For a committed call every
record afterwards is described from the records before, address kind by
address kind; the invariants of whole histories are derived from this and never
look at the code again.
-/

namespace Token

namespace GlobalCommit

open Store CoinBlocks Option Store.AgreeOutside

variable {records : Records} {frame width : Nat} {app : Bytes32}
  {entry : SpendEntry} {sourceShard : ShardPath}

/-! ## Frames of the single stages -/

/-- The records a call may write while it is still checking. -/
def checkAddresses (app : Bytes32) : Set RecordAddress :=
  {.context app, .placementWidth app}

@[simp] theorem mem_checkAddresses {k : RecordAddress} : k ∈ checkAddresses app ↔
    k = .context app ∨ k = .placementWidth app := Iff.rfl

theorem pinContext_pins : records.AgreeOutside {.context app} (pinContext records app entry) := by
  unfold pinContext
  split
  · exact refl _ _
  · exact agreeOutside_write _ _ _

theorem pinContext_agree :
    records.AgreeOutside (checkAddresses app) (pinContext records app entry) :=
  pinContext_pins.mono (by simp)

theorem pinContext_width (records : Records) (app : Bytes32) (entry : SpendEntry) :
    pinContext records app entry (.placementWidth app) = records (.placementWidth app) :=
  pinContext_pins _ (by simp)

/-- Raising the width writes the width record only. -/
theorem raisePlacementWidth_agree (records : Records) (app : Bytes32) (shardDepth : Nat) :
    records.AgreeOutside {.placementWidth app}
      (raisePlacementWidth records app shardDepth).2 := by
  unfold raisePlacementWidth
  split
  · exact refl _ _
  simp only
  split
  · exact refl _ _
  · exact agreeOutside_write records _ _

variable {u : Records}

/-- The raise writes check addresses only. -/
theorem raised_agree {shardDepth : Nat} {r : Result Nat}
    (h : raisePlacementWidth (pinContext records app entry) app shardDepth =
      (r, u)) : records.AgreeOutside (checkAddresses app) u := by
  have hagree := raisePlacementWidth_agree (pinContext records app entry) app
    shardDepth
  rw [h] at hagree
  exact pinContext_agree.trans (hagree.mono (by simp))

variable {k : RecordAddress}

theorem consumeMarkers_of_ne (h : ∀ m, .consumed app m ≠ k) :
    consumeMarkers records app entry k = records k :=
  writeEach_of_not_mem _ _ fun m _ => h m

theorem claimEscrow_of_ne (h : ∀ a, k ≠ .escrow app a) :
    claimEscrow records app entry k = records k := by
  cases hclaim : entry.escrowClaim with
  | none => simp [claimEscrow, hclaim]
  | some claim =>
    cases hrecord : escrow records app claim.address with
    | none => simp [claimEscrow, hclaim, hrecord]
    | some =>
      simp only [claimEscrow, hclaim, hrecord]
      exact write_of_ne _ _ (h _)

variable {placements : List Placement}

theorem writeDeliveries_of_ne (h : ∀ b n, .delivery .coin app b n ≠ k) :
    writeDeliveries records app entry sourceShard placements k = records k :=
  writeEach_of_not_mem _ _ fun p _ => h p.block p.seq

variable {seqs : OrdMap Nat Nat}

theorem writeSequences_of_ne {lane : Lane} (h : ∀ b, .sequence lane app b ≠ k) :
    writeSequences records app lane seqs k = records k :=
  writeEach_of_not_mem _ _ fun p _ => h p.1

theorem writeSettlement_of_ne (h : ∀ r, k ≠ .settlement r) :
    writeSettlement records entry k = records k := by
  cases hsettlement : entry.settlement with
  | none => simp [writeSettlement, hsettlement]
  | some settlement =>
    cases hrecord : records (.settlement settlement.receipt) with
    | some => simp [writeSettlement, hsettlement, hrecord]
    | none =>
      simp only [writeSettlement, hsettlement, hrecord]
      exact write_of_ne _ _ (h _)

theorem consumeMarkers_consumed (marker : Bytes32) :
    consumeMarkers records app entry (.consumed app marker) =
      if marker ∈ entry.consumptions then some entry.txId
      else records (.consumed app marker) := by
  by_cases hmem : marker ∈ entry.consumptions
  · rw [if_pos hmem]
    apply writeEach_of_mem entry.consumptions records hmem
    intro j _ heq
    injection heq
  · rw [if_neg hmem]
    apply writeEach_of_not_mem
    intro j hj heq
    injection heq with _ hjm
    exact hmem (hjm ▸ hj)

theorem claimEscrow_escrow (addr : Bytes32) : claimEscrow records app entry (.escrow app addr) =
      if entry.escrowClaim.map EscrowClaim.address = some addr then
        (escrow records app addr).map fun record => { record with consumed := true }
      else escrow records app addr := by
  cases hclaim : entry.escrowClaim with
  | none => simp [claimEscrow, hclaim, escrow]
  | some claim =>
    simp only [claimEscrow, hclaim, map_some, some.injEq]
    cases hrecord : escrow records app claim.address with
    | none =>
      split
      · rename_i heq
        subst heq
        rw [hrecord]
        exact hrecord
      · rfl
    | some =>
      split
      · rename_i heq
        subst heq
        simp [hrecord]
      · rename_i hne
        apply write_of_ne
        intro heq
        injection heq with _ haddr
        exact hne haddr.symm

variable {s : Records}

/-! ## Opening an escrow -/

/-- Where a created escrow is queued: the next place of the block its address
selects. -/
def EscrowPlaced (records : Records) (app : Bytes32) (entry : SpendEntry)
    (width : Nat) (placement : Option Placement) : Prop :=
  match entry.escrowCreate with
  | none => placement = none
  | some create =>
    ∃ block, CoinBlocks.blockForAddress width create.address = .ok block ∧
      placement = some ⟨create.address, block, escrowSequence records app block⟩

/-- The escrow counter of `block` after one escrow was queued at `placement`. -/
def queuedSequence (placement : Option Placement) (block : Nat) (before : Option Nat) :
    Option Nat :=
  match placement with
  | none => before
  | some placement => if block = placement.block then some (placement.seq + 1) else before

/-- The escrow delivery at `(block, seq)` after one was queued at `placement`. -/
def queuedDelivery (entry : SpendEntry) (sourceShard : ShardPath)
    (placement : Option Placement) (block seq : Nat) (before : Option DeliveryRecord) :
    Option DeliveryRecord :=
  match placement with
  | none => before
  | some placement =>
    if block = placement.block ∧ seq = placement.seq then
      some (.live (entryDelivery entry sourceShard placement.address))
    else before

/-- What opening an escrow writes, from records `s` to records `t`. -/
structure Opens (s : Records) (app : Bytes32) (entry : SpendEntry)
    (sourceShard : ShardPath) (placement : Option Placement) (t : Records) : Prop where
  escrow : ∀ address, t (.escrow app address) =
    if entry.escrowCreate.map EscrowCreate.address = some address then
      entry.escrowCreate.map fun create =>
        ⟨create.binding, create.refundAfterGlobalFrame, false⟩
    else s (.escrow app address)
  sequence : ∀ block, t (.sequence .escrow app block) =
    queuedSequence placement block (s (.sequence .escrow app block))
  delivery : ∀ block seq, t (.delivery .escrow app block seq) =
    queuedDelivery entry sourceShard placement block seq
      (s (.delivery .escrow app block seq))
  other : ∀ k, (∀ a, k ≠ .escrow app a) → (∀ b, k ≠ .sequence .escrow app b) →
    (∀ b n, k ≠ .delivery .escrow app b n) → t k = s k

/-- At a width inside the range, opening the escrow of an entry cannot fail. -/
theorem createEscrow_opens (records : Records) (app : Bytes32) (entry : SpendEntry)
    (sourceShard : ShardPath) (hlo : initialBlockBits ≤ width)
    (hhi : width ≤ maxBlockBits) :
    ∃ placement created,
      createEscrow records app entry sourceShard width = (.ok placement, created) ∧
      EscrowPlaced records app entry width placement ∧
      Opens records app entry sourceShard placement created := by
  cases hcreate : entry.escrowCreate with
  | none =>
    refine ⟨none, records, by simp [createEscrow, hcreate], by simp [EscrowPlaced, hcreate], ?_⟩
    constructor <;> simp [hcreate, queuedSequence, queuedDelivery]
  | some create =>
    obtain ⟨block, hblock⟩ := blockForAddress_ok hlo hhi create.address
    have hseq : ∀ record, escrowSequence (records.write (.escrow app create.address) record)
          app block = escrowSequence records app block := by
      intro record
      simp [escrowSequence, laneSequence, write_of_ne]
    refine ⟨some ⟨create.address, block, escrowSequence records app block⟩, _,
      by simp only [createEscrow, hcreate, hblock, hseq]; rfl,
      by simp [EscrowPlaced, hcreate, hblock], ?_⟩
    simp only [writeSequence, writeDelivery]
    constructor
    · intro addr
      rw [write_of_ne _ _ (by simp), write_of_ne _ _ (by simp)]
      by_cases haddr : addr = create.address
      · subst haddr
        simp [hcreate]
      · rw [write_of_ne _ _ (by simpa using haddr)]
        simp [hcreate, Ne.symm haddr]
    · intro b
      by_cases hb : b = block
      · subst hb
        simp [queuedSequence]
      · simp [queuedSequence, hb, write_of_ne]
    · intro b n
      rw [write_of_ne _ _ (by simp)]
      by_cases hbn : b = block ∧ n = escrowSequence records app block
      · obtain ⟨rfl, rfl⟩ := hbn
        simp [queuedDelivery]
      · simp [queuedDelivery, hbn, write_of_ne]
    · intro k hescrow hsequence hdelivery
      rw [write_of_ne _ _ (hsequence _), write_of_ne _ _ (hdelivery _ _),
        write_of_ne _ _ (hescrow _)]

/-! ## A committed call -/

/-- The escrow record at `addr` after the entry committed: the claimed one is
closed, the created one open. -/
def escrowAfter (records : Records) (app : Bytes32) (entry : SpendEntry)
    (addr : Bytes32) : Option EscrowRecord :=
  if entry.escrowCreate.map EscrowCreate.address = some addr then
    entry.escrowCreate.map fun create =>
      ⟨create.binding, create.refundAfterGlobalFrame, false⟩
  else if entry.escrowClaim.map EscrowClaim.address = some addr then
    (escrow records app addr).map fun record => { record with consumed := true }
  else
    escrow records app addr

/-- The addresses a commit may write. -/
def commitAddresses (app : Bytes32) : Set RecordAddress
  | .context a => a = app
  | .consumed a _ => a = app
  | .decision a _ => a = app
  | .escrow a _ => a = app
  | .sequence _ a _ => a = app
  | .delivery _ a _ _ => a = app
  | .placementWidth a => a = app
  | .orphan _ _ => False
  | .rootHistory _ => False
  | .settlement _ => True

/-- What a commit writes, from records `s` to records `t`, once its outputs are
placed. -/
structure Writes (s : Records) (frame : Nat) (app : Bytes32) (entry : SpendEntry)
    (sourceShard : ShardPath) (placements : List Placement) (sequences : OrdMap Nat Nat)
    (escrowPlacement : Option Placement) (t : Records) : Prop where
  decision : ∀ txId, t (.decision app txId) =
    if txId = entry.txId then some ⟨true, frame, ""⟩ else s (.decision app txId)
  consumed : ∀ marker, t (.consumed app marker) =
    if marker ∈ entry.consumptions then some entry.txId else s (.consumed app marker)
  escrow : ∀ address, t (.escrow app address) = escrowAfter s app entry address
  coinSequence : ∀ block, t (.sequence .coin app block) =
    writeSequences s app .coin sequences (.sequence .coin app block)
  coinDelivery : ∀ block seq, t (.delivery .coin app block seq) =
    writeDeliveries s app entry sourceShard placements
      (.delivery .coin app block seq)
  escrowSequence : ∀ block, t (.sequence .escrow app block) =
    queuedSequence escrowPlacement block (s (.sequence .escrow app block))
  escrowDelivery : ∀ block seq, t (.delivery .escrow app block seq) =
    queuedDelivery entry sourceShard escrowPlacement block seq
      (s (.delivery .escrow app block seq))
  agree : s.AgreeOutside (commitAddresses app) t

/-- The stages before the escrow is opened touch markers and escrows only. -/
theorem claimed_of_ne (hconsumed : ∀ m, .consumed app m ≠ k)
    (hescrow : ∀ a, k ≠ .escrow app a) :
    claimEscrow (consumeMarkers records app entry) app entry k = records k := by
  rw [claimEscrow_of_ne hescrow, consumeMarkers_of_ne hconsumed]

/-- The stages after the escrow is opened touch the coin queue, the settlement
record and the decision only. -/
theorem recorded_of_ne {decision : Decision} (hk : (∀ b n, .delivery .coin app b n ≠ k) ∧
      (∀ b, .sequence .coin app b ≠ k) ∧ (∀ r, k ≠ .settlement r) ∧
      k ≠ .decision app entry.txId) :
    ((writeSettlement (writeSequences
        (writeDeliveries records app entry sourceShard placements)
        app .coin seqs) entry).write (.decision app entry.txId) decision) k =
      records k := by
  obtain ⟨hdelivery, hsequence, hsettlement, hdecision⟩ := hk
  rw [write_of_ne _ _ hdecision, writeSettlement_of_ne hsettlement,
    writeSequences_of_ne hsequence, writeDeliveries_of_ne hdelivery]

/-- **The writes of a commit.**  At a width inside the range a placed entry
commits, and these are all its writes. -/
theorem commitPlaced_writes (records : Records) (frame : Nat) (app : Bytes32)
    (entry : SpendEntry) (sourceShard : ShardPath)
    (hlo : initialBlockBits ≤ width) (hhi : width ≤ maxBlockBits)
    (placements : List Placement) (seqs : OrdMap Nat Nat) :
    ∃ escrowPlacement t, commitPlaced records frame app entry sourceShard width placements seqs =
        (.ok (.committed entry.fee placements escrowPlacement), t) ∧
      EscrowPlaced records app entry width escrowPlacement ∧
      t (.context app) = records (.context app) ∧
      t (.placementWidth app) = records (.placementWidth app) ∧
      Writes records frame app entry sourceShard placements seqs
        escrowPlacement t := by
  obtain ⟨escrowPlacement, created, hcreated, hplaced, hopens⟩ :=
    createEscrow_opens (claimEscrow (consumeMarkers records app entry) app entry)
      app entry sourceShard hlo hhi
  have hcoin : ∀ k, (∀ a, k ≠ .escrow app a) ∧ (∀ b, k ≠ .sequence .escrow app b) ∧
      (∀ b n, k ≠ .delivery .escrow app b n) ∧
      (∀ m, .consumed app m ≠ k) → created k = records k := by
    rintro k ⟨h1, h2, h3, h4⟩
    rw [hopens.other k h1 h2 h3, claimed_of_ne h4 h1]
  refine ⟨escrowPlacement, _, by simp only [commitPlaced, hcreated]; rfl, ?_, ?_, ?_, ?_⟩
  · have hseq : ∀ block, escrowSequence
        (claimEscrow (consumeMarkers records app entry) app entry)
        app block = escrowSequence records app block := by
      intro block
      simp only [escrowSequence, laneSequence]
      rw [claimed_of_ne (by simp) (by simp)]
    simpa only [EscrowPlaced, hseq] using hplaced
  iterate 2
    · rw [recorded_of_ne (by simp)]
      exact hcoin _ (by simp)
  · constructor
    · intro txId
      by_cases htx : txId = entry.txId
      · subst htx
        simp
      · rw [write_of_ne _ _ (by simpa using htx), writeSettlement_of_ne (by simp),
          writeSequences_of_ne (by simp), writeDeliveries_of_ne (by simp), if_neg htx]
        exact hcoin _ (by simp)
    · intro marker
      rw [recorded_of_ne (by simp),
        hopens.other _ (by simp) (by simp) (by simp), claimEscrow_of_ne (by simp)]
      exact consumeMarkers_consumed marker
    · intro addr
      rw [recorded_of_ne (by simp), hopens.escrow, claimEscrow_escrow]
      simp only [escrowAfter, escrow]
      rw [consumeMarkers_of_ne (by simp)]
    · intro block
      rw [write_of_ne _ _ (by simp), writeSettlement_of_ne (by simp)]
      apply writeEach_congr
      rw [writeDeliveries_of_ne (by simp)]
      exact hcoin _ (by simp)
    · intro block seq
      rw [write_of_ne _ _ (by simp), writeSettlement_of_ne (by simp),
        writeSequences_of_ne (by simp)]
      exact writeEach_congr _ _ _ (hcoin _ (by simp))
    · intro block
      rw [recorded_of_ne (by simp), hopens.sequence, claimed_of_ne (by simp) (by simp)]
    · intro block seq
      rw [recorded_of_ne (by simp), hopens.delivery, claimed_of_ne (by simp) (by simp)]
    · intro k hk
      rw [recorded_of_ne ⟨by rintro b n rfl; exact hk rfl, by rintro b rfl; exact hk rfl,
        by rintro r rfl; exact hk trivial, by rintro rfl; exact hk rfl⟩]
      exact hcoin k ⟨by rintro a rfl; exact hk rfl, by rintro b rfl; exact hk rfl,
        by rintro b n rfl; exact hk rfl, by rintro m rfl; exact hk rfl⟩

/-- The spend checks read no check address. -/
theorem checkSpend_agree (h : s.AgreeOutside (checkAddresses app) u) :
    checkSpend u app entry frame = checkSpend s app entry frame := by
  have hroot : checkRoot u app entry = checkRoot s app entry := by
    have hread : u (.rootHistory app) = s (.rootHistory app) := h _ (by simp)
    simp only [checkRoot, hread]
  have hconsumed : ∀ m, isConsumed u app m = isConsumed s app m := by
    intro m
    have hread : u (.consumed app m) = s (.consumed app m) := h _ (by simp)
    simp only [isConsumed, hread]
  have hescrow : ∀ a, escrow u app a = escrow s app a := by
    intro a
    exact h _ (by simp)
  simp only [checkSpend, hroot, checkConsumptions, checkEscrowClaim, checkEscrowCreate, hescrow,
    funext hconsumed]

/-- Placement reads the coin counters only. -/
theorem placeOutputs_congr
    (h : ∀ block, blockSequence u app block = blockSequence s app block)
    (outputs : List Bytes32) (seqs : OrdMap Nat Nat) :
    placeOutputs u app width outputs seqs = placeOutputs s app width outputs seqs := by
  induction outputs generalizing seqs with
  | nil => rfl
  | cons addr outputs ih => simp only [placeOutputs, h, ih]

/-- The writes read no check address. -/
theorem Writes.of_agree {t : Records} {escrowPlacement : Option Placement}
    (h : s.AgreeOutside (checkAddresses app) u)
    (hw : Writes u frame app entry sourceShard placements seqs escrowPlacement t) :
    Writes s frame app entry sourceShard placements seqs escrowPlacement t := by
  constructor
  · intro txId
    rw [hw.decision, h _ (by simp)]
  · intro marker
    rw [hw.consumed, h _ (by simp)]
  · intro addr
    rw [hw.escrow]
    have hread : GlobalCommit.escrow u app addr = GlobalCommit.escrow s app addr := h _ (by simp)
    simp only [escrowAfter, hread]
  · intro block
    rw [hw.coinSequence]
    exact writeEach_congr _ _ _ (h _ (by simp))
  · intro block seq
    rw [hw.coinDelivery]
    exact writeEach_congr _ _ _ (h _ (by simp))
  · intro block
    rw [hw.escrowSequence, h _ (by simp)]
  · intro block seq
    rw [hw.escrowDelivery, h _ (by simp)]
  · intro k hk
    rw [hw.agree k hk]
    refine h k ?_
    rintro (rfl | rfl) <;> exact hk rfl

/-! ## What passed checks say -/

/-- A passed check is a conjunction of passed checks. -/
theorem checkSpend_passed (h : checkSpend s app entry frame = .ok none) :
    checkRoot s app entry = .ok none ∧
    checkConsumptions s app entry = none ∧
    checkEscrowClaim s app entry frame = none ∧
    checkEscrowCreate s app entry = none := by
  unfold checkSpend at h
  split at h
  · cases h
  · cases h
  · rename_i hroot
    have hor := Except.ok.inj h
    rw [or_eq_none_iff, or_eq_none_iff] at hor
    exact ⟨hroot, hor.1, hor.2.1, hor.2.2⟩

/-- No marker consumed was spent before. -/
theorem checkConsumptions_passed (h : checkConsumptions s app entry = none)
    {marker : Bytes32} (hmem : marker ∈ entry.consumptions) : s (.consumed app marker) = none := by
  simp only [checkConsumptions] at h
  split at h
  · cases h
  rename_i hany
  have hnot : isConsumed s app marker = false := by
    have := List.any_eq_false.mp (Bool.not_eq_true _ ▸ hany) marker hmem
    simpa using this
  simpa [isConsumed] using hnot

/-- A claimed escrow is open and bound to its claim. -/
theorem checkEscrowClaim_passed (h : checkEscrowClaim s app entry frame = none)
    {claim : EscrowClaim} (hclaim : entry.escrowClaim = some claim) :
    ∃ record, s (.escrow app claim.address) = some record ∧ record.consumed = false ∧
      record.binding = claim.binding ∧ (claim.refund = true → record.refundAfter ≤ frame) := by
  simp only [checkEscrowClaim, hclaim] at h
  split at h
  · cases h
  rename_i record hrecord
  split at h
  · cases h
  rename_i hopen
  split at h
  · cases h
  rename_i hbinding
  split at h
  · cases h
  rename_i hrefund
  refine ⟨record, hrecord, by simpa using hopen, by simpa using hbinding, ?_⟩
  intro hr
  by_contra hlt
  exact hrefund ⟨hr, by omega⟩

/-- A created escrow has a free address. -/
theorem checkEscrowCreate_passed (h : checkEscrowCreate s app entry = none)
    {create : EscrowCreate} (hcreate : entry.escrowCreate = some create) :
    s (.escrow app create.address) = none := by
  simp only [checkEscrowCreate, hcreate] at h
  split at h
  · cases h
  · rename_i hnone
    simpa [escrow] using hnone

/-- A valid entry repeats nothing and does not both create and claim. -/
theorem validateAt_ok {shieldFrame : Nat}
    (h : entry.validateAt shieldFrame frame = .ok ()) :
    entry.consumptions.Nodup ∧ entry.outputs.Nodup ∧
      ¬ (entry.escrowCreate.isSome ∧ entry.escrowClaim.isSome) := by
  unfold SpendEntry.validateAt at h
  split at h
  · cases h
  split at h
  · cases h
  rename_i hnodup
  split at h
  · cases h
  split at h
  · cases h
  rename_i hboth
  simp only [not_or, not_not] at hnodup
  exact ⟨hnodup.1, hnodup.2, hboth⟩
/-! ## The four ends of a call -/

/-- A committed call: what it had checked in the records `s` before, and what
holds of the records `t` after. -/
structure Committed (shieldFrame : Nat) (s : Records) (frame : Nat)
    (app : Bytes32) (entry : SpendEntry) (sourceShard : ShardPath)
    (placements : List Placement) (sequences : OrdMap Nat Nat)
    (escrowPlacement : Option Placement) (width : Nat) (t : Records) : Prop where
  valid : entry.validateAt shieldFrame frame = .ok ()
  undecided : s (.decision app entry.txId) = none
  agrees : checkContext s app entry = none
  checked : checkSpend s app entry frame = .ok none
  context : t (.context app) = some entry.context
  raised : ∃ current, placementWidth s app = .ok current ∧
    width = max current (min (shardDepth sourceShard) CoinBlocks.maxBlockBits)
  widthAfter : placementWidth t app = .ok width
  placed : placeOutputs s app width entry.outputs .empty = .ok (some (placements, sequences))
  escrowPlaced : EscrowPlaced s app entry width escrowPlacement
  writes : Writes s frame app entry sourceShard placements sequences escrowPlacement t

/-- The records `u` a rejection finds when it writes its decision: the context is pinned before the
other checks, the width raised before a block is found full. -/
inductive RejectedAt (s : Records) (frame : Nat) (app : Bytes32)
    (entry : SpendEntry) (sourceShard : ShardPath) : RejectReason → Records → Prop where
  | context {reason : RejectReason} (h : checkContext s app entry = some reason) :
      RejectedAt s frame app entry sourceShard reason s
  | check {reason : RejectReason} (hcontext : checkContext s app entry = none)
      (h : checkSpend s app entry frame = .ok (some reason)) :
      RejectedAt s frame app entry sourceShard reason (pinContext s app entry)
  | full {width : Nat} {u : Records} (hcontext : checkContext s app entry = none)
      (hcheck : checkSpend s app entry frame = .ok none)
      (hraise : raisePlacementWidth (pinContext s app entry) app
        (shardDepth sourceShard) = (.ok width, u)) :
      RejectedAt s frame app entry sourceShard .blockFull u

/-- The ends of a call from records `s`: its result and the records it leaves. -/
inductive CallSpec (shieldFrame : Nat) (s : Records) (frame : Nat)
    (app : Bytes32) (entry : SpendEntry) (sourceShard : ShardPath) :
    Result Outcome → Records → Prop where
  | failed {e : QuilError} {t : Records} (h : s.AgreeOutside (checkAddresses app) t) :
      CallSpec shieldFrame s frame app entry sourceShard (.error e) t
  | decided (h : isDecided s app entry.txId = true) :
      CallSpec shieldFrame s frame app entry sourceShard (.ok .alreadyDecided) s
  | rejected {reason : RejectReason} {u : Records}
      (hundecided : s (.decision app entry.txId) = none)
      (h : RejectedAt s frame app entry sourceShard reason u) :
      CallSpec shieldFrame s frame app entry sourceShard (.ok (.rejected reason))
        (u.write (.decision app entry.txId) ⟨false, frame, reason.text⟩)
  | committed {placements : List Placement} {seqs : OrdMap Nat Nat}
      {escrowPlacement : Option Placement} {width : Nat} {t : Records}
      (h : Committed shieldFrame s frame app entry sourceShard placements
        seqs escrowPlacement width t) :
      CallSpec shieldFrame s frame app entry sourceShard
        (.ok (.committed entry.fee placements escrowPlacement)) t

/-- Up to its decision a rejection writes only what the checks write. -/
theorem RejectedAt.agree {reason : RejectReason}
    (h : RejectedAt s frame app entry sourceShard reason u) :
    s.AgreeOutside (checkAddresses app) u := by
  cases h with
  | context => exact refl _ _
  | check => exact pinContext_agree
  | full hcontext hcheck hraise => exact raised_agree hraise

/-- After the context check passed, the pinned context is the entry's. -/
theorem pinContext_context (h : checkContext records app entry = none) :
    pinContext records app entry (.context app) = some entry.context := by
  cases hcontext : records (.context app) with
  | none => simp [pinContext, hcontext]
  | some =>
    simp only [checkContext, hcontext] at h
    simp only [pinContext, hcontext]
    split at h
    · cases h
    · rename_i heq
      rw [not_not.mp heq]

/-- **One call.**  Every call of `commitEntry`, from any records, ends in one of
the four ways. -/
theorem commitEntry_spec {shieldFrame : Nat} {r : Result Outcome} {t : Records}
    (h : commitEntry shieldFrame records frame app entry sourceShard = (r, t)) :
    CallSpec shieldFrame records frame app entry sourceShard r t := by
  have hpin : records.AgreeOutside (checkAddresses app)
      (pinContext records app entry) := pinContext_agree
  unfold commitEntry at h
  split at h
  · cases h
    exact .failed (refl _ _)
  rename_i hvalid
  split at h
  · rename_i hdecided
    cases h
    exact .decided hdecided
  rename_i hundecided
  have hundecided' : records (.decision app entry.txId) = none := by
    simpa [isDecided] using hundecided
  split at h
  · rename_i reason hcontext
    cases h
    exact .rejected hundecided' (.context hcontext)
  rename_i hcontext
  simp only [checkSpend_agree hpin] at h
  split at h
  · cases h
    exact .failed hpin
  · rename_i reason hreason
    cases h
    exact .rejected hundecided' (.check hcontext hreason)
  rename_i hchecked
  split at h
  · rename_i e raised hraise
    cases h
    rw [raisePlacementWidth_error hraise]
    exact .failed hpin
  rename_i width raised hraise
  have hraised := raised_agree hraise
  have hsequence : ∀ lane block,
      laneSequence raised app lane block = laneSequence records app lane block := by
    intro lane block
    simp only [laneSequence]
    rw [hraised _ (by simp)]
  rw [placeOutputs_congr (hsequence .coin)] at h
  split at h
  · cases h
    exact .failed hraised
  · cases h
    exact .rejected hundecided' (.full hcontext hchecked hraise)
  rename_i placements seqs hplaced
  obtain ⟨current, hcurrent, hwidth, hafter, hrecords⟩ := raisePlacementWidth_ok hraise
  obtain ⟨hlo, hhi⟩ := placementWidth_range hafter
  obtain ⟨escrowPlacement, _, hcommit, hescrow, hctx, hwidthRecord, hwrites⟩ :=
    commitPlaced_writes raised frame app entry sourceShard hlo hhi placements seqs
  rw [hcommit] at h
  cases h
  have hcurrent' : placementWidth records app = .ok current := by
    rw [← hcurrent]
    exact (placementWidth_congr (pinContext_width records app entry)).symm
  have hcontext' : raised (.context app) = some entry.context := by
    rw [hrecords]
    split <;> exact pinContext_context hcontext
  have hescrow' : EscrowPlaced records app entry width escrowPlacement := by
    simpa only [EscrowPlaced, escrowSequence, hsequence] using hescrow
  exact .committed
    { valid := hvalid
      undecided := hundecided'
      agrees := hcontext
      checked := hchecked
      context := hctx.trans hcontext'
      raised := ⟨current, hcurrent', hwidth⟩
      widthAfter := (placementWidth_congr hwidthRecord).trans hafter
      placed := hplaced
      escrowPlaced := hescrow'
      writes := hwrites.of_agree hraised }

end GlobalCommit

end Token

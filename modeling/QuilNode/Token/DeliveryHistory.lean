import QuilNode.Token.DeliveryQueues

/-!
# Delivery queues are dense and complete

Over a history without orphan moves the queues of a lane are exactly what the
committed entries placed there, in commit order: no delivery is missing, none
is extra, and the live records of a block are those below its counter.
-/

namespace Token

namespace GlobalCommit

open List CoinBlocks Queues Run

variable {shieldFrame : Nat} {app : Bytes32} {s t : Records} {lane : Lane}

/-- Every block id is below this bound. -/
def blockIdLimit : Nat := 1 <<< CoinBlocks.blockIndexBits

theorem blockForAddress_lt_limit {width block : Nat} {addr : Bytes32}
    (h : blockForAddress width addr = .ok block) : block < blockIdLimit := by
  obtain ⟨-, hwidth, _, _⟩ := blockId_ok_iff.mp h
  have hpow : 2 ^ width ≤ 2 ^ maxBlockBits := Nat.pow_le_pow_right (by decide) hwidth
  have hlimit : blockIdLimit = 2 ^ maxBlockBits + 2 ^ maxBlockBits := by
    decide
  omega

/-- The block an address selects at the width the records give. -/
def selectedBlock (records : Records) (app : Bytes32) (addr : Bytes32) : Option Nat :=
  match placementWidth records app with
  | .error _ => none
  | .ok width => (CoinBlocks.blockForAddress width addr).toOption

/-- An output as its delivery record names it, with its block:
`(block, address, tx id, source frame)`. -/
abbrev PlacedOutput := Option Nat × Bytes32 × Bytes32 × Nat

/-- The outputs a call committed, each with the block its address selects at the width after the
call. -/
def outputsOf (app : Bytes32) (e : GlobalEvent) : List PlacedOutput :=
  match e.input, e.result with
  | .commit _ entry _, .outcome (.ok (.committed _ _ _)) =>
    entry.outputs.map fun addr =>
      (selectedBlock e.after app addr, addr, entry.txId, entry.sourceFrame)
  | _, _ => []

/-- The outputs of all committed entries of a log. -/
def committedOutputs (app : Bytes32) (log : List GlobalEvent) : Multiset PlacedOutput :=
  (log.flatMap (outputsOf app) : List PlacedOutput)

/-- The outputs named by the live coin delivery records below the counters. -/
def liveOutputs (records : Records) (app : Bytes32) : Multiset PlacedOutput :=
  ∑ block ∈ Finset.range blockIdLimit,
    (((List.range (blockSequence records app block)).filterMap fun seq =>
      (delivery records app block seq).map fun d =>
        (some block, d.address, d.txId, d.sourceFrame) : List PlacedOutput) :
      Multiset PlacedOutput)

/-- A queued delivery as an output with its block. -/
def placedOutput (x : Nat × Delivery) : PlacedOutput :=
  (some x.1, x.2.address, x.2.txId, x.2.sourceFrame)

/-- A committed call queued its outputs, each in the block its address selects at the width after
the call. -/
theorem placedBy_outputs (s : Records) (op : GlobalOp) :
    (placedBy .coin (event (globalStep shieldFrame app) s op)).map placedOutput =
      outputsOf app (event (globalStep shieldFrame app) s op) := by
  cases op with
  | commit frame entry sourceShard =>
    rcases hcall : commitEntry shieldFrame s frame app entry sourceShard with ⟨result, t⟩
    rw [commit_event hcall]
    cases commitEntry_spec hcall with
    | failed | decided | rejected => rfl
    | @committed placements seqs escrowPlacement width t hc =>
      obtain ⟨haddresses, hplaced⟩ := placeOutputs_names entry.outputs _ _ _ hc.placed
      simp only [placedBy, outputsOf, lanePlacements]
      rw [← haddresses, map_map, map_map]
      apply map_congr_left
      intro p hp
      have hblock := (hplaced p hp).1
      simp [placedOutput, entryDelivery, selectedBlock, hc.widthAfter, hblock, Except.toOption]
  | publish => rfl
  | raiseWidth => rfl
  | reconcile => rfl
  | attest => simp only [placedBy, outputsOf, event, map_nil]

/-- What a log placed in one lane, in commit order. -/
def placedIn (lane : Lane) (log : List GlobalEvent) : List (Nat × Delivery) :=
  log.flatMap (placedBy lane)

/-- The queues a log without moves leaves in one lane. -/
def queueOf (lane : Lane) (log : List GlobalEvent) : Nat → List Delivery :=
  Queues.pushAll (fun _ => []) (placedIn lane log)

/-- The records of an application spell out what its log placed. -/
structure QueuesComplete (app : Bytes32) (log : List GlobalEvent) (s : Records) : Prop where
  stored : ∀ lane, LaneStored s app lane (queueOf lane log)
  room : ∀ b, (queueOf .coin log b).length ≤ blockCapacity
  outputs : (placedIn .coin log).map placedOutput = log.flatMap (outputsOf app)
  selected : ∀ lane, ∀ x ∈ placedIn lane log, SelectsBlock x

theorem queueOf_snoc (lane : Lane) (log : List GlobalEvent) (e : GlobalEvent) :
    queueOf lane (log ++ [e]) = pushAll (queueOf lane log) (placedBy lane e) := by
  unfold queueOf placedIn
  rw [flatMap_append, pushAll_append]
  simp

theorem queuesComplete_step {log : List GlobalEvent} (h : QueuesComplete app log s)
    {op : GlobalOp} (hop : op.isAttest = false) :
    QueuesComplete app (log ++ [event (globalStep shieldFrame app) s op])
      (globalStep shieldFrame app s op).2 := by
  constructor
  · intro lane
    rw [queueOf_snoc]
    exact globalStep_stored (h.stored lane) hop
  · intro b
    rw [queueOf_snoc]
    exact globalStep_capacity (h.stored .coin) h.room op b
  · have hold := h.outputs
    unfold placedIn at hold ⊢
    rw [flatMap_append, flatMap_append, map_append, hold]
    simp [placedBy_outputs]
  · intro lane x hx
    unfold placedIn at hx
    rw [flatMap_append, mem_append] at hx
    rcases hx with hx | hx
    · exact h.selected lane x hx
    · exact placedBy_selects lane s op x (by simpa using hx)

theorem queuesComplete_empty : QueuesComplete app [] Store.empty :=
  ⟨laneStored_empty, fun _ => Nat.zero_le _, rfl, by simp [placedIn]⟩

/-- An event of a history without attestations is not one. -/
theorem not_attest_of_mem {ops : List GlobalOp} (hops : ∀ op ∈ ops, op.isAttest = false)
    {e : GlobalEvent} (he : e ∈ globalEvents shieldFrame app ops) : e.input.isAttest = false := by
  obtain ⟨_, _, heq, -⟩ := mem_events _ he
  apply hops
  rw [heq]
  simp

theorem queuesComplete_run (shieldFrame : Nat) (app : Bytes32)
    (ops : List GlobalOp) (hops : ∀ op ∈ ops, op.isAttest = false) :
    QueuesComplete app (globalEvents shieldFrame app ops)
      (globalRecords shieldFrame app ops) := by
  apply history_invariant (globalStep shieldFrame app)
    (QueuesComplete app) (fun e => e.input.isAttest = false)
  · exact queuesComplete_empty
  · intro log t op h hop
    exact queuesComplete_step h hop
  · intro e he
    exact not_attest_of_mem hops he

/-- A live delivery was placed by the log, in the block its address selects. -/
theorem QueuesComplete.delivery_placed {log : List GlobalEvent}
    (h : QueuesComplete app log s) {block seq : Nat} {d : Delivery}
    (hd : delivery s app block seq = some d) :
    (queueOf .coin log block)[seq]? = some d ∧ (block, d) ∈ placedIn .coin log := by
  have hslot : (queueOf .coin log block)[seq]? = some d :=
    ((h.stored .coin).slot_eq block seq).symm.trans hd
  rcases mem_pushAll.mp (mem_of_getElem? hslot) with hnil | hmem
  · cases hnil
  · exact ⟨hslot, hmem⟩

/-- The live outputs of stored queues are the queued deliveries. -/
theorem liveOutputs_eq {log : List GlobalEvent} (h : QueuesComplete app log s) :
    liveOutputs s app = ((placedIn .coin log).map placedOutput : List PlacedOutput) := by
  have hblock : ∀ b, (range (blockSequence s app b)).filterMap (fun seq =>
      (delivery s app b seq).map fun d => (some b, d.address, d.txId, d.sourceFrame)) =
      ((placedIn .coin log).filter fun x => x.1 = b).map placedOutput := by
    intro b
    have hnext : blockSequence s app b = (queueOf .coin log b).length :=
      (h.stored .coin).next_eq b
    have hslot : ∀ n, delivery s app b n = (queueOf .coin log b)[n]? :=
      (h.stored .coin).slot_eq b
    rw [hnext]
    simp only [hslot]
    rw [filterMap_range_getElem?]
    unfold queueOf
    rw [pushAll_apply, nil_append, map_map]
    apply map_congr_left
    intro x hx
    have hb : x.1 = b := by simpa using (mem_filter.mp hx).2
    simp [placedOutput, hb]
  unfold liveOutputs
  rw [Finset.sum_congr rfl fun b _ => by rw [hblock b]]
  exact sum_filter_map placedOutput _ _ fun x hx => 
    Finset.mem_range.mpr (blockForAddress_lt_limit (h.selected .coin x hx))

/-- **Delivery queues are dense and complete.**  Without orphan moves a delivery is live exactly
below its block's counter; no coin counter passes the capacity; and the live coin deliveries are,
with multiplicity, the outputs of the committed entries, each in the block its address selects. -/
theorem delivery_queues_dense_and_complete (shieldFrame : Nat) (app : Bytes32)
    (ops : List GlobalOp) (hops : ∀ op ∈ ops, op.isAttest = false) :
    (∀ block seq, (delivery (globalRecords shieldFrame app ops) app block seq).isSome ↔
        seq < blockSequence (globalRecords shieldFrame app ops) app block) ∧
    (∀ block seq, (escrowDelivery (globalRecords shieldFrame app ops) app block
        seq).isSome ↔
        seq < escrowSequence (globalRecords shieldFrame app ops) app block) ∧
    (∀ block, blockSequence (globalRecords shieldFrame app ops) app block ≤ blockCapacity) ∧
    (∀ block, blockIdLimit ≤ block →
      blockSequence (globalRecords shieldFrame app ops) app block = 0) ∧
    liveOutputs (globalRecords shieldFrame app ops) app =
      committedOutputs app (globalEvents shieldFrame app ops) := by
  have h := queuesComplete_run shieldFrame app ops hops
  refine ⟨(h.stored .coin).dense, (h.stored .escrow).dense, ?_, ?_, ?_⟩
  · intro block
    have hnext := (h.stored .coin).next_eq block
    exact hnext.trans_le (h.room block)
  · intro block hblock
    have hnext := (h.stored .coin).next_eq block
    have hempty : queueOf .coin (globalEvents shieldFrame app ops) block = [] := by
      refine pushAll_of_ne (fun x hx => ?_) _
      have hlt := blockForAddress_lt_limit (h.selected .coin x hx)
      omega
    rw [hempty] at hnext
    exact hnext
  · rw [liveOutputs_eq h, h.outputs]
    rfl

/-- A spend of `markers` into `outputs` and nothing else. -/
def plainSpend (txId : Bytes32) (markers outputs : List Bytes32) : SpendEntry :=
  { kind := 0x0510, txId := txId, sourceFrame := 40, context := 7, rootDigest := none,
    consumptions := markers, outputs := outputs, escrowCreate := none, escrowClaim := none,
    fee := 5, settlement := none }

def twoOutputs : List GlobalOp := [.commit 100 (plainSpend 1 [20] [0, 1]) (.known [])]

/-- Two outputs of one spend take the first two places of their block. -/
theorem delivery_queues_after_two_outputs :
    (∀ op ∈ twoOutputs, op.isAttest = false) ∧ blockSequence (globalRecords 0 5 twoOutputs) 5 64 = 2 ∧
      liveOutputs (globalRecords 0 5 twoOutputs) 5 =
        committedOutputs 5 (globalEvents 0 5 twoOutputs) := by
  have hops : ∀ op ∈ twoOutputs, op.isAttest = false := by
    simp [twoOutputs, GlobalOp.isAttest]
  exact ⟨hops, by decide, (delivery_queues_dense_and_complete 0 5 _ hops).2.2.2.2⟩

end GlobalCommit

end Token

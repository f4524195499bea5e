import QuilNode.Lib.Queues
import QuilNode.Token.GlobalRun

/-!
# The delivery queues of a block

The counters and delivery records of one lane are a family of queues, one per
block: `LaneStored` says so in the terms of the queue library.  A commit appends
its outputs to the coin queues and its escrow to the escrow queues, at the
positions it reserved from cached counters; every other call but an attestation
leaves the queues alone.
-/

namespace Token

namespace GlobalCommit

open Queues List OrdMap Store Run RecordAddress CoinBlocks

variable {shieldFrame : Nat} {app : Bytes32} {s t : Records} {lane : Lane}

/-- The records of a lane spell out the queues `Q`. -/
def LaneStored (s : Records) (app : Bytes32) (lane : Lane)
    (Q : Nat → List Delivery) : Prop :=
  Queues.Stored (laneSequence s app lane) (readDelivery s app lane) Q

theorem laneStored_empty (lane : Lane) : LaneStored Store.empty app lane fun _ => [] :=
  ⟨fun _ => rfl, fun _ _ => rfl⟩

variable {Q : Nat → List Delivery}

/-- The queues depend on the lane's own records only. -/
theorem LaneStored.congr (h : LaneStored s app lane Q)
    (hsequence : ∀ b, t (.sequence lane app b) = s (.sequence lane app b))
    (hdelivery : ∀ b n, t (.delivery lane app b n) = s (.delivery lane app b n)) :
    LaneStored t app lane Q := by
  constructor
  · intro b
    rw [← h.next_eq b]
    simp only [laneSequence, hsequence]
  · intro b n
    rw [← h.slot_eq b n]
    simp only [readDelivery, hdelivery]

/-- The delivery a record names. -/
def DeliveryRecord.delivery? : DeliveryRecord → Option Delivery
  | .live delivery => some delivery
  | .moved _ _ _ => none

/-- Writing one delivery record sets one slot of its lane. -/
theorem readDelivery_writeDelivery (s : Records) (app : Bytes32) (lane : Lane)
    (block seq : Nat) (record : DeliveryRecord) :
    readDelivery (writeDelivery s app lane block seq record) app lane =
      setSlot (readDelivery s app lane) block seq record.delivery? := by
  funext b n
  unfold setSlot
  by_cases hbn : b = block ∧ n = seq
  · obtain ⟨rfl, rfl⟩ := hbn
    cases record <;> simp [readDelivery, writeDelivery, DeliveryRecord.delivery?]
  have hne : RecordAddress.delivery lane app b n ≠
      .delivery lane app block seq := by
    simpa using hbn
  rw [if_neg hbn]
  simp only [readDelivery, writeDelivery, write_of_ne _ _ hne]

/-- The delivery loop of a commit fills the reserved slots. -/
theorem readDelivery_writeDeliveries {entry : SpendEntry} {sourceShard : ShardPath}
    (placements : List Placement) (s : Records) :
    readDelivery (writeDeliveries s app entry sourceShard placements) app .coin =
      fill (readDelivery s app .coin) (placements.map fun p =>
        (p.block, p.seq, entryDelivery entry sourceShard p.address)) := by
  induction placements generalizing s with
  | nil => rfl
  | cons p placements ih =>
    have hstep := readDelivery_writeDelivery s app .coin p.block p.seq
      (.live (entryDelivery entry sourceShard p.address))
    have htail := ih (writeDelivery s app .coin p.block p.seq
      (.live (entryDelivery entry sourceShard p.address)))
    rw [hstep] at htail
    exact htail

/-- Writing out cached counters replaces the counters that were cached. -/
theorem writeSequences_sequence (s : Records) (app : Bytes32) (lane : Lane)
    (seqs : OrdMap Nat Nat) (block : Nat) :
    writeSequences s app lane seqs (.sequence lane app block) =
      (seqs.get? block).or (s (.sequence lane app block)) := by
  cases hget : seqs.get? block with
  | none =>
    apply writeEach_of_not_mem
    intro advance hmem heq
    injection heq with _ _ hblock
    have hentry : seqs.get? advance.1 = some advance.2 := mem_entries_iff.mp hmem
    rw [hblock, hget] at hentry
    cases hentry
  | some next =>
    have hmem : (block, next) ∈ seqs.entries := mem_entries_iff.mpr hget
    apply writeEach_of_mem (i := (block, next)) seqs.entries s hmem
    intro advance hadvance heq
    injection heq with _ _ hblock
    have hentry : seqs.get? advance.1 = some advance.2 := mem_entries_iff.mp hadvance
    rw [hblock, hget] at hentry
    cases hentry
    exact Prod.ext hblock rfl

/-- Placements name the entry's outputs in order, each in the block its address selects, below the
capacity. -/
theorem placeOutputs_names {width : Nat} (outputs : List Bytes32)
    (seqs seqs' : OrdMap Nat Nat) (placements : List Placement)
    (h : placeOutputs s app width outputs seqs = .ok (some (placements, seqs'))) :
    placements.map Placement.address = outputs ∧ ∀ p ∈ placements,
      blockForAddress width p.address = .ok p.block ∧ p.seq < blockCapacity := by
  induction outputs generalizing seqs seqs' placements with
  | nil =>
    cases h
    exact ⟨rfl, by simp⟩
  | cons addr outputs ih =>
    simp only [placeOutputs] at h
    split at h
    · cases h
    rename_i block hblock
    split at h
    · cases h
    rename_i hroom
    split at h
    · cases h
    · cases h
    rename_i placements' sequences'' hrest
    cases h
    obtain ⟨haddresses, hplaced⟩ := ih _ _ _ hrest
    refine ⟨by simp [haddresses], ?_⟩
    intro p hp
    rcases mem_cons.mp hp with rfl | hp
    · exact ⟨hblock, Nat.lt_of_not_le hroom⟩
    · exact hplaced p hp

/-- Cached counters that agree with the queues still do after one append. -/
theorem counters_push {next : Nat → Nat} {seqs : OrdMap Nat Nat} {R : Nat → List Delivery}
    (hcount : ∀ b, (seqs.get? b).getD (next b) = (R b).length) (target : Nat)
    (d : Delivery) (b : Nat) :
    ((seqs.insert target ((seqs.get? target).getD (next target) + 1)).get? b).getD
      (next b) = (push R target d b).length := by
  rw [get?_insert]
  by_cases hb : target = b
  · subst hb
    rw [if_pos rfl, push_self, hcount target]
    simp
  · rw [if_neg hb, push_of_ne R d (Ne.symm hb)]
    exact hcount b

/-- **The placement loop.**  Where the cached counters agree with the queues `Q`, the placements
land in `Q` and the counters agree with the extended queues. -/
theorem placeOutputs_lands {width : Nat} (item : Bytes32 → Delivery) (outputs : List Bytes32)
    (seqs seqs' : OrdMap Nat Nat) (Q : Nat → List Delivery) (placements : List Placement)
    (hcount : ∀ b, (seqs.get? b).getD (blockSequence s app b) = (Q b).length)
    (h : placeOutputs s app width outputs seqs = .ok (some (placements, seqs'))) :
    Queues.Lands Q (placements.map fun p => (p.block, p.seq, item p.address)) ∧
      ∀ b, (seqs'.get? b).getD (blockSequence s app b) =
        (pushAll Q (placements.map fun p => (p.block, item p.address)) b).length := by
  induction outputs generalizing seqs seqs' Q placements with
  | nil =>
    cases h
    exact ⟨trivial, hcount⟩
  | cons addr outputs ih =>
    simp only [placeOutputs] at h
    split at h
    · cases h
    rename_i block hblock
    split at h
    · cases h
    split at h
    · cases h
    · cases h
    rename_i placements' sequences'' hrest
    cases h
    have hnext := hcount block
    obtain ⟨hlands, hafter⟩ := ih _ _ _ _ (counters_push hcount block (item addr)) hrest
    exact ⟨⟨hnext, hlands⟩, hafter⟩

/-- The placements of a committed call in one lane. -/
def lanePlacements (placements : List Placement) (escrowPlacement : Option Placement) :
    Lane → List Placement
  | .coin => placements
  | .escrow => escrowPlacement.toList

/-- The deliveries a call queued in a lane, with their blocks, in order. -/
def placedBy (lane : Lane) (e : GlobalEvent) : List (Nat × Delivery) :=
  match e.input, e.result with
  | .commit _ entry sourceShard, .outcome (.ok (.committed _ placements escrowPlacement)) =>
    (lanePlacements placements escrowPlacement lane).map fun p =>
      (p.block, entryDelivery entry sourceShard p.address)
  | _, _ => []

section Committing

variable {frame width : Nat} {entry : SpendEntry} {sourceShard : ShardPath}
  {placements : List Placement} {seqs : OrdMap Nat Nat} {escrowPlacement : Option Placement}
  {Q : Nat → List Delivery}
  (hc : Committed shieldFrame s frame app entry sourceShard placements seqs escrowPlacement width t)

include hc

theorem Committed.coin_stored (hQ : LaneStored s app .coin Q) :
    LaneStored t app .coin (pushAll Q (placements.map fun p =>
        (p.block, entryDelivery entry sourceShard p.address))) := by
  have hcount : ∀ b, ((empty : OrdMap Nat Nat).get? b).getD
      (blockSequence s app b) = (Q b).length := fun b => hQ.next_eq b
  obtain ⟨hlands, hafter⟩ := placeOutputs_lands (entryDelivery entry sourceShard)
    entry.outputs _ _ _ _ hcount hc.placed
  constructor
  · intro b
    rw [← hafter b]
    simp only [laneSequence, hc.writes.coinSequence, writeSequences_sequence, blockSequence]
    cases seqs.get? b <;> rfl
  · intro b n
    have hread : readDelivery t app .coin b n =
        readDelivery (writeDeliveries s app entry sourceShard placements) app
          .coin b n := by
      simp only [readDelivery, hc.writes.coinDelivery]
    rw [hread, readDelivery_writeDeliveries]
    have hfill := fill_lands _ _ Q hQ.slot_eq hlands b n
    rw [map_map] at hfill
    exact hfill

/-- A commit keeps every coin queue within a block's capacity. -/
theorem Committed.coin_capacity (hQ : LaneStored s app .coin Q)
    (hroom : ∀ b, (Q b).length ≤ blockCapacity) (b : Nat) :
    (pushAll Q (placements.map fun p =>
      (p.block, entryDelivery entry sourceShard p.address)) b).length ≤ blockCapacity := by
  have hcount : ∀ b, ((empty : OrdMap Nat Nat).get? b).getD
      (blockSequence s app b) = (Q b).length := fun b => hQ.next_eq b
  obtain ⟨hlands, -⟩ := placeOutputs_lands (entryDelivery entry sourceShard)
    entry.outputs _ _ _ _ hcount hc.placed
  obtain ⟨-, hplaced⟩ := placeOutputs_names entry.outputs _ _ _ hc.placed
  have hle := Queues.Lands.length_le _ Q hlands (by
      intro x hx
      obtain ⟨p, hp, rfl⟩ := mem_map.mp hx
      exact (hplaced p hp).2)
    hroom b
  rw [map_map] at hle
  exact hle

theorem Committed.escrow_stored (hQ : LaneStored s app .escrow Q) :
    LaneStored t app .escrow (pushAll Q (escrowPlacement.toList.map fun p =>
        (p.block, entryDelivery entry sourceShard p.address))) := by
  have hsequence := hc.writes.escrowSequence
  have hdelivery := hc.writes.escrowDelivery
  have hplaced := hc.escrowPlaced
  cases hcreate : entry.escrowCreate with
  | none =>
    simp only [EscrowPlaced, hcreate] at hplaced
    subst hplaced
    exact hQ.congr hsequence hdelivery
  | some create =>
    simp only [EscrowPlaced, hcreate] at hplaced
    obtain ⟨block, _, rfl⟩ := hplaced
    have hnext : escrowSequence s app block = (Q block).length := hQ.next_eq block
    simp only [Option.toList_some, map_cons, map_nil, pushAll_cons, pushAll_nil]
    constructor
    · intro b
      simp only [laneSequence, hsequence, queuedSequence]
      by_cases hb : b = block
      · subst hb
        simp [hnext]
      · rw [if_neg hb, push_of_ne Q _ hb, ← hQ.next_eq b]
        rfl
    · intro b n
      have hset := setSlot_push hQ.slot_eq block
        (entryDelivery entry sourceShard create.address) b n
      rw [← hset, ← hnext]
      unfold setSlot
      by_cases hbn : b = block ∧ n = escrowSequence s app block <;>
        simp [readDelivery, hdelivery, queuedDelivery, hbn]

end Committing

/-- Whether a call is an orphan attestation, the one call that moves queued
deliveries. -/
def GlobalOp.isAttest : GlobalOp → Bool
  | .attest _ _ _ => true
  | _ => false

/-- A call that changes no counter and no delivery keeps the queues. -/
theorem LaneStored.of_agree {A : Set RecordAddress} (h : LaneStored s app lane Q)
    (hagree : s.AgreeOutside A t) (hsequence : ∀ b, sequence lane app b ∉ A)
    (hdelivery : ∀ b n, RecordAddress.delivery lane app b n ∉ A) : LaneStored t app lane Q :=
  h.congr (fun b => hagree _ (hsequence b)) (fun b n => hagree _ (hdelivery b n))

/-- A commit call appends to each lane what it reports as placed there. -/
theorem commit_stored (hQ : LaneStored s app lane Q) (frame : Nat) (entry : SpendEntry)
    (sourceShard : ShardPath) :
    LaneStored (globalStep shieldFrame app s (.commit frame entry sourceShard)).2
      app lane (pushAll Q (placedBy lane
        (Run.event (globalStep shieldFrame app) s
          (.commit frame entry sourceShard)))) := by
  rcases hcall : commitEntry shieldFrame s frame app entry sourceShard with ⟨result, t⟩
  rw [← Run.event_after, commit_event hcall]
  have hchecked : ∀ {u : Records}, s.AgreeOutside (checkAddresses app) u →
      LaneStored u app lane Q := by
    intro u hagree
    exact hQ.of_agree hagree (by simp) (by simp)
  cases commitEntry_spec hcall with
  | failed h => exact hchecked h
  | decided => exact hQ
  | rejected hundecided h =>
    exact (hchecked h.agree).of_agree (agreeOutside_write _ _ _) (by simp) (by simp)
  | committed h =>
    cases lane with
    | coin => exact h.coin_stored hQ
    | escrow => exact h.escrow_stored hQ

/-- **One call on the queues**: every call but an attestation appends to each lane what it reports
as placed there. -/
theorem globalStep_stored (hQ : LaneStored s app lane Q) {op : GlobalOp}
    (hop : op.isAttest = false) :
    LaneStored (globalStep shieldFrame app s op).2 app lane
      (pushAll Q (placedBy lane (Run.event (globalStep shieldFrame app) s op))) := by
  cases op with
  | commit frame entry sourceShard => exact commit_stored hQ frame entry sourceShard
  | publish =>
    exact hQ.of_agree (agreeOutside_write s _ _) (by simp) (by simp)
  | raiseWidth shardDepth =>
    exact hQ.of_agree (raisePlacementWidth_agree s app shardDepth) (by simp) (by simp)
  | reconcile =>
    exact hQ.of_agree reconcileOrphans_agree (by simp) (by simp)
  | attest => cases hop

/-- A call queues nothing unless it committed an entry. -/
theorem placedBy_cases (shieldFrame : Nat) (app : Bytes32) (s : Records)
    (op : GlobalOp) :
    (∀ lane, placedBy lane (event (globalStep shieldFrame app) s op) = []) ∨
      ∃ frame entry sourceShard placements seqs escrowPlacement width,
        op = .commit frame entry sourceShard ∧
        Committed shieldFrame s frame app entry sourceShard placements seqs
          escrowPlacement width (globalStep shieldFrame app s op).2 ∧
        ∀ lane, placedBy lane (event (globalStep shieldFrame app) s op) =
          (lanePlacements placements escrowPlacement lane).map fun p =>
            (p.block, entryDelivery entry sourceShard p.address) := by
  cases op with
  | commit frame entry sourceShard =>
    rcases hcall : commitEntry shieldFrame s frame app entry sourceShard with ⟨result, t⟩
    rw [← event_after, commit_event hcall]
    cases commitEntry_spec hcall with
    | failed | decided | rejected => exact .inl fun _ => rfl
    | committed h => exact .inr ⟨frame, entry, sourceShard, _, _, _, _, rfl, h, fun _ => rfl⟩
  | publish | raiseWidth | reconcile =>
    exact .inl fun _ => rfl
  | attest => exact .inl fun _ => by simp only [placedBy, event]

/-- No call fills a coin queue beyond a block's capacity. -/
theorem globalStep_capacity (hQ : LaneStored s app .coin Q)
    (hroom : ∀ b, (Q b).length ≤ blockCapacity) (op : GlobalOp) (b : Nat) :
    (pushAll Q (placedBy .coin
      (event (globalStep shieldFrame app) s op)) b).length ≤ blockCapacity := by
  rcases placedBy_cases shieldFrame app s op with
    hnil | ⟨_, _, _, _, _, _, _, rfl, hc, hplaced⟩
  · rw [hnil]
    exact hroom b
  · rw [hplaced]
    exact hc.coin_capacity hQ hroom b

/-- A queued delivery sits in the block its address selects at that block's own
width. -/
def SelectsBlock (x : Nat × Delivery) : Prop :=
  CoinBlocks.blockForAddress (CoinBlocks.creationWidth x.1) x.2.address = .ok x.1

/-- A call queues every delivery in the block its address selects. -/
theorem placedBy_selects (lane : Lane) (s : Records) (op : GlobalOp) :
    ∀ x ∈ placedBy lane (event (globalStep shieldFrame app) s op), SelectsBlock x := by
  rcases placedBy_cases shieldFrame app s op with
    hnil | ⟨frame, entry, sourceShard, placements, _, escrowPlacement, width, rfl, hc, hplaced⟩
  · rw [hnil]
    simp
  intro x hx
  rw [hplaced] at hx
  obtain ⟨p, hp, rfl⟩ := mem_map.mp hx
  cases lane with
  | coin =>
    obtain ⟨-, hnames⟩ := placeOutputs_names entry.outputs _ _ _ hc.placed
    exact blockForAddress_creationWidth (hnames p hp).1
  | escrow =>
    have hescrow := hc.escrowPlaced
    cases hcreate : entry.escrowCreate with
    | none =>
      simp only [EscrowPlaced, hcreate] at hescrow
      simp [lanePlacements, hescrow] at hp
    | some =>
      simp only [EscrowPlaced, hcreate] at hescrow
      obtain ⟨_, hblock, rfl⟩ := hescrow
      simp only [lanePlacements, Option.toList_some, mem_singleton] at hp
      subst hp
      exact blockForAddress_creationWidth hblock

end GlobalCommit

end Token

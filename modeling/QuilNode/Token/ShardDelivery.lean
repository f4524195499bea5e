import QuilNode.Token.DeliveryHistory

/-!
# Delivering committed outputs to a shard (`token_intrinsic/delivery.rs`)

The shard that owns a block places the block's committed outputs in sequence order with
`placeCommitted`, which refuses an address it already holds.  GLOBAL commit compares the outputs
of an entry among themselves only, so two entries can name one address; the second delivery is
then refused for ever.

`FreshOutputs` is the condition under which this cannot happen.
-/

namespace Token

namespace ShardDelivery

open GlobalCommit List CoinBlocks Run

def invalid (msg : String) : QuilError :=
  .invalidArgument ("coin delivery: " ++ msg)

/-- A coin a shard holds, at its position `(block, seq)`. -/
structure PlacedCoin where
  address : Bytes32
  block : Nat
  seq : Nat
  deriving DecidableEq

/-- The coins of a block a shard holds: `roots::block_count`. -/
def blockCount (coins : List PlacedCoin) (block : Nat) : Nat :=
  coins.countP fun coin => coin.block == block

def isPresent (coins : List PlacedCoin) (addr : Bytes32) : Bool :=
  coins.any fun coin => coin.address == addr

/-- Write a committed output at its position `(block, seq)` and extend the block.  The refusals of
`refresh_root` afterwards (coin cap, root history) and of the output's encoding are left out. -/
def placeCommitted (coins : List PlacedCoin) (addr : Bytes32) (block seq : Nat) :
    Result (List PlacedCoin) :=
  let count := blockCount coins block
  if count ≠ seq then
    .error (invalid s!"out of sequence: block {block} seq {seq}, local count {count}")
  else if isPresent coins addr then
    .error (invalid "coin already present")
  else
    match CoinBlocks.blockForAddress (CoinBlocks.creationWidth block) addr with
    | .error e => .error e
    | .ok selected =>
      if selected ≠ block then .error (invalid "coin does not sit in its delivered block")
      else
        match CoinBlocks.position CoinBlocks.maxBlockBits block seq with
        | .error e => .error e
        | .ok _ => .ok (coins ++ [⟨addr, block, seq⟩])

section Delivering

variable (records : Records) (app : Bytes32)

/-- Take the next pending delivery of a block, if GLOBAL has committed one. -/
def deliverNext (coins : List PlacedCoin) (block : Nat) : Result (List PlacedCoin) :=
  let seq := blockCount coins block
  match delivery records app block seq with
  | none => .ok coins
  | some d => placeCommitted coins d.address block seq

/-- Take deliveries from the scheduled blocks, one per turn. -/
def deliverAll : List PlacedCoin → List Nat → Result (List PlacedCoin)
  | coins, [] => .ok coins
  | coins, block :: schedule =>
    match deliverNext records app coins block with
    | .error e => .error e
    | .ok coins => deliverAll coins schedule

end Delivering

variable {records : Records} {app : Bytes32}

/-- No address is named by two live coin deliveries of the application. -/
def AddressesDistinct (records : Records) (app : Bytes32) : Prop :=
  ∀ b n d b' n' d', delivery records app b n = some d →
    delivery records app b' n' = some d' → d.address = d'.address →
    b = b' ∧ n = n'

/-- The coins a shard holds are the first deliveries of its blocks. -/
def HoldsDelivered (records : Records) (app : Bytes32) (coins : List PlacedCoin) : Prop :=
  ∀ coin ∈ coins, coin.seq < blockCount coins coin.block ∧
    ∃ d, delivery records app coin.block coin.seq = some d ∧ d.address = coin.address

/-- The next pending delivery of a block is placed. -/
theorem deliverNext_ok {coins : List PlacedCoin} {block : Nat} {d : Delivery}
    (hdistinct : AddressesDistinct records app)
    (hselected : blockForAddress (creationWidth block) d.address = .ok block)
    (hholds : HoldsDelivered records app coins)
    (hroom : blockCount coins block < blockCapacity)
    (hpending : delivery records app block (blockCount coins block) = some d) :
    deliverNext records app coins block =
      .ok (coins ++ [⟨d.address, block, blockCount coins block⟩]) := by
  have habsent : isPresent coins d.address = false := by
    unfold isPresent
    rw [any_eq_false]
    intro coin hcoin heq
    obtain ⟨hlt, d', hd', haddr⟩ := hholds coin hcoin
    have hsame : d'.address = d.address := haddr.trans (eq_of_beq heq)
    obtain ⟨hblock, _⟩ := hdistinct _ _ _ _ _ _ hd' hpending hsame
    rw [hblock] at hlt
    omega
  obtain ⟨_, hposition⟩ := position_ok hselected hroom
  simp [deliverNext, hpending, placeCommitted, habsent, hselected, hposition]

/-- Placing the next delivery of a block keeps the shard's coins delivered. -/
theorem HoldsDelivered.snoc {coins : List PlacedCoin} {block : Nat} {d : Delivery}
    (hholds : HoldsDelivered records app coins)
    (hpending : delivery records app block (blockCount coins block) = some d) :
    HoldsDelivered records app (coins ++ [⟨d.address, block, blockCount coins block⟩]) := by
  have hcount : ∀ b, blockCount coins b ≤
      blockCount (coins ++ [⟨d.address, block, blockCount coins block⟩]) b := by
    intro b
    simp [blockCount, countP_append]
  intro coin hcoin
  rcases mem_append.mp hcoin with hcoin | hcoin
  · obtain ⟨hlt, hdelivered⟩ := hholds coin hcoin
    exact ⟨hlt.trans_le (hcount coin.block), hdelivered⟩
  · have heq := mem_singleton.mp hcoin
    subst heq
    exact ⟨by simp [blockCount, countP_append], d, hpending, rfl⟩

/-- **Delivery never stalls.**  On dense queues with distinct addresses that sit in their blocks,
every schedule succeeds, and a block scheduled often enough holds all that was committed to it. -/
theorem deliverAll_ok (hdistinct : AddressesDistinct records app)
    (hselected : ∀ b n d, delivery records app b n = some d →
      blockForAddress (creationWidth b) d.address = .ok b)
    (hdense : ∀ b n, (delivery records app b n).isSome ↔ n < blockSequence records app b)
    (hroom : ∀ b, blockSequence records app b ≤ blockCapacity)
    (schedule : List Nat) :
    ∀ coins, HoldsDelivered records app coins →
      (∀ b, blockCount coins b ≤ blockSequence records app b) →
      ∃ coins', deliverAll records app coins schedule = .ok coins' ∧ ∀ b, blockCount coins' b =
          min (blockCount coins b + schedule.count b) (blockSequence records app b) := by
  induction schedule with
  | nil =>
    intro coins _ hle
    refine ⟨coins, rfl, ?_⟩
    intro b
    rw [count_nil, Nat.add_zero, Nat.min_eq_left (hle b)]
  | cons block schedule ih =>
    intro coins hholds hle
    cases hpending : delivery records app block (blockCount coins block) with
    | none =>
      -- the block holds all that was committed to it, so its turn is idle
      have hdone : blockSequence records app block ≤ blockCount coins block := by
        have hnot := (hdense block (blockCount coins block)).not.mp (by simp [hpending])
        omega
      obtain ⟨coins', hrun, hcount⟩ := ih coins hholds hle
      refine ⟨coins', ?_, ?_⟩
      · simp [deliverAll, deliverNext, hpending, hrun]
      · intro b
        rw [hcount b, count_cons]
        by_cases hb : block = b
        · subst hb
          omega
        · simp [hb]
    | some d =>
      have hlt : blockCount coins block < blockSequence records app block :=
        (hdense _ _).mp (by simp [hpending])
      have hnext := deliverNext_ok hdistinct (hselected _ _ _ hpending) hholds
        (hlt.trans_le (hroom block)) hpending
      have hcount' : ∀ b, blockCount (coins ++ [⟨d.address, block, blockCount coins block⟩]) b =
          blockCount coins b + if block = b then 1 else 0 := by
        intro b
        simp [blockCount, countP_append, countP_cons]
      obtain ⟨coins', hrun, hcount⟩ := ih _ (hholds.snoc hpending) (by
        intro b
        rw [hcount' b]
        by_cases hb : block = b
        · subst hb
          rw [if_pos rfl]
          omega
        · rw [if_neg hb]
          exact hle b)
      refine ⟨coins', ?_, ?_⟩
      · simp only [deliverAll, hnext, hrun]
      · intro b
        rw [hcount b, hcount' b, count_cons]
        by_cases hb : block = b
        · subst hb
          simp only [beq_self_eq_true, if_true]
          omega
        · simp [hb]

variable {shieldFrame : Nat}

/-- An undecided entry that passes the checks before placement names no address that a live
delivery names. -/
def FreshOutputs (app : Bytes32) (e : GlobalEvent) : Prop :=
  ∀ frame entry sourceShard, e.input = .commit frame entry sourceShard →
    e.before (.decision app entry.txId) = none → checkContext e.before app entry = none →
    checkSpend e.before app entry frame = .ok none → ∀ addr ∈ entry.outputs, ∀ b n d,
      delivery e.before app b n = some d → d.address ≠ addr

/-- The addresses a log placed, in commit order. -/
def placedAddresses (log : List GlobalEvent) : List Bytes32 :=
  (placedIn .coin log).map fun x => x.2.address

variable {log : List GlobalEvent} {s : Records}

section Complete

variable (h : QueuesComplete app log s)
include h

/-- An address a log placed is named by a live delivery. -/
theorem exists_delivery {addr : Bytes32} (hmem : addr ∈ placedAddresses log) :
    ∃ b n d, delivery s app b n = some d ∧ d.address = addr := by
  obtain ⟨x, hx, rfl⟩ := mem_map.mp hmem
  have hqueue : x.2 ∈ queueOf .coin log x.1 := Queues.mem_pushAll.mpr (.inr hx)
  obtain ⟨n, hn⟩ := mem_iff_getElem?.mp hqueue
  exact ⟨x.1, n, x.2, ((h.stored .coin).slot_eq x.1 n).trans hn, rfl⟩

/-- A call on fresh outputs keeps the placed addresses distinct. -/
theorem placedAddresses_step {op : GlobalOp} (hnodup : (placedAddresses log).Nodup)
    (hfresh : FreshOutputs app (event (globalStep shieldFrame app) s op)) :
    (placedAddresses
      (log ++ [event (globalStep shieldFrame app) s op])).Nodup := by
  have hsplit : placedAddresses
      (log ++ [event (globalStep shieldFrame app) s op]) =
      placedAddresses log ++ (placedBy .coin (event (globalStep shieldFrame app) s op)).map
          fun x => x.2.address := by
    simp [placedAddresses, placedIn, flatMap_append]
  rw [hsplit]
  rcases placedBy_cases shieldFrame app s op with
    hnil | ⟨frame, entry, sourceShard, placements, _, escrow, _, rfl, hc, hplaced⟩
  · rw [hnil]
    simpa using hnodup
  obtain ⟨haddresses, -⟩ := placeOutputs_names entry.outputs _ _ _ hc.placed
  obtain ⟨-, houtputs, -⟩ := validateAt_ok hc.valid
  have hnew : ((lanePlacements placements escrow .coin).map fun p =>
      (p.block, entryDelivery entry sourceShard p.address)).map (fun x => x.2.address) =
      entry.outputs := by
    rw [← haddresses]
    simp [lanePlacements, entryDelivery]
  rw [hplaced, hnew]
  refine Nodup.append hnodup houtputs ?_
  intro addr hold hnew'
  obtain ⟨b, n, d, hd, haddr⟩ := exists_delivery h hold
  exact hfresh frame entry sourceShard rfl hc.undecided hc.agrees hc.checked addr hnew' b n d hd haddr

/-- Distinct placed addresses are distinct among the live deliveries. -/
theorem addressesDistinct_of_nodup (hnodup : (placedAddresses log).Nodup) :
    AddressesDistinct s app := by
  intro b n d b' n' d' hd hd' haddr
  obtain ⟨hslot, hmem⟩ := h.delivery_placed hd
  obtain ⟨hslot', hmem'⟩ := h.delivery_placed hd'
  have hsame : (b, d) = (b', d') := inj_on_of_nodup_map hnodup hmem hmem' haddr
  cases hsame
  refine ⟨rfl, ?_⟩
  have hqueue : (queueOf .coin log b).Nodup := by
    unfold queueOf
    rw [Queues.pushAll_apply, nil_append]
    apply Nodup.of_map fun x : Delivery => x.address
    rw [map_map]
    exact hnodup.sublist (filter_sublist.map _)
  obtain ⟨hlt, -⟩ := List.getElem?_eq_some_iff.mp hslot
  exact (getElem?_inj hlt hqueue).mp (hslot.trans hslot'.symm)

end Complete

/-- **Committed outputs are deliverable when they are fresh.**  Without orphan moves the live
deliveries name distinct addresses, every schedule of a shard succeeds and a block scheduled often
enough reaches its committed count. -/
theorem committed_outputs_deliverable_when_fresh (shieldFrame : Nat)
    (app : Bytes32) (ops : List GlobalOp)
    (hops : ∀ op ∈ ops, op.isAttest = false)
    (hfresh : ∀ e ∈ globalEvents shieldFrame app ops, FreshOutputs app e) :
    AddressesDistinct (globalRecords shieldFrame app ops) app ∧
    ∀ schedule : List Nat, ∃ coins, deliverAll (globalRecords shieldFrame app ops) app [] schedule =
        .ok coins ∧
      ∀ block, blockCount coins block = min (schedule.count block)
        (blockSequence (globalRecords shieldFrame app ops) app block) := by
  have hrun : ∀ ops, (∀ e ∈ globalEvents shieldFrame app ops,
      e.input.isAttest = false ∧ FreshOutputs app e) →
      QueuesComplete app (globalEvents shieldFrame app ops)
        (globalRecords shieldFrame app ops) ∧
      (placedAddresses (globalEvents shieldFrame app ops)).Nodup := by
    apply history_invariant (globalStep shieldFrame app)
      (fun log s => QueuesComplete app log s ∧ (placedAddresses log).Nodup)
      (fun e => e.input.isAttest = false ∧ FreshOutputs app e)
    · exact ⟨queuesComplete_empty, nodup_nil⟩
    · intro log t op h hok
      exact ⟨queuesComplete_step h.1 hok.1, placedAddresses_step h.1 h.2 hok.2⟩
  obtain ⟨h, hnodup⟩ := hrun ops (by
    intro e he
    exact ⟨not_attest_of_mem hops he, hfresh e he⟩)
  have hdistinct := addressesDistinct_of_nodup h hnodup
  refine ⟨hdistinct, ?_⟩
  intro schedule
  obtain ⟨coins, hcoins, hcount⟩ := deliverAll_ok hdistinct
    (fun b n d hd => h.selected .coin _ (h.delivery_placed hd).2) (h.stored .coin).dense
    (fun b => ((h.stored .coin).next_eq b).trans_le (h.room b)) schedule []
    (by intro coin hcoin; cases hcoin) (by intro b; exact Nat.zero_le _)
  refine ⟨coins, hcoins, ?_⟩
  intro block
  rw [hcount block]
  simp [blockCount]

/-- Two spends that name the same output. -/
def twinSpends : List GlobalOp :=
  [.commit 100 (plainSpend 1 [20] [0]) (.known []), .commit 101 (plainSpend 2 [21] [0]) (.known [])]

/-- Both spends commit, and their block stalls at the second one's output. -/
theorem twin_spends_stall_their_block : (globalEvents 0 5 twinSpends).map committedEntry =
      [some (100, plainSpend 1 [20] [0]), some (101, plainSpend 2 [21] [0])] ∧
    blockSequence (globalRecords 0 5 twinSpends) 5 64 = 2 ∧
    (delivery (globalRecords 0 5 twinSpends) 5 64 0).map Delivery.address = some 0 ∧
    (delivery (globalRecords 0 5 twinSpends) 5 64 1).map Delivery.address = some 0 ∧
    deliverAll (globalRecords 0 5 twinSpends) 5 [] [64, 64] =
      .error (invalid "coin already present") := by
  refine ⟨by decide, by decide, by decide, by decide, rfl⟩

/-- Two spends with outputs of their own. -/
def freshSpends : List GlobalOp :=
  [.commit 100 (plainSpend 1 [20] [0]) (.known []), .commit 101 (plainSpend 2 [21] [1]) (.known [])]

/-- Both are delivered whole. -/
theorem fresh_spends_are_delivered : ∃ coins,
    deliverAll (globalRecords 0 5 freshSpends) 5 [] [64, 64] = .ok coins ∧
      blockCount coins 64 = 2 := by
  have hfresh : ∀ e ∈ globalEvents 0 5 freshSpends, FreshOutputs 5 e := by
    rintro e he _ entry _ hinput - - - addr haddr b n d hd
    rcases mem_cons.mp he with rfl | he
    · cases hd
    obtain rfl := mem_singleton.mp he
    cases hinput
    obtain rfl := mem_singleton.mp haddr
    -- the one delivery before the second spend is the first one's
    have hmem := ((queuesComplete_run 0 5 (freshSpends.take 1)
      (by simp [freshSpends, GlobalOp.isAttest])).delivery_placed hd).2
    cases mem_singleton.mp hmem
    decide
  obtain ⟨-, hdeliver⟩ := committed_outputs_deliverable_when_fresh 0 5 freshSpends
    (by simp [freshSpends, GlobalOp.isAttest]) hfresh
  obtain ⟨coins, hcoins, hcount⟩ := hdeliver [64, 64]
  exact ⟨coins, hcoins, (hcount 64).trans (by decide)⟩

end ShardDelivery

end Token

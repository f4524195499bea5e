import QuilNode.Token.GlobalCommit

/-!
# Outputs orphaned by a split (`token_intrinsic/global_commit.rs`)

A split can leave a block without a shard that owns it whole while outputs
committed to it are undelivered.  `reconcileOrphans` marks such blocks after a
topology change; `applyOrphanAttestation` moves what the block did not receive
to the blocks the addresses select at the current width, and ends the block's
queues at what it holds.
-/

namespace Token

namespace GlobalCommit

/-- The blocks on `shard`'s own path narrower than the shard, which alone a split can leave without
a whole owner. -/
def ancestorBlocks (shard : List Bool) : List Nat :=
  let top := min shard.length (CoinBlocks.maxBlockBits + 1)
  (List.range' CoinBlocks.initialBlockBits (top - CoinBlocks.initialBlockBits)).filterMap
    fun width => (CoinBlocks.blockId width (CoinBlocks.pathValue (shard.take width))).toOption

/-- The candidate blocks of a topology change, in ascending order. -/
def orphanCandidates (shards : List (List Bool)) : List Nat :=
  (shards.foldl (fun blocks shard =>
    (ancestorBlocks shard).foldl (fun blocks block => blocks.insert block ()) blocks)
      (OrdMap.empty : OrdMap Nat Unit)).entries.map Prod.fst

/-- An awaiting orphan that is owned again is released, an unowned block with committed outputs is
marked.  Carries `(marked, released)`. -/
def reconcileBlock (frame : Nat) (app : Bytes32) (registered : List (List Bool))
    (state : Records × Nat × Nat) (block : Nat) : Records × Nat × Nat :=
  let (records, marked, released) := state
  let owned := registered.any fun shard => CoinBlocks.shardOwnsBlock shard block
  match orphan records app block with
  | some existing =>
    if owned && !existing.moved then
      (records.clear (.orphan app block), marked, released + 1)
    else state
  | none =>
    if owned then state
    else if 0 < blockSequence records app block + escrowSequence records app block then
      (records.write (.orphan app block) ⟨frame, false, 0, 0⟩, marked + 1, released)
    else state

/-- Reconcile orphan records with the registered shards.  Returns the records and `(marked,
released)`. -/
def reconcileOrphans (records : Records) (frame : Nat) (app : Bytes32)
    (registered removed : List (List Bool)) : Records × Nat × Nat :=
  (orphanCandidates (registered ++ removed)).foldl
    (reconcileBlock frame app registered) (records, 0, 0)

/-- Move the delivery at `(block, seq)` to the block its address selects.  `seqs` caches the
counters the loop has advanced. -/
def moveDelivery (app : Bytes32) (lane : Lane) (width block : Nat)
    (records : Records) (sequences : OrdMap Nat Nat) (seq : Nat) :
    Result (OrdMap Nat Nat) × Records :=
  match readDelivery records app lane block seq with
  | none => (.error (invalid "an orphaned block is missing a committed delivery"), records)
  | some record =>
    match CoinBlocks.blockForAddress width record.address with
    | .error e => (.error e, records)
    | .ok target =>
      let next := (sequences.get? target).getD (laneSequence records app lane target)
      if blockCapacity ≤ next then (.error (invalid "block is full"), records)
      else
        let placed := writeDelivery records app lane target next (.live record)
        (.ok (sequences.insert target (next + 1)), writeDelivery placed app lane block seq
            (.moved record.address target next))

/-- The move loop of one lane. -/
def moveDeliveries (app : Bytes32) (lane : Lane) (width block : Nat) :
    List Nat → Records → OrdMap Nat Nat → Result (OrdMap Nat Nat) × Records
  | [], records, sequences => (.ok sequences, records)
  | seq :: seqs, records, sequences =>
    match moveDelivery app lane width block records sequences seq with
    | (.error e, records) => (.error e, records)
    | (.ok sequences, records) =>
      moveDeliveries app lane width block seqs records sequences

/-- The orphaned block's own queue ends at what it holds. -/
def truncateSequence (sequences : OrdMap Nat Nat) (block held committed : Nat) : OrdMap Nat Nat :=
  if held < committed then sequences.insert block held else sequences

/-- Apply an orphaned block's attested `(coins, escrows)`.  Returns whether
anything was applied. -/
def applyOrphanAttestation (records : Records) (app : Bytes32)
    (block coins escrows : Nat) : Result Bool × Records :=
  match orphan records app block with
  | none => (.ok false, records)
  | some existing =>
    if existing.moved then
      if (existing.coins, existing.escrows) ≠ (coins, escrows) then
        (.error (invalid "an orphaned block attested with different counts"), records)
      else (.ok false, records)
    else
      let committed := blockSequence records app block
      let committedEscrows := escrowSequence records app block
      if committed < coins ∨ committedEscrows < escrows then
        (.error (invalid "an orphaned block attested more than was committed to it"), records)
      else
        match placementWidth records app with
        | .error e => (.error e, records)
        | .ok width =>
          match moveDeliveries app .coin width block
            (List.range' coins (committed - coins)) records .empty with
          | (.error e, moved) => (.error e, moved)
          | (.ok sequences, moved) =>
            match moveDeliveries app .escrow width block
              (List.range' escrows (committedEscrows - escrows)) moved .empty with
            | (.error e, moved) => (.error e, moved)
            | (.ok escrowSequences, moved) =>
              let sequenced := writeSequences moved app .coin
                (truncateSequence sequences block coins committed)
              let ended := writeSequences sequenced app .escrow
                (truncateSequence escrowSequences block escrows committedEscrows)
              (.ok true, ended.write (.orphan app block)
                ⟨existing.since, true, coins, escrows⟩)

end GlobalCommit

end Token

import QuilNode.Lib.Run
import QuilNode.Token.CommitSpec
import QuilNode.Token.Orphans

/-!
# Histories of one application in GLOBAL state

A history is any sequence of calls of `commitEntry`, the publication of a root history, the width
raise, the orphan reconciliation and orphan attestations, with any arguments.  The writes of a
failing attestation are rolled back; those of a failing commit are kept, which only admits more
histories.
-/

namespace Token

open Store.AgreeOutside

namespace GlobalCommit

/-- One call of the materializer on an application's records. -/
inductive GlobalOp where
  | commit (frame : Nat) (entry : SpendEntry) (sourceShard : ShardPath)
  | publish (history : RootHistory)
  | raiseWidth (shardDepth : Nat)
  | reconcile (frame : Nat) (registered removed : List (List Bool))
  | attest (block coins escrows : Nat)

/-- What a call returned. -/
inductive GlobalResult where
  | outcome (result : Result Outcome)
  | published
  | width (result : Result Nat)
  | reconciled (marked released : Nat)
  | attested (result : Result Bool)

variable (shieldFrame : Nat) (app : Bytes32)

/-- Perform one call. -/
def globalStep (records : Records) : GlobalOp → GlobalResult × Records
  | .commit frame entry sourceShard =>
    let (result, records) :=
      commitEntry shieldFrame records frame app entry sourceShard
    (.outcome result, records)
  | .publish history => (.published, records.write (.rootHistory app) history)
  | .raiseWidth shardDepth =>
    let (result, records) := raisePlacementWidth records app shardDepth
    (.width result, records)
  | .reconcile frame registered removed =>
    let (records, marked, released) :=
      reconcileOrphans records frame app registered removed
    (.reconciled marked released, records)
  | .attest block coins escrows =>
    match applyOrphanAttestation records app block coins escrows with
    | (.error e, _) => (.attested (.error e), records)
    | (.ok applied, attested) => (.attested (.ok applied), attested)

abbrev GlobalEvent := Run.Event Records GlobalOp GlobalResult

/-- The events of a history from empty records. -/
def globalEvents (ops : List GlobalOp) : List GlobalEvent :=
  Run.events (globalStep shieldFrame app) Store.empty ops

/-- The records a history from empty records ends with. -/
def globalRecords (ops : List GlobalOp) : Records :=
  Run.final (globalStep shieldFrame app) Store.empty ops

/-- The frame and entry of a call that returned `committed`. -/
def committedEntry (e : GlobalEvent) : Option (Nat × SpendEntry) :=
  match e.input, e.result with
  | .commit frame entry _, .outcome (.ok (.committed _ _ _)) => some (frame, entry)
  | _, _ => none

/-- The committed entries of a log, in order. -/
def commits (log : List GlobalEvent) : List (Nat × SpendEntry) :=
  log.filterMap committedEntry

/-- Whether a call gave operation `txId` an outcome other than
`alreadyDecided`. -/
def decides (txId : Bytes32) (e : GlobalEvent) : Bool :=
  match e.input, e.result with
  | .commit _ entry _, .outcome (.ok (.rejected _)) => entry.txId == txId
  | .commit _ entry _, .outcome (.ok (.committed _ _ _)) => entry.txId == txId
  | _, _ => false

variable {shieldFrame app}

/-- The addresses orphan handling and publication may write. -/
def maintenanceAddresses (app : Bytes32) : Set RecordAddress
  | .context _ => False
  | .consumed _ _ => False
  | .decision _ _ => False
  | .escrow _ _ => False
  | .sequence _ a _ => a = app
  | .delivery _ a _ _ => a = app
  | .placementWidth a => a = app
  | .orphan a _ => a = app
  | .rootHistory a => a = app
  | .settlement _ => False

variable {A : Set RecordAddress} {s : Records}

theorem reconcileBlock_agree {frame block : Nat} {registered : List (List Bool)}
    {state : Records × Nat × Nat} (hmem : RecordAddress.orphan app block ∈ A)
    (h : s.AgreeOutside A state.1) :
    s.AgreeOutside A (reconcileBlock frame app registered state block).1 := by
  simp only [reconcileBlock]
  split
  · split
    · exact h.clear hmem
    · exact h
  · split
    · exact h
    · split
      · exact h.write hmem _
      · exact h

/-- Reconciliation writes orphan records only. -/
theorem reconcileOrphans_agree {frame : Nat} {registered removed : List (List Bool)} :
    s.AgreeOutside {k | ∃ block, k = .orphan app block}
      (reconcileOrphans s frame app registered removed).1 := by
  refine List.foldlRecOn _ _ (motive := fun state : Records × Nat × Nat =>
    s.AgreeOutside {k | ∃ block, k = .orphan app block} state.1) ?_ fun _ h block _ => ?_
  · exact refl _ _
  · exact reconcileBlock_agree ⟨block, rfl⟩ h

theorem moveDelivery_agree {lane : Lane} {records : Records} (width block seq : Nat)
    (sequences : OrdMap Nat Nat) (hmem : ∀ b n, RecordAddress.delivery lane app b n ∈ A)
    (h : s.AgreeOutside A records) :
    s.AgreeOutside A (moveDelivery app lane width block records sequences seq).2 := by
  unfold moveDelivery
  split
  · exact h
  split
  · exact h
  simp only
  split
  · exact h
  · exact (h.write (hmem _ _) _).write (hmem _ _) _

theorem moveDeliveries_agree {lane : Lane} (width block : Nat)
    (hmem : ∀ b n, RecordAddress.delivery lane app b n ∈ A) (seqs : List Nat) :
    ∀ records sequences, s.AgreeOutside A records → s.AgreeOutside A
        (moveDeliveries app lane width block seqs records sequences).2 := by
  induction seqs with
  | nil => intro records sequences h; exact h
  | cons seq seqs ih =>
    intro records sequences h
    have hstep := moveDelivery_agree width block seq sequences hmem h
    simp only [moveDeliveries]
    split
    · rename_i heq
      rw [heq] at hstep
      exact hstep
    · rename_i heq
      rw [heq] at hstep
      exact ih _ _ hstep

theorem writeSequences_agree {lane : Lane} {records : Records} {sequences : OrdMap Nat Nat}
    (hmem : ∀ b, RecordAddress.sequence lane app b ∈ A) (h : s.AgreeOutside A records) :
    s.AgreeOutside A (writeSequences records app lane sequences) :=
  h.writeEach fun advance _ => hmem advance.1

/-- An attestation writes queues and orphan records only. -/
theorem applyOrphanAttestation_agree (s : Records) (app : Bytes32)
    (block coins escrows : Nat) :
    s.AgreeOutside (maintenanceAddresses app)
      (applyOrphanAttestation s app block coins escrows).2 := by
  have hrefl : s.AgreeOutside (maintenanceAddresses app) s := refl _ _
  have hdelivery : ∀ lane b n, RecordAddress.delivery lane app b n ∈
      maintenanceAddresses app := fun _ _ _ => rfl
  have hsequence : ∀ lane b, RecordAddress.sequence lane app b ∈
      maintenanceAddresses app := fun _ _ => rfl
  unfold applyOrphanAttestation
  split
  · exact hrefl
  split
  · split
    · exact hrefl
    · exact hrefl
  simp only
  split
  · exact hrefl
  split
  · exact hrefl
  rename_i width hwidth
  have hcoins := moveDeliveries_agree width block (hdelivery .coin)
    (List.range' coins (blockSequence s app block - coins)) s .empty hrefl
  split
  · rename_i heq
    rw [heq] at hcoins
    exact hcoins
  rename_i sequences moved heq
  rw [heq] at hcoins
  have hescrows := moveDeliveries_agree width block (hdelivery .escrow)
    (List.range' escrows (escrowSequence s app block - escrows)) moved .empty hcoins
  split
  · rename_i heq'
    rw [heq'] at hescrows
    exact hescrows
  rename_i escrowSequences moved' heq'
  rw [heq'] at hescrows
  exact (writeSequences_agree (hsequence .escrow)
    (writeSequences_agree (hsequence .coin) hescrows)).write rfl _

/-- **Maintenance.**  A call other than a commit writes queues, the width, orphan records and the
root history of its application only. -/
theorem globalStep_maintenance (shieldFrame : Nat) (app : Bytes32) (s : Records)
    {op : GlobalOp}
    (hop : ∀ frame entry sourceShard, op ≠ .commit frame entry sourceShard) :
    s.AgreeOutside (maintenanceAddresses app)
      (globalStep shieldFrame app s op).2 := by
  cases op with
  | commit frame entry sourceShard => exact absurd rfl (hop frame entry sourceShard)
  | publish =>
    exact (refl (maintenanceAddresses app) s).write rfl _
  | raiseWidth shardDepth =>
    apply (raisePlacementWidth_agree s app shardDepth).mono
    intro k hk
    cases hk
    rfl
  | reconcile =>
    apply reconcileOrphans_agree.mono
    intro k hk
    obtain ⟨_, rfl⟩ := hk
    rfl
  | attest block coins escrows =>
    have hagree := applyOrphanAttestation_agree s app block coins escrows
    simp only [globalStep]
    split
    · exact refl _ _
    rename_i heq
    rw [heq] at hagree
    exact hagree

/-- The event of a commit call, from what the call returned. -/
theorem commit_event {t : Records} {frame : Nat} {entry : SpendEntry} {sourceShard : ShardPath}
    {r : Result Outcome}
    (h : commitEntry shieldFrame s frame app entry sourceShard = (r, t)) :
    Run.event (globalStep shieldFrame app) s (.commit frame entry sourceShard) =
      ⟨s, .commit frame entry sourceShard, .outcome r, t⟩ := by
  simp [Run.event, globalStep, h]

end GlobalCommit

end Token

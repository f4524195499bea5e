import QuilNode.Token.CommitSafety
import QuilNode.Token.DeliveryHistory
import QuilNode.Token.OrphanMoves

/-!
# Orphan moves over whole histories

A queued delivery is identified by its address and its operation: an operation
is decided once and lists an address once, so no lane ever queues the same
identity twice.  With that, an applied attestation loses and duplicates nothing
as long as the moves of every attestation go to other blocks (`MovesAway`), and
it loses what it moves when they do not.
-/

namespace Token

open List Function Queues CoinBlocks Prod

namespace GlobalCommit

variable {shieldFrame : Nat} {app : Bytes32} {s t : Records} {lane : Lane}

/-- What makes a queued delivery the same delivery. -/
def identity (d : Delivery) : Bytes32 × Bytes32 := (d.address, d.txId)

/-- A lane is stored as queues without repetition, and every queued delivery sits in the block its
address selects and belongs to a decided operation. -/
def LaneOrderly (s : Records) (app : Bytes32) (lane : Lane) : Prop :=
  ∃ Q, LaneStored s app lane Q ∧ Queues.Distinct identity Q ∧
    ∀ b, ∀ d ∈ Q b, SelectsBlock (b, d) ∧ isDecided s app d.txId = true

/-- A decided operation stays decided. -/
theorem isDecided_step {txId : Bytes32} (h : isDecided s app txId = true) (op : GlobalOp) :
    isDecided (globalStep shieldFrame app s op).2 app txId = true := by
  unfold isDecided at h ⊢
  rw [Option.isSome_iff_exists] at h
  obtain ⟨_, hdecision⟩ := h
  rw [decision_final_step hdecision op]
  rfl

/-- What a call queues belongs to an operation it decided itself, and repeats
no identity. -/
theorem placedBy_identities (shieldFrame : Nat) (app : Bytes32) (lane : Lane)
    (s : Records) (op : GlobalOp) :
    (∀ x ∈ placedBy lane (Run.event (globalStep shieldFrame app) s op),
      s (.decision app x.2.txId) = none ∧
      isDecided (globalStep shieldFrame app s op).2 app x.2.txId = true) ∧
    ((placedBy lane (Run.event (globalStep shieldFrame app) s op)).map
      fun x => identity x.2).Nodup := by
  rcases placedBy_cases shieldFrame app s op with
    hnil | ⟨frame, entry, sourceShard, placements, _, escrowPlacement, _, rfl, hc, hplaced⟩
  · rw [hnil]
    simp
  rw [hplaced]
  constructor
  · intro x hx
    obtain ⟨_, _, rfl⟩ := mem_map.mp hx
    refine ⟨hc.undecided, ?_⟩
    simp [isDecided, entryDelivery, hc.writes.decision]
  · have hmap : ((lanePlacements placements escrowPlacement lane).map fun p =>
        (p.block, entryDelivery entry sourceShard p.address)).map (fun x => identity x.2) =
        ((lanePlacements placements escrowPlacement lane).map Placement.address).map
          fun a => (a, entry.txId) := by
      simp [identity, entryDelivery]
    rw [hmap]
    apply Nodup.map
    · intro a b hab
      exact congrArg fst hab
    cases lane with
    | coin =>
      obtain ⟨haddresses, -⟩ := placeOutputs_names entry.outputs _ _ _ hc.placed
      obtain ⟨-, houtputs, -⟩ := validateAt_ok hc.valid
      simp only [lanePlacements]
      rw [haddresses]
      exact houtputs
    | escrow => cases escrowPlacement <;> simp [lanePlacements]

/-- A call other than an attestation keeps a lane in order. -/
theorem laneOrderly_step (h : LaneOrderly s app lane) {op : GlobalOp}
    (hop : op.isAttest = false) : LaneOrderly (globalStep shieldFrame app s op).2 app lane := by
  obtain ⟨_, hQ, hdistinct, hgood⟩ := h
  obtain ⟨hnew, hnodup⟩ := placedBy_identities shieldFrame app lane s op
  refine ⟨_, globalStep_stored hQ hop, hdistinct.pushAll _ _ hnodup ?_, ?_⟩
  · -- an old delivery's operation was decided before, a new one's was not
    intro x hx b d hd heq
    have hold := (hgood b d hd).2
    have hundecided := (hnew x hx).1
    have htx : d.txId = x.2.txId := congrArg snd heq
    unfold isDecided at hold
    rw [htx, hundecided] at hold
    cases hold
  · intro b d hd
    rcases mem_pushAll.mp hd with hd | hd
    · exact ⟨(hgood b d hd).1, isDecided_step (hgood b d hd).2 op⟩
    · exact ⟨placedBy_selects lane s op _ hd, (hnew _ hd).2⟩

/-- The attestation's block was created at another width than the current one, or there is nothing
to move. -/
def MovesAway (s : Records) (app : Bytes32) (block coins escrows : Nat) : Prop :=
  placementWidth s app ≠ .ok (CoinBlocks.creationWidth block) ∨
    (coins = blockSequence s app block ∧ escrows = escrowSequence s app block)

/-- The block awaits its attestation. -/
def Awaits (s : Records) (app : Bytes32) (block : Nat) : Prop :=
  ∃ existing, orphan s app block = some existing ∧ existing.moved = false

/-- The step is no attestation of an awaiting block, or its moves go to other
blocks. -/
def AttestsAway (app : Bytes32) (e : GlobalEvent) : Prop :=
  ∀ block coins escrows, e.input = .attest block coins escrows →
    Awaits e.before app block → MovesAway e.before app block coins escrows

variable {block escrows : Nat}

/-- `MovesAway` is what each lane's move needs. -/
theorem MovesAway.of_lane {coins width : Nat} (h : MovesAway s app block coins escrows)
    (hwidth : placementWidth s app = .ok width) (lane : Lane) :
    heldIn coins escrows lane = laneSequence s app lane block ∨ creationWidth block ≠ width := by
  rcases h with hne | ⟨hcoins, hescrows⟩
  · right
    intro heq
    exact hne (by rw [hwidth, heq])
  · left
    cases lane with
    | coin => exact hcoins
    | escrow => exact hescrows

variable {Q : Nat → List Delivery}

/-- The queues after an attestation whose moves went to other blocks. -/
theorem attestation_stored {coins : Nat}
    (h : applyOrphanAttestation s app block coins escrows = (.ok true, t))
    (haway : MovesAway s app block coins escrows) (hQ : LaneStored s app lane Q) :
    ∃ xs : List (Nat × Delivery), xs.map snd = (Q block).drop (heldIn coins escrows lane) ∧
      (∀ x ∈ xs, SelectsBlock x) ∧
      LaneStored t app lane (pushAll
        (Function.update Q block ((Q block).take (heldIn coins escrows lane))) xs) := by
  obtain ⟨_, _, -, -, hwidth, hlanes, -⟩ := attestation_lanes h
  obtain ⟨xs, hxs, htargets, hstored⟩ := (hlanes lane).stored hQ (haway.of_lane hwidth lane)
  refine ⟨xs, hxs, ?_, hstored⟩
  intro x hx
  have htarget := (htargets x hx).1
  unfold SelectsBlock
  rw [(blockForAddress_spec htarget).1]
  exact htarget

/-- An attestation whose moves go to other blocks keeps a lane in order. -/
theorem laneOrderly_attest {coins : Nat} (h : LaneOrderly s app lane)
    (happly : applyOrphanAttestation s app block coins escrows = (.ok true, t))
    (haway : MovesAway s app block coins escrows)
    (hdecided : ∀ txId, isDecided s app txId = true →
      isDecided t app txId = true) : LaneOrderly t app lane := by
  obtain ⟨_, hQ, hdistinct, hgood⟩ := h
  obtain ⟨_, hxs, hselects, hstored⟩ := attestation_stored happly haway hQ
  refine ⟨_, hstored, hdistinct.cut block _ hxs, ?_⟩
  intro b d hd
  rcases mem_of_mem_cut hxs hd with hold | ⟨hmem, hold⟩
  · exact ⟨(hgood b d hold).1, hdecided _ (hgood b d hold).2⟩
  · exact ⟨hselects _ hmem, hdecided _ (hgood block d hold).2⟩

/-- **Order is kept.**  In every history whose attestations move to other
blocks, both lanes are in order. -/
theorem laneOrderly_history (shieldFrame : Nat) (app : Bytes32) (ops : List GlobalOp)
    (h : ∀ e ∈ globalEvents shieldFrame app ops, AttestsAway app e)
    (lane : Lane) : LaneOrderly (globalRecords shieldFrame app ops) app lane := by
  apply Run.state_invariant (globalStep shieldFrame app)
    (fun s => LaneOrderly s app lane) (AttestsAway app)
    ⟨fun _ => [], laneStored_empty lane, ⟨by simp, by simp⟩, by simp⟩ _ ops h
  intro s op hs hok
  by_cases hop : op.isAttest = false
  · exact laneOrderly_step hs hop
  · cases op with
    | attest block coins escrows =>
      have hdecided : ∀ txId, isDecided s app txId = true → isDecided (globalStep shieldFrame app s
            (.attest block coins escrows)).2 app txId = true :=
        fun txId hd => isDecided_step hd _
      -- a refused attestation is rolled back, one that changed nothing returns the records
      cases hcall : applyOrphanAttestation s app block coins escrows with
      | mk result =>
        simp only [globalStep, hcall] at hdecided ⊢
        cases result with
        | error => exact hs
        | ok applied =>
          cases applied with
          | false =>
            rw [applyOrphanAttestation_false hcall]
            exact hs
          | true =>
            have hawaits : Awaits s app block := by
              obtain ⟨existing, _, hexisting, hmoved, -⟩ := attestation_lanes hcall
              exact ⟨existing, hexisting, hmoved⟩
            exact laneOrderly_attest hs hcall (hok block coins escrows rfl hawaits) hdecided
    | commit => exact absurd rfl hop
    | publish => exact absurd rfl hop
    | raiseWidth => exact absurd rfl hop
    | reconcile => exact absurd rfl hop

/-- `d` is live at a position: its record is there, below the block's recorded
sequence. -/
def LiveAt (t : Records) (app : Bytes32) (lane : Lane) (d : Delivery)
    (p : Nat × Nat) : Prop :=
  readDelivery t app lane p.1 p.2 = some d ∧ p.2 < laneSequence t app lane p.1

/-- Re-placing `block` from `s` to `t` lost and duplicated nothing. -/
structure Replaced (s t : Records) (app : Bytes32) (block coins escrows : Nat) : Prop where
  /-- What the block did not receive is live at exactly one position. -/
  moved : ∀ lane seq d, heldIn coins escrows lane ≤ seq →
    readDelivery s app lane block seq = some d → ∃! p, LiveAt t app lane d p
  /-- Every other live delivery is where it was. -/
  kept : ∀ lane b seq d, b ≠ block ∨ seq < heldIn coins escrows lane →
    readDelivery s app lane b seq = some d → LiveAt t app lane d (b, seq)
  /-- Nothing is live that was not. -/
  nothingNew : ∀ lane d p, LiveAt t app lane d p →
    ∃ q : Nat × Nat, readDelivery s app lane q.1 q.2 = some d
  dense : ∀ lane b seq, (readDelivery t app lane b seq).isSome ↔ seq < laneSequence t app lane b
  repeated : applyOrphanAttestation t app block coins escrows = (.ok false, t)

/-- The live positions of a stored lane are the positions of its queues. -/
theorem LaneStored.liveAt_iff (hQ : LaneStored t app lane Q) {d : Delivery} {p : Nat × Nat} :
    LiveAt t app lane d p ↔ (Q p.1)[p.2]? = some d := by
  unfold LiveAt
  rw [hQ.slot_eq p.1 p.2, hQ.next_eq p.1]
  constructor
  · exact fun h => h.1
  · intro h
    obtain ⟨hlt, -⟩ := List.getElem?_eq_some_iff.mp h
    exact ⟨h, hlt⟩

/-- In a stored lane without repetition, whose block has the current width, the first delivery moved
is live nowhere afterwards. -/
theorem LaneMoved.loses {width held : Nat} {d : Delivery}
    (h : LaneMoved s app width block lane held t) (hQ : LaneStored s app lane Q)
    (hdistinct : Distinct identity Q) (hselects : ∀ b, ∀ d ∈ Q b, SelectsBlock (b, d))
    (hwidth : creationWidth block = width)
    (hd : readDelivery s app lane block held = some d) (p : Nat × Nat) :
    ¬ LiveAt t app lane d p := by
  intro hlive
  have hslot := hQ.slot_eq
  have hat : (Q block)[held]? = some d := by
    rw [← hslot block held]
    exact hd
  have hlt : held < laneSequence s app lane block := by
    rw [hQ.next_eq block]
    exact (List.getElem?_eq_some_iff.mp hat).1
  obtain ⟨hcounter, hsame⟩ := h.onto hwidth hlt (by
    intro n d' hd'
    rw [hslot block n] at hd'
    exact hselects block d' (mem_of_getElem? hd'))
  have hbelow : p.1 ≠ block ∨ p.2 < held := by
    by_cases hb : p.1 = block
    · right
      have hseq := hlive.2
      rw [hb, hcounter] at hseq
      exact hseq
    · exact .inl hb
  have hread := hlive.1
  rw [hsame p.1 p.2 hbelow, hslot p.1 p.2] at hread
  obtain ⟨_, _⟩ := hdistinct.position_unique hat hread rfl
  omega

/-- What an attestation whose moves go to other blocks does to one lane. -/
theorem attestation_lane {coins : Nat} (h : LaneOrderly s app lane)
    (happly : applyOrphanAttestation s app block coins escrows = (.ok true, t))
    (haway : MovesAway s app block coins escrows) :
    (∀ seq d, heldIn coins escrows lane ≤ seq →
      readDelivery s app lane block seq = some d → ∃! p, LiveAt t app lane d p) ∧
    (∀ b seq d, b ≠ block ∨ seq < heldIn coins escrows lane →
      readDelivery s app lane b seq = some d → LiveAt t app lane d (b, seq)) ∧
    (∀ d p, LiveAt t app lane d p → ∃ q : Nat × Nat, readDelivery s app lane q.1 q.2 = some d) ∧
    (∀ b seq, (readDelivery t app lane b seq).isSome ↔ seq < laneSequence t app lane b) := by
  obtain ⟨Q, hQ, hdistinct, -⟩ := h
  obtain ⟨xs, hxs, -, hstored⟩ := attestation_stored happly haway hQ
  have hcut := hdistinct.cut block _ hxs
  have hslot := hQ.slot_eq
  refine ⟨?_, ?_, ?_, hstored.dense⟩
  · intro seq d hseq hd
    rw [hslot block seq] at hd
    have hdrop : d ∈ (Q block).drop (heldIn coins escrows lane) := by
      apply mem_of_getElem? (i := seq - heldIn coins escrows lane)
      rw [getElem?_drop]
      have hindex : heldIn coins escrows lane + (seq - heldIn coins escrows lane) = seq := by omega
      rw [hindex]
      exact hd
    rw [← hxs] at hdrop
    obtain ⟨x, hx, rfl⟩ := mem_map.mp hdrop
    have hmem : x.2 ∈ pushAll
        (update Q block ((Q block).take (heldIn coins escrows lane))) xs x.1 :=
      mem_pushAll.mpr (.inr hx)
    obtain ⟨n, hn⟩ := mem_iff_getElem?.mp hmem
    refine ⟨(x.1, n), hstored.liveAt_iff.mpr hn, ?_⟩
    intro p hp
    obtain ⟨hb, hn'⟩ := hcut.position_unique (hstored.liveAt_iff.mp hp) hn rfl
    exact Prod.ext hb hn'
  · intro b seq d hother hd
    rw [hslot b seq] at hd
    apply hstored.liveAt_iff.mpr
    rw [pushAll_apply]
    have hkept : (update Q block ((Q block).take (heldIn coins escrows lane)) b)[seq]? =
        some d := by
      by_cases hb : b = block
      · subst hb
        have hlt : seq < heldIn coins escrows lane := by omega
        rw [update_self, getElem?_take, if_pos hlt]
        exact hd
      · rw [update_of_ne hb]
        exact hd
    obtain ⟨hlt, -⟩ := List.getElem?_eq_some_iff.mp hkept
    rw [getElem?_append_left hlt]
    exact hkept
  · intro d p hp
    have hmem := mem_of_getElem? (hstored.liveAt_iff.mp hp)
    have hold : ∃ b, d ∈ Q b := by
      rcases mem_of_mem_cut hxs hmem with hmem | ⟨-, hmem⟩
      · exact ⟨p.1, hmem⟩
      · exact ⟨block, hmem⟩
    obtain ⟨b, hb⟩ := hold
    obtain ⟨n, hn⟩ := mem_iff_getElem?.mp hb
    refine ⟨(b, n), ?_⟩
    rw [hslot b n]
    exact hn

/-- **Re-placing loses and duplicates nothing exactly when it moves elsewhere**: when the moves of
the applied attestation go to other blocks. -/
theorem orphan_replaced_iff_moves_away (shieldFrame : Nat) (app : Bytes32)
    (ops : List GlobalOp)
    (h : ∀ e ∈ globalEvents shieldFrame app ops, AttestsAway app e)
    (block coins escrows : Nat) (t : Records)
    (happly : applyOrphanAttestation (globalRecords shieldFrame app ops)
      app block coins escrows = (.ok true, t)) :
    Replaced (globalRecords shieldFrame app ops) t app block coins escrows ↔
      MovesAway (globalRecords shieldFrame app ops) app block coins
        escrows := by
  have horderly := laneOrderly_history shieldFrame app ops h
  constructor
  · intro hreplaced
    by_contra haway
    obtain ⟨_, width, -, -, hwidth, hlanes, -⟩ := attestation_lanes happly
    simp only [MovesAway, not_or, not_not, not_and_or] at haway
    obtain ⟨hown, hcounts⟩ := haway
    have hcreation : creationWidth block = width := by
      rw [hwidth] at hown
      exact (Except.ok.inj hown).symm
    -- some lane has a delivery to move, and it selects the block itself
    have hlane : ∃ lane, heldIn coins escrows lane ≠
        laneSequence (globalRecords shieldFrame app ops) app lane block := by
      rcases hcounts with hne | hne
      · exact ⟨.coin, hne⟩
      · exact ⟨.escrow, hne⟩
    obtain ⟨lane, hne⟩ := hlane
    obtain ⟨Q, hQ, hdistinct, hgood⟩ := horderly lane
    have hlt : heldIn coins escrows lane < (Q block).length := by
      have hle := (hlanes lane).le
      rw [← hQ.next_eq block]
      exact lt_of_le_of_ne hle hne
    have hread : readDelivery (globalRecords shieldFrame app ops) app lane
        block (heldIn coins escrows lane) = some ((Q block)[heldIn coins escrows lane]) := by
      have hslot := hQ.slot_eq block (heldIn coins escrows lane)
      rw [getElem?_eq_getElem hlt] at hslot
      exact hslot
    obtain ⟨p, hp, -⟩ := hreplaced.moved lane _ _ le_rfl hread
    exact (hlanes lane).loses hQ hdistinct (fun b d hd => (hgood b d hd).1) hcreation hread p hp
  · intro haway
    have hlane := fun lane => attestation_lane (horderly lane) happly haway
    obtain ⟨_, _, -, -, -, -, hafter⟩ := attestation_lanes happly
    exact ⟨fun lane => (hlane lane).1, fun lane => (hlane lane).2.1,
      fun lane => (hlane lane).2.2.1, fun lane => (hlane lane).2.2.2,
      by simp [applyOrphanAttestation, hafter]⟩

/-- A history without attestations meets the condition. -/
theorem attestsAway_of_not_attest {ops : List GlobalOp} (h : ∀ op ∈ ops, op.isAttest = false) :
    ∀ e ∈ globalEvents shieldFrame app ops, AttestsAway app e := by
  intro e he block coins escrows hinput _
  have hop := not_attest_of_mem h he
  rw [hinput] at hop
  cases hop

/-- An output committed at width 6 whose block a split to seven bits orphans. -/
def splitOrphan : List GlobalOp :=
  [.commit 100 (plainSpend 1 [20] [0]) (.known []), .raiseWidth 7,
    .reconcile 101 [List.replicate 7 false] []]

/-- The output moves to the wider block its address selects. -/
theorem split_orphan_replaced :
    ∃ t, applyOrphanAttestation (globalRecords 0 5 splitOrphan) 5 64 0 0 = (.ok true, t) ∧
      Replaced (globalRecords 0 5 splitOrphan) t 5 64 0 0 := by
  refine ⟨_, rfl, ?_⟩
  apply (orphan_replaced_iff_moves_away 0 5 splitOrphan
    (attestsAway_of_not_attest (by simp [splitOrphan, GlobalOp.isAttest])) 64 0 0 _ rfl).mpr
  left
  decide

/-- **An output is queued once** in every history whose attestations move to other blocks: in the
block its address selects, by a decided operation, in one slot. -/
theorem outputs_queued_once (shieldFrame : Nat) (app : Bytes32) (ops : List GlobalOp)
    (h : ∀ e ∈ globalEvents shieldFrame app ops, AttestsAway app e)
    (lane : Lane) :
    let t := globalRecords shieldFrame app ops
    (∀ b n, (readDelivery t app lane b n).isSome ↔ n < laneSequence t app lane b) ∧
    ∀ b n d, readDelivery t app lane b n = some d →
      SelectsBlock (b, d) ∧ isDecided t app d.txId = true ∧
      ∀ b' n' d', readDelivery t app lane b' n' = some d' → identity d = identity d' →
        b = b' ∧ n = n' := by
  obtain ⟨_, hQ, hdistinct, hgood⟩ := laneOrderly_history shieldFrame app ops h lane
  refine ⟨hQ.dense, fun b n d hd => ?_⟩
  rw [hQ.slot_eq] at hd
  obtain ⟨hselects, hdecided⟩ := hgood b d (mem_of_getElem? hd)
  refine ⟨hselects, hdecided, fun b' n' d' hd' => ?_⟩
  rw [hQ.slot_eq] at hd'
  exact hdistinct.position_unique hd hd'

/-- The attestation of the orphaned block has moved its output to the block of seven bits. -/
theorem split_orphan_queued_once :
    ∃ d, readDelivery (globalRecords 0 5 (splitOrphan ++ [.attest 64 0 0])) 5 .coin 128 0 = some d ∧
      SelectsBlock (128, d) := by
  have haway : ∀ e ∈ globalEvents 0 5 (splitOrphan ++ [.attest 64 0 0]), AttestsAway 5 e := by
    intro e he
    rw [globalEvents, Run.events_append] at he
    rcases mem_append.mp he with he | he
    · exact attestsAway_of_not_attest (by simp [splitOrphan, GlobalOp.isAttest]) e he
    · obtain rfl := mem_singleton.mp he
      rintro _ _ _ ⟨⟩ -
      left
      decide
  exact ⟨_, rfl, ((outputs_queued_once 0 5 _ haway .coin).2 128 0 _ rfl).1⟩

/-- The output is committed at the maximal placement width, and a split to sixteen bits orphans its
block. -/
def deepOrphan : List GlobalOp :=
  [.raiseWidth 16, .commit 100 (plainSpend 1 [20] [0]) (.known []),
    .reconcile 101 [List.replicate 16 false] []]

/-- The attestation of an empty block of the maximal width is applied and
leaves the block's output live nowhere. -/
theorem deep_orphan_output_lost :
    ∃ d t, readDelivery (globalRecords 0 5 deepOrphan) 5 .coin 32768 0 = some d ∧
      applyOrphanAttestation (globalRecords 0 5 deepOrphan) 5 32768 0 0 = (.ok true, t) ∧
      ∀ p, ¬ LiveAt t 5 .coin d p := by
  have happly : applyOrphanAttestation (globalRecords 0 5 deepOrphan) 5 32768 0 0 =
      (.ok true, (applyOrphanAttestation (globalRecords 0 5 deepOrphan) 5 32768 0 0).2) := rfl
  refine ⟨⟨0, 40, 1, .known []⟩, _, rfl, happly, ?_⟩
  obtain ⟨_, hQ, hdistinct, hgood⟩ := laneOrderly_history 0 5 deepOrphan
    (attestsAway_of_not_attest (by simp [deepOrphan, GlobalOp.isAttest])) .coin
  obtain ⟨_, width, -, -, hwidth, hlanes, -⟩ := attestation_lanes happly
  have hfifteen : 15 = width := Except.ok.inj hwidth
  exact (hlanes .coin).loses hQ hdistinct (fun b d hd => (hgood b d hd).1)
    (by rw [← hfifteen]; decide) rfl

end GlobalCommit

end Token

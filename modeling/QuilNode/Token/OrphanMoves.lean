import QuilNode.Token.DeliveryQueues

/-!
# Re-placing the outputs of an orphaned block

`applyOrphanAttestation` cuts the block's queue at what it received and appends the rest to the
queues the addresses select at the current width.  When the block was created at that width its
deliveries select the block itself: they are appended behind the block's own counter, which the
final truncation then puts back in front of them.
-/

namespace Token

namespace GlobalCommit

open Queues CoinBlocks List OrdMap Store

variable {app : Bytes32} {s t : Records} {lane : Lane} {width block : Nat}

/-- What a successful move read and wrote. -/
theorem moveDelivery_ok {sequences sequences' : OrdMap Nat Nat} {seq : Nat}
    (h : moveDelivery app lane width block s sequences seq = (.ok sequences', t)) :
    ∃ record target, readDelivery s app lane block seq = some record ∧
      blockForAddress width record.address = .ok target ∧
      sequences' = sequences.insert target
        ((sequences.get? target).getD (laneSequence s app lane target) + 1) ∧
      readDelivery t app lane = setSlot (setSlot (readDelivery s app lane) target
          ((sequences.get? target).getD (laneSequence s app lane target))
          (some record)) block seq none ∧
      laneSequence t app lane = laneSequence s app lane := by
  unfold moveDelivery at h
  split at h
  · cases h
  rename_i record hrecord
  split at h
  · cases h
  rename_i target htarget
  simp only at h
  split at h
  · cases h
  cases h
  refine ⟨record, target, hrecord, htarget, rfl, ?_, ?_⟩
  · rw [readDelivery_writeDelivery, readDelivery_writeDelivery]
    rfl
  · funext b
    simp [laneSequence, writeDelivery, write_of_ne]

/-- **Moving elsewhere**: the loop appends the rest of the block's queue to the queues the addresses
select and leaves a hole in the block. -/
theorem moveDeliveries_away (k hi : Nat) (s t : Records)
    (sequences sequences' : OrdMap Nat Nat) (R : Nat → List Delivery) (lo : Nat)
    (hne : k = 0 ∨ creationWidth block ≠ width)
    (hhole : Queues.Holed (readDelivery s app lane) R block lo hi) (hlo : lo ≤ hi)
    (hlen : hi + k = (R block).length)
    (hcount : ∀ b, (sequences.get? b).getD (laneSequence s app lane b) = (R b).length)
    (h : moveDeliveries app lane width block (range' hi k) s sequences = (.ok sequences', t)) :
    ∃ xs : List (Nat × Delivery), xs.map Prod.snd = (R block).drop hi ∧
      (∀ x ∈ xs, blockForAddress width x.2.address = .ok x.1 ∧ x.1 ≠ block) ∧
      Queues.Holed (readDelivery t app lane) (pushAll R xs) block lo (hi + k) ∧
      (∀ b, (sequences'.get? b).getD (laneSequence s app lane b) = (pushAll R xs b).length) := by
  induction k generalizing hi s t sequences sequences' R lo with
  | zero =>
    cases h
    refine ⟨[], ?_, by simp, hhole, hcount⟩
    rw [drop_eq_nil_of_le (by omega)]
    rfl
  | succ k ih =>
    have hne : creationWidth block ≠ width := by
      rcases hne with hzero | hne
      · omega
      · exact hne
    rw [range'_succ, moveDeliveries] at h
    split at h
    · cases h
    rename_i sequences1 s1 hmove
    obtain ⟨record, target, hrecord, htarget, rfl, hslots, hlane⟩ := moveDelivery_ok hmove
    -- a block of another width is never the target
    have htarget' : target ≠ block := fun heq => hne (heq ▸ (blockForAddress_spec htarget).1)
    have hat : (R block)[hi]? = some record := by
      have hread := hhole block hi
      rw [if_neg (by omega), hrecord] at hread
      exact hread.symm
    have hhole' : Queues.Holed (readDelivery s1 app lane)
        (push R target record) block lo (hi + 1) := by
      rw [hslots, hcount target]
      exact hhole.move hlo htarget' record
    have hsame : push R target record block = R block := push_of_ne R record (Ne.symm htarget')
    have hcount' : ∀ b, ((sequences.insert target
        ((sequences.get? target).getD (laneSequence s app lane target) + 1)).get?
          b).getD (laneSequence s1 app lane b) =
        (push R target record b).length := by
      intro b
      rw [hlane]
      exact counters_push hcount target record b
    obtain ⟨xs, hxs, htargets, hhole'', hcount''⟩ := ih (hi + 1) s1 t _ sequences' _ lo
      (.inr hne) hhole' (by omega) (by rw [hsame]; omega) hcount' h
    refine ⟨(target, record) :: xs, ?_, ?_, ?_, ?_⟩
    · rw [map_cons, hxs, hsame]
      obtain ⟨hlt, hget⟩ := List.getElem?_eq_some_iff.mp hat
      rw [drop_eq_getElem_cons hlt, hget]
    · intro x hx
      rcases mem_cons.mp hx with rfl | hx
      · exact ⟨htarget, htarget'⟩
      · exact htargets x hx
    · have harith : hi + (k + 1) = hi + 1 + k := by omega
      rw [harith]
      exact hhole''
    · intro b
      rw [hlane] at hcount''
      exact hcount'' b

/-- **Moving onto itself.**  When the block has the current width, the loop rewrites only its own
queue beyond what is held. -/
theorem moveDeliveries_onto (hwidth : creationWidth block = width) (k hi : Nat)
    (s t : Records) (sequences sequences' : OrdMap Nat Nat)
    (hselects : ∀ n d, hi ≤ n → n < hi + k → readDelivery s app lane block n = some d →
      SelectsBlock (block, d))
    (hnext : hi + k ≤ (sequences.get? block).getD (laneSequence s app lane block))
    (h : moveDeliveries app lane width block (range' hi k) s sequences = (.ok sequences', t)) :
    ∀ b n, b ≠ block ∨ n < hi → readDelivery t app lane b n = readDelivery s app lane b n := by
  induction k generalizing hi s t sequences sequences' with
  | zero =>
    intro b n _
    cases h
    rfl
  | succ k ih =>
    intro b n hbn
    rw [range'_succ, moveDeliveries] at h
    split at h
    · cases h
    rename_i sequences1 s1 hmove
    obtain ⟨record, target, hrecord, htarget, rfl, hslots, _⟩ := moveDelivery_ok hmove
    have hself : target = block := by
      have hsel := hselects hi record (Nat.le_refl hi) (by omega) hrecord
      unfold SelectsBlock at hsel
      rw [hwidth] at hsel
      exact Except.ok.inj (htarget.symm.trans hsel)
    subst hself
    have hread : ∀ b n, b ≠ target ∨ (n ≠ hi ∧ n < hi + (k + 1)) →
        readDelivery s1 app lane b n = readDelivery s app lane b n := by
      intro b n hbn
      rw [hslots]
      unfold setSlot
      rw [if_neg (by omega), if_neg (by omega)]
    have hstep := ih (hi + 1) s1 t _ sequences' (by
        intro m d hm hm' hd
        rw [hread target m (.inr ⟨by omega, by omega⟩)] at hd
        exact hselects m d (by omega) (by omega) hd)
      (by
        rw [get?_insert, if_pos rfl, Option.getD_some]
        omega) h b n (by omega)
    rw [hstep]
    exact hread b n (by omega)

/-- The attested count of a lane. -/
def heldIn (coins escrows : Nat) : Lane → Nat
  | .coin => coins
  | .escrow => escrows

/-- The move of one lane inside an attestation: the loop ran on the lane's records, and the cached
counters, with the block's own cut, became the lane's. -/
structure LaneMoved (s : Records) (app : Bytes32) (width block : Nat) (lane : Lane)
    (held : Nat) (t : Records) : Prop where
  le : held ≤ laneSequence s app lane block
  loop : ∃ start finish sequences, readDelivery start app lane = readDelivery s app lane ∧
    laneSequence start app lane = laneSequence s app lane ∧
    moveDeliveries app lane width block
      (List.range' held (laneSequence s app lane block - held)) start .empty =
        (.ok sequences, finish) ∧
    readDelivery t app lane = readDelivery finish app lane ∧
    ∀ b, laneSequence t app lane b = ((truncateSequence sequences block held
        (laneSequence s app lane block)).get? b).getD (laneSequence s app lane b)

/-- Two stores with the same delivery records of a lane read the same. -/
theorem readDelivery_congr
    (h : ∀ b n, t (.delivery lane app b n) = s (.delivery lane app b n)) :
    readDelivery t app lane = readDelivery s app lane := by
  funext b n
  simp only [readDelivery, h]

theorem laneSequence_congr
    (h : ∀ b, t (.sequence lane app b) = s (.sequence lane app b)) :
    laneSequence t app lane = laneSequence s app lane := by
  funext b
  simp only [laneSequence, h]

/-- The delivery records a lane's loop may write. -/
def laneDeliveries (app : Bytes32) (lane : Lane) : Set RecordAddress :=
  {k | ∃ b n, k = .delivery lane app b n}

theorem moveDeliveries_frame {seqs : List Nat} {sequences : OrdMap Nat Nat}
    {r : Result (OrdMap Nat Nat)}
    (h : moveDeliveries app lane width block seqs s sequences = (r, t)) :
    s.AgreeOutside (laneDeliveries app lane) t := by
  have hmem : ∀ b n, RecordAddress.delivery lane app b n ∈
      laneDeliveries app lane := fun b n => ⟨b, n, rfl⟩
  have hagree := moveDeliveries_agree width block hmem seqs s sequences
    (AgreeOutside.refl _ _)
  rw [h] at hagree
  exact hagree

/-- What an attestation that was applied went through. -/
theorem applyOrphanAttestation_true {coins escrows : Nat}
    (h : applyOrphanAttestation s app block coins escrows = (.ok true, t)) :
    ∃ existing width sequences moved escrowSequences moved',
      orphan s app block = some existing ∧ existing.moved = false ∧
      coins ≤ blockSequence s app block ∧
      escrows ≤ escrowSequence s app block ∧
      placementWidth s app = .ok width ∧
      moveDeliveries app .coin width block
        (range' coins (blockSequence s app block - coins)) s .empty = (.ok sequences, moved) ∧
      moveDeliveries app .escrow width block
        (range' escrows (escrowSequence s app block - escrows)) moved .empty =
          (.ok escrowSequences, moved') ∧
      t = (writeSequences (writeSequences moved' app .coin
            (truncateSequence sequences block coins (blockSequence s app block)))
          app .escrow (truncateSequence escrowSequences block escrows
              (escrowSequence s app block))).write
        (.orphan app block) ⟨existing.since, true, coins, escrows⟩ := by
  unfold applyOrphanAttestation at h
  split at h
  · cases h
  rename_i existing hexisting
  split at h
  · split at h <;> cases h
  rename_i hmoved
  simp only at h
  split at h
  · cases h
  split at h
  · cases h
  rename_i width hwidth
  split at h
  · cases h
  rename_i sequences moved hcoins
  split at h
  · cases h
  rename_i escrowSequences moved' hescrows
  cases h
  exact ⟨existing, width, sequences, moved, escrowSequences, moved', hexisting,
    by simpa using hmoved, by omega, by omega, hwidth, hcoins, hescrows, rfl⟩

/-- An attestation that applied nothing left the records alone. -/
theorem applyOrphanAttestation_false {coins escrows : Nat}
    (h : applyOrphanAttestation s app block coins escrows = (.ok false, t)) : t = s := by
  unfold applyOrphanAttestation at h
  split at h
  · cases h
    rfl
  split at h
  · split at h
    · cases h
    · cases h
      rfl
  simp only at h
  split at h
  · cases h
  split at h
  · cases h
  split at h
  · cases h
  split at h <;> cases h

/-- The counters of a lane after its cached ones were written out. -/
theorem laneSequence_writeSequences (sequences : OrdMap Nat Nat) (b : Nat) :
    laneSequence (writeSequences s app lane sequences) app lane b =
      (sequences.get? b).getD (laneSequence s app lane b) := by
  unfold laneSequence
  rw [writeSequences_sequence]
  cases sequences.get? b <;> rfl

/-- An applied attestation moves both lanes and records itself. -/
theorem attestation_lanes {coins escrows : Nat}
    (h : applyOrphanAttestation s app block coins escrows = (.ok true, t)) :
    ∃ existing width, orphan s app block = some existing ∧ existing.moved = false ∧
      placementWidth s app = .ok width ∧
      (∀ lane, LaneMoved s app width block lane (heldIn coins escrows lane) t) ∧
      orphan t app block = some ⟨existing.since, true, coins, escrows⟩ := by
  obtain ⟨existing, width, sequences, moved, escrowSequences, moved', hexisting, hmoved, hcoins,
    hescrows, hwidth, hloop, hloop', rfl⟩ := applyOrphanAttestation_true h
  have hframe := moveDeliveries_frame hloop
  have hframe' := moveDeliveries_frame hloop'
  have hcounters : ∀ lane, laneSequence moved' app lane = laneSequence s app lane := by
    intro lane
    apply laneSequence_congr
    intro b
    rw [hframe' _ (by simp [laneDeliveries]), hframe _ (by simp [laneDeliveries])]
  refine ⟨existing, width, hexisting, hmoved, hwidth, ?_, by simp [orphan]⟩
  intro lane
  cases lane with
  | coin =>
    refine ⟨hcoins, s, moved, sequences, rfl, rfl, hloop, ?_, ?_⟩
    · apply readDelivery_congr
      intro b n
      rw [write_of_ne _ _ (by simp), writeSequences_of_ne (by simp), writeSequences_of_ne (by simp)]
      exact hframe' _ (by simp [laneDeliveries])
    · intro b
      have hb : laneSequence s app .coin b = laneSequence moved' app .coin b :=
        (congrFun (hcounters .coin) b).symm
      rw [hb, ← laneSequence_writeSequences]
      unfold laneSequence
      rw [write_of_ne _ _ (by simp), writeSequences_of_ne (by simp)]
      rfl
  | escrow =>
    refine ⟨hescrows, moved, moved', escrowSequences, ?_, ?_, hloop', ?_, ?_⟩
    · apply readDelivery_congr
      intro b n
      exact hframe _ (by simp [laneDeliveries])
    · apply laneSequence_congr
      intro b
      exact hframe _ (by simp [laneDeliveries])
    · apply readDelivery_congr
      intro b n
      rw [write_of_ne _ _ (by simp), writeSequences_of_ne (by simp), writeSequences_of_ne (by simp)]
    · intro b
      have hb : laneSequence s app .escrow b = laneSequence (writeSequences moved' app .coin
            (truncateSequence sequences block coins (blockSequence s app block)))
            app .escrow b := by
        rw [← congrFun (hcounters .escrow) b]
        unfold laneSequence
        rw [writeSequences_of_ne (by simp)]
      rw [hb, ← laneSequence_writeSequences]
      rfl

/-- **Cut and append**: where the moves go elsewhere, the block's queue is cut at the held count and
the rest appended to the queues the addresses select. -/
theorem LaneMoved.stored {held : Nat} {Q : Nat → List Delivery}
    (h : LaneMoved s app width block lane held t)
    (hQ : LaneStored s app lane Q)
    (haway : held = laneSequence s app lane block ∨ creationWidth block ≠ width) :
    ∃ xs : List (Nat × Delivery), xs.map Prod.snd = (Q block).drop held ∧
      (∀ x ∈ xs, blockForAddress width x.2.address = .ok x.1 ∧ x.1 ≠ block) ∧
      LaneStored t app lane
        (pushAll (Function.update Q block ((Q block).take held)) xs) := by
  obtain ⟨_, start, finish, sequences, hstart, hcounters, hloop, hfinish, hafter⟩ := h
  have hlen : laneSequence s app lane block = (Q block).length := hQ.next_eq block
  have hslots : ∀ b n, readDelivery start app lane b n = (Q b)[n]? := by
    intro b n
    rw [hstart]
    exact hQ.slot_eq b n
  have hcount : ∀ b, ((empty : OrdMap Nat Nat).get? b).getD
      (laneSequence start app lane b) = (Q b).length := by
    intro b
    rw [hcounters]
    exact hQ.next_eq b
  obtain ⟨xs, hxs, htargets, hhole, hcount'⟩ := moveDeliveries_away
    (laneSequence s app lane block - held) held start finish .empty sequences Q held
    (by
      rcases haway with heq | hne
      · exact .inl (by omega)
      · exact .inr hne)
    (fun b n => by rw [if_neg (by omega), hslots]) (Nat.le_refl held) (by omega) hcount hloop
  have hne : ∀ x ∈ xs, x.1 ≠ block := fun x hx => (htargets x hx).2
  have hblock : pushAll Q xs block = Q block := pushAll_of_ne hne Q
  refine ⟨xs, hxs, htargets, ?_⟩
  rw [← update_pushAll xs Q block _ hne]
  rw [hcounters] at hcount'
  constructor
  · intro b
    rw [hafter b]
    unfold truncateSequence
    by_cases hb : b = block
    · subst hb
      rw [Function.update_self, length_take]
      split
      · rw [get?_insert, if_pos rfl, Option.getD_some]
        omega
      · rw [hcount' b, hblock]
        omega
    · rw [Function.update_of_ne hb, ← hcount' b]
      split
      · rw [get?_insert, if_neg (Ne.symm hb)]
      · rfl
  · intro b n
    rw [hfinish]
    have hend : held + (laneSequence s app lane block - held) = (pushAll Q xs block).length := by
      rw [hblock]
      omega
    rw [hend] at hhole
    have hcut := hhole.truncate b n
    rw [hblock] at hcut
    exact hcut

/-- **Cut in front**: where something moves onto its own block, the counter ends at the held count
and every position below it is as before. -/
theorem LaneMoved.onto {held : Nat} (h : LaneMoved s app width block lane held t)
    (hwidth : creationWidth block = width)
    (hlt : held < laneSequence s app lane block)
    (hselects : ∀ n d, readDelivery s app lane block n = some d → SelectsBlock (block, d)) :
    laneSequence t app lane block = held ∧ ∀ b n, b ≠ block ∨ n < held →
        readDelivery t app lane b n = readDelivery s app lane b n := by
  obtain ⟨_, start, finish, sequences, hstart, hcounters, hloop, hfinish, hafter⟩ := h
  constructor
  · rw [hafter block]
    unfold truncateSequence
    rw [if_pos hlt, get?_insert, if_pos rfl, Option.getD_some]
  · intro b n hbn
    have honto := moveDeliveries_onto hwidth (laneSequence s app lane block - held) held
      start finish .empty sequences (by
        intro m d _ _ hd
        rw [hstart] at hd
        exact hselects m d hd)
      (by
        rw [hcounters, get?_empty, Option.getD_none]
        omega)
      hloop b n hbn
    rw [hfinish, honto, hstart]

end GlobalCommit

end Token

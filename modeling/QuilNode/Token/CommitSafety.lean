import QuilNode.Token.GlobalRun

/-!
# Every operation is decided once and nothing is spent twice

A consumed marker, a decision and an escrow record are each the trace of one committed entry.
`Tracks` relates the log of a history to the records it ends with, and every call extends it.
Double spending is excluded by counting: a second entry with the same marker would have met the
first one's record.
-/

namespace Token

namespace GlobalCommit

open List Run Option

variable {shieldFrame : Nat} {app : Bytes32}

/-- Whether a committed entry lists a consumption marker. -/
def consumes (marker : Bytes32) (c : Nat × SpendEntry) : Bool :=
  c.2.consumptions.contains marker

/-- Whether a committed entry creates an escrow address. -/
def creates (addr : Bytes32) (c : Nat × SpendEntry) : Bool :=
  c.2.escrowCreate.any fun create => create.address == addr

/-- Whether a committed entry claims an escrow address. -/
def claims (addr : Bytes32) (c : Nat × SpendEntry) : Bool :=
  c.2.escrowClaim.any fun claim => claim.address == addr

/-- What a call does to decisions, markers and escrows. -/
inductive SpendStep (shieldFrame : Nat) (app : Bytes32) (s : Records)
    (e : GlobalEvent) : Prop where
  | quiet (hentry : committedEntry e = none) (hdecides : ∀ txId, decides txId e = false)
      (hdecision : ∀ txId, e.after (.decision app txId) = s (.decision app txId))
      (hconsumed : ∀ m, e.after (.consumed app m) = s (.consumed app m))
      (hescrow : ∀ a, e.after (.escrow app a) = s (.escrow app a))
  | rejected (rejectedId : Bytes32) (decision : Decision) (hentry : committedEntry e = none)
      (hdecides : ∀ txId, decides txId e = (rejectedId == txId))
      (hundecided : s (.decision app rejectedId) = none)
      (hdecision : ∀ txId, e.after (.decision app txId) =
        if txId = rejectedId then some decision else s (.decision app txId))
      (hconsumed : ∀ m, e.after (.consumed app m) = s (.consumed app m))
      (hescrow : ∀ a, e.after (.escrow app a) = s (.escrow app a))
  | committed (frame : Nat) (entry : SpendEntry) (sourceShard : ShardPath)
      (placements : List Placement) (seqs : OrdMap Nat Nat)
      (escrowPlacement : Option Placement) (width : Nat)
      (hentry : committedEntry e = some (frame, entry))
      (hdecides : ∀ txId, decides txId e = (entry.txId == txId))
      (h : Committed shieldFrame s frame app entry sourceShard placements
        seqs escrowPlacement width e.after)

variable {s : Records}

theorem globalStep_quiet {op : GlobalOp}
    (hop : ∀ frame entry sourceShard, op ≠ .commit frame entry sourceShard) :
    SpendStep shieldFrame app s
      (event (globalStep shieldFrame app) s op) := by
  have hagree := globalStep_maintenance shieldFrame app s hop
  obtain ⟨hentry, hdecides⟩ : committedEntry
        (event (globalStep shieldFrame app) s op) = none ∧
      ∀ txId, decides txId (event (globalStep shieldFrame app) s op) = false := by
    cases op with
    | commit frame entry sourceShard => exact absurd rfl (hop frame entry sourceShard)
    | _ => exact ⟨rfl, fun _ => rfl⟩
  exact .quiet hentry hdecides (fun _ => hagree _ id) (fun _ => hagree _ id) (fun _ => hagree _ id)

theorem commit_spend (s : Records) (frame : Nat) (entry : SpendEntry) (sourceShard : ShardPath) :
    SpendStep shieldFrame app s (event (globalStep shieldFrame app) s
        (.commit frame entry sourceShard)) := by
  rcases hcall : commitEntry shieldFrame s frame app entry sourceShard with ⟨result, t⟩
  rw [commit_event hcall]
  cases commitEntry_spec hcall with
  | failed h =>
    exact .quiet rfl (fun _ => rfl) (fun _ => h _ (by simp)) (fun _ => h _ (by simp))
      (fun _ => h _ (by simp))
  | decided => exact .quiet rfl (fun _ => rfl) (fun _ => rfl) (fun _ => rfl) (fun _ => rfl)
  | @rejected reason u hundecided h =>
    have hread : ∀ k, k ≠ .decision app entry.txId ∧ k ∉ checkAddresses app →
        (u.write (.decision app entry.txId) ⟨false, frame, reason.text⟩) k = s k := by
      rintro k ⟨hk, hcheck⟩
      rw [Store.write_of_ne _ _ hk]
      exact h.agree k hcheck
    refine .rejected entry.txId ⟨false, frame, reason.text⟩ rfl (fun _ => rfl) hundecided
      ?_ (fun m => hread (.consumed app m) (by simp))
      (fun a => hread (.escrow app a) (by simp))
    intro txId
    by_cases htx : txId = entry.txId
    · subst htx
      simp
    · rw [if_neg htx]
      exact hread (.decision app txId) (by simpa using htx)
  | committed h => exact .committed _ _ _ _ _ _ _ rfl (fun _ => rfl) h

/-- **One call on the spending records.** -/
theorem globalStep_spend (shieldFrame : Nat) (app : Bytes32) (s : Records)
    (op : GlobalOp) :
    SpendStep shieldFrame app s
      (event (globalStep shieldFrame app) s op) := by
  cases op with
  | commit frame entry sourceShard => exact commit_spend s frame entry sourceShard
  | publish => exact globalStep_quiet (by simp)
  | raiseWidth => exact globalStep_quiet (by simp)
  | reconcile => exact globalStep_quiet (by simp)
  | attest => exact globalStep_quiet (by simp)

/-- What the committed entries say about one escrow address, next to its
record. -/
structure EscrowHistory (committed : List (Nat × SpendEntry)) (address : Bytes32)
    (record : Option EscrowRecord) : Prop where
  created : committed.countP (creates address) = if record.isSome then 1 else 0
  claimed : committed.countP (claims address) = if record.any (·.consumed) then 1 else 0
  creation : ∀ r, record = some r → ∃ c ∈ committed, ∃ create,
    c.2.escrowCreate = some create ∧ create.address = address ∧
      create.binding = r.binding ∧ create.refundAfterGlobalFrame = r.refundAfter

/-- A committed claim comes after the creation it closes. -/
def ClaimFollows (before : List GlobalEvent) (e : GlobalEvent) : Prop :=
  ∀ frame entry claim, committedEntry e = some (frame, entry) → entry.escrowClaim = some claim →
    ∃ c ∈ commits before, ∃ create, c.2.escrowCreate = some create ∧
      create.address = claim.address ∧ create.binding = claim.binding ∧
      (claim.refund = true → create.refundAfterGlobalFrame ≤ frame)

/-- How the records of an application trace its log. -/
structure Tracks (app : Bytes32) (log : List GlobalEvent) (s : Records) : Prop where
  unconsumed : ∀ marker, s (.consumed app marker) = none →
    (commits log).countP (consumes marker) = 0
  consumedOnce : ∀ marker, (commits log).countP (consumes marker) ≤ 1
  undecided : ∀ txId, s (.decision app txId) = none → log.countP (decides txId) = 0
  decidedOnce : ∀ txId, log.countP (decides txId) ≤ 1
  escrows : ∀ address, EscrowHistory (commits log) address (s (.escrow app address))
  claimsFollow : ∀ before e after, log = before ++ e :: after → ClaimFollows before e

variable {log : List GlobalEvent} {e : GlobalEvent}

/-- The claims of an extended log follow their creations when the new one does. -/
theorem claimsFollow_snoc (h : ∀ before e after, log = before ++ e :: after → ClaimFollows before e)
    (hlast : ClaimFollows log e) :
    ∀ before e' after, log ++ [e] = before ++ e' :: after → ClaimFollows before e' := by
  intro before e' after heq
  rcases eq_nil_or_concat after with rfl | ⟨after', last, rfl⟩
  · obtain ⟨rfl, hsingle⟩ := append_inj' heq rfl
    cases hsingle
    exact hlast
  · have hsplit : log ++ [e] = (before ++ e' :: after') ++ [last] := by simpa using heq
    obtain ⟨rfl, -⟩ := append_inj' hsplit rfl
    exact h before e' after' rfl

theorem commits_snoc (log : List GlobalEvent) (e : GlobalEvent) :
    commits (log ++ [e]) = commits log ++ (committedEntry e).toList := by
  unfold commits
  cases h : committedEntry e <;> simp [h]

/-- A call that commits nothing extends the trace when at most its own decision
is new. -/
theorem Tracks.extend_uncommitted (h : Tracks app log s) (hentry : committedEntry e = none)
    (hconsumed : ∀ m, e.after (.consumed app m) = s (.consumed app m))
    (hescrow : ∀ a, e.after (.escrow app a) = s (.escrow app a))
    (hundecided : ∀ txId, e.after (.decision app txId) = none →
      s (.decision app txId) = none ∧ decides txId e = false)
    (hdecides : ∀ txId, decides txId e = true → s (.decision app txId) = none) :
    Tracks app (log ++ [e]) e.after := by
  have hcommits : commits (log ++ [e]) = commits log := by simp [commits_snoc, hentry]
  constructor
  · intro marker hmarker
    rw [hcommits]
    exact h.unconsumed marker (hconsumed marker ▸ hmarker)
  · intro marker
    rw [hcommits]
    exact h.consumedOnce marker
  · intro txId htx
    obtain ⟨hbefore, hnot⟩ := hundecided txId htx
    simp [countP_append, h.undecided txId hbefore, hnot]
  · intro txId
    by_cases hd : decides txId e = true
    · simp [h.undecided txId (hdecides txId hd), hd]
    · have := h.decidedOnce txId
      simpa [hd] using this
  · intro addr
    rw [hcommits, hescrow]
    exact h.escrows addr
  · apply claimsFollow_snoc h.claimsFollow
    intro frame entry claim hsome
    rw [hentry] at hsome
    cases hsome

section Committing

variable {log : List GlobalEvent} {s t : Records} {frame width : Nat} {entry : SpendEntry}
  {sourceShard : ShardPath} {placements : List Placement} {seqs : OrdMap Nat Nat}
  {escrowPlacement : Option Placement}

/-- The escrow history of an address after one more committed entry. -/
theorem EscrowHistory.extend {committed : List (Nat × SpendEntry)} {addr : Bytes32}
    (h : EscrowHistory committed addr (s (.escrow app addr)))
    (hc : Committed shieldFrame s frame app entry sourceShard placements seqs
      escrowPlacement width t) :
    EscrowHistory (committed ++ [(frame, entry)]) addr (t (.escrow app addr)) := by
  obtain ⟨-, -, hclaimed, hcreated⟩ := checkSpend_passed hc.checked
  obtain ⟨-, -, hboth⟩ := validateAt_ok hc.valid
  rw [hc.writes.escrow]
  by_cases hcreate : entry.escrowCreate.map EscrowCreate.address = some addr
  · -- created here: no record was there, so no entry before named the address
    obtain ⟨create, hsome, haddr⟩ := map_eq_some_iff.mp hcreate
    have hnone : s (.escrow app addr) = none := by
      rw [← haddr]
      exact checkEscrowCreate_passed hcreated hsome
    have hnoclaim : entry.escrowClaim = none := by
      cases hclaim : entry.escrowClaim with
      | none => rfl
      | some => exact absurd ⟨by simp [hsome], by simp [hclaim]⟩ hboth
    have hold1 := h.created
    have hold2 := h.claimed
    rw [hnone] at hold1 hold2
    have hafter : escrowAfter s app entry addr =
        some ⟨create.binding, create.refundAfterGlobalFrame, false⟩ := by
      simp [escrowAfter, hsome, haddr]
    rw [hafter]
    constructor
    · simp [countP_append, hold1, creates, hsome, haddr]
    · simp [countP_append, hold2, claims, hnoclaim]
    · intro r hr
      cases hr
      exact ⟨(frame, entry), by simp, create, hsome, haddr, rfl, rfl⟩
  · have hnotcreates : creates addr (frame, entry) = false := by
      cases hsome : entry.escrowCreate with
      | none => simp [creates, hsome]
      | some => simpa [creates, hsome] using hcreate
    by_cases hclaim : entry.escrowClaim.map EscrowClaim.address = some addr
    · -- claimed here: the record was open, so no entry before claimed it
      obtain ⟨_, hsome, haddr⟩ := map_eq_some_iff.mp hclaim
      obtain ⟨record, hrecord, hopen, -, -⟩ := checkEscrowClaim_passed hclaimed hsome
      rw [haddr] at hrecord
      have hafter : escrowAfter s app entry addr = some { record with consumed := true } := by
        simp only [escrowAfter, hcreate, hclaim, if_true, if_false, escrow, hrecord, map_some]
      have hold1 := h.created
      have hold2 := h.claimed
      have hold3 := h.creation
      rw [hrecord] at hold1 hold2 hold3
      rw [hafter]
      constructor
      · simpa [countP_append, hnotcreates] using hold1
      · have hclaims : claims addr (frame, entry) = true := by
          simp [claims, hsome, haddr]
        have hzero : committed.countP (claims addr) = 0 := by
          simpa [hopen] using hold2
        simp [countP_append, hclaims, hzero]
      · intro r hr
        cases hr
        obtain ⟨c, hmem, create, h1, h2, h3, h4⟩ := hold3 record rfl
        exact ⟨c, by simp [hmem], create, h1, h2, h3, h4⟩
    · have hnotclaims : claims addr (frame, entry) = false := by
        cases hsome : entry.escrowClaim with
        | none => simp [claims, hsome]
        | some => simpa [claims, hsome] using hclaim
      have hafter : escrowAfter s app entry addr = s (.escrow app addr) := by
        simp only [escrowAfter, hcreate, hclaim, if_false, escrow]
      rw [hafter]
      constructor
      · simpa [countP_append, hnotcreates] using h.created
      · simpa [countP_append, hnotclaims] using h.claimed
      · intro r hr
        obtain ⟨c, hmem, rest⟩ := h.creation r hr
        exact ⟨c, by simp [hmem], rest⟩

/-- A committed call extends the trace by its entry. -/
theorem Tracks.extend_committed (h : Tracks app log s)
    (hentry : committedEntry e = some (frame, entry))
    (hdecides : ∀ txId, decides txId e = (entry.txId == txId))
    (hc : Committed shieldFrame s frame app entry sourceShard placements seqs
      escrowPlacement width e.after) : Tracks app (log ++ [e]) e.after := by
  obtain ⟨-, hmarkers, hclaimed, -⟩ := checkSpend_passed hc.checked
  have hcommits : commits (log ++ [e]) = commits log ++ [(frame, entry)] := by
    simp [commits_snoc, hentry]
  constructor
  · intro marker hmarker
    rw [hc.writes.consumed] at hmarker
    split at hmarker
    · cases hmarker
    · rename_i hnot
      simp [hcommits, countP_append, h.unconsumed marker hmarker, consumes, hnot]
  · intro marker
    rw [hcommits, countP_append]
    by_cases hmem : marker ∈ entry.consumptions
    · have hfresh := checkConsumptions_passed hmarkers hmem
      simp [h.unconsumed marker hfresh, consumes, hmem]
    · have := h.consumedOnce marker
      simpa [consumes, hmem] using this
  · intro txId htx
    rw [hc.writes.decision] at htx
    split at htx
    · cases htx
    · rename_i hne
      simp [countP_append, h.undecided txId htx, hdecides, Ne.symm hne]
  · intro txId
    by_cases htx : txId = entry.txId
    · subst htx
      simp [h.undecided _ hc.undecided, hdecides]
    · have := h.decidedOnce txId
      simpa [hdecides, Ne.symm htx] using this
  · intro addr
    rw [hcommits]
    exact (h.escrows addr).extend hc
  · apply claimsFollow_snoc h.claimsFollow
    intro frame' entry' claim hsome hclaim
    rw [hentry] at hsome
    cases hsome
    obtain ⟨record, hrecord, -, hbinding, hrefund⟩ := checkEscrowClaim_passed hclaimed hclaim
    obtain ⟨c, hmem, create, h1, h2, h3, h4⟩ := (h.escrows claim.address).creation record hrecord
    exact ⟨c, hmem, create, h1, h2, h3.trans hbinding, fun hr => h4 ▸ hrefund hr⟩

end Committing

/-- Every call extends the trace. -/
theorem tracks_step (h : Tracks app log s) (op : GlobalOp) : Tracks app
      (log ++ [event (globalStep shieldFrame app) s op])
      (globalStep shieldFrame app s op).2 := by
  have hstep := globalStep_spend shieldFrame app s op
  cases hstep with
  | quiet hentry hdecides hdecision hconsumed hescrow =>
    apply h.extend_uncommitted hentry hconsumed hescrow
    · intro txId htx
      exact ⟨hdecision txId ▸ htx, hdecides txId⟩
    · intro txId htx
      simp [hdecides] at htx
  | rejected rejectedId decision hentry hdecides hundecided hdecision hconsumed hescrow =>
    apply h.extend_uncommitted hentry hconsumed hescrow
    · intro txId htx
      rw [hdecision] at htx
      split at htx
      · cases htx
      · rename_i hne
        exact ⟨htx, by simp [hdecides, Ne.symm hne]⟩
    · intro txId htx
      rw [hdecides] at htx
      rw [← eq_of_beq htx]
      exact hundecided
  | committed frame entry sourceShard placements seqs escrowPlacement width hentry
      hdecides hc =>
      exact h.extend_committed hentry hdecides hc

/-- The trace holds of every history. -/
theorem tracks_run (shieldFrame : Nat) (app : Bytes32) (ops : List GlobalOp) :
    Tracks app (globalEvents shieldFrame app ops)
      (globalRecords shieldFrame app ops) :=
  history_invariant (globalStep shieldFrame app)
    (Tracks app) (fun _ => True)
    ⟨by simp [commits], by simp [commits], by simp, by simp,
      fun addr => ⟨by simp [commits], by simp [commits], by simp⟩, by simp⟩
    (fun _ _ op h _ => tracks_step h op) ops (fun _ _ => trivial)

/-- **An escrow's record is its history**: it is there exactly where one committed entry created the
address, with its terms, and consumed exactly where one claimed it. -/
theorem escrow_records_trace_commits (shieldFrame : Nat) (app : Bytes32)
    (ops : List GlobalOp) (addr : Bytes32) :
    EscrowHistory (commits (globalEvents shieldFrame app ops)) addr
      (globalRecords shieldFrame app ops (.escrow app addr)) :=
  (tracks_run shieldFrame app ops).escrows addr

variable {txId : Bytes32}

section Final

variable {decision : Decision} (h : s (.decision app txId) = some decision)
include h

theorem decision_final_step (op : GlobalOp) :
    (globalStep shieldFrame app s op).2 (.decision app txId) = some decision := by
  have hstep := globalStep_spend shieldFrame app s op
  rw [← event_after]
  cases hstep with
  | quiet _ _ hdecision => rw [hdecision, h]
  | rejected rejectedId d _ _ hundecided hdecision =>
    have hne : txId ≠ rejectedId := by
      intro heq
      rw [heq, hundecided] at h
      cases h
    rw [hdecision, if_neg hne, h]
  | committed frame entry _ _ _ _ _ _ _ hc =>
    have hne : txId ≠ entry.txId := by
      intro heq
      rw [heq, hc.undecided] at h
      cases h
    rw [hc.writes.decision, if_neg hne, h]

/-- A decision record never changes again. -/
theorem decision_final (ops : List GlobalOp) :
    final (globalStep shieldFrame app) s ops (.decision app txId) = some decision :=
  state_invariant (globalStep shieldFrame app)
    (fun t => t (.decision app txId) = some decision) (fun _ => True) h
    (fun _ op ht _ => decision_final_step ht op) ops (fun _ _ => trivial)

end Final

/-- A deciding call leaves its decision in the records. -/
theorem decides_recorded {op : GlobalOp}
    (h : decides txId (event (globalStep shieldFrame app) s op) = true) :
    ((globalStep shieldFrame app s op).2 (.decision app txId)).isSome := by
  have hstep := globalStep_spend shieldFrame app s op
  rw [← event_after]
  cases hstep with
  | quiet _ hdecides => simp [hdecides] at h
  | rejected rejectedId d _ hdecides _ hdecision =>
    rw [hdecides] at h
    simp [hdecision, eq_of_beq h]
  | committed frame entry _ _ _ _ _ _ hdecides hc =>
    rw [hdecides] at h
    simp [hc.writes.decision, eq_of_beq h]

/-- **GLOBAL commit decides once and never double-spends.**  A marker is listed by at most one
committed entry; an operation gets one outcome; an escrow is created at most once and claimed at
most once, after its creation and with its binding, and refunded from its refund frame on only. -/
theorem commit_decides_once_without_double_spend (shieldFrame : Nat)
    (app : Bytes32) (ops : List GlobalOp) :
    (∀ marker, (commits (globalEvents shieldFrame app ops)).countP
      (consumes marker) ≤ 1) ∧
    (∀ txId, (globalEvents shieldFrame app ops).countP (decides txId) ≤ 1) ∧
    (∀ earlier op later txId, ops = earlier ++ op :: later →
      decides txId (event (globalStep shieldFrame app)
        (globalRecords shieldFrame app earlier) op) = true →
      ∃ decision, globalRecords shieldFrame app (earlier ++ [op])
        (.decision app txId) = some decision) ∧
    (∀ earlier later txId decision, ops = earlier ++ later →
      globalRecords shieldFrame app earlier (.decision app txId) = some decision →
      globalRecords shieldFrame app ops (.decision app txId) = some decision) ∧
    (∀ addr, (commits (globalEvents shieldFrame app ops)).countP (creates addr) ≤ 1 ∧
      (commits (globalEvents shieldFrame app ops)).countP (claims addr) ≤ 1) ∧
    (∀ before e after, globalEvents shieldFrame app ops = before ++ e :: after →
      ∀ frame entry claim, committedEntry e = some (frame, entry) →
      entry.escrowClaim = some claim →
      ∃ c ∈ commits before, ∃ create, c.2.escrowCreate = some create ∧
        create.address = claim.address ∧ create.binding = claim.binding ∧
        (claim.refund = true → create.refundAfterGlobalFrame ≤ frame)) := by
  have htracks := tracks_run shieldFrame app ops
  refine ⟨htracks.consumedOnce, htracks.decidedOnce, ?_, ?_, ?_, htracks.claimsFollow⟩
  · intro earlier op later txId _ hdecides
    have hrecorded := decides_recorded hdecides
    rw [isSome_iff_exists] at hrecorded
    obtain ⟨decision, hdecision⟩ := hrecorded
    refine ⟨decision, ?_⟩
    rw [globalRecords, final_append]
    exact hdecision
  · intro earlier later txId decision hops h
    rw [hops, globalRecords, final_append]
    exact decision_final h later
  · intro addr
    have hcreated := (htracks.escrows addr).created
    have hclaimed := (htracks.escrows addr).claimed
    constructor
    · rw [hcreated]; split <;> omega
    · rw [hclaimed]; split <;> omega

end GlobalCommit

end Token

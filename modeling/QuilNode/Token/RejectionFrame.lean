import QuilNode.Token.CommitSpec

/-!
# What a rejection leaves behind

A rejection writes the decision of its operation.  It can leave more: the
application's context is pinned before the checks that may still reject, and
the placement width is raised before a block is found full.  `RejectsCleanly`
is the condition, on the records before the call, under which the decision is
the only difference.
-/

namespace Token

namespace GlobalCommit

open Store

variable {s t u : Records} {frame : Nat} {app : Bytes32} {entry : SpendEntry}
  {sourceShard : ShardPath} {reason : RejectReason}

/-- The width already covers the executing shard, so it does not rise. -/
def WidthCovers (s : Records) (app : Bytes32) (sourceShard : ShardPath) : Prop :=
  ∃ current, placementWidth s app = .ok current ∧
    min (shardDepth sourceShard) CoinBlocks.maxBlockBits ≤ current

/-- Nothing is written before the rejection: the context check refuses, or the context is on record
and, should every check pass, the width need not rise. -/
def RejectsCleanly (s : Records) (frame : Nat) (app : Bytes32) (entry : SpendEntry)
    (sourceShard : ShardPath) : Prop :=
  checkContext s app entry ≠ none ∨ ((s (.context app)).isSome ∧
      (checkSpend s app entry frame ≠ .ok none ∨ WidthCovers s app sourceShard))

/-- The decision is the only difference exactly when the records it was decided on are those before
the call. -/
theorem only_decision_iff {decision : Decision}
    (hagree : s.AgreeOutside (checkAddresses app) u) :
    s.AgreeOutside {.decision app entry.txId}
        (u.write (.decision app entry.txId) decision) ↔
      u (.context app) = s (.context app) ∧ u (.placementWidth app) = s (.placementWidth app) := by
  constructor
  · intro h
    have hcontext := h (.context app) (by simp)
    have hwidth := h (.placementWidth app) (by simp)
    exact ⟨hcontext, hwidth⟩
  · intro h k hk
    rw [write_of_ne _ _ (by simpa using hk)]
    by_cases hcontext : k = .context app
    · subst hcontext
      exact h.1
    by_cases hwidth : k = .placementWidth app
    · subst hwidth
      exact h.2
    · exact hagree k (by simp [hcontext, hwidth])

/-- Pinning changes nothing exactly when a context is on record. -/
theorem pinContext_context_iff : pinContext s app entry (.context app) = s (.context app) ↔
      (s (.context app)).isSome := by
  cases hcontext : s (.context app) with
  | none | some => simp [pinContext, hcontext]

/-- Raising changes the width record exactly when the width does not cover the
shard. -/
theorem raise_width_iff {width : Nat}
    (hraise : raisePlacementWidth (pinContext s app entry) app
      (shardDepth sourceShard) = (.ok width, u)) :
    u (.placementWidth app) = s (.placementWidth app) ↔ WidthCovers s app sourceShard := by
  have hpin := pinContext_width s app entry
  obtain ⟨current, hcurrent, _, hafter, hrecords⟩ := raisePlacementWidth_ok hraise
  rw [placementWidth_congr hpin] at hcurrent
  constructor
  · intro heq
    have hsame : placementWidth u app = placementWidth s app :=
      placementWidth_congr heq
    rw [hafter, hcurrent] at hsame
    have hwc : width = current := Except.ok.inj hsame
    exact ⟨current, hcurrent, by omega⟩
  · intro hcovers
    obtain ⟨_, hcurrent', _⟩ := hcovers
    rw [hcurrent] at hcurrent'
    cases hcurrent'
    have hwc : width = current := by omega
    rw [hrecords, if_pos hwc, hpin]

/-- A rejection was decided on the context and width before the call exactly when it is clean. -/
theorem RejectedAt.unchanged_iff (h : RejectedAt s frame app entry sourceShard reason u) :
    (u (.context app) = s (.context app) ∧ u (.placementWidth app) = s (.placementWidth app)) ↔
      RejectsCleanly s frame app entry sourceShard := by
  cases h with
  | context hcontext => simp [RejectsCleanly, hcontext]
  | check hcontext hreason =>
    rw [pinContext_context_iff]
    simp [RejectsCleanly, hcontext, hreason, pinContext_width]
  | @full width u hcontext hcheck hraise =>
    have hraised : u (.context app) = pinContext s app entry (.context app) := by
      have hagree := raisePlacementWidth_agree (pinContext s app entry) app
        (shardDepth sourceShard)
      rw [hraise] at hagree
      exact hagree _ (by simp)
    rw [hraised, pinContext_context_iff, raise_width_iff hraise]
    simp [RejectsCleanly, hcontext, hcheck]

/-- **The trace of a rejection**: from any records, the decision is the only record that differs
exactly when the call rejects cleanly. -/
theorem rejected_leaves_only_decision_iff {shieldFrame : Nat}
    (h : commitEntry shieldFrame s frame app entry sourceShard = (.ok (.rejected reason), t)) :
    s.AgreeOutside {.decision app entry.txId} t ↔ RejectsCleanly s frame app entry sourceShard := by
  cases commitEntry_spec h with
  | rejected hundecided hat =>
    rw [only_decision_iff hat.agree]
    exact hat.unchanged_iff

/-- A spend that cites a root no history retains. -/
def citingSpend : SpendEntry :=
  { kind := 0x0510, txId := 1, sourceFrame := 40, context := 7, rootDigest := some 9,
    consumptions := [20], outputs := [], escrowCreate := none, escrowClaim := none,
    fee := 5, settlement := none }

/-- A spend whose output selects a full block of width nine. -/
def overflowingSpend : SpendEntry :=
  { citingSpend with rootDigest := none, outputs := [0] }

/-- Records of an application whose first width-nine block is full. -/
def fullBlockRecords : Records :=
  writeSequence (Store.write Store.empty (.context 5) 7) 5 .coin 512 blockCapacity

/-- Neither rejection is clean: the first pins the application's context, the
second raises its width. -/
theorem rejected_spend_pins_context_and_raises_width :
    ((commitEntry 0 empty 100 5 citingSpend (.known [])).1 = .ok (.rejected .rootNotRetained) ∧
      ¬ Store.AgreeOutside {.decision 5 1} empty
        (commitEntry 0 empty 100 5 citingSpend (.known [])).2) ∧
    ((commitEntry 0 fullBlockRecords 100 5 overflowingSpend
        (.known (List.replicate 9 false))).1 = .ok (.rejected .blockFull) ∧
      ¬ fullBlockRecords.AgreeOutside {.decision 5 1}
        (commitEntry 0 fullBlockRecords 100 5 overflowingSpend
          (.known (List.replicate 9 false))).2) := by
  refine ⟨⟨rfl, ?_⟩, rfl, ?_⟩
  · intro h
    have hcontext := h (.context 5) (by simp)
    cases hcontext
  · intro h
    have hwidth := h (.placementWidth 5) (by simp)
    cases hwidth

/-- With the context on record the same spend is rejected without a trace. -/
theorem rejected_leaves_only_decision_after_pin :
    RejectsCleanly (write empty (.context 5) 7) 100 5 citingSpend (.known []) ∧
    Store.AgreeOutside {.decision 5 1} (write empty (.context 5) 7)
      (commitEntry 0 (write empty (.context 5) 7) 100 5 citingSpend (.known [])).2 := by
  have hclean : RejectsCleanly (write empty (.context 5) 7) 100 5 citingSpend (.known []) := by
    right
    refine ⟨rfl, Or.inl ?_⟩
    intro h
    cases h
  have hcall : commitEntry 0 (write empty (.context 5) 7) 100 5 citingSpend
      (.known []) = (.ok (.rejected .rootNotRetained),
        (commitEntry 0 (write empty (.context 5) 7) 100 5 citingSpend (.known [])).2) := rfl
  exact ⟨hclean, (rejected_leaves_only_decision_iff hcall).mpr hclean⟩

end GlobalCommit

end Token

import QuilNode.Basic

/-!
# The halt state (`quil-engine/src/halt_state.rs`)

Filters are halted and resumed under a lock, and a watch channel carries whether any is halted.
The calls send after they released the lock, so an older value can overtake a newer one; a value
sent without a receiver is lost.  `watchers_read_truth` says which order of steps misleads nobody.
-/

namespace Halts

/-- `sends` are those of calls that released the lock; `none` is one of `apply`. -/
structure HaltState where
  haltedShards : Finset Bytes
  channel : Bool
  receivers : Nat
  sends : List (Option Bool)

def HaltState.new : HaltState := ⟨∅, false, 0, []⟩

/-- The lock steps of the calls, one of the sends left, a change of the number of receivers.
`apply` ignores other events. -/
inductive HaltOp where
  | markHalted (filter : Bytes)
  | markResumed (filter : Bytes)
  | hardHalt
  | applyHalt (filter : Bytes)
  | applyResume (filter : Bytes)
  | send (i : Nat)
  | watch (live : Nat)
  deriving DecidableEq

/-- The entry `hard_halt` inserts. -/
def hardHaltSentinel : Bytes := asciiBytes "__GLOBAL_ALERT_HARD_HALT__"

/-- The filter a call names. -/
def HaltOp.filter? : HaltOp → Option Bytes
  | .markHalted filter | .markResumed filter | .applyHalt filter | .applyResume filter => some filter
  | .hardHalt | .send _ | .watch _ => none

namespace HaltState

def anyHalted (s : HaltState) : Bool := s.haltedShards ≠ ∅

/-- `Sender::send` stores nothing while there is no receiver. -/
def store (s : HaltState) (value : Bool) : HaltState :=
  { s with channel := if s.receivers = 0 then s.channel else value }

/-- The set changes, and the call is left to send where `sends` holds. -/
def change (s : HaltState) (halted : Finset Bytes) (sends : Bool) (value : Option Bool) :
    HaltState :=
  { s with haltedShards := halted, sends := s.sends ++ if sends then [value] else [] }

def step (s : HaltState) : HaltOp → HaltState
  | .markHalted filter => s.change (insert filter s.haltedShards) (s.haltedShards = ∅) true
  | .markResumed filter =>
    let halted := s.haltedShards.erase filter
    s.change halted (halted = ∅) false
  | .hardHalt =>
    store { s with haltedShards := insert hardHaltSentinel s.haltedShards } true
  | .applyHalt filter => s.change (insert filter s.haltedShards) (s.haltedShards = ∅) none
  | .applyResume filter =>
    let halted := s.haltedShards.erase filter
    s.change halted (filter ∈ s.haltedShards ∧ halted = ∅) none
  | .send i =>
    match s.sends[i]? with
    | none => s
    | some value => store { s with sends := s.sends.eraseIdx i } (value.getD s.anyHalted)
  | .watch live => { s with receivers := live }

def run (s : HaltState) (ops : List HaltOp) : HaltState := ops.foldl step s

/-- Every value fixed under the lock has been sent. -/
def Sent (s : HaltState) : Prop := ∀ value ∈ s.sends, value = none

/-- The lock is taken when every fixed value has been sent, and a value is sent to somebody who
listens. -/
def InOrder (s : HaltState) : HaltOp → Prop
  | .markHalted _ | .markResumed _ | .applyHalt _ | .applyResume _ => s.Sent
  | .hardHalt => s.Sent ∧ s.receivers ≠ 0
  | .send _ => s.receivers ≠ 0
  | .watch _ => True

/-- Every step of a run is in order. -/
def RunInOrder : HaltState → List HaltOp → Prop
  | _, [] => True
  | s, op :: ops => s.InOrder op ∧ RunInOrder (s.step op) ops

/-- Every fixed value left to send is the truth, and the channel holds the truth unless some send is
left. -/
structure Truthful (s : HaltState) : Prop where
  sends : ∀ value ∈ s.sends, value.getD s.anyHalted = s.anyHalted
  channel : s.sends = [] → s.channel = s.anyHalted

end HaltState

open HaltState

section Runs

variable {s : HaltState}

/-- A change of the set keeps the truth, or leaves the call to send it, where all that is left to
send reads the set again. -/
theorem truthful_change {halted : Finset Bytes} {sends : Bool} {value : Option Bool}
    (h : Truthful s) (hsent : s.Sent)
    (hvalue : sends = true → value.getD (decide (halted ≠ ∅)) = decide (halted ≠ ∅))
    (hsame : sends = false → decide (halted ≠ ∅) = s.anyHalted) :
    Truthful (s.change halted sends value) := by
  constructor
  · intro other hother
    rcases List.mem_append.mp hother with hold | hnew
    · rw [hsent other hold]
      rfl
    · cases sends with
      | false => cases hnew
      | true =>
        rw [List.mem_singleton.mp hnew]
        exact hvalue rfl
  · intro hnone
    obtain ⟨hold, hnew⟩ := List.append_eq_nil_iff.mp hnone
    cases sends with
    | true => cases hnew
    | false => exact (h.channel hold).trans (hsame rfl).symm

/-- **One step in order.** -/
theorem truthful_step {op : HaltOp} (h : Truthful s) (horder : s.InOrder op) :
    Truthful (s.step op) := by
  cases op with
  | markHalted filter =>
    refine truthful_change h horder (by simp) fun hnone => ?_
    simpa [anyHalted] using hnone
  | markResumed filter =>
    by_cases hempty : s.haltedShards.erase filter = ∅
    · exact truthful_change h horder (by simp [hempty]) (by simp [hempty])
    · refine truthful_change h horder (by simp [hempty]) fun _ => ?_
      have hbefore : s.haltedShards ≠ ∅ := fun hnone => hempty (by simp [hnone])
      simp only [anyHalted, ne_eq, hempty, hbefore, not_false_eq_true]
  | hardHalt =>
    constructor
    · intro value hvalue
      rw [horder.1 value hvalue]
      rfl
    · intro _
      simp [step, store, anyHalted, horder.2]
  | applyHalt filter =>
    refine truthful_change h horder (fun _ => rfl) fun hnone => ?_
    simpa [anyHalted] using hnone
  | applyResume filter =>
    refine truthful_change h horder (fun _ => rfl) fun hnone => ?_
    by_cases hmem : filter ∈ s.haltedShards
    · have hrest : s.haltedShards.erase filter ≠ ∅ := by simpa [hmem] using hnone
      have hbefore : s.haltedShards ≠ ∅ := fun hempty => by simp [hempty] at hmem
      simp only [anyHalted, ne_eq, hrest, hbefore, not_false_eq_true]
    · rw [Finset.erase_eq_of_notMem hmem]
      rfl
  | send i =>
    simp only [step]
    split
    · exact h
    rename_i value hvalue
    have htruth := h.sends value (List.mem_of_getElem? hvalue)
    have hlive : s.receivers ≠ 0 := horder
    refine ⟨fun other hother => h.sends other (List.mem_of_mem_eraseIdx hother), fun _ => ?_⟩
    simp only [store, if_neg hlive, htruth]
    rfl
  | watch live => exact ⟨h.sends, h.channel⟩

/-- **A run in order.** -/
theorem truthful_run {ops : List HaltOp} (h : Truthful s) (horder : RunInOrder s ops) :
    Truthful (s.run ops) := by
  induction ops generalizing s with
  | nil => exact h
  | cons op ops ih => exact ih (truthful_step h horder.1) horder.2

/-- Nobody resumes the sentinel. -/
theorem sentinel_stays {op : HaltOp} (hfilter : op.filter? ≠ some hardHaltSentinel)
    (h : hardHaltSentinel ∈ s.haltedShards) : hardHaltSentinel ∈ (s.step op).haltedShards := by
  cases op with
  | markHalted | applyHalt => exact Finset.mem_insert_of_mem h
  | markResumed | applyResume =>
    exact Finset.mem_erase.mpr ⟨fun hsame => hfilter (congrArg some hsame.symm), h⟩
  | hardHalt => exact Finset.mem_insert_self ..
  | send =>
    simp only [step]
    split <;> exact h
  | watch => exact h

/-- After a hard halt the sentinel is in the set, whatever comes then. -/
theorem sentinel_of_hardHalt {ops : List HaltOp}
    (hfilter : ∀ op ∈ ops, op.filter? ≠ some hardHaltSentinel)
    (h : HaltOp.hardHalt ∈ ops ∨ hardHaltSentinel ∈ s.haltedShards) :
    hardHaltSentinel ∈ (s.run ops).haltedShards := by
  induction ops generalizing s with
  | nil => simpa [HaltState.run] using h
  | cons op ops ih =>
    refine ih (fun op hop => hfilter op (List.mem_cons_of_mem _ hop)) ?_
    rcases h with hmem | h
    · rcases List.mem_cons.mp hmem with rfl | hmem
      · exact .inr (Finset.mem_insert_self ..)
      · exact .inl hmem
    · exact .inr (sentinel_stays (hfilter op List.mem_cons_self) h)

end Runs

/-- **Watchers end with the truth** where every step is in order: once all calls have returned, a
receiver reads whether a shard is halted. -/
theorem watchers_read_truth (history : List HaltOp)
    (hfilter : ∀ op ∈ history, op.filter? ≠ some hardHaltSentinel)
    (horder : RunInOrder HaltState.new history) (hreturned : (HaltState.new.run history).sends = []) :
    (HaltState.new.run history).channel = (HaltState.new.run history).anyHalted ∧
      (HaltOp.hardHalt ∈ history → (HaltState.new.run history).channel = true) := by
  have htruth := (truthful_run ⟨by simp [HaltState.new], fun _ => rfl⟩ horder).channel hreturned
  refine ⟨htruth, fun hhard => htruth.trans ?_⟩
  exact decide_eq_true (Finset.ne_empty_of_mem (sentinel_of_hardHalt hfilter (.inl hhard)))

/-- One shard halts and resumes, another halts by an event, and the hard halt comes between the
event and its send. -/
def orderlyHistory : List HaltOp :=
  [.watch 1, .markHalted [1], .send 0, .markResumed [1], .send 0, .applyHalt [2], .hardHalt, .send 0]

/-- The receiver reads the hard halt. -/
theorem orderly_watcher_reads_hard_halt : (HaltState.new.run orderlyHistory).channel = true :=
  (watchers_read_truth orderlyHistory (by decide)
    (by simp [RunInOrder, orderlyHistory, InOrder, Sent, step, change, store, HaltState.new])
    (by decide)).2 (by decide)

/-- The last shard resumes, and the hard halt comes before the resumption is sent. -/
theorem hard_halt_overtaken :
    let s := HaltState.new.run
      [.watch 1, .markHalted [1], .send 0, .markResumed [1], .hardHalt, .send 0]
    s.sends = [] ∧ s.receivers = 1 ∧ s.anyHalted = true ∧ s.channel = false := by
  decide

end Halts

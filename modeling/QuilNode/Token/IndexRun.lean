import QuilNode.Token.RootConvergence

/-!
# The index under arbitrary reports

Reports may say anything that passes their structural check, in any order and at any frame.  A
layer that is recorded first takes out what it overlaps at its width, so the entries of one width
never overlap; entries of different widths do not either.  So the fold of the index never fails on
an overlap.
-/

namespace Token

namespace GlobalAccumulator

open SparseTree CoinBlocks ShardAccumulator GlobalCommit List GlobalState Nat

variable {ν : Type*}

/-- What happens to one application's GLOBAL records: a report is materialized for a shard's
filter, or others write records. -/
inductive IndexOp (ν : Type*) where
  | report (frame : Nat) (shard : List Bool) (report : Option (ShardReport ν))
  | write (records : Records)

/-- One step; a report that errs is rolled back. -/
def indexStep [DecidableEq ν] (net : Network ν) (app : Bytes32)
    (state : GlobalState ν) : IndexOp ν → Result Bool × GlobalState ν
  | .report frame shard report =>
    match materializeReport net app state frame shard report with
    | .error e => (.error e, state)
    | .ok (changed, state') => (.ok changed, state')
  | .write records => (.ok false, { state with records := records })

/-- The record of an indexed entry. -/
def recordAt (h : Hasher ν) (subtrees : Nat → List Bool → Option (Subtree ν))
    (e : Nat × List Bool) : Subtree ν :=
  (subtrees e.1 e.2).getD ⟨0, h.zero⟩

/-- The published root is the fold of the indexed records and its coins are their sum. -/
def PublishedIndex (net : Network ν) (state : GlobalState ν) : Prop :=
  (state.index = none ∧ state.published = none) ∨
    ∃ ctx index root, state.index = some (ctx, index) ∧
      foldApplicationRoot (net.derive ctx) (index.map fun e =>
        (e.1, e.2, (recordAt (net.derive ctx) state.subtrees e).root)) = .ok root ∧
      state.published = some ⟨ctx, depth,
        (index.map fun e => (recordAt (net.derive ctx) state.subtrees e).coins).sum, root⟩

/-- What recording layers keeps: entries that do not overlap, are reportable and have records. -/
structure WorkKept (index : Index) (subtrees : Nat → List Bool → Option (Subtree ν)) : Prop where
  free : IndexFree index
  reportable : ∀ e ∈ index, Reportable e.1 e.2
  recorded : ∀ e ∈ index, subtrees e.1 e.2 ≠ none

/-- What every reachable index satisfies. -/
structure IndexKept (network : Network ν) (state : GlobalState ν) : Prop
    extends WorkKept state.entries state.subtrees where
  published : (state.index = none ∧ state.published = none) ∨
    ∃ context index, state.index = some (context, index) ∧
      PublishedFrom network context index state.subtrees state.published

section Steps

variable [DecidableEq ν] {net : Network ν} {app : Bytes32} {state state' : GlobalState ν}
  {shard : List Bool} {report : ShardReport ν} {placement : Nat} {work : Working ν}

omit [DecidableEq ν] in
theorem WorkKept.perm {index index' : Index} {subtrees : Nat → List Bool → Option (Subtree ν)}
    (hkept : WorkKept index subtrees) (hperm : index'.Perm index) : WorkKept index' subtrees :=
  ⟨hkept.free.perm hperm, fun e he => hkept.reportable e (hperm.mem_iff.mp he),
    fun e he => hkept.recorded e (hperm.mem_iff.mp he)⟩

theorem IndexKept.admitted (hkept : IndexKept net state)
    (hreport : ∀ x ∈ report.subtrees, Reportable x.width shard)
    (hwork : admitLayers placement shard report.subtrees ⟨state.entries, state.subtrees, false⟩ =
      .ok work) : WorkKept work.index work.subtrees := by
  refine admitLayers_invariant (P := fun work => WorkKept work.index work.subtrees)
    (fun work x hx hwork => ?_) hkept.toWorkKept hwork
  refine ⟨indexFree_record x hwork.free, fun e he => ?_, fun e he => ?_⟩
  · rcases mem_append.mp he with he | he
    · exact hwork.reportable e (mem_filter.mp he).1
    · rw [mem_singleton.mp he]
      exact hreport x hx
  · simp only [recordLayer]
    split
    · simp
    rename_i hother
    rcases mem_append.mp he with he | he
    · exact hwork.recorded e (mem_filter.mp he).1
    · rw [mem_singleton.mp he] at hother
      exact absurd ⟨rfl, rfl⟩ hother

/-- **One report** keeps the index. -/
theorem IndexKept.materialized (hkept : IndexKept net state)
    (hm : Materialized net app state shard report placement work state')
    (hwork : admitLayers placement shard report.subtrees ⟨state.entries, state.subtrees, false⟩ =
      .ok work) : IndexKept net state' where
  toWorkKept := by
    rw [hm.subtrees]
    exact (hkept.admitted hm.reportable hwork).perm hm.entries
  published := by
    rcases hm.outcome with ⟨hindex, hpublished, hsame⟩ | ⟨index, hindex, hpublished⟩
    · rw [hindex, hpublished, hm.subtrees, hsame]
      exact hkept.published
    · exact .inr ⟨_, index, hindex, hpublished⟩

omit [DecidableEq ν] in
theorem LayerStep.coins_le {x : SubtreeReport ν} {I I' : Set (List Bool)}
    {S S' : List Bool → Option (Subtree ν)} (hstep : LayerStep placement shard x I S I' S')
    {p : List Bool} {s : Subtree ν} (hs : S p = some s) :
    ∃ s', S' p = some s' ∧ s.coins ≤ s'.coins := by
  cases hstep with
  | frozen | stale | repeated => exact ⟨s, hs, le_rfl⟩
  | admitted hopen hnewer =>
    by_cases hp : p = shard
    · subst hp
      refine ⟨_, if_pos rfl, ?_⟩
      rcases hnewer s hs with hlt | rfl
      · exact hlt.le
      · exact le_rfl
    · exact ⟨s, (if_neg hp).trans hs, le_rfl⟩

/-- A step keeps the index, and no record loses coins. -/
theorem IndexKept.step (hkept : IndexKept net state) (op : IndexOp ν) :
    IndexKept net (indexStep net app state op).2 ∧ ∀ {w p s}, state.subtrees w p = some s →
        ∃ s', (indexStep net app state op).2.subtrees w p = some s' ∧ s.coins ≤ s'.coins := by
  cases op with
  | write => exact ⟨⟨hkept.1, hkept.2⟩, fun hs => ⟨_, hs, le_rfl⟩⟩
  | report frame shard report =>
    cases report with
    | none => exact ⟨hkept, fun hs => ⟨_, hs, le_rfl⟩⟩
    | some =>
      simp only [indexStep]
      split
      · exact ⟨hkept, fun hs => ⟨_, hs, le_rfl⟩⟩
      rename_i changed state' hresult
      obtain ⟨_, _, hm, hwork⟩ := materializeReport_ok hresult
      refine ⟨hkept.materialized hm hwork, @fun w p s hs => ?_⟩
      rcases hm.effect w with ⟨x, -, -, hstep⟩ | ⟨-, -, hsubtrees⟩
      · exact hstep.coins_le hs
      · exact ⟨s, by rw [hsubtrees, hs], le_rfl⟩

theorem IndexKept.run (hkept : IndexKept net state) (ops : List (IndexOp ν)) :
    IndexKept net (Run.final (indexStep net app) state ops) ∧
      ∀ {w p s}, state.subtrees w p = some s →
        ∃ s', (Run.final (indexStep net app) state ops).subtrees w p = some s' ∧
          s.coins ≤ s'.coins := by
  induction ops generalizing state with
  | nil => exact ⟨hkept, fun hs => ⟨_, hs, le_rfl⟩⟩
  | cons op ops ih =>
    obtain ⟨hnext, hstep⟩ := IndexKept.step hkept op
    obtain ⟨hfinal, hrest⟩ := ih hnext
    refine ⟨hfinal, fun hs => ?_⟩
    obtain ⟨_, hs1, hle1⟩ := hstep hs
    obtain ⟨s2, hs2, hle2⟩ := hrest hs1
    exact ⟨s2, hs2, hle1.trans hle2⟩

omit [DecidableEq ν] in
theorem indexKept_empty : IndexKept net (.empty : GlobalState ν) where
  toWorkKept := ⟨List.Pairwise.nil, by simp [entries, empty], by simp [entries, empty]⟩
  published := .inl ⟨rfl, rfl⟩

omit [DecidableEq ν] in
/-- What is collected from a recorded index. -/
theorem collected_records (h : Hasher ν) {subtrees : Nat → List Bool → Option (Subtree ν)}
    {index : Index} (hrecorded : ∀ e ∈ index, subtrees e.1 e.2 ≠ none) {coins : Nat}
    {nodes : List (Nat × List Bool × ν)}
    (hcollect : collectSubtrees subtrees index 0 = .ok (coins, nodes)) :
    coins = (index.map fun e => (recordAt h subtrees e).coins).sum ∧
      nodes = index.map fun e => (e.1, e.2, (recordAt h subtrees e).root) := by
  have hrecords : ∀ e ∈ index, subtrees e.1 e.2 = some (recordAt h subtrees e) := by
    intro e he
    obtain ⟨_, hs⟩ := Option.ne_none_iff_exists'.mp (hrecorded e he)
    rw [recordAt, hs, Option.getD_some]
  obtain ⟨hcoins, hnodes⟩ := collectSubtrees_ok hrecords hcollect
  exact ⟨by rw [hcoins, zero_add], hnodes⟩

omit [DecidableEq ν] in
theorem IndexKept.publishedIndex (hkept : IndexKept net state) : PublishedIndex net state := by
  refine hkept.published.imp_right ?_
  rintro ⟨ctx, index, hindex, coins, nodes, root, hcollect, hfold, hpublished⟩
  have hrecorded : ∀ e ∈ index, state.subtrees e.1 e.2 ≠ none := by
    intro e he
    exact hkept.recorded e (by rwa [entries, hindex])
  obtain ⟨rfl, rfl⟩ := collected_records (net.derive ctx) hrecorded hcollect
  exact ⟨ctx, index, root, hindex, hfold, hpublished⟩

end Steps

/-- **The index under arbitrary reports.**  The entries of each width do not overlap and have
records, the published root is their fold; no record loses coins; and the index the next report
leaves folds without an error. -/
theorem index_stays_free_and_folds [DecidableEq ν] (net : Network ν) (app : Bytes32)
    (ops : List (IndexOp ν)) :
    let state := Run.final (indexStep net app) .empty ops
    IndexFree state.entries ∧ (∀ e ∈ state.entries, ∃ s, state.subtrees e.1 e.2 = some s) ∧
    PublishedIndex net state ∧
    (∀ later w p s, state.subtrees w p = some s →
      ∃ s', (Run.final (indexStep net app) .empty (ops ++ later)).subtrees w p =
        some s' ∧ s.coins ≤ s'.coins) ∧
    ∀ shard report placement work ctx coins nodes, verifyReport net shard report = .ok () →
      admitLayers placement shard report.subtrees ⟨state.entries, state.subtrees, false⟩ =
        .ok work →
      collectSubtrees work.subtrees (work.index.insertionSort fun a b => indexLe a b) 0 =
        .ok (coins, nodes) →
      ∃ root, foldApplicationRoot (net.derive ctx) nodes = .ok root := by
  intro state
  have hkept : IndexKept net state := (indexKept_empty.run ops).1
  refine ⟨hkept.free, fun e he => Option.ne_none_iff_exists'.mp (hkept.recorded e he),
    hkept.publishedIndex, fun later w p s hs => ?_, ?_⟩
  · rw [Run.final_append]
    exact (hkept.run later).2 hs
  · intro shard report placement work ctx coins nodes hverify hwork hcollect
    have hkept' := (hkept.admitted (verifyReport_ok hverify).1 hwork).perm
      (perm_insertionSort (fun a b => indexLe a b) work.index)
    obtain ⟨-, rfl⟩ := collected_records (net.derive ctx) hkept'.recorded hcollect
    exact ⟨_, foldApplicationRoot_ok hkept'.free hkept'.reportable _⟩

end GlobalAccumulator

end Token

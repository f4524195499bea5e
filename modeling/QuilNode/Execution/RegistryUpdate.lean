import QuilNode.Execution.RegistryRefresh

/-!
# An incremental update is a refresh

1.  *The rows.*  Each change moves the table at one address; sizes, indexes, counters and charges
    follow it there (`Changed.step`).
2.  *What is rebuilt.*  An entry rebuilt from the rows is the entry of the table they reflect.
3.  *What is not.*  A key that no changed row feeds has the same rows feeding it in both tables.
-/

namespace Registry

open Results OrdMap RegistryRows Table OrdSet

/-! ## A change of the table -/

namespace Table

/-- The row of `adds` a change leaves at its address. -/
def newAdds (t : Table) (c : Change) : Option AddedRow := c.adds.getD (t.adds.get? c.address)

/-- The row of `removes` a change leaves at its address. -/
def newRemoves (t : Table) (c : Change) : Option Nat := c.removes.getD (t.removes.get? c.address)

/-- The table after a change. -/
def change (t : Table) (c : Change) : Table where
  adds := t.adds.set c.address (t.newAdds c)
  removes := t.removes.set c.address (t.newRemoves c)

@[simp] theorem change_adds_get? (t : Table) (c : Change) (a : Bytes32) :
    (t.change c).adds.get? a = if c.address = a then t.newAdds c else t.adds.get? a :=
  get?_set ..

@[simp] theorem change_removes_get? (t : Table) (c : Change) (a : Bytes32) :
    (t.change c).removes.get? a = if c.address = a then t.newRemoves c else t.removes.get? a :=
  get?_set ..

/-- A change sets what its address shows. -/
theorem effective_change (t : Table) (c : Change) :
    (t.change c).effective = t.effective.set c.address (seen (t.newAdds c) (t.newRemoves c)) := by
  apply ext_get?
  intro a
  rw [get?_effective, change_adds_get?, change_removes_get?, get?_set, get?_effective]
  split <;> rfl

/-- What the rows at one address cost. -/
def addressCost (adds : Option AddedRow) (removes : Option Nat) : RegistryUsage :=
  adds.elim 0 (fun row => rowCost vkLen row.valueLen) + removes.elim 0 (rowCost vkLen) +
    (seen adds removes).elim 0 fun row => row.firstCost + row.secondCost

/-- Three totals that move each by their own difference. -/
theorem three_moved {M : Type*} [AddCommMonoid M]
    {base a a' b b' c c' oldA oldB oldC newA newB newC : M}
    (ha : a' + oldA = a + newA) (hb : b' + oldB = b + newB) (hc : c' + oldC = c + newC) :
    base + (a' + b' + c') + (oldA + oldB + oldC) = base + (a + b + c) + (newA + newB + newC) :=
  calc base + (a' + b' + c') + (oldA + oldB + oldC)
      = base + ((a' + oldA) + (b' + oldB) + (c' + oldC)) := by abel
    _ = base + ((a + newA) + (b + newB) + (c + newC)) := by rw [ha, hb, hc]
    _ = base + (a + b + c) + (newA + newB + newC) := by abel

/-- A change moves the usage by the difference at its address. -/
theorem usage_change (t : Table) (c : Change) :
    (t.change c).usage + addressCost (t.adds.get? c.address) (t.removes.get? c.address) =
      t.usage + addressCost (t.newAdds c) (t.newRemoves c) := by
  have hadds := total_set (fun _ (row : AddedRow) => rowCost vkLen row.valueLen) t.adds
    c.address (t.newAdds c)
  have hremoves := total_set (fun _ len => rowCost vkLen len) t.removes c.address (t.newRemoves c)
  have heffective := total_set
    (fun _ (row : DecodedRow) => row.firstCost + row.secondCost) t.effective c.address
    (seen (t.newAdds c) (t.newRemoves c))
  rw [← effective_change, get?_effective] at heffective
  exact three_moved hadds hremoves heffective

/-- How many rows of `adds` a change leaves. -/
theorem length_change (t : Table) (c : Change) :
    (t.change c).adds.entries.length = t.adds.entries.length -
      (if (t.adds.get? c.address).isSome then 1 else 0) +
        (if (t.newAdds c).isSome then 1 else 0) := by
  have hlength : ∀ m : OrdMap Bytes32 AddedRow, m.total (fun _ _ => 1) = m.entries.length := by
    intro m
    simp [total]
  have hshare : ∀ o : Option AddedRow,
      share (fun _ _ => 1) c.address o = if o.isSome then 1 else 0 := by
    intro o
    cases o <;> rfl
  have hset := total_set (fun _ _ => 1) t.adds c.address (t.newAdds c)
  have hle := @share_le_total _ _ _ (fun _ _ => 1) t.adds c.address
  rw [hlength, hlength, hshare, hshare] at hset
  rw [hlength, hshare] at hle
  change (t.adds.set c.address (t.newAdds c)).entries.length = _
  omega

end Table

/-! ## The charges -/

/-- A row is small enough for a record. -/
def Recordable (limits : RegistryLimits) (adds : Option AddedRow) (removes : Option Nat) : Prop :=
  (∀ row, adds = some row → vkLen + row.valueLen ≤ limits.maxRecordBytes) ∧
    ∀ len, removes = some len → vkLen + len ≤ limits.maxRecordBytes

/-- Charges in a loop add up. -/
theorem foldl_plus {α : Type*} (cost : α → RegistryUsage) (l : List α) (usage : RegistryUsage) :
    l.foldl (fun usage x => usage.plus (cost x)) usage = usage + (l.map cost).sum := by
  induction l generalizing usage with
  | nil => simp
  | cons x l ih =>
    rw [List.foldl_cons, ih, List.map_cons, List.sum_cons, RegistryUsage.plus_eq, add_assoc]

/-- The charge of a first record is its cost. -/
theorem firstCharge_eq (usage : RegistryUsage) (row : DecodedRow) :
    firstCharge usage row.first = usage + row.firstCost := by
  unfold DecodedRow.firstCost
  cases row.first with
  | prover info => cases info <;> simp [firstCharge, RegistryUsage.plus_eq]
  | leafRoot records => exact foldl_plus (fun r => leafRootCharge r.1 r.2) records usage
  | _ => simp [firstCharge]

/-- The charge of what an address shows is the cost of its row. -/
theorem decodedCharge_eq (usage : RegistryUsage) (adds : Option AddedRow) (removes : Option Nat) :
    decodedCharge usage adds removes =
      usage + (seen adds removes).elim 0 fun row => row.firstCost + row.secondCost := by
  cases adds with
  | none => cases removes <;> simp [decodedCharge, seen]
  | some row =>
    cases removes with
    | some => simp [decodedCharge, seen]
    | none =>
      simp only [decodedCharge, firstCharge_eq, seen, Option.isSome_none, Bool.false_eq_true,
        if_false, Option.map_some, Option.elim_some, DecodedRow.secondCost, ← add_assoc]
      rcases row.decoded.allocation with _ | _ | ⟨owner, alloc⟩
      · simp
      · simp
      · rfl

variable {limits : RegistryLimits}

/-- A phase set is charged where its value fits a record. -/
theorem phaseCharge_eq_some {o : Option Nat} {usage : RegistryUsage} :
    phaseCharge limits o = some usage ↔ (∀ len, o = some len → vkLen + len ≤ limits.maxRecordBytes) ∧
      usage = o.elim 0 (rowCost vkLen) := by
  cases o with
  | none => simp [phaseCharge, eq_comm]
  | some => simp [phaseCharge, rowCharge_eq_some]

/-- The rows at an address contribute what they cost, unless one is too large. -/
theorem contribution_eq_some {adds : Option AddedRow} {removes : Option Nat}
    {usage : RegistryUsage} :
    contribution limits adds removes = some usage ↔
      Recordable limits adds removes ∧ usage = addressCost adds removes := by
  have hadded : (adds.map AddedRow.valueLen).elim 0 (rowCost vkLen) =
      adds.elim 0 fun row => rowCost vkLen row.valueLen := by
    cases adds <;> rfl
  have hfits : (∀ len, adds.map AddedRow.valueLen = some len →
      vkLen + len ≤ limits.maxRecordBytes) ↔
        ∀ row, adds = some row → vkLen + row.valueLen ≤ limits.maxRecordBytes := by
    cases adds <;> simp
  simp only [contribution, decodedCharge_eq, RegistryUsage.plus_eq, zero_add, Option.bind_eq_bind,
    Option.bind_eq_some_iff, Option.some.injEq, phaseCharge_eq_some, hadded, hfits]
  constructor
  · rintro ⟨_, ⟨hadds, rfl⟩, _, ⟨hremoves, rfl⟩, rfl⟩
    exact ⟨⟨hadds, hremoves⟩, rfl⟩
  · rintro ⟨⟨hadds, hremoves⟩, rfl⟩
    exact ⟨_, ⟨hadds, rfl⟩, _, ⟨hremoves, rfl⟩, rfl⟩

/-- Changes of distinct addresses, none of which a table has seen made: the table and the
rows agree at each. -/
structure Ahead (rows : RegistryRows) (t : Table) (changes : List Change) : Prop where
  distinct : (changes.map Change.address).Nodup
  adds : ∀ c ∈ changes, rows.adds.get? c.address = t.adds.get? c.address
  removes : ∀ c ∈ changes, rows.removes.get? c.address = t.removes.get? c.address

variable {rows : RegistryRows} {t : Table} {changes : List Change} {c : Change}

/-- Making the first change leaves the others ahead. -/
theorem Ahead.tail (h : Ahead rows t (c :: changes)) : Ahead rows (t.change c) changes := by
  obtain ⟨hnew, hdistinct⟩ := List.nodup_cons.mp h.distinct
  have hne : ∀ c' ∈ changes, c.address ≠ c'.address := fun c' hc' heq =>
    hnew (heq ▸ List.mem_map_of_mem hc')
  refine ⟨hdistinct, fun c' hc' => ?_, fun c' hc' => ?_⟩
  · rw [change_adds_get?, if_neg (hne c' hc')]
    exact h.adds c' (List.mem_cons_of_mem c hc')
  · rw [change_removes_get?, if_neg (hne c' hc')]
    exact h.removes c' (List.mem_cons_of_mem c hc')

/-- What reckoning comes to: the totals of a table where all `fits`, an error where it does
not, or no answer. -/
def Reckoned (out : Except (Result Bool) (RegistryUsage × Nat)) (t : Table)
    (fits : Prop) : Prop :=
  (out = .ok (t.usage, t.adds.entries.length) ∧ fits) ∨ out = .error (.ok false) ∨
    (out = .error (.error limit) ∧ ¬ fits)

/-- One change charged: the usage of the table after it, or a reason to stop. -/
theorem reckonChange_cases (hadds : rows.adds.get? c.address = t.adds.get? c.address)
    (hremoves : rows.removes.get? c.address = t.removes.get? c.address) :
    Reckoned (reckonChange limits rows (t.usage, t.adds.entries.length) c) (t.change c)
      (Recordable limits (t.newAdds c) (t.newRemoves c)) := by
  unfold reckonChange
  simp only [hadds, hremoves]
  cases hold : contribution limits (t.adds.get? c.address) (t.removes.get? c.address) with
  | none => exact .inr (.inl rfl)
  | some =>
    obtain ⟨-, rfl⟩ := contribution_eq_some.mp hold
    cases hnew : contribution limits (c.adds.getD (t.adds.get? c.address))
        (c.removes.getD (t.removes.get? c.address)) with
    | none =>
      refine .inr (.inr ⟨rfl, fun hfit => ?_⟩)
      cases hnew.symm.trans (contribution_eq_some.mpr ⟨hfit, rfl⟩)
    | some new =>
      obtain ⟨hfit, rfl⟩ := contribution_eq_some.mp hnew
      dsimp only
      cases hminus : t.usage.checkedMinus
          (addressCost (t.adds.get? c.address) (t.removes.get? c.address)) with
      | none => exact .inr (.inl rfl)
      | some without =>
        have hwithout := RegistryUsage.checkedMinus_some hminus
        have hmoved := t.usage_change c
        have husage : without.plus (addressCost (t.newAdds c) (t.newRemoves c)) =
            (t.change c).usage := by
          rw [← hwithout, add_right_comm] at hmoved
          exact (RegistryUsage.add_right_cancel hmoved).symm
        refine .inl ⟨?_, hfit⟩
        rw [t.length_change c, ← husage]
        rfl

/-- The charges of all changes: the usage of the table they lead to, or a reason to
stop. -/
theorem reckon_cases {t : Table} (h : Ahead rows t changes) :
    Reckoned (changes.foldlM (reckonChange limits rows) (t.usage, t.adds.entries.length))
      (changes.foldl change t)
      (∀ c ∈ changes, Recordable limits (t.newAdds c) (t.newRemoves c)) := by
  induction changes generalizing t with
  | nil => exact .inl ⟨rfl, fun _ h => by simp at h⟩
  | cons c changes ih =>
    -- a change leaves the rows at the other addresses as they are
    have hsame : (∀ c' ∈ changes, Recordable limits ((t.change c).newAdds c')
        ((t.change c).newRemoves c')) ↔
          ∀ c' ∈ changes, Recordable limits (t.newAdds c') (t.newRemoves c') := by
      refine forall₂_congr fun c' hc' => ?_
      have hne : c.address ≠ c'.address := fun heq =>
        (List.nodup_cons.mp h.distinct).1 (heq ▸ List.mem_map_of_mem hc')
      simp [newAdds, newRemoves, hne]
    rw [List.foldlM_cons, List.forall_mem_cons, ← hsame]
    rcases reckonChange_cases (h.adds c List.mem_cons_self) (h.removes c List.mem_cons_self) with
      ⟨hok, hfit⟩ | hdecline | ⟨hfail, hover⟩
    · rw [hok, and_iff_right hfit]
      exact ih h.tail
    · rw [hdecline]
      exact .inr (.inl rfl)
    · rw [hfail]
      exact .inr (.inr ⟨rfl, fun hfits => hover hfits.1⟩)

/-! ## The rows -/

/-- The rows of a table with what one address files taken out of the indexes. -/
structure Unfiled (t : Table) (address : Bytes32) (rows : RegistryRows) : Prop where
  owned : rows.owned.Files fun owner a =>
    address ≠ a ∧ ∃ row, t.effective.get? a = some row ∧ row.owner = some owner
  leafSources : rows.leafSources.Files fun key a =>
    address ≠ a ∧ ∃ row, t.effective.get? a = some row ∧ (row.recordFor key).isSome

section Filed

variable {κ : Type*} [DecidableEq κ] {index : SetIndex κ Bytes32} {g : DecodedRow → κ → Prop}
  {addr : Bytes32} {row : DecodedRow}

/-- Without its row an address files nothing. -/
theorem files_unfiled (h : index.Files fun k a => ∃ row, t.effective.get? a = some row ∧ g row k)
    (hrow : t.effective.get? addr = some row) {ks : List κ} (hks : ∀ k, g row k → k ∈ ks) :
    SetIndex.Files (ks.foldl (fun index k => index.remove k addr) index)
      fun k a => addr ≠ a ∧ ∃ row, t.effective.get? a = some row ∧ g row k := by
  refine (h.removeAll ks addr).congr fun k a => and_congr_left ?_
  rintro ⟨row', hrow', hg⟩
  refine not_congr (and_iff_left_of_imp ?_)
  rintro rfl
  cases Option.some.inj (hrow.symm.trans hrow')
  exact hks k hg

/-- With its new row an address files what the row says. -/
theorem files_taken (h : index.Files fun k a =>
      c.address ≠ a ∧ ∃ row, t.effective.get? a = some row ∧ g row k) (ks : List κ)
    (hks : ∀ k, k ∈ ks ↔ ∃ row, (t.change c).effective.get? c.address = some row ∧ g row k) :
    SetIndex.Files (ks.foldl (fun index k => index.add k c.address) index)
      fun k a => ∃ row, (t.change c).effective.get? a = some row ∧ g row k := by
  refine (h.addAll ks c.address).congr fun k a => ?_
  by_cases ha : c.address = a
  · subst ha
    simp [hks]
  · rw [effective_change, get?_set, if_neg ha]
    simp [ha]

end Filed

section Indexing

variable (rows : RegistryRows) (addr : Bytes32) (row : DecodedRow)

/-- Unindexing takes an allocation from its owner. -/
theorem owned_unindex : (rows.unindex addr row).owned =
      row.owner.toList.foldl (fun owned owner => owned.remove owner addr) rows.owned := by
  unfold unindex DecodedRow.owner
  rcases row.allocation with _ | _ | ⟨owner, _⟩ <;> rfl

/-- Unindexing takes a row from the sources of its leaf roots. -/
theorem leafSources_unindex : (rows.unindex addr row).leafSources =
      (row.records.map Prod.fst).foldl (fun sources key => sources.remove key addr)
        rows.leafSources := by
  rw [List.foldl_map]
  unfold unindex DecodedRow.records
  cases row.first <;> rfl

/-- Indexing gives an allocation to its owner. -/
theorem owned_index : (rows.index addr row).owned =
      row.owner.toList.foldl (fun owned owner => owned.add owner addr) rows.owned := by
  unfold index DecodedRow.owner
  rcases row.allocation with _ | _ | ⟨owner, _⟩ <;> rfl

/-- Indexing adds a row to the sources of its leaf roots. -/
theorem leafSources_index : (rows.index addr row).leafSources =
      (row.records.map Prod.fst).foldl (fun sources key => sources.add key addr)
        rows.leafSources := by
  rw [List.foldl_map]
  unfold index DecodedRow.records
  cases row.first <;> rfl

end Indexing

/-- Taking a row out of the indexes takes out all its address files. -/
theorem RowsReflect.unindex (h : RowsReflect t rows) {addr : Bytes32} {row : DecodedRow}
    (hrow : t.effective.get? addr = some row) :
    Unfiled t addr (rows.unindex addr row) where
  owned := by
    rw [owned_unindex]
    exact files_unfiled h.owned hrow fun _ howner => Option.mem_toList.mpr howner
  leafSources := by
    rw [leafSources_unindex]
    exact files_unfiled h.leafSources hrow fun _ => DecodedRow.recordFor_isSome.mp

/-- An address that shows no row files nothing. -/
theorem RowsReflect.unfiled (h : RowsReflect t rows) {addr : Bytes32}
    (hnone : t.effective.get? addr = none) : Unfiled t addr rows := by
  have hne : ∀ (g : DecodedRow → Prop) a, (∃ row, t.effective.get? a = some row ∧ g row) ↔
      addr ≠ a ∧ ∃ row, t.effective.get? a = some row ∧ g row := by
    intro g a
    refine (and_iff_right_of_imp ?_).symm
    rintro ⟨row, hrow, -⟩ rfl
    rw [hnone] at hrow
    cases hrow
  exact ⟨h.owned.congr fun _ a => hne _ a, h.leafSources.congr fun _ a => hne _ a⟩

/-- What replacing an add writes. -/
theorem replaceAdded_eq (rows : RegistryRows) (addr : Bytes32) (new : Option AddedRow) :
    rows.replaceAdded addr new = { rows with
        adds := rows.adds.set addr new
        rowSizes := rows.rowSizes.swap ((rows.adds.get? addr).map fun row => vkLen + row.valueLen)
          (new.map fun row => vkLen + row.valueLen)
        valueSizes := rows.valueSizes.swap ((rows.adds.get? addr).map AddedRow.valueLen)
          (new.map AddedRow.valueLen) } := by
  unfold replaceAdded
  cases hget : rows.adds.get? addr with
  | none =>
    cases new with
    | none => simp [OrdMap.set, Bag.swap, OrdMap.erase_of_get? hget]
    | some => rfl
  | some =>
    cases new with
    | none => rfl
    | some =>
      simp only [forgetSize, noteSize, insert_erase]
      rfl

/-- What replacing a remove writes. -/
theorem replaceRemoved_eq (rows : RegistryRows) (addr : Bytes32) (new : Option Nat) :
    rows.replaceRemoved addr new = { rows with
        removes := rows.removes.set addr new
        rowSizes := rows.rowSizes.swap ((rows.removes.get? addr).map (vkLen + ·))
          (new.map (vkLen + ·))
        valueSizes := rows.valueSizes.swap ((rows.removes.get? addr).map id) (new.map id) } := by
  unfold replaceRemoved
  cases hget : rows.removes.get? addr with
  | none =>
    cases new with
    | none => simp [OrdMap.set, Bag.swap, OrdMap.erase_of_get? hget]
    | some => rfl
  | some =>
    cases new with
    | none => rfl
    | some =>
      simp only [forgetSize, noteSize, insert_erase]
      rfl

/-- The rows show what the table shows. -/
theorem SizesReflect.effective (h : SizesReflect t rows) (addr : Bytes32) :
    rows.effective addr = t.effective.get? addr := by
  rw [RegistryRows.effective, h.adds, h.removes, get?_effective, seen]

/-- Replacing an add keeps the sizes. -/
theorem SizesReflect.replaceAdded (h : SizesReflect t rows) (addr : Bytes32)
    (new : Option AddedRow) :
    SizesReflect ⟨t.adds.set addr new, t.removes⟩ (rows.replaceAdded addr new) := by
  rw [replaceAdded_eq, h.adds]
  exact ⟨rfl, h.removes, h.rowSizes.swap addr new, h.valueSizes.swap addr new⟩

/-- Replacing a remove keeps the sizes. -/
theorem SizesReflect.replaceRemoved (h : SizesReflect t rows) (addr : Bytes32)
    (new : Option Nat) :
    SizesReflect ⟨t.adds, t.removes.set addr new⟩ (rows.replaceRemoved addr new) := by
  -- the bag counts both phases, the changed one first
  have hcomm : ∀ (size : Nat → Nat) (m : OrdMap Bytes32 Nat),
      sized ⟨t.adds, m⟩ size = fun n => m.total (fun _ len => if size len = n then 1 else 0) +
        t.adds.total (fun _ row => if size row.valueLen = n then 1 else 0) :=
    fun size m => funext fun n => Nat.add_comm _ _
  have hrow := h.rowSizes
  have hvalue := h.valueSizes
  change Bag.Holds _ (sized ⟨t.adds, t.removes⟩ _) at hrow hvalue
  rw [hcomm] at hrow hvalue
  rw [replaceRemoved_eq, h.removes]
  refine ⟨h.adds, rfl, ?_, ?_⟩
  · rw [hcomm]
    exact hrow.swap addr new
  · rw [hcomm]
    exact hvalue.swap addr new

/-- Replacing what a change names keeps the sizes. -/
theorem SizesReflect.replace (h : SizesReflect t rows) (c : Change) :
    SizesReflect (t.change c) (rows.replace c) := by
  unfold RegistryRows.replace change newAdds newRemoves
  cases c.adds with
  | none =>
    rw [Option.getD_none, set_get?]
    cases c.removes with
    | none =>
      rw [Option.getD_none, set_get?]
      exact h
    | some removes => exact h.replaceRemoved c.address removes
  | some adds =>
    have hadds := h.replaceAdded c.address adds
    cases c.removes with
    | none =>
      rw [Option.getD_none, set_get?]
      exact hadds
    | some removes => exact hadds.replaceRemoved c.address removes

/-- Replacing a row leaves the indexes. -/
theorem replace_indexes (rows : RegistryRows) (c : Change) :
    (rows.replace c).owned = rows.owned ∧ (rows.replace c).leafSources = rows.leafSources := by
  unfold replace
  cases c.adds <;> cases c.removes <;> simp [replaceAdded_eq, replaceRemoved_eq]

/-- What the indexes hold once the new row at an address is filed. -/
theorem Unfiled.taken (h : Unfiled t c.address rows)
    (hsizes : SizesReflect (t.change c) rows) (self : InMemoryProverRegistry) :
    RowsReflect (t.change c) (takeRow (self, rows) c.address).2 := by
  have hseen := hsizes.effective c.address
  unfold takeRow
  dsimp only
  rw [hseen]
  cases hnew : (t.change c).effective.get? c.address with
  | none =>
    exact { hsizes with
      owned := files_taken h.owned [] (by simp [hnew])
      leafSources := files_taken h.leafSources [] (by simp [hnew]) }
  | some =>
    refine { hsizes with owned := ?_, leafSources := ?_ }
    · rw [owned_index]
      exact files_taken h.owned _ (by simp [hnew])
    · rw [leafSources_index]
      exact files_taken h.leafSources _ (by simp [hnew, DecodedRow.recordFor_isSome])

/-- Counting a row moves each count by its tally. -/
theorem count_countOf (self : InMemoryProverRegistry) (row : DecodedRow) (add : Bool)
    (kind : VertexKind) : (self.count row add).countOf kind =
      if add then self.countOf kind + row.tally kind else self.countOf kind - row.tally kind := by
  unfold InMemoryProverRegistry.count DecodedRow.tally
  rcases row.allocation with _ | allocation <;> cases row.first <;> cases add <;> cases kind <;> rfl

/-- What counting a row leaves alone. -/
structure SameCaches (start other : InMemoryProverRegistry) : Prop where
  proverCache : other.proverCache = start.proverCache
  leafRootCache : other.leafRootCache = start.leafRootCache
  filterCache : other.filterCache = start.filterCache
  addressToFilters : other.addressToFilters = start.addressToFilters
  fromRows : other.fromRows = start.fromRows
  diverged : other.diverged = start.diverged

variable {self : InMemoryProverRegistry}

/-- Counting leaves the caches. -/
theorem SameCaches.count {other : InMemoryProverRegistry} (h : SameCaches self other)
    (row : DecodedRow) (add : Bool) : SameCaches self (other.count row add) := by
  unfold InMemoryProverRegistry.count
  obtain ⟨h1, h2, h3, h4, h5, h6⟩ := h
  rcases row.allocation with _ | allocation <;> cases row.first <;> exact ⟨h1, h2, h3, h4, h5, h6⟩

/-- The rows and the counters of a table, over the caches of `start`. -/
structure Changed (start : InMemoryProverRegistry) (t : Table)
    (state : InMemoryProverRegistry × RegistryRows) : Prop where
  rows : RowsReflect t state.2
  counts : ∀ kind, state.1.countOf kind = t.effective.total fun _ row => row.tally kind
  caches : SameCaches start state.1

variable {state : InMemoryProverRegistry × RegistryRows} {start : InMemoryProverRegistry}

/-- The old row at an address taken out: its indexes, its sizes, its counts. -/
theorem Changed.dropped (h : Changed start t state) (addr : Bytes32) :
    Unfiled t addr (dropRow state addr).2 ∧ SizesReflect t (dropRow state addr).2 ∧
      SameCaches start (dropRow state addr).1 ∧
      ∀ kind, (dropRow state addr).1.countOf kind +
        share (fun _ (row : DecodedRow) => row.tally kind) addr
          (t.effective.get? addr) = t.effective.total fun _ row => row.tally kind := by
  have hseen := h.rows.toSizesReflect.effective addr
  unfold dropRow
  rw [hseen]
  cases hrow : t.effective.get? addr with
  | none => exact ⟨h.rows.unfiled hrow, h.rows.toSizesReflect, h.caches, h.counts⟩
  | some old =>
    refine ⟨h.rows.unindex hrow, { h.rows.toSizesReflect with }, h.caches.count old false, fun kind => ?_⟩
    have hle := @share_le_total _ _ _ (fun _ (row : DecodedRow) => row.tally kind)
      t.effective addr
    rw [hrow] at hle
    rw [count_countOf, h.counts kind]
    exact Nat.sub_add_cancel hle

/-- Taking a row in adds its tally. -/
theorem takeRow_countOf (h : SizesReflect t state.2) (addr : Bytes32) (kind : VertexKind) :
    (takeRow state addr).1.countOf kind = state.1.countOf kind +
      share (fun _ (row : DecodedRow) => row.tally kind) addr (t.effective.get? addr) := by
  unfold takeRow
  rw [h.effective addr]
  cases t.effective.get? addr with
  | none => rfl
  | some new => exact count_countOf state.1 new true kind

/-- Taking a row in leaves the caches. -/
theorem SameCaches.taken (h : SameCaches start self) (rows : RegistryRows) (addr : Bytes32) :
    SameCaches start (takeRow (self, rows) addr).1 := by
  unfold takeRow
  split
  · exact h.count _ true
  · exact h

/-- **A change moves rows, indexes and counters to the table it leads to.** -/
theorem Changed.step {start : InMemoryProverRegistry} (h : Changed start t state) (c : Change) :
    Changed start (t.change c) (applyChange state c) := by
  obtain ⟨hunfiled, hsizes, hcaches, hcounts⟩ := h.dropped c.address
  have hreplaced := hsizes.replace c
  have hfiled : Unfiled t c.address ((dropRow state c.address).2.replace c) := by
    obtain ⟨howned, hsources⟩ := replace_indexes (dropRow state c.address).2 c
    exact ⟨howned ▸ hunfiled.owned, hsources ▸ hunfiled.leafSources⟩
  refine ⟨hfiled.taken hreplaced _, fun kind => ?_, hcaches.taken _ c.address⟩
  have htotal := total_set (fun _ (row : DecodedRow) => row.tally kind) t.effective
    c.address (seen (t.newAdds c) (t.newRemoves c))
  have hnew : (t.change c).effective.get? c.address = seen (t.newAdds c) (t.newRemoves c) := by
    rw [effective_change, get?_set, if_pos rfl]
  have hcount := hcounts kind
  unfold applyChange
  rw [takeRow_countOf hreplaced, hnew, effective_change]
  dsimp only
  omega

/-- The loop over the changes. -/
theorem Changed.run {start : InMemoryProverRegistry} {t : Table}
    {state : InMemoryProverRegistry × RegistryRows} (h : Changed start t state)
    (changes : List Change) :
    Changed start (changes.foldl change t) (changes.foldl applyChange state) := by
  induction changes generalizing t state with
  | nil => exact h
  | cons c changes ih => exact ih (h.step c)

/-! ## What is rebuilt -/

section Recomposition

variable (h : RowsReflect t rows)
include h

/-- Rows and table list the same allocations of an owner. -/
theorem RowsReflect.allocationsOf (owner : Bytes) :
    rows.allocationsOf owner = t.allocationsOf owner := by
  have hhas : ∀ a, Has ((rows.owned owner).getD .empty) a ↔
      ((t.effective.filterMap fun _ row => row.allocationFor owner).get? a).isSome := by
    intro a
    rw [(h.owned owner).2 a, get?_filterMap]
    dsimp only
    cases t.effective.get? a <;> simp [DecodedRow.allocationFor_isSome]
  unfold RegistryRows.allocationsOf Table.allocationsOf
  rw [toList_eq_keys hhas, ← filterMap_keys]
  refine List.filterMap_congr fun a ha => ?_
  obtain ⟨⟨_, _⟩, he, rfl⟩ := List.mem_map.mp ha
  have hget := mem_entries_iff.mp he
  rw [hget, h.toSizesReflect.effective]
  rw [get?_filterMap] at hget
  obtain ⟨row, hrow, hallocation⟩ := Option.bind_eq_some_iff.mp hget
  rw [hrow]
  unfold DecodedRow.allocationFor at hallocation
  obtain ⟨_, rowAllocation⟩ := row
  rcases rowAllocation with _ | _ | ⟨o, a⟩
  · cases hallocation
  · cases hallocation
  · dsimp only at hallocation ⊢
    split at hallocation
    · exact hallocation
    · cases hallocation

/-- Rows and table show the same vertex of an owner. -/
theorem RowsReflect.own (owner : Bytes) : (addressOf owner).bind rows.effective = t.own owner := by
  have heffective : rows.effective = t.effective.get? := funext h.toSizesReflect.effective
  rw [heffective]
  rfl

/-- A leaf-root key looked up in the rows has the table's record. -/
theorem RowsReflect.leafRecord (key : LeafRootKey) : (do
      let sources ← rows.leafSources key
      let addr ← sources.last?
      let row ← rows.effective addr
      row.recordFor key) = t.leafRecord key := by
  have hhas : ∀ a, Has ((rows.leafSources key).getD .empty) a ↔
      ((t.effective.filterMap fun _ row => row.recordFor key).get? a).isSome := by
    intro a
    rw [(h.leafSources key).2 a, get?_filterMap]
    dsimp only
    cases t.effective.get? a <;> simp
  have hlast : (rows.leafSources key).bind last? =
      ((t.effective.filterMap fun _ row => row.recordFor key).entries.map Prod.fst).getLast? := by
    rw [← toList_eq_keys hhas]
    cases rows.leafSources key <;> rfl
  have hlookup : (fun addr => (rows.effective addr).bind fun row => row.recordFor key) =
      (t.effective.filterMap fun _ row => row.recordFor key).get? := by
    funext addr
    rw [h.toSizesReflect.effective, get?_filterMap]
  rw [Table.leafRecord, ← bind_getLast?_keys, ← hlast, ← hlookup, Option.bind_assoc]
  rfl

/-- The cache of leaf roots after the keys are recomposed. -/
theorem recomposeLeafRoots (keys : List LeafRootKey) (self : InMemoryProverRegistry) :
    keys.foldl (recomposeLeafRoot rows) self = { self with
      leafRootCache := fun key => if key ∈ keys then t.leafRecord key else self.leafRootCache key } := by
  induction keys generalizing self with
  | nil => simp
  | cons k keys ih =>
    rw [List.foldl_cons, ih]
    unfold recomposeLeafRoot
    dsimp only
    rw [h.leafRecord]
    congr 1
    funext key
    by_cases hkey : key = k
    · subst hkey
      simp
    · simp [hkey]

end Recomposition

/-- The filters of allocations are those they confirm. -/
theorem has_filtersOf {allocations : List ProverAllocationInfo} {filter : Bytes} :
    Has (filtersOf allocations) filter ↔ ∃ a ∈ allocations, a.confirmationFilter = filter := by
  unfold filtersOf
  have hfold : ∀ s : OrdSet Bytes,
      Has (allocations.foldl (fun filters a => filters.insert a.confirmationFilter ()) s) filter ↔
        (∃ a ∈ allocations, a.confirmationFilter = filter) ∨ Has s filter := by
    induction allocations with
    | nil => simp
    | cons a allocations ih =>
      intro s
      rw [List.foldl_cons, ih, has_insert, List.exists_mem_cons_iff, or_left_comm, or_assoc]
  rw [hfold]
  simp [not_has_empty]

/-- The registry once some provers are rebuilt: they hold what the new table says, the
others what the old one does. -/
structure Rebuilt (old new : Table) (done : Bytes → Prop) (registry : InMemoryProverRegistry) :
    Prop where
  provers : ∀ p, (done p → registry.proverCache p = recomposedEntry (new.own p) p (new.allocationsOf p)) ∧
    (¬ done p → registry.proverCache p = recomposedEntry (old.own p) p (old.allocationsOf p))
  filters : registry.filterCache.Files fun filter p =>
    (done p ∧ ∃ a ∈ new.allocationsOf p, a.confirmationFilter = filter) ∨
      (¬ done p ∧ ∃ a ∈ old.allocationsOf p, a.confirmationFilter = filter)
  active : ∀ p, (done p → registry.addressToFilters p = Table.activeFilters (new.allocationsOf p)) ∧
    (¬ done p → registry.addressToFilters p = Table.activeFilters (old.allocationsOf p))

variable {new : Table}

/-- An entry rebuilt for `p` is the new one, the others stay as they were. -/
theorem update_rebuilt {β : Type*} {f f' g : Bytes → β} {done : Bytes → Prop}
    (h : ∀ q, (done q → g q = f' q) ∧ (¬ done q → g q = f q)) (p q : Bytes) :
    (p = q ∨ done q → Function.update g p (f' p) q = f' q) ∧
      (¬ (p = q ∨ done q) → Function.update g p (f' p) q = f q) := by
  by_cases hq : p = q
  · subst hq
    simp
  · rw [Function.update_of_ne (Ne.symm hq)]
    simpa [hq] using h q

/-- Recomposing a prover rebuilds it. -/
theorem Rebuilt.prover {old : Table} {done : Bytes → Prop} (h : Rebuilt old new done self)
    (hrows : RowsReflect new rows) (p : Bytes) :
    Rebuilt old new (fun q => p = q ∨ done q)
      (recomposeProver rows (filtersOf (old.allocationsOf p)) self p) := by
  unfold recomposeProver
  rw [hrows.allocationsOf, hrows.own]
  refine ⟨update_rebuilt h.provers p, ?_, update_rebuilt h.active p⟩
  refine ((h.filters.removeAll _ p).addAll _ p).congr fun filter q => ?_
  simp only [List.mem_filter, mem_toList, has_filtersOf, decide_eq_true_eq]
  by_cases hq : p = q
  · subst hq
    -- what it had before is taken where it is gone and filed where it is new
    generalize (∃ a ∈ new.allocationsOf p, a.confirmationFilter = filter) = inNew
    generalize (∃ a ∈ old.allocationsOf p, a.confirmationFilter = filter) = inOld
    by_cases hdone : done p <;> by_cases hnew : inNew <;> by_cases hold : inOld <;>
      simp [hdone, hnew, hold]
  · simp [hq]

/-- The loop over the provers. -/
theorem Rebuilt.run {old new : Table} {rows : RegistryRows} (hrows : RowsReflect new rows)
    {ps : List Bytes} {done : Bytes → Prop} {self : InMemoryProverRegistry}
    (h : Rebuilt old new done self) :
    Rebuilt old new (fun q => q ∈ ps ∨ done q) (ps.foldl (fun self p =>
      recomposeProver rows (filtersOf (old.allocationsOf p)) self p) self) := by
  induction ps generalizing done self with
  | nil => simpa using h
  | cons p ps ih =>
    have hrest := ih (h.prover hrows p)
    have hiff : (fun q => q ∈ ps ∨ p = q ∨ done q) = fun q => q ∈ p :: ps ∨ done q := by
      funext q
      rw [List.mem_cons, or_assoc, eq_comm (a := q)]
      exact propext or_left_comm
    rw [hiff] at hrest
    exact hrest

/-- What rebuilding provers leaves alone. -/
theorem recomposeProver_frame (rows : RegistryRows) (before : Bytes → OrdSet Bytes)
    (ps : List Bytes) (self : InMemoryProverRegistry) :
    let out := ps.foldl (fun self p => recomposeProver rows (before p) self p) self
    out.leafRootCache = self.leafRootCache ∧ out.fromRows = self.fromRows ∧
      out.diverged = self.diverged ∧ ∀ kind, out.countOf kind = self.countOf kind := by
  induction ps generalizing self with
  | nil => exact ⟨rfl, rfl, rfl, fun _ => rfl⟩
  | cons p ps ih =>
    obtain ⟨hleaf, hrows, hdiverged, hcounts⟩ := ih (recomposeProver rows (before p) self p)
    refine ⟨hleaf, hrows, hdiverged, fun kind => (hcounts kind).trans ?_⟩
    cases kind <;> rfl

/-! ## What the changes feed -/

/-- A row feeds a prover: it is the prover's own row, or an allocation of it. -/
def Feeds (addr : Bytes32) (row : DecodedRow) (prover : Bytes) : Prop :=
  (∃ info retiredKey, row.first = .prover info retiredKey ∧ addr.bytes = prover) ∨
    row.owner = some prover

/-- `fed` names what a row at `addr` feeds. -/
def Fed (fed : OrdSet Bytes × List LeafRootKey) (addr : Bytes32) (row : DecodedRow) : Prop :=
  (∀ p, Feeds addr row p → OrdSet.Has fed.1 p) ∧ ∀ key, (row.recordFor key).isSome → key ∈ fed.2

/-- More was fed. -/
def FedLe (fed fed' : OrdSet Bytes × List LeafRootKey) : Prop :=
  (∀ p, OrdSet.Has fed.1 p → OrdSet.Has fed'.1 p) ∧ ∀ key, key ∈ fed.2 → key ∈ fed'.2

theorem FedLe.trans {a b c : OrdSet Bytes × List LeafRootKey} (h : FedLe a b) (h' : FedLe b c) :
    FedLe a c :=
  ⟨fun p hp => h'.1 p (h.1 p hp), fun key hkey => h'.2 key (h.2 key hkey)⟩

variable {fed : OrdSet Bytes × List LeafRootKey}

theorem Fed.mono {fed' : OrdSet Bytes × List LeafRootKey} {addr : Bytes32} {row : DecodedRow}
    (h : Fed fed addr row) (hle : FedLe fed fed') : Fed fed' addr row :=
  ⟨fun p hp => hle.1 p (h.1 p hp), fun key hkey => hle.2 key (h.2 key hkey)⟩

/-- A row that feeds is fed, with all that was. -/
theorem feeds_spec (addr : Bytes32) (fed : OrdSet Bytes × List LeafRootKey) (row : DecodedRow) :
    FedLe fed (feeds addr fed row) ∧ Fed (feeds addr fed row) addr row := by
  have hprovers : ∀ p, Has (feeds addr fed row).1 p ↔ Feeds addr row p ∨ Has fed.1 p := by
    intro p
    unfold feeds Feeds DecodedRow.owner
    rcases row.allocation with _ | _ | ⟨owner, _⟩ <;> cases row.first <;>
      simp [has_insert, or_comm, or_assoc]
  have hkeys : (feeds addr fed row).2 = fed.2 ++ row.records.map Prod.fst := by
    unfold feeds DecodedRow.records
    cases row.first <;> simp
  refine ⟨⟨fun p hp => (hprovers p).mpr (.inr hp), fun key hkey => ?_⟩,
    fun p hp => (hprovers p).mpr (.inl hp), fun key hkey => ?_⟩
  · rw [hkeys]
    exact List.mem_append_left _ hkey
  · rw [hkeys]
    exact List.mem_append_right _ (DecodedRow.recordFor_isSome.mp hkey)

/-- The loop over the rows of an address. -/
theorem feeds_foldl (addr : Bytes32) (rows : List DecodedRow)
    (fed : OrdSet Bytes × List LeafRootKey) :
    FedLe fed (rows.foldl (feeds addr) fed) ∧
      ∀ row ∈ rows, Fed (rows.foldl (feeds addr) fed) addr row := by
  induction rows generalizing fed with
  | nil => exact ⟨⟨fun _ h => h, fun _ h => h⟩, fun _ h => by simp at h⟩
  | cons row rows ih =>
    obtain ⟨hle, hfed⟩ := feeds_spec addr fed row
    obtain ⟨hle', hrest⟩ := ih (feeds addr fed row)
    exact ⟨hle.trans hle', List.forall_mem_cons.mpr ⟨hfed.mono hle', hrest⟩⟩

/-- The changes name everything their rows feed, before and after. -/
theorem feedsChange_foldl (hrows : RowsReflect t rows) (changes : List Change)
    (fed : OrdSet Bytes × List LeafRootKey) :
    FedLe fed (changes.foldl (feedsChange rows) fed) ∧ ∀ c ∈ changes,
      (∀ row, t.effective.get? c.address = some row →
        Fed (changes.foldl (feedsChange rows) fed) c.address row) ∧
      ∀ row, seen (t.newAdds c) (t.newRemoves c) = some row →
        Fed (changes.foldl (feedsChange rows) fed) c.address row := by
  induction changes generalizing fed with
  | nil => exact ⟨⟨fun _ h => h, fun _ h => h⟩, fun _ h => by simp at h⟩
  | cons c changes ih =>
    have hchange : feedsChange rows fed c = ((t.effective.get? c.address).toList ++
        (seen (t.newAdds c) (t.newRemoves c)).toList).foldl (feeds c.address) fed := by
      unfold feedsChange
      rw [hrows.toSizesReflect.effective, hrows.adds, hrows.removes]
      rfl
    obtain ⟨hle, hfed⟩ := feeds_foldl c.address ((t.effective.get? c.address).toList ++
        (seen (t.newAdds c) (t.newRemoves c)).toList) fed
    rw [← hchange] at hle hfed
    obtain ⟨hle', hrest⟩ := ih (feedsChange rows fed c)
    refine ⟨hle.trans hle', List.forall_mem_cons.mpr ⟨⟨fun row hrow => ?_, fun row hrow => ?_⟩, hrest⟩⟩
    all_goals exact (hfed row (by simp [hrow])).mono hle'

/-! ## What is not rebuilt -/

/-- Two tables that show the same rows, except where neither row feeds what `fed` leaves
out. -/
structure Apart (fed : OrdSet Bytes × List LeafRootKey) (old new : Table) : Prop where
  rows : ∀ a, new.effective.get? a = old.effective.get? a ∨
    (∀ row, old.effective.get? a = some row → Fed fed a row) ∧
      ∀ row, new.effective.get? a = some row → Fed fed a row

section Unfed

variable {old : Table} (h : Apart fed old new)
include h

/-- What no fed row shows, both tables show alike. -/
theorem Apart.filterMap {β : Type*}
    {f : DecodedRow → Option β} (hnone : ∀ a row, Fed fed a row → f row = none) :
    (new.effective.filterMap fun _ => f) = old.effective.filterMap fun _ => f := by
  have hnone' : ∀ a (o : Option DecodedRow), (∀ row, o = some row → Fed fed a row) →
      o.bind f = none :=
    fun a o ho => Option.bind_eq_none_iff.mpr fun row hrow => hnone a row (ho row hrow)
  apply ext_get?
  intro a
  rw [get?_filterMap, get?_filterMap]
  rcases h.rows a with hsame | ⟨hold, hnew⟩
  · rw [hsame]
  · rw [hnone' a _ hold, hnone' a _ hnew]

/-- A prover that is not fed keeps its allocations. -/
theorem Apart.allocationsOf {p : Bytes} (hp : ¬ Has fed.1 p) :
    new.allocationsOf p = old.allocationsOf p := by
  have hnone : ∀ a row, Fed fed a row → row.allocationFor p = none := by
    intro a row hfed
    by_contra hsome
    exact hp (hfed.1 p (.inr (DecodedRow.allocationFor_isSome.mp (Option.isSome_iff_ne_none.mpr hsome))))
  rw [Table.allocationsOf, Table.allocationsOf, h.filterMap hnone]

/-- A key that is not fed keeps its leaf root. -/
theorem Apart.leafRecord {key : LeafRootKey} (hkey : key ∉ fed.2) :
    new.leafRecord key = old.leafRecord key := by
  have hnone : ∀ a row, Fed fed a row → row.recordFor key = none := by
    intro a row hfed
    by_contra hsome
    exact hkey (hfed.2 key (Option.isSome_iff_ne_none.mpr hsome))
  rw [Table.leafRecord, Table.leafRecord, h.filterMap hnone]

end Unfed

/-- A row that is no prover's makes the same entry as none. -/
theorem recomposedEntry_of_not_prover {own : Option DecodedRow}
    (h : ∀ row, own = some row → ∀ info retiredKey, row.first ≠ .prover info retiredKey) (p : Bytes)
    (allocations : List ProverAllocationInfo) :
    recomposedEntry own p allocations = recomposedEntry none p allocations := by
  unfold recomposedEntry
  cases own with
  | none => rfl
  | some row =>
    have hrow := h row rfl
    rw [Option.map_some]
    cases hfirst : row.first with
    | prover info retiredKey => exact absurd hfirst (hrow info retiredKey)
    | _ => rfl

/-- A prover that is not fed keeps its entry. -/
theorem Apart.entry {old : Table} (h : Apart fed old new) {p : Bytes} (hp : ¬ Has fed.1 p)
    (allocations : List ProverAllocationInfo) :
    recomposedEntry (new.own p) p allocations = recomposedEntry (old.own p) p allocations := by
  unfold own
  cases haddress : addressOf p with
  | none => rfl
  | some a =>
    have hbytes := addressOf_eq_some.mp haddress
    rw [Option.bind_some, Option.bind_some]
    rcases h.rows a with hsame | ⟨hold, hnew⟩
    · rw [hsame]
    have hnot : ∀ row, Fed fed a row → ∀ info retiredKey, row.first ≠ .prover info retiredKey :=
      fun row hfed info retiredKey hfirst => hp (hfed.1 p (.inl ⟨info, retiredKey, hfirst, hbytes⟩))
    rw [recomposedEntry_of_not_prover (fun row hrow => hnot row (hold row hrow)),
      recomposedEntry_of_not_prover (fun row hrow => hnot row (hnew row hrow))]

/-! ## The table the changes lead to -/

/-- Changes leave the addresses they do not name. -/
theorem foldl_change_other {a : Bytes32} (h : ∀ c ∈ changes, c.address ≠ a) (t : Table) :
    (changes.foldl change t).adds.get? a = t.adds.get? a ∧
      (changes.foldl change t).removes.get? a = t.removes.get? a := by
  induction changes generalizing t with
  | nil => exact ⟨rfl, rfl⟩
  | cons c changes ih =>
    obtain ⟨hc, hrest⟩ := List.forall_mem_cons.mp h
    obtain ⟨hadds, hremoves⟩ := ih hrest (t.change c)
    rw [List.foldl_cons, hadds, hremoves, change_adds_get?, change_removes_get?,
      if_neg hc, if_neg hc]
    exact ⟨rfl, rfl⟩

/-- Each change holds at its address after all of them. -/
theorem foldl_change_at (hdistinct : (changes.map Change.address).Nodup)
    (hc : c ∈ changes) (t : Table) :
    (changes.foldl change t).adds.get? c.address = t.newAdds c ∧
      (changes.foldl change t).removes.get? c.address = t.newRemoves c := by
  induction changes generalizing t with
  | nil => cases hc
  | cons c' changes ih =>
    obtain ⟨hnew, hdistinct⟩ := List.nodup_cons.mp hdistinct
    have hne : ∀ d ∈ changes, c'.address ≠ d.address := fun d hd heq =>
      hnew (heq ▸ List.mem_map_of_mem hd)
    rw [List.foldl_cons]
    rcases List.mem_cons.mp hc with rfl | hc
    · obtain ⟨hadds, hremoves⟩ := foldl_change_other (fun d hd => (hne d hd).symm) (t.change c)
      rw [hadds, hremoves, change_adds_get?, change_removes_get?, if_pos rfl, if_pos rfl]
      exact ⟨rfl, rfl⟩
    · obtain ⟨hadds, hremoves⟩ := ih hdistinct hc (t.change c')
      rw [hadds, hremoves]
      simp [newAdds, newRemoves, hne c hc]

/-- What the changes do not feed stays as it was. -/
theorem apart_changes (hrows : RowsReflect t rows) (hdistinct : (changes.map Change.address).Nodup) :
    Apart (changes.foldl (feedsChange rows) (.empty, [])) t (changes.foldl change t) := by
  obtain ⟨-, hfed⟩ := feedsChange_foldl hrows changes (.empty, [])
  constructor
  intro a
  by_cases ha : ∃ c ∈ changes, c.address = a
  · obtain ⟨c, hc, rfl⟩ := ha
    obtain ⟨hold, hnew⟩ := hfed c hc
    refine .inr ⟨hold, fun row hrow => hnew row ?_⟩
    obtain ⟨hadds, hremoves⟩ := foldl_change_at hdistinct hc t
    rwa [get?_effective, hadds, hremoves] at hrow
  · have hother : ∀ c ∈ changes, c.address ≠ a := fun c hc heq => ha ⟨c, hc, heq⟩
    obtain ⟨hadds, hremoves⟩ := foldl_change_other hother t
    refine .inl ?_
    rw [get?_effective, get?_effective, hadds, hremoves]

/-- Rows and counters of the new table, and the caches rebuilt where its rows differ. -/
theorem Reflects.rebuilt {provers : OrdSet Bytes} {leafKeys : List LeafRootKey}
    (h : Reflects t self) (hchanged : Changed self new (start, rows))
    (hapart : Apart (provers, leafKeys) t new) :
    Reflects new { provers.toList.foldl (fun self prover =>
        recomposeProver rows (filtersOf (t.allocationsOf prover)) self prover)
        (leafKeys.foldl (recomposeLeafRoot rows) start) with
      largestRow := rows.largest.1
      largestValue := rows.largest.2
      rows := some rows
      resourceUsage := new.usage } := by
  obtain ⟨hnew, hcounts, hcaches⟩ := hchanged
  rw [recomposeLeafRoots hnew]
  obtain ⟨hleaf, hfromRows, hdiverged, hcounted⟩ := recomposeProver_frame rows
    (fun prover => filtersOf (t.allocationsOf prover)) provers.toList { start with
      leafRootCache := fun key => if key ∈ leafKeys then new.leafRecord key else start.leafRootCache key }
  -- before the provers are rebuilt, each entry is that of the old table
  have hrebuilt := @Rebuilt.run t new rows hnew provers.toList (fun _ => False) { start with
      leafRootCache := fun key => if key ∈ leafKeys then new.leafRecord key else start.leafRootCache key }
    { provers := fun p => ⟨False.elim, fun _ => by rw [← h.provers, ← hcaches.proverCache]⟩
      filters := by
        rw [hcaches.filterCache]
        exact h.filters.congr fun _ _ => by simp
      active := fun p => ⟨False.elim, fun _ => by rw [← h.active, ← hcaches.addressToFilters]⟩ }
  generalize provers.toList.foldl (fun self prover =>
    recomposeProver rows (filtersOf (t.allocationsOf prover)) self prover) _ = out at *
  have hfed : ∀ p, ¬ (p ∈ provers.toList ∨ False) → ¬ Has provers p := by
    intro p hp hhas
    exact hp (.inl (mem_toList.mpr hhas))
  have hkept : ∀ p, ¬ (p ∈ provers.toList ∨ False) → new.allocationsOf p = t.allocationsOf p :=
    fun p hp => hapart.allocationsOf (hfed p hp)
  exact {
    rows := ⟨rows, rfl, hnew, rfl, rfl⟩
    usage := rfl
    fromRows := hfromRows.trans (hcaches.fromRows.trans h.fromRows)
    diverged := hdiverged.trans (hcaches.diverged.trans h.diverged)
    provers := fun p => by
      by_cases hp : p ∈ provers.toList ∨ False
      · exact (hrebuilt.provers p).1 hp
      · rw [hkept p hp, hapart.entry (hfed p hp)]
        exact (hrebuilt.provers p).2 hp
    leafRoots := fun key => by
      refine (congrFun hleaf key).trans ?_
      dsimp only
      split
      · rfl
      · rename_i hkey
        rw [hapart.leafRecord hkey, hcaches.leafRootCache, h.leafRoots]
    filters := hrebuilt.filters.congr fun filter p => by
      by_cases hp : p ∈ provers.toList ∨ False
      · simp only [hp, true_and, not_true, false_and, or_false]
      · simp only [hp, false_and, not_false_iff, true_and, false_or, hkept p hp]
    active := fun p => by
      by_cases hp : p ∈ provers.toList ∨ False
      · exact (hrebuilt.active p).1 hp
      · rw [hkept p hp]
        exact (hrebuilt.active p).2 hp
    counts := fun kind => (hcounted kind).trans (by rw [← hcounts]; cases kind <;> rfl) }

/-- **A registry that reflects a table, updated, reflects the table the changes lead
to.** -/
theorem Reflects.applied (h : Reflects t self) (hself : self.rows = some rows)
    (hdistinct : (changes.map Change.address).Nodup) :
    Reflects (changes.foldl change t)
      (self.applyChanges rows changes (changes.foldl change t).usage) := by
  obtain ⟨_, hrows', hreflect, -, -⟩ := h.rows
  cases Option.some.inj (hself.symm.trans hrows')
  have hstart : Changed self t (self, rows) := ⟨hreflect, h.counts, ⟨rfl, rfl, rfl, rfl, rfl, rfl⟩⟩
  have hrebuilt := h.rebuilt (hstart.run changes) (apart_changes hreflect hdistinct)
  simp only [← hreflect.allocationsOf] at hrebuilt
  exact hrebuilt

end Registry

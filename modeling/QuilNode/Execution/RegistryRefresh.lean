import QuilNode.Execution.RegistryCompose

/-!
# What a refresh builds

Reading builds the table, the sizes and the largest sizes (`Read`); the passes
do the rest.  A refresh of rows goes through exactly where its rows are
`Admitted`: each fits a page and a record, and together they cost no more than
the limits allow.  Which registry it gives then does not depend on the limits.
-/

namespace Registry

open Results RegistryBudget OrdMap Table Reading

/-- A row of `adds` as it is kept. -/
def addedRow (env : RegistryEnv) (addr : Bytes32) (data : Bytes) : AddedRow where
  valueLen := data.length
  decoded := decodeRow env addr data

/-- A row of `adds` read, its charge apart. -/
def nextAdded (env : RegistryEnv) (reading : Reading) (row : Bytes32 × Bytes) : Reading :=
  { reading.row row.2.length with
    rows := (reading.row row.2.length).rows.add env row.1 row.2 }

/-- A row of `removes` read, its charge apart. -/
def nextRemoved (reading : Reading) (row : Bytes32 × Bytes) : Reading :=
  { reading.row row.2.length with
    rows := (reading.row row.2.length).rows.remove row.1 row.2.length }

variable {budget : RegistryBudget}

theorem visit_ok {σ : Type} (hsound : budget.Sound) {value : Nat} {s : σ}
    {out : RegistryBudget × σ} :
    (budget.input vkLen value true >>= fun budget => (pure (budget, s) : Result _)) = .ok out ↔
      vkLen + value ≤ budget.limits.maxRecordBytes ∧ (budget.spend (rowCost vkLen value)).Sound ∧
        out = (budget.spend (rowCost vkLen value), s) := by
  rw [bind_ok]
  constructor
  · rintro ⟨budget', hinput, hout⟩
    obtain ⟨hfits, hend, rfl⟩ := (input_ok hsound).mp hinput
    exact ⟨hfits, hend, (pure_ok.mp hout).symm⟩
  · rintro ⟨hfits, hend, rfl⟩
    exact ⟨_, (input_ok hsound).mpr ⟨hfits, hend, rfl⟩, rfl⟩

/-- Every row is small enough for a record. -/
def FitRecord (limits : RegistryLimits) (rows : List (Bytes32 × Bytes)) : Prop :=
  ∀ row ∈ rows, vkLen + row.2.length ≤ limits.maxRecordBytes

/-- What reading rows costs. -/
def readCost (rows : List (Bytes32 × Bytes)) : RegistryUsage :=
  (rows.map fun row => rowCost vkLen row.2.length).sum

/-- A phase is read where its rows fit pages and records and their cost is admitted. -/
theorem visitPhase_ok {σ : Type} {rows : OrdMap Bytes32 Bytes} (hsound : budget.Sound)
    {next : σ → Bytes32 × Bytes → σ}
    {visit : RegistryBudget × σ → Bytes32 → Bytes → Result (RegistryBudget × σ)}
    (hvisit : ∀ state addr data, visit state addr data =
      (state.1.input vkLen data.length true >>= fun budget =>
        pure (budget, next state.2 (addr, data))))
    {page : VertexPageLimits} (hpage : page.maxEntries ≠ 0) {s : σ} {out : RegistryBudget × σ} :
    visitRegistryVertices rows page visit (budget, s) = .ok out ↔
      (64 ≤ page.maxBytes ∧ FitPage page rows.entries) ∧ FitRecord budget.limits rows.entries ∧
        (budget.spend (readCost rows.entries)).Sound ∧
        out = (budget.spend (readCost rows.entries), rows.entries.foldl next s) := by
  have hloop := @foldlM_ok σ (Bytes32 × Bytes) (fun state row => visit state row.1 row.2) next
    (fun limits row => vkLen + row.2.length ≤ limits.maxRecordBytes)
    (fun row => rowCost vkLen row.2.length)
    (by
      intro budget s row out hsound
      rw [hvisit]
      exact visit_ok hsound)
    rows.entries budget hsound s out
  rw [visitRegistryVertices_ok hpage, hloop, and_assoc]
  rfl

/-- How many rows have a size of `n`, as `size` measures values. -/
def sizedIn (size : Nat → Nat) (rows : List (Bytes32 × Bytes)) (n : Nat) : Nat :=
  (rows.map fun row => if size row.2.length = n then 1 else 0).sum

theorem sizedIn_concat (size : Nat → Nat) (rows : List (Bytes32 × Bytes)) (row : Bytes32 × Bytes)
    (n : Nat) : sizedIn size (rows ++ [row]) n =
      sizedIn size rows n + if size row.2.length = n then 1 else 0 := by
  simp [sizedIn]

/-- What a refresh holds after the rows of two lists. -/
structure Read (env : RegistryEnv) (adds removes : List (Bytes32 × Bytes)) (r : Reading) :
    Prop where
  added : ∀ address, r.rows.adds.get? address =
    (OrdMap.lookup address adds).map (addedRow env address)
  removed : ∀ address, r.rows.removes.get? address = (OrdMap.lookup address removes).map List.length
  rowSizes : r.rows.rowSizes.Holds fun n =>
    sizedIn (vkLen + ·) adds n + sizedIn (vkLen + ·) removes n
  valueSizes : r.rows.valueSizes.Holds fun n => sizedIn id adds n + sizedIn id removes n
  largestRow : Bag.Tops r.largestRow r.rows.rowSizes
  largestValue : Bag.Tops r.largestValue r.rows.valueSizes
  owned : r.rows.owned = fun _ => none
  leafSources : r.rows.leafSources = fun _ => none

theorem read_new (env : RegistryEnv) : Read env [] [] new where
  added _ := rfl
  removed _ := rfl
  rowSizes := Bag.holds_empty
  valueSizes := Bag.holds_empty
  largestRow := Bag.tops_empty
  largestValue := Bag.tops_empty
  owned := rfl
  leafSources := rfl

variable {env : RegistryEnv}

section Next

variable {adds removes : List (Bytes32 × Bytes)} {r : Reading} (h : Read env adds removes r)
include h

/-- One added row keeps the reading. -/
theorem Read.nextAdded {row : Bytes32 × Bytes}
    (hfresh : lookup row.1 adds = none) :
    Read env (adds ++ [row]) removes (nextAdded env r row) where
  added addr := by
    change (r.rows.adds.insert row.1 (addedRow env row.1 row.2)).get? addr = _
    rw [get?_insert, lookup_concat hfresh]
    by_cases haddress : row.1 = addr
    · subst haddress
      simp
    · simp [haddress, h.added]
  removed := h.removed
  rowSizes := h.rowSizes.note _ fun n => by
    rw [sizedIn_concat]
    omega
  valueSizes := h.valueSizes.note _ fun n => by
    rw [sizedIn_concat]
    simp only [id]
    omega
  largestRow := h.largestRow.note _
  largestValue := h.largestValue.note _
  owned := h.owned
  leafSources := h.leafSources

/-- One removed row keeps the reading. -/
theorem Read.nextRemoved {row : Bytes32 × Bytes}
    (hfresh : lookup row.1 removes = none) :
    Read env adds (removes ++ [row]) (nextRemoved r row) where
  added := h.added
  removed addr := by
    change (r.rows.removes.insert row.1 row.2.length).get? addr = _
    rw [get?_insert, lookup_concat hfresh]
    by_cases haddress : row.1 = addr
    · subst haddress
      simp
    · simp [haddress, h.removed]
  rowSizes := h.rowSizes.note _ fun n => by
    rw [sizedIn_concat]
    omega
  valueSizes := h.valueSizes.note _ fun n => by
    rw [sizedIn_concat]
    simp only [id]
    omega
  largestRow := h.largestRow.note _
  largestValue := h.largestValue.note _
  owned := h.owned
  leafSources := h.leafSources

end Next

/-- What both phases leave. -/
theorem read_snapshot (env : RegistryEnv) (snap : Snapshot) :
    Read env snap.adds.entries snap.removes.entries
      (snap.removes.entries.foldl nextRemoved
        (snap.adds.entries.foldl (nextAdded env) new)) := by
  have hadds : Read env snap.adds.entries []
      (snap.adds.entries.foldl (nextAdded env) new) := by
    refine @List.foldl_front _ _ _ (fun l r => Read env l [] r) _ _ (read_new env)
      fun front row back r hsplit hfront => ?_
    have hsorted := snap.adds.sorted
    rw [hsplit] at hsorted
    exact hfront.nextAdded (lookup_front hsorted)
  refine List.foldl_front hadds fun front row back r hsplit hfront => ?_
  have hsorted := snap.removes.sorted
  rw [hsplit] at hsorted
  exact hfront.nextRemoved (lookup_front hsorted)

namespace Table

variable (env : RegistryEnv) (snap : Snapshot)

theorem get?_adds_ofSnapshot (addr : Bytes32) : (ofSnapshot env snap).adds.get? addr =
      (snap.adds.get? addr).map (addedRow env addr) := by
  rw [ofSnapshot, get?_filterMap]
  cases snap.adds.get? addr <;> rfl

theorem get?_removes_ofSnapshot (addr : Bytes32) : (ofSnapshot env snap).removes.get? addr =
      (snap.removes.get? addr).map List.length := by
  rw [ofSnapshot, get?_filterMap]
  cases snap.removes.get? addr <;> rfl

theorem sized_ofSnapshot (size : Nat → Nat) (n : Nat) : (ofSnapshot env snap).sized size n =
      sizedIn size snap.adds.entries n + sizedIn size snap.removes.entries n := by
  rw [sized, ofSnapshot, total_filterMap, total_filterMap]
  rfl

/-- What a snapshot costs: reading its rows, and both passes over those it shows. -/
theorem usage_ofSnapshot : (ofSnapshot env snap).usage = cacheCharge 0 [4096] +
      (readCost snap.adds.entries + readCost snap.removes.entries +
        ((ofSnapshot env snap).effective.entries.map fun e =>
          e.2.firstCost + e.2.secondCost).sum) := by
  have hadds : (ofSnapshot env snap).adds.total (fun _ row => rowCost vkLen row.valueLen) =
      readCost snap.adds.entries := by
    rw [ofSnapshot, total_filterMap]
    rfl
  have hremoves : (ofSnapshot env snap).removes.total (fun _ len => rowCost vkLen len) =
      readCost snap.removes.entries := by
    rw [ofSnapshot, total_filterMap]
    rfl
  rw [usage, hadds, hremoves]
  rfl

/-- A prover row of a snapshot's table names the address it is stored at. -/
theorem addressed_ofSnapshot :
    ∀ e ∈ (ofSnapshot env snap).effective.entries, e.2.Addressed e.1 := by
  rintro ⟨addr, row⟩ he
  have hget := mem_entries_iff.mp he
  rw [get?_effective, get?_adds_ofSnapshot, seen] at hget
  split at hget
  · cases hget
  · cases hdata : snap.adds.get? addr with
    | none =>
      rw [hdata] at hget
      cases hget
    | some data =>
      rw [hdata] at hget
      cases Option.some.inj hget
      exact addressed_decodeRow env addr data

end Table

/-- The rows fit pages and records. -/
structure Readable (limits : RegistryLimits) (snapshot : Snapshot) : Prop where
  page : 64 ≤ limits.page.maxBytes
  addsPage : FitPage limits.page snapshot.adds.entries
  removesPage : FitPage limits.page snapshot.removes.entries
  addsRecord : FitRecord limits snapshot.adds.entries
  removesRecord : FitRecord limits snapshot.removes.entries

/-- The rows are readable and cost no more than the limits allow. -/
structure Admitted (env : RegistryEnv) (limits : RegistryLimits) (snapshot : Snapshot) : Prop
    extends Readable limits snapshot where
  usage : admits limits (Table.ofSnapshot env snapshot).usage = true

/-- What the passes leave reflects the table they were given. -/
theorem SecondPassed.reflects {t : Table} {c : Composing}
    (h : SecondPassed t.effective.entries t.effective.entries c) {rows : RegistryRows}
    (hrows : RowsReflect t { rows with owned := c.owned, leafSources := c.leafSources }) :
    Reflects t { c.registry with
      rows := some { rows with owned := c.owned, leafSources := c.leafSources }
      resourceUsage := t.usage
      fromRows := true
      largestRow := rows.largest.1
      largestValue := rows.largest.2 } := by
  have hallocations : ∀ owner, allocationsIn t.effective.entries owner = t.allocationsOf owner := by
    intro owner
    rw [allocationsOf, values_filterMap]
    rfl
  exact {
    rows := ⟨_, rfl, hrows, rfl, rfl⟩
    usage := rfl
    fromRows := rfl
    diverged := h.diverged
    provers := fun owner => (hallocations owner) ▸ h.provers owner
    leafRoots := fun key => by
      rw [leafRecord, values_filterMap]
      exact h.leafRoots key
    filters := h.filters.congr fun filter owner => by rw [hallocations]
    active := fun owner => (hallocations owner) ▸ h.active owner
    counts := fun kind => by
      cases kind with
      | allocation => exact h.allocationCount
      | reward => exact h.counts .reward (by simp)
      | prover => exact h.counts .prover (by simp)
      | leafRoot => exact h.counts .leafRoot (by simp)
      | unknown => exact h.counts .unknown (by simp) }

variable {snap : Snapshot}

section Rows

variable {r : Reading} (h : Read env snap.adds.entries snap.removes.entries r)

include h

theorem Read.adds_eq : r.rows.adds = (ofSnapshot env snap).adds :=
  ext_get? fun a => by rw [h.added, get?_adds_ofSnapshot]; rfl

theorem Read.removes_eq : r.rows.removes = (ofSnapshot env snap).removes :=
  ext_get? fun a => by rw [h.removed, get?_removes_ofSnapshot]; rfl

theorem Read.effectiveRows : r.rows.effectiveRows = (ofSnapshot env snap).effective := by
  rw [RegistryRows.effectiveRows, effective, h.adds_eq, h.removes_eq]

end Rows

/-- The registry that the rows of a snapshot give. -/
def composedRegistry (env : RegistryEnv) (snap : Snapshot) : InMemoryProverRegistry :=
  let reading := snap.removes.entries.foldl nextRemoved
    (snap.adds.entries.foldl (nextAdded env) Reading.new)
  let rows := reading.rows
  let c := rows.effectiveRows.entries.foldl nextSecond (rows.effectiveRows.entries.foldl nextFirst
    { registry := .new, retiredKeys := fun _ => none, owned := rows.owned,
      leafSources := rows.leafSources })
  { c.registry with
    rows := some { rows with owned := c.owned, leafSources := c.leafSources }
    resourceUsage := (Table.ofSnapshot env snap).usage
    fromRows := true
    largestRow := reading.largestRow
    largestValue := reading.largestValue }

/-- The composed registry reflects its snapshot. -/
theorem composedRegistry_reflects (env : RegistryEnv) (snap : Snapshot) :
    Reflects (ofSnapshot env snap) (composedRegistry env snap) := by
  have hread := read_snapshot env snap
  unfold composedRegistry
  generalize snap.removes.entries.foldl nextRemoved
    (snap.adds.entries.foldl (nextAdded env) new) = reading at hread
  have hsecond := @composed (ofSnapshot env snap).effective.entries
    (ofSnapshot env snap).effective.sorted (addressed_ofSnapshot env snap)
    { registry := .new, retiredKeys := fun _ => none, owned := reading.rows.owned,
      leafSources := reading.rows.leafSources }
    { provers := fun owner => by
        unfold ownIn
        cases addressOf owner <;> rfl
      retired := fun owner => by
        unfold ownIn
        cases addressOf owner <;> rfl
      leafRoots := fun _ => rfl
      leafSources := by
        rw [hread.leafSources]
        exact SetIndex.files_empty.congr fun _ _ => by simp [lookup]
      counts := fun kind _ => by cases kind <;> rfl
      unattached := ⟨rfl, rfl, rfl, rfl, hread.owned⟩ }
  have hlargest : reading.rows.largest = (reading.largestRow, reading.largestValue) := by
    rw [RegistryRows.largest, hread.largestRow.last, hread.largestValue.last]
  have hreflects := @SecondPassed.reflects _ _ hsecond reading.rows
    { adds := hread.adds_eq
      removes := hread.removes_eq
      rowSizes := fun n => by rw [sized_ofSnapshot]; exact hread.rowSizes n
      valueSizes := fun n => by rw [sized_ofSnapshot]; exact hread.valueSizes n
      owned := hsecond.owned
      leafSources := hsecond.leafSources }
  rw [hlargest] at hreflects
  dsimp only
  rw [hread.effectiveRows]
  exact hreflects

theorem hasAdds_read (adds : OrdMap Bytes32 Bytes) :
    (adds.entries.foldl (nextAdded env) new).rows.hasAdds = !adds.entries.isEmpty := by
  have hread := read_snapshot env ⟨adds, .empty, .ok none⟩
  unfold RegistryRows.hasAdds
  congr 1
  rw [Bool.eq_iff_iff, List.isEmpty_iff, List.isEmpty_iff, entries_eq_nil, entries_eq_nil]
  refine forall_congr' fun addr => ?_
  have hget := hread.added addr
  change (adds.entries.foldl (nextAdded env) new).rows.adds.get? addr =
    (adds.get? addr).map _ at hget
  rw [hget, Option.map_eq_none_iff]

theorem visitAdded_eq (env : RegistryEnv) (state : RegistryBudget × Reading) (addr : Bytes32)
    (data : Bytes) : visitAdded env state addr data =
      (state.1.input vkLen data.length true >>= fun budget =>
        pure (budget, nextAdded env state.2 (addr, data))) := rfl

theorem visitRemoved_eq (state : RegistryBudget × Reading) (addr : Bytes32) (data : Bytes) :
    visitRemoved state addr data = (state.1.input vkLen data.length true >>= fun budget =>
        pure (budget, nextRemoved state.2 (addr, data))) := rfl

theorem composeFromRows_ok {rows : RegistryRows} (hsound : budget.Sound)
    {out : RegistryBudget × InMemoryProverRegistry × RegistryRows} {cost : RegistryUsage}
    (hcost : (rows.effectiveRows.entries.map fun e => e.2.firstCost + e.2.secondCost).sum = cost)
    {c : Composing}
    (hc : rows.effectiveRows.entries.foldl nextSecond (rows.effectiveRows.entries.foldl nextFirst
      { registry := .new, retiredKeys := fun _ => none, owned := rows.owned,
        leafSources := rows.leafSources }) = c) :
    composeFromRows rows budget = .ok out ↔ (budget.spend cost).Sound ∧
      out = (budget.spend cost, c.registry,
        { rows with owned := c.owned, leafSources := c.leafSources }) := by
  subst hcost hc
  rw [composeFromRows, bind_ok]
  constructor
  · rintro ⟨mid, hmid, hout⟩
    obtain ⟨hend, rfl⟩ := (composeEntries_ok hsound).mp hmid
    exact ⟨hend, (pure_ok.mp hout).symm⟩
  · rintro ⟨hend, rfl⟩
    exact ⟨_, (composeEntries_ok hsound).mpr ⟨hend, rfl⟩, rfl⟩

/-- The budget of a refresh after all its charges. -/
theorem spend_usage (env : RegistryEnv) (limits : RegistryLimits) (snap : Snapshot) :
    (((spend ⟨limits, 0⟩ (cacheCharge 0 [4096])).spend
      (readCost snap.adds.entries)).spend (readCost snap.removes.entries)).spend
        ((ofSnapshot env snap).effective.entries.map fun e =>
          e.2.firstCost + e.2.secondCost).sum =
      ⟨limits, (ofSnapshot env snap).usage⟩ := by
  rw [usage_ofSnapshot, spend_spend, spend_spend, spend_spend]
  simp [spend, add_assoc]

/-- **A refresh of rows gives the registry of the rows,** where they are admitted, and
fails where they are not. -/
theorem refresh_ok {limits : RegistryLimits} (hadds : snap.adds.entries ≠ [])
    {registry : InMemoryProverRegistry} :
    refresh env limits snap = .ok registry ↔
      Admitted env limits snap ∧ registry = composedRegistry env snap := by
  have hentries : limits.page.maxEntries ≠ 0 := Nat.pos_iff_ne_zero.mp limits.page_maxEntries_pos
  have hsome : (snap.adds.entries.foldl (nextAdded env) new).rows.hasAdds = true := by
    rw [hasAdds_read]
    simpa using hadds
  have heffective := (read_snapshot env snap).effectiveRows
  have hspend := spend_usage env limits snap
  rw [← heffective] at hspend
  rw [refresh, bind_ok]
  constructor
  · rintro ⟨budget, hnew, h⟩
    obtain ⟨hsound, rfl⟩ := new_ok.mp hnew
    rw [bind_ok] at h
    obtain ⟨_, hread, h⟩ := h
    obtain ⟨⟨hpage, haddsPage⟩, haddsRecord, haddsSound, rfl⟩ :=
      (visitPhase_ok hsound (visitAdded_eq env) hentries).mp hread
    simp only [hsome, if_true, pure_bind] at h
    rw [bind_ok] at h
    obtain ⟨_, hread, h⟩ := h
    obtain ⟨⟨-, hremovesPage⟩, hremovesRecord, hremovesSound, rfl⟩ :=
      (visitPhase_ok haddsSound visitRemoved_eq hentries).mp hread
    rw [bind_ok] at h
    obtain ⟨_, hcompose, h⟩ := h
    obtain ⟨hend, rfl⟩ := (composeFromRows_ok hremovesSound rfl rfl).mp hcompose
    rw [hspend] at hend h
    exact ⟨⟨⟨hpage, haddsPage, hremovesPage, haddsRecord, hremovesRecord⟩, hend⟩,
      (pure_ok.mp h).symm⟩
  · rintro ⟨hadmitted, rfl⟩
    have hend : Sound ⟨limits, (ofSnapshot env snap).usage⟩ := hadmitted.usage
    rw [← hspend] at hend
    have hremovesSound := admits_of_add hend
    have haddsSound := admits_of_add hremovesSound
    have hsound := admits_of_add haddsSound
    refine ⟨_, new_ok.mpr ⟨hsound, rfl⟩, ?_⟩
    rw [bind_ok]
    refine ⟨_, (visitPhase_ok hsound (visitAdded_eq env) hentries).mpr
      ⟨⟨hadmitted.page, hadmitted.addsPage⟩, hadmitted.addsRecord, haddsSound, rfl⟩, ?_⟩
    simp only [hsome, if_true, pure_bind]
    rw [bind_ok]
    refine ⟨_, (visitPhase_ok haddsSound visitRemoved_eq hentries).mpr
      ⟨⟨hadmitted.page, hadmitted.removesPage⟩, hadmitted.removesRecord, hremovesSound, rfl⟩, ?_⟩
    rw [bind_ok]
    refine ⟨_, (composeFromRows_ok hremovesSound rfl rfl).mpr ⟨hend, rfl⟩, ?_⟩
    rw [hspend]
    rfl

theorem RegistryBudget.input_fits {budget' : RegistryBudget} {key value : Nat} {vertex : Bool}
    (h : budget.input key value vertex = .ok budget') :
    key + value ≤ budget.limits.maxRecordBytes ∧ budget'.limits = budget.limits := by
  unfold input at h
  dsimp only at h
  split at h
  · cases h
  rename_i hfits
  cases vertex <;>
  · simp only [Bool.false_eq_true, if_false, if_true] at h
    split at h
    · cases h
    · cases Except.ok.inj h
      exact ⟨Nat.le_of_not_lt hfits, rfl⟩

/-- A phase that was read, under any budget, has rows that fit. -/
theorem visitPhase_fits {σ : Type} {rows : OrdMap Bytes32 Bytes} {next : σ → Bytes32 × Bytes → σ}
    {visit : RegistryBudget × σ → Bytes32 → Bytes → Result (RegistryBudget × σ)}
    (hvisit : ∀ state addr data, visit state addr data =
      (state.1.input vkLen data.length true >>= fun budget =>
        pure (budget, next state.2 (addr, data))))
    {page : VertexPageLimits} (hpage : page.maxEntries ≠ 0) {s : σ} {out : RegistryBudget × σ}
    (h : visitRegistryVertices rows page visit (budget, s) = .ok out) :
    (64 ≤ page.maxBytes ∧ FitPage page rows.entries) ∧ FitRecord budget.limits rows.entries := by
  obtain ⟨hbytes, hfit, hloop⟩ := (visitRegistryVertices_ok hpage).mp h
  refine ⟨⟨hbytes, hfit⟩, ?_⟩
  have hall : ∀ (l : List (Bytes32 × Bytes)) (state : RegistryBudget × σ),
      l.foldlM (fun state row => visit state row.1 row.2) state = .ok out →
        FitRecord state.1.limits l := by
    intro l
    induction l with
    | nil => exact fun _ _ _ h => by simp at h
    | cons row l ih =>
      intro state hl
      rw [List.foldlM_cons, bind_ok] at hl
      obtain ⟨mid, hrow, hrest⟩ := hl
      rw [hvisit, bind_ok] at hrow
      obtain ⟨_, hinput, hmid⟩ := hrow
      obtain ⟨hfits, hlimits⟩ := input_fits hinput
      have hmid := pure_ok.mp hmid
      have htail := ih mid hrest
      rw [← hmid] at htail
      exact List.forall_mem_cons.mpr ⟨hfits, hlimits ▸ htail⟩
  exact hall rows.entries (budget, s) hloop

theorem legacyLeaves_limits {out : RegistryBudget × List (Bytes × Bytes)}
    (h : legacyLeaves env snap budget = .ok out) : out.1.limits = budget.limits := by
  rw [legacyLeaves, bind_ok] at h
  obtain ⟨blob, _, h⟩ := h
  cases blob with
  | none => rw [← pure_ok.mp h]
  | some =>
    rw [bind_ok] at h
    obtain ⟨_, hinput, h⟩ := h
    have hlimits := (input_fits hinput).2
    rw [← hlimits]
    split at h
    · cases h
    · rw [← pure_ok.mp h]
    · refine @foldlM_unchanged _ _ _ _ _ (fun state : RegistryBudget × List (Bytes × Bytes) =>
        state.1.limits) (fun state leaf state' hstep => ?_) _ _ _ h
      rw [bind_ok] at hstep
      obtain ⟨_, hleaf, hstate⟩ := hstep
      rw [← pure_ok.mp hstate]
      exact (input_fits hleaf).2

/-- A refresh that goes through has read rows that fit; without rows of `adds` its registry is not
built from rows. -/
theorem refresh_readable {limits : RegistryLimits} {registry : InMemoryProverRegistry}
    (h : refresh env limits snap = .ok registry) :
    Readable limits snap ∧ (snap.adds.entries = [] → registry.fromRows = false) := by
  by_cases hadds : snap.adds.entries = []
  · have hentries : limits.page.maxEntries ≠ 0 := Nat.pos_iff_ne_zero.mp limits.page_maxEntries_pos
    have hnone : (snap.adds.entries.foldl (nextAdded env) new).rows.hasAdds = false := by
      rw [hasAdds_read]
      simpa using hadds
    rw [refresh, bind_ok] at h
    obtain ⟨_, hnew, h⟩ := h
    obtain ⟨hsound, rfl⟩ := new_ok.mp hnew
    rw [bind_ok] at h
    obtain ⟨_, hread, h⟩ := h
    obtain ⟨⟨hpage, haddsPage⟩, haddsRecord, _, rfl⟩ :=
      (visitPhase_ok hsound (visitAdded_eq env) hentries).mp hread
    simp only [hnone, Bool.false_eq_true, if_false] at h
    rw [bind_ok] at h
    obtain ⟨⟨legacyBudget, _⟩, hlegacy, h⟩ := h
    have hlimits : legacyBudget.limits = limits := legacyLeaves_limits hlegacy
    rw [bind_ok] at h
    obtain ⟨_, hread, h⟩ := h
    obtain ⟨⟨-, hremovesPage⟩, hremovesRecord⟩ := visitPhase_fits visitRemoved_eq hentries hread
    rw [bind_ok] at h
    obtain ⟨_, _, h⟩ := h
    rw [hlimits] at hremovesRecord
    refine ⟨⟨hpage, haddsPage, hremovesPage, haddsRecord, hremovesRecord⟩, fun _ => ?_⟩
    rw [← pure_ok.mp h]
  · exact ⟨((refresh_ok hadds).mp h).1.toReadable, fun hnil => absurd hnil hadds⟩

end Registry

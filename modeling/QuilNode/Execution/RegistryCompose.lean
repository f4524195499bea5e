import QuilNode.Execution.RegistryPages

/-!
# What the passes of a refresh build

A registry built from rows is a function of the rows.  `Table` is their content, and `Reflects`
says of each cache, index and counter what it holds for a table.  The two passes are each the loop
of a total function, behind charges that are admitted all together or not at all.
-/

namespace Registry

open Results OrdMap RegistryBudget InMemoryProverRegistry SetIndex

/-! ## The content of the rows -/

namespace DecodedRow

/-- The owner of an allocation row. -/
def owner (row : DecodedRow) : Option Bytes :=
  match row.allocation with
  | some (some (owner, _)) => some owner
  | _ => none

/-- The allocation of a row that `owner` owns. -/
def allocationFor (owner : Bytes) (row : DecodedRow) : Option ProverAllocationInfo :=
  match row.allocation with
  | some (some (o, alloc)) => if o = owner then some alloc else none
  | _ => none

/-- A prover row names the address it is stored at, and no allocations. -/
def Addressed (addr : Bytes32) (row : DecodedRow) : Prop :=
  ∀ info retiredKey, row.first = .prover (some info) retiredKey →
    info.address = addr.bytes ∧ info.allocations = []

/-- What the first pass charges for a row. -/
def firstCost (row : DecodedRow) : RegistryUsage :=
  match row.first with
  | .prover (some info) _ => proverCharge info
  | .leafRoot records => (records.map fun r => leafRootCharge r.1 r.2).sum
  | _ => 0

/-- What the second pass charges for a row. -/
def secondCost (row : DecodedRow) : RegistryUsage :=
  match row.allocation with
  | some (some (owner, alloc)) => allocationCharge owner alloc
  | _ => 0

end DecodedRow

/-- What a decoded row names is at its own address. -/
theorem addressed_decodeRow (env : RegistryEnv) (addr : Bytes32) (data : Bytes) :
    (decodeRow env addr data).Addressed addr := by
  intro info retiredKey h
  unfold decodeRow at h
  split at h
  · cases h
  split at h
  · cases h
  split at h
  · split at h
    · rename_i decoded hdecoded
      cases h
      unfold decodeProver at hdecoded
      dsimp only at hdecoded
      split at hdecoded
      · cases hdecoded
      split at hdecoded
      · obtain ⟨_, _, rfl⟩ := Option.map_eq_some_iff.mp hdecoded
        exact ⟨rfl, rfl⟩
      · cases hdecoded
    · cases h
  all_goals cases h

/-- The five vertex counters. -/
inductive VertexKind where
  | reward
  | prover
  | allocation
  | leafRoot
  | unknown
  deriving DecidableEq

/-- The counter of a kind. -/
def InMemoryProverRegistry.countOf (self : InMemoryProverRegistry) : VertexKind → Nat
  | .reward => self.rewardVertexCount
  | .prover => self.proverVertexCount
  | .allocation => self.allocationVertexCount
  | .leafRoot => self.leafRootVertexCount
  | .unknown => self.unknownVertexCount

/-- How often a row is counted as a kind. -/
def DecodedRow.tally (kind : VertexKind) (row : DecodedRow) : Nat :=
  match kind, row.first with
  | .reward, .reward => 1
  | .prover, .prover _ _ => 1
  | .leafRoot, .leafRoot _ => 1
  | .unknown, .unknown => 1
  | .allocation, _ => if row.allocation.isSome then 1 else 0
  | _, _ => 0

open DecodedRow

/-- The rows of both phases, decoded: what a registry is a function of. -/
@[ext] structure Table where
  adds : OrdMap Bytes32 AddedRow
  removes : OrdMap Bytes32 Nat

/-- The row seen at an address that has these rows. -/
def seen (adds : Option AddedRow) (removes : Option Nat) : Option DecodedRow :=
  if removes.isSome then none else adds.map AddedRow.decoded

namespace Table

/-- The table of a snapshot. -/
def ofSnapshot (env : RegistryEnv) (snap : Snapshot) : Table where
  adds := snap.adds.filterMap fun addr data =>
    some { valueLen := data.length, decoded := decodeRow env addr data }
  removes := snap.removes.filterMap fun _ data => some data.length

/-- The rows that are not hidden. -/
def effective (t : Table) : OrdMap Bytes32 DecodedRow :=
  t.adds.filterMap fun addr row =>
    if (t.removes.get? addr).isSome then none else some row.decoded

/-- The effective row hides what the remove set holds. -/
theorem get?_effective (t : Table) (addr : Bytes32) :
    t.effective.get? addr = seen (t.adds.get? addr) (t.removes.get? addr) := by
  rw [effective, get?_filterMap, seen]
  cases t.adds.get? addr <;> cases t.removes.get? addr <;> rfl

/-- The allocations of an owner, in address order. -/
def allocationsOf (t : Table) (owner : Bytes) : List ProverAllocationInfo :=
  (t.effective.filterMap fun _ row => row.allocationFor owner).values

/-- The row stored at an owner's own address. -/
def own (t : Table) (owner : Bytes) : Option DecodedRow :=
  (addressOf owner).bind t.effective.get?

/-- The record of a leaf-root key: that of the highest row which names it. -/
def leafRecord (t : Table) (key : LeafRootKey) : Option LeafRootRecord :=
  (t.effective.filterMap fun _ row => row.recordFor key).values.getLast?

/-- The active filters of allocations, in the order they first appear. -/
def activeFilters (allocations : List ProverAllocationInfo) : Option (List Bytes) :=
  let active := allocations.foldl pushFilter []
  if active = [] then none else some active

/-- How many rows of both phases have a size of `n`, as `size` measures values. -/
def sized (t : Table) (size : Nat → Nat) (n : Nat) : Nat :=
  t.adds.total (fun _ row => if size row.valueLen = n then 1 else 0) +
    t.removes.total fun _ len => if size len = n then 1 else 0

/-- What all rows cost. -/
def usage (t : Table) : RegistryUsage :=
  cacheCharge 0 [4096] + (t.adds.total (fun _ row => rowCost vkLen row.valueLen) +
    t.removes.total (fun _ len => rowCost vkLen len) +
    t.effective.total fun _ row => row.firstCost + row.secondCost)

end Table

/-- The rows and sizes kept for a table. -/
structure SizesReflect (t : Table) (rows : RegistryRows) : Prop where
  adds : rows.adds = t.adds
  removes : rows.removes = t.removes
  rowSizes : rows.rowSizes.Holds (t.sized (vkLen + ·))
  valueSizes : rows.valueSizes.Holds (t.sized id)

/-- The rows, sizes and indexes kept for a table. -/
structure RowsReflect (t : Table) (rows : RegistryRows) : Prop extends SizesReflect t rows where
  owned : rows.owned.Files fun owner address =>
    ∃ row, t.effective.get? address = some row ∧ row.owner = some owner
  leafSources : rows.leafSources.Files fun key address =>
    ∃ row, t.effective.get? address = some row ∧ (row.recordFor key).isSome

/-- **What a registry holds for a table.** -/
structure Reflects (t : Table) (registry : InMemoryProverRegistry) : Prop where
  rows : ∃ rows, registry.rows = some rows ∧ RowsReflect t rows ∧
    registry.largestRow = rows.largest.1 ∧ registry.largestValue = rows.largest.2
  usage : registry.resourceUsage = t.usage
  fromRows : registry.fromRows = true
  diverged : registry.diverged = false
  provers : ∀ owner, registry.proverCache owner =
    recomposedEntry (t.own owner) owner (t.allocationsOf owner)
  leafRoots : ∀ key, registry.leafRootCache key = t.leafRecord key
  filters : registry.filterCache.Files fun filter owner =>
    ∃ a ∈ t.allocationsOf owner, a.confirmationFilter = filter
  active : ∀ owner, registry.addressToFilters owner = Table.activeFilters (t.allocationsOf owner)
  counts : ∀ kind, registry.countOf kind = t.effective.total fun _ row => row.tally kind

/-- A table determines the rows that reflect it. -/
theorem RowsReflect.unique {t : Table} {rows rows' : RegistryRows} (h : RowsReflect t rows)
    (h' : RowsReflect t rows') : rows = rows' := by
  have hadds := h.adds.trans h'.adds.symm
  have hremoves := h.removes.trans h'.removes.symm
  have hsizes := h.rowSizes.unique h'.rowSizes
  have hvalues := h.valueSizes.unique h'.valueSizes
  have howned := h.owned.unique h'.owned
  have hsources := h.leafSources.unique h'.leafSources
  cases rows
  simp_all

/-- A table determines the registry that reflects it. -/
theorem Reflects.unique {t : Table} {r r' : InMemoryProverRegistry} (h : Reflects t r)
    (h' : Reflects t r') : r = r' := by
  obtain ⟨rows, hrows, hreflect, hlarge, hvalue⟩ := h.rows
  obtain ⟨_, hrows', hreflect', hlarge', hvalue'⟩ := h'.rows
  cases hreflect.unique hreflect'
  have hcounts := fun kind => (h.counts kind).trans (h'.counts kind).symm
  exact InMemoryProverRegistry.ext (h.usage.trans h'.usage.symm) (h.fromRows.trans h'.fromRows.symm)
    (hlarge.trans hlarge'.symm) (hvalue.trans hvalue'.symm) (hrows.trans hrows'.symm)
    (h.diverged.trans h'.diverged.symm)
    (funext fun owner => (h.provers owner).trans (h'.provers owner).symm)
    (funext fun key => (h.leafRoots key).trans (h'.leafRoots key).symm)
    (h.filters.unique h'.filters)
    (funext fun owner => (h.active owner).trans (h'.active owner).symm)
    (hcounts .reward) (hcounts .prover) (hcounts .allocation) (hcounts .leafRoot)
    (hcounts .unknown)

/-! ## The passes as total functions -/

/-- The first pass at a row, its charges apart. -/
def nextFirst (c : Composing) (row : Bytes32 × DecodedRow) : Composing :=
  let self := c.registry
  match row.2.first with
  | .nothing => c
  | .unknown => { c with registry := { self with unknownVertexCount := self.unknownVertexCount + 1 } }
  | .prover (some info) _ =>
    { c with registry := { self with
        proverVertexCount := self.proverVertexCount + 1
        proverCache := Function.update self.proverCache info.address (some info) } }
  | .prover none retiredKey =>
    { c with
      registry := { self with proverVertexCount := self.proverVertexCount + 1 }
      retiredKeys :=
        if retiredKey ≠ [] then Function.update c.retiredKeys row.1.bytes (some retiredKey)
        else c.retiredKeys }
  | .reward => { c with registry := { self with rewardVertexCount := self.rewardVertexCount + 1 } }
  | .leafRoot records => records.foldl (fun c r => c.leafRoot row.1 r)
      { c with registry := { self with leafRootVertexCount := self.leafRootVertexCount + 1 } }

variable {c : Composing} {row : Bytes32 × DecodedRow} {budget : RegistryBudget}
  {out : RegistryBudget × Composing}

section Sound

variable (hsound : budget.Sound)
include hsound

/-- A step without a charge, in the form of a charged one. -/
theorem uncharged_ok : Except.ok (budget, c) = (.ok out : Result _) ↔
      True ∧ (budget.spend 0).Sound ∧ out = (budget.spend 0, c) := by
  simp [hsound, eq_comm]

/-- A charged step succeeds when the budget stays sound. -/
theorem charged_ok {entries : Nat} {lengths : List Nat} : (do
      let budget ← budget.charge (cacheCharge entries lengths)
      return (budget, c)) = .ok out ↔ True ∧ (budget.spend (cacheCharge entries lengths)).Sound ∧
        out = (budget.spend (cacheCharge entries lengths), c) := by
  rw [bind_ok]
  constructor
  · rintro ⟨budget', hcharge, hout⟩
    obtain ⟨hend, rfl⟩ := (charge_ok hsound).mp hcharge
    exact ⟨trivial, hend, (pure_ok.mp hout).symm⟩
  · rintro ⟨-, hend, rfl⟩
    exact ⟨_, (charge_ok hsound).mpr ⟨hend, rfl⟩, rfl⟩

/-- The first pass over a row is its charge and its pure step. -/
theorem composeFirst_ok :
    composeFirst (budget, c) row = .ok out ↔ True ∧ (budget.spend row.2.firstCost).Sound ∧
      out = (budget.spend row.2.firstCost, nextFirst c row) := by
  unfold composeFirst nextFirst firstCost
  cases hfirst : row.2.first with
  | nothing | unknown | reward => exact uncharged_ok hsound
  | prover info =>
    cases info with
    | none =>
      dsimp only
      split
      · exact uncharged_ok hsound
      · exact uncharged_ok hsound
    | some => exact charged_ok hsound
  | leafRoot records =>
    have hloop := @foldlM_ok Composing (LeafRootKey × LeafRootRecord)
      (fun state r => do
        let budget ← state.1.charge (leafRootCharge r.1 r.2)
        return (budget, state.2.leafRoot row.1 r))
      (fun c r => c.leafRoot row.1 r) (fun _ _ => True) (fun r => leafRootCharge r.1 r.2)
      (fun _ _ _ _ h => charged_ok h) records budget hsound
    rw [hloop]
    simp

/-- The second pass at a row, its charges apart. -/
def nextSecond (c : Composing) (row : Bytes32 × DecodedRow) : Composing :=
  match row.2.allocation with
  | none => c
  | some none => { c with registry := { c.registry with
      allocationVertexCount := c.registry.allocationVertexCount + 1 } }
  | some (some (owner, alloc)) =>
    { c with
      registry := { c.registry with
        allocationVertexCount := c.registry.allocationVertexCount + 1 }.attachAllocation
          owner alloc (c.retiredKeys owner)
      owned := c.owned.add owner row.1 }

/-- The second pass over a row is its charge and its pure step. -/
theorem composeSecond_ok :
    composeSecond (budget, c) row = .ok out ↔ True ∧ (budget.spend row.2.secondCost).Sound ∧
      out = (budget.spend row.2.secondCost, nextSecond c row) := by
  unfold composeSecond nextSecond secondCost
  rcases hrow : row.2.allocation with _ | _ | ⟨owner, alloc⟩
  · exact uncharged_ok hsound
  · exact uncharged_ok hsound
  · exact charged_ok hsound

/-- Composition is one total charge and two pure folds. -/
theorem composeEntries_ok {entries : List (Bytes32 × DecodedRow)} :
    composeEntries entries budget c = .ok out ↔
      (budget.spend (entries.map fun e => e.2.firstCost + e.2.secondCost).sum).Sound ∧
        out = (budget.spend (entries.map fun e => e.2.firstCost + e.2.secondCost).sum,
          entries.foldl nextSecond (entries.foldl nextFirst c)) := by
  have hfirst := @foldlM_ok _ _ composeFirst nextFirst (fun _ _ => True)
    (fun e => e.2.firstCost) (fun _ _ _ _ h => composeFirst_ok h) entries budget hsound c
  have hsecond := @foldlM_ok _ _ composeSecond nextSecond (fun _ _ => True)
    (fun e => e.2.secondCost) (fun _ _ _ _ h => composeSecond_ok h) entries
  have hsum : (entries.map fun e => e.2.firstCost + e.2.secondCost).sum =
      (entries.map fun e => e.2.firstCost).sum + (entries.map fun e => e.2.secondCost).sum :=
    List.sum_map_add
  rw [composeEntries, bind_ok, hsum, ← spend_spend]
  constructor
  · rintro ⟨mid, hmid, hout⟩
    obtain ⟨-, hmidSound, rfl⟩ := hfirst.mp hmid
    obtain ⟨-, hend, rfl⟩ := (hsecond hmidSound).mp hout
    exact ⟨hend, rfl⟩
  · rintro ⟨hend, rfl⟩
    have hmidSound := admits_of_add hend
    exact ⟨_, hfirst.mpr ⟨fun _ _ => trivial, hmidSound, rfl⟩,
      (hsecond hmidSound).mpr ⟨fun _ _ => trivial, hend, rfl⟩⟩

end Sound

/-! ## What the first pass leaves -/

/-- Bytes are an address exactly when they are its bytes. -/
theorem addressOf_eq_some {bytes : Bytes} {addr : Bytes32} :
    addressOf bytes = some addr ↔ addr.bytes = bytes := by
  unfold addressOf
  constructor
  · intro h
    split at h
    · rename_i hlen
      cases h
      have hlt : natOfBytes bytes < 2 ^ 256 := by
        have h := natOfBytes_lt bytes
        rwa [hlen] at h
      change beBytes 32 (BitVec.ofNat 256 (natOfBytes bytes)).toNat = bytes
      rw [BitVec.toNat_ofNat, Nat.mod_eq_of_lt hlt, ← hlen]
      exact beBytes_natOfBytes bytes
    · cases h
  · rintro rfl
    have hnat : natOfBytes addr.bytes = addr.toNat % 256 ^ 32 := natOfBytes_beBytes 32 _
    have hlt : addr.toNat < 256 ^ 32 := addr.isLt
    rw [hnat, Nat.mod_eq_of_lt hlt]
    exact congrArg some (BitVec.eq_of_toNat_eq (by simp))

namespace DecodedRow

/-- The leaf-root records of a row. -/
def records (row : DecodedRow) : List (LeafRootKey × LeafRootRecord) :=
  match row.first with
  | .leafRoot records => records
  | _ => []

/-- The record a row gives a key is the last it lists. -/
theorem recordFor_eq (key : LeafRootKey) (row : DecodedRow) :
    row.recordFor key = (row.records.reverse.find? fun r => r.1 = key).map Prod.snd := by
  unfold recordFor records
  cases row.first <;> rfl

/-- A row gives a key a record exactly when it lists the key. -/
theorem recordFor_isSome {key : LeafRootKey} {row : DecodedRow} :
    (row.recordFor key).isSome ↔ key ∈ row.records.map Prod.fst := by
  rw [recordFor_eq, Option.isSome_map, List.find?_isSome]
  simp

/-- An owner has an allocation in exactly the rows it owns. -/
theorem allocationFor_isSome {owner : Bytes} {row : DecodedRow} :
    (row.allocationFor owner).isSome ↔ row.owner = some owner := by
  unfold allocationFor DecodedRow.owner
  rcases row.allocation with _ | _ | ⟨o, a⟩
  · simp
  · simp
  · by_cases ho : o = owner <;> simp [ho]

end DecodedRow

/-- The prover record of an owner's own row. -/
def infoOf (own : Option DecodedRow) : Option ProverInfo :=
  match own.map DecodedRow.first with
  | some (.prover (some info) _) => some info
  | _ => none

/-- The key a retired prover's own row keeps. -/
def retiredKeyOf (own : Option DecodedRow) : Bytes :=
  match own.map DecodedRow.first with
  | some (.prover none retiredKey) => retiredKey
  | _ => []

section Recomposed

variable (own : Option DecodedRow) (prover : Bytes) (allocations : List ProverAllocationInfo)

theorem recomposedEntry_eq : recomposedEntry own prover allocations = match infoOf own with
      | some info => some { info with allocations := allocations }
      | none =>
        if allocations ≠ [] then
          some { synthesized (retiredKeyOf own) prover with allocations := allocations }
        else none := by
  unfold recomposedEntry infoOf retiredKeyOf
  rcases own.map first with _ | first
  · rfl
  · cases first with
    | prover info => cases info <;> rfl
    | _ => rfl

/-- One more allocation attached. -/
theorem recomposedEntry_push (a : ProverAllocationInfo) :
    some { (recomposedEntry own prover allocations).getD (synthesized (retiredKeyOf own) prover) with
      allocations := ((recomposedEntry own prover allocations).getD
        (synthesized (retiredKeyOf own) prover)).allocations ++ [a] } =
      recomposedEntry own prover (allocations ++ [a]) := by
  rw [recomposedEntry_eq, recomposedEntry_eq]
  cases infoOf own with
  | some => rfl
  | none =>
    cases allocations with
    | nil => rfl
    | cons => rfl

end Recomposed

/-- Cache a record under its key. -/
def cacheRecord {κ α : Type*} [DecidableEq κ] (cache : κ → Option α) (r : κ × α) : κ → Option α :=
  Function.update cache r.1 (some r.2)

/-- Recording leaf roots changes the leaf roots only. -/
theorem leafRoot_foldl (addr : Bytes32) (records : List (LeafRootKey × LeafRootRecord))
    (c : Composing) : records.foldl (fun c r => c.leafRoot addr r) c = { c with
        registry := { c.registry with
          leafRootCache := records.foldl cacheRecord c.registry.leafRootCache }
        leafSources := records.foldl (fun sources r => sources.add r.1 addr) c.leafSources } := by
  induction records generalizing c with
  | nil => rfl
  | cons r records ih =>
    rw [List.foldl_cons, ih]
    rfl

/-- **The first pass at a row**, field by field. -/
theorem nextFirst_eq (c : Composing) (row : Bytes32 × DecodedRow) : nextFirst c row = { c with
      registry := { c.registry with
        proverCache := match infoOf (some row.2) with
          | some info => Function.update c.registry.proverCache info.address (some info)
          | none => c.registry.proverCache
        leafRootCache := row.2.records.foldl cacheRecord c.registry.leafRootCache
        rewardVertexCount := c.registry.rewardVertexCount + row.2.tally .reward
        proverVertexCount := c.registry.proverVertexCount + row.2.tally .prover
        leafRootVertexCount := c.registry.leafRootVertexCount + row.2.tally .leafRoot
        unknownVertexCount := c.registry.unknownVertexCount + row.2.tally .unknown }
      retiredKeys := if retiredKeyOf (some row.2) ≠ [] then
          Function.update c.retiredKeys row.1.bytes (some (retiredKeyOf (some row.2)))
        else c.retiredKeys
      leafSources := row.2.records.foldl (fun sources r => sources.add r.1 row.1)
        c.leafSources } := by
  unfold nextFirst infoOf retiredKeyOf records tally
  rw [Option.map_some]
  cases row.2.first with
  | prover info => cases info <;> simp
  | leafRoot =>
    dsimp only
    rw [leafRoot_foldl]
    simp
  | _ => simp

/-- The first pass counts each vertex that is no allocation. -/
theorem nextFirst_countOf (c : Composing) (row : Bytes32 × DecodedRow) {kind : VertexKind}
    (hkind : kind ≠ .allocation) : (nextFirst c row).registry.countOf kind =
      c.registry.countOf kind + row.2.tally kind := by
  rw [nextFirst_eq]
  cases kind <;> first | rfl | exact absurd rfl hkind

/-- A prover's own row is stored at its address. -/
theorem DecodedRow.Addressed.info (h : row.2.Addressed row.1) {info : ProverInfo}
    (hinfo : infoOf (some row.2) = some info) :
    info.address = row.1.bytes ∧ info.allocations = [] := by
  unfold infoOf at hinfo
  split at hinfo
  · rename_i retiredKey hfirst
    exact h info retiredKey (Option.some.inj hinfo ▸ Option.some.inj hfirst)
  · cases hinfo

/-- The first pass leaves what only the second makes. -/
structure Unattached (c : Composing) : Prop where
  filterCache : c.registry.filterCache = fun _ => none
  addressToFilters : c.registry.addressToFilters = fun _ => none
  allocationCount : c.registry.allocationVertexCount = 0
  diverged : c.registry.diverged = false
  owned : c.owned = fun _ => none

/-- The first pass attaches no allocation. -/
theorem Unattached.nextFirst (h : Unattached c) (row : Bytes32 × DecodedRow) :
    Unattached (nextFirst c row) := by
  rw [nextFirst_eq]
  exact ⟨h.1, h.2, h.3, h.4, h.5⟩

/-- The row stored at an owner's own address, in a list of rows. -/
def ownIn (l : List (Bytes32 × DecodedRow)) (owner : Bytes) : Option DecodedRow :=
  (addressOf owner).bind fun addr => OrdMap.lookup addr l

variable {l : List (Bytes32 × DecodedRow)}

/-- A fresh row is what its own address now finds. -/
theorem ownIn_concat (hfresh : lookup row.1 l = none) (owner : Bytes) :
    ownIn (l ++ [row]) owner = if row.1.bytes = owner then some row.2 else ownIn l owner := by
  unfold ownIn
  cases haddress : addressOf owner with
  | none =>
    have hne : row.1.bytes ≠ owner := by
      intro h
      rw [addressOf_eq_some.mpr h] at haddress
      cases haddress
    simp [hne]
  | some addr =>
    have hbytes := addressOf_eq_some.mp haddress
    have hiff : row.1.bytes = owner ↔ row.1 = addr :=
      ⟨fun h => Bytes32.bytes_injective (h.trans hbytes.symm), fun h => h ▸ hbytes⟩
    rw [Option.bind_some, Option.bind_some, lookup_concat hfresh]
    simp only [hiff]

theorem ownIn_fresh {addr : Bytes32} (hfresh : lookup addr l = none) :
    ownIn l addr.bytes = none := by
  unfold ownIn
  rw [addressOf_eq_some.mpr rfl]
  exact hfresh

/-- A cache fed records in order answers with the last. -/
theorem foldl_cacheRecord {κ α : Type*} [DecidableEq κ] (records : List (κ × α))
    (cache : κ → Option α) (key : κ) :
    records.foldl cacheRecord cache key =
      ((records.reverse.find? fun r => r.1 = key).map Prod.snd).or (cache key) := by
  induction records generalizing cache with
  | nil => rfl
  | cons r records ih =>
    rw [List.foldl_cons, ih, List.reverse_cons, List.find?_append]
    cases records.reverse.find? fun r => decide (r.1 = key) with
    | some => rfl
    | none =>
      by_cases hkey : r.1 = key
      · subst hkey
        simp [cacheRecord]
      · simp [cacheRecord, hkey, Function.update_of_ne (Ne.symm hkey)]

/-- A row with a new address files what it has under its keys. -/
theorem files_concat {κ : Type*} [DecidableEq κ] {index : SetIndex κ Bytes32}
    {g : DecodedRow → κ → Prop}
    (h : index.Files fun k a => ∃ row, lookup a l = some row ∧ g row k)
    (hfresh : lookup row.1 l = none) (ks : List κ) (hks : ∀ k, k ∈ ks ↔ g row.2 k) :
    Files (ks.foldl (fun index k => index.add k row.1) index)
      fun k a => ∃ r, lookup a (l ++ [row]) = some r ∧ g r k := by
  refine (h.addAll ks row.1).congr fun k a => ?_
  rw [lookup_concat hfresh]
  by_cases ha : row.1 = a
  · subst ha
    simp [hfresh, hks]
  · simp [ha]

/-- What the first pass has made of the rows of a list. -/
structure FirstPassed (l : List (Bytes32 × DecodedRow)) (c : Composing) : Prop where
  provers : ∀ owner, c.registry.proverCache owner = recomposedEntry (ownIn l owner) owner []
  retired : ∀ owner, (c.retiredKeys owner).getD [] = retiredKeyOf (ownIn l owner)
  leafRoots : ∀ key, c.registry.leafRootCache key =
    (l.filterMap fun e => e.2.recordFor key).getLast?
  leafSources : c.leafSources.Files fun key address =>
    ∃ row, OrdMap.lookup address l = some row ∧ (row.recordFor key).isSome
  counts : ∀ kind, kind ≠ .allocation →
    c.registry.countOf kind = (l.map fun e => e.2.tally kind).sum
  unattached : Unattached c

/-- One row of the first pass keeps its invariant. -/
theorem FirstPassed.next (h : FirstPassed l c) (hfresh : lookup row.1 l = none)
    (haddressed : row.2.Addressed row.1) : FirstPassed (l ++ [row]) (nextFirst c row) where
  provers owner := by
    rw [ownIn_concat hfresh, nextFirst_eq, recomposedEntry_eq]
    have hbefore : c.registry.proverCache row.1.bytes = none := by
      rw [h.provers, ownIn_fresh hfresh]
      rfl
    by_cases howner : row.1.bytes = owner
    · subst howner
      rw [if_pos rfl]
      cases hinfo : infoOf (some row.2) with
      | none => simpa using hbefore
      | some info =>
        have hself := haddressed.info hinfo
        change Function.update c.registry.proverCache info.address (some info) row.1.bytes =
          some { info with allocations := [] }
        rw [← hself.1, Function.update_self, ← hself.2]
    · rw [if_neg howner, ← recomposedEntry_eq, ← h.provers]
      cases hinfo : infoOf (some row.2) with
      | none => rfl
      | some info =>
        simp only [(haddressed.info hinfo).1, Function.update_of_ne (Ne.symm howner)]
  retired owner := by
    rw [ownIn_concat hfresh, nextFirst_eq]
    dsimp only
    have hbefore : (c.retiredKeys row.1.bytes).getD [] = [] := by
      rw [h.retired, ownIn_fresh hfresh]
      rfl
    by_cases howner : row.1.bytes = owner
    · subst howner
      rw [if_pos rfl]
      split
      · rw [Function.update_self]
        rfl
      · rename_i hempty
        rw [hbefore]
        exact (not_ne_iff.mp hempty).symm
    · rw [if_neg howner, ← h.retired]
      split
      · rw [Function.update_of_ne (Ne.symm howner)]
      · rfl
  leafRoots key := by
    rw [nextFirst_eq]
    dsimp only
    rw [foldl_cacheRecord, ← recordFor_eq, h.leafRoots, List.filterMap_append, List.getLast?_append]
    cases hrecord : row.2.recordFor key <;> simp [hrecord]
  leafSources := by
    rw [nextFirst_eq]
    have hfiled := files_concat h.leafSources hfresh (row.2.records.map Prod.fst) fun _ =>
      recordFor_isSome.symm
    rwa [List.foldl_map] at hfiled
  counts kind hkind := by
    rw [nextFirst_countOf c row hkind, h.counts kind hkind]
    simp
  unattached := h.unattached.nextFirst row

/-! ## What the second pass leaves -/

/-- The allocations an owner has in a list of rows. -/
def allocationsIn (l : List (Bytes32 × DecodedRow)) (owner : Bytes) : List ProverAllocationInfo :=
  l.filterMap fun e => e.2.allocationFor owner

/-- What the second pass has made of the rows of `l`, after the first made of those
of `all` what it does. -/
structure SecondPassed (all l : List (Bytes32 × DecodedRow)) (c : Composing) : Prop where
  provers : ∀ owner, c.registry.proverCache owner =
    recomposedEntry (ownIn all owner) owner (allocationsIn l owner)
  retired : ∀ owner, (c.retiredKeys owner).getD [] = retiredKeyOf (ownIn all owner)
  leafRoots : ∀ key, c.registry.leafRootCache key =
    (all.filterMap fun e => e.2.recordFor key).getLast?
  leafSources : c.leafSources.Files fun key address =>
    ∃ row, OrdMap.lookup address all = some row ∧ (row.recordFor key).isSome
  counts : ∀ kind, kind ≠ .allocation →
    c.registry.countOf kind = (all.map fun e => e.2.tally kind).sum
  filters : c.registry.filterCache.Files fun filter owner =>
    ∃ a ∈ allocationsIn l owner, a.confirmationFilter = filter
  active : ∀ owner, c.registry.addressToFilters owner = Table.activeFilters (allocationsIn l owner)
  owned : c.owned.Files fun owner address =>
    ∃ row, OrdMap.lookup address l = some row ∧ row.owner = some owner
  allocationCount : c.registry.countOf .allocation = (l.map fun e => e.2.tally .allocation).sum
  diverged : c.registry.diverged = false

variable {all : List (Bytes32 × DecodedRow)}

/-- The first pass, done, is where the second starts. -/
theorem FirstPassed.second (h : FirstPassed all c) : SecondPassed all [] c where
  provers := h.provers
  retired := h.retired
  leafRoots := h.leafRoots
  leafSources := h.leafSources
  counts := h.counts
  filters := by
    rw [h.unattached.filterCache]
    exact files_empty.congr fun _ _ => by simp [allocationsIn]
  active owner := by
    rw [h.unattached.addressToFilters]
    rfl
  owned := by
    rw [h.unattached.owned]
    exact files_empty.congr fun _ _ => by simp [lookup]
  allocationCount := h.unattached.allocationCount
  diverged := h.unattached.diverged

/-- Only an active allocation adds its filter. -/
theorem activeFilters_concat (allocations : List ProverAllocationInfo) (a : ProverAllocationInfo) :
    Table.activeFilters (allocations ++ [a]) = if a.status = .active then
        some (pushFilter ((Table.activeFilters allocations).getD []) a)
      else Table.activeFilters allocations := by
  have hgetD : (Table.activeFilters allocations).getD [] = allocations.foldl pushFilter [] := by
    unfold Table.activeFilters
    dsimp only
    split
    · rename_i hempty
      rw [hempty]
      rfl
    · rfl
  rw [hgetD]
  unfold Table.activeFilters
  simp only [List.foldl_append, List.foldl_cons, List.foldl_nil]
  generalize allocations.foldl pushFilter [] = active
  unfold pushFilter
  by_cases hactive : a.status = .active
  · by_cases hmem : a.confirmationFilter ∈ active
    · have hne : active ≠ [] := List.ne_nil_of_mem hmem
      simp [hactive, hmem, hne]
    · simp [hactive, hmem]
  · simp [hactive]

/-- A further row adds the allocation it gives the owner. -/
theorem allocationsIn_concat (l : List (Bytes32 × DecodedRow)) (row : Bytes32 × DecodedRow)
    (owner : Bytes) : allocationsIn (l ++ [row]) owner =
      allocationsIn l owner ++ (row.2.allocationFor owner).toList := by
  unfold allocationsIn
  cases h : row.2.allocationFor owner <;> simp [h]

/-- A row that is no allocation of anyone adds to the count at most. -/
theorem SecondPassed.skip (h : SecondPassed all l c) (hfresh : lookup row.1 l = none)
    (howner : row.2.owner = none) :
    SecondPassed all (l ++ [row]) { c with registry := { c.registry with
      allocationVertexCount := c.registry.allocationVertexCount + row.2.tally .allocation } } := by
  have hnone : ∀ owner, row.2.allocationFor owner = none := by
    intro owner
    rw [← Option.not_isSome_iff_eq_none, allocationFor_isSome, howner]
    simp
  have hsame : ∀ owner, allocationsIn (l ++ [row]) owner = allocationsIn l owner := by
    intro owner
    rw [allocationsIn_concat, hnone, Option.toList_none, List.append_nil]
  exact {
    provers := fun owner => by rw [hsame]; exact h.provers owner
    retired := h.retired
    leafRoots := h.leafRoots
    leafSources := h.leafSources
    counts := fun kind hkind => by
      rw [← h.counts kind hkind]
      cases kind <;> first | rfl | exact absurd rfl hkind
    filters := h.filters.congr fun filter owner => by rw [hsame]
    active := fun owner => by rw [hsame]; exact h.active owner
    owned := files_concat h.owned hfresh [] (by simp [howner])
    allocationCount := by
      have hbefore : c.registry.allocationVertexCount = _ := h.allocationCount
      simp [countOf, hbefore]
    diverged := h.diverged }

/-- One row of the second pass keeps its invariant. -/
theorem SecondPassed.next (h : SecondPassed all l c) (hfresh : lookup row.1 l = none) :
    SecondPassed all (l ++ [row]) (nextSecond c row) := by
  rcases hrow : row.2.allocation with _ | _ | ⟨owner, a⟩
  iterate 2
    · have hskip := h.skip hfresh (by simp [owner, hrow])
      simpa [nextSecond, hrow, tally] using hskip
  · have hallocation : ∀ o, row.2.allocationFor o = if owner = o then some a else none := by
      intro o
      simp [allocationFor, hrow]
    have hgrown : allocationsIn (l ++ [row]) owner = allocationsIn l owner ++ [a] := by
      rw [allocationsIn_concat, hallocation, if_pos rfl]
      rfl
    have hother : ∀ o, owner ≠ o → allocationsIn (l ++ [row]) o = allocationsIn l o := by
      intro o ho
      rw [allocationsIn_concat, hallocation, if_neg ho, Option.toList_none, List.append_nil]
    have hnext : nextSecond c row = { c with
          registry := { c.registry with
            allocationVertexCount := c.registry.allocationVertexCount + 1 }.attachAllocation
              owner a (c.retiredKeys owner)
          owned := c.owned.add owner row.1 } := by
      simp [nextSecond, hrow]
    rw [hnext]
    exact {
      provers := fun o => by
        change Function.update c.registry.proverCache owner _ o = _
        by_cases ho : owner = o
        · subst ho
          rw [Function.update_self, hgrown, h.provers, h.retired]
          exact recomposedEntry_push _ _ _ _
        · rw [Function.update_of_ne (Ne.symm ho), hother o ho]
          exact h.provers o
      retired := h.retired
      leafRoots := h.leafRoots
      leafSources := h.leafSources
      counts := fun kind hkind => by
        rw [← h.counts kind hkind]
        cases kind <;> first | rfl | exact absurd rfl hkind
      filters := (h.filters.add a.confirmationFilter owner).congr fun filter o => by
        by_cases ho : owner = o
        · subst ho
          rw [hgrown]
          simp only [List.mem_append, List.mem_singleton, or_and_right, exists_or, exists_eq_left,
            and_true]
          exact or_comm
        · rw [hother o ho]
          simp [ho]
      active := fun o => by
        change (if a.status = .active then Function.update c.registry.addressToFilters owner _
          else c.registry.addressToFilters) o = _
        by_cases ho : owner = o
        · subst ho
          rw [hgrown, activeFilters_concat, ← h.active]
          split
          · rw [Function.update_self]
          · rfl
        · rw [hother o ho, ← h.active]
          split
          · rw [Function.update_of_ne (Ne.symm ho)]
          · rfl
      owned := files_concat h.owned hfresh [owner] (by simp [DecodedRow.owner, hrow, eq_comm])
      allocationCount := by
        have hbefore : c.registry.allocationVertexCount = _ := h.allocationCount
        simp [countOf, attachAllocation, hbefore, tally, hrow]
      diverged := h.diverged }

/-- **What both passes make of rows in address order.** -/
theorem composed {l : List (Bytes32 × DecodedRow)} (hsorted : l.Pairwise fun a b => a.1 < b.1)
    (haddressed : ∀ e ∈ l, e.2.Addressed e.1) {c : Composing} (h : FirstPassed [] c) :
    SecondPassed l l (l.foldl nextSecond (l.foldl nextFirst c)) := by
  have hfirst : FirstPassed l (l.foldl nextFirst c) := by
    refine List.foldl_front h fun front e back c hsplit hfront => ?_
    rw [hsplit] at hsorted haddressed
    exact hfront.next (lookup_front hsorted) (haddressed e (by simp))
  refine List.foldl_front hfirst.second fun front e back c hsplit hfront => ?_
  rw [hsplit] at hsorted
  exact hfront.next (lookup_front hsorted)

end Registry

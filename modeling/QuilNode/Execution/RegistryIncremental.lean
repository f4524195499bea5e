import QuilNode.Execution.RegistryUpdate

/-!
# An update of the registry is a refresh

`update_rows` reads the written rows again and patches the registry it has.  The changes lead from
the table of the old snapshot to the table of the new one (`foldl_changeAt`), and the registry
that reflects it is the one a refresh gives.  An update that fails has met something a refresh of
the same rows fails on.
-/

namespace Registry

open Results Global OrdMap Table List

/-- `later` has the rows of `earlier`, except in the phases that were written. -/
structure WrittenFrom (written : OrdMap Bytes32 Written) (earlier later : Snapshot) : Prop where
  adds : ∀ a, (∀ w, written.get? a = some w → w.adds = false) →
    later.adds.get? a = earlier.adds.get? a
  removes : ∀ a, (∀ w, written.get? a = some w → w.removes = false) →
    later.removes.get? a = earlier.removes.get? a

/-- The change that the rows of a snapshot make at a written address. -/
def changeAt (env : RegistryEnv) (snap : Snapshot) (w : Bytes32 × Written) : Change where
  address := w.1
  adds := if w.2.adds then some ((snap.adds.get? w.1).map (addedRow env w.1)) else none
  removes := if w.2.removes then some ((snap.removes.get? w.1).map List.length) else none

/-- The pages of a snapshot can be read. -/
def Paged (page : VertexPageLimits) (snap : Snapshot) : Prop :=
  64 ≤ page.maxBytes ∧ FitPage page snap.adds.entries ∧ FitPage page snap.removes.entries

/-- The rows read at a written address fit a page. -/
def ReadFits (page : VertexPageLimits) (snap : Snapshot) (w : Bytes32 × Written) : Prop :=
  (w.2.adds = true → ∀ data, snap.adds.get? w.1 = some data → 64 + data.length ≤ page.maxBytes) ∧
    (w.2.removes = true →
      ∀ data, snap.removes.get? w.1 = some data → 64 + data.length ≤ page.maxBytes)

/-- A phase is read as it stands, or the rows cannot be paged. -/
theorem readPhase_cases {α : Type} (written : Bool) (rows : OrdMap Bytes32 Bytes)
    (addr : Bytes32) (page : VertexPageLimits) (keep : Bytes → α) :
    (readPhase written rows addr page keep =
        .ok (if written then some ((rows.get? addr).map keep) else none) ∧
      (written = true → ∀ data, rows.get? addr = some data → 64 + data.length ≤ page.maxBytes)) ∨
    ∃ e, readPhase written rows addr page keep = .error e ∧
      ¬ (64 ≤ page.maxBytes ∧ FitPage page rows.entries) := by
  unfold readPhase
  cases written with
  | false => exact .inl ⟨rfl, fun h => by cases h⟩
  | true =>
    cases hread : readRow rows addr page with
    | error e => exact .inr ⟨e, rfl, readRow_error hread⟩
    | ok =>
      obtain ⟨rfl, hfits⟩ := readRow_ok hread
      exact .inl ⟨rfl, fun _ => hfits⟩

section Reading

variable (env : RegistryEnv) (snap : Snapshot) (page : VertexPageLimits)

theorem readChange_eq (w : Bytes32 × Written) : readChange env snap page w =
      (readPhase w.2.adds snap.adds w.1 page (addedRow env w.1) >>= fun adds =>
        readPhase w.2.removes snap.removes w.1 page List.length >>= fun removes =>
          pure { address := w.1, adds := adds, removes := removes }) := rfl

theorem readChange_cases (w : Bytes32 × Written) :
    (readChange env snap page w = .ok (changeAt env snap w) ∧ ReadFits page snap w) ∨
    ∃ e, readChange env snap page w = .error e ∧ ¬ Paged page snap := by
  rw [readChange_eq]
  rcases readPhase_cases w.2.adds snap.adds w.1 page (addedRow env w.1) with
    ⟨hadds, haddsFit⟩ | ⟨e, hadds, hpage⟩
  · rcases readPhase_cases w.2.removes snap.removes w.1 page length with
      ⟨hremoves, hremovesFit⟩ | ⟨e, hremoves, hpage⟩
    · refine .inl ⟨?_, haddsFit, hremovesFit⟩
      rw [hadds, hremoves]
      rfl
    · refine .inr ⟨e, ?_, fun hpaged => hpage ⟨hpaged.1, hpaged.2.2⟩⟩
      rw [hadds, hremoves]
      rfl
  · refine .inr ⟨e, ?_, fun hpaged => hpage ⟨hpaged.1, hpaged.2.1⟩⟩
    rw [hadds]
    rfl

/-- The written rows read: the changes of the new snapshot, or it cannot be paged. -/
theorem readChanges_cases (ws : List (Bytes32 × Written)) :
    (ws.mapM (readChange env snap page) = .ok (ws.map (changeAt env snap)) ∧
      ∀ w ∈ ws, ReadFits page snap w) ∨
    ∃ e, ws.mapM (readChange env snap page) = .error e ∧ ¬ Paged page snap := by
  induction ws with
  | nil => exact .inl ⟨rfl, fun _ h => by simp at h⟩
  | cons w ws ih =>
    rw [mapM_cons]
    rcases readChange_cases env snap page w with ⟨hread, hfits⟩ | ⟨e, hread, hpaged⟩
    · rw [hread]
      rcases ih with ⟨hrest, hall⟩ | ⟨e, hrest, hpaged⟩
      · rw [hrest]
        exact .inl ⟨rfl, forall_mem_cons.mpr ⟨hfits, hall⟩⟩
      · rw [hrest]
        exact .inr ⟨e, rfl, hpaged⟩
    · rw [hread]
      exact .inr ⟨e, rfl, hpaged⟩

end Reading

section

variable {env : RegistryEnv} {written : OrdMap Bytes32 Written} {earlier later : Snapshot}

theorem nodup_changeAt (env : RegistryEnv) (snap : Snapshot)
    (written : OrdMap Bytes32 Written) :
    ((written.entries.map (changeAt env snap)).map Change.address).Nodup := by
  rw [map_map]
  exact pairwise_map.mpr (written.sorted.imp fun hlt heq => hlt.ne heq)

/-- A written address holds the rows of the later snapshot. -/
theorem WrittenFrom.newRows (h : WrittenFrom written earlier later) {w : Bytes32 × Written}
    (hw : w ∈ written.entries) :
    (ofSnapshot env earlier).newAdds (changeAt env later w) = (ofSnapshot env later).adds.get? w.1 ∧
      (ofSnapshot env earlier).newRemoves (changeAt env later w) =
        (ofSnapshot env later).removes.get? w.1 := by
  have hget : ∀ w', written.get? w.1 = some w' → w' = w.2 := by
    intro w' hw'
    rw [mem_entries_iff.mp hw] at hw'
    exact (Option.some.inj hw').symm
  constructor
  · unfold newAdds changeAt
    rw [get?_adds_ofSnapshot, get?_adds_ofSnapshot]
    cases hadds : w.2.adds with
    | true => rfl
    | false =>
      rw [h.adds w.1 fun w' hw' => hget w' hw' ▸ hadds]
      rfl
  · unfold newRemoves changeAt
    rw [get?_removes_ofSnapshot, get?_removes_ofSnapshot]
    cases hremoves : w.2.removes with
    | true => rfl
    | false =>
      rw [h.removes w.1 fun w' hw' => hget w' hw' ▸ hremoves]
      rfl

/-- **The changes read lead to the table of the later snapshot.** -/
theorem WrittenFrom.foldl_changeAt (h : WrittenFrom written earlier later) :
    (written.entries.map (changeAt env later)).foldl change (ofSnapshot env earlier) =
      ofSnapshot env later := by
  have hpoint : ∀ a, (((written.entries.map (changeAt env later)).foldl change
          (ofSnapshot env earlier)).adds.get? a =
        (ofSnapshot env later).adds.get? a) ∧
      (((written.entries.map (changeAt env later)).foldl change
          (ofSnapshot env earlier)).removes.get? a =
        (ofSnapshot env later).removes.get? a) := by
    intro a
    cases hget : written.get? a with
    | some w =>
      have hw : (a, w) ∈ written.entries := mem_entries_iff.mpr hget
      obtain ⟨hadds, hremoves⟩ := foldl_change_at (nodup_changeAt env later written)
        (mem_map_of_mem hw) (ofSnapshot env earlier)
      obtain ⟨hnewAdds, hnewRemoves⟩ := @WrittenFrom.newRows env _ _ _ h _ hw
      exact ⟨hadds.trans hnewAdds, hremoves.trans hnewRemoves⟩
    | none =>
      have hother : ∀ c ∈ written.entries.map (changeAt env later), c.address ≠ a := by
        intro c hc heq
        obtain ⟨w, hw, rfl⟩ := mem_map.mp hc
        have hsome := mem_entries_iff.mp hw
        rw [show w.1 = a from heq, hget] at hsome
        cases hsome
      obtain ⟨hadds, hremoves⟩ := foldl_change_other hother (ofSnapshot env earlier)
      rw [hadds, hremoves, get?_adds_ofSnapshot, get?_adds_ofSnapshot,
        get?_removes_ofSnapshot, get?_removes_ofSnapshot,
        h.adds a (fun w hw => by rw [hget] at hw; cases hw),
        h.removes a (fun w hw => by rw [hget] at hw; cases hw)]
      exact ⟨rfl, rfl⟩
  exact Table.ext (ext_get? fun a => (hpoint a).1) (ext_get? fun a => (hpoint a).2)

/-- A bound on the unchanged rows and on those read is one on the later rows. -/
theorem sizes_later {earlier later : OrdMap Bytes32 Bytes} {read : Bytes32 → Prop}
    {P : Nat → Prop} (hsame : ∀ a, ¬ read a → later.get? a = earlier.get? a)
    (hold : ∀ row ∈ earlier.entries, P row.2.length)
    (hnew : ∀ a data, read a → later.get? a = some data → P data.length) :
    ∀ row ∈ later.entries, P row.2.length := by
  rintro ⟨a, data⟩ hrow
  have hget := mem_entries_iff.mp hrow
  by_cases hread : read a
  · exact hnew a data hread hget
  · rw [hsame a hread] at hget
    exact hold (a, data) (mem_entries_iff.mpr hget)

theorem recordable_ofSnapshot {limits : RegistryLimits} {snap : Snapshot} {a : Bytes32} :
    Recordable limits ((ofSnapshot env snap).adds.get? a)
        ((ofSnapshot env snap).removes.get? a) ↔
      (∀ data, snap.adds.get? a = some data → vkLen + data.length ≤ limits.maxRecordBytes) ∧
        ∀ data, snap.removes.get? a = some data → vkLen + data.length ≤ limits.maxRecordBytes := by
  rw [get?_adds_ofSnapshot, get?_removes_ofSnapshot, Recordable]
  cases snap.adds.get? a <;> cases snap.removes.get? a <;> simp [addedRow]

/-- What was readable, with the rows read again small enough, is readable. -/
theorem WrittenFrom.readable (h : WrittenFrom written earlier later) {seed limits : RegistryLimits}
    (hold : Readable seed earlier) (hread : ∀ w ∈ written.entries, ReadFits limits.page later w)
    (hrecord : ∀ w ∈ written.entries, Recordable limits
      ((ofSnapshot env later).adds.get? w.1) ((ofSnapshot env later).removes.get? w.1)) :
    Readable (seed.max limits) later := by
  obtain ⟨hseedPage, hlimitsPage⟩ := seed.page_maxBytes_le_max limits
  have hseedRecord : seed.maxRecordBytes ≤ (seed.max limits).maxRecordBytes := Nat.le_max_left ..
  have hlimitsRecord : limits.maxRecordBytes ≤ (seed.max limits).maxRecordBytes :=
    Nat.le_max_right ..
  have haddsSame : ∀ a, ¬ (∃ w, written.get? a = some w ∧ w.adds = true) →
      later.adds.get? a = earlier.adds.get? a := fun a hnot =>
    h.adds a fun w hw => by simpa using fun hadds => hnot ⟨w, hw, hadds⟩
  have hremovesSame : ∀ a, ¬ (∃ w, written.get? a = some w ∧ w.removes = true) →
      later.removes.get? a = earlier.removes.get? a := fun a hnot =>
    h.removes a fun w hw => by simpa using fun hremoves => hnot ⟨w, hw, hremoves⟩
  have hread' := fun a w hw => hread (a, w) (mem_entries_iff.mpr hw)
  have hrecord' := fun a w hw =>
    recordable_ofSnapshot.mp (hrecord (a, w) (mem_entries_iff.mpr hw))
  constructor
  · exact hold.page.trans hseedPage
  · refine sizes_later (P := fun n => 64 + n ≤ _) haddsSame
      (fun row hrow => (hold.addsPage row hrow).trans hseedPage) ?_
    rintro a data ⟨w, hw, hadds⟩ hdata
    exact ((hread' a w hw).1 hadds data hdata).trans hlimitsPage
  · refine sizes_later (P := fun n => 64 + n ≤ _) hremovesSame
      (fun row hrow => (hold.removesPage row hrow).trans hseedPage) ?_
    rintro a data ⟨w, hw, hremoves⟩ hdata
    exact ((hread' a w hw).2 hremoves data hdata).trans hlimitsPage
  · refine sizes_later (P := fun n => vkLen + n ≤ _) haddsSame
      (fun row hrow => (hold.addsRecord row hrow).trans hseedRecord) ?_
    rintro a data ⟨w, hw, -⟩ hdata
    exact ((hrecord' a w hw).1 data hdata).trans hlimitsRecord
  · refine sizes_later (P := fun n => vkLen + n ≤ _) hremovesSame
      (fun row hrow => (hold.removesRecord row hrow).trans hseedRecord) ?_
    rintro a data ⟨w, hw, -⟩ hdata
    exact ((hrecord' a w hw).2 data hdata).trans hlimitsRecord

end

/-- What the three outcomes of an update mean. -/
def Refreshes (env : RegistryEnv) (seed limits : RegistryLimits) (later : Snapshot)
    (registry : InMemoryProverRegistry) (out : Result Bool × InMemoryProverRegistry) : Prop :=
  match out.1 with
  | .ok true => refresh env (seed.max limits) later = .ok out.2 ∧
      ∀ other fresh, refresh env other later = .ok fresh → out.2 = fresh
  | .ok false => out.2 = registry
  | .error _ => out.2 = registry ∧ ∃ e, refresh env limits later = .error e

theorem refresh_error_of_not_ok {env : RegistryEnv} {limits : RegistryLimits} {snap : Snapshot}
    (h : ∀ registry, refresh env limits snap ≠ .ok registry) :
    ∃ e, refresh env limits snap = .error e := by
  cases hrefresh : refresh env limits snap with
  | error e => exact ⟨e, rfl⟩
  | ok registry => exact absurd hrefresh (h registry)

/-- **An update is a refresh** of the later rows.  One that returns false or fails changes nothing,
and where it fails a refresh under its limits fails too. -/
theorem update_rows_refreshes (env : RegistryEnv) (seed limits : RegistryLimits)
    (earlier later : Snapshot) (written : OrdMap Bytes32 Written)
    (registry : InMemoryProverRegistry) (hrefresh : refresh env seed earlier = .ok registry)
    (hwritten : WrittenFrom written earlier later) :
    Refreshes env seed limits later registry (updateRows env limits registry later written) := by
  obtain ⟨hreadable, hlegacy⟩ := refresh_readable hrefresh
  by_cases hadds : earlier.adds.entries = []
  · -- a registry of the legacy tree declines
    unfold updateRows
    rw [hlegacy hadds]
    simp [Refreshes]
  obtain ⟨_, rfl⟩ := (refresh_ok hadds).mp hrefresh
  have hreflects := composedRegistry_reflects env earlier
  obtain ⟨rows, hrows, hreflect, -, -⟩ := hreflects.rows
  unfold updateRows
  rw [hreflects.diverged, hreflects.fromRows, hrows, hreflects.usage]
  rw [if_neg (by simp)]
  rcases readChanges_cases env later limits.page written.entries with
    ⟨hread, hfits⟩ | ⟨e, hread, hpaged⟩
  · rw [hread]
    dsimp only
    have hahead : Ahead rows (ofSnapshot env earlier) (written.entries.map (changeAt env later)) :=
      ⟨nodup_changeAt env later written, fun _ _ => by rw [hreflect.adds],
        fun _ _ => by rw [hreflect.removes]⟩
    have hreckon := @reckon_cases limits _ _ _ hahead
    rw [hwritten.foldl_changeAt, forall_mem_map] at hreckon
    rw [hreflect.adds]
    rcases hreckon with ⟨hok, hrecord⟩ | hdecline | ⟨hfail, hlarge⟩
    · rw [hok]
      dsimp only
      have hrecord' : ∀ w ∈ written.entries, Recordable limits
          ((ofSnapshot env later).adds.get? w.1)
          ((ofSnapshot env later).removes.get? w.1) := by
        intro w hw
        obtain ⟨hnewAdds, hnewRemoves⟩ := @WrittenFrom.newRows env _ _ _ hwritten w hw
        rw [← hnewAdds, ← hnewRemoves]
        exact hrecord w hw
      split
      · rfl
      rename_i hsome
      have hlater : later.adds.entries ≠ [] := by
        intro hnil
        apply hsome
        rw [length_eq_zero_iff, entries_eq_nil]
        intro a
        rw [get?_adds_ofSnapshot, entries_eq_nil.mp hnil a]
        rfl
      split
      · -- too much in all, as a refresh finds
        rename_i hadmits
        refine ⟨rfl, refresh_error_of_not_ok fun fresh hfresh => ?_⟩
        rw [((refresh_ok hlater).mp hfresh).1.usage] at hadmits
        simp at hadmits
      · rename_i hadmits
        have hupdated := hreflects.applied hrows (nodup_changeAt env later written)
        rw [hwritten.foldl_changeAt] at hupdated
        have hsame := hupdated.unique (composedRegistry_reflects env later)
        refine ⟨(refresh_ok hlater).mpr ⟨⟨hwritten.readable hreadable hfits hrecord',
          admits_max (by simpa using hadmits)⟩, hsame⟩, fun other fresh hfresh => ?_⟩
        rw [((refresh_ok hlater).mp hfresh).2]
        exact hsame
    · rw [hdecline]
      rfl
    · rw [hfail]
      refine ⟨rfl, refresh_error_of_not_ok fun fresh hfresh => hlarge fun w hw => ?_⟩
      have hlater := (refresh_readable hfresh).1
      obtain ⟨hnewAdds, hnewRemoves⟩ := @WrittenFrom.newRows env _ _ _ hwritten w hw
      rw [hnewAdds, hnewRemoves, recordable_ofSnapshot]
      exact ⟨fun data hdata => hlater.addsRecord (w.1, data) (mem_entries_iff.mpr hdata),
        fun data hdata => hlater.removesRecord (w.1, data) (mem_entries_iff.mpr hdata)⟩
  · rw [hread]
    refine ⟨rfl, refresh_error_of_not_ok fun fresh hfresh => hpaged ?_⟩
    have hlater := (refresh_readable hfresh).1
    exact ⟨hlater.page, hlater.addsPage, hlater.removesPage⟩

/-- A toy tree codec: a blob is an allocation of the prover its bytes name. -/
def toyEnv : RegistryEnv where
  poseidon := fun bytes => BitVec.ofNat 256 bytes.length
  deserializeGoTree := fun blob => some fun key =>
    if key = typeKey then some (computeTypeHash (fun bytes => BitVec.ofNat 256 bytes.length) .allocation)
    else if key = AllocationField.prover.key then some blob
    else if key = AllocationField.status.key then some [1]
    else none
  deserializeTree := fun _ => .ok none

/-- One allocation stored. -/
def toyEarlier : Snapshot where
  adds := OrdMap.empty.insert 1 [7]
  removes := .empty
  treeBlob := .ok none

/-- The allocation moved to another prover, and a second one stored. -/
def toyLater : Snapshot where
  adds := (OrdMap.empty.insert 1 [8]).insert 2 [7]
  removes := .empty
  treeBlob := .ok none

def toyLimits : RegistryLimits := ⟨8, 4096, 65536, 64, 65536⟩

/-- Both addresses, in the adds. -/
def toyWritten : OrdMap Bytes32 Written :=
  (OrdMap.empty.insert 1 ⟨true, false⟩).insert 2 ⟨true, false⟩

/-- The update of both. -/
def toyUpdate : Result Bool × InMemoryProverRegistry :=
  updateRows toyEnv toyLimits (composedRegistry toyEnv toyEarlier) toyLater toyWritten

/-- It gives the caches of a refresh. -/
theorem toy_update_refreshes : toyUpdate.1 = .ok true ∧
    refresh toyEnv (toyLimits.max toyLimits) toyLater = .ok toyUpdate.2 := by
  have htrue : toyUpdate.1 = .ok true := by rfl
  have hsound := update_rows_refreshes toyEnv toyLimits toyLimits toyEarlier toyLater toyWritten
    (composedRegistry toyEnv toyEarlier) (by rfl)
    ⟨fun a h => by
      by_cases h1 : a = 1
      · subst h1; exact absurd (h _ rfl) (by simp)
      by_cases h2 : a = 2
      · subst h2; exact absurd (h _ rfl) (by simp)
      · rw [toyLater, toyEarlier, get?_insert, get?_insert, get?_insert,
          if_neg (Ne.symm h2), if_neg (Ne.symm h1), if_neg (Ne.symm h1)], fun _ _ => rfl⟩
  exact ⟨htrue, hsound.1⟩

end Registry

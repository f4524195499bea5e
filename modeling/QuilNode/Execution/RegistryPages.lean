import QuilNode.Execution.RegistryRows

/-!
# Reading rows by pages

A page is a stretch of the rows that remain, cut where it is full.  Only a row
that is too large for a page of its own fails: behind other rows it merely ends
their page and heads the next.  So a visit of all rows is the plain loop over
them, and it goes through exactly where every row fits a page.

A single row is read as the head of the page that starts at its address.
-/

namespace Registry

open Results List Except Nat Prod

/-- Every row fits a page. -/
def FitPage (limits : VertexPageLimits) (rows : List (Bytes32 × Bytes)) : Prop :=
  ∀ row ∈ rows, 64 + row.2.length ≤ limits.maxBytes

variable {limits : VertexPageLimits}

/-- A page is a front of the rows; it holds a row where it leaves one. -/
theorem fillPage_ok (hentries : limits.maxEntries ≠ 0) {rows taken : List (Bytes32 × Bytes)}
    {used : Nat} {page : VertexDataPage} (h : fillPage limits taken used rows = .ok page) :
    ∃ front back, rows = front ++ back ∧ page = ⟨taken ++ front, !back.isEmpty⟩ ∧
      FitPage limits front ∧ (back ≠ [] → taken ++ front ≠ []) := by
  induction rows generalizing taken used with
  | nil =>
    cases ok.inj h
    exact ⟨[], [], rfl, by simp, by simp [FitPage], fun h => absurd rfl h⟩
  | cons row rest ih =>
    -- the page ends before this row
    have hends : taken ≠ [] → (.ok ⟨taken, true⟩ : Result VertexDataPage) = .ok page →
        ∃ front back, row :: rest = front ++ back ∧ page = ⟨taken ++ front, !back.isEmpty⟩ ∧
          FitPage limits front ∧ (back ≠ [] → taken ++ front ≠ []) := by
      intro htaken hpage
      cases ok.inj hpage
      exact ⟨[], row :: rest, rfl, by simp, by simp [FitPage], fun _ => by simpa using htaken⟩
    unfold fillPage at h
    split at h
    · rename_i hfull
      refine hends ?_ h
      rintro rfl
      exact hentries hfull.symm
    · split at h
      · split at h
        · cases h
        · rename_i htaken
          exact hends htaken h
      · obtain ⟨front, back, rfl, hpage, hfit, _⟩ := ih h
        refine ⟨row :: front, back, rfl, ?_, ?_, fun _ => by simp⟩
        · rw [hpage, append_assoc]
          rfl
        · exact forall_mem_cons.mpr ⟨by omega, hfit⟩

/-- Only a row that fits no page fails one. -/
theorem fillPage_error {rows taken : List (Bytes32 × Bytes)} {used : Nat}
    (hused : taken = [] → used = 0) {e : QuilError}
    (h : fillPage limits taken used rows = .error e) : ¬ FitPage limits rows := by
  induction rows generalizing taken used with
  | nil => cases h
  | cons row rest ih =>
    intro hfit
    obtain ⟨_, hrest⟩ := forall_mem_cons.mp hfit
    unfold fillPage at h
    split at h
    · cases h
    split at h
    · split at h
      · rename_i htaken
        have hused := hused htaken
        omega
      · cases h
    · exact ih (by simp) h hrest

variable {rows : OrdMap Bytes32 Bytes}

theorem sorted_rowsAfter (rows : OrdMap Bytes32 Bytes) (after : Option Bytes32) :
    (rowsAfter rows after).Pairwise fun a b => a.1 < b.1 := by
  cases after with
  | none => exact rows.sorted
  | some => exact rows.sorted.filter _

/-- The rows after the last one of a page are the rows the page left. -/
theorem rowsAfter_of_append {after : Option Bytes32} {front back : List (Bytes32 × Bytes)}
    {last : Bytes32 × Bytes} (hsplit : rowsAfter rows after = front ++ last :: back) :
    rowsAfter rows (some last.1) = back := by
  have hsorted := sorted_rowsAfter rows after
  rw [hsplit] at hsorted
  have hlast : last ∈ rowsAfter rows after := by rw [hsplit]; simp
  have hafter : rowsAfter rows (some last.1) =
      (rowsAfter rows after).filter fun row => last.1 < row.1 := by
    cases after with
    | none => rfl
    | some start =>
      have hstart : start < last.1 := by simpa using (mem_filter.mp hlast).2
      simp only [rowsAfter, filter_filter]
      refine filter_congr fun row _ => ?_
      by_cases hrow : last.1 < row.1
      · simp [hrow, hstart.trans hrow]
      · simp [hrow]
  obtain ⟨_, htail, hbefore⟩ := pairwise_append.mp hsorted
  have hfront : front.filter (fun row => last.1 < row.1) = [] := by
    rw [filter_eq_nil_iff]
    intro row hrow
    simpa using le_of_lt (hbefore row hrow last mem_cons_self)
  have hback : back.filter (fun row => last.1 < row.1) = back := by
    rw [filter_eq_self]
    intro row hrow
    simpa using (pairwise_cons.mp htail).1 row hrow
  rw [hafter, hsplit, filter_append, hfront, filter_cons, hback]
  simp

/-- Visiting a stretch of rows that ascend from where the visit stands. -/
theorem visitEntry_foldlM {σ : Type} {visit : σ → Bytes32 → Bytes → Result σ}
    {front : List (Bytes32 × Bytes)} (hsorted : front.Pairwise fun a b => a.1 < b.1)
    {after : Option Bytes32} (hafter : ∀ row ∈ front, ∀ a, after = some a → a < row.1)
    (s : σ) : front.foldlM (visitEntry visit) (after, s) =
      (front.foldlM (fun s row => visit s row.1 row.2) s).map
        fun s' => ((front.getLast?.map fst).or after, s') := by
  induction front generalizing after s with
  | nil => rfl
  | cons row rest ih =>
    obtain ⟨hhead, htail⟩ := pairwise_cons.mp hsorted
    have hordered : (after.any fun previous => decide (row.1 ≤ previous)) = false := by
      cases after with
      | none => rfl
      | some a => simpa using hafter row mem_cons_self a rfl
    have hnext : ∀ row' ∈ rest, ∀ a, some row.1 = some a → a < row'.1 := by
      rintro row' hrow' a ha
      cases Option.some.inj ha
      exact hhead row' hrow'
    have hlast : ((row :: rest).getLast?.map fst).or after =
        (rest.getLast?.map fst).or (some row.1) := by
      rw [getLast?_cons]
      cases rest.getLast? <;> rfl
    have hentry : visitEntry visit (after, s) row =
        (visit s row.1 row.2).bind fun next => .ok (some row.1, next) := by
      unfold visitEntry
      simp only [hordered]
      rfl
    rw [foldlM_cons, foldlM_cons, hlast, hentry]
    cases visit s row.1 row.2 with
    | error => rfl
    | ok next => exact ih htail hnext next

/-- **A visit is the plain loop over the rows,** where every row fits a page, and
fails where one does not. -/
theorem visitPages_ok {σ : Type} (hentries : limits.maxEntries ≠ 0)
    {visit : σ → Bytes32 → Bytes → Result σ} {fuel : Nat} {after : Option Bytes32}
    {s s' : σ} (hfuel : (rowsAfter rows after).length < fuel) :
    visitPages rows limits visit fuel (after, s) = .ok s' ↔
      64 ≤ limits.maxBytes ∧ FitPage limits (rowsAfter rows after) ∧
        (rowsAfter rows after).foldlM (fun s row => visit s row.1 row.2) s = .ok s' := by
  induction fuel generalizing after s with
  | zero => exact absurd hfuel (not_lt_zero _)
  | succ fuel ih =>
    rw [visitPages, bind_ok]
    by_cases hbytes : limits.maxBytes < 64
    · simp only [pageVertexUnderlyingFixed, if_pos (.inr hbytes : _ ∨ limits.maxBytes < 64)]
      simp only [reduceCtorEq, false_and, exists_false, false_iff, not_and]
      omega
    have hpage : pageVertexUnderlyingFixed rows after limits =
        fillPage limits [] 0 (rowsAfter rows after) := by
      simp [pageVertexUnderlyingFixed, hentries, hbytes]
    rw [hpage]
    cases hfill : fillPage limits [] 0 (rowsAfter rows after) with
    | error =>
      have hover := fillPage_error (fun _ => rfl) hfill
      simp [hover]
    | ok =>
      obtain ⟨front, back, hsplit, rfl, hfit, hsome⟩ := fillPage_ok hentries hfill
      simp only [Except.ok.injEq, exists_eq_left', nil_append]
      have hprogress : (!back.isEmpty && front.isEmpty) = false := by
        cases back with
        | nil => rfl
        | cons =>
          cases front with
          | nil => exact absurd rfl (hsome (by simp))
          | cons => rfl
      have hsorted := sorted_rowsAfter rows after
      rw [hsplit] at hsorted
      have hafter : ∀ row ∈ front, ∀ a, after = some a → a < row.1 := by
        rintro row hrow a rfl
        have hmem : row ∈ rowsAfter rows (some a) := by
          rw [hsplit]
          exact mem_append_left _ hrow
        simpa using (mem_filter.mp hmem).2
      have hfits : FitPage limits (front ++ back) ↔ FitPage limits back := by
        unfold FitPage
        rw [forall_mem_append]
        exact ⟨fun h => h.2, fun h => ⟨hfit, h⟩⟩
      simp only [hprogress, Bool.false_eq_true, if_false]
      rw [visitEntry_foldlM (pairwise_append.mp hsorted).1 hafter, hsplit, foldlM_append, hfits]
      cases front.foldlM (fun s row => visit s row.1 row.2) s with
      | error => simp [Except.map, bind, Except.bind]
      | ok s₁ =>
        simp only [Except.map, bind, Except.bind]
        cases back with
        | nil => simp [FitPage, pure, Except.pure, Nat.le_of_not_lt hbytes]
        | cons next rest =>
          obtain ⟨init, last, rfl⟩ := (eq_nil_or_concat front).resolve_left
            (by simpa using hsome (by simp))
          rw [concat_eq_append] at hsplit ⊢
          have hrest : rowsAfter rows (some last.1) = next :: rest :=
            rowsAfter_of_append (hsplit.trans (append_assoc init [last] _))
          have hnext := @ih (some last.1) s₁ (by
            have hall := congrArg length hsplit
            rw [hrest]
            simp only [length_append, length_singleton] at hall
            omega)
          rw [hrest] at hnext
          simpa using hnext

theorem visitRegistryVertices_ok {σ : Type} (hentries : limits.maxEntries ≠ 0)
    {visit : σ → Bytes32 → Bytes → Result σ} {s s' : σ} :
    visitRegistryVertices rows limits visit s = .ok s' ↔
      64 ≤ limits.maxBytes ∧ FitPage limits rows.entries ∧
        rows.entries.foldlM (fun s row => visit s row.1 row.2) s = .ok s' :=
  visitPages_ok hentries (lt_succ_self _)

section Rows

variable (rows : OrdMap Bytes32 Bytes) (addr : Bytes32)

/-- The rows from an address on. -/
theorem rowsAfter_before : rowsAfter rows (if addr = 0 then none else some (addr - 1)) =
      rows.entries.filter fun row => addr ≤ row.1 := by
  split
  · rename_i hzero
    subst hzero
    refine (filter_eq_self.mpr fun row _ => ?_).symm
    simp [BitVec.le_def]
  · rename_i hpos
    refine filter_congr fun row _ => ?_
    have hnat : addr.toNat ≠ 0 := fun h => hpos (BitVec.eq_of_toNat_eq h)
    have hone : (1 : Bytes32).toNat = 1 := rfl
    have hsub : (addr - 1).toNat = addr.toNat - 1 :=
      BitVec.toNat_sub_of_le (by rw [BitVec.le_def, hone]; omega)
    simp only [decide_eq_decide, BitVec.lt_def, BitVec.le_def, hsub]
    omega

/-- The head of the rows from an address on is its own row, if it has one. -/
theorem get?_eq_head :
    rows.get? addr = (((rows.entries.filter fun row => addr ≤ row.1).head?).filter
      fun row => row.1 = addr).map snd := by
  apply Option.ext
  intro data
  rw [← OrdMap.mem_entries_iff]
  have hsorted := rows.sorted.filter fun row => decide (addr ≤ row.1)
  constructor
  · intro hmem
    have hin : (addr, data) ∈ rows.entries.filter fun row => addr ≤ row.1 :=
      mem_filter.mpr ⟨hmem, by simp⟩
    cases hlist : rows.entries.filter fun row => addr ≤ row.1 with
    | nil =>
      rw [hlist] at hin
      cases hin
    | cons row =>
      rw [hlist] at hin hsorted
      rcases mem_cons.mp hin with rfl | hrest
      · simp
      have hlt := (pairwise_cons.mp hsorted).1 _ hrest
      have hrow : row ∈ rows.entries.filter fun row => addr ≤ row.1 := by
        rw [hlist]
        exact mem_cons_self
      have hle : addr ≤ row.1 := by simpa using (mem_filter.mp hrow).2
      exact absurd hlt (not_lt.mpr hle)
  · intro h
    obtain ⟨row, hrow, rfl⟩ := Option.map_eq_some_iff.mp h
    obtain ⟨hhead, hkey⟩ := Option.filter_eq_some_iff.mp hrow
    have hmem := (mem_filter.mp (mem_of_mem_head? hhead)).1
    have hkey : row.1 = addr := by simpa using hkey
    rwa [← hkey]

/-- A page of one row. -/
theorem readRow_eq (limits : VertexPageLimits) : readRow rows addr limits =
      if limits.maxBytes < 64 then .error (.invalidArgument "invalid vertex page limits")
      else match rows.entries.filter fun row => addr ≤ row.1 with
        | [] => .ok none
        | row :: _ =>
          if limits.maxBytes < 64 + row.2.length then
            .error (.invalidArgument "vertex row exceeds page byte limit")
          else .ok (if row.1 = addr then some row.2 else none) := by
  unfold readRow pageVertexUnderlyingFixed
  simp only [rowsAfter_before]
  split
  · rename_i hbad
    have hbytes : limits.maxBytes < 64 := by simpa using hbad
    rw [if_pos hbytes]
    rfl
  · rename_i hgood
    have hbytes : ¬ limits.maxBytes < 64 := by simpa using hgood
    rw [if_neg hbytes]
    cases hlist : rows.entries.filter fun row => addr ≤ row.1 with
    | nil => rfl
    | cons row rest =>
      by_cases hover : limits.maxBytes < 64 + row.2.length
      · simp only [fillPage, zero_add, hover]
        rfl
      have hpage : fillPage ⟨1, limits.maxBytes⟩ [] 0 (row :: rest) =
          .ok ⟨[row], !rest.isEmpty⟩ := by
        cases rest <;> simp [fillPage, hover]
      rw [hpage]
      simp only [if_neg hover]
      obtain ⟨key, _⟩ := row
      by_cases hkey : key = addr
      · subst hkey
        simp [pure, Except.pure, bind, Except.bind]
      · simp [hkey, pure, Except.pure, bind, Except.bind]

end Rows

/-- **A row is read as it is stored,** and then fits a page. -/
theorem readRow_ok {addr : Bytes32} {o : Option Bytes} (h : readRow rows addr limits = .ok o) :
    o = rows.get? addr ∧ ∀ data, o = some data → 64 + data.length ≤ limits.maxBytes := by
  rw [readRow_eq] at h
  rw [get?_eq_head]
  split at h
  · cases h
  · cases hlist : rows.entries.filter fun row => addr ≤ row.1 with
    | nil =>
      rw [hlist] at h
      cases ok.inj h
      exact ⟨rfl, (fun _ h => nomatch h)⟩
    | cons row =>
      simp only [hlist] at h
      split at h
      · cases h
      rename_i hfits
      cases ok.inj h
      obtain ⟨key, _⟩ := row
      by_cases hkey : key = addr
      · subst hkey
        refine ⟨by simp, fun data hdata => ?_⟩
        rw [if_pos rfl] at hdata
        rw [← Option.some.inj hdata]
        exact Nat.le_of_not_lt hfits
      · refine ⟨by simp [hkey], fun data hdata => ?_⟩
        rw [if_neg hkey] at hdata
        cases hdata

/-- A row fails to be read only where a visit of all rows fails. -/
theorem readRow_error {addr : Bytes32} {e : QuilError}
    (h : readRow rows addr limits = .error e) :
    ¬ (64 ≤ limits.maxBytes ∧ FitPage limits rows.entries) := by
  rintro ⟨hbytes, hfit⟩
  rw [readRow_eq, if_neg (not_lt.mpr hbytes)] at h
  cases hlist : rows.entries.filter fun row => addr ≤ row.1 with
  | nil =>
    rw [hlist] at h
    cases h
  | cons row =>
    have hfrom : row ∈ rows.entries.filter fun row => addr ≤ row.1 := by
      rw [hlist]
      exact mem_cons_self
    have hrow := hfit row (mem_filter.mp hfrom).1
    simp only [hlist, if_neg (not_lt.mpr hrow)] at h
    cases h

end Registry

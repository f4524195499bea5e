import QuilNode.Basic
import QuilNode.Lib.Results

/-!
# What building a registry may cost

A refresh of the prover registry charges every row it reads and every cache entry it makes against
limits.  Charges only grow, so a sequence of charges goes through exactly where the sum of them is
admitted.

Sizes and counters are natural numbers; the source's `checked_add` and `saturating_add` are the
sum for anything that fits in memory.
-/

namespace Registry

open Results List Nat

/-- `RegistryLimits`. -/
structure RegistryLimits where
  maxVertices : Nat
  maxRecordBytes : Nat
  maxInputBytes : Nat
  maxCacheEntries : Nat
  maxCacheBytes : Nat
  deriving DecidableEq

/-- `RegistryLimits::max`: the larger of each limit. -/
def RegistryLimits.max (self other : RegistryLimits) : RegistryLimits where
  maxVertices := Nat.max self.maxVertices other.maxVertices
  maxRecordBytes := Nat.max self.maxRecordBytes other.maxRecordBytes
  maxInputBytes := Nat.max self.maxInputBytes other.maxInputBytes
  maxCacheEntries := Nat.max self.maxCacheEntries other.maxCacheEntries
  maxCacheBytes := Nat.max self.maxCacheBytes other.maxCacheBytes

/-- `VertexPageLimits`. -/
structure VertexPageLimits where
  maxEntries : Nat
  maxBytes : Nat
  deriving DecidableEq

/-- `usize::clamp`. -/
def clamp (n low high : Nat) : Nat := if n < low then low else if high < n then high else n

/-- `RegistryLimits::page`. -/
def RegistryLimits.page (limits : RegistryLimits) : VertexPageLimits where
  maxEntries := clamp limits.maxVertices 1 256
  maxBytes := clamp (Nat.min limits.maxInputBytes limits.maxRecordBytes) 1 (16 <<< 20)

/-- A page always holds an entry. -/
theorem RegistryLimits.page_maxEntries_pos (limits : RegistryLimits) :
    0 < limits.page.maxEntries := by
  simp only [page, clamp]
  split
  · omega
  · split <;> omega

theorem clamp_mono {n m : Nat} (h : n ≤ m) (low high : Nat) (hlow : low ≤ high) :
    clamp n low high ≤ clamp m low high := by
  unfold clamp
  split_ifs <;> omega

/-- Raised limits never shrink a page. -/
theorem RegistryLimits.page_maxBytes_le_max (limits other : RegistryLimits) :
    limits.page.maxBytes ≤ (limits.max other).page.maxBytes ∧
      other.page.maxBytes ≤ (limits.max other).page.maxBytes := by
  constructor
  · exact clamp_mono (Nat.le_min.mpr ⟨(Nat.min_le_left ..).trans (Nat.le_max_left ..),
      (min_le_right ..).trans (le_max_left ..)⟩) _ _ (by decide)
  · exact clamp_mono (Nat.le_min.mpr ⟨(Nat.min_le_left ..).trans (Nat.le_max_right ..),
      (min_le_right ..).trans (le_max_right ..)⟩) _ _ (by decide)

/-- `RegistryUsage`. -/
@[ext] structure RegistryUsage where
  vertices : Nat
  inputBytes : Nat
  cacheEntries : Nat
  cacheBytes : Nat
  deriving DecidableEq

namespace RegistryUsage

/-- `RegistryUsage::plus`. -/
def plus (self other : RegistryUsage) : RegistryUsage where
  vertices := self.vertices + other.vertices
  inputBytes := self.inputBytes + other.inputBytes
  cacheEntries := self.cacheEntries + other.cacheEntries
  cacheBytes := self.cacheBytes + other.cacheBytes

instance : Add RegistryUsage := ⟨plus⟩

/-- `RegistryUsage::default`. -/
instance : Zero RegistryUsage := ⟨⟨0, 0, 0, 0⟩⟩

variable (a b : RegistryUsage)

theorem plus_eq : a.plus b = a + b := rfl

@[simp] theorem add_vertices : (a + b).vertices = a.vertices + b.vertices := rfl
@[simp] theorem add_inputBytes : (a + b).inputBytes = a.inputBytes + b.inputBytes := rfl
@[simp] theorem add_cacheEntries : (a + b).cacheEntries = a.cacheEntries + b.cacheEntries := rfl
@[simp] theorem add_cacheBytes : (a + b).cacheBytes = a.cacheBytes + b.cacheBytes := rfl
@[simp] theorem zero_vertices : (0 : RegistryUsage).vertices = 0 := rfl
@[simp] theorem zero_inputBytes : (0 : RegistryUsage).inputBytes = 0 := rfl
@[simp] theorem zero_cacheEntries : (0 : RegistryUsage).cacheEntries = 0 := rfl
@[simp] theorem zero_cacheBytes : (0 : RegistryUsage).cacheBytes = 0 := rfl

instance : AddCommMonoid RegistryUsage where
  add_assoc a b c := by ext <;> simp [Nat.add_assoc]
  zero_add a := by ext <;> simp
  add_zero a := by ext <;> simp
  add_comm a b := by ext <;> simp [Nat.add_comm]
  nsmul := nsmulRec

theorem add_right_cancel {a b c : RegistryUsage} (h : a + c = b + c) : a = b := by
  have hvertices := congrArg vertices h
  have hinput := congrArg inputBytes h
  have hentries := congrArg cacheEntries h
  have hbytes := congrArg cacheBytes h
  simp only [add_vertices, add_inputBytes, add_cacheEntries, add_cacheBytes] at *
  ext <;> omega

/-- `RegistryUsage::checked_minus`. -/
def checkedMinus (self other : RegistryUsage) : Option RegistryUsage :=
  if other.vertices ≤ self.vertices ∧ other.inputBytes ≤ self.inputBytes ∧
      other.cacheEntries ≤ self.cacheEntries ∧ other.cacheBytes ≤ self.cacheBytes then
    some ⟨self.vertices - other.vertices, self.inputBytes - other.inputBytes,
      self.cacheEntries - other.cacheEntries, self.cacheBytes - other.cacheBytes⟩
  else none

/-- A checked subtraction that succeeds is exact. -/
theorem checkedMinus_some {self other rest : RegistryUsage}
    (h : self.checkedMinus other = some rest) : rest + other = self := by
  unfold checkedMinus at h
  split at h
  · cases h
    ext <;> simp <;> omega
  · cases h

end RegistryUsage

open RegistryUsage (add_vertices add_inputBytes add_cacheEntries add_cacheBytes)

/-- `registry_budget::limit`. -/
def limit : QuilError := .executionUnavailable "execution registry resource limit"

/-- `RegistryBudget::row_charge`. -/
def rowCharge (limits : RegistryLimits) (key value : Nat) : Option RegistryUsage :=
  if key + value ≤ limits.maxRecordBytes then some ⟨1, key + value + 128, 0, 0⟩ else none

/-- What reading a row costs. -/
def rowCost (key value : Nat) : RegistryUsage := ⟨1, key + value + 128, 0, 0⟩

variable {limits : RegistryLimits}

/-- A row is charged its cost if it fits the record limit. -/
theorem rowCharge_eq_some {key value : Nat} {usage : RegistryUsage} :
    rowCharge limits key value = some usage ↔
      key + value ≤ limits.maxRecordBytes ∧ usage = rowCost key value := by
  unfold rowCharge
  split
  · rename_i h
    simp [h, rowCost, eq_comm]
  · rename_i h
    simp [h]

/-- `cache_charge`. -/
def cacheCharge (entries : Nat) (lengths : List Nat) : RegistryUsage :=
  ⟨0, 0, entries, lengths.foldl (· + ·) 0⟩

/-- `RegistryBudget::admits`. -/
def admits (limits : RegistryLimits) (usage : RegistryUsage) : Bool :=
  usage.vertices ≤ limits.maxVertices && usage.inputBytes ≤ limits.maxInputBytes &&
    usage.cacheEntries ≤ limits.maxCacheEntries && usage.cacheBytes ≤ limits.maxCacheBytes

/-- Usage is admitted when each of its four counts is. -/
theorem admits_iff {usage : RegistryUsage} :
    admits limits usage = true ↔ usage.vertices ≤ limits.maxVertices ∧
      usage.inputBytes ≤ limits.maxInputBytes ∧ usage.cacheEntries ≤ limits.maxCacheEntries ∧
      usage.cacheBytes ≤ limits.maxCacheBytes := by
  simp [admits, and_assoc]

/-- Limits that admit a sum admit its parts. -/
theorem admits_of_add {a b : RegistryUsage} (h : admits limits (a + b) = true) :
    admits limits a = true := by
  rw [admits_iff] at h ⊢
  simp only [add_vertices, add_inputBytes, add_cacheEntries, add_cacheBytes] at h
  omega

/-- Raised limits admit what the lower ones did. -/
theorem admits_max {other : RegistryLimits} {usage : RegistryUsage} (h : admits other usage = true) :
    admits (limits.max other) usage = true := by
  rw [admits_iff] at h ⊢
  exact ⟨le_trans h.1 (le_max_right ..), le_trans h.2.1 (le_max_right ..),
    le_trans h.2.2.1 (le_max_right ..), le_trans h.2.2.2 (le_max_right ..)⟩

/-- `RegistryBudget`. -/
structure RegistryBudget where
  limits : RegistryLimits
  usage : RegistryUsage

namespace RegistryBudget

/-- `RegistryBudget::input`. -/
def input (budget : RegistryBudget) (key value : Nat) (vertex : Bool) : Result RegistryBudget :=
  let bytes := key + value
  if budget.limits.maxRecordBytes < bytes then .error limit
  else
    let total := budget.usage.inputBytes + bytes + 128
    let count := budget.usage.vertices + if vertex then 1 else 0
    if budget.limits.maxInputBytes < total ∨ budget.limits.maxVertices < count then .error limit
    else .ok { budget with usage := { budget.usage with vertices := count, inputBytes := total } }

/-- `RegistryBudget::charge`; `cache` charges the same counters. -/
def charge (budget : RegistryBudget) (charge : RegistryUsage) : Result RegistryBudget :=
  let bytes := budget.usage.cacheBytes + charge.cacheBytes
  let count := budget.usage.cacheEntries + charge.cacheEntries
  if budget.limits.maxCacheBytes < bytes ∨ budget.limits.maxCacheEntries < count then .error limit
  else .ok { budget with usage := { budget.usage with cacheBytes := bytes, cacheEntries := count } }

/-- `RegistryBudget::new`: the caches themselves cost 4096 bytes. -/
def new (limits : RegistryLimits) : Result RegistryBudget :=
  charge ⟨limits, 0⟩ (cacheCharge 0 [4096])

/-- A budget whose usage its limits admit. -/
def Sound (budget : RegistryBudget) : Prop := admits budget.limits budget.usage = true

/-- The budget after `spent` more. -/
def spend (budget : RegistryBudget) (spent : RegistryUsage) : RegistryBudget :=
  { budget with usage := budget.usage + spent }

@[simp] theorem spend_zero (budget : RegistryBudget) : budget.spend 0 = budget := by
  simp [spend]

/-- Two charges are one charge of their sum. -/
@[simp] theorem spend_spend (budget : RegistryBudget) (a b : RegistryUsage) :
    (budget.spend a).spend b = budget.spend (a + b) := by
  simp [spend, add_assoc]

/-- A row is read where it is no larger than a record may be and its charge is admitted. -/
theorem input_ok {budget budget' : RegistryBudget} (hsound : budget.Sound) {key value : Nat} :
    budget.input key value true = .ok budget' ↔
      key + value ≤ budget.limits.maxRecordBytes ∧ (budget.spend (rowCost key value)).Sound ∧
        budget' = budget.spend (rowCost key value) := by
  have hnow := admits_iff.mp hsound
  unfold input rowCost
  simp only [Sound, admits_iff, spend, add_vertices, add_inputBytes,
    add_cacheEntries, add_cacheBytes, if_true]
  split
  · simp only [reduceCtorEq, false_iff, not_and]
    omega
  split
  · simp only [reduceCtorEq, false_iff, not_and]
    omega
  constructor
  · intro h
    refine ⟨by omega, by omega, ?_⟩
    rw [← Except.ok.inj h]
    rfl
  · rintro ⟨_, _, rfl⟩
    rfl

/-- A cache entry is made where its charge is admitted. -/
theorem charge_ok {budget budget' : RegistryBudget} (hsound : budget.Sound) {entries : Nat}
    {lengths : List Nat} : budget.charge (cacheCharge entries lengths) = .ok budget' ↔
      (budget.spend (cacheCharge entries lengths)).Sound ∧
        budget' = budget.spend (cacheCharge entries lengths) := by
  have hnow := admits_iff.mp hsound
  unfold charge
  simp only [Sound, admits_iff, spend, add_vertices, add_inputBytes,
    add_cacheEntries, add_cacheBytes]
  split
  · simp only [reduceCtorEq, false_iff, not_and]
    omega
  have hfits : budget.usage.vertices + (cacheCharge entries lengths).vertices ≤
      budget.limits.maxVertices := hnow.1
  have hbytes : budget.usage.inputBytes + (cacheCharge entries lengths).inputBytes ≤
      budget.limits.maxInputBytes := hnow.2.1
  constructor
  · intro h
    refine ⟨by omega, ?_⟩
    rw [← Except.ok.inj h]
    rfl
  · rintro ⟨_, rfl⟩
    rfl

/-- A new budget is charged the base cache of 4096 bytes. -/
theorem new_ok {budget : RegistryBudget} :
    new limits = .ok budget ↔ (spend ⟨limits, 0⟩ (cacheCharge 0 [4096])).Sound ∧
      budget = spend ⟨limits, 0⟩ (cacheCharge 0 [4096]) :=
  charge_ok (by simp [Sound, admits])

/-- **A loop that charges goes through exactly where all its charges together are admitted.** -/
theorem foldlM_ok {σ ι : Type} {step : RegistryBudget × σ → ι → Result (RegistryBudget × σ)}
    {next : σ → ι → σ} {Fits : RegistryLimits → ι → Prop} {cost : ι → RegistryUsage}
    (hstep : ∀ budget s i out, budget.Sound → (step (budget, s) i = .ok out ↔
      Fits budget.limits i ∧ (budget.spend (cost i)).Sound ∧
        out = (budget.spend (cost i), next s i)))
    {items : List ι} {budget : RegistryBudget} (hsound : budget.Sound) {s : σ}
    {out : RegistryBudget × σ} : items.foldlM step (budget, s) = .ok out ↔
      (∀ i ∈ items, Fits budget.limits i) ∧ (budget.spend (items.map cost).sum).Sound ∧
        out = (budget.spend (items.map cost).sum, items.foldl next s) := by
  induction items generalizing budget s with
  | nil =>
    rw [foldlM_nil, pure_ok]
    simp [hsound, eq_comm]
  | cons i items ih =>
    rw [foldlM_cons, bind_ok, map_cons, sum_cons, ← spend_spend, forall_mem_cons, foldl_cons]
    constructor
    · rintro ⟨mid, hi, hrest⟩
      obtain ⟨hfits, hmid, rfl⟩ := (hstep budget s i mid hsound).mp hi
      obtain ⟨hall, hend, hout⟩ := (ih hmid).mp hrest
      exact ⟨⟨hfits, hall⟩, hend, hout⟩
    · rintro ⟨⟨hfits, hall⟩, hend, hout⟩
      have hmid : (budget.spend (cost i)).Sound := admits_of_add hend
      exact ⟨(budget.spend (cost i), next s i), (hstep budget s i _ hsound).mpr ⟨hfits, hmid, rfl⟩,
        (ih hmid).mpr ⟨hall, hend, hout⟩⟩

end RegistryBudget

end Registry

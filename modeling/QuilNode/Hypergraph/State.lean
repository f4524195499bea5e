import QuilNode.Hypergraph.Crdt

/-!
# Message changesets (`quil-execution/src/hypergraph_state.rs`)

Execution appends state changes to a changeset, reads its own changes back before the CRDT, and
publishes the changeset as one batch of mutations.  The two views of a location are `State.view`,
what a read returns, and `State.pendingCell`, what the cell will hold once the changeset is
published; a publication goes by the domain's first 32 bytes.
-/

namespace Hypergraph

open Results List Option Except Cell

/-- A domain as callers pass it: its first 32 bytes, if it has as many, and what
follows them. -/
structure Domain where
  application : Option Bytes32
  rest : Bytes
  deriving DecidableEq

open Domain

/-- A domain of exactly 32 bytes. -/
def Domain.of (application : Bytes32) : Domain := ⟨some application, []⟩

/-- The bytes of a domain. -/
def Domain.bytes (domain : Domain) : Bytes :=
  ((domain.application.map Bytes32.bytes).getD []) ++ domain.rest

/-- The metadata address of every domain. -/
def metadataAddress : Bytes32 := BitVec.allOnes 256

inductive StateChangeEvent where
  | create
  | update
  | delete
  deriving DecidableEq

structure StateChange where
  domain : Domain
  address : Bytes32
  discriminator : Phase
  event : StateChangeEvent
  value : Bytes

inductive ExecutionChange where
  | state (change : StateChange)
  | record (key : Bytes) (value : Option Bytes)

open ExecutionChange

/-- `HypergraphState`: the CRDT and the changeset over it, oldest change first. -/
structure State where
  crdt : Crdt
  changeset : List ExecutionChange

/-- `location_from_domain_address`. -/
def location (domain : Domain) (addr : Bytes32) : Result Location :=
  match domain.application with
  | none => .error (.invalidArgument
      "HypergraphState: domain and address must be at least 32 bytes")
  | some application => .ok ⟨application, addr⟩

/-- The value of a change with this domain, address and discriminator. -/
def ExecutionChange.valueAt (domain : Domain) (addr : Bytes32) (discriminator : Phase) :
    ExecutionChange → Option Bytes
  | .state c =>
    if c.domain = domain ∧ c.address = addr ∧ c.discriminator = discriminator then
      some c.value
    else none
  | .record _ _ => none

/-- The newest pending value. -/
def pendingValue (changeset : List ExecutionChange) (domain : Domain) (addr : Bytes32)
    (discriminator : Phase) : Option Bytes :=
  changeset.reverse.findSome? (ExecutionChange.valueAt domain addr discriminator)

namespace State

/-- `get`: the changeset, newest first, then the CRDT. -/
def get (s : State) (faults : Faults) (domain : Domain) (addr : Bytes32)
    (discriminator : Phase) : Result (Option Bytes) :=
  match pendingValue s.changeset domain addr discriminator with
  | some value => .ok (some value)
  | none =>
    match discriminator.side with
    | .adds => do
      let loc ← location domain addr
      s.crdt.getDataChecked faults discriminator.kind loc
    | .removes => .error (.invalidArgument "HypergraphState::get: invalid discriminator")

/-- `set`: append a creation or an update. -/
def set (s : State) (faults : Faults) (domain : Domain) (addr : Bytes32)
    (discriminator : Phase) (value : Bytes) : Result State := do
  let loc ← location domain addr
  match discriminator.side with
  | .adds =>
    let existing ← s.crdt.getDataChecked faults discriminator.kind loc
    let event := if existing.isSome then StateChangeEvent.update else .create
    return { s with changeset :=
      s.changeset ++ [.state ⟨domain, addr, discriminator, event, value⟩] }
  | .removes => .error (.invalidArgument "HypergraphState::set: invalid discriminator")

/-- `delete`: append a deletion. -/
def delete (s : State) (domain : Domain) (addr : Bytes32) (discriminator : Phase) : State :=
  { s with changeset := s.changeset ++ [.state ⟨domain, addr, discriminator, .delete, []⟩] }

/-- `abort`. -/
def abort (s : State) : State := { s with changeset := [] }

/-- `rollback_to`: drop the changes after a savepoint. -/
def rollbackTo (s : State) (savepoint : Nat) : State :=
  { s with changeset := if savepoint < s.changeset.length then s.changeset.take savepoint
                        else s.changeset }

end State

/-- The mutation a change stands for; a location the node does not cover has none. -/
def ExecutionChange.mutation (config : CrdtConfig) : ExecutionChange → Result (Option Mutation)
  | .record key value => .ok (some (.record key value))
  | .state c => do
    let loc ← location c.domain c.address
    if !config.covers loc then
      return none
    return match c.discriminator.side, c.event with
      | .adds, .delete => none
      | .adds, _ => some (.add c.discriminator.kind loc c.value)
      | .removes, _ => some (.remove c.discriminator.kind loc)

/-- The mutations of a changeset, in order. -/
def changesetMutations (config : CrdtConfig) : List ExecutionChange → Result (List Mutation)
  | [] => .ok []
  | x :: xs => do
    let m ← x.mutation config
    let ms ← changesetMutations config xs
    return m.toList ++ ms

/-- `commit`: publish the changeset to the CRDT's staging area, whole or not at all.  It stays;
callers clear it with `abort`. -/
def State.commit (s : State) (config : CrdtConfig) (faults : Faults) : Result State := do
  let mutations ← changesetMutations config s.changeset
  let crdt ← s.crdt.applyMutations config faults mutations
  return { s with crdt := crdt }

/-- `require_full_domain_coverage`: the covered prefix lies within the domain's path without its
last group, which straddles the data address. -/
def requireFullDomainCoverage (config : CrdtConfig) (domain : Bytes32) : Result Unit :=
  if 256 / 6 < config.coveredPrefix.length ∨
      (fullPath (Bytes32.bits domain)).take config.coveredPrefix.length ≠ config.coveredPrefix then
    .error (.executionUnavailable "operation requires complete domain coverage")
  else .ok ()

/-- A group of bits that ends within the first part of a key is a group of that
part. -/
theorem nextNibble_append {key : List Bool} {pos : Nat} (rest : List Bool)
    (h : pos + 6 ≤ key.length) : nextNibble (key ++ rest) pos = nextNibble key pos := by
  unfold nextNibble
  have hpos : pos ≤ key.length := by omega
  have hgroup : 6 ≤ (key.drop pos).length := by
    rw [length_drop]
    omega
  rw [drop_append_of_le_length hpos, take_append_of_le_length hgroup]

/-- A domain that is completely covered has all of its locations covered. -/
theorem covers_of_fullDomainCoverage {config : CrdtConfig} {domain : Bytes32}
    (h : requireFullDomainCoverage config domain = .ok ()) (addr : Bytes32) :
    config.covers ⟨domain, addr⟩ = true := by
  unfold requireFullDomainCoverage at h
  split at h
  · cases h
  rename_i hcovered
  obtain ⟨_, hpath⟩ := not_or.mp hcovered
  have hpath := not_not.mp hpath
  have htake : (Location.path ⟨domain, addr⟩).take config.coveredPrefix.length =
      config.coveredPrefix := by
    rw [← hpath]
    simp only [Location.path, fullPath, length_append, Bytes32.bits_length, ← map_take,
      take_range, length_map, length_range]
    rw [show min (min config.coveredPrefix.length ((256 + 5) / 6)) ((256 + 256 + 5) / 6) =
      min config.coveredPrefix.length ((256 + 5) / 6) by omega]
    apply map_congr_left
    intro i hi
    have hi := mem_range.mp hi
    apply nextNibble_append
    rw [Bytes32.bits_length]
    omega
  unfold CrdtConfig.covers
  rw [Bool.or_eq_true, decide_eq_true_eq]
  exact .inr (htake ▸ take_prefix _ _)

/-- What a read of the adds set returns. -/
def State.view (s : State) (kind : Kind) (application addr : Bytes32) : Option Bytes :=
  (pendingValue s.changeset (Domain.of application) addr ⟨kind, .adds⟩).or
    (s.crdt.cell kind ⟨application, addr⟩).visible

/-- The change is published to this cell. -/
def ExecutionChange.Touches (kind : Kind) (loc : Location) : ExecutionChange → Prop
  | .state c => c.discriminator.kind = kind ∧ c.domain.application = some loc.application ∧
      c.address = loc.data
  | .record _ _ => False

instance (kind : Kind) (loc : Location) (x : ExecutionChange) : Decidable (x.Touches kind loc) := by
  cases x <;> unfold ExecutionChange.Touches <;> infer_instance

/-- What publishing the change does to a cell. -/
def ExecutionChange.onCell (kind : Kind) (loc : Location) (cell : Cell) : ExecutionChange → Cell
  | .state c =>
    if ExecutionChange.Touches kind loc (.state c) then
      match c.discriminator.side, c.event with
      | .adds, .delete => cell
      | .adds, _ => cell.add kind c.value
      | .removes, _ => cell.remove
    else cell
  | .record _ _ => cell

/-- The cell once the changeset is published. -/
def State.pendingCell (s : State) (kind : Kind) (loc : Location) : Cell :=
  s.changeset.foldl (fun cell x => x.onCell kind loc cell) (s.crdt.cell kind loc)

variable {application addr : Bytes32}

section Views

variable {s s' : State} {config : CrdtConfig} {faults : Faults} {kind : Kind} {loc : Location}

theorem pendingValue_concat (changeset : List ExecutionChange) (x : ExecutionChange)
    (domain : Domain) (addr : Bytes32) (discriminator : Phase) :
    pendingValue (changeset ++ [x]) domain addr discriminator =
      (x.valueAt domain addr discriminator).or
        (pendingValue changeset domain addr discriminator) := by
  unfold pendingValue
  rw [reverse_append, reverse_singleton, singleton_append, findSome?_cons]
  cases x.valueAt domain addr discriminator <;> rfl

/-- A read returns the view. -/
theorem State.get_ok {value : Option Bytes}
    (h : s.get faults (of application) addr ⟨kind, .adds⟩ = .ok value) :
    value = s.view kind application addr := by
  unfold State.get at h
  unfold State.view
  split at h
  · rename_i v hv
    rw [hv, ← ok.inj h]
    rfl
  · rename_i hv
    rw [hv, none_or]
    exact getDataChecked_ok h

variable {x : ExecutionChange}

/-- A change that does not touch the location is not read there. -/
theorem valueAt_of_not_touches (h : ¬ x.Touches kind ⟨application, addr⟩) :
    x.valueAt (of application) addr ⟨kind, .adds⟩ = none := by
  cases x with
  | record => rfl
  | state =>
    refine if_neg ?_
    rintro ⟨hdomain, haddress, hdisc⟩
    exact h ⟨by rw [hdisc], by rw [hdomain]; rfl, haddress⟩

theorem onCell_of_not_touches (cell : Cell) (h : ¬ x.Touches kind loc) :
    x.onCell kind loc cell = cell := by
  cases x with
  | record => rfl
  | state => exact if_neg h

/-- `s'` is `s` with one more change. -/
def Pushed (s : State) (x : ExecutionChange) (s' : State) : Prop :=
  s'.crdt = s.crdt ∧ s'.changeset = s.changeset ++ [x]

theorem Pushed.view_of_not_touches (h : Pushed s x s')
    (hx : ¬ x.Touches kind ⟨application, addr⟩) :
    s'.view kind application addr = s.view kind application addr := by
  unfold State.view
  rw [h.1, h.2, pendingValue_concat, valueAt_of_not_touches hx, none_or]

theorem Pushed.pendingCell (h : Pushed s x s') :
    s'.pendingCell kind loc = x.onCell kind loc (s.pendingCell kind loc) := by
  unfold State.pendingCell
  rw [h.1, h.2, foldl_append]
  rfl

theorem State.set_ok {domain : Domain} {value : Bytes}
    (h : s.set faults domain addr ⟨kind, .adds⟩ value = .ok s') :
    ∃ event, event ≠ .delete ∧
      Pushed s (.state ⟨domain, addr, ⟨kind, .adds⟩, event, value⟩) s' := by
  obtain ⟨_, -, h⟩ := bind_ok.mp h
  obtain ⟨existing, -, h⟩ := bind_ok.mp h
  refine ⟨if existing.isSome then StateChangeEvent.update else .create, ?_, ?_⟩
  · split <;> simp
  · rw [← pure_ok.mp h]
    exact ⟨rfl, rfl⟩

theorem State.delete_pushed (s : State) (domain : Domain) (addr : Bytes32)
    (discriminator : Phase) :
    Pushed s (.state ⟨domain, addr, discriminator, .delete, []⟩)
      (s.delete domain addr discriminator) := ⟨rfl, rfl⟩

/-- A value set at a 32-byte domain is read back there. -/
theorem Pushed.view_self {event : StateChangeEvent} {value : Bytes}
    (h : Pushed s (.state ⟨of application, addr, ⟨kind, .adds⟩, event, value⟩) s') :
    s'.view kind application addr = some value := by
  unfold State.view
  rw [h.2, pendingValue_concat]
  simp [valueAt]

theorem mutation_onCell {m : Option Mutation} (h : x.mutation config = .ok m)
    (hcovered : config.covers loc = true) (cell : Cell) :
    m.toList.foldl (fun cell m => cell.apply kind loc m) cell = x.onCell kind loc cell := by
  cases x with
  | record =>
    rw [← ok.inj h]
    rfl
  | state c =>
    obtain ⟨at', hat, h⟩ := bind_ok.mp h
    have happ : c.domain.application = some at'.application ∧ c.address = at'.data := by
      unfold location at hat
      split at hat
      · cases hat
      rename_i application happ
      rw [← ok.inj hat]
      exact ⟨happ, rfl⟩
    by_cases htouch : Touches kind loc (.state c)
    · obtain ⟨_, _, _⟩ := htouch
      have hat' : at' = loc := by
        obtain ⟨_, _⟩ := at'
        simp_all
      subst hat'
      rw [hcovered] at h
      rw [← pure_ok.mp h]
      simp only [onCell, Touches, happ, and_self]
      cases c.discriminator.side <;> cases c.event <;> simp [apply]
    · rw [onCell_of_not_touches _ htouch]
      have hne : ¬ (c.discriminator.kind = kind ∧ at' = loc) := by
        rintro ⟨hkind, rfl⟩
        exact htouch ⟨hkind, happ⟩
      split at h
      · rw [← pure_ok.mp h]
        rfl
      · rw [← pure_ok.mp h]
        cases c.discriminator.side <;> cases c.event <;> simp [apply, hne]

theorem changesetMutations_onCell {changeset : List ExecutionChange} {ms : List Mutation}
    (h : changesetMutations config changeset = .ok ms) (hcovered : config.covers loc = true)
    (cell : Cell) :
    ms.foldl (fun cell m => cell.apply kind loc m) cell =
      changeset.foldl (fun cell x => x.onCell kind loc cell) cell := by
  induction changeset generalizing ms cell with
  | nil =>
    rw [← ok.inj h]
    rfl
  | cons x xs ih =>
    obtain ⟨_, hm, h⟩ := bind_ok.mp h
    obtain ⟨_, hrest, h⟩ := bind_ok.mp h
    rw [← pure_ok.mp h, foldl_append, foldl_cons, mutation_onCell hm hcovered]
    exact ih hrest _

/-- **Publication is the pending view**: a commit leaves in a covered cell what the changeset was
going to put there. -/
theorem State.commit_cell (h : s.commit config faults = .ok s')
    (hcovered : config.covers loc = true) : s'.crdt.cell kind loc = s.pendingCell kind loc := by
  obtain ⟨_, hms, h⟩ := bind_ok.mp h
  obtain ⟨_, hcrdt, h⟩ := bind_ok.mp h
  rw [← pure_ok.mp h, applyMutations_cell hcrdt, changesetMutations_onCell hms hcovered]
  rfl

end Views

/-- A node that stores everything. -/
def plainConfig : CrdtConfig where
  coveredPrefix := []
  vertexCommitment := fun _ => .ok []
  subShardIdFor := fun _ _ => []

/-- A state that holds nothing. -/
def emptyState : State := ⟨⟨.empty, .empty, .empty, .empty, .empty, .empty⟩, []⟩

/-- What `set` and `delete` calls with domains of 32 bytes lead to. -/
inductive Written (crdt : Crdt) : State → Prop
  | start : Written crdt ⟨crdt, []⟩
  | set {s s' : State} {faults : Faults} {application addr : Bytes32} {discriminator : Phase}
      {value : Bytes} (h : Written crdt s)
      (hset : s.set faults (Domain.of application) addr discriminator value = .ok s') :
      Written crdt s'
  | delete {s : State} (h : Written crdt s) (application addr : Bytes32) (discriminator : Phase) :
      Written crdt (s.delete (Domain.of application) addr discriminator)

/-- The newest value pending on one side of a location. -/
def State.pendingAt (s : State) (kind : Kind) (side : Side) (loc : Location) : Option Bytes :=
  pendingValue s.changeset (Domain.of loc.application) loc.data ⟨kind, side⟩

/-- A pending value is not empty, nothing pending removes the location and it has no tombstone.  A
location without one is removed only where nothing is visible. -/
def State.PublishedAsRead (s : State) (kind : Kind) (loc : Location) : Prop :=
  match s.pendingAt kind .adds loc with
  | some value => value ≠ [] ∧ s.pendingAt kind .removes loc = none ∧
      (s.crdt.cell kind loc).removes = none
  | none => s.pendingAt kind .removes loc = none ∨ (s.crdt.cell kind loc).visible = none

/-- What the pending changes leave at a location, as far as pending reads tell it. -/
structure Foreseen (s : State) (kind : Kind) (loc : Location) : Prop where
  removes : (s.pendingCell kind loc).removes =
    if (s.pendingAt kind .removes loc).isSome then some [] else (s.crdt.cell kind loc).removes
  kept : s.pendingAt kind .removes loc = none → s.pendingAt kind .adds loc = none →
    s.pendingCell kind loc = s.crdt.cell kind loc
  added : s.pendingAt kind .removes loc = none → (s.crdt.cell kind loc).removes = none →
    ∀ value, s.pendingAt kind .adds loc = some value → value ≠ [] →
      (s.pendingCell kind loc).adds = some value

section Reads

variable {s s' : State} {kind : Kind} {loc : Location} {c : StateChange} {application : Bytes32}

theorem Pushed.pendingAt (h : Pushed s (.state c) s') (hdomain : c.domain = of application)
    (side : Side) :
    s'.pendingAt kind side loc =
      if Touches kind loc (.state c) ∧ c.discriminator.side = side then some c.value
      else s.pendingAt kind side loc := by
  obtain ⟨domain, _, ⟨_, _⟩, _, _⟩ := c
  obtain rfl : domain = of application := hdomain
  unfold State.pendingAt
  rw [h.2, pendingValue_concat]
  simp only [valueAt, Touches, of, Domain.mk.injEq,
    some.injEq, Phase.mk.injEq, and_true, and_assoc, and_left_comm]
  split <;> rfl

/-- One more change, empty where it is a deletion. -/
theorem Foreseen.pushed (h : Foreseen s kind loc) (hdomain : c.domain = of application)
    (hempty : c.event = .delete → c.value = []) (hpushed : Pushed s (.state c) s') :
    Foreseen s' kind loc := by
  have hread : ∀ side, s'.pendingAt kind side loc = _ := hpushed.pendingAt hdomain
  have hcell : s'.pendingCell kind loc = _ := hpushed.pendingCell
  have hcrdt := hpushed.1
  by_cases htouch : Touches kind loc (.state c)
  swap
  · rw [onCell_of_not_touches _ htouch] at hcell
    simp only [htouch, false_and, if_false] at hread
    obtain ⟨_, _, _⟩ := h
    constructor <;> simp only [hcell, hcrdt, hread] <;> assumption
  simp only [htouch, true_and] at hread
  simp only [onCell, htouch, if_true] at hcell
  cases hside : c.discriminator.side with
  | removes =>
    rw [hside] at hcell
    simp only [hside] at hread
    constructor <;> simp [hread, hcell, remove]
  | adds =>
    rw [hside] at hcell
    simp only [hside] at hread
    have hremoves : (s'.pendingCell kind loc).removes = (s.pendingCell kind loc).removes := by
      rw [hcell]
      cases c.event <;> simp only [add] <;> split <;> rfl
    refine ⟨?_, by simp [hread], ?_⟩
    · rw [hremoves, hread, hcrdt, h.removes]
      simp
    · intro hnone htomb value hvalue hne
      rw [hread, if_neg (by simp)] at hnone
      rw [hread, if_pos rfl] at hvalue
      obtain rfl := some.inj hvalue
      have hclear : (s.pendingCell kind loc).removes = none := by
        rw [h.removes, hnone, ← hcrdt]
        exact htomb
      rw [hcell]
      cases hevent : c.event with
      | delete => exact absurd (hempty hevent) hne
      | create | update => simp [add, hclear]

theorem Written.foreseen {crdt : Crdt} (h : Written crdt s) : Foreseen s kind loc := by
  induction h with
  | start => exact ⟨rfl, fun _ _ => rfl, fun _ _ _ h => nomatch h⟩
  | @set s s' faults application addr discriminator value _ hset ih =>
    obtain ⟨_, side⟩ := discriminator
    cases side with
    | adds =>
      obtain ⟨_, hevent, hpushed⟩ := State.set_ok hset
      exact ih.pushed rfl (fun h => absurd h hevent) hpushed
    | removes => cases hset
  | delete _ application addr discriminator ih =>
    exact ih.pushed rfl (fun _ => rfl) (State.delete_pushed ..)

theorem visible_eq_some {cell : Cell} {value : Bytes} :
    cell.visible = some value ↔ cell.removes = none ∧ cell.adds = some value ∧ value ≠ [] := by
  unfold visible
  cases cell.removes <;> simp [filter_eq_some_iff]

/-- **A read before publication is the read after it** exactly where it is published so: on a
covered location, whatever was set and deleted before. -/
theorem read_published_iff {crdt : Crdt} {config : CrdtConfig} {faults faults' faults'' : Faults}
    {before after : Option Bytes} (h : Written crdt s)
    (hcovered : config.covers ⟨application, addr⟩ = true)
    (hbefore : s.get faults (of application) addr ⟨kind, .adds⟩ = .ok before)
    (hcommit : s.commit config faults' = .ok s')
    (hafter : s'.abort.get faults'' (of application) addr ⟨kind, .adds⟩ = .ok after) :
    before = after ↔ s.PublishedAsRead kind ⟨application, addr⟩ := by
  have hforeseen : Foreseen s kind ⟨application, addr⟩ := h.foreseen
  obtain ⟨hremoves, hkept, hadded⟩ := hforeseen
  have hbefore : before = (s.pendingAt kind .adds ⟨application, addr⟩).or
      (s.crdt.cell kind ⟨application, addr⟩).visible := State.get_ok hbefore
  have hafter : after = (s.pendingCell kind ⟨application, addr⟩).visible := by
    rw [← State.commit_cell hcommit hcovered]
    exact State.get_ok hafter
  subst hbefore hafter
  unfold State.PublishedAsRead
  cases hadds : s.pendingAt kind .adds ⟨application, addr⟩ with
  | some value =>
    rw [some_or, eq_comm, visible_eq_some, hremoves]
    constructor
    · rintro ⟨hnone, -, hne⟩
      cases hpending : s.pendingAt kind .removes ⟨application, addr⟩ with
      | some => simp [hpending] at hnone
      | none => exact ⟨hne, rfl, by simpa [hpending] using hnone⟩
    · rintro ⟨hne, hpending, htomb⟩
      exact ⟨by simpa [hpending] using htomb, hadded hpending htomb value hadds hne, hne⟩
  | none =>
    cases hpending : s.pendingAt kind .removes ⟨application, addr⟩ with
    | some =>
      have hgone : (s.pendingCell kind ⟨application, addr⟩).visible = none := by
        simp [visible, hremoves, hpending]
      simp [hgone]
    | none => simp [hkept hpending hadds]

end Reads

/-- A node that holds nothing, with one value set. -/
def valueSet : State :=
  ⟨emptyState.crdt, [.state ⟨Domain.of 1, 2, ⟨.vertex, .adds⟩, .create, [1]⟩]⟩

theorem written_valueSet : Written emptyState.crdt valueSet := by
  have hset : State.set ⟨emptyState.crdt, []⟩ (fun _ => none) (of 1) 2 ⟨.vertex, .adds⟩ [1] =
      .ok valueSet := rfl
  exact .set .start hset

/-- The value is read after publication. -/
theorem read_published_value :
    ∃ s', valueSet.commit plainConfig (fun _ => none) = .ok s' ∧ ∃ before after, before = after ∧
      valueSet.get (fun _ => none) (of 1) 2 ⟨.vertex, .adds⟩ = .ok before ∧
        s'.abort.get (fun _ => none) (of 1) 2 ⟨.vertex, .adds⟩ = .ok after := by
  have hget : valueSet.get (fun _ => none) (of 1) 2 ⟨.vertex, .adds⟩ = .ok (some [1]) := rfl
  obtain ⟨s', hcommit, hafter⟩ : ∃ s', valueSet.commit plainConfig (fun _ => none) = .ok s' ∧
      s'.abort.get (fun _ => none) (of 1) 2 ⟨.vertex, .adds⟩ = .ok (some [1]) := ⟨_, rfl, rfl⟩
  have hiff := read_published_iff written_valueSet rfl hget hcommit hafter
  exact ⟨s', hcommit, _, _, hiff.mpr ⟨by decide, rfl, rfl⟩, hget, hafter⟩

/-- **A pending deletion is not read.**  A value that was set and deleted is read until
the deletion is published. -/
theorem deleted_value_read :
    ∃ s s', Written emptyState.crdt s ∧ s.commit plainConfig (fun _ => none) = .ok s' ∧
      s.get (fun _ => none) (of 1) 2 ⟨.vertex, .adds⟩ = .ok (some [1]) ∧
        s'.abort.get (fun _ => none) (of 1) 2 ⟨.vertex, .adds⟩ = .ok none :=
  ⟨_, _, written_valueSet.delete 1 2 ⟨.vertex, .removes⟩, rfl, rfl, rfl⟩

end Hypergraph

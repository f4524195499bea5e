import QuilNode.Lib.Run
import QuilNode.Token.Mint

/-!
# Reward mints conserve QUIL

An accepted call of `authorize_global` debits every claimed reward by its claim's value, writes the
authorization record where nothing was, and changes nothing else (`Authorized`).  Along a run the
record stays readable, so its receipt is never accepted again.  A publication keeps what is read as
long as GLOBAL is completely covered and has no tombstones (`Publishable`).
-/

namespace Token

open Hypergraph Results List Run State

/-! ## One call -/

/-- The owners and statements in play have addresses of their own. -/
structure CollisionFree (p : MintPrimitives) (owners : Finset Bytes32)
    (statements : List MintStatement) : Prop where
  claimed : ∀ m ∈ statements, ∀ claim ∈ m.claims, claim.owner ∈ owners
  reward_injective : ∀ a ∈ owners, ∀ b ∈ owners, ∀ address,
    p.rewardAddress a = .ok address → p.rewardAddress b = .ok address → a = b
  receipt_ne_reward : ∀ m ∈ statements, ∀ owner ∈ owners, ∀ address,
    p.receiptAddress m = .ok address → p.rewardAddress owner ≠ .ok address

/-- The effect of an accepted call on GLOBAL. -/
structure Authorized (p : MintPrimitives) (owners : Finset Bytes32) (s : State)
    (m : MintStatement) (receipt : Bytes32) (s' : State) : Prop where
  receipt_eq : p.receiptAddress m = .ok receipt
  owners_nodup : (m.claims.map RewardClaim.owner).Nodup
  debited : ∀ claim ∈ m.claims, ∃ blob blob', rewardBlob p s claim.owner = some blob ∧
    rewardBlob p s' claim.owner = some blob' ∧ Debit claim.value blob blob'
  others : ∀ owner ∈ owners, owner ∉ m.claims.map RewardClaim.owner →
    rewardBlob p s' owner = rewardBlob p s owner
  fresh : s.view .vertex globalDomain receipt = none
  recorded : ∃ record, p.createRecord m = .ok record ∧
    s'.view .vertex globalDomain receipt = some record
  elsewhere : ∀ kind application address, ¬ (kind = .vertex ∧ application = globalDomain ∧
      (address = receipt ∨ ∃ claim ∈ m.claims, p.rewardAddress claim.owner = .ok address)) →
    s'.view kind application address = s.view kind application address

variable {claims : List RewardClaim} {updates : List RewardUpdate} {receipt : Bytes32}
  {m : MintStatement}

section Call

variable {p : MintPrimitives} {config : CrdtConfig} {owners : Finset Bytes32}
  {statements : List MintStatement} {faults : AuthorizeFaults} {mint : VerifiedMint} {s s' : State}

/-- A call was either refused and undone, or prepared and staged. -/
theorem authorizeGlobal_cases {answer : Result Bytes32}
    (h : authorizeGlobal p config faults mint s = (answer, s')) :
    (∃ e, answer = .error e ∧ s' = s) ∨ ∃ receipt updates record, answer = .ok receipt ∧
        Prepared p s mint.mint.statement receipt updates record ∧
        stageUpdates faults.stage s (updates ++ [⟨receipt, record⟩]) = (.ok (), s') := by
  unfold authorizeGlobal at h
  split at h
  · rename_i e he
    obtain ⟨rfl, rfl⟩ := Prod.mk.inj h
    exact .inl ⟨e, rfl, rfl⟩
  · rename_i receipt writes hprepare
    obtain ⟨updates, record, rfl, hprepared⟩ := prepareAuthorization_ok hprepare
    have hundo := rollbackTo_stageUpdates faults.stage s (updates ++ [⟨receipt, record⟩])
    split at h
    · rename_i s₁ hstage
      obtain ⟨rfl, rfl⟩ := Prod.mk.inj h
      exact .inr ⟨receipt, updates, record, rfl, hprepared, hstage⟩
    · rename_i e s₁ hstage
      obtain ⟨rfl, rfl⟩ := Prod.mk.inj h
      rw [hstage] at hundo
      exact .inl ⟨e, rfl, hundo⟩

/-- Distinct owners have distinct reward addresses. -/
theorem rewardAddresses_nodup (hfree : CollisionFree p owners statements)
    (haddresses : List.Forall₂ (fun claim update => p.rewardAddress claim.owner = .ok update.address)
      claims updates)
    (howners : (claims.map RewardClaim.owner).Nodup) (hmem : ∀ claim ∈ claims, claim.owner ∈ owners) :
    (updates.map RewardUpdate.address).Nodup := by
  induction haddresses with
  | nil => exact nodup_nil
  | @cons claim update claims updates haddress hrest ih =>
    rw [map_cons, nodup_cons] at howners ⊢
    refine ⟨?_, ih howners.2 fun c hc => hmem c (mem_cons_of_mem _ hc)⟩
    intro hagain
    obtain ⟨_, hother, heq⟩ := mem_map.mp hagain
    obtain ⟨claim', hclaim', haddress'⟩ := exists_left_of_forall₂ hrest hother
    rw [heq] at haddress'
    have hsame := hfree.reward_injective _ (hmem claim mem_cons_self) _
      (hmem claim' (mem_cons_of_mem _ hclaim')) _ haddress haddress'
    exact howners.1 (mem_map.mpr ⟨claim', hclaim', hsame.symm⟩)

/-- A call writes every address once. -/
theorem Prepared.addresses_nodup {record : Bytes}
    (h : Prepared p s m receipt updates record) (hfree : CollisionFree p owners statements)
    (hm : m ∈ statements) :
    ((updates ++ [RewardUpdate.mk receipt record]).map RewardUpdate.address).Nodup := by
  rw [map_append, nodup_append]
  refine ⟨?_, nodup_singleton _, ?_⟩
  · exact rewardAddresses_nodup hfree (h.updates_ok.imp fun _ _ hupdate => hupdate.1)
      (receiptAddress_owners_nodup h.receipt_eq) (hfree.claimed m hm)
  · intro addr haddress receipt' hreceipt'
    obtain ⟨update, hupdate, rfl⟩ := mem_map.mp haddress
    rw [mem_singleton.mp hreceipt']
    exact h.apart update hupdate

/-- **An accepted call debits and records.** -/
theorem authorizeGlobal_ok (hfree : CollisionFree p owners statements)
    (hm : mint.mint.statement ∈ statements)
    (h : authorizeGlobal p config faults mint s = (.ok receipt, s')) :
    Authorized p owners s mint.mint.statement receipt s' := by
  rcases authorizeGlobal_cases h with ⟨e, he, -⟩ | ⟨receipt', updates, record, hanswer, hprepared, hstage⟩
  · cases he
  obtain rfl := Except.ok.inj hanswer
  have hnodup := hprepared.addresses_nodup hfree hm
  have hwritten :
      ∀ addr, addr ∈ (updates ++ [RewardUpdate.mk receipt record]).map RewardUpdate.address →
      addr = receipt ∨
        ∃ claim ∈ mint.mint.statement.claims, p.rewardAddress claim.owner = .ok addr := by
    intro addr haddress
    obtain ⟨_, hupdate, rfl⟩ := mem_map.mp haddress
    rcases mem_append.mp hupdate with hupdate | hupdate
    · obtain ⟨claim, hclaim, hreward, -⟩ := exists_left_of_forall₂ hprepared.updates_ok hupdate
      exact .inr ⟨claim, hclaim, hreward⟩
    · rw [mem_singleton.mp hupdate]
      exact .inl rfl
  refine ⟨hprepared.receipt_eq, receiptAddress_owners_nodup hprepared.receipt_eq, ?_, ?_,
    hprepared.fresh, ⟨record, hprepared.record_eq, ?_⟩, ?_⟩
  · intro claim hclaim
    obtain ⟨update, hupdate, haddress, blob, hblob, hdebit⟩ :=
      exists_right_of_forall₂ hprepared.updates_ok hclaim
    refine ⟨blob, update.blob, ?_, ?_, hdebit⟩
    · simp only [rewardBlob, haddress, hblob]
    · simp only [rewardBlob, haddress]
      exact stageUpdates_view_of_mem hstage hnodup (mem_append_left _ hupdate)
  · intro owner howner hunclaimed
    unfold rewardBlob
    split
    · rename_i addr haddress
      apply stageUpdates_view_of_notMem hstage
      rintro ⟨-, -, hmem⟩
      rcases hwritten addr hmem with rfl | ⟨claim, hclaim, hreward⟩
      · exact hfree.receipt_ne_reward _ hm owner howner _ hprepared.receipt_eq haddress
      have hsame := hfree.reward_injective _ howner _ (hfree.claimed _ hm claim hclaim) _
        haddress hreward
      exact hunclaimed (mem_map.mpr ⟨claim, hclaim, hsame.symm⟩)
    · rfl
  · have hlast : RewardUpdate.mk receipt record ∈ updates ++ [RewardUpdate.mk receipt record] := by simp
    exact stageUpdates_view_of_mem hstage hnodup hlast
  · intro kind application addr hother
    apply stageUpdates_view_of_notMem hstage
    rintro ⟨hkind, happlication, hmem⟩
    exact hother ⟨hkind, happlication, hwritten addr hmem⟩

/-- **A refused call changes nothing.** -/
theorem authorizeGlobal_error {e : QuilError}
    (h : authorizeGlobal p config faults mint s = (.error e, s')) : s' = s := by
  rcases authorizeGlobal_cases h with ⟨-, -, hs⟩ | ⟨receipt, updates, record, hanswer, -⟩
  · exact hs
  · cases hanswer

end Call

/-! ## Publication -/

/-- GLOBAL is stored completely, holds no tombstones, and will hold what is read. -/
structure Publishable (config : CrdtConfig) (s : State) : Prop where
  covered : requireFullDomainCoverage config globalDomain = .ok ()
  untombstoned : ∀ address, (s.pendingCell .vertex ⟨globalDomain, address⟩).removes = none
  reads_published : ∀ address, s.view .vertex globalDomain address =
    (s.pendingCell .vertex ⟨globalDomain, address⟩).visible

/-- GLOBAL reads of vertices, the ones rewards and records are kept in. -/
def SameGlobal (s s' : State) : Prop :=
  ∀ addr, s'.view .vertex globalDomain addr = s.view .vertex globalDomain addr

variable {blob : Bytes}

section Publication

variable {config : CrdtConfig} {s s' : State}

variable (h : Publishable config s)

include h

/-- With an empty changeset both views of a location are the CRDT's. -/
theorem publishable_of_cells {crdt : Crdt}
    (hcell : ∀ addr, crdt.cell .vertex ⟨globalDomain, addr⟩ =
      s.pendingCell .vertex ⟨globalDomain, addr⟩) :
    Publishable config ⟨crdt, []⟩ ∧ SameGlobal s ⟨crdt, []⟩ := by
  have hview : ∀ addr, view ⟨crdt, []⟩ .vertex globalDomain addr =
      (s.pendingCell .vertex ⟨globalDomain, addr⟩).visible := by
    intro addr
    simp [view, pendingValue, hcell]
  have hpending : ∀ addr, pendingCell ⟨crdt, []⟩ .vertex ⟨globalDomain, addr⟩ =
      s.pendingCell .vertex ⟨globalDomain, addr⟩ := hcell
  refine ⟨⟨h.covered, ?_, ?_⟩, ?_⟩
  · intro addr
    rw [hpending]
    exact h.untombstoned addr
  · intro addr
    rw [hview, hpending]
  · intro addr
    rw [hview, h.reads_published]

/-- Publishing the changeset keeps GLOBAL as it is read. -/
theorem Publishable.commit {faults : Faults} (hcommit : s.commit config faults = .ok s') :
    Publishable config s'.abort ∧ SameGlobal s s'.abort := by
  apply publishable_of_cells h
  intro addr
  exact commit_cell hcommit (covers_of_fullDomainCoverage h.covered addr)

theorem Publishable.commitFrame : Publishable config { s with crdt := s.crdt.publish } :=
  ⟨h.covered, h.untombstoned, h.reads_published⟩

/-- A vertex set with a value that is not empty is published as it is read. -/
theorem Publishable.pushed {addr : Bytes32} {event : StateChangeEvent} (hblob : blob ≠ [])
    (hevent : event ≠ .delete)
    (hpushed : Pushed s (.state ⟨Domain.of globalDomain, addr, vertexAdds, event, blob⟩) s') :
    Publishable config s' := by
  have hcell : ∀ other, s'.pendingCell .vertex ⟨globalDomain, other⟩ =
      if addr = other then { s.pendingCell .vertex ⟨globalDomain, other⟩ with adds := some blob }
      else s.pendingCell .vertex ⟨globalDomain, other⟩ := by
    intro other
    rw [hpushed.pendingCell]
    simp only [ExecutionChange.onCell, ExecutionChange.Touches, vertexAdds, Domain.of, true_and]
    cases event with
    | create | update => simp [Cell.add]
    | delete => exact absurd rfl hevent
  refine ⟨h.covered, ?_, ?_⟩
  · intro other
    rw [hcell]
    split
    · exact h.untombstoned other
    · exact h.untombstoned other
  · intro other
    rw [hcell]
    split
    · rename_i hsame
      subst hsame
      rw [hpushed.view_self]
      simp [Cell.visible, h.untombstoned, Option.filter_some, hblob]
    · rename_i hother
      rw [← h.reads_published other]
      apply hpushed.view_of_not_touches
      rintro ⟨-, -, haddress⟩
      exact hother haddress

theorem Publishable.stageUpdates {faults : Faults}
    (hstage : stageUpdates faults s updates = (.ok (), s'))
    (hblobs : ∀ update ∈ updates, update.blob ≠ []) : Publishable config s' := by
  induction updates generalizing s with
  | nil =>
    obtain ⟨-, rfl⟩ := Prod.mk.inj hstage
    exact h
  | cons update updates ih =>
    obtain ⟨_, _, hevent, hpushed, hrest⟩ := stageUpdates_cons hstage
    exact ih (h.pushed (hblobs update mem_cons_self) hevent hpushed) hrest
      fun u hu => hblobs u (mem_cons_of_mem _ hu)

/-- A call keeps GLOBAL publishable. -/
theorem Publishable.authorizeGlobal {p : MintPrimitives} {faults : AuthorizeFaults}
    {mint : VerifiedMint} {answer : Result Bytes32}
    (hcall : authorizeGlobal p config faults mint s = (answer, s')) : Publishable config s' := by
  rcases authorizeGlobal_cases hcall with ⟨-, -, rfl⟩ | ⟨receipt, updates, record, -, hprepared, hstage⟩
  · exact h
  apply h.stageUpdates hstage
  intro update hupdate
  rcases mem_append.mp hupdate with hupdate | hupdate
  · obtain ⟨_, -, -, _, -, hdebit⟩ := exists_left_of_forall₂ hprepared.updates_ok hupdate
    exact hdebit.ne_nil
  · rw [mem_singleton.mp hupdate]
    obtain ⟨_, -, hrecord⟩ := bind_ok.mp hprepared.record_eq
    obtain ⟨tree, -, hrecord⟩ := bind_ok.mp hrecord
    rw [← pure_ok.mp hrecord]
    exact Tries.serialize_ne_nil tree

end Publication

/-! ## Runs -/

inductive MintStep where
  | authorize (mint : VerifiedMint) (faults : AuthorizeFaults)
  /-- `commit`, and `abort` where it succeeds. -/
  | publish (faults : Faults)
  | commitFrame

inductive MintResult where
  | authorized (receipt : Bytes32)
  | refused (error : QuilError)
  | published
  | unpublished (error : QuilError)
  | frameCommitted

def mintStep (p : MintPrimitives) (config : CrdtConfig) (s : State) : MintStep → MintResult × State
  | .authorize mint faults =>
    match authorizeGlobal p config faults mint s with
    | (.ok receipt, s') => (.authorized receipt, s')
    | (.error e, s') => (.refused e, s')
  | .publish faults =>
    match s.commit config faults with
    | .ok s' => (.published, s'.abort)
    | .error e => (.unpublished e, s)
  | .commitFrame => (.frameCommitted, { s with crdt := s.crdt.publish })

/-- An accepted statement with its receipt. -/
structure Authorization where
  receipt : Bytes32
  statement : MintStatement

abbrev MintEvent := Run.Event State MintStep MintResult

def mintEvents (p : MintPrimitives) (config : CrdtConfig) (start : State) (steps : List MintStep) :
    List MintEvent :=
  Run.events (mintStep p config) start steps

def mintFinal (p : MintPrimitives) (config : CrdtConfig) (start : State) (steps : List MintStep) :
    State :=
  Run.final (mintStep p config) start steps

/-- The authorization a step accepted. -/
def authorizationOf (e : MintEvent) : Option Authorization :=
  match e.input, e.result with
  | .authorize mint _, .authorized receipt => some ⟨receipt, mint.mint.statement⟩
  | _, _ => none

/-- The authorizations a run accepted, oldest first. -/
def authorizations (log : List MintEvent) : List Authorization := log.filterMap authorizationOf

theorem authorizations_concat (log : List MintEvent) (e : MintEvent) :
    authorizations (log ++ [e]) = authorizations log ++ (authorizationOf e).toList := by
  unfold authorizations
  rw [filterMap_append, filterMap_cons]
  cases authorizationOf e <;> rfl

def MintStep.statement : MintStep → Option MintStatement
  | .authorize mint _ => some mint.mint.statement
  | _ => none

/-- The statements passed to `authorize_global`, repetitions included. -/
def statementsOf (steps : List MintStep) : List MintStatement := steps.filterMap MintStep.statement

def claimsOf (accepted : List Authorization) : List RewardClaim :=
  accepted.flatMap fun a => a.statement.claims

/-- What the claims take from an owner. -/
def claimedFrom (claims : List RewardClaim) (owner : Bytes32) : Nat :=
  ((claims.filter fun c => c.owner = owner).map RewardClaim.value).sum

theorem claimedFrom_append (claims more : List RewardClaim) (owner : Bytes32) :
    claimedFrom (claims ++ more) owner = claimedFrom claims owner + claimedFrom more owner := by
  simp [claimedFrom]

theorem claimedFrom_of_notMem {owner : Bytes32} (h : owner ∉ claims.map RewardClaim.owner) :
    claimedFrom claims owner = 0 := by
  have hnone : claims.filter (fun c => c.owner = owner) = [] := by
    rw [filter_eq_nil_iff]
    intro claim hclaim heq
    exact h (mem_map.mpr ⟨claim, hclaim, of_decide_eq_true heq⟩)
  rw [claimedFrom, hnone]
  rfl

/-- Where owners are named once, an owner is debited by the one claim. -/
theorem claimedFrom_of_mem {claim : RewardClaim} (hnodup : (claims.map RewardClaim.owner).Nodup)
    (h : claim ∈ claims) : claimedFrom claims claim.owner = claim.value := by
  obtain ⟨before, after, rfl⟩ := append_of_mem h
  rw [map_append, map_cons, nodup_append, nodup_cons] at hnodup
  obtain ⟨-, ⟨hafter, -⟩, hbefore⟩ := hnodup
  have hbefore : claim.owner ∉ before.map RewardClaim.owner :=
    fun hmem => hbefore _ hmem _ mem_cons_self rfl
  have hcons : claimedFrom (claim :: after) claim.owner = claim.value + claimedFrom after claim.owner := by
    simp [claimedFrom]
  rw [claimedFrom_append, hcons, claimedFrom_of_notMem hbefore, claimedFrom_of_notMem hafter]
  omega

/-- Claims add up owner by owner. -/
theorem sum_claimedFrom {owners : Finset Bytes32} (h : ∀ claim ∈ claims, claim.owner ∈ owners) :
    (claims.map RewardClaim.value).sum = ∑ owner ∈ owners, claimedFrom claims owner := by
  induction claims with
  | nil => simp [claimedFrom]
  | cons claim claims ih =>
    have hsplit : ∀ owner, claimedFrom (claim :: claims) owner =
        (if claim.owner = owner then claim.value else 0) + claimedFrom claims owner := by
      intro owner
      by_cases howner : claim.owner = owner <;> simp [claimedFrom, howner]
    simp only [hsplit, Finset.sum_add_distrib, Finset.sum_ite_eq, h claim mem_cons_self,
      if_true, map_cons, sum_cons]
    rw [ih fun c hc => h c (mem_cons_of_mem _ hc)]

/-- What a run has done to GLOBAL so far. -/
structure Conserved (p : MintPrimitives) (owners : Finset Bytes32) (start : State)
    (accepted : List Authorization) (s : State) : Prop where
  claimed : ∀ claim ∈ claimsOf accepted, claim.owner ∈ owners
  receipts_nodup : (accepted.map Authorization.receipt).Nodup
  recorded : ∀ a ∈ accepted, (s.view .vertex globalDomain a.receipt).isSome
  balances : ∀ owner ∈ owners, rewardBalance p start owner =
    (rewardBalance p s owner).map (· + claimedFrom (claimsOf accepted) owner)
  funded : ∀ owner ∈ owners, claimedFrom (claimsOf accepted) owner ≠ 0 →
    (rewardBalance p start owner).isSome

section Invariant

variable {p : MintPrimitives} {config : CrdtConfig} {owners : Finset Bytes32}
  {statements : List MintStatement} {start s s' : State} {accepted : List Authorization}

/-- Steps that keep what is read keep the account. -/
theorem Conserved.of_sameGlobal (h : Conserved p owners start accepted s) (hsame : SameGlobal s s') :
    Conserved p owners start accepted s' := by
  have hbalance : ∀ owner, rewardBalance p s' owner = rewardBalance p s owner := by
    intro owner
    unfold rewardBalance rewardBlob
    cases p.rewardAddress owner with
    | ok addr =>
      simp only
      rw [hsame addr]
    | error => rfl
  refine ⟨h.claimed, h.receipts_nodup, ?_, ?_, h.funded⟩
  · intro a ha
    rw [hsame]
    exact h.recorded a ha
  · intro owner howner
    rw [hbalance]
    exact h.balances owner howner

/-- A vertex that can be read stays so. -/
theorem Authorized.isSome_view {addr : Bytes32}
    (h : Authorized p owners s m receipt s') (hread : (s.view .vertex globalDomain addr).isSome) :
    (s'.view .vertex globalDomain addr).isSome := by
  by_cases hwritten : addr = receipt ∨ ∃ claim ∈ m.claims, p.rewardAddress claim.owner = .ok addr
  · rcases hwritten with rfl | ⟨claim, hclaim, haddress⟩
    · rw [h.fresh] at hread
      cases hread
    · obtain ⟨_, _, -, hblob', -⟩ := h.debited claim hclaim
      simp only [rewardBlob, haddress] at hblob'
      rw [hblob']
      rfl
  · rw [h.elsewhere _ _ _ fun hmem => hwritten hmem.2.2]
    exact hread

/-- An accepted call extends the account. -/
theorem Conserved.authorized (h : Conserved p owners start accepted s)
    (hfree : CollisionFree p owners statements) (hm : m ∈ statements)
    (hcall : Authorized p owners s m receipt s') :
    Conserved p owners start (accepted ++ [⟨receipt, m⟩]) s' := by
  have hclaims : claimsOf (accepted ++ [⟨receipt, m⟩]) = claimsOf accepted ++ m.claims := by
    simp [claimsOf]
  have hnew : receipt ∉ accepted.map Authorization.receipt := by
    intro hmem
    obtain ⟨a, ha, heq⟩ := mem_map.mp hmem
    have hread := h.recorded a ha
    rw [heq, hcall.fresh] at hread
    cases hread
  -- the two cases of an owner: debited by its one claim, or left alone
  have hmoved : ∀ owner ∈ owners, rewardBalance p s owner =
      (rewardBalance p s' owner).map (· + claimedFrom m.claims owner) ∧
      (claimedFrom m.claims owner ≠ 0 → (rewardBalance p s owner).isSome) := by
    intro owner howner
    by_cases hclaimed : owner ∈ m.claims.map RewardClaim.owner
    · obtain ⟨claim, hclaim, rfl⟩ := mem_map.mp hclaimed
      obtain ⟨_, _, hblob, hblob', hdebit⟩ := hcall.debited claim hclaim
      obtain ⟨before, hbefore, hcovered, hafter⟩ := hdebit.balance
      have hread : rewardBalance p s claim.owner = some before := by
        simp [rewardBalance, hblob, hbefore]
      have hread' : rewardBalance p s' claim.owner = some (before - claim.value) := by
        simp [rewardBalance, hblob', hafter]
      rw [hread, hread', claimedFrom_of_mem hcall.owners_nodup hclaim]
      refine ⟨?_, fun _ => rfl⟩
      rw [Option.map_some, Nat.sub_add_cancel hcovered]
    · rw [claimedFrom_of_notMem hclaimed]
      have hsame : rewardBalance p s' owner = rewardBalance p s owner := by
        unfold rewardBalance
        rw [hcall.others owner howner hclaimed]
      rw [hsame]
      simp
  refine ⟨?_, ?_, ?_, ?_, ?_⟩
  · intro claim hclaim
    rw [hclaims] at hclaim
    rcases mem_append.mp hclaim with hclaim | hclaim
    · exact h.claimed claim hclaim
    · exact hfree.claimed m hm claim hclaim
  · rw [map_append, nodup_append]
    refine ⟨h.receipts_nodup, nodup_singleton _, ?_⟩
    rintro a ha b hb rfl
    rw [map_singleton, mem_singleton] at hb
    rw [hb] at ha
    exact hnew ha
  · intro a ha
    rcases mem_append.mp ha with ha | ha
    · exact hcall.isSome_view (h.recorded a ha)
    rw [mem_singleton.mp ha]
    obtain ⟨_, -, hrecord⟩ := hcall.recorded
    rw [hrecord]
    rfl
  · intro owner howner
    rw [hclaims, h.balances owner howner, (hmoved owner howner).1, Option.map_map]
    congr 1
    funext balance
    simp only [Function.comp_apply, claimedFrom_append]
    omega
  · intro owner howner hpositive
    rw [hclaims, claimedFrom_append] at hpositive
    by_cases hold : claimedFrom (claimsOf accepted) owner = 0
    · have hread := (hmoved owner howner).2 (by omega)
      rw [h.balances owner howner, Option.isSome_map]
      exact hread
    · exact h.funded owner howner hold

/-- One step of a run extends the account by what it accepted. -/
theorem conserved_step {log : List MintEvent} {i : MintStep}
    (h : Conserved p owners start (authorizations log) s)
    (hfree : CollisionFree p owners statements)
    (hstatement : ∀ m, i.statement = some m → m ∈ statements)
    (hpublish : ∀ faults, i = .publish faults → Publishable config s) :
    Conserved p owners start (authorizations (log ++ [Run.event (mintStep p config) s i]))
      (mintStep p config s i).2 := by
  rw [authorizations_concat]
  cases i with
  | authorize mint faults =>
    have hm := hstatement _ rfl
    rcases hcall : authorizeGlobal p config faults mint s with ⟨answer, s'⟩
    cases answer with
    | ok =>
      simp only [event, mintStep, hcall]
      exact h.authorized hfree hm (authorizeGlobal_ok hfree hm hcall)
    | error =>
      obtain rfl := authorizeGlobal_error hcall
      simpa [event, mintStep, hcall, authorizationOf] using h
  | publish faults =>
    cases hcommit : s.commit config faults with
    | ok =>
      simpa [event, mintStep, hcommit, authorizationOf] using
        h.of_sameGlobal ((hpublish faults rfl).commit hcommit).2
    | error =>
      simpa [event, mintStep, hcommit, authorizationOf] using h
  | commitFrame =>
    -- a frame commit moves staged blobs to the database
    have hsame : SameGlobal s { s with crdt := s.crdt.publish } := fun addr => by simp [State.view]
    simpa [event, mintStep, authorizationOf] using h.of_sameGlobal hsame

/-- Every step keeps GLOBAL publishable. -/
theorem publishable_step {i : MintStep} (h : Publishable config s) :
    Publishable config (mintStep p config s i).2 := by
  cases i with
  | authorize mint faults =>
    rcases hcall : authorizeGlobal p config faults mint s with ⟨answer, s'⟩
    have hkept := h.authorizeGlobal hcall
    cases answer <;> simpa [mintStep, hcall] using hkept
  | publish faults =>
    cases hcommit : s.commit config faults with
    | ok => simpa [mintStep, hcommit] using (h.commit hcommit).1
    | error => simpa [mintStep, hcommit] using h
  | commitFrame => exact h.commitFrame

end Invariant

/-- **Reward mints conserve QUIL.**  An accepted call debits exactly what it claims and records
itself, a refused one does nothing, no receipt is accepted twice, and the accepted claims add up to
the debits. -/
theorem reward_mints_conserve {p : MintPrimitives} {config : CrdtConfig} {owners : Finset Bytes32}
    {start : State} {steps : List MintStep}
    (hfree : CollisionFree p owners (statementsOf steps))
    (hpublish : (∃ faults, .publish faults ∈ steps) → Publishable config start) :
    (∀ mint : VerifiedMint, mint.mint.statement ∈ statementsOf steps → ∀ faults s s',
      (∀ receipt, authorizeGlobal p config faults mint s = (.ok receipt, s') →
        Authorized p owners s mint.mint.statement receipt s') ∧
      (∀ e, authorizeGlobal p config faults mint s = (.error e, s') → s' = s)) ∧
    ((authorizations (mintEvents p config start steps)).map Authorization.receipt).Nodup ∧
    (∀ owner ∈ owners, rewardBalance p start owner =
      (rewardBalance p (mintFinal p config start steps) owner).map
        (· + claimedFrom (claimsOf (authorizations (mintEvents p config start steps))) owner)) ∧
    ((claimsOf (authorizations (mintEvents p config start steps))).map RewardClaim.value).sum =
      ∑ owner ∈ owners, ((rewardBalance p start owner).getD 0 -
        (rewardBalance p (mintFinal p config start steps) owner).getD 0) := by
  -- the account, and publishability where the run publishes at all
  have hrun : Conserved p owners start (authorizations (mintEvents p config start steps))
      (mintFinal p config start steps) := by
    refine (history_invariant (mintStep p config)
      (fun log s => Conserved p owners start (authorizations log) s ∧
        ((∃ faults, .publish faults ∈ steps) → Publishable config s))
      (fun e => e.input ∈ steps) ⟨⟨by simp [authorizations, claimsOf], nodup_nil, by simp [authorizations],
        by simp [authorizations, claimsOf, claimedFrom],
        by simp [authorizations, claimsOf, claimedFrom]⟩, hpublish⟩ ?_ steps ?_).1
    · rintro log s i ⟨hconserved, hpublishable⟩ hi
      refine ⟨conserved_step hconserved hfree ?_ ?_, fun hsome => publishable_step (hpublishable hsome)⟩
      · intro m hm
        exact mem_filterMap.mpr ⟨i, hi, hm⟩
      · rintro faults rfl
        exact hpublishable ⟨faults, hi⟩
    · intro e he
      obtain ⟨_, _, hsteps, -⟩ := mem_events (mintStep p config) he
      simp [hsteps]
  refine ⟨fun mint hmint faults s s' => ⟨fun receipt h => authorizeGlobal_ok hfree hmint h,
    fun e h => authorizeGlobal_error h⟩, hrun.receipts_nodup, hrun.balances, ?_⟩
  rw [sum_claimedFrom hrun.claimed]
  apply Finset.sum_congr rfl
  intro owner howner
  have hbalance := hrun.balances owner howner
  cases hfinal : rewardBalance p (mintFinal p config start steps) owner with
  | some =>
    rw [hfinal, Option.map_some] at hbalance
    rw [hbalance, Option.getD_some, Option.getD_some]
    omega
  | none =>
    rw [hfinal, Option.map_none] at hbalance
    have hnone := mt (hrun.funded owner howner)
    rw [hbalance] at hnone
    simpa [hbalance] using hnone (by simp)

/-- Hashes that keep the last two bytes of their input. -/
def plainMintPrimitives : MintPrimitives where
  tree := ⟨fun _ => 0, fun _ => 0⟩
  poseidon := fun bytes => .ok (BitVec.ofNat 256 (natOfBytes (bytes.drop (bytes.length - 2))))
  sha3With256 := fun bytes => 9 :: bytes.drop (bytes.length - 1)
  sha3With384 := fun bytes => bytes.take 48
  parameterContext := fun _ _ => []

/-- The reward vertex of an owner. -/
def plainReward (owner : Bytes32) (balance : Nat) : Option Bytes := Except.toOption do
  let tree ← plainMintPrimitives.writeField .nil typeKey typeHashReward
  let tree ← plainMintPrimitives.writeField tree delegateAddressKey owner.bytes
  let tree ← plainMintPrimitives.writeField tree balanceKey (beBytes 32 balance)
  return tree.serialize

/-- GLOBAL with a reward of 10 for owner 1 and of 4 for owner 2. -/
def rewardState : State where
  crdt := { emptyState.crdt with
    stored := fun key =>
      if key = addsKey .vertex ⟨globalDomain, 1⟩ then plainReward 1 10
      else if key = addsKey .vertex ⟨globalDomain, 2⟩ then plainReward 2 4
      else none }
  changeset := []

theorem rewardState_publishable : Publishable plainConfig rewardState where
  covered := by decide +kernel
  untombstoned := by
    intro addr
    simp [pendingCell, rewardState, Crdt.cell, Crdt.peek, removesKey, addsKey, emptyState,
      Store.empty]
  reads_published := fun addr => rfl

/-- A mint that claims from these owners; its memo tells it apart. -/
def plainMint (memo : UInt8) (claims : List (Bytes32 × Nat)) : VerifiedMint :=
  ⟨⟨⟨0, quilToken, 1, 3, 1, claims.map fun c => ⟨c.1, c.2, [], [1]⟩, [⟨[], [], [memo]⟩]⟩, [], []⟩⟩

def noFaults : AuthorizeFaults := ⟨fun _ => none, fun _ => none⟩

/-- A mint from both owners, repeated before and after it is published, and a
second one that overlaps it. -/
def overlappingMints : List MintStep :=
  [.authorize (plainMint 7 [(1, 3), (2, 4)]) noFaults,
    .authorize (plainMint 7 [(1, 3), (2, 4)]) noFaults, .publish fun _ => none, .commitFrame,
    .authorize (plainMint 7 [(1, 3), (2, 4)]) noFaults,
    .authorize (plainMint 8 [(1, 2)]) noFaults]

theorem overlappingMints_collisionFree :
    CollisionFree plainMintPrimitives {1, 2} (statementsOf overlappingMints) := by
  have hrewards : ∀ owner ∈ ({1, 2} : Finset Bytes32),
      plainMintPrimitives.rewardAddress owner = .ok owner := by
    intro owner howner
    rcases Finset.mem_insert.mp howner with rfl | howner
    · decide +kernel
    · rw [Finset.mem_singleton.mp howner]
      decide +kernel
  have hreceipts : ∀ m ∈ statementsOf overlappingMints,
      plainMintPrimitives.receiptAddress m = .ok 0x0907 ∨
        plainMintPrimitives.receiptAddress m = .ok 0x0908 := by
    decide +kernel
  refine ⟨by decide +kernel, ?_, ?_⟩
  · intro a ha b hb addr haddress haddress'
    rw [Except.ok.inj ((hrewards a ha).symm.trans haddress),
      Except.ok.inj ((hrewards b hb).symm.trans haddress')]
  · intro m hm owner howner addr hreceipt haddress
    obtain rfl := Except.ok.inj ((hrewards owner howner).symm.trans haddress)
    rcases hreceipts m hm with h | h
    all_goals
      obtain rfl := Except.ok.inj (h.symm.trans hreceipt)
      exact absurd howner (by decide)

/-- The two accepted mints take 5 from owner 1 and 4 from owner 2. -/
theorem overlapping_mints_debit_once :
    (authorizations (mintEvents plainMintPrimitives plainConfig rewardState
      overlappingMints)).map Authorization.receipt = [0x0907, 0x0908] ∧
    ((claimsOf (authorizations (mintEvents plainMintPrimitives plainConfig rewardState
      overlappingMints))).map RewardClaim.value).sum =
      ∑ owner ∈ {1, 2}, ((rewardBalance plainMintPrimitives rewardState owner).getD 0 -
        (rewardBalance plainMintPrimitives (mintFinal plainMintPrimitives plainConfig rewardState
          overlappingMints) owner).getD 0) :=
  ⟨by decide +kernel, (reward_mints_conserve overlappingMints_collisionFree
    (fun _ => rewardState_publishable)).2.2.2⟩

end Token

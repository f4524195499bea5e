import QuilNode.Execution.LeafRootRegistration
import QuilNode.Global.ProverJoin

/-!
# Kicking a prover (`kick_prover_by_address`)

A kick finds a prover's allocations through the prover's hyperedge only.  Joins extend it, each
operation on the prover's filters repairs it, and a split or a merge that moves an allocation
rewrites it.  None of these loses a link (`Covered`), so a kick reaches every allocation of the
prover that is not Historic.
-/

namespace Global

open Results List ProverField Function

section Operations

variable (env : GlobalEnv)

/-- `validate_confirm_epoch`. -/
def validateConfirmEpoch (signedFrame inclusionFrame : Nat) : Result Unit :=
  ensure (signedFrame ≤ inclusionFrame ∧
      epochForFrame env.epochOverride signedFrame = epochForFrame env.epochOverride inclusionFrame)
    (.invalidArgument
      "confirm: signed frame must be in the inclusion epoch and not in the future")

/-- The bytes hashed to a leaf root's address. -/
def leafRootPreimage (member : Bytes32) (leafId : Bytes) : Bytes :=
  asciiBytes "LEAF_ROOT_REGISTRATION" ++ member.bytes ++ leafId

/-- `leaf_root_address`. -/
def leafRootAddress (member : Bytes32) (leafId : Bytes) : Bytes32 :=
  env.poseidon (leafRootPreimage member leafId)

/-- A leaf root a confirm registers, for a filter it confirms or one that a pending split or merge
makes of those. -/
structure LeafRootWrite where
  filter : Bytes
  path : List UInt32
  leafRoot : Bytes
  numBlocks : UInt64

/-- `leaf_id_bytes`. -/
def LeafRootWrite.leafId (root : LeafRootWrite) : Bytes :=
  root.filter ++ 0xff :: Registry.packPrefix root.path

/-- A leaf root of `member` registered for the next epoch. -/
def registerLeafRoot (frame : Nat) (member : Bytes32) (s : GlobalState) (root : LeafRootWrite) :
    GlobalState :=
  let addr := leafRootAddress env member root.leafId
  s.setVertex addr (Registry.upsertLeafRootRegistration env.poseidon (s.vertices addr) member
    root.filter root.path ⟨.ofNat (epochForFrame env.epochOverride frame + 1), root.leafRoot,
      root.numBlocks, .ofNat frame⟩)

/-- The messages that change a prover's allocations filter by filter. -/
inductive FilterMessage where
  | pause (filter : Bytes)
  | resume (filter : Bytes)
  | leave (filters : List Bytes)
  | confirm (signedFrame : Nat) (filters : List (Bytes × ConfirmContext))
      (leafRoots : List LeafRootWrite)
  | reject (filters : List Bytes)

/-- What a message asks for each of its filters. -/
def FilterMessage.requests : FilterMessage → List (Bytes × FilterOp)
  | .pause filter => [(filter, .pause)]
  | .resume filter => [(filter, .resume)]
  | .leave filters => filters.map fun filter => (filter, .leave)
  | .confirm _ filters _ => filters.map fun f => (f.1, .confirm f.2)
  | .reject filters => filters.map fun filter => (filter, .reject)

def FilterMessage.leafRoots : FilterMessage → List LeafRootWrite
  | .confirm _ _ leafRoots => leafRoots
  | _ => []

/-- What is checked before the filters. -/
def FilterMessage.precheck (frame : Nat) : FilterMessage → Result Unit
  | .confirm signedFrame _ _ => validateConfirmEpoch env signedFrame frame
  | .reject filters =>
    ensure (filters ≠ []) (.invalidArgument "ProverReject: no filters")
  | _ => pure ()

/-- `invoke_filter_op`; `verify` is the message's own signature check. -/
def invokeFilterOp (verify : VertexTree → VertexTree → Result Bool) (frame : Nat)
    (addr : Bytes32) (s : GlobalState) (request : Bytes × FilterOp) : Result GlobalState := do
  let prover ← okOr (s.vertices addr) (.invalidArgument "invoke_step: prover not found")
  let pubkey := (prover ProverField.publicKey.key).getD []
  ensure (pubkey ≠ []) (.invalidArgument "invoke_step: prover has no PublicKey")
  let alloc ← okOr (s.vertices (allocationAddress env pubkey request.1))
    (.invalidArgument "invoke_step: allocation not found")
  let verified ← verify prover alloc
  ensure (verified = true) (.invalidArgument
    "invoke_step: signature verification failed at materialize")
  let mutated ← applyFilterOp env.epochOverride request.1 request.2 alloc frame
  pure (s.setVertex (allocationAddress env pubkey request.1) mutated)

/-- The stored allocations of the filters that the hyperedge does not link. -/
def unlinkedAllocations (s : GlobalState) (pubkey : Bytes) (linked : List Bytes32)
    (filters : List Bytes) : List Bytes32 :=
  filters.foldl (fun unlinked filter =>
    let addr := allocationAddress env pubkey filter
    if addr ∈ linked ∨ addr ∈ unlinked then unlinked
    else if (s.vertices addr).isSome then unlinked ++ [addr]
    else unlinked) []

/-- Link what the hyperedge does not link yet. -/
def linkMissing (s : GlobalState) (pubkey : Bytes) (addr : Bytes32) (filters : List Bytes) :
    GlobalState :=
  let unlinked := unlinkedAllocations env s pubkey (s.hyperedges addr) filters
  if unlinked = [] then s
  else s.setHyperedge addr (extendHyperedge (s.hyperedges addr) unlinked)

/-- `refresh_prover_status`: `derive_prover_status` after an operation on the filters. -/
def refreshProverStatus (filters : List Bytes) (addr : Bytes32) (s : GlobalState) :
    Result GlobalState := do
  let prover ← okOr (s.vertices addr)
    (.invalidArgument "prover status: prover not found")
  let pubkey := (prover ProverField.publicKey.key).getD []
  ensure (pubkey ≠ []) (.invalidArgument "prover status: prover has no PublicKey")
  deriveProverStatus (linkMissing env s pubkey addr filters) addr

/-- `invoke_step` of a message on the filters of the prover at `addr`. -/
def invokeFilterMessage (verify : VertexTree → VertexTree → Result Bool) (frame : Nat)
    (addr : Bytes32) (msg : FilterMessage) (s : GlobalState) : Result GlobalState := do
  let _ ← msg.precheck env frame
  let changed ← msg.requests.foldlM (invokeFilterOp env verify frame addr) s
  let refreshed ← refreshProverStatus env (msg.requests.map Prod.fst) addr changed
  pure (msg.leafRoots.foldl (registerLeafRoot env frame addr) refreshed)

/-- `prover_rings::write_key`, where a key is given. -/
def writeMovedKey (tree : VertexTree) : Option (Nat × Nat) → VertexTree
  | some key => (tree.write .ringEpoch (beBytes 8 key.1)).write .ringSeniority (beBytes 8 key.2)
  | none => tree

/-- `rebuild_hyperedge_with_reassigned_atom`. -/
def reassignLink (linked : List Bytes32) (old new : Bytes32) : List Bytes32 :=
  linked.filter (fun a => a ≠ old ∧ a ≠ new) ++ [new]

/-- `rekey_allocation_with_key`. -/
def rekeyAllocationWithKey (pubkey : Bytes) (prover : Bytes32) (oldFilter newFilter : Bytes)
    (ringKey : Option (Nat × Nat)) (s : GlobalState) : GlobalState :=
  let old := allocationAddress env pubkey oldFilter
  let new := allocationAddress env pubkey newFilter
  match s.vertices old with
  | none => s
  | some tree =>
    let moved := writeMovedKey (tree.write .confirmationFilter newFilter) ringKey
    let s := s.setVertex new moved
    let s := s.setHyperedge prover (reassignLink (s.hyperedges prover) old new)
    -- the vacated slot is retired, not deleted
    if new ≠ old then s.setVertex old (tree.write .status [statusHistoric]) else s

end Operations

/-- `materialize_prover_kick`. -/
def materializeProverKick (tree : VertexTree) (frame : Nat) : VertexTree :=
  ((tree.insert ProverField.status.key [statusKicked]).insert ProverField.kickFrameNumber.key
    (beBytes 8 frame)).insert ProverField.seniority.key (beBytes 8 0)

/-- Kick one linked allocation, where its vertex is present. -/
def kickAllocation (frame : Nat) (s : GlobalState) (addr : Bytes32) : GlobalState :=
  match s.vertices addr with
  | none => s
  | some tree => s.setVertex addr (materializeProverKickAllocation tree frame)

/-- `kick_prover_by_address`. -/
def kickProverByAddress (frame : Nat) (prover : Bytes32) (s : GlobalState) : GlobalState :=
  match s.vertices prover with
  | none => s
  | some tree =>
    let s := s.setVertex prover (materializeProverKick tree frame)
    (s.hyperedges prover).foldl (kickAllocation frame) s

/-- The vertex is an allocation of the prover. -/
def IsAllocationOf (env : GlobalEnv) (prover : Bytes32) (tree : VertexTree) : Prop :=
  tree typeKey = some (computeTypeHash env.poseidon .allocation) ∧
    tree.read .prover = some prover.bytes

namespace SameOwner

variable {t t' : VertexTree}

theorem isAllocationOf_iff (h : SameOwner t t') (env : GlobalEnv) (prover : Bytes32) :
    IsAllocationOf env prover t' ↔ IsAllocationOf env prover t := by
  unfold IsAllocationOf
  rw [h.1, h.2]

theorem writeMovedKey (h : SameOwner t t') (key : Option (Nat × Nat)) :
    SameOwner t (writeMovedKey t' key) := by
  cases key with
  | none => exact h
  | some => exact (h.write (by decide) _).write (by decide) _

theorem kick (t : VertexTree) (frame : Nat) :
    SameOwner t (materializeProverKickAllocation t frame) :=
  ((refl t).write (by decide) _).write (by decide) _

end SameOwner

variable {tree : VertexTree}

/-- An operation on a filter leaves the allocation its prover and refuses a Historic one. -/
theorem applyFilterOp_keeps {o frame : Nat} {filter : Bytes} {op : FilterOp} {tree' : VertexTree}
    (h : applyFilterOp o filter op tree frame = .ok tree') :
    SameOwner tree tree' ∧ tree.statusByte ≠ some statusHistoric := by
  obtain ⟨hsame, hstatus⟩ := filterOp_cases h
  refine ⟨hsame, ?_⟩
  rcases hstatus with ⟨hs, -⟩ | hs | hs | hs <;> rw [hs] <;> decide

section Coverage

variable {env : GlobalEnv} {pubkey : Bytes} {derived : Bytes32 → Prop} {s : GlobalState}

/-- The prover's hyperedge links each of its allocations that is not Historic.  `derived` are the
addresses its calls derive. -/
structure Covered (env : GlobalEnv) (publicKey : Bytes) (derived : Bytes32 → Prop)
    (s : GlobalState) : Prop where
  /-- The prover's vertex has its key and is no allocation. -/
  prover : ∀ {tree : VertexTree}, s.vertices (proverAddressFromPubkey env publicKey) = some tree →
      tree ProverField.publicKey.key = some publicKey ∧
        tree typeKey ≠ some (computeTypeHash env.poseidon .allocation)
  registered : ∀ {a : Bytes32} {tree : VertexTree}, s.vertices a = some tree →
    IsAllocationOf env (proverAddressFromPubkey env publicKey) tree →
      (s.vertices (proverAddressFromPubkey env publicKey)).isSome
  linked : ∀ {a : Bytes32} {tree : VertexTree}, s.vertices a = some tree →
    IsAllocationOf env (proverAddressFromPubkey env publicKey) tree →
      tree.statusByte ≠ some statusHistoric →
        a ∈ s.hyperedges (proverAddressFromPubkey env publicKey)
  own : ∀ a ∈ s.hyperedges (proverAddressFromPubkey env publicKey), derived a
  unshared : ∀ {a : Bytes32} {tree : VertexTree}, derived a → s.vertices a = some tree →
    tree typeKey = some (computeTypeHash env.poseidon .allocation) →
      tree.read .prover = some (proverAddressFromPubkey env publicKey).bytes

theorem setVertex_apply (s : GlobalState) (a b : Bytes32) (tree : VertexTree) :
    (s.setVertex a tree).vertices b = if b = a then some tree else s.vertices b :=
  Store.write_apply _ _ _ _

namespace Covered

variable (h : Covered env pubkey derived s)

include h

/-- Writing one vertex. -/
theorem setVertex {a : Bytes32} (hprover : proverAddressFromPubkey env pubkey = a →
      tree ProverField.publicKey.key = some pubkey ∧
        tree typeKey ≠ some (computeTypeHash env.poseidon .allocation))
    (hstored : IsAllocationOf env (proverAddressFromPubkey env pubkey) tree →
      (s.vertices (proverAddressFromPubkey env pubkey)).isSome)
    (howner : tree typeKey = some (computeTypeHash env.poseidon .allocation) →
      tree.read .prover = some (proverAddressFromPubkey env pubkey).bytes)
    (hlink : IsAllocationOf env (proverAddressFromPubkey env pubkey) tree →
      tree.statusByte ≠ some statusHistoric →
        a ∈ s.hyperedges (proverAddressFromPubkey env pubkey)) :
    Covered env pubkey derived (s.setVertex a tree) where
  prover := by
    intro t ht
    rw [setVertex_apply] at ht
    split at ht
    · rename_i ha
      cases ht
      exact hprover ha
    · exact h.prover ht
  registered := by
    intro b t ht halloc
    rw [setVertex_apply] at ht ⊢
    split
    · rfl
    split at ht
    · cases ht
      exact hstored halloc
    · exact h.registered ht halloc
  linked := by
    intro b t ht halloc hlive
    rw [setVertex_apply] at ht
    split at ht
    · rename_i hb
      cases ht
      exact hb ▸ hlink halloc hlive
    · exact h.linked ht halloc hlive
  own := h.own
  unshared := by
    intro b t hb ht hallocType
    rw [setVertex_apply] at ht
    split at ht
    · cases ht
      exact howner hallocType
    · exact h.unshared hb ht hallocType

/-- A vertex that is no allocation, away from the prover's own. -/
theorem setOther {a : Bytes32} (ha : proverAddressFromPubkey env pubkey ≠ a)
    (htype : tree typeKey ≠ some (computeTypeHash env.poseidon .allocation)) :
    Covered env pubkey derived (s.setVertex a tree) :=
  h.setVertex (fun heq => absurd heq ha) (fun halloc => absurd halloc.1 htype)
    (fun halloc => absurd halloc htype) (fun halloc => absurd halloc.1 htype)

/-- The prover's own vertex. -/
theorem setProver (hkey : tree ProverField.publicKey.key = some pubkey)
    (htype : tree typeKey ≠ some (computeTypeHash env.poseidon .allocation)) :
    Covered env pubkey derived (s.setVertex (proverAddressFromPubkey env pubkey) tree) :=
  h.setVertex (fun _ => ⟨hkey, htype⟩) (fun halloc => absurd halloc.1 htype)
    (fun halloc => absurd halloc htype) (fun halloc => absurd halloc.1 htype)

/-- More links, to derived addresses. -/
theorem setLinks {links : List Bytes32}
    (hmore : ∀ a ∈ s.hyperedges (proverAddressFromPubkey env pubkey), a ∈ links)
    (hown : ∀ a ∈ links, derived a) :
    Covered env pubkey derived
      (s.setHyperedge (proverAddressFromPubkey env pubkey) links) where
  prover := h.prover
  registered := h.registered
  linked := by
    intro a t ht halloc hlive
    show a ∈ update s.hyperedges _ links _
    rw [update_self]
    exact hmore a (h.linked ht halloc hlive)
  own := by
    intro a ha
    have hlinks : (s.setHyperedge (proverAddressFromPubkey env pubkey) links).hyperedges
        (proverAddressFromPubkey env pubkey) = links := update_self _ _ _
    rw [hlinks] at ha
    exact hown a ha
  unshared := h.unshared

end Covered

theorem mem_extendHyperedge {linked added : List Bytes32} {a : Bytes32} :
    a ∈ extendHyperedge linked added ↔ a ∈ linked ∨ a ∈ added := by
  unfold extendHyperedge
  rw [mem_append, mem_filter, decide_eq_true_eq]
  tauto

/-- A field of the prover's vertex other than its key. -/
theorem Covered.insertProver (h : Covered env pubkey derived s)
    (htree : s.vertices (proverAddressFromPubkey env pubkey) = some tree)
    (fields : List (ProverField × Bytes)) (hfields : ∀ f ∈ fields, f.1 ≠ .publicKey) :
    Covered env pubkey derived (s.setVertex (proverAddressFromPubkey env pubkey)
      (fields.foldl (fun t f => t.insert f.1.key f.2) tree)) := by
  have hsame : ∀ (fields : List (ProverField × Bytes)) (t : VertexTree),
      (∀ f ∈ fields, f.1 ≠ .publicKey) →
        (fields.foldl (fun t f => t.insert f.1.key f.2) t) ProverField.publicKey.key =
            t ProverField.publicKey.key ∧
          (fields.foldl (fun t f => t.insert f.1.key f.2) t) typeKey = t typeKey := by
    intro fields
    induction fields with
    | nil => exact fun t _ => ⟨rfl, rfl⟩
    | cons f fields ih =>
      intro t hf
      obtain ⟨hkey, htype⟩ := ih (t.insert f.1.key f.2) (fun g hg => hf g (mem_cons_of_mem f hg))
      have hne : ProverField.publicKey.key ≠ f.1.key := fun heq =>
        hf f mem_cons_self (key_injective heq).symm
      exact ⟨hkey.trans (VertexTree.insert_other _ _ hne),
        htype.trans (VertexTree.insert_other _ _ (typeKey_ne_orderToKey _))⟩
  obtain ⟨hkey, htype⟩ := hsame fields tree hfields
  exact h.setProver (hkey.trans (h.prover htree).1) (htype ▸ (h.prover htree).2)

theorem Covered.deriveProverStatus {s' : GlobalState} (h : Covered env pubkey derived s)
    (hok : deriveProverStatus s (proverAddressFromPubkey env pubkey) = .ok s') :
    Covered env pubkey derived s' := by
  obtain ⟨_, htree, hok⟩ := okOr_bind.mp hok
  obtain ⟨-, -, hok⟩ := bind_ok.mp hok
  dsimp only at hok
  split at hok
  · cases hok
    exact h
  · cases hok
    exact h.insertProver htree [(.status, _)] (by simp)

end Coverage

end Global

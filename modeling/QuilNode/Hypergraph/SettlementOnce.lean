import QuilNode.Hypergraph.Engine
import QuilNode.Lib.Run

/-!
# A settlement record funds one bundle

Two facts about the marker of an admitted claim carry through everything the engine does
afterwards: a read at its address returns the marker, so the claim and every vertex operation
there are refused; and the pending cell holds it without a tombstone, so publication keeps the
first fact.
-/

namespace Hypergraph

open Results List State Run ExecutionChange

/-- The claims by which a record is known: its destination and its receipt. -/
abbrev ClaimKey := Bytes32 × Bytes32

/-- Where the consumption marker of a record is. -/
def markerLocation (p : Primitives) (key : ClaimKey) : Location :=
  ⟨key.1, p.consumptionMarker key.1 key.2⟩

/-- The marker is read back, and publication will leave it visible. -/
structure Marked (p : Primitives) (s : State) (key : ClaimKey) : Prop where
  view : s.view .vertex key.1 (p.consumptionMarker key.1 key.2) = some p.markerRecord
  pending : s.pendingCell .vertex (markerLocation p key) = ⟨some p.markerRecord, none⟩

/-- The marker is published. -/
def Recorded (p : Primitives) (s : State) (key : ClaimKey) : Prop :=
  s.crdt.cell .vertex (markerLocation p key) = ⟨some p.markerRecord, none⟩

variable {admitted : Option AdmittedClaim}

section Steps

variable {p : Primitives} {config : CrdtConfig} {ctx : MessageContext} {s s' : State}
  {key : ClaimKey}

theorem Marked.pushed {x : ExecutionChange} (hmarked : Marked p s key) (hpushed : Pushed s x s')
    (hx : ¬ x.Touches .vertex (markerLocation p key)) : Marked p s' key where
  view := (hpushed.view_of_not_touches hx).trans hmarked.view
  pending := by rw [hpushed.pendingCell, onCell_of_not_touches _ hx, hmarked.pending]

theorem Recorded.marked_abort (h : Recorded p s key) : Marked p s.abort key where
  view := by
    have hcell : s.abort.crdt.cell .vertex ⟨key.1, p.consumptionMarker key.1 key.2⟩ =
      ⟨some p.markerRecord, none⟩ := h
    have hvisible : (⟨some p.markerRecord, none⟩ : Cell).visible = some p.markerRecord := by
      simp [Cell.visible, p.markerRecord_isEmpty]
    unfold view
    rw [hcell, hvisible]
    rfl
  pending := h

/-- Publication turns a marked key into a recorded one. -/
theorem Marked.commit {faults : Faults} (hmarked : Marked p s key)
    (hcovered : config.covers (markerLocation p key) = true)
    (h : s.commit config faults = .ok s') : Recorded p s' key :=
  (commit_cell h hcovered).trans hmarked.pending

/-- What one request does: nothing, or one change that stays away from every
marker. -/
def Spares (p : Primitives) (s s' : State) : Prop :=
  s' = s ∨ ∃ x, Pushed s x s' ∧ ∀ key, Marked p s key → ¬ x.Touches .vertex (markerLocation p key)

theorem spares_metadata {domain : Domain} {value : Bytes}
    (h : s.set ctx.faults domain metadataAddress vertexAdds value = .ok s') :
    Spares p s s' := by
  obtain ⟨_, -, hpushed⟩ := set_ok h
  refine Or.inr ⟨_, hpushed, ?_⟩
  rintro key - ⟨-, -, haddress⟩
  exact p.consumptionMarker_ne key.1 key.2 haddress.symm

/-- A vertex operation that passed the marker gate is not at a marker. -/
theorem marker_gate {domain dataAddress : Bytes32} {blob : Option Bytes}
    (hget : s.get ctx.faults (Domain.of domain) dataAddress vertexAdds = .ok blob)
    (hgate : blob.any p.isConsumptionMarker = false) (hmarked : Marked p s key) :
    ¬ (key.1 = domain ∧ p.consumptionMarker key.1 key.2 = dataAddress) := by
  rintro ⟨rfl, rfl⟩
  rw [get_ok hget, hmarked.view] at hgate
  simp [p.isConsumptionMarker_markerRecord] at hgate

theorem processAtom_ok {validated : Result Op}
    (h : processAtom p ctx s validated = .ok s') :
    ∃ op u, validated = .ok op ∧ requireNoMarker p ctx s op = .ok u ∧
      materializeOp p ctx s op = .ok s' := by
  simp only [processAtom, invokeHypergraphOp, bind_ok] at h
  obtain ⟨op, hop, -, -, -, -, -, -, -, -, -, -, u, hgate, h⟩ := h
  exact ⟨op, u, hop, hgate, h⟩

theorem materializeOp_spares {op : Op} {u : Unit} (hgate : requireNoMarker p ctx s op = .ok u)
    (h : materializeOp p ctx s op = .ok s') : Spares p s s' := by
  cases op with
  | vertexAdd =>
    obtain ⟨_, hget, hgate⟩ := bind_ok.mp hgate
    obtain ⟨_, -, h⟩ := bind_ok.mp h
    obtain ⟨_, -, hpushed⟩ := set_ok h
    refine Or.inr ⟨_, hpushed, ?_⟩
    rintro key hmarked ⟨-, hdomain, haddress⟩
    exact marker_gate hget (ensure_ok.mp hgate) hmarked
      ⟨(Option.some.inj hdomain).symm, haddress.symm⟩
  | vertexRemove =>
    obtain ⟨_, hget, hgate⟩ := bind_ok.mp hgate
    rw [← Except.ok.inj h]
    refine Or.inr ⟨_, s.delete_pushed _ _ _, ?_⟩
    rintro key hmarked ⟨-, hdomain, haddress⟩
    exact marker_gate hget (ensure_ok.mp hgate) hmarked
      ⟨(Option.some.inj hdomain).symm, haddress.symm⟩
  | hyperedgeAdd =>
    obtain ⟨_, -, hpushed⟩ := set_ok h
    refine Or.inr ⟨_, hpushed, ?_⟩
    rintro key - ⟨hkind, -⟩
    cases hkind
  | hyperedgeRemove =>
    rw [← Except.ok.inj h]
    refine Or.inr ⟨_, s.delete_pushed _ _ _, ?_⟩
    rintro key - ⟨hkind, -⟩
    cases hkind

/-- What an accepted deployment has written. -/
theorem processDeployment_ok {size : Nat} {parsed : Result HypergraphDeploy}
    (h : processInnerOp p ctx s ⟨size, .hypergraphDeployment parsed⟩ = .ok s') :
    ∃ config rdf tree blob, parsed = .ok ⟨some config, rdf⟩ ∧
      buildHypergraphConfigurationMetadataTree p.hashes config = .ok tree ∧
      initMetadataVertex p.hashes tree rdf (hypergraphBaseDomain p) = .ok blob ∧
      s.set ctx.faults (Domain.of (hypergraphDeployDomain p tree)) metadataAddress vertexAdds
        blob = .ok s' := by
  obtain ⟨⟨config, rdf⟩, hparsed, h⟩ := bind_ok.mp h
  obtain ⟨_, hvalid, h⟩ := bind_ok.mp h
  obtain ⟨-, -, h⟩ := bind_ok.mp h
  cases config with
  | none => cases hvalid
  | some config =>
    obtain ⟨tree, htree, h⟩ := bind_ok.mp h
    obtain ⟨blob, hblob, h⟩ := bind_ok.mp h
    exact ⟨config, rdf, tree, blob, hparsed, htree, hblob, h⟩

/-- What an accepted update has read and written. -/
theorem processUpdate_ok {size : Nat} {parsed : Result HypergraphUpdate}
    (h : processInnerOp p ctx s ⟨size, .hypergraphUpdate parsed⟩ = .ok s') :
    ∃ update blob next, parsed = .ok update ∧
      s.get ctx.faults ctx.address metadataAddress vertexAdds = .ok (some blob) ∧
      updatedMetadata p blob update.config update.rdfSchema = .ok next ∧
      s.set ctx.faults ctx.address metadataAddress vertexAdds next = .ok s' := by
  obtain ⟨update, hparsed, h⟩ := bind_ok.mp h
  obtain ⟨-, -, h⟩ := bind_ok.mp h
  obtain ⟨-, -, h⟩ := bind_ok.mp h
  obtain ⟨current, hget, h⟩ := bind_ok.mp h
  split at h
  · cases h
  · rename_i blob hblob
    obtain ⟨next, hnext, h⟩ := bind_ok.mp h
    rw [Option.filter_eq_some_iff] at hblob
    exact ⟨update, blob, next, hparsed, by rw [hget, hblob.1], hnext, h⟩

/-- **Every request spares the markers.** -/
theorem processInnerOp_spares {r : Request} (h : processInnerOp p ctx s r = .ok s') :
    Spares p s s' := by
  obtain ⟨size, inner⟩ := r
  cases inner with
  | settlementClaim => exact Or.inl (Except.ok.inj h).symm
  | vertexAdd | vertexRemove | hyperedgeAdd | hyperedgeRemove =>
    obtain ⟨_, _, -, hgate, h⟩ := processAtom_ok h
    exact materializeOp_spares hgate h
  | hypergraphDeployment =>
    obtain ⟨_, _, _, _, -, -, -, h⟩ := processDeployment_ok h
    exact spares_metadata h
  | hypergraphUpdate =>
    obtain ⟨_, _, _, -, -, -, h⟩ := processUpdate_ok h
    exact spares_metadata h
  | hypergraphConfiguration => cases h
  | tokenConfiguration | compute | other => exact Or.inl (Except.ok.inj h).symm

theorem Spares.crdt (h : Spares p s s') : s'.crdt = s.crdt := by
  rcases h with rfl | ⟨x, hpushed, -⟩
  · rfl
  · exact hpushed.1

theorem Spares.marked (h : Spares p s s') (hmarked : Marked p s key) : Marked p s' key := by
  rcases h with rfl | ⟨x, hpushed, hx⟩
  · exact hmarked
  · exact hmarked.pushed hpushed (hx key hmarked)

/-- The requests of a message, one after the other. -/
theorem requests_spare {requests : List Request}
    (h : requests.foldlM (processInnerOp p ctx) s = .ok s') :
    s'.crdt = s.crdt ∧ ∀ key, Marked p s key → Marked p s' key := by
  induction requests generalizing s with
  | nil =>
    rw [← pure_ok.mp h]
    exact ⟨rfl, fun key hmarked => hmarked⟩
  | cons r rs ih =>
    rw [foldlM_cons, bind_ok] at h
    obtain ⟨_, ht, h⟩ := h
    have hspares := processInnerOp_spares ht
    obtain ⟨hcrdt, hkeep⟩ := ih h
    exact ⟨hcrdt.trans hspares.crdt, fun key hmarked => hkeep key (hspares.marked hmarked)⟩

/-- The key of the claim a message opens with. -/
def Message.claimKey (msg : Message) : Option ClaimKey :=
  match msg.decode with
  | .ok (requests, _) => (openingClaim requests).map fun c => (c.application, c.receipt)
  | .error _ => none

/-- No tombstone lies at the marker's address, neither published nor pending, and
the node stores the address. -/
def Claimable (p : Primitives) (config : CrdtConfig) (s : State) (key : ClaimKey) : Prop :=
  config.covers (markerLocation p key) = true ∧
    (s.pendingCell .vertex (markerLocation p key)).removes = none

/-- What an executed message has done to the changeset. -/
structure Executed (p : Primitives) (s : State) (message : Message)
    (admitted : Option AdmittedClaim) (s' : State) : Prop where
  crdt : s'.crdt = s.crdt
  keeps : ∀ key, Marked p s key → Marked p s' key
  /-- An admitted claim's marker was not readable before. -/
  fresh : admitted.isSome = true → ∃ key, message.claimKey = some key ∧ ¬ Marked p s key
  marks : admitted.isSome = true → ∀ key, message.claimKey = some key →
    (s.pendingCell .vertex (markerLocation p key)).removes = none → Marked p s' key

/-- Admission alone. -/
theorem executed_admission {mode : ExecutionMode} {msg : Message}
    {requests : List (Option Request)} {timestamp : Int}
    (hdecode : msg.decode = .ok (requests, timestamp))
    (h : admitBundle p (ctx.payment mode) s ctx.address requests timestamp 0 =
      .ok (admitted, s')) : Executed p s msg admitted s' := by
  rcases admitBundle_ok h with ⟨rfl, rfl, -⟩ | ⟨claim, event, hopening, -, hunread, hevent, hpushed⟩
  · exact ⟨rfl, fun key hmarked => hmarked, by simp, by simp⟩
  have hkey : msg.claimKey = some (claim.application, claim.receipt) := by
    simp [Message.claimKey, hdecode, hopening]
  have hunmarked : ¬ Marked p s (claim.application, claim.receipt) := by
    intro hmarked
    rw [hmarked.view] at hunread
    simp [p.markerRecord_isEmpty] at hunread
  refine ⟨hpushed.1, ?_, fun _ => ⟨_, hkey, hunmarked⟩, ?_⟩
  · intro key hmarked
    refine hmarked.pushed hpushed ?_
    rintro ⟨-, hdomain, haddress⟩
    -- at the same place the read would have found the marker
    have happ : claim.application = key.1 := Option.some.inj hdomain
    have hdata : p.consumptionMarker claim.application claim.receipt =
      p.consumptionMarker key.1 key.2 := haddress
    rw [happ] at hunread hdata
    rw [hdata, hmarked.view] at hunread
    simp [p.markerRecord_isEmpty] at hunread
  · intro _ key hkey' hfree
    obtain rfl := Option.some.inj (hkey.symm.trans hkey')
    refine ⟨hpushed.view_self, ?_⟩
    have htouch : Touches .vertex (markerLocation p (claim.application, claim.receipt))
        (.state ⟨Domain.of claim.application,
          p.consumptionMarker claim.application claim.receipt, vertexAdds, event,
          p.markerRecord⟩) := ⟨rfl, rfl, rfl⟩
    rw [hpushed.pendingCell, onCell, if_pos htouch]
    cases event with
    | delete => exact absurd rfl hevent
    | create | update => simp [vertexAdds, Cell.add, hfree]

/-- Admission and all requests. -/
theorem executeMessage_ok {mode : ExecutionMode} {msg : Message}
    (h : executeMessage p mode ctx s msg = .ok (admitted, s')) :
    Executed p s msg admitted s' := by
  obtain ⟨⟨_, _⟩, hdecode, h⟩ := bind_ok.mp h
  obtain ⟨⟨_, _⟩, hadmit, h⟩ := bind_ok.mp h
  obtain ⟨_, hrequests, h⟩ := bind_ok.mp h
  obtain ⟨rfl, rfl⟩ := Prod.mk.inj (pure_ok.mp h)
  have hadmitted := executed_admission hdecode hadmit
  obtain ⟨hcrdt, hkeep⟩ := requests_spare hrequests
  exact {
    crdt := hcrdt.trans hadmitted.crdt
    keeps := fun key hmarked => hkeep key (hadmitted.keeps key hmarked)
    fresh := hadmitted.fresh
    marks := fun hsome key hkey hfree => hkeep key (hadmitted.marks hsome key hkey hfree) }

end Steps

/-- The engine's state, with the keys of the claims admitted by the messages whose
writes the changeset holds. -/
structure EngineState where
  state : State
  admitted : List ClaimKey

/-- A message, or a durable frame commit. -/
inductive EngineStep where
  | message (ctx : MessageContext) (msg : Message)
  | commitFrame

/-- What a step answers, and the claims whose markers it publishes: their bundles
are committed. -/
structure EngineResult where
  result : Result (Option AdmittedClaim)
  funded : List ClaimKey

abbrev EngineEvent := Run.Event EngineState EngineStep EngineResult

section Runs

variable (p : Primitives) (config : CrdtConfig) (mode : ExecutionMode)

/-- The claims whose markers are in the changeset once the message was executed. -/
def carried (ctx : MessageContext) (e : EngineState) (msg : Message) : List ClaimKey :=
  match msg with
  | .unsupported _ => e.admitted
  | msg =>
    match executeMessage p mode ctx e.state msg with
    | .error _ => []
    | .ok (admitted, _) =>
      e.admitted ++ if admitted.isSome then msg.claimKey.toList else []

def engineStep (e : EngineState) : EngineStep → EngineResult × EngineState
  | .commitFrame =>
    (⟨.ok none, []⟩, { e with state := { e.state with crdt := e.state.crdt.publish } })
  | .message ctx msg =>
    let next := processMessage p config mode ctx e.state msg
    let claims := carried p mode ctx e msg
    match next.1 with
    | .ok admitted => (⟨.ok admitted, claims⟩, ⟨next.2, []⟩)
    | .error error => (⟨.error error, []⟩, ⟨next.2, claims⟩)

/-- The events of a run of the engine. -/
def engineEvents (start : State) (steps : List EngineStep) : List EngineEvent :=
  Run.events (engineStep p config mode) ⟨start, []⟩ steps

/-- All claims whose bundles were committed, in order. -/
def fundings (events : List EngineEvent) : List ClaimKey :=
  events.flatMap fun e => e.result.funded

/-- A message that opens with a claim finds its marker's address stored by the
node and free of tombstones. -/
def ClaimsUntouched (e : EngineEvent) : Prop :=
  ∀ ctx msg key, e.input = .message ctx msg → msg.claimKey = some key →
    Claimable p config e.before.state key

/-- The claims committed so far are recorded, those in the changeset are marked,
and no claim is among them twice. -/
structure Accounted (history : List EngineEvent) (e : EngineState) : Prop where
  nodup : (fundings history ++ e.admitted).Nodup
  covered : ∀ key ∈ fundings history ++ e.admitted, config.covers (markerLocation p key) = true
  marked : ∀ key ∈ fundings history ++ e.admitted, Marked p e.state key
  recorded : ∀ key ∈ fundings history, Recorded p e.state key

variable {p config mode} {ctx : MessageContext} {msg : Message}
  {history : List EngineEvent} {e : EngineState}

theorem fundings_concat (history : List EngineEvent) (x : EngineEvent) :
    fundings (history ++ [x]) = fundings history ++ x.result.funded := by
  simp [fundings]

variable (h : Accounted p config history e)

include h

variable {x : EngineEvent}

/-- After an error everything but the published markers is dropped. -/
theorem Accounted.aborted (hfunded : x.result.funded = []) :
    Accounted p config (history ++ [x]) ⟨e.state.abort, []⟩ := by
  have hhistory : fundings (history ++ [x]) = fundings history := by
    rw [fundings_concat, hfunded, append_nil]
  refine ⟨?_, ?_, ?_, ?_⟩ <;> simp only [hhistory, append_nil]
  · exact (nodup_append.mp h.nodup).1
  · exact fun key hkey => h.covered key (mem_append_left _ hkey)
  · exact fun key hkey => Recorded.marked_abort (h.recorded key hkey)
  · exact h.recorded

/-- An executed message whose marker was claimable: its claim joins the changeset's. -/
theorem Accounted.executed {s' : State} (hexecuted : Executed p e.state msg admitted s')
    (hclaimable : ∀ key, msg.claimKey = some key → Claimable p config e.state key) :
    Accounted p config history
      ⟨s', e.admitted ++ if admitted.isSome then msg.claimKey.toList else []⟩ := by
  have hrecorded : ∀ key ∈ fundings history, Recorded p s' key := by
    intro key hkey
    have hold := h.recorded key hkey
    unfold Recorded at hold ⊢
    rw [hexecuted.crdt]
    exact hold
  cases hsome : admitted.isSome with
  | false =>
    simp only [Bool.false_eq_true, if_false, append_nil]
    exact ⟨h.nodup, h.covered, fun key hkey => hexecuted.keeps key (h.marked key hkey), hrecorded⟩
  | true =>
    obtain ⟨key, hkey, hfresh⟩ := hexecuted.fresh hsome
    have hnew : key ∉ fundings history ++ e.admitted := fun hmem => hfresh (h.marked key hmem)
    have hcell := hclaimable key hkey
    simp only [if_true, hkey, Option.toList_some]
    refine ⟨?_, ?_, ?_, hrecorded⟩
    · rw [← append_assoc]
      refine nodup_append.mpr ⟨h.nodup, nodup_singleton key, ?_⟩
      intro a ha b hb hab
      rw [mem_singleton.mp hb] at hab
      exact hnew (hab ▸ ha)
    · intro k hk
      rw [← append_assoc, mem_append, mem_singleton] at hk
      rcases hk with hk | rfl
      · exact h.covered k hk
      · exact hcell.1
    · intro k hk
      rw [← append_assoc, mem_append, mem_singleton] at hk
      rcases hk with hk | rfl
      · exact hexecuted.keeps k (h.marked k hk)
      · exact hexecuted.marks hsome k hkey hcell.2

/-- Publication moves the changeset's claims to the committed ones. -/
theorem Accounted.published {faults : Faults} {s' : State}
    (hcommit : e.state.commit config faults = .ok s') (hfunded : x.result.funded = e.admitted) :
    Accounted p config (history ++ [x]) ⟨s'.abort, []⟩ := by
  have hhistory : fundings (history ++ [x]) = fundings history ++ e.admitted := by
    rw [fundings_concat, hfunded]
  have hrecorded : ∀ key ∈ fundings history ++ e.admitted, Recorded p s'.abort key :=
    fun key hkey => show Recorded p s' key from
      (h.marked key hkey).commit (h.covered key hkey) hcommit
  refine ⟨?_, ?_, ?_, ?_⟩ <;> simp only [hhistory, append_nil]
  · exact h.nodup
  · exact h.covered
  · exact fun key hkey => Recorded.marked_abort (s := s') (hrecorded key hkey)
  · exact hrecorded

/-- An event without committed claims leaves the account of the history alone. -/
theorem Accounted.quiet
    (hfunded : x.result.funded = []) : Accounted p config (history ++ [x]) e := by
  have hhistory : fundings (history ++ [x]) = fundings history := by
    rw [fundings_concat, hfunded, append_nil]
  refine ⟨?_, ?_, ?_, ?_⟩ <;> rw [hhistory]
  · exact h.nodup
  · exact h.covered
  · exact h.marked
  · exact h.recorded

/-- A frame commit changes no cell. -/
theorem Accounted.frame : Accounted p config history
      { e with state := { e.state with crdt := e.state.crdt.publish } } where
  nodup := h.nodup
  covered := h.covered
  marked := fun key hkey => {
    view := by
      have hview := (h.marked key hkey).view
      unfold view at hview ⊢
      rw [publish_cell]
      exact hview
    pending := by
      have hpending := (h.marked key hkey).pending
      unfold pendingCell at hpending ⊢
      rw [publish_cell]
      exact hpending }
  recorded := fun key hkey => (publish_cell _ _ _).trans (h.recorded key hkey)

/-- A message of a supported type is executed, and published or dropped. -/
theorem accounted_message
    (hsupported : ∀ error, msg ≠ .unsupported error)
    (hclaimable : ∀ key, msg.claimKey = some key → Claimable p config e.state key) :
    Accounted p config
      (history ++ [event (engineStep p config mode) e (.message ctx msg)])
      (engineStep p config mode e (.message ctx msg)).2 := by
  have hprocess := processMessage.eq_2 p config mode ctx e.state msg hsupported
  have hcarried := carried.eq_2 p mode ctx e msg hsupported
  cases hexecute : executeMessage p mode ctx e.state msg with
  | error error =>
    have hstep : engineStep p config mode e (.message ctx msg) =
        (⟨.error error, []⟩, ⟨e.state.abort, []⟩) := by
      simp only [engineStep, hprocess, hcarried, hexecute]
    rw [hstep]
    exact h.aborted (by simp [hstep])
  | ok executed =>
    obtain ⟨admitted, s'⟩ := executed
    simp only [hexecute] at hcarried
    have hnext := h.executed (executeMessage_ok hexecute) hclaimable
    rw [← hcarried] at hnext
    cases hcommit : s'.commit config ctx.faults with
    | error error =>
      have hstep : engineStep p config mode e (.message ctx msg) =
          (⟨.error error, []⟩, ⟨s', carried p mode ctx e msg⟩) := by
        simp only [engineStep, hprocess, hexecute, hcommit]
      rw [hstep]
      exact hnext.quiet (by simp [hstep])
    | ok s'' =>
      have hstep : engineStep p config mode e (.message ctx msg) =
          (⟨.ok admitted, carried p mode ctx e msg⟩, ⟨s''.abort, []⟩) := by
        simp only [engineStep, hprocess, hexecute, hcommit]
      rw [hstep]
      exact hnext.published hcommit (by simp [hstep])

theorem accounted_step (step : EngineStep)
    (hok : ClaimsUntouched p config (event (engineStep p config mode) e step)) :
    Accounted p config (history ++ [event (engineStep p config mode) e step])
      (engineStep p config mode e step).2 := by
  cases step with
  | commitFrame => exact h.frame.quiet rfl
  | message ctx msg =>
    by_cases hsupported : ∃ error, msg = .unsupported error
    · obtain ⟨_, rfl⟩ := hsupported
      exact h.quiet rfl
    · exact accounted_message h (fun error heq => hsupported ⟨error, heq⟩)
        (fun key hkey => hok ctx msg key rfl hkey)

end Runs

/-- **A settlement record funds at most one bundle** where claims find their markers' addresses
covered and without a tombstone. -/
theorem settlement_funds_one_bundle_when_untouched (p : Primitives) (config : CrdtConfig)
    (mode : ExecutionMode) (start : State) (steps : List EngineStep)
    (huntouched : ∀ e ∈ engineEvents p config mode start steps, ClaimsUntouched p config e) :
    (fundings (engineEvents p config mode start steps)).Nodup := by
  have hstart : Accounted p config [] ⟨start, []⟩ :=
    ⟨nodup_nil, by simp [fundings], by simp [fundings], by simp [fundings]⟩
  have hrun := history_invariant (engineStep p config mode) (Accounted p config)
    (ClaimsUntouched p config) hstart (fun log e step h hok => accounted_step h step hok) steps
    huntouched
  exact (nodup_append.mp hrun.nodup).1

/-- Small hashes and encodings. -/
def plainPrimitives : Primitives where
  consumptionMarker := fun _ receipt => receipt >>> 1
  consumptionMarker_ne := by
    intro _ receipt h
    have hnat := congrArg BitVec.toNat h
    have hlt := receipt.isLt
    simp only [metadataAddress, BitVec.toNat_ushiftRight, BitVec.toNat_allOnes,
      Nat.shiftRight_eq_div_pow] at hnat
    omega
  markerKind := [1]
  vertexTreeToBlob := fun tree => tree.flatMap fun field => field.1 ++ field.2
  rebuildVertexTree := fun blob => if blob.length ≤ 32 then [] else [(blob.take 32, blob.drop 32)]
  rebuild_marker := by decide
  marker_ne_nil := by decide
  splitVertexAddProofChunks := fun data => .ok [data]
  encryptedToVertexTree := fun chunks => .ok (chunks.map fun chunk => ([0], chunk))
  bundleContext := fun _ _ => .ok 9
  hashes := ⟨fun _ => 0, fun _ => 0⟩
  poseidon := fun _ => 6
  validateRdfSchema := fun _ => .ok ()
  validateRdfEvolution := fun _ _ => .ok ()

/-- Application 5 at a price of one per byte; every check passes. -/
def plainContext : MessageContext where
  frameNumber := 1
  finalizedGlobalFrame := some 1
  venue := none
  shard := .path [] (by decide)
  feeMultiplier := 1
  address := Domain.of 5
  faults := fun _ => none
  clock := some fun _ _ => .ok 3
  verifyMembership := fun _ _ => .ok ()
  verifyClaimant := fun _ _ => .ok ()
  verifyOpSignature := fun _ => .ok .verified
  verifyVertexAddProofs := fun _ => .ok ()
  verifyUpdate := fun _ _ => .ok ()

/-- A claim of 1000 units on the record with this receipt. -/
def plainClaim (receipt : Bytes32) : Request :=
  ⟨300, .settlementClaim (.ok ⟨0, 5, 1, 3, receipt, 1000, 9, 0, 0, 0, [], [], []⟩)⟩

/-- The removal of a vertex that was never added, signed by the write key. -/
def plainRemoval (addr : Bytes32) : Request :=
  ⟨100, .vertexRemove (.ok ⟨some 5, some addr, [1]⟩)⟩

def claimTwice : List EngineStep :=
  [.message plainContext (.bundle [some (plainClaim 30)] 0), .commitFrame,
    .message plainContext (.bundle [some (plainClaim 30)] 0)]

/-- The second bundle that cites the record is refused. -/
theorem claimed_record_funds_once :
    (fundings (engineEvents plainPrimitives plainConfig .application emptyState claimTwice)).Nodup := by
  apply settlement_funds_one_bundle_when_untouched
  intro e he ctx msg key hinput hkey
  simp only [engineEvents, claimTwice, events, mem_cons, not_mem_nil, or_false] at he
  rcases he with rfl | rfl | rfl
  · cases hinput
    obtain rfl := Option.some.inj (hkey.symm.trans (b := some (5, 30)) rfl)
    exact ⟨rfl, by decide +kernel⟩
  · cases hinput
  · cases hinput
    obtain rfl := Option.some.inj (hkey.symm.trans (b := some (5, 30)) rfl)
    exact ⟨rfl, by decide +kernel⟩

/-- A bundle paid by another record removes the marker's address first; then the
record is claimed twice. -/
def removeThenClaim : List EngineStep :=
  [.message plainContext (.bundle [some (plainClaim 20),
      some (plainRemoval (plainPrimitives.consumptionMarker 5 30))] 0), .commitFrame,
    .message plainContext (.bundle [some (plainClaim 30)] 0), .commitFrame,
    .message plainContext (.bundle [some (plainClaim 30)] 0)]

/-- Both bundles that cite the record are committed. -/
theorem removed_marker_address_funds_twice :
    ¬ (fundings (engineEvents plainPrimitives plainConfig .application emptyState
      removeThenClaim)).Nodup := by
  decide

end Hypergraph

import QuilNode.Global.HandoffChange

/-!
# One history for each shard

Every successful call is a sequence of changes, so a run of calls keeps their invariant.  That is
`OneHistory`: each filter's sessions are numbered without gaps up to the head, only the head is
live, a session ends once, and a successor starts where its predecessor ended.
-/

namespace Handoff

open Results Option List Except Prod

/-! ## Calls are sequences of changes -/

section Calls

variable {env} {s s' : Records} {id r authorization : Bytes32} {x : Session} {filter : Bytes}
  {frame : Nat} {target : Target} {rings : Result Unit} {members : Option (List Bytes)}
  {eligible : Option (Bytes → Result (List Bytes))}

/-- A change that writes no seal. -/
def Quiet (env : HandoffEnv) (s s' : Records) : Prop := Change env s s' ∧ s'.seals = s.seals

theorem Quiet.steps (h : Relation.ReflTransGen (Quiet env) s s') :
    Relation.ReflTransGen (Change env) s s' ∧ s'.seals = s.seals := by
  induction h with
  | refl => exact ⟨.refl, rfl⟩
  | tail _ hquiet ih => exact ⟨ih.1.tail hquiet.1, hquiet.2.trans ih.2⟩

theorem session_ok {found : Option Session} (h : session env s id = .ok found) :
    s.sessions id = found ∧ ∀ y ∈ found, y.id env = .ok id := by
  unfold session at h
  cases hx : s.sessions id with
  | none =>
    rw [hx] at h
    obtain rfl := ok.inj h
    simp
  | some =>
    rw [hx] at h
    obtain ⟨_, hid, h⟩ := bind_ok.mp h
    obtain ⟨heq, h⟩ := ensure_bind.mp h
    obtain rfl := heq
    obtain rfl := pure_ok.mp h
    simpa using hid

/-- A head found is a stored session of its filter. -/
theorem head_some (h : head env s filter = .ok (some x)) :
    ∃ id, s.heads filter = some id ∧ s.sessions id = some x ∧ x.id env = .ok id ∧
      x.filter = filter := by
  unfold head at h
  cases hx : s.heads filter with
  | none => rw [hx] at h; cases h
  | some id =>
    rw [hx] at h
    obtain ⟨_, hfound, h⟩ := bind_ok.mp h
    obtain ⟨_, hy, h⟩ := okOr_bind.mp h
    obtain ⟨hfilter, h⟩ := ensure_bind.mp h
    obtain rfl := some.inj (pure_ok.mp h)
    rw [hy] at hfound
    obtain ⟨hsession, hid⟩ := session_ok hfound
    exact ⟨id, rfl, hsession, hid _ rfl, hfilter⟩

theorem head_none (h : head env s filter = .ok none) : s.heads filter = none := by
  unfold head at h
  cases hx : s.heads filter with
  | none => rfl
  | some =>
    rw [hx] at h
    simp only [bind_ok] at h
    obtain ⟨_, _, _, _, _, _, h⟩ := h
    cases pure_ok.mp h

theorem request_some {x : Request} (h : request env s id = .ok (some x)) :
    s.requests id = some x ∧ x.id env = .ok id := by
  unfold request at h
  cases hx : s.requests id with
  | none => rw [hx] at h; cases h
  | some =>
    rw [hx] at h
    obtain ⟨_, hid, h⟩ := bind_ok.mp h
    obtain ⟨heq, h⟩ := ensure_bind.mp h
    obtain rfl := heq
    obtain rfl := some.inj (pure_ok.mp h)
    exact ⟨rfl, hid⟩

/-- A terminal read is an end on record. -/
theorem terminal_some {ended : Terminal} (h : terminal env s r id = .ok (some ended)) :
    EndsAt s r id ended.checkpoint := by
  unfold terminal at h
  cases hseal : s.seals (r, id) with
  | some submission =>
    rw [hseal] at h
    obtain ⟨_, _, h⟩ := bind_ok.mp h
    obtain rfl := some.inj (pure_ok.mp h)
    exact .inl ⟨submission, hseal, rfl⟩
  | none =>
    rw [hseal] at h
    cases hfence : s.fences (r, id) with
    | some =>
      rw [hfence] at h
      obtain rfl := some.inj (ok.inj h)
      exact .inr hfence
    | none =>
      rw [hfence] at h
      cases h

/-- A closed session ended at the checkpoint read. -/
theorem closedCheckpoint_some {checkpoint : Checkpoint}
    (h : closedCheckpoint env s id = .ok (some checkpoint)) :
    ∃ r, s.statuses id = some (.closed r) ∧ EndsAt s r id checkpoint := by
  obtain ⟨value, hstatus, h⟩ := okOr_bind.mp h
  cases value with
  | closed r =>
    obtain ⟨_, hfound, h⟩ := bind_ok.mp h
    obtain ⟨_, hended, h⟩ := okOr_bind.mp h
    obtain rfl := some.inj (pure_ok.mp h)
    rw [hended] at hfound
    exact ⟨r, hstatus, terminal_some hfound⟩
  | active | sealing => cases pure_ok.mp h

/-- The checks of `createSession` and what it writes. -/
theorem createSession_ok (h : createSession env s x = .ok (id, s')) :
    x.id env = .ok id ∧ s.sessions id = none ∧ s.generations (x.filter, x.generation) = none ∧
      s' = { s with
        sessions := s.sessions.write id x
        generations := s.generations.write (x.filter, x.generation) id
        heads := s.heads.write x.filter id } := by
  obtain ⟨_, hid, h⟩ := bind_ok.mp h
  obtain ⟨hgeneration, h⟩ := ensure_bind.mp h
  obtain ⟨_, hfound, h⟩ := bind_ok.mp h
  obtain ⟨hnone, h⟩ := ensure_bind.mp h
  obtain ⟨rfl, rfl⟩ := mk.inj (pure_ok.mp h)
  rw [isNone_iff_eq_none.mp hnone] at hfound
  exact ⟨hid, (session_ok hfound).1, isNone_iff_eq_none.mp hgeneration, rfl⟩

/-- A first session is one change, and no seal. -/
theorem initializeSession_change (h : initializeSession env s rings x = .ok s') :
    Quiet env s s' := by
  obtain ⟨_, _, h⟩ := bind_ok.mp h
  obtain ⟨_, _, h⟩ := bind_ok.mp h
  obtain ⟨_, h⟩ := ensure_bind.mp h
  obtain ⟨_, _, h⟩ := bind_ok.mp h
  obtain ⟨_, hfound, h⟩ := bind_ok.mp h
  obtain ⟨hfirst, h⟩ := ensure_bind.mp h
  simp only [bind_ok] at h
  obtain ⟨⟨_, _⟩, hcreated, _, _, h⟩ := h
  obtain rfl := pure_ok.mp h
  obtain ⟨_, hnone⟩ := hfirst
  rw [isNone_iff_eq_none.mp hnone] at hfound
  have hone : x.generation = 1 := by omega
  obtain ⟨hid, hfresh, hgeneration, rfl⟩ := createSession_ok hcreated
  exact ⟨.begin hid hfresh hgeneration (.inl ⟨head_none hfound, hone⟩) hone, rfl⟩

/-- The sources of a request are active heads. -/
theorem sourceSessions_active {filters : List Bytes} {budget : Nat} {sources : List Session}
    (h : sourceSessions env s filters budget = .ok sources) :
    ∀ x ∈ sources, ∃ id, x.id env = .ok id ∧ s.sessions id = some x ∧
      s.statuses id = some .active := by
  induction filters generalizing budget sources with
  | nil =>
    obtain rfl := ok.inj h
    simp
  | cons filter filters ih =>
    obtain ⟨_, hsource, h⟩ := bind_ok.mp h
    obtain ⟨_, _, h⟩ := bind_ok.mp h
    obtain ⟨_, _, h⟩ := bind_ok.mp h
    obtain ⟨_, hrest, h⟩ := bind_ok.mp h
    obtain rfl := pure_ok.mp h
    intro x hx
    rcases mem_cons.mp hx with rfl | hx
    · obtain ⟨_, hfound, hsource⟩ := bind_ok.mp hsource
      obtain ⟨_, hy, hsource⟩ := okOr_bind.mp hsource
      obtain ⟨id, hid, hsource⟩ := bind_ok.mp hsource
      obtain ⟨_, hvalue, hsource⟩ := okOr_bind.mp hsource
      obtain ⟨hactive, hsource⟩ := ensure_bind.mp hsource
      obtain rfl := pure_ok.mp hsource
      obtain rfl := hactive
      rw [hy] at hfound
      obtain ⟨_, -, hsession, hid', -⟩ := head_some hfound
      obtain rfl := ok.inj (hid.symm.trans hid')
      exact ⟨id, hid, hsession, hvalue⟩
    · exact ih hrest x hx

/-- A request is one change, and no seal. -/
theorem scheduleWithVacant_change {sources vacant : List Bytes} {targets : List DesiredCommittee}
    {made : Request} (h : scheduleWithVacant env s frame sources vacant targets = .ok (made, s')) :
    Quiet env s s' := by
  obtain ⟨_, _, h⟩ := bind_ok.mp h
  obtain ⟨_, _, h⟩ := bind_ok.mp h
  obtain ⟨_, _, h⟩ := bind_ok.mp h
  obtain ⟨sessions, hsessions, h⟩ := bind_ok.mp h
  obtain ⟨_, _, h⟩ := bind_ok.mp h
  obtain ⟨_, _, h⟩ := bind_ok.mp h
  obtain ⟨_, _, h⟩ := bind_ok.mp h
  obtain ⟨hnew, h⟩ := ensure_bind.mp h
  obtain ⟨ids, hids, h⟩ := bind_ok.mp h
  obtain ⟨rfl, rfl⟩ := mk.inj (pure_ok.mp h)
  refine ⟨.reserve (isNone_iff_eq_none.mp hnew) ?_, rfl⟩
  have hactive := (forall₂_and_left sessions ids).mpr
    ⟨sourceSessions_active hsessions, mapM_ok.mp hids⟩
  refine hactive.imp fun x id hx => ?_
  obtain ⟨⟨_, hid', hsession, hstatus⟩, hid⟩ := hx
  obtain rfl := ok.inj (hid'.symm.trans hid)
  exact ⟨hid, hsession, hstatus⟩

/-- A target is the next session of its filter. -/
def Awaits (s : Records) (target : Target) : Prop :=
  (s.heads target.committee.filter = none ∧ target.previous = none ∧ target.generation = 1) ∨
    ∃ previous y, s.heads target.committee.filter = some previous ∧
      target.previous = some previous ∧ s.sessions previous = some y ∧
      y.filter = target.committee.filter ∧ y.generation + 1 = target.generation

theorem targetUnchanged_awaits (h : targetUnchanged env s target = .ok ()) : Awaits s target := by
  obtain ⟨current, hcurrent, h⟩ := bind_ok.mp h
  obtain ⟨_, hread, h⟩ := bind_ok.mp h
  obtain ⟨hprevious, hgeneration⟩ := ensure_ok.mp h
  cases current with
  | none =>
    obtain rfl := pure_ok.mp hread
    exact .inl ⟨head_none hcurrent, hprevious.symm, (some.inj hgeneration).symm⟩
  | some y =>
    obtain ⟨id, hid, hsome⟩ := bind_ok.mp hread
    obtain rfl := pure_ok.mp hsome
    obtain ⟨_, hhead, hsession, hid', hfilter⟩ := head_some hcurrent
    obtain rfl := ok.inj (hid.symm.trans hid')
    refine .inr ⟨id, y, hhead, hprevious.symm, hsession, hfilter, ?_⟩
    simp only [nextGeneration] at hgeneration
    split at hgeneration
    · exact some.inj hgeneration
    · cases hgeneration

/-- Two targets of one filter would be one generation. -/
theorem Awaits.generation_eq {t t' : Target} (h : Awaits s t) (h' : Awaits s t')
    (hfilter : t.committee.filter = t'.committee.filter) : t.generation = t'.generation := by
  unfold Awaits at h h'
  grind

theorem successor_place {chain : Bytes32}
    (h : successor env s chain authorization members target = .ok x) :
    x.filter = target.committee.filter ∧ x.generation = target.generation := by
  obtain ⟨_, _, h⟩ := bind_ok.mp h
  obtain ⟨_, _, h⟩ := bind_ok.mp h
  obtain rfl := pure_ok.mp h
  exact ⟨rfl, rfl⟩

/-- The session a target becomes begins after its predecessor and starts at its end. -/
theorem successor_begins {chain : Bytes32} (hawaits : Awaits s target)
    (h : successor env s chain authorization members target = .ok x) :
    CanBegin s x ∧ Preceded s x := by
  obtain ⟨_, hbase, h⟩ := bind_ok.mp h
  obtain ⟨_, _, h⟩ := bind_ok.mp h
  obtain rfl := pure_ok.mp h
  rcases hawaits with ⟨hhead, hnone, hfirst⟩ | ⟨previous, y, hhead, hsome, hsession, hfilter, hnext⟩
  · rw [hnone] at hbase
    exact ⟨.inl ⟨hhead, hfirst⟩, .inl ⟨hfirst, (pure_ok.mp hbase).symm⟩⟩
  rw [hsome] at hbase
  obtain ⟨_, hfound, hbase⟩ := bind_ok.mp hbase
  obtain ⟨checkpoint, hcheckpoint, hbase⟩ := okOr_bind.mp hbase
  rw [hcheckpoint] at hfound
  obtain ⟨r, hclosed, hends⟩ := closedCheckpoint_some hfound
  exact ⟨.inr ⟨previous, y, r, hhead, hsession, hnext, hclosed⟩,
    .inr ⟨previous, y, r, checkpoint, hsession, hfilter, hnext, hclosed, hends,
      (pure_ok.mp hbase).symm⟩⟩

/-- A target can be authorized, or its generation is taken and `createSession` refuses it. -/
def Pending (s : Records) (target : Target) : Prop :=
  Awaits s target ∨ (s.generations (target.committee.filter, target.generation)).isSome = true

/-- One round of the loop over the targets is a change, and leaves every other target as it
was or taken. -/
theorem authorize_change {chain : Bytes32}
    (h : authorize env rings r chain authorization members s target = .ok s')
    (hpending : Pending s target) (hended : SourcesEnded s r) :
    Quiet env s s' ∧ ∀ t, (t.committee.filter = target.committee.filter →
      t.generation = target.generation) → Pending s t → Pending s' t := by
  obtain ⟨_, hx, h⟩ := bind_ok.mp h
  obtain ⟨⟨_, _⟩, hcreated, h⟩ := bind_ok.mp h
  obtain ⟨_, _, h⟩ := bind_ok.mp h
  obtain rfl := pure_ok.mp h
  obtain ⟨hid, hfresh, hgeneration, rfl⟩ := createSession_ok hcreated
  have hplace := successor_place hx
  have hawaits : Awaits s target := by
    refine hpending.resolve_right fun htaken => ?_
    rw [← hplace.1, ← hplace.2, hgeneration] at htaken
    cases htaken
  obtain ⟨hbegin, hpreceded⟩ := successor_begins hawaits hx
  refine ⟨⟨.begin hid hfresh hgeneration hbegin ⟨hended, hpreceded⟩, rfl⟩, fun t hsame ht => ?_⟩
  simp only [Pending, Awaits, Records.start, Store.write_apply, hplace.1, hplace.2] at ht ⊢
  by_cases hfilter : t.committee.filter = target.committee.filter
  · right
    simp [hfilter, hsame hfilter]
  simp only [mk.injEq, hfilter, false_and, if_false]
  refine ht.imp_left (Or.imp_right ?_)
  rintro ⟨previous, y, hhead, hprevious, hsession, hy⟩
  refine ⟨previous, y, hhead, hprevious, ?_, hy⟩
  rw [if_neg (by rintro rfl; simp [hfresh] at hsession), hsession]

/-- The loop over the targets is a sequence of changes. -/
theorem authorizeEach_steps {chain : Bytes32} {targets : List Target}
    (h : targets.foldlM (authorize env rings r chain authorization members) s = .ok s')
    (hkept : Kept env s) (hended : SourcesEnded s r) (hpending : ∀ t ∈ targets, Pending s t)
    (hsame : ∀ t ∈ targets, ∀ t' ∈ targets, t.committee.filter = t'.committee.filter →
      t.generation = t'.generation) : Relation.ReflTransGen (Quiet env) s s' := by
  induction targets generalizing s with
  | nil =>
    obtain rfl := pure_ok.mp h
    exact .refl
  | cons target targets ih =>
    obtain ⟨_, hone, hrest⟩ := bind_ok.mp h
    obtain ⟨hquiet, hothers⟩ := authorize_change hone (hpending target mem_cons_self) hended
    refine (ih hrest (hquiet.1.kept hkept) (hended.mono (hquiet.1.extends hkept)) ?_ ?_).head hquiet
    · intro t ht
      exact hothers t (hsame t (mem_cons_of_mem _ ht) target mem_cons_self)
        (hpending t (mem_cons_of_mem _ ht))
    · exact fun t ht t' ht' => hsame t (mem_cons_of_mem _ ht) t' (mem_cons_of_mem _ ht')

/-- Each source whose ends are read has one. -/
theorem sourceEnds_some {sources : List Session} {ends : List Terminal}
    (h : sourceEnds env s r sources = .ok (some ends)) :
    ∀ x ∈ sources, ∃ id checkpoint, x.id env = .ok id ∧ EndsAt s r id checkpoint := by
  induction sources generalizing ends with
  | nil => simp
  | cons source sources ih =>
    obtain ⟨id, hid, h⟩ := bind_ok.mp h
    obtain ⟨found, hfound, h⟩ := bind_ok.mp h
    cases found with
    | none => cases pure_ok.mp h
    | some ended =>
      obtain ⟨rest, hrest, h⟩ := bind_ok.mp h
      cases rest with
      | none => cases pure_ok.mp h
      | some =>
        intro x hx
        rcases mem_cons.mp hx with rfl | hx
        · exact ⟨id, ended.checkpoint, hid, terminal_some hfound⟩
        · exact ih hrest x hx

/-- An activation closes the sources, authorizes the successors and is noted. -/
theorem activateWith_steps {pending : Request} {done : Bool} (hkept : Kept env s)
    (hrequest : s.requests r = some pending) (hr : pending.id env = .ok r)
    (h : activateWith env s rings pending members = .ok (done, s')) :
    Relation.ReflTransGen (Quiet env) s s' := by
  obtain ⟨_, _, h⟩ := bind_ok.mp h
  obtain ⟨_, hr', h⟩ := bind_ok.mp h
  obtain rfl := ok.inj (hr.symm.trans hr')
  split at h
  · obtain ⟨rfl, rfl⟩ := mk.inj (pure_ok.mp h)
    exact .refl
  obtain ⟨found, hfound, h⟩ := bind_ok.mp h
  cases found with
  | none =>
    obtain ⟨rfl, rfl⟩ := mk.inj (pure_ok.mp h)
    exact .refl
  | some =>
    simp only [bind_ok] at h
    obtain ⟨_, hunchanged, ids, hids, _, _, _, hloop, h⟩ := h
    obtain ⟨rfl, rfl⟩ := mk.inj (pure_ok.mp h)
    have hends := sourceEnds_some hfound
    have hclose : Change env s (s.setStatuses ids (.closed r)) := by
      refine .closed fun id hid => ?_
      obtain ⟨x, hx, hxid⟩ := exists_left_of_forall₂ (mapM_ok.mp hids) hid
      obtain ⟨_, hid1, _, hclosing⟩ := hkept.sources hrequest hx
      obtain ⟨_, checkpoint, hid2, hended⟩ := hends x hx
      obtain rfl := ok.inj (hxid.symm.trans hid1)
      obtain rfl := ok.inj (hxid.symm.trans hid2)
      exact ⟨hclosing, checkpoint, hended⟩
    have hended : SourcesEnded s r := by
      refine ⟨pending, hrequest, fun y hy => ?_⟩
      obtain ⟨id1, hid1, hsession, -⟩ := hkept.sources hrequest hy
      obtain ⟨_, checkpoint, hid2, hended⟩ := hends y hy
      obtain rfl := ok.inj (hid1.symm.trans hid2)
      exact ⟨id1, checkpoint, hsession, hended⟩
    have hawaits : ∀ t ∈ pending.targets, Awaits s t := fun t ht =>
      targetUnchanged_awaits (forM_ok.mp hunchanged t ht)
    have hsteps := authorizeEach_steps hloop (hclose.kept hkept)
      (hended.mono (hclose.extends hkept))
      (fun t ht => .inl (hawaits t (mem_of_mem_filter ht)))
      (fun t ht t' ht' => (hawaits t (mem_of_mem_filter ht)).generation_eq
        (hawaits t' (mem_of_mem_filter ht')))
    refine .head ⟨hclose, rfl⟩ (hsteps.tail ?_)
    exact ⟨.noted, rfl⟩

/-- GLOBAL has executed the session through the checkpoint and not beyond; frames are named
by their number and digest. -/
def AtTip (s : Records) (id : Bytes32) (checkpoint : Checkpoint) : Prop :=
  match s.tips id with
  | some tip => checkpoint.frame = tip.frame ∧ checkpoint.digest = tip.digest
  | none => ∃ x, s.sessions id = some x ∧ checkpoint.frame = x.baseFrame ∧
      checkpoint.digest = x.genesis

/-- A seal at the base names the authorized genesis. -/
theorem verifySealWith_genesis {closing : Seal} {certificate : Bytes} {baseReseal : Bool}
    (h : verifySealWith env x r closing certificate baseReseal = true)
    (hbase : closing.checkpoint.frame = x.baseFrame) : closing.checkpoint.digest = x.genesis := by
  unfold verifySealWith at h
  split at h
  · cases h
  split at h
  · rename_i hvalid _
    obtain ⟨_, _, hvalid⟩ := bind_ok.mp hvalid
    obtain ⟨_, _, hvalid⟩ := bind_ok.mp hvalid
    obtain ⟨_, _, hvalid⟩ := bind_ok.mp hvalid
    rw [if_pos hbase] at hvalid
    exact (ensure_ok.mp hvalid).2
  · cases h

/-- What a verified submission is about. -/
structure Verified (env : HandoffEnv) (s : Records) (submission : CertificateSubmission)
    (pending : Request) : Prop where
  request : s.requests submission.closingSeal.request = some pending
  id : pending.id env = .ok submission.closingSeal.request
  closing : ClosingFor s submission.closingSeal.request submission.closingSeal.session
  unfenced : s.fences (submission.closingSeal.request, submission.closingSeal.session) = none
  tip : AtTip s submission.closingSeal.session submission.closingSeal.checkpoint

/-- An accepted submission is verified. -/
theorem verifySubmission_verified {submission : CertificateSubmission} {pending : Request}
    (hkept : Kept env s) (h : verifySubmission env s frame submission = .ok pending) :
    Verified env s submission pending := by
  obtain ⟨⟨_, _⟩, hclosing, h⟩ := bind_ok.mp h
  obtain ⟨_, htip, h⟩ := bind_ok.mp h
  obtain ⟨_, _, h⟩ := bind_ok.mp h
  obtain rfl := pure_ok.mp h
  obtain ⟨_, hfound, hclosing⟩ := bind_ok.mp hclosing
  obtain ⟨_, hsome, hclosing⟩ := okOr_bind.mp hclosing
  obtain ⟨_, _, hclosing⟩ := bind_ok.mp hclosing
  obtain ⟨source', hsource, hclosing⟩ := okOr_bind.mp hclosing
  obtain ⟨_, hvalue, hclosing⟩ := okOr_bind.mp hclosing
  obtain ⟨hstatus, hclosing⟩ := ensure_bind.mp hclosing
  obtain ⟨hfence, hclosing⟩ := ensure_bind.mp hclosing
  obtain ⟨hseal, hclosing⟩ := ensure_bind.mp hclosing
  obtain ⟨rfl, rfl⟩ := mk.inj (pure_ok.mp hclosing)
  rw [hsome] at hfound
  obtain ⟨hrequest, hid⟩ := request_some hfound
  refine ⟨hrequest, hid, ?_, isNone_iff_eq_none.mp hfence, ?_⟩
  · simp only [mem_cons, not_mem_nil, or_false] at hstatus
    rcases hstatus with rfl | rfl
    · exact .inl hvalue
    · exact .inr hvalue
  · cases htips : s.tips submission.closingSeal.session with
    | some =>
      rw [htips] at htip
      obtain ⟨_, _, htip⟩ := bind_ok.mp htip
      obtain ⟨hdigest, htip⟩ := ensure_bind.mp htip
      have hframe := ensure_ok.mp htip
      rw [AtTip, htips]
      exact ⟨hframe.symm, by_contra fun hne => hdigest ⟨hframe, Ne.symm hne⟩⟩
    | none =>
      rw [htips] at htip
      have hbase := ensure_ok.mp htip
      have hmem := mem_of_find?_eq_some hsource
      have hsourceId := find?_some hsource
      obtain ⟨_, hk, hsession, -⟩ := hkept.sources hrequest hmem
      rw [hk] at hsourceId
      obtain rfl := eq_of_beq hsourceId
      rw [AtTip, htips]
      exact ⟨source', hsession, hbase, verifySealWith_genesis hseal hbase⟩

/-- A submission records its seal, once, and activates the request. -/
theorem applySubmission_steps {submission : CertificateSubmission} {done : Bool}
    (hkept : Kept env s) (h : applySubmission env s rings frame submission = .ok (done, s')) :
    Relation.ReflTransGen (Change env) s s' ∧
      ∀ k recorded, s.seals k = none → s'.seals k = some recorded →
        AtTip s k.2 recorded.closingSeal.checkpoint := by
  obtain ⟨_, _, h⟩ := bind_ok.mp h
  obtain ⟨_, hverified, h⟩ := bind_ok.mp h
  obtain ⟨_, hr, h⟩ := bind_ok.mp h
  have hverified := verifySubmission_verified hkept hverified
  obtain rfl := ok.inj (hverified.id.symm.trans hr)
  split at h
  · obtain ⟨rfl, rfl⟩ := mk.inj (pure_ok.mp h)
    exact ⟨.refl, fun k recorded hnone hsome => by rw [hnone] at hsome; cases hsome⟩
  obtain ⟨_, hrecord, h⟩ := bind_ok.mp h
  unfold Records.recordSeal at hrecord
  split at hrecord
  · rename_i hnew
    obtain ⟨_, _, hrecord⟩ := bind_ok.mp hrecord
    obtain rfl := pure_ok.mp hrecord
    have hchange : Change env s { s with
        seals := s.seals.write
          (submission.closingSeal.request, submission.closingSeal.session) submission } :=
      .sealed hverified.closing (isNone_iff_eq_none.mp hnew) hverified.unfenced
    obtain ⟨hsteps, hsame⟩ :=
      Quiet.steps (activateWith_steps (hchange.kept hkept) hverified.request hr h)
    refine ⟨hsteps.head hchange, fun k recorded hnone hsome => ?_⟩
    rw [hsame] at hsome
    simp only [Store.write_apply] at hsome
    split at hsome
    · rename_i hk
      obtain rfl := some.inj hsome
      subst hk
      exact hverified.tip
    · rw [hnone] at hsome
      cases hsome
  · obtain rfl := pure_ok.mp hrecord
    obtain ⟨hsteps, hsame⟩ := Quiet.steps (activateWith_steps hkept hverified.request hr h)
    refine ⟨hsteps, fun k recorded hnone hsome => ?_⟩
    rw [hsame, hnone] at hsome
    cases hsome

/-- A stalled source has neither seal nor fence. -/
theorem stalledSource_some (h : stalledSource env s filter = .ok (some (x, id, r))) :
    s.statuses id = some (.sealing r) ∧ s.seals (r, id) = none ∧ s.fences (r, id) = none := by
  obtain ⟨found, _, h⟩ := bind_ok.mp h
  cases found with
  | none => cases pure_ok.mp h
  | some y =>
    obtain ⟨id', _, h⟩ := bind_ok.mp h
    obtain ⟨value, hvalue, h⟩ := okOr_bind.mp h
    cases value with
    | active | closed => cases pure_ok.mp h
    | sealing r' =>
      simp only at h
      split at h
      · cases pure_ok.mp h
      rename_i hopen
      obtain ⟨rfl, rfl, rfl⟩ : y = x ∧ id' = id ∧ r' = r := by
        simpa using pure_ok.mp h
      simp only [not_or, not_isSome_iff_eq_none] at hopen
      exact ⟨hvalue, hopen⟩

/-- One round of the loop over stalled sources. -/
theorem fenceSource_steps {acc acc' : Nat × Records} (hkept : Kept env acc.2)
    (h : fenceSource env rings frame eligible acc filter = .ok acc') :
    Relation.ReflTransGen (Quiet env) acc.2 acc'.2 := by
  obtain ⟨found, hfound, h⟩ := bind_ok.mp h
  rcases found with _ | ⟨x, id, r⟩
  · obtain rfl := pure_ok.mp h
    exact .refl
  obtain ⟨hstatus, hseal, hfence⟩ := stalledSource_some hfound
  obtain ⟨_, hread, h⟩ := bind_ok.mp h
  obtain ⟨_, hpending, h⟩ := okOr_bind.mp h
  rw [hpending] at hread
  obtain ⟨hrequest, hr⟩ := request_some hread
  split at h
  · obtain rfl := pure_ok.mp h
    exact .refl
  simp only [bind_ok] at h
  obtain ⟨checkpoint, _, _, _, ⟨_, _⟩, hactivate, h⟩ := h
  obtain rfl := pure_ok.mp h
  have hchange : Change env acc.2 { acc.2 with
      fences := acc.2.fences.write (r, id) checkpoint } := .fenced (.inl hstatus) hseal hfence
  exact (activateWith_steps (hchange.kept hkept) hrequest hr hactivate).head ⟨hchange, rfl⟩

end Calls

/-! ## Runs -/

section Runs

variable {env} {s s' : Records} {id r : Bytes32} {frame : Nat} {rings : Result Unit}
  {eligible : Option (Bytes → Result (List Bytes))}

/-- A sequence of changes keeps the invariant and what was recorded. -/
theorem Kept.steps (hkept : Kept env s) (h : Relation.ReflTransGen (Change env) s s') :
    Kept env s' ∧ Extends s s' := by
  induction h with
  | refl => exact ⟨hkept, .refl s⟩
  | tail _ hchange ih => exact ⟨hchange.kept ih.1, ih.2.trans (hchange.extends ih.1)⟩

/-- Fencing takes quiet changes only. -/
theorem fenceStalledSources_steps {filters : List Bytes} {acc acc' : Nat × Records}
    (hkept : Kept env acc.2)
    (h : filters.foldlM (fenceSource env rings frame eligible) acc = .ok acc') :
    Relation.ReflTransGen (Quiet env) acc.2 acc'.2 := by
  induction filters generalizing acc with
  | nil =>
    obtain rfl := pure_ok.mp h
    exact .refl
  | cons filter filters ih =>
    obtain ⟨_, hone, hrest⟩ := bind_ok.mp h
    have hsteps := fenceSource_steps hkept hone
    exact hsteps.trans (ih (hkept.steps (Quiet.steps hsteps).1).1 hrest)

/-- **A successful call is a sequence of changes**, and every seal it records is at the
source's tip. -/
theorem handoffCall_steps {call : HandoffCall} (hkept : Kept env s)
    (h : handoffCall env s call = .ok s') :
    Relation.ReflTransGen (Change env) s s' ∧
      ∀ k recorded, s.seals k = none → s'.seals k = some recorded →
        AtTip s k.2 recorded.closingSeal.checkpoint := by
  have hunsealed : s'.seals = s.seals → ∀ k recorded, s.seals k = none →
      s'.seals k = some recorded → AtTip s k.2 recorded.closingSeal.checkpoint := by
    intro hsame k recorded hnone hsome
    rw [hsame, hnone] at hsome
    cases hsome
  cases call with
  | initial =>
    obtain ⟨hchange, hsame⟩ := initializeSession_change h
    exact ⟨.single hchange, hunsealed hsame⟩
  | schedule =>
    obtain ⟨⟨_, _⟩, hmade, h⟩ := bind_ok.mp h
    obtain rfl := pure_ok.mp h
    obtain ⟨hchange, hsame⟩ := scheduleWithVacant_change hmade
    exact ⟨.single hchange, hunsealed hsame⟩
  | submit =>
    obtain ⟨⟨_, _⟩, hdone, h⟩ := bind_ok.mp h
    obtain rfl := pure_ok.mp h
    exact applySubmission_steps hkept hdone
  | fence =>
    obtain ⟨_, hacc, h⟩ := bind_ok.mp h
    obtain rfl := pure_ok.mp h
    obtain ⟨hsteps, hsame⟩ := Quiet.steps (fenceStalledSources_steps hkept hacc)
    exact ⟨hsteps, hunsealed hsame⟩
  | tip id tip =>
    obtain rfl := ok.inj h
    have hnoted : ∃ tips, recordSessionTip s id tip = { s with tips := tips } := by
      unfold recordSessionTip
      split
      · split
        · exact ⟨s.tips, rfl⟩
        · exact ⟨_, rfl⟩
      · exact ⟨_, rfl⟩
    obtain ⟨_, hnoted⟩ := hnoted
    rw [hnoted] at hunsealed ⊢
    exact ⟨.single .noted, hunsealed rfl⟩

/-- What the records say about each shard's sessions. -/
structure OneHistory (s : Records) : Prop where
  /-- A filter's sessions are the generations from one to its head's, each once. -/
  numbered : ∀ filter, match s.heads filter with
    | none => ∀ id x, s.sessions id = some x → x.filter ≠ filter
    | some newest => ∃ y, s.sessions newest = some y ∧ y.filter = filter ∧ ∀ g,
        (∃ id x, s.sessions id = some x ∧ x.filter = filter ∧ x.generation = g) ↔
          1 ≤ g ∧ g ≤ y.generation
  distinct : ∀ id id' x x', s.sessions id = some x → s.sessions id' = some x' →
    x.filter = x'.filter → x.generation = x'.generation → id = id'
  /-- Only the head is active or sealing. -/
  live : ∀ id x, s.sessions id = some x → ∃ status, s.statuses id = some status ∧
    (status.isClosed = false → s.heads x.filter = some id)
  /-- A closed session ended, no session ended twice, and none was both sealed and fenced. -/
  ended : ∀ id r, s.statuses id = some (.closed r) → ∃ checkpoint, EndsAt s r id checkpoint
  once : ∀ id r r' checkpoint checkpoint', EndsAt s r id checkpoint → EndsAt s r' id checkpoint' →
    r = r' ∧ checkpoint = checkpoint'
  either : ∀ k, s.seals k = none ∨ s.fences k = none
  /-- A session is its filter's first, or a successor after all sources of its request
  ended, at the end of its predecessor. -/
  successor : ∀ id x, s.sessions id = some x → (s.origins id = some none ∧ x.generation = 1) ∨
      ∃ r, s.origins id = some (some r) ∧ SourcesEnded s r ∧ Preceded s x

theorem Kept.endsAt_closing (h : Kept env s) {checkpoint : Checkpoint}
    (hends : EndsAt s r id checkpoint) : ClosingFor s r id := by
  rcases hends with ⟨submission, hseal, -⟩ | hfence
  · exact (h.sealed hseal).2
  · exact h.fenced hfence

/-- Kept records have one history. -/
theorem Kept.oneHistory (h : Kept env s) : OneHistory s where
  numbered := by
    intro filter
    split
    · rename_i hnone
      intro id x hx hfilter
      obtain ⟨-, _, _, hhead, -⟩ := h.newest hx
      rw [hfilter, hnone] at hhead
      cases hhead
    · rename_i newest hhead
      obtain ⟨y, hy, hfilter, hall⟩ := h.head hhead
      refine ⟨y, hy, hfilter, fun g => ⟨?_, fun hg => ?_⟩⟩
      · rintro ⟨id, x, hx, hxfilter, rfl⟩
        obtain ⟨hone, _, _, hhead', hy', hle⟩ := h.newest hx
        rw [hxfilter, hhead] at hhead'
        obtain rfl := some.inj hhead'
        obtain rfl := some.inj (hy.symm.trans hy')
        exact ⟨hone, hle⟩
      · obtain ⟨id, hid⟩ := isSome_iff_exists.mp (hall g hg.1 hg.2)
        exact ⟨id, h.indexes hid⟩
  distinct := by
    intro id id' x x' hx hx' hfilter hgeneration
    have hid := h.indexed hx
    rw [hfilter, hgeneration, h.indexed hx'] at hid
    exact (some.inj hid).symm
  live := fun _ _ hx => h.live hx
  ended := fun _ _ hclosed => h.ended hclosed
  once := by
    intro id r r' checkpoint checkpoint' hends hends'
    have hclosing := h.endsAt_closing hends
    have hclosing' := h.endsAt_closing hends'
    obtain rfl : r = r' := by
      unfold ClosingFor at hclosing hclosing'
      grind
    refine ⟨rfl, ?_⟩
    rcases hends with ⟨submission, hseal, rfl⟩ | hfence
    · have hnone := (h.sealed hseal).1
      rcases hends' with ⟨submission', hseal', rfl⟩ | hfence'
      · rw [some.inj (hseal.symm.trans hseal')]
      · rw [hnone] at hfence'
        cases hfence'
    · rcases hends' with ⟨submission', hseal', rfl⟩ | hfence'
      · rw [(h.sealed hseal').1] at hfence
        cases hfence
      · exact some.inj (hfence.symm.trans hfence')
  either := by
    intro k
    cases hseal : s.seals k with
    | none => exact .inl rfl
    | some => exact .inr (h.sealed hseal).1
  successor := by
    intro id x hx
    obtain ⟨origin, horigin, hfrom⟩ := h.origin hx
    cases origin with
    | none => exact .inl ⟨horigin, hfrom⟩
    | some r => exact .inr ⟨r, horigin, hfrom⟩

/-- The empty records are kept. -/
theorem kept_empty (env : HandoffEnv) : Kept env .empty := by
  constructor
  case toIndexed => constructor <;> intros <;> simp_all [Records.empty]
  all_goals intros; simp_all [Records.empty]

/-- A call, successful or rolled back, keeps the invariant and what was recorded. -/
theorem Kept.step (h : Kept env s) (call : HandoffCall) :
    Kept env (handoffStep env s call).2 ∧ Extends s (handoffStep env s call).2 := by
  unfold handoffStep
  cases hcall : handoffCall env s call with
  | ok => exact h.steps (handoffCall_steps h hcall).1
  | error => exact ⟨h, .refl s⟩

/-- A call records a seal at the source's tip only. -/
theorem Kept.step_seals (h : Kept env s) (call : HandoffCall) {k : Bytes32 × Bytes32}
    {recorded : CertificateSubmission} (hnone : s.seals k = none)
    (hsome : (handoffStep env s call).2.seals k = some recorded) :
    AtTip s k.2 recorded.closingSeal.checkpoint := by
  unfold handoffStep at hsome
  split at hsome
  · rename_i s' hcall
    exact (handoffCall_steps h hcall).2 k recorded hnone hsome
  · exact absurd (hnone.symm.trans hsome) (fun h => nomatch h)

/-- Any run keeps the records and only extends them. -/
theorem Kept.run (h : Kept env s) (calls : List HandoffCall) :
    Kept env (Run.final (handoffStep env) s calls) ∧
      Extends s (Run.final (handoffStep env) s calls) := by
  induction calls generalizing s with
  | nil => exact ⟨h, .refl s⟩
  | cons call calls ih =>
    obtain ⟨hkept, hext⟩ := h.step call
    obtain ⟨hfinal, hrest⟩ := ih hkept
    exact ⟨hfinal, hext.trans hrest⟩

end Runs

/-- **One history for each shard.**  Whatever is called, the records keep one history for each
filter; what they say about an ending never changes; and a seal is recorded only at the source's
executed tip, or at its base where it has none. -/
theorem handoff_keeps_one_history (env : HandoffEnv) (calls : List HandoffCall) :
    OneHistory (Run.final (handoffStep env) .empty calls) ∧
    (∀ later, Extends (Run.final (handoffStep env) .empty calls)
      (Run.final (handoffStep env) .empty (calls ++ later))) ∧
    ∀ e ∈ Run.events (handoffStep env) .empty calls, ∀ k recorded, e.before.seals k = none →
      e.after.seals k = some recorded → AtTip e.before k.2 recorded.closingSeal.checkpoint := by
  have hkept := (kept_empty env).run calls
  refine ⟨hkept.1.oneHistory, fun later => ?_, fun e he k recorded hnone hsome => ?_⟩
  · rw [Run.final_append]
    exact (hkept.1.run later).2
  · obtain ⟨before, _, -, hevent⟩ := Run.mem_events _ he
    have hbefore := ((kept_empty env).run before).1
    rw [hevent] at hnone hsome ⊢
    exact hbefore.step_seals _ hnone hsome

/-- **The index is the sessions**: the generations list exactly the sessions, each under the id of
its contents. -/
theorem generations_list_sessions (env : HandoffEnv) (calls : List HandoffCall) :
    let s := Run.final (handoffStep env) .empty calls
    (∀ id x, s.sessions id = some x → x.id env = .ok id) ∧
    ∀ filter g id, s.generations (filter, g) = some id ↔
      ∃ x, s.sessions id = some x ∧ x.filter = filter ∧ x.generation = g := by
  have hkept := ((kept_empty env).run calls).1
  refine ⟨fun _ _ => hkept.named, fun filter g id => ⟨hkept.indexes, ?_⟩⟩
  rintro ⟨x, hx, rfl, rfl⟩
  exact hkept.indexed hx

/-- Records named by the length of their encoding; every key and certificate is good. -/
def lengthEnv : HandoffEnv where
  sha256 := fun bytes => BitVec.ofNat 256 bytes.length
  poseidon := fun _ => .ok 7
  isFalconKey := fun _ => true
  verifyFinalization := fun _ _ _ _ => some (1, 4, 3)
  requireFullDomainCoverage := .ok ()
  epochOverride := 0
  sealRecoveryFrame := 0
  earlyFenceFrame := 0
  fencedSuccessorEligibilityFrame := 0

def rootFilter : Bytes := List.replicate 32 0

/-- A first session, the request to replace its committee, an executed frame, and the seal
at that frame. -/
def handover : List HandoffCall :=
  [.initial (.ok ()) ⟨0, rootFilter, 1, 9, 40, 0, [[1]]⟩,
    .schedule 5 [rootFilter] [] [⟨rootFilter, [[2, 2]]⟩],
    .tip 162 ⟨43, 3, 8, zeroRoots, 0⟩,
    .submit (.ok ()) 6 ⟨⟨278, 162, 4, ⟨43, 3, 8, zeroRoots, 0⟩⟩, [3]⟩]

/-- The seal of the first session brings up the second generation at frame 43. -/
theorem handover_succeeds : ((Run.final (handoffStep lengthEnv) .empty handover).sessions 163).map
        (fun x => (x.generation, x.baseFrame)) = some (2, 43) ∧
      OneHistory (Run.final (handoffStep lengthEnv) .empty handover) :=
  ⟨by decide +kernel, (handoff_keeps_one_history lengthEnv handover).1⟩

end Handoff

import QuilNode.Global.Handoff

/-!
# The changes of a shard's history

The records grow by six kinds of change.  `Change` states what each may do and nothing of how the
code gets there.  Every change keeps the invariant `Kept` and what was recorded before it.  An
ending is written once because a closing session has neither a seal nor a fence when it gets one.
-/

namespace Handoff

open Results Store Records Option

/-- The session ended at a checkpoint, by its seal or by a fence, for a request. -/
def EndsAt (s : Records) (r id : Bytes32) (checkpoint : Checkpoint) : Prop :=
  (∃ submission, s.seals (r, id) = some submission ∧
    submission.closingSeal.checkpoint = checkpoint) ∨ s.fences (r, id) = some checkpoint

/-- The session is closing for a request, or has closed for it. -/
def ClosingFor (s : Records) (r id : Bytes32) : Prop :=
  s.statuses id = some (.sealing r) ∨ s.statuses id = some (.closed r)

/-- A session starts where the session before it on its filter ended, the first at zero. -/
def Preceded (s : Records) (x : Session) : Prop :=
  (x.generation = 1 ∧ x.baseFrame = 0) ∨
    ∃ previous y r checkpoint, s.sessions previous = some y ∧ y.filter = x.filter ∧
      y.generation + 1 = x.generation ∧ s.statuses previous = some (.closed r) ∧
      EndsAt s r previous checkpoint ∧ x.baseFrame = checkpoint.frame

/-- Every source of a request has ended for it. -/
def SourcesEnded (s : Records) (r : Bytes32) : Prop :=
  ∃ request, s.requests r = some request ∧ ∀ y ∈ request.sources,
    ∃ id checkpoint, s.sessions id = some y ∧ EndsAt s r id checkpoint

/-- A session is the first of its filter, or the successor a request authorized after all
its sources had ended. -/
def FromOrigin (s : Records) (x : Session) : Option Bytes32 → Prop
  | none => x.generation = 1
  | some r => SourcesEnded s r ∧ Preceded s x

/-- A session can begin: its filter has none yet, or its last one has closed. -/
def CanBegin (s : Records) (x : Session) : Prop :=
  (s.heads x.filter = none ∧ x.generation = 1) ∨
    ∃ previous y r, s.heads x.filter = some previous ∧ s.sessions previous = some y ∧
      y.generation + 1 = x.generation ∧ s.statuses previous = some (.closed r)

variable (env : HandoffEnv)

/-- What a change may do to the records. -/
inductive Change : Records → Records → Prop where
  | begin {s : Records} {x : Session} {id : Bytes32} {origin : Option Bytes32}
      (hid : x.id env = .ok id) (hfresh : s.sessions id = none)
      (hgeneration : s.generations (x.filter, x.generation) = none)
      (hbegin : CanBegin s x) (horigin : FromOrigin s x origin) :
      Change s (Records.start { s with
        sessions := s.sessions.write id x
        generations := s.generations.write (x.filter, x.generation) id
        heads := s.heads.write x.filter id } id origin)
  | reserve {s : Records} {r : Bytes32} {request : Request} {ids : List Bytes32}
      (hnew : s.requests r = none)
      (hids : List.Forall₂ (fun x id => x.id env = .ok id ∧ s.sessions id = some x ∧
        s.statuses id = some .active) request.sources ids) :
      Change s ({ s with requests := s.requests.write r request }.setStatuses ids (.sealing r))
  | sealed {s : Records} {r id : Bytes32} {submission : CertificateSubmission}
      (hclosing : ClosingFor s r id) (hseal : s.seals (r, id) = none)
      (hfence : s.fences (r, id) = none) :
      Change s { s with seals := s.seals.write (r, id) submission }
  | fenced {s : Records} {r id : Bytes32} {checkpoint : Checkpoint}
      (hclosing : ClosingFor s r id) (hseal : s.seals (r, id) = none)
      (hfence : s.fences (r, id) = none) :
      Change s { s with fences := s.fences.write (r, id) checkpoint }
  | closed {s : Records} {r : Bytes32} {ids : List Bytes32}
      (hends : ∀ id ∈ ids, ClosingFor s r id ∧ ∃ checkpoint, EndsAt s r id checkpoint) :
      Change s (s.setStatuses ids (.closed r))
  | noted {s : Records} {activated : Store Bytes32 fun _ => Bytes32}
      {tips : Store Bytes32 fun _ => Checkpoint} :
      Change s { s with activated := activated, tips := tips }

/-- Records are only added, and a session that is closing or closed for a request stays so. -/
structure Extends (s s' : Records) : Prop where
  sessions : ∀ {id x}, s.sessions id = some x → s'.sessions id = some x
  requests : ∀ {r request}, s.requests r = some request → s'.requests r = some request
  seals : ∀ {k submission}, s.seals k = some submission → s'.seals k = some submission
  fences : ∀ {k checkpoint}, s.fences k = some checkpoint → s'.fences k = some checkpoint
  origins : ∀ {id origin}, s.origins id = some origin → s'.origins id = some origin
  closed : ∀ {id r}, s.statuses id = some (.closed r) → s'.statuses id = some (.closed r)
  closing : ∀ {id r}, ClosingFor s r id → ClosingFor s' r id

/-- The sessions, their index by filter and generation, and the heads agree. -/
structure Indexed (s : Records) : Prop where
  named : ∀ {id x}, s.sessions id = some x → x.id env = .ok id
  indexed : ∀ {id x}, s.sessions id = some x → s.generations (x.filter, x.generation) = some id
  indexes : ∀ {filter g id}, s.generations (filter, g) = some id →
    ∃ x, s.sessions id = some x ∧ x.filter = filter ∧ x.generation = g
  head : ∀ {filter id}, s.heads filter = some id → ∃ x, s.sessions id = some x ∧ x.filter = filter ∧
    ∀ g, 1 ≤ g → g ≤ x.generation → (s.generations (filter, g)).isSome = true
  newest : ∀ {id x}, s.sessions id = some x → 1 ≤ x.generation ∧ ∃ h y, s.heads x.filter = some h ∧
    s.sessions h = some y ∧ x.generation ≤ y.generation

/-- The invariant of the records. -/
structure Kept (s : Records) : Prop extends Indexed env s where
  live : ∀ {id x}, s.sessions id = some x → ∃ status, s.statuses id = some status ∧
    (status.isClosed = false → s.heads x.filter = some id)
  known : ∀ {id status}, s.statuses id = some status → (s.sessions id).isSome = true
  rooted : ∀ {id origin}, s.origins id = some origin → (s.sessions id).isSome = true
  ended : ∀ {id r}, s.statuses id = some (.closed r) → ∃ checkpoint, EndsAt s r id checkpoint
  sealed : ∀ {r id submission}, s.seals (r, id) = some submission →
    s.fences (r, id) = none ∧ ClosingFor s r id
  fenced : ∀ {r id checkpoint}, s.fences (r, id) = some checkpoint → ClosingFor s r id
  sources : ∀ {r request x}, s.requests r = some request → x ∈ request.sources →
    ∃ id, x.id env = .ok id ∧ s.sessions id = some x ∧ ClosingFor s r id
  origin : ∀ {id x}, s.sessions id = some x → ∃ origin, s.origins id = some origin ∧
    FromOrigin s x origin

section Preserved

variable {env} {s s' : Records}

theorem Extends.refl (s : Records) : Extends s s := ⟨id, id, id, id, id, id, id⟩

section Extension

variable (h : Extends s s')
include h

theorem Extends.trans {t : Records} (h' : Extends s' t) : Extends s t where
  sessions := fun x => h'.sessions (h.sessions x)
  requests := fun x => h'.requests (h.requests x)
  seals := fun x => h'.seals (h.seals x)
  fences := fun x => h'.fences (h.fences x)
  origins := fun x => h'.origins (h.origins x)
  closed := fun x => h'.closed (h.closed x)
  closing := fun x => h'.closing (h.closing x)

theorem EndsAt.mono {r id : Bytes32} {checkpoint : Checkpoint}
    (hends : EndsAt s r id checkpoint) : EndsAt s' r id checkpoint := by
  rcases hends with ⟨submission, hseal, hcheckpoint⟩ | hfence
  · exact .inl ⟨submission, h.seals hseal, hcheckpoint⟩
  · exact .inr (h.fences hfence)

theorem Preceded.mono {x : Session} (hx : Preceded s x) : Preceded s' x := by
  rcases hx with hfirst | ⟨previous, y, r, checkpoint, hy, hfilter, hnext, hclosed, hends, hbase⟩
  · exact .inl hfirst
  · exact .inr ⟨previous, y, r, checkpoint, h.sessions hy, hfilter, hnext, h.closed hclosed,
      hends.mono h, hbase⟩

theorem SourcesEnded.mono {r : Bytes32} (hr : SourcesEnded s r) : SourcesEnded s' r := by
  obtain ⟨request, hrequest, hsources⟩ := hr
  refine ⟨request, h.requests hrequest, fun y hy => ?_⟩
  obtain ⟨id, checkpoint, hsession, hends⟩ := hsources y hy
  exact ⟨id, checkpoint, h.sessions hsession, hends.mono h⟩

theorem FromOrigin.mono {x : Session} {origin : Option Bytes32}
    (hx : FromOrigin s x origin) : FromOrigin s' x origin := by
  cases origin with
  | none => exact hx
  | some => exact ⟨hx.1.mono h, hx.2.mono h⟩

end Extension

/-- A loop that sets statuses, without the loop. -/
theorem setStatuses_eq (s : Records) (ids : List Bytes32) (value : Status) :
    s.setStatuses ids value =
      { s with statuses := fun k => if k ∈ ids then some value else s.statuses k } := by
  unfold setStatuses
  congr 1
  funext k
  split
  · rename_i hmem
    exact writeEach_of_mem ids s.statuses hmem fun _ _ h => h
  · rename_i hmem
    exact writeEach_of_not_mem ids s.statuses fun i hi h => hmem (h ▸ hi)

/-- A session that is not recorded has no status and no origin. -/
theorem Kept.unknown (h : Kept env s) {id : Bytes32} (hfresh : s.sessions id = none) :
    s.statuses id = none ∧ s.origins id = none := by
  constructor
  · by_contra hsome
    obtain ⟨_, hstatus⟩ := ne_none_iff_exists'.mp hsome
    simpa [hfresh] using h.known hstatus
  · by_contra hsome
    obtain ⟨_, horigin⟩ := ne_none_iff_exists'.mp hsome
    simpa [hfresh] using h.rooted horigin

section Mono

variable (h : Kept env s) (hext : Extends s s')
include h hext

theorem Kept.ended_mono {id r : Bytes32} (hclosed : s.statuses id = some (.closed r)) :
    ∃ checkpoint, EndsAt s' r id checkpoint :=
  (h.ended hclosed).imp fun _ hends => hends.mono hext

theorem Kept.sources_mono {r : Bytes32} {request : Request} {x : Session}
    (hrequest : s.requests r = some request) (hx : x ∈ request.sources) :
    ∃ id, x.id env = .ok id ∧ s'.sessions id = some x ∧ ClosingFor s' r id :=
  (h.sources hrequest hx).imp fun _ hk => ⟨hk.1, hext.sessions hk.2.1, hext.closing hk.2.2⟩

theorem Kept.origin_mono {id : Bytes32} {x : Session} (hx : s.sessions id = some x) :
    ∃ origin, s'.origins id = some origin ∧ FromOrigin s' x origin :=
  (h.origin hx).imp fun _ ho => ⟨hext.origins ho.1, ho.2.mono hext⟩

end Mono

/-- A change keeps what was recorded. -/
theorem Change.extends (h : Kept env s) (hchange : Change env s s') : Extends s s' := by
  cases hchange with
  | begin hid hfresh =>
    have hunknown := h.unknown hfresh
    constructor <;> simp only [start, ClosingFor, write_apply] <;> grind
  | @reserve r request ids hnew hids =>
    have hactive : ∀ id ∈ ids, s.statuses id = some .active := fun id hid =>
      (exists_left_of_forall₂ hids hid).elim fun x hx => hx.2.2.2
    constructor <;> simp only [setStatuses_eq, ClosingFor, write_apply] <;> grind
  | sealed | fenced =>
    constructor <;> simp only [ClosingFor, write_apply] <;> grind
  | @closed r ids hends =>
    have hclosing : ∀ id ∈ ids, ClosingFor s r id := fun id hid => (hends id hid).1
    simp only [ClosingFor] at hclosing
    constructor <;> simp only [setStatuses_eq, ClosingFor] <;> grind
  | noted => exact ⟨id, id, id, id, id, id, id⟩

/-- A new session keeps the invariant. -/
theorem Kept.begin (h : Kept env s) {x : Session} {id : Bytes32} {origin : Option Bytes32}
    (hid : x.id env = .ok id) (hfresh : s.sessions id = none)
    (hgeneration : s.generations (x.filter, x.generation) = none)
    (hbegin : CanBegin s x) (horigin : FromOrigin s x origin) :
    Kept env (start { s with
      sessions := s.sessions.write id x
      generations := s.generations.write (x.filter, x.generation) id
      heads := s.heads.write x.filter id } id origin) := by
  have hext := (Change.begin hid hfresh hgeneration hbegin horigin).extends h
  -- the generations of the filter are those up to the one before the new session's
  have hbelow : ∀ g, 1 ≤ g → g < x.generation → (s.generations (x.filter, g)).isSome = true := by
    intro g hone hlt
    rcases hbegin with ⟨-, hfirst⟩ | ⟨previous, y, r, hhead, hy, hnext, -⟩
    · omega
    obtain ⟨y', hy', -, hall⟩ := h.head hhead
    obtain rfl : y = y' := some.inj (hy.symm.trans hy')
    exact hall g hone (by omega)
  have hpos : 1 ≤ x.generation := by
    rcases hbegin with ⟨-, hfirst⟩ | ⟨previous, y, r, hhead, hy, hnext, -⟩ <;> omega
  have habove : ∀ {k y}, s.sessions k = some y → y.filter = x.filter →
      y.generation ≤ x.generation ∧ ∃ r, s.statuses k = some (.closed r) := by
    intro k y hy hfilter
    obtain ⟨-, _, _, hhead, hy', _⟩ := h.newest hy
    obtain ⟨status, hstatus, hlive⟩ := h.live hy
    rcases hbegin with ⟨hnone, -⟩ | ⟨previous, z, r, hprevious, hz, hnext, hclosed⟩
    · rw [hfilter, hnone] at hhead
      cases hhead
    rw [hfilter, hprevious] at hhead hlive
    obtain rfl := some.inj hhead
    obtain rfl := some.inj (hz.symm.trans hy')
    refine ⟨by omega, ?_⟩
    cases hstatus' : status with
    | closed r' => exact ⟨r', hstatus' ▸ hstatus⟩
    | active | sealing =>
      obtain rfl := some.inj (hlive (by rw [hstatus']; rfl))
      exact ⟨r, hclosed⟩
  refine ⟨⟨?named, ?indexed, ?indexes, ?head, ?newest⟩, ?live, ?known, ?rooted, ?ended, ?sealed,
    ?fenced, ?sources, ?origin⟩
  case named | indexed | indexes | known | rooted =>
    simp only [start, write_apply]
    grind [h.named, h.indexed, h.indexes, h.known, h.rooted]
  case head =>
    intro filter k hk
    simp only [start, write_apply] at hk ⊢
    split at hk
    · rename_i hfilter
      subst hfilter
      obtain rfl := some.inj hk
      refine ⟨x, if_pos rfl, rfl, fun g hone hle => ?_⟩
      rcases Nat.lt_or_eq_of_le hle with hlt | rfl
      · have := hbelow g hone hlt
        split <;> simp_all
      · simp
    · rename_i hfilter
      obtain ⟨y, _, rfl, hall⟩ := h.head hk
      refine ⟨y, by grind, rfl, fun g hone hle => ?_⟩
      rw [if_neg fun heq => hfilter (congrArg Prod.fst heq)]
      exact hall g hone hle
  case newest =>
    intro k y hy
    simp only [start, write_apply] at hy ⊢
    split at hy
    · obtain rfl := some.inj hy
      exact ⟨hpos, id, x, if_pos rfl, if_pos rfl, le_rfl⟩
    obtain ⟨hone, k', y', hhead, _, hle⟩ := h.newest hy
    refine ⟨hone, ?_⟩
    by_cases hfilter : y.filter = x.filter
    · exact ⟨id, x, if_pos hfilter, if_pos rfl, (habove hy hfilter).1⟩
    · exact ⟨k', y', by rw [if_neg hfilter, hhead], by grind, hle⟩
  case live =>
    intro k y hy
    simp only [start, write_apply] at hy ⊢
    split at hy
    · rename_i hk
      obtain rfl := some.inj hy
      exact ⟨.active, if_pos hk, fun _ => by rw [if_pos rfl, hk]⟩
    · rename_i hk
      rw [if_neg hk]
      by_cases hfilter : y.filter = x.filter
      · obtain ⟨-, _, hclosed⟩ := habove hy hfilter
        exact ⟨_, hclosed, fun h => nomatch h⟩
      · rw [if_neg hfilter]
        exact h.live hy
  case ended =>
    intro k r hclosed
    simp only [start, write_apply] at hclosed
    split at hclosed
    · cases hclosed
    · exact h.ended_mono hext hclosed
  case sealed => exact fun hseal => (h.sealed hseal).imp_right hext.closing
  case fenced => exact fun hfence => hext.closing (h.fenced hfence)
  case sources => exact h.sources_mono hext
  case origin =>
    intro k y hy
    simp only [start, write_apply] at hy
    split at hy
    · rename_i hk
      obtain rfl := some.inj hy
      exact ⟨origin, hk ▸ write_self _ _ _, horigin.mono hext⟩
    · exact h.origin_mono hext hy

/-- **A change keeps the invariant.** -/
theorem Change.kept (h : Kept env s) (hchange : Change env s s') : Kept env s' := by
  have hext := hchange.extends h
  cases hchange with
  | begin hid hfresh hgeneration hbegin horigin =>
    exact h.begin hid hfresh hgeneration hbegin horigin
  | @reserve r request ids hnew hids =>
    have hactive : ∀ id ∈ ids, s.statuses id = some .active := fun id hid =>
      (exists_left_of_forall₂ hids hid).elim fun x hx => hx.2.2.2
    refine ⟨{ h.toIndexed with }, ?live, ?known, h.rooted, ?ended,
      fun hseal => (h.sealed hseal).imp_right hext.closing,
      fun hfence => hext.closing (h.fenced hfence), ?sources, h.origin_mono hext⟩
    case live =>
      intro id x hx
      obtain ⟨value, hvalue, hlive⟩ := h.live hx
      rw [setStatuses_eq]
      by_cases hmem : id ∈ ids
      · obtain rfl := some.inj (hvalue.symm.trans (hactive id hmem))
        exact ⟨.sealing r, if_pos hmem, fun _ => hlive rfl⟩
      · exact ⟨value, (if_neg hmem).trans hvalue, hlive⟩
    case known =>
      rw [setStatuses_eq]
      grind [h.known]
    case ended =>
      intro id r' hclosed
      refine h.ended_mono hext ?_
      rw [setStatuses_eq] at hclosed
      grind
    case sources =>
      intro r' request' x hrequest hx
      by_cases hr : r' = r
      · subst hr
        obtain rfl := some.inj ((write_self _ _ _).symm.trans hrequest)
        obtain ⟨id, hmem, hid, hsession, -⟩ := exists_right_of_forall₂ hids hx
        exact ⟨id, hid, hsession, .inl (by rw [setStatuses_eq]; exact if_pos hmem)⟩
      · exact h.sources_mono hext ((write_of_ne _ _ hr).symm.trans hrequest) hx
  | @sealed r id submission hclosing hseal hfence =>
    refine ⟨{ h.toIndexed with }, h.live, h.known, h.rooted, h.ended_mono hext,
      ?_, fun hfence => hext.closing (h.fenced hfence), h.sources, h.origin_mono hext⟩
    intro r' id' submission' hseal'
    by_cases hk : (r', id') = (r, id)
    · obtain ⟨rfl, rfl⟩ := Prod.mk.inj hk
      exact ⟨hfence, hclosing⟩
    · exact h.sealed ((write_of_ne _ _ hk).symm.trans hseal')
  | @fenced r id checkpoint hclosing hseal hfence =>
    refine ⟨{ h.toIndexed with }, h.live, h.known, h.rooted, h.ended_mono hext,
      ?seals, ?fences, h.sources, h.origin_mono hext⟩
    case seals =>
      intro r' id' submission' hseal'
      have hk : (r', id') ≠ (r, id) := by
        intro hk
        rw [hk, hseal] at hseal'
        cases hseal'
      obtain ⟨hnone, hclosing'⟩ := h.sealed hseal'
      exact ⟨(write_of_ne _ _ hk).trans hnone, hclosing'⟩
    case fences =>
      intro r' id' checkpoint' hfence'
      by_cases hk : (r', id') = (r, id)
      · obtain ⟨rfl, rfl⟩ := Prod.mk.inj hk
        exact hclosing
      · exact h.fenced ((write_of_ne _ _ hk).symm.trans hfence')
  | @closed r ids hends =>
    refine ⟨{ h.toIndexed with }, ?live, ?known, h.rooted, ?ended,
      fun hseal => (h.sealed hseal).imp_right hext.closing,
      fun hfence => hext.closing (h.fenced hfence), h.sources_mono hext, h.origin_mono hext⟩
    case live =>
      intro id x hx
      obtain ⟨value, hvalue, hlive⟩ := h.live hx
      rw [setStatuses_eq]
      by_cases hmem : id ∈ ids
      · exact ⟨.closed r, if_pos hmem, fun h => nomatch h⟩
      · exact ⟨value, (if_neg hmem).trans hvalue, hlive⟩
    case known =>
      intro id value hvalue
      rw [setStatuses_eq] at hvalue
      by_cases hmem : id ∈ ids
      · rcases (hends id hmem).1 with hold | hold <;> exact h.known hold
      · exact h.known ((if_neg hmem).symm.trans hvalue)
    case ended =>
      intro id r' hclosed
      rw [setStatuses_eq] at hclosed
      by_cases hmem : id ∈ ids
      · obtain ⟨rfl⟩ : r = r' := by simpa [hmem] using hclosed
        exact (hends id hmem).2
      · exact h.ended_mono hext ((if_neg hmem).symm.trans hclosed)
  | noted =>
    exact ⟨{ h.toIndexed with }, h.live, h.known, h.rooted, h.ended,
      h.sealed, h.fenced, h.sources, h.origin⟩

end Preserved

end Handoff

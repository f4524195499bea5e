import QuilNode.Lib.SelfDelimiting
import QuilNode.Global.Allocation

/-!
# What the prover operations sign

A join signs its canonical bytes without the signature and a leave a length-delimited framing, so
their messages have one reading.  Confirms and rejects sign the bare concatenation of their
filters in front of the frame number, which does not say where a filter ends.  A split or merge
signs its frame and its parent and nothing of its children.
-/

namespace Global

open List

/-- `SeniorityMerge`: a legacy key that hands its seniority on. -/
structure SeniorityMerge where
  signature : Bytes
  keyType : Nat
  proverPublicKey : Bytes
  deriving DecidableEq

/-- `SignatureWithPop`. -/
structure SignatureWithPop where
  signature : Bytes
  publicKey : Option Bytes
  popSignature : Bytes
  deriving DecidableEq

/-- `ProverJoin`. -/
structure ProverJoin where
  filters : List Bytes
  frameNumber : Frame
  publicKeySignature : Option SignatureWithPop
  delegateAddress : Bytes
  mergeTargets : List SeniorityMerge
  proof : Bytes
  deriving DecidableEq

/-- `LeafRootEntry`. -/
structure LeafRootEntry where
  path : List Nat
  leafRoot : Bytes
  numBlocks : Nat
  deriving DecidableEq

/-- `ConfirmLeafRoots`. -/
structure ConfirmLeafRoots where
  filter : Bytes
  entries : List LeafRootEntry
  deriving DecidableEq

/-- `Release`. -/
structure Release where
  version : UInt8 × UInt8 × UInt8
  patch : UInt8
  subpatch : Nat
  deriving DecidableEq

/-- `ProverConfirm`, as far as it is signed. -/
structure ProverConfirm where
  filters : List Bytes
  frameNumber : Frame
  leafRoots : List ConfirmLeafRoots
  release : Option Release
  deriving DecidableEq

/-- `ProverReject` and `ProverLeave`, as far as they are signed. -/
structure FiltersOp where
  filters : List Bytes
  frameNumber : Frame
  deriving DecidableEq

/-- `ShardSplit` and `ShardMerge`, as far as `verify` reads them. -/
structure ShardOp where
  parent : Bytes
  children : List Bytes
  frameNumber : Frame
  deriving DecidableEq

/-- The operations whose signatures are considered. -/
inductive SignedOp where
  | join (op : ProverJoin)
  | confirm (op : ProverConfirm)
  | reject (op : FiltersOp)
  | leave (op : FiltersOp)
  | split (op : ShardOp)
  | merge (op : ShardOp)
  deriving DecidableEq

/-- `put_u32`. -/
def putU32 (n : Nat) : Bytes := beBytes 4 n

/-- `put_u64`. -/
def putU64 (n : Nat) : Bytes := beBytes 8 n

/-- A length and that many bytes. -/
def putBytes (bytes : Bytes) : Bytes := putU32 bytes.length ++ bytes

/-- `SeniorityMerge::to_canonical_bytes`. -/
def SeniorityMerge.toCanonicalBytes (target : SeniorityMerge) : Bytes :=
  putU32 0x0310 ++ putBytes target.signature ++ putU32 target.keyType ++
    putBytes target.proverPublicKey

/-- A filter list behind its length, each filter behind its own. -/
def writeFilters (filters : List Bytes) : Bytes :=
  putU32 filters.length ++ filters.flatMap putBytes

/-- The canonical bytes of a join without its signature. -/
def proverJoinMessage (op : ProverJoin) : Bytes :=
  putU32 0x0301 ++ (writeFilters op.filters ++ (putU64 op.frameNumber ++
    (putU32 0 ++ putBytes op.delegateAddress ++ putU32 op.mergeTargets.length ++
      op.mergeTargets.flatMap (fun target => putBytes target.toCanonicalBytes) ++
      putBytes op.proof)))

/-- `multi_filter_signing_message`. -/
def multiFilterSigningMessage (filters : List Bytes) (frameNumber : Nat) : Bytes :=
  filters.flatten ++ putU64 frameNumber

/-- One leaf of `append_confirm_leaf_roots`. -/
def leafRootEntryBytes (entry : LeafRootEntry) : Bytes :=
  (putU32 entry.path.length ++ entry.path.flatMap putU32) ++
    (putBytes entry.leafRoot ++ putU64 entry.numBlocks)

/-- One shard of `append_confirm_leaf_roots`. -/
def confirmLeafRootsBytes (group : ConfirmLeafRoots) : Bytes :=
  putBytes group.filter ++ (putU32 group.entries.length ++ group.entries.flatMap leafRootEntryBytes)

/-- `append_confirm_leaf_roots`: an empty set appends nothing. -/
def appendConfirmLeafRoots (groups : List ConfirmLeafRoots) : Bytes :=
  if groups = [] then []
  else putU32 groups.length ++ groups.flatMap confirmLeafRootsBytes

/-- `Release::to_bytes`. -/
def Release.toBytes (release : Release) : Bytes :=
  [release.version.1, release.version.2.1, release.version.2.2, release.patch] ++
    beBytes 2 release.subpatch

/-- The release part of a confirm's message, from the release frame on. -/
def releaseBytes (releaseFrame frameNumber : Nat) (release : Option Release) : Bytes :=
  match release with
  | some release =>
    if releaseFrame ≤ frameNumber then asciiBytes "release" ++ release.toBytes else []
  | none => []

/-- `confirm_signing_message`. -/
def confirmSigningMessage (releaseFrame : Nat) (op : ProverConfirm) : Bytes :=
  multiFilterSigningMessage op.filters op.frameNumber ++
    (appendConfirmLeafRoots op.leafRoots ++ releaseBytes releaseFrame op.frameNumber op.release)

/-- `prover_leave_signing_message`. -/
def proverLeaveSigningMessage (filters : List Bytes) (frameNumber : Nat) : Bytes :=
  writeFilters filters ++ putU64 frameNumber

/-- The message of `verify_shard_split` and `verify_shard_merge`. -/
def shardOpMessage (op : ShardOp) : Bytes := putU64 op.frameNumber ++ op.parent

/-- The message an operation is signed over. -/
def signingMessage (releaseFrame : Nat) : SignedOp → Bytes
  | .join op => proverJoinMessage op
  | .confirm op => confirmSigningMessage releaseFrame op
  | .reject op => multiFilterSigningMessage op.filters op.frameNumber
  | .leave op => proverLeaveSigningMessage op.filters op.frameNumber
  | .split op => shardOpMessage op
  | .merge op => shardOpMessage op

/-! ## Well-formed operations

The bounds are the decoders' own. -/

/-- The bounds of a filter list. -/
def FiltersBounded (filters : List Bytes) : Prop :=
  filters.length ≤ 100 ∧ ∀ f ∈ filters, f.length ≤ 64

instance (filters : List Bytes) : Decidable (FiltersBounded filters) :=
  inferInstanceAs (Decidable (_ ∧ _))

/-- The bounds of one leaf. -/
def LeafRootEntry.Bounded (entry : LeafRootEntry) : Prop :=
  (entry.path.length ≤ 256 ∧ ∀ n ∈ entry.path, n < 2 ^ 32) ∧
    entry.leafRoot.length ≤ 128 ∧ entry.numBlocks < 2 ^ 64

instance (entry : LeafRootEntry) : Decidable entry.Bounded :=
  inferInstanceAs (Decidable ((_ ∧ _) ∧ _ ∧ _))

/-- The bounds of one shard's leaves. -/
def ConfirmLeafRoots.Bounded (group : ConfirmLeafRoots) : Prop :=
  group.filter.length ≤ 64 ∧ group.entries.length ≤ 256 ∧ ∀ e ∈ group.entries, e.Bounded

instance (group : ConfirmLeafRoots) : Decidable group.Bounded :=
  inferInstanceAs (Decidable (_ ∧ _ ∧ _))

/-- The bounds of an operation. -/
def WellFormed : SignedOp → Prop
  | .join op => FiltersBounded op.filters
  | .confirm op => FiltersBounded op.filters ∧ op.leafRoots.length ≤ 256 ∧
      ∀ group ∈ op.leafRoots, group.Bounded
  | .reject op => FiltersBounded op.filters
  | .leave op => FiltersBounded op.filters
  | .split op => 32 ≤ op.parent.length ∧ op.parent.length ≤ 63 ∧ 2 ≤ op.children.length ∧
      op.children.length ≤ 8
  | .merge op => 32 ≤ op.parent.length ∧ op.parent.length ≤ 63 ∧ 2 ≤ op.children.length ∧
      op.children.length ≤ 8

instance : (op : SignedOp) → Decidable (WellFormed op)
  | .join op => inferInstanceAs (Decidable (FiltersBounded op.filters))
  | .confirm _ => inferInstanceAs (Decidable (_ ∧ _ ∧ _))
  | .reject op => inferInstanceAs (Decidable (FiltersBounded op.filters))
  | .leave op => inferInstanceAs (Decidable (FiltersBounded op.filters))
  | .split _ => inferInstanceAs (Decidable (_ ∧ _ ∧ _ ∧ _))
  | .merge _ => inferInstanceAs (Decidable (_ ∧ _ ∧ _ ∧ _))

/-- Two operations of one kind that authorize the same. -/
def SameAuthorization : SignedOp → SignedOp → Prop
  | .join a, .join b => a.frameNumber = b.frameNumber ∧ a.filters = b.filters
  | .confirm a, .confirm b =>
    a.frameNumber = b.frameNumber ∧ a.filters = b.filters ∧ a.leafRoots = b.leafRoots
  | .reject a, .reject b => a.frameNumber = b.frameNumber ∧ a.filters = b.filters
  | .leave a, .leave b => a.frameNumber = b.frameNumber ∧ a.filters = b.filters
  | .split a, .split b =>
    a.frameNumber = b.frameNumber ∧ a.parent = b.parent ∧ a.children = b.children
  | .merge a, .merge b =>
    a.frameNumber = b.frameNumber ∧ a.parent = b.parent ∧ a.children = b.children
  | _, _ => False

/-- Two operations of one kind that agree in what their message leaves open: where the filters of a
confirm or reject end, which children a split or merge has. -/
def SameShape : SignedOp → SignedOp → Prop
  | .join _, .join _ => True
  | .confirm a, .confirm b => a.filters.map List.length = b.filters.map List.length
  | .reject a, .reject b => a.filters.map List.length = b.filters.map List.length
  | .leave _, .leave _ => True
  | .split a, .split b => a.children = b.children
  | .merge a, .merge b => a.children = b.children
  | _, _ => False

section Reading

theorem putU32_selfDelimiting : SelfDelimiting (· < 2 ^ 32) putU32 :=
  .of_length (fun _ _ _ _ => by simp [putU32]) (fun _ _ ha hb h => beBytes_injective ha hb h)

theorem putU64_selfDelimiting : SelfDelimiting (· < 2 ^ 64) putU64 :=
  .of_length (fun _ _ _ _ => by simp [putU64]) (fun _ _ ha hb h => beBytes_injective ha hb h)

theorem putBytes_selfDelimiting :
    SelfDelimiting (fun bytes : Bytes => bytes.length < 2 ^ 32) putBytes := by
  intro a b ha hb x y h
  obtain ⟨hlen, hrest⟩ := putU32_selfDelimiting ha hb h
  exact append_inj hrest hlen

theorem writeFilters_selfDelimiting : SelfDelimiting FiltersBounded writeFilters := by
  have hcounted := putU32_selfDelimiting.counted putBytes_selfDelimiting
  refine hcounted.comap (f := id) (fun filters h => ⟨?_, fun f hf => ?_⟩) (fun _ _ h => h)
  · have hlen := h.1
    simp only [id]
    omega
  · have hlen := h.2 f hf
    omega

theorem leafRootEntryBytes_selfDelimiting :
    SelfDelimiting LeafRootEntry.Bounded leafRootEntryBytes := by
  have hpath := putU32_selfDelimiting.counted putU32_selfDelimiting
  have hall := hpath.append (putBytes_selfDelimiting.append putU64_selfDelimiting)
  refine hall.comap (f := fun e : LeafRootEntry => (e.path, e.leafRoot, e.numBlocks))
    (fun e h => ?_) (fun a b h => ?_)
  · obtain ⟨⟨_, hpath⟩, _, hblocks⟩ := h
    exact ⟨⟨by simp only; omega, hpath⟩, by simp only; omega, hblocks⟩
  · cases a
    simp_all

theorem confirmLeafRootsBytes_selfDelimiting :
    SelfDelimiting ConfirmLeafRoots.Bounded confirmLeafRootsBytes := by
  have hentries := putU32_selfDelimiting.counted leafRootEntryBytes_selfDelimiting
  refine (putBytes_selfDelimiting.append hentries).comap
    (f := fun g : ConfirmLeafRoots => (g.filter, g.entries)) (fun g h => ?_) (fun a b h => ?_)
  · obtain ⟨_, _, hentries⟩ := h
    exact ⟨by simp only; omega, by simp only; omega, hentries⟩
  · cases a
    simp_all

/-- Filters of the same lengths are told apart by their concatenation. -/
theorem flatten_inj {as bs : List Bytes} (hlen : as.map length = bs.map length)
    {x y : Bytes} (h : as.flatten ++ x = bs.flatten ++ y) : as = bs ∧ x = y := by
  have htotal : as.flatten.length = bs.flatten.length := by
    rw [length_flatten, length_flatten, hlen]
  obtain ⟨hflat, hrest⟩ := append_inj h htotal
  exact ⟨eq_iff_flatten_eq.mpr ⟨hflat, hlen⟩, hrest⟩

theorem multiFilter_inj {as bs : List Bytes} {f g : Frame}
    (hlen : as.map length = bs.map length) {x y : Bytes}
    (h : multiFilterSigningMessage as f ++ x = multiFilterSigningMessage bs g ++ y) :
    as = bs ∧ f = g ∧ x = y := by
  simp only [multiFilterSigningMessage, append_assoc] at h
  obtain ⟨hfilters, hrest⟩ := flatten_inj hlen h
  obtain ⟨hframe, hxy⟩ := putU64_selfDelimiting f.isLt g.isLt hrest
  exact ⟨hfilters, Fin.ext hframe, hxy⟩

/-- A count of leaf-root groups never reads as the word that opens a release. -/
theorem releaseBytes_ne_count {r f n : Nat} {release : Option Release} (hn : n ≤ 256)
    {x : Bytes} : releaseBytes r f release ≠ putU32 n ++ x := by
  intro h
  have hword : putU32 n = (releaseBytes r f release).take 4 := by
    rw [h, take_left' (by simp [putU32])]
  unfold releaseBytes at hword
  have hempty : putU32 n ≠ [] := by
    intro hnil
    have hlen := congrArg length hnil
    simp [putU32] at hlen
  cases release with
  | none => exact hempty hword
  | some release =>
    simp only at hword
    split at hword
    · have hfour : (asciiBytes "release" ++ release.toBytes).take 4 = [114, 101, 108, 101] := by
        rfl
      rw [hfour] at hword
      have hnat := congrArg natOfBytes hword
      rw [putU32, natOfBytes_beBytes, Nat.mod_eq_of_lt (by omega)] at hnat
      have hvalue : natOfBytes [114, 101, 108, 101] = 1919249509 := by decide
      omega
    · exact hempty hword

/-- The leaf roots of a confirm are read off what follows its frame. -/
theorem appendConfirmLeafRoots_inj {as bs : List ConfirmLeafRoots} {r f g : Nat}
    {ra rb : Option Release} (ha : as.length ≤ 256 ∧ ∀ group ∈ as, group.Bounded)
    (hb : bs.length ≤ 256 ∧ ∀ group ∈ bs, group.Bounded)
    (h : appendConfirmLeafRoots as ++ releaseBytes r f ra =
      appendConfirmLeafRoots bs ++ releaseBytes r g rb) : as = bs := by
  have hgroups := putU32_selfDelimiting.counted confirmLeafRootsBytes_selfDelimiting
  unfold appendConfirmLeafRoots at h
  split at h <;> split at h
  · rename_i hnil hnil'
    rw [hnil, hnil']
  · exact absurd h (releaseBytes_ne_count hb.1)
  · exact absurd h.symm (releaseBytes_ne_count ha.1)
  · exact (hgroups ⟨by omega, ha.2⟩ ⟨by omega, hb.2⟩ h).1

theorem proverJoinMessage_binds {a b : ProverJoin} (ha : FiltersBounded a.filters)
    (hb : FiltersBounded b.filters) (h : proverJoinMessage a = proverJoinMessage b) :
    a.frameNumber = b.frameNumber ∧ a.filters = b.filters := by
  have htail := append_cancel_left h
  obtain ⟨hfilters, htail⟩ := writeFilters_selfDelimiting ha hb htail
  obtain ⟨hframe, -⟩ := putU64_selfDelimiting a.frameNumber.isLt b.frameNumber.isLt htail
  exact ⟨Fin.ext hframe, hfilters⟩

theorem proverLeaveSigningMessage_binds {a b : FiltersOp} (ha : FiltersBounded a.filters)
    (hb : FiltersBounded b.filters)
    (h : proverLeaveSigningMessage a.filters a.frameNumber =
      proverLeaveSigningMessage b.filters b.frameNumber) :
    a.frameNumber = b.frameNumber ∧ a.filters = b.filters := by
  obtain ⟨hfilters, htail⟩ := writeFilters_selfDelimiting ha hb h
  exact ⟨Fin.ext (putU64_selfDelimiting.injective a.frameNumber.isLt b.frameNumber.isLt htail),
    hfilters⟩

end Reading

/-- Two operations with one message authorize the same exactly when they are of one shape. -/
theorem sameAuthorization_iff {releaseFrame : Nat} {a b : SignedOp} (ha : WellFormed a)
    (hb : WellFormed b) (hmessage : signingMessage releaseFrame a = signingMessage releaseFrame b) :
    SameAuthorization a b ↔ SameShape a b := by
  cases a <;> cases b
  case join.join => simpa [SameAuthorization, SameShape] using proverJoinMessage_binds ha hb hmessage
  case confirm.confirm =>
    refine ⟨fun h => congrArg _ h.2.1, fun hlen => ?_⟩
    obtain ⟨hfilters, hframe, htail⟩ := multiFilter_inj hlen hmessage
    exact ⟨hframe, hfilters, appendConfirmLeafRoots_inj ha.2 hb.2 htail⟩
  case reject.reject =>
    refine ⟨fun h => congrArg _ h.2, fun hlen => ?_⟩
    obtain ⟨hfilters, hframe, -⟩ := multiFilter_inj hlen (congrArg (· ++ []) hmessage)
    exact ⟨hframe, hfilters⟩
  case leave.leave =>
    simpa [SameAuthorization, SameShape] using proverLeaveSigningMessage_binds ha hb hmessage
  case split.split a b | merge.merge a b =>
    obtain ⟨hframe, hparent⟩ := putU64_selfDelimiting a.frameNumber.isLt b.frameNumber.isLt hmessage
    simp [SameAuthorization, SameShape, Fin.ext hframe, hparent]
  all_goals simp [SameAuthorization, SameShape]

/-- There are other children to name. -/
theorem ShardOp.other_children (op : ShardOp) :
    ∃ children, op.children ≠ children ∧ 2 ≤ children.length ∧ children.length ≤ 8 := by
  by_cases h : op.children = [op.parent ++ [1], op.parent ++ [2]]
  · exact ⟨[op.parent ++ [1], op.parent ++ [3]], by simp [h], by simp, by simp⟩
  · exact ⟨_, h, by simp, by simp⟩

/-- **What a signature binds.**  Of two well-formed operations with one message, joins and leaves
authorize the same; confirms and rejects when their filters have the same lengths, splits and merges
when they name the same children, which the message never binds: each shares it with one that names
others. -/
theorem signing_message_binds_iff {releaseFrame : Nat} {a b : SignedOp} (ha : WellFormed a)
    (hb : WellFormed b) (hmessage : signingMessage releaseFrame a = signingMessage releaseFrame b) :
    (SameAuthorization a b ↔ SameShape a b) ∧
      ∀ op, a = .split op ∨ a = .merge op → ∃ c, WellFormed c ∧
        signingMessage releaseFrame a = signingMessage releaseFrame c ∧
          ¬ SameAuthorization a c := by
  refine ⟨sameAuthorization_iff ha hb hmessage, ?_⟩
  rintro op (rfl | rfl)
  all_goals obtain ⟨children, hne, hlength⟩ := op.other_children
  · exact ⟨.split { op with children }, ⟨ha.1, ha.2.1, hlength⟩, rfl, fun h => hne h.2.2⟩
  · exact ⟨.merge { op with children }, ⟨ha.1, ha.2.1, hlength⟩, rfl, fun h => hne h.2.2⟩

/-- A confirm of one shard with a leaf registered for it. -/
def confirmOfOneShard (release : Option Release) : SignedOp :=
  .confirm ⟨[List.replicate 32 1], 720, [⟨List.replicate 32 1, [⟨[5], [9], 3⟩]⟩], release⟩

/-- Before the release frame a confirm signs no release; the two still authorize the same filters
and leaf roots. -/
theorem unsigned_release_binds_the_rest :
    confirmOfOneShard (some ⟨(2, 1, 0), 4, 1⟩) ≠ confirmOfOneShard none ∧
      SameAuthorization (confirmOfOneShard (some ⟨(2, 1, 0), 4, 1⟩)) (confirmOfOneShard none) :=
  ⟨by decide, (@signing_message_binds_iff 1000 (confirmOfOneShard (some ⟨(2, 1, 0), 4, 1⟩))
    (confirmOfOneShard none) (by decide) (by decide) (by decide)).1.mpr rfl⟩

/-- A reject of two 32-byte filters, or of the 64-byte filter made of them. -/
def rejectOf (whole : Bool) : SignedOp :=
  .reject ⟨if whole then [replicate 32 1 ++ replicate 32 2] else [replicate 32 1, replicate 32 2], 7⟩

/-- A split of one parent into two children. -/
def splitInto (second : UInt8) : SignedOp :=
  .split ⟨replicate 32 1, [replicate 32 1 ++ [1], replicate 32 1 ++ [second]], 7⟩

/-- **Signatures that authorize two lists**: of filters, and of children. -/
theorem messages_shared_by_two_lists : (WellFormed (rejectOf false) ∧ WellFormed (rejectOf true) ∧
      signingMessage 0 (rejectOf false) = signingMessage 0 (rejectOf true) ∧
      ¬ SameAuthorization (rejectOf false) (rejectOf true)) ∧
    (WellFormed (splitInto 2) ∧ WellFormed (splitInto 3) ∧
      signingMessage 0 (splitInto 2) = signingMessage 0 (splitInto 3) ∧
      ¬ SameAuthorization (splitInto 2) (splitInto 3)) := by
  refine ⟨⟨by decide, by decide, by decide, fun h => ?_⟩, by decide, by decide, by decide,
    fun h => ?_⟩
  · exact absurd h.2 (by decide)
  · exact absurd h.2.2 (by decide)

end Global

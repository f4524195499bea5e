import QuilNode.Forest.SyncComplete

/-!
# What tree sync reaches

The leaves of a diff are leaves of the source under the prefix, and the source's other leaves
there are in the target already.  So a target with no other keys under the prefix has the
source's leaves there after the transfer, and the source's subtree root, up to the two
constants for no leaves.
-/

namespace Jmt

open Forest PrefixCode Digest Set

variable {δ : Type} {h : Hashes δ} {S T : Set Entry} {bits : List Bool}
  {source target : BatchTreeReader δ} {anchor : Option (SubtreeSyncAnchor δ)} {vS vT : Nat}
  {out : List Entry} {root : δ}

/-- The leaves of a diff as updates of the target. -/
def transfer (out : List Entry) : List Update := out.map fun e => (e.1, some e.2)

theorem mem_applied_transfer {e : Entry} :
    e ∈ applied T (transfer out) ↔ (e ∈ T ∧ ∀ e' ∈ out, e'.1 ≠ e.1) ∨ e ∈ out := by
  refine or_congr (and_congr_right fun _ => ?_) ?_
  · exact List.forall_mem_map
  · simp [transfer]

theorem IsCommitment.genuine {path : List Bool} (hc : IsCommitment h path S root) :
    Genuine h (under S path) root := by
  rcases eq_empty_or_nonempty (under S path) with hempty | hsome
  · by_cases hcase : path = [] ∨ Crowded S path
    · exact .inr ⟨.empty, (hc.placeholder hempty hcase).symm, empty_subset _⟩
    · exact .inl (hc.zero hempty (fun hnil => hcase (.inl hnil)) fun hcrowded => hcase (.inr hcrowded))
  · obtain ⟨t, hbuilds, rfl⟩ := hc.leaves hsome
    exact .inr ⟨t, rfl, hbuilds.entries_eq.subset⟩

theorem Based.key_inj {reader : TreeReader δ} (hT : Based h reader vT T) {e e' : Entry} (he : e ∈ T)
    (he' : e' ∈ T) (hkey : e.1 = e'.1) : e = e' := by
  rcases hT with ⟨node, hs⟩ | ⟨rfl, -⟩
  · exact hs.key_inj he he' hkey
  · exact absurd he (notMem_empty e)

/-- The source's leaves, written over a target with no other keys, are the source's. -/
theorem under_transferred {reader reader' : TreeReader δ} (hS : Committed h reader vS S)
    (hT : Based h reader' vT T) (hcomplete : under S bits ⊆ T ∪ listed out)
    (hsound : listed out ⊆ under S bits)
    (hkeys : ∀ e ∈ T, Begins e.1.getMsbD bits → ∃ v, (e.1, v) ∈ S) :
    under S bits = under (applied T (transfer out)) bits := by
  obtain ⟨_, hs⟩ := hS
  ext e
  constructor
  · intro he
    refine ⟨mem_applied_transfer.mpr ?_, he.2⟩
    by_cases hout : e ∈ out
    · exact .inr hout
    rcases hcomplete he with hmem | hmem
    · refine .inl ⟨hmem, fun e' he' hkey => hout ?_⟩
      rwa [← hs.key_inj (hsound he').1 he.1 hkey]
    · exact absurd hmem hout
  · rintro ⟨he, hbits⟩
    rcases mem_applied_transfer.mp he with ⟨hmem, hnone⟩ | hout
    · obtain ⟨v, hv⟩ := hkeys e hmem hbits
      rcases hcomplete ⟨hv, hbits⟩ with hsame | hout
      · rw [hT.key_inj hmem hsame rfl]
        exact ⟨hv, hbits⟩
      · exact absurd rfl (hnone (e.1, v) hout)
    · exact hsound hout

/-- **Tree sync** is complete and authentic, and ends with the source's subtree root if and only if
the prefix is of whole nibbles, has a leaf of the source, or both trees or neither have several
leaves around it. -/
theorem sync_reaches_iff [DecidableEq δ] (hcf : h.CollisionFree) (hsource : Answers source)
    (htarget : Answers target)
    (hlists : Lists source vS S) (hS : Committed h source.toTreeReader vS S)
    (hT : Based h target.toTreeReader vT T) (hwidth : bits.length ≤ 256) (hfits : Fits h bits S anchor) :
    (∃ out root, diffLeavesUnderPrefix h source target vS bits anchor vT = .ok (out, root) ∧
      subtreeRoot h source.toTreeReader vS bits = .ok root ∧
      (∀ e ∈ S, Begins e.1.getMsbD bits → e ∈ out ∨ e ∈ T) ∧
      ((∀ e ∈ T, Begins e.1.getMsbD bits → ∃ v, (e.1, v) ∈ S) → ∀ reader' version',
        Committed h reader' version' (applied T (transfer out)) →
        (subtreeRoot h reader' version' bits = .ok root ↔ bits.length % 4 = 0 ∨
          (∃ e ∈ S, Begins e.1.getMsbD bits) ∨ (Crowded S bits ↔ Crowded T bits)))) ∧
    ∀ (source' target' : BatchTreeReader δ) (vS' vT' : Nat) (bits' : List Bool) (A : Set Entry)
      (expected : δ) (result : List Entry × δ), Genuine h A expected →
      diffLeavesUnderPrefix h source' target' vS' bits' (some (.subtreeRoot expected)) vT' = .ok result →
      ∀ e ∈ result.1, e ∈ A := by
  constructor
  · obtain ⟨out, root, hdiff, hroot, hcomplete⟩ :=
      diff_complete hcf hsource htarget hlists hS hT hwidth hfits
    have hsound : listed out ⊆ under S bits := (diff_authentic hcf hdiff).2 _ hroot.genuine
    obtain ⟨_, hsubtree, hroot'⟩ := subtreeRoot_isCommitment hS hwidth
    refine ⟨out, root, hdiff, by rw [hsubtree, hroot'.unique hroot], fun e he hbits => ?_, ?_⟩
    · exact (hcomplete ⟨he, hbits⟩).symm
    · intro hkeys reader' version' hcommitted
      have hsame := under_transferred hS hT hcomplete hsound hkeys
      obtain ⟨_, hc, hcommit⟩ := subtreeRoot_isCommitment hcommitted hwidth
      rw [hc, Except.ok.injEq, hcommit.eq_iff hroot hsame.symm, ← hsame]
      refine or_congr_right ?_
      rcases eq_empty_or_nonempty (under S bits) with hempty | hsome
      · -- nothing under the prefix, so nothing was transferred
        have hnil : out = [] := List.eq_nil_iff_forall_not_mem.mpr fun e he =>
          eq_empty_iff_forall_notMem.mp hempty e (hsound he)
        rw [hnil, show transfer [] = [] from rfl, applied_nil]
        exact or_congr Iff.rfl iff_comm
      · exact iff_of_true (.inl hsome) (.inl hsome)
  · intro source' target' vS' vT' bits' A expected result hgenuine hdiff
    obtain ⟨hpinned, hleaves⟩ := diff_authentic hcf hdiff
    exact hleaves A (hpinned expected rfl ▸ hgenuine)

/-- A reader that answers batches one by one and lists nothing. -/
def TreeReader.batched (reader : TreeReader δ) : BatchTreeReader δ where
  toTreeReader := reader
  getNodes keys := keys.mapM reader.getNodeOption
  getValues reads := reads.mapM fun r => reader.getValueOption r.1 r.2
  leavesUnder _ _ := .ok none

theorem answers_batched (reader : TreeReader δ) : Answers reader.batched := ⟨fun _ => rfl, fun _ => rfl⟩

theorem collisionFree_digests : digests.CollisionFree where
  merkle := by
    refine ⟨fun hsame => ?_, fun hsame => ?_, fun hsame => ?_, fun hsame => ?_, fun hsame => ?_⟩
    · obtain ⟨hkey, hvalue⟩ := leaf.inj hsame
      exact ⟨hkey, value.inj hvalue⟩
    · exact inner.inj hsame
    all_goals exact Digest.noConfusion hsame
  leaf_ne_zero _ _ := Digest.noConfusion
  inner_ne_zero _ _ := Digest.noConfusion

/-- A target with one of two leaves asks for the other. -/
theorem second_leaf_transfers :
    ∃ out root, diffLeavesUnderPrefix digests (pairReader digests leafAt8 leafAt9).batched
        (singleReader digests leafAt8).batched 0 [true] none 0 = .ok (out, root) ∧
      ∀ e ∈ ({leafAt8, leafAt9} : Set Entry), Begins e.1.getMsbD [true] →
        e ∈ out ∨ e ∈ ({leafAt8} : Set Entry) := by
  obtain ⟨⟨out, root, hdiff, -, hcomplete, -⟩, -⟩ := @sync_reaches_iff _ digests
    {leafAt8, leafAt9} {leafAt8} [true] _ _ none 0 0 _ collisionFree_digests
    (answers_batched (pairReader digests leafAt8 leafAt9)) (answers_batched (singleReader digests leafAt8))
    (fun _ => .inl rfl) (committed_pair digests (by decide)) (.inl (committed_single digests _))
    (by decide) trivial
  exact ⟨out, root, hdiff, hcomplete⟩

/-- The first half is empty in both trees: nothing is transferred, and the target's root there stays
zero where the source's is not. -/
theorem empty_half_not_reached :
    diffLeavesUnderPrefix digests (pairReader digests leafAt8 leafAt9).batched
        (singleReader digests leafAt8).batched 0 [false] none 0 = .ok ([], .placeholder) ∧
      (∀ e ∈ ({leafAt8} : Set Entry), Begins e.1.getMsbD [false] →
        ∃ v, (e.1, v) ∈ ({leafAt8, leafAt9} : Set Entry)) ∧
      Committed digests (singleReader digests leafAt8) 0 (applied {leafAt8} (transfer [])) ∧
      subtreeRoot digests (singleReader digests leafAt8) 0 [false] ≠
        subtreeRoot digests (pairReader digests leafAt8 leafAt9) 0 [false] := by
  refine ⟨by decide +kernel, ?_, ?_, by decide +kernel⟩
  · rintro e rfl -
    exact ⟨leafAt8.2, .inl rfl⟩
  · rw [show transfer [] = [] from rfl, applied_nil]
    exact committed_single digests leafAt8

end Jmt

import QuilNode.Forest.SubtreeRoot

/-!
# Authenticated descents (`descend_nibbles`, `subtree_root` of `sync.rs`)

Sync walks down the whole nibbles of a path and checks every child it fetches against the
hash its parent has for it.  In a stored tree all checks pass, and the descent ends at the
node for the leaves with the whole nibbles, or above it at a leaf, or at nothing
(`Reaches`).  So `subtree_root` reads what `app_subtree_root` does.
-/

namespace Jmt

open MerkleTree (Builds)
open Forest PrefixCode Results List Except
open NibbleTree (nibble4)

variable {δ : Type}

section Code

variable [DecidableEq δ]

/-- The loop of `descend_nibbles`, along the whole nibbles that are left of the path. -/
def descendFrom (h : Hashes δ) (reader : TreeReader δ) :
    List Bool → NodeKey → Node δ → Except String (Option (NodeKey × Node δ))
  | b₀ :: b₁ :: b₂ :: b₃ :: rest, key, node =>
    match node with
    | .internal int =>
      match int.children (nibble4 b₀ b₁ b₂ b₃) with
      | none => .ok none
      | some child => do
        let key := key.genChildNodeKey child.version (nibble4 b₀ b₁ b₂ b₃)
        let node ← reader.getNode key
        ensure (nodeHash h node = child.hash)
          "subtree sync: descended child does not hash into its parent"
        descendFrom h reader rest key node
    | other => .ok (some (key, other))
  | _, key, node => .ok (some (key, node))

def descendNibbles (h : Hashes δ) (reader : TreeReader δ) (version : Nat) (bitPath : List Bool)
    (pinnedRoot : Option δ) : Except String (Option (NodeKey × Node δ)) := do
  match (← reader.getNodeOption (.root version)) with
  | none => do
    ensure (pinnedRoot = none ∨ pinnedRoot = some h.zero)
      "subtree sync: missing source for the pinned header root"
    return none
  | some node => do
    ensure (∀ root ∈ pinnedRoot, nodeHash h node = root)
      "subtree sync: source root does not match the pinned header root"
    descendFrom h reader bitPath (.root version) node

/-- The last bits of a path, after its whole nibbles. -/
def lastBits (path : List Bool) : List Bool := path.drop (4 * (path.length / 4))

/-- The commitment at a node where the whole nibbles of a path end. -/
def rangeRoot (h : Hashes δ) (bits : List Bool) (node : InternalNode δ) : δ :=
  if bits.length % 4 = 0 then node.hash h
  else node.subtreeHash h (openStart (lastBits bits)) (openWidth (lastBits bits))

/-- The commitment that `subtree_root` takes from the end of a descent. -/
def reachedRoot (h : Hashes δ) (bits : List Bool) : Option (NodeKey × Node δ) → δ
  | none => h.zero
  | some (_, .leaf leaf) => leafIfUnder h leaf bits
  | some (_, .null) => if bits = [] then h.placeholder else h.zero
  | some (_, .internal node) => rangeRoot h bits node

def subtreeRoot (h : Hashes δ) (reader : TreeReader δ) (version : Nat) (bits : List Bool) :
    Except String δ := do
  ensure (bits.length ≤ 256) "subtree prefix exceeds key width"
  return reachedRoot h bits (← descendNibbles h reader version bits none)

end Code

variable {h : Hashes δ} {reader : TreeReader δ} {key : NodeKey} {level version : Nat}
  {S : Set (Bytes32 × Bytes)} {node : Node δ} {path done rest : List Bool} {c : δ}

/-- The whole nibbles of a path. -/
def wholeBits (path : List Bool) : List Bool := path.take (4 * (path.length / 4))

theorem wholeBits_append_lastBits (path : List Bool) : wholeBits path ++ lastBits path = path :=
  take_append_drop _ _

theorem length_wholeBits (path : List Bool) : (wholeBits path).length = 4 * (path.length / 4) := by
  rw [wholeBits, length_take]
  omega

theorem length_lastBits (path : List Bool) : (lastBits path).length = path.length % 4 := by
  rw [lastBits, length_drop]
  omega

/-- A descent ends at nothing with the whole nibbles of the path, or at the node of the leaves with
some of them, all of them where it is inner. -/
def Reaches (h : Hashes δ) (reader : TreeReader δ) (path : List Bool) (S : Set (Bytes32 × Bytes)) :
    Option (NodeKey × Node δ) → Prop
  | none => under S (wholeBits path) = ∅
  | some (key, node) => ∃ done level, done <+: wholeBits path ∧ done.length = 4 * level ∧
      Stored h reader key level (under S done) node ∧
      ((∃ int, node = .internal int) → done = wholeBits path)

theorem under_nil (S : Set (Bytes32 × Bytes)) : under S [] = S :=
  Set.Subset.antisymm (fun _ he => he.1) fun _ he => ⟨he, begins_nil _⟩

/-- The child of a node for the next nibble of a path. -/
theorem nibblePart_under {b0 b1 b2 b3 : Bool} (hdone : done.length = 4 * level) :
    nibblePart (under S done) level (nibble4 b0 b1 b2 b3) = under S (done ++ [b0, b1, b2, b3]) := by
  rw [nibblePart_eq_under hdone fun _ he => he.2, under_under (prefix_append _ _)]

/-- The commitment of no leaves at all. -/
theorem isCommitment_null (path : List Bool) :
    IsCommitment h path ∅ (if path = [] then h.placeholder else h.zero) := by
  by_cases hne : path = []
  · subst hne
    refine ⟨fun hsome => ?_, fun _ _ => rfl, fun _ hnot => absurd rfl hnot⟩
    rw [under_nil] at hsome
    exact absurd hsome Set.not_nonempty_empty
  · rw [if_neg hne]
    exact @isCommitment_zero _ h 0 _ path [] hne nil_prefix rfl (Set.sep_empty _)

/-- The commitment at an inner node on the whole nibbles of a path. -/
theorem isCommitment_rangeRoot {int : InternalNode δ} (hnode : NodeHolds h level S (.internal int))
    (hlevel : (wholeBits path).length = 4 * level)
    (hall : ∀ e ∈ S, Begins e.1.getMsbD (wholeBits path)) :
    IsCommitment h path S (rangeRoot h path int) := by
  have hshort : (lastBits path).length < 4 := by
    rw [length_lastBits]
    omega
  have hcommit := isCommitment_node hnode (wholeBits_append_lastBits path).symm hlevel hshort hall
  have hrange : (if lastBits path = [] then int.hash h
      else int.subtreeHash h (openStart (lastBits path)) (openWidth (lastBits path))) =
      rangeRoot h path int := by
    rw [rangeRoot, ← length_lastBits]
    simp only [length_eq_zero_iff]
  rwa [hrange] at hcommit

/-- What `subtree_root` takes from the end of a descent is the commitment. -/
theorem isCommitment_of_reaches {out : Option (NodeKey × Node δ)} (hout : Reaches h reader path S out)
    (hnil : path = [] → out ≠ none) : IsCommitment h path S (reachedRoot h path out) := by
  have hwhole : wholeBits path <+: path := take_prefix _ _
  match out with
  | none =>
    have hne : path ≠ [] := fun h => hnil h rfl
    exact isCommitment_zero hne hwhole (length_wholeBits path) hout
  | some (key, node) =>
    obtain ⟨done, _, hpre, hdone, hs, hinner⟩ := hout
    refine IsCommitment.of_under (hpre.trans hwhole) hdone ?_
    have hholds := hs.holds
    cases node with
    | null =>
      rw [show under S done = ∅ from hholds]
      exact isCommitment_null path
    | leaf leaf =>
      obtain ⟨value, hvalue, hset⟩ := hholds
      rw [hset, show leaf = ⟨leaf.keyHash, h.value value⟩ by rw [← hvalue]]
      exact isCommitment_leaf _ _
    | internal int =>
      have hdoneWhole := hinner ⟨int, rfl⟩
      exact isCommitment_rangeRoot hholds (hdoneWhole ▸ hdone) fun e he => hdoneWhole ▸ he.2

section Spec

variable [DecidableEq δ]

theorem descendFrom_short (hrest : rest.length < 4) :
    descendFrom h reader rest key node = .ok (some (key, node)) := by
  match rest with
  | [] | [_] | [_, _] | [_, _, _] => rfl
  | _ :: _ :: _ :: _ :: _ => simp at hrest; omega

/-- **A descent of a stored tree** passes its checks. -/
theorem descendFrom_reaches (hs : Stored h reader key level (under S done) node)
    (hpath : path = done ++ rest) (hdone : done.length = 4 * level) :
    ∃ out, descendFrom h reader rest key node = .ok out ∧ Reaches h reader path S out := by
  have hpre : done <+: wholeBits path := isPrefix_take_whole ⟨rest, hpath.symm⟩ hdone
  generalize hU : under S done = U at hs
  induction hs generalizing done rest with
  | @null key level read =>
    refine ⟨some (key, .null), ?_, done, level, hpre, hdone, by rw [hU]; exact .null read, ?_⟩
    · rcases four_or_short rest with ⟨b0, b1, b2, b3, more, rfl⟩ | hshort
      · rfl
      · exact descendFrom_short hshort
    · rintro ⟨int, hint⟩
      cases hint
  | @leaf key level k v read value =>
    refine ⟨some (key, .leaf ⟨k, h.value v⟩), ?_, done, level, hpre, hdone,
      by rw [hU]; exact .leaf read value, ?_⟩
    · rcases four_or_short rest with ⟨b0, b1, b2, b3, more, rfl⟩ | hshort
      · rfl
      · exact descendFrom_short hshort
    · rintro ⟨int, hint⟩
      cases hint
  | @internal key level U node child read several absent present below ih =>
    rcases four_or_short rest with ⟨b0, b1, b2, b3, more, rfl⟩ | hshort
    · have hlength : (done ++ [b0, b1, b2, b3]).length = 4 * (level + 1) := by
        rw [length_append, hdone]
        rfl
      have hnext : done ++ [b0, b1, b2, b3] <+: wholeBits path :=
        isPrefix_take_whole ⟨more, by rw [hpath]; simp⟩ hlength
      have hpart : under S (done ++ [b0, b1, b2, b3]) = nibblePart U level (nibble4 b0 b1 b2 b3) := by
        rw [← hU, nibblePart_under hdone]
      cases hchild : node.children (nibble4 b0 b1 b2 b3) with
      | none =>
        refine ⟨none, by simp only [descendFrom, hchild], ?_⟩
        have hempty : under S (done ++ [b0, b1, b2, b3]) = ∅ := hpart.trans (absent _ hchild)
        rw [Reaches, ← under_under hnext, hempty]
        exact Set.sep_empty _
      | some c =>
        have hread := (below _ c hchild).read_eq
        have hmore : path = done ++ [b0, b1, b2, b3] ++ more := by rw [hpath]; simp
        obtain ⟨out, hout, hreaches⟩ := ih _ c hchild hmore hlength hnext hpart
        refine ⟨out, ?_, hreaches⟩
        have hhash := (present _ c hchild).2.1.symm
        simp only [descendFrom, hchild, TreeReader.getNode, hread, okOr, bind, Except.bind,
          ensure_of hhash]
        exact hout
    · refine ⟨_, descendFrom_short hshort, done, level, hpre, hdone,
        by rw [hU]; exact .internal child read several absent present below, fun _ => ?_⟩
      refine hpre.eq_of_length_le ?_
      rw [length_wholeBits, hpath, length_append, hdone]
      omega

/-- **`subtree_root` reads the commitment.** -/
theorem subtreeRoot_isCommitment (hS : Committed h reader version S) (hwidth : path.length ≤ 256) :
    ∃ c, subtreeRoot h reader version path = .ok c ∧ IsCommitment h path S c := by
  obtain ⟨node, hs⟩ := hS
  have hs' : Stored h reader (.root version) 0 (under S []) node := by rwa [under_nil]
  obtain ⟨out, hout, hreaches⟩ := @descendFrom_reaches _ h reader _ 0 S node path [] path _ hs' rfl rfl
  have hnil : path = [] → out ≠ none := by
    rintro rfl
    rw [← ok.inj hout]
    exact Option.some_ne_none _
  refine ⟨_, ?_, isCommitment_of_reaches hreaches hnil⟩
  have hdescend : descendNibbles h reader version path none = .ok out := by
    simp only [descendNibbles, hs.read_eq, bind]
    exact hout
  simp only [subtreeRoot, ensure_of hwidth, hdescend, bind]
  rfl

end Spec

end Jmt

import QuilNode.Forest.SubtreePreview

/-!
# Tree sync (`diff_leaves_under_prefix` of `sync.rs`)

A node that is behind asks a peer for the leaves in which their trees differ.  A child whose hash
the target has too is skipped, a subtree the target has nothing of may be listed in bulk, every
other child is fetched and checked.  The source answers what it likes, as a function of the
request, since the walk asks for no node twice.
-/

namespace Jmt

open Forest PrefixCode Results List Except
open NibbleTree (nibble4 begins_nibble)

variable {δ : Type}

/-- A leaf as it is transferred. -/
abbrev Entry := Bytes32 × Bytes

structure BatchTreeReader (δ : Type) extends TreeReader δ where
  getNodes : List NodeKey → Except String (List (Option (Node δ)))
  getValues : List (Nat × Bytes32) → Except String (List (Option Bytes))
  leavesUnder : Nat → List Bool → Except String (Option (List Entry))

inductive SubtreeSyncAnchor (δ : Type) where
  | appRoot (root : δ)
  | subtreeRoot (root : δ)

/-- The bits of a nibble, most significant first. -/
def nibbleBits (n : Fin 16) : List Bool :=
  [n.val.testBit 3, n.val.testBit 2, n.val.testBit 1, n.val.testBit 0]

/-- The bits of a nibble path. -/
def NodeKey.bits (key : NodeKey) : List Bool := key.nibblePath.flatMap nibbleBits

section Listed

variable (h : Hashes δ)

/-- `rebuilt_child`; `internal` builds the node over two or more leaves. -/
def rebuiltChild (internal : List Entry → Except String (InternalNode δ)) :
    List Entry → Except String (Child δ)
  | [(key, value)] => .ok ⟨h.leaf key (h.value value), 0, .leaf⟩
  | leaves => do
    let node ← internal leaves
    return ⟨node.hash h, 0, node.nodeType⟩

/-- The loop of `rebuilt_internal` over the runs of equal nibbles; a list has at most as many
runs as leaves. -/
def rebuiltChildren (child : List Entry → Except String (Child δ)) (depth : Nat) :
    Nat → List Entry → (Fin 16 → Option (Child δ)) → Except String (Fin 16 → Option (Child δ))
  | fuel + 1, (key, value) :: rest, children => do
    let run := ((key, value) :: rest).takeWhile fun e => nibbleAt e.1 depth = nibbleAt key depth
    let built ← child run
    rebuiltChildren child depth fuel
      (((key, value) :: rest).dropWhile fun e => nibbleAt e.1 depth = nibbleAt key depth)
      (Function.update children (nibbleAt key depth) (some built))
  | _, _, children => .ok children

/-- `rebuilt_internal`; the depth of a key leaves `fuel` levels. -/
def rebuiltInternal : Nat → List Entry → Nat → Except String (InternalNode δ)
  | 0, _, _ => .error "sync: listed leaves cannot form a subtree"
  | fuel + 1, leaves, depth => do
    ensure (depth < 64 ∧ 2 ≤ leaves.length) "sync: listed leaves cannot form a subtree"
    let children ← rebuiltChildren
      (rebuiltChild h fun run => rebuiltInternal fuel run (depth + 1)) depth leaves.length leaves
      fun _ => none
    return .new children

def listedSubtreeRoot (leaves : List Entry) (bitPath : List Bool) : Except String δ := do
  ensure (leaves.Pairwise fun a b => a.1 < b.1)
    "sync: listed leaves are not in strictly increasing key order"
  ensure (∀ e ∈ leaves, addrHasBitPrefix e.1 bitPath = true)
    "sync: a listed leaf lies outside the subtree"
  match leaves with
  | [] => .ok (if bitPath.length % 4 = 0 then h.zero else h.placeholder)
  | [(key, value)] => .ok (h.leaf key (h.value value))
  | leaves => do
    let node ← rebuiltInternal h 65 leaves (bitPath.length / 4)
    return rangeRoot h bitPath node

variable [DecidableEq δ]

def listedSubtree (source : BatchTreeReader δ) (version : Nat) (bitPath : List Bool) (root : δ) :
    Except String (Option (List Entry)) := do
  match (← source.leavesUnder version bitPath) with
  | none => .ok none
  | some leaves => do
    ensure ((← listedSubtreeRoot h leaves bitPath) = root)
      "sync: listed leaves do not reconstruct the authenticated subtree"
    return some leaves

end Listed

def walkChunk : Nat := 256
def listMinLeaves : Nat := 1024

/-- A source node still to compare against the target's node at its path. -/
structure WalkPair (δ : Type) where
  sKey : NodeKey
  sNode : Node δ
  tKey : NodeKey
  tNode : Option (Node δ)

/-- A source child to fetch. -/
structure ChildRead (δ : Type) where
  sKey : NodeKey
  hash : δ
  tKey : NodeKey
  tPresent : Bool

/-- What a round collects: leaves whose values are to be read, children to be fetched, and
the leaves to transfer. -/
structure RoundState (δ : Type) where
  leaves : List (Nat × LeafNode δ)
  children : List (ChildRead δ)
  out : List Entry

/-- The target's child at a nibble. -/
def targetChild : Option (Node δ) → Fin 16 → Option (Child δ)
  | some (.internal int), n => int.children n
  | _, _ => none

section Walk

variable (h : Hashes δ) [DecidableEq δ] (source target : BatchTreeReader δ)

/-- The target has the leaf. -/
def sameLeaf : Option (Node δ) → LeafNode δ → Bool
  | some (.leaf leaf'), leaf => leaf' == leaf
  | _, _ => false

/-- `fetch_children` once both trees answered. -/
def pairUp : List (ChildRead δ × Option (Node δ)) → List (Option (Node δ)) →
    Except String (List (WalkPair δ))
  | [], _ => .ok []
  | (child, sNode) :: rest, tNodes => do
    let sNode ← okOr sNode "sync: source is missing a child node"
    ensure (nodeHash h sNode = child.hash) "sync: child does not hash into its parent"
    let (tNode, tNodes) := if child.tPresent then (tNodes.head?.join, tNodes.tail) else (none, tNodes)
    let pairs ← pairUp rest tNodes
    return ⟨child.sKey, sNode, child.tKey, tNode⟩ :: pairs

def fetchChildren (children : List (ChildRead δ)) : Except String (List (WalkPair δ)) := do
  let sNodes ← source.getNodes (children.map ChildRead.sKey)
  ensure (sNodes.length = children.length) "sync: source answered a different number of nodes"
  let tKeys := (children.filter ChildRead.tPresent).map ChildRead.tKey
  let tNodes ← target.getNodes tKeys
  ensure (tNodes.length = tKeys.length) "sync: target answered a different number of nodes"
  pairUp h (children.zip sNodes) tNodes

/-- A value that hashes into its leaf. -/
def checkedValue (leaf : LeafNode δ) (value : Bytes) : Except String Entry := do
  ensure ((⟨leaf.keyHash, h.value value⟩ : LeafNode δ) = leaf)
    "sync: value does not match its committed leaf"
  return (leaf.keyHash, value)

def authenticatedValue (version : Nat) (leaf : LeafNode δ) : Except String Entry := do
  let value ← okOr (← source.getValueOption version leaf.keyHash) "Missing value"
  checkedValue h leaf value

/-- The values of the leaves of a round. -/
def readLeaves (leaves : List (Nat × LeafNode δ)) : Except String (List Entry) := do
  let values ← source.getValues (leaves.map fun l => (l.1, l.2.keyHash))
  ensure (values.length = leaves.length) "sync: source answered a different number of values"
  (leaves.zip values).mapM fun l => do
    let value ← okOr l.2 "sync: source is missing a leaf value"
    checkedValue h l.1.2 value

/-- One child of a source node. -/
def expandChild (vS : Nat) (pair : WalkPair δ) (st : RoundState δ) (c : Fin 16 × Child δ) :
    Except String (RoundState δ) :=
  let tMatch := targetChild pair.tNode c.1
  if tMatch.any fun t => t.hash = c.2.hash then .ok st
  else do
    -- a nibble path has at most 64 nibbles
    ensure (pair.sKey.nibblePath.length < 64) "nibble path overflow"
    let sKey := pair.sKey.genChildNodeKey c.2.version c.1
    let listed ← (if tMatch.isNone = true ∧ listMinLeaves ≤ c.2.leafCount then
        listedSubtree h source vS sKey.bits c.2.hash
      else .ok none : Except String (Option (List Entry)))
    match listed with
    | some leaves => .ok { st with out := st.out ++ leaves }
    | none =>
      -- where the target has no child its key is never fetched
      let version := (tMatch.map Child.version).getD pair.tKey.version
      .ok { st with children := st.children ++
        [⟨sKey, c.2.hash, pair.tKey.genChildNodeKey version c.1, tMatch.isSome⟩] }

/-- One pair of a round. -/
def expandPair (vS : Nat) (st : RoundState δ) (pair : WalkPair δ) : Except String (RoundState δ) :=
  match pair.sNode with
  | .null => .ok st
  | .leaf leaf =>
    if sameLeaf pair.tNode leaf then .ok st
    else .ok { st with leaves := st.leaves ++ [(pair.sKey.version, leaf)] }
  | .internal int => int.childrenSorted.foldlM (expandChild h source vS pair) st

/-- One round: expand the last pairs of the stack, fetch the children in their place. -/
def walkRound (vS : Nat) (stack : List (WalkPair δ)) (out : List Entry) :
    Except String (List (WalkPair δ) × List Entry) := do
  let st ← (stack.drop (stack.length - walkChunk)).foldlM (expandPair h source vS) ⟨[], [], out⟩
  let pairs ← fetchChildren h source target st.children
  let values ← readLeaves h source st.leaves
  return (stack.take (stack.length - walkChunk) ++ pairs, st.out ++ values)

def walkRounds (vS : Nat) : Nat → List (WalkPair δ) → List Entry → Except String (List Entry)
  | _, [], out => .ok out
  | 0, _ :: _, _ => .error "the walk does not end"
  | fuel + 1, pair :: stack, out => do
    let (stack, out) ← walkRound h source target vS (pair :: stack) out
    walkRounds vS fuel stack out

/-- Room for every node that can be below a key. -/
def keyWeight (key : NodeKey) : Nat := 17 ^ (65 - key.nibblePath.length)

def walkFuel (stack : List (WalkPair δ)) : Nat := (stack.map fun pair => keyWeight pair.sKey).sum

/-- `walk`, whose callers start with no leaves. -/
def walk (vS : Nat) (pairs : List (WalkPair δ)) : Except String (List Entry) := do
  let out ← walkRounds h source target vS (walkFuel pairs) pairs []
  return out.mergeSort fun a b => a.1 ≤ b.1

def pinnedAppRoot : Option (SubtreeSyncAnchor δ) → Option δ
  | some (.appRoot root) => some root
  | _ => none

def checkSubtree (anchor : Option (SubtreeSyncAnchor δ)) (root : δ) : Except String Unit :=
  match anchor with
  | some (.subtreeRoot expected) =>
    ensure (root = expected) "subtree sync: source subtree does not match the pinned header root"
  | _ => .ok ()

/-- The target has nothing under the prefix. -/
def targetEmpty (bits : List Bool) : Option (NodeKey × Node δ) → Bool
  | none => true
  | some (_, .null) => true
  | some (_, .leaf leaf) => !addrHasBitPrefix leaf.keyHash bits
  | some (_, .internal int) => bits.length % 4 != 0 &&
      (int.rangeChildren (openStart (lastBits bits)) (openWidth (lastBits bits))).isEmpty

/-- The children that the last bits of the prefix leave open and the target does not have. -/
def openReads (bits : List Bool) (sKey : NodeKey) (sInt : InternalNode δ)
    (t : Option (NodeKey × Node δ)) : List (ChildRead δ) :=
  (sInt.rangeChildren (openStart (lastBits bits)) (openWidth (lastBits bits))).filterMap fun c =>
    let tMatch := targetChild (t.map Prod.snd) c.1
    let sChildKey := sKey.genChildNodeKey c.2.version c.1
    if tMatch.any fun t => t.hash = c.2.hash then none
    else
      match t with
      | some (tKey, _) =>
        let version := (tMatch.map Child.version).getD tKey.version
        some ⟨sChildKey, c.2.hash, tKey.genChildNodeKey version c.1, tMatch.isSome⟩
      | none => some ⟨sChildKey, c.2.hash, sChildKey, false⟩

variable (vS : Nat) (bits : List Bool) (anchor : Option (SubtreeSyncAnchor δ))

/-- The subtree of whole nibbles is one node. -/
def diffAligned (sKey : NodeKey) (sNode : Node δ) (t : Option (NodeKey × Node δ)) (bulk : Bool) :
    Except String (List Entry × δ) := do
  let root := nodeHash h sNode
  checkSubtree anchor root
  let listed ← (if bulk = true then listedSubtree h source vS bits root else .ok none :
    Except String (Option (List Entry)))
  match listed with
  | some leaves => return (leaves, root)
  | none => do
    let out ← walk h source target vS [⟨sKey, sNode, (t.map Prod.fst).getD sKey, t.map Prod.snd⟩]
    return (out, root)

/-- The subtree that ends inside a nibble is a range of children. -/
def diffOpen (sKey : NodeKey) (sInt : InternalNode δ) (t : Option (NodeKey × Node δ)) (bulk : Bool) :
    Except String (List Entry × δ) := do
  let root := sInt.subtreeHash h (openStart (lastBits bits)) (openWidth (lastBits bits))
  checkSubtree anchor root
  let listed ← (if bulk = true then listedSubtree h source vS bits root else .ok none :
    Except String (Option (List Entry)))
  match listed with
  | some leaves => return (leaves, root)
  | none => do
    let pairs ← fetchChildren h source target (openReads bits sKey sInt t)
    let out ← walk h source target vS pairs
    return (out, root)

/-- The leaf that a descent of the source ended at. -/
def diffLeaf (sKey : NodeKey) (leaf : LeafNode δ) (t : Option (NodeKey × Node δ)) :
    Except String (List Entry × δ) := do
  let root := leafIfUnder h leaf bits
  checkSubtree anchor root
  if addrHasBitPrefix leaf.keyHash bits = true ∧ sameLeaf (t.map Prod.snd) leaf = false then do
    let e ← authenticatedValue h source sKey.version leaf
    return ([e], root)
  else return ([], root)

def diffLeavesUnderPrefix (vT : Nat) : Except String (List Entry × δ) := do
  ensure (bits.length ≤ 256) "subtree sync: prefix exceeds key width"
  match (← descendNibbles h source.toTreeReader vS bits (pinnedAppRoot anchor)) with
  | none => do
    checkSubtree anchor h.zero
    return ([], h.zero)
  | some (sKey, sNode) => do
    let t ← descendNibbles h target.toTreeReader vT bits none
    match sNode with
    | .leaf leaf => diffLeaf h source bits anchor sKey leaf t
    | .null =>
      if bits = [] then diffAligned h source target vS bits anchor sKey .null t false
      else do
        checkSubtree anchor h.zero
        return ([], h.zero)
    | .internal int =>
      if bits.length % 4 = 0 then
        diffAligned h source target vS bits anchor sKey (.internal int) t (targetEmpty bits t)
      else diffOpen h source target vS bits anchor sKey int t (targetEmpty bits t)

end Walk

section ListedSpec

variable {h : Hashes δ} {depth : Nat} {leaves : List Entry} {bits done : List Bool}

/-- The leaves of a list. -/
def listed (leaves : List Entry) : Set Entry := {e | e ∈ leaves}

theorem nibblePart_listed (n : Fin 16) : nibblePart (listed leaves) depth n =
    listed (leaves.filter fun e => nibbleAt e.1 depth = n) := by
  ext e
  simp [nibblePart, listed]

/-- Two listed leaves have different keys. -/
theorem two_keys (hsorted : leaves.Pairwise fun a b => a.1 < b.1) (hmany : 2 ≤ leaves.length) :
    ∃ a ∈ leaves, ∃ b ∈ leaves, a.1 ≠ b.1 := by
  match leaves with
  | [] | [_] => simp at hmany
  | a :: b :: rest =>
    refine ⟨a, mem_cons_self, b, mem_cons_of_mem a mem_cons_self, fun hsame => ?_⟩
    have hlt := rel_of_pairwise_cons hsorted (mem_cons_self (a := b) (l := rest))
    exact BitVec.lt_irrefl _ (hsame ▸ hlt)

/-- The runs of a sorted list are its leaves by nibble. -/
theorem rebuiltChildren_spec {child : List Entry → Except String (Child δ)} {fuel : Nat}
    {children children' : Fin 16 → Option (Child δ)}
    (hsorted : leaves.Pairwise fun a b => (nibbleAt a.1 depth).val ≤ (nibbleAt b.1 depth).val)
    (hfuel : leaves.length ≤ fuel)
    (habsent : ∀ n, (leaves.filter fun e => nibbleAt e.1 depth = n) = [] → children' n = children n)
    (hchild : ∀ n, (leaves.filter fun e => nibbleAt e.1 depth = n) ≠ [] →
      ∃ c, child (leaves.filter fun e => nibbleAt e.1 depth = n) = .ok c ∧ children' n = some c) :
    rebuiltChildren child depth fuel leaves children = .ok children' := by
  induction fuel generalizing leaves children with
  | zero =>
    obtain rfl : leaves = [] := eq_nil_of_length_eq_zero (by omega)
    exact congrArg _ (funext fun n => (habsent n rfl).symm)
  | succ fuel ih =>
    cases leaves with
    | nil => exact congrArg _ (funext fun n => (habsent n rfl).symm)
    | cons e rest =>
      have hge : ∀ x ∈ e :: rest, nibbleAt e.1 depth ≤ nibbleAt x.1 depth :=
        forall_mem_cons.mpr ⟨le_rfl, fun x hx => rel_of_pairwise_cons hsorted hx⟩
      obtain ⟨hrun, hleft⟩ := takeWhile_dropWhile_eq_filter hsorted hge
      obtain ⟨_, hc, hslot⟩ := hchild (nibbleAt e.1 depth) (by simp)
      rw [← hrun] at hc
      rw [rebuiltChildren, hc]
      have hshort := (dropWhile_sublist (l := rest)
        fun x => decide (nibbleAt x.1 depth = nibbleAt e.1 depth)).length_le
      -- the leaves of the other nibbles are left
      have hother : ∀ n, n ≠ nibbleAt e.1 depth →
          (((e :: rest).dropWhile fun x => nibbleAt x.1 depth = nibbleAt e.1 depth).filter
            fun x => nibbleAt x.1 depth = n) = (e :: rest).filter fun x => nibbleAt x.1 depth = n := by
        intro n hn
        rw [hleft, filter_filter]
        refine filter_congr fun x hx => ?_
        have hxe := hge x hx
        by_cases hxn : nibbleAt x.1 depth = n
        · have hlt : nibbleAt e.1 depth < n := (hxn ▸ hxe).lt_of_ne hn.symm
          simpa [hxn] using Nat.succ_le_of_lt hlt
        · simp [hxn]
      refine ih
        (hsorted.sublist (dropWhile_sublist _)) (by simp at hfuel ⊢; omega) (fun n hn => ?_) fun n hn => ?_
      · by_cases hne : n = nibbleAt e.1 depth
        · rw [hne, hslot, Function.update_self]
        · rw [Function.update_of_ne hne]
          exact habsent n (hother n hne ▸ hn)
      · have hne : n ≠ nibbleAt e.1 depth := by
          rintro rfl
          rw [hleft, filter_filter, ne_eq, filter_eq_nil_iff] at hn
          exact hn fun x _ => by simp +contextual
        rw [hother n hne] at hn ⊢
        exact hchild n hn

/-- The child over a run holds its leaves. -/
theorem rebuiltChild_spec {internal : List Entry → Except String (InternalNode δ)} {run : List Entry}
    (hrun : run ≠ []) (hinternal : 2 ≤ run.length → ∃ node, internal run = .ok node ∧
      NodeHolds h (depth + 1) (listed run) (.internal node)) :
    ∃ c, rebuiltChild h internal run = .ok c ∧ SlotHolds h (4 * (depth + 1)) (listed run) (some c) := by
  match run with
  | [] => exact absurd rfl hrun
  | [(key, value)] =>
    have hleaf : NodeHolds h (depth + 1) (listed [(key, value)]) (.leaf ⟨key, h.value value⟩) := by
      refine ⟨value, rfl, ?_⟩
      ext e
      simp [listed]
    exact ⟨_, rfl, slotHolds_of_node hleaf (by simp) rfl⟩
  | e :: e' :: rest =>
    obtain ⟨node, hnode, hholds⟩ := hinternal (by simp)
    refine ⟨⟨node.hash h, 0, node.nodeType⟩, ?_, slotHolds_of_node hholds (by simp) rfl⟩
    simp only [rebuiltChild, hnode, bind]
    rfl

/-- **A rebuilt node holds the listed leaves.** -/
theorem rebuiltInternal_spec {fuel : Nat} (hfuel : 65 ≤ depth + fuel) (hdepth : depth ≤ 64)
    (hdone : done.length = 4 * depth) (hsorted : leaves.Pairwise fun a b => a.1 < b.1)
    (hkeys : ∀ e ∈ leaves, Begins e.1.getMsbD done) (hmany : 2 ≤ leaves.length) :
    ∃ node, rebuiltInternal h fuel leaves depth = .ok node ∧
      NodeHolds h depth (listed leaves) (.internal node) := by
  induction fuel generalizing depth done leaves with
  | zero => omega
  | succ fuel ih =>
    obtain ⟨a, ha, b, hb, hdiff⟩ := two_keys hsorted hmany
    have hlt : depth < 64 := by
      by_contra hnot
      exact hdiff (eq_of_begins (show 256 ≤ done.length by omega) (hkeys a ha) (hkeys b hb))
    have hnibbles : leaves.Pairwise fun a b => (nibbleAt a.1 depth).val ≤ (nibbleAt b.1 depth).val :=
      hsorted.imp_of_mem fun ha hb hab => nibbleAt_mono hlt hdone (hkeys _ ha) (hkeys _ hb) hab
    -- every run builds its child, by the hypothesis where it is not one leaf
    have hslots : ∀ n, ∃ slot, SlotHolds h (4 * (depth + 1)) (nibblePart (listed leaves) depth n) slot ∧
        ((leaves.filter fun e => nibbleAt e.1 depth = n) = [] → slot = none) ∧
        ((leaves.filter fun e => nibbleAt e.1 depth = n) ≠ [] →
          ∃ c, rebuiltChild h (fun run => rebuiltInternal h fuel run (depth + 1))
            (leaves.filter fun e => nibbleAt e.1 depth = n) = .ok c ∧ slot = some c) := by
      intro n
      rw [nibblePart_listed]
      by_cases hrun : (leaves.filter fun e => nibbleAt e.1 depth = n) = []
      · refine ⟨none, ?_, fun _ => rfl, fun hne => absurd hrun hne⟩
        rw [hrun]
        exact Set.eq_empty_iff_forall_notMem.mpr fun e he => not_mem_nil he
      · obtain ⟨c, hc, hslot⟩ := @rebuiltChild_spec _ h depth
          (fun run => rebuiltInternal h fuel run (depth + 1)) _ hrun fun hmanyRun => by
          obtain ⟨b0, b1, b2, b3, rfl⟩ := exists_nibble4 n
          refine @ih (depth + 1) _ (done ++ [b0, b1, b2, b3]) (by omega) hlt
            (by rw [length_append, hdone]; rfl) (hsorted.filter _) (fun e he => ?_) hmanyRun
          obtain ⟨hmem, hnibble⟩ := mem_filter.mp he
          exact (begins_nibble hdone (hkeys e hmem)).mpr (of_decide_eq_true hnibble)
        exact ⟨some c, hslot, fun hnil => absurd hnil hrun, fun _ => ⟨c, hc, rfl⟩⟩
    choose children hholds habsent hchild using hslots
    refine ⟨.new children, ?_, ⟨a, ha, b, hb, fun hsame => hdiff (congrArg Prod.fst hsame)⟩, hholds⟩
    simp only [rebuiltInternal, ensure_of (And.intro hlt hmany), bind,
      rebuiltChildren_spec hnibbles le_rfl habsent hchild]
    rfl

/-- **What a listing hashes to**: the tree of its leaves, or one of the constants for none. -/
theorem listedSubtreeRoot_spec (hwidth : bits.length ≤ 256)
    (hsorted : leaves.Pairwise fun a b => a.1 < b.1)
    (hkeys : ∀ e ∈ leaves, Begins e.1.getMsbD bits) :
    ∃ c, listedSubtreeRoot h leaves bits = .ok c ∧
      (leaves = [] → c = if bits.length % 4 = 0 then h.zero else h.placeholder) ∧
      (leaves ≠ [] → ∃ t, MerkleTree.Builds BitVec.getMsbD bits.length (listed leaves) t ∧
        c = t.hash h.merkle) := by
  have hbits : ∀ e ∈ leaves, addrHasBitPrefix e.1 bits = true :=
    fun e he => addrHasBitPrefix_iff.mpr (hkeys e he)
  simp only [listedSubtreeRoot, ensure_of hsorted, ensure_of hbits, bind, bind]
  rcases leaves with _ | ⟨e, _ | ⟨e', rest⟩⟩
  · exact ⟨_, rfl, fun _ => rfl, fun hne => absurd rfl hne⟩
  · obtain ⟨key, value⟩ := e
    have hone : listed [(key, value)] = {(key, value)} := by
      ext e
      simp [listed]
    refine ⟨_, rfl, (fun hnil => by cases hnil), fun _ => ⟨.leaf key value, ?_, rfl⟩⟩
    rw [hone]
    exact .leaf _ (key, value)
  · have hwhole : ∀ x ∈ e :: e' :: rest, Begins x.1.getMsbD (wholeBits bits) :=
      fun x hx => (hkeys x hx).of_isPrefix (List.take_prefix _ _)
    obtain ⟨node, hnode, hholds⟩ := @rebuiltInternal_spec _ h (bits.length / 4) (e :: e' :: rest)
      (wholeBits bits) 65 (by omega) (by omega) (length_wholeBits bits) hsorted hwhole (by simp)
    have hcommit := isCommitment_rangeRoot hholds (length_wholeBits bits) hwhole
    have hset : under (listed (e :: e' :: rest)) bits = listed (e :: e' :: rest) :=
      Set.Subset.antisymm (fun x hx => hx.1) fun x hx => ⟨hx, hkeys x hx⟩
    refine ⟨rangeRoot h bits node, ?_, (fun hnil => by cases hnil), fun _ => ?_⟩
    · simp only [hnode]
      rfl
    · have hleaves := hcommit.leaves
      rw [hset] at hleaves
      exact hleaves ⟨e, mem_cons_self⟩

end ListedSpec

section Ends

variable {h : Hashes δ} [DecidableEq δ] {source target : BatchTreeReader δ} {vS : Nat}
  {pair : WalkPair δ} {st st' : RoundState δ} {stack stack' : List (WalkPair δ)} {out out' : List Entry}

def readWeight (children : List (ChildRead δ)) : Nat := (children.map fun c => keyWeight c.sKey).sum

/-- What a child adds: nothing, listed leaves, or a read one nibble down. -/
theorem expandChild_cases {c : Fin 16 × Child δ}
    (hstep : expandChild h source vS pair st c = .ok st') :
    ((targetChild pair.tNode c.1).any fun t => t.hash = c.2.hash) = true ∧ st' = st ∨
    pair.sKey.nibblePath.length < 64 ∧
      ((∃ leaves, listedSubtree h source vS (pair.sKey.genChildNodeKey c.2.version c.1).bits c.2.hash =
          .ok (some leaves) ∧ st' = { st with out := st.out ++ leaves }) ∨
        ∃ tKey tPresent, st' = { st with children := st.children ++
          [⟨pair.sKey.genChildNodeKey c.2.version c.1, c.2.hash, tKey, tPresent⟩] }) := by
  unfold expandChild at hstep
  dsimp only at hstep
  split at hstep
  · rename_i hskip
    exact .inl ⟨hskip, (ok.inj hstep).symm⟩
  rw [bind_ok] at hstep
  obtain ⟨_, hlt, hstep⟩ := hstep
  rw [bind_ok] at hstep
  obtain ⟨found, hlisted, hstep⟩ := hstep
  refine .inr ⟨ensure_ok.mp hlt, ?_⟩
  cases found with
  | none => exact .inr ⟨_, _, (ok.inj hstep).symm⟩
  | some leaves =>
    refine .inl ⟨leaves, ?_, (ok.inj hstep).symm⟩
    split at hlisted
    · exact hlisted
    · cases hlisted

theorem keyWeight_pos (key : NodeKey) : 0 < keyWeight key := Nat.pow_pos (by decide)

/-- A child is lighter by a factor of seventeen. -/
theorem expandChild_weight {c : Fin 16 × Child δ}
    (hstep : expandChild h source vS pair st c = .ok st') :
    17 * readWeight st'.children ≤ 17 * readWeight st.children + keyWeight pair.sKey := by
  rcases expandChild_cases hstep with ⟨-, rfl⟩ | ⟨hlt, ⟨leaves, -, rfl⟩ | ⟨tKey, tPresent, rfl⟩⟩
  · exact Nat.le_add_right _ _
  · exact Nat.le_add_right _ _
  · have hchild : 17 * keyWeight (pair.sKey.genChildNodeKey c.2.version c.1) = keyWeight pair.sKey := by
      rw [keyWeight, keyWeight, ← Nat.pow_succ', NodeKey.genChildNodeKey, length_append]
      congr 1
      simp only [length_cons, length_nil]
      omega
    simp only [readWeight, map_append, sum_append, map_cons, map_nil, sum_cons, sum_nil]
    omega

/-- A pair weighs more than the children it puts up. -/
theorem expandPair_weight (hstep : expandPair h source vS st pair = .ok st') :
    readWeight st'.children < readWeight st.children + keyWeight pair.sKey := by
  have hpos := keyWeight_pos pair.sKey
  unfold expandPair at hstep
  split at hstep
  · obtain rfl := ok.inj hstep
    omega
  · split at hstep
    · obtain rfl := ok.inj hstep
      omega
    · obtain rfl := ok.inj hstep
      exact Nat.lt_add_of_pos_right hpos
  · rename_i int _
    have hloop := @foldlM_invariant _ _ _ (expandChild h source vS pair)
      (fun rest st' => 17 * readWeight st'.children + rest.length * keyWeight pair.sKey ≤
        17 * readWeight st.children + int.childrenSorted.length * keyWeight pair.sKey)
      (fun c rest a a' hc hle => by
        have hchild := expandChild_weight hc
        rw [length_cons, Nat.add_mul, Nat.one_mul] at hle
        omega) _ _ _ hstep le_rfl
    have hcount := Nat.mul_le_mul_right (keyWeight pair.sKey) (length_childrenSorted_le int)
    rw [length_nil, Nat.zero_mul] at hloop
    omega

theorem pairUp_keys {reads : List (ChildRead δ × Option (Node δ))} {tNodes : List (Option (Node δ))}
    {pairs : List (WalkPair δ)} (hpairs : pairUp h reads tNodes = .ok pairs) :
    pairs.map WalkPair.sKey = reads.map fun r => r.1.sKey := by
  induction reads generalizing tNodes pairs with
  | nil =>
    obtain rfl := ok.inj hpairs
    rfl
  | cons read reads ih =>
    obtain ⟨_, _⟩ := read
    simp only [pairUp, bind_ok] at hpairs
    obtain ⟨_, -, _, -, _, hrest, hpairs⟩ := hpairs
    obtain rfl := pure_ok.mp hpairs
    rw [map_cons, map_cons, ih hrest]

theorem fetchChildren_keys {children : List (ChildRead δ)} {pairs : List (WalkPair δ)}
    (hpairs : fetchChildren h source target children = .ok pairs) :
    pairs.map WalkPair.sKey = children.map ChildRead.sKey := by
  simp only [fetchChildren, bind_ok] at hpairs
  obtain ⟨sNodes, -, _, hlength, _, -, _, -, hpairs⟩ := hpairs
  rw [pairUp_keys hpairs]
  have hfst : (children.zip sNodes).map Prod.fst = children := map_fst_zip (ensure_ok.mp hlength).ge
  calc (children.zip sNodes).map (fun r => r.1.sKey)
      = ((children.zip sNodes).map Prod.fst).map ChildRead.sKey := by rw [map_map]; rfl
    _ = children.map ChildRead.sKey := by rw [hfst]

/-- **Every round lightens the stack**, whatever the source answers. -/
theorem walkRound_weight (hround : walkRound h source target vS stack out = .ok (stack', out'))
    (hne : stack ≠ []) : walkFuel stack' < walkFuel stack := by
  simp only [walkRound, bind_ok] at hround
  obtain ⟨st, hexpand, pairs, hpairs, _, -, hround⟩ := hround
  obtain ⟨rfl, -⟩ := Prod.mk.inj (pure_ok.mp hround)
  have hsplit : walkFuel stack = walkFuel (stack.take (stack.length - walkChunk)) +
      walkFuel (stack.drop (stack.length - walkChunk)) := by
    rw [walkFuel, walkFuel, walkFuel, ← sum_append, ← map_append, take_append_drop]
  have hfetched : walkFuel pairs = readWeight st.children := by
    have hkeys := congrArg (map keyWeight) (fetchChildren_keys hpairs)
    rw [map_map, map_map] at hkeys
    exact congrArg sum hkeys
  have hchunk : stack.drop (stack.length - walkChunk) ≠ [] := by
    have hpos := length_pos_iff.mpr hne
    rw [← length_pos_iff, length_drop, walkChunk]
    omega
  have hloop := @foldlM_invariant _ _ _ (expandPair h source vS)
    (fun rest st => readWeight st.children + walkFuel rest + (stack.drop (stack.length - walkChunk)).length ≤
      walkFuel (stack.drop (stack.length - walkChunk)) + rest.length)
    (fun pair rest a a' hstep hle => by
      have hlt := expandPair_weight hstep
      simp only [walkFuel, map_cons, sum_cons, length_cons] at hle ⊢
      omega) _ _ _ hexpand (by simp [readWeight])
  have hpos := length_pos_iff.mpr hchunk
  have happend : walkFuel (stack.take (stack.length - walkChunk) ++ pairs) =
      walkFuel (stack.take (stack.length - walkChunk)) + walkFuel pairs := by
    rw [walkFuel, map_append, sum_append]
    rfl
  simp only [walkFuel, map_nil, sum_nil, length_nil] at hloop
  rw [happend, hfetched, hsplit]
  simp only [walkFuel]
  omega

end Ends

end Jmt

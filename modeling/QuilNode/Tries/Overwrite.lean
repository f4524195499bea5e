import QuilNode.Tries.StoredVertex

/-!
# Replacing a field of a stored vertex

A node that was read can be written and read again; the counts of a branch may wrap, the tree
below them stays.  So a field put over one that a decoded vertex has is read back with the other
fields as they were (`fieldOf_overwrite`).
-/

namespace Tries

open Results List

variable {α : Type} {read : Read α} {data after : Bytes} {c c' : GoCursor} {levels depth : Nat}

/-- What a cursor has still to read. -/
def GoCursor.At (c : GoCursor) (rest : Bytes) : Prop := c.pos ≤ c.buf.length ∧ c.buf.drop c.pos = rest

/-- Where `bytes` come next, `read` takes them for `value`. -/
def Reads (read : Read α) (bytes : Bytes) (value : α) : Prop :=
  ∀ c after, c.At (bytes ++ after) → ∃ c', read c = .ok (value, c') ∧ c'.At after

/-- Values read in turn. -/
theorem readMany_reads {written : List (Bytes × α)} (h : ∀ w ∈ written, Reads read w.1 w.2) :
    Reads (readMany read written.length) (written.map Prod.fst).flatten (written.map Prod.snd) := by
  induction written with
  | nil => exact fun c _ hc => ⟨c, rfl, hc⟩
  | cons w written ih =>
    intro c after hc
    rw [map_cons, flatten_cons, append_assoc] at hc
    obtain ⟨_, hfirst, hc⟩ := h w mem_cons_self c _ hc
    obtain ⟨_, hrest, hc⟩ := ih (fun v hv => h v (mem_cons_of_mem w hv)) _ _ hc
    exact ⟨_, bind_ok.mpr ⟨_, hfirst, bind_ok.mpr ⟨_, hrest, rfl⟩⟩, hc⟩

theorem take_reads (data : Bytes) : Reads (take data.length) data data := by
  rintro c after ⟨hpos, hrest⟩
  have hlength := congrArg length hrest
  rw [length_drop, length_append] at hlength
  refine ⟨{ c with pos := c.pos + data.length }, ?_, ?_, ?_⟩
  · rw [take, if_neg (by omega), hrest, take_left]
  · dsimp only
    omega
  · rw [← drop_drop, hrest, drop_left]

theorem readTag {tag : UInt8} (hc : c.At (tag :: after)) :
    ∃ c', readNat 1 c = .ok (natOfBytes [tag], c') ∧ c'.At after := by
  obtain ⟨_, htake, hc⟩ := take_reads [tag] c after hc
  exact ⟨_, bind_ok.mpr ⟨_, htake, rfl⟩, hc⟩

/-- A number is read as far as its bytes hold it. -/
theorem readNat_reads_mod (width n : Nat) :
    Reads (readNat width) (beBytes width n) (n % 256 ^ width) := by
  intro c after hc
  obtain ⟨_, htake, hc⟩ := take_reads _ c after hc
  rw [beBytes_length] at htake
  rw [← natOfBytes_beBytes]
  exact ⟨_, bind_ok.mpr ⟨_, htake, rfl⟩, hc⟩

theorem readNat_reads {width n : Nat} (h : n < 256 ^ width) :
    Reads (readNat width) (beBytes width n) n := by
  simpa only [Nat.mod_eq_of_lt h] using readNat_reads_mod width n

theorem readField_reads (h : data.length ≤ maxFieldBytes) :
    Reads readField (lenPrefixed data) data := by
  intro c after hc
  rw [lenPrefixed, append_assoc] at hc
  obtain ⟨_, hlength, hc⟩ := readNat_reads (h.trans_lt (by decide)) c _ hc
  obtain ⟨_, htake, hc⟩ := take_reads data _ _ hc
  exact ⟨_, bind_ok.mpr ⟨_, hlength, (if_neg (not_lt.mpr h)).trans htake⟩, hc⟩

theorem readInt32_reads (p : Int32) : Reads readInt32 (beBytes 4 p.toUInt32.toNat) p := by
  intro c after hc
  obtain ⟨_, hread, hc⟩ := readNat_reads p.toUInt32.toNat_lt c after hc
  refine ⟨_, bind_ok.mpr ⟨_, hread, ?_⟩, hc⟩
  dsimp only
  rw [UInt32.ofNat_toNat, Int32.toInt32_toUInt32]
  rfl

theorem readNibbles_reads {nibbles : List Int32} (h : nibbles.length ≤ maxGoNibbles) :
    Reads readNibbles (beBytes 4 nibbles.length ++ nibbleBytes nibbles) nibbles := by
  intro c after hc
  rw [append_assoc] at hc
  obtain ⟨_, hlength, hc⟩ := readNat_reads (h.trans_lt (by decide)) c _ hc
  have hmany := @readMany_reads _ readInt32
    (nibbles.map fun p => (beBytes 4 p.toUInt32.toNat, p)) (by
      intro w hw
      obtain ⟨p, -, rfl⟩ := mem_map.mp hw
      exact readInt32_reads p)
  rw [length_map, map_map, map_map, Function.comp_def, Function.comp_def, map_id'] at hmany
  obtain ⟨_, hmany, hc⟩ := hmany _ _ hc
  exact ⟨_, bind_ok.mpr ⟨_, hlength, (if_neg (not_lt.mpr h)).trans hmany⟩, hc⟩

/-- The bytes of a size are read as the size. -/
theorem natOfBytes_sizeBytes (n : Nat) : natOfBytes (sizeBytes n) = n := by
  unfold sizeBytes
  split
  · rename_i h
    exact h.symm
  · rename_i h
    rw [natOfBytes_beBytes]
    refine Nat.mod_eq_of_lt ?_
    calc n < 2 ^ (n.log2 + 1) := Nat.lt_log2_self
      _ ≤ 2 ^ (8 * (n.log2 / 8 + 1)) := Nat.pow_le_pow_right (by decide) (by omega)
      _ = 256 ^ (n.log2 / 8 + 1) := pow_mul 2 8 _

/-- No bytes of a number are fewer than those of its size. -/
theorem sizeBytes_length_le (bytes : Bytes) :
    (sizeBytes (natOfBytes bytes)).length ≤ bytes.length := by
  unfold sizeBytes
  split
  · exact Nat.zero_le _
  · rename_i h
    have hlt : natOfBytes bytes < 2 ^ (8 * bytes.length) :=
      (natOfBytes_lt bytes).trans_eq (pow_mul 2 8 _).symm
    rw [← Nat.log2_lt h] at hlt
    rw [beBytes_length]
    omega

/-- A node within the limits of the reader, `levels` branches deep. -/
def StoredNode.Fits : Nat → StoredNode → Prop
  | 0, _ => False
  | _ + 1, .nil => True
  | _ + 1, .leaf node commitment size =>
    ∀ data ∈ [node.key, node.value, node.hashTarget, commitment, sizeBytes size],
      data.length ≤ maxFieldBytes
  | levels + 1, .branch nibbles children data => nibbles.length ≤ maxGoNibbles ∧
    (∀ i, (children i).Fits levels) ∧
      ∀ field ∈ [data.commitment, sizeBytes data.size], field.length ≤ maxFieldBytes

theorem readLeaf_reads {node : LeafNode} {commitment : Bytes} {size : Nat}
    (h : (StoredNode.leaf node commitment size).Fits (levels + 1)) :
    Reads (readNode (levels + 1)) (StoredNode.leaf node commitment size).serialize
      (.leaf node commitment size) := by
  intro c after hc
  simp only [StoredNode.Fits, forall_mem_cons] at h
  obtain ⟨hkey, hvalue, htarget, hcommitment, hsize, -⟩ := h
  simp only [StoredNode.serialize, cons_append, append_assoc] at hc
  obtain ⟨_, htag, hc⟩ := readTag hc
  obtain ⟨_, hkey, hc⟩ := readField_reads hkey _ _ hc
  obtain ⟨_, hvalue, hc⟩ := readField_reads hvalue _ _ hc
  obtain ⟨_, htarget, hc⟩ := readField_reads htarget _ _ hc
  obtain ⟨_, hcommitment, hc⟩ := readField_reads hcommitment _ _ hc
  obtain ⟨_, hsize, hc⟩ := readField_reads hsize _ _ hc
  refine ⟨_, bind_ok.mpr ⟨_, htag, bind_ok.mpr ⟨_, hkey, bind_ok.mpr ⟨_, hvalue, bind_ok.mpr
    ⟨_, htarget, bind_ok.mpr ⟨_, hcommitment, bind_ok.mpr ⟨_, hsize, ?_⟩⟩⟩⟩⟩⟩, hc⟩
  dsimp only
  rw [natOfBytes_sizeBytes]
  rfl

/-- **A node that fits is read back**, but for the counts of its branches. -/
theorem readNode_reads {node : StoredNode} (h : node.Fits levels) :
    ∃ decoded, Reads (readNode levels) node.serialize decoded ∧ decoded.tree = node.tree := by
  induction levels generalizing node with
  | zero => exact h.elim
  | succ levels ih =>
    cases node with
    | nil =>
      refine ⟨.nil, fun c after hc => ?_, rfl⟩
      obtain ⟨_, htag, hc⟩ := readTag hc
      exact ⟨_, bind_ok.mpr ⟨_, htag, rfl⟩, hc⟩
    | leaf => exact ⟨_, readLeaf_reads h, rfl⟩
    | branch nibbles children data =>
      obtain ⟨hnibbles, hchildren, hdata⟩ := h
      simp only [forall_mem_cons] at hdata
      obtain ⟨hcommitment, hsize, -⟩ := hdata
      choose decoded hreads htree using fun i => ih (hchildren i)
      have hmany := @readMany_reads _ (readNode levels)
        (ofFn fun i => ((children i).serialize, decoded i)) (forall_mem_ofFn_iff.mpr hreads)
      rw [length_ofFn, map_ofFn, map_ofFn] at hmany
      refine ⟨.branch nibbles (fun i => (ofFn decoded).getD i .nil) ⟨data.commitment,
        natOfBytes (sizeBytes data.size), data.leafCount % 256 ^ 8,
        (UInt32.ofNat (data.longestBranch % 256 ^ 4)).toInt32.toInt64.toUInt64.toNat⟩,
        fun c after hc => ?_, ?_⟩
      · simp only [StoredNode.serialize, cons_append, append_assoc] at hc
        obtain ⟨_, htag, hc⟩ := readTag hc
        rw [← append_assoc] at hc
        obtain ⟨_, hnibbles, hc⟩ := readNibbles_reads hnibbles _ _ hc
        obtain ⟨_, hmany, hc⟩ := hmany _ _ hc
        obtain ⟨_, hcommitment, hc⟩ := readField_reads hcommitment _ _ hc
        obtain ⟨_, hsize, hc⟩ := readField_reads hsize _ _ hc
        obtain ⟨_, hcount, hc⟩ := readNat_reads_mod 8 _ _ _ hc
        obtain ⟨_, hlongest, hc⟩ := readNat_reads_mod 4 _ _ _ hc
        exact ⟨_, bind_ok.mpr ⟨_, htag, bind_ok.mpr ⟨_, hnibbles, bind_ok.mpr ⟨_, hmany,
          bind_ok.mpr ⟨_, hcommitment, bind_ok.mpr ⟨_, hsize, bind_ok.mpr ⟨_, hcount,
            bind_ok.mpr ⟨_, bind_ok.mpr ⟨_, hlongest, rfl⟩, rfl⟩⟩⟩⟩⟩⟩⟩, hc⟩
      · simp only [StoredNode.tree]
        congr 1
        funext i
        rw [getD_eq_getElem _ _ (by simp), List.getElem_ofFn, htree]

theorem take_length {n : Nat} (h : take n c = .ok (data, c')) : data.length ≤ n := by
  unfold take at h
  split at h
  · cases h
  · cases h
    exact length_take_le _ _

theorem readField_length (h : readField c = .ok (data, c')) : data.length ≤ maxFieldBytes := by
  obtain ⟨_, -, h⟩ := bind_ok.mp h
  dsimp only at h
  split at h
  · cases h
  · exact (take_length h).trans (not_lt.mp ‹_›)

theorem readMany_ok {P : α → Prop} (hread : ∀ {c v c'}, read c = .ok (v, c') → P v) {n : Nat}
    {values : List α} (h : readMany read n c = .ok (values, c')) :
    values.length = n ∧ ∀ v ∈ values, P v := by
  induction n generalizing c values with
  | zero =>
    cases h
    simp
  | succ n ih =>
    obtain ⟨_, hfirst, h⟩ := bind_ok.mp h
    obtain ⟨_, hrest, h⟩ := bind_ok.mp h
    cases h
    obtain ⟨hlength, hall⟩ := ih hrest
    exact ⟨congrArg (· + 1) hlength, forall_mem_cons.mpr ⟨hread hfirst, hall⟩⟩

theorem readNibbles_length {nibbles : List Int32}
    (h : readNibbles c = .ok (nibbles, c')) : nibbles.length ≤ maxGoNibbles := by
  obtain ⟨_, -, h⟩ := bind_ok.mp h
  dsimp only at h
  split at h
  · cases h
  · rw [(readMany_ok (fun _ => trivial) h).1]
    exact not_lt.mp ‹_›

/-- A node that was read fits. -/
theorem readNode_fits {node : StoredNode} (h : readNode levels c = .ok (node, c')) :
    node.Fits levels := by
  induction levels generalizing c c' node with
  | zero => cases h
  | succ levels ih =>
    obtain ⟨⟨tag, _⟩, -, h⟩ := bind_ok.mp h
    dsimp only at h
    split at h
    · cases h
      exact trivial
    split at h
    · obtain ⟨_, hkey, h⟩ := bind_ok.mp h
      obtain ⟨_, hvalue, h⟩ := bind_ok.mp h
      obtain ⟨_, htarget, h⟩ := bind_ok.mp h
      obtain ⟨_, hcommitment, h⟩ := bind_ok.mp h
      obtain ⟨_, hsize, h⟩ := bind_ok.mp h
      cases h
      simpa [StoredNode.Fits] using ⟨readField_length hkey, readField_length hvalue,
        readField_length htarget, readField_length hcommitment,
        (sizeBytes_length_le _).trans (readField_length hsize)⟩
    split at h
    · obtain ⟨_, hnibbles, h⟩ := bind_ok.mp h
      obtain ⟨⟨children, _⟩, hchildren, h⟩ := bind_ok.mp h
      obtain ⟨_, hcommitment, h⟩ := bind_ok.mp h
      obtain ⟨_, hsize, h⟩ := bind_ok.mp h
      obtain ⟨_, -, h⟩ := bind_ok.mp h
      obtain ⟨_, -, h⟩ := bind_ok.mp h
      cases h
      obtain ⟨hlength, hall⟩ := readMany_ok ih hchildren
      refine ⟨readNibbles_length hnibbles, fun i => hall _ ?_, ?_⟩
      · dsimp only
        rw [getD_eq_getElem _ _ (by omega)]
        exact getElem_mem _
      · simpa using ⟨readField_length hcommitment,
          (sizeBytes_length_le _).trans (readField_length hsize)⟩
    · cases h

/-- The fields of a vertex are those of its tree. -/
theorem fieldOf_tree {blob : Bytes} {stored : StoredNode}
    (h : deserializeStored blob = .ok stored) : fieldOf blob = stored.tree.get := by
  funext key
  rw [fieldOf, deserializeGoTree, h]
  rfl

theorem skipNibbles_depth {key : Bytes} {nibbles : List Int32} {below : Nat}
    (h : skipNibbles key nibbles depth = some below) :
    below = depth + branchBits * nibbles.length := by
  induction nibbles generalizing depth with
  | nil => exact (Option.some.inj h).symm
  | cons p nibbles ih =>
    unfold skipNibbles at h
    split at h
    · cases h
    · rw [ih h, length_cons]
      ring

/-- An insert over a key the tree has replaces the value of that key alone. -/
theorem getRecursive_overwrite {node : LeafNode} {tree tree' : VectorTree} {old : Bytes}
    (hget : getRecursive node.key tree depth = some old)
    (hinsert : insertRecursive node tree depth = .ok tree') (field : Bytes) :
    getRecursive field tree' depth =
      if field = node.key then some node.value else getRecursive field tree depth := by
  induction tree generalizing tree' depth with
  | nil => cases hget
  | leaf existing =>
    obtain ⟨hkey, -⟩ := Option.ite_none_right_eq_some.mp hget
    rw [insertRecursive, if_pos hkey] at hinsert
    cases hinsert
    simp only [getRecursive, hkey, @eq_comm _ _ field]
    split <;> rfl
  | branch nibbles children ih =>
    unfold getRecursive at hget
    unfold insertRecursive at hinsert
    cases hskip : skipNibbles node.key nibbles depth with
    | none =>
      rw [hskip] at hget
      cases hget
    | some below =>
      simp only [hskip] at hget hinsert
      split at hget
      · cases hget
      rename_i hnibble
      rw [if_neg hnibble] at hinsert
      split at hinsert
      · cases hinsert
      rename_i child hchild
      cases hinsert
      have hfield := ih _ hget hchild
      by_cases heq : field = node.key
      · subst heq
        simp [getRecursive, hskip, hnibble, hfield]
      rw [if_neg heq]
      simp only [getRecursive]
      cases hother : skipNibbles field nibbles depth with
      | none => rfl
      | some =>
        obtain rfl := (skipNibbles_depth hskip).trans (skipNibbles_depth hother).symm
        dsimp only
        split
        · rfl
        · rw [Function.update_apply]
          split
          · rename_i hslot
            rw [hfield, if_neg heq, hslot]
          · rfl

/-- An insert over a key the tree has leaves a node that fits. -/
theorem insertStored_fits {h : Hashes} {node : LeafNode} {size : Nat} {stored stored' : StoredNode}
    {old : Bytes}
    (hnew : ∀ data ∈ [node.value, node.hashTarget, sizeBytes size], data.length ≤ maxFieldBytes)
    (hget : getRecursive node.key stored.tree depth = some old) (hfits : stored.Fits levels)
    (hinsert : insertStored h node size stored depth = .ok stored') : stored'.Fits levels := by
  induction stored generalizing stored' levels depth with
  | nil => cases hget
  | leaf existing =>
    obtain ⟨hkey, -⟩ := Option.ite_none_right_eq_some.mp hget
    rw [insertStored, if_pos hkey] at hinsert
    cases hinsert
    cases levels with
    | zero => exact hfits
    | succ =>
      simp only [StoredNode.Fits, storedLeaf, forall_mem_cons, digestBytes_length] at hfits hnew ⊢
      exact ⟨hkey ▸ hfits.1, hnew.1, hnew.2.1, by decide, hnew.2.2⟩
  | branch nibbles children data ih =>
    unfold StoredNode.tree getRecursive at hget
    unfold insertStored at hinsert
    split at hget
    · cases hget
    rename_i hskip
    simp only [hskip] at hinsert
    dsimp only at hget
    split at hget
    · cases hget
    rename_i hnibble
    rw [if_neg hnibble] at hinsert
    split at hinsert
    · cases hinsert
    rename_i hchild
    cases hinsert
    cases levels with
    | zero => exact hfits
    | succ =>
      obtain ⟨hnibbles, hchildren, hdata⟩ := hfits
      refine ⟨hnibbles, fun i => ?_, ?_⟩
      · rw [Function.update_apply]
        split
        · exact ih _ hget (hchildren _) hchild
        · exact hchildren i
      · simpa using hdata _ (mem_cons_of_mem _ mem_cons_self)

/-- **A field put over one the vertex has** is read back, with the other fields as they were. -/
theorem fieldOf_overwrite {h : Hashes} {wrap : QuilError → QuilError} {blob key old value : Bytes}
    {stored stored' : StoredNode} (hread : deserializeStored blob = .ok stored)
    (hget : stored.tree.get key = some old) (hvalue : value.length ≤ maxFieldBytes)
    (hinsert : insertField h wrap stored ⟨key, value, []⟩ value.length = .ok stored')
    (field : Bytes) :
    fieldOf stored'.serialize field = if field = key then some value else fieldOf blob field := by
  rw [insertField_ok] at hinsert
  obtain ⟨⟨root, _⟩, hnode, hroot⟩ := bind_ok.mp hread
  cases hroot
  have hsize := sizeBytes_length_le (beBytes 8 value.length)
  rw [natOfBytes_beBytes, Nat.mod_eq_of_lt (hvalue.trans_lt (by decide)), beBytes_length] at hsize
  have hfits := @insertStored_fits _ 0 h ⟨key, value, []⟩ _ _ _ old
    (by simpa using ⟨hvalue, hsize.trans (by decide)⟩) hget (readNode_fits hnode) hinsert
  obtain ⟨decoded, hreads, htree⟩ := readNode_reads hfits
  obtain ⟨_, hdecoded, -⟩ := hreads ⟨stored'.serialize, 0⟩ [] ⟨Nat.zero_le _, by simp⟩
  have hwritten : deserializeStored stored'.serialize = .ok decoded :=
    bind_ok.mpr ⟨_, hdecoded, rfl⟩
  rw [fieldOf_tree hwritten, fieldOf_tree hread, htree]
  refine @getRecursive_overwrite _ ⟨key, value, []⟩ _ _ _ hget ?_ field
  rw [← insertStored_tree, hinsert]
  rfl

end Tries

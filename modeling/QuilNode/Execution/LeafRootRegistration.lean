import QuilNode.Execution.RegistryRows
import QuilNode.Lib.Newest

/-!
# Leaf-root registrations

A member registers the root of a leaf for an epoch.  The vertex of a member and leaf has three
slots, filled from the top: "next", "current", "prev", and a single epoch is "current".  A
registration reads the slots back, replaces or adds its epoch, sorts, and drops all but three.

So a run of registrations keeps the three newest of everything registered
(`readSlots_writeSlots`).
-/

namespace Registry

open List OrdMap LeafRootField

open Global (VertexTree typeKey orderToKey)

/-- `read_field` of a leaf-root vertex. -/
def readLeafField (tree : VertexTree) (field : LeafRootField) : Option Bytes := tree field.key

/-- `read_u64_field`: the first eight bytes, none where there are fewer. -/
def readU64Field (tree : VertexTree) (field : LeafRootField) : Option UInt64 := do
  let bytes ← readLeafField tree field
  if bytes.length < 8 then none else some (UInt64.ofNat (natOfBytes (bytes.take 8)))

/-- `write_field` of a leaf-root vertex. -/
def writeLeafField (tree : VertexTree) (field : LeafRootField) (value : Bytes) : VertexTree :=
  tree.insert field.key value

/-- `pack_prefix`. -/
def packPrefix (path : List UInt32) : Bytes := path.flatMap fun p => beBytes 4 p.toNat

/-- No two fields share a key. -/
theorem LeafRootField.key_injective : Function.Injective key := by
  intro a b h
  have hlt : ∀ f : LeafRootField, f.order < 64 := by intro f; cases f <;> decide
  have horder := Global.orderToKey_injective (hlt a) (hlt b) h
  cases a <;> cases b <;> first | rfl | cases horder

@[simp] theorem readLeafField_write (tree : VertexTree) (field other : LeafRootField)
    (value : Bytes) : readLeafField (writeLeafField tree field value) other =
      if other = field then some value else readLeafField tree other := by
  unfold readLeafField writeLeafField
  split
  · rename_i h
    rw [h, VertexTree.insert_same]
  · rename_i h
    exact VertexTree.insert_other _ _ fun hkey => h (key_injective hkey)

@[simp] theorem readLeafField_new (field : LeafRootField) :
    readLeafField VertexTree.new field = none := rfl

@[simp] theorem writeLeafField_typeKey (tree : VertexTree) (field : LeafRootField)
    (value : Bytes) : writeLeafField tree field value typeKey = tree typeKey :=
  VertexTree.insert_other _ _ (Global.typeKey_ne_orderToKey _)

@[simp] theorem readLeafField_type (tree : VertexTree) (field : LeafRootField) (value : Bytes) :
    readLeafField (tree.insert typeKey value) field = readLeafField tree field :=
  VertexTree.insert_other _ _ (Global.typeKey_ne_orderToKey _).symm

@[simp] theorem readU64Field_write (tree : VertexTree) (field other : LeafRootField) (n : UInt64) :
    readU64Field (writeLeafField tree field (beBytes 8 n.toNat)) other =
      if other = field then some n else readU64Field tree other := by
  unfold readU64Field
  rw [readLeafField_write]
  split
  · have hlen : (beBytes 8 n.toNat).length = 8 := beBytes_length 8 _
    have hmod : n.toNat % 256 ^ 8 = n.toNat := Nat.mod_eq_of_lt n.toNat_lt
    simp only [Option.bind_eq_bind, Option.bind_some, hlen, lt_irrefl, if_false]
    rw [take_of_length_le hlen.le, natOfBytes_beBytes, hmod, UInt64.ofNat_toNat]
  · rfl

/-- What a slot holds: an epoch, its root and its block count. -/
abbrev LeafRootSlot := UInt64 × Bytes × UInt64

/-- The three slots of a vertex. -/
inductive SlotName where
  | prev
  | current
  | next
  deriving DecidableEq

/-- The epoch field of a slot. -/
def SlotName.epochField : SlotName → LeafRootField
  | .prev => .prevEpoch
  | .current => .epoch
  | .next => .nextEpoch

/-- The root field of a slot. -/
def SlotName.rootField : SlotName → LeafRootField
  | .prev => .prevLeafRoot
  | .current => .leafRoot
  | .next => .nextLeafRoot

/-- The block-count field of a slot. -/
def SlotName.blocksField : SlotName → LeafRootField
  | .prev => .prevNumBlocks
  | .current => .numBlocks
  | .next => .nextNumBlocks

/-- A slot as `upsert_leaf_root_registration` gathers it. -/
def readSlot (tree : VertexTree) (slot : SlotName) : Option LeafRootSlot :=
  (readU64Field tree slot.epochField).map fun epoch =>
    (epoch, (readLeafField tree slot.rootField).getD [],
      (readU64Field tree slot.blocksField).getD 0)

/-- The slots gathered, in the order they are pushed. -/
def readSlots (tree : VertexTree) : List LeafRootSlot :=
  [SlotName.prev, .current, .next].filterMap (readSlot tree)

/-- The three fields of a slot written. -/
def writeSlot (tree : VertexTree) (slot : SlotName) (value : LeafRootSlot) : VertexTree :=
  let tree := writeLeafField tree slot.epochField (beBytes 8 value.1.toNat)
  let tree := writeLeafField tree slot.rootField value.2.1
  writeLeafField tree slot.blocksField (beBytes 8 value.2.2.toNat)

/-- The slots assigned from the top. -/
def writeSlots (tree : VertexTree) (slots : List LeafRootSlot) : VertexTree :=
  let curIdx := slots.length - 2
  let tree := match slots[curIdx]? with
    | some slot => writeSlot tree .current slot
    | none => tree
  let tree := match slots[curIdx + 1]? with
    | some slot => writeSlot tree .next slot
    | none => tree
  if curIdx ≥ 1 then
    match slots[curIdx - 1]? with
    | some slot => writeSlot tree .prev slot
    | none => tree
  else tree

/-- The slots with a registration merged in, in epoch order, all but the last three dropped. -/
def mergeSlots (slots : List LeafRootSlot) (new : LeafRootSlot) : List LeafRootSlot :=
  let slots := slots.filter (·.1 ≠ new.1) ++ [new]
  let slots := slots.insertionSort (fun a b => a.1 ≤ b.1)
  slots.drop (slots.length - 3)

/-- One registration of a leaf root. -/
structure LeafRootRegistration where
  epoch : UInt64
  leafRoot : Bytes
  numBlocks : UInt64
  frameNumber : UInt64
  deriving DecidableEq

open LeafRootRegistration

/-- What a registration puts into a slot. -/
def LeafRootRegistration.slot (r : LeafRootRegistration) : LeafRootSlot :=
  (r.epoch, r.leafRoot, r.numBlocks)

/-- `upsert_leaf_root_registration`. -/
def upsertLeafRootRegistration (poseidon : Bytes → Bytes32) (existing : Option VertexTree)
    (member : Bytes32) (shardFilter : Bytes) (path : List UInt32) (r : LeafRootRegistration) :
    VertexTree :=
  let slots := (existing.map readSlots).getD []
  let slots := mergeSlots slots r.slot
  let tree := VertexTree.new.insert typeKey (typeHashLeafRootRegistration poseidon)
  let tree := writeLeafField tree .member member.bytes
  let tree := writeLeafField tree .shardFilter shardFilter
  let tree := writeLeafField tree .pathPrefix (packPrefix path)
  let tree := writeLeafField tree .registrationFrameNumber (beBytes 8 r.frameNumber.toNat)
  writeSlots tree slots

/-- A registration's vertex has a type of its own. -/
theorem upsertLeafRootRegistration_typeKey (poseidon : Bytes → Bytes32)
    (existing : Option VertexTree) (member : Bytes32) (shardFilter : Bytes) (path : List UInt32)
    (r : LeafRootRegistration) :
    upsertLeafRootRegistration poseidon existing member shardFilter path r typeKey =
      some (typeHashLeafRootRegistration poseidon) := by
  have hslots : ∀ tree slots, writeSlots tree slots typeKey = tree typeKey := by
    intro tree slots
    unfold writeSlots
    cases slots[slots.length - 2]? <;> cases slots[slots.length - 2 + 1]? <;>
      cases slots[slots.length - 2 - 1]? <;> dsimp only <;> split <;> simp [writeSlot]
  simp [upsertLeafRootRegistration, hslots, VertexTree.insert_same]

/-- A slot's answer in `leaf_root_registration_for_epoch`. -/
def slotAnswer (tree : VertexTree) (slot : SlotName) : Option (Bytes × UInt64) := do
  let root ← readLeafField tree slot.rootField
  return (root, (readU64Field tree slot.blocksField).getD 0)

/-- `leaf_root_registration_for_epoch`. -/
def leafRootRegistrationForEpoch (tree : VertexTree) (activeEpoch : UInt64) :
    Option (Bytes × UInt64) :=
  if readU64Field tree .epoch = some activeEpoch then slotAnswer tree .current
  else if readU64Field tree .nextEpoch = some activeEpoch then slotAnswer tree .next
  else if readU64Field tree .prevEpoch = some activeEpoch then slotAnswer tree .prev
  else none

/-- A slot, with what the lookup answers from it. -/
def slotView (tree : VertexTree) (slot : SlotName) : Option UInt64 × Option Bytes × Option UInt64 :=
  (readU64Field tree slot.epochField, readLeafField tree slot.rootField,
    readU64Field tree slot.blocksField)

@[simp] theorem readU64Field_writeBytes (tree : VertexTree) {field other : LeafRootField}
    (h : other ≠ field) (value : Bytes) :
    readU64Field (writeLeafField tree field value) other = readU64Field tree other := by
  unfold readU64Field
  rw [readLeafField_write, if_neg h]

/-- Writing a slot fills it and leaves the others. -/
theorem slotView_writeSlot (tree : VertexTree) (slot other : SlotName) (value : LeafRootSlot) :
    slotView (writeSlot tree slot value) other =
      if other = slot then (some value.1, some value.2.1, some value.2.2)
      else slotView tree other := by
  unfold slotView writeSlot
  cases slot <;> cases other <;>
    simp [SlotName.epochField, SlotName.rootField, SlotName.blocksField]

/-- A slot that is filled as written, or not at all. -/
def SlotHolds (tree : VertexTree) (slot : SlotName) (value : Option LeafRootSlot) : Prop :=
  (∀ v, value = some v → slotView tree slot = (some v.1, some v.2.1, some v.2.2)) ∧
    (value = none → readU64Field tree slot.epochField = none)

variable {tree : VertexTree} {slot : SlotName} {value : Option LeafRootSlot}

/-- Writing one slot keeps the others. -/
theorem SlotHolds.write (h : SlotHolds tree slot value) {other : SlotName} (hne : slot ≠ other)
    (v : LeafRootSlot) : SlotHolds (writeSlot tree other v) slot value := by
  have hview := slotView_writeSlot tree other slot v
  rw [if_neg hne] at hview
  refine ⟨fun v' hv' => by rw [hview, h.1 v' hv'], fun hnone => ?_⟩
  exact (congrArg Prod.fst hview).trans (h.2 hnone)

/-- A written slot holds its value. -/
theorem slotHolds_write (tree : VertexTree) (slot : SlotName) (v : LeafRootSlot) :
    SlotHolds (writeSlot tree slot v) slot (some v) := by
  refine ⟨fun v' hv' => ?_, fun hnone => by cases hnone⟩
  cases hv'
  rw [slotView_writeSlot, if_pos rfl]

/-- A slot reads back what it holds. -/
theorem SlotHolds.readSlot (h : SlotHolds tree slot value) : readSlot tree slot = value := by
  unfold Registry.readSlot
  cases value with
  | none => rw [h.2 rfl, Option.map_none]
  | some v =>
    obtain ⟨hepoch, hrest⟩ := Prod.ext_iff.mp (h.1 v rfl)
    obtain ⟨hroot, hblocks⟩ := Prod.ext_iff.mp hrest
    dsimp only [slotView] at hepoch hroot hblocks
    rw [hepoch, hroot, hblocks]
    rfl

theorem SlotHolds.epoch (h : SlotHolds tree slot value) :
    readU64Field tree slot.epochField = value.map Prod.fst := by
  cases value with
  | none => exact h.2 rfl
  | some v => exact (Prod.ext_iff.mp (h.1 v rfl)).1

theorem SlotHolds.answer {v : LeafRootSlot} (h : SlotHolds tree slot (some v)) :
    slotAnswer tree slot = some v.2 := by
  obtain ⟨-, hrest⟩ := Prod.ext_iff.mp (h.1 v rfl)
  obtain ⟨hroot, hblocks⟩ := Prod.ext_iff.mp hrest
  dsimp only [slotView] at hroot hblocks
  rw [slotAnswer, hroot, hblocks]
  rfl

/-- What each of the three slots holds. -/
structure Holds (tree : VertexTree) (prev current next : Option LeafRootSlot) : Prop where
  prev : SlotHolds tree .prev prev
  current : SlotHolds tree .current current
  next : SlotHolds tree .next next

/-- Slots in epoch order, assigned from the top. -/
inductive Assigned : List LeafRootSlot → Option LeafRootSlot → Option LeafRootSlot →
    Option LeafRootSlot → Prop
  | none : Assigned [] none none none
  | one (a : LeafRootSlot) : Assigned [a] none (some a) none
  | two (a b : LeafRootSlot) : Assigned [a, b] none (some a) (some b)
  | three (a b c : LeafRootSlot) : Assigned [a, b, c] (some a) (some b) (some c)

variable {slots : List LeafRootSlot}

theorem writeSlots_holds {base : VertexTree} (hbase : Holds base none none none)
    (hlen : slots.length ≤ 3) :
    ∃ prev current next, Assigned slots prev current next ∧
      Holds (writeSlots base slots) prev current next := by
  rcases slots with _ | ⟨a, _ | ⟨b, _ | ⟨c, _ | ⟨d, rest⟩⟩⟩⟩
  · exact ⟨_, _, _, .none, hbase⟩
  · exact ⟨_, _, _, .one a, hbase.prev.write (by decide) a, slotHolds_write ..,
      hbase.next.write (by decide) a⟩
  · exact ⟨_, _, _, .two a b, (hbase.prev.write (by decide) a).write (by decide) b,
      (slotHolds_write base .current a).write (by decide) b, slotHolds_write ..⟩
  · exact ⟨_, _, _, .three a b c, slotHolds_write ..,
      ((slotHolds_write base .current b).write (by decide) c).write (by decide) a,
      (slotHolds_write (writeSlot base .current b) .next c).write (by decide) a⟩
  · exact absurd hlen (by simp)

section Slots

variable {prev current next : Option LeafRootSlot} (h : Assigned slots prev current next)
include h

/-- The slots read back are those assigned. -/
theorem Assigned.readSlots (hholds : Holds tree prev current next) : readSlots tree = slots := by
  unfold Registry.readSlots
  rw [filterMap_cons, filterMap_cons, filterMap_cons, filterMap_nil,
    hholds.prev.readSlot, hholds.current.readSlot, hholds.next.readSlot]
  cases h <;> rfl

/-- The lookup by epoch finds the slot of the epoch. -/
theorem Assigned.lookup (hs : slots.Pairwise (fun a b => a.1 < b.1))
    (hholds : Holds tree prev current next) (e : UInt64) :
    leafRootRegistrationForEpoch tree e = OrdMap.lookup e slots := by
  have hprev := hholds.prev.epoch
  have hcurrent := hholds.current.epoch
  have hnext := hholds.next.epoch
  dsimp only [SlotName.epochField] at hprev hcurrent hnext
  unfold leafRootRegistrationForEpoch
  rw [hprev, hcurrent, hnext]
  cases h with
  | none => rfl
  | one =>
    rw [hholds.current.answer]
    simp [OrdMap.lookup]
  | two =>
    rw [hholds.current.answer, hholds.next.answer]
    simp [OrdMap.lookup]
  | three a b c =>
    rw [hholds.current.answer, hholds.next.answer, hholds.prev.answer]
    -- the source asks the middle slot first; the epochs differ
    have hab : a.1 ≠ b.1 := ((pairwise_cons.mp hs).1 b (by simp)).ne
    have hac : a.1 ≠ c.1 := ((pairwise_cons.mp hs).1 c (by simp)).ne
    simp only [Option.map_some, Option.some.injEq, OrdMap.lookup]
    by_cases ha : a.1 = e
    · rw [if_neg (ha ▸ hab.symm), if_neg (ha ▸ hac.symm), if_pos ha, if_pos ha]
    · rw [if_neg ha, if_neg ha]

end Slots

/-- The vertex after registrations of one member and leaf, each read back by the next. -/
def registered (poseidon : Bytes → Bytes32) (member : Bytes32) (shardFilter : Bytes)
    (path : List UInt32) (regs : List LeafRootRegistration) : Option VertexTree :=
  regs.foldl (fun tree r =>
    some (upsertLeafRootRegistration poseidon tree member shardFilter path r)) none

/-- Merging a registration into the newest three keeps the newest three. -/
theorem mergeSlots_newest (m : OrdMap UInt64 (Bytes × UInt64)) (new : LeafRootSlot) :
    mergeSlots (m.entries.rtake 3) new = (m.insert new.1 new.2).entries.rtake 3 := by
  have hsorted : (m.entries.rtake 3).Pairwise (fun a b => a.1 < b.1) :=
    m.sorted.sublist (drop_sublist ..)
  unfold mergeSlots
  dsimp only
  rw [insertionSort_replace hsorted]
  exact rtake_insertEntry m.sorted 3

/-- The three slots hold the newest three epochs. -/
theorem upsert_spec (poseidon : Bytes → Bytes32) (existing : Option VertexTree) (member : Bytes32)
    (shardFilter : Bytes) (path : List UInt32) (r : LeafRootRegistration)
    {m : OrdMap UInt64 (Bytes × UInt64)}
    (hexisting : (existing.map readSlots).getD [] = m.entries.rtake 3) :
    readSlots (upsertLeafRootRegistration poseidon existing member shardFilter path r) =
        (m.insert r.epoch (r.leafRoot, r.numBlocks)).entries.rtake 3 ∧ ∀ e,
      leafRootRegistrationForEpoch
          (upsertLeafRootRegistration poseidon existing member shardFilter path r) e =
        OrdMap.lookup e ((m.insert r.epoch (r.leafRoot, r.numBlocks)).entries.rtake 3) := by
  unfold upsertLeafRootRegistration
  dsimp only
  rw [hexisting, mergeSlots_newest]
  dsimp only [slot]
  generalize hslots : (m.insert r.epoch (r.leafRoot, r.numBlocks)).entries.rtake 3 = slots
  have hsorted : slots.Pairwise (fun a b => a.1 < b.1) :=
    hslots ▸ (m.insert r.epoch (r.leafRoot, r.numBlocks)).sorted.sublist (drop_sublist ..)
  have hlen : slots.length ≤ 3 := by
    rw [← hslots, rtake, length_drop]
    omega
  have hbase : Holds (writeLeafField (writeLeafField (writeLeafField (writeLeafField
      (VertexTree.new.insert typeKey (typeHashLeafRootRegistration poseidon)) .member member.bytes)
      .shardFilter shardFilter) .pathPrefix (packPrefix path)) .registrationFrameNumber
      (beBytes 8 r.frameNumber.toNat)) none none none := by
    constructor <;>
    · refine ⟨(fun v hv => nomatch hv), fun _ => ?_⟩
      simp [SlotName.epochField, readU64Field]
  obtain ⟨_, _, _, hassigned, hholds⟩ := writeSlots_holds hbase hlen
  exact ⟨hassigned.readSlots hholds, hassigned.lookup hsorted hholds⟩

/-- The slots after a run: the newest three of everything registered. -/
theorem registered_slots (poseidon : Bytes → Bytes32) (member : Bytes32) (shardFilter : Bytes)
    (path : List UInt32) (regs : List LeafRootRegistration) :
    ((registered poseidon member shardFilter path regs).map readSlots).getD [] =
      (ofList (regs.map LeafRootRegistration.slot)).entries.rtake 3 := by
  induction regs using reverseRecOn with
  | nil => rfl
  | append_singleton regs r ih =>
    rw [map_append, map_singleton, ofList_concat]
    unfold registered at ih ⊢
    rw [foldl_append]
    exact (upsert_spec poseidon _ member shardFilter path r ih).1

/-- **Registrations keep the three newest epochs**: a lookup finds the last registration of its
epoch exactly where fewer than three registered epochs are higher. -/
theorem leaf_root_for_epoch_newest (poseidon : Bytes → Bytes32) (member : Bytes32)
    (shardFilter : Bytes) (path : List UInt32) (regs : List LeafRootRegistration) (e : UInt64) :
    (registered poseidon member shardFilter path regs).bind (leafRootRegistrationForEpoch · e) =
      if ((regs.map epoch).toFinset.filter (e < ·)).card < 3 then
        (regs.reverse.find? fun r => r.epoch = e).map fun r => (r.leafRoot, r.numBlocks)
      else none := by
  have hlast : (regs.reverse.find? fun r => r.epoch = e).map (fun r => (r.leafRoot, r.numBlocks)) =
      OrdMap.lookup e (regs.map slot).reverse := by
    rw [← map_reverse]
    induction regs.reverse with
    | nil => rfl
    | cons r regs ih =>
      rw [map_cons, OrdMap.lookup, find?_cons]
      by_cases hr : r.epoch = e
      · simp [hr, slot]
      · simpa [hr, slot] using ih
  have hnewest := lookup_newest (regs.map slot) 3 e
  rw [map_map] at hnewest
  rw [hlast]
  refine Eq.trans ?_ hnewest
  induction regs using reverseRecOn with
  | nil => rfl
  | append_singleton regs r =>
    have hslots := registered_slots poseidon member shardFilter path regs
    rw [map_append, map_singleton, ofList_concat]
    unfold registered at hslots ⊢
    rw [foldl_append]
    exact (upsert_spec poseidon _ member shardFilter path r hslots).2 e

end Registry

import QuilNode.Basic

/-!
# The vertices of the GLOBAL domain

A GLOBAL vertex is a tree of fields, taken as what `get` answers and `insert` changes.  Its class
fixes the order of each field: with at most 64 orders the key is the single byte `order << 2`, so
every field of a class has a key of its own, and none is the 32-byte type key.
-/

namespace Global

/-- The contents of a vertex's commitment tree. -/
abbrev VertexTree := Bytes → Option Bytes

/-- The classes of the schema the modelled operations use. -/
inductive VertexClass where
  | prover
  | allocation
  | reward
  | spentMerge
  | leafRoot
  deriving DecidableEq

/-- The class names of the schema. -/
def VertexClass.name : VertexClass → String
  | .prover => "prover:Prover"
  | .allocation => "allocation:ProverAllocation"
  | .reward => "reward:ProverReward"
  | .spentMerge => "merge:SpentMerge"
  | .leafRoot => "leafroot:LeafRootRegistration"

/-- `GLOBAL_INTRINSIC_ADDRESS`. -/
def globalIntrinsicAddress : Bytes := List.replicate 32 0xff

/-- `compute_type_hash`, for the hash `poseidon`. -/
def computeTypeHash (poseidon : Bytes → Bytes32) (cls : VertexClass) : Bytes :=
  (poseidon (globalIntrinsicAddress ++ asciiBytes cls.name)).bytes

/-- The fields of `prover:Prover`, in schema order. -/
inductive ProverField where
  | publicKey
  | status
  | availableStorage
  | seniority
  | kickFrameNumber
  | lastSeniorityFrameNumber
  deriving DecidableEq

/-- The fields of `allocation:ProverAllocation`, in schema order. -/
inductive AllocationField where
  | prover
  | status
  | confirmationFilter
  | rejectionFilter
  | joinFrameNumber
  | leaveFrameNumber
  | pauseFrameNumber
  | resumeFrameNumber
  | kickFrameNumber
  | joinConfirmFrameNumber
  | joinRejectFrameNumber
  | leaveConfirmFrameNumber
  | leaveRejectFrameNumber
  | lastActiveFrameNumber
  | epoch
  | ring
  | ringEpoch
  | ringSeniority
  | lastSignedFrameNumber
  | release
  deriving DecidableEq

/-- The orders of `prover:Prover`. -/
def ProverField.order : ProverField → Nat
  | .publicKey => 0
  | .status => 1
  | .availableStorage => 2
  | .seniority => 3
  | .kickFrameNumber => 4
  | .lastSeniorityFrameNumber => 5

/-- The field of an order. -/
def ProverField.ofOrder : Nat → Option ProverField
  | 0 => some .publicKey
  | 1 => some .status
  | 2 => some .availableStorage
  | 3 => some .seniority
  | 4 => some .kickFrameNumber
  | 5 => some .lastSeniorityFrameNumber
  | _ => none

/-- The orders of `allocation:ProverAllocation`. -/
def AllocationField.order : AllocationField → Nat
  | .prover => 0
  | .status => 1
  | .confirmationFilter => 2
  | .rejectionFilter => 3
  | .joinFrameNumber => 4
  | .leaveFrameNumber => 5
  | .pauseFrameNumber => 6
  | .resumeFrameNumber => 7
  | .kickFrameNumber => 8
  | .joinConfirmFrameNumber => 9
  | .joinRejectFrameNumber => 10
  | .leaveConfirmFrameNumber => 11
  | .leaveRejectFrameNumber => 12
  | .lastActiveFrameNumber => 13
  | .epoch => 14
  | .ring => 15
  | .ringEpoch => 16
  | .ringSeniority => 17
  | .lastSignedFrameNumber => 18
  | .release => 19

/-- The field of an order. -/
def AllocationField.ofOrder : Nat → Option AllocationField
  | 0 => some .prover
  | 1 => some .status
  | 2 => some .confirmationFilter
  | 3 => some .rejectionFilter
  | 4 => some .joinFrameNumber
  | 5 => some .leaveFrameNumber
  | 6 => some .pauseFrameNumber
  | 7 => some .resumeFrameNumber
  | 8 => some .kickFrameNumber
  | 9 => some .joinConfirmFrameNumber
  | 10 => some .joinRejectFrameNumber
  | 11 => some .leaveConfirmFrameNumber
  | 12 => some .leaveRejectFrameNumber
  | 13 => some .lastActiveFrameNumber
  | 14 => some .epoch
  | 15 => some .ring
  | 16 => some .ringEpoch
  | 17 => some .ringSeniority
  | 18 => some .lastSignedFrameNumber
  | 19 => some .release
  | _ => none

/-- `order_to_key` in the single-byte band. -/
def orderToKey (order : Nat) : Bytes := [UInt8.ofNat (order <<< 2)]

/-- `field_key("prover:Prover", _)`. -/
def ProverField.key (field : ProverField) : Bytes := orderToKey field.order

/-- `field_key("allocation:ProverAllocation", _)`. -/
def AllocationField.key (field : AllocationField) : Bytes := orderToKey field.order

/-- The key of `DelegateAddress` in `reward:ProverReward`. -/
def delegateAddressKey : Bytes := orderToKey 0

/-- The key of `Balance` in `reward:ProverReward`. -/
def balanceKey : Bytes := orderToKey 1

/-- The key of `ProverAddress` in `merge:SpentMerge`. -/
def spentProverAddressKey : Bytes := orderToKey 0

/-- The key every vertex stores its type hash under. -/
def typeKey : Bytes := List.replicate 32 0xff

theorem orderToKey_injective {a b : Nat} (ha : a < 64) (hb : b < 64)
    (h : orderToKey a = orderToKey b) : a = b := by
  have hbyte : UInt8.ofNat (a <<< 2) = UInt8.ofNat (b <<< 2) := List.head_eq_of_cons_eq h
  have hnat := congrArg UInt8.toNat hbyte
  simp only [UInt8.toNat_ofNat', Nat.shiftLeft_eq] at hnat
  omega

/-- Fields told apart by orders below 64 have different keys. -/
theorem field_key_injective {F : Type} {order : F → Nat} (ofOrder : Nat → Option F)
    (hlt : ∀ f, order f < 64) (hof : ∀ f, ofOrder (order f) = some f) :
    Function.Injective fun f => orderToKey (order f) := by
  intro a b h
  have horder := orderToKey_injective (hlt a) (hlt b) h
  exact Option.some.inj ((hof a).symm.trans ((congrArg ofOrder horder).trans (hof b)))

theorem AllocationField.key_injective : Function.Injective AllocationField.key :=
  field_key_injective ofOrder (fun f => by cases f <;> decide) (fun f => by cases f <;> rfl)

theorem ProverField.key_injective : Function.Injective ProverField.key :=
  field_key_injective ofOrder (fun f => by cases f <;> decide) (fun f => by cases f <;> rfl)

/-- A `u64` field: its number where it has exactly eight bytes. -/
def u64Exact (bytes : Bytes) : Option Nat :=
  if bytes.length = 8 then some (natOfBytes bytes) else none

theorem u64Exact_beBytes {n : Nat} (hn : n < 2 ^ 64) : u64Exact (beBytes 8 n) = some n := by
  have hmod : n % 256 ^ 8 = n := Nat.mod_eq_of_lt hn
  unfold u64Exact
  rw [if_pos (beBytes_length 8 n), natOfBytes_beBytes, hmod]

/-- The type of a vertex has a key of its own. -/
theorem typeKey_ne_orderToKey (order : Nat) : typeKey ≠ orderToKey order := by
  intro h
  have hlen := congrArg List.length h
  simp [orderToKey, typeKey] at hlen

namespace VertexTree

/-- A tree with no fields. -/
def new : VertexTree := fun _ => none

/-- `insert`. -/
def insert (tree : VertexTree) (key value : Bytes) : VertexTree :=
  Function.update tree key (some value)

@[simp] theorem insert_same (tree : VertexTree) (key value : Bytes) :
    tree.insert key value key = some value := by
  simp [insert]

theorem insert_other (tree : VertexTree) {key other : Bytes} (value : Bytes)
    (h : other ≠ key) : tree.insert key value other = tree other := by
  simp [insert, h]

/-- `write_type`. -/
def writeType (poseidon : Bytes → Bytes32) (tree : VertexTree) (cls : VertexClass) : VertexTree :=
  tree.insert typeKey (computeTypeHash poseidon cls)

/-- `read_field` of an allocation. -/
def read (tree : VertexTree) (field : AllocationField) : Option Bytes := tree field.key

/-- `write_field` of an allocation. -/
def write (tree : VertexTree) (field : AllocationField) (value : Bytes) : VertexTree :=
  tree.insert field.key value

theorem read_write (tree : VertexTree) (field other : AllocationField) (value : Bytes) :
    (tree.write field value).read other = if other = field then some value else tree.read other := by
  split
  · rename_i h
    rw [h]
    exact insert_same _ _ _
  · rename_i h
    exact insert_other _ _ fun hkey => h (AllocationField.key_injective hkey)

/-- `read_u64_be`: the first eight bytes of a field, zero where there are
fewer. -/
def readU64 (tree : VertexTree) (field : AllocationField) : Nat :=
  match tree.read field with
  | none => 0
  | some bytes => if bytes.length < 8 then 0 else natOfBytes (bytes.take 8)

/-- The first byte of the `Status` field. -/
def statusByte (tree : VertexTree) : Option UInt8 := (tree.read .status).bind List.head?

theorem readU64_of_exact {tree : VertexTree} {field : AllocationField} {bytes : Bytes} {n : Nat}
    (hread : tree.read field = some bytes) (hn : u64Exact bytes = some n) :
    tree.readU64 field = n := by
  unfold u64Exact at hn
  split at hn
  · rename_i hlen
    have hfull : bytes.take 8 = bytes := List.take_of_length_le (by omega)
    simpa [readU64, hread, hlen, hfull] using hn
  · cases hn

end VertexTree

end Global

import Mathlib

/-!
# Values shared by the components

Byte strings, 32-byte values and the error kinds.  A `[u8; 32]` is a
`BitVec 256`, read big-endian: bit `i` of the source's
`address[i / 8] >> (7 - i % 8)` is the `i`-th most significant bit.
-/

open List Nat UInt8

/-- A `[u8; 32]`: an address, a digest, an operation id. -/
abbrev Bytes32 := BitVec 256

/-- A `Vec<u8>`. -/
abbrev Bytes := List UInt8

-- one proof of each for every membership test
instance lawfulBEqBytes32 : LawfulBEq Bytes32 := inferInstance

instance lawfulBEqBytes : LawfulBEq Bytes := inferInstance

instance lawfulBEqBits : LawfulBEq (List Bool) := inferInstance

/-- The error kinds the modelled functions raise, with their messages. -/
inductive QuilError where
  | invalidArgument (msg : String)
  | store (msg : String)
  | executionUnavailable (msg : String)
  | serialization (msg : String)
  | internal (msg : String)
  deriving DecidableEq

/-- `Result<T>` of the source. -/
abbrev Result := Except QuilError

/-- The error as text. -/
def QuilError.display : QuilError → String
  | .invalidArgument msg => "invalid argument: " ++ msg
  | .store msg => "store error: " ++ msg
  | .executionUnavailable msg => "execution unavailable: " ++ msg
  | .serialization msg => "serialization error: " ++ msg
  | .internal msg => "internal error: " ++ msg

/-- The bits of a 32-byte value, most significant first. -/
def Bytes32.bits (a : Bytes32) : List Bool := (List.range 256).map a.getMsbD

@[simp] theorem Bytes32.bits_length (a : Bytes32) : (Bytes32.bits a).length = 256 := by
  simp [Bytes32.bits]

/-- The `width` low bytes of a number, most significant first. -/
def beBytes (width n : Nat) : Bytes :=
  (List.range width).map fun i => UInt8.ofNat (n / 256 ^ (width - 1 - i))

/-- The bytes of a 32-byte value. -/
def Bytes32.bytes (a : Bytes32) : Bytes := beBytes 32 a.toNat

/-- The number with these bytes, most significant first. -/
def natOfBytes (bytes : Bytes) : Nat := bytes.foldl (fun n b => 256 * n + b.toNat) 0

@[simp] theorem beBytes_length (width n : Nat) : (beBytes width n).length = width := by
  simp [beBytes]

theorem beBytes_succ (width n : Nat) :
    beBytes (width + 1) n = beBytes width (n / 256) ++ [ofNat n] := by
  unfold beBytes
  rw [range_succ, map_append, map_singleton]
  have hlast : n / 256 ^ (width + 1 - 1 - width) = n := by simp
  rw [hlast]
  congr 1
  apply map_congr_left
  intro i hi
  have hi : i < width := mem_range.mp hi
  have hexp : width + 1 - 1 - i = width - 1 - i + 1 := by omega
  rw [hexp, Nat.pow_succ', Nat.div_div_eq_div_mul]

theorem natOfBytes_concat (bytes : Bytes) (b : UInt8) :
    natOfBytes (bytes ++ [b]) = 256 * natOfBytes bytes + b.toNat := by
  simp [natOfBytes, foldl_append]

theorem natOfBytes_beBytes (width n : Nat) : natOfBytes (beBytes width n) = n % 256 ^ width := by
  induction width generalizing n with
  | zero => simp [beBytes, natOfBytes, mod_one]
  | succ width ih =>
    rw [beBytes_succ, natOfBytes_concat, ih, pow_succ', mod_mul, toNat_ofNat']
    omega

theorem natOfBytes_lt (bytes : Bytes) : natOfBytes bytes < 256 ^ bytes.length := by
  induction bytes using reverseRecOn with
  | nil => simp [natOfBytes]
  | append_singleton bytes b =>
    have hb := b.toNat_lt
    rw [natOfBytes_concat, length_append, length_singleton, pow_succ']
    omega

theorem beBytes_natOfBytes (bytes : Bytes) : beBytes bytes.length (natOfBytes bytes) = bytes := by
  induction bytes using reverseRecOn with
  | nil => rfl
  | append_singleton bytes b ih =>
    have hb := b.toNat_lt
    have hdiv : (256 * natOfBytes bytes + b.toNat) / 256 = natOfBytes bytes := by omega
    have hlast : ofNat (256 * natOfBytes bytes + b.toNat) = b := by
      apply UInt8.toNat_inj.mp
      rw [UInt8.toNat_ofNat']
      omega
    rw [natOfBytes_concat, length_append, length_singleton, beBytes_succ, hdiv, ih, hlast]

theorem beBytes_injective {width a b : Nat} (ha : a < 256 ^ width) (hb : b < 256 ^ width)
    (h : beBytes width a = beBytes width b) : a = b := by
  have hnat := congrArg natOfBytes h
  rwa [natOfBytes_beBytes, natOfBytes_beBytes, mod_eq_of_lt ha, mod_eq_of_lt hb] at hnat

@[simp] theorem Bytes32.bytes_length (a : Bytes32) : (Bytes32.bytes a).length = 32 := by
  simp [Bytes32.bytes]

theorem Bytes32.bytes_injective {a b : Bytes32} (h : Bytes32.bytes a = Bytes32.bytes b) : a = b :=
  BitVec.eq_of_toNat_eq (@beBytes_injective 32 _ _ a.isLt b.isLt h)

/-- The bytes of an ASCII text. -/
def asciiBytes (text : String) : Bytes := text.toList.map fun c => UInt8.ofNat c.toNat

/-- `hex::encode`. -/
def hexEncode (bytes : Bytes) : String :=
  String.ofList (bytes.flatMap fun b => [Nat.digitChar (b.toNat / 16), Nat.digitChar (b.toNat % 16)])

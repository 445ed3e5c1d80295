import Mathlib.Order.Lattice
import Mathlib.Data.List.Lex
import Strata.Library.LittleEndian
import Strata.Library.System

/-! Byte strings, statuses, file names and the entry type shared by the log,
the memtable and the tables. -/
namespace Strata

open Library

abbrev Bytes := List UInt8

/-- `std::string` compares by unsigned bytes, a proper prefix first, which is
the lexicographic order of the lists. -/
instance instLinearOrderUInt8 : LinearOrder UInt8 where
  le_refl := UInt8.le_refl
  le_trans _ _ _ := UInt8.le_trans
  le_antisymm _ _ := UInt8.le_antisymm
  le_total := UInt8.le_total
  lt_iff_le_not_ge a b := by
    simp only [UInt8.lt_iff_toNat_lt, UInt8.le_iff_toNat_le]
    omega
  toDecidableLE := inferInstance
  toDecidableEq := inferInstance
  toDecidableLT := inferInstance

abbrev Key := Bytes

inductive Status where
  | ok
  | notFound (msg : String)
  | corruption (msg : String)
  | notSupported (msg : String)
  | invalidArgument (msg : String)
  | ioError (msg : String)
  deriving DecidableEq, Repr

def Status.isOk : Status → Bool
  | .ok => true
  | _ => false

@[simp] theorem Status.isOk_ok : Status.ok.isOk = true := rfl

theorem Status.isOk_eq_false {status : Status} : status.isOk = false ↔ status ≠ .ok := by
  cases status <;> simp [isOk]

theorem Status.eq_ok {status : Status} (h : ¬ (!status.isOk) = true) : status = .ok := by
  by_contra hne
  exact h (by simp [isOk_eq_false.mpr hne])

theorem Status.ne_ok {status : Status} (h : (!status.isOk) = true) : status ≠ .ok := by
  rintro rfl
  cases h

def Status.isNotFound : Status → Bool
  | .notFound _ => true
  | _ => false

/-- The enumeration has a fixed underlying byte, so a decoded type can be any
byte; the code tests it against the two named values. -/
abbrev ValueType := UInt8

def kTypeDeletion : ValueType := 0
def kTypeValue : ValueType := 1

def kMaxSequenceNumber : Nat := 2 ^ 56 - 1

def kMaxRecordSize : Nat := 64 * 1024 * 1024

structure Entry where
  userKey : Key
  seq : Nat
  type : ValueType
  value : Bytes
  deriving DecidableEq, Repr

/-- `bloom_bits_per_key` is taken to be no less than 0. The capacity of the block
cache is left out: a cached block is the block the file holds. -/
structure Options where
  createIfMissing : Bool := true
  errorIfExists : Bool := false
  writeBufferSize : Nat := 4 * 1024 * 1024
  sync : Bool := false
  blockSize : Nat := 4096
  bloomBitsPerKey : Nat := 10
  maxLevel0Files : Int := 4
  maxFileSize : Nat := 2 * 1024 * 1024
  deriving DecidableEq, Repr

/-- `CompareInternalKey(a, b) < 0`: key ascending, then sequence descending. -/
def Entry.before (a b : Entry) : Prop :=
  a.userKey < b.userKey ∨ (a.userKey = b.userKey ∧ b.seq < a.seq)

instance (a b : Entry) : Decidable (a.before b) := by
  unfold Entry.before
  infer_instance

/-- The files of a database directory. `CURRENT` may hold any line, so a name
the code itself never builds is still a name. -/
inductive FileName where
  | lock
  | current
  | currentTmp
  | log (number : Nat)
  | table (number : Nat)
  | manifest (number : Nat)
  | other (name : Bytes)
  deriving DecidableEq, Repr

abbrev Dir := System.Directory FileName

abbrev Prog := System.Sys FileName

def encodeFixed32 (value : Nat) : Bytes := LittleEndian.encode 4 value
def encodeFixed64 (value : Nat) : Bytes := LittleEndian.encode 8 value
def decodeFixed32 (bytes : Bytes) : Nat := LittleEndian.decode (bytes.take 4)
def decodeFixed64 (bytes : Bytes) : Nat := LittleEndian.decode (bytes.take 8)

@[simp] theorem length_encodeFixed32 (value : Nat) : (encodeFixed32 value).length = 4 :=
  LittleEndian.length_encode 4 value

@[simp] theorem length_encodeFixed64 (value : Nat) : (encodeFixed64 value).length = 8 :=
  LittleEndian.length_encode 8 value

theorem decodeFixed32_encode (value : Nat) (rest : Bytes) :
    decodeFixed32 (encodeFixed32 value ++ rest) = value % 2 ^ 32 := by
  simp [decodeFixed32, encodeFixed32, LittleEndian.decode_encode]

theorem decodeFixed64_encode (value : Nat) (rest : Bytes) :
    decodeFixed64 (encodeFixed64 value ++ rest) = value % 2 ^ 64 := by
  simp [decodeFixed64, encodeFixed64, LittleEndian.decode_encode]

theorem decodeFixed32_of_lt {value : Nat} (h : value < 2 ^ 32) (rest : Bytes) :
    decodeFixed32 (encodeFixed32 value ++ rest) = value := by
  rw [decodeFixed32_encode, Nat.mod_eq_of_lt h]

theorem decodeFixed64_of_lt {value : Nat} (h : value < 2 ^ 64) (rest : Bytes) :
    decodeFixed64 (encodeFixed64 value ++ rest) = value := by
  rw [decodeFixed64_encode, Nat.mod_eq_of_lt h]

theorem decodeFixed32_ne {left right : Bytes} (hleft : left.length = 4) (hright : right.length = 4)
    (hne : left ≠ right) : decodeFixed32 left ≠ decodeFixed32 right := by
  intro h
  rw [decodeFixed32, decodeFixed32, List.take_of_length_le hleft.le,
    List.take_of_length_le hright.le] at h
  exact hne (LittleEndian.decode_inj (hleft.trans hright.symm) h)

theorem decodeFixed32_take {bytes : Bytes} {start count : Nat} (h : start + 4 ≤ count) :
    decodeFixed32 ((bytes.take count).drop start) = decodeFixed32 (bytes.drop start) := by
  rw [decodeFixed32, decodeFixed32, List.drop_take, List.take_take, Nat.min_eq_left (by omega)]

theorem decodeFixed32_lt (bytes : Bytes) : decodeFixed32 bytes < 2 ^ 32 := by
  have hlt := LittleEndian.decode_lt (bytes.take 4)
  have hlen : (bytes.take 4).length ≤ 4 := by simp
  calc decodeFixed32 bytes < 256 ^ (bytes.take 4).length := hlt
    _ ≤ 256 ^ 4 := Nat.pow_le_pow_right (by decide) hlen
    _ = 2 ^ 32 := by norm_num

theorem decodeFixed64_lt (bytes : Bytes) : decodeFixed64 bytes < 2 ^ 64 := by
  have hlt := LittleEndian.decode_lt (bytes.take 8)
  have hlen : (bytes.take 8).length ≤ 8 := by simp
  calc decodeFixed64 bytes < 256 ^ (bytes.take 8).length := hlt
    _ ≤ 256 ^ 8 := Nat.pow_le_pow_right (by decide) hlen
    _ = 2 ^ 64 := by norm_num

end Strata

import Mathlib.Data.Nat.Log
import Mathlib.Tactic.Ring

/-! Fixed-width little-endian integers over byte lists. The encoder keeps the
low bytes of its argument and drops the rest, as a narrowing cast does. -/
namespace Strata.Library.LittleEndian

/-- The `width` low bytes of a number, least significant first. -/
def encode : Nat → Nat → List UInt8
  | 0, _ => []
  | width + 1, value => UInt8.ofNat value :: encode width (value / 256)

def decode : List UInt8 → Nat
  | [] => 0
  | byte :: rest => byte.toNat + 256 * decode rest

@[simp] theorem length_encode (width value : Nat) : (encode width value).length = width := by
  induction width generalizing value with
  | zero => rfl
  | succ width ih => simp [encode, ih]

theorem decode_encode (width value : Nat) :
    decode (encode width value) = value % 256 ^ width := by
  induction width generalizing value with
  | zero => simp [encode, decode, Nat.mod_one]
  | succ width ih =>
    have hbyte : value % 2 ^ 8 = value % 256 := by norm_num
    rw [encode, decode, ih, UInt8.toNat_ofNat', hbyte, pow_succ', Nat.mod_mul]

theorem decode_lt (bytes : List UInt8) : decode bytes < 256 ^ bytes.length := by
  induction bytes with
  | nil => simp [decode]
  | cons byte rest ih =>
    have hbyte : byte.toNat < 256 := byte.toNat_lt
    rw [decode, List.length_cons, pow_succ']
    omega

theorem decode_inj {left right : List UInt8} (hlength : left.length = right.length)
    (h : decode left = decode right) : left = right := by
  induction left generalizing right with
  | nil => exact (List.eq_nil_of_length_eq_zero hlength.symm).symm
  | cons byte rest ih =>
    cases right with
    | nil => cases hlength
    | cons byte' rest' =>
      have hbyte := byte.toNat_lt
      have hbyte' := byte'.toNat_lt
      simp only [decode] at h
      have hlow : byte.toNat = byte'.toNat := by omega
      rw [UInt8.toNat_inj.mp hlow, ih (Nat.succ.inj hlength) (by omega)]

@[simp] theorem take_encode_append (width value : Nat) (rest : List UInt8) :
    (encode width value ++ rest).take width = encode width value :=
  List.take_left' (length_encode width value)

@[simp] theorem drop_encode_append (width value : Nat) (rest : List UInt8) :
    (encode width value ++ rest).drop width = rest :=
  List.drop_left' (length_encode width value)

end Strata.Library.LittleEndian

import Strata.Format
import Strata.Library.Crc

/-! CRC-32 as the log and the tables compute it. -/
namespace Strata

open Library

def crcStep (c : UInt32) : UInt32 :=
  if c &&& 1 ≠ 0 then (0xEDB88320 : UInt32) ^^^ (c >>> 1) else c >>> 1

/-- Entry `i` of the table that `GetCrcTable` fills. -/
def crcTable (i : UInt32) : UInt32 := crcStep^[8] i

def crc32Update (c : UInt32) (byte : UInt8) : UInt32 :=
  crcTable ((c ^^^ byte.toUInt32) &&& 0xFF) ^^^ (c >>> 8)

def crc32Seeded (seed : UInt32) (data : Bytes) : UInt32 :=
  data.foldl crc32Update (seed ^^^ 0xFFFFFFFF) ^^^ 0xFFFFFFFF

def crc32 (data : Bytes) : UInt32 := crc32Seeded 0 data

/-- The check value of the IEEE 802.3 polynomial on "123456789". -/
example : crc32 [0x31, 0x32, 0x33, 0x34, 0x35, 0x36, 0x37, 0x38, 0x39] = 0xCBF43926 := by
  decide +kernel

theorem crc32_set_ne {data : Bytes} {index : Nat} (hindex : index < data.length) {byte : UInt8}
    (hne : byte ≠ data[index]) : crc32 (data.set index byte) ≠ crc32 data := by
  intro h
  rw [crc32, crc32, crc32Seeded, crc32Seeded, UInt32.xor_comm, UInt32.xor_comm (data.foldl _ _)] at h
  exact Crc.foldl_set_ne (by decide) _ hindex hne (Crc.xor_right_injective _ h)

theorem crc32Update_eq : crc32Update = Crc.update 0xEDB88320 := rfl

theorem crc32Seeded_append (seed : UInt32) (p q : Bytes) :
    crc32Seeded seed (p ++ q) = crc32Seeded (crc32Seeded seed p) q := by
  unfold crc32Seeded
  rw [List.foldl_append, UInt32.xor_assoc _ 0xFFFFFFFF, UInt32.xor_self, UInt32.xor_zero]

/-- Whatever comes behind some data, four bytes more give it the checksum it had. -/
theorem exists_crc32_append_eq (data more : Bytes) :
    ∃ closing : Bytes, closing.length = 4 ∧ crc32 (data ++ (more ++ closing)) = crc32 data := by
  have hpoly : (0xEDB88320 : UInt32).toBitVec[31] = true := by decide
  obtain ⟨closing, hlength, hclosing⟩ := Crc.exists_foldl_eq hpoly
    ((data ++ more).foldl crc32Update (0 ^^^ 0xFFFFFFFF)) (data.foldl crc32Update (0 ^^^ 0xFFFFFFFF))
  refine ⟨closing, hlength, ?_⟩
  rw [← crc32Update_eq] at hclosing
  rw [crc32, crc32, crc32Seeded, crc32Seeded, ← List.append_assoc, List.foldl_append, hclosing]

/-- The bits of the data go into the register one by one, the lowest of a byte first, and
where a one falls out of it the polynomial is added. -/
def crc32Bitwise (seed : UInt32) (data : Bytes) : UInt32 :=
  (data.flatMap fun byte => Crc.bitsOf 8 byte.toUInt32).foldl
    (fun c bit => crcStep (c ^^^ if bit then 1 else 0)) (seed ^^^ 0xFFFFFFFF) ^^^ 0xFFFFFFFF

theorem crc32Seeded_eq_bitwise (seed : UInt32) (data : Bytes) :
    crc32Seeded seed data = crc32Bitwise seed data := by
  unfold crc32Seeded crc32Bitwise
  rw [crc32Update_eq, Crc.foldl_update_eq]
  rfl

/-- Two strings of one length that differ, and only inside four bytes in a row. -/
structure Burst (p q : Bytes) : Prop where
  length : p.length = q.length
  differs : p ≠ q
  window : ∃ start, ∀ i, p[i]? ≠ q[i]? → start ≤ i ∧ i < start + 4

theorem Burst.crc32_ne {p q : Bytes} (h : Burst p q) (seed : UInt32) :
    crc32Seeded seed p ≠ crc32Seeded seed q := by
  obtain ⟨hlength, hdiffers, start, hwindow⟩ := h
  have hsame : ∀ i, i < start ∨ start + 4 ≤ i → p[i]? = q[i]? := by
    intro i hi
    by_contra hne
    have hin := hwindow i hne
    omega
  have hfront : p.take start = q.take start := by
    apply List.ext_getElem?
    intro i
    by_cases hi : i < start
    · rw [List.getElem?_take_of_lt hi, List.getElem?_take_of_lt hi, hsame i (Or.inl hi)]
    · simp [hi]
  have hback : (p.drop start).drop 4 = (q.drop start).drop 4 := by
    apply List.ext_getElem?
    intro i
    rw [List.drop_drop, List.drop_drop, List.getElem?_drop, List.getElem?_drop,
      hsame _ (Or.inr (by omega))]
  have hmiddle : (p.drop start).take 4 ≠ (q.drop start).take 4 := by
    intro heq
    apply hdiffers
    rw [← List.take_append_drop start p, ← List.take_append_drop 4 (p.drop start), hfront, heq, hback,
      List.take_append_drop, List.take_append_drop]
  intro hcrc
  rw [crc32Seeded, crc32Seeded, UInt32.xor_comm, UInt32.xor_comm (q.foldl _ _)] at hcrc
  have hregister := Crc.xor_right_injective _ hcrc
  rw [← List.take_append_drop start p, ← List.take_append_drop start q, hfront, List.foldl_append,
    List.foldl_append, ← List.take_append_drop 4 (p.drop start),
    ← List.take_append_drop 4 (q.drop start), hback] at hregister
  exact Crc.foldl_window_ne (by decide) _ (by simp [hlength]) (by simp) hmiddle _ hregister

end Strata

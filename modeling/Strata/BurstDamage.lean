import Strata.SSTableReader
import Strata.Wal

/-! Damage inside four bytes in a row, as the checksums of the log and of the tables
see it. -/
namespace Strata

variable {p q : Bytes}

theorem Burst.crc32_toNat_ne (h : Burst p q) : (crc32 q).toNat ≠ (crc32 p).toNat := by
  intro heq
  exact h.crc32_ne 0 (UInt32.toNat_inj.mp heq).symm

theorem Burst.readRecord (h : Burst p q) {header : Bytes} (hheader : header.length = 8)
    (hcrc : decodeFixed32 header = (crc32 p).toNat)
    (hlength : decodeFixed32 (header.drop 4) = p.length) (back : Bytes) (hidden : Nat)
    (allowPartialEof : Bool) :
    ∃ status next, WalReader.readRecord ⟨true, header ++ (q ++ back), hidden⟩ allowPartialEof =
      .stop status next ∧ status ≠ .ok := by
  have hpayload : (q ++ back).take p.length = q := List.take_left' h.length.symm
  have hdrop : (q ++ back).drop p.length = back := List.drop_left' h.length.symm
  have hlong : ¬ q.length < p.length := by
    rw [h.length]
    exact lt_irrefl _
  unfold WalReader.readRecord
  simp only [Bool.not_true, Bool.false_eq_true, ↓reduceIte, List.take_left' hheader,
    List.drop_left' hheader, hheader, lt_irrefl, hcrc, hlength]
  split
  · split
    · exact ⟨_, _, rfl, by simp⟩
    · exact ⟨_, _, rfl, by simp⟩
  · unfold WalReader.readPayload
    simp only [hpayload, hdrop, if_neg hlong, if_pos h.crc32_toNat_ne]
    split
    · exact ⟨_, _, rfl, by simp⟩
    · split
      · exact ⟨_, _, rfl, by simp⟩
      · exact ⟨_, _, rfl, by simp⟩

theorem pread_eq_of_length {data : Bytes} {fault : Option Nat} {offset length : Nat}
    (h : ¬ (pread data fault offset length).length < length) :
    pread data fault offset length = (data.drop offset).take length := by
  cases fault with
  | none => rfl
  | some n =>
    simp only [pread, List.drop_take, List.take_take, List.length_take] at h ⊢
    rw [Nat.min_eq_left (by omega)]

theorem Burst.readBlock {data : Bytes} {handle : BlockHandle}
    (h : Burst p ((data.drop handle.offset).take handle.size))
    (hcrc : decodeFixed32 (data.drop (handle.offset + handle.size)) = (crc32 p).toNat)
    (fault : Option Nat) (fileSize : Nat) :
    ∃ status, readBlockFrom data fault fileSize handle = .error status := by
  unfold readBlockFrom
  split
  · exact ⟨_, rfl⟩
  simp only
  split
  · exact ⟨_, rfl⟩
  rename_i hbuffer
  rw [pread_eq_of_length hbuffer, List.take_take, Nat.min_eq_left (Nat.le_add_right _ _),
    decodeFixed32_take (le_refl _), List.drop_drop, hcrc, if_pos h.crc32_toNat_ne]
  exact ⟨_, rfl⟩

/-- The checksum tells any two strings apart that differ only inside four bytes in a row,
it can be computed piece by piece, and the table computes the division bit by bit. So a
record or a block that is damaged inside four bytes in a row is not accepted. -/
theorem checksum_strength :
    (∀ p q, Burst p q → ∀ seed, crc32Seeded seed p ≠ crc32Seeded seed q) ∧
    (∀ seed p q, crc32Seeded seed (p ++ q) = crc32Seeded (crc32Seeded seed p) q) ∧
    (∀ seed data, crc32Seeded seed data = crc32Bitwise seed data) ∧
    (∀ p q, Burst p q → ∀ header : Bytes, header.length = 8 →
      decodeFixed32 header = (crc32 p).toNat → decodeFixed32 (header.drop 4) = p.length →
      ∀ back hidden allowPartialEof, ∃ status next,
        WalReader.readRecord ⟨true, header ++ (q ++ back), hidden⟩ allowPartialEof =
          .stop status next ∧ status ≠ .ok) ∧
    (∀ p data handle, Burst p ((data.drop handle.offset).take handle.size) →
      decodeFixed32 (data.drop (handle.offset + handle.size)) = (crc32 p).toNat →
      ∀ fault fileSize, ∃ status, readBlockFrom data fault fileSize handle = .error status) := by
  refine ⟨fun p q h seed => h.crc32_ne seed, crc32Seeded_append, crc32Seeded_eq_bitwise, ?_, ?_⟩
  · intro p q h header hheader hcrc hlength back hidden allowPartialEof
    exact h.readRecord hheader hcrc hlength back hidden allowPartialEof
  · intro p data handle h hcrc fault fileSize
    exact h.readBlock hcrc fault fileSize

/-- Three of the last four bytes have changed, in a record and in a block. -/
theorem checksum_strength_sixBytes :
    crc32Seeded 7 [1, 2, 3, 4, 5, 6] ≠ crc32Seeded 7 [1, 2, 9, 4, 0, 9] ∧
    (∃ status next, WalReader.readRecord
        ⟨true, walHeader [1, 2, 3, 4, 5, 6] ++ ([1, 2, 9, 4, 0, 9] ++ [7]), 0⟩ true =
      .stop status next ∧ status ≠ .ok) ∧
    ∃ status, readBlockFrom ([1, 2, 9, 4, 0, 9] ++ encodeFixed32 (crc32 [1, 2, 3, 4, 5, 6]).toNat)
      none 10 ⟨0, 6⟩ = .error status := by
  have hburst : Burst [1, 2, 3, 4, 5, 6] [1, 2, 9, 4, 0, 9] := by
    refine ⟨rfl, by decide, 2, fun i hi => ?_⟩
    by_contra houtside
    have hcases : i = 0 ∨ i = 1 ∨ 6 ≤ i := by omega
    rcases hcases with rfl | rfl | hlong
    · exact hi rfl
    · exact hi rfl
    · apply hi
      rw [List.getElem?_eq_none hlong, List.getElem?_eq_none hlong]
  obtain ⟨hdiffers, _, _, hrecord, hblock⟩ := checksum_strength
  refine ⟨hdiffers _ _ hburst 7, ?_, ?_⟩
  · exact hrecord _ _ hburst (walHeader [1, 2, 3, 4, 5, 6]) rfl (by decide +kernel)
      (by decide +kernel) [7] 0 true
  · exact hblock [1, 2, 3, 4, 5, 6] ([1, 2, 9, 4, 0, 9] ++
      encodeFixed32 (crc32 [1, 2, 3, 4, 5, 6]).toNat) ⟨0, 6⟩
      (by simpa using hburst) (by decide +kernel) none 10

end Strata

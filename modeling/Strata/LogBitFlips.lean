import Mathlib.Data.List.GetD
import Strata.Wal

/-! A log with one bit turned over in a record that is not its last. The checksum
covers the payload only, so a flip in the length field makes the reader take other
bytes for the payload, and it may find the end of the file there. -/
namespace Strata

/-- Bit `k` of the bytes turned over, counted from the lowest bit of the first byte. -/
def flipBit (bytes : Bytes) (k : Nat) : Bytes :=
  bytes.set (k / 8) (bytes.getD (k / 8) 0 ^^^ (1 <<< UInt8.ofNat (k % 8)))

@[simp] theorem length_flipBit (bytes : Bytes) (k : Nat) : (flipBit bytes k).length = bytes.length :=
  List.length_set

theorem flip_ne (byte : UInt8) (k : Nat) : byte ^^^ (1 <<< UInt8.ofNat (k % 8)) ≠ byte := by
  have hmask : ∀ i < 8, (1 : UInt8) <<< UInt8.ofNat i ≠ 0 := by decide
  intro h
  have hback := congrArg (fun bits => byte ^^^ bits) h
  rw [UInt8.xor_self, ← UInt8.xor_assoc, UInt8.xor_self, UInt8.zero_xor] at hback
  exact hmask (k % 8) (Nat.mod_lt k (by decide)) hback

theorem flipBit_ne {bytes : Bytes} {k : Nat} (h : k / 8 < bytes.length) :
    flipBit bytes k ≠ bytes := by
  intro heq
  have hbyte := congrArg (fun list => list[k / 8]?) heq
  simp only [flipBit, List.getElem?_set_self h, List.getElem?_eq_getElem h,
    Option.some.injEq, List.getD_eq_getElem _ _ h] at hbyte
  exact flip_ne _ k hbyte

theorem flipBit_append_left {left right : Bytes} {k : Nat} (h : k / 8 < left.length) :
    flipBit (left ++ right) k = flipBit left k ++ right := by
  rw [flipBit, List.getD_append _ _ _ _ h, List.set_append_left _ _ h, flipBit]

theorem flipBit_append_right {left right : Bytes} {k : Nat} (h : left.length ≤ k / 8) :
    flipBit (left ++ right) k = left ++ flipBit right (k - 8 * left.length) := by
  have hindex : (k - 8 * left.length) / 8 = k / 8 - left.length := by omega
  have hbit : (k - 8 * left.length) % 8 = k % 8 := by omega
  rw [flipBit, List.getD_append_right _ _ _ _ h, List.set_append_right _ _ h, flipBit, hindex, hbit]

theorem crc32_flipBit_ne {bytes : Bytes} {k : Nat} (h : k / 8 < bytes.length) :
    crc32 (flipBit bytes k) ≠ crc32 bytes := by
  apply crc32_set_ne h
  rw [List.getD_eq_getElem _ _ h]
  exact flip_ne _ k

/-! What the reader makes of a header whose fields may be wrong. -/

section Payload

variable {rest : Bytes} {expected length : Nat}

theorem readPayload_mismatch (hin : length < rest.length)
    (hcrc : (crc32 (rest.take length)).toNat ≠ expected) :
    ∃ msg next, WalReader.readPayload ⟨true, rest, 0⟩ expected length true =
      .stop (.corruption msg) next := by
  have hwhole : ¬ (rest.take length).length < length := by
    rw [List.length_take]
    omega
  have hmore : ¬ (rest.drop length).length + 0 = 0 := by
    rw [List.length_drop]
    omega
  simp only [WalReader.readPayload, if_neg hwhole, if_pos hcrc, hmore, and_false, ↓reduceIte,
    not_false_eq_true]
  exact ⟨_, _, rfl⟩

theorem readPayload_end (hend : rest.length ≤ length)
    (hcrc : (crc32 (rest.take length)).toNat ≠ expected ∨ rest.length < length) :
    ∃ msg next, WalReader.readPayload ⟨true, rest, 0⟩ expected length true =
      .stop (.notFound msg) next := by
  unfold WalReader.readPayload
  simp only [List.length_take]
  by_cases hshort : rest.length < length
  · rw [if_pos (by omega), if_neg (by decide), if_pos trivial]
    exact ⟨_, _, rfl⟩
  · have heof : (rest.drop length).length + 0 = 0 := by
      rw [List.length_drop]
      omega
    rw [if_neg (by omega), if_pos (hcrc.resolve_right hshort), if_pos ⟨trivial, heof⟩]
    exact ⟨_, _, rfl⟩

theorem readPayload_match (hin : length ≤ rest.length)
    (hcrc : (crc32 (rest.take length)).toNat = expected) :
    WalReader.readPayload ⟨true, rest, 0⟩ expected length true =
      parsePayload (rest.take length) ⟨true, rest.drop length, 0⟩ := by
  have hwhole : ¬ (rest.take length).length < length := by
    rw [List.length_take]
    omega
  simp only [WalReader.readPayload, if_neg hwhole, hcrc, ne_eq, not_true_eq_false, ↓reduceIte]

end Payload

def Corrupt (bytes : Bytes) : Prop :=
  ∃ msg next, WalReader.readRecord ⟨true, bytes, 0⟩ true = .stop (.corruption msg) next

theorem readAll_corrupt_iff (bytes : Bytes) :
    (∃ msg, WalReader.readAll ⟨true, bytes, 0⟩ = ([], .status (.corruption msg))) ↔
      Corrupt bytes := by
  constructor
  · rintro ⟨msg, hread⟩
    cases hrecord : WalReader.readRecord ⟨true, bytes, 0⟩ true with
    | record e next =>
      rw [readAll_record hrecord] at hread
      cases hread
    | stop status next =>
      rw [readAll_stop hrecord] at hread
      cases hread
      exact ⟨msg, next, hrecord⟩
    | undefined =>
      rw [WalReader.readAll, WalReader.readLoop, hrecord] at hread
      cases hread
  · rintro ⟨msg, next, hrecord⟩
    exact ⟨msg, readAll_stop hrecord⟩

/-! The damaged record. -/

def damagedLength (e : Entry) (k : Nat) : Nat :=
  decodeFixed32 ((flipBit (walHeader (walPayload e)) k).drop 4)

def damagedLog (before : List Entry) (e : Entry) (after : List Entry) (k : Nat) : Bytes :=
  walFrames before ++ (flipBit (walFrame e) k ++ walFrames after)

/-- The records in front of the damaged one are returned unchanged, and then the
reader reports a corruption. -/
def FlipReported (before : List Entry) (e : Entry) (after : List Entry) (k : Nat) : Prop :=
  ∃ msg, WalReader.readAll ⟨true, damagedLog before e after k, 0⟩ =
    (before, .status (.corruption msg))

/-- The flip is not in the length field; or it makes the length smaller; or larger, and
the bytes taken for the payload end inside the file with a checksum that does not
match; or larger than the limit, and still inside the file. -/
def LengthHolds (e : Entry) (after : List Entry) (k : Nat) : Prop :=
  let rest := walPayload e ++ walFrames after
  (k < 32 ∨ 64 ≤ k) ∨ damagedLength e k < (walPayload e).length ∨
    (damagedLength e k ≤ kMaxRecordSize ∧ damagedLength e k < rest.length ∧
      crc32 (rest.take (damagedLength e k)) ≠ crc32 (walPayload e)) ∨
    (kMaxRecordSize < damagedLength e k ∧ damagedLength e k ≤ rest.length)

section Damage

variable {e : Entry} {after : List Entry} {k : Nat}

theorem walFrames_length_pos (h : after ≠ []) : 0 < (walFrames after).length := by
  cases after with
  | nil => exact absurd rfl h
  | cons first rest =>
    have hfirst := length_walFrame first
    simp only [walFrames, List.flatMap_cons, List.length_append]
    omega

theorem corrupt_payload_flip (hfits : e.Fits) (hafter : after ≠ []) (hlow : 64 ≤ k)
    (hhigh : k < 8 * (walFrame e).length) : Corrupt (flipBit (walFrame e) k ++ walFrames after) := by
  have hlen : (walPayload e).length < 2 ^ 32 := lt_of_le_of_lt hfits.2 (by decide)
  have hpos := walFrames_length_pos hafter
  rw [length_walFrame] at hhigh
  rw [walFrame, flipBit_append_right (by rw [length_walHeader]; omega), length_walHeader,
    List.append_assoc]
  generalize hflipped : flipBit (walPayload e) (k - 8 * 8) = flipped
  have hsame : flipped.length = (walPayload e).length := by
    rw [← hflipped, length_flipBit]
  have hcrc : crc32 flipped ≠ crc32 (walPayload e) := by
    rw [← hflipped]
    exact crc32_flipBit_ne (by omega)
  unfold Corrupt
  rw [readRecord_header _ _ _ _ hlen, if_neg (not_lt.mpr hfits.2)]
  apply readPayload_mismatch
  · rw [List.length_append]
    omega
  · rw [List.take_left' hsame]
    exact fun h => hcrc (UInt32.toNat_inj.mp h)

theorem flipBit_header_crc (hk : k < 32) : flipBit (walHeader (walPayload e)) k =
    flipBit (encodeFixed32 (crc32 (walPayload e)).toNat) k ++
      encodeFixed32 (walPayload e).length := by
  rw [walHeader, flipBit_append_left (by rw [length_encodeFixed32]; omega)]

theorem corrupt_crc_flip (hfits : e.Fits) (hafter : after ≠ []) (hk : k < 32) :
    Corrupt (flipBit (walFrame e) k ++ walFrames after) := by
  have hlen : (walPayload e).length < 2 ^ 32 := lt_of_le_of_lt hfits.2 (by decide)
  have hpos := walFrames_length_pos hafter
  have hheader : (flipBit (walHeader (walPayload e)) k).length = 8 := by simp
  have hlength : decodeFixed32 ((flipBit (walHeader (walPayload e)) k).drop 4) =
      (walPayload e).length := by
    rw [flipBit_header_crc hk, List.drop_left' (by simp), ← List.append_nil (encodeFixed32 _),
      decodeFixed32_of_lt hlen]
  have hcrc : decodeFixed32 (flipBit (walHeader (walPayload e)) k) ≠
      (crc32 (walPayload e)).toNat := by
    rw [← decodeFixed32_walHeader, flipBit_header_crc hk, walHeader]
    simp only [decodeFixed32, List.take_left' (length_encodeFixed32 _),
      List.take_left' (show (flipBit (encodeFixed32 _) k).length = 4 by simp)]
    have hne : flipBit (encodeFixed32 (crc32 (walPayload e)).toNat) k ≠
        encodeFixed32 (crc32 (walPayload e)).toNat :=
      flipBit_ne (by rw [length_encodeFixed32]; omega)
    exact fun h => hne (Library.LittleEndian.decode_inj (by simp) h)
  unfold Corrupt
  rw [walFrame, flipBit_append_left (by rw [length_walHeader]; omega), List.append_assoc,
    readRecord_fields hheader, hlength, if_neg (not_lt.mpr hfits.2)]
  apply readPayload_mismatch
  · rw [List.length_append]
    omega
  · rw [List.take_left]
    exact hcrc.symm

theorem flipBit_header_length (hlow : 32 ≤ k) : flipBit (walHeader (walPayload e)) k =
    encodeFixed32 (crc32 (walPayload e)).toNat ++
      flipBit (encodeFixed32 (walPayload e).length) (k - 32) := by
  rw [walHeader, flipBit_append_right (by rw [length_encodeFixed32]; omega), length_encodeFixed32]

theorem damagedLength_ne (hlen : (walPayload e).length < 2 ^ 32) (hlow : 32 ≤ k) (hhigh : k < 64) :
    damagedLength e k ≠ (walPayload e).length := by
  have hlength := decodeFixed32_of_lt hlen []
  rw [List.append_nil] at hlength
  rw [damagedLength, flipBit_header_length hlow, List.drop_left' (length_encodeFixed32 _)]
  conv_rhs => rw [← hlength]
  apply decodeFixed32_ne
  · simp
  · simp
  · exact flipBit_ne (by rw [length_encodeFixed32]; omega)

theorem readRecord_length_flip (after : List Entry) (hlow : 32 ≤ k) (hhigh : k < 64) :
    WalReader.readRecord ⟨true, flipBit (walFrame e) k ++ walFrames after, 0⟩ true =
      if damagedLength e k > kMaxRecordSize then
        if true ∧ damagedLength e k > (walPayload e ++ walFrames after).length + 0 then
          .stop (.notFound "Corrupt trailing record at EOF")
            ⟨true, walPayload e ++ walFrames after, 0⟩
        else .stop (.corruption "WAL record length exceeds maximum allowed size")
          ⟨true, walPayload e ++ walFrames after, 0⟩
      else
        WalReader.readPayload ⟨true, walPayload e ++ walFrames after, 0⟩
          (crc32 (walPayload e)).toNat (damagedLength e k) true := by
  have hcrc : decodeFixed32 (flipBit (walHeader (walPayload e)) k) =
      (crc32 (walPayload e)).toNat := by
    rw [flipBit_header_length hlow, decodeFixed32_of_lt (crc32 (walPayload e)).toNat_lt]
  rw [walFrame, flipBit_append_left (by rw [length_walHeader]; omega), List.append_assoc,
    readRecord_fields (by simp), hcrc, damagedLength]

theorem corrupt_length_iff (hfits : e.Fits) (hafter : after ≠ []) (hlow : 32 ≤ k)
    (hhigh : k < 64) :
    Corrupt (flipBit (walFrame e) k ++ walFrames after) ↔ LengthHolds e after k := by
  have hlen : (walPayload e).length < 2 ^ 32 := lt_of_le_of_lt hfits.2 (by decide)
  have hpos := walFrames_length_pos hafter
  have hne := damagedLength_ne hlen hlow hhigh
  have hrest : (walPayload e ++ walFrames after).length =
      (walPayload e).length + (walFrames after).length := List.length_append
  have houtside : ¬ (k < 32 ∨ 64 ≤ k) := by omega
  unfold Corrupt LengthHolds
  rw [readRecord_length_flip after hlow hhigh]
  generalize damagedLength e k = length at hne ⊢
  simp only [houtside, false_or]
  by_cases hlimit : length > kMaxRecordSize
  · have hlarge : ¬ length < (walPayload e).length := by
      have hfit := hfits.2
      omega
    rw [if_pos hlimit]
    by_cases hpast : length > (walPayload e ++ walFrames after).length + 0
    · rw [if_pos ⟨trivial, hpast⟩]
      constructor
      · rintro ⟨msg, next, h⟩
        cases h
      · omega
    · rw [if_neg fun h => hpast h.2]
      exact ⟨fun _ => Or.inr (Or.inr ⟨hlimit, by omega⟩), fun _ => ⟨_, _, rfl⟩⟩
  · rw [if_neg hlimit]
    rcases Nat.lt_or_ge length (walPayload e).length with hshorter | hlonger
    -- fewer bytes than the record: a wrong checksum, or fields that do not fit
    · refine ⟨fun _ => Or.inl hshorter, fun _ => ?_⟩
      by_cases hcrc : (crc32 ((walPayload e ++ walFrames after).take length)).toNat =
          (crc32 (walPayload e)).toNat
      · rw [readPayload_match (by omega) hcrc, List.take_append_of_le_length hshorter.le]
        obtain ⟨msg, hparse⟩ := parsePayload_take _ hlen hshorter
        exact ⟨msg, _, hparse⟩
      · exact readPayload_mismatch (by omega) hcrc
    -- more bytes: a matching checksum lets the record through with bytes it does not have
    · by_cases hcrc : (crc32 ((walPayload e ++ walFrames after).take length)).toNat =
          (crc32 (walPayload e)).toNat
      · constructor
        · rintro ⟨msg, next, h⟩
          rcases Nat.lt_or_ge (walPayload e ++ walFrames after).length length with hpast | hin
          · obtain ⟨msg', next', hstop⟩ := readPayload_end hpast.le (Or.inr hpast)
            rw [hstop] at h
            cases h
          · rw [readPayload_match hin hcrc, List.take_append, List.take_of_length_le hlonger,
              parsePayload_append e _ _ hfits.1 hlen] at h
            cases h
        · rintro (hless | ⟨_, _, hdiffer⟩ | ⟨hover, _⟩)
          · omega
          · exact absurd (UInt32.toNat_inj.mp hcrc) hdiffer
          · omega
      · rcases Nat.lt_or_ge length (walPayload e ++ walFrames after).length with hin | hend
        · refine ⟨fun _ => Or.inr (Or.inl ⟨not_lt.mp hlimit, hin, fun h => ?_⟩),
            fun _ => readPayload_mismatch hin hcrc⟩
          exact hcrc (by rw [h])
        · constructor
          · rintro ⟨msg, next, h⟩
            obtain ⟨msg', next', hstop⟩ := readPayload_end hend (Or.inl hcrc)
            rw [hstop] at h
            cases h
          · omega

end Damage

/-- A flipped bit in the middle of a log is reported exactly if it is outside the
length field or the length it makes does not lead the reader to the end of the file
or to bytes with the same checksum. -/
theorem flipReported_iff (before : List Entry) (e : Entry) (after : List Entry) (k : Nat)
    (hbefore : ∀ x ∈ before, x.Fits) (hfits : e.Fits) (hafter : after ≠ [])
    (hk : k < 8 * (walFrame e).length) :
    FlipReported before e after k ↔ LengthHolds e after k := by
  have hread : FlipReported before e after k ↔
      Corrupt (flipBit (walFrame e) k ++ walFrames after) := by
    rw [← readAll_corrupt_iff, FlipReported, damagedLog, readAll_frames before _ 0 hbefore]
    simp only [List.append_right_eq_self, Prod.ext_iff]
  rw [hread]
  by_cases hlow : k < 32
  · exact ⟨fun _ => Or.inl (Or.inl hlow), fun _ => corrupt_crc_flip hfits hafter hlow⟩
  · by_cases hhigh : 64 ≤ k
    · exact ⟨fun _ => Or.inl (Or.inr hhigh), fun _ => corrupt_payload_flip hfits hafter hhigh hk⟩
    · exact corrupt_length_iff hfits hafter (not_lt.mp hlow) (not_le.mp hhigh)

def smallPut (seq : Nat) : Entry := ⟨[97], seq, kTypeValue, [98]⟩

theorem smallPut_fits (seq : Nat) (h : seq < 2 ^ 64) : (smallPut seq).Fits := by
  refine ⟨h, ?_⟩
  rw [length_walPayload]
  simp [smallPut, kMaxRecordSize]

/-- A flip in the checksum of the first of two records is reported. -/
theorem flipReported_first_checksum : FlipReported [] (smallPut 1) [smallPut 2] 0 :=
  (flipReported_iff [] (smallPut 1) [smallPut 2] 0 (fun _ h => nomatch h)
    (smallPut_fits 1 (by decide)) (by decide) (by decide)).mpr (Or.inl (Or.inl (by decide)))

/-- The top bit of the first record's length: the reader takes the first of the two
records for one that was torn at the end of the file, and reports a clean end. -/
theorem length_flip_ends_log :
    ¬ ∀ (before : List Entry) (e : Entry) (after : List Entry) (k : Nat),
      (∀ x ∈ before, x.Fits) → e.Fits → (∀ x ∈ after, x.Fits) → after ≠ [] →
      k < 8 * (walFrame e).length → FlipReported before e after k := by
  intro h
  obtain ⟨msg, hreported⟩ := h [] (smallPut 1) [smallPut 2] 63 (fun _ hx => nomatch hx)
    (smallPut_fits 1 (by decide)) (fun x hx => by
      rw [List.mem_singleton.mp hx]; exact smallPut_fits 2 (by decide)) (by decide) (by decide)
  have hread : WalReader.readAll ⟨true, damagedLog [] (smallPut 1) [smallPut 2] 63, 0⟩ =
      ([], .status (.notFound "Corrupt trailing record at EOF")) := by decide +kernel
  rw [hread] at hreported
  cases hreported

end Strata

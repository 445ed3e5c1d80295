import Strata.Wal

/-! The bytes of a payload that `ReadRecord` reads. The checks on the two lengths
are 32-bit sums, and a length near `2 ^ 32` makes its sum wrap and pass. -/
namespace Strata

/-- The indices of the payload read while decoding: the type, the sequence number,
the length of the key, the key, the length of the value, the value. `substr` copies
no byte behind the end, `DecodeFixed32` reads four bytes wherever it is pointed.
Nothing follows a read outside the payload. -/
def payloadReads (payload : Bytes) : List Nat :=
  if payload.length < 1 + 8 + 4 + 4 then []
  else
    let klen := decodeFixed32 (payload.drop 9)
    List.range' 0 1 ++ (List.range' 1 8 ++ (List.range' 9 4 ++
      if payload.length < (1 + 8 + 4 + klen + 4) % 2 ^ 32 then []
      else List.range' 13 (min klen (payload.length - 13)) ++ (List.range' (13 + klen) 4 ++
        if payload.length < 13 + klen + 4 then []
        else
          let vlen := decodeFixed32 (payload.drop (13 + klen))
          if payload.length < (1 + 8 + 4 + klen + 4 + vlen) % 2 ^ 32 then []
          else List.range' (17 + klen) (min vlen (payload.length - (17 + klen))))))

def statedKeyLength (payload : Bytes) : Nat := decodeFixed32 (payload.drop 9)

def statedValueLength (payload : Bytes) : Nat :=
  decodeFixed32 (payload.drop (13 + statedKeyLength payload))

def LengthsFit (payload : Bytes) : Prop :=
  1 + 8 + 4 + 4 ≤ payload.length → 17 + statedKeyLength payload < 2 ^ 32 ∧
    (17 + statedKeyLength payload ≤ payload.length →
      17 + statedKeyLength payload + statedValueLength payload < 2 ^ 32)

theorem parsePayload_undefined_iff (payload : Bytes) (next : WalReader) :
    parsePayload payload next = .undefined ↔ ∃ i ∈ payloadReads payload, payload.length ≤ i := by
  unfold parsePayload payloadReads
  by_cases hshort : payload.length < 1 + 8 + 4 + 4
  · simp [hshort]
  simp only [hshort, ↓reduceIte]
  generalize decodeFixed32 (payload.drop 9) = klen
  by_cases hkey : payload.length < (1 + 8 + 4 + klen + 4) % 2 ^ 32
  · simp only [hkey, ↓reduceIte, List.append_nil, List.mem_append, List.mem_range'_1,
      reduceCtorEq, false_iff, not_exists, not_and]
    omega
  simp only [hkey, ↓reduceIte]
  by_cases hend : payload.length < 13 + klen + 4
  · simp only [hend, ↓reduceIte, List.append_nil, List.mem_append, List.mem_range'_1, true_iff]
    exact ⟨13 + klen + 3, by omega, by omega⟩
  simp only [hend, ↓reduceIte]
  by_cases hvalue : payload.length <
      (1 + 8 + 4 + klen + 4 + decodeFixed32 (payload.drop (13 + klen))) % 2 ^ 32
  · simp only [hvalue, ↓reduceIte, List.append_nil, List.mem_append, List.mem_range'_1,
      reduceCtorEq, false_iff, not_exists, not_and]
    omega
  · simp only [hvalue, ↓reduceIte, List.mem_append, List.mem_range'_1, reduceCtorEq, false_iff,
      not_exists, not_and]
    omega

theorem parsePayload_defined_iff {payload : Bytes} (hsize : payload.length ≤ kMaxRecordSize)
    (next : WalReader) : parsePayload payload next ≠ .undefined ↔
      (1 + 8 + 4 + 4 ≤ payload.length → 17 + statedKeyLength payload < 2 ^ 32) := by
  have hlt := decodeFixed32_lt (payload.drop 9)
  have hmax : kMaxRecordSize < 2 ^ 32 := by decide
  unfold parsePayload statedKeyLength
  by_cases hshort : payload.length < 1 + 8 + 4 + 4
  · simp only [hshort, ↓reduceIte]
    simp only [ne_eq, reduceCtorEq, not_false_eq_true, true_iff]
    omega
  simp only [hshort, ↓reduceIte]
  generalize decodeFixed32 (payload.drop 9) = klen at hlt
  by_cases hwrap : 17 + klen < 2 ^ 32
  · have hsum : (1 + 8 + 4 + klen + 4) % 2 ^ 32 = 17 + klen := by
      rw [Nat.mod_eq_of_lt (by omega)]
      omega
    rw [hsum]
    by_cases hkey : payload.length < 17 + klen
    · rw [if_pos hkey]
      exact ⟨fun _ _ => hwrap, fun _ => by simp⟩
    · rw [if_neg hkey, if_neg (by omega)]
      split
      · exact ⟨fun _ _ => hwrap, fun _ => by simp⟩
      · exact ⟨fun _ _ => hwrap, fun _ => by simp⟩
  · have hsum : (1 + 8 + 4 + klen + 4) % 2 ^ 32 ≤ 16 := by omega
    rw [if_neg (by omega), if_pos (by omega)]
    simp only [ne_eq, not_true_eq_false, false_iff]
    omega

theorem parsePayload_lengths {payload : Bytes} (hsize : payload.length ≤ kMaxRecordSize)
    {next last : WalReader} {e : Entry} (h : parsePayload payload next = .record e last) :
    1 + 8 + 4 + 4 ≤ payload.length ∧ 17 + statedKeyLength payload ≤ payload.length ∧
      e.userKey.length = statedKeyLength payload ∧
      (e.value.length = statedValueLength payload ↔
        17 + statedKeyLength payload + statedValueLength payload < 2 ^ 32) := by
  have hmax : kMaxRecordSize < 2 ^ 32 := by decide
  have hlt := decodeFixed32_lt (payload.drop (13 + statedKeyLength payload))
  unfold parsePayload at h
  simp only [statedValueLength] at hlt ⊢
  unfold statedKeyLength at hlt ⊢
  generalize decodeFixed32 (payload.drop 9) = klen at h hlt ⊢
  simp only at h
  split at h
  · cases h
  split at h
  · cases h
  split at h
  · cases h
  split at h
  · cases h
  rename_i hvalue
  cases h
  simp only [List.length_take, List.length_drop]
  generalize decodeFixed32 (payload.drop (13 + klen)) = vlen at hvalue hlt ⊢
  refine ⟨by omega, by omega, by omega, ?_⟩
  by_cases hwrap : 17 + klen + vlen < 2 ^ 32
  · have hsum : (1 + 8 + 4 + klen + 4 + vlen) % 2 ^ 32 = 17 + klen + vlen := by
      rw [Nat.mod_eq_of_lt (by omega)]
      omega
    rw [hsum] at hvalue
    omega
  · omega

theorem parsePayload_wrapped {payload : Bytes} (hsize : payload.length ≤ kMaxRecordSize)
    (hshort : 1 + 8 + 4 + 4 ≤ payload.length) (hkey : 17 + statedKeyLength payload ≤ payload.length)
    (hwrap : 2 ^ 32 ≤ 17 + statedKeyLength payload + statedValueLength payload)
    (next : WalReader) : ∃ e, parsePayload payload next = .record e next := by
  have hmax : kMaxRecordSize < 2 ^ 32 := by decide
  have hlt := decodeFixed32_lt (payload.drop (13 + statedKeyLength payload))
  unfold parsePayload
  simp only [statedValueLength] at hlt hwrap
  unfold statedKeyLength at hkey hlt hwrap
  generalize decodeFixed32 (payload.drop 9) = klen at hkey hlt hwrap ⊢
  simp only
  rw [if_neg (by omega), if_neg (by rw [Nat.mod_eq_of_lt (by omega)]; omega), if_neg (by omega),
    if_neg (by omega)]
  exact ⟨_, rfl⟩

/-! The calls of a reader. -/

def WalReader.decodedPayload (r : WalReader) : Option Bytes :=
  let header := r.rest.take 8
  let length := decodeFixed32 (header.drop 4)
  let payload := (r.rest.drop 8).take length
  if r.opened ∧ header.length = 8 ∧ length ≤ kMaxRecordSize ∧ payload.length = length ∧
      (crc32 payload).toNat = decodeFixed32 header then
    some payload
  else none

theorem decodedPayload_bounded {r : WalReader} {payload : Bytes}
    (h : r.decodedPayload = some payload) : payload.length ≤ kMaxRecordSize := by
  unfold WalReader.decodedPayload at h
  simp only at h
  split at h
  · rename_i hdecoded
    cases h
    exact hdecoded.2.2.2.1.trans_le hdecoded.2.2.1
  · cases h

theorem readPayload_cases (r : WalReader) (expectedCrc length : Nat) (allowPartialEof : Bool) :
    ((r.rest.take length).length = length ∧ (crc32 (r.rest.take length)).toNat = expectedCrc ∧
        r.readPayload expectedCrc length allowPartialEof =
          parsePayload (r.rest.take length) { r with rest := r.rest.drop length }) ∨
      (¬ ((r.rest.take length).length = length ∧
          (crc32 (r.rest.take length)).toNat = expectedCrc) ∧
        ∃ status next, r.readPayload expectedCrc length allowPartialEof = .stop status next) := by
  have hle : (r.rest.take length).length ≤ length := List.length_take_le _ _
  unfold WalReader.readPayload
  simp only
  split
  · rename_i hshort
    right
    refine ⟨fun h => by omega, ?_⟩
    split
    · exact ⟨_, _, rfl⟩
    · split
      · exact ⟨_, _, rfl⟩
      · exact ⟨_, _, rfl⟩
  · split
    · rename_i hcrc
      right
      refine ⟨fun h => hcrc h.2, ?_⟩
      split
      · exact ⟨_, _, rfl⟩
      · split
        · exact ⟨_, _, rfl⟩
        · exact ⟨_, _, rfl⟩
    · rename_i hcrc
      left
      exact ⟨by omega, not_not.mp hcrc, rfl⟩

theorem readRecord_decodedPayload (r : WalReader) (allowPartialEof : Bool) :
    (∃ payload next, r.decodedPayload = some payload ∧
        r.readRecord allowPartialEof = parsePayload payload next) ∨
      (r.decodedPayload = none ∧
        ∃ status next, r.readRecord allowPartialEof = .stop status next) := by
  by_cases hopen : r.opened = true
  · by_cases hheader : (r.rest.take 8).length = 8
    · have hreader : r = ⟨true, r.rest.take 8 ++ r.rest.drop 8, r.hidden⟩ := by
        rw [List.take_append_drop, ← hopen]
      have hread := readRecord_fields hheader (r.rest.drop 8) r.hidden allowPartialEof
      rw [← hreader] at hread
      rw [hread]
      by_cases hlimit : decodeFixed32 ((r.rest.take 8).drop 4) ≤ kMaxRecordSize
      · rw [if_neg (not_lt.mpr hlimit)]
        rcases readPayload_cases ⟨true, r.rest.drop 8, r.hidden⟩ (decodeFixed32 (r.rest.take 8))
          (decodeFixed32 ((r.rest.take 8).drop 4)) allowPartialEof with
          ⟨hwhole, hcrc, hparse⟩ | ⟨hbad, hstop⟩
        · left
          exact ⟨_, _, if_pos ⟨hopen, hheader, hlimit, hwhole, hcrc⟩, hparse⟩
        · right
          exact ⟨if_neg fun h => hbad h.2.2.2, hstop⟩
      · right
        rw [if_pos (not_le.mp hlimit)]
        refine ⟨if_neg fun h => hlimit h.2.2.1, ?_⟩
        split
        · exact ⟨_, _, rfl⟩
        · exact ⟨_, _, rfl⟩
    · right
      refine ⟨if_neg fun h => hheader h.2.1, ?_⟩
      have hshort : (r.rest.take 8).length < 8 :=
        lt_of_le_of_ne (List.length_take_le _ _) hheader
      unfold WalReader.readRecord
      simp only [hopen, hshort, Bool.not_true, Bool.false_eq_true, ↓reduceIte]
      split
      · exact ⟨_, _, rfl⟩
      · split
        · exact ⟨_, _, rfl⟩
        · split
          · exact ⟨_, _, rfl⟩
          · exact ⟨_, _, rfl⟩
  · right
    refine ⟨if_neg fun h => hopen h.1, ?_⟩
    unfold WalReader.readRecord
    simp only [hopen, Bool.not_false, ↓reduceIte]
    exact ⟨_, _, rfl⟩

/-- The call reads no byte outside its payload, and a record it returns has the
key and value lengths that the payload states. -/
structure WalReader.ReadsInside (r : WalReader) (allowPartialEof : Bool) : Prop where
  reads : ∀ payload, r.decodedPayload = some payload →
    ∀ i ∈ payloadReads payload, i < payload.length
  lengths : ∀ payload e next, r.decodedPayload = some payload →
    r.readRecord allowPartialEof = .record e next →
      e.userKey.length = statedKeyLength payload ∧ e.value.length = statedValueLength payload

theorem WalReader.readsInside_iff (r : WalReader) (allowPartialEof : Bool) :
    r.ReadsInside allowPartialEof ↔ ∀ payload, r.decodedPayload = some payload →
      LengthsFit payload := by
  rcases readRecord_decodedPayload r allowPartialEof with
    ⟨payload, next, hdecoded, hread⟩ | ⟨hnone, status, next, hread⟩
  · have hsize := decodedPayload_bounded hdecoded
    have hinside : (∀ i ∈ payloadReads payload, i < payload.length) ↔
        (1 + 8 + 4 + 4 ≤ payload.length → 17 + statedKeyLength payload < 2 ^ 32) := by
      rw [← parsePayload_defined_iff hsize next, ne_eq, parsePayload_undefined_iff]
      push Not
      rfl
    constructor
    · intro h other hother
      rw [hdecoded, Option.some.injEq] at hother
      subst hother
      intro hshort
      refine ⟨hinside.mp (h.reads payload hdecoded) hshort, fun hkey => ?_⟩
      -- a wrapped sum would have let through a record with a shorter value
      by_contra hwrap
      obtain ⟨e, hrecord⟩ := parsePayload_wrapped hsize hshort hkey (not_lt.mp hwrap) next
      have hlengths := h.lengths payload e next hdecoded (hread.trans hrecord)
      exact hwrap ((parsePayload_lengths hsize hrecord).2.2.2.mp hlengths.2)
    · intro h
      have hfit := h payload hdecoded
      constructor
      · intro other hother
        rw [hdecoded, Option.some.injEq] at hother
        subst hother
        exact hinside.mpr fun hshort => (hfit hshort).1
      · intro other e last hother hrecord
        rw [hdecoded, Option.some.injEq] at hother
        subst hother
        obtain ⟨hshort, hkey, hklen, hvlen⟩ := parsePayload_lengths hsize (hread.symm.trans hrecord)
        exact ⟨hklen, hvlen.mpr ((hfit hshort).2 hkey)⟩
  · constructor
    · intro _ payload hdecoded
      rw [hnone] at hdecoded
      cases hdecoded
    · intro _
      constructor
      · intro payload hdecoded
        rw [hnone] at hdecoded
        cases hdecoded
      · intro payload e last hdecoded
        rw [hnone] at hdecoded
        cases hdecoded

def ReadResult.reader : ReadResult → Option WalReader
  | .record _ next => some next
  | .stop _ next => some next
  | .undefined => none

def WalReader.calls : List Bool → WalReader → List (WalReader × Bool)
  | [], _ => []
  | allowPartialEof :: rest, r =>
    (r, allowPartialEof) :: ((r.readRecord allowPartialEof).reader.map (calls rest)).getD []

/-- A sequence of calls stays inside the payloads and returns keys and values of the
stated lengths exactly if no payload that it decodes has a length whose sum wraps. -/
theorem calls_readInside_iff (r : WalReader) (flags : List Bool) :
    (∀ call ∈ r.calls flags, call.1.ReadsInside call.2) ↔
      ∀ call ∈ r.calls flags, ∀ payload, call.1.decodedPayload = some payload →
        LengthsFit payload := by
  constructor
  · intro h call hcall
    exact (call.1.readsInside_iff call.2).mp (h call hcall)
  · intro h call hcall
    exact (call.1.readsInside_iff call.2).mpr (h call hcall)

def hugeKeyPayload : Bytes := 1 :: (encodeFixed64 1 ++ (encodeFixed32 (2 ^ 32 - 1) ++ [0, 0, 0, 0]))

/-- The sum of 17 and the key length is 16, which passes the check, and the value
length is read more than four gigabytes behind the payload. -/
theorem huge_key_read_outside :
    ¬ ∀ (file : Bytes) (flags : List Bool),
      ∀ call ∈ (WalReader.new (some file) none).calls flags, call.1.ReadsInside call.2 := by
  intro h
  have hdecoded : (WalReader.new (some (walHeader hugeKeyPayload ++ hugeKeyPayload))
      none).decodedPayload = some hugeKeyPayload := by decide +kernel
  have hinside := (WalReader.readsInside_iff _ _).mp
    (h (walHeader hugeKeyPayload ++ hugeKeyPayload) [true] _ (List.mem_cons_self ..))
    hugeKeyPayload hdecoded
  exact absurd (hinside (by decide)).1 (by decide)

end Strata

import Strata.Crc32

/-! The write-ahead log. A record is an eight-byte header, the checksum and the
length of the payload, followed by the payload. There is no resynchronisation:
the reader finds a record only where the previous one ended. -/
namespace Strata

open Library System

/-- `[type: 1B] [seq: 8B] [klen: 4B] [key] [vlen: 4B] [val]` -/
def walPayload (e : Entry) : Bytes :=
  e.type :: (encodeFixed64 e.seq ++ (encodeFixed32 e.userKey.length ++ (e.userKey ++
    (encodeFixed32 e.value.length ++ e.value))))

def walHeader (payload : Bytes) : Bytes :=
  encodeFixed32 (crc32 payload).toNat ++ encodeFixed32 payload.length

/-- The bytes a successful `AppendRecord` adds to the file. -/
def walFrame (e : Entry) : Bytes := walHeader (walPayload e) ++ walPayload e

/-- `fd_ >= 0` is all the writer's methods test of their descriptor. -/
structure WalWriter where
  filename : FileName
  opened : Bool
  deriving DecidableEq, Repr

def WalWriter.new (filename : FileName) : Prog WalWriter := do
  let opened ← Sys.openAppend filename
  pure ⟨filename, opened⟩

def WalWriter.sync (w : WalWriter) : Prog Status := do
  if !w.opened then
    return .ioError "WAL file is not open"
  if ← Sys.sync w.filename then
    return .ok
  return .ioError "fdatasync failed"

def WalWriter.appendRecord (w : WalWriter) (e : Entry) (sync : Bool) : Prog Status := do
  if !w.opened then
    return .ioError "WAL file is not open"
  let payload := walPayload e
  if (← Sys.append w.filename (walHeader payload)).isSome then
    return .ioError "WAL write failed"
  if (← Sys.append w.filename payload).isSome then
    return .ioError "WAL write failed"
  if sync then
    return ← w.sync
  return .ok

/-- An open file with its unread bytes. `hidden` counts the bytes of the file
from the first one that cannot be read, so a true end of file has none. -/
structure WalReader where
  opened : Bool
  rest : Bytes
  hidden : Nat
  deriving DecidableEq, Repr

def WalReader.new (file : Option Bytes) (fault : Option Nat) : WalReader :=
  match file, fault with
  | none, _ => ⟨false, [], 0⟩
  | some bytes, none => ⟨true, bytes, 0⟩
  | some bytes, some n => ⟨true, bytes.take n, bytes.length - n⟩

/-- `undefined` marks a read outside the payload. -/
inductive ReadResult where
  | record (e : Entry) (next : WalReader)
  | stop (status : Status) (next : WalReader)
  | undefined
  deriving DecidableEq, Repr

/-- The payload's fields. The two bounds are 32-bit sums in the source, so they
can wrap: the first wrap lets the value length be read past the payload. -/
def parsePayload (payload : Bytes) (next : WalReader) : ReadResult :=
  if payload.length < 1 + 8 + 4 + 4 then
    .stop (.corruption "WAL payload too small for fields") next
  else
    let klen := decodeFixed32 (payload.drop 9)
    if payload.length < (1 + 8 + 4 + klen + 4) % 2 ^ 32 then
      .stop (.corruption "WAL payload truncated before key/val_len") next
    else if payload.length < 13 + klen + 4 then
      .undefined
    else
      let vlen := decodeFixed32 (payload.drop (13 + klen))
      if payload.length < (1 + 8 + 4 + klen + 4 + vlen) % 2 ^ 32 then
        .stop (.corruption "WAL payload truncated before value") next
      else
        .record ⟨(payload.drop 13).take klen, decodeFixed64 (payload.drop 1),
          payload.headD 0, (payload.drop (17 + klen)).take vlen⟩ next

def WalReader.readPayload (r : WalReader) (expectedCrc length : Nat)
    (allowPartialEof : Bool) : ReadResult :=
  let payload := r.rest.take length
  let next := { r with rest := r.rest.drop length }
  if payload.length < length then
    if r.hidden ≠ 0 then .stop (.ioError "WAL read failed") next
    else if allowPartialEof then .stop (.notFound "Partial payload at EOF") next
    else .stop (.corruption "Truncated WAL payload at EOF") next
  else if (crc32 payload).toNat ≠ expectedCrc then
    let atEof := next.rest.length + next.hidden = 0
    if allowPartialEof ∧ atEof then .stop (.notFound "Corrupt trailing record at EOF") next
    else if ¬ atEof then .stop (.corruption "WAL CRC mismatch in middle of log file") next
    else .stop (.corruption "WAL CRC mismatch") next
  else
    parsePayload payload next

def WalReader.readRecord (r : WalReader) (allowPartialEof : Bool) : ReadResult :=
  if !r.opened then
    .stop (.ioError "WAL file is not open") r
  else
    let header := r.rest.take 8
    let next := { r with rest := r.rest.drop 8 }
    if header.length < 8 then
      if r.hidden ≠ 0 then .stop (.ioError "WAL read failed") next
      else if header = [] then .stop (.notFound "EOF") next
      else if allowPartialEof then .stop (.notFound "Partial record at EOF") next
      else .stop (.corruption "Truncated WAL header at EOF") next
    else
      let expectedCrc := decodeFixed32 header
      let length := decodeFixed32 (header.drop 4)
      if length > kMaxRecordSize then
        let atOrPastEof := length > next.rest.length + next.hidden
        if allowPartialEof ∧ atOrPastEof then
          .stop (.notFound "Corrupt trailing record at EOF") next
        else .stop (.corruption "WAL record length exceeds maximum allowed size") next
      else
        next.readPayload expectedCrc length allowPartialEof

/-- How a loop of `ReadRecord` calls ends. -/
inductive ReadEnd where
  | status (status : Status)
  | undefined
  deriving DecidableEq, Repr

/-- `while (reader.ReadRecord(...).ok())`: the records, and what ended it. -/
def WalReader.readLoop : Nat → WalReader → List Entry × ReadEnd
  | 0, _ => ([], .undefined)
  | fuel + 1, r =>
    match r.readRecord true with
    | .record e next =>
      let (entries, ending) := next.readLoop fuel
      (e :: entries, ending)
    | .stop status _ => ([], .status status)
    | .undefined => ([], .undefined)

def WalReader.readAll (r : WalReader) : List Entry × ReadEnd := r.readLoop (r.rest.length + 1)

theorem length_walPayload (e : Entry) :
    (walPayload e).length = 17 + e.userKey.length + e.value.length := by
  simp only [walPayload, List.length_cons, List.length_append, length_encodeFixed64,
    length_encodeFixed32]
  omega

@[simp] theorem length_walHeader (payload : Bytes) : (walHeader payload).length = 8 := by
  simp [walHeader]

theorem length_walFrame (e : Entry) : (walFrame e).length = 8 + (walPayload e).length := by
  simp [walFrame]

/-! The fields of a payload, wherever it lies. -/

theorem walPayload_keyLength {e : Entry} (hlen : (walPayload e).length < 2 ^ 32) (extra : Bytes) :
    decodeFixed32 ((walPayload e ++ extra).drop 9) = e.userKey.length := by
  have hsize := length_walPayload e
  have hdrop : (walPayload e).drop 9 = encodeFixed32 e.userKey.length ++ (e.userKey ++
      (encodeFixed32 e.value.length ++ e.value)) := by
    rw [walPayload, List.drop_succ_cons]
    exact List.drop_left' (length_encodeFixed64 _)
  rw [List.drop_append_of_le_length (by omega), hdrop, List.append_assoc,
    decodeFixed32_of_lt (by omega)]

theorem drop_walPayload_key (e : Entry) (extra : Bytes) : (walPayload e ++ extra).drop 13 =
    e.userKey ++ (encodeFixed32 e.value.length ++ (e.value ++ extra)) := by
  have hdrop : (walPayload e).drop 13 =
      e.userKey ++ (encodeFixed32 e.value.length ++ e.value) := by
    rw [walPayload, List.drop_succ_cons, ← List.append_assoc]
    exact List.drop_left' (by simp)
  have hsize := length_walPayload e
  rw [List.drop_append_of_le_length (by omega), hdrop]
  simp only [List.append_assoc]

theorem drop_walPayload_valueLength (e : Entry) (extra : Bytes) :
    (walPayload e ++ extra).drop (13 + e.userKey.length) =
      encodeFixed32 e.value.length ++ (e.value ++ extra) := by
  rw [← List.drop_drop, drop_walPayload_key, List.drop_left]

theorem drop_walPayload_value (e : Entry) (extra : Bytes) :
    (walPayload e ++ extra).drop (17 + e.userKey.length) = e.value ++ extra := by
  have hsplit : 17 + e.userKey.length = 13 + e.userKey.length + 4 := by omega
  rw [hsplit, ← List.drop_drop, drop_walPayload_valueLength]
  exact List.drop_left' (length_encodeFixed32 _)

theorem parsePayload_append (e : Entry) (extra : Bytes) (next : WalReader) (hseq : e.seq < 2 ^ 64)
    (hlen : (walPayload e).length < 2 ^ 32) :
    parsePayload (walPayload e ++ extra) next = .record e next := by
  have hsize := length_walPayload e
  have htotal : (walPayload e ++ extra).length =
      17 + e.userKey.length + e.value.length + extra.length := by
    rw [List.length_append, hsize]
  have hseqField : decodeFixed64 ((walPayload e ++ extra).drop 1) = e.seq := by
    rw [walPayload, List.cons_append, List.drop_one, List.tail_cons, List.append_assoc,
      decodeFixed64_of_lt hseq]
  unfold parsePayload
  rw [if_neg (by omega)]
  simp only [walPayload_keyLength hlen]
  rw [if_neg (by rw [Nat.mod_eq_of_lt (by omega)]; omega), if_neg (by omega),
    drop_walPayload_valueLength, decodeFixed32_of_lt (by omega),
    if_neg (by rw [Nat.mod_eq_of_lt (by omega)]; omega), drop_walPayload_key,
    drop_walPayload_value, hseqField, List.take_left, List.take_left]
  simp [walPayload]

theorem parsePayload_walPayload (e : Entry) (next : WalReader) (hseq : e.seq < 2 ^ 64)
    (hlen : (walPayload e).length < 2 ^ 32) :
    parsePayload (walPayload e) next = .record e next := by
  simpa using parsePayload_append e [] next hseq hlen

theorem parsePayload_take {e : Entry} {count : Nat} (next : WalReader)
    (hlen : (walPayload e).length < 2 ^ 32) (hshort : count < (walPayload e).length) :
    ∃ msg, parsePayload ((walPayload e).take count) next = .stop (.corruption msg) next := by
  have hsize := length_walPayload e
  have hcount : ((walPayload e).take count).length = count := by
    rw [List.length_take]
    omega
  have hklen := walPayload_keyLength hlen []
  have hvlen := drop_walPayload_valueLength e []
  rw [List.append_nil] at hklen hvlen
  unfold parsePayload
  rw [hcount]
  by_cases hfields : count < 1 + 8 + 4 + 4
  · exact ⟨_, if_pos hfields⟩
  rw [if_neg hfields, decodeFixed32_take (by omega), hklen]
  simp only
  rw [Nat.mod_eq_of_lt (show 1 + 8 + 4 + e.userKey.length + 4 < 2 ^ 32 by omega)]
  by_cases hkey : count < 1 + 8 + 4 + e.userKey.length + 4
  · exact ⟨_, if_pos hkey⟩
  rw [if_neg hkey, if_neg (by omega), decodeFixed32_take (by omega), hvlen,
    decodeFixed32_of_lt (by omega), Nat.mod_eq_of_lt (by omega), if_pos (by omega)]
  exact ⟨_, rfl⟩

theorem parsePayload_record {payload : Bytes} {next last : WalReader} {e : Entry}
    (h : parsePayload payload next = .record e last) :
    last = next ∧ e.userKey.length ≤ payload.length ∧ e.value.length ≤ payload.length := by
  unfold parsePayload at h
  simp only at h
  split at h
  · cases h
  · split at h
    · cases h
    · split at h
      · cases h
      · split at h
        · cases h
        · cases h
          simp only [List.length_take, List.length_drop, true_and]
          omega

theorem readRecord_fields {header : Bytes} (hheader : header.length = 8) (tail : Bytes)
    (hidden : Nat) (allowPartialEof : Bool) :
    WalReader.readRecord ⟨true, header ++ tail, hidden⟩ allowPartialEof =
      if decodeFixed32 (header.drop 4) > kMaxRecordSize then
        if allowPartialEof ∧ decodeFixed32 (header.drop 4) > tail.length + hidden then
          .stop (.notFound "Corrupt trailing record at EOF") ⟨true, tail, hidden⟩
        else .stop (.corruption "WAL record length exceeds maximum allowed size")
          ⟨true, tail, hidden⟩
      else
        WalReader.readPayload ⟨true, tail, hidden⟩ (decodeFixed32 header)
          (decodeFixed32 (header.drop 4)) allowPartialEof := by
  have htake : (header ++ tail).take 8 = header := List.take_left' hheader
  have hdrop : (header ++ tail).drop 8 = tail := List.drop_left' hheader
  unfold WalReader.readRecord
  simp only [Bool.not_true, Bool.false_eq_true, ↓reduceIte, htake, hdrop, hheader, Nat.lt_irrefl]

theorem decodeFixed32_walHeader (payload : Bytes) :
    decodeFixed32 (walHeader payload) = (crc32 payload).toNat := by
  rw [walHeader, decodeFixed32_of_lt (crc32 payload).toNat_lt]

theorem decodeFixed32_walHeader_drop {payload : Bytes} (hlen : payload.length < 2 ^ 32) :
    decodeFixed32 ((walHeader payload).drop 4) = payload.length := by
  have hfield : (walHeader payload).drop 4 = encodeFixed32 payload.length ++ [] := by
    rw [walHeader, List.append_nil]
    exact List.drop_left' (length_encodeFixed32 _)
  rw [hfield, decodeFixed32_of_lt hlen]

theorem readRecord_header (payload tail : Bytes) (hidden : Nat) (allowPartialEof : Bool)
    (hlen : payload.length < 2 ^ 32) :
    WalReader.readRecord ⟨true, walHeader payload ++ tail, hidden⟩ allowPartialEof =
      if payload.length > kMaxRecordSize then
        if allowPartialEof ∧ payload.length > tail.length + hidden then
          .stop (.notFound "Corrupt trailing record at EOF") ⟨true, tail, hidden⟩
        else .stop (.corruption "WAL record length exceeds maximum allowed size")
          ⟨true, tail, hidden⟩
      else
        WalReader.readPayload ⟨true, tail, hidden⟩ (crc32 payload).toNat payload.length
          allowPartialEof := by
  rw [readRecord_fields (length_walHeader payload), decodeFixed32_walHeader,
    decodeFixed32_walHeader_drop hlen]

theorem readRecord_frame (e : Entry) (rest : Bytes) (hidden : Nat) (allowPartialEof : Bool)
    (hseq : e.seq < 2 ^ 64) (hfit : (walPayload e).length ≤ kMaxRecordSize) :
    WalReader.readRecord ⟨true, walFrame e ++ rest, hidden⟩ allowPartialEof =
      .record e ⟨true, rest, hidden⟩ := by
  have hlen : (walPayload e).length < 2 ^ 32 := lt_of_le_of_lt hfit (by decide)
  rw [walFrame, List.append_assoc, readRecord_header _ _ _ _ hlen, if_neg (by omega)]
  unfold WalReader.readPayload
  simp only [List.take_left, List.drop_left, Nat.lt_irrefl, ↓reduceIte, ne_eq, not_true_eq_false]
  exact parsePayload_walPayload e _ hseq hlen

/-- A record cut short at the end of the file reads as the end of the log, with a
message of its own unless nothing of it is there. -/
theorem readRecord_torn (e : Entry) (torn : Bytes) (hpart : torn <+: walFrame e)
    (hshort : torn.length < (walFrame e).length)
    (hlen : (walPayload e).length < 2 ^ 32) :
    ∃ msg next, WalReader.readRecord ⟨true, torn, 0⟩ true = .stop (.notFound msg) next ∧
      (torn ≠ [] → msg ≠ "EOF") := by
  obtain ⟨missing, hmissing⟩ := hpart
  by_cases hheader : torn.length < 8
  · unfold WalReader.readRecord
    have htake : torn.take 8 = torn := List.take_of_length_le (by omega)
    simp only [Bool.not_true, Bool.false_eq_true, ↓reduceIte, htake, hheader, ne_eq,
      not_true_eq_false]
    split
    · rename_i hempty
      exact ⟨_, _, rfl, fun hne => absurd hempty hne⟩
    · exact ⟨_, _, rfl, fun _ => by decide⟩
  · have htorn : torn = walHeader (walPayload e) ++ torn.drop 8 := by
      have htake : torn.take 8 = walHeader (walPayload e) := by
        have h := congrArg (List.take 8) hmissing
        rw [List.take_append_of_le_length (by omega), walFrame,
          List.take_left' (length_walHeader _)] at h
        exact h
      rw [← htake, List.take_append_drop]
    have hrest : (torn.drop 8).length < (walPayload e).length := by
      rw [length_walFrame] at hshort
      rw [List.length_drop]
      omega
    rw [htorn, readRecord_header _ _ _ _ hlen]
    split
    · rw [if_pos ⟨rfl, by omega⟩]
      exact ⟨_, _, rfl, fun _ => by decide⟩
    · unfold WalReader.readPayload
      simp only [List.length_take]
      rw [if_pos (by omega)]
      exact ⟨_, _, rfl, fun _ => by decide⟩

theorem readRecord_payload {r next : WalReader} {allowPartialEof : Bool} {e : Entry}
    (h : r.readRecord allowPartialEof = .record e next) :
    8 ≤ r.rest.length ∧ ∃ length ≤ kMaxRecordSize, next.rest = (r.rest.drop 8).drop length ∧
      parsePayload ((r.rest.drop 8).take length) next = .record e next := by
  unfold WalReader.readRecord at h
  split at h
  · cases h
  · simp only at h
    split at h
    · split at h
      · cases h
      · split at h
        · cases h
        · split at h <;> cases h
    · rename_i hheader
      rw [List.length_take] at hheader
      split at h
      · split at h <;> cases h
      · rename_i hlimit
        unfold WalReader.readPayload at h
        simp only at h
        split at h
        · split at h
          · cases h
          · split at h <;> cases h
        · split at h
          · split at h
            · cases h
            · split at h <;> cases h
          · have hnext := (parsePayload_record h).1
            subst hnext
            exact ⟨by omega, _, not_lt.mp hlimit, rfl, h⟩

theorem readRecord_consumes {r next : WalReader} {allowPartialEof : Bool} {e : Entry}
    (h : r.readRecord allowPartialEof = .record e next) :
    next.rest.length < r.rest.length := by
  obtain ⟨hheader, length, _, hrest, _⟩ := readRecord_payload h
  rw [hrest, List.length_drop, List.length_drop]
  omega

theorem readRecord_bounded {r next : WalReader} {allowPartialEof : Bool} {e : Entry}
    (h : r.readRecord allowPartialEof = .record e next) :
    e.userKey.length ≤ kMaxRecordSize ∧ e.value.length ≤ kMaxRecordSize := by
  obtain ⟨_, length, hlimit, _, hparse⟩ := readRecord_payload h
  obtain ⟨_, hkey, hvalue⟩ := parsePayload_record hparse
  rw [List.length_take] at hkey hvalue
  omega

/-- A record is read back as it was written exactly if its payload is within the
limit. A longer payload is rejected, or its length field has wrapped. -/
theorem readRecord_frame_iff (e : Entry) (rest : Bytes) (hidden : Nat) (allowPartialEof : Bool)
    (hseq : e.seq < 2 ^ 64) :
    (∃ next, WalReader.readRecord ⟨true, walFrame e ++ rest, hidden⟩ allowPartialEof =
      .record e next) ↔ (walPayload e).length ≤ kMaxRecordSize := by
  refine ⟨fun ⟨next, hread⟩ => ?_, fun hfit => ⟨_, readRecord_frame e rest hidden _ hseq hfit⟩⟩
  by_contra hlarge
  have hsize := length_walPayload e
  rcases Nat.lt_or_ge (walPayload e).length (2 ^ 32) with hlen | hwrapped
  · rw [walFrame, List.append_assoc, readRecord_header _ _ _ _ hlen, if_pos (by omega)] at hread
    split at hread <;> cases hread
  · have hbounded := readRecord_bounded hread
    simp only [kMaxRecordSize] at hbounded
    omega

theorem readLoop_fuel (r : WalReader) {fuel : Nat} (h : r.rest.length < fuel) :
    r.readLoop fuel = r.readAll := by
  have general : ∀ (a b : Nat) (r : WalReader), r.rest.length < a → r.rest.length < b →
      r.readLoop a = r.readLoop b := by
    intro a
    induction a with
    | zero => intro b r ha; omega
    | succ a ih =>
      intro b r ha hb
      cases b with
      | zero => omega
      | succ b =>
        simp only [WalReader.readLoop]
        cases hread : r.readRecord true with
        | record e next =>
          have hless := readRecord_consumes hread
          simp only [ih b next (by omega) (by omega)]
        | stop status next => rfl
        | undefined => rfl
  exact general _ _ r h (Nat.lt_succ_self _)

theorem readAll_record {r next : WalReader} {e : Entry} (h : r.readRecord true = .record e next) :
    r.readAll = (e :: next.readAll.1, next.readAll.2) := by
  have hless := readRecord_consumes h
  rw [WalReader.readAll, WalReader.readLoop, h]
  simp only [readLoop_fuel next hless]

theorem readAll_stop {r next : WalReader} {status : Status}
    (h : r.readRecord true = .stop status next) : r.readAll = ([], .status status) := by
  rw [WalReader.readAll, WalReader.readLoop, h]

def TornTail (bytes : Bytes) : Prop :=
  ∃ status, WalReader.readAll ⟨true, bytes, 0⟩ = ([], .status status)

theorem tornTail_short {bytes : Bytes} (h : bytes.length ≤ 8) : TornTail bytes := by
  have hread : ∃ status next, WalReader.readRecord ⟨true, bytes, 0⟩ true = .stop status next := by
    have hdrop : bytes.drop 8 = [] := List.drop_of_length_le h
    unfold WalReader.readRecord
    simp only [Bool.not_true, Bool.false_eq_true, ↓reduceIte, hdrop]
    split
    · split
      · exact ⟨_, _, rfl⟩
      · split
        · exact ⟨_, _, rfl⟩
        · exact ⟨_, _, rfl⟩
    · split
      · split
        · exact ⟨_, _, rfl⟩
        · exact ⟨_, _, rfl⟩
      · unfold WalReader.readPayload
        simp only [List.take_nil, List.drop_nil]
        split
        · exact ⟨_, _, rfl⟩
        · split
          · split
            · exact ⟨_, _, rfl⟩
            · split
              · exact ⟨_, _, rfl⟩
              · exact ⟨_, _, rfl⟩
          · exact ⟨_, _, rfl⟩
  obtain ⟨status, next, hstop⟩ := hread
  exact ⟨status, readAll_stop hstop⟩

theorem tornTail_zeros (later : Bytes) : TornTail (List.replicate 8 0 ++ later) := by
  have hread : WalReader.readRecord ⟨true, List.replicate 8 0 ++ later, 0⟩ true =
      .stop (.corruption "WAL payload too small for fields") ⟨true, later, 0⟩ := by
    have hheader : (List.replicate 8 (0 : UInt8) ++ later).take 8 = List.replicate 8 0 :=
      List.take_left' rfl
    have hrest : (List.replicate 8 (0 : UInt8) ++ later).drop 8 = later := List.drop_left' rfl
    have hcrc : decodeFixed32 (List.replicate 8 0) = (crc32 []).toNat := by decide
    have hlength : decodeFixed32 ((List.replicate 8 0).drop 4) = 0 := by decide
    unfold WalReader.readRecord
    simp only [hheader, hrest, hlength, hcrc]
    rw [if_neg (by decide), if_neg (by decide), if_neg (by decide)]
    simp [WalReader.readPayload, parsePayload]
  exact ⟨_, readAll_stop hread⟩

theorem tornTail_part {e : Entry} {torn : Bytes} (hpart : torn <+: walFrame e)
    (hshort : torn.length < (walFrame e).length) (hlen : (walPayload e).length < 2 ^ 32) :
    TornTail torn := by
  obtain ⟨msg, next, hstop, _⟩ := readRecord_torn e torn hpart hshort hlen
  exact ⟨_, readAll_stop hstop⟩

theorem eq_nil_of_ending {e : Entry} {torn : Bytes} (hpart : torn <+: walFrame e)
    (hshort : torn.length < (walFrame e).length) (hlen : (walPayload e).length < 2 ^ 32)
    (hend : (WalReader.readAll ⟨true, torn, 0⟩).2 = .status (.notFound "EOF")) : torn = [] := by
  obtain ⟨msg, next, hstop, hmsg⟩ := readRecord_torn e torn hpart hshort hlen
  rw [readAll_stop hstop] at hend
  by_contra hne
  apply hmsg hne
  cases hend
  rfl

def Entry.Fits (e : Entry) : Prop := e.seq < 2 ^ 64 ∧ (walPayload e).length ≤ kMaxRecordSize

def walFrames (es : List Entry) : Bytes := es.flatMap walFrame

@[simp] theorem walFrames_nil : walFrames [] = [] := rfl

theorem walFrames_append (left right : List Entry) :
    walFrames (left ++ right) = walFrames left ++ walFrames right := List.flatMap_append

theorem walFrames_singleton (e : Entry) : walFrames [e] = walFrame e := by
  simp [walFrames]

theorem readAll_frames (es : List Entry) (tail : Bytes) (hidden : Nat)
    (hfits : ∀ e ∈ es, e.Fits) :
    WalReader.readAll ⟨true, walFrames es ++ tail, hidden⟩ =
      (es ++ (WalReader.readAll ⟨true, tail, hidden⟩).1,
        (WalReader.readAll ⟨true, tail, hidden⟩).2) := by
  induction es with
  | nil => rfl
  | cons e es ih =>
    obtain ⟨hseq, hfit⟩ := hfits e (by simp)
    have hsplit : walFrames (e :: es) ++ tail = walFrame e ++ (walFrames es ++ tail) := by
      simp [walFrames]
    rw [hsplit, readAll_record (readRecord_frame e _ hidden true hseq hfit),
      ih fun x hx => hfits x (by simp [hx])]
    rfl

theorem readAll_torn {es : List Entry} {torn : Bytes} (hfits : ∀ e ∈ es, e.Fits)
    (htorn : TornTail torn) : ∃ status,
      WalReader.readAll ⟨true, walFrames es ++ torn, 0⟩ = (es, .status status) := by
  obtain ⟨status, hend⟩ := htorn
  refine ⟨status, ?_⟩
  rw [readAll_frames es torn 0 hfits, hend, List.append_nil]

/-! Bytes behind a log. -/

theorem parsePayload_other {payload : Bytes} {next last : WalReader} {e : Entry}
    (h : parsePayload payload next = .record e last) (other : WalReader) :
    parsePayload payload other = .record e other := by
  unfold parsePayload at h ⊢
  simp only at h ⊢
  split at h
  · cases h
  · rename_i hfields
    split at h
    · cases h
    · rename_i hkey
      split at h
      · cases h
      · rename_i hinside
        split at h
        · cases h
        · rename_i hvalue
          cases h
          rw [if_neg hfields, if_neg hkey, if_neg hinside, if_neg hvalue]

theorem readRecord_more {bytes : Bytes} {e : Entry} {next : WalReader}
    (h : WalReader.readRecord ⟨true, bytes, 0⟩ true = .record e next) (more : Bytes) :
    ∃ rest, next = ⟨true, rest, 0⟩ ∧
      WalReader.readRecord ⟨true, bytes ++ more, 0⟩ true = .record e ⟨true, rest ++ more, 0⟩ := by
  have hlength := (readRecord_payload h).1
  have hheader : (bytes.take 8).length = 8 := by
    rw [List.length_take]
    exact Nat.min_eq_left hlength
  rw [← List.take_append_drop 8 bytes] at h ⊢
  rw [readRecord_fields hheader] at h
  rw [List.append_assoc, readRecord_fields hheader]
  generalize bytes.drop 8 = tail at h ⊢
  generalize decodeFixed32 ((bytes.take 8).drop 4) = length at h ⊢
  split at h
  · split at h <;> cases h
  · rename_i hlimit
    rw [if_neg hlimit]
    unfold WalReader.readPayload at h ⊢
    simp only at h ⊢
    split at h
    · split at h
      · cases h
      · split at h <;> cases h
    · rename_i hwhole
      have hin : length ≤ tail.length := by
        rw [List.length_take] at hwhole
        omega
      rw [List.take_append_of_le_length hin, List.drop_append_of_le_length hin, if_neg hwhole]
      split at h
      · split at h
        · cases h
        · split at h <;> cases h
      · rename_i hcrc
        rw [if_neg hcrc]
        exact ⟨_, (parsePayload_record h).1, parsePayload_other h _⟩

def WalReader.unreadLoop : Nat → WalReader → Bytes
  | 0, r => r.rest
  | fuel + 1, r =>
    match r.readRecord true with
    | .record _ next => next.unreadLoop fuel
    | _ => r.rest

def unread (bytes : Bytes) : Bytes := WalReader.unreadLoop (bytes.length + 1) ⟨true, bytes, 0⟩

/-- What is read with more bytes behind a log: its records, and what is found from where
the reading stopped. -/
theorem readAll_more (bytes more : Bytes) : (WalReader.readAll ⟨true, bytes ++ more, 0⟩).1 =
    (WalReader.readAll ⟨true, bytes, 0⟩).1 ++
      (WalReader.readAll ⟨true, unread bytes ++ more, 0⟩).1 := by
  have general : ∀ (fuel : Nat) (bytes : Bytes), bytes.length < fuel →
      (WalReader.readAll ⟨true, bytes ++ more, 0⟩).1 = (WalReader.readAll ⟨true, bytes, 0⟩).1 ++
        (WalReader.readAll ⟨true, WalReader.unreadLoop fuel ⟨true, bytes, 0⟩ ++ more, 0⟩).1 := by
    intro fuel
    induction fuel with
    | zero => intro bytes h; omega
    | succ fuel ih =>
      intro bytes h
      rw [WalReader.unreadLoop]
      cases hread : WalReader.readRecord ⟨true, bytes, 0⟩ true with
      | record e next =>
        obtain ⟨rest, rfl, hmore⟩ := readRecord_more hread more
        have hless : rest.length < bytes.length := readRecord_consumes hread
        rw [readAll_record hread, readAll_record hmore]
        simp only [List.cons_append]
        rw [ih rest (by omega)]
      | stop status next =>
        rw [readAll_stop hread]
        rfl
      | undefined =>
        have hnone : (WalReader.readAll ⟨true, bytes, 0⟩).1 = [] := by
          rw [WalReader.readAll, WalReader.readLoop, hread]
        rw [hnone]
        rfl
  exact general _ bytes (Nat.lt_succ_self _)

theorem unreadLoop_eq {fuel fuel' : Nat} {bytes : Bytes} (h : bytes.length < fuel)
    (h' : bytes.length < fuel') : WalReader.unreadLoop fuel ⟨true, bytes, 0⟩ =
      WalReader.unreadLoop fuel' ⟨true, bytes, 0⟩ := by
  induction fuel generalizing fuel' bytes with
  | zero => omega
  | succ fuel ih =>
    obtain ⟨fuel', rfl⟩ := Nat.exists_eq_succ_of_ne_zero (by omega : fuel' ≠ 0)
    rw [WalReader.unreadLoop, WalReader.unreadLoop]
    cases hread : WalReader.readRecord ⟨true, bytes, 0⟩ true with
    | record e next =>
      obtain ⟨rest, rfl, _⟩ := readRecord_more hread []
      have hless : rest.length < bytes.length := readRecord_consumes hread
      exact ih (by omega) (by omega)
    | stop status next => rfl
    | undefined => rfl

theorem unread_record {bytes rest : Bytes} {e : Entry}
    (h : WalReader.readRecord ⟨true, bytes, 0⟩ true = .record e ⟨true, rest, 0⟩) :
    unread bytes = unread rest := by
  have hless : rest.length < bytes.length := readRecord_consumes h
  rw [unread, WalReader.unreadLoop, h]
  exact unreadLoop_eq hless (Nat.lt_succ_self _)

theorem unread_append {log : Bytes} (hend : unread log = []) (more : Bytes) :
    unread (log ++ more) = unread more := by
  have general : ∀ (fuel : Nat) (log : Bytes), log.length < fuel → unread log = [] →
      unread (log ++ more) = unread more := by
    intro fuel
    induction fuel with
    | zero => intro log h; omega
    | succ fuel ih =>
      intro log h hend
      cases hread : WalReader.readRecord ⟨true, log, 0⟩ true with
      | record e next =>
        obtain ⟨rest, rfl, hmore⟩ := readRecord_more hread more
        have hless : rest.length < log.length := readRecord_consumes hread
        rw [unread_record hread] at hend
        rw [unread_record hmore, ih rest (by omega) hend]
      | stop status next =>
        rw [unread, WalReader.unreadLoop, hread] at hend
        rw [show log = [] from hend, List.nil_append]
      | undefined =>
        rw [unread, WalReader.unreadLoop, hread] at hend
        rw [show log = [] from hend, List.nil_append]
  exact general _ log (Nat.lt_succ_self _) hend

theorem unread_walFrame {e : Entry} (h : e.Fits) : unread (walFrame e) = [] := by
  have hread := readRecord_frame e [] 0 true h.1 h.2
  rw [List.append_nil] at hread
  rw [unread_record hread]
  rfl

end Strata

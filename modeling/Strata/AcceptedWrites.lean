import Strata.Level0
import Strata.TableLookup
import Strata.WalTruncation

/-! An accepted write on its way back: out of the log, and out of the table its
memtable becomes. The writers take sizes that the readers reject. -/
namespace Strata

open Library System

variable {dir : Dir}

/-- A state that calls without an error lead to: the memtable and the open log
have the same records. -/
structure DBImpl.Writable (db : DBImpl) (dir : Dir) (records : List Entry) : Prop where
  memtable : db.mem < db.heap.length
  active : db.active = records.foldl Memtable.add .new
  entries : ∀ e ∈ records, e.seq ≤ db.versions.lastSequence ∧ e.HasType
  log : db.walWriter.opened = true → dir.lookup db.walWriter.filename = some (walFrames records)

/-- The records in front of the next one in its log, which is a new one if
`MakeRoomForWrite` switches the memtable. -/
def DBImpl.inFront (db : DBImpl) (records : List Entry) : List Entry :=
  if db.active.approximateMemoryUsage < db.options.writeBufferSize then records else []

theorem mem_of_inFront {db : DBImpl} {records : List Entry} {e : Entry}
    (h : e ∈ db.inFront records) : e ∈ records := by
  unfold DBImpl.inFront at h
  split at h
  · exact h
  · cases h

theorem appendRecord_accepts (w : WalWriter) (e : Entry) (sync : Bool) {records : List Entry}
    (hfile : w.opened = true → dir.lookup w.filename = some (walFrames records)) :
    Runs Assume.any dir (w.appendRecord e sync)
      (fun status after => status = .ok →
        after.lookup w.filename = some (walFrames (records ++ [e]))) fun _ => True := by
  cases hopened : w.opened with
  | false =>
    unfold WalWriter.appendRecord
    rw [if_pos (by simp [hopened])]
    exact Runs.ret fun h => nomatch h
  | true =>
    refine Runs.weaken (appendRecord_adds w e sync dir _ (hfile hopened)) ?_ fun _ h => h
    rintro status after ⟨left, _, hlook, hwhole⟩ hok
    rw [hlook, hwhole hok, walFrames_append, walFrames_singleton]

theorem switchMemtable_writable (db : DBImpl)
    (hunused : dir.lookup (.log db.versions.nextFileNumber) = none) :
    Runs Assume.any dir db.switchMemtable
      (fun db' after => db'.Writable after [] ∧ db'.options = db.options ∧
        db'.versions.lastSequence = db.versions.lastSequence) fun _ => True := by
  unfold DBImpl.switchMemtable
  simp only [VersionSet.newFileNumber]
  refine Runs.bind (M := fun writer after => writer.opened = true →
    after.lookup writer.filename = some []) ?_ fun writer after hlog => ?_
  · unfold WalWriter.new
    refine Runs.bind (Runs.call (Q := fun opened after => opened = true →
      after.lookup (.log db.versions.nextFileNumber) = some [])
      (fun _ _ => by simp [lookup_touch_self, hunused]) (fun _ _ h => by cases h)
      fun _ _ => trivial) ?_
    exact fun opened after hopened => Runs.ret hopened
  · refine Runs.ret ⟨⟨by simp, ?_, by simp, hlog⟩, rfl, rfl⟩
    simp [DBImpl.active, DBImpl.memtable]

theorem makeRoomForWrite_writable {db : DBImpl} {records : List Entry}
    (h : db.Writable dir records)
    (hunused : dir.lookup (.log db.versions.nextFileNumber) = none) :
    Runs Assume.any dir db.makeRoomForWrite
      (fun result after => ∀ db', result = some db' → db'.Writable after (db.inFront records) ∧
        db'.options = db.options ∧ db'.versions.lastSequence = db.versions.lastSequence)
      fun _ => True := by
  unfold DBImpl.makeRoomForWrite DBImpl.inFront
  split
  · exact Runs.ret fun db' hsame => by cases hsame; exact ⟨h, rfl, rfl⟩
  · split
    · exact Runs.ret fun db' hnone => nomatch hnone
    · refine Runs.bind (switchMemtable_writable db hunused) fun db' after hswitched => ?_
      exact Runs.ret fun db'' hsame => by cases hsame; exact hswitched

theorem write_accepts {db : DBImpl} {records : List Entry} (h : db.Writable dir records)
    (hunused : dir.lookup (.log db.versions.nextFileNumber) = none)
    (type : ValueType) (key : Key) (value : Bytes) :
    Runs Assume.any dir (db.write type key value)
      (fun result after => ∀ db', result = some (.ok, db') → db'.options = db.options ∧
        db'.active = ((db.inFront records).foldl Memtable.add .new).add
          ⟨key, db.versions.lastSequence + 1, type, value⟩ ∧
        after.lookup db'.walWriter.filename = some (walFrames
          (db.inFront records ++ [⟨key, db.versions.lastSequence + 1, type, value⟩])))
      fun _ => True := by
  unfold DBImpl.write
  refine Runs.bind (makeRoomForWrite_writable h hunused) fun room after hroom => ?_
  cases room with
  | none => exact Runs.ret fun db' hnone => nomatch hnone
  | some db' =>
    obtain ⟨⟨hmem, hactive, _, hlog⟩, hoptions, hlast⟩ := hroom db' rfl
    simp only
    refine Runs.bind (appendRecord_accepts _ _ _ hlog) fun status last hstatus => ?_
    split
    · rename_i hfailed
      refine Runs.ret fun db'' hsame => ?_
      cases hsame
      cases hfailed
    · rename_i hok
      refine Runs.ret fun db'' hsame => ?_
      cases hsame
      have hstatusOk : status = .ok := by
        by_contra hne
        exact hok (by simp [Status.isOk_eq_false.mpr hne])
      rw [hlast] at hstatus
      refine ⟨hoptions, ?_, hstatus hstatusOk⟩
      rw [← hactive, hlast]
      simp [DBImpl.active, DBImpl.memtable, hmem]

theorem find?_of_newest {es : List Entry} (hsorted : Memtable.Sorted es) {e : Entry} (he : e ∈ es)
    (hnewest : ∀ x ∈ es, x.userKey = e.userKey → x = e ∨ x.seq < e.seq) :
    es.find? (fun x => x.userKey = e.userKey) = some e := by
  cases hfind : es.find? fun x => x.userKey = e.userKey with
  | none =>
    have hnot := List.find?_eq_none.mp hfind e he
    simp at hnot
  | some x =>
    obtain ⟨hkey, before, after, rfl, hbefore⟩ := List.find?_eq_some_iff_append.mp hfind
    rw [decide_eq_true_iff] at hkey
    rcases hnewest x (by simp) hkey with rfl | hlt
    · rfl
    · rcases List.mem_append.mp he with he | he
      · have hnot := hbefore e he
        simp at hnot
      · rcases List.mem_cons.mp he with rfl | he
        · rfl
        -- an entry behind the first one is not newer
        · have horder := (List.pairwise_cons.mp (List.pairwise_append.mp hsorted).2.1).1 e he
          exact absurd (Or.inr ⟨hkey.symm, hlt⟩) horder

structure Layout.Reaches (l : Layout) (key : Key) : Prop where
  index : l.index.length ≤ kMaxBlockSize
  filter : l.filter.length ≤ kMaxBlockSize
  block : ∀ b, l.blocks.find? (fun b => key ≤ lastKey b.2) = some b → b.1.length ≤ kMaxBlockSize

theorem openWritten_found_iff {options : Options} {es : List Entry} (hsorted : Memtable.Sorted es)
    (hseqs : ∀ e ∈ es, e.seq < 2 ^ 64) (htypes : ∀ e ∈ es, e.HasType)
    (hsmall : (layoutOf options es).image.length < 2 ^ 64) {e : Entry}
    (hfind : es.find? (fun x => x.userKey = e.userKey) = some e) (htype : e.type = kTypeValue)
    (number : Nat) :
    (∃ r, openWritten options es none number = .ok r ∧
        ∀ seq, (∀ x ∈ es, x.seq ≤ seq) → r.get e.userKey seq = .found e.value) ↔
      (layoutOf options es).Reaches e.userKey := by
  have hanswer : lookupOf (some e) = .found e.value := by
    rw [lookupOf, if_pos htype]
  constructor
  · rintro ⟨r, hopen, hget⟩
    obtain ⟨hindex, hfilter⟩ := Layout.openTable_limits hsmall hopen
    have hopens := layoutOf_opens hsorted hseqs hfilter hindex hsmall
    rw [openWritten, Layout.openTable_image hopens, Except.ok.injEq] at hopen
    subst hopen
    refine ⟨hindex, hfilter, fun b hb => ?_⟩
    have hfound := hget (2 ^ 64) fun x hx => (hseqs x hx).le
    by_contra hlarge
    rw [Layout.get_reader hopens htypes, hb] at hfound
    split at hfound
    · cases hfound
    · simp only [if_neg hlarge] at hfound
      cases hfound
  · intro h
    have hopens := layoutOf_opens hsorted hseqs h.filter h.index hsmall
    refine ⟨_, Layout.openTable_image hopens number, fun seq hseq => ?_⟩
    have hvisible := Layout.get_visible hopens htypes number (Or.inl rfl)
      (fun x hx _ => hseq x hx) h.block
    rw [hfind, hanswer] at hvisible
    exact hvisible

def DBImpl.putEntry (db : DBImpl) (key : Key) (value : Bytes) : Entry :=
  ⟨key, db.versions.lastSequence + 1, kTypeValue, value⟩

theorem DBImpl.Writable.logged_lt {db : DBImpl} {records : List Entry} (h : db.Writable dir records)
    (hseq : db.versions.lastSequence + 1 < 2 ^ 64) (key : Key) (value : Bytes) :
    ∀ x ∈ db.inFront records ++ [db.putEntry key value], x.seq < 2 ^ 64 := by
  intro x hx
  rcases List.mem_append.mp hx with hx | hx
  · have := (h.entries x (mem_of_inFront hx)).1
    omega
  · rw [List.mem_singleton.mp hx]
    exact hseq

/-- With any further records behind it the log is read from its start: the calls of
`ReadRecord` return the records in front and then this one. -/
def ReadsFromLog (log : Bytes) (front : List Entry) (e : Entry) : Prop :=
  ∀ (more : List Entry) (allowPartialEof : Bool),
    (WalReader.readRecords allowPartialEof (front.length + 1)
      (WalReader.new (some (log ++ walFrames more)) none)).1 = front ++ [e]

def ReadsFromTable (table : Except Status FileMetaData) (es : List Entry) (key : Key)
    (value : Bytes) : Prop :=
  ∃ file r, table = .ok file ∧ file.reader = some r ∧
    ∀ seq, (∀ e ∈ es, e.seq ≤ seq) → r.get key seq = .found value

theorem mem_added {records later : List Entry} {e x : Entry} :
    x ∈ (later.foldl Memtable.add ((records.foldl Memtable.add .new).add e)).entries ↔
      x ∈ later ∨ x = e ∨ x ∈ records := by
  rw [(Memtable.perm_foldl_add _ later).mem_iff, List.mem_append,
    (Memtable.perm_add _ e).mem_iff, List.mem_cons, (Memtable.perm_foldl_add _ records).mem_iff]
  simp [Memtable.new]

theorem sorted_added (records later : List Entry) (e : Entry) :
    Memtable.Sorted (later.foldl Memtable.add ((records.foldl Memtable.add .new).add e)).entries :=
  have hnew : Memtable.Sorted Memtable.new.entries := List.Pairwise.nil
  Memtable.sorted_foldl_add (Memtable.sorted_insert
    (Memtable.sorted_foldl_add hnew records) e) later

theorem readsFromLog_iff {front : List Entry} {e : Entry}
    (hseqs : ∀ x ∈ front ++ [e], x.seq < 2 ^ 64) :
    ReadsFromLog (walFrames (front ++ [e])) front e ↔
      ∀ x ∈ front ++ [e], (walPayload x).length ≤ kMaxRecordSize := by
  have hcalls : front.length + 1 = (front ++ [e]).length := by simp
  unfold ReadsFromLog
  rw [hcalls]
  exact ⟨fun h => (readRecords_frames_iff hseqs _ true).mp (h [] true), fun hfit _ allowPartialEof =>
    (readRecords_frames_iff hseqs _ allowPartialEof).mpr hfit⟩

theorem readsFromTable_iff {options : Options} {versions versions' : VersionSet} {m : Memtable}
    {flush flushed : Machine FileName} {table : Except Status FileMetaData}
    {trace : List (Event FileName)}
    (hflush : writeLevel0Table options versions m flush = .done (table, versions') flushed trace)
    (hcalls : ∀ e ∈ trace, e.outcome = .ok)
    (hreads : flush.faults (.table versions.nextFileNumber) = none) {key : Key} {value : Bytes} :
    ReadsFromTable table m.entries key value ↔
      ∃ r, openWritten options m.entries none versions.nextFileNumber = .ok r ∧
        ∀ seq, (∀ e ∈ m.entries, e.seq ≤ seq) → r.get key seq = .found value := by
  obtain ⟨_, _, _, _, _, faults, hfaults, htable⟩ :=
    (writeLevel0Table_ok (C := fun _ => True) (Assume.calm_noFail flush.faults) options versions m
      trivial fun _ => trivial).done rfl hflush hcalls
  change faults = flush.faults at hfaults
  rw [hfaults, hreads] at htable
  simp only at htable
  rw [htable]
  constructor
  · rintro ⟨file, r, hfile, hreader, hget⟩
    cases hopen : openWritten options m.entries none versions.nextFileNumber with
    | error status =>
      rw [hopen] at hfile
      cases hfile
    | ok r' =>
      rw [hopen] at hfile
      cases hfile
      cases hreader
      exact ⟨_, rfl, hget⟩
  · rintro ⟨r, hopen, hget⟩
    exact ⟨_, r, by rw [hopen]; rfl, rfl, hget⟩

/-- `Put` returned OK. The record comes back from the log, and the value comes
back through the table that the memtable becomes after any later writes to other
keys, exactly if the payloads of the record and of those in front of it and the
parts of the table that the lookup reads are within 64 MiB. -/
theorem accepted_put_reads_back_iff (db db' : DBImpl) (key : Key) (value : Bytes)
    (start after : Machine FileName) (trace : List (Event FileName)) (records : List Entry)
    (hdb : db.Writable start.dir records)
    (hunused : start.dir.lookup (.log db.versions.nextFileNumber) = none)
    (hseq : db.versions.lastSequence + 1 < 2 ^ 64)
    (hput : db.put key value start = .done (some (.ok, db')) after trace)
    (later : List Entry) (hlater : ∀ e ∈ later, e.userKey ≠ key ∧ e.seq < 2 ^ 64 ∧ e.HasType)
    (versions versions' : VersionSet) (flush flushed : Machine FileName)
    (table : Except Status FileMetaData) (flushTrace : List (Event FileName))
    (hflush : writeLevel0Table db'.options versions (later.foldl Memtable.add db'.active) flush =
      .done (table, versions') flushed flushTrace)
    (hcalls : ∀ e ∈ flushTrace, e.outcome = .ok)
    (hreads : flush.faults (.table versions.nextFileNumber) = none)
    (hsmall : (layoutOf db'.options (later.foldl Memtable.add db'.active).entries).image.length <
      2 ^ 64) :
    ∃ log, after.dir.lookup db'.walWriter.filename = some log ∧
      (ReadsFromLog log (db.inFront records) (db.putEntry key value) ∧
          ReadsFromTable table (later.foldl Memtable.add db'.active).entries key value ↔
        (∀ e ∈ db.inFront records ++ [db.putEntry key value],
            (walPayload e).length ≤ kMaxRecordSize) ∧
          (layoutOf db'.options (later.foldl Memtable.add db'.active).entries).Reaches key) := by
  obtain ⟨_, hactive, hlog⟩ :=
    (write_accepts hdb hunused kTypeValue key value).done_any hput db' rfl
  change db'.active = ((db.inFront records).foldl Memtable.add .new).add (db.putEntry key value)
    at hactive
  have hrecords : ∀ x ∈ db.inFront records, x.seq ≤ db.versions.lastSequence ∧ x.HasType :=
    fun x hx => hdb.entries x (mem_of_inFront hx)
  have hlogged := hdb.logged_lt hseq key value
  refine ⟨_, hlog, and_congr (readsFromLog_iff hlogged) ?_⟩
  rw [hactive] at hflush hsmall ⊢
  set es := (later.foldl Memtable.add
    (((db.inFront records).foldl Memtable.add .new).add (db.putEntry key value))).entries with hes
  have hmem : ∀ x, x ∈ es ↔ x ∈ later ∨ x = db.putEntry key value ∨ x ∈ db.inFront records :=
    fun x => mem_added
  have hsorted : Memtable.Sorted es := sorted_added _ later _
  have hseqs : ∀ x ∈ es, x.seq < 2 ^ 64 := by
    intro x hx
    rcases (hmem x).mp hx with hx | hx | hx
    · exact (hlater x hx).2.1
    · exact hlogged x (by simp [hx])
    · exact hlogged x (by simp [hx])
  have htypes : ∀ x ∈ es, x.HasType := by
    intro x hx
    rcases (hmem x).mp hx with hx | rfl | hx
    · exact (hlater x hx).2.2
    · exact Or.inl rfl
    · exact (hrecords x hx).2
  have hnewest := find?_of_newest hsorted ((hmem (db.putEntry key value)).mpr (Or.inr (Or.inl rfl)))
    (by
      intro x hx hkey
      rcases (hmem x).mp hx with hx | rfl | hx
      · exact absurd hkey (hlater x hx).1
      · exact Or.inl rfl
      · exact Or.inr (Nat.lt_succ_of_le (hrecords x hx).1))
  have hfound := openWritten_found_iff hsorted hseqs htypes hsmall hnewest rfl
    versions.nextFileNumber
  exact (readsFromTable_iff hflush hcalls hreads).trans hfound

def filledDB (records : List Entry) : DBImpl :=
  ⟨{}, { VersionSet.new with nextFileNumber := 4, lastSequence := records.length },
    [records.foldl Memtable.add .new], 0, none, ⟨.log 3, true⟩, 3⟩

def filledLog (records : List Entry) : Machine FileName :=
  ⟨(∅ : Dir).insert (.log 3) (walFrames records), fun _ => none, []⟩

def putAndDeleted : List Entry := [⟨[98], 1, kTypeValue, [50]⟩, ⟨[98], 2, kTypeDeletion, []⟩]

theorem filledDB_writable {records : List Entry}
    (h : ∀ e ∈ records, e.seq ≤ records.length ∧ e.HasType) :
    (filledDB records).Writable (filledLog records).dir records :=
  ⟨Nat.one_pos, rfl, h, fun _ => AList.lookup_insert _⟩

theorem filledDB_put (records : List Entry) (key : Key) (value : Bytes)
    (hroom : (records.foldl Memtable.add .new).approximateMemoryUsage <
      (filledDB records).options.writeBufferSize) :
    ∃ db' after trace, (filledDB records).put key value (filledLog records) =
        .done (some (.ok, db')) after trace ∧ (∀ e ∈ trace, e.outcome = .ok) ∧
      db'.options = {} ∧ db'.active =
        (records.foldl Memtable.add .new).add ((filledDB records).putEntry key value) := by
  unfold DBImpl.put DBImpl.write DBImpl.makeRoomForWrite
  rw [if_pos (show (filledDB records).active.approximateMemoryUsage < _ from hroom)]
  refine ⟨_, _, _, rfl, ?_, rfl, rfl⟩
  simp

theorem accepted_put_reads_back_iff_thirdWrite :
    ∃ db' after trace, (filledDB putAndDeleted).put [97] [49] (filledLog putAndDeleted) =
        .done (some (.ok, db')) after trace ∧
      ∃ table versions' flushed flushTrace, writeLevel0Table db'.options .new
          (db'.active.add ⟨[99], 4, kTypeValue, [51]⟩) emptyMachine =
            .done (table, versions') flushed flushTrace ∧
        ∃ log, after.dir.lookup db'.walWriter.filename = some log ∧
          (ReadsFromLog log putAndDeleted ⟨[97], 3, kTypeValue, [49]⟩ ∧
              ReadsFromTable table (db'.active.add ⟨[99], 4, kTypeValue, [51]⟩).entries [97] [49] ↔
            (∀ e ∈ putAndDeleted ++ [⟨[97], 3, kTypeValue, [49]⟩],
                (walPayload e).length ≤ kMaxRecordSize) ∧
              (layoutOf db'.options (db'.active.add ⟨[99], 4, kTypeValue, [51]⟩).entries).Reaches
                [97]) := by
  obtain ⟨db', after, trace, hput, _, hoptions, hactive⟩ :=
    filledDB_put putAndDeleted [97] [49] (by decide +kernel)
  have hcalls : ∀ e ∈ (writeLevel0Table {} .new
      (((putAndDeleted.foldl Memtable.add .new).add
        ((filledDB putAndDeleted).putEntry [97] [49])).add ⟨[99], 4, kTypeValue, [51]⟩)
      emptyMachine).trace, e.outcome = .ok := by
    decide +kernel
  have hsmall : (layoutOf {} (((putAndDeleted.foldl Memtable.add .new).add
      ((filledDB putAndDeleted).putEntry [97] [49])).add
        ⟨[99], 4, kTypeValue, [51]⟩).entries).image.length < 2 ^ 64 := by
    decide +kernel
  rw [← hoptions, ← hactive] at hcalls hsmall
  obtain ⟨⟨table, versions'⟩, flushed, flushTrace, hflush, _⟩ :=
    (writeLevel0Table_ok (C := fun _ => True) Assume.flawless_noFail db'.options .new
      (db'.active.add ⟨[99], 4, kTypeValue, [51]⟩) trivial fun _ => trivial).succeeds hcalls
  rw [hflush] at hcalls
  exact ⟨db', after, trace, hput, table, versions', flushed, flushTrace, hflush,
    accepted_put_reads_back_iff (filledDB putAndDeleted) db' [97] [49] (filledLog putAndDeleted)
      after trace putAndDeleted (filledDB_writable (by simp [putAndDeleted, Entry.HasType]))
      (by decide +kernel) (by decide) hput [⟨[99], 4, kTypeValue, [51]⟩]
      (by simp [Entry.HasType]) .new versions' emptyMachine flushed table flushTrace hflush
      hcalls rfl hsmall⟩

theorem accepted_put_lost_in_log :
    ¬ ∀ (db db' : DBImpl) (key : Key) (value : Bytes) (start after : Machine FileName)
      (trace : List (Event FileName)) (records : List Entry), db.Writable start.dir records →
      start.dir.lookup (.log db.versions.nextFileNumber) = none →
      db.versions.lastSequence + 1 < 2 ^ 64 →
      db.put key value start = .done (some (.ok, db')) after trace →
      (∀ e ∈ trace, e.outcome = .ok) →
      ∃ log, after.dir.lookup db'.walWriter.filename = some log ∧
        ReadsFromLog log (db.inFront records) (db.putEntry key value) := by
  intro h
  have hlarge : ∀ value : Bytes, value.length = kMaxRecordSize → False := by
    intro value hvalue
    have hdb : (filledDB []).Writable (filledLog []).dir [] := filledDB_writable (by simp)
    have hunused : (filledLog []).dir.lookup (.log (filledDB []).versions.nextFileNumber) = none := by
      decide +kernel
    obtain ⟨db', after, trace, hput, hcalls, _⟩ :=
      filledDB_put [] [97] value (by decide +kernel)
    obtain ⟨log, hlog, hreads⟩ := h (filledDB []) db' [97] value (filledLog []) after trace [] hdb
      hunused (by decide) hput hcalls
    obtain ⟨_, _, hwritten⟩ :=
      (write_accepts hdb hunused kTypeValue [97] value).done_any hput db' rfl
    obtain rfl := Option.some.inj (hlog.symm.trans hwritten)
    have hfit := (readsFromLog_iff (hdb.logged_lt (by decide) _ _)).mp hreads
      ((filledDB []).putEntry [97] value) (by simp)
    rw [length_walPayload] at hfit
    simp only [DBImpl.putEntry, hvalue] at hfit
    omega
  exact hlarge (List.replicate kMaxRecordSize 0) List.length_replicate

end Strata

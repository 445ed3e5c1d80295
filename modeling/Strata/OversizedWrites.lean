import Strata.Library.Completion
import Strata.LogDamage
import Strata.Lifetimes

/-! Writes beyond what the readers take. The writers have no limit of their own: the length of
a record wraps around in its header, and a block of any size gets into a table. -/
namespace Strata

open Library System Simulation

/-! The store where no call fails, whatever the size of its writes. -/

theorem syncDirectory_completes (dir : Dir) :
    Completes syncDirectory (machineOn dir []) .ok (machineOn dir []) :=
  .bind (.call rfl fun _ => rfl) (.ret _ _)

theorem WalWriter.appendRecord_completes {writer : WalWriter} (hopened : writer.opened = true)
    (e : Entry) (sync : Bool) (dir : Dir) :
    Completes (writer.appendRecord e sync) (machineOn dir []) .ok
      (machineOn (extend dir writer.filename (walFrame e)) []) := by
  unfold WalWriter.appendRecord
  rw [if_neg (by simp [hopened]), walFrame, ← extend_extend]
  refine .bind (.call rfl fun _ => rfl) (.bind (.call rfl fun _ => rfl) ?_)
  cases sync with
  | false => exact .ret _ _
  | true =>
    unfold WalWriter.sync
    simp only [hopened, Bool.not_true, Bool.false_eq_true, ↓reduceIte]
    exact .bind (.call rfl fun _ => rfl) (.ret _ _)

theorem VersionSet.logAndApply_completes (versions : VersionSet) (edit : VersionEdit) (dir : Dir)
    {writer : WalWriter} (hwriter : versions.descriptorLog = some writer)
    (hopened : writer.opened = true)
    (hlevels : ¬ edit.newFiles.any (fun item => item.1 ≥ kNumLevels) = true) :
    Completes (versions.logAndApply edit) (machineOn dir [])
      (.ok, { versions with
        current := versions.installEdit (versions.completeEdit edit) dir fun _ => none
        logNumber := edit.logNumber.getD versions.logNumber
        lastSequence := edit.lastSequence.getD versions.lastSequence })
      (machineOn (extend dir writer.filename
        (walFrame (VersionSet.manifestEntry (versions.completeEdit edit)))) []) := by
  unfold VersionSet.logAndApply
  rw [if_neg (by exact hlevels)]
  refine .bind (.readDir _) (.bind (.readFaults _) ?_)
  have hdescriptor : Completes versions.openDescriptor (machineOn dir []) (.ok, versions)
      (machineOn dir []) := by
    unfold VersionSet.openDescriptor
    rw [hwriter]
    exact .ret _ _
  refine .bind hdescriptor ?_
  simp only [hwriter]
  exact .bind (WalWriter.appendRecord_completes hopened _ true dir) (.ret _ _)

theorem syncDirectory_unfailing : Unfailing syncDirectory := by
  refine .bind .call fun synced => ?_
  split
  · exact .ret
  · exact .ret

namespace SSTableBuilder

theorem writeRawBlock_unfailing (b : SSTableBuilder) (contents : Bytes) :
    Unfailing (b.writeRawBlock contents) := by
  refine .bind .call fun written => ?_
  cases written with
  | some n => exact .ret
  | none =>
    refine .bind .call fun trailer => ?_
    cases trailer with
    | some n => exact .ret
    | none => exact .ret

theorem flushBlock_unfailing (b : SSTableBuilder) : Unfailing b.flushBlock := by
  unfold flushBlock
  split
  · exact .ret
  · refine .bind (writeRawBlock_unfailing b _) ?_
    rintro ⟨status, handle, b'⟩
    simp only
    split
    · exact .ret
    · exact .ret

theorem add_unfailing (options : Options) (b : SSTableBuilder) (e : Entry) :
    Unfailing (b.add options e) := by
  unfold SSTableBuilder.add
  split
  · exact .ret
  · simp only
    split
    · exact flushBlock_unfailing _
    · exact .ret

theorem addAll_unfailing (options : Options) (b : SSTableBuilder) (es : List Entry) :
    Unfailing (b.addAll options es) := by
  induction es generalizing b with
  | nil => exact .ret
  | cons e rest ih => exact .bind (add_unfailing options b e) ih

theorem finish_unfailing (options : Options) (b : SSTableBuilder) : Unfailing (b.finish options) := by
  unfold finish
  split
  · exact .ret
  · refine .bind (flushBlock_unfailing b) fun b' => .bind (writeRawBlock_unfailing _ _) ?_
    rintro ⟨status, handle, b''⟩
    simp only
    split
    · exact .ret
    · refine .bind (writeRawBlock_unfailing _ _) ?_
      rintro ⟨status', handle', b₃⟩
      simp only
      split
      · exact .ret
      · refine .bind .call fun written => ?_
        cases written with
        | some n => exact .ret
        | none =>
          refine .bind .call fun synced => ?_
          split
          · exact .bind .ret fun _ => .ret
          · exact .bind .ret fun _ => .ret

end SSTableBuilder

theorem writeLevel0Table_unfailing (options : Options) (vs : VersionSet) (mem : Memtable) :
    Unfailing (writeLevel0Table options vs mem) := by
  unfold writeLevel0Table
  simp only
  refine .bind (.bind .call fun _ => .ret) fun b => .bind (SSTableBuilder.addAll_unfailing _ b _)
    fun b' => .bind (SSTableBuilder.finish_unfailing _ b') ?_
  rintro ⟨status, b''⟩
  simp only
  split
  · exact .ret
  · refine .bind .readDir fun dir => .bind .readFaults fun faults => ?_
    split
    · exact .ret
    · exact .bind syncDirectory_unfailing fun _ => .ret

/-- All calls succeed, of whatever size. -/
def unfailing : Assume FileName :=
  ⟨fun faults => faults = fun _ => none, fun e => e.outcome = .ok, False⟩

theorem writeLevel0Table_completes (options : Options) (versions : VersionSet) (mem : Memtable)
    (dir : Dir) {reader : SSTableReader}
    (hopen : openWritten options mem.entries none versions.nextFileNumber = .ok reader) :
    Completes (writeLevel0Table options versions mem) (machineOn dir [])
      (.ok (writtenFile options mem.entries versions.nextFileNumber reader),
        { versions with nextFileNumber := versions.nextFileNumber + 1 })
      (machineOn (dir.insert (.table versions.nextFileNumber)
        (layoutOf options mem.entries).image) []) := by
  have hnofail : unfailing.NoFail := fun _ _ hfail => nomatch hfail
  have hruns : Runs unfailing (machineOn dir []).dir (writeLevel0Table options versions mem) _
    fun _ => True := writeLevel0Table_ok hnofail options versions mem trivial fun _ => trivial
  obtain ⟨⟨table, versions'⟩, after, hcompletes, hversions, rfl, _, _, faults, rfl, htable⟩ :=
    (writeLevel0Table_unfailing options versions mem).completes
      (writeLevel0Table_works options versions mem) rfl hruns rfl (fun _ => rfl) id
  simp only at hversions htable
  rw [hopen] at htable
  rw [hversions, htable] at hcompletes
  exact hcompletes

namespace DBImpl

theorem write_completes (db : DBImpl) (dir : Dir)
    (hroom : db.active.approximateMemoryUsage < db.options.writeBufferSize)
    (hopened : db.walWriter.opened = true) (type : ValueType) (key : Key) (value : Bytes) :
    Completes (db.write type key value) (machineOn dir []) (some (.ok, { db with
        heap := db.heap.modify db.mem fun m => m.add ⟨key, db.versions.lastSequence + 1, type, value⟩
        versions := db.versions.setLastSequence (db.versions.lastSequence + 1) }))
      (machineOn (extend dir db.walWriter.filename
        (walFrame ⟨key, db.versions.lastSequence + 1, type, value⟩)) []) := by
  have hmade : Completes db.makeRoomForWrite (machineOn dir []) (some db) (machineOn dir []) := by
    unfold makeRoomForWrite
    rw [if_pos hroom]
    exact .ret _ _
  exact .bind hmade (.bind (WalWriter.appendRecord_completes hopened _ _ dir) (.ret _ _))

theorem flushMemTable_completes {db : DBImpl} (dir : Dir) (h : db.active.count > 0) :
    Completes db.flushMemTable (machineOn dir [])
      { db with
        versions := { db.versions with nextFileNumber := db.versions.nextFileNumber + 1 }
        heap := db.heap ++ [.new]
        mem := db.heap.length
        imm := some db.mem
        walWriter := ⟨.log db.versions.nextFileNumber, true⟩
        logFileNumber := db.versions.nextFileNumber }
      (machineOn (touch dir (.log db.versions.nextFileNumber)) []) := by
  unfold flushMemTable
  rw [if_pos h]
  exact .bind (.bind (.call rfl fun m => m.perform_openAppend _) (.ret _ _)) (.ret _ _)

theorem removeFiles_none {live : List Nat} {names : List FileName} {machine : Machine FileName}
    (h : ∀ name ∈ names, tableFileNumber name = none) :
    Completes (removeFiles live names) machine () machine := by
  induction names with
  | nil => exact .ret _ _
  | cons name rest ih =>
    unfold removeFiles
    rw [h name List.mem_cons_self]
    exact ih fun other hother => h other (List.mem_cons_of_mem name hother)

end DBImpl

/-! A value of 2^32 bytes. -/

theorem encodeFixed32_wraps (value : Nat) : encodeFixed32 (value + 2 ^ 32) = encodeFixed32 value := by
  apply LittleEndian.decode_inj (by simp [encodeFixed32])
  unfold encodeFixed32
  rw [LittleEndian.decode_encode, LittleEndian.decode_encode]
  omega

def Entry.emptied (e : Entry) : Entry := { e with value := [] }

theorem walPayload_wraps {e : Entry} (hlength : e.value.length = 2 ^ 32) :
    walPayload e = walPayload e.emptied ++ e.value := by
  have hfield : encodeFixed32 e.value.length = encodeFixed32 0 := by
    rw [hlength]
    exact encodeFixed32_wraps 0
  unfold walPayload Entry.emptied
  rw [hfield]
  simp

/-- The header of the record is that of a record without a value, so the value itself is what
the reader takes for the rest of the log. -/
theorem walFrame_wraps {e : Entry} (hlength : e.value.length = 2 ^ 32)
    (hcrc : crc32 (walPayload e) = crc32 (walPayload e.emptied)) :
    walFrame e = walFrame e.emptied ++ e.value := by
  have htotal : (walPayload e).length = (walPayload e.emptied).length + 2 ^ 32 := by
    rw [walPayload_wraps hlength, List.length_append, hlength]
  rw [walFrame, walFrame, walHeader, walHeader, hcrc, htotal, encodeFixed32_wraps,
    walPayload_wraps hlength]
  simp only [List.append_assoc]

theorem readAll_zeros (count : Nat) (tail : Bytes) :
    WalReader.readAll ⟨true, List.replicate (8 + count) 0 ++ tail, 0⟩ =
      ([], .status (.corruption "WAL payload too small for fields")) := by
  have hlength : decodeFixed32 ((List.replicate 8 (0 : UInt8)).drop 4) = 0 := by decide
  have hcrc : decodeFixed32 (List.replicate 8 (0 : UInt8)) = (crc32 []).toNat := by decide
  have hstop : WalReader.readRecord
      ⟨true, List.replicate 8 0 ++ (List.replicate count 0 ++ tail), 0⟩ true =
        .stop (.corruption "WAL payload too small for fields")
          ⟨true, List.replicate count 0 ++ tail, 0⟩ := by
    rw [readRecord_fields (by simp), hlength, hcrc, if_neg (by decide)]
    unfold WalReader.readPayload
    simp only [List.take_zero, List.length_nil, Nat.lt_irrefl, ↓reduceIte, ne_eq,
      not_true_eq_false]
    rfl
  rw [List.replicate_add, List.append_assoc, readAll_stop hstop]

/-- A record of any kind can be hidden in a value: the value is the record, zeros, and four
bytes that make up for the checksum. -/
theorem exists_forgery {e forged : Entry} (hvalue : e.value = []) (hfits : e.Fits)
    (hforged : forged.Fits) :
    ∃ value : Bytes, value.length = 2 ^ 32 ∧
      WalReader.readAll ⟨true, walFrame { e with value := value }, 0⟩ =
        ([e, forged], .status (.corruption "WAL payload too small for fields")) := by
  have hsize := length_walFrame forged
  have hlimit := hforged.2
  obtain ⟨count, hcount⟩ : ∃ count, (walFrame forged).length + (8 + count) + 4 = 2 ^ 32 := by
    refine ⟨2 ^ 32 - (walFrame forged).length - 12, ?_⟩
    simp only [kMaxRecordSize] at hlimit
    omega
  obtain ⟨closing, hclosing, hcrc⟩ := exists_crc32_append_eq (walPayload e)
    (walFrame forged ++ List.replicate (8 + count) 0)
  let whole : Entry :=
    { e with value := walFrame forged ++ List.replicate (8 + count) 0 ++ closing }
  have hlength : whole.value.length = 2 ^ 32 := by
    rw [List.length_append, List.length_append, List.length_replicate, hclosing]
    exact hcount
  have hempty : whole.emptied = e := by rw [Entry.emptied, ← hvalue]
  have hframe : walFrame whole = walFrame e ++ whole.value := by
    rw [walFrame_wraps hlength (by rw [walPayload_wraps hlength, hempty]; exact hcrc), hempty]
  have hfile : walFrame whole =
      walFrames [e, forged] ++ (List.replicate (8 + count) 0 ++ closing) := by
    rw [hframe]
    simp [whole, walFrames]
  refine ⟨whole.value, hlength, ?_⟩
  change WalReader.readAll ⟨true, walFrame whole, 0⟩ = _
  rw [hfile, readAll_frames _ _ _ (by simp [hfits, hforged]), readAll_zeros]
  rfl

/-! Opening a directory with a log that is too large to compute with. -/

/-- What `replayLog` does behind the reading of the log. -/
def replayRecords (options : Options) (versions : VersionSet) (number : Nat)
    (records : List Entry) : Prog (Status × VersionSet) := do
  let mem := records.foldl Memtable.add .new
  let versions := versions.setLastSequence
    (records.foldl (fun seq e => max seq e.seq) versions.lastSequence)
  if mem.count > 0 then
    let (table, versions) ← writeLevel0Table options versions mem
    match table with
    | .error status => return (status, versions)
    | .ok file =>
      let edit := { ({} : VersionEdit).addFile 0 file with logNumber := some number }
      let (status, versions) ← versions.logAndApply edit
      if !status.isOk then
        return (status, versions)
      let _ ← Sys.unlink (.log number)
      return (.ok, versions)
  else
    let _ ← Sys.unlink (.log number)
    return (.ok, versions)

theorem replayLog_eq {options : Options} {versions : VersionSet} {number : Nat}
    {machine : Machine FileName} {records : List Entry} {status : Status}
    (h : logReading machine.dir machine.faults number = (records, .status status)) :
    replayLog options versions number machine =
      replayRecords options versions number records machine := by
  unfold replayLog
  rw [Sys.readDir_bind, Sys.readFaults_bind]
  unfold logReading at h
  simp only [h, reduceCtorEq, ↓reduceIte]
  rfl

/-- Opening a database with one log to replay, of which the records are given. -/
def openRecords (options : Options) (number : Nat) (records : List Entry) :
    Prog (Status × Option DBImpl) := do
  let _ ← Sys.openAppend .lock
  let (_, versions) ← recoverVersions options
  let (status, versions) ← replayRecords options versions number records
  if !status.isOk then
    return (status, none)
  startLog options versions

theorem openDB_eq_openRecords {options : Options} {dir : Dir} {number : Nat}
    {records : List Entry} {status : Status} (hlock : (dir.lookup .lock).isSome = true)
    (hcurrent : (dir.lookup .current).isNone = false) (hexists : options.errorIfExists = false)
    (hrecover : (VersionSet.new.recover dir fun _ => none).map
      (fun r => (r.1, logFiles r.2.logNumber dir.keys)) = some (.ok, some [number]))
    (hread : logReading dir (fun _ => none) number = (records, .status status)) :
    openDB options (machineOn dir []) = openRecords options number records (machineOn dir []) := by
  obtain ⟨⟨_, vs⟩, hvs, hlogs⟩ := Option.map_eq_some_iff.mp hrecover
  obtain ⟨rfl, hlogs⟩ := Prod.mk.inj hlogs
  simp only at hlogs
  have htouch : touch dir .lock = dir := by
    obtain ⟨bytes, hbytes⟩ := Option.isSome_iff_exists.mp hlock
    simp [touch, hbytes]
  have hversions : recoverVersions options (machineOn dir []) =
      .done (.ok, vs) (machineOn dir []) [] := by
    unfold recoverVersions
    rw [Sys.readDir_bind, Sys.readFaults_bind]
    simp only [machineOn, hcurrent, hexists, hvs, Bool.false_eq_true, ↓reduceIte]
    rfl
  unfold openDB openRecords
  apply Sys.bind_congr rfl
  intro opened after trace hopened
  obtain ⟨rfl, rfl⟩ : opened = true ∧ after = machineOn dir [] := by
    cases hopened
    exact ⟨rfl, congrArg (machineOn · []) htouch⟩
  simp only [Bool.not_true, Bool.false_eq_true, ↓reduceIte]
  rw [Sys.bind_of_done hversions, Sys.bind_of_done hversions]
  simp only [show Status.isOk .ok = true from rfl, Bool.not_true, Bool.false_eq_true, ↓reduceIte]
  rw [Sys.readDir_bind]
  simp only [machineOn, hlogs]
  unfold replayLogs
  rw [Sys.bind_assoc]
  apply Sys.bind_congr (replayLog_eq hread)
  rintro ⟨status, versions⟩ after trace _
  simp only
  split
  · rename_i hbad
    rw [Sys.pure_bind, if_pos hbad]
  · rw [replayLogs, Sys.pure_bind, if_neg (by simp [Status.isOk])]

/-! A block that no reader takes. -/

theorem layoutOf_single (options : Options) (e : Entry) :
    (layoutOf options [e]).blocks = [(((BlockBuilder.new 16).add e).finish, [e])] := by
  change (Packed.add options .empty e).blocks = _
  unfold Packed.add Packed.empty
  simp only
  split
  · rfl
  · rfl

theorem length_single (e : Entry) : ((BlockBuilder.new 16).add e).finish.length =
    e.userKey.length + e.value.length + 25 := by
  simp only [BlockBuilder.new, BlockBuilder.add, BlockBuilder.finish, encodeEntry]
  simp
  omega

theorem length_index_single (options : Options) (e : Entry) :
    (layoutOf options [e]).index.length = e.userKey.length + 41 := by
  change (indexBuilder (layoutOf options [e]).blocks).finish.length = _
  rw [layoutOf_single]
  simp only [indexBuilder, indexEntries, BlockBuilder.new, BlockBuilder.add, BlockBuilder.finish,
    encodeEntry, List.foldl_cons, List.foldl_nil]
  simp [lastKey, BlockHandle.encodeTo]
  omega

/-- The table of one entry whose block is too long for the reader. -/
theorem layoutOf_single_opens (options : Options) (e : Entry) (hseq : e.seq < 2 ^ 64)
    (hkey : e.userKey.length + 41 ≤ kMaxBlockSize) (hvalue : e.value.length < 2 ^ 63)
    (hfilter : (layoutOf options [e]).filter.length ≤ kMaxBlockSize) :
    (layoutOf options [e]).Opens [e] := by
  have hindex := length_index_single options e
  apply layoutOf_opens (List.pairwise_singleton _ _) (by simpa using hseq) hfilter (by omega)
  rw [Layout.length_image, layoutOf_single, hindex]
  simp only [bodyOf, List.flatMap_cons, List.flatMap_nil, List.append_nil, length_sealBlock,
    length_single]
  simp only [kMaxBlockSize] at *
  omega

theorem layoutOf_single_yields (options : Options) (e : Entry)
    (hopens : (layoutOf options [e]).Opens [e])
    (hlarge : kMaxBlockSize < e.userKey.length + e.value.length + 25) (number : Nat) :
    Yields ((layoutOf options [e]).reader number).newIterator.seekToFirst [] := by
  have hshown : ((layoutOf options [e]).blocks.map shownOf).flatten = [] := by
    rw [layoutOf_single]
    simp only [List.map_cons, List.map_nil, shownOf, length_single,
      if_neg (not_le.mpr hlarge), List.flatten_cons, List.flatten_nil, List.append_nil]
  have hparts : ((layoutOf options [e]).reader number).Parts (layoutOf options [e]).index
      (indexEntries 0 (layoutOf options [e]).blocks) ((layoutOf options [e]).blocks.map shownOf) :=
    SSTableReader.parts_of_body rfl rfl rfl hopens.small rfl hopens.index
      fun b hb => (hopens.blocks b hb).2
  have hyields := hparts.yields
  rwa [hshown] at hyields

theorem newMergingIterator_single {ι : Type} [InternalIterator ι] {it : ι}
    (h : Yields (InternalIterator.seekToFirst it) []) :
    ∃ merging, newMergingIterator [it] = some merging ∧ merging.seekToFirst.valid = false := by
  obtain ⟨merged, hyields, hperm, _⟩ := MergingIterator.seekToFirst_sorted [(it, [])] none
    (by simpa using h) (by simp [Memtable.Sorted])
  rw [List.perm_nil.mp hperm] at hyields
  exact ⟨_, rfl, hyields⟩

/-- A compaction whose inputs show nothing only removes them. -/
theorem doCompaction_unread {options : Options} {versions : VersionSet} {c : Compaction}
    {machine : Machine FileName} {readers : List SSTableReader}
    {iter : MergingIterator TwoLevelIterator}
    (hopen : openInputs machine.dir machine.faults c.inputs = .ok readers)
    (hiter : newMergingIterator (readers.map SSTableReader.newIterator) = some iter)
    (hend : iter.seekToFirst.valid = false) :
    doCompaction options versions c machine = c.installOutputs versions [] machine := by
  unfold doCompaction
  rw [Sys.readDir_bind, Sys.readFaults_bind]
  simp only [hopen, hiter, scanFuel]
  unfold CompactionState.loop
  rw [if_pos (by simp [hend]), Sys.pure_bind, if_neg (by simp [Status.isOk])]
  have hfinish : CompactionState.finishOutputFile options ⟨versions, none, 0, [], none⟩ machine =
    .done (.ok, ⟨versions, none, 0, [], none⟩) machine [] := rfl
  rw [Sys.bind_of_done hfinish, if_neg (by simp [Status.isOk])]

/-- A file with its reader, as the first one of a version. -/
theorem sort_addFiles_empty {v : Version} (hempty : ∀ level, v.files level = []) (f : FileMetaData)
    (deleted : List (Nat × Nat)) :
    ((v.removeFiles deleted).addFiles [(0, f)]).sort =
      ⟨fun level => if level = 0 then [f] else []⟩ := by
  unfold Version.sort Version.addFiles Version.pushFile Version.removeFiles
  congr 1
  funext level
  by_cases hlevel : level = 0
  · subst hlevel
    simp [hempty]
  · simp [hempty, hlevel]

theorem sort_removeFiles_single (f : FileMetaData) {deleted : List (Nat × Nat)}
    (hdeleted : deleted = [(0, f.number)]) :
    (((⟨fun level => if level = 0 then [f] else []⟩ : Version).removeFiles deleted).addFiles
      []).sort = .empty := by
  subst hdeleted
  unfold Version.sort Version.addFiles Version.removeFiles Version.empty
  congr 1
  funext level
  by_cases hlevel : level = 0
  · subst hlevel
    simp
  · simp [hlevel]

namespace DBImpl

section Dropped

variable (db : DBImpl) (dir : Dir) (e : Entry)

/-- The table of one entry that a flush writes. -/
def singleFile : FileMetaData :=
  writtenFile db.options [e] db.versions.nextFileNumber
    ((layoutOf db.options [e]).reader db.versions.nextFileNumber)

def flushEdit : VersionEdit :=
  { newFiles := [(0, db.singleFile e)]
    logNumber := some db.logFileNumber
    nextFileNumber := some (db.versions.nextFileNumber + 1)
    lastSequence := some db.versions.lastSequence }

def dropEdit : VersionEdit :=
  { deletedFiles := [(0, db.versions.nextFileNumber)]
    nextFileNumber := some (db.versions.nextFileNumber + 1)
    lastSequence := some db.versions.lastSequence }

/-- The directory with the table and its record in the manifest. -/
def flushedDir (writer : WalWriter) : Dir :=
  extend (dir.insert (.table db.versions.nextFileNumber) (layoutOf db.options [e]).image)
    writer.filename (walFrame (VersionSet.manifestEntry (db.flushEdit e)))

def droppedDir (writer : WalWriter) : Dir :=
  (extend (db.flushedDir dir e writer) writer.filename
    (walFrame (VersionSet.manifestEntry db.dropEdit))).erase (.table db.versions.nextFileNumber)

def flushedVersions : VersionSet :=
  { db.versions with
    current := ⟨fun level => if level = 0 then [db.singleFile e] else []⟩
    nextFileNumber := db.versions.nextFileNumber + 1
    logNumber := db.logFileNumber }

def droppedVersions : VersionSet :=
  { db.versions with
    current := .empty
    nextFileNumber := db.versions.nextFileNumber + 1
    logNumber := db.logFileNumber }

variable {db dir e} {index : Nat} {writer : WalWriter} (himm : db.imm = some index)
  (hentries : (db.memtable index).entries = [e]) (hopens : (layoutOf db.options [e]).Opens [e])
  (hcurrent : ∀ level, db.versions.current.files level = [])
  (hwriter : db.versions.descriptorLog = some writer) (hopened : writer.opened = true)

include himm hentries hopens hcurrent hwriter hopened

theorem flushImmutable_completes : Completes db.flushImmutable (machineOn dir [])
    (.ok, { db with versions := db.flushedVersions e, imm := none })
    (machineOn (db.flushedDir dir e writer) []) := by
  have hopen := Layout.openTable_image hopens db.versions.nextFileNumber
  have hwritten := writeLevel0Table_completes db.options db.versions (db.memtable index) dir
    (by rw [hentries]; exact hopen)
  rw [hentries] at hwritten
  have hlogged := VersionSet.logAndApply_completes
    { db.versions with nextFileNumber := db.versions.nextFileNumber + 1 }
    { ({} : VersionEdit).addFile 0 (db.singleFile e) with logNumber := some db.logFileNumber }
    (dir.insert (.table db.versions.nextFileNumber) (layoutOf db.options [e]).image) hwriter hopened
    (by simp [VersionEdit.addFile, kNumLevels])
  rw [VersionSet.installEdit, show VersionSet.completeEdit _ _ = db.flushEdit e from rfl] at hlogged
  unfold flushImmutable
  simp only [himm]
  refine .bind hwritten (.bind hlogged ?_)
  simp only [flushEdit, List.map_cons, List.map_nil]
  rw [sort_addFiles_empty hcurrent]
  exact .ret _ _

omit himm hentries hopens hcurrent in
/-- The compaction writes no table and removes its input. -/
theorem installOutputs_completes :
    Completes (Compaction.installOutputs ⟨0, [db.singleFile e], []⟩ (db.flushedVersions e) [])
      (machineOn (db.flushedDir dir e writer) []) (.ok, db.droppedVersions)
      (machineOn (db.droppedDir dir e writer) []) := by
  have hlogged := VersionSet.logAndApply_completes (db.flushedVersions e)
    (Compaction.edit ⟨0, [db.singleFile e], []⟩ []) (db.flushedDir dir e writer) hwriter hopened
    (by simp [Compaction.edit, VersionEdit.deleteFile])
  have hemptied : (((db.flushedVersions e).current.removeFiles
      db.dropEdit.deletedFiles).addFiles []).sort = .empty := sort_removeFiles_single _ rfl
  rw [VersionSet.installEdit, show VersionSet.completeEdit _ _ = db.dropEdit from rfl,
    show db.dropEdit.newFiles = [] from rfl, List.map_nil, hemptied] at hlogged
  refine .bind (syncDirectory_completes _) (.bind hlogged ?_)
  exact .bind (.bind (.call rfl fun _ => rfl) (.ret _ _))
    (.bind (syncDirectory_completes _) (.ret _ _))

omit himm hentries hcurrent in
theorem majorCompaction_completes (hlimit : db.options.maxLevel0Files ≤ 1)
    (hlarge : kMaxBlockSize < e.userKey.length + e.value.length + 25) :
    Completes (majorCompaction { db with versions := db.flushedVersions e, imm := none })
      (machineOn (db.flushedDir dir e writer) [])
      (.ok, { db with versions := db.droppedVersions, imm := none })
      (machineOn (db.droppedDir dir e writer) []) := by
  have hpick : Compaction.pickCompaction db.options (db.flushedVersions e).current =
      some ⟨0, [db.singleFile e], []⟩ := by
    unfold Compaction.pickCompaction
    rw [if_pos (by simpa [flushedVersions] using hlimit)]
    rfl
  obtain ⟨iter, hiter, hend⟩ := newMergingIterator_single
    (layoutOf_single_yields db.options e hopens hlarge db.versions.nextFileNumber)
  have hread : doCompaction db.options (db.flushedVersions e) ⟨0, [db.singleFile e], []⟩
      (machineOn (db.flushedDir dir e writer) []) = _ :=
    doCompaction_unread rfl hiter hend
  unfold majorCompaction
  simp only [hpick]
  exact .bind (.of_eq (installOutputs_completes hwriter hopened) hread) (.ret _ _)

theorem backgroundCompaction_completes (hlimit : db.options.maxLevel0Files ≤ 1)
    (hlarge : kMaxBlockSize < e.userKey.length + e.value.length + 25)
    (hkeys : ∀ name ∈ dir.keys, tableFileNumber name = none) :
    Completes db.backgroundCompaction (machineOn dir [])
      { db with versions := db.droppedVersions, imm := none }
      (machineOn (db.droppedDir dir e writer) []) := by
  refine .bind (flushImmutable_completes himm hentries hopens hcurrent hwriter hopened)
    (.bind (majorCompaction_completes hopens hwriter hopened hlimit hlarge)
      (.bind (.bind (.readDir _) (removeFiles_none fun name hname => hkeys name ?_)) (.ret _ _)))
  change name ∈ (db.droppedDir dir e writer).keys at hname
  rw [← AList.mem_keys, droppedDir, AList.mem_erase, mem_extend, flushedDir, mem_extend,
    AList.mem_insert] at hname
  exact AList.mem_keys.mp (hname.2.resolve_left hname.1)

end Dropped

end DBImpl

/-- As long as a record may be, and too long for a block with it. -/
def largeValue : Bytes := List.replicate kMaxBlockSize 0

def largeEntry : Entry := ⟨[97], 1, kTypeValue, largeValue⟩

theorem length_largeTable : (layoutOf tinyTables [largeEntry]).image.length = 67109001 := by
  have hfilter : (layoutOf tinyTables [largeEntry]).filter.length = 9 := by decide +kernel
  have hvalue : largeEntry.value.length = 67108864 := List.length_replicate
  have hkey : largeEntry.userKey.length = 1 := rfl
  rw [Layout.length_image, layoutOf_single, length_index_single, hfilter, hkey]
  simp only [bodyOf, List.flatMap_cons, List.flatMap_nil, List.append_nil, length_sealBlock,
    length_single, hvalue, hkey]

def largeActions : List Action :=
  [.write kTypeValue [97] largeValue, .flushMemTable, .backgroundCompaction]

/-- What the manifest gets of the table with the large value. -/
def largeEdit : VersionEdit :=
  { newFiles := [(0, ⟨5, 67109001, [97], [97], none⟩)]
    logNumber := some 4
    nextFileNumber := some 6
    lastSequence := some 1 }

def largeDropEdit : VersionEdit :=
  { deletedFiles := [(0, 5)]
    nextFileNumber := some 6
    lastSequence := some 1 }

/-- The directory behind the actions. -/
def largeDir (dir : Dir) : Dir :=
  (extend (extend ((touch (extend dir (.log 3) (walFrame largeEntry)) (.log 4)).insert (.table 5)
      (layoutOf tinyTables [largeEntry]).image)
    (.manifest 2) (walFrame (VersionSet.manifestEntry largeEdit)))
    (.manifest 2) (walFrame (VersionSet.manifestEntry largeDropEdit))).erase (.table 5)

/-- A new database as it is opened. -/
def NewTiny (db : DBImpl) : Prop :=
  db.options = tinyTables ∧ db.heap = [.new] ∧ db.mem = 0 ∧ db.imm = none ∧
    db.walWriter = ⟨.log 3, true⟩ ∧ db.versions.nextFileNumber = 4 ∧ db.versions.lastSequence = 0 ∧
    db.versions.descriptorLog = some ⟨.manifest 2, true⟩ ∧ db.versions.current.allFiles.isEmpty = true

instance (db : DBImpl) : Decidable (NewTiny db) :=
  inferInstanceAs (Decidable (_ ∧ _))

/-- The start of a new database: its directory, and what the actions leave in the manifest and
in the logs. -/
structure LargeStart (dir : Dir) (trace : List (Event FileName)) : Prop where
  calls : ∀ e ∈ trace, e.outcome = .ok
  medium : ((Medium.settled ∅).run trace).dir = dir
  tables : ∀ name ∈ dir.keys, tableFileNumber name = none
  recovered : ∃ vs, VersionSet.new.recover (largeDir dir) (fun _ => none) = some (.ok, vs) ∧
    vs.current.allFiles = [] ∧ vs.logNumber = 4
  log : (largeDir dir).lookup (.log 4) = some []
  last : ∀ n, (.log n : FileName) ∈ (largeDir dir).keys → n ≤ 4

def startsLarge (result : Status × Option DBImpl) (dir : Dir) (trace : List (Event FileName)) :
    Bool :=
  result.1 == .ok && result.2.any (fun db => decide (NewTiny db)) &&
    trace.all (fun e => e.outcome == .ok) &&
    ((Medium.settled ∅).run trace).dir.entries == dir.entries &&
    dir.keys.all (fun name => tableFileNumber name == none) &&
    ((VersionSet.new.recover (largeDir dir) fun _ => none).any fun r =>
      r.1 == .ok && r.2.current.allFiles.isEmpty && r.2.logNumber == 4) &&
    (largeDir dir).lookup (.log 4) == some [] &&
    (largeDir dir).keys.all fun name => (logFileNumber name).all (Option.all (· ≤ 4))

set_option maxRecDepth 8192 in
theorem startsLarge_new : (openDB tinyTables (machineOn ∅ [])).returns startsLarge = true := by
  decide +kernel

theorem large_start : ∃ db after trace,
    openDB tinyTables (machineOn ∅ []) = .done (.ok, some db) after trace ∧ NewTiny db ∧
      LargeStart after.dir trace := by
  obtain ⟨⟨status, result⟩, after, trace, hexit, hstarts⟩ := Exit.of_returns startsLarge_new
  simp only [startsLarge, Bool.and_eq_true, beq_iff_eq, Option.any_eq_true, List.all_eq_true,
    decide_eq_true_eq, List.isEmpty_iff] at hstarts
  obtain ⟨⟨⟨⟨⟨⟨⟨rfl, db, rfl, hnew⟩, hcalls⟩, hmedium⟩, htables⟩, ⟨_, vs⟩, hvs, ⟨rfl, hfiles⟩,
    hnumber⟩, hlog⟩, hlast⟩ := hstarts
  refine ⟨db, after, trace, hexit, hnew, hcalls, AList.ext hmedium, htables,
    ⟨vs, hvs, hfiles, hnumber⟩, hlog, fun n hn => ?_⟩
  simpa [logFileNumber] using hlast _ hn

def largeWritten (db : DBImpl) : DBImpl :=
  { db with
    versions := { db.versions with lastSequence := 1 }
    heap := [Memtable.new.add largeEntry] }

def largeSwitched (db : DBImpl) : DBImpl :=
  { largeWritten db with
    versions := { db.versions with lastSequence := 1, nextFileNumber := 5 }
    heap := [Memtable.new.add largeEntry, .new]
    mem := 1
    imm := some 0
    walWriter := ⟨.log 4, true⟩
    logFileNumber := 4 }

def largeDropped (db : DBImpl) : DBImpl :=
  { largeSwitched db with versions := (largeSwitched db).droppedVersions, imm := none }

theorem largeEdit_eq {db : DBImpl} (h : db.options = tinyTables) :
    ((largeSwitched db).flushEdit largeEntry).encodeTo = largeEdit.encodeTo := by
  have hoptions : (largeSwitched db).options = tinyTables := h
  unfold VersionEdit.encodeTo DBImpl.flushEdit DBImpl.singleFile writtenFile
  rw [hoptions, length_largeTable]
  rfl

theorem largeDir_eq {db : DBImpl} (h : db.options = tinyTables) (dir : Dir) :
    (largeSwitched db).droppedDir (touch (extend dir (.log 3) (walFrame largeEntry)) (.log 4))
      largeEntry ⟨.manifest 2, true⟩ = largeDir dir := by
  have hoptions : (largeSwitched db).options = tinyTables := h
  unfold DBImpl.droppedDir DBImpl.flushedDir VersionSet.manifestEntry largeDir
  rw [largeEdit_eq h, hoptions]
  rfl

namespace NewTiny

variable {db : DBImpl} (h : NewTiny db) (dir : Dir)
include h

theorem written : Completes (db.perform (.write kTypeValue [97] largeValue)) (machineOn dir [])
    (some (.ok, largeWritten db)) (machineOn (extend dir (.log 3) (walFrame largeEntry)) []) := by
  obtain ⟨options, ⟨current, next, manifest, last, number, descriptor⟩, heap, mem, imm, wal, log⟩ :=
    db
  obtain ⟨rfl, rfl, rfl, rfl, rfl, rfl, rfl, rfl, _⟩ := h
  exact DBImpl.write_completes _ dir (by exact Nat.zero_lt_one) rfl kTypeValue [97] largeValue

theorem switched : Completes ((largeWritten db).perform .flushMemTable) (machineOn dir [])
    (some (.ok, largeSwitched db)) (machineOn (touch dir (.log 4)) []) := by
  obtain ⟨options, ⟨current, next, manifest, last, number, descriptor⟩, heap, mem, imm, wal, log⟩ :=
    db
  obtain ⟨rfl, rfl, rfl, rfl, rfl, rfl, rfl, rfl, _⟩ := h
  exact .bind (DBImpl.flushMemTable_completes dir (by exact Nat.zero_lt_one)) (.ret _ _)

theorem dropped (htables : ∀ name ∈ dir.keys, tableFileNumber name = none) :
    Completes ((largeSwitched db).perform .backgroundCompaction)
      (machineOn (touch (extend dir (.log 3) (walFrame largeEntry)) (.log 4)) [])
      (some (.ok, largeDropped db)) (machineOn (largeDir dir) []) := by
  have hvalue : largeEntry.value.length = kMaxBlockSize := List.length_replicate
  have hkey : largeEntry.userKey.length = 1 := rfl
  have hopens : (layoutOf tinyTables [largeEntry]).Opens [largeEntry] :=
    layoutOf_single_opens tinyTables largeEntry (by decide) (by rw [hkey]; decide)
      (by rw [hvalue]; decide) (by decide +kernel)
  have hkeys : ∀ name ∈ (touch (extend dir (.log 3) (walFrame largeEntry)) (.log 4)).keys,
      tableFileNumber name = none := by
    intro name hname
    rw [← AList.mem_keys, mem_touch, mem_extend] at hname
    rcases hname with rfl | hname
    · rfl
    · exact htables name (AList.mem_keys.mp hname)
  rw [← largeDir_eq h.1 dir]
  obtain ⟨options, ⟨current, next, manifest, last, number, descriptor⟩, heap, mem, imm, wal, log⟩ :=
    db
  obtain ⟨rfl, rfl, rfl, rfl, rfl, rfl, rfl, rfl, hempty⟩ := h
  have hcurrent : ∀ level, current.files level = [] := fun level =>
    List.flatMap_eq_nil_iff.mp (List.isEmpty_iff.mp hempty) level (List.mem_finRange level)
  exact .bind (DBImpl.backgroundCompaction_completes rfl rfl hopens hcurrent rfl rfl (le_refl _)
    (by omega) hkeys) (.ret _ _)

end NewTiny

def largeDeeds : List Deed := .opened .ok :: largeActions.map (Deed.did · .ok)

theorem run_completes {options : Options} {seen : List Deed} {db db' : DBImpl} {dir dir' : Dir}
    {reads : List PendingRead} {action : Action} {status : Status}
    (hrun : (databaseUnder unlimited options).Run seen (.serving db dir reads))
    (hdone : Completes (db.perform action) (machineOn dir []) (some (status, db'))
      (machineOn dir' [])) (hgranted : action.Granted db) :
    (databaseUnder unlimited options).Run (seen ++ [.did action status])
      (.serving db' dir' reads) := by
  obtain ⟨trace, hexit, hcalls, _⟩ := hdone
  exact hrun.step (World.Step.did hgranted hexit (unlimited_of_ok hcalls))

theorem large_run : ∃ db dir, NewTiny db ∧
    (databaseUnder unlimited tinyTables).Run largeDeeds (.serving (largeDropped db) dir []) := by
  obtain ⟨db, after, trace, hexit, hnew, hstart⟩ := large_start
  obtain ⟨_, _, _, himm, _, _, hseq, _⟩ := id hnew
  have hnone : (databaseUnder unlimited tinyTables).Run [] (.resting ∅) :=
    .start ⟨∅, bare_empty, rfl⟩
  have hopened := hnone.step (World.Step.opened hexit (unlimited_of_ok hstart.calls))
  have hwritten := run_completes hopened (hnew.written _) ⟨Or.inl rfl, by rw [hseq]; decide⟩
  have hswitched := run_completes hwritten (hnew.switched _) (Or.inl himm)
  exact ⟨db, _, hnew, run_completes hswitched (hnew.dropped _ hstart.tables) trivial⟩

end Strata

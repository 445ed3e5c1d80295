import Strata.Compaction

/-! The database: opening with log replay, writes, reads and the background
step. One definition is one critical section of `mutex_`. -/
namespace Strata

open Library System

/-- `heap` holds every memtable made so far; `mem` and `imm` point into it, as
do the pointers a reader took. -/
structure DBImpl where
  options : Options
  versions : VersionSet
  heap : List Memtable
  mem : Nat
  imm : Option Nat
  walWriter : WalWriter
  logFileNumber : Nat

def SSTableBuilder.metaData (b : SSTableBuilder) (number : Nat) (reader : SSTableReader) :
    FileMetaData :=
  ⟨number, b.fileSize, b.smallestKey, b.largestKey, some reader⟩

def writeLevel0Table (options : Options) (versions : VersionSet) (mem : Memtable) :
    Prog (Except Status FileMetaData × VersionSet) := do
  let (number, versions) := versions.newFileNumber
  let builder ← SSTableBuilder.new (.table number)
  let builder ← builder.addAll options mem.entries
  let (status, builder) ← builder.finish options
  if !status.isOk then
    return (.error status, versions)
  let dir ← Sys.readDir
  let faults ← Sys.readFaults
  match SSTableReader.openTable (dir.lookup (.table number)) (faults (.table number)) number
      builder.fileSize with
  | .error status => return (.error status, versions)
  | .ok reader =>
    let _ ← syncDirectory
    return (.ok (builder.metaData number reader), versions)

/-- The log files with a number of at least `least`, ascending. `none` where
`std::stoull` throws. -/
def logFiles (least : Nat) (names : List FileName) : Option (List Nat) :=
  let numbers := names.filterMap logFileNumber
  if numbers.any Option.isNone then none
  else some (((numbers.filterMap id).filter fun n => n ≥ least).insertionSort (· ≤ ·))

/-- One log file: its records into a table, the table into the manifest, and
the file is removed. How the reading ended is not looked at. -/
def replayLog (options : Options) (versions : VersionSet) (number : Nat) :
    Prog (Status × VersionSet) := do
  let dir ← Sys.readDir
  let faults ← Sys.readFaults
  let (records, ending) :=
    (WalReader.new (dir.lookup (.log number)) (faults (.log number))).readAll
  if ending = .undefined then
    Sys.stuck
  else
    let mem := records.foldl Memtable.add .new
    let versions := versions.setLastSequence
      (records.foldl (fun seq e => max seq e.seq) versions.lastSequence)
    if mem.count > 0 then
      let (table, versions) ← writeLevel0Table options versions mem
      match table with
      | .error status => return (status, versions)
      | .ok file =>
        let edit := { ({} : VersionEdit).addFile 0 file with logNumber := some number }
        let (status, versions) ← versions.logAndApply edit
        if !status.isOk then
          return (status, versions)
        let _ ← Sys.unlink (.log number)
        return (.ok, versions)
    else
      let _ ← Sys.unlink (.log number)
      return (.ok, versions)

def replayLogs (options : Options) : VersionSet → List Nat → Prog (Status × VersionSet)
  | versions, [] => pure (.ok, versions)
  | versions, number :: rest => do
    let (status, versions) ← replayLog options versions number
    if !status.isOk then
      return (status, versions)
    replayLogs options versions rest

def newDatabaseEdit : VersionEdit :=
  { comparatorName := some VersionSet.byteComparator
    logNumber := some 0
    nextFileNumber := some 2
    lastSequence := some 0 }

def recoverVersions (options : Options) : Prog (Status × VersionSet) := do
  let dir ← Sys.readDir
  let faults ← Sys.readFaults
  if (dir.lookup .current).isNone then
    if !options.createIfMissing then
      return (.invalidArgument "Database does not exist and create_if_missing is false", .new)
    VersionSet.new.logAndApply newDatabaseEdit
  else if options.errorIfExists then
    return (.invalidArgument "Database exists and error_if_exists is true", .new)
  else
    match VersionSet.new.recover dir faults with
    | none => Sys.stuck
    | some result => return result

def startLog (options : Options) (versions : VersionSet) : Prog (Status × Option DBImpl) := do
  let (number, versions) := versions.newFileNumber
  let writer ← WalWriter.new (.log number)
  let (status, versions) ← versions.logAndApply { logNumber := some number }
  if !status.isOk then
    return (status, none)
  return (.ok, some ⟨options, versions, [.new], 0, none, writer, number⟩)

/-- `DB::Open`: the database it returns, or why there is none. -/
def openDB (options : Options) : Prog (Status × Option DBImpl) := do
  if !(← Sys.openAppend .lock) then
    return (.ioError "Database is locked by another process", none)
  let (status, versions) ← recoverVersions options
  if !status.isOk then
    return (status, none)
  let dir ← Sys.readDir
  match logFiles versions.logNumber dir.keys with
  | none => Sys.stuck
  | some numbers =>
    let (status, versions) ← replayLogs options versions numbers
    if !status.isOk then
      return (status, none)
    startLog options versions

/-- The iterators that `NewIterator` merges: that of a memtable or of a table. -/
inductive SourceIterator where
  | memtable (it : MemTableIterator)
  | table (it : TwoLevelIterator)

instance : InternalIterator SourceIterator where
  valid
    | .memtable it => it.valid
    | .table it => it.valid
  seekToFirst
    | .memtable it => .memtable it.seekToFirst
    | .table it => .table it.seekToFirst
  seek
    | .memtable it, target => .memtable (it.seek target)
    | .table it, target => .table (it.seek target)
  next
    | .memtable it => .memtable it.next
    | .table it => .table it.next
  entry
    | .memtable it => it.entry
    | .table it => it.entry
  status
    | .memtable _ => .ok
    | .table it => it.statusOf

namespace DBImpl

def memtable (db : DBImpl) (index : Nat) : Memtable := db.heap.getD index .new

def active (db : DBImpl) : Memtable := db.memtable db.mem

/-- `imm_ = mem_`, with a new memtable and a new log in its place. -/
def switchMemtable (db : DBImpl) : Prog DBImpl := do
  let (number, versions) := db.versions.newFileNumber
  let writer ← WalWriter.new (.log number)
  pure { db with
    versions := versions
    heap := db.heap ++ [.new]
    mem := db.heap.length
    imm := some db.mem
    walWriter := writer
    logFileNumber := number }

/-- `none` while the writer has to wait for the background thread. -/
def makeRoomForWrite (db : DBImpl) : Prog (Option DBImpl) := do
  if db.active.approximateMemoryUsage < db.options.writeBufferSize then
    return some db
  if db.imm.isSome then
    return none
  let db ← db.switchMemtable
  return some db

/-- `Put` and `Delete` differ in the type and the value of the entry. -/
def write (db : DBImpl) (type : ValueType) (key : Key) (value : Bytes) :
    Prog (Option (Status × DBImpl)) := do
  match ← db.makeRoomForWrite with
  | none => return none
  | some db =>
    let e : Entry := ⟨key, db.versions.lastSequence + 1, type, value⟩
    let status ← db.walWriter.appendRecord e db.options.sync
    if !status.isOk then
      return some (status, db)
    return some (.ok, { db with
      heap := db.heap.modify db.mem fun m => m.add e
      versions := db.versions.setLastSequence e.seq })

def put (db : DBImpl) (key : Key) (value : Bytes) : Prog (Option (Status × DBImpl)) :=
  db.write kTypeValue key value

def delete (db : DBImpl) (key : Key) : Prog (Option (Status × DBImpl)) :=
  db.write kTypeDeletion key []

/-- What `Get` takes under the mutex. -/
structure Snapshot where
  mem : Nat
  imm : Option Nat
  current : Version
  seq : Nat

def capture (db : DBImpl) : Snapshot := ⟨db.mem, db.imm, db.versions.current, db.versions.lastSequence⟩

/-- The lookups of `Get`, made without the mutex on what it took. -/
def lookupSnapshot (db : DBImpl) (dir : Dir) (faults : Faults) (snap : Snapshot) (key : Key) :
    Lookup :=
  ((db.memtable snap.mem).get key snap.seq).orElse
    (((snap.imm.map fun index => (db.memtable index).get key snap.seq).getD .absent).orElse
      (snap.current.get dir faults key snap.seq))

/-- The status `Get` returns, with the value where that is OK. -/
def lookupStatus : Lookup → Status × Bytes
  | .absent => (.notFound "", [])
  | .found value => (.ok, value)
  | .deleted => (.notFound "", [])
  | .failed status => (status, [])

def get (db : DBImpl) (dir : Dir) (faults : Faults) (key : Key) : Status × Bytes :=
  lookupStatus (db.lookupSnapshot dir faults db.capture key)

def memtables (db : DBImpl) (snap : Snapshot) : List Memtable :=
  db.memtable snap.mem :: (snap.imm.map db.memtable).toList

/-- `NewIterator`, with what it took under the mutex. -/
def newIterator (db : DBImpl) (dir : Dir) (faults : Faults) (snap : Snapshot) :
    DBIterator SourceIterator :=
  DBIterator.new (newMergingIterator
    ((db.memtables snap).map (fun m => .memtable m.newIterator) ++
      (snap.current.addIterators dir faults).map .table)) snap.seq

/-- `FlushMemTable` up to its wait for the background thread. -/
def flushMemTable (db : DBImpl) : Prog DBImpl := do
  if db.active.count > 0 then
    db.switchMemtable
  else
    return db

def removeFiles (live : List Nat) : List FileName → Prog Unit
  | [] => pure ()
  | name :: rest =>
    match tableFileNumber name with
    | none => removeFiles live rest
    | some none => Sys.stuck
    | some (some number) => do
      if number ∉ live then
        let _ ← Sys.unlink name
        removeFiles live rest
      else
        removeFiles live rest

def removeObsoleteFiles (db : DBImpl) : Prog Unit := do
  let dir ← Sys.readDir
  removeFiles db.versions.liveFiles dir.keys

/-- The minor compaction. `imm_` is cleared whatever the status is. -/
def flushImmutable (db : DBImpl) : Prog (Status × DBImpl) := do
  match db.imm with
  | none => return (.ok, db)
  | some index =>
    let (table, versions) ← writeLevel0Table db.options db.versions (db.memtable index)
    match table with
    | .error status => return (status, { db with versions := versions, imm := none })
    | .ok file =>
      let edit := { ({} : VersionEdit).addFile 0 file with logNumber := some db.logFileNumber }
      let (status, versions) ← versions.logAndApply edit
      return (status, { db with versions := versions, imm := none })

def majorCompaction (db : DBImpl) : Prog (Status × DBImpl) := do
  match Compaction.pickCompaction db.options db.versions.current with
  | none => return (.ok, db)
  | some c =>
    let (status, versions) ← doCompaction db.options db.versions c
    return (status, { db with versions := versions })

def backgroundCompaction (db : DBImpl) : Prog DBImpl := do
  let (_, db) ← db.flushImmutable
  let (_, db) ← db.majorCompaction
  db.removeObsoleteFiles
  return db

def compactRange (db : DBImpl) : Prog (Status × DBImpl) := do
  match Compaction.pickCompaction db.options db.versions.current with
  | none => return (.ok, db)
  | some c =>
    let (status, versions) ← doCompaction db.options db.versions c
    let db := { db with versions := versions }
    db.removeObsoleteFiles
    return (status, db)

end DBImpl

end Strata

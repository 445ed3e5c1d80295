import Mathlib.Data.List.Sort
import Strata.Memtable
import Strata.VersionEdit
import Strata.Wal

/-! Versions, point lookups in them, and the version set that records them in
a manifest. -/
namespace Strata

open Library System

abbrev kNumLevels : Nat := 7

instance instNeZeroNumLevels : NeZero kNumLevels := ⟨by decide⟩

instance instLawfulBEqNatProd : LawfulBEq (Nat × Nat) := inferInstance

structure Version where
  files : Fin kNumLevels → List FileMetaData

def Version.empty : Version := ⟨fun _ => []⟩

abbrev Faults := FileName → Option Nat

/-- The reader of a file: the one it has, or the one opening the table gives. -/
def FileMetaData.openReader (dir : Dir) (faults : Faults) (f : FileMetaData) :
    Except Status SSTableReader :=
  match f.reader with
  | some reader => .ok reader
  | none => SSTableReader.openTable (dir.lookup (.table f.number)) (faults (.table f.number))
      f.number f.fileSize

/-- Fill in a missing reader; a table that does not open leaves it missing. -/
def FileMetaData.withReader (dir : Dir) (faults : Faults) (f : FileMetaData) : FileMetaData :=
  { f with reader := (f.openReader dir faults).toOption }

namespace Version

def levelBytes (v : Version) (level : Fin kNumLevels) : Nat :=
  ((v.files level).map FileMetaData.fileSize).sum % 2 ^ 64

def getFile (dir : Dir) (faults : Faults) (key : Key) (seq : Nat) (f : FileMetaData) : Lookup :=
  match f.openReader dir faults with
  | .error status => .failed status
  | .ok reader => reader.get key seq

def getLevel0 (dir : Dir) (faults : Faults) (key : Key) (seq : Nat) : List FileMetaData → Lookup
  | [] => .absent
  | f :: rest =>
    if key < f.smallestKey ∨ f.largestKey < key then getLevel0 dir faults key seq rest
    else (getFile dir faults key seq f).orElse (getLevel0 dir faults key seq rest)

/-- Where a key lies relative to a file: right of it, left of it, or in it. -/
def compareFile (files : List FileMetaData) (key : Key) (index : Nat) : Ordering :=
  let f := files.getD index default
  if f.largestKey < key then .lt else if key < f.smallestKey then .gt else .eq

def getLevel (dir : Dir) (faults : Faults) (key : Key) (seq : Nat) (files : List FileMetaData) :
    Lookup :=
  match Search.searchHit (compareFile files key) files.length 0 (files.length - 1) with
  | none => .absent
  | some candidate => getFile dir faults key seq (files.getD candidate default)

def getLevels (dir : Dir) (faults : Faults) (key : Key) (seq : Nat) :
    List (List FileMetaData) → Lookup
  | [] => .absent
  | files :: rest =>
    (getLevel dir faults key seq files).orElse (getLevels dir faults key seq rest)

def deeper (v : Version) : List (List FileMetaData) := (List.finRange kNumLevels).tail.map v.files

def get (v : Version) (dir : Dir) (faults : Faults) (key : Key) (seq : Nat) : Lookup :=
  (getLevel0 dir faults key seq (v.files 0)).orElse (getLevels dir faults key seq v.deeper)

def allFiles (v : Version) : List FileMetaData := (List.finRange kNumLevels).flatMap v.files

def addIterators (v : Version) (dir : Dir) (faults : Faults) : List TwoLevelIterator :=
  v.allFiles.filterMap fun f => (f.openReader dir faults).toOption.map SSTableReader.newIterator

def removeFiles (v : Version) (deleted : List (Nat × Nat)) : Version :=
  ⟨fun level => (v.files level).filter fun f => (level.val, f.number) ∉ deleted⟩

def pushFile (v : Version) (level : Nat) (f : FileMetaData) : Version :=
  ⟨fun l => if l.val = level then v.files l ++ [f] else v.files l⟩

def sort (v : Version) : Version :=
  ⟨fun level =>
    if level = 0 then (v.files level).insertionSort fun a b => b.number ≤ a.number
    else (v.files level).insertionSort fun a b => a.smallestKey ≤ b.smallestKey⟩

def addFiles (v : Version) (items : List (Nat × FileMetaData)) : Version :=
  items.foldl (fun v item => v.pushFile item.1 item.2) v

end Version

structure VersionSet where
  current : Version
  nextFileNumber : Nat
  manifestFileNumber : Nat
  lastSequence : Nat
  logNumber : Nat
  descriptorLog : Option WalWriter

namespace VersionSet

def new : VersionSet := ⟨.empty, 2, 0, 0, 0, none⟩

def setLastSequence (vs : VersionSet) (seq : Nat) : VersionSet :=
  if seq > vs.lastSequence then { vs with lastSequence := seq } else vs

theorem setLastSequence_eq (vs : VersionSet) (seq : Nat) :
    vs.setLastSequence seq = { vs with lastSequence := max vs.lastSequence seq } := by
  unfold setLastSequence
  split
  · rw [Nat.max_eq_right (by omega)]
  · rw [Nat.max_eq_left (by omega)]

def newFileNumber (vs : VersionSet) : Nat × VersionSet :=
  (vs.nextFileNumber, { vs with nextFileNumber := vs.nextFileNumber + 1 })

def liveFiles (vs : VersionSet) : List Nat := vs.current.allFiles.map FileMetaData.number

def manifestEntry (edit : VersionEdit) : Entry :=
  ⟨ascii ['M', 'A', 'N', 'I', 'F', 'E', 'S', 'T', '_', 'E', 'N', 'T', 'R', 'Y'], 0, kTypeValue,
    edit.encodeTo⟩

def byteComparator : Bytes :=
  ascii ['b', 'y', 't', 'e', '_', 'c', 'o', 'm', 'p', 'a', 'r', 'a', 't', 'o', 'r']

def snapshotEdit (vs : VersionSet) : VersionEdit :=
  { comparatorName := some byteComparator
    nextFileNumber := some vs.nextFileNumber
    lastSequence := some vs.lastSequence
    logNumber := some vs.logNumber
    newFiles := (List.finRange kNumLevels).flatMap fun level =>
      (vs.current.files level).map fun f => (level.val, f) }

def writeSnapshot (vs : VersionSet) (writer : WalWriter) : Prog Status :=
  writer.appendRecord (manifestEntry vs.snapshotEdit) true

/-- The manifest is created by the first edit that is logged: a new file with
a snapshot of the state so far, to which `CURRENT` is then switched. -/
def openDescriptor (vs : VersionSet) : Prog (Status × VersionSet) := do
  match vs.descriptorLog with
  | some _ => return (.ok, vs)
  | none =>
    let (number, vs) := vs.newFileNumber
    let vs := { vs with manifestFileNumber := number }
    let writer ← WalWriter.new (.manifest number)
    let status ← vs.writeSnapshot writer
    if !status.isOk then
      return (status, vs)
    let status ← setCurrentFile number
    if !status.isOk then
      return (status, vs)
    return (.ok, { vs with descriptorLog := some writer })

def completeEdit (vs : VersionSet) (edit : VersionEdit) : VersionEdit :=
  { edit with
    nextFileNumber := some (edit.nextFileNumber.getD vs.nextFileNumber)
    lastSequence := some (edit.lastSequence.getD vs.lastSequence) }

def installEdit (vs : VersionSet) (edit : VersionEdit) (dir : Dir) (faults : Faults) : Version :=
  ((vs.current.removeFiles edit.deletedFiles).addFiles
    (edit.newFiles.map fun item => (item.1, item.2.withReader dir faults))).sort

def logAndApply (vs : VersionSet) (edit : VersionEdit) : Prog (Status × VersionSet) := do
  let edit := vs.completeEdit edit
  -- a level outside the array has no defined meaning
  if edit.newFiles.any fun item => item.1 ≥ kNumLevels then
    Sys.stuck
  else
    let dir ← Sys.readDir
    let faults ← Sys.readFaults
    let v := vs.installEdit edit dir faults
    let (status, vs) ← vs.openDescriptor
    match status, vs.descriptorLog with
    | .ok, some writer =>
      let status ← writer.appendRecord (manifestEntry edit) true
      if !status.isOk then
        return (status, vs)
      return (.ok, { vs with
        current := v
        logNumber := edit.logNumber.getD vs.logNumber
        lastSequence := edit.lastSequence.getD vs.lastSequence })
    | status, _ => return (status, vs)

/-- What `Recover` gathers from the records of a manifest. -/
structure Recovery where
  version : Version := .empty
  maxFileNum : Nat := 0
  maxSeq : Nat := 0
  logNum : Nat := 0

def Recovery.addNew (r : Recovery) (item : Nat × FileMetaData) : Recovery :=
  { r with
    version := r.version.pushFile item.1 item.2
    maxFileNum :=
      if item.2.number ≥ r.maxFileNum then (item.2.number + 1) % 2 ^ 64 else r.maxFileNum }

def Recovery.apply (r : Recovery) (edit : VersionEdit) : Recovery :=
  edit.newFiles.foldl Recovery.addNew
    { version := r.version.removeFiles edit.deletedFiles
      maxFileNum := max r.maxFileNum (edit.nextFileNumber.getD 0)
      maxSeq := max r.maxSeq (edit.lastSequence.getD 0)
      logNum := edit.logNumber.getD r.logNum }

/-- The records in turn; `none` where a level lies outside the array. -/
def replayEdits (r : Recovery) : List Entry → Option (Except Status Recovery)
  | [] => some (.ok r)
  | record :: rest =>
    match VersionEdit.decodeFrom record.value with
    | .error status => some (.error status)
    | .ok edit =>
      if edit.newFiles.any fun item => item.1 ≥ kNumLevels then none
      else replayEdits (r.apply edit) rest

/-- `std::getline` of the bytes of `CURRENT` that can be read. -/
def currentLine (dir : Dir) (faults : Faults) : Option Bytes :=
  (dir.lookup .current).map fun bytes =>
    let readable := match faults .current with
      | none => bytes
      | some n => bytes.take n
    readable.takeWhile fun byte => byte ≠ 10

def manifestReader (dir : Dir) (faults : Faults) (line : Bytes) : WalReader :=
  WalReader.new (dir.lookup (resolve line)) (faults (resolve line))

def install (vs : VersionSet) (dir : Dir) (faults : Faults) (r : Recovery) : VersionSet :=
  let v := r.version.sort
  { vs with
    current := ⟨fun level => (v.files level).map (FileMetaData.withReader dir faults)⟩
    nextFileNumber := if r.maxFileNum > 0 then r.maxFileNum else 2
    lastSequence := r.maxSeq
    logNumber := r.logNum }

/-- `none` where the source has no defined meaning. What ended the reading is
not looked at. -/
def recover (vs : VersionSet) (dir : Dir) (faults : Faults) : Option (Status × VersionSet) :=
  match currentLine dir faults with
  | none => some (.notFound "CURRENT file not found", vs)
  | some line =>
    if line = [] then some (.corruption "Empty CURRENT file", vs)
    else
      let (records, ending) := (manifestReader dir faults line).readAll
      match replayEdits {} records with
      | none => none
      | some (.error status) => some (status, vs)
      | some (.ok r) =>
        match ending with
        | .undefined => none
        | .status _ => some (.ok, vs.install dir faults r)

end VersionSet

end Strata

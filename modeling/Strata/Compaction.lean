import Strata.MergingIterator
import Strata.VersionSet

/-! Picking a compaction and carrying it out. -/
namespace Strata

open Library System

instance instNeZeroSix : NeZero 6 := ⟨by decide⟩

/-- `inputs0` are files of `level`, `inputs1` overlapping files of the next
level. The last level has none below it and is never picked. -/
structure Compaction where
  level : Fin 6
  inputs0 : List FileMetaData
  inputs1 : List FileMetaData

namespace Compaction

def source (c : Compaction) : Fin kNumLevels := c.level.castSucc

def target (c : Compaction) : Fin kNumLevels := c.level.succ

def inputs (c : Compaction) : List FileMetaData := c.inputs0 ++ c.inputs1

def inRange (key : Key) (f : FileMetaData) : Bool := f.smallestKey ≤ key && key ≤ f.largestKey

/-- No file of the levels from `level + 2` on may hold the key. -/
def isBaseLevelForKey (c : Compaction) (key : Key) (current : Version) : Bool :=
  (List.finRange kNumLevels).all fun lvl =>
    lvl.val < c.level.val + 2 || (current.files lvl).all fun f => !inRange key f

def overlapping (minKey maxKey : Key) (files : List FileMetaData) : List FileMetaData :=
  files.filter fun f => !(f.largestKey < minKey || maxKey < f.smallestKey)

def hullMin (first : Key) (files : List FileMetaData) : Key :=
  files.foldl (fun key f => if f.smallestKey < key then f.smallestKey else key) first

def hullMax (first : Key) (files : List FileMetaData) : Key :=
  files.foldl (fun key f => if key < f.largestKey then f.largestKey else key) first

def pickLevel0 (current : Version) : Option Compaction :=
  match current.files 0 with
  | [] => none
  | f :: rest =>
    some ⟨0, f :: rest, overlapping (hullMin f.smallestKey (f :: rest))
      (hullMax f.largestKey (f :: rest)) (current.files 1)⟩

def sizeLimit (level : Fin 6) : Nat := 2 ^ (20 + (level.val - 1) * 2)

def pickBySize (current : Version) : List (Fin 6) → Option Compaction
  | [] => none
  | level :: rest =>
    match current.files level.castSucc with
    | f :: _ =>
      if current.levelBytes level.castSucc > sizeLimit level then
        some ⟨level, [f],
          overlapping f.smallestKey f.largestKey (current.files level.succ)⟩
      else pickBySize current rest
    | [] => pickBySize current rest

def pickCompaction (options : Options) (current : Version) : Option Compaction :=
  if (current.files 0).length ≥ options.maxLevel0Files then pickLevel0 current
  else pickBySize current [1, 2, 3, 4, 5]

end Compaction

/-- The variables of `DoCompaction` that its lambdas and its loop share. -/
structure CompactionState where
  versions : VersionSet
  builder : Option SSTableBuilder
  currentFileNumber : Nat
  outputs : List FileMetaData
  lastKey : Option Key

namespace CompactionState

def openNewOutputFile (st : CompactionState) : Prog (SSTableBuilder × CompactionState) := do
  let (number, versions) := st.versions.newFileNumber
  let builder ← SSTableBuilder.new (.table number)
  pure (builder, { st with
    versions := versions, currentFileNumber := number, builder := some builder })

def finishOutputFile (options : Options) (st : CompactionState) :
    Prog (Status × CompactionState) := do
  match st.builder with
  | none => return (.ok, st)
  | some builder =>
    if builder.numEntries = 0 then
      return (.ok, { st with builder := none })
    let (status, builder) ← builder.finish options
    if !status.isOk then
      return (status, st)
    let dir ← Sys.readDir
    let faults ← Sys.readFaults
    let name := FileName.table st.currentFileNumber
    match SSTableReader.openTable (dir.lookup name) (faults name) st.currentFileNumber
        builder.fileSize with
    | .error status => return (status, st)
    | .ok reader =>
      return (.ok, { st with
        builder := none
        outputs := st.outputs ++ [⟨st.currentFileNumber, builder.fileSize, builder.smallestKey,
          builder.largestKey, some reader⟩] })

/-- `if (!builder) OpenNewOutputFile();` -/
def ensureOutputFile (st : CompactionState) : Prog (SSTableBuilder × CompactionState) :=
  match st.builder with
  | some builder => pure (builder, st)
  | none => st.openNewOutputFile

def addEntry (options : Options) (st : CompactionState) (e : Entry) :
    Prog (Status × CompactionState) := do
  let (builder, st) ← st.ensureOutputFile
  let builder ← builder.add options e
  let st := { st with builder := some builder }
  if builder.fileSize ≥ options.maxFileSize then
    st.finishOutputFile options
  else
    return (.ok, st)

def step (options : Options) (c : Compaction) (st : CompactionState) (e : Entry) :
    Prog (Status × CompactionState) := do
  if st.lastKey = some e.userKey then
    return (.ok, st)
  let st := { st with lastKey := some e.userKey }
  if e.type = kTypeDeletion ∧ c.isBaseLevelForKey e.userKey st.versions.current then
    return (.ok, st)
  st.addEntry options e

/-- `while (input_iter->Valid())` -/
def loop (options : Options) (c : Compaction) :
    Nat → MergingIterator TwoLevelIterator → CompactionState → Prog (Status × CompactionState)
  | 0, _, _ => Sys.stuck
  | fuel + 1, it, st => do
    if !it.valid then
      return (.ok, st)
    let (status, st) ← st.step options c it.entry
    if !status.isOk then
      return (status, st)
    loop options c fuel it.next st

end CompactionState

/-- The readers of the inputs, or the status of the first that does not open. -/
def openInputs (dir : Dir) (faults : Faults) : List FileMetaData → Except Status (List SSTableReader)
  | [] => .ok []
  | f :: rest => do
    let reader ← f.openReader dir faults
    let readers ← openInputs dir faults rest
    pure (reader :: readers)

def unlinkTables : List FileMetaData → Prog Unit
  | [] => pure ()
  | f :: rest => do
    let _ ← Sys.unlink (.table f.number)
    unlinkTables rest

def Compaction.edit (c : Compaction) (outputs : List FileMetaData) : VersionEdit :=
  let deleted := c.inputs1.foldl (fun edit f => edit.deleteFile (c.level.val + 1) f.number)
    (c.inputs0.foldl (fun edit f => edit.deleteFile c.level.val f.number) {})
  outputs.foldl (fun edit f => edit.addFile (c.level.val + 1) f) deleted

/-- Every entry of a table takes 17 bytes or more, in its block and in the index. -/
def scanFuel (readers : List SSTableReader) : Nat :=
  (readers.map fun r => r.data.length * r.data.length + 1).sum + 1

/-- The part of `DoCompaction` behind the last output file. -/
def Compaction.installOutputs (c : Compaction) (versions : VersionSet)
    (outputs : List FileMetaData) : Prog (Status × VersionSet) := do
  let _ ← syncDirectory
  let (status, versions) ← versions.logAndApply (c.edit outputs)
  if !status.isOk then
    return (status, versions)
  unlinkTables c.inputs
  let _ ← syncDirectory
  return (.ok, versions)

def doCompaction (options : Options) (versions : VersionSet) (c : Compaction) :
    Prog (Status × VersionSet) := do
  let dir ← Sys.readDir
  let faults ← Sys.readFaults
  match openInputs dir faults c.inputs with
  | .error status => return (status, versions)
  | .ok readers =>
    match newMergingIterator (readers.map SSTableReader.newIterator) with
    | none => return (.ok, versions)
    | some iter =>
      let (status, st) ← CompactionState.loop options c (scanFuel readers) iter.seekToFirst
        ⟨versions, none, 0, [], none⟩
      if !status.isOk then
        return (status, st.versions)
      let (status, st) ← st.finishOutputFile options
      if !status.isOk then
        return (status, st.versions)
      c.installOutputs st.versions st.outputs

end Strata

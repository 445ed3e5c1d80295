import Strata.InternalIterator
import Strata.SSTableBuilder

/-! Reading a table: opening it, a point lookup, and the two-level iterator
that walks the index and the data blocks. -/
namespace Strata

open Library System

/-- `Get` of a memtable, a table or a version: `absent` is `false`, the others
are `true` with the status and the value that go with it. -/
inductive Lookup where
  | absent
  | found (value : Bytes)
  | deleted
  | failed (status : Status)
  deriving DecidableEq, Repr

def Lookup.orElse : Lookup → Lookup → Lookup
  | .absent, next => next
  | answer, _ => answer

/-- An open table. It keeps the bytes of the file, which stay readable through
the descriptor when the name is gone, and where reading them fails. -/
structure SSTableReader where
  data : Bytes
  fault : Option Nat
  fileNumber : Nat
  fileSize : Nat
  indexBlock : Block
  filterData : Bytes
  deriving DecidableEq, Repr

def kMaxBlockSize : Nat := 64 * 1024 * 1024

/-- The bytes `pread` returns for a range of the file. -/
def pread (data : Bytes) (fault : Option Nat) (offset length : Nat) : Bytes :=
  let readable := match fault with
    | none => data
    | some n => data.take n
  (readable.drop offset).take length

def readBlockFrom (data : Bytes) (fault : Option Nat) (fileSize : Nat) (handle : BlockHandle) :
    Except Status Block :=
  if handle.size > kMaxBlockSize ∨ (handle.offset + handle.size + 4) % 2 ^ 64 > fileSize then
    .error (.corruption "Invalid block handle bounds")
  else
    let buffer := pread data fault handle.offset (handle.size + 4)
    if buffer.length < handle.size + 4 then
      .error (.ioError "Failed to read block from file")
    else if (crc32 (buffer.take handle.size)).toNat ≠ decodeFixed32 (buffer.drop handle.size) then
      .error (.corruption "Block checksum mismatch")
    else .ok (Block.new (buffer.take handle.size))

def readFilter (data : Bytes) (fault : Option Nat) (fileSize : Nat) (handle : BlockHandle) :
    Except Status Bytes :=
  if handle.size = 0 then .ok []
  else if handle.size > kMaxBlockSize ∨
      (handle.offset + handle.size + 4) % 2 ^ 64 > fileSize then
    .error (.corruption "Invalid filter handle bounds")
  else
    let buffer := pread data fault handle.offset (handle.size + 4)
    if buffer.length = handle.size + 4 ∧
        (crc32 (buffer.take handle.size)).toNat = decodeFixed32 (buffer.drop handle.size) then
      .ok (buffer.take handle.size)
    else .ok []

namespace SSTableReader

def openTable (file : Option Bytes) (fault : Option Nat) (fileNumber fileSize : Nat) :
    Except Status SSTableReader := do
  if fileSize < 48 then
    throw (.corruption "File too short for SSTable")
  match file with
  | none => throw (.ioError "Failed to open SSTable")
  | some data =>
    let footer := pread data fault (fileSize - 48) 48
    if footer.length ≠ 48 then
      throw (.ioError "Failed to read SSTable footer")
    if decodeFixed64 (footer.drop 40) ≠ kTableMagicNumber then
      throw (.corruption "Bad SSTable magic number")
    let filterHandle ← BlockHandle.decodeFrom (footer.take 16)
    let indexHandle ← BlockHandle.decodeFrom ((footer.drop 16).take 16)
    let indexBlock ← readBlockFrom data fault fileSize indexHandle
    let filterData ← readFilter data fault fileSize filterHandle
    pure ⟨data, fault, fileNumber, fileSize, indexBlock, filterData⟩

def readBlock (r : SSTableReader) (handle : BlockHandle) : Except Status Block :=
  readBlockFrom r.data r.fault r.fileSize handle

def readHandle (r : SSTableReader) (value : Bytes) : Except Status Block := do
  let handle ← BlockHandle.decodeFrom value
  r.readBlock handle

/-- The loop of `Get` over one data block. -/
def getScan (key : Key) (seq : Nat) : Nat → BlockIter → Lookup
  | 0, _ => .absent
  | fuel + 1, it =>
    if it.valid ∧ it.entry.userKey = key then
      if it.entry.seq ≤ seq ∧ it.entry.type = kTypeValue then .found it.entry.value
      else if it.entry.seq ≤ seq ∧ it.entry.type = kTypeDeletion then .deleted
      else getScan key seq fuel it.next
    else .absent

def get (r : SSTableReader) (key : Key) (seq : Nat) : Lookup :=
  if r.filterData ≠ [] ∧ !BloomFilter.keyMayMatch key r.filterData then .absent
  else
    let index := r.indexBlock.newIterator.seek key
    if !index.valid then .absent
    else
      match r.readHandle index.entry.value with
      | .error status => .failed status
      | .ok block => getScan key seq (block.data.length + 1) (block.newIterator.seek key)

end SSTableReader

structure TwoLevelIterator where
  reader : SSTableReader
  indexIter : BlockIter
  dataIter : Option BlockIter
  status : Status
  deriving DecidableEq, Repr

def SSTableReader.newIterator (r : SSTableReader) : TwoLevelIterator :=
  ⟨r, r.indexBlock.newIterator, none, .ok⟩

namespace TwoLevelIterator

def valid (it : TwoLevelIterator) : Bool :=
  match it.dataIter with
  | none => false
  | some data => data.valid

def initDataBlock (it : TwoLevelIterator) : TwoLevelIterator :=
  if !it.indexIter.valid then { it with dataIter := none }
  else
    match it.reader.readHandle it.indexIter.entry.value with
    | .error status => { it with dataIter := none, status := status }
    | .ok block => { it with dataIter := some block.newIterator }

def skipEmptyDataBlocksForward : Nat → TwoLevelIterator → TwoLevelIterator
  | 0, it => { it with dataIter := none }
  | fuel + 1, it =>
    if it.valid then it
    else if !it.indexIter.valid then { it with dataIter := none }
    else
      let it := { it with indexIter := it.indexIter.next }.initDataBlock
      skipEmptyDataBlocksForward fuel { it with dataIter := it.dataIter.map BlockIter.seekToFirst }

def skipEmptyDataBlocksBackward : Nat → TwoLevelIterator → TwoLevelIterator
  | 0, it => { it with dataIter := none }
  | fuel + 1, it =>
    if it.valid then it
    else if !it.indexIter.valid then { it with dataIter := none }
    else
      let it := { it with indexIter := it.indexIter.prev }.initDataBlock
      skipEmptyDataBlocksBackward fuel { it with dataIter := it.dataIter.map BlockIter.seekToLast }

def skipForward (it : TwoLevelIterator) : TwoLevelIterator :=
  skipEmptyDataBlocksForward (it.reader.indexBlock.data.length + 1) it

def skipBackward (it : TwoLevelIterator) : TwoLevelIterator :=
  skipEmptyDataBlocksBackward (it.reader.indexBlock.data.length + 1) it

def seekToFirst (it : TwoLevelIterator) : TwoLevelIterator :=
  let it := { it with indexIter := it.indexIter.seekToFirst }.initDataBlock
  skipForward { it with dataIter := it.dataIter.map BlockIter.seekToFirst }

def seekToLast (it : TwoLevelIterator) : TwoLevelIterator :=
  let it := { it with indexIter := it.indexIter.seekToLast }.initDataBlock
  skipBackward { it with dataIter := it.dataIter.map BlockIter.seekToLast }

def seek (it : TwoLevelIterator) (target : Key) : TwoLevelIterator :=
  let it := { it with indexIter := it.indexIter.seek target }.initDataBlock
  skipForward { it with dataIter := it.dataIter.map fun data => data.seek target }

def next (it : TwoLevelIterator) : TwoLevelIterator :=
  skipForward { it with dataIter := it.dataIter.map BlockIter.next }

def prev (it : TwoLevelIterator) : TwoLevelIterator :=
  skipBackward { it with dataIter := it.dataIter.map BlockIter.prev }

def entry (it : TwoLevelIterator) : Entry :=
  match it.dataIter with
  | none => ⟨[], 0, kTypeValue, []⟩
  | some data => data.entry

def statusOf (it : TwoLevelIterator) : Status :=
  if !it.status.isOk then it.status
  else
    match it.dataIter with
    | none => .ok
    | some data => data.status

end TwoLevelIterator

instance : InternalIterator BlockIter where
  valid := BlockIter.valid
  seekToFirst := BlockIter.seekToFirst
  seek := BlockIter.seek
  next := BlockIter.next
  entry := BlockIter.entry
  status := BlockIter.status

instance : InternalIterator TwoLevelIterator where
  valid := TwoLevelIterator.valid
  seekToFirst := TwoLevelIterator.seekToFirst
  seek := TwoLevelIterator.seek
  next := TwoLevelIterator.next
  entry := TwoLevelIterator.entry
  status := TwoLevelIterator.statusOf

instance : ReversibleIterator BlockIter where
  seekToLast := BlockIter.seekToLast
  prev := BlockIter.prev

instance : ReversibleIterator TwoLevelIterator where
  seekToLast := TwoLevelIterator.seekToLast
  prev := TwoLevelIterator.prev

def SSTableReader.entries (r : SSTableReader) : List Entry :=
  collect (r.data.length * r.data.length + 1) r.newIterator.seekToFirst

end Strata

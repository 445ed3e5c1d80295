import Strata.Block
import Strata.BloomFilter
import Strata.Crc32
import Strata.Env

/-! Writing a table: data blocks, the filter, the index and the footer, each
block behind the other with its checksum. -/
namespace Strata

open Library System

def kTableMagicNumber : Nat := 0x5354524154413031

structure SSTableBuilder where
  filename : FileName
  offset : Nat
  numEntries : Nat
  dataBlock : BlockBuilder
  indexBlock : BlockBuilder
  keysForFilter : List Key
  lastKeyInBlock : Key
  smallestKey : Key
  largestKey : Key
  status : Status
  deriving DecidableEq, Repr

namespace SSTableBuilder

def new (filename : FileName) : Prog SSTableBuilder := do
  let opened ← Sys.openTrunc filename
  pure ⟨filename, 0, 0, .new 16, .new 1, [], [], [], [],
    if opened then .ok else .ioError "Failed to create file"⟩

def fileSize (b : SSTableBuilder) : Nat := b.offset

/-- `offset_` moves with the bytes that were written, also in a write that fails. -/
def writeRawBlock (b : SSTableBuilder) (contents : Bytes) :
    Prog (Status × BlockHandle × SSTableBuilder) := do
  let handle : BlockHandle := ⟨b.offset, contents.length⟩
  match ← Sys.append b.filename contents with
  | some written =>
    return (.ioError "Failed to write block", handle, { b with offset := b.offset + written })
  | none =>
    let b := { b with offset := b.offset + contents.length }
    let trailer := encodeFixed32 (crc32 contents).toNat
    match ← Sys.append b.filename trailer with
    | some written =>
      return (.ioError "Failed to write block trailer", handle,
        { b with offset := b.offset + written })
    | none => return (.ok, handle, { b with offset := b.offset + 4 })

def flushBlock (b : SSTableBuilder) : Prog SSTableBuilder := do
  if b.dataBlock.empty then
    return b
  let (status, handle, b) ← b.writeRawBlock b.dataBlock.finish
  let b := { b with status := status }
  if !status.isOk then
    return b
  return { b with
    indexBlock := b.indexBlock.add ⟨b.lastKeyInBlock, 0, kTypeValue, handle.encodeTo⟩
    dataBlock := b.dataBlock.reset }

def add (options : Options) (b : SSTableBuilder) (e : Entry) : Prog SSTableBuilder := do
  if !b.status.isOk then
    return b
  let b := { b with
    smallestKey := if b.numEntries = 0 then e.userKey else b.smallestKey
    largestKey := e.userKey
    keysForFilter := b.keysForFilter ++ [e.userKey]
    lastKeyInBlock := e.userKey
    dataBlock := b.dataBlock.add e
    numEntries := b.numEntries + 1 }
  if b.dataBlock.currentSizeEstimate ≥ options.blockSize then
    b.flushBlock
  else
    return b

def footer (filter index : BlockHandle) : Bytes :=
  filter.encodeTo ++ (index.encodeTo ++ (List.replicate 8 0 ++ encodeFixed64 kTableMagicNumber))

/-- The status of the last `FlushBlock` is not looked at: the filter's write
overwrites it. -/
def finish (options : Options) (b : SSTableBuilder) : Prog (Status × SSTableBuilder) := do
  if !b.status.isOk then
    return (b.status, b)
  let b ← b.flushBlock
  let (status, filterHandle, b) ← b.writeRawBlock
    (BloomFilter.createFilter b.keysForFilter options.bloomBitsPerKey)
  let b := { b with status := status }
  if !status.isOk then
    return (status, b)
  let (status, indexHandle, b) ← b.writeRawBlock b.indexBlock.finish
  let b := { b with status := status }
  if !status.isOk then
    return (status, b)
  match ← Sys.append b.filename (footer filterHandle indexHandle) with
  | some written =>
    return (.ioError "Failed to write footer", { b with offset := b.offset + written })
  | none =>
    let b := { b with offset := b.offset + 48 }
    let status : Status ← if ← Sys.sync b.filename then pure .ok
      else pure (.ioError "fdatasync failed")
    return (status, { b with status := status })

/-- `Add` for every entry in turn. -/
def addAll (options : Options) : SSTableBuilder → List Entry → Prog SSTableBuilder
  | b, [] => pure b
  | b, e :: rest => do
    let b ← b.add options e
    addAll options b rest

def build (options : Options) (filename : FileName) (es : List Entry) :
    Prog (Status × SSTableBuilder) := do
  let b ← new filename
  let b ← b.addAll options es
  b.finish options

end SSTableBuilder

end Strata

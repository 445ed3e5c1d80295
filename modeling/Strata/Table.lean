import Mathlib.Data.List.Find
import Mathlib.Data.List.GetD
import Strata.SSTableReader

/-! The contents of a table file, and what reading such a file gives: it opens,
a forward pass shows its entries, and a lookup finds the first entry of a key. -/
namespace Strata

open Library System

def sealBlock (contents : Bytes) : Bytes := contents ++ encodeFixed32 (crc32 contents).toNat

@[simp] theorem length_sealBlock (contents : Bytes) :
    (sealBlock contents).length = contents.length + 4 := by
  simp [sealBlock]

def lastKey (es : List Entry) : Key := (es.getLast?.map Entry.userKey).getD []

def firstKey (es : List Entry) : Key := (es.head?.map Entry.userKey).getD []

abbrev DataBlock := Bytes × List Entry

/-- The index has one entry for each data block, under the last key in it. -/
def indexEntries : Nat → List DataBlock → List Entry
  | _, [] => []
  | offset, (data, es) :: rest =>
    ⟨lastKey es, 0, kTypeValue, BlockHandle.encodeTo ⟨offset, data.length⟩⟩ ::
      indexEntries (offset + (data.length + 4)) rest

structure Layout where
  blocks : List DataBlock
  filter : Bytes
  index : Bytes

def bodyOf (blocks : List DataBlock) : Bytes := blocks.flatMap fun b => sealBlock b.1

namespace Layout

def filterHandle (l : Layout) : BlockHandle := ⟨(bodyOf l.blocks).length, l.filter.length⟩

def indexHandle (l : Layout) : BlockHandle :=
  ⟨(bodyOf l.blocks).length + (l.filter.length + 4), l.index.length⟩

def image (l : Layout) : Bytes :=
  bodyOf l.blocks ++ (sealBlock l.filter ++ (sealBlock l.index ++
    SSTableBuilder.footer l.filterHandle l.indexHandle))

/-- A table that the reader takes back: every block within the reader's limit,
and every key in the filter. -/
structure Valid (l : Layout) (es : List Entry) : Prop where
  entries : es = (l.blocks.map Prod.snd).flatten
  blocks : ∀ b ∈ l.blocks, IsBlock b.1 b.2 ∧ b.2 ≠ [] ∧ b.1.length ≤ kMaxBlockSize
  index : IsBlock l.index (indexEntries 0 l.blocks)
  indexSmall : l.index.length ≤ kMaxBlockSize
  filterSmall : l.filter.length ≤ kMaxBlockSize
  matching : ∀ e ∈ es, BloomFilter.keyMayMatch e.userKey l.filter = true
  sorted : es.Pairwise fun a b => ¬ b.before a
  small : l.image.length < 2 ^ 64

/-- A table that the reader opens. A data block may still be longer than the
reader's limit, which shows when it is read. -/
structure Opens (l : Layout) (es : List Entry) : Prop where
  entries : es = (l.blocks.map Prod.snd).flatten
  blocks : ∀ b ∈ l.blocks, b.2 ≠ [] ∧ (b.1.length ≤ kMaxBlockSize → IsBlock b.1 b.2)
  index : IsBlock l.index (indexEntries 0 l.blocks)
  indexSmall : l.index.length ≤ kMaxBlockSize
  filterSmall : l.filter.length ≤ kMaxBlockSize
  matching : ∀ e ∈ es, BloomFilter.keyMayMatch e.userKey l.filter = true
  sorted : es.Pairwise fun a b => ¬ b.before a
  small : l.image.length < 2 ^ 64

theorem Valid.opens {l : Layout} {es : List Entry} (h : l.Valid es) : l.Opens es :=
  ⟨h.entries, fun b hb => ⟨(h.blocks b hb).2.1, fun _ => (h.blocks b hb).1⟩, h.index,
    h.indexSmall, h.filterSmall, h.matching, h.sorted, h.small⟩

theorem Opens.valid {l : Layout} {es : List Entry} (h : l.Opens es)
    (hblocks : ∀ b ∈ l.blocks, b.1.length ≤ kMaxBlockSize) : l.Valid es :=
  ⟨h.entries, fun b hb => ⟨(h.blocks b hb).2 (hblocks b hb), (h.blocks b hb).1, hblocks b hb⟩,
    h.index, h.indexSmall, h.filterSmall, h.matching, h.sorted, h.small⟩

end Layout

def IsTable (bytes : Bytes) (es : List Entry) : Prop := ∃ l : Layout, l.Valid es ∧ bytes = l.image

/-! Reading one sealed block out of a file. -/

theorem BlockHandle.decodeFrom_encodeTo (handle : BlockHandle) (hoffset : handle.offset < 2 ^ 64)
    (hsize : handle.size < 2 ^ 64) : BlockHandle.decodeFrom handle.encodeTo = .ok handle := by
  have hdrop : handle.encodeTo.drop 8 = encodeFixed64 handle.size ++ [] := by
    rw [BlockHandle.encodeTo, List.append_nil]
    exact List.drop_left' (length_encodeFixed64 _)
  unfold BlockHandle.decodeFrom
  rw [if_neg (by simp [BlockHandle.encodeTo]), hdrop, decodeFixed64_of_lt hsize,
    BlockHandle.encodeTo, decodeFixed64_of_lt hoffset]

@[simp] theorem take_sealBlock (contents : Bytes) :
    (sealBlock contents).take contents.length = contents := List.take_left

@[simp] theorem crc_sealBlock (contents : Bytes) :
    decodeFixed32 ((sealBlock contents).drop contents.length) = (crc32 contents).toNat := by
  rw [sealBlock, List.drop_left, ← List.append_nil (encodeFixed32 _),
    decodeFixed32_of_lt (crc32 contents).toNat_lt]

section Sealed

variable {data contents before after : Bytes}
  (h : data = before ++ (sealBlock contents ++ after))
include h

theorem pread_sealBlock :
    pread data none before.length (contents.length + 4) = sealBlock contents := by
  simp only [pread, h, List.drop_left]
  exact List.take_left' (length_sealBlock contents)

theorem sealBlock_bounds (hfile : data.length < 2 ^ 64) :
    (before.length + contents.length + 4) % 2 ^ 64 ≤ data.length := by
  have hlen : data.length = before.length + (contents.length + 4 + after.length) := by simp [h]
  rw [Nat.mod_eq_of_lt (by omega)]
  omega

theorem readBlockFrom_sealBlock (hsmall : contents.length ≤ kMaxBlockSize)
    (hfile : data.length < 2 ^ 64) :
    readBlockFrom data none data.length ⟨before.length, contents.length⟩ =
      .ok (Block.new contents) := by
  have hbounds := sealBlock_bounds h hfile
  unfold readBlockFrom
  simp only [pread_sealBlock h, length_sealBlock, take_sealBlock, crc_sealBlock]
  rw [if_neg (by omega), if_neg (by omega), if_neg (by simp)]

theorem readFilter_sealBlock (hsmall : contents.length ≤ kMaxBlockSize)
    (hfile : data.length < 2 ^ 64) :
    readFilter data none data.length ⟨before.length, contents.length⟩ = .ok contents := by
  have hbounds := sealBlock_bounds h hfile
  unfold readFilter
  simp only [pread_sealBlock h, length_sealBlock, take_sealBlock, crc_sealBlock]
  split
  · rename_i hzero
    rw [List.eq_nil_of_length_eq_zero hzero]
  · rw [if_neg (by omega), if_pos ⟨trivial, trivial⟩]

end Sealed

@[simp] theorem Layout.length_footer (filter index : BlockHandle) :
    (SSTableBuilder.footer filter index).length = 48 := by
  simp [SSTableBuilder.footer, BlockHandle.encodeTo]

/-- A file that ends in a filter, an index and the footer that leads to them. -/
def tableBytes (front filter index : Bytes) : Bytes :=
  front ++ (sealBlock filter ++ (sealBlock index ++ SSTableBuilder.footer
    ⟨front.length, filter.length⟩ ⟨front.length + (filter.length + 4), index.length⟩))

section Opening

variable {front filter index : Bytes}

theorem length_tableBytes (front filter index : Bytes) : (tableBytes front filter index).length =
    front.length + (filter.length + 4) + (index.length + 4) + 48 := by
  simp only [tableBytes, List.length_append, length_sealBlock, Layout.length_footer]
  omega

theorem openTable_footer (hsmall : (tableBytes front filter index).length < 2 ^ 64)
    (number : Nat) :
    SSTableReader.openTable (some (tableBytes front filter index)) none number
        (tableBytes front filter index).length =
      (readBlockFrom (tableBytes front filter index) none (tableBytes front filter index).length
        ⟨front.length + (filter.length + 4), index.length⟩).bind fun block =>
        (readFilter (tableBytes front filter index) none (tableBytes front filter index).length
          ⟨front.length, filter.length⟩).map fun read =>
          ⟨tableBytes front filter index, none, number, (tableBytes front filter index).length,
            block, read⟩ := by
  have hlen := length_tableBytes front filter index
  generalize hfoot : SSTableBuilder.footer ⟨front.length, filter.length⟩
    ⟨front.length + (filter.length + 4), index.length⟩ = footer
  have hfooter : pread (tableBytes front filter index) none
      ((tableBytes front filter index).length - 48) 48 = footer := by
    have hsplit : tableBytes front filter index =
        ((front ++ sealBlock filter) ++ sealBlock index) ++ footer := by
      rw [List.append_assoc, List.append_assoc, tableBytes, hfoot]
    have hat : (tableBytes front filter index).length - 48 =
        ((front ++ sealBlock filter) ++ sealBlock index).length := by
      rw [hlen]
      simp only [List.length_append, length_sealBlock]
      omega
    simp only [pread, hat]
    rw [hsplit, List.drop_left]
    exact List.take_of_length_le (by rw [← hfoot, Layout.length_footer])
  have hmagic : decodeFixed64 (footer.drop 40) = kTableMagicNumber := by
    have hdrop : footer.drop 40 = encodeFixed64 kTableMagicNumber ++ [] := by
      rw [← hfoot, SSTableBuilder.footer, List.append_nil, ← List.append_assoc,
        ← List.append_assoc]
      exact List.drop_left' (by simp [BlockHandle.encodeTo])
    rw [hdrop, decodeFixed64_of_lt (by decide)]
  have hfilterHandle : footer.take 16 =
      (⟨front.length, filter.length⟩ : BlockHandle).encodeTo := by
    rw [← hfoot]
    exact List.take_left' (by simp [BlockHandle.encodeTo])
  have hindexHandle : (footer.drop 16).take 16 =
      (⟨front.length + (filter.length + 4), index.length⟩ : BlockHandle).encodeTo := by
    rw [← hfoot, SSTableBuilder.footer, List.drop_left' (by simp [BlockHandle.encodeTo])]
    exact List.take_left' (by simp [BlockHandle.encodeTo])
  have hfilterDecode := BlockHandle.decodeFrom_encodeTo ⟨front.length, filter.length⟩
    (show front.length < 2 ^ 64 by omega) (show filter.length < 2 ^ 64 by omega)
  have hindexDecode := BlockHandle.decodeFrom_encodeTo
    ⟨front.length + (filter.length + 4), index.length⟩
    (show front.length + (filter.length + 4) < 2 ^ 64 by omega)
    (show index.length < 2 ^ 64 by omega)
  have hfootLength : footer.length = 48 := by rw [← hfoot, Layout.length_footer]
  unfold SSTableReader.openTable
  simp only [if_neg (show ¬ (tableBytes front filter index).length < 48 by omega), hfooter,
    hfootLength, hmagic, hfilterHandle, hindexHandle, hfilterDecode, hindexDecode, ne_eq,
    not_true_eq_false, ↓reduceIte, bind, Except.bind, pure, Except.pure]
  rfl

theorem openTable_bytes_iff (hsmall : (tableBytes front filter index).length < 2 ^ 64)
    (number : Nat) (r : SSTableReader) :
    SSTableReader.openTable (some (tableBytes front filter index)) none number
        (tableBytes front filter index).length = .ok r ↔
      index.length ≤ kMaxBlockSize ∧ filter.length ≤ kMaxBlockSize ∧
        r = ⟨tableBytes front filter index, none, number, (tableBytes front filter index).length,
          Block.new index, filter⟩ := by
  have hsplit : tableBytes front filter index = (front ++ sealBlock filter) ++
      (sealBlock index ++ SSTableBuilder.footer ⟨front.length, filter.length⟩
        ⟨front.length + (filter.length + 4), index.length⟩) := by
    rw [List.append_assoc]
    rfl
  rw [openTable_footer hsmall]
  by_cases hindex : index.length ≤ kMaxBlockSize
  · have hblock := readBlockFrom_sealBlock hsplit hindex hsmall
    rw [List.length_append, length_sealBlock] at hblock
    rw [hblock]
    by_cases hfilter : filter.length ≤ kMaxBlockSize
    · have hread : readFilter (tableBytes front filter index) none
          (tableBytes front filter index).length ⟨front.length, filter.length⟩ = .ok filter :=
        readFilter_sealBlock (by rfl) hfilter hsmall
      rw [hread]
      constructor
      · intro h
        exact ⟨hindex, hfilter, (Except.ok.inj h).symm⟩
      · rintro ⟨_, _, rfl⟩
        rfl
    · have hpos : ¬ filter.length = 0 := by omega
      have hread : readFilter (tableBytes front filter index) none
          (tableBytes front filter index).length ⟨front.length, filter.length⟩ =
          .error (.corruption "Invalid filter handle bounds") := by
        rw [readFilter, if_neg hpos, if_pos (Or.inl (not_le.mp hfilter))]
      rw [hread]
      constructor
      · intro h
        cases h
      · intro h
        exact absurd h.2.1 hfilter
  · have hblock : readBlockFrom (tableBytes front filter index) none
        (tableBytes front filter index).length ⟨front.length + (filter.length + 4), index.length⟩ =
        .error (.corruption "Invalid block handle bounds") := by
      rw [readBlockFrom, if_pos (Or.inl (not_le.mp hindex))]
    rw [hblock]
    constructor
    · intro h
      cases h
    · intro h
      exact absurd h.1 hindex

end Opening

namespace Layout

variable {l : Layout} {es : List Entry}

theorem length_image (l : Layout) : l.image.length =
    (bodyOf l.blocks).length + (l.filter.length + 4) + (l.index.length + 4) + 48 :=
  length_tableBytes _ _ _

def reader (l : Layout) (number : Nat) : SSTableReader :=
  ⟨l.image, none, number, l.image.length, Block.new l.index, l.filter⟩

theorem openTable_image (h : l.Opens es) (number : Nat) :
    SSTableReader.openTable (some l.image) none number l.image.length = .ok (l.reader number) :=
  (openTable_bytes_iff h.small number _).mpr ⟨h.indexSmall, h.filterSmall, rfl⟩

theorem openTable_limits (hsmall : l.image.length < 2 ^ 64) {number : Nat} {r : SSTableReader}
    (h : SSTableReader.openTable (some l.image) none number l.image.length = .ok r) :
    l.index.length ≤ kMaxBlockSize ∧ l.filter.length ≤ kMaxBlockSize := by
  obtain ⟨hindex, hfilter, _⟩ := (openTable_bytes_iff hsmall number r).mp h
  exact ⟨hindex, hfilter⟩

/-! The index entry of a block leads to the block. -/

theorem length_indexEntries (offset : Nat) (blocks : List DataBlock) :
    (indexEntries offset blocks).length = blocks.length := by
  induction blocks generalizing offset with
  | nil => rfl
  | cons b rest ih => simp [indexEntries, ih]

theorem bodyOf_cons (b : DataBlock) (rest : List DataBlock) :
    bodyOf (b :: rest) = sealBlock b.1 ++ bodyOf rest := rfl

theorem bodyOf_append (left right : List DataBlock) :
    bodyOf (left ++ right) = bodyOf left ++ bodyOf right := List.flatMap_append

theorem indexEntries_append (offset : Nat) (left right : List DataBlock) :
    indexEntries offset (left ++ right) =
      indexEntries offset left ++ indexEntries (offset + (bodyOf left).length) right := by
  induction left generalizing offset with
  | nil => simp [indexEntries, bodyOf]
  | cons b rest ih =>
    obtain ⟨data, es⟩ := b
    rw [List.cons_append, indexEntries, ih, bodyOf_cons, List.length_append, length_sealBlock,
      indexEntries, List.cons_append, Nat.add_assoc]

theorem indexEntries_get {blocks : List DataBlock} {j : Nat} {b : DataBlock}
    (hb : blocks[j]? = some b) (offset : Nat) :
    (indexEntries offset blocks)[j]? = some ⟨lastKey b.2, 0, kTypeValue,
      BlockHandle.encodeTo ⟨offset + (bodyOf (blocks.take j)).length, b.1.length⟩⟩ := by
  obtain ⟨hlt, hget⟩ := List.getElem?_eq_some_iff.mp hb
  have hsplit : blocks = blocks.take j ++ (b :: blocks.drop (j + 1)) := by
    rw [← hget, List.getElem_cons_drop, List.take_append_drop]
  have hlen : (indexEntries offset (blocks.take j)).length = j := by
    rw [length_indexEntries, List.length_take]
    omega
  conv_lhs => rw [hsplit, indexEntries_append]
  rw [List.getElem?_append_right (by omega), hlen, Nat.sub_self]
  obtain ⟨data, es⟩ := b
  rfl

/-- Where block `j` lies in the file. -/
def handleOf (l : Layout) (j : Nat) (b : DataBlock) : BlockHandle :=
  ⟨(bodyOf (l.blocks.take j)).length, b.1.length⟩

theorem body_split {blocks : List DataBlock} {j : Nat} {b : DataBlock} (hb : blocks[j]? = some b)
    (after : Bytes) :
    ∃ rest, bodyOf blocks ++ after = bodyOf (blocks.take j) ++ (sealBlock b.1 ++ rest) := by
  obtain ⟨hlt, hget⟩ := List.getElem?_eq_some_iff.mp hb
  have hsplit : blocks = blocks.take j ++ (b :: blocks.drop (j + 1)) := by
    rw [← hget, List.getElem_cons_drop, List.take_append_drop]
  refine ⟨bodyOf (blocks.drop (j + 1)) ++ after, ?_⟩
  conv_lhs => rw [hsplit, bodyOf_append, bodyOf_cons]
  simp only [List.append_assoc]

theorem image_split (l : Layout) {j : Nat} {b : DataBlock} (hb : l.blocks[j]? = some b) :
    ∃ after, l.image = bodyOf (l.blocks.take j) ++ (sealBlock b.1 ++ after) :=
  body_split hb _

theorem decodeFrom_handleOf (hsmall : l.image.length < 2 ^ 64) {j : Nat} {b : DataBlock}
    (hb : l.blocks[j]? = some b) :
    BlockHandle.decodeFrom (l.handleOf j b).encodeTo = .ok (l.handleOf j b) := by
  obtain ⟨after, himage⟩ := l.image_split hb
  have hlen := congrArg List.length himage
  simp only [List.length_append, length_sealBlock] at hlen
  apply BlockHandle.decodeFrom_encodeTo
  · simp only [handleOf]
    omega
  · simp only [handleOf]
    omega

theorem readHandle_sealed {r : SSTableReader} {before contents after : Bytes}
    (hdata : r.data = before ++ (sealBlock contents ++ after)) (hfault : r.fault = none)
    (hsize : r.fileSize = r.data.length) (hsmall : r.data.length < 2 ^ 64) :
    r.readHandle (BlockHandle.encodeTo ⟨before.length, contents.length⟩) =
      if contents.length ≤ kMaxBlockSize then .ok (Block.new contents)
      else .error (.corruption "Invalid block handle bounds") := by
  have hlen := congrArg List.length hdata
  simp only [List.length_append, length_sealBlock] at hlen
  rw [SSTableReader.readHandle, BlockHandle.decodeFrom_encodeTo _
    (show before.length < 2 ^ 64 by omega) (show contents.length < 2 ^ 64 by omega)]
  change readBlockFrom r.data r.fault r.fileSize _ = _
  rw [hfault, hsize]
  split
  · rename_i hlimit
    exact readBlockFrom_sealBlock hdata hlimit hsmall
  · rename_i hlarge
    exact if_pos (Or.inl (not_le.mp hlarge))

theorem readHandle_handleOf (hsmall : l.image.length < 2 ^ 64) (number : Nat) {j : Nat}
    {b : DataBlock} (hb : l.blocks[j]? = some b) :
    (l.reader number).readHandle (l.handleOf j b).encodeTo =
      if b.1.length ≤ kMaxBlockSize then .ok (Block.new b.1)
      else .error (.corruption "Invalid block handle bounds") := by
  obtain ⟨after, himage⟩ := l.image_split hb
  exact readHandle_sealed (by exact himage) rfl rfl (by exact hsmall)

theorem readHandle_block (h : l.Valid es) (number : Nat) {j : Nat} {b : DataBlock}
    (hb : l.blocks[j]? = some b) :
    (l.reader number).readHandle (l.handleOf j b).encodeTo = .ok (Block.new b.1) := by
  rw [readHandle_handleOf h.small number hb, if_pos (h.blocks b (List.mem_of_getElem? hb)).2.2]

end Layout

theorem BlockIter.At.yields {it : BlockIter} {data : Bytes} {es : List Entry} {index : Nat}
    (hat : it.At data es index) (h : IsBlock data es) : Yields it (es.drop index) := by
  induction hlen : es.length - index generalizing it index with
  | zero =>
    have hend : ¬ it.valid = true := fun hvalid => by
      have := (hat.valid_iff h).mp hvalid
      omega
    rw [List.drop_of_length_le (by omega)]
    exact Bool.eq_false_iff.mpr hend
  | succ n ih =>
    have hlt : index < es.length := by omega
    rw [List.drop_eq_getElem_cons hlt]
    exact ⟨(hat.valid_iff h).mpr hlt, (hat.parsed _ (List.getElem?_eq_getElem hlt)).2,
      ih (hat.next h hlt) (by omega)⟩

/-! The two-level iterator. -/

namespace TwoLevelIterator

variable {l : Layout} {es : List Entry} {number : Nat} {it : TwoLevelIterator}

/-- The iterator stands at entry `i` of block `j`. -/
structure At (it : TwoLevelIterator) (l : Layout) (number j : Nat) (b : DataBlock) (i : Nat) :
    Prop where
  reader : it.reader = l.reader number
  index : it.indexIter.At l.index (indexEntries 0 l.blocks) j
  block : l.blocks[j]? = some b
  data : ∃ data, it.dataIter = some data ∧ data.At b.1 b.2 i

theorem initDataBlock_block (it : TwoLevelIterator) (h : l.Valid es)
    (hreader : it.reader = l.reader number) {j : Nat}
    {b : DataBlock} (hindex : it.indexIter.At l.index (indexEntries 0 l.blocks) j)
    (hb : l.blocks[j]? = some b) :
    it.initDataBlock = { it with dataIter := some (Block.new b.1).newIterator } := by
  have hlt := (List.getElem?_eq_some_iff.mp hb).1
  have hentry := (hindex.parsed _ (Layout.indexEntries_get hb 0)).2
  have hvalid : it.indexIter.valid = true :=
    (hindex.valid_iff h.index).mpr (by rwa [Layout.length_indexEntries])
  have hread := Layout.readHandle_block h number hb
  unfold initDataBlock
  rw [hreader, hentry]
  simp only [hvalid, Nat.zero_add]
  rw [Layout.handleOf] at hread
  rw [hread]
  rfl

theorem indexBlock_length (h : l.Valid es) : 8 ≤ l.index.length := by
  obtain ⟨marks, hmarks, himage⟩ := h.index.image
  have hfirst := (List.getElem?_eq_some_iff.mp hmarks.first).1
  rw [himage, length_blockImage]
  omega

end TwoLevelIterator

/-! An error of reading a table is never OK. -/

theorem BlockHandle.decodeFrom_ne_ok (src : Bytes) : BlockHandle.decodeFrom src ≠ .error .ok := by
  unfold BlockHandle.decodeFrom
  split <;> simp

theorem readBlockFrom_ne_ok (data : Bytes) (fault : Option Nat) (size : Nat)
    (handle : BlockHandle) : readBlockFrom data fault size handle ≠ .error .ok := by
  unfold readBlockFrom
  simp only
  repeat' split
  all_goals simp

theorem readFilter_ne_ok (data : Bytes) (fault : Option Nat) (size : Nat)
    (handle : BlockHandle) : readFilter data fault size handle ≠ .error .ok := by
  unfold readFilter
  simp only
  repeat' split
  all_goals simp

theorem SSTableReader.openTable_ne_ok (file : Option Bytes) (fault : Option Nat)
    (number size : Nat) : openTable file fault number size ≠ .error .ok := by
  unfold openTable
  simp only [bind, Except.bind, pure, Except.pure, throw, throwThe, MonadExceptOf.throw]
  intro h
  repeat' split at h
  all_goals simp_all [BlockHandle.decodeFrom_ne_ok, readBlockFrom_ne_ok, readFilter_ne_ok]

theorem SSTableReader.openTable_fileSize {file : Option Bytes} {fault : Option Nat}
    {number size : Nat} {r : SSTableReader} (h : openTable file fault number size = .ok r) :
    r.fileSize = size := by
  unfold openTable at h
  simp only [bind, Except.bind, pure, Except.pure, throw, throwThe, MonadExceptOf.throw] at h
  repeat' split at h
  all_goals cases h
  rfl

theorem SSTableReader.readHandle_ne_ok (r : SSTableReader) (value : Bytes) :
    r.readHandle value ≠ .error .ok := by
  unfold readHandle
  cases hdecode : BlockHandle.decodeFrom value with
  | error status =>
    intro h
    cases h
    exact BlockHandle.decodeFrom_ne_ok value hdecode
  | ok handle => exact readBlockFrom_ne_ok r.data r.fault r.fileSize handle

/-! A forward pass. A block that cannot be read shows nothing, one that cannot be
parsed to its end shows a part, and the iterator goes on with the next one. -/

/-- What a forward pass shows of the block that this index value leads to. -/
inductive SSTableReader.Shows (r : SSTableReader) (value : Bytes) : List Entry → Prop
  | unread {status : Status} (hread : r.readHandle value = .error status) : Shows r value []
  | pass {block : Block} {shown : List Entry} (hread : r.readHandle value = .ok block)
      (hyields : Yields block.newIterator.seekToFirst shown) : Shows r value shown

/-- An index that can be read, and what the blocks behind its entries show. -/
structure SSTableReader.Parts (r : SSTableReader) (index : Bytes) (entries : List Entry)
    (parts : List (List Entry)) : Prop where
  reads : r.indexBlock = Block.new index
  block : IsBlock index entries
  length : parts.length = entries.length
  shows : ∀ j e, entries[j]? = some e → r.Shows e.value (parts.getD j [])

def SSTableReader.reads (r : SSTableReader) (e : Entry) : Bool := (r.readHandle e.value).isOk

theorem all_drop (p : Entry → Bool) (entries : List Entry) (j : Nat) :
    (entries.drop j).all p = (entries[j]?.all p && (entries.drop (j + 1)).all p) := by
  by_cases hlt : j < entries.length
  · rw [List.drop_eq_getElem_cons hlt, List.all_cons, List.getElem?_eq_getElem hlt, Option.all_some]
  · rw [List.drop_of_length_le (by omega), List.drop_of_length_le (by omega),
      List.getElem?_eq_none (by omega)]
    rfl

theorem flatten_drop (parts : List (List Entry)) (j : Nat) :
    (parts.drop j).flatten = parts.getD j [] ++ (parts.drop (j + 1)).flatten := by
  by_cases hlt : j < parts.length
  · rw [List.drop_eq_getElem_cons hlt, List.flatten_cons, List.getD_eq_getElem _ _ hlt]
  · rw [List.drop_of_length_le (by omega), List.drop_of_length_le (by omega),
      List.getD_eq_default _ _ (by omega)]
    rfl

namespace TwoLevelIterator

variable {r : SSTableReader} {index : Bytes} {entries : List Entry} {parts : List (List Entry)}
  {it : TwoLevelIterator} {j : Nat}

/-- The index stands at entry `j`, and the block there has this rest to show. -/
structure Within (it : TwoLevelIterator) (r : SSTableReader) (index : Bytes)
    (entries : List Entry) (j : Nat) (rest : List Entry) : Prop where
  reader : it.reader = r
  index : it.indexIter.At index entries j
  data : (it.dataIter = none ∧ rest = []) ∨ ∃ data, it.dataIter = some data ∧ Yields data rest

theorem initDataBlock_within (it : TwoLevelIterator) (h : r.Parts index entries parts)
    (hreader : it.reader = r) (hindex : it.indexIter.At index entries j) :
    Within { it.initDataBlock with
        dataIter := it.initDataBlock.dataIter.map BlockIter.seekToFirst } r index entries j
        (parts.getD j []) ∧
      it.initDataBlock.status.isOk = (it.status.isOk && entries[j]?.all r.reads) := by
  by_cases hlt : j < entries.length
  · have hvalid := (hindex.valid_iff h.block).mpr hlt
    have hentry := (hindex.parsed _ (List.getElem?_eq_getElem hlt)).2
    have hshows := h.shows j _ (List.getElem?_eq_getElem hlt)
    generalize parts.getD j [] = shown at hshows ⊢
    unfold initDataBlock
    simp only [hvalid, hentry, hreader, Bool.not_true, Bool.false_eq_true, ↓reduceIte]
    rw [List.getElem?_eq_getElem hlt, Option.all_some, SSTableReader.reads]
    cases hshows with
    | @unread status hread =>
      have hstatus : status.isOk = false := by
        rw [Status.isOk_eq_false]
        rintro rfl
        exact r.readHandle_ne_ok _ hread
      rw [hread]
      exact ⟨⟨rfl, hindex, Or.inl ⟨rfl, rfl⟩⟩, by simp [hstatus, Except.isOk, Except.toBool]⟩
    | pass hread hyields =>
      rw [hread]
      exact ⟨⟨rfl, hindex, Or.inr ⟨_, rfl, hyields⟩⟩, by simp [Except.isOk, Except.toBool]⟩
  · have hinvalid : it.indexIter.valid = false :=
      Bool.eq_false_iff.mpr fun hvalid => hlt ((hindex.valid_iff h.block).mp hvalid)
    have hnone : parts.getD j [] = [] := List.getD_eq_default _ _ (by rw [h.length]; omega)
    unfold initDataBlock
    simp only [hinvalid, Bool.not_false, ↓reduceIte]
    refine ⟨⟨hreader, hindex, Or.inl ⟨rfl, hnone⟩⟩, ?_⟩
    rw [List.getElem?_eq_none (Nat.le_of_not_lt hlt), Option.all_none, Bool.and_true]

theorem Within.invalid (h : it.Within r index entries j []) : it.valid = false := by
  rw [TwoLevelIterator.valid]
  rcases h.data with ⟨hnone, _⟩ | ⟨data, hdata, hyields⟩
  · rw [hnone]
  · rw [hdata]
    exact hyields

theorem Within.cons {e : Entry} {rest : List Entry} (h : it.Within r index entries j (e :: rest)) :
    it.valid = true ∧ it.entry = e ∧
      Within { it with dataIter := it.dataIter.map BlockIter.next } r index entries j rest := by
  rcases h.data with ⟨_, hnil⟩ | ⟨data, hdata, hvalid, hentry, hnext⟩
  · cases hnil
  · rw [TwoLevelIterator.valid, TwoLevelIterator.entry, hdata]
    exact ⟨hvalid, hentry, h.reader, h.index, Or.inr ⟨_, rfl, hnext⟩⟩

/-- From within a block the iterator shows the rest of it and the blocks behind. It
ends with an error if it had one or one of them cannot be read. The outer induction
is on the blocks that are left, the inner one on the rest of the block. -/
theorem Within.drains (h : r.Parts index entries parts) {rest : List Entry}
    (hat : it.Within r index entries j rest) {fuel : Nat} (hfuel : entries.length - j < fuel) :
    Drains (fun last : TwoLevelIterator => last.statusOf.isOk =
        (it.status.isOk && (entries.drop (j + 1)).all r.reads))
      (skipEmptyDataBlocksForward fuel it) (rest ++ (parts.drop (j + 1)).flatten) := by
  induction hleft : entries.length - j using Nat.strong_induction_on
    generalizing it j rest fuel with
  | _ left outer =>
    obtain ⟨fuel, rfl⟩ : ∃ n, fuel = n + 1 := ⟨fuel - 1, by omega⟩
    induction rest generalizing it fuel with
    | cons e rest inner =>
      obtain ⟨hvalid, hentry, hnext⟩ := hat.cons
      rw [skipEmptyDataBlocksForward, if_pos hvalid]
      refine ⟨hvalid, hentry, ?_⟩
      have hbound := BlockIter.length_lt_fuel (hat.index.toOver) h.block
      have hsame : it.indexIter.block = it.reader.indexBlock := by
        rw [hat.index.block, hat.reader, h.reads]
      rw [hsame] at hbound
      exact inner hnext _ (Nat.lt_of_le_of_lt (Nat.sub_le _ _) hbound)
    | nil =>
      rw [skipEmptyDataBlocksForward, if_neg (by simp [hat.invalid]), List.nil_append]
      by_cases hlt : j < entries.length
      · have hvalid := (hat.index.valid_iff h.block).mpr hlt
        obtain ⟨hblock, hstatus⟩ := initDataBlock_within { it with indexIter := it.indexIter.next } h
          hat.reader (hat.index.next h.block hlt)
        rw [if_neg (by simp [hvalid]), flatten_drop, all_drop r.reads entries (j + 1),
          ← Bool.and_assoc]
        have hrest := outer _ (by omega) hblock
          (show entries.length - (j + 1) < fuel by omega) rfl
        simp only [hstatus] at hrest
        exact hrest
      · have hinvalid : it.indexIter.valid = false :=
          Bool.eq_false_iff.mpr fun hvalid => hlt ((hat.index.valid_iff h.block).mp hvalid)
        have hparts : parts.length ≤ j + 1 := by
          rw [h.length]
          omega
        rw [if_pos (by simp [hinvalid]), List.drop_of_length_le hparts,
          List.drop_of_length_le (by omega), List.all_nil, Bool.and_true]
        refine ⟨rfl, ?_⟩
        cases hok : it.status.isOk with
        | true => simp [statusOf, hok]
        | false => simp [statusOf, hok]

end TwoLevelIterator

/-- A forward pass over a table shows what its blocks show, in their order, and ends
with an error exactly if one of them cannot be read. -/
theorem SSTableReader.Parts.drains {r : SSTableReader} {index : Bytes} {entries : List Entry}
    {parts : List (List Entry)} (h : r.Parts index entries parts) :
    Drains (fun last : TwoLevelIterator => last.statusOf.isOk = entries.all r.reads)
      r.newIterator.seekToFirst parts.flatten := by
  have hover : r.newIterator.indexIter.Over index := by
    rw [SSTableReader.newIterator, h.reads]
    exact Block.newIterator_over _
  have hindex := BlockIter.seekToFirst_at _ h.block hover
  obtain ⟨hblock, hstatus⟩ := TwoLevelIterator.initDataBlock_within
    { r.newIterator with indexIter := r.newIterator.indexIter.seekToFirst } h rfl hindex
  have hbound := BlockIter.length_lt_fuel hover h.block
  have hall : parts.flatten = parts.getD 0 [] ++ (parts.drop (0 + 1)).flatten := by
    rw [← flatten_drop, List.drop_zero]
  have hread : entries.all r.reads = (entries[0]?.all r.reads && (entries.drop (0 + 1)).all r.reads) := by
    rw [← all_drop, List.drop_zero]
  have hfuel : entries.length - 0 < r.indexBlock.data.length + 1 := hbound
  rw [← hblock.reader] at hfuel
  have hdrains := TwoLevelIterator.Within.drains h hblock hfuel
  rw [hall, hread]
  simp only [hstatus] at hdrains
  have hnew : r.newIterator.status.isOk = true := rfl
  rw [hnew, Bool.true_and] at hdrains
  exact hdrains

theorem SSTableReader.Parts.yields {r : SSTableReader} {index : Bytes} {entries : List Entry}
    {parts : List (List Entry)} (h : r.Parts index entries parts) :
    Yields r.newIterator.seekToFirst parts.flatten :=
  h.drains.yields

/-- What a forward pass shows of a block that was written: nothing where it is longer than
the reader's limit. -/
def shownOf (b : DataBlock) : List Entry := if b.1.length ≤ kMaxBlockSize then b.2 else []

theorem SSTableReader.parts_of_body {r : SSTableReader} {blocks : List DataBlock}
    {index after : Bytes} (hdata : r.data = bodyOf blocks ++ after) (hfault : r.fault = none)
    (hsize : r.fileSize = r.data.length) (hsmall : r.data.length < 2 ^ 64)
    (hreads : r.indexBlock = Block.new index) (hindex : IsBlock index (indexEntries 0 blocks))
    (hblocks : ∀ b ∈ blocks, b.1.length ≤ kMaxBlockSize → IsBlock b.1 b.2) :
    r.Parts index (indexEntries 0 blocks) (blocks.map shownOf) := by
  refine ⟨hreads, hindex, ?_, fun j e he => ?_⟩
  · rw [List.length_map, Layout.length_indexEntries]
  · have hlt : j < blocks.length := by
      rw [← Layout.length_indexEntries 0]
      exact (List.getElem?_eq_some_iff.mp he).1
    have hb : blocks[j]? = some blocks[j] := List.getElem?_eq_getElem hlt
    rw [Layout.indexEntries_get hb 0, Option.some.injEq] at he
    obtain ⟨rest, hsplit⟩ := Layout.body_split hb after
    have hread := Layout.readHandle_sealed (hdata.trans hsplit) hfault hsize hsmall
    rw [← he, Nat.zero_add, List.getD_eq_getElem _ _ (by rwa [List.length_map]), List.getElem_map,
      shownOf]
    by_cases hlimit : blocks[j].1.length ≤ kMaxBlockSize
    · rw [if_pos hlimit] at hread ⊢
      have hisBlock := hblocks _ (List.getElem_mem hlt) hlimit
      have hpass := (BlockIter.seekToFirst_at (Block.new blocks[j].1).newIterator hisBlock
        (Block.newIterator_over _)).yields hisBlock
      exact SSTableReader.Shows.pass hread hpass
    · rw [if_neg hlimit] at hread ⊢
      exact SSTableReader.Shows.unread hread

/-! A point lookup finds the first entry of the key, which is the newest one. -/

def Entry.HasType (e : Entry) : Prop := e.type = kTypeValue ∨ e.type = kTypeDeletion

def lookupOf : Option Entry → Lookup
  | none => .absent
  | some e => if e.type = kTypeValue then .found e.value else .deleted

def KeysSorted (es : List Entry) : Prop := es.Pairwise fun a b => a.userKey ≤ b.userKey

theorem keysSorted_of_sorted {es : List Entry} (h : es.Pairwise fun a b => ¬ b.before a) :
    KeysSorted es := by
  refine h.imp ?_
  intro a b hnot
  exact not_lt.mp fun hlt => hnot (Or.inl hlt)

theorem firstKey_mem {es : List Entry} (h : es ≠ []) : ∃ e ∈ es, e.userKey = firstKey es := by
  cases es with
  | nil => exact absurd rfl h
  | cons e rest => exact ⟨e, by simp, rfl⟩

theorem lastKey_mem {es : List Entry} (h : es ≠ []) : ∃ e ∈ es, e.userKey = lastKey es := by
  refine ⟨es.getLast h, List.getLast_mem h, ?_⟩
  rw [lastKey, List.getLast?_eq_getLast_of_ne_nil h]
  rfl

theorem le_lastKey {es : List Entry} (h : KeysSorted es) {e : Entry} (he : e ∈ es) :
    e.userKey ≤ lastKey es := by
  have hne : es ≠ [] := List.ne_nil_of_mem he
  have hlast : lastKey es = (es.getLast hne).userKey := by
    rw [lastKey, List.getLast?_eq_getLast_of_ne_nil hne]
    rfl
  rw [hlast]
  have hsplit := List.dropLast_append_getLast hne
  rw [← hsplit] at he h
  rcases List.mem_append.mp he with he | he
  · exact (List.pairwise_append.mp h).2.2 e he _ (by simp)
  · rw [List.mem_singleton.mp he]

theorem findIdx_indexEntries (key : Key) (offset : Nat) (blocks : List DataBlock) :
    (indexEntries offset blocks).findIdx (fun e => key ≤ e.userKey) =
      blocks.findIdx fun b => key ≤ lastKey b.2 := by
  induction blocks generalizing offset with
  | nil => rfl
  | cons b rest ih =>
    obtain ⟨data, es⟩ := b
    simp only [indexEntries, List.findIdx_cons, ih]

theorem find?_blocks {blocks : List DataBlock} (hne : ∀ b ∈ blocks, b.2 ≠ [])
    (h : KeysSorted (blocks.map Prod.snd).flatten) (key : Key) :
    (blocks.map Prod.snd).flatten.find? (fun e => e.userKey = key) =
      (blocks[blocks.findIdx fun b => key ≤ lastKey b.2]?).bind fun b =>
        b.2.find? fun e => e.userKey = key := by
  induction blocks with
  | nil => rfl
  | cons b rest ih =>
    rw [List.map_cons, List.flatten_cons] at h ⊢
    obtain ⟨hb, hrest, hcross⟩ := List.pairwise_append.mp h
    rw [List.find?_append]
    by_cases hle : key ≤ lastKey b.2
    · have hidx : (b :: rest).findIdx (fun b => decide (key ≤ lastKey b.2)) = 0 := by
        simp [List.findIdx_cons, hle]
      rw [hidx, List.getElem?_cons_zero, Option.bind_some]
      cases hfind : b.2.find? (fun e => decide (e.userKey = key)) with
      | some e => rfl
      | none =>
        -- the last key of the block is above the key, and so is everything behind
        obtain ⟨last, hlast, hlastKey⟩ := lastKey_mem (hne b (by simp))
        have hnot := List.find?_eq_none.mp hfind last hlast
        have hlt : key < last.userKey :=
          lt_of_le_of_ne (hlastKey ▸ hle) fun heq => hnot (by simpa using heq.symm)
        rw [Option.none_or, List.find?_eq_none]
        intro x hx
        have := (lt_of_lt_of_le hlt (hcross last hlast x hx)).ne'
        simpa using this
    · have hnone : b.2.find? (fun e => decide (e.userKey = key)) = none := by
        rw [List.find?_eq_none]
        intro x hx
        have := (lt_of_le_of_lt (le_lastKey hb hx) (not_le.mp hle)).ne
        simpa using this
      rw [hnone, Option.none_or, ih (fun x hx => hne x (by simp [hx])) hrest]
      simp [List.findIdx_cons, hle]

theorem keysSorted_indexEntries {blocks : List DataBlock} (hne : ∀ b ∈ blocks, b.2 ≠ [])
    (h : KeysSorted (blocks.map Prod.snd).flatten) (offset : Nat) :
    KeysSorted (indexEntries offset blocks) := by
  have hkeys : ∀ (offset : Nat) (blocks : List DataBlock) (e : Entry),
      e ∈ indexEntries offset blocks → ∃ b ∈ blocks, e.userKey = lastKey b.2 := by
    intro offset blocks
    induction blocks generalizing offset with
    | nil => simp [indexEntries]
    | cons b rest ih =>
      intro e he
      obtain ⟨data, es⟩ := b
      rcases List.mem_cons.mp he with rfl | he
      · exact ⟨(data, es), by simp, rfl⟩
      · obtain ⟨b, hb, heq⟩ := ih _ e he
        exact ⟨b, by simp [hb], heq⟩
  induction blocks generalizing offset with
  | nil => exact List.Pairwise.nil
  | cons b rest ih =>
    obtain ⟨data, es⟩ := b
    rw [List.map_cons, List.flatten_cons] at h
    obtain ⟨_, hrest, hcross⟩ := List.pairwise_append.mp h
    refine List.pairwise_cons.mpr ⟨?_, ih (fun x hx => hne x (by simp [hx])) hrest _⟩
    intro e he
    obtain ⟨b, hb, heq⟩ := hkeys _ _ e he
    obtain ⟨last, hlast, hlastKey⟩ := lastKey_mem (hne _ (by simp : (data, es) ∈ _))
    obtain ⟨x, hx, hxKey⟩ := lastKey_mem (hne b (by simp [hb]))
    have hle := hcross last hlast x (List.mem_flatten.mpr ⟨b.2, List.mem_map_of_mem hb, hx⟩)
    rw [heq, ← hxKey]
    exact hlastKey ▸ hle

theorem find?_drop_findIdx {es : List Entry} (key : Key) (seq : Nat) :
    (es.drop (es.findIdx fun e => key ≤ e.userKey)).find?
        (fun e => e.userKey = key ∧ e.seq ≤ seq) =
      es.find? fun e => e.userKey = key ∧ e.seq ≤ seq := by
  induction es with
  | nil => rfl
  | cons e rest ih =>
    by_cases hle : key ≤ e.userKey
    · simp [List.findIdx_cons, hle]
    · have hne : e.userKey ≠ key := fun heq => hle heq.ge
      simp only [List.findIdx_cons, decide_eq_false hle, cond_false, List.drop_succ_cons, ih,
        List.find?_cons, hne, false_and, decide_false]

theorem le_of_mem_drop_findIdx {es : List Entry} (h : KeysSorted es) {key : Key} {e : Entry}
    (he : e ∈ es.drop (es.findIdx fun e => key ≤ e.userKey)) : key ≤ e.userKey := by
  induction es with
  | nil => cases he
  | cons first rest ih =>
    obtain ⟨hfirst, hrest⟩ := List.pairwise_cons.mp h
    by_cases hle : key ≤ first.userKey
    · simp only [List.findIdx_cons, decide_eq_true hle, cond_true, List.drop_zero] at he
      rcases List.mem_cons.mp he with rfl | he
      · exact hle
      · exact le_trans hle (hfirst e he)
    · simp only [List.findIdx_cons, decide_eq_false hle, cond_false, List.drop_succ_cons] at he
      exact ih hrest he

theorem getScan_at {it : BlockIter} {data : Bytes} {es : List Entry} {key : Key} {seq index : Nat}
    (hblock : IsBlock data es) (hat : it.At data es index) (hsorted : KeysSorted es)
    (hfrom : ∀ e ∈ es.drop index, key ≤ e.userKey) (htype : ∀ e ∈ es, e.HasType) {fuel : Nat}
    (hfuel : es.length - index < fuel) :
    SSTableReader.getScan key seq fuel it =
      lookupOf ((es.drop index).find? fun e => e.userKey = key ∧ e.seq ≤ seq) := by
  induction fuel generalizing it index with
  | zero => omega
  | succ fuel ih =>
    unfold SSTableReader.getScan
    rcases Nat.lt_or_ge index es.length with hlt | hge
    · have hget : es[index]? = some es[index] := List.getElem?_eq_getElem hlt
      have hdrop : es.drop index = es[index] :: es.drop (index + 1) := List.drop_eq_getElem_cons hlt
      rw [(hat.parsed _ hget).2]
      by_cases heq : es[index].userKey = key
      · rw [if_pos ⟨(hat.valid_iff hblock).mpr hlt, heq⟩, hdrop, List.find?_cons]
        by_cases hle : es[index].seq ≤ seq
        · simp only [hle, heq, true_and, decide_true, lookupOf, and_self]
          rcases htype _ (List.getElem_mem hlt) with hvalue | hdeletion
          · simp [hvalue]
          · simp [hdeletion, kTypeDeletion, kTypeValue]
        · simp only [hle, false_and, and_false, if_false, decide_false]
          refine ih (hat.next hblock hlt) (fun e he => hfrom e ?_) (by omega)
          rw [hdrop]
          exact List.mem_cons_of_mem _ he
      -- past the key nothing has it
      · have hnone : (es.drop index).find? (fun e => e.userKey = key ∧ e.seq ≤ seq) = none := by
          rw [List.find?_eq_none]
          intro e he
          have habove : key < es[index].userKey :=
            lt_of_le_of_ne (hfrom _ (hdrop ▸ List.mem_cons_self)) (Ne.symm heq)
          have hle : es[index].userKey ≤ e.userKey := by
            have hpairs := hsorted.sublist (List.drop_sublist index es)
            rw [hdrop] at he hpairs
            rcases List.mem_cons.mp he with rfl | he
            · exact le_refl _
            · exact (List.pairwise_cons.mp hpairs).1 e he
          simp [(lt_of_lt_of_le habove hle).ne']
        rw [if_neg fun h => heq h.2, hnone]
        rfl
    · have hinvalid : ¬ it.valid = true := fun hvalid => by
        have := (hat.valid_iff hblock).mp hvalid
        omega
      rw [if_neg fun h => hinvalid h.1, List.drop_of_length_le hge]
      rfl

namespace Layout

variable {l : Layout} {es : List Entry}

/-- `Get` answers from the first block whose last key is not below the key. The
reader's filter is the table's, or none where that could not be read. -/
theorem get_withFilter (h : l.Opens es) (htype : ∀ e ∈ es, e.HasType) (number : Nat)
    (filter : Bytes) (key : Key) (seq : Nat) :
    ({ l.reader number with filterData := filter } : SSTableReader).get key seq =
      if filter ≠ [] ∧ BloomFilter.keyMayMatch key filter = false then .absent
      else
        match l.blocks.find? fun b => key ≤ lastKey b.2 with
        | none => .absent
        | some b =>
          if b.1.length ≤ kMaxBlockSize then
            lookupOf (b.2.find? fun e => e.userKey = key ∧ e.seq ≤ seq)
          else .failed (.corruption "Invalid block handle bounds") := by
  have hkeys := keysSorted_of_sorted h.sorted
  have hne : ∀ b ∈ l.blocks, b.2 ≠ [] := fun b hb => (h.blocks b hb).1
  rw [h.entries] at hkeys
  unfold SSTableReader.get
  by_cases hfilter : filter ≠ [] ∧ BloomFilter.keyMayMatch key filter = false
  · rw [if_pos hfilter, if_pos (by simpa using hfilter)]
  · rw [if_neg hfilter, if_neg (by simpa using hfilter)]
    have hindex := BlockIter.seek_at (l.reader number).indexBlock.newIterator key
      h.index (Block.newIterator_over _) (keysSorted_indexEntries hne hkeys 0)
    rw [findIdx_indexEntries] at hindex
    rw [List.find?_eq_getElem?_findIdx]
    cases hb : l.blocks[l.blocks.findIdx fun b => key ≤ lastKey b.2]? with
    | none =>
      have hinvalid : ((l.reader number).indexBlock.newIterator.seek key).valid = false := by
        by_contra hv
        have := (hindex.valid_iff h.index).mp (by simpa using hv)
        rw [Layout.length_indexEntries] at this
        rw [List.getElem?_eq_none_iff] at hb
        omega
      simp [hinvalid]
    | some b =>
      have hlt := (List.getElem?_eq_some_iff.mp hb).1
      have hmem := List.mem_of_getElem? hb
      have hsorted : KeysSorted b.2 := hkeys.sublist
        (List.sublist_flatten_of_mem (List.mem_map_of_mem hmem))
      have hv : ((l.reader number).indexBlock.newIterator.seek key).valid = true :=
        (hindex.valid_iff h.index).mpr (by rwa [Layout.length_indexEntries])
      have hentry := (hindex.parsed _ (Layout.indexEntries_get hb 0)).2
      have hread := readHandle_handleOf h.small number hb
      rw [handleOf] at hread
      change ({ l.reader number with filterData := filter } : SSTableReader).readHandle _ = _
        at hread
      simp only [hv, hentry, Nat.zero_add, hread, Bool.not_true, Bool.false_eq_true, ↓reduceIte]
      by_cases hlimit : b.1.length ≤ kMaxBlockSize
      · simp only [if_pos hlimit]
        have hblock := (h.blocks b hmem).2 hlimit
        have hover := Block.newIterator_over b.1
        have hseek := BlockIter.seek_at (Block.new b.1).newIterator key hblock hover hsorted
        have htypes : ∀ e ∈ b.2, e.HasType := fun e he => htype e (by
          rw [h.entries]
          exact List.mem_flatten.mpr ⟨b.2, List.mem_map_of_mem hmem, he⟩)
        have hfuel : b.2.length < (Block.new b.1).data.length + 1 :=
          BlockIter.length_lt_fuel hover hblock
        rw [getScan_at hblock hseek hsorted (fun e he => le_of_mem_drop_findIdx hsorted he) htypes
          (lt_of_le_of_lt (Nat.sub_le _ _) hfuel), find?_drop_findIdx]
      · simp only [if_neg hlimit]

theorem get_reader (h : l.Opens es) (htype : ∀ e ∈ es, e.HasType) (number : Nat) (key : Key)
    (seq : Nat) :
    (l.reader number).get key seq =
      if l.filter ≠ [] ∧ BloomFilter.keyMayMatch key l.filter = false then .absent
      else
        match l.blocks.find? fun b => key ≤ lastKey b.2 with
        | none => .absent
        | some b =>
          if b.1.length ≤ kMaxBlockSize then
            lookupOf (b.2.find? fun e => e.userKey = key ∧ e.seq ≤ seq)
          else .failed (.corruption "Invalid block handle bounds") :=
  get_withFilter h htype number l.filter key seq

/-- With every entry of the key visible and the block that is scanned within the
limit, `Get` answers with the first entry of the key. -/
theorem get_visible (h : l.Opens es) (htype : ∀ e ∈ es, e.HasType) (number : Nat) {filter : Bytes}
    (hfilter : filter = l.filter ∨ filter = []) {key : Key}
    {seq : Nat} (hseq : ∀ e ∈ es, e.userKey = key → e.seq ≤ seq)
    (hsmall : ∀ b, l.blocks.find? (fun b => key ≤ lastKey b.2) = some b →
      b.1.length ≤ kMaxBlockSize) :
    ({ l.reader number with filterData := filter } : SSTableReader).get key seq =
      lookupOf (es.find? fun e => e.userKey = key) := by
  have hkeys := keysSorted_of_sorted h.sorted
  have hne : ∀ b ∈ l.blocks, b.2 ≠ [] := fun b hb => (h.blocks b hb).1
  rw [get_withFilter h htype]
  split
  -- the filter knows every key of the table
  · rename_i hreject
    have hnone : es.find? (fun e => decide (e.userKey = key)) = none := by
      rw [List.find?_eq_none]
      intro e he
      have hmatch := h.matching e he
      rw [decide_eq_true_iff]
      rintro rfl
      rcases hfilter with rfl | rfl
      · simp [hmatch] at hreject
      · exact hreject.1 rfl
    rw [hnone]
    rfl
  · rw [h.entries] at hkeys hseq
    rw [h.entries, find?_blocks hne hkeys, ← List.find?_eq_getElem?_findIdx]
    cases hb : l.blocks.find? fun b => key ≤ lastKey b.2 with
    | none => rfl
    | some b =>
      have hmem := List.mem_of_find?_eq_some hb
      have hvisible : b.2.find? (fun e => e.userKey = key ∧ e.seq ≤ seq) =
          b.2.find? fun e => e.userKey = key := by
        apply List.find?_congr
        intro e he
        have hsee := hseq e (List.mem_flatten.mpr ⟨b.2, List.mem_map_of_mem hmem, he⟩)
        by_cases heq : e.userKey = key
        · simp [heq, hsee heq]
        · simp [heq]
      simp only [if_pos (hsmall b hb), hvisible, Option.bind_some]

end Layout

def SSTableReader.Serves (r : SSTableReader) (es : List Entry) : Prop :=
  ∃ (l : Layout) (number : Nat), l.Valid es ∧ r = l.reader number

namespace SSTableReader.Serves

variable {r : SSTableReader} {es : List Entry}

theorem parts (h : r.Serves es) : ∃ (l : Layout) (number : Nat), l.Valid es ∧
    r = l.reader number ∧ r.Parts l.index (indexEntries 0 l.blocks) (l.blocks.map Prod.snd) := by
  obtain ⟨l, number, hvalid, rfl⟩ := h
  have hshown : l.blocks.map shownOf = l.blocks.map Prod.snd := by
    apply List.map_congr_left
    intro b hb
    rw [shownOf, if_pos (hvalid.blocks b hb).2.2]
  have hparts : (l.reader number).Parts l.index (indexEntries 0 l.blocks) (l.blocks.map shownOf) :=
    SSTableReader.parts_of_body rfl rfl rfl hvalid.small rfl hvalid.index
      fun b hb _ => (hvalid.blocks b hb).1
  rw [hshown] at hparts
  exact ⟨l, number, hvalid, rfl, hparts⟩

theorem yields (h : r.Serves es) : Yields r.newIterator.seekToFirst es := by
  obtain ⟨l, number, hvalid, _, hparts⟩ := h.parts
  rw [hvalid.entries]
  exact hparts.yields

theorem get (h : r.Serves es) {key : Key} {seq : Nat}
    (hseq : ∀ e ∈ es, e.userKey = key → e.seq ≤ seq) (htype : ∀ e ∈ es, e.HasType) :
    r.get key seq = lookupOf (es.find? fun e => e.userKey = key) := by
  obtain ⟨l, number, hvalid, rfl⟩ := h
  exact Layout.get_visible hvalid.opens htype number (Or.inl rfl) hseq fun b hb =>
    (hvalid.blocks b (List.mem_of_find?_eq_some hb)).2.2

end SSTableReader.Serves

theorem IsTable.openTable {bytes : Bytes} {es : List Entry} (h : IsTable bytes es) (number : Nat) :
    ∃ r, SSTableReader.openTable (some bytes) none number bytes.length = .ok r ∧ r.Serves es := by
  obtain ⟨l, hvalid, rfl⟩ := h
  exact ⟨l.reader number, Layout.openTable_image hvalid.opens number, l, number, hvalid, rfl⟩

end Strata

import Strata.Format
import Strata.Library.Search

/-! Blocks: entries one behind the other, then the offsets of the restart
points and their count. Data blocks and index blocks share the format. -/
namespace Strata

open Library

structure BlockHandle where
  offset : Nat
  size : Nat
  deriving DecidableEq, Repr

def BlockHandle.encodeTo (handle : BlockHandle) : Bytes :=
  encodeFixed64 handle.offset ++ encodeFixed64 handle.size

def BlockHandle.decodeFrom (input : Bytes) : Except Status BlockHandle :=
  if input.length < 16 then .error (.corruption "Bad block handle")
  else .ok ⟨decodeFixed64 input, decodeFixed64 (input.drop 8)⟩

/-- `[klen: 4B] [key] [seq: 8B] [type: 1B] [vlen: 4B] [value]` -/
def encodeEntry (e : Entry) : Bytes :=
  encodeFixed32 e.userKey.length ++ (e.userKey ++ (encodeFixed64 e.seq ++
    (e.type :: (encodeFixed32 e.value.length ++ e.value))))

structure BlockBuilder where
  restartInterval : Nat
  buffer : Bytes
  restarts : List Nat
  counter : Nat
  deriving DecidableEq, Repr

namespace BlockBuilder

def new (restartInterval : Nat) : BlockBuilder := ⟨restartInterval, [], [0], 0⟩

def reset (b : BlockBuilder) : BlockBuilder := new b.restartInterval

def add (b : BlockBuilder) (e : Entry) : BlockBuilder :=
  let b := if b.counter ≥ b.restartInterval then
      { b with restarts := b.restarts ++ [b.buffer.length], counter := 0 }
    else b
  { b with buffer := b.buffer ++ encodeEntry e, counter := b.counter + 1 }

def finish (b : BlockBuilder) : Bytes :=
  b.buffer ++ (b.restarts.flatMap encodeFixed32 ++ encodeFixed32 b.restarts.length)

def currentSizeEstimate (b : BlockBuilder) : Nat :=
  b.buffer.length + b.restarts.length * 4 + 4

def empty (b : BlockBuilder) : Bool := b.buffer.isEmpty

end BlockBuilder

structure Block where
  data : Bytes
  restartsOffset : Nat
  numRestarts : Nat
  deriving DecidableEq, Repr

def Block.new (data : Bytes) : Block :=
  if 4 ≤ data.length then
    let numRestarts := decodeFixed32 (data.drop (data.length - 4))
    let maxRestarts := (data.length - 4) / 4
    if numRestarts ≤ maxRestarts then
      ⟨data, (data.length - (1 + numRestarts) * 4) % 2 ^ 32, numRestarts⟩
    else ⟨data, 0, 0⟩
  else ⟨data, 0, 0⟩

/-- `Block::Iter`: the position, the position behind it and the parsed entry. -/
structure BlockIter where
  block : Block
  current : Nat
  nextOffset : Nat
  entry : Entry
  status : Status
  deriving DecidableEq, Repr

def Block.newIterator (block : Block) : BlockIter :=
  ⟨block, block.restartsOffset, 0, ⟨[], 0, kTypeValue, []⟩, .ok⟩

namespace BlockIter

def valid (it : BlockIter) : Bool := it.current < it.block.restartsOffset

def invalidate (it : BlockIter) : BlockIter := { it with current := it.block.restartsOffset }

def getRestartOffset (it : BlockIter) (index : Nat) : Nat :=
  decodeFixed32 (it.block.data.drop (it.block.restartsOffset + index * 4))

def parseEntryAt (it : BlockIter) (offset : Nat) : BlockIter :=
  let data := it.block.data
  let limit := it.block.restartsOffset
  if offset ≥ limit then it.invalidate
  else if offset + 17 > limit then
    { it.invalidate with status := .corruption "Truncated block entry" }
  else
    let klen := decodeFixed32 (data.drop offset)
    if offset + 17 + klen > limit then
      { it.invalidate with status := .corruption "Truncated block entry key" }
    else
      let key := (data.drop (offset + 4)).take klen
      let seq := decodeFixed64 (data.drop (offset + 4 + klen))
      let type := (data.drop (offset + 4 + klen + 8)).headD 0
      let vlen := decodeFixed32 (data.drop (offset + 4 + klen + 9))
      if offset + 17 + klen + vlen > limit then
        { it.invalidate with
          status := .corruption "Truncated block entry value"
          entry := ⟨key, seq, type, it.entry.value⟩ }
      else
        { it with
          current := offset
          nextOffset := offset + 17 + klen + vlen
          entry := ⟨key, seq, type, (data.drop (offset + 4 + klen + 13)).take vlen⟩ }

def seekToFirst (it : BlockIter) : BlockIter :=
  if it.block.numRestarts = 0 then it.invalidate else it.parseEntryAt 0

def restartKey (it : BlockIter) (index : Nat) : Key :=
  let offset := it.getRestartOffset index
  (it.block.data.drop (offset + 4)).take (decodeFixed32 (it.block.data.drop offset))

/-- The linear part of `Seek`. Every entry takes 17 bytes or more, so the bytes
of the block bound the loop. -/
def seekScan (target : Key) : Nat → BlockIter → Nat → BlockIter
  | 0, it, _ => it.invalidate
  | fuel + 1, it, offset =>
    if offset < it.block.restartsOffset then
      let it := it.parseEntryAt offset
      if !it.valid then it.invalidate
      else if target ≤ it.entry.userKey then it
      else seekScan target fuel it it.nextOffset
    else it.invalidate

def seek (it : BlockIter) (target : Key) : BlockIter :=
  if it.block.numRestarts = 0 then it.invalidate
  else
    let restart := Search.searchLast (fun index => it.restartKey index < target)
      it.block.numRestarts 0 (it.block.numRestarts - 1) 0
    seekScan target (it.block.data.length + 1) it (it.getRestartOffset restart)

def next (it : BlockIter) : BlockIter := it.parseEntryAt it.nextOffset

/-- The last part of `SeekToLast` and of `Prev`: from entry to entry, up to the
one that reaches the bound. Where an entry does not parse the source may go
round for ever; the bytes of the block end the loop here. -/
def scanTo (bound : Nat) : Nat → BlockIter → Nat → BlockIter
  | 0, it, _ => it
  | fuel + 1, it, offset =>
    let it := it.parseEntryAt offset
    if it.nextOffset ≥ bound then it else scanTo bound fuel it it.nextOffset

def seekToLast (it : BlockIter) : BlockIter :=
  if it.block.numRestarts = 0 then it.invalidate
  else
    scanTo it.block.restartsOffset (it.block.data.length + 1) it
      (it.getRestartOffset (it.block.numRestarts - 1))

def prev (it : BlockIter) : BlockIter :=
  let restart := Search.searchLast (fun index => it.getRestartOffset index < it.current)
    it.block.numRestarts 0 (it.block.numRestarts - 1) 0
  let offset := it.getRestartOffset restart
  if offset ≥ it.current then it.invalidate
  else scanTo it.current (it.block.data.length + 1) it offset

end BlockIter

/-! The entries of a block and their positions. -/

def encodeEntries (es : List Entry) : Bytes := es.flatMap encodeEntry

/-- Where entry `index` starts; the end of the entries for an index behind them. -/
def offsetOf (es : List Entry) (index : Nat) : Nat := (encodeEntries (es.take index)).length

theorem length_encodeEntry (e : Entry) :
    (encodeEntry e).length = 17 + e.userKey.length + e.value.length := by
  simp only [encodeEntry, List.length_append, List.length_cons, length_encodeFixed32,
    length_encodeFixed64]
  omega

theorem encodeEntries_append (left right : List Entry) :
    encodeEntries (left ++ right) = encodeEntries left ++ encodeEntries right :=
  List.flatMap_append

theorem length_encodeEntries_ge (es : List Entry) : 17 * es.length ≤ (encodeEntries es).length := by
  induction es with
  | nil => simp [encodeEntries]
  | cons e rest ih =>
    have hlen := length_encodeEntry e
    have hsplit : encodeEntries (e :: rest) = encodeEntry e ++ encodeEntries rest := rfl
    rw [hsplit, List.length_append, List.length_cons]
    omega

@[simp] theorem offsetOf_zero (es : List Entry) : offsetOf es 0 = 0 := by
  simp [offsetOf, encodeEntries]

theorem offsetOf_length (es : List Entry) : offsetOf es es.length = (encodeEntries es).length := by
  rw [offsetOf, List.take_length]

theorem offsetOf_append {es more : List Entry} {index : Nat} (h : index ≤ es.length) :
    offsetOf (es ++ more) index = offsetOf es index := by
  rw [offsetOf, offsetOf, List.take_append_of_le_length h]

theorem drop_offsetOf {es : List Entry} {index : Nat} {e : Entry} (h : es[index]? = some e)
    (tail : Bytes) :
    (encodeEntries es ++ tail).drop (offsetOf es index) =
      encodeEntry e ++ (encodeEntries (es.drop (index + 1)) ++ tail) := by
  obtain ⟨hlt, hget⟩ := List.getElem?_eq_some_iff.mp h
  have hsplit : es = es.take index ++ (e :: es.drop (index + 1)) := by
    rw [← hget, List.getElem_cons_drop, List.take_append_drop]
  have hbytes : encodeEntries es = encodeEntries (es.take index) ++
      (encodeEntry e ++ encodeEntries (es.drop (index + 1))) := by
    conv_lhs => rw [hsplit, encodeEntries_append]
    rfl
  rw [hbytes, offsetOf, List.append_assoc, List.drop_left, List.append_assoc]

theorem offsetOf_succ {es : List Entry} {index : Nat} {e : Entry} (h : es[index]? = some e) :
    offsetOf es (index + 1) = offsetOf es index + (encodeEntry e).length := by
  have htake : es.take (index + 1) = es.take index ++ [e] := by
    rw [List.take_add_one, h]
    rfl
  rw [offsetOf, htake, encodeEntries_append, List.length_append, offsetOf]
  simp [encodeEntries]

theorem offsetOf_le (es : List Entry) (index : Nat) :
    offsetOf es index ≤ (encodeEntries es).length := by
  have hsplit := congrArg List.length (encodeEntries_append (es.take index) (es.drop index))
  rw [List.take_append_drop, List.length_append] at hsplit
  rw [offsetOf]
  omega

theorem offsetOf_lt_iff {es : List Entry} {index : Nat} (h : index ≤ es.length) :
    offsetOf es index < (encodeEntries es).length ↔ index < es.length := by
  constructor
  · intro hlt
    rcases Nat.lt_or_ge index es.length with hin | hout
    · exact hin
    · rw [Nat.le_antisymm h hout, offsetOf_length] at hlt
      omega
  · intro hlt
    have hnext := offsetOf_succ (List.getElem?_eq_getElem hlt)
    have hlen := length_encodeEntry es[index]
    have hle := offsetOf_le es (index + 1)
    omega

theorem offsetOf_strictMono {es : List Entry} {i j : Nat} (hij : i < j) (hj : j ≤ es.length) :
    offsetOf es i < offsetOf es j := by
  have htake : offsetOf (es.take j) i = offsetOf es i := by
    rw [offsetOf, List.take_take, Nat.min_eq_left hij.le, offsetOf]
  have hlength : (es.take j).length = j := by
    rw [List.length_take]
    omega
  have hlt := (offsetOf_lt_iff (show i ≤ (es.take j).length by omega)).mpr (by omega)
  rwa [htake] at hlt

/-- Restart points are positions of entries in order, the first entry's first. -/
structure Marks (count : Nat) (marks : List Nat) : Prop where
  first : marks[0]? = some 0
  sorted : marks.Pairwise (· < ·)
  bounded : ∀ m ∈ marks, m = 0 ∨ m < count

def blockImage (es : List Entry) (marks : List Nat) : Bytes :=
  encodeEntries es ++ ((marks.map (offsetOf es)).flatMap encodeFixed32 ++
    encodeFixed32 marks.length)

structure IsBlock (data : Bytes) (es : List Entry) : Prop where
  image : ∃ marks, Marks es.length marks ∧ data = blockImage es marks
  small : data.length < 2 ^ 32
  seqs : ∀ e ∈ es, e.seq < 2 ^ 64

/-! The builder makes such contents. -/

structure BlockBuilder.Holds (b : BlockBuilder) (es : List Entry) : Prop where
  interval : 0 < b.restartInterval
  buffer : b.buffer = encodeEntries es
  counter : b.counter ≤ es.length
  restarts : ∃ marks, Marks es.length marks ∧ b.restarts = marks.map (offsetOf es)

namespace BlockBuilder.Holds

variable {b : BlockBuilder} {es : List Entry}

theorem new {interval : Nat} (h : 0 < interval) : (BlockBuilder.new interval).Holds [] :=
  ⟨h, rfl, le_refl 0, [0], ⟨rfl, List.pairwise_singleton _ _, by simp⟩, by simp [BlockBuilder.new]⟩

theorem reset (h : b.Holds es) : b.reset.Holds [] := new h.interval

theorem empty_iff (h : b.Holds es) : b.empty = true ↔ es = [] := by
  rw [BlockBuilder.empty, h.buffer, List.isEmpty_iff]
  constructor
  · intro hnil
    have hlen := length_encodeEntries_ge es
    rw [hnil, List.length_nil] at hlen
    exact List.eq_nil_of_length_eq_zero (by omega)
  · rintro rfl
    rfl

theorem not_empty (h : b.Holds es) (hne : es ≠ []) : b.empty = false := by
  rw [← Bool.not_eq_true, h.empty_iff]
  exact hne

theorem marks_grow {marks : List Nat} {count : Nat} (h : Marks count marks) (hpos : 0 < count) :
    Marks (count + 1) (marks ++ [count]) := by
  refine ⟨?_, ?_, ?_⟩
  · rw [List.getElem?_append_left]
    · exact h.first
    · exact (List.getElem?_eq_some_iff.mp h.first).1
  · refine List.pairwise_append.mpr ⟨h.sorted, List.pairwise_singleton _ _, ?_⟩
    intro m hm last hlast
    rw [List.mem_singleton] at hlast
    rcases h.bounded m hm with hzero | hlt <;> omega
  · intro m hm
    rcases List.mem_append.mp hm with hm | hm
    · rcases h.bounded m hm with hzero | hlt
      · exact Or.inl hzero
      · exact Or.inr (by omega)
    · rw [List.mem_singleton] at hm
      exact Or.inr (by omega)

theorem map_offsetOf {marks : List Nat} {count : Nat} (h : Marks count marks)
    (hcount : count ≤ es.length) (e : Entry) :
    marks.map (offsetOf (es ++ [e])) = marks.map (offsetOf es) := by
  apply List.map_congr_left
  intro m hm
  apply offsetOf_append
  rcases h.bounded m hm with hzero | hlt <;> omega

theorem add (h : b.Holds es) (e : Entry) : (b.add e).Holds (es ++ [e]) := by
  obtain ⟨hinterval, hbuffer, hcounter, marks, hmarks, hrestarts⟩ := h
  have hbytes : b.buffer ++ encodeEntry e = encodeEntries (es ++ [e]) := by
    rw [hbuffer, encodeEntries_append]
    simp [encodeEntries]
  have hlen : (es ++ [e]).length = es.length + 1 := by simp
  unfold BlockBuilder.add
  split
  -- a new restart point at the entry that is added
  · rename_i hfull
    refine ⟨hinterval, hbytes, by simp, marks ++ [es.length], ?_, ?_⟩
    · rw [hlen]
      exact marks_grow hmarks (by omega)
    · rw [List.map_append, map_offsetOf hmarks (le_refl _), hrestarts, List.map_singleton,
        offsetOf_append (le_refl _), offsetOf_length, ← hbuffer]
  · refine ⟨hinterval, hbytes, ?_, marks, ⟨hmarks.first, hmarks.sorted, ?_⟩, ?_⟩
    · simp only [hlen]
      omega
    · intro m hm
      rcases hmarks.bounded m hm with hzero | hlt
      · exact Or.inl hzero
      · exact Or.inr (by omega)
    · rw [map_offsetOf hmarks (le_refl _)]
      exact hrestarts

theorem finish (h : b.Holds es) (hsmall : b.finish.length < 2 ^ 32)
    (hseqs : ∀ e ∈ es, e.seq < 2 ^ 64) : IsBlock b.finish es := by
  obtain ⟨_, hbuffer, _, marks, hmarks, hrestarts⟩ := h
  refine ⟨⟨marks, hmarks, ?_⟩, hsmall, hseqs⟩
  rw [BlockBuilder.finish, hbuffer, hrestarts, List.length_map, blockImage]

end BlockBuilder.Holds

theorem length_flatMap_encodeFixed32 (ns : List Nat) :
    (ns.flatMap encodeFixed32).length = 4 * ns.length := by
  induction ns with
  | nil => rfl
  | cons n rest ih =>
    rw [List.flatMap_cons, List.length_append, length_encodeFixed32, ih, List.length_cons]
    omega

theorem drop_flatMap_encodeFixed32 (ns : List Nat) (index : Nat) :
    (ns.flatMap encodeFixed32).drop (4 * index) = (ns.drop index).flatMap encodeFixed32 := by
  induction ns generalizing index with
  | nil => simp
  | cons n rest ih =>
    cases index with
    | zero => rfl
    | succ index =>
      rw [List.flatMap_cons, show 4 * (index + 1) = 4 + 4 * index by omega, ← List.drop_drop,
        List.drop_left' (length_encodeFixed32 n), ih, List.drop_succ_cons]

/-! Reading such contents back. -/

theorem length_blockImage (es : List Entry) (marks : List Nat) :
    (blockImage es marks).length = (encodeEntries es).length + 4 * marks.length + 4 := by
  simp only [blockImage, List.length_append, length_flatMap_encodeFixed32, List.length_map,
    length_encodeFixed32]
  omega

theorem Block.new_image {es : List Entry} {marks : List Nat}
    (hsmall : (blockImage es marks).length < 2 ^ 32) :
    Block.new (blockImage es marks) =
      ⟨blockImage es marks, (encodeEntries es).length, marks.length⟩ := by
  have hlen := length_blockImage es marks
  have hdrop : (blockImage es marks).drop ((blockImage es marks).length - 4) =
      encodeFixed32 marks.length ++ [] := by
    rw [List.append_nil, blockImage, ← List.append_assoc]
    apply List.drop_left'
    simp only [List.length_append, length_encodeFixed32]
    omega
  have hcount : decodeFixed32 ((blockImage es marks).drop ((blockImage es marks).length - 4)) =
      marks.length := by
    rw [hdrop, decodeFixed32_of_lt (by omega)]
  unfold Block.new
  rw [if_pos (by omega)]
  simp only [hcount]
  rw [if_pos (by omega), Nat.mod_eq_of_lt (by omega)]
  congr 1
  omega

theorem IsBlock.length_le {data : Bytes} {es : List Entry} (h : IsBlock data es) :
    es.length ≤ data.length := by
  obtain ⟨marks, _, himage⟩ := h.image
  have hentries := length_encodeEntries_ge es
  have hsize := length_blockImage es marks
  rw [← himage] at hsize
  omega

structure BlockIter.Over (it : BlockIter) (data : Bytes) : Prop where
  block : it.block = Block.new data
  status : it.status = .ok

theorem Block.newIterator_over (data : Bytes) : (Block.new data).newIterator.Over data := ⟨rfl, rfl⟩

/-- The iterator stands at entry `index`, or behind the last one. -/
structure BlockIter.At (it : BlockIter) (data : Bytes) (es : List Entry) (index : Nat) : Prop
    extends it.Over data where
  inside : index ≤ es.length
  current : it.current = offsetOf es index
  parsed : ∀ e, es[index]? = some e → it.nextOffset = offsetOf es (index + 1) ∧ it.entry = e

namespace BlockIter

variable {it : BlockIter} {data : Bytes} {es : List Entry} {index : Nat}

theorem restartsOffset_eq (h : IsBlock data es) :
    (Block.new data).restartsOffset = (encodeEntries es).length := by
  obtain ⟨marks, _, rfl⟩ := h.image
  rw [Block.new_image h.small]

theorem At.valid_iff (hat : it.At data es index) (h : IsBlock data es) :
    it.valid = true ↔ index < es.length := by
  rw [BlockIter.valid, hat.block, restartsOffset_eq h, hat.current, decide_eq_true_iff,
    offsetOf_lt_iff hat.inside]

theorem invalidate_at (hover : it.Over data) (h : IsBlock data es) :
    it.invalidate.At data es es.length := by
  refine ⟨⟨hover.block, hover.status⟩, le_refl _, ?_, by simp⟩
  rw [BlockIter.invalidate, hover.block, restartsOffset_eq h, offsetOf_length]

theorem parseEntryAt_entry {offset : Nat} {e : Entry} {tail : Bytes}
    (hdrop : it.block.data.drop offset = encodeEntry e ++ tail) (hseq : e.seq < 2 ^ 64)
    (hsize : (encodeEntry e).length < 2 ^ 32)
    (hin : offset + (encodeEntry e).length ≤ it.block.restartsOffset) :
    it.parseEntryAt offset =
      { it with current := offset, nextOffset := offset + (encodeEntry e).length, entry := e } := by
  have hlen := length_encodeEntry e
  have hfield : ∀ (n : Nat) (left right : Bytes), encodeEntry e ++ tail = left ++ right →
      left.length = n → it.block.data.drop (offset + n) = right := by
    intro n left right hsplit hn
    rw [← List.drop_drop, hdrop, hsplit]
    exact List.drop_left' hn
  have hkey := hfield 4 (encodeFixed32 e.userKey.length)
    (e.userKey ++ (encodeFixed64 e.seq ++ (e.type :: (encodeFixed32 e.value.length ++
      (e.value ++ tail))))) (by simp [encodeEntry]) (by simp)
  have hseqField := hfield (4 + e.userKey.length) (encodeFixed32 e.userKey.length ++ e.userKey)
    (encodeFixed64 e.seq ++ (e.type :: (encodeFixed32 e.value.length ++ (e.value ++ tail))))
    (by simp [encodeEntry]) (by simp)
  have htype := hfield (4 + e.userKey.length + 8)
    (encodeFixed32 e.userKey.length ++ (e.userKey ++ encodeFixed64 e.seq))
    (e.type :: (encodeFixed32 e.value.length ++ (e.value ++ tail)))
    (by simp [encodeEntry]) (by simp; omega)
  have hvlen := hfield (4 + e.userKey.length + 9)
    (encodeFixed32 e.userKey.length ++ (e.userKey ++ (encodeFixed64 e.seq ++ [e.type])))
    (encodeFixed32 e.value.length ++ (e.value ++ tail)) (by simp [encodeEntry]) (by simp; omega)
  have hvalue := hfield (4 + e.userKey.length + 13)
    (encodeFixed32 e.userKey.length ++ (e.userKey ++ (encodeFixed64 e.seq ++ ([e.type] ++
      encodeFixed32 e.value.length)))) (e.value ++ tail)
    (by simp [encodeEntry]) (by simp; omega)
  have hklen : decodeFixed32 (it.block.data.drop offset) = e.userKey.length := by
    rw [hdrop, encodeEntry, List.append_assoc, decodeFixed32_of_lt (by omega)]
  simp only [← Nat.add_assoc] at hkey hseqField htype hvlen hvalue
  unfold BlockIter.parseEntryAt
  simp only [hklen, hkey, hseqField, htype, hvlen, hvalue]
  rw [if_neg (by omega), if_neg (by omega), if_neg (by omega), decodeFixed32_of_lt (by omega),
    if_neg (by omega), decodeFixed64_of_lt hseq]
  simp only [List.take_left, List.headD_cons]
  rw [hlen]
  simp only [Nat.add_assoc]

theorem parseEntryAt_at (hover : it.Over data) (h : IsBlock data es)
    (hin : index ≤ es.length) : (it.parseEntryAt (offsetOf es index)).At data es index := by
  have hblock := hover.block
  have hoffset := restartsOffset_eq h
  rcases Nat.lt_or_ge index es.length with hlt | hge
  · have hget : es[index]? = some es[index] := List.getElem?_eq_getElem hlt
    obtain ⟨marks, _, himage⟩ := h.image
    have hdata : it.block.data = data := by
      rw [hblock, himage, Block.new_image (himage ▸ h.small)]
    have hnext := offsetOf_succ hget
    have hle := offsetOf_le es (index + 1)
    have hsmall := h.small
    have hlen := length_blockImage es marks
    rw [← himage] at hlen
    obtain ⟨tail, hdrop⟩ : ∃ tail, it.block.data.drop (offsetOf es index) =
        encodeEntry es[index] ++ tail := by
      rw [hdata, himage, blockImage]
      exact ⟨_, drop_offsetOf hget _⟩
    have hparse := parseEntryAt_entry hdrop
      (h.seqs _ (List.getElem_mem hlt)) (by omega) (by rw [hblock, hoffset]; omega)
    rw [hparse]
    refine ⟨⟨hblock, hover.status⟩, hin, rfl, fun e he => ?_⟩
    rw [hget] at he
    obtain rfl := Option.some.inj he
    exact ⟨hnext.symm, rfl⟩
  · have heq : index = es.length := Nat.le_antisymm hin hge
    subst heq
    have hout : offsetOf es es.length ≥ it.block.restartsOffset := by
      rw [hblock, hoffset, offsetOf_length]
    unfold BlockIter.parseEntryAt
    simp only [if_pos hout]
    exact invalidate_at hover h

theorem At.next (hat : it.At data es index) (h : IsBlock data es) (hlt : index < es.length) :
    it.next.At data es (index + 1) := by
  have hnext := (hat.parsed _ (List.getElem?_eq_getElem hlt)).1
  rw [BlockIter.next, hnext]
  exact parseEntryAt_at hat.toOver h hlt

theorem At.seekScan {target : Key} (h : IsBlock data es) (hover : it.Over data)
    {fuel : Nat} (hin : index ≤ es.length) (hfuel : es.length - index < fuel)
    (hbefore : ∀ i e, i < index → es[i]? = some e → e.userKey < target) :
    (seekScan target fuel it (offsetOf es index)).At data es
      (es.findIdx fun e => target ≤ e.userKey) := by
  induction fuel generalizing it index with
  | zero => omega
  | succ fuel ih =>
    have hlimit : it.block.restartsOffset = (encodeEntries es).length := by
      rw [hover.block, restartsOffset_eq h]
    unfold BlockIter.seekScan
    rcases Nat.lt_or_ge index es.length with hlt | hge
    · have hget : es[index]? = some es[index] := List.getElem?_eq_getElem hlt
      have hat := parseEntryAt_at hover h hin
      obtain ⟨hnext, hentry⟩ := hat.parsed _ hget
      rw [if_pos (by rw [hlimit]; exact (offsetOf_lt_iff hin).mpr hlt)]
      simp only [(hat.valid_iff h).mpr hlt, Bool.not_true, Bool.false_eq_true, ↓reduceIte, hentry]
      split
      · rename_i hle
        have hfirst : es.findIdx (fun e => decide (target ≤ e.userKey)) = index := by
          apply (List.findIdx_eq hlt).mpr
          refine ⟨by simpa using hle, fun i hi => ?_⟩
          have := hbefore i es[i] hi (List.getElem?_eq_getElem _)
          simpa using this
        rw [hfirst]
        exact hat
      · rename_i hnot
        rw [hnext]
        refine ih hat.toOver hlt (by omega) ?_
        intro i e hi he
        rcases Nat.lt_succ_iff_lt_or_eq.mp hi with hi | rfl
        · exact hbefore i e hi he
        · rw [hget] at he
          obtain rfl := Option.some.inj he
          exact not_le.mp hnot
    -- every key is below the target
    · have heq : index = es.length := Nat.le_antisymm hin hge
      have hfirst : es.findIdx (fun e => decide (target ≤ e.userKey)) = es.length := by
        apply List.findIdx_eq_length.mpr
        intro e he
        obtain ⟨i, hi, rfl⟩ := List.getElem_of_mem he
        have := hbefore i es[i] (by omega) (List.getElem?_eq_getElem hi)
        simpa using this
      rw [if_neg (by rw [hlimit, heq, offsetOf_length]; omega), hfirst]
      exact invalidate_at hover h

theorem getRestartOffset_image {marks : List Nat} {r m : Nat}
    (hblock : it.block = Block.new (blockImage es marks))
    (hsmall : (blockImage es marks).length < 2 ^ 32) (hr : marks[r]? = some m) :
    it.getRestartOffset r = offsetOf es m := by
  obtain ⟨hlt, hget⟩ := List.getElem?_eq_some_iff.mp hr
  have hlen := length_blockImage es marks
  have hle := offsetOf_le es m
  have hsplit : (blockImage es marks).drop ((encodeEntries es).length + r * 4) =
      encodeFixed32 (offsetOf es m) ++ (((marks.map (offsetOf es)).drop (r + 1)).flatMap
        encodeFixed32 ++ encodeFixed32 marks.length) := by
    have hbound : 4 * r ≤ ((marks.map (offsetOf es)).flatMap encodeFixed32).length := by
      rw [length_flatMap_encodeFixed32, List.length_map]
      omega
    rw [← List.drop_drop, blockImage, List.drop_left, Nat.mul_comm,
      List.drop_append_of_le_length hbound, drop_flatMap_encodeFixed32,
      List.drop_eq_getElem_cons (by simpa using hlt), List.flatMap_cons, List.getElem_map, hget,
      List.append_assoc]
  rw [BlockIter.getRestartOffset, hblock, Block.new_image hsmall]
  simp only [hsplit]
  rw [decodeFixed32_of_lt (by omega)]

theorem restartKey_image {marks : List Nat} {r m : Nat} {e : Entry}
    (hblock : it.block = Block.new (blockImage es marks))
    (hsmall : (blockImage es marks).length < 2 ^ 32) (hr : marks[r]? = some m)
    (he : es[m]? = some e) : it.restartKey r = e.userKey := by
  have hlen := length_encodeEntry e
  have hsize := length_blockImage es marks
  have hnext := offsetOf_succ he
  have hle := offsetOf_le es (m + 1)
  have hdrop : (blockImage es marks).drop (offsetOf es m) = encodeFixed32 e.userKey.length ++
      (e.userKey ++ ((encodeFixed64 e.seq ++ (e.type :: (encodeFixed32 e.value.length ++ e.value)))
        ++ (encodeEntries (es.drop (m + 1)) ++ ((marks.map (offsetOf es)).flatMap encodeFixed32 ++
          encodeFixed32 marks.length)))) := by
    rw [blockImage, drop_offsetOf he, encodeEntry]
    simp only [List.append_assoc]
  have hkey := congrArg (List.drop 4) hdrop
  rw [List.drop_drop, List.drop_left' (length_encodeFixed32 _)] at hkey
  unfold BlockIter.restartKey
  rw [getRestartOffset_image hblock hsmall hr, hblock, Block.new_image hsmall]
  simp only [hdrop, hkey]
  rw [decodeFixed32_of_lt (by omega), List.take_left]

theorem seek_at (it : BlockIter) (target : Key) (h : IsBlock data es) (hover : it.Over data)
    (hsorted : es.Pairwise fun a b => a.userKey ≤ b.userKey) :
    (it.seek target).At data es (es.findIdx fun e => target ≤ e.userKey) := by
  obtain ⟨marks, hmarks, himage⟩ := h.image
  have hnew := Block.new_image (himage ▸ h.small)
  have hsmall := himage ▸ h.small
  have hfirst := (List.getElem?_eq_some_iff.mp hmarks.first).1
  have hblock := hover.block
  rw [himage] at hblock
  have hcount : it.block.numRestarts = marks.length := by rw [hblock, hnew]
  have hlength : it.block.data.length = data.length := by rw [hblock, hnew, himage]
  unfold BlockIter.seek
  rw [hcount, if_neg (by omega)]
  simp only
  obtain ⟨hlt, hseen⟩ := Search.searchLast_whole
    (fun index => it.restartKey index < target) hfirst
  generalize Search.searchLast (fun index => decide (it.restartKey index < target)) marks.length 0
    (marks.length - 1) 0 = r at hlt hseen
  have hr : marks[r]? = some marks[r] := List.getElem?_eq_getElem hlt
  have hzero : marks[0]? = some 0 := hmarks.first
  have hbound := hmarks.bounded marks[r] (List.getElem_mem hlt)
  rw [getRestartOffset_image hblock hsmall hr]
  have hsize := length_blockImage es marks
  have hentries := length_encodeEntries_ge es
  rw [← himage] at hsize hblock
  refine At.seekScan h hover (by omega) (by omega) ?_
  -- entries in front of the restart point are not above its key
  intro i e hi he
  obtain ⟨hilt, rfl⟩ := List.getElem?_eq_some_iff.mp he
  rcases hseen with hbelow | rfl
  · have hin : marks[r] < es.length := by omega
    have hkey := restartKey_image (himage ▸ hblock) hsmall hr (List.getElem?_eq_getElem hin)
    rw [decide_eq_true_iff, hkey] at hbelow
    exact lt_of_le_of_lt (List.pairwise_iff_getElem.mp hsorted i marks[r] hilt hin hi) hbelow
  · rw [hzero, Option.some.injEq] at hr
    omega

theorem seekToFirst_at (it : BlockIter) (h : IsBlock data es) (hover : it.Over data) :
    it.seekToFirst.At data es 0 := by
  obtain ⟨marks, hmarks, himage⟩ := h.image
  have hnew := Block.new_image (himage ▸ h.small)
  have hfirst := (List.getElem?_eq_some_iff.mp hmarks.first).1
  have hcount : it.block.numRestarts = marks.length := by rw [hover.block, himage, hnew]
  unfold BlockIter.seekToFirst
  rw [hcount, if_neg (by omega)]
  have hat := parseEntryAt_at hover h (Nat.zero_le es.length)
  rwa [offsetOf_zero] at hat

theorem At.scanTo (h : IsBlock data es) (hover : it.Over data) {bound : Nat}
    (hbound : bound ≤ es.length) (hlt : index < bound) {fuel : Nat}
    (hfuel : bound - index ≤ fuel) :
    (scanTo (offsetOf es bound) fuel it (offsetOf es index)).At data es (bound - 1) := by
  induction fuel generalizing it index with
  | zero => omega
  | succ fuel ih =>
    have hat := parseEntryAt_at hover h (show index ≤ es.length by omega)
    have hnext := (hat.parsed _ (List.getElem?_eq_getElem (by omega))).1
    unfold BlockIter.scanTo
    simp only [hnext]
    by_cases hlast : index + 1 = bound
    · rw [if_pos (by rw [hlast]), ← hlast]
      exact hat
    · rw [if_neg (not_le.mpr (offsetOf_strictMono (by omega) hbound))]
      exact ih hat.toOver (by omega) (by omega)

theorem length_lt_fuel (hover : it.Over data) (h : IsBlock data es) :
    es.length < it.block.data.length + 1 := by
  have hlen := h.length_le
  obtain ⟨marks, _, himage⟩ := h.image
  rw [hover.block, himage, Block.new_image (himage ▸ h.small)]
  simp only [← himage]
  omega

theorem seekToLast_at (it : BlockIter) (h : IsBlock data es) (hover : it.Over data)
    (hne : es ≠ []) : it.seekToLast.At data es (es.length - 1) := by
  obtain ⟨marks, hmarks, himage⟩ := h.image
  have hnew := Block.new_image (himage ▸ h.small)
  have hfirst := (List.getElem?_eq_some_iff.mp hmarks.first).1
  have hcount : it.block.numRestarts = marks.length := by rw [hover.block, himage, hnew]
  have hlimit : it.block.restartsOffset = offsetOf es es.length := by
    rw [hover.block, restartsOffset_eq h, offsetOf_length]
  have hlast : marks[marks.length - 1]? = some marks[marks.length - 1] :=
    List.getElem?_eq_getElem (by omega)
  have hpos := List.length_pos_of_ne_nil hne
  have hbound := hmarks.bounded _ (List.mem_of_getElem? hlast)
  have hfuel := length_lt_fuel hover h
  unfold BlockIter.seekToLast
  rw [hcount, if_neg (by omega), hlimit,
    getRestartOffset_image (himage ▸ hover.block) (himage ▸ h.small) hlast]
  exact At.scanTo h hover (le_refl _) (by omega) (by omega)

theorem seekToLast_empty (it : BlockIter) (h : IsBlock data []) (hover : it.Over data) :
    it.seekToLast.At data [] 0 := by
  have hlimit : it.block.restartsOffset = 0 := by
    rw [hover.block, restartsOffset_eq h]
    rfl
  have hparse : ∀ offset, it.parseEntryAt offset = it.invalidate := by
    intro offset
    simp [BlockIter.parseEntryAt, hlimit]
  unfold BlockIter.seekToLast
  split
  · exact invalidate_at hover h
  · rw [BlockIter.scanTo, hparse, if_pos (by rw [hlimit]; exact Nat.zero_le _)]
    exact invalidate_at hover h

theorem At.prev (hat : it.At data es (index + 1)) (h : IsBlock data es) :
    it.prev.At data es index := by
  obtain ⟨marks, hmarks, himage⟩ := h.image
  have hnew := Block.new_image (himage ▸ h.small)
  have hfirst := (List.getElem?_eq_some_iff.mp hmarks.first).1
  have hcount : it.block.numRestarts = marks.length := by rw [hat.block, himage, hnew]
  have hrestart : ∀ r m, marks[r]? = some m → it.getRestartOffset r = offsetOf es m :=
    fun r m hr => getRestartOffset_image (himage ▸ hat.block) (himage ▸ h.small) hr
  have hinside := hat.inside
  have hfuel := length_lt_fuel hat.toOver h
  unfold BlockIter.prev
  rw [hcount, hat.current]
  simp only
  obtain ⟨hlt, hseen⟩ := Search.searchLast_whole
    (fun r => it.getRestartOffset r < offsetOf es (index + 1)) hfirst
  generalize Search.searchLast (fun r => decide (it.getRestartOffset r < offsetOf es (index + 1)))
    marks.length 0 (marks.length - 1) 0 = r at hlt hseen
  have hr : marks[r]? = some marks[r] := List.getElem?_eq_getElem hlt
  -- the restart point that is found lies in front of the current entry
  have hbefore : it.getRestartOffset r < offsetOf es (index + 1) := by
    rcases hseen with hbelow | rfl
    · simpa using hbelow
    · rw [hrestart 0 0 hmarks.first]
      exact offsetOf_strictMono (Nat.succ_pos _) hinside
  rw [hrestart r _ hr] at hbefore ⊢
  have hmark : marks[r] < index + 1 := by
    by_contra hnot
    rcases hmarks.bounded _ (List.mem_of_getElem? hr) with hzero | hin
    · omega
    · rcases Nat.lt_or_eq_of_le (not_lt.mp hnot) with hgt | heq
      · have hmore : offsetOf es (index + 1) < offsetOf es marks[r] :=
          offsetOf_strictMono hgt hin.le
        omega
      · rw [← heq] at hbefore
        omega
  rw [if_neg (not_le.mpr hbefore)]
  exact At.scanTo h hat.toOver hinside hmark (by omega)

theorem At.prev_first (hat : it.At data es 0) (h : IsBlock data es) :
    it.prev.At data es es.length := by
  unfold BlockIter.prev
  rw [hat.current, offsetOf_zero]
  simp only
  rw [if_pos (Nat.zero_le _)]
  exact invalidate_at hat.toOver h

end BlockIter

end Strata

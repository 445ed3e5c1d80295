import Mathlib.Data.List.Induction
import Strata.Memtable
import Strata.Table
import Strata.VersionEdit

/-! What the table builder writes. The packing of entries into blocks is a
function of the entries and the options; when no call fails, the file is the
image of that packing. -/
namespace Strata

open Library System

structure Packed where
  done : List DataBlock
  current : BlockBuilder
  rest : List Entry

namespace Packed

def empty : Packed := ⟨[], .new 16, []⟩

def add (options : Options) (p : Packed) (e : Entry) : Packed :=
  let current := p.current.add e
  if current.currentSizeEstimate ≥ options.blockSize then
    ⟨p.done ++ [(current.finish, p.rest ++ [e])], current.reset, []⟩
  else ⟨p.done, current, p.rest ++ [e]⟩

def blocks (p : Packed) : List DataBlock :=
  if p.rest = [] then p.done else p.done ++ [(p.current.finish, p.rest)]

end Packed

def pack (options : Options) (es : List Entry) : Packed := es.foldl (Packed.add options) .empty

def indexBuilder (blocks : List DataBlock) : BlockBuilder :=
  (indexEntries 0 blocks).foldl BlockBuilder.add (.new 1)

def layoutOf (options : Options) (es : List Entry) : Layout :=
  let blocks := (pack options es).blocks
  ⟨blocks, BloomFilter.createFilter (es.map Entry.userKey) options.bloomBitsPerKey,
    (indexBuilder blocks).finish⟩

theorem pack_append (options : Options) (es : List Entry) (e : Entry) :
    pack options (es ++ [e]) = (pack options es).add options e := by
  simp [pack]

theorem pack_full {options : Options} {es : List Entry} {e : Entry}
    (h : ((pack options es).current.add e).currentSizeEstimate ≥ options.blockSize) :
    pack options (es ++ [e]) = ⟨(pack options es).done ++ [(((pack options es).current.add e).finish,
      (pack options es).rest ++ [e])], ((pack options es).current.add e).reset, []⟩ := by
  rw [pack_append, Packed.add]
  simp only [if_pos h]

theorem pack_room {options : Options} {es : List Entry} {e : Entry}
    (h : ¬ ((pack options es).current.add e).currentSizeEstimate ≥ options.blockSize) :
    pack options (es ++ [e]) = ⟨(pack options es).done, (pack options es).current.add e,
      (pack options es).rest ++ [e]⟩ := by
  rw [pack_append, Packed.add]
  simp only [if_neg h]

structure Packed.Holds (p : Packed) (es : List Entry) : Prop where
  entries : (p.done.map Prod.snd).flatten ++ p.rest = es
  current : p.current.Holds p.rest
  done : ∀ b ∈ p.done, b.2 ≠ [] ∧ ∃ builder : BlockBuilder, builder.Holds b.2 ∧ b.1 = builder.finish

theorem pack_holds (options : Options) (es : List Entry) : (pack options es).Holds es := by
  induction es using List.reverseRecOn with
  | nil => exact ⟨rfl, .new (by decide), fun b hb => by cases hb⟩
  | append_singleton es e ih =>
    rw [pack_append]
    obtain ⟨hentries, hcurrent, hdone⟩ := ih
    have hadd := hcurrent.add e
    have hmore := congrArg (· ++ [e]) hentries
    unfold Packed.add
    simp only
    split
    · refine ⟨?_, hadd.reset, ?_⟩
      · simpa using hmore
      · intro b hb
        rcases List.mem_append.mp hb with hb | hb
        · exact hdone b hb
        · rw [List.mem_singleton] at hb
          subst hb
          exact ⟨by simp, _, hadd, rfl⟩
    · exact ⟨by simpa using hmore, hadd, hdone⟩

theorem Packed.Holds.blocks {p : Packed} {es : List Entry} (h : p.Holds es) :
    (p.blocks.map Prod.snd).flatten = es ∧
      ∀ b ∈ p.blocks, b.2 ≠ [] ∧ ∃ builder : BlockBuilder, builder.Holds b.2 ∧
        b.1 = builder.finish := by
  obtain ⟨hentries, hcurrent, hdone⟩ := h
  unfold Packed.blocks
  split
  · rename_i hrest
    exact ⟨by simpa [hrest] using hentries, hdone⟩
  · rename_i hrest
    refine ⟨by simp [← hentries], fun b hb => ?_⟩
    rcases List.mem_append.mp hb with hb | hb
    · exact hdone b hb
    · rw [List.mem_singleton] at hb
      subst hb
      exact ⟨hrest, _, hcurrent, rfl⟩

theorem foldl_add_holds (es : List Entry) {b : BlockBuilder} {before : List Entry}
    (h : b.Holds before) : (es.foldl BlockBuilder.add b).Holds (before ++ es) := by
  induction es generalizing b before with
  | nil => simpa using h
  | cons e rest ih =>
    have hrest := ih (h.add e)
    rwa [List.append_assoc] at hrest

theorem indexBuilder_holds (blocks : List DataBlock) :
    (indexBuilder blocks).Holds (indexEntries 0 blocks) :=
  foldl_add_holds (indexEntries 0 blocks) (.new (by decide))

theorem indexEntries_seq {offset : Nat} {blocks : List DataBlock} {e : Entry}
    (h : e ∈ indexEntries offset blocks) : e.seq = 0 := by
  induction blocks generalizing offset with
  | nil => cases h
  | cons b rest ih =>
    obtain ⟨data, es⟩ := b
    rcases List.mem_cons.mp h with rfl | h
    · rfl
    · exact ih h

theorem isBlock_built {b : DataBlock}
    (hbuilt : ∃ builder : BlockBuilder, builder.Holds b.2 ∧ b.1 = builder.finish)
    (hseqs : ∀ e ∈ b.2, e.seq < 2 ^ 64) (hsize : b.1.length ≤ kMaxBlockSize) :
    IsBlock b.1 b.2 := by
  have hlimit : kMaxBlockSize < 2 ^ 32 := by decide
  obtain ⟨builder, hbuilder, hfinish⟩ := hbuilt
  rw [hfinish] at hsize ⊢
  exact hbuilder.finish (by omega) hseqs

theorem isBlock_index {blocks : List DataBlock}
    (hsize : (indexBuilder blocks).finish.length ≤ kMaxBlockSize) :
    IsBlock (indexBuilder blocks).finish (indexEntries 0 blocks) := by
  have hlimit : kMaxBlockSize < 2 ^ 32 := by decide
  apply (indexBuilder_holds blocks).finish (lt_of_le_of_lt hsize hlimit)
  intro e he
  rw [indexEntries_seq he]
  decide

theorem layoutOf_opens {options : Options} {es : List Entry}
    (hsorted : es.Pairwise fun a b => ¬ b.before a) (hseqs : ∀ e ∈ es, e.seq < 2 ^ 64)
    (hfilter : (layoutOf options es).filter.length ≤ kMaxBlockSize)
    (hindex : (layoutOf options es).index.length ≤ kMaxBlockSize)
    (hsmall : (layoutOf options es).image.length < 2 ^ 64) : (layoutOf options es).Opens es := by
  obtain ⟨hentries, hholds⟩ := (pack_holds options es).blocks
  refine ⟨hentries.symm, ?_, isBlock_index hindex, hindex, hfilter, ?_, hsorted, hsmall⟩
  · intro b hb
    obtain ⟨hne, hbuilt⟩ := hholds b hb
    refine ⟨hne, isBlock_built hbuilt fun e he => hseqs e ?_⟩
    rw [← hentries]
    exact List.mem_flatten.mpr ⟨b.2, List.mem_map_of_mem hb, he⟩
  · intro e he
    exact BloomFilter.keyMayMatch_createFilter _ (List.mem_map_of_mem he)

theorem layoutOf_valid {options : Options} {es : List Entry}
    (hsorted : es.Pairwise fun a b => ¬ b.before a) (hseqs : ∀ e ∈ es, e.seq < 2 ^ 64)
    (hblocks : ∀ b ∈ (layoutOf options es).blocks, b.1.length ≤ kMaxBlockSize)
    (hfilter : (layoutOf options es).filter.length ≤ kMaxBlockSize)
    (hindex : (layoutOf options es).index.length ≤ kMaxBlockSize)
    (hsmall : (layoutOf options es).image.length < 2 ^ 64) : (layoutOf options es).Valid es :=
  (layoutOf_opens hsorted hseqs hfilter hindex hsmall).valid hblocks

namespace SSTableBuilder

structure Holds (options : Options) (b : SSTableBuilder) (es : List Entry) : Prop where
  offset : b.offset = (bodyOf (pack options es).done).length
  numEntries : b.numEntries = es.length
  dataBlock : b.dataBlock = (pack options es).current
  indexBlock : b.indexBlock = indexBuilder (pack options es).done
  keysForFilter : b.keysForFilter = es.map Entry.userKey
  lastKeyInBlock : b.lastKeyInBlock = lastKey es
  smallestKey : b.smallestKey = firstKey es
  largestKey : b.largestKey = lastKey es
  status : b.status = .ok

/-- The builder is in step with its file, and every block it wrote is a call of
the run. -/
structure Writing (assume : Assume FileName) (options : Options) (base dir : Dir)
    (b : SSTableBuilder) (es : List Entry) : Prop where
  holds : b.Holds options es
  dir : dir = base.insert b.filename (bodyOf (pack options es).done)
  calls : ∀ block ∈ (pack options es).done, ∃ offset,
    assume.calls (.append b.filename offset block.1)

variable {assume : Assume FileName} {options : Options} {base dir : Dir} {b : SSTableBuilder}
  {es : List Entry} {C : Dir → Prop}

theorem lastKey_append (es : List Entry) (e : Entry) : lastKey (es ++ [e]) = e.userKey := by
  simp [lastKey]

theorem firstKey_append (es : List Entry) (e : Entry) :
    firstKey (es ++ [e]) = if es.length = 0 then e.userKey else firstKey es := by
  cases es <;> simp [firstKey]

theorem indexBuilder_append (blocks : List DataBlock) (b : DataBlock) :
    indexBuilder (blocks ++ [b]) = (indexBuilder blocks).add ⟨lastKey b.2, 0, kTypeValue,
      BlockHandle.encodeTo ⟨(bodyOf blocks).length, b.1.length⟩⟩ := by
  rw [indexBuilder, Layout.indexEntries_append, List.foldl_append, Nat.zero_add]
  obtain ⟨data, es⟩ := b
  rfl

def added (options : Options) (b : SSTableBuilder) (es : List Entry) (e : Entry) :
    SSTableBuilder :=
  { b with
    offset := (bodyOf (pack options (es ++ [e])).done).length
    numEntries := b.numEntries + 1
    dataBlock := (pack options (es ++ [e])).current
    indexBlock := indexBuilder (pack options (es ++ [e])).done
    keysForFilter := b.keysForFilter ++ [e.userKey]
    lastKeyInBlock := e.userKey
    smallestKey := if b.numEntries = 0 then e.userKey else b.smallestKey
    largestKey := e.userKey
    status := .ok }

theorem Holds.added (h : b.Holds options es) (e : Entry) :
    (b.added options es e).Holds options (es ++ [e]) := by
  constructor
  · rfl
  · simp [SSTableBuilder.added, h.numEntries]
  · rfl
  · rfl
  · simp [SSTableBuilder.added, h.keysForFilter]
  · exact (lastKey_append _ _).symm
  · rw [firstKey_append, ← h.numEntries, ← h.smallestKey]
    rfl
  · exact (lastKey_append _ _).symm
  · rfl

theorem new_writing (options : Options) {name : FileName} (hsure : assume.SureFile name) (hcrash : C base) :
    Runs assume base (SSTableBuilder.new name)
      (fun b after => b.filename = name ∧ assume.calls (.create name) ∧
        Writing assume options base after b []) C := by
  unfold SSTableBuilder.new
  refine Runs.bind (Runs.call_ok (Q := fun opened after => opened = true ∧
    after = base.insert name [] ∧ assume.calls (.create name)) hsure.create
    (fun hcall => ⟨rfl, rfl, hcall⟩) fun _ => hcrash) ?_
  rintro opened after ⟨rfl, rfl, hcall⟩
  refine Runs.ret ⟨rfl, hcall, ⟨rfl, rfl, rfl, rfl, rfl, rfl, rfl, rfl, rfl⟩, rfl, ?_⟩
  intro block hblock
  cases hblock

theorem writeRawBlock_ok {name : FileName} (hsure : assume.SureFile name) {bytes : Bytes}
    (hcrash : ∀ bytes, C (base.insert name bytes)) (b : SSTableBuilder) (hname : b.filename = name)
    (hdir : dir = base.insert name bytes) (contents : Bytes) :
    Runs assume dir (b.writeRawBlock contents)
      (fun result after => result = (.ok, ⟨b.offset, contents.length⟩,
          { b with offset := b.offset + (contents.length + 4) }) ∧
        after = base.insert name (bytes ++ sealBlock contents) ∧
        assume.calls (.append name bytes.length contents)) C := by
  subst hdir hname
  unfold writeRawBlock
  simp only
  refine Runs.bind (Runs.call_ok (Q := fun cut after => cut = none ∧
      after = base.insert b.filename (bytes ++ contents) ∧
      assume.calls (.append b.filename bytes.length contents)) (hsure.append _ _)
    (fun hcall => ⟨rfl, extend_insert _ _ _ _, by simpa using hcall⟩)
    fun n => by rw [extend_insert]; exact hcrash _) ?_
  rintro cut after ⟨rfl, rfl, hcall⟩
  simp only
  refine Runs.bind (Runs.call_ok (Q := fun cut after => cut = none ∧
      after = base.insert b.filename (bytes ++ sealBlock contents)) (hsure.append _ _)
    (fun _ => ⟨rfl, by rw [extend_insert, List.append_assoc, sealBlock]⟩)
    fun n => by rw [extend_insert]; exact hcrash _) ?_
  rintro cut after ⟨rfl, rfl⟩
  exact Runs.ret ⟨by simp [Nat.add_assoc], rfl, hcall⟩

theorem flushBlock_ok (hsure : assume.SureFile b.filename) {done : List DataBlock} {rest : List Entry}
    (hdir : dir = base.insert b.filename (bodyOf done))
    (hoffset : b.offset = (bodyOf done).length) (hindex : b.indexBlock = indexBuilder done)
    (hlast : b.lastKeyInBlock = lastKey rest) (hfull : b.dataBlock.empty = false)
    (hcrash : ∀ bytes, C (base.insert b.filename bytes)) :
    Runs assume dir b.flushBlock
      (fun b' after => b' = { b with
          offset := (bodyOf (done ++ [(b.dataBlock.finish, rest)])).length
          indexBlock := indexBuilder (done ++ [(b.dataBlock.finish, rest)])
          dataBlock := b.dataBlock.reset
          status := .ok } ∧
        after = base.insert b.filename (bodyOf (done ++ [(b.dataBlock.finish, rest)])) ∧
        ∃ offset, assume.calls (.append b.filename offset b.dataBlock.finish)) C := by
  have hbody : bodyOf (done ++ [(b.dataBlock.finish, rest)]) =
      bodyOf done ++ sealBlock b.dataBlock.finish := by
    rw [Layout.bodyOf_append]
    simp [bodyOf]
  unfold flushBlock
  rw [if_neg (by simp [hfull])]
  refine Runs.bind (writeRawBlock_ok hsure hcrash _ rfl hdir _) ?_
  rintro ⟨status, handle, b'⟩ after ⟨heq, rfl, hcall⟩
  obtain ⟨rfl, rfl, rfl⟩ := heq
  refine Runs.ret ⟨?_, by rw [hbody], _, hcall⟩
  simp only [indexBuilder_append, hindex, hlast, hoffset, hbody, List.length_append,
    length_sealBlock]

theorem add_writing (hsure : assume.SureFile b.filename) (h : Writing assume options base dir b es)
    (hcrash : ∀ bytes, C (base.insert b.filename bytes)) (e : Entry) :
    Runs assume dir (b.add options e)
      (fun b' after => b'.filename = b.filename ∧
        Writing assume options base after b' (es ++ [e])) C := by
  obtain ⟨hholds, hdir, hcalls⟩ := h
  have hadded := hholds.added e
  unfold SSTableBuilder.add
  rw [if_neg (by simp [hholds.status, Status.isOk])]
  simp only [hholds.dataBlock]
  split
  -- the block is full
  · rename_i hfull
    have hpack := pack_full hfull
    have hlast : e.userKey = lastKey ((pack options es).rest ++ [e]) := (lastKey_append _ _).symm
    refine Runs.weaken (flushBlock_ok (by exact hsure) hdir hholds.offset hholds.indexBlock hlast ?_
      hcrash) ?_ fun _ h => h
    · exact ((pack_holds options es).current.add e).not_empty (by simp)
    · rintro b' after ⟨rfl, rfl, hcall⟩
      refine ⟨rfl, ?_, ?_, ?_⟩
      · rw [SSTableBuilder.added, hpack] at hadded
        exact hadded
      · rw [hpack]
      · rw [hpack]
        intro block hblock
        rcases List.mem_append.mp hblock with hblock | hblock
        · exact hcalls block hblock
        · rw [List.mem_singleton] at hblock
          subst hblock
          exact hcall
  · rename_i hroom
    have hpack := pack_room hroom
    rw [SSTableBuilder.added, hpack, ← hholds.offset, ← hholds.indexBlock, ← hholds.status] at hadded
    refine Runs.ret ⟨rfl, hadded, ?_, ?_⟩
    · rw [hpack]
      exact hdir
    · rw [hpack]
      exact hcalls

theorem addAll_writing (hsure : assume.SureFile b.filename) (more : List Entry)
    (h : Writing assume options base dir b es)
    (hcrash : ∀ bytes, C (base.insert b.filename bytes)) :
    Runs assume dir (b.addAll options more)
      (fun b' after => b'.filename = b.filename ∧
        Writing assume options base after b' (es ++ more)) C := by
  induction more generalizing dir b es with
  | nil => exact Runs.ret ⟨rfl, by simpa using h⟩
  | cons e rest ih =>
    unfold SSTableBuilder.addAll
    refine Runs.bind (add_writing hsure h hcrash e) ?_
    rintro b' after ⟨hname, hwriting⟩
    refine Runs.weaken (ih (hname ▸ hsure) hwriting (hname ▸ hcrash)) ?_ fun _ h => h
    rintro b'' last ⟨hname', hlast⟩
    exact ⟨hname'.trans hname, by simpa using hlast⟩

structure Wrote (assume : Assume FileName) (name : FileName) (l : Layout) : Prop where
  blocks : ∀ block ∈ l.blocks, ∃ offset, assume.calls (.append name offset block.1)
  filter : ∃ offset, assume.calls (.append name offset l.filter)
  index : ∃ offset, assume.calls (.append name offset l.index)
  footer : assume.calls (.append name (l.image.length - 48)
    (SSTableBuilder.footer l.filterHandle l.indexHandle))

theorem Holds.lastKey_rest (h : b.Holds options es) (hrest : (pack options es).rest ≠ []) :
    b.lastKeyInBlock = lastKey (pack options es).rest := by
  rw [h.lastKeyInBlock]
  conv_lhs => rw [← (pack_holds options es).entries]
  simp [lastKey, List.getLast?_append_of_ne_nil _ hrest]

theorem Holds.flush_empty (h : b.Holds options es) :
    b.dataBlock.empty = true ↔ (pack options es).rest = [] := by
  rw [h.dataBlock]
  exact (pack_holds options es).current.empty_iff

theorem flushRest_ok (hsure : assume.SureFile b.filename) (h : Writing assume options base dir b es)
    (hcrash : ∀ bytes, C (base.insert b.filename bytes)) :
    Runs assume dir b.flushBlock
      (fun b' after => (∃ data, b' = { b with
          offset := (bodyOf (pack options es).blocks).length
          indexBlock := indexBuilder (pack options es).blocks
          dataBlock := data }) ∧
        after = base.insert b.filename (bodyOf (pack options es).blocks) ∧
        ∀ block ∈ (pack options es).blocks, ∃ offset,
          assume.calls (.append b.filename offset block.1)) C := by
  obtain ⟨hholds, hdir, hcalls⟩ := h
  by_cases hrest : (pack options es).rest = []
  · have hblocks : (pack options es).blocks = (pack options es).done := by
      rw [Packed.blocks, if_pos hrest]
    unfold flushBlock
    rw [if_pos (hholds.flush_empty.mpr hrest), hblocks]
    exact Runs.ret ⟨⟨b.dataBlock, by rw [← hholds.offset, ← hholds.indexBlock]⟩, hdir, hcalls⟩
  · have hblocks : (pack options es).blocks =
        (pack options es).done ++ [(b.dataBlock.finish, (pack options es).rest)] := by
      rw [Packed.blocks, if_neg hrest, hholds.dataBlock]
    have hfull : b.dataBlock.empty = false := by
      rw [← Bool.not_eq_true, hholds.flush_empty]
      exact hrest
    rw [hblocks]
    refine Runs.weaken (flushBlock_ok hsure hdir hholds.offset hholds.indexBlock
      (hholds.lastKey_rest hrest) hfull hcrash) ?_ fun _ h => h
    rintro b' after ⟨rfl, rfl, hcall⟩
    refine ⟨⟨b.dataBlock.reset, by rw [hholds.status]⟩, rfl, ?_⟩
    intro block hblock
    rcases List.mem_append.mp hblock with hblock | hblock
    · exact hcalls block hblock
    · rw [List.mem_singleton] at hblock
      subst hblock
      exact hcall

theorem finish_ok (hsure : assume.SureFile b.filename) (h : Writing assume options base dir b es)
    (hcrash : ∀ bytes, C (base.insert b.filename bytes)) :
    Runs assume dir (b.finish options)
      (fun result after => result.1 = .ok ∧
        result.2.fileSize = (layoutOf options es).image.length ∧
        result.2.smallestKey = firstKey es ∧ result.2.largestKey = lastKey es ∧
        after = base.insert b.filename (layoutOf options es).image ∧
        Wrote assume b.filename (layoutOf options es)) C := by
  have hstatus := h.holds.status
  have hkeys := h.holds.keysForFilter
  have hsmallest := h.holds.smallestKey
  have hlargest := h.holds.largestKey
  unfold SSTableBuilder.finish
  rw [if_neg (by simp [hstatus, Status.isOk])]
  refine Runs.bind (flushRest_ok hsure h hcrash) ?_
  rintro b1 after ⟨⟨data, rfl⟩, rfl, hblocks⟩
  refine Runs.bind (writeRawBlock_ok hsure hcrash _ (by rfl) rfl _) ?_
  rintro ⟨status, filterHandle, b2⟩ after ⟨heq, rfl, hfilterCall⟩
  obtain ⟨rfl, rfl, rfl⟩ := heq
  simp only [Status.isOk, Bool.not_true, Bool.false_eq_true, ↓reduceIte]
  refine Runs.bind (writeRawBlock_ok hsure hcrash _ (by rfl) rfl _) ?_
  rintro ⟨status, indexHandle, b3⟩ after ⟨heq, rfl, hindexCall⟩
  obtain ⟨rfl, rfl, rfl⟩ := heq
  simp only [Bool.not_true, Bool.false_eq_true, ↓reduceIte, List.length_append,
    length_sealBlock, hkeys] at hfilterCall hindexCall ⊢
  have hlen := Layout.length_image (layoutOf options es)
  have himage : ∀ footer, bodyOf (pack options es).blocks ++ sealBlock (BloomFilter.createFilter
      (es.map Entry.userKey) options.bloomBitsPerKey) ++
      sealBlock (indexBuilder (pack options es).blocks).finish ++ footer =
      bodyOf (layoutOf options es).blocks ++ (sealBlock (layoutOf options es).filter ++
        (sealBlock (layoutOf options es).index ++ footer)) := by
    intro footer
    simp only [layoutOf, List.append_assoc]
  refine Runs.bind (Runs.call_ok (Q := fun cut after => cut = none ∧
      after = base.insert b.filename (layoutOf options es).image ∧
      assume.calls (.append b.filename ((layoutOf options es).image.length - 48)
        (SSTableBuilder.footer (layoutOf options es).filterHandle
          (layoutOf options es).indexHandle))) (hsure.append _ _)
    (fun hcall => ⟨rfl, ?_, ?_⟩) fun n => by rw [extend_insert]; exact hcrash _) ?_
  · rw [extend_insert, himage]
    rfl
  · simp only [lookup_insert_self, Option.getD_some, List.length_append, length_sealBlock] at hcall
    rw [hlen]
    exact hcall
  rintro cut after ⟨rfl, rfl, hfooterCall⟩
  refine Runs.bind (Runs.call_ok (Q := fun synced after => synced = true ∧
    after = base.insert b.filename (layoutOf options es).image) hsure.sync (fun _ => ⟨rfl, rfl⟩)
    fun _ => hcrash _) ?_
  rintro synced after ⟨rfl, rfl⟩
  refine Runs.bind (M := fun status after => status = .ok ∧
    after = base.insert b.filename (layoutOf options es).image) (Runs.ret ⟨rfl, rfl⟩) ?_
  rintro status after ⟨rfl, rfl⟩
  refine Runs.ret ⟨rfl, ?_, hsmallest, hlargest, rfl, hblocks, ⟨_, hfilterCall⟩,
    ⟨_, hindexCall⟩, hfooterCall⟩
  rw [hlen]
  rfl

theorem build_ok (hnofail : assume.NoFail) (options : Options) (name : FileName)
    (es : List Entry) :
    Runs assume base (build options name es)
      (fun result after => result.1 = .ok ∧
        result.2.fileSize = (layoutOf options es).image.length ∧
        result.2.smallestKey = firstKey es ∧ result.2.largestKey = lastKey es ∧
        after = base.insert name (layoutOf options es).image) fun _ => True := by
  unfold build
  refine Runs.bind (new_writing options (hnofail.file name) trivial) ?_
  rintro b after ⟨rfl, _, hwriting⟩
  refine Runs.bind (addAll_writing (hnofail.file _) es hwriting fun _ => trivial) ?_
  rintro b' middle ⟨hname, hfull⟩
  refine Runs.weaken (finish_ok (hnofail.file _) hfull fun _ => trivial) ?_ fun _ h => h
  rintro result last ⟨hok, hsize, hsmallest, hlargest, hlast, _⟩
  exact ⟨hok, hsize, hsmallest, hlargest, hname ▸ hlast⟩

end SSTableBuilder

def writtenFile (options : Options) (es : List Entry) (number : Nat) (reader : SSTableReader) :
    FileMetaData :=
  ⟨number, (layoutOf options es).image.length, firstKey es, lastKey es, some reader⟩

def openWritten (options : Options) (es : List Entry) (fault : Option Nat) (number : Nat) :
    Except Status SSTableReader :=
  SSTableReader.openTable (some (layoutOf options es).image) fault number
    (layoutOf options es).image.length

/-- The bounds under which a write can be read back: 64 MiB for a record or a
block, and file sizes and file numbers within the machine's integers. -/
def WithinLimits : Call FileName → Prop
  | .append _ offset data => data.length ≤ kMaxBlockSize ∧ offset + data.length < 2 ^ 63
  | .create (.table number) => number < 2 ^ 63
  | .openAppend (.log number) => number < 2 ^ 63
  | .openAppend (.manifest number) => number < 2 ^ 63
  | _ => True

instance : DecidablePred WithinLimits
  | .append _ offset data => inferInstanceAs
      (Decidable (data.length ≤ kMaxBlockSize ∧ offset + data.length < 2 ^ 63))
  | .create (.table number) => inferInstanceAs (Decidable (number < 2 ^ 63))
  | .openAppend (.log number) => inferInstanceAs (Decidable (number < 2 ^ 63))
  | .openAppend (.manifest number) => inferInstanceAs (Decidable (number < 2 ^ 63))
  | .create .lock | .create .current | .create .currentTmp | .create (.log _)
  | .create (.manifest _) | .create (.other _) | .openAppend .lock | .openAppend .current
  | .openAppend .currentTmp | .openAppend (.table _) | .openAppend (.other _) | .sync _
  | .syncDirectory | .rename _ _ | .unlink _ => .isTrue trivial

def Limited (assume : Assume FileName) : Prop := ∀ e, assume.events e → WithinLimits e.call

/-- What is assumed of the tables that a run writes: no call on them fails and
their reads do not. A table that opens serves its entries, as long as each is
allowed, and one that does not open was rejected. -/
structure Tables (assume : Assume FileName) (options : Options) (allowed : Entry → Prop)
    (rejected : Prop) : Prop where
  sure : ∀ number, assume.SureFile (.table number)
  readable : ∀ faults, assume.faults faults → ∀ number, faults (.table number) = none
  serves : ∀ number es r, Memtable.Sorted es → (∀ e ∈ es, allowed e) →
    SSTableBuilder.Wrote assume (.table number) (layoutOf options es) →
    openWritten options es none number = .ok r → r.Serves es
  opens : ∀ number es status, Memtable.Sorted es → (∀ e ∈ es, allowed e) →
    SSTableBuilder.Wrote assume (.table number) (layoutOf options es) →
    openWritten options es none number = .error status → rejected

namespace Tables

variable {assume : Assume FileName} {options : Options}

theorem image_lt {name : FileName} {es : List Entry}
    (hoffsets : ∀ offset data, assume.calls (.append name offset data) → offset + data.length < 2 ^ 63)
    (h : SSTableBuilder.Wrote assume name (layoutOf options es)) :
    (layoutOf options es).image.length < 2 ^ 63 := by
  have hfooter := hoffsets _ _ h.footer
  have hlen := Layout.length_image (layoutOf options es)
  rw [Layout.length_footer] at hfooter
  omega

theorem of_limited (hnofail : assume.NoFail) (hlimited : Limited assume)
    (hreadable : ∀ faults, assume.faults faults → ∀ number, faults (.table number) = none) :
    Tables assume options (fun e => e.seq < 2 ^ 64) False := by
  have hvalid : ∀ number es, Memtable.Sorted es → (∀ e ∈ es, e.seq < 2 ^ 64) →
      SSTableBuilder.Wrote assume (.table number) (layoutOf options es) →
      (layoutOf options es).Valid es := by
    intro number es hsorted hseqs hwrote
    have hsmall := image_lt (fun _ _ hcall => (hlimited _ hcall).2) hwrote
    obtain ⟨hblocks, ⟨_, hfilter⟩, ⟨_, hindex⟩, _⟩ := hwrote
    refine layoutOf_valid hsorted hseqs (fun b hb => ?_) (hlimited _ hfilter).1
      (hlimited _ hindex).1 (by omega)
    obtain ⟨_, hcall⟩ := hblocks b hb
    exact (hlimited _ hcall).1
  constructor
  · exact fun number => hnofail.file _
  · exact hreadable
  · intro number es r hsorted hseqs hwrote hopen
    have hes := hvalid number es hsorted hseqs hwrote
    rw [openWritten, Layout.openTable_image hes.opens] at hopen
    exact ⟨_, number, hes, (Except.ok.inj hopen).symm⟩
  · intro number es status hsorted hseqs hwrote hopen
    rw [openWritten,
      Layout.openTable_image (hvalid number es hsorted hseqs hwrote).opens] at hopen
    cases hopen

end Tables

end Strata

import Strata.BlockCache
import Strata.Library.Cursor
import Strata.Table

/-! The table reader with a block cache. Every block is looked up in the cache
first and kept there once it has been read. A cache that agrees with the file
changes nothing in what the reader returns. -/
namespace Strata

open Library System

namespace SSTableReader

/-- `cache` is a null pointer or a cache; its new state is returned. -/
def readThrough (r : SSTableReader) (cache : Option BlockCache) (handle : BlockHandle) :
    Except Status Block × Option BlockCache :=
  match cache with
  | none => (r.readBlock handle, none)
  | some c =>
    match c.lookup r.fileNumber handle.offset with
    | (some block, c) => (.ok block, some c)
    | (none, c) =>
      match r.readBlock handle with
      | .error status => (.error status, some c)
      | .ok block =>
        (.ok block, some (c.insert r.fileNumber handle.offset block block.data.length))

def readHandleCached (r : SSTableReader) (cache : Option BlockCache) (value : Bytes) :
    Except Status Block × Option BlockCache :=
  match BlockHandle.decodeFrom value with
  | .error status => (.error status, cache)
  | .ok handle => r.readThrough cache handle

def getCached (r : SSTableReader) (cache : Option BlockCache) (key : Key) (seq : Nat) :
    Lookup × Option BlockCache :=
  if r.filterData ≠ [] ∧ !BloomFilter.keyMayMatch key r.filterData then (.absent, cache)
  else
    let index := r.indexBlock.newIterator.seek key
    if !index.valid then (.absent, cache)
    else
      match r.readHandleCached cache index.entry.value with
      | (.error status, cache) => (.failed status, cache)
      | (.ok block, cache) =>
        (getScan key seq (block.data.length + 1) (block.newIterator.seek key), cache)

end SSTableReader

namespace TwoLevelIterator

def initDataBlockCached (cache : Option BlockCache) (it : TwoLevelIterator) :
    TwoLevelIterator × Option BlockCache :=
  if !it.indexIter.valid then ({ it with dataIter := none }, cache)
  else
    match it.reader.readHandleCached cache it.indexIter.entry.value with
    | (.error status, cache) => ({ it with dataIter := none, status := status }, cache)
    | (.ok block, cache) => ({ it with dataIter := some block.newIterator }, cache)

/-- `SkipEmptyDataBlocksForward` and `SkipEmptyDataBlocksBackward` differ in the
step of the index and in where they enter a block. -/
def skipCached (step enter : BlockIter → BlockIter) :
    Nat → Option BlockCache → TwoLevelIterator → TwoLevelIterator × Option BlockCache
  | 0, cache, it => ({ it with dataIter := none }, cache)
  | fuel + 1, cache, it =>
    if it.valid then (it, cache)
    else if !it.indexIter.valid then ({ it with dataIter := none }, cache)
    else
      let (it, cache) := initDataBlockCached cache { it with indexIter := step it.indexIter }
      skipCached step enter fuel cache { it with dataIter := it.dataIter.map enter }

def skipForwardCached (cache : Option BlockCache) (it : TwoLevelIterator) :
    TwoLevelIterator × Option BlockCache :=
  skipCached BlockIter.next BlockIter.seekToFirst (it.reader.indexBlock.data.length + 1) cache it

def skipBackwardCached (cache : Option BlockCache) (it : TwoLevelIterator) :
    TwoLevelIterator × Option BlockCache :=
  skipCached BlockIter.prev BlockIter.seekToLast (it.reader.indexBlock.data.length + 1) cache it

def seekToFirstCached (cache : Option BlockCache) (it : TwoLevelIterator) :
    TwoLevelIterator × Option BlockCache :=
  let (it, cache) := initDataBlockCached cache { it with indexIter := it.indexIter.seekToFirst }
  skipForwardCached cache { it with dataIter := it.dataIter.map BlockIter.seekToFirst }

def seekToLastCached (cache : Option BlockCache) (it : TwoLevelIterator) :
    TwoLevelIterator × Option BlockCache :=
  let (it, cache) := initDataBlockCached cache { it with indexIter := it.indexIter.seekToLast }
  skipBackwardCached cache { it with dataIter := it.dataIter.map BlockIter.seekToLast }

def seekCached (cache : Option BlockCache) (it : TwoLevelIterator) (target : Key) :
    TwoLevelIterator × Option BlockCache :=
  let (it, cache) := initDataBlockCached cache { it with indexIter := it.indexIter.seek target }
  skipForwardCached cache { it with dataIter := it.dataIter.map fun data => data.seek target }

def nextCached (cache : Option BlockCache) (it : TwoLevelIterator) :
    TwoLevelIterator × Option BlockCache :=
  skipForwardCached cache { it with dataIter := it.dataIter.map BlockIter.next }

def prevCached (cache : Option BlockCache) (it : TwoLevelIterator) :
    TwoLevelIterator × Option BlockCache :=
  skipBackwardCached cache { it with dataIter := it.dataIter.map BlockIter.prev }

def move (it : TwoLevelIterator) : Cursor.Move Key → TwoLevelIterator
  | .first => it.seekToFirst
  | .last => it.seekToLast
  | .seek target => it.seek target
  | .next => it.next
  | .prev => it.prev

def moveCached (cache : Option BlockCache) (it : TwoLevelIterator) :
    Cursor.Move Key → TwoLevelIterator × Option BlockCache
  | .first => seekToFirstCached cache it
  | .last => seekToLastCached cache it
  | .seek target => seekCached cache it target
  | .next => nextCached cache it
  | .prev => prevCached cache it

end TwoLevelIterator

/-! A cache that agrees with the file. -/

def SSTableReader.indexValues (r : SSTableReader) : List Bytes :=
  (collect (r.indexBlock.data.length + 1) r.indexBlock.newIterator.seekToFirst).map Entry.value

def BlockCache.Consistent (c : BlockCache) (r : SSTableReader) : Prop :=
  ∀ value ∈ r.indexValues, ∀ handle, BlockHandle.decodeFrom value = .ok handle →
    ∀ e ∈ c.lruList, e.fileNumber = r.fileNumber → e.offset = handle.offset →
      r.readBlock handle = .ok e.block

def SSTableReader.Trusts (r : SSTableReader) (cache : Option BlockCache) : Prop :=
  ∀ c, cache = some c → c.Consistent r

/-- Where the cache agrees with the file under this handle, the block comes out
as if it were read from the file. What the cache learns is such a block. -/
theorem SSTableReader.readThrough_eq (r : SSTableReader) (c : BlockCache) (handle : BlockHandle)
    (hagree : ∀ e ∈ c.lruList, e.fileNumber = r.fileNumber → e.offset = handle.offset →
      r.readBlock handle = .ok e.block) :
    ∃ c', r.readThrough (some c) handle = (r.readBlock handle, some c') ∧
      ∀ e ∈ c'.lruList, e ∈ c.lruList ∨
        (e.offset = handle.offset ∧ r.readBlock handle = .ok e.block) := by
  have hfst := c.lookup_fst r.fileNumber handle.offset
  have hsnd : ∀ e ∈ (c.lookup r.fileNumber handle.offset).2.lruList, e ∈ c.lruList :=
    fun e he => BlockCache.mem_lookup he
  simp only [SSTableReader.readThrough]
  cases hlookup : c.lookup r.fileNumber handle.offset with
  | mk found c' =>
    rw [hlookup] at hfst hsnd
    cases found with
    | some block =>
      obtain ⟨e, hfind, rfl⟩ := Option.map_eq_some_iff.mp hfst.symm
      have hkey := List.find?_some hfind
      simp only [CacheEntry.hasKey, decide_eq_true_eq] at hkey
      rw [hagree e (List.mem_of_find?_eq_some hfind) hkey.1 hkey.2]
      exact ⟨c', rfl, fun e he => Or.inl (hsnd e he)⟩
    | none =>
      cases hread : r.readBlock handle with
      | error status => exact ⟨c', rfl, fun e he => Or.inl (hsnd e he)⟩
      | ok block =>
        refine ⟨_, rfl, fun e he => ?_⟩
        rcases BlockCache.mem_insert he with rfl | he
        · exact Or.inr ⟨rfl, rfl⟩
        · exact Or.inl (hsnd e he)

theorem SSTableReader.getCached_eq (r : SSTableReader) (cache : Option BlockCache) (key : Key)
    (seq : Nat)
    (hread : (r.indexBlock.newIterator.seek key).valid = true →
      (r.readHandleCached cache (r.indexBlock.newIterator.seek key).entry.value).1 =
        r.readHandle (r.indexBlock.newIterator.seek key).entry.value) :
    (r.getCached cache key seq).1 = r.get key seq := by
  unfold SSTableReader.getCached SSTableReader.get
  split
  · rfl
  · simp only
    by_cases hvalid : (r.indexBlock.newIterator.seek key).valid = true
    · rw [← hread hvalid]
      simp only [hvalid, Bool.not_true, Bool.false_eq_true, ↓reduceIte]
      cases r.readHandleCached cache (r.indexBlock.newIterator.seek key).entry.value with
      | mk result cache => cases result <;> rfl
    · simp [hvalid]

namespace Layout

variable {l : Layout} {es : List Entry} {number : Nat}

theorem indexValues_reader (h : l.Opens es) (number : Nat) :
    (l.reader number).indexValues = (indexEntries 0 l.blocks).map Entry.value := by
  have hover := Block.newIterator_over l.index
  have hfirst := BlockIter.seekToFirst_at (Block.new l.index).newIterator h.index hover
  have hfuel : (indexEntries 0 l.blocks).length < (Block.new l.index).data.length + 1 :=
    BlockIter.length_lt_fuel hover h.index
  have hcollect := collect_yields (hfirst.yields h.index)
    (show _ ≤ (Block.new l.index).data.length + 1 by rw [List.drop_zero]; exact hfuel.le)
  rw [SSTableReader.indexValues, Layout.reader, hcollect, List.drop_zero]

theorem mem_indexValues (h : l.Opens es) {j : Nat} {b : DataBlock} (hb : l.blocks[j]? = some b) :
    (l.handleOf j b).encodeTo ∈ (l.reader number).indexValues := by
  have hentry := List.mem_map_of_mem (f := Entry.value)
    (List.mem_of_getElem? (indexEntries_get hb 0))
  rw [indexValues_reader h, handleOf]
  simpa only [Nat.zero_add] using hentry

theorem of_mem_indexValues (h : l.Opens es) {value : Bytes}
    (hvalue : value ∈ (l.reader number).indexValues) :
    ∃ j b, l.blocks[j]? = some b ∧ value = (l.handleOf j b).encodeTo := by
  rw [indexValues_reader h] at hvalue
  obtain ⟨e, he, rfl⟩ := List.mem_map.mp hvalue
  obtain ⟨j, hj, rfl⟩ := List.getElem_of_mem he
  rw [length_indexEntries] at hj
  have hb : l.blocks[j]? = some l.blocks[j] := List.getElem?_eq_getElem hj
  have hentry := indexEntries_get hb 0
  rw [List.getElem?_eq_getElem (by rwa [length_indexEntries]), Option.some.injEq] at hentry
  exact ⟨j, _, hb, by rw [hentry, Nat.zero_add]; rfl⟩

theorem handleOf_injective {i j : Nat} {a b : DataBlock} (ha : l.blocks[i]? = some a)
    (hb : l.blocks[j]? = some b) (heq : (l.handleOf i a).offset = (l.handleOf j b).offset) :
    i = j := by
  have hstep : ∀ {i j : Nat} {a : DataBlock}, l.blocks[i]? = some a → i < j →
      (bodyOf (l.blocks.take i)).length < (bodyOf (l.blocks.take j)).length := by
    intro i j a ha hij
    have hsplit : l.blocks.take j = l.blocks.take i ++ (l.blocks.take j).drop i := by
      rw [← List.take_append_drop i (l.blocks.take j), List.take_take, Nat.min_eq_left hij.le,
        List.drop_left' (by
          rw [List.length_take]
          have := (List.getElem?_eq_some_iff.mp ha).1
          omega)]
    have hfirst : ((l.blocks.take j).drop i)[0]? = some a := by
      rw [List.getElem?_drop, List.getElem?_take_of_lt (by omega), Nat.add_zero, ha]
    cases hrest : (l.blocks.take j).drop i with
    | nil => rw [hrest] at hfirst; cases hfirst
    | cons b rest =>
      rw [hsplit, hrest, bodyOf_append, bodyOf_cons, List.length_append, List.length_append,
        length_sealBlock]
      omega
  rcases Nat.lt_trichotomy i j with hlt | heq' | hgt
  · have := hstep ha hlt
    simp only [handleOf] at heq
    omega
  · exact heq'
  · have := hstep hb hgt
    simp only [handleOf] at heq
    omega

/-- The block comes out as if it were read from the file, and what the cache
learns agrees with the file. -/
theorem readHandleCached_eq (h : l.Opens es) {cache : Option BlockCache}
    (htrust : (l.reader number).Trusts cache) {j : Nat} {b : DataBlock}
    (hb : l.blocks[j]? = some b) :
    ((l.reader number).readHandleCached cache (l.handleOf j b).encodeTo).1 =
        (l.reader number).readHandle (l.handleOf j b).encodeTo ∧
      (l.reader number).Trusts
        ((l.reader number).readHandleCached cache (l.handleOf j b).encodeTo).2 := by
  have hdecode := decodeFrom_handleOf h.small hb
  have hread : (l.reader number).readHandle (l.handleOf j b).encodeTo =
      (l.reader number).readBlock (l.handleOf j b) := by
    rw [SSTableReader.readHandle, hdecode]
    rfl
  have hcached : (l.reader number).readHandleCached cache (l.handleOf j b).encodeTo =
      (l.reader number).readThrough cache (l.handleOf j b) := by
    rw [SSTableReader.readHandleCached, hdecode]
  rw [hread, hcached]
  cases cache with
  | none => exact ⟨rfl, htrust⟩
  | some c =>
    have hagree := htrust c rfl _ (mem_indexValues h hb) _ hdecode
    obtain ⟨c', hthrough, hlearned⟩ :=
      (l.reader number).readThrough_eq c (l.handleOf j b) hagree
    rw [hthrough]
    refine ⟨rfl, fun now hnow value hvalue handle hhandle e he hfile hoffset => ?_⟩
    obtain rfl := Option.some.inj hnow
    rcases hlearned e he with hold | ⟨hnew, hblock⟩
    · exact htrust c rfl value hvalue handle hhandle e hold hfile hoffset
    -- the new block lies at one place in the index only
    · obtain ⟨i, a, ha, rfl⟩ := of_mem_indexValues h hvalue
      rw [decodeFrom_handleOf h.small ha, Except.ok.injEq] at hhandle
      subst hhandle
      obtain rfl := handleOf_injective ha hb (hoffset.symm.trans hnew)
      rw [ha, Option.some.injEq] at hb
      exact hb ▸ hblock

theorem indexIter_value (h : l.Opens es) {it : BlockIter} {j : Nat}
    (hat : it.At l.index (indexEntries 0 l.blocks) j) (hvalid : it.valid = true) :
    ∃ b, l.blocks[j]? = some b ∧ it.entry.value = (l.handleOf j b).encodeTo := by
  have hlt := (hat.valid_iff h.index).mp hvalid
  rw [length_indexEntries] at hlt
  have hb : l.blocks[j]? = some l.blocks[j] := List.getElem?_eq_getElem hlt
  refine ⟨_, hb, ?_⟩
  rw [(hat.parsed _ (indexEntries_get hb 0)).2, Nat.zero_add]
  rfl

theorem getCached_eq (h : l.Opens es) (filter : Bytes) {cache : Option BlockCache}
    (htrust : (l.reader number).Trusts cache) (key : Key) (seq : Nat) :
    (({ l.reader number with filterData := filter } : SSTableReader).getCached cache key seq).1 =
      ({ l.reader number with filterData := filter } : SSTableReader).get key seq := by
  have hne : ∀ b ∈ l.blocks, b.2 ≠ [] := fun b hb => (h.blocks b hb).1
  have hkeys := keysSorted_of_sorted h.sorted
  rw [h.entries] at hkeys
  have hindex := BlockIter.seek_at (Block.new l.index).newIterator key h.index
    (Block.newIterator_over _) (keysSorted_indexEntries hne hkeys 0)
  apply SSTableReader.getCached_eq
  intro hvalid
  obtain ⟨b, hb, hvalue⟩ := indexIter_value h hindex hvalid
  have hread := (readHandleCached_eq h htrust hb).1
  rw [← hvalue] at hread
  exact hread

end Layout

/-! The iterator with a cache that agrees with the file moves as it does without. -/

namespace TwoLevelIterator

variable {l : Layout} {es : List Entry} {number : Nat} {it : TwoLevelIterator}
  {cache : Option BlockCache}

def Indexed (l : Layout) (index : BlockIter) : Prop :=
  ∃ j, index.At l.index (indexEntries 0 l.blocks) j

theorem initDataBlockCached_eq (it : TwoLevelIterator) (h : l.Opens es)
    (hreader : it.reader = l.reader number)
    (hindex : Indexed l it.indexIter) (htrust : (l.reader number).Trusts cache) :
    ∃ cache', initDataBlockCached cache it = (it.initDataBlock, cache') ∧
      (l.reader number).Trusts cache' := by
  unfold initDataBlockCached initDataBlock
  by_cases hvalid : it.indexIter.valid = true
  · obtain ⟨j, hat⟩ := hindex
    obtain ⟨b, hb, hvalue⟩ := Layout.indexIter_value h hat hvalid
    obtain ⟨hread, htrust'⟩ := Layout.readHandleCached_eq h htrust hb
    rw [hreader, hvalue, ← hread]
    simp only [hvalid, Bool.not_true, Bool.false_eq_true, ↓reduceIte]
    cases hcached : (l.reader number).readHandleCached cache (l.handleOf j b).encodeTo with
    | mk result cache' =>
      rw [hcached] at htrust'
      cases result with
      | error status => exact ⟨cache', rfl, htrust'⟩
      | ok block => exact ⟨cache', rfl, htrust'⟩
  · exact ⟨cache, by simp [hvalid], htrust⟩

theorem initDataBlock_reader (it : TwoLevelIterator) : it.initDataBlock.reader = it.reader := by
  unfold initDataBlock
  repeat' split
  all_goals rfl

theorem initDataBlock_indexIter (it : TwoLevelIterator) :
    it.initDataBlock.indexIter = it.indexIter := by
  unfold initDataBlock
  repeat' split
  all_goals rfl

theorem skipCached_eq {step enter : BlockIter → BlockIter}
    {skip : Nat → TwoLevelIterator → TwoLevelIterator}
    (hzero : ∀ it, skip 0 it = { it with dataIter := none })
    (hsucc : ∀ fuel it, skip (fuel + 1) it =
      if it.valid then it
      else if !it.indexIter.valid then { it with dataIter := none }
      else
        let it := { it with indexIter := step it.indexIter }.initDataBlock
        skip fuel { it with dataIter := it.dataIter.map enter })
    (hstep : ∀ index, Indexed l index → index.valid = true → Indexed l (step index))
    (h : l.Opens es) (hreader : it.reader = l.reader number) (hindex : Indexed l it.indexIter)
    (htrust : (l.reader number).Trusts cache) (fuel : Nat) :
    ∃ cache', skipCached step enter fuel cache it = (skip fuel it, cache') ∧
      (l.reader number).Trusts cache' := by
  induction fuel generalizing it cache with
  | zero => exact ⟨cache, by rw [skipCached, hzero], htrust⟩
  | succ fuel ih =>
    rw [hsucc, skipCached]
    by_cases hvalid : it.valid = true
    · exact ⟨cache, by simp only [if_pos hvalid], htrust⟩
    · by_cases hmore : it.indexIter.valid = true
      · have hnext := hstep _ hindex hmore
        obtain ⟨cache', hinit, htrust'⟩ := initDataBlockCached_eq
          { it with indexIter := step it.indexIter } h hreader hnext htrust
        simp only [if_neg hvalid, hmore, Bool.not_true, Bool.false_eq_true, if_false, hinit]
        exact ih (by rw [initDataBlock_reader]; exact hreader)
          (by rw [initDataBlock_indexIter]; exact hnext) htrust'
      · exact ⟨cache, by simp [hvalid, hmore], htrust⟩

theorem Indexed.next (h : l.Opens es) {index : BlockIter} (hindex : Indexed l index)
    (hvalid : index.valid = true) : Indexed l index.next := by
  obtain ⟨j, hat⟩ := hindex
  exact ⟨j + 1, hat.next h.index ((hat.valid_iff h.index).mp hvalid)⟩

theorem Indexed.prev (h : l.Opens es) {index : BlockIter} (hindex : Indexed l index) :
    Indexed l index.prev := by
  obtain ⟨j, hat⟩ := hindex
  cases j with
  | zero => exact ⟨_, hat.prev_first h.index⟩
  | succ j => exact ⟨j, hat.prev h.index⟩

theorem skipForwardCached_eq (h : l.Opens es) (hreader : it.reader = l.reader number)
    (hindex : Indexed l it.indexIter) (htrust : (l.reader number).Trusts cache) :
    ∃ cache', skipForwardCached cache it = (it.skipForward, cache') ∧
      (l.reader number).Trusts cache' :=
  skipCached_eq (fun _ => rfl) (fun _ _ => rfl) (fun _ hat hvalid => hat.next h hvalid) h hreader
    hindex htrust _

theorem skipBackwardCached_eq (h : l.Opens es) (hreader : it.reader = l.reader number)
    (hindex : Indexed l it.indexIter) (htrust : (l.reader number).Trusts cache) :
    ∃ cache', skipBackwardCached cache it = (it.skipBackward, cache') ∧
      (l.reader number).Trusts cache' :=
  skipCached_eq (fun _ => rfl) (fun _ _ => rfl) (fun _ hat _ => hat.prev h) h hreader hindex
    htrust _

def entered (it : TwoLevelIterator) (index : BlockIter) (enter : BlockIter → BlockIter) :
    TwoLevelIterator :=
  let now := initDataBlock { it with indexIter := index }
  { now with dataIter := now.dataIter.map enter }

theorem enterCached_eq
    {skipThrough : Option BlockCache → TwoLevelIterator → TwoLevelIterator × Option BlockCache}
    {skip : TwoLevelIterator → TwoLevelIterator}
    (hskip : ∀ {it cache}, it.reader = l.reader number → Indexed l it.indexIter →
      (l.reader number).Trusts cache → ∃ cache', skipThrough cache it = (skip it, cache') ∧
        (l.reader number).Trusts cache')
    (h : l.Opens es) (hreader : it.reader = l.reader number) {index : BlockIter}
    (hindex : Indexed l index) (htrust : (l.reader number).Trusts cache)
    (enter : BlockIter → BlockIter) :
    ∃ cache', (let (now, cache) := initDataBlockCached cache { it with indexIter := index }
        skipThrough cache { now with dataIter := now.dataIter.map enter }) =
      (skip (entered it index enter), cache') ∧ (l.reader number).Trusts cache' := by
  obtain ⟨cache', hinit, htrust'⟩ := initDataBlockCached_eq
    { it with indexIter := index } h hreader hindex htrust
  simp only [hinit]
  apply hskip
  · rw [initDataBlock_reader]
    exact hreader
  · rw [initDataBlock_indexIter]
    exact hindex
  · exact htrust'

theorem moveCached_eq (h : l.Opens es) (hreader : it.reader = l.reader number)
    (hover : it.indexIter.Over l.index) (htrust : (l.reader number).Trusts cache)
    (m : Cursor.Move Key) (hindex : m.relative = true → Indexed l it.indexIter) :
    ∃ cache', moveCached cache it m = (it.move m, cache') ∧
      (l.reader number).Trusts cache' := by
  have hne : ∀ b ∈ l.blocks, b.2 ≠ [] := fun b hb => (h.blocks b hb).1
  have hkeys := keysSorted_of_sorted h.sorted
  rw [h.entries] at hkeys
  cases m with
  | first =>
    exact enterCached_eq (skipForwardCached_eq h) h hreader
      ⟨0, BlockIter.seekToFirst_at _ h.index hover⟩ htrust _
  | last =>
    refine enterCached_eq (skipBackwardCached_eq h) h hreader ?_ htrust _
    by_cases hempty : indexEntries 0 l.blocks = []
    · have hblock := h.index
      rw [hempty] at hblock
      have hlast := BlockIter.seekToLast_empty it.indexIter hblock hover
      rw [← hempty] at hlast
      exact ⟨0, hlast⟩
    · exact ⟨_, BlockIter.seekToLast_at _ h.index hover hempty⟩
  | seek target =>
    exact enterCached_eq (skipForwardCached_eq h) h hreader
      ⟨_, BlockIter.seek_at _ target h.index hover (keysSorted_indexEntries hne hkeys 0)⟩ htrust _
  | next => exact skipForwardCached_eq h hreader (hindex rfl) htrust
  | prev => exact skipBackwardCached_eq h hreader (hindex rfl) htrust

end TwoLevelIterator

end Strata

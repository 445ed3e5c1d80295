import Strata.CachedReader
import Strata.TableWriter

/-! The iterator of a table is a cursor over its entries, in both directions
and across the borders of its blocks. -/
namespace Strata

open Library System Cursor

namespace Layout

variable {l : Layout} {es : List Entry}

/-- The number of entries in front of block `j`. -/
def entriesBefore (l : Layout) (j : Nat) : Nat := ((l.blocks.take j).map Prod.snd).flatten.length

theorem entriesBefore_succ {j : Nat} {b : DataBlock} (hb : l.blocks[j]? = some b) :
    l.entriesBefore (j + 1) = l.entriesBefore j + b.2.length := by
  rw [entriesBefore, entriesBefore, List.take_add_one, hb]
  simp

theorem entries_split (h : es = (l.blocks.map Prod.snd).flatten) {j : Nat} {b : DataBlock}
    (hb : l.blocks[j]? = some b) :
    es = ((l.blocks.take j).map Prod.snd).flatten ++
      (b.2 ++ ((l.blocks.drop (j + 1)).map Prod.snd).flatten) := by
  obtain ⟨hlt, hget⟩ := List.getElem?_eq_some_iff.mp hb
  have hsplit : l.blocks = l.blocks.take j ++ (b :: l.blocks.drop (j + 1)) := by
    rw [← hget, List.getElem_cons_drop, List.take_append_drop]
  rw [h]
  conv_lhs => rw [hsplit]
  simp

theorem entriesBefore_length (h : es = (l.blocks.map Prod.snd).flatten) :
    l.entriesBefore l.blocks.length = es.length := by
  rw [entriesBefore, List.take_length, h]

theorem getElem?_entries (h : es = (l.blocks.map Prod.snd).flatten) {j i : Nat} {b : DataBlock}
    (hb : l.blocks[j]? = some b) (hi : i < b.2.length) :
    es[l.entriesBefore j + i]? = b.2[i]? := by
  rw [entries_split h hb, entriesBefore, List.getElem?_append_right (Nat.le_add_right _ _),
    Nat.add_sub_cancel_left, List.getElem?_append_left hi]

theorem entriesBefore_lt (h : es = (l.blocks.map Prod.snd).flatten) {j i : Nat} {b : DataBlock}
    (hb : l.blocks[j]? = some b) (hi : i < b.2.length) : l.entriesBefore j + i < es.length := by
  have hget := getElem?_entries h hb hi
  rw [List.getElem?_eq_getElem hi] at hget
  exact (List.getElem?_eq_some_iff.mp hget).1

theorem findIdx_entries (h : l.Opens es) (key : Key) :
    es.findIdx (fun e => key ≤ e.userKey) =
      match l.blocks[l.blocks.findIdx fun b => key ≤ lastKey b.2]? with
      | none => es.length
      | some b => l.entriesBefore (l.blocks.findIdx fun b => key ≤ lastKey b.2) +
          b.2.findIdx fun e => key ≤ e.userKey := by
  have hkeys := keysSorted_of_sorted h.sorted
  rw [h.entries] at hkeys
  -- every entry of an earlier block is below the key
  have hbelow : ∀ e ∈ ((l.blocks.take (l.blocks.findIdx fun b => key ≤ lastKey b.2)).map
      Prod.snd).flatten, ¬ key ≤ e.userKey := by
    intro e he
    obtain ⟨part, hpart, he⟩ := List.mem_flatten.mp he
    obtain ⟨b, hb, rfl⟩ := List.mem_map.mp hpart
    obtain ⟨i, hi, rfl⟩ := List.getElem_of_mem hb
    rw [List.length_take, lt_min_iff] at hi
    rw [List.getElem_take] at he
    have hlast : ¬ key ≤ lastKey l.blocks[i].2 := by
      simpa using List.not_of_lt_findIdx hi.1
    have hsorted : KeysSorted l.blocks[i].2 := hkeys.sublist
      (List.sublist_flatten_of_mem (List.mem_map_of_mem (List.getElem_mem hi.2)))
    have hle := le_lastKey hsorted he
    exact fun hkey => hlast (le_trans hkey hle)
  cases hb : l.blocks[l.blocks.findIdx fun b => key ≤ lastKey b.2]? with
  | none =>
    have hend := List.getElem?_eq_none_iff.mp hb
    rw [List.take_of_length_le hend, ← h.entries] at hbelow
    apply List.findIdx_eq_length.mpr
    intro e he
    simpa using hbelow e he
  | some b =>
    have hnone := List.findIdx_eq_length.mpr fun e he => decide_eq_false (hbelow e he)
    -- the last entry of this block is not
    obtain ⟨last, hlast, hlastKey⟩ := lastKey_mem (h.blocks b (List.mem_of_getElem? hb)).1
    have hreached := List.findIdx_getElem (w := (List.getElem?_eq_some_iff.mp hb).1)
    rw [(List.getElem?_eq_some_iff.mp hb).2, decide_eq_true_eq, ← hlastKey] at hreached
    have hin : b.2.findIdx (fun e => decide (key ≤ e.userKey)) < b.2.length :=
      List.findIdx_lt_length_of_exists ⟨last, hlast, decide_eq_true hreached⟩
    rw [entries_split h.entries hb, List.findIdx_append, if_neg (by rw [hnone]; omega),
      List.findIdx_append, if_pos hin, entriesBefore, Nat.add_comm]

end Layout

namespace TwoLevelIterator

variable {l : Layout} {es : List Entry} {number : Nat} {it : TwoLevelIterator}

/-- The iterator stands at the entry with this position in the table, or nowhere. -/
inductive Stands (it : TwoLevelIterator) (l : Layout) (number : Nat) : Option Nat → Prop
  | nowhere (hreader : it.reader = l.reader number) (hindex : it.indexIter.Over l.index)
      (hstatus : it.status = .ok) (hdata : it.dataIter = none) : Stands it l number none
  | inside (j i : Nat) (b : DataBlock) (hat : it.At l number j b i) (hlt : i < b.2.length)
      (hstatus : it.status = .ok) : Stands it l number (some (l.entriesBefore j + i))

theorem indexBlock_data (h : l.Valid es) (hreader : it.reader = l.reader number) :
    2 ≤ it.reader.indexBlock.data.length + 1 := by
  have hlen := indexBlock_length h
  obtain ⟨marks, _, himage⟩ := h.index.image
  have hdata : it.reader.indexBlock.data = l.index := by
    rw [hreader, Layout.reader, himage, Block.new_image (himage ▸ h.index.small)]
  rw [hdata]
  omega

theorem At.valid_iff (h : l.Valid es) {j i : Nat} {b : DataBlock} (hat : it.At l number j b i) :
    it.valid = true ↔ i < b.2.length := by
  obtain ⟨data, hdata, hdataAt⟩ := hat.data
  rw [TwoLevelIterator.valid, hdata]
  exact hdataAt.valid_iff (h.blocks b (List.mem_of_getElem? hat.block)).1

theorem Stands.of_at (h : l.Valid es) {j i : Nat} {b : DataBlock} (hat : it.At l number j b i)
    (hlt : i < b.2.length) (hstatus : it.status = .ok) :
    Stands it l number (place es (l.entriesBefore j + i)) := by
  rw [place, if_pos (Layout.entriesBefore_lt h.entries hat.block hlt)]
  exact Stands.inside j i b hat hlt hstatus

theorem indexIter_end (h : l.Valid es) {index : BlockIter} {j : Nat}
    (hat : index.At l.index (indexEntries 0 l.blocks) j) (hend : l.blocks.length ≤ j) :
    index.valid = false := by
  by_contra hvalid
  have := (hat.valid_iff h.index).mp (by simpa using hvalid)
  rw [Layout.length_indexEntries] at this
  omega

theorem entered_at (h : l.Valid es) (hreader : it.reader = l.reader number)
    (hstatus : it.status = .ok) {index : BlockIter} {j i : Nat} {b : DataBlock}
    (hindex : index.At l.index (indexEntries 0 l.blocks) j) (hb : l.blocks[j]? = some b)
    (enter : BlockIter → BlockIter)
    (henter : (enter (Block.new b.1).newIterator).At b.1 b.2 i) (hlt : i < b.2.length) :
    (entered it index enter).valid = true ∧
      Stands (entered it index enter) l number (place es (l.entriesBefore j + i)) := by
  have hinit := initDataBlock_block { it with indexIter := index } h hreader hindex hb
  have hat : At (entered it index enter) l number j b i := by
    rw [entered, hinit]
    exact ⟨hreader, hindex, hb, _, rfl, henter⟩
  refine ⟨(hat.valid_iff h).mpr hlt, Stands.of_at h hat hlt ?_⟩
  rw [entered, hinit]
  exact hstatus

theorem entered_end (hreader : it.reader = l.reader number) (hstatus : it.status = .ok)
    {index : BlockIter} (hover : index.Over l.index) (hend : index.valid = false)
    (enter : BlockIter → BlockIter) :
    (entered it index enter).valid = false ∧ (entered it index enter).indexIter.valid = false ∧
      Stands { entered it index enter with dataIter := none } l number none := by
  have hinit : entered it index enter = { it with indexIter := index, dataIter := none } := by
    simp [entered, initDataBlock, hend]
  rw [hinit]
  exact ⟨rfl, hend, Stands.nowhere hreader hover hstatus rfl⟩

theorem skipEmptyDataBlocksForward_valid (hvalid : it.valid = true) (fuel : Nat) :
    skipEmptyDataBlocksForward (fuel + 1) it = it := by
  rw [skipEmptyDataBlocksForward, if_pos hvalid]

theorem skipEmptyDataBlocksForward_end (hvalid : it.valid = false)
    (hend : it.indexIter.valid = false) (fuel : Nat) :
    skipEmptyDataBlocksForward (fuel + 1) it = { it with dataIter := none } := by
  rw [skipEmptyDataBlocksForward]
  simp [hvalid, hend]

theorem skipEmptyDataBlocksForward_more (hvalid : it.valid = false)
    (hmore : it.indexIter.valid = true) (fuel : Nat) :
    skipEmptyDataBlocksForward (fuel + 1) it =
      skipEmptyDataBlocksForward fuel (entered it it.indexIter.next BlockIter.seekToFirst) := by
  rw [skipEmptyDataBlocksForward]
  simp only [hvalid, hmore, Bool.false_eq_true, Bool.not_true, ↓reduceIte]
  rfl

theorem skipEmptyDataBlocksBackward_valid (hvalid : it.valid = true) (fuel : Nat) :
    skipEmptyDataBlocksBackward (fuel + 1) it = it := by
  rw [skipEmptyDataBlocksBackward, if_pos hvalid]

theorem skipEmptyDataBlocksBackward_end (hvalid : it.valid = false)
    (hend : it.indexIter.valid = false) (fuel : Nat) :
    skipEmptyDataBlocksBackward (fuel + 1) it = { it with dataIter := none } := by
  rw [skipEmptyDataBlocksBackward]
  simp [hvalid, hend]

theorem skipEmptyDataBlocksBackward_more (hvalid : it.valid = false)
    (hmore : it.indexIter.valid = true) (fuel : Nat) :
    skipEmptyDataBlocksBackward (fuel + 1) it =
      skipEmptyDataBlocksBackward fuel (entered it it.indexIter.prev BlockIter.seekToLast) := by
  rw [skipEmptyDataBlocksBackward]
  simp only [hvalid, hmore, Bool.false_eq_true, Bool.not_true, ↓reduceIte]
  rfl

theorem enterFirst (h : l.Valid es) (hreader : it.reader = l.reader number)
    (hstatus : it.status = .ok) {index : BlockIter} {j : Nat}
    (hindex : index.At l.index (indexEntries 0 l.blocks) j) (fuel : Nat) :
    Stands (skipEmptyDataBlocksForward (fuel + 1) (entered it index BlockIter.seekToFirst)) l number
      (place es (l.entriesBefore j)) := by
  rcases Nat.lt_or_ge j l.blocks.length with hlt | hge
  · have hb : l.blocks[j]? = some l.blocks[j] := List.getElem?_eq_getElem hlt
    have hblock := h.blocks _ (List.mem_of_getElem? hb)
    have hfirst := BlockIter.seekToFirst_at (Block.new l.blocks[j].1).newIterator hblock.1
      (Block.newIterator_over _)
    obtain ⟨hvalid, hstands⟩ := entered_at h hreader hstatus hindex hb
      BlockIter.seekToFirst hfirst
      (List.length_pos_of_ne_nil hblock.2.1)
    rw [skipEmptyDataBlocksForward_valid hvalid]
    exact hstands
  · obtain ⟨hvalid, hend, hstands⟩ := entered_end hreader hstatus hindex.toOver
      (indexIter_end h hindex hge) BlockIter.seekToFirst
    rw [skipEmptyDataBlocksForward_end hvalid hend]
    have hjlen : j = l.blocks.length := by
      have := hindex.inside
      rw [Layout.length_indexEntries] at this
      omega
    rw [hjlen, Layout.entriesBefore_length h.entries, place, if_neg (by omega)]
    exact hstands

theorem skipForward_stands (h : l.Valid es) {j i : Nat} {b : DataBlock}
    (hat : it.At l number j b i) (hle : i ≤ b.2.length) (hstatus : it.status = .ok) :
    Stands it.skipForward l number (place es (l.entriesBefore j + i)) := by
  have hvalid := hat.valid_iff h
  have hfuel := indexBlock_data h hat.reader
  unfold skipForward
  generalize it.reader.indexBlock.data.length + 1 = fuel at hfuel
  obtain ⟨fuel, rfl⟩ : ∃ n, fuel = n + 2 := ⟨fuel - 2, by omega⟩
  rcases Nat.lt_or_eq_of_le hle with hlt | hend
  · rw [skipEmptyDataBlocksForward_valid (hvalid.mpr hlt)]
    exact Stands.of_at h hat hlt hstatus
  · have hindexLt : j < (indexEntries 0 l.blocks).length := by
      rw [Layout.length_indexEntries]
      exact (List.getElem?_eq_some_iff.mp hat.block).1
    have hinvalid : it.valid = false := Bool.eq_false_iff.mpr fun hv => by
      have := hvalid.mp hv
      omega
    rw [skipEmptyDataBlocksForward_more hinvalid ((hat.index.valid_iff h.index).mpr hindexLt), hend,
      ← Layout.entriesBefore_succ hat.block]
    exact enterFirst h hat.reader hstatus (hat.index.next h.index hindexLt) fuel

/-- In front of the first entry of a block the iterator goes to the last entry
of the block before it. -/
theorem skipBackward_stands (h : l.Valid es) {j : Nat} {b : DataBlock}
    (hat : it.At l number j b b.2.length) (hstatus : it.status = .ok) :
    Stands it.skipBackward l number (if l.entriesBefore j = 0 then none
      else some (l.entriesBefore j - 1)) := by
  have hvalid := hat.valid_iff h
  have hfuel := indexBlock_data h hat.reader
  have hinvalid : it.valid = false := Bool.eq_false_iff.mpr fun hv => by
    have := hvalid.mp hv
    omega
  have hindexLt : j < (indexEntries 0 l.blocks).length := by
    rw [Layout.length_indexEntries]
    exact (List.getElem?_eq_some_iff.mp hat.block).1
  unfold skipBackward
  generalize it.reader.indexBlock.data.length + 1 = fuel at hfuel
  obtain ⟨fuel, rfl⟩ : ∃ n, fuel = n + 2 := ⟨fuel - 2, by omega⟩
  rw [skipEmptyDataBlocksBackward_more hinvalid ((hat.index.valid_iff h.index).mpr hindexLt)]
  cases j with
  | zero =>
    have hindex := hat.index.prev_first h.index
    have hend := indexIter_end h hindex (by rw [Layout.length_indexEntries])
    obtain ⟨hnone, hend, hstands⟩ := entered_end hat.reader hstatus hindex.toOver hend
      BlockIter.seekToLast
    rw [skipEmptyDataBlocksBackward_end hnone hend]
    exact hstands
  | succ j =>
    have hindex := hat.index.prev h.index
    have hlt := (List.getElem?_eq_some_iff.mp hat.block).1
    have hb : l.blocks[j]? = some l.blocks[j] := List.getElem?_eq_getElem (by omega)
    have hblock := h.blocks _ (List.mem_of_getElem? hb)
    have hpos := List.length_pos_of_ne_nil hblock.2.1
    have hlast := BlockIter.seekToLast_at (Block.new l.blocks[j].1).newIterator hblock.1
      (Block.newIterator_over _) hblock.2.1
    obtain ⟨hsome, hstands⟩ := entered_at h hat.reader hstatus hindex hb
      BlockIter.seekToLast hlast (by omega)
    have hbefore := Layout.entriesBefore_succ hb
    have hlt := Layout.entriesBefore_lt h.entries hb (show l.blocks[j].2.length - 1 < _ by omega)
    rw [place, if_pos hlt] at hstands
    rw [skipEmptyDataBlocksBackward_valid hsome, if_neg (by omega), hbefore,
      Nat.add_sub_assoc (by omega)]
    exact hstands

theorem Stands.start {position : Option Nat} (h : Stands it l number position) :
    it.reader = l.reader number ∧ it.indexIter.Over l.index ∧ it.status = .ok := by
  cases h with
  | nowhere hreader hindex hstatus hdata => exact ⟨hreader, hindex, hstatus⟩
  | inside j i b hat hlt hstatus => exact ⟨hat.reader, hat.index.toOver, hstatus⟩

theorem Stands.seekToFirst (h : l.Valid es) {position : Option Nat}
    (hstands : Stands it l number position) :
    Stands it.seekToFirst l number (place es 0) := by
  obtain ⟨hreader, hover, hstatus⟩ := hstands.start
  have hfirst := BlockIter.seekToFirst_at it.indexIter h.index hover
  exact enterFirst h hreader hstatus hfirst _

theorem Stands.seekToLast (h : l.Valid es) {position : Option Nat}
    (hstands : Stands it l number position) :
    Stands it.seekToLast l number (place es (es.length - 1)) := by
  obtain ⟨hreader, hover, hstatus⟩ := hstands.start
  change Stands (skipEmptyDataBlocksBackward (_ + 1)
    (entered it it.indexIter.seekToLast BlockIter.seekToLast)) l number _
  by_cases hnil : l.blocks = []
  · have hempty : indexEntries 0 l.blocks = [] := by
      rw [hnil]
      rfl
    have hblock := h.index
    rw [hempty] at hblock
    have hlast := BlockIter.seekToLast_empty it.indexIter hblock hover
    rw [← hempty] at hlast
    obtain ⟨hnone, hend, hstands⟩ := entered_end hreader hstatus hlast.toOver
      (indexIter_end h hlast (by simp [hnil])) BlockIter.seekToLast
    have hes : es = [] := by
      rw [h.entries, hnil]
      rfl
    rw [skipEmptyDataBlocksBackward_end hnone hend, hes]
    exact hstands
  · have hcount := List.length_pos_of_ne_nil hnil
    have hlen := Layout.length_indexEntries 0 l.blocks
    have hindex := BlockIter.seekToLast_at it.indexIter h.index hover
      (List.ne_nil_of_length_pos (by omega))
    rw [hlen] at hindex
    have hb : l.blocks[l.blocks.length - 1]? = some l.blocks[l.blocks.length - 1] :=
      List.getElem?_eq_getElem (by omega)
    have hblock := h.blocks _ (List.mem_of_getElem? hb)
    have hpos := List.length_pos_of_ne_nil hblock.2.1
    have hlast := BlockIter.seekToLast_at (Block.new l.blocks[l.blocks.length - 1].1).newIterator
      hblock.1 (Block.newIterator_over _) hblock.2.1
    obtain ⟨hsome, hstands⟩ := entered_at h hreader hstatus hindex hb
      BlockIter.seekToLast hlast (by omega)
    have hbefore := Layout.entriesBefore_succ hb
    rw [Nat.sub_add_cancel hcount, Layout.entriesBefore_length h.entries] at hbefore
    rw [skipEmptyDataBlocksBackward_valid hsome, hbefore, Nat.add_sub_assoc (by omega)]
    exact hstands

theorem Stands.seek (h : l.Valid es) {position : Option Nat}
    (hstands : Stands it l number position) (target : Key) :
    Stands (it.seek target) l number
      (place es (es.findIdx fun e => target ≤ e.userKey)) := by
  obtain ⟨hreader, hover, hstatus⟩ := hstands.start
  have hne : ∀ b ∈ l.blocks, b.2 ≠ [] := fun b hb => (h.blocks b hb).2.1
  have hkeys := keysSorted_of_sorted h.sorted
  rw [h.entries] at hkeys
  have hindex := BlockIter.seek_at it.indexIter target h.index hover
    (keysSorted_indexEntries hne hkeys 0)
  rw [findIdx_indexEntries] at hindex
  change Stands (skipEmptyDataBlocksForward (_ + 1)
    (entered it (it.indexIter.seek target) fun data => data.seek target)) l number _
  rw [Layout.findIdx_entries h.opens]
  cases hb : l.blocks[l.blocks.findIdx fun b => target ≤ lastKey b.2]? with
  | none =>
    obtain ⟨hnone, hend, hstands⟩ := entered_end hreader hstatus hindex.toOver
      (indexIter_end h hindex (List.getElem?_eq_none_iff.mp hb)) fun data => data.seek target
    rw [skipEmptyDataBlocksForward_end hnone hend, place, if_neg (lt_irrefl _)]
    exact hstands
  | some b =>
    have hblock := h.blocks b (List.mem_of_getElem? hb)
    have hsorted : KeysSorted b.2 := hkeys.sublist
      (List.sublist_flatten_of_mem (List.mem_map_of_mem (List.mem_of_getElem? hb)))
    have hseek := BlockIter.seek_at (Block.new b.1).newIterator target hblock.1
      (Block.newIterator_over _) hsorted
    -- the last key of the block is not below the target
    obtain ⟨last, hlast, hlastKey⟩ := lastKey_mem hblock.2.1
    have hreached := List.findIdx_getElem (w := (List.getElem?_eq_some_iff.mp hb).1)
    rw [(List.getElem?_eq_some_iff.mp hb).2, decide_eq_true_eq, ← hlastKey] at hreached
    obtain ⟨hsome, hstands⟩ := entered_at h hreader hstatus hindex hb
      (fun data => data.seek target) hseek
      (List.findIdx_lt_length_of_exists ⟨last, hlast, decide_eq_true hreached⟩)
    rw [skipEmptyDataBlocksForward_valid hsome]
    exact hstands

theorem Stands.next (h : l.Valid es) {position : Nat}
    (hstands : Stands it l number (some position)) :
    Stands it.next l number (place es (position + 1)) := by
  cases hstands with
  | inside j i b hat hlt hstatus =>
    obtain ⟨hreader, hindex, hb, data, hdata, hdataAt⟩ := hat
    have hblock := h.blocks b (List.mem_of_getElem? hb)
    exact skipForward_stands (i := i + 1) h ⟨hreader, hindex, hb, data.next, by simp [hdata],
      hdataAt.next hblock.1 hlt⟩ hlt hstatus

theorem Stands.prev (h : l.Valid es) {position : Nat}
    (hstands : Stands it l number (some position)) :
    Stands it.prev l number (if position = 0 then none else some (position - 1)) := by
  cases hstands with
  | inside j i b hat hlt hstatus =>
    obtain ⟨hreader, hindex, hb, data, hdata, hdataAt⟩ := hat
    have hblock := h.blocks b (List.mem_of_getElem? hb)
    unfold TwoLevelIterator.prev
    cases i with
    | zero =>
      exact skipBackward_stands h ⟨hreader, hindex, hb, data.prev, by simp [hdata],
        hdataAt.prev_first hblock.1⟩ hstatus
    | succ i =>
      have hat : At { it with dataIter := it.dataIter.map BlockIter.prev } l number j b i :=
        ⟨hreader, hindex, hb, data.prev, by simp [hdata], hdataAt.prev hblock.1⟩
      have hin : i < b.2.length := by omega
      rw [skipBackward, skipEmptyDataBlocksBackward_valid ((hat.valid_iff h).mpr hin),
        if_neg (by omega)]
      exact Stands.inside j i b hat hin hstatus

/-- The order of `Seek`: the first entry whose key is not below the target. -/
def reached (target : Key) (e : Entry) : Bool := target ≤ e.userKey

theorem Stands.move (h : l.Valid es) {position : Option Nat}
    (hstands : Stands it l number position) (m : Move Key)
    (hrelative : m.relative = true → position.isSome) :
    Stands (it.move m) l number (moved reached es position m) := by
  cases m with
  | first => exact hstands.seekToFirst h
  | last => exact hstands.seekToLast h
  | seek target => exact hstands.seek h target
  | next =>
    obtain ⟨index, rfl⟩ := Option.isSome_iff_exists.mp (hrelative rfl)
    exact hstands.next h
  | prev =>
    obtain ⟨index, rfl⟩ := Option.isSome_iff_exists.mp (hrelative rfl)
    have hprev := hstands.prev h
    cases index with
    | zero => exact hprev
    | succ index => exact hprev

def shown (it : TwoLevelIterator) : Option Entry := if it.valid then some it.entry else none

theorem Stands.shown (h : l.Valid es) {position : Option Nat}
    (hstands : Stands it l number position) :
    it.shown = itemAt es position ∧ it.statusOf = .ok := by
  cases hstands with
  | nowhere hreader hindex hstatus hdata =>
    simp [TwoLevelIterator.shown, TwoLevelIterator.valid, TwoLevelIterator.statusOf, hdata, hstatus,
      itemAt, Status.isOk]
  | inside j i b hat hlt hstatus =>
    have hvalid := (hat.valid_iff h).mpr hlt
    obtain ⟨data, hdata, hdataAt⟩ := hat.data
    have hget := Layout.getElem?_entries h.entries hat.block hlt
    rw [List.getElem?_eq_getElem hlt] at hget
    have hentry : it.entry = b.2[i] := by
      rw [TwoLevelIterator.entry, hdata]
      exact (hdataAt.parsed _ (List.getElem?_eq_getElem hlt)).2
    constructor
    · rw [TwoLevelIterator.shown, if_pos hvalid, hentry, itemAt, Option.bind_some, hget]
    · simp [TwoLevelIterator.statusOf, hstatus, hdata, hdataAt.status, Status.isOk]

/-- What can happen to an iterator and its cache: a move of the iterator, where
`Next` and `Prev` need a valid one, or others use the cache. -/
inductive Step (r : SSTableReader) : TwoLevelIterator × Option BlockCache → Option (Move Key) →
    TwoLevelIterator × Option BlockCache → Prop
  | move (it : TwoLevelIterator) (cache : Option BlockCache) (m : Move Key)
      (hvalid : m.relative = true → it.valid = true) :
      Step r (it, cache) (some m) (moveCached cache it m)
  | others (it : TwoLevelIterator) (cache cache' : Option BlockCache)
      (hpointer : cache'.isSome = cache.isSome) (hcache : r.Trusts cache') :
      Step r (it, cache) none (it, cache')

theorem Step.stands (h : l.Valid es) {s t : TwoLevelIterator × Option BlockCache}
    {label : Option (Move Key)} (hstep : Step (l.reader number) s label t) {position : Option Nat}
    (hstands : Stands s.1 l number position) (htrust : (l.reader number).Trusts s.2) :
    Stands t.1 l number ((label.map (moved reached es position)).getD position) ∧
      (l.reader number).Trusts t.2 := by
  cases hstep with
  | others it cache cache' hpointer hcache => exact ⟨hstands, hcache⟩
  | move it cache m hvalid =>
    obtain ⟨hreader, hover, hstatus⟩ := hstands.start
    have hrelative : m.relative = true → position.isSome := by
      intro hm
      have hshown := (hstands.shown h).1
      rw [TwoLevelIterator.shown, if_pos (hvalid hm)] at hshown
      cases position with
      | none => cases hshown
      | some index => rfl
    have hindexed : m.relative = true → Indexed l it.indexIter := by
      intro hm
      obtain ⟨index, hindex⟩ := Option.isSome_iff_exists.mp (hrelative hm)
      rw [hindex] at hstands
      cases hstands with
      | inside j i b hat hlt hstatus => exact ⟨j, hat.index⟩
    obtain ⟨cache', hmoved, htrust'⟩ := moveCached_eq h.opens hreader hover htrust m hindexed
    rw [hmoved]
    exact ⟨hstands.move h m hrelative, htrust'⟩

theorem newIterator_stands (l : Layout) (number : Nat) :
    Stands (l.reader number).newIterator l number none :=
  Stands.nowhere rfl (Block.newIterator_over _) rfl rfl

theorem Path.shown (h : l.Valid es) {cache : Option BlockCache}
    (htrust : (l.reader number).Trusts cache) {labels : List (Option (Move Key))}
    {t : TwoLevelIterator × Option BlockCache}
    (hpath : Path (Step (l.reader number)) ((l.reader number).newIterator, cache) labels t) :
    t.1.shown = itemAt es (walked reached es none labels) ∧ t.1.statusOf = .ok := by
  have hend := hpath.simulates
    (R := fun s position => Stands s.1 l number position ∧ (l.reader number).Trusts s.2)
    (fun _ _ _ hs hstep => Step.stands h hstep hs.1 hs.2)
    (fun _ _ _ _ hs hstep => Step.stands h hstep hs.1 hs.2)
    ⟨newIterator_stands l number, htrust⟩
  exact hend.1.shown h

end TwoLevelIterator

structure Layout.Fits (l : Layout) : Prop where
  blocks : ∀ b ∈ l.blocks, b.1.length ≤ kMaxBlockSize
  filter : l.filter.length ≤ kMaxBlockSize
  index : l.index.length ≤ kMaxBlockSize

theorem length_bodyOf_le {blocks : List DataBlock} {limit : Nat}
    (h : ∀ b ∈ blocks, b.1.length ≤ limit) :
    (bodyOf blocks).length ≤ blocks.length * (limit + 4) := by
  induction blocks with
  | nil => simp [bodyOf]
  | cons b rest ih =>
    have hrest := ih fun x hx => h x (by simp [hx])
    have hb := h b (by simp)
    rw [Layout.bodyOf_cons, List.length_append, length_sealBlock, List.length_cons, Nat.succ_mul]
    omega

theorem blocks_le_index (options : Options) (es : List Entry) :
    (layoutOf options es).blocks.length ≤ (layoutOf options es).index.length := by
  have hholds := indexBuilder_holds (layoutOf options es).blocks
  have hlen := length_encodeEntries_ge (indexEntries 0 (layoutOf options es).blocks)
  have hindex : (layoutOf options es).index =
      (indexBuilder (layoutOf options es).blocks).finish := rfl
  rw [Layout.length_indexEntries] at hlen
  rw [hindex, BlockBuilder.finish, hholds.buffer, List.length_append]
  omega

theorem Layout.Fits.valid {options : Options} {es : List Entry} (h : (layoutOf options es).Fits)
    (hsorted : es.Pairwise Entry.before) (hseqs : ∀ e ∈ es, e.seq < 2 ^ 64) :
    (layoutOf options es).Valid es := by
  have hcount := (blocks_le_index options es).trans h.index
  have hbody := (length_bodyOf_le h.blocks).trans
    (Nat.mul_le_mul_right (kMaxBlockSize + 4) hcount)
  have hlength := Layout.length_image (layoutOf options es)
  have hfilter := h.filter
  have hindex := h.index
  refine layoutOf_valid (hsorted.imp fun {a b} hbefore => ?_) hseqs h.blocks hfilter hindex ?_
  · exact (Memtable.not_before_total a b).resolve_right (not_not_intro hbefore)
  · simp only [kMaxBlockSize] at hbody hfilter hindex
    omega

/-- A table comes back as it was written: it opens, and its iterator is a cursor
over the entries that were added, whatever a consistent cache holds. -/
theorem written_table_is_cursor (options : Options) (name : FileName) (number : Nat)
    (es : List Entry) (hsorted : es.Pairwise Entry.before) (hseqs : ∀ e ∈ es, e.seq < 2 ^ 64)
    (hfits : (layoutOf options es).Fits) (start : Machine FileName)
    (hcalls : ∀ e ∈ (SSTableBuilder.build options name es start).trace, e.outcome = .ok) :
    ∃ b after trace, SSTableBuilder.build options name es start = .done (.ok, b) after trace ∧
      b.smallestKey = firstKey es ∧ b.largestKey = lastKey es ∧
      ∃ r, SSTableReader.openTable (after.dir.lookup name) none number b.fileSize = .ok r ∧
        ∀ cache, r.Trusts cache → ∀ labels it cache',
          Path (TwoLevelIterator.Step r) (r.newIterator, cache) labels (it, cache') →
          it.shown = itemAt es (walked TwoLevelIterator.reached es none labels) ∧
            it.statusOf = .ok := by
  have hvalid := hfits.valid hsorted hseqs
  obtain ⟨⟨status, b⟩, after, trace, hrun, hok, hsize, hsmallest, hlargest, hdir⟩ :=
    (SSTableBuilder.build_ok Assume.flawless_noFail options name es).succeeds hcalls
  simp only at hok hsize hsmallest hlargest
  subst hok
  refine ⟨b, after, trace, hrun, hsmallest, hlargest, (layoutOf options es).reader number, ?_, ?_⟩
  · rw [hdir, lookup_insert_self, hsize]
    exact Layout.openTable_image hvalid.opens number
  · intro cache htrust labels it cache' hpath
    exact TwoLevelIterator.Path.shown hvalid htrust hpath

/-- Two versions of one key and a third entry, each in a block of its own. -/
def threeEntries : List Entry :=
  [⟨[97], 2, kTypeValue, [50]⟩, ⟨[97], 1, kTypeValue, [49]⟩, ⟨[98], 3, kTypeDeletion, []⟩]

def tinyBlocks : Options := { blockSize := 1 }

theorem written_table_is_cursor_threeEntries :
    ∃ b after trace, SSTableBuilder.build tinyBlocks (.table 7) threeEntries ⟨∅, fun _ => none, []⟩ =
        .done (.ok, b) after trace ∧
      b.smallestKey = firstKey threeEntries ∧ b.largestKey = lastKey threeEntries ∧
      ∃ r, SSTableReader.openTable (after.dir.lookup (.table 7)) none 7 b.fileSize = .ok r ∧
        ∀ cache, r.Trusts cache → ∀ labels it cache',
          Path (TwoLevelIterator.Step r) (r.newIterator, cache) labels (it, cache') →
          it.shown = itemAt threeEntries (walked TwoLevelIterator.reached threeEntries none labels) ∧
            it.statusOf = .ok :=
  written_table_is_cursor tinyBlocks (.table 7) 7 threeEntries (by decide) (by decide)
    ⟨by decide +kernel, by decide +kernel, by decide +kernel⟩ _ (by decide +kernel)

end Strata

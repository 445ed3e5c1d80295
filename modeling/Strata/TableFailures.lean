import Strata.Library.Outcomes
import Strata.TableCursor

/-! What the status of `Finish` says about the file. Every call of a build but
those that write the last block has its failure in the status. The last block
is written inside `Finish`, and the write of the filter puts its own status in
the place of the one that says whether that went well. -/
namespace Strata

open Library System

/-- The calls that write one block: behind contents that failed there is no trailer. -/
def blockCalls (fate : List Outcome) : Nat := if Fails 1 fate then 1 else 2

theorem blockCalls_of_not_fails {fate : List Outcome} (h : ¬ Fails 2 fate) :
    blockCalls fate = 2 := by
  rw [fails_add 1 1, not_or] at h
  rw [blockCalls, if_neg h.1]

namespace SSTableBuilder

variable {base : Dir} {bytes : Bytes} {machine : Machine FileName} {b : SSTableBuilder}

theorem writeRawBlock_plays {Q : Status × BlockHandle × SSTableBuilder → Machine FileName → Prop}
    (hdir : machine.dir = base.insert b.filename bytes) (contents : Bytes)
    (hok : ¬ Fails 2 machine.fate →
      Q (.ok, ⟨b.offset, contents.length⟩, { b with offset := b.offset + (contents.length + 4) })
        ⟨base.insert b.filename (bytes ++ sealBlock contents), machine.faults,
          machine.fate.drop 2⟩)
    (hfail : Fails 2 machine.fate → ∀ message part,
      Q (.ioError message, ⟨b.offset, contents.length⟩,
          { b with offset := b.offset + part.length })
        ⟨base.insert b.filename (bytes ++ part), machine.faults,
          machine.fate.drop (blockCalls machine.fate)⟩) :
    Plays machine (b.writeRawBlock contents) Q := by
  have hsplit := fails_add 1 1 machine.fate
  unfold writeRawBlock
  apply Plays.bind
  apply Plays.append hdir
  · intro hcontents
    apply Plays.bind
    apply Plays.append rfl
    · intro htrailer
      have hend := hok fun h => (hsplit.mp h).elim hcontents htrailer
      rw [sealBlock, ← List.append_assoc, ← Nat.add_assoc] at hend
      rw [List.drop_drop]
      exact Plays.ret hend
    · intro htrailer part
      have hend := hfail (hsplit.mpr (Or.inr htrailer)) "Failed to write block trailer"
        (contents ++ part)
      rw [blockCalls, if_neg hcontents, List.length_append, ← Nat.add_assoc,
        ← List.append_assoc] at hend
      rw [List.drop_drop]
      exact Plays.ret hend
  · intro hcontents part
    have hend := hfail (hsplit.mpr (Or.inl hcontents)) "Failed to write block" part
    rw [blockCalls, if_pos hcontents] at hend
    exact Plays.ret hend

theorem flushBlock_plays {Q : SSTableBuilder → Machine FileName → Prop} {done : List DataBlock}
    {rest : List Entry} (hdir : machine.dir = base.insert b.filename (bodyOf done))
    (hoffset : b.offset = (bodyOf done).length) (hindex : b.indexBlock = indexBuilder done)
    (hlast : b.lastKeyInBlock = lastKey rest) (hfull : b.dataBlock.empty = false)
    (hok : ¬ Fails 2 machine.fate →
      Q { b with
          offset := (bodyOf (done ++ [(b.dataBlock.finish, rest)])).length
          indexBlock := indexBuilder (done ++ [(b.dataBlock.finish, rest)])
          dataBlock := b.dataBlock.reset
          status := .ok }
        ⟨base.insert b.filename (bodyOf (done ++ [(b.dataBlock.finish, rest)])), machine.faults,
          machine.fate.drop 2⟩)
    (hfail : Fails 2 machine.fate → ∀ message part,
      Q { b with offset := (bodyOf done ++ part).length, status := .ioError message }
        ⟨base.insert b.filename (bodyOf done ++ part), machine.faults,
          machine.fate.drop (blockCalls machine.fate)⟩) :
    Plays machine b.flushBlock Q := by
  have hbody : bodyOf (done ++ [(b.dataBlock.finish, rest)]) =
      bodyOf done ++ sealBlock b.dataBlock.finish := by
    rw [Layout.bodyOf_append]
    simp [bodyOf]
  unfold flushBlock
  rw [if_neg (by simp [hfull])]
  apply Plays.bind
  apply writeRawBlock_plays hdir
  · intro hwritten
    have hend := hok hwritten
    simp only [indexBuilder_append, hbody, List.length_append, length_sealBlock] at hend
    rw [← hindex, ← hlast, ← hoffset] at hend
    exact Plays.ret hend
  · intro hcut message part
    have hend := hfail hcut message part
    rw [List.length_append, ← hoffset] at hend
    exact Plays.ret hend

structure InStep (options : Options) (base : Dir) (start : List Outcome)
    (machine : Machine FileName) (b : SSTableBuilder) (es : List Entry) : Prop where
  holds : b.Holds options es
  dir : machine.dir = base.insert b.filename (bodyOf (pack options es).done)
  unfailed : ¬ Fails (1 + 2 * (pack options es).done.length) start
  fate : machine.fate = start.drop (1 + 2 * (pack options es).done.length)

variable {options : Options} {start : List Outcome} {es : List Entry}

theorem add_plays {Q : SSTableBuilder → Machine FileName → Prop}
    (h : InStep options base start machine b es) (e : Entry)
    (hok : ∀ b' after, b'.filename = b.filename →
      InStep options base start after b' (es ++ [e]) → Q b' after)
    (hfail : Fails (1 + 2 * (pack options (es ++ [e])).done.length) start → ∀ b' after,
      b'.status ≠ .ok → Q b' after) :
    Plays machine (b.add options e) Q := by
  obtain ⟨hholds, hdir, hunfailed, hfate⟩ := h
  have hadded := hholds.added e
  unfold SSTableBuilder.add
  rw [if_neg (by simp [hholds.status, Status.isOk])]
  simp only [hholds.dataBlock]
  split
  -- the block is full
  · rename_i hfull
    have hpack := pack_full hfull
    have hlast : e.userKey = lastKey ((pack options es).rest ++ [e]) := (lastKey_append _ _).symm
    have hcount : 1 + 2 * (pack options (es ++ [e])).done.length =
        1 + 2 * (pack options es).done.length + 2 := by
      rw [hpack, List.length_append, List.length_singleton]
      omega
    have hcalls : Fails (1 + 2 * (pack options (es ++ [e])).done.length) start ↔
        Fails 2 machine.fate := by
      rw [hcount, fails_add, hfate]
      exact or_iff_right hunfailed
    apply flushBlock_plays
    · exact hdir
    · exact hholds.offset
    · exact hholds.indexBlock
    · exact hlast
    · exact ((pack_holds options es).current.add e).not_empty (by simp)
    · intro hwritten
      rw [SSTableBuilder.added, hpack] at hadded
      refine hok _ _ rfl ⟨hadded, ?_, mt hcalls.mp hwritten, ?_⟩
      · rw [hpack]
      · rw [hcount, hfate, List.drop_drop]
    · intro hcut message part
      exact hfail (hcalls.mpr hcut) _ _ (fun hstatus => by cases hstatus)
  · rename_i hroom
    have hpack := pack_room hroom
    rw [SSTableBuilder.added, hpack, ← hholds.offset, ← hholds.indexBlock, ← hholds.status]
      at hadded
    refine Plays.ret (hok _ _ rfl ⟨hadded, ?_, ?_, ?_⟩)
    · rw [hpack]
      exact hdir
    · rw [hpack]
      exact hunfailed
    · rw [hpack]
      exact hfate

theorem length_done_le (options : Options) (es more : List Entry) :
    (pack options es).done.length ≤ (pack options (es ++ more)).done.length := by
  induction more using List.reverseRecOn with
  | nil => rw [List.append_nil]
  | append_singleton more e ih =>
    rw [← List.append_assoc, pack_append]
    unfold Packed.add
    simp only
    split
    · rw [List.length_append]
      exact ih.trans (Nat.le_add_right _ _)
    · exact ih

theorem addAll_of_failed (h : b.status ≠ .ok) (more : List Entry) :
    b.addAll options more = pure b := by
  have hadd : ∀ e, b.add options e = pure b := by
    intro e
    unfold SSTableBuilder.add
    rw [if_pos (by simp [Status.isOk_eq_false.mpr h])]
  induction more with
  | nil => rfl
  | cons e rest ih => rw [addAll, hadd, Sys.pure_bind, ih]

theorem addAll_plays {Q : SSTableBuilder → Machine FileName → Prop}
    (h : InStep options base start machine b es) (more : List Entry)
    (hok : ∀ b' after, b'.filename = b.filename →
      InStep options base start after b' (es ++ more) → Q b' after)
    (hfail : Fails (1 + 2 * (pack options (es ++ more)).done.length) start → ∀ b' after,
      b'.status ≠ .ok → Q b' after) :
    Plays machine (b.addAll options more) Q := by
  induction more generalizing machine b es with
  | nil =>
    rw [List.append_nil] at hok
    exact Plays.ret (hok b machine rfl h)
  | cons e rest ih =>
    rw [List.append_cons] at hok hfail
    unfold SSTableBuilder.addAll
    apply Plays.bind
    apply add_plays h e
    · intro b' after hname hstep
      apply ih hstep
      · intro b'' last hname' hstep'
        exact hok b'' last (hname'.trans hname) hstep'
      · exact hfail
    · intro hfails b' after hstatus
      have hmore := length_done_le options (es ++ [e]) rest
      rw [addAll_of_failed hstatus]
      exact Plays.ret (hfail (hfails.mono (by omega)) b' after hstatus)

/-- `Finish` behind its last data block. -/
def writeTail (options : Options) (b : SSTableBuilder) : Prog (Status × SSTableBuilder) := do
  let (status, filterHandle, b) ← b.writeRawBlock
    (BloomFilter.createFilter b.keysForFilter options.bloomBitsPerKey)
  let b := { b with status := status }
  if !status.isOk then
    return (status, b)
  let (status, indexHandle, b) ← b.writeRawBlock b.indexBlock.finish
  let b := { b with status := status }
  if !status.isOk then
    return (status, b)
  match ← Sys.append b.filename (footer filterHandle indexHandle) with
  | some written =>
    return (.ioError "Failed to write footer", { b with offset := b.offset + written })
  | none =>
    let b := { b with offset := b.offset + 48 }
    let status : Status ← if ← Sys.sync b.filename then pure .ok
      else pure (.ioError "fdatasync failed")
    return (status, { b with status := status })

theorem finish_eq (options : Options) (b : SSTableBuilder) : b.finish options =
    if !b.status.isOk then pure (b.status, b) else b.flushBlock >>= writeTail options :=
  rfl

theorem writeTail_plays {Q : Status × SSTableBuilder → Machine FileName → Prop}
    (hdir : machine.dir = base.insert b.filename bytes) (hoffset : b.offset = bytes.length)
    (hok : ¬ Fails 6 machine.fate → ∀ b' after,
      b'.fileSize = (tableBytes bytes (BloomFilter.createFilter b.keysForFilter
        options.bloomBitsPerKey) b.indexBlock.finish).length →
      after.dir = base.insert b.filename (tableBytes bytes (BloomFilter.createFilter
        b.keysForFilter options.bloomBitsPerKey) b.indexBlock.finish) → Q (.ok, b') after)
    (hfail : Fails 6 machine.fate → ∀ status b' after, status ≠ .ok → Q (status, b') after) :
    Plays machine (b.writeTail options) Q := by
  generalize hfilter : BloomFilter.createFilter b.keysForFilter options.bloomBitsPerKey = filter
    at hok
  have hsix : Fails 6 machine.fate ↔ Fails 2 machine.fate ∨ Fails 2 (machine.fate.drop 2) ∨
      Fails 1 (machine.fate.drop 4) ∨ Fails 1 (machine.fate.drop 5) := by
    rw [fails_add 2 4, fails_add 2 2, fails_add 1 1 ((machine.fate.drop 2).drop 2)]
    simp only [List.drop_drop]
  unfold writeTail
  rw [hfilter]
  apply Plays.bind
  apply writeRawBlock_plays hdir
  · intro hfilterOk
    apply Plays.bind
    apply writeRawBlock_plays rfl
    · intro hindexOk
      apply Plays.bind
      apply Plays.append rfl
      · intro hfooterOk
        apply Plays.bind
        apply Plays.call
        · intro hsyncOk
          have hnone : ¬ Fails 6 machine.fate := by
            simp only [List.drop_drop] at hindexOk hfooterOk hsyncOk
            rw [hsix]
            simp only [hfilterOk, hindexOk, hfooterOk, hsyncOk, or_self, not_false_eq_true]
          apply Plays.ret
          apply hok hnone
          · rw [length_tableBytes]
            simp only [fileSize, hoffset]
          · simp only [id, tableBytes, hoffset, List.append_assoc]
        · intro n hsync
          rw [List.drop_drop, List.drop_drop] at hsync
          exact Plays.ret (hfail (hsix.mpr (Or.inr (Or.inr (Or.inr hsync)))) _ _ _
            fun hstatus => by cases hstatus)
      · intro hfooter part
        rw [List.drop_drop] at hfooter
        exact Plays.ret (hfail (hsix.mpr (Or.inr (Or.inr (Or.inl hfooter)))) _ _ _
          fun hstatus => by cases hstatus)
    · intro hindex message part
      exact Plays.ret (hfail (hsix.mpr (Or.inr (Or.inl hindex))) _ _ _
        fun hstatus => by cases hstatus)
  · intro hcut message part
    exact Plays.ret (hfail (hsix.mpr (Or.inl hcut)) _ _ _ (fun hstatus => by cases hstatus))

/-- The calls that write the last block; there are none if no entry is left for it. -/
def lastBlockCalls (options : Options) (es : List Entry) (fate : List Outcome) : Nat :=
  if (pack options es).rest = [] then 0 else blockCalls fate

def LastBlockFails (options : Options) (es : List Entry) (fate : List Outcome) : Prop :=
  (pack options es).rest ≠ [] ∧ Fails 2 fate

instance (options : Options) (es : List Entry) (fate : List Outcome) :
    Decidable (LastBlockFails options es fate) :=
  inferInstanceAs (Decidable ((pack options es).rest ≠ [] ∧ Fails 2 fate))

def keptBlocks (options : Options) (es : List Entry) (fate : List Outcome) : List DataBlock :=
  if LastBlockFails options es fate then (pack options es).done else (pack options es).blocks

/-- The last block, by what the index holds after it. What a failed write left of the block
stays in the file. -/
theorem flushRest_plays {Q : SSTableBuilder → Machine FileName → Prop}
    (h : InStep options base start machine b es)
    (hend : ∀ b' after part, b'.filename = b.filename →
      b'.keysForFilter = es.map Entry.userKey →
      b'.indexBlock = indexBuilder (keptBlocks options es machine.fate) →
      b'.offset = (bodyOf (keptBlocks options es machine.fate) ++ part).length →
      after.dir = base.insert b.filename (bodyOf (keptBlocks options es machine.fate) ++ part) →
      after.fate = machine.fate.drop (lastBlockCalls options es machine.fate) → Q b' after) :
    Plays machine b.flushBlock Q := by
  obtain ⟨hholds, hdir, _, _⟩ := h
  by_cases hrest : (pack options es).rest = []
  · have hkept : keptBlocks options es machine.fate = (pack options es).done := by
      rw [keptBlocks, if_neg fun hlast => hlast.1 hrest, Packed.blocks, if_pos hrest]
    rw [hkept, lastBlockCalls, if_pos hrest] at hend
    unfold flushBlock
    rw [if_pos (hholds.flush_empty.mpr hrest)]
    apply Plays.ret
    apply hend b machine [] rfl hholds.keysForFilter hholds.indexBlock
    · rw [List.append_nil]
      exact hholds.offset
    · rw [List.append_nil]
      exact hdir
    · rfl
  · rw [lastBlockCalls, if_neg hrest] at hend
    apply flushBlock_plays hdir hholds.offset hholds.indexBlock (hholds.lastKey_rest hrest)
    · rw [← Bool.not_eq_true, hholds.flush_empty]
      exact hrest
    · intro hwritten
      have hkept : keptBlocks options es machine.fate =
          (pack options es).done ++ [(b.dataBlock.finish, (pack options es).rest)] := by
        rw [keptBlocks, if_neg fun hlast => hwritten hlast.2, Packed.blocks, if_neg hrest,
          hholds.dataBlock]
      rw [hkept] at hend
      refine hend _ _ [] rfl (by exact hholds.keysForFilter) rfl ?_ ?_ ?_
      · rw [List.append_nil]
      · rw [List.append_nil]
      · rw [blockCalls_of_not_fails hwritten]
    · intro hcut message part
      have hkept : keptBlocks options es machine.fate = (pack options es).done := by
        rw [keptBlocks, if_pos ⟨hrest, hcut⟩]
      rw [hkept] at hend
      exact hend _ _ part rfl hholds.keysForFilter hholds.indexBlock rfl rfl rfl

/-- The file that `Finish` leaves behind an OK. -/
def finishedBytes (options : Options) (es : List Entry) (fate : List Outcome) (part : Bytes) :
    Bytes :=
  tableBytes (bodyOf (keptBlocks options es fate) ++ part) (layoutOf options es).filter
    (indexBuilder (keptBlocks options es fate)).finish

theorem finish_plays {Q : Status × SSTableBuilder → Machine FileName → Prop}
    (h : InStep options base start machine b es)
    (hok : ¬ Fails 6 (machine.fate.drop (lastBlockCalls options es machine.fate)) →
      ∀ b' after part,
        b'.fileSize = (finishedBytes options es machine.fate part).length →
        after.dir = base.insert b.filename (finishedBytes options es machine.fate part) →
        Q (.ok, b') after)
    (hfail : Fails 6 (machine.fate.drop (lastBlockCalls options es machine.fate)) →
      ∀ status b' after, status ≠ .ok → Q (status, b') after) :
    Plays machine (b.finish options) Q := by
  rw [finish_eq, if_neg (by simp [h.holds.status])]
  apply Plays.bind
  apply flushRest_plays h
  intro b' middle part hname hkeys hindex hoffset hdir hfate
  rw [← hname] at hdir hok
  apply writeTail_plays hdir hoffset
  · intro hwritten b'' after hsize hafter
    rw [hkeys, hindex] at hsize hafter
    rw [hfate] at hwritten
    exact hok hwritten b'' after part hsize hafter
  · intro hfails
    rw [hfate] at hfails
    exact hfail hfails

/-- The outcomes that the calls of `Finish` meet. -/
def finishFate (options : Options) (es : List Entry) (fate : List Outcome) : List Outcome :=
  fate.drop (1 + 2 * (pack options es).done.length)

theorem build_plays {Q : Status × SSTableBuilder → Machine FileName → Prop} (options : Options)
    (name : FileName) (es : List Entry)
    (hok : ¬ Fails (1 + 2 * (pack options es).done.length) machine.fate →
      ¬ Fails 6 ((finishFate options es machine.fate).drop
        (lastBlockCalls options es (finishFate options es machine.fate))) →
      ∀ b after part,
        b.fileSize = (finishedBytes options es (finishFate options es machine.fate) part).length →
        after.dir = machine.dir.insert name
          (finishedBytes options es (finishFate options es machine.fate) part) → Q (.ok, b) after)
    (hfail : Fails (1 + 2 * (pack options es).done.length) machine.fate ∨
      Fails 6 ((finishFate options es machine.fate).drop
        (lastBlockCalls options es (finishFate options es machine.fate))) →
      ∀ status b after, status ≠ .ok → Q (status, b) after) :
    Plays machine (build options name es) Q := by
  have hstop : Fails (1 + 2 * (pack options es).done.length) machine.fate →
      ∀ b : SSTableBuilder, ∀ after, b.status ≠ .ok → Plays after (b.finish options) Q := by
    intro hfails b after hstatus
    rw [finish_eq, if_pos (by simp [Status.isOk_eq_false.mpr hstatus])]
    exact Plays.ret (hfail (Or.inl hfails) b.status b after hstatus)
  unfold build
  apply Plays.bind
  unfold SSTableBuilder.new
  apply Plays.bind
  apply Plays.call
  · intro hcreated
    apply Plays.ret
    apply Plays.bind
    have hnew : InStep options machine.dir machine.fate
        ⟨machine.dir.insert name [], machine.faults, machine.fate.drop 1⟩
        ⟨name, 0, 0, .new 16, .new 1, [], [], [], [], .ok⟩ [] :=
      ⟨⟨rfl, rfl, rfl, rfl, rfl, rfl, rfl, rfl, rfl⟩, rfl, hcreated, rfl⟩
    apply addAll_plays hnew es
    · intro b after hname hstep
      have hfate : after.fate = finishFate options es machine.fate := hstep.fate
      have hunfailed := hstep.unfailed
      apply finish_plays hstep
      · rw [hfate, hname]
        exact hok hunfailed
      · rw [hfate]
        intro hfails
        exact hfail (Or.inr hfails)
    · intro hfails b after hstatus
      exact hstop hfails b after hstatus
  · intro n hcreate
    apply Plays.ret
    apply Plays.bind
    rw [addAll_of_failed (by exact fun hstatus => nomatch hstatus)]
    apply Plays.ret
    exact hstop (hcreate.mono (Nat.le_add_right _ _)) _ _ fun hstatus => nomatch hstatus

end SSTableBuilder

open SSTableBuilder

theorem openTable_yields_iff {blocks : List DataBlock} {part filter : Bytes} {es : List Entry}
    (hbuilt : ∀ b ∈ blocks, ∃ builder : BlockBuilder, builder.Holds b.2 ∧ b.1 = builder.finish)
    (hseqs : ∀ b ∈ blocks, ∀ e ∈ b.2, e.seq < 2 ^ 64)
    (hsmall : (tableBytes (bodyOf blocks ++ part) filter (indexBuilder blocks).finish).length <
      2 ^ 64) (number : Nat) :
    (∃ r, SSTableReader.openTable
        (some (tableBytes (bodyOf blocks ++ part) filter (indexBuilder blocks).finish)) none number
        (tableBytes (bodyOf blocks ++ part) filter (indexBuilder blocks).finish).length = .ok r ∧
      Yields r.newIterator.seekToFirst es) ↔
    (indexBuilder blocks).finish.length ≤ kMaxBlockSize ∧ filter.length ≤ kMaxBlockSize ∧
      (blocks.map shownOf).flatten = es := by
  have hparts : ∀ r, (indexBuilder blocks).finish.length ≤ kMaxBlockSize →
      r = (⟨tableBytes (bodyOf blocks ++ part) filter (indexBuilder blocks).finish, none, number,
        (tableBytes (bodyOf blocks ++ part) filter (indexBuilder blocks).finish).length,
        Block.new (indexBuilder blocks).finish, filter⟩ : SSTableReader) →
      Yields r.newIterator.seekToFirst (blocks.map shownOf).flatten := by
    intro r hindex hr
    subst hr
    apply SSTableReader.Parts.yields
    apply SSTableReader.parts_of_body
    · exact List.append_assoc _ _ _
    · rfl
    · rfl
    · exact hsmall
    · rfl
    · exact isBlock_index hindex
    · exact fun b hb hsize => isBlock_built (hbuilt b hb) (hseqs b hb) hsize
  simp only [openTable_bytes_iff hsmall]
  constructor
  · rintro ⟨r, ⟨hindex, hfilter, hr⟩, hyields⟩
    exact ⟨hindex, hfilter, (hparts r hindex hr).unique hyields⟩
  · rintro ⟨hindex, hfilter, hshown⟩
    have hyields := hparts _ hindex rfl
    rw [hshown] at hyields
    exact ⟨_, ⟨hindex, hfilter, rfl⟩, hyields⟩

theorem length_shown_le (blocks : List DataBlock) :
    ((blocks.map shownOf).flatten).length ≤ ((blocks.map Prod.snd).flatten).length := by
  induction blocks with
  | nil => rfl
  | cons b rest ih =>
    simp only [List.map_cons, List.flatten_cons, List.length_append]
    apply Nat.add_le_add _ ih
    unfold shownOf
    split
    · rfl
    · exact Nat.zero_le _

theorem shown_eq_iff {blocks : List DataBlock} (hne : ∀ b ∈ blocks, b.2 ≠ []) :
    (blocks.map shownOf).flatten = (blocks.map Prod.snd).flatten ↔
      ∀ b ∈ blocks, b.1.length ≤ kMaxBlockSize := by
  induction blocks with
  | nil => simp
  | cons b rest ih =>
    have ihrest := ih fun x hx => hne x (List.mem_cons_of_mem _ hx)
    rw [List.forall_mem_cons, List.map_cons, List.map_cons, List.flatten_cons, List.flatten_cons]
    by_cases hb : b.1.length ≤ kMaxBlockSize
    · rw [shownOf, if_pos hb, List.append_cancel_left_eq, ihrest]
      exact (and_iff_right hb).symm
    · rw [shownOf, if_neg hb]
      constructor
      · intro h
        have hlength := congrArg List.length h
        have hpos := List.length_pos_iff.mpr (hne b List.mem_cons_self)
        have hle := length_shown_le rest
        rw [List.nil_append, List.length_append] at hlength
        omega
      · intro h
        exact absurd h.1 hb

theorem kept_shown_iff (options : Options) (es : List Entry) (fate : List Outcome) :
    ((keptBlocks options es fate).map shownOf).flatten = es ↔
      ¬ LastBlockFails options es fate ∧
        ∀ b ∈ (pack options es).blocks, b.1.length ≤ kMaxBlockSize := by
  have hpacked := pack_holds options es
  by_cases hlast : LastBlockFails options es fate
  · rw [keptBlocks, if_pos hlast]
    constructor
    · intro h
      have hlength := congrArg List.length (h.trans hpacked.entries.symm)
      have hle := length_shown_le (pack options es).done
      have hpos := List.length_pos_iff.mpr hlast.1
      rw [List.length_append] at hlength
      omega
    · intro h
      exact absurd hlast h.1
  · have hiff := shown_eq_iff fun b hb => (hpacked.blocks.2 b hb).1
    rw [hpacked.blocks.1] at hiff
    rw [keptBlocks, if_neg hlast, hiff]
    exact (and_iff_right hlast).symm

/-- `Finish` tells the truth about these entries: a call that is not one of the last block's
fails, or none fails and the parts keep to the reader's limit. -/
def FinishTells (options : Options) (es : List Entry) (fate : List Outcome) : Prop :=
  Fails (1 + 2 * (pack options es).done.length) fate ∨
    Fails 6 ((finishFate options es fate).drop
      (lastBlockCalls options es (finishFate options es fate))) ∨
    (¬ LastBlockFails options es (finishFate options es fate) ∧ (layoutOf options es).Fits)

/-- The file that an OK leaves shows every entry if the last block did not fail and the parts
of the table keep to the limit. -/
theorem finished_yields_iff (options : Options) {es : List Entry}
    (hseqs : ∀ e ∈ es, e.seq < 2 ^ 64) (fate : List Outcome) {part : Bytes}
    (hsmall : (finishedBytes options es fate part).length < 2 ^ 64) (number : Nat) :
    (∃ r, SSTableReader.openTable (some (finishedBytes options es fate part)) none number
        (finishedBytes options es fate part).length = .ok r ∧
      Yields r.newIterator.seekToFirst es) ↔
    ¬ LastBlockFails options es fate ∧ (layoutOf options es).Fits := by
  have hpacked := pack_holds options es
  have hkept : ∀ b ∈ keptBlocks options es fate, b ∈ (pack options es).blocks := by
    intro b hb
    unfold keptBlocks at hb
    split at hb
    · rename_i hlast
      rw [Packed.blocks, if_neg hlast.1]
      exact List.mem_append_left _ hb
    · exact hb
  have hbuilt : ∀ b ∈ keptBlocks options es fate, ∃ builder : BlockBuilder,
      builder.Holds b.2 ∧ b.1 = builder.finish :=
    fun b hb => (hpacked.blocks.2 b (hkept b hb)).2
  have hentries : ∀ b ∈ keptBlocks options es fate, ∀ e ∈ b.2, e.seq < 2 ^ 64 := by
    intro b hb e he
    apply hseqs e
    rw [← hpacked.blocks.1]
    exact List.mem_flatten.mpr ⟨b.2, List.mem_map_of_mem (hkept b hb), he⟩
  have hshown := kept_shown_iff options es fate
  have hindex : ¬ LastBlockFails options es fate →
      (indexBuilder (keptBlocks options es fate)).finish = (layoutOf options es).index := by
    intro hlast
    rw [keptBlocks, if_neg hlast]
    rfl
  refine (openTable_yields_iff hbuilt hentries hsmall number).trans ?_
  rw [hshown]
  constructor
  · rintro ⟨hsize, hfilter, hlast, hblocks⟩
    rw [hindex hlast] at hsize
    exact ⟨hlast, hblocks, hfilter, hsize⟩
  · rintro ⟨hlast, hfits⟩
    rw [hindex hlast]
    exact ⟨hfits.index, hfits.filter, hlast, hfits.blocks⟩

/-- An OK of `Finish` stands for a table that opens and shows every entry, exactly under the
condition above. -/
theorem finish_tells_iff (options : Options) (name : FileName) (number : Nat) (es : List Entry)
    (hseqs : ∀ e ∈ es, e.seq < 2 ^ 64) (machine : Machine FileName)
    (hspared : Spared machine.fate) :
    ∃ status b after trace, build options name es machine = .done (status, b) after trace ∧
      (b.fileSize < 2 ^ 64 →
        ((status = .ok → ∃ r,
            SSTableReader.openTable (after.dir.lookup name) none number b.fileSize = .ok r ∧
              Yields r.newIterator.seekToFirst es) ↔
          FinishTells options es machine.fate)) := by
  have hplays : Plays machine (build options name es) fun result after =>
      result.2.fileSize < 2 ^ 64 →
        ((result.1 = .ok → ∃ r,
            SSTableReader.openTable (after.dir.lookup name) none number result.2.fileSize = .ok r ∧
              Yields r.newIterator.seekToFirst es) ↔
          FinishTells options es machine.fate) := by
    apply build_plays
    · intro hadds hfinish b after part hsize hdir hlimit
      rw [hsize] at hlimit
      rw [hsize, hdir, lookup_insert_self, FinishTells, or_iff_right hadds, or_iff_right hfinish,
        ← finished_yields_iff options hseqs _ hlimit number]
      exact ⟨fun h => h rfl, fun h _ => h⟩
    · intro hfails status b after hstatus _
      constructor
      · intro _
        exact hfails.imp id Or.inl
      · intro _ hok
        exact absurd hok hstatus
  obtain ⟨⟨status, b⟩, after, trace, hexit, hiff⟩ := hplays.returns hspared
  exact ⟨status, b, after, trace, hexit, hiff⟩

/-- The second block of three is cut off, and the status says so. -/
theorem finish_tells_iff_threeEntries :
    FinishTells tinyBlocks threeEntries [.ok, .ok, .ok, .fail 1] ∧
    ∃ status b after trace, build tinyBlocks (.table 7) threeEntries
        ⟨∅, fun _ => none, [.ok, .ok, .ok, .fail 1]⟩ = .done (status, b) after trace ∧
      (b.fileSize < 2 ^ 64 →
        ((status = .ok → ∃ r,
            SSTableReader.openTable (after.dir.lookup (.table 7)) none 7 b.fileSize = .ok r ∧
              Yields r.newIterator.seekToFirst threeEntries) ↔
          FinishTells tinyBlocks threeEntries [.ok, .ok, .ok, .fail 1])) :=
  ⟨Or.inl (by decide +kernel), finish_tells_iff tinyBlocks (.table 7) 7 threeEntries (by decide)
    ⟨∅, fun _ => none, [.ok, .ok, .ok, .fail 1]⟩ (by simp [Spared])⟩

def oneAdded : List Entry := [⟨[97], 1, kTypeValue, [49]⟩]

/-- The one block of a table is not written, `Finish` says OK, and the table opens and is empty. -/
theorem lost_last_block :
    ¬ ∀ (options : Options) (name : FileName) (number : Nat) (es : List Entry)
      (machine : Machine FileName), es.Pairwise Entry.before → (∀ e ∈ es, e.seq < 2 ^ 64) →
      ∀ status b after trace, build options name es machine = .done (status, b) after trace →
        b.fileSize < 2 ^ 64 → status = .ok → ∃ r,
          SSTableReader.openTable (after.dir.lookup name) none number b.fileSize = .ok r ∧
            Yields r.newIterator.seekToFirst es := by
  intro htells
  have hrun : (build {} (.table 7) oneAdded ⟨∅, fun _ => none, [.ok, .fail 0]⟩).returns
      (fun result dir _ => result.1 = .ok ∧ result.2.fileSize < 2 ^ 64 ∧
        (SSTableReader.openTable (dir.lookup (.table 7)) none 7 result.2.fileSize).toOption.all
          fun r => !r.newIterator.seekToFirst.valid) = true := by
    decide +kernel
  obtain ⟨⟨status, b⟩, after, trace, hexit, htest⟩ := Exit.of_returns hrun
  simp only [decide_eq_true_eq] at htest
  obtain ⟨r, hopen, hyields⟩ := htells {} (.table 7) 7 oneAdded _ (by decide) (by decide) status b
    after trace hexit htest.2.1 htest.1
  have hempty := htest.2.2
  rw [hopen] at hempty
  have hvalid : r.newIterator.seekToFirst.valid = true := hyields.1
  simp [Except.toOption, hvalid] at hempty

end Strata

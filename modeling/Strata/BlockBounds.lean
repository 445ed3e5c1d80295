import Strata.Library.Cursor
import Strata.SSTableReader

/-! The bytes of a block that its iterator reads. An entry is parsed only inside the
bytes in front of the restart points, whatever offset it is looked for at; the binary
search of `Seek` reads keys at the offsets it finds in the restart points, and
nothing checks those. -/
namespace Strata

open Library Cursor

namespace Block

def restartOffset (block : Block) (index : Nat) : Nat := block.newIterator.getRestartOffset index

/-- The key that `Seek` looks at there, as long as the block says it is. -/
def restartKeyLength (block : Block) (index : Nat) : Nat :=
  decodeFixed32 (block.data.drop (block.restartOffset index))

def restartReads (block : Block) (index : Nat) : List Nat :=
  List.range' (block.restartsOffset + index * 4) 4

def parseReads (block : Block) (offset : Nat) : List Nat :=
  let limit := block.restartsOffset
  if offset ≥ limit then []
  else if offset + 17 > limit then []
  else
    let klen := decodeFixed32 (block.data.drop offset)
    List.range' offset 4 ++
      if offset + 17 + klen > limit then []
      else
        let vlen := decodeFixed32 (block.data.drop (offset + 4 + klen + 9))
        List.range' (offset + 4) klen ++ (List.range' (offset + 4 + klen) 8 ++
          (List.range' (offset + 4 + klen + 8) 1 ++ (List.range' (offset + 4 + klen + 9) 4 ++
            if offset + 17 + klen + vlen > limit then []
            else List.range' (offset + 4 + klen + 13) vlen)))

/-- One turn of the binary search of `Seek`: the offset, the length of the key, and the
bytes of the key as far as it is compared. -/
def probeReads (block : Block) (target : Key) (index : Nat) : List Nat :=
  let offset := block.restartOffset index
  block.restartReads index ++ (List.range' offset 4 ++
    List.range' (offset + 4) (min (block.restartKeyLength index) target.length))

def probed (block : Block) (target : Key) : List Nat :=
  Search.probes (fun index => block.newIterator.restartKey index < target)
    block.numRestarts 0 (block.numRestarts - 1)

def ProbesInside (block : Block) (target : Key) : Prop :=
  ∀ index ∈ block.probed target, block.restartOffset index + 4 +
    min (block.restartKeyLength index) target.length ≤ block.data.length

end Block

namespace BlockIter

def seekScanReads (target : Key) : Nat → BlockIter → Nat → List Nat
  | 0, _, _ => []
  | fuel + 1, it, offset =>
    if offset < it.block.restartsOffset then
      it.block.parseReads offset ++
        let it := it.parseEntryAt offset
        if !it.valid then []
        else if target ≤ it.entry.userKey then []
        else seekScanReads target fuel it it.nextOffset
    else []

def scanToReads (bound : Nat) : Nat → BlockIter → Nat → List Nat
  | 0, _, _ => []
  | fuel + 1, it, offset =>
    it.block.parseReads offset ++
      let it := it.parseEntryAt offset
      if it.nextOffset ≥ bound then [] else scanToReads bound fuel it it.nextOffset

def restartBefore (it : BlockIter) : Nat :=
  Search.searchLast (fun index => it.getRestartOffset index < it.current) it.block.numRestarts 0
    (it.block.numRestarts - 1) 0

def reads (it : BlockIter) : Move Key → List Nat
  | .first => if it.block.numRestarts = 0 then [] else it.block.parseReads 0
  | .last =>
    if it.block.numRestarts = 0 then []
    else
      it.block.restartReads (it.block.numRestarts - 1) ++
        scanToReads it.block.restartsOffset (it.block.data.length + 1) it
          (it.getRestartOffset (it.block.numRestarts - 1))
  | .seek target =>
    if it.block.numRestarts = 0 then []
    else
      let restart := Search.searchLast (fun index => it.restartKey index < target)
        it.block.numRestarts 0 (it.block.numRestarts - 1) 0
      (it.block.probed target).flatMap (it.block.probeReads target) ++
        (it.block.restartReads restart ++
          seekScanReads target (it.block.data.length + 1) it (it.getRestartOffset restart))
  | .next => it.block.parseReads it.nextOffset
  | .prev =>
    (Search.probes (fun index => it.getRestartOffset index < it.current) it.block.numRestarts 0
        (it.block.numRestarts - 1)).flatMap it.block.restartReads ++
      (it.block.restartReads it.restartBefore ++
        if it.getRestartOffset it.restartBefore ≥ it.current then []
        else scanToReads it.current (it.block.data.length + 1) it
          (it.getRestartOffset it.restartBefore))

def move (it : BlockIter) : Move Key → BlockIter
  | .first => it.seekToFirst
  | .last => it.seekToLast
  | .seek target => it.seek target
  | .next => it.next
  | .prev => it.prev

/-- The loop of the operation reaches its bound; it is the last part of `SeekToLast`
and of `Prev` that may not. -/
def ends (it : BlockIter) : Move Key → Bool
  | .last => it.block.numRestarts = 0 || it.block.restartsOffset ≤ it.seekToLast.nextOffset
  | .prev => it.current ≤ it.getRestartOffset it.restartBefore || it.current ≤ it.prev.nextOffset
  | _ => true

/-- The operations that are carried out, each with the iterator it is called on:
`Next` and `Prev` only at an entry, and nothing behind a loop that does not end. -/
def calls : List (Move Key) → BlockIter → List (BlockIter × Move Key)
  | [], _ => []
  | move :: rest, it =>
    if move.relative && !it.valid then []
    else (it, move) :: (if it.ends move then calls rest (it.move move) else [])

end BlockIter

def BlockReadsInside (data : Bytes) (moves : List (Move Key)) : Prop :=
  ∀ call ∈ BlockIter.calls moves (Block.new data).newIterator,
    ∀ i ∈ call.1.reads call.2, i < data.length

def SearchesInside (data : Bytes) (moves : List (Move Key)) : Prop :=
  ∀ it target, (it, Move.seek target) ∈ BlockIter.calls moves (Block.new data).newIterator →
    (Block.new data).ProbesInside target

/-! An iterator stays with its block. -/

namespace BlockIter

variable {it : BlockIter} {data : Bytes}

@[simp] theorem parseEntryAt_block (it : BlockIter) (offset : Nat) :
    (it.parseEntryAt offset).block = it.block := by
  unfold parseEntryAt
  simp only
  split
  · rfl
  split
  · rfl
  split
  · rfl
  split
  · rfl
  · rfl

theorem seekScan_block (target : Key) (fuel : Nat) (it : BlockIter) (offset : Nat) :
    (seekScan target fuel it offset).block = it.block := by
  induction fuel generalizing it offset with
  | zero => rfl
  | succ fuel ih =>
    unfold seekScan
    simp only
    split
    · split
      · simp [invalidate]
      · split
        · simp
        · rw [ih, parseEntryAt_block]
    · rfl

theorem scanTo_block (bound fuel : Nat) (it : BlockIter) (offset : Nat) :
    (scanTo bound fuel it offset).block = it.block := by
  induction fuel generalizing it offset with
  | zero => rfl
  | succ fuel ih =>
    unfold scanTo
    simp only
    split
    · simp
    · rw [ih, parseEntryAt_block]

theorem move_block (it : BlockIter) (move : Move Key) : (it.move move).block = it.block := by
  cases move with
  | first =>
    simp only [BlockIter.move, seekToFirst]
    split
    · rfl
    · simp
  | last =>
    simp only [BlockIter.move, seekToLast]
    split
    · rfl
    · exact scanTo_block ..
  | seek target =>
    simp only [BlockIter.move, seek]
    split
    · rfl
    · exact seekScan_block ..
  | next => simp [BlockIter.move, next]
  | prev =>
    simp only [BlockIter.move, prev]
    split
    · rfl
    · exact scanTo_block ..

theorem calls_block {moves : List (Move Key)} {call : BlockIter × Move Key}
    (h : call ∈ calls moves it) : call.1.block = it.block := by
  induction moves generalizing it with
  | nil => exact (List.not_mem_nil h).elim
  | cons move rest ih =>
    unfold calls at h
    split at h
    · exact (List.not_mem_nil h).elim
    · rcases List.mem_cons.mp h with rfl | h
      · rfl
      · split at h
        · rw [ih h, move_block]
        · exact (List.not_mem_nil h).elim

theorem calls_valid {moves : List (Move Key)} {call : BlockIter × Move Key}
    (h : call ∈ calls moves it) (hrelative : call.2.relative = true) : call.1.valid = true := by
  induction moves generalizing it with
  | nil => exact (List.not_mem_nil h).elim
  | cons move rest ih =>
    unfold calls at h
    split at h
    · exact (List.not_mem_nil h).elim
    · rename_i hallowed
      rcases List.mem_cons.mp h with rfl | h
      · simpa [hrelative] using hallowed
      · split at h
        · exact ih h
        · exact (List.not_mem_nil h).elim

end BlockIter

/-! Where the reads lie. -/

theorem Block.new_bounds {data : Bytes} (h : data.length < 2 ^ 32) :
    ((Block.new data).restartsOffset = 0 ∧ (Block.new data).numRestarts = 0) ∨
      (Block.new data).restartsOffset + (Block.new data).numRestarts * 4 + 4 = data.length := by
  unfold Block.new
  split
  · simp only
    split
    · right
      simp only
      rw [Nat.mod_eq_of_lt (by omega)]
      omega
    · left
      exact ⟨rfl, rfl⟩
  · left
    exact ⟨rfl, rfl⟩

@[simp] theorem Block.new_data (data : Bytes) : (Block.new data).data = data := by
  unfold Block.new
  split
  · simp only
    split
    · rfl
    · rfl
  · rfl

theorem Block.parseReads_lt (block : Block) (offset : Nat) :
    ∀ i ∈ block.parseReads offset, i < block.restartsOffset := by
  unfold Block.parseReads
  simp only
  split
  · exact fun _ h => (List.not_mem_nil h).elim
  split
  · exact fun _ h => (List.not_mem_nil h).elim
  generalize decodeFixed32 (block.data.drop offset) = klen
  split
  · intro i hi
    simp only [List.append_nil, List.mem_range'_1] at hi
    omega
  generalize decodeFixed32 (block.data.drop (offset + 4 + klen + 9)) = vlen
  split
  · intro i hi
    simp only [List.append_nil, List.mem_append, List.mem_range'_1] at hi
    omega
  · intro i hi
    simp only [List.mem_append, List.mem_range'_1] at hi
    omega

namespace BlockIter

theorem seekScanReads_lt (target : Key) (fuel : Nat) (it : BlockIter) (offset : Nat) :
    ∀ i ∈ seekScanReads target fuel it offset, i < it.block.restartsOffset := by
  induction fuel generalizing it offset with
  | zero => exact fun _ h => (List.not_mem_nil h).elim
  | succ fuel ih =>
    unfold seekScanReads
    simp only
    split
    · intro i hi
      rcases List.mem_append.mp hi with hi | hi
      · exact it.block.parseReads_lt offset i hi
      · split at hi
        · exact (List.not_mem_nil hi).elim
        · split at hi
          · exact (List.not_mem_nil hi).elim
          · have hlt := ih (it.parseEntryAt offset) _ i hi
            rwa [parseEntryAt_block] at hlt
    · exact fun _ h => (List.not_mem_nil h).elim

theorem scanToReads_lt (bound fuel : Nat) (it : BlockIter) (offset : Nat) :
    ∀ i ∈ scanToReads bound fuel it offset, i < it.block.restartsOffset := by
  induction fuel generalizing it offset with
  | zero => exact fun _ h => (List.not_mem_nil h).elim
  | succ fuel ih =>
    unfold scanToReads
    simp only
    intro i hi
    rcases List.mem_append.mp hi with hi | hi
    · exact it.block.parseReads_lt offset i hi
    · split at hi
      · exact (List.not_mem_nil hi).elim
      · have hlt := ih (it.parseEntryAt offset) _ i hi
        rwa [parseEntryAt_block] at hlt

end BlockIter

section Inside

variable {data : Bytes} {it : BlockIter}

theorem restartReads_inside (h : data.length < 2 ^ 32) {index : Nat}
    (hindex : index < (Block.new data).numRestarts ∨ index = 0)
    (hentries : (Block.new data).numRestarts ≠ 0 ∨ 0 < (Block.new data).restartsOffset) :
    ∀ i ∈ (Block.new data).restartReads index, i < data.length := by
  intro i hi
  simp only [Block.restartReads, List.mem_range'_1] at hi
  rcases Block.new_bounds h with ⟨hoffset, hcount⟩ | hfill
  · omega
  · omega

theorem restartsOffset_le (h : data.length < 2 ^ 32) :
    (Block.new data).restartsOffset ≤ data.length := by
  rcases Block.new_bounds h with ⟨hoffset, _⟩ | hfill
  · omega
  · omega

theorem probeReads_inside_iff (h : data.length < 2 ^ 32) (target : Key) {index : Nat}
    (hindex : index < (Block.new data).numRestarts) :
    (∀ i ∈ (Block.new data).probeReads target index, i < data.length) ↔
      (Block.new data).restartOffset index + 4 +
        min ((Block.new data).restartKeyLength index) target.length ≤ data.length := by
  have hrestart := restartReads_inside h (Or.inl hindex) (Or.inl (by omega))
  simp only [Block.probeReads, List.mem_append, List.mem_range'_1]
  generalize (Block.new data).restartOffset index = offset
  generalize min ((Block.new data).restartKeyLength index) target.length = compared
  constructor
  · intro hinside
    have hlength := hinside (offset + 3) (Or.inr (Or.inl (by omega)))
    rcases Nat.eq_zero_or_pos compared with hzero | hpos
    · omega
    · have hlast := hinside (offset + 4 + compared - 1) (Or.inr (Or.inr (by omega)))
      omega
  · rintro hfit i (hi | hi | hi)
    · exact hrestart i hi
    · omega
    · omega

theorem seek_reads_inside_iff (h : data.length < 2 ^ 32) (hblock : it.block = Block.new data)
    (target : Key) : (∀ i ∈ it.reads (.seek target), i < data.length) ↔
      (Block.new data).ProbesInside target := by
  have hscan := restartsOffset_le h
  simp only [BlockIter.reads, hblock]
  by_cases hnone : (Block.new data).numRestarts = 0
  · simp [hnone, Block.ProbesInside, Block.probed, Search.probes]
  have hprobed : ∀ index ∈ (Block.new data).probed target, index < (Block.new data).numRestarts :=
    Search.probes_lt _ 0 _ (le_refl 0) (by omega)
  simp only [if_neg hnone, List.mem_append, List.mem_flatMap]
  constructor
  · intro hinside index hindex
    rw [Block.new_data, ← probeReads_inside_iff h target (hprobed index hindex)]
    exact fun i hi => hinside i (Or.inl ⟨index, hindex, hi⟩)
  · rintro hprobes i (⟨index, hindex, hi⟩ | hi | hi)
    · have hfit := hprobes index hindex
      rw [Block.new_data] at hfit
      exact (probeReads_inside_iff h target (hprobed index hindex)).mpr hfit i hi
    · have hfound := Search.searchLast_whole (fun index => decide (it.restartKey index < target))
        (Nat.pos_of_ne_zero hnone)
      exact restartReads_inside h (Or.inl hfound.1) (Or.inl hnone) i hi
    · have hlt := BlockIter.seekScanReads_lt target _ it _ i hi
      rw [hblock] at hlt
      omega

theorem reads_inside (h : data.length < 2 ^ 32) (hblock : it.block = Block.new data)
    {move : Move Key} (hvalid : move.relative = true → it.valid = true)
    (hmove : ∀ target, move ≠ .seek target) : ∀ i ∈ it.reads move, i < data.length := by
  have hscan := restartsOffset_le h
  intro i hi
  cases move with
  | first =>
    simp only [BlockIter.reads] at hi
    split at hi
    · exact (List.not_mem_nil hi).elim
    · have hlt := it.block.parseReads_lt 0 i hi
      rw [hblock] at hlt
      omega
  | last =>
    simp only [BlockIter.reads] at hi
    split at hi
    · exact (List.not_mem_nil hi).elim
    · rename_i hsome
      rw [hblock] at hsome
      rcases List.mem_append.mp hi with hi | hi
      · rw [hblock] at hi
        exact restartReads_inside h (Or.inl (by omega)) (Or.inl hsome) i hi
      · have hlt := BlockIter.scanToReads_lt _ _ it _ i hi
        rw [hblock] at hlt
        omega
  | seek target => exact absurd rfl (hmove target)
  | next =>
    have hlt := it.block.parseReads_lt it.nextOffset i hi
    rw [hblock] at hlt
    omega
  | prev =>
    have hpos : 0 < (Block.new data).restartsOffset := by
      have hat := hvalid rfl
      simp only [BlockIter.valid, hblock, decide_eq_true_eq] at hat
      omega
    simp only [BlockIter.reads, hblock, List.mem_append, List.mem_flatMap] at hi
    rcases hi with ⟨index, hindex, hi⟩ | hi | hi
    · have hlt : index < (Block.new data).numRestarts :=
        Search.probes_lt _ 0 _ (le_refl 0) (by omega) index hindex
      exact restartReads_inside h (Or.inl hlt) (Or.inr hpos) i hi
    · refine restartReads_inside h ?_ (Or.inr hpos) i hi
      rcases Nat.eq_zero_or_pos (Block.new data).numRestarts with hzero | hsome
      · right
        rw [BlockIter.restartBefore, hblock, hzero]
        rfl
      · left
        rw [BlockIter.restartBefore, hblock]
        exact (Search.searchLast_whole _ hsome).1
    · split at hi
      · exact (List.not_mem_nil hi).elim
      · have hlt := BlockIter.scanToReads_lt _ _ it _ i hi
        rw [hblock] at hlt
        omega

end Inside

theorem BlockIter.mem_of_mem_calls {moves : List (Move Key)} {it : BlockIter}
    {call : BlockIter × Move Key} (h : call ∈ BlockIter.calls moves it) : call.2 ∈ moves := by
  induction moves generalizing it with
  | nil => cases h
  | cons move rest ih =>
    rw [BlockIter.calls] at h
    split at h
    · cases h
    · rcases List.mem_cons.mp h with rfl | h
      · exact List.mem_cons_self
      · split at h
        · exact List.mem_cons_of_mem _ (ih h)
        · cases h

/-- Whatever bytes the block has and however its iterator is moved, the reads stay
inside the block exactly if no search among the moves looks at a restart point that
leads outside. -/
theorem blockReadsInside_iff (data : Bytes) (moves : List (Move Key))
    (hsize : data.length ≤ kMaxBlockSize) :
    BlockReadsInside data moves ↔ SearchesInside data moves := by
  have hsmall : data.length < 2 ^ 32 := lt_of_le_of_lt hsize (by decide)
  constructor
  · intro h it target hcall
    have hblock : it.block = Block.new data := BlockIter.calls_block hcall
    exact (seek_reads_inside_iff hsmall hblock target).mp (h (it, .seek target) hcall)
  · intro h call hcall
    have hblock : call.1.block = Block.new data := BlockIter.calls_block hcall
    obtain ⟨it, move⟩ := call
    by_cases hseek : ∃ target, move = .seek target
    · obtain ⟨target, rfl⟩ := hseek
      exact (seek_reads_inside_iff hsmall hblock target).mpr (h it target hcall)
    · exact reads_inside hsmall hblock (BlockIter.calls_valid hcall)
        fun target heq => hseek ⟨target, heq⟩

/-- Five entries of 19 bytes each, with a restart point at every other one. -/
def steppedBlock : Bytes :=
  (([97, 98, 99, 100, 101] : List UInt8).foldl (fun b k => b.add ⟨[k], 1, kTypeValue, [49]⟩)
    (BlockBuilder.new 2)).finish

/-- Searches at an entry, behind the last one and in front of the first one, and moves to
both sides. -/
theorem blockReadsInside_steppedBlock :
    BlockReadsInside steppedBlock
      [.seek [99], .next, .prev, .last, .prev, .seek [120], .seek [], .next] :=
  (blockReadsInside_iff steppedBlock _ (by decide)).mpr (by
    intro it target hcall
    have hmove := BlockIter.mem_of_mem_calls hcall
    simp only [List.mem_cons, Move.seek.injEq, reduceCtorEq, List.not_mem_nil, or_false,
      false_or] at hmove
    rcases hmove with rfl | rfl | rfl
    · unfold Block.ProbesInside
      decide +kernel
    · unfold Block.ProbesInside
      decide +kernel
    · unfold Block.ProbesInside
      decide +kernel)

def strayBlock : Bytes := encodeFixed32 (2 ^ 32 - 1) ++ encodeFixed32 1

theorem search_reads_outside :
    ¬ ∀ (data : Bytes) (moves : List (Move Key)), data.length ≤ kMaxBlockSize →
      BlockReadsInside data moves := by
  intro h
  have hinside := h strayBlock [.seek []] (by decide) _ (List.mem_singleton_self _)
  exact absurd (hinside (2 ^ 32 - 1) (by decide +kernel)) (by decide)

end Strata

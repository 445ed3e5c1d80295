import Strata.BlockBounds

/-! Which operations of a block's iterator come to an end. `SeekToLast` and `Prev` go on
from the position behind the entry they parsed last, and an entry that does not parse
leaves that position as it was, so they can go round for ever; the loop of `Seek` stops
at such an entry. The rounds of the loops are counted here, and an operation ends if some
number of rounds is enough for it. -/
namespace Strata

open Library Cursor

namespace Block

def entryAt (block : Block) (offset : Nat) : Option (Entry × Nat) :=
  let klen := decodeFixed32 (block.data.drop offset)
  let vlen := decodeFixed32 (block.data.drop (offset + 4 + klen + 9))
  if offset + 17 + klen + vlen ≤ block.restartsOffset then
    some (⟨(block.data.drop (offset + 4)).take klen,
      decodeFixed64 (block.data.drop (offset + 4 + klen)),
      (block.data.drop (offset + 4 + klen + 8)).headD 0,
      (block.data.drop (offset + 4 + klen + 13)).take vlen⟩, offset + 17 + klen + vlen)
  else none

inductive Reaches (block : Block) (bound : Nat) : Nat → Prop
  | last {offset next : Nat} {e : Entry} (hentry : block.entryAt offset = some (e, next))
      (hbound : bound ≤ next) : Reaches block bound offset
  | step {offset next : Nat} {e : Entry} (hentry : block.entryAt offset = some (e, next))
      (hrest : Reaches block bound next) : Reaches block bound offset

def lastRestart (block : Block) : Int := Int.bmod block.numRestarts (2 ^ 32) - 1

end Block

namespace BlockIter

/-- Whether the key at a restart point is below the target. Where the key does not lie
inside the block the comparison reads whatever is there. -/
def restartBelow (it : BlockIter) (stray : Nat → Bool) (target : Key) (index : Nat) : Bool :=
  if it.block.restartOffset index + 4 + min (it.block.restartKeyLength index) target.length ≤
      it.block.data.length then it.restartKey index < target
  else stray index

def seekRounds (target : Key) : Nat → BlockIter → Nat → Option BlockIter
  | 0, _, _ => none
  | rounds + 1, it, offset =>
    if offset < it.block.restartsOffset then
      let it := it.parseEntryAt offset
      if !it.valid then some it.invalidate
      else if target ≤ it.entry.userKey then some it
      else seekRounds target rounds it it.nextOffset
    else some it.invalidate

def scanRounds (bound : Nat) : Nat → BlockIter → Nat → Option BlockIter
  | 0, _, _ => none
  | rounds + 1, it, offset =>
    let it := it.parseEntryAt offset
    if it.nextOffset ≥ bound then some it else scanRounds bound rounds it it.nextOffset

/-- An operation with the rounds of each of its loops bounded: nothing where they are
not enough. -/
def perform (stray : Nat → Bool) (rounds : Nat) (it : BlockIter) : Move Key → Option BlockIter
  | .first => some it.seekToFirst
  | .last =>
    if it.block.numRestarts = 0 then some it.invalidate
    else
      scanRounds it.block.restartsOffset rounds it
        (it.getRestartOffset (it.block.numRestarts - 1))
  | .seek target =>
    if it.block.numRestarts = 0 then some it.invalidate
    else do
      let restart ← Search.searchLastWithin (it.restartBelow stray target) rounds 0
        it.block.lastRestart 0
      seekRounds target rounds it (it.getRestartOffset restart)
  | .next => some it.next
  | .prev => do
    let restart ← Search.searchLastWithin (fun index => it.getRestartOffset index < it.current)
      rounds 0 it.block.lastRestart 0
    let offset := it.getRestartOffset restart
    if offset ≥ it.current then some it.invalidate
    else scanRounds it.current rounds it offset

def Step (it : BlockIter) (label : Option (Move Key)) (it' : BlockIter) : Prop :=
  ∃ move stray rounds, label = some move ∧ (move.relative = true → it.valid = true) ∧
    it.perform stray rounds move = some it'

def OnEntry (it : BlockIter) : Prop := it.block.entryAt it.current = some (it.entry, it.nextOffset)

def Terminates (it : BlockIter) (move : Move Key) : Prop :=
  ∀ stray, ∃ rounds it', it.perform stray rounds move = some it' ∧
    (it'.valid = false ∨ it'.OnEntry)

/-- The entries that the operation goes through follow each other without a gap.
`SeekToLast` may also go on from where the iterator was before, and `Prev` stops there. -/
def Unbroken (it : BlockIter) : Move Key → Prop
  | .last =>
    let offset := it.getRestartOffset (it.block.numRestarts - 1)
    it.block.numRestarts = 0 ∨ it.block.Reaches it.block.restartsOffset offset ∨
      it.block.entryAt offset = none ∧ (it.block.restartsOffset ≤ it.nextOffset ∨
        it.block.Reaches it.block.restartsOffset it.nextOffset)
  | .prev =>
    let offset := it.getRestartOffset (Search.searchLast
      (fun index => it.getRestartOffset index < it.current) it.block.numRestarts 0
      it.block.lastRestart 0)
    it.current ≤ offset ∨ it.block.entryAt offset = none ∨ it.block.Reaches it.current offset
  | _ => True

/-! What parsing an entry does. -/

variable {it it' : BlockIter} {offset next bound : Nat} {e : Entry}

theorem entryAt_le {block : Block} (h : block.entryAt offset = some (e, next)) :
    offset + 17 ≤ next ∧ next ≤ block.restartsOffset := by
  unfold Block.entryAt at h
  simp only at h
  split at h
  · rename_i hfits
    cases h
    omega
  · cases h

theorem parseEntryAt_some (h : it.block.entryAt offset = some (e, next)) :
    it.parseEntryAt offset = { it with current := offset, nextOffset := next, entry := e } := by
  unfold Block.entryAt at h
  simp only at h
  split at h
  · rename_i hfits
    cases h
    unfold BlockIter.parseEntryAt
    simp only
    rw [if_neg (by omega), if_neg (by omega), if_neg (by omega), if_neg (by omega)]
  · cases h

theorem parseEntryAt_none (h : it.block.entryAt offset = none) :
    (it.parseEntryAt offset).valid = false ∧
      (it.parseEntryAt offset).nextOffset = it.nextOffset := by
  have hfits : ¬ offset + 17 + decodeFixed32 (it.block.data.drop offset) + decodeFixed32
      (it.block.data.drop (offset + 4 + decodeFixed32 (it.block.data.drop offset) + 9)) ≤
        it.block.restartsOffset := by
    intro hfits
    simp only [Block.entryAt, if_pos hfits, reduceCtorEq] at h
  unfold BlockIter.parseEntryAt
  simp only
  split
  · simp [BlockIter.valid, invalidate]
  split
  · simp [BlockIter.valid, invalidate]
  split
  · simp [BlockIter.valid, invalidate]
  split
  · simp [BlockIter.valid, invalidate]
  · omega

theorem parseEntryAt_onEntry (it : BlockIter) (offset : Nat) :
    (it.parseEntryAt offset).valid = false ∨ (it.parseEntryAt offset).OnEntry := by
  cases h : it.block.entryAt offset with
  | none => exact Or.inl (parseEntryAt_none h).1
  | some found =>
    right
    rw [parseEntryAt_some h]
    exact h

theorem invalidate_valid (it : BlockIter) : it.invalidate.valid = false := by
  simp [BlockIter.valid, invalidate]

/-! The loop over the entries. -/

theorem Reaches.entry {block : Block} (h : block.Reaches bound offset) :
    block.entryAt offset ≠ none := by
  cases h with
  | last hentry _ => simp [hentry]
  | step hentry _ => simp [hentry]

theorem scanRounds_of_reaches (h : it.block.Reaches bound offset) :
    ∃ rounds it', scanRounds bound rounds it offset = some it' := by
  generalize hblock : it.block = block at h
  induction h generalizing it with
  | @last offset next e hentry hbound =>
    rw [← hblock] at hentry
    exact ⟨1, _, by rw [scanRounds, parseEntryAt_some hentry]; exact if_pos hbound⟩
  | @step offset next e hentry _ ih =>
    rw [← hblock] at hentry
    have hsame : (it.parseEntryAt offset).block = block := by simpa using hblock
    obtain ⟨rounds, it', hrounds⟩ := ih hsame
    rw [parseEntryAt_some hentry] at hrounds
    by_cases hbound : bound ≤ next
    · exact ⟨1, _, by rw [scanRounds, parseEntryAt_some hentry]; exact if_pos hbound⟩
    · exact ⟨rounds + 1, it', by
        rw [scanRounds, parseEntryAt_some hentry]; exact (if_neg hbound).trans hrounds⟩

/-- The loop ends if the entries lead to the bound, or if there is none to begin with and
the position from before leads there. -/
theorem scanRounds_iff : (∃ rounds it', scanRounds bound rounds it offset = some it') ↔
    it.block.Reaches bound offset ∨ it.block.entryAt offset = none ∧
      (bound ≤ it.nextOffset ∨ it.block.Reaches bound it.nextOffset) := by
  constructor
  · rintro ⟨rounds, it', h⟩
    induction rounds generalizing it offset with
    | zero => cases h
    | succ rounds ih =>
      unfold scanRounds at h
      simp only at h
      cases hentry : it.block.entryAt offset with
      | some found =>
        rw [parseEntryAt_some hentry] at h
        split at h
        · rename_i hbound
          exact Or.inl (.last hentry hbound)
        · rename_i hbound
          rcases ih h with hrest | ⟨hnone, hstop | hrest⟩
          · exact Or.inl (.step hentry hrest)
          · exact absurd hstop hbound
          · exact absurd hnone (Reaches.entry hrest)
      | none =>
        have hparse := parseEntryAt_none hentry
        rw [hparse.2] at h
        right
        apply And.intro rfl
        split at h
        · rename_i hbound
          exact Or.inl hbound
        · rename_i hbound
          -- the second time round the position is the one the loop stands at
          rcases ih h with hrest | ⟨hnone, hstop | hrest⟩
          · right
            simpa using hrest
          · rw [hparse.2] at hstop
            exact absurd hstop hbound
          · rw [hparse.2] at hrest
            exact absurd hnone (Reaches.entry hrest)
  · rintro (hreaches | ⟨hnone, hbound | hreaches⟩)
    · exact scanRounds_of_reaches hreaches
    · refine ⟨1, it.parseEntryAt offset, ?_⟩
      rw [scanRounds]
      exact if_pos (by rw [(parseEntryAt_none hnone).2]; exact hbound)
    · have hparse := parseEntryAt_none hnone
      by_cases hbound : bound ≤ it.nextOffset
      · refine ⟨1, it.parseEntryAt offset, ?_⟩
        rw [scanRounds]
        exact if_pos (by rw [hparse.2]; exact hbound)
      · have hagain : (it.parseEntryAt offset).block.Reaches bound it.nextOffset := by
          simpa using hreaches
        obtain ⟨rounds, it', hrounds⟩ := scanRounds_of_reaches hagain
        refine ⟨rounds + 1, it', ?_⟩
        rw [scanRounds, hparse.2]
        exact (if_neg hbound).trans hrounds

theorem scanRounds_onEntry {rounds : Nat} (h : scanRounds bound rounds it offset = some it') :
    it'.block = it.block ∧ (it'.valid = false ∨ it'.OnEntry) := by
  induction rounds generalizing it offset with
  | zero => cases h
  | succ rounds ih =>
    unfold scanRounds at h
    simp only at h
    split at h
    · cases h
      exact ⟨parseEntryAt_block .., parseEntryAt_onEntry ..⟩
    · have hrest := ih h
      rwa [parseEntryAt_block] at hrest

theorem seekRounds_onEntry {target : Key} {rounds : Nat}
    (h : seekRounds target rounds it offset = some it') :
    it'.block = it.block ∧ (it'.valid = false ∨ it'.OnEntry) := by
  induction rounds generalizing it offset with
  | zero => cases h
  | succ rounds ih =>
    unfold seekRounds at h
    simp only at h
    split at h
    · split at h
      · cases h
        exact ⟨parseEntryAt_block .., Or.inl (invalidate_valid _)⟩
      · split at h
        · cases h
          exact ⟨parseEntryAt_block .., parseEntryAt_onEntry ..⟩
        · have hrest := ih h
          rwa [parseEntryAt_block] at hrest
    · cases h
      exact ⟨rfl, Or.inl (invalidate_valid _)⟩

theorem seekRounds_ends (target : Key) (it : BlockIter) (offset : Nat) {rounds : Nat}
    (hpos : 0 < rounds) (h : it.block.restartsOffset < offset + rounds) :
    ∃ it', seekRounds target rounds it offset = some it' := by
  induction rounds generalizing it offset with
  | zero => omega
  | succ rounds ih =>
    unfold seekRounds
    simp only
    split
    · rename_i hin
      split
      · exact ⟨_, rfl⟩
      · rename_i hvalid
        split
        · exact ⟨_, rfl⟩
        · cases hentry : it.block.entryAt offset with
          | none => simp [(parseEntryAt_none hentry).1] at hvalid
          | some found =>
            have hle := entryAt_le hentry
            apply ih
            · omega
            · rw [parseEntryAt_block, parseEntryAt_some hentry]
              simp only
              omega
    · exact ⟨_, rfl⟩

/-! The operations. -/

theorem perform_onEntry {stray : Nat → Bool} {rounds : Nat} {move : Move Key}
    (h : it.perform stray rounds move = some it') :
    it'.block = it.block ∧ (it'.valid = false ∨ it'.OnEntry) := by
  cases move with
  | first =>
    simp only [perform, seekToFirst, Option.some.injEq] at h
    subst h
    split
    · exact ⟨rfl, Or.inl (invalidate_valid it)⟩
    · exact ⟨parseEntryAt_block .., parseEntryAt_onEntry ..⟩
  | last =>
    simp only [perform] at h
    split at h
    · cases h
      exact ⟨rfl, Or.inl (invalidate_valid it)⟩
    · exact scanRounds_onEntry h
  | seek target =>
    simp only [perform] at h
    split at h
    · cases h
      exact ⟨rfl, Or.inl (invalidate_valid it)⟩
    · obtain ⟨restart, _, hrounds⟩ := Option.bind_eq_some_iff.mp h
      exact seekRounds_onEntry hrounds
  | next =>
    simp only [perform, next, Option.some.injEq] at h
    subst h
    exact ⟨parseEntryAt_block .., parseEntryAt_onEntry ..⟩
  | prev =>
    obtain ⟨restart, _, hrounds⟩ := Option.bind_eq_some_iff.mp h
    simp only at hrounds
    split at hrounds
    · cases hrounds
      exact ⟨rfl, Or.inl (invalidate_valid it)⟩
    · exact scanRounds_onEntry hrounds

theorem Path.onEntry {data : Bytes} {labels : List (Option (Move Key))}
    (h : Path Step (Block.new data).newIterator labels it) :
    it.block = Block.new data ∧ (it.valid = true → it.OnEntry) := by
  apply h.keeps
  · rintro s label t ⟨hblock, _⟩ ⟨move, stray, rounds, _, _, hperform⟩
    have hend := perform_onEntry hperform
    apply And.intro (hend.1.trans hblock)
    intro hvalid
    exact hend.2.resolve_left (by simp [hvalid])
  · apply And.intro rfl
    intro hvalid
    simp [BlockIter.valid, Block.newIterator] at hvalid

theorem terminates_of_some {move : Move Key}
    (h : ∀ stray, ∃ rounds it', it.perform stray rounds move = some it') : it.Terminates move := by
  intro stray
  obtain ⟨rounds, it', hperform⟩ := h stray
  exact ⟨rounds, it', hperform, (perform_onEntry hperform).2⟩

theorem lastRestart_lt (block : Block) : block.lastRestart - 0 < block.numRestarts := by
  unfold Block.lastRestart Int.bmod
  simp only
  split
  · omega
  · omega

theorem searchLastWithin_lastRestart (below : Nat → Bool) (block : Block) {rounds : Nat}
    (h : block.numRestarts < rounds) :
    Search.searchLastWithin below rounds 0 block.lastRestart 0 =
      some (Search.searchLast below block.numRestarts 0 block.lastRestart 0) := by
  have hlast := lastRestart_lt block
  apply Search.searchLastWithin_eq
  · omega
  · omega
  · omega

theorem seek_terminates (it : BlockIter) (target : Key) : it.Terminates (.seek target) := by
  apply terminates_of_some
  intro stray
  simp only [perform]
  split
  · exact ⟨0, it.invalidate, rfl⟩
  · have hsearch := searchLastWithin_lastRestart (it.restartBelow stray target) it.block
      (Nat.lt_add_of_pos_right (Nat.succ_pos it.block.restartsOffset))
    generalize Search.searchLast (it.restartBelow stray target) it.block.numRestarts 0
      it.block.lastRestart 0 = restart at hsearch
    refine ⟨it.block.numRestarts + (it.block.restartsOffset + 1), ?_⟩
    rw [hsearch]
    exact seekRounds_ends target it _ (by omega) (by omega)

theorem scanRounds_mono {rounds more : Nat} (h : scanRounds bound rounds it offset = some it')
    (hmore : rounds ≤ more) : scanRounds bound more it offset = some it' := by
  induction rounds generalizing it offset more with
  | zero => cases h
  | succ rounds ih =>
    obtain ⟨more, rfl⟩ : ∃ less, more = less + 1 := Nat.exists_eq_succ_of_ne_zero (by omega)
    unfold scanRounds at h ⊢
    simp only at h ⊢
    split at h
    · rename_i hstop
      rw [if_pos hstop, h]
    · rename_i hgo
      rw [if_neg hgo]
      exact ih h (by omega)

theorem seekToLast_terminates_iff (it : BlockIter) : it.Terminates .last ↔ it.Unbroken .last := by
  simp only [Unbroken]
  by_cases hnone : it.block.numRestarts = 0
  · apply iff_of_true
    · apply terminates_of_some
      intro stray
      exact ⟨0, it.invalidate, if_pos hnone⟩
    · exact Or.inl hnone
  rw [← scanRounds_iff]
  constructor
  · intro h
    obtain ⟨rounds, it', hperform, _⟩ := h fun _ => true
    simp only [perform, if_neg hnone] at hperform
    exact Or.inr ⟨rounds, it', hperform⟩
  · intro h
    apply terminates_of_some
    intro stray
    simp only [perform, if_neg hnone]
    exact h.resolve_left hnone

theorem prev_terminates_iff (h : it.OnEntry) : it.Terminates .prev ↔ it.Unbroken .prev := by
  have hbehind := entryAt_le h
  have hscan (offset : Nat) : (it.block.entryAt offset = none ∨
      it.block.Reaches it.current offset) ↔
        ∃ rounds it', scanRounds it.current rounds it offset = some it' := by
    rw [scanRounds_iff, or_comm]
    apply or_congr Iff.rfl
    have hle : it.current ≤ it.nextOffset := by omega
    simp [hle]
  simp only [Unbroken]
  rw [hscan]
  generalize hrestart : Search.searchLast (fun index => decide (it.getRestartOffset index <
    it.current)) it.block.numRestarts 0 it.block.lastRestart 0 = restart
  constructor
  · intro hends
    obtain ⟨rounds, it', hperform, _⟩ := hends fun _ => true
    obtain ⟨found, hfound, hrounds⟩ := Option.bind_eq_some_iff.mp hperform
    rw [Search.searchLastWithin_some hfound (lastRestart_lt it.block), hrestart] at hrounds
    simp only at hrounds
    split at hrounds
    · rename_i hstop
      exact Or.inl hstop
    · exact Or.inr ⟨rounds, it', hrounds⟩
  · intro hends
    apply terminates_of_some
    intro stray
    simp only [perform]
    by_cases hstop : it.current ≤ it.getRestartOffset restart
    · refine ⟨it.block.numRestarts + 1, it.invalidate, ?_⟩
      rw [searchLastWithin_lastRestart _ _ (Nat.lt_succ_self _), hrestart]
      exact if_pos hstop
    · obtain ⟨rounds, it', hrounds⟩ := hends.resolve_left hstop
      refine ⟨it.block.numRestarts + 1 + rounds, it', ?_⟩
      rw [searchLastWithin_lastRestart _ _ (by omega), hrestart]
      exact (if_neg hstop).trans (scanRounds_mono hrounds (by omega))

end BlockIter

/-- Whatever bytes a block has and however its iterator came to where it is, an operation
ends at a well-formed entry or at none exactly if the entries it goes through have no
gap. Only `SeekToLast` and `Prev` need that. -/
theorem blockOperation_terminates_iff (data : Bytes) (labels : List (Option (Move Key)))
    (it : BlockIter) (hpath : Path BlockIter.Step (Block.new data).newIterator labels it)
    (move : Move Key) (hvalid : move.relative = true → it.valid = true) :
    it.Terminates move ↔ it.Unbroken move := by
  have hentry := (BlockIter.Path.onEntry hpath).2
  cases move with
  | first =>
    apply iff_of_true _ trivial
    exact BlockIter.terminates_of_some fun _ => ⟨0, it.seekToFirst, rfl⟩
  | last => exact it.seekToLast_terminates_iff
  | seek target =>
    apply iff_of_true _ trivial
    exact it.seek_terminates target
  | next =>
    apply iff_of_true _ trivial
    exact BlockIter.terminates_of_some fun _ => ⟨0, it.next, rfl⟩
  | prev => exact BlockIter.prev_terminates_iff (hentry (hvalid rfl))

theorem steppedBlock_terminates :
    ∃ it, Path BlockIter.Step (Block.new steppedBlock).newIterator
        [some (.seek [99]), some .next, some .next] it ∧
      it.entry.userKey = [101] ∧ it.Terminates .prev := by
  have hpath : Path BlockIter.Step (Block.new steppedBlock).newIterator
      [some (.seek [99]), some .next, some .next]
      ((Block.new steppedBlock).newIterator.seek [99]).next.next :=
    .go ⟨_, fun _ => false, 6, rfl, nofun, by decide +kernel⟩
      (.go ⟨_, fun _ => false, 0, rfl, fun _ => by decide +kernel, rfl⟩
        (.go ⟨_, fun _ => false, 0, rfl, fun _ => by decide +kernel, rfl⟩ (.stay _)))
  refine ⟨_, hpath, by decide +kernel, ?_⟩
  apply (blockOperation_terminates_iff steppedBlock _ _ hpath .prev fun _ => by decide +kernel).mpr
  right
  right
  exact @Block.Reaches.step _ _ _ 57 ⟨[99], 1, kTypeValue, [49]⟩ (by decide +kernel)
    (@Block.Reaches.last _ _ _ 76 ⟨[100], 1, kTypeValue, [49]⟩ (by decide +kernel)
      (by decide +kernel))

def gapBlock : Bytes := 0 :: (encodeFixed32 0 ++ encodeFixed32 1)

theorem seekToLast_loops :
    ¬ ∀ (data : Bytes) (labels : List (Option (Move Key))) (it : BlockIter),
      Path BlockIter.Step (Block.new data).newIterator labels it →
      ∀ move : Move Key, (move.relative = true → it.valid = true) → it.Terminates move := by
  intro h
  have hends := h gapBlock [] _ (.stay _) .last nofun
  rw [BlockIter.seekToLast_terminates_iff] at hends
  have hnone : (Block.new gapBlock).entryAt 0 = none := by decide
  have hreaches : ∀ bound, ¬ (Block.new gapBlock).Reaches bound 0 :=
    fun bound hreaches => BlockIter.Reaches.entry hreaches hnone
  have hrestart : (Block.new gapBlock).newIterator.getRestartOffset 0 = 0 := by decide
  rcases hends with hzero | hreach | ⟨_, hstop | hreach⟩
  · exact absurd hzero (by decide)
  · exact hreaches _ (hrestart ▸ hreach)
  · exact absurd hstop (by decide)
  · exact hreaches _ hreach

end Strata

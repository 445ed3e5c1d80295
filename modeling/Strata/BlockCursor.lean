import Strata.BlockLoops

/-! The iterator of a block that the builder made is a cursor over the entries that were
added: every operation ends, and along any sequence of them it shows the entry the cursor
stands at. -/
namespace Strata

open Library Cursor

def BlockBuilder.addAll (b : BlockBuilder) (es : List Entry) : BlockBuilder := es.foldl add b

namespace BlockBuilder.Holds

theorem addAll {b : BlockBuilder} {es : List Entry} (h : b.Holds es) (more : List Entry) :
    (b.addAll more).Holds (es ++ more) := by
  induction more generalizing b es with
  | nil => simpa [BlockBuilder.addAll] using h
  | cons e rest ih =>
    have hrest := ih (h.add e)
    rwa [List.append_assoc] at hrest

end BlockBuilder.Holds

namespace BlockIter

def stopsAt (target : Key) (e : Entry) : Bool := target ≤ e.userKey

def shown (it : BlockIter) : Option Entry := if it.valid then some it.entry else none

/-! Counted rounds lead to where the bounded loops lead. -/

variable {it it' : BlockIter} {data : Bytes} {es : List Entry} {bound offset rounds : Nat}

theorem scanRounds_of_scanTo {fuel : Nat}
    (h : bound ≤ (scanTo bound (fuel + 1) it offset).nextOffset) :
    scanRounds bound (fuel + 1) it offset = some (scanTo bound (fuel + 1) it offset) := by
  induction fuel generalizing it offset with
  | zero =>
    unfold scanTo at h ⊢
    unfold scanRounds
    simp only at h ⊢
    split
    · rfl
    · rename_i hgo
      rw [if_neg hgo, scanTo] at h
      exact absurd h hgo
  | succ fuel ih =>
    unfold scanTo at h ⊢
    unfold scanRounds
    simp only at h ⊢
    split
    · rfl
    · rename_i hgo
      rw [if_neg hgo] at h
      exact ih h

theorem scanRounds_eq {fuel : Nat} (hends : bound ≤ (scanTo bound (fuel + 1) it offset).nextOffset)
    (h : scanRounds bound rounds it offset = some it') :
    it' = scanTo bound (fuel + 1) it offset := by
  have hmost := scanRounds_mono h (Nat.le_max_left rounds (fuel + 1))
  rw [scanRounds_mono (scanRounds_of_scanTo hends) (Nat.le_max_right rounds (fuel + 1))] at hmost
  exact (Option.some.inj hmost).symm

theorem seekRounds_eq {target : Key} {fuel : Nat} (hpos : 0 < fuel)
    (hfuel : it.block.restartsOffset < offset + fuel)
    (h : seekRounds target rounds it offset = some it') : it' = seekScan target fuel it offset := by
  induction rounds generalizing it offset fuel with
  | zero => cases h
  | succ rounds ih =>
    obtain ⟨fuel, rfl⟩ : ∃ less, fuel = less + 1 := Nat.exists_eq_succ_of_ne_zero hpos.ne'
    unfold seekRounds at h
    unfold seekScan
    simp only at h ⊢
    split at h
    · rename_i hin
      rw [if_pos hin]
      split at h
      · rename_i hvalid
        rw [if_pos hvalid, Option.some.inj h]
      · rename_i hvalid
        rw [if_neg hvalid]
        split at h
        · rename_i hstop
          rw [if_pos hstop, Option.some.inj h]
        · rename_i hgo
          rw [if_neg hgo]
          cases hentry : it.block.entryAt offset with
          | none => simp [(parseEntryAt_none hentry).1] at hvalid
          | some found =>
            have hle := entryAt_le hentry
            have hnext : (it.parseEntryAt offset).nextOffset = found.2 := by
              rw [parseEntryAt_some hentry]
            apply ih _ _ h
            · omega
            · rw [parseEntryAt_block, hnext]
              omega
    · rename_i hout
      rw [if_neg hout, Option.some.inj h]

/-! The operations on a block that was built. -/

theorem lastRestart_eq (h : IsBlock data es) :
    (Block.new data).lastRestart = (Block.new data).numRestarts - 1 := by
  have hcount : (Block.new data).numRestarts < 2 ^ 31 := by
    have hsmall := h.small
    rcases Block.new_bounds hsmall with ⟨_, hzero⟩ | hfill
    · omega
    · omega
  unfold Block.lastRestart Int.bmod
  simp only
  split
  · omega
  · omega

theorem restartKeyLength_image {marks : List Nat} {r m : Nat} {e : Entry}
    (hsmall : (blockImage es marks).length < 2 ^ 32) (hr : marks[r]? = some m)
    (he : es[m]? = some e) :
    (Block.new (blockImage es marks)).restartKeyLength r = e.userKey.length := by
  have hlen := length_encodeEntry e
  have hsize := length_blockImage es marks
  have hnext := offsetOf_succ he
  have hle := offsetOf_le es (m + 1)
  have hoffset : (Block.new (blockImage es marks)).restartOffset r = offsetOf es m :=
    getRestartOffset_image rfl hsmall hr
  rw [Block.restartKeyLength, hoffset, Block.new_data, blockImage, drop_offsetOf he, encodeEntry,
    List.append_assoc, decodeFixed32_of_lt (by omega)]

theorem restartBelow_eq (h : IsBlock data es) (hover : it.Over data) (hne : es ≠ [])
    (stray : Nat → Bool) (target : Key) {index : Nat}
    (hindex : index < (Block.new data).numRestarts) :
    it.restartBelow stray target index = decide (it.restartKey index < target) := by
  obtain ⟨marks, hmarks, rfl⟩ := h.image
  rw [Block.new_image h.small] at hindex
  have hr : marks[index]? = some marks[index] := List.getElem?_eq_getElem hindex
  have hpos := List.length_pos_of_ne_nil hne
  have hmark : marks[index] < es.length := by
    rcases hmarks.bounded _ (List.getElem_mem hindex) with hzero | hlt
    · omega
    · exact hlt
  have he := List.getElem?_eq_getElem hmark
  have hoffset : (Block.new (blockImage es marks)).restartOffset index = offsetOf es marks[index] :=
    getRestartOffset_image rfl h.small hr
  have hlen := length_encodeEntry es[marks[index]]
  have hsize := length_blockImage es marks
  have hnext := offsetOf_succ he
  have hle := offsetOf_le es (marks[index] + 1)
  unfold restartBelow
  rw [hover.block, hoffset, restartKeyLength_image h.small hr he, Block.new_data]
  exact if_pos (by omega)

variable {index : Nat}

theorem At.ends (hat : it.At data es index) (h : IsBlock data es) {move : Move Key}
    (hvalid : move.relative = true → it.valid = true) : it.ends move = true := by
  cases move with
  | first => rfl
  | last =>
    have hlimit : it.block.restartsOffset = offsetOf es es.length := by
      rw [hat.block, restartsOffset_eq h, offsetOf_length]
    have hbound : it.block.restartsOffset ≤ it.seekToLast.nextOffset := by
      by_cases hempty : es = []
      · simp [hlimit, hempty, offsetOf, encodeEntries]
      · have hpos := List.length_pos_of_ne_nil hempty
        have hlast := seekToLast_at it h hat.toOver hempty
        have hparsed := (hlast.parsed _ (List.getElem?_eq_getElem (by omega))).1
        rw [hparsed, hlimit, Nat.sub_add_cancel hpos]
    simp [BlockIter.ends, hbound]
  | seek target => rfl
  | next => rfl
  | prev =>
    have hlt := (hat.valid_iff h).mp (hvalid rfl)
    cases index with
    | zero => simp [BlockIter.ends, hat.current]
    | succ index =>
      have hparsed := ((hat.prev h).parsed _ (List.getElem?_eq_getElem (by omega))).1
      simp [BlockIter.ends, hparsed, hat.current]

theorem prev_eq (it : BlockIter) : it.prev =
    if it.getRestartOffset it.restartBefore ≥ it.current then it.invalidate
    else scanTo it.current (it.block.data.length + 1) it (it.getRestartOffset it.restartBefore) :=
  rfl

theorem ends_prev (hends : it.ends .prev = true)
    (hgo : ¬ it.current ≤ it.getRestartOffset it.restartBefore) :
    it.current ≤ (scanTo it.current (it.block.data.length + 1) it
      (it.getRestartOffset it.restartBefore)).nextOffset := by
  simp only [BlockIter.ends, Bool.or_eq_true, decide_eq_true_eq] at hends
  have hbound := hends.resolve_left hgo
  rwa [prev_eq, if_neg hgo] at hbound

theorem ends_last (hends : it.ends .last = true) (hsome : ¬ it.block.numRestarts = 0) :
    it.block.restartsOffset ≤ (scanTo it.block.restartsOffset (it.block.data.length + 1) it
      (it.getRestartOffset (it.block.numRestarts - 1))).nextOffset := by
  simp only [BlockIter.ends, Bool.or_eq_true, decide_eq_true_eq] at hends
  have hbound := hends.resolve_left hsome
  rwa [seekToLast, if_neg hsome] at hbound

theorem perform_eq_move {stray : Nat → Bool} {move : Move Key} (h : IsBlock data es)
    (hover : it.Over data) (hends : it.ends move = true)
    (hperform : it.perform stray rounds move = some it') : it' = it.move move := by
  have hlast : it.block.lastRestart = it.block.numRestarts - 1 := by
    rw [hover.block, lastRestart_eq h]
  have hfuel := lastRestart_lt it.block
  cases move with
  | first => exact (Option.some.inj hperform).symm
  | last =>
    simp only [perform, BlockIter.move, seekToLast] at hperform ⊢
    by_cases hnone : it.block.numRestarts = 0
    · rw [if_pos hnone] at hperform ⊢
      exact (Option.some.inj hperform).symm
    · rw [if_neg hnone] at hperform ⊢
      exact scanRounds_eq (ends_last hends hnone) hperform
  | seek target =>
    simp only [perform, BlockIter.move, seek] at hperform ⊢
    by_cases hnone : it.block.numRestarts = 0
    · rw [if_pos hnone] at hperform ⊢
      exact (Option.some.inj hperform).symm
    rw [if_neg hnone] at hperform ⊢
    obtain ⟨restart, hrestart, hrounds⟩ := Option.bind_eq_some_iff.mp hperform
    have hscan := seekRounds_eq (Nat.succ_pos it.block.data.length) (by
      have hle := restartsOffset_le h.small
      rw [hover.block, Block.new_data]
      omega) hrounds
    by_cases hempty : es = []
    · -- there is nothing in front of the restart points
      have hlimit : it.block.restartsOffset = 0 := by
        rw [hover.block, restartsOffset_eq h, hempty]
        rfl
      have hstop : ∀ offset, seekScan target (it.block.data.length + 1) it offset =
          it.invalidate := by
        intro offset
        rw [seekScan, if_neg (by omega)]
      rw [hscan, hstop, hstop]
    · rw [Search.searchLastWithin_some hrestart hfuel, hlast, Search.searchLast_congr
        (fun index hindex => restartBelow_eq h hover hempty stray target (hover.block ▸ hindex))
        _ 0 _ 0 (le_refl 0) (by omega)] at hscan
      exact hscan
  | next => exact (Option.some.inj hperform).symm
  | prev =>
    obtain ⟨restart, hrestart, hrounds⟩ := Option.bind_eq_some_iff.mp hperform
    have hbefore : restart = it.restartBefore := by
      rw [Search.searchLastWithin_some hrestart hfuel, hlast, restartBefore]
    rw [hbefore] at hrounds
    simp only at hrounds
    rw [BlockIter.move, prev_eq]
    split at hrounds
    · rename_i hstop
      rw [if_pos hstop]
      exact (Option.some.inj hrounds).symm
    · rename_i hgo
      rw [if_neg hgo]
      exact scanRounds_eq (ends_prev hends hgo) hrounds

theorem At.terminates (hat : it.At data es index) (h : IsBlock data es) {move : Move Key}
    (hentry : it.valid = true → it.OnEntry) (hvalid : move.relative = true → it.valid = true) :
    it.Terminates move := by
  have hends := hat.ends h hvalid
  have hlast : it.block.lastRestart = it.block.numRestarts - 1 := by
    rw [hat.block, lastRestart_eq h]
  cases move with
  | first => exact terminates_of_some fun _ => ⟨0, it.seekToFirst, rfl⟩
  | last =>
    rw [seekToLast_terminates_iff]
    by_cases hnone : it.block.numRestarts = 0
    · exact Or.inl hnone
    · exact Or.inr (scanRounds_iff.mp ⟨_, _, scanRounds_of_scanTo (ends_last hends hnone)⟩)
  | seek target => exact it.seek_terminates target
  | next => exact terminates_of_some fun _ => ⟨0, it.next, rfl⟩
  | prev =>
    rw [prev_terminates_iff (hentry (hvalid rfl))]
    simp only [Unbroken, hlast]
    by_cases hstop : it.current ≤ it.getRestartOffset it.restartBefore
    · exact Or.inl hstop
    · have hscan := scanRounds_iff.mp ⟨_, _, scanRounds_of_scanTo (ends_prev hends hstop)⟩
      exact Or.inr (hscan.symm.imp_left And.left)

/-! The cursor. -/

/-- The iterator stands where the cursor does, behind the entries if the cursor is
nowhere. -/
def Stands (it : BlockIter) (data : Bytes) (es : List Entry) (position : Option Nat) : Prop :=
  it.At data es (position.getD es.length) ∧ ∀ index, position = some index → index < es.length

variable {position : Option Nat}

theorem At.stands (hat : it.At data es index) : it.Stands data es (place es index) := by
  have hinside := hat.inside
  unfold place
  split
  · rename_i hlt
    exact ⟨hat, fun i hi => Option.some.inj hi ▸ hlt⟩
  · rename_i hout
    have heq : index = es.length := by omega
    exact ⟨heq ▸ hat, fun i hi => by cases hi⟩

theorem Stands.valid_iff (hs : it.Stands data es position) (h : IsBlock data es) :
    it.valid = true ↔ ∃ index, position = some index := by
  rw [hs.1.valid_iff h]
  cases position with
  | none => simp
  | some index => simpa using hs.2 index rfl

theorem Stands.shown (hs : it.Stands data es position) (h : IsBlock data es) :
    it.shown = itemAt es position ∧ it.status = .ok := by
  apply And.intro _ hs.1.status
  have hvalid := hs.valid_iff h
  unfold BlockIter.shown
  cases position with
  | none =>
    rw [if_neg (by simp [hvalid])]
    rfl
  | some index =>
    have hget := List.getElem?_eq_getElem (hs.2 index rfl)
    rw [if_pos (by simp [hvalid]), (hs.1.parsed _ hget).2]
    exact hget.symm

theorem Stands.move (hs : it.Stands data es position) (h : IsBlock data es)
    (hsorted : es.Pairwise fun a b => a.userKey ≤ b.userKey) {move : Move Key}
    (hvalid : move.relative = true → it.valid = true) :
    (it.move move).Stands data es (moved stopsAt es position move) := by
  have hover := hs.1.toOver
  cases move with
  | first => exact (seekToFirst_at it h hover).stands
  | last =>
    by_cases hempty : es = []
    · subst hempty
      exact (seekToLast_empty it h hover).stands
    · exact (seekToLast_at it h hover hempty).stands
  | seek target => exact (seek_at it target h hover hsorted).stands
  | next =>
    obtain ⟨index, rfl⟩ := (hs.valid_iff h).mp (hvalid rfl)
    exact (hs.1.next h (hs.2 index rfl)).stands
  | prev =>
    obtain ⟨index, rfl⟩ := (hs.valid_iff h).mp (hvalid rfl)
    have hlt := hs.2 index rfl
    cases index with
    | zero =>
      have hfirst := (hs.1.prev_first h).stands
      rwa [place, if_neg (lt_irrefl _)] at hfirst
    | succ index =>
      have hprev := (hs.1.prev h).stands
      rwa [place, if_pos (by omega)] at hprev

end BlockIter

/-- For every restart interval and all entries in the order of their keys, the block that
the builder makes has an iterator that is a cursor over the entries: every operation ends,
and along any sequence of them it shows what the cursor shows. -/
theorem built_block_is_cursor (interval : Nat) (hinterval : 1 ≤ interval) (es : List Entry)
    (hsorted : es.Pairwise fun a b => a.userKey ≤ b.userKey) (hseqs : ∀ e ∈ es, e.seq < 2 ^ 64)
    (hsize : ((BlockBuilder.new interval).addAll es).finish.length < 2 ^ 32)
    (labels : List (Option (Move Key))) (it : BlockIter)
    (hpath : Path BlockIter.Step
      (Block.new ((BlockBuilder.new interval).addAll es).finish).newIterator labels it) :
    it.shown = itemAt es (walked BlockIter.stopsAt es none labels) ∧ it.status = .ok ∧
      ∀ move : Move Key, (move.relative = true → it.valid = true) → it.Terminates move := by
  have hblock : IsBlock _ es := ((BlockBuilder.Holds.new hinterval).addAll es).finish hsize hseqs
  have hstart : (Block.new ((BlockBuilder.new interval).addAll es).finish).newIterator.Stands
      ((BlockBuilder.new interval).addAll es).finish es none :=
    ⟨BlockIter.invalidate_at (Block.newIterator_over _) hblock, nofun⟩
  have hstands := hpath.simulates
    (R := fun s position => s.Stands ((BlockBuilder.new interval).addAll es).finish es position)
    (by
      rintro s t position _ ⟨move, _, _, hlabel, _⟩
      cases hlabel)
    (by
      rintro s t position move hs ⟨_, stray, rounds, hlabel, hvalid, hperform⟩
      cases hlabel
      rw [BlockIter.perform_eq_move hblock hs.1.toOver (hs.1.ends hblock hvalid) hperform]
      exact hs.move hblock hsorted hvalid)
    hstart
  have hshown := hstands.shown hblock
  refine ⟨hshown.1, hshown.2, fun move hvalid => ?_⟩
  exact hstands.1.terminates hblock (BlockIter.Path.onEntry hpath).2 hvalid

def twinEntries : List Entry := [⟨[97], 2, kTypeValue, [50]⟩, ⟨[97], 1, kTypeValue, [49]⟩]

def twinBlock : Bytes := ((BlockBuilder.new 1).addAll twinEntries).finish

theorem built_block_is_cursor_twinEntries :
    (Block.new twinBlock).newIterator.seekToFirst.next.shown =
        itemAt twinEntries (walked BlockIter.stopsAt twinEntries none [some .first, some .next]) ∧
      (Block.new twinBlock).newIterator.seekToFirst.next.status = .ok ∧
      ∀ move : Move Key,
        (move.relative = true →
          (Block.new twinBlock).newIterator.seekToFirst.next.valid = true) →
        (Block.new twinBlock).newIterator.seekToFirst.next.Terminates move :=
  built_block_is_cursor 1 (le_refl 1) twinEntries (by decide) (by decide) (by decide)
    [some .first, some .next] _
    (.go ⟨.first, fun _ => true, 0, rfl, nofun, rfl⟩
      (.go ⟨.next, fun _ => true, 0, rfl, fun _ => by decide, rfl⟩ (.stay _)))

end Strata

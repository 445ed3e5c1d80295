import Strata.Disk

/-! A memtable becomes a table of Level 0: by the minor compaction of a running
store, and by the replay of a log. -/
namespace Strata

open Library System Layers Memtable VersionSet

variable {loose : Prop} {dir : Dir} {vs : VersionSet} {C : Dir → Prop} {r r' : Recovery}
  {v v' : Version} {f : FileMetaData} {es : List Entry}

/-- The file that `WriteLevel0Table` makes of these entries. -/
structure NewFile (vs : VersionSet) (es : List Entry) (dir : Dir) (f : FileMetaData) : Prop where
  sound : f.Sound
  entries : f.entries = es
  number : f.number = vs.nextFileNumber
  small : vs.nextFileNumber < 2 ^ 63
  size : f.fileSize < 2 ^ 64
  stored : f.Stored dir

theorem writeLevel0Table_steady (options : Options) (vs : VersionSet) {mem : Memtable}
    (hsorted : Sorted mem.entries) (hseqs : ∀ e ∈ mem.entries, e.seq < 2 ^ 64)
    (htypes : ∀ e ∈ mem.entries, e.HasType)
    (hcrash : ∀ left, OnlyTables vs.nextFileNumber dir left → C left) :
    Runs steady dir (writeLevel0Table options vs mem)
      (fun result after => ∃ f, result = (.ok f, { vs with nextFileNumber := vs.nextFileNumber + 1 }) ∧
        NewFile vs mem.entries after f ∧ OnlyTables vs.nextFileNumber dir after) C := by
  have hpart : ∀ bytes, OnlyTables vs.nextFileNumber dir
      (dir.insert (.table vs.nextFileNumber) bytes) := fun bytes =>
    (OnlyTables.refl _ dir).insert (le_refl _) bytes
  have htables := steady_tables options
  refine Runs.weaken (writeLevel0Table_ok steady_noFail options vs mem
    (hcrash _ (OnlyTables.refl _ dir)) fun bytes => hcrash _ (hpart bytes)) ?_ fun _ h => h
  rintro ⟨table, versions⟩ after ⟨hversions, rfl, hcreate, hwrote, faults, hfaults, htable⟩
  simp only at hversions htable
  rw [htables.readable faults hfaults] at htable
  cases hopen : openWritten options mem.entries none vs.nextFileNumber with
  | error status => exact (htables.opens _ _ _ hsorted hseqs hwrote hopen).elim
  | ok reader =>
    rw [hopen] at htable
    have hserves := htables.serves _ _ _ hsorted hseqs hwrote hopen
    obtain ⟨hsound, hentries⟩ := FileMetaData.sound_written options vs.nextFileNumber hserves htypes
    have hsmall := Tables.image_lt (fun offset data hcall => (steady_limited _ hcall).2) hwrote
    refine ⟨_, Prod.ext htable hversions, ⟨hsound, hentries, rfl, steady_limited _ hcreate,
      lt_trans hsmall (by decide), reader, rfl, ?_⟩, hpart _⟩
    simp only [writtenFile, lookup_insert_self]
    exact hopen

def flushEdit (f : FileMetaData) (logNumber : Nat) : VersionEdit :=
  { ({} : VersionEdit).addFile 0 f with logNumber := some logNumber }

theorem NewFile.loggable (h : NewFile vs es dir f) {logNumber : Nat} (hlog : logNumber < 2 ^ 63) :
    ({ vs with nextFileNumber := vs.nextFileNumber + 1 } : VersionSet).Loggable
      (flushEdit f logNumber) := by
  constructor
  · rfl
  · rfl
  · rfl
  · rintro n ⟨⟩
    exact hlog
  · intro file hfile
    cases hfile
  · intro item hitem
    rw [List.mem_singleton.mp hitem]
    refine ⟨Nat.succ_pos 6, ?_, h.size⟩
    change f.number < vs.nextFileNumber + 1
    rw [h.number]
    exact Nat.lt_succ_self _

def taken (vs : VersionSet) : VersionSet := { vs with nextFileNumber := vs.nextFileNumber + 1 }

def flushedVersion (vs : VersionSet) (f : FileMetaData) (logNumber : Nat) (dir : Dir) : Version :=
  (taken vs).installEdit ((taken vs).completeEdit (flushEdit f logNumber)) dir fun _ => none

theorem NewFile.adds (h : NewFile vs es dir f) (hsane : vs.current.Sane loose)
    (hnumbers : ∀ g ∈ vs.current.allFiles, g.number < vs.nextFileNumber) (logNumber : Nat)
    (left : Dir) :
    vs.current.Adds f (flushedVersion vs f logNumber left) := by
  apply installEdit_adds rfl rfl h.sound hsane
  rintro level g hg rfl
  have hlt := hnumbers g (Version.mem_allFiles.mpr ⟨level, hg⟩)
  rw [h.number] at hlt
  exact lt_irrefl _ hlt

section Flushed

variable {older newer : List (Nat × List Entry)} {number : Nat}
  (h : Holds loose dir r v (older ++ (number, es) :: newer)) (hsound : f.Sound)
  (hentries : ∀ e, e ∈ f.entries ↔ e ∈ es) (hfresh : r.maxFileNum ≤ f.number)
  (hadds : v.Adds f v')

include h hsound hentries hfresh hadds in
theorem Holds.adds_sane : v'.Sane loose := by
  have hstacked := h.stacked
  rw [List.map_append, List.map_cons] at hstacked
  apply hstacked.adds_sane hsound hentries _ hadds
  intro level g hg
  exact lt_of_lt_of_le (h.numbers g (Version.mem_allFiles.mpr ⟨level, hg⟩)) hfresh

variable (hstored : f.Stored dir) (hmax : f.number < r'.maxFileNum)
  (hseq : r.maxSeq ≤ r'.maxSeq) (hseqs : ∀ e ∈ es, e.seq ≤ r'.maxSeq)

include h hentries hfresh hadds hstored hmax hseq hseqs in
theorem Holds.files_flush : ∀ g ∈ v'.allFiles, g.Stored dir ∧ g.number < r'.maxFileNum ∧
    ∀ e ∈ g.entries, e.seq ≤ r'.maxSeq := by
  intro g hg
  obtain ⟨level, hg⟩ := Version.mem_allFiles.mp hg
  rcases (hadds.mem level g).mp hg with hg | ⟨_, rfl⟩
  · have hmem := Version.mem_allFiles.mpr ⟨level, hg⟩
    refine ⟨h.stored g hmem, ?_, fun e he => le_trans (h.seqs g hmem e he) hseq⟩
    exact lt_trans (lt_of_lt_of_le (h.numbers g hmem) hfresh) hmax
  · exact ⟨hstored, hmax, fun e he => hseqs e ((hentries e).mp he)⟩

include h hentries hfresh hadds hstored hmax hseq hseqs in
theorem Holds.flush (hgood : v'.Good loose)
    (hbefore : ∀ log ∈ older ++ [(number, es)], log.1 < r'.logNum)
    (hafter : ∀ log ∈ newer, r'.logNum ≤ log.1) (hstale : r'.logNum ≤ r'.maxFileNum) :
    Holds loose dir r' v' newer := by
  have hstacked := h.stacked
  rw [List.map_append, List.map_cons] at hstacked
  have hfiles := h.files_flush hentries hfresh hadds hstored hmax hseq hseqs
  have hsome : ∀ log ∈ newer, log ∈ older ++ (number, es) :: newer := fun log hlog => by simp [hlog]
  constructor
  · exact hstacked.flush hentries hadds hgood
  · exact fun g hg => (hfiles g hg).1
  · exact fun g hg => (hfiles g hg).2.1
  · exact fun g hg => (hfiles g hg).2.2
  · exact (List.pairwise_cons.mp (List.pairwise_append.mp h.ascending).2.1).2
  · exact fun log hlog => ⟨hafter log hlog, (h.listed log (hsome log hlog)).2⟩
  · intro n hn hfile
    have hlow : r.logNum ≤ n := by
      have hfirst := (h.listed (number, es) (by simp)).1
      have hlt := hbefore (number, es) (by simp)
      simp only at hfirst hlt
      omega
    obtain ⟨log, hlog, rfl⟩ := h.counted n hlow hfile
    rw [List.append_cons] at hlog
    rcases List.mem_append.mp hlog with hlog | hlog
    · exact absurd (hbefore log hlog) (not_lt.mpr hn)
    · exact ⟨log, hlog, rfl⟩
  · exact fun n hn _ => le_trans hstale hn
  · exact h.known

end Flushed

section Replayed

variable {newer : List (Nat × List Entry)} {number : Nat}

theorem Holds.copied (h : Holds loose dir r v ((number, es) :: newer))
    (hentries : ∀ e, e ∈ f.entries ↔ e ∈ es) (hfresh : r.maxFileNum ≤ f.number)
    (hadds : v.Adds f v') (hstored : f.Stored dir) (hmax : f.number < r'.maxFileNum)
    (hseq : r.maxSeq ≤ r'.maxSeq) (hseqs : ∀ e ∈ es, e.seq ≤ r'.maxSeq) (hgood : v'.Good True)
    (hlogNum : r'.logNum = number) : Holds True dir r' v' ((number, es) :: newer) := by
  have hall : Holds loose dir r v ([] ++ (number, es) :: newer) := h
  have hfiles := hall.files_flush hentries hfresh hadds hstored hmax hseq hseqs
  have hfirst := (h.listed (number, es) (by simp)).1
  have hcons := List.pairwise_cons.mp h.ascending
  have hleast : ∀ log ∈ (number, es) :: newer, number ≤ log.1 := by
    intro log hlog
    rcases List.mem_cons.mp hlog with rfl | hlog
    · exact le_refl _
    · exact le_of_lt (hcons.1 log hlog)
  constructor
  · exact (Stacked.copied h.stacked hentries hadds hgood).1
  · exact fun g hg => (hfiles g hg).1
  · exact fun g hg => (hfiles g hg).2.1
  · exact fun g hg => (hfiles g hg).2.2
  · exact h.ascending
  · exact fun log hlog => ⟨hlogNum ▸ hleast log hlog, (h.listed log hlog).2⟩
  · intro n hn hfile
    rw [hlogNum] at hn
    exact h.counted n (le_trans hfirst hn) hfile
  · intro n hn hfile
    obtain ⟨log, hlog, rfl⟩ := h.counted n (h.stale n (by omega) hfile) hfile
    rw [hlogNum]
    exact hleast log hlog
  · exact h.known

theorem Holds.unlink {looser : Prop} (h : Holds looser dir r v ((number, es) :: newer))
    (hstacked : Stacked loose (newer.map Prod.snd) v) :
    Holds loose (dir.erase (.log number)) r v newer := by
  have hcons := List.pairwise_cons.mp h.ascending
  have hother : ∀ name, name ≠ .log number →
      (dir.erase (.log number)).lookup name = dir.lookup name := fun name hne =>
    AList.lookup_erase_ne hne
  have hsome : ∀ n, ((dir.erase (.log number)).lookup (.log n)).isSome →
      n ≠ number ∧ (dir.lookup (.log n)).isSome := by
    intro n hfile
    by_cases hn : n = number
    · rw [hn, AList.lookup_erase] at hfile
      cases hfile
    · rw [hother _ (by simpa using hn)] at hfile
      exact ⟨hn, hfile⟩
  constructor
  · exact hstacked
  · exact fun f hf => (h.stored f hf).of_lookup (hother _ (by simp))
  · exact h.numbers
  · exact h.seqs
  · exact hcons.2
  · intro log hlog
    obtain ⟨hleast, hfile⟩ := h.listed log (by simp [hlog])
    have hlt := hcons.1 log hlog
    exact ⟨hleast, hfile.of_lookup (hother _ (by simp; omega))⟩
  · intro n hn hfile
    obtain ⟨hne, hfile⟩ := hsome n hfile
    obtain ⟨log, hlog, rfl⟩ := h.counted n hn hfile
    rcases List.mem_cons.mp hlog with rfl | hlog
    · exact absurd rfl hne
    · exact ⟨log, hlog, rfl⟩
  · exact fun n hn hfile => h.stale n hn (hsome n hfile).2
  · exact fun text => (hother _ (by simp)).trans (h.known text)

end Replayed

end Strata

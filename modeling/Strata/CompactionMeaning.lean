import Strata.ManifestOutcomes

/-! A compaction changes no answer: neither of a lookup nor of a scan. -/
namespace Strata

open Library System Layers Memtable

namespace Version

variable {v v' : Version} {dir dir' : Dir} {faults faults' : Faults} {loose : Prop} {seq : Nat}

/-- A full forward scan, with any number of turns from some bound on, shows this list. -/
def Scans (v : Version) (dir : Dir) (faults : Faults) (seq : Nat) (shown : List (Key × Bytes)) :
    Prop :=
  ∃ bound, ∀ fuel, bound ≤ fuel →
    (DBIterator.new (newMergingIterator (v.addIterators dir faults)) seq).scan fuel = shown

theorem addIterators_eq {files : List FileMetaData} {readers : List SSTableReader}
    (h : openInputs dir faults files = .ok readers) :
    files.filterMap (fun f => (f.openReader dir faults).toOption.map SSTableReader.newIterator) =
      readers.map SSTableReader.newIterator := by
  induction files generalizing readers with
  | nil =>
    obtain rfl := Except.ok.inj h
    rfl
  | cons f rest ih =>
    rw [openInputs] at h
    cases hopen : f.openReader dir faults with
    | error status => simp [hopen, bind, Except.bind] at h
    | ok r =>
      cases hrest : openInputs dir faults rest with
      | error status => simp [hopen, hrest, bind, Except.bind] at h
      | ok others =>
        simp only [hopen, hrest, bind, Except.bind, pure, Except.pure, Except.ok.injEq] at h
        rw [List.filterMap_cons, hopen, ih hrest, ← h]
        rfl

theorem Good.scans (h : v.Good loose) (dir : Dir) (faults : Faults)
    (hseq : ∀ e ∈ (sources v.allFiles).flatten, e.seq ≤ seq) :
    ∃ merged, KeysSorted merged ∧ (∀ key, find key merged = firstHit (sources v.allFiles) key) ∧
      v.Scans dir faults seq (view merged) := by
  have hsound : ∀ f ∈ v.allFiles, f.Sound := by
    intro f hf
    obtain ⟨level, hf⟩ := mem_allFiles.mp hf
    exact h.sound level f hf
  obtain ⟨pairs, hopen, hsources, hpasses⟩ := openInputs_passes fun f hf =>
    (hsound f hf).passes dir faults
  rw [← sources] at hsources
  have hiters : v.addIterators dir faults = (pairs.map Prod.fst).map SSTableReader.newIterator :=
    addIterators_eq hopen
  by_cases hne : pairs = []
  · subst hne
    refine ⟨[], List.Pairwise.nil, fun key => ?_, 0, fun fuel _ => ?_⟩
    · rw [← hsources]
      rfl
    · rw [hiters]
      cases fuel <;> rfl
  · obtain ⟨iter, merged, hiter, hyields, hperm, hsorted⟩ := merge_readers hpasses hne
    rw [hsources] at hperm
    refine ⟨merged, keysSorted_of_sorted hsorted, fun key => ?_, merged.length + 1,
      fun fuel hfuel => ?_⟩
    · exact find_merged h.ordered h.distinct_entries (topFirst_of_sorted hsorted)
        (fun e => hperm.mem_iff) key
    · rw [hiters, hiter]
      refine DBIterator.scan_view hyields (keysSorted_of_sorted hsorted)
        (fun e he => hseq e (hperm.mem_iff.mp he)) (fun e he => ?_) (by omega)
      obtain ⟨level, f, hf, hef⟩ := Sane.mem_entries.mp (hperm.mem_iff.mp he)
      exact (h.sound level f hf).types e hef

/-- Two versions, each with its directory, that answer every lookup and every
full scan at this sequence number alike. -/
structure SameMeaning (seq : Nat) (v : Version) (dir : Dir) (faults : Faults) (v' : Version)
    (dir' : Dir) (faults' : Faults) : Prop where
  value : ∀ key value,
    v.get dir faults key seq = .found value ↔ v'.get dir' faults' key seq = .found value
  gone : ∀ key, (v.get dir faults key seq = .absent ∨ v.get dir faults key seq = .deleted) ↔
    (v'.get dir' faults' key seq = .absent ∨ v'.get dir' faults' key seq = .deleted)
  scan : ∃ shown, v.Scans dir faults seq shown ∧ v'.Scans dir' faults' seq shown

theorem firstHit_reduced (h : v.Good loose) (h' : v'.Good loose)
    (hreduces : Reduces (sources v.allFiles).flatten (sources v'.allFiles).flatten) (key : Key) :
    firstHit (sources v'.allFiles) key = firstHit (sources v.allFiles) key ∨
      (firstHit (sources v'.allFiles) key = none ∧
        ∃ e, firstHit (sources v.allFiles) key = some e ∧ e.type = kTypeDeletion) := by
  cases hhit : firstHit (sources v.allFiles) key with
  | none =>
    refine Or.inl (firstHit_none.mpr fun x hx => ?_)
    exact firstHit_none.mp hhit x (hreduces.subset x hx)
  | some e =>
    rcases hreduces.firstHit h'.ordered h.distinct_entries (firstHit_top h.ordered hhit) with
      hsame | ⟨hnone, hdead⟩
    · exact Or.inl hsame
    · exact Or.inr ⟨hnone, e, rfl, hdead⟩

theorem sameMeaning_of_reduces (h : v.Good loose) (h' : v'.Good loose)
    (hreduces : Reduces (sources v.allFiles).flatten (sources v'.allFiles).flatten)
    (hseq : ∀ e ∈ (sources v.allFiles).flatten, e.seq ≤ seq) :
    SameMeaning seq v dir faults v' dir' faults' := by
  have hseq' : ∀ e ∈ (sources v'.allFiles).flatten, e.seq ≤ seq := fun e he =>
    hseq e (hreduces.subset e he)
  have hvisible : ∀ {w : Version}, (∀ e ∈ (sources w.allFiles).flatten, e.seq ≤ seq) → ∀ key,
      Visible key seq w.allFiles := fun hw key f hf e he _ =>
    hw e (List.mem_flatten.mpr ⟨f.entries, List.mem_map_of_mem hf, he⟩)
  have hget : ∀ key, v.get dir faults key seq = lookupOf (firstHit (sources v.allFiles) key) :=
    fun key => get_sound h (hvisible hseq key)
  have hget' : ∀ key, v'.get dir' faults' key seq =
      lookupOf (firstHit (sources v'.allFiles) key) := fun key =>
    get_sound h' (hvisible hseq' key)
  have hdeleted : ∀ {e : Entry}, e.type = kTypeDeletion → lookupOf (some e) = .deleted := by
    intro e he
    rw [lookupOf, if_neg (by rw [he]; decide)]
  have hvalue : ∀ key value, lookupOf (firstHit (sources v.allFiles) key) = .found value ↔
      lookupOf (firstHit (sources v'.allFiles) key) = .found value := by
    intro key value
    rcases firstHit_reduced h h' hreduces key with hsame | ⟨hnone, e, he, hdead⟩
    · rw [hsame]
    · rw [hnone, he, hdeleted hdead]
      simp [lookupOf]
  constructor
  case value =>
    intro key value
    rw [hget, hget', hvalue]
  case gone =>
    intro key
    rw [hget, hget']
    rcases firstHit_reduced h h' hreduces key with hsame | ⟨hnone, e, he, hdead⟩
    · rw [hsame]
    · rw [hnone, he, hdeleted hdead]
      simp [lookupOf]
  case scan =>
    obtain ⟨merged, hkeys, hfind, hscans⟩ := h.scans dir faults hseq
    obtain ⟨merged', hkeys', hfind', hscans'⟩ := h'.scans dir' faults' hseq'
    have hview : view merged = view merged' := by
      refine view_congr hkeys hkeys' fun key value => ?_
      have hleft : merged.find? (fun x => x.userKey = key) = firstHit (sources v.allFiles) key :=
        hfind key
      have hright : merged'.find? (fun x => x.userKey = key) = firstHit (sources v'.allFiles) key :=
        hfind' key
      rw [hleft, hright, hvalue]
    exact ⟨view merged, hscans, hview ▸ hscans'⟩

end Version

/-! Logging an edit, whatever becomes of its calls. -/

section AnyOutcome

variable {dir : Dir}

theorem installOutputs_any (c : Compaction) (vs : VersionSet) (outputs : List FileMetaData) :
    Runs Assume.any dir (c.installOutputs vs outputs) (fun result _ => result.1 = .ok →
      ∃ dir faults, result.2.current =
        vs.installEdit (vs.completeEdit (c.edit outputs)) dir faults) fun _ => True := by
  have hlevels : ∀ item ∈ (c.edit outputs).newFiles, item.1 < kNumLevels := by
    intro item hitem
    rw [Compaction.newFiles_edit] at hitem
    obtain ⟨f, _, rfl⟩ := List.mem_map.mp hitem
    exact c.target.isLt
  unfold Compaction.installOutputs
  refine Runs.bind syncDirectory_any fun _ after _ => ?_
  refine Runs.bind (VersionSet.logAndApply_any vs hlevels) fun result last ⟨hinstalled, _⟩ => ?_
  obtain ⟨status, vs'⟩ := result
  simp only at hinstalled ⊢
  split
  · rename_i hbad
    exact Runs.ret fun hok => absurd hok (Status.isOk_eq_false.mp (by simpa using hbad))
  · rename_i hok
    have hstatus : status = .ok := by
      by_contra hne
      exact hok (by simp [Status.isOk_eq_false.mpr hne])
    obtain ⟨faults, hcurrent⟩ := hinstalled hstatus
    refine Runs.bind (unlinkTables_any _) fun _ _ _ => ?_
    refine Runs.bind syncDirectory_any fun _ _ _ => ?_
    exact Runs.ret fun _ => ⟨after, faults, hcurrent⟩

end AnyOutcome

def failsTable : Event FileName → Bool
  | ⟨.create (.table _), .fail _⟩ => true
  | ⟨.append (.table _) _ _, .fail _⟩ => true
  | ⟨.sync (.table _), .fail _⟩ => true
  | _ => false

def beyondOffset : Event FileName → Bool
  | ⟨.append _ offset data, .ok⟩ => 2 ^ 63 ≤ offset + data.length
  | _ => false

/-- A block that was written to a table and is longer than the reader takes. -/
def oversizedBlock : Event FileName → Bool
  | ⟨.append (.table _) _ block, .ok⟩ => kMaxBlockSize < block.length
  | _ => false

/-- The tables can be read and written, their blocks keep to the limit of the reader, and no
file outgrows its offsets. -/
def tablesWork : Assume FileName :=
  ⟨fun faults => ∀ number, faults (.table number) = none,
    fun e => failsTable e = false ∧ beyondOffset e = false ∧ oversizedBlock e = false, False⟩

theorem tablesWork_tables (options : Options) :
    Tables tablesWork options (fun e => e.seq < 2 ^ 64) True := by
  constructor
  · refine fun number => ⟨fun n h => ?_, fun offset data n h => ?_, fun n h => ?_⟩
    · exact Bool.noConfusion h.1
    · exact Bool.noConfusion h.1
    · exact Bool.noConfusion h.1
  · exact fun faults h => h
  · intro number es r hsorted hseqs hwrote hopen
    have hsmall : (layoutOf options es).image.length < 2 ^ 63 := by
      refine Tables.image_lt (fun offset data hcall => ?_) hwrote
      have hin := hcall.2.1
      simpa [beyondOffset] using hin
    obtain ⟨hindex, hfilter⟩ := Layout.openTable_limits (by omega) hopen
    have hblocks : ∀ b ∈ (layoutOf options es).blocks, b.1.length ≤ kMaxBlockSize := by
      intro b hb
      obtain ⟨offset, hcall⟩ := hwrote.blocks b hb
      have hin := hcall.2.2
      simpa [oversizedBlock] using hin
    have hvalid := layoutOf_valid hsorted hseqs hblocks hfilter hindex (by omega)
    rw [openWritten, Layout.openTable_image hvalid.opens] at hopen
    exact ⟨_, number, hvalid, (Except.ok.inj hopen).symm⟩
  · exact fun _ _ _ _ _ _ _ => trivial

theorem Layout.Valid.seq_lt {l : Layout} {es : List Entry} (h : l.Valid es) {e : Entry}
    (he : e ∈ es) : e.seq < 2 ^ 64 := by
  rw [h.entries, List.mem_flatten] at he
  obtain ⟨es, hes, he⟩ := he
  obtain ⟨b, hb, rfl⟩ := List.mem_map.mp hes
  exact (h.blocks b hb).1.seqs e he

theorem FileMetaData.Sound.seq_lt {f : FileMetaData} (h : f.Sound) {e : Entry}
    (he : e ∈ f.entries) : e.seq < 2 ^ 64 := by
  obtain ⟨r, _, l, number, hvalid, _⟩ := h.reader
  exact hvalid.seq_lt he

/-- What a compaction that returns OK leaves answers as before, if no call on a
table failed and every block that was written is within the limit of the reader. -/
theorem doCompaction_sameMeaning {loose : Prop} {options : Options} {vs vs' : VersionSet}
    {c : Compaction} {machine after : Machine FileName} {trace : List (Event FileName)} {seq : Nat}
    (hgood : vs.current.Good loose)
    (hnumbers : ∀ f ∈ vs.current.allFiles, f.number < vs.nextFileNumber)
    (hpick : Compaction.pickCompaction options vs.current = some c)
    (hseq : ∀ e ∈ (Version.sources vs.current.allFiles).flatten, e.seq ≤ seq)
    (hreads : ∀ number, machine.faults (.table number) = none)
    (hrun : doCompaction options vs c machine = .done (.ok, vs') after trace)
    (htables : ∀ e ∈ trace, failsTable e = false)
    (hoffsets : ∀ e ∈ trace, beyondOffset e = false)
    (hblocks : ∀ e ∈ trace, oversizedBlock e = false) :
    Version.SameMeaning seq vs.current machine.dir machine.faults vs'.current after.dir
      after.faults := by
  have hcovers := Compaction.pickCompaction_covers hpick
  have hallowed : ∀ f ∈ c.inputs, ∀ e ∈ f.entries, e.seq < 2 ^ 64 := by
    intro f hf e he
    obtain ⟨level, htakes⟩ := Compaction.takes_of_mem hf
    exact (hgood.sound level f (hcovers.mem_files htakes)).seq_lt he
  have hspec : Runs tablesWork machine.dir (doCompaction options vs c)
      (fun result _ => result.1 = .ok → result.2.current.Good loose ∧
        Reduces (Version.sources vs.current.allFiles).flatten
          (Version.sources result.2.current.allFiles).flatten) fun _ => True := by
    refine Compaction.doCompaction_runs (tablesWork_tables options) hcovers hgood.toSane hallowed
      (fun _ _ => trivial) (fun _ _ _ _ hbad hok => absurd hok hbad) ?_
    intro next merged outputs middle hfinished
    refine Runs.weaken (installOutputs_any c _ outputs).of_any ?_ fun _ h => h
    intro result last hinstalled hok
    obtain ⟨dir, faults, hcurrent⟩ := hinstalled hok
    have hreplaces := Compaction.installEdit_replaces { vs with nextFileNumber := next } hcovers
      hgood.toSane hnumbers hfinished.holds dir faults
    have hsane := hreplaces.sane hcovers hgood.toSane hnumbers hfinished.perm hfinished.sorted
      hfinished.holds
    have hreduces := hreplaces.reduces hcovers hgood.toSane hfinished.perm
      hfinished.sorted hfinished.holds [] (by simp)
    rw [hcurrent]
    exact ⟨VersionSet.installEdit_good hsane, hreduces⟩
  obtain ⟨_, hpost⟩ := hspec.done hreads hrun fun e he =>
    ⟨htables e he, hoffsets e he, hblocks e he⟩
  obtain ⟨hgood', hreduces⟩ := hpost rfl
  exact Version.sameMeaning_of_reduces hgood hgood' hreduces hseq

def sixTablesSet : VersionSet := storedSet eagerOptions sixTables 10 9

def sixTablesMachine : Machine FileName := ⟨storedDir eagerOptions sixTables, fun _ => none, []⟩

/-- Both tables of Level 0 go to level 1, and with them the one whose keys they have. -/
def sixTablesCompaction : Compaction :=
  ⟨0, sixTablesSet.current.files 0, (sixTablesSet.current.files 1).take 1⟩

set_option maxRecDepth 4000 in
/-- The older versions of two keys go. The tombstone of one key goes with them, that of
another stays as level 2 has the key. -/
theorem doCompaction_sameMeaning_sixTables :
    ∃ vs' after trace, doCompaction eagerOptions sixTablesSet sixTablesCompaction
        sixTablesMachine = .done (.ok, vs') after trace ∧
      (Version.sources (vs'.current.files 1)).flatten =
        [⟨[97], 9, kTypeValue, [57]⟩, ⟨[99], 6, kTypeDeletion, []⟩, ⟨[100], 2, kTypeValue, [50]⟩,
          ⟨[101], 5, kTypeValue, [53]⟩, ⟨[103], 1, kTypeValue, [49]⟩] ∧
      Version.SameMeaning 9 sixTablesSet.current sixTablesMachine.dir sixTablesMachine.faults
        vs'.current after.dir after.faults := by
  have hrun : (doCompaction eagerOptions sixTablesSet sixTablesCompaction
      sixTablesMachine).returns (fun result _ trace => decide (result.1 = .ok) &&
        decide ((Version.sources (result.2.current.files 1)).flatten =
          [⟨[97], 9, kTypeValue, [57]⟩, ⟨[99], 6, kTypeDeletion, []⟩, ⟨[100], 2, kTypeValue, [50]⟩,
            ⟨[101], 5, kTypeValue, [53]⟩, ⟨[103], 1, kTypeValue, [49]⟩]) &&
        trace.all fun e => !failsTable e && !beyondOffset e && !oversizedBlock e) = true := by
    decide +kernel
  obtain ⟨⟨status, vs'⟩, after, trace, hexit, htest⟩ := Exit.of_returns hrun
  simp only [Bool.and_eq_true, decide_eq_true_eq, List.all_eq_true, Bool.not_eq_true'] at htest
  obtain ⟨⟨rfl, hentries⟩, htrace⟩ := htest
  refine ⟨vs', after, trace, hexit, hentries, ?_⟩
  apply doCompaction_sameMeaning (Version.good_ofTables sixTables_fit sixTables_ordered)
    (storedSet_numbers (by decide) 9) (c := sixTablesCompaction) rfl ?_
    (fun _ => rfl) hexit (fun e he => (htrace e he).1.1) (fun e he => (htrace e he).1.2)
    fun e he => (htrace e he).2
  intro e he
  obtain ⟨t, ht, he⟩ := Version.mem_sources_ofTables sixTables_fit he
  have hseqs : ∀ t ∈ sixTables, ∀ e ∈ t.entries, e.seq ≤ 9 := by decide
  exact hseqs t ht e he

def oneEntry : Entry := ⟨[107], 1, kTypeValue, [118]⟩

def oneTable : List WrittenTable := [⟨0, 4, [oneEntry]⟩]

def oneFileOptions : Options := { maxLevel0Files := 1 }

def oneFileSet : VersionSet := storedSet oneFileOptions oneTable 5 1

def oneFileMachine (fate : List Outcome) : Machine FileName :=
  ⟨storedDir oneFileOptions oneTable, fun _ => none, fate⟩

def oneFileCompaction : Compaction := ⟨0, oneFileSet.current.files 0, []⟩

theorem oneTable_fits : ∀ t ∈ oneTable, t.Fits oneFileOptions := by decide +kernel

theorem oneFileSet_good : oneFileSet.current.Good False :=
  Version.good_ofTables oneTable_fits (List.pairwise_singleton _ _)

theorem oneFileSet_seqs : ∀ e ∈ (Version.sources oneFileSet.current.allFiles).flatten, e.seq ≤ 1 := by
  intro e he
  obtain ⟨t, ht, he⟩ := Version.mem_sources_ofTables oneTable_fits he
  have hseqs : ∀ t ∈ oneTable, ∀ e ∈ t.entries, e.seq ≤ 1 := by decide
  exact hseqs t ht e he

/-- Creating the output file fails. The builder then takes no entry, the file
counts as empty, and the compaction returns OK without the entry. -/
theorem failed_output_loses_entries :
    ¬ ∀ (options : Options) (vs vs' : VersionSet) (c : Compaction) (machine after : Machine FileName)
      (trace : List (Event FileName)) (seq : Nat), vs.current.Good False →
      (∀ f ∈ vs.current.allFiles, f.number < vs.nextFileNumber) →
      Compaction.pickCompaction options vs.current = some c →
      (∀ e ∈ (Version.sources vs.current.allFiles).flatten, e.seq ≤ seq) →
      (∀ number, machine.faults (.table number) = none) →
      doCompaction options vs c machine = .done (.ok, vs') after trace →
      Version.SameMeaning seq vs.current machine.dir machine.faults vs'.current after.dir
        after.faults := by
  intro h
  have hrun : (doCompaction oneFileOptions oneFileSet oneFileCompaction
      (oneFileMachine [.fail 0])).returns (fun result _ _ => decide (result.1 = .ok) &&
        result.2.current.allFiles.isEmpty) = true := by decide +kernel
  obtain ⟨⟨status, vs'⟩, after, trace, hexit, htest⟩ := Exit.of_returns hrun
  simp only [Bool.and_eq_true, decide_eq_true_eq, List.isEmpty_iff] at htest
  obtain ⟨rfl, hempty⟩ := htest
  have hsame := (h _ _ _ _ _ _ _ 1 oneFileSet_good (storedSet_numbers (by decide) 1) rfl
    oneFileSet_seqs (fun _ => rfl) hexit).value [107] [118]
  have hbefore : oneFileSet.current.get (oneFileMachine [.fail 0]).dir (fun _ => none) [107] 1 = .found [118] := by
    decide +kernel
  have hnone : vs'.current = .empty := by
    refine congrArg Version.mk (funext fun level => List.eq_nil_iff_forall_not_mem.mpr fun f hf => ?_)
    have hmem := Version.mem_allFiles.mpr ⟨level, hf⟩
    rw [hempty] at hmem
    cases hmem
  have hafter := hsame.mp hbefore
  rw [hnone] at hafter
  cases hafter

end Strata

import Mathlib.Data.DFinsupp.WellFounded
import Strata.CompactionMeaning
import Strata.StoreSteps

/-! Compactions come to an end. A round takes files away from its level, adds files only
to the next one and leaves the levels in front alone, so the numbers of files, level by
level, go down in the lexicographic order, however many files a round writes. -/
namespace Strata

open Library System

namespace Compaction

variable {options : Options} {vs vs' : VersionSet} {c : Compaction} {dir : Dir} {faults : Faults}

/-! What a compaction that returns OK has installed. -/

theorem openInputs_ne_ok (dir : Dir) (faults : Faults) (files : List FileMetaData) :
    openInputs dir faults files ≠ .error .ok := by
  induction files with
  | nil => exact nofun
  | cons f rest ih =>
    intro h
    unfold openInputs at h
    cases hopen : f.openReader dir faults with
    | error status =>
      rw [hopen] at h
      cases h
      unfold FileMetaData.openReader at hopen
      split at hopen
      · cases hopen
      · exact SSTableReader.openTable_ne_ok _ _ _ _ hopen
    | ok reader =>
      rw [hopen] at h
      cases hrest : openInputs dir faults rest with
      | error status =>
        rw [hrest] at h
        cases h
        exact ih hrest
      | ok readers =>
        rw [hrest] at h
        cases h

theorem length_openInputs {files : List FileMetaData} {readers : List SSTableReader}
    (h : openInputs dir faults files = .ok readers) : readers.length = files.length := by
  induction files generalizing readers with
  | nil =>
    cases h
    rfl
  | cons f rest ih =>
    unfold openInputs at h
    cases hopen : f.openReader dir faults with
    | error status =>
      rw [hopen] at h
      cases h
    | ok reader =>
      rw [hopen] at h
      cases hrest : openInputs dir faults rest with
      | error status =>
        rw [hrest] at h
        cases h
      | ok others =>
        rw [hrest] at h
        cases h
        rw [List.length_cons, List.length_cons, ih hrest]

theorem newMergingIterator_isSome {readers : List SSTableReader} (h : readers ≠ []) :
    newMergingIterator (readers.map SSTableReader.newIterator) ≠ none := by
  cases readers with
  | nil => exact absurd rfl h
  | cons first rest => cases rest <;> exact nofun

theorem writeOutputs_stopped (hne : c.inputs ≠ []) : Works (fun _ => True)
    (c.writeOutputs options vs) fun result _ => ∀ versions, result ≠ .error (.ok, versions) := by
  unfold writeOutputs
  apply Works.bind (Works.readDir (P := fun _ _ => True) fun _ => trivial)
  intro dir _ _
  apply Works.bind (Works.readFaults (P := fun _ _ => True) fun _ => trivial)
  intro faults _ _
  split
  · rename_i status hopen
    apply Works.ret
    rintro versions heq
    cases heq
    exact openInputs_ne_ok dir faults _ hopen
  · rename_i readers hopen
    have hreaders : readers ≠ [] := by
      rintro rfl
      exact hne (List.eq_nil_of_length_eq_zero (length_openInputs hopen).symm)
    split
    · rename_i hnone
      exact absurd hnone (newMergingIterator_isSome hreaders)
    · apply Works.bind (CompactionState.loop_advances _ _)
      rintro ⟨status, st⟩ _ _
      simp only
      split
      · rename_i hbad
        apply Works.ret
        rintro versions heq
        cases heq
        exact absurd hbad (by simp)
      · apply Works.bind CompactionState.finishOutputFile_advances
        rintro ⟨status', st'⟩ _ _
        simp only
        split
        · rename_i hbad
          apply Works.ret
          rintro versions heq
          cases heq
          exact absurd hbad (by simp)
        · apply Works.ret
          intro versions heq
          cases heq

theorem doCompaction_installs {machine after : Machine FileName} {trace : List (Event FileName)}
    (hne : c.inputs ≠ [])
    (hrun : doCompaction options vs c machine = .done (.ok, vs') after trace) :
    ∃ (before : VersionSet) (outputs : List FileMetaData) (dir : Dir) (faults : Faults),
      before.current = vs.current ∧
      vs'.current = before.installEdit (before.completeEdit (c.edit outputs)) dir faults := by
  rw [doCompaction_eq] at hrun
  obtain ⟨result, between, front, back, hwrite, hconclude⟩ := Sys.of_bind_done hrun
  have hadvances := writeOutputs_advances.value hwrite
  have hstopped := (writeOutputs_stopped hne).value hwrite
  cases result with
  | error stopped =>
    cases hconclude
    exact absurd rfl (hstopped _)
  | ok written =>
    obtain ⟨before, outputs⟩ := written
    obtain ⟨dir, faults, hcurrent⟩ := (installOutputs_any c before outputs).done_any hconclude rfl
    obtain ⟨next, _, rfl⟩ := hadvances
    exact ⟨_, outputs, dir, faults, rfl, hcurrent⟩

/-! The numbers of files. -/

theorem newFiles_elsewhere (before : VersionSet) (outputs : List FileMetaData)
    {level : Fin kNumLevels} (hlevel : level ≠ c.target) :
    (before.completeEdit (c.edit outputs)).newFiles.filter (fun item => item.1 = level.val) =
      [] := by
  change (c.edit outputs).newFiles.filter _ = _
  rw [newFiles_edit, List.filter_eq_nil_iff]
  intro item hitem
  obtain ⟨f, _, rfl⟩ := List.mem_map.mp hitem
  have hne : c.target.val ≠ level.val := fun heq => hlevel (Fin.ext heq.symm)
  simpa using hne

theorem length_files_above (before : VersionSet) (outputs : List FileMetaData)
    {level : Fin kNumLevels} (hlevel : level < c.source) :
    ((before.installEdit (before.completeEdit (c.edit outputs)) dir faults).files level).length =
      (before.current.files level).length := by
  have htarget := lt_trans hlevel c.source_lt_target
  have hold : (before.current.files level).filter (fun f =>
      (level.val, f.number) ∉ (before.completeEdit (c.edit outputs)).deletedFiles) =
        before.current.files level := by
    rw [List.filter_eq_self]
    intro f _
    have hnot : (level.val, f.number) ∉
        (before.completeEdit (c.edit outputs)).deletedFiles := by
      change _ ∉ (c.edit outputs).deletedFiles
      rw [mem_deletedFiles_edit]
      rintro ⟨g, ⟨hsource, _⟩ | ⟨htarget', _⟩, _⟩
      · exact hlevel.ne hsource
      · exact htarget.ne htarget'
    simpa using hnot
  rw [(VersionSet.perm_installEdit _ _ _ _ level).length_eq,
    newFiles_elsewhere before outputs htarget.ne, hold, List.map_nil, List.append_nil]

theorem length_files_source (before : VersionSet) (outputs : List FileMetaData)
    (hne : c.inputs0 ≠ []) (hfiles : ∀ f ∈ c.inputs0, f ∈ before.current.files c.source) :
    ((before.installEdit (before.completeEdit (c.edit outputs)) dir faults).files
      c.source).length < (before.current.files c.source).length := by
  obtain ⟨f, hf⟩ := List.exists_mem_of_ne_nil _ hne
  have hdeleted : (c.source.val, f.number) ∈
      (before.completeEdit (c.edit outputs)).deletedFiles := by
    change _ ∈ (c.edit outputs).deletedFiles
    rw [mem_deletedFiles_edit]
    exact ⟨f, Or.inl ⟨rfl, hf⟩, rfl⟩
  rw [(VersionSet.perm_installEdit _ _ _ _ c.source).length_eq,
    newFiles_elsewhere before outputs c.source_lt_target.ne, List.map_nil, List.append_nil]
  apply List.length_filter_lt_length_iff_exists.mpr
  exact ⟨f, hfiles f hf, by simpa using hdeleted⟩

end Compaction

def Version.counts (v : Version) : Lex (Fin 6 → Nat) :=
  toLex fun level => (v.files level.castSucc).length

/-- A compaction was picked and carried out with success, whatever the machine was. -/
def CompactionRound (options : Options) (vs vs' : VersionSet) : Prop :=
  ∃ c machine after trace, Compaction.pickCompaction options vs.current = some c ∧
    doCompaction options vs c machine = .done (.ok, vs') after trace

theorem CompactionRound.counts_lt {options : Options} {vs vs' : VersionSet}
    (h : CompactionRound options vs vs') : vs'.current.counts < vs.current.counts := by
  obtain ⟨c, machine, after, trace, hpick, hrun⟩ := h
  have hcovers := Compaction.pickCompaction_covers hpick
  have hne : c.inputs ≠ [] := fun hempty => hcovers.nonempty (List.append_eq_nil_iff.mp hempty).1
  obtain ⟨before, outputs, dir, faults, hsame, hcurrent⟩ :=
    Compaction.doCompaction_installs hne hrun
  rw [hcurrent, ← hsame]
  refine ⟨c.level, fun level hlevel => ?_, ?_⟩
  · exact Compaction.length_files_above before outputs (Fin.castSucc_lt_castSucc_iff.mpr hlevel)
  · apply Compaction.length_files_source before outputs hcovers.nonempty
    rw [hsame]
    exact hcovers.upper

/-! Where nothing is picked. -/

/-- Level 0 is below its limit in files, the levels 1 to 5 are not above theirs in bytes. -/
structure Settled (options : Options) (v : Version) : Prop where
  level0 : (v.files 0).length < options.maxLevel0Files
  bytes : ∀ level : Fin kNumLevels, 1 ≤ level.val → level.val ≤ 5 →
    v.levelBytes level ≤ 2 ^ (20 + 2 * (level.val - 1))

theorem Compaction.pickBySize_none {v : Version} {levels : List (Fin 6)}
    (h : pickBySize v levels = none) :
    ∀ level ∈ levels, v.levelBytes level.castSucc ≤ sizeLimit level := by
  induction levels with
  | nil => exact fun _ hmem => (List.not_mem_nil hmem).elim
  | cons first rest ih =>
    have hboth : v.levelBytes first.castSucc ≤ sizeLimit first ∧ pickBySize v rest = none := by
      unfold pickBySize at h
      split at h
      · split at h
        · cases h
        · rename_i hsmall
          exact ⟨Nat.not_lt.mp hsmall, h⟩
      · rename_i hempty
        refine ⟨?_, h⟩
        rw [Version.levelBytes, hempty]
        exact Nat.zero_le _
    intro level hmem
    rcases List.mem_cons.mp hmem with rfl | hmem
    · exact hboth.1
    · exact ih hboth.2 level hmem

theorem settled_of_not_picked {options : Options} (hmax : 1 ≤ options.maxLevel0Files)
    {v : Version} (h : Compaction.pickCompaction options v = none) : Settled options v := by
  unfold Compaction.pickCompaction at h
  split at h
  · -- a Level 0 that is full has a file to pick
    rename_i hfull
    unfold Compaction.pickLevel0 at h
    split at h
    · rename_i hempty
      rw [hempty] at hfull
      simp only [List.length_nil] at hfull
      omega
    · cases h
  · rename_i hroom
    refine ⟨by omega, fun level hlow hhigh => ?_⟩
    have hlisted : ∀ k : Fin 6, 1 ≤ k.val → k ∈ ([1, 2, 3, 4, 5] : List (Fin 6)) := by decide
    have hlevel := Compaction.pickBySize_none h ⟨level.val, by omega⟩ (hlisted _ hlow)
    rwa [Compaction.sizeLimit, Nat.mul_comm] at hlevel

/-- With no further writes, rounds of compactions that succeed come to a version for which
none is picked, and there every level keeps to its limit. -/
theorem compactions_converge (options : Options) (hmax : 1 ≤ options.maxLevel0Files)
    (rounds : Nat → VersionSet)
    (hrounds : ∀ n c, Compaction.pickCompaction options (rounds n).current = some c →
      CompactionRound options (rounds n) (rounds (n + 1))) :
    ∃ n, Compaction.pickCompaction options (rounds n).current = none ∧
      Settled options (rounds n).current := by
  obtain ⟨n, hn⟩ := WellFounded.not_rel_apply_succ (r := (· < ·)) fun n => (rounds n).current.counts
  have hnone : Compaction.pickCompaction options (rounds n).current = none := by
    cases hpick : Compaction.pickCompaction options (rounds n).current with
    | none => rfl
    | some c => exact absurd (hrounds n c hpick).counts_lt hn
  exact ⟨n, hnone, settled_of_not_picked hmax hnone⟩

/-- The version set and the directory behind a round, if one is made and succeeds. -/
def compactOnce (options : Options) (vs : VersionSet) (machine : Machine FileName) :
    Option (VersionSet × Machine FileName) :=
  match Compaction.pickCompaction options vs.current with
  | none => none
  | some c =>
    match doCompaction options vs c machine with
    | .done (.ok, vs') after _ => some (vs', after)
    | _ => none

theorem compactionRound_of_compactOnce {options : Options} {vs : VersionSet}
    {machine : Machine FileName} {next : VersionSet × Machine FileName}
    (h : compactOnce options vs machine = some next) : CompactionRound options vs next.1 := by
  unfold compactOnce at h
  split at h
  · cases h
  · rename_i c hpick
    split at h
    · rename_i vs' after trace hexit
      cases h
      exact ⟨c, machine, after, trace, hpick, hexit⟩
    · cases h

def heavy (t : WrittenTable) : FileMetaData :=
  if t.number = 5 then { t.file eagerOptions with fileSize := 2 ^ 21 } else t.file eagerOptions

def heavySet : VersionSet := { sixTablesSet with current := .ofTables heavy sixTables }

set_option maxRecDepth 8000 in
/-- Level 0 goes to level 1 first, and then the three files of level 1 to level 2, one by
one. -/
theorem compactions_converge_heavySet :
    ∃ rounds : Nat → VersionSet, rounds 0 = heavySet ∧
      (∀ n < 4, CompactionRound eagerOptions (rounds n) (rounds (n + 1))) ∧
      ∃ n, Compaction.pickCompaction eagerOptions (rounds n).current = none ∧
        Settled eagerOptions (rounds n).current := by
  have htest : (do
      let first ← compactOnce eagerOptions heavySet sixTablesMachine
      let second ← compactOnce eagerOptions first.1 first.2
      let third ← compactOnce eagerOptions second.1 second.2
      let fourth ← compactOnce eagerOptions third.1 third.2
      return (Compaction.pickCompaction eagerOptions fourth.1.current).isNone) = some true := by
    decide +kernel
  simp only [Option.bind_eq_bind, Option.bind_eq_some_iff, Option.pure_def, Option.some.injEq,
    Option.isNone_iff_eq_none] at htest
  obtain ⟨first, hfirst, second, hsecond, third, hthird, fourth, hfourth, hnone⟩ := htest
  have hrounds : ∀ n < 4, CompactionRound eagerOptions
      ([heavySet, first.1, second.1, third.1].getD n fourth.1)
      ([heavySet, first.1, second.1, third.1].getD (n + 1) fourth.1) := by
    intro n hn
    interval_cases n
    · exact compactionRound_of_compactOnce hfirst
    · exact compactionRound_of_compactOnce hsecond
    · exact compactionRound_of_compactOnce hthird
    · exact compactionRound_of_compactOnce hfourth
  refine ⟨fun n => [heavySet, first.1, second.1, third.1].getD n fourth.1, rfl, hrounds, ?_⟩
  apply compactions_converge eagerOptions (by decide)
  intro n c hpick
  by_cases hn : n < 4
  · exact hrounds n hn
  · have hlast : [heavySet, first.1, second.1, third.1].getD n fourth.1 = fourth.1 := by
      rw [List.getD_eq_default _ _ (by simpa using hn)]
    rw [hlast, hnone] at hpick
    cases hpick

end Strata

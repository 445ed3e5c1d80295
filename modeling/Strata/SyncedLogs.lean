import Strata.LogNumbers
import Strata.MapSemantics
import Strata.PowerFailures
import Strata.Threads

/-! `Options::sync` and a loss of power. The bytes of a log are on the medium when a write
returns, its name only from the next sync of the directory on. A flush syncs the directory. -/
namespace Strata

open Library System Layers Memtable VersionSet Simulation

variable {loose : Prop} {all written : List Entry} {M M' : Medium FileName} {db db' : DBImpl}
  {start lost dir : Dir} {options : Options} {vs : VersionSet} {edit : VersionEdit}

/-! The calls of an opening: which manifest they are for, and what they do to logs. -/

/-- The calls for manifests are for the one that the version set has open. -/
def VersionSet.Signs (vs : VersionSet) (trace : List (Event FileName)) : Prop :=
  ∀ e ∈ trace, ∀ n, e.call.Concerns (.manifest n) →
    ∃ w, vs.descriptorLog = some w ∧ w.filename = .manifest n

def Plain (name : FileName) : Prop :=
  (∀ n, name ≠ .log n) ∧ (∀ n, name ≠ .manifest n) ∧ ∀ text, name ≠ .other text

/-- The call writes no log, and concerns no file that is not of the store. -/
def Opens (e : Event FileName) : Prop :=
  ∀ name, e.call.Concerns name → (∀ text, name ≠ .other text) ∧
    ∀ n, name = .log n → e.call = .unlink name ∨ e.call = .openAppend name

theorem opens_of_plain {e : Event FileName} (h : e.Within Plain) : Opens e := by
  intro name hconcerns
  have hplain := h name hconcerns
  exact ⟨hplain.2.2, fun n hlog => absurd hlog (hplain.1 n)⟩

theorem opens_of_manifest {n : Nat} {e : Event FileName} (h : ofFile (.manifest n) e) : Opens e := by
  intro name hconcerns
  rw [h name hconcerns]
  exact ⟨fun text => by simp, fun n => by simp⟩

structure VersionSet.Signed (vs : VersionSet) (trace : List (Event FileName)) (vs' : VersionSet) :
    Prop where
  keeps : ∀ w, vs.descriptorLog = some w → vs'.descriptorLog = some w
  signs : vs'.Signs trace

namespace VersionSet.Signed

variable {vs' vs'' : VersionSet} {trace later : List (Event FileName)}

theorem plain (h : ∀ e ∈ trace, e.Within Plain) (hsame : vs'.descriptorLog = vs.descriptorLog) :
    vs.Signed trace vs' :=
  ⟨fun _ hw => hsame.trans hw, fun e he n hconcerns =>
    absurd rfl ((h e he _ hconcerns).2.1 n)⟩

theorem behind (h' : vs.Signed later vs') (h : vs.Signs trace) : vs'.Signs (trace ++ later) := by
  intro e he n hconcerns
  rcases List.mem_append.mp he with he | he
  · obtain ⟨w, hw, hname⟩ := h e he n hconcerns
    exact ⟨w, h'.keeps w hw, hname⟩
  · exact h'.signs e he n hconcerns

theorem trans (h : vs.Signed trace vs') (h' : vs'.Signed later vs'') :
    vs.Signed (trace ++ later) vs'' :=
  ⟨fun w hw => h'.keeps w (h.keeps w hw), h'.behind h.signs⟩

end VersionSet.Signed

theorem setCurrentFile_plain (number : Nat) :
    Works (Event.Within Plain) (setCurrentFile number) fun _ _ => True := by
  have htmp : Plain .currentTmp := ⟨fun _ => by simp, fun _ => by simp, fun _ => by simp⟩
  have hcurrent : Plain .current := ⟨fun _ => by simp, fun _ => by simp, fun _ => by simp⟩
  unfold setCurrentFile
  apply Works.bind (Works.openTrunc fun _ name hname => hname ▸ htmp)
  intro opened _ _
  split
  · exact Works.ret trivial
  apply Works.bind (Works.append fun _ _ name hname => hname ▸ htmp)
  intro appended _ _
  split
  · exact Works.ret trivial
  apply Works.bind (Works.sync fun _ name hname => hname ▸ htmp)
  intro synced _ _
  split
  · exact Works.ret trivial
  apply Works.bind (Works.rename fun _ name hname =>
    hname.elim (fun h => h ▸ htmp) fun h => h ▸ hcurrent)
  intro renamed _ _
  split
  · exact Works.ret trivial
  · exact (syncDirectory_works fun _ _ hconcerns => hconcerns.elim).weaken fun _ _ _ => trivial

theorem openDescriptor_signed :
    Works Opens vs.openDescriptor fun result trace => result.1 = .ok → vs.Signed trace result.2 := by
  unfold openDescriptor
  split
  · exact Works.ret fun _ => .plain (fun e he => (List.not_mem_nil he).elim) rfl
  · rename_i hnone
    simp only [newFileNumber]
    apply Works.bind ((WalWriter.new_works _).within fun _ => opens_of_manifest)
    rintro w created ⟨hname, hcreated⟩
    apply Works.bind ((w.appendRecord_works _ _).within fun _ he => opens_of_manifest (hname ▸ he))
    rintro status appended ⟨_, happended⟩
    split
    · rename_i hfailed
      exact Works.ret fun hok => absurd hok (Status.ne_ok hfailed)
    apply Works.bind ((setCurrentFile_plain _).within fun _ => opens_of_plain)
    rintro status' switched ⟨_, hswitched⟩
    split
    · rename_i hfailed
      exact Works.ret fun hok => absurd hok (Status.ne_ok hfailed)
    apply Works.ret
    intro _
    refine ⟨fun w' hw' => absurd (hnone.symm.trans hw') (by simp), fun e he n hconcerns => ?_⟩
    rw [List.append_nil, List.mem_append, List.mem_append] at he
    rcases he with he | he | he
    · exact ⟨w, rfl, hname.trans (hcreated e he _ hconcerns).symm⟩
    · exact ⟨w, rfl, (happended e he _ hconcerns).symm⟩
    · exact absurd rfl ((hswitched e he _ hconcerns).2.1 n)

theorem logAndApply_signed (h : vs.Described) :
    Works Opens (vs.logAndApply edit) fun result trace =>
      result.1 = .ok → vs.Signed trace result.2 := by
  unfold logAndApply
  simp only
  split
  · exact Works.stuck
  apply Works.bind (Works.readDir (P := fun _ trace => trace = []) fun _ => rfl)
  rintro dir _ rfl
  apply Works.bind (Works.readFaults (P := fun _ trace => trace = []) fun _ => rfl)
  rintro faults _ rfl
  apply Works.bind (openDescriptor_signed.and (openDescriptor_works h))
  rintro ⟨status, vs'⟩ opened ⟨hsigned, hopened⟩
  simp only at hsigned hopened ⊢
  split
  · rename_i w hsome
    obtain ⟨n, hname⟩ := hopened.described w hsome
    apply Works.bind ((w.appendRecord_works _ _).within fun _ he => opens_of_manifest (hname ▸ he))
    rintro status' appended ⟨_, happended⟩
    split
    · rename_i hfailed
      exact Works.ret fun hok => absurd hok (Status.ne_ok hfailed)
    apply Works.ret
    intro _
    rw [List.append_nil]
    refine (hsigned rfl).trans ⟨fun w' hw' => hw', fun e he n hconcerns => ?_⟩
    exact ⟨w, hsome, (happended e he _ hconcerns).symm⟩
  · rename_i hother
    apply Works.ret
    intro hok
    rw [List.append_nil]
    exact hsigned hok

theorem plain_table {n : Nat} {e : Event FileName} (h : ofFile (.table n) e) : e.Within Plain := by
  intro name hconcerns
  rw [h name hconcerns]
  exact ⟨fun _ => by simp, fun _ => by simp, fun _ => by simp⟩

def Unlinks (number : Nat) (e : Event FileName) : Prop := e.call = .unlink (.log number)

theorem Unlinks.opens {number : Nat} {e : Event FileName} (h : Unlinks number e) : Opens e := by
  intro name hconcerns
  rw [show e.call = .unlink (.log number) from h] at hconcerns ⊢
  rw [← show FileName.log number = name from hconcerns]
  exact ⟨fun text => by simp, fun n _ => Or.inl rfl⟩

theorem unlink_signed {status : Status} {vs vs' : VersionSet} {front : List (Event FileName)}
    (h : vs.Signed front vs') (number : Nat) :
    Works Opens (do let _ ← Sys.unlink (.log number); return (status, vs') : Prog (Status × VersionSet))
      fun result trace => result.1 = .ok → vs.Signed (front ++ trace) result.2 := by
  apply Works.bind ((Works.unlink (S := Unlinks number) fun _ => rfl).within fun _ => Unlinks.opens)
  rintro _ unlinked ⟨_, hunlinked⟩
  apply Works.ret
  intro _
  rw [List.append_nil]
  refine h.trans ⟨fun w hw => hw, fun e he n hconcerns => ?_⟩
  rw [show e.call = .unlink (.log number) from hunlinked e he] at hconcerns
  cases hconcerns

theorem writeLevel0Table_signed (options : Options) (h : vs.Described) (mem : Memtable) :
    Works Opens (writeLevel0Table options vs mem) fun result trace =>
      vs.Signed trace result.2 ∧ result.2.Described := by
  apply (((writeLevel0Table_works options vs mem).within fun _ he =>
    opens_of_plain (plain_table he)).and (writeLevel0Table_advances options vs mem)).weaken
  rintro ⟨table, vs'⟩ built ⟨⟨_, hbuilt⟩, hadvances⟩
  refine ⟨?_, (hadvances.continues h).described⟩
  obtain ⟨next, _, hnext⟩ := hadvances
  refine .plain (fun e he => plain_table (hbuilt e he)) ?_
  rw [hnext]

theorem replayLog_signed (options : Options) (h : vs.Described) (number : Nat) :
    Works Opens (replayLog options vs number) fun result trace =>
      result.1 = .ok → vs.Signed trace result.2 := by
  have hstart : ∀ seq, vs.Signed [] (vs.setLastSequence seq) := by
    intro seq
    apply Signed.plain fun e he => (List.not_mem_nil he).elim
    rw [setLastSequence_eq]
  unfold replayLog
  apply Works.bind (Works.readDir (P := fun _ trace => trace = []) fun _ => rfl)
  rintro dir _ rfl
  apply Works.bind (Works.readFaults (P := fun _ trace => trace = []) fun _ => rfl)
  rintro faults _ rfl
  simp only
  split
  · exact Works.stuck
  split
  · apply Works.bind (writeLevel0Table_signed options (setLastSequence_described h _) _)
    rintro ⟨table, vs'⟩ built ⟨hbuilt, hdescribed⟩
    have hsigned := (hstart _).trans hbuilt
    simp only at hdescribed hsigned ⊢
    split
    · apply Works.ret
      intro _
      rw [List.append_nil]
      exact hsigned
    · apply Works.bind (logAndApply_signed hdescribed)
      rintro ⟨status, vs''⟩ logged hlogged
      simp only at hlogged ⊢
      split
      · rename_i hfailed
        exact Works.ret fun hok => absurd hok (Status.ne_ok hfailed)
      · rename_i hok
        have hall := @unlink_signed .ok _ _ _ (hsigned.trans (hlogged (Status.eq_ok hok))) number
        simpa only [List.append_assoc, List.nil_append] using hall
  · exact unlink_signed (hstart _) number

theorem replayLogs_signed (options : Options) (numbers : List Nat) (h : vs.Described) :
    Works Opens (replayLogs options vs numbers) fun result trace =>
      result.1 = .ok → vs.Signed trace result.2 := by
  induction numbers generalizing vs with
  | nil => exact Works.ret fun _ => .plain (fun e he => (List.not_mem_nil he).elim) rfl
  | cons number rest ih =>
    unfold replayLogs
    apply Works.bind ((replayLog_signed options h number).and (replayLog_described options h number))
    rintro ⟨status, vs'⟩ replayed ⟨hsigned, hdescribed⟩
    simp only at hsigned hdescribed ⊢
    split
    · rename_i hfailed
      exact Works.ret fun hok => absurd hok (Status.ne_ok hfailed)
    · rename_i hok
      exact (ih hdescribed).weaken fun result trace hrest hall =>
        (hsigned (Status.eq_ok hok)).trans (hrest hall)

theorem recoverVersions_signed (options : Options) :
    Works Opens (recoverVersions options) fun result trace =>
      result.1 = .ok → result.2.Signs trace := by
  have hnone : ∀ vs : VersionSet, vs.Signs [] := fun vs e he => (List.not_mem_nil he).elim
  unfold recoverVersions
  apply Works.bind (Works.readDir (P := fun _ trace => trace = []) fun _ => rfl)
  rintro dir _ rfl
  apply Works.bind (Works.readFaults (P := fun _ trace => trace = []) fun _ => rfl)
  rintro faults _ rfl
  split
  · split
    · exact Works.ret fun _ => hnone _
    · exact (logAndApply_signed described_new).weaken fun _ _ hsigned hok => (hsigned hok).signs
  · split
    · exact Works.ret fun _ => hnone _
    · split
      · exact Works.stuck
      · exact Works.ret fun _ => hnone _

theorem opens_openAppend {name : FileName} (hname : ∀ text, name ≠ .other text) (outcome : Outcome) :
    Opens ⟨.openAppend name, outcome⟩ := by
  intro other hconcerns
  rw [← show name = other from hconcerns]
  exact ⟨hname, fun _ _ => Or.inr rfl⟩

theorem openAppend_signed {name : FileName} (hname : ∀ text, name ≠ .other text)
    (hmanifest : ∀ n, name ≠ .manifest n) :
    Works Opens (Sys.openAppend name) fun _ trace => ∀ vs : VersionSet, vs.Signs trace := by
  apply ((Works.openAppend (S := fun e => e.call = .openAppend name) fun _ => rfl).within ?_).weaken
  · rintro _ trace ⟨_, htrace⟩ vs e he n hconcerns
    rw [htrace e he] at hconcerns
    exact absurd hconcerns (hmanifest n)
  · rintro ⟨call, outcome⟩ rfl
    exact opens_openAppend hname outcome

theorem startLog_signed (options : Options) (h : vs.Described) :
    Works Opens (startLog options vs) fun result trace =>
      ∀ db, result.2 = some db → vs.Signed trace db.versions ∧ db.options = options := by
  unfold startLog WalWriter.new
  simp only [newFileNumber]
  apply Works.bind (M := fun _ trace => ∀ vs : VersionSet, vs.Signs trace)
  · apply Works.bind (openAppend_signed (fun _ => by simp) fun _ => by simp)
    intro opened created hcreated
    apply Works.ret
    rw [List.append_nil]
    exact hcreated
  intro w created hcreated
  have hnumbered : Described { vs with nextFileNumber := vs.nextFileNumber + 1 } := h
  apply Works.bind (logAndApply_signed hnumbered)
  rintro ⟨status, vs'⟩ logged hlogged
  simp only at hlogged ⊢
  split
  · exact Works.ret fun db hdb => by cases hdb
  rename_i hok
  have hsigned := hlogged (Status.eq_ok hok)
  apply Works.ret
  rintro db ⟨⟩
  rw [List.append_nil]
  exact ⟨⟨hsigned.keeps, hsigned.behind (hcreated _)⟩, rfl⟩

theorem openDB_signed (options : Options) :
    Works Opens (openDB options) fun result trace =>
      ∀ db, result.2 = some db → db.versions.Signs trace ∧ db.options = options := by
  unfold openDB
  apply Works.bind (openAppend_signed (fun _ => by simp) fun _ => by simp)
  intro locked opened hopened
  split
  · exact Works.ret fun db hdb => by cases hdb
  apply Works.bind ((recoverVersions_signed options).and (recoverVersions_described options))
  rintro ⟨status, vs⟩ recovered ⟨hsigns, hdescribed⟩
  simp only at hsigns hdescribed ⊢
  split
  · exact Works.ret fun db hdb => by cases hdb
  rename_i hok
  apply Works.bind (Works.readDir (P := fun _ trace => trace = []) fun _ => rfl)
  rintro dir _ rfl
  split
  · exact Works.stuck
  apply Works.bind ((replayLogs_signed options _ hdescribed).and
    (replayLogs_described options _ hdescribed))
  rintro ⟨status', vs'⟩ replayed ⟨hsigned, hdescribed'⟩
  simp only at hsigned hdescribed' ⊢
  split
  · exact Works.ret fun db hdb => by cases hdb
  rename_i hok'
  apply (startLog_signed options hdescribed').weaken
  intro result started hstarted db hdb
  have hfront : vs.Signs (opened ++ recovered) := by
    intro e he
    rcases List.mem_append.mp he with he | he
    · exact hopened vs e he
    · exact hsigns (Status.eq_ok hok) e he
  obtain ⟨hlast, hoptions⟩ := hstarted db hdb
  have hall := hlast.behind ((hsigned (Status.eq_ok hok')).behind hfront)
  refine ⟨?_, hoptions⟩
  simpa only [List.append_assoc, List.nil_append] using hall

/-! The calls of the background thread. -/

/-- The call is for a table or for the open manifest, or removes a file that is not of the
store. -/
def Tends (w : WalWriter) (e : Event FileName) : Prop :=
  ∀ name, e.call.Concerns name → name = w.filename ∨ (∃ n, name = .table n) ∨
    ∃ text, name = .other text ∧ e.call = .unlink name

section Tends

variable {w : WalWriter} {c : Compaction}

theorem tends_of_tables {least : Nat} {e : Event FileName} (h : ofTables least e) : Tends w e := by
  intro name hconcerns
  obtain ⟨n, _, hname⟩ := h name hconcerns
  exact Or.inr (Or.inl ⟨n, hname⟩)

theorem tends_syncDirectory (outcome : Outcome) : Tends w ⟨.syncDirectory, outcome⟩ :=
  fun _ hconcerns => hconcerns.elim

theorem VersionSet.Advances.descriptorLog {vs' : VersionSet} (h : vs.Advances vs') :
    vs'.descriptorLog = vs.descriptorLog := by
  obtain ⟨next, _, rfl⟩ := h
  rfl

theorem logAndApply_tends (h : vs.descriptorLog = some w) :
    Works (Tends w) (vs.logAndApply edit) fun result _ => result.2.descriptorLog = some w := by
  unfold logAndApply
  simp only
  split
  · exact Works.stuck
  apply Works.bind (Works.readDir (P := fun _ _ => True) fun _ => trivial)
  intro dir _ _
  apply Works.bind (Works.readFaults (P := fun _ _ => True) fun _ => trivial)
  intro faults _ _
  have hopen : vs.openDescriptor = pure (.ok, vs) := by
    unfold openDescriptor
    rw [h]
  rw [hopen]
  apply Works.bind (Works.ret (P := fun result _ => result = (.ok, vs)) rfl)
  rintro ⟨status, vs'⟩ _ heq
  cases heq
  simp only [h]
  apply Works.bind ((w.appendRecord_works _ _).within fun _ he name hconcerns =>
    Or.inl (he name hconcerns))
  intro status _ _
  split
  · exact Works.ret h
  · exact Works.ret rfl

theorem flushImmutable_tends (h : db.versions.descriptorLog = some w) :
    Works (Tends w) db.flushImmutable fun result trace =>
      result.2.versions.descriptorLog = some w ∧ (db.imm.isSome → result.1 = .ok →
        ∃ last, SyncedOrFailed last ∧ ∀ e ∈ last, e ∈ trace) := by
  unfold DBImpl.flushImmutable
  split
  · rename_i hnone
    exact Works.ret ⟨h, fun hsome => by rw [hnone] at hsome; cases hsome⟩
  rename_i index _
  apply Works.bind ((((writeLevel0Table_works db.options db.versions (db.memtable index)).within
    fun _ he => tends_of_tables (ofTables_of_ofFile (le_refl _) he)).and
      (writeLevel0Table_advances _ _ _)).and_value
        fun _ => (writeLevel0Table_counts _ _ _).weaken (fun _ _ h => h.2.1) fun _ h => h)
  rintro ⟨table, vs⟩ built ⟨⟨⟨hsynced, _⟩, hadvances⟩, herror⟩
  have hw : vs.descriptorLog = some w := hadvances.descriptorLog.trans h
  simp only at hsynced herror ⊢
  split
  · rename_i status
    refine Works.ret ⟨hw, fun _ hok => ?_⟩
    exact absurd (congrArg Except.error hok) herror
  · rename_i f
    obtain ⟨front, last, rfl, _, hlast⟩ := hsynced f rfl
    apply Works.bind (logAndApply_tends hw)
    rintro ⟨status, vs'⟩ logged hlogged
    refine Works.ret ⟨hlogged, fun _ _ => ⟨last, hlast, fun e he => ?_⟩⟩
    simp [he]

theorem doCompaction_tends (h : vs.descriptorLog = some w) :
    Works (Tends w) (doCompaction options vs c) fun result _ => result.2.descriptorLog = some w := by
  rw [Compaction.doCompaction_eq]
  apply Works.bind (((Compaction.writeOutputs_works options vs c).within fun _ => tends_of_tables).and
    Compaction.writeOutputs_advances)
  rintro result _ ⟨_, hadvances⟩
  have hw := hadvances.descriptorLog.trans h
  cases result with
  | error stopped => exact Works.ret hw
  | ok made =>
    change Works (Tends w) (c.installOutputs made.1 made.2) _
    unfold Compaction.installOutputs
    apply Works.bind (syncDirectory_works tends_syncDirectory)
    intro synced _ _
    apply Works.bind (logAndApply_tends hw)
    rintro ⟨status, vs'⟩ _ hlogged
    simp only at hlogged ⊢
    split
    · exact Works.ret hlogged
    apply Works.bind ((unlinkTables_works c.inputs).within fun e he name hconcerns =>
      Or.inr (Or.inl ((he name hconcerns).elim fun f hf => ⟨f.number, hf.2⟩)))
    intro _ _ _
    apply Works.bind (syncDirectory_works tends_syncDirectory)
    intro synced' _ _
    exact Works.ret hlogged

theorem majorCompaction_tends (h : db.versions.descriptorLog = some w) :
    Works (Tends w) db.majorCompaction fun result _ =>
      result.2.versions.descriptorLog = some w := by
  unfold DBImpl.majorCompaction
  split
  · exact Works.ret h
  · apply Works.bind (doCompaction_tends h)
    rintro ⟨status, vs⟩ _ hdone
    exact Works.ret hdone

theorem removeFiles_tends (live : List Nat) (names : List FileName) :
    Works (Tends w) (DBImpl.removeFiles live names) fun _ _ => True := by
  induction names with
  | nil => exact Works.ret trivial
  | cons name rest ih =>
    unfold DBImpl.removeFiles
    split
    · exact ih
    · exact Works.stuck
    · rename_i number hnumber
      split
      · apply Works.bind (Works.unlink ?_)
        · exact fun _ _ _ => ih
        · intro outcome other hother
          rw [← show name = other from hother]
          cases name with
          | table n => exact Or.inr (Or.inl ⟨n, rfl⟩)
          | other text => exact Or.inr (Or.inr ⟨text, rfl, rfl⟩)
          | _ => cases hnumber
      · exact ih

theorem removeObsoleteFiles_tends (db : DBImpl) :
    Works (Tends w) db.removeObsoleteFiles fun _ _ => True := by
  unfold DBImpl.removeObsoleteFiles
  apply Works.bind (Works.readDir (P := fun _ _ => True) fun _ => trivial)
  intro dir _ _
  exact removeFiles_tends _ _

theorem backgroundCompaction_tends (h : db.versions.descriptorLog = some w) :
    Works (Tends w) db.backgroundCompaction fun _ _ => True := by
  unfold DBImpl.backgroundCompaction
  apply Works.bind (flushImmutable_tends h)
  rintro ⟨status, db₁⟩ _ ⟨hflushed, _⟩
  apply Works.bind (majorCompaction_tends hflushed)
  rintro ⟨status', db₂⟩ _ _
  apply Works.bind (removeObsoleteFiles_tends db₂)
  intro _ _ _
  exact Works.ret trivial

theorem compactRange_tends (h : db.versions.descriptorLog = some w) :
    Works (Tends w) db.compactRange fun _ _ => True := by
  unfold DBImpl.compactRange
  split
  · exact Works.ret trivial
  · apply Works.bind (doCompaction_tends h)
    rintro ⟨status, vs⟩ _ _
    apply Works.bind (removeObsoleteFiles_tends _)
    intro _ _ _
    exact Works.ret trivial

end Tends

/-! What is on the medium besides the tables. -/

/-- The logs have no bytes to lose, no manifest but the open one is in the making, and there
are no files that are not of the store. -/
structure Shelters (m : Nat) (M : Medium FileName) : Prop where
  logs : ∀ n, M.writes (.log n) = []
  manifests : ∀ n, n ≠ m → M.Safe (.manifest n)
  others : ∀ text, M.Absent (.other text)

/-- Every log stands in the directory on the medium, but for new ones that have no bytes yet. -/
def Entered (M : Medium FileName) : Prop :=
  ∀ n, M.former (.log n) = [] ∨ M.former (.log n) = [none] ∧ M.dir.lookup (.log n) = some []

/-- Whatever a loss of power leaves, the next process gets back one of these histories. -/
def Weathers (loose : Prop) (past : List Entry → Prop) (M : Medium FileName) : Prop :=
  ∀ lost, M.Leaves lost → ∃ all, past all ∧ Recovers loose all lost

section Remains

variable {m : Nat} {torn : Bytes} {r : Recovery} {v : Version} {logs : List (Nat × List Entry)}

def Counts (v : Version) : FileName → Prop
  | .lock => False
  | .currentTmp => False
  | .table n => ∃ f ∈ v.allFiles, f.number = n
  | _ => True

def SameRecords (dir lost : Dir) : Prop :=
  ∀ n, lost.lookup (.log n) = dir.lookup (.log n) ∨
    dir.lookup (.log n) = some [] ∧ lost.lookup (.log n) = none

def remaining (lost : Dir) (logs : List (Nat × List Entry)) : List (Nat × List Entry) :=
  logs.filter fun log => (lost.lookup (.log log.1)).isSome

theorem LogFile.records_nil {number : Nat} {records : List Entry} (h : LogFile dir number records)
    (hempty : dir.lookup (.log number) = some []) : records = [] := by
  obtain ⟨torn, hbytes, _⟩ := h.bytes
  rw [hempty, Option.some.injEq, eq_comm, List.append_eq_nil_iff] at hbytes
  cases records with
  | nil => rfl
  | cons e rest =>
    have hlength := congrArg List.length hbytes.1
    simp [walFrames, walFrame, walHeader] at hlength

theorem climbs_remaining (h : ∀ log ∈ logs, (lost.lookup (.log log.1)).isSome ∨ log.2 = [])
    {next : Nat} (hclimbs : Climbs next logs) : Climbs next (remaining lost logs) := by
  induction logs generalizing next with
  | nil => trivial
  | cons log rest ih =>
    have hrest := ih (fun other hother => h other (by simp [hother])) hclimbs.2
    rw [remaining, List.filter_cons]
    split
    · exact ⟨hclimbs.1, hrest⟩
    · rename_i hgone
      have hempty : log.2 = [] := (h log (by simp)).resolve_left hgone
      have hstays : climbed next [log] = next := by simp [climbed, hempty]
      rw [hstays] at hrest
      exact hrest

theorem flatten_remaining (h : ∀ log ∈ logs, (lost.lookup (.log log.1)).isSome ∨ log.2 = [])
    {e : Entry} :
    e ∈ ((remaining lost logs).map Prod.snd).flatten ↔ e ∈ (logs.map Prod.snd).flatten := by
  have hsub : ((remaining lost logs).map Prod.snd).Sublist (logs.map Prod.snd) :=
    List.filter_sublist.map _
  constructor
  · intro he
    obtain ⟨es, hes, he⟩ := List.mem_flatten.mp he
    exact List.mem_flatten.mpr ⟨es, hsub.subset hes, he⟩
  · intro he
    obtain ⟨es, hes, he⟩ := List.mem_flatten.mp he
    obtain ⟨log, hlog, rfl⟩ := List.mem_map.mp hes
    rcases h log hlog with hthere | hempty
    · exact List.mem_flatten.mpr ⟨log.2, List.mem_map_of_mem (List.mem_filter.mpr ⟨hlog, hthere⟩), he⟩
    · rw [hempty] at he
      cases he

theorem Intact.of_counted (h : Intact loose all dir m torn r v logs)
    (hsame : ∀ name, Counts v name → (∀ n, name ≠ .log n) → lost.lookup name = dir.lookup name)
    (hlogs : SameRecords dir lost) : Intact loose all lost m torn r v (remaining lost logs) := by
  have hthere : ∀ log ∈ logs, (lost.lookup (.log log.1)).isSome ∨ log.2 = [] := by
    intro log hlog
    have hfile := (h.listed log hlog).2
    rcases hlogs log.1 with heq | ⟨hempty, _⟩
    · obtain ⟨torn, hbytes, _⟩ := hfile.bytes
      left
      rw [heq, hbytes]
      rfl
    · exact Or.inr (hfile.records_nil hempty)
  have hsub : ((remaining lost logs).map Prod.snd).Sublist (logs.map Prod.snd) :=
    List.filter_sublist.map _
  have hkept : ∀ n, (lost.lookup (.log n)).isSome → lost.lookup (.log n) = dir.lookup (.log n) := by
    intro n hsome
    rcases hlogs n with heq | ⟨_, hnone⟩
    · exact heq
    · rw [hnone] at hsome
      cases hsome
  obtain ⟨flushed, haccounts⟩ := h.accounts
  have hcurrent := hsame .current trivial (by simp)
  have hmanifests : ∀ n, lost.lookup (.manifest n) = dir.lookup (.manifest n) := fun n =>
    hsame _ trivial (by simp)
  refine ⟨⟨⟨⟨?_, fun f hf => ?_, h.numbers, h.seqs, h.ascending.sublist List.filter_sublist,
    fun log hlog => ?_, fun n hn hsome => ?_, fun n hn hsome => ?_, fun text => ?_⟩,
    h.recorded.of_lookup hcurrent (hmanifests m), h.tail, h.lists, h.manifest, h.maxFileNum, h.maxSeq,
    h.logNum⟩, ⟨flushed, ⟨fun e => ?_, fun log hlog => ?_, haccounts.kept, haccounts.seqs⟩⟩,
    h.reached.1, climbs_remaining hthere h.reached.2⟩, h.fresh.of_same ⟨hcurrent, hmanifests⟩⟩
  · refine ⟨h.stacked.good, h.stacked.newer.sublist hsub, fun es hes => h.stacked.above es
      (hsub.subset hes), h.stacked.distinct.mono fun e he => ?_, fun es hes => h.stacked.types es
      (hsub.subset hes)⟩
    rcases mem_held.mp he with ⟨es, hes, he⟩ | ⟨level, f, hf, he⟩
    · exact mem_held_log (hsub.subset hes) he
    · exact mem_held_file hf he
  · exact (h.stored f hf).of_lookup (hsame _ ⟨f, hf, rfl⟩ (by simp))
  · obtain ⟨hlog, hsome⟩ := List.mem_filter.mp hlog
    exact ⟨(h.listed log hlog).1, (h.listed log hlog).2.of_lookup (hkept log.1 hsome)⟩
  · have hsome' := hsome
    rw [hkept n hsome] at hsome'
    obtain ⟨log, hlog, rfl⟩ := h.counted n hn hsome'
    exact ⟨log, List.mem_filter.mpr ⟨hlog, hsome⟩, rfl⟩
  · rw [hkept n hsome] at hsome
    exact h.stale n hn hsome
  · rw [hsame (.other text) trivial (by simp)]
    exact h.known text
  · rw [haccounts.mem, flatten_remaining hthere]
  · exact haccounts.above log (hsub.subset hlog)

theorem Shelters.only {S : FileName → Prop} (h : Shelters m M) (honly : Medium.Only S M M')
    (hlogs : ∀ n, S (.log n) → M'.writes (.log n) = [])
    (hmanifests : ∀ n, n ≠ m → ¬ S (.manifest n)) (hothers : ∀ text, ¬ S (.other text)) :
    Shelters m M' := by
  refine ⟨fun n => ?_, fun n hn => honly.safe (h.manifests n hn) (hmanifests n hn),
    fun text => (h.others text).only honly (hothers text)⟩
  by_cases hlog : S (.log n)
  · exact hlogs n hlog
  · exact (honly _ hlog).2.1.trans (h.logs n)

theorem Shelters.counted {S : FileName → Prop} (h : Shelters m M) (hsecure : Secure M m v)
    (honly : Medium.Only S M M') (hlost : M'.Leaves lost) {name : FileName} (hname : ¬ S name)
    (hcounts : Counts v name) (hlog : ∀ n, name ≠ .log n) :
    lost.lookup name = M.dir.lookup name := by
  have hsafe : M.Safe name → lost.lookup name = M.dir.lookup name := fun hsafe =>
    ((honly.safe hsafe hname).lookup hlost).trans (honly name hname).1
  cases name with
  | lock => exact hcounts.elim
  | currentTmp => exact hcounts.elim
  | current => exact hsafe hsecure.current
  | log n => exact absurd rfl (hlog n)
  | table n =>
    obtain ⟨f, hf, rfl⟩ := hcounts
    exact hsafe (hsecure.tables f hf)
  | manifest n =>
    by_cases hn : n = m
    · subst hn
      exact hsafe hsecure.manifest
    · exact hsafe (h.manifests n hn)
  | other text =>
    rw [((h.others text).only honly hname).left hlost, (h.others text).lookup]

/-- A log that stands in the directory is there after a loss of power, and a new one is there or
not. -/
theorem Shelters.log_left {S : FileName → Prop} (h : Shelters m M) (honly : Medium.Only S M M')
    (hlost : M'.Leaves lost) {n : Nat} (hname : ¬ S (.log n))
    (hentered : M.former (.log n) = [] ∨
      M.former (.log n) = [none] ∧ M.dir.lookup (.log n) = some []) :
    lost.lookup (.log n) = M.dir.lookup (.log n) ∨
      M.dir.lookup (.log n) = some [] ∧ lost.lookup (.log n) = none := by
  rcases hentered with hformer | ⟨hformer, hempty⟩
  · have hsafe : M.Safe (.log n) := ⟨hformer, h.logs n⟩
    exact Or.inl (((honly.safe hsafe hname).lookup hlost).trans (honly _ hname).1)
  · obtain ⟨hdir, hwrites, hformers⟩ := honly _ hname
    obtain ⟨b, hb, hleft⟩ := hlost (.log n)
    rcases List.mem_cons.mp hb with rfl | hb
    · left
      rw [Medium.binding, hdir, hempty, hwrites, h.logs n] at hleft
      obtain ⟨tail, rfl, hlookup⟩ := hleft
      rw [hlookup, hempty]
      rfl
    · right
      refine ⟨hempty, ?_⟩
      have hnone : b = none := by
        rcases hformers with hsame | hnil
        · rw [hsame, hformer] at hb
          exact List.mem_singleton.mp hb
        · rw [hnil] at hb
          cases hb
      rw [hnone] at hleft
      exact hleft

theorem Outlasts.weathers {past : List Entry → Prop} (h : Outlasts loose past M)
    (hcurrent : M.dir.lookup .current = some (currentText m)) (hshelters : Shelters m M)
    (hentered : Entered M) : Weathers loose past M := by
  intro lost hlost
  obtain ⟨all, hpast, left, m', torn, r, v, logs, hintact, hother, halike⟩ := h lost (Or.inr hlost)
  have hsame : m' = m := by
    have hnamed := hintact.recorded.current
    rw [hother _ (by simp), hcurrent] at hnamed
    exact (currentText_injective (Option.some.inj hnamed)).symm
  subst hsame
  refine ⟨all, hpast, m', torn, r, v, _, hintact.of_counted (fun name hcounts hlog => ?_) fun n => ?_⟩
  · cases name with
    | lock => exact hcounts.elim
    | currentTmp => exact hcounts.elim
    | current => exact halike.current
    | log n => exact absurd rfl (hlog n)
    | table n =>
      obtain ⟨f, hf, rfl⟩ := hcounts
      exact halike.tables f hf
    | manifest n =>
      by_cases hn : n = m'
      · rw [hn]
        exact halike.manifest
      · rw [(hshelters.manifests n hn).lookup hlost, hother _ (by simpa using hn)]
    | other text =>
      rw [(hshelters.others text).left hlost, hother _ (by simp), (hshelters.others text).lookup]
  · rw [hother _ (by simp)]
    exact hshelters.log_left (Medium.Only.refl (fun _ => False) M) hlost id (hentered n)

end Remains

theorem Appending.survives {name : FileName} {e : Entry} {old : Bytes} {left : Option Bytes}
    (h : Appending steady M name e M') (hwrites : M.writes name = [])
    (hold : M.dir.lookup name = some old) (hleft : Survives (M'.binding name) left) :
    ∃ part, left = some (old ++ part) ∧ WholeOrTorn e part := by
  obtain ⟨torn, _, hdir, hflatten⟩ := h.dir
  have hbinding : M'.binding name = some (old ++ torn, M'.writes name) := by
    rw [Medium.binding, hdir, lookup_extend_self hold]
    rfl
  rw [hbinding] at hleft
  obtain ⟨tail, hpersists, rfl⟩ := hleft
  refine ⟨tail, ?_, ?_⟩
  · rw [hflatten hwrites, List.length_append, Nat.add_sub_cancel, List.take_left]
  · rcases h.persists hwrites tail hpersists with htail | ⟨later, rfl⟩
    · exact htail.wholeOrTorn steady_limited
    · exact Or.inl (tornTail_zeros later)

/-! A write. -/

section Write

variable {m : Nat} {r : Recovery} {olds : List (Nat × List Entry)} {records : List Entry} {e : Entry}

/-- The power is lost while a record is written. The log keeps what it had, and the record is
in it or not. -/
theorem Serving.appending_recovers (h : Serving loose all db M m r olds records)
    (hshelters : Shelters m M) (htype : e.HasType) (hseq : e.seq = db.versions.lastSequence + 1)
    (hlimit : db.versions.lastSequence + 1 < 2 ^ 64) (hentered : Entered M)
    (happending : Appending steady M (.log db.logFileNumber) e M') (hlost : M'.Leaves lost)
    (hlog : Survives (M'.binding (.log db.logFileNumber)) (lost.lookup (.log db.logFileNumber))) :
    ∃ past, (past = all ∨ past = all ++ [e]) ∧ Recovers loose past lost := by
  obtain ⟨part, hpart, hrecord⟩ := happending.survives (hshelters.logs _) h.written hlog
  have hsame : ∀ name, Counts db.versions.current name → (∀ n, name ≠ .log n) →
      lost.lookup name = (extend M.dir (.log db.logFileNumber) part).lookup name := by
    intro name hcounts hname
    rw [lookup_extend_other (hname _)]
    exact hshelters.counted h.secure happending.only hlost (hname _) hcounts hname
  have hlogs : SameRecords (extend M.dir (.log db.logFileNumber) part) lost := by
    intro n
    by_cases hn : n = db.logFileNumber
    · left
      rw [hn, hpart, lookup_extend_self h.written]
    · have hname : FileName.log n ≠ .log db.logFileNumber := by simpa using hn
      rw [lookup_extend_other hname]
      exact hshelters.log_left happending.only hlost hname (hentered n)
  have hmanifests : SameManifests M.dir (extend M.dir (.log db.logFileNumber) part) :=
    ⟨lookup_extend_other (by simp), fun n => lookup_extend_other (by simp)⟩
  have hattached := h.attached.of_same hmanifests
  rcases hrecord with htail | ⟨rfl, hsmall⟩
  · have hintact : Intact loose all (extend M.dir (.log db.logFileNumber) part) m [] r
        db.versions.current (db.logs olds records) :=
      ⟨⟨hattached.disk (h.torn_held htail), h.accounts, h.reached⟩, hattached.fresh⟩
    exact ⟨all, Or.inl rfl, _, _, _, _, _, hintact.of_counted hsame hlogs⟩
  · obtain ⟨hholds, haccounts⟩ := h.whole_held htype hseq hlimit hsmall
    have hintact : Intact loose (all ++ [e]) (extend M.dir (.log db.logFileNumber) (walFrame e)) m
        [] r db.versions.current (db.logs olds (records ++ [e])) :=
      ⟨⟨hattached.disk hholds, haccounts, h.reached_records _⟩, hattached.fresh⟩
    exact ⟨_, Or.inr rfl, _, _, _, _, _, hintact.of_counted hsame hlogs⟩

/-- Room for a write: there is, or there is in a new memtable with a log that no file was in
the place of. -/
def Makes (db : DBImpl) (M : Medium FileName) (db' : DBImpl) (M' : Medium FileName) : Prop :=
  db' = db ∧ M' = M ∨ db'.logFileNumber = db.versions.nextFileNumber ∧
    M' = M.perform (.openAppend (.log db.versions.nextFileNumber))

theorem switchMemtable_makes (db : DBImpl) (M : Medium FileName) :
    Endures steady M db.switchMemtable
      (fun db' M' => db'.logFileNumber = db.versions.nextFileNumber ∧
        M' = M.perform (.openAppend (.log db.versions.nextFileNumber))) fun M' => M' = M := by
  unfold DBImpl.switchMemtable
  simp only [newFileNumber]
  refine Endures.bind (openAppend_endures steady_noFail _ rfl) ?_
  rintro writer M' ⟨rfl, hM', _⟩
  exact Endures.ret ⟨rfl, hM'⟩

theorem makeRoomForWrite_makes (db : DBImpl) (M : Medium FileName) :
    Endures steady M db.makeRoomForWrite
      (fun result M' => result = none ∧ M' = M ∨ ∃ db', result = some db' ∧ Makes db M db' M')
      fun M' => M' = M := by
  unfold DBImpl.makeRoomForWrite
  split
  · exact Endures.ret (Or.inr ⟨db, rfl, Or.inl ⟨rfl, rfl⟩⟩)
  · split
    · exact Endures.ret (Or.inl ⟨rfl, rfl⟩)
    · refine Endures.bind (switchMemtable_makes db M) ?_
      exact fun db' M' hmade => Endures.ret (Or.inr ⟨db', rfl, Or.inr hmade⟩)

theorem flushMemTable_makes (db : DBImpl) (M : Medium FileName) :
    Endures steady M db.flushMemTable (fun db' M' => Makes db M db' M') fun M' => M' = M := by
  unfold DBImpl.flushMemTable
  split
  · exact (switchMemtable_makes db M).weaken (fun db' M' hmade => Or.inr hmade) fun _ h => h
  · exact Endures.ret (Or.inl ⟨rfl, rfl⟩)

theorem Makes.only (h : Makes db M db' M') :
    Medium.Only (fun name => name = .log db'.logFileNumber) M M' := by
  rcases h with ⟨rfl, rfl⟩ | ⟨hnumber, rfl⟩
  · exact Medium.Only.refl _ _
  · rw [hnumber]
    exact (Medium.Only.refl _ M).perform fun _ => Eq.symm

theorem Makes.shelters (h : Makes db M db' M') (hshelters : Shelters m M) : Shelters m M' := by
  refine hshelters.only h.only (fun n hn => ?_) (by simp) (by simp)
  rcases h with ⟨rfl, rfl⟩ | ⟨hnumber, rfl⟩
  · exact hshelters.logs n
  · rw [hn, hnumber, Medium.perform]
    split
    · exact hshelters.logs _
    · exact Function.update_self _ _ _

theorem Serving.makes_entered (h : Serving loose all db M m r olds records) (hentered : Entered M)
    (hmakes : Makes db M db' M') : Entered M' := by
  rcases hmakes with ⟨_, rfl⟩ | ⟨hnumber, rfl⟩
  · exact hentered
  · intro n
    have hgone := h.no_log (le_refl _)
    have hcreate : M.perform (.openAppend (.log db.versions.nextFileNumber)) =
        M.create (.log db.versions.nextFileNumber) := by
      rw [Medium.perform, hgone]
      rfl
    rw [hcreate]
    by_cases hn : n = db.versions.nextFileNumber
    · right
      subst hn
      have hformer : M.former (.log db.versions.nextFileNumber) = [] := by
        rcases hentered db.versions.nextFileNumber with hnil | ⟨_, hempty⟩
        · exact hnil
        · rw [hgone] at hempty
          cases hempty
      refine ⟨?_, lookup_insert_self _ _ _⟩
      change M.shelve _ _ = _
      rw [Medium.shelve, Function.update_self, hformer, Medium.binding, hgone]
      rfl
    · have hname : FileName.log n ≠ .log db.versions.nextFileNumber := by simpa using hn
      have hshelve : (M.create (.log db.versions.nextFileNumber)).former (.log n) =
          M.former (.log n) := Function.update_of_ne hname _ _
      have hlookup : (M.create (.log db.versions.nextFileNumber)).dir.lookup (.log n) =
          M.dir.lookup (.log n) := lookup_insert_other hname
      rw [hshelve, hlookup]
      exact hentered n

/-- The power is lost while a record is written, perhaps the first one of a new log. That log
is there or not. -/
theorem Serving.append_weathers (h : Serving loose all db M m r olds records)
    (hshelters : Shelters m M) (hentered : Entered M) (htype : e.HasType)
    (hseq : e.seq = db.versions.lastSequence + 1) (hlimit : db.versions.lastSequence + 1 < 2 ^ 64)
    (happending : Appending steady M (.log db.logFileNumber) e M') :
    Weathers loose (fun past => past = all ∨ past = all ++ [e]) M' := by
  intro lost hlost
  obtain ⟨b, hb, hsurvives⟩ := hlost (.log db.logFileNumber)
  rw [happending.former] at hb
  rcases List.mem_cons.mp hb with rfl | hb
  · exact h.appending_recovers hshelters htype hseq hlimit hentered happending hlost hsurvives
  · rcases hentered db.logFileNumber with hformer | ⟨hformer, hempty⟩
    · rw [hformer] at hb
      exact (List.not_mem_nil hb).elim
    · -- the entry of a new log is lost, and with it all that the write has done
      rw [hformer] at hb
      obtain rfl := List.mem_singleton.mp hb
      refine ⟨all, Or.inl rfl, _, _, _, _, _, h.intact.of_counted (fun name hcounts hname => ?_)
        fun n => ?_⟩
      · exact hshelters.counted h.secure happending.only hlost (hname _) hcounts hname
      · by_cases hn : n = db.logFileNumber
        · exact Or.inr ⟨hn ▸ hempty, hn ▸ hsurvives⟩
        · exact hshelters.log_left happending.only hlost (by simpa using hn) (hentered n)

theorem Serving.write_shelters (h : Serving loose all db M m r olds records)
    (hshelters : Shelters m M) (hsync : db.options.sync = true) {type : ValueType}
    (htype : type = kTypeValue ∨ type = kTypeDeletion) (key : Key) (value : Bytes)
    (hlimit : db.versions.lastSequence + 1 < 2 ^ 64) :
    Endures steady M (db.write type key value)
      (fun _ M' => Shelters m M' ∧ M'.dir.lookup .current = M.dir.lookup .current)
      fun M' => Entered M → Weathers loose (fun past => past = all ∨
        past = all ++ [⟨key, db.versions.lastSequence + 1, type, value⟩]) M' := by
  have hwaits : Entered M → Weathers loose (fun past => past = all ∨
      past = all ++ [⟨key, db.versions.lastSequence + 1, type, value⟩]) M := fun hentered =>
    (h.outlasts (Or.inl rfl)).weathers h.attached.recorded.current hshelters hentered
  unfold DBImpl.write
  have hroom := (h.makeRoom (show (fun past => past = all) all from rfl)).and
    (makeRoomForWrite_makes db M)
  refine Endures.bind (hroom.weaken (fun _ _ hQ => hQ) fun M' hcrash => hcrash.2 ▸ hwaits) ?_
  rintro result M₁ ⟨hroom, ⟨rfl, rfl⟩ | ⟨db', rfl, hmakes⟩⟩
  · exact Endures.ret ⟨hshelters, rfl⟩
  · rcases hroom with ⟨hnone, _⟩ | ⟨_, olds', records', hsome, h₁, _, hoptions, hlast, _⟩
    · cases hnone
    cases hsome
    have hshelters₁ := hmakes.shelters hshelters
    simp only [hlast, hoptions, hsync, h₁.writer]
    refine Endures.bind ((appendRecord_endures steady_noFail rfl
      ⟨key, db.versions.lastSequence + 1, type, value⟩ true).weaken (fun _ _ hQ => hQ)
        fun M' happending hentered => ?_) ?_
    · exact h₁.append_weathers hshelters₁ (h.makes_entered hentered hmakes) htype (by rw [hlast])
        (by rw [hlast]; exact hlimit) happending
    · rintro status M₂ ⟨rfl, _, _, hwrites, honly, _⟩
      refine Endures.ret ⟨hshelters₁.only honly (fun n hn => ?_) (by simp) (by simp), ?_⟩
      · rw [hn]
        exact hwrites rfl
      · rw [(honly _ (by simp)).1, (hmakes.only _ (by simp)).1]

end Write

/-! The background thread. -/

section Background

variable {m : Nat} {w : WalWriter} {trace : List (Event FileName)}

theorem Tends.within {e : Event FileName} (h : Tends w e) :
    e.Within fun name => name = w.filename ∨ (∃ n, name = .table n) ∨ ∃ text, name = .other text := by
  intro name hconcerns
  rcases h name hconcerns with hname | htable | ⟨text, hname, _⟩
  · exact Or.inl hname
  · exact Or.inr (Or.inl htable)
  · exact Or.inr (Or.inr ⟨text, hname⟩)

theorem Shelters.tended (h : Shelters m M)
    (htrace : ∀ e ∈ trace, Tends ⟨.manifest m, true⟩ e) : Shelters m (M.run trace) := by
  have honly := @Medium.run_only _ _ M _ trace fun e he => (htrace e he).within
  refine ⟨fun n => (honly _ (by simp)).2.1.trans (h.logs n),
    fun n hn => honly.safe (h.manifests n hn) (by simpa using hn), fun text => ?_⟩
  apply (h.others text).run
  intro e he hconcerns
  rcases htrace e he _ hconcerns with hname | ⟨n, hname⟩ | ⟨text', _, hcall⟩
  · cases hname
  · cases hname
  · exact hcall

theorem Entered.tended (h : Entered M)
    (htrace : ∀ e ∈ trace, Tends ⟨.manifest m, true⟩ e) : Entered (M.run trace) := by
  intro n
  have honly := @Medium.run_only _ _ M _ trace fun e he => (htrace e he).within
  obtain ⟨hdir, _, hsame | hnone⟩ := honly (.log n) (by simp)
  · rw [hsame, hdir]
    exact h n
  · exact Or.inl hnone

theorem backgroundCompaction_synced {r : Recovery} {olds : List (Nat × List Entry)}
    {records : List Entry} (h : Serving loose all db M m r olds records) (himm : db.imm.isSome)
    {fate : List Outcome} {after : Machine FileName}
    (hexit : db.backgroundCompaction (machineOn M.dir fate) = .done db' after trace)
    (hsteady : ∀ e ∈ trace, steady.events e) : ⟨.syncDirectory, .ok⟩ ∈ trace := by
  unfold DBImpl.backgroundCompaction at hexit
  obtain ⟨⟨status, db₁⟩, _, front, back, hflush, _, rfl⟩ := Sys.split_bind_done hexit
  have hfront : ∀ e ∈ front, steady.events e := fun e he => hsteady e (by simp [he])
  have hendures : Endures steady M db.flushImmutable _ (Outlasts loose fun _ => True) :=
    h.flushImmutable fun _ _ => trivial
  obtain ⟨_, hok, _⟩ := hendures.done hflush rfl rfl hfront
  obtain ⟨_, hsynced⟩ := (flushImmutable_tends h.descriptor).value hflush
  obtain ⟨last, rfl | ⟨n, rfl⟩, hlast⟩ := hsynced himm hok
  · exact List.mem_append_left _ (hlast _ (by simp))
  · have hfailed := hfront _ (hlast _ (List.mem_singleton_self _))
    exact absurd rfl (hfailed.1 n)

end Background

/-! The states of a process. -/

structure Sheltered (loose : Prop) (all : List Entry) (db : DBImpl) (M : Medium FileName) (m : Nat) :
    Prop where
  service : InService loose all db M
  current : M.dir.lookup .current = some (currentText m)
  shelters : Shelters m M
  sync : db.options.sync = true

namespace Sheltered

variable {m : Nat} {action : Action}

theorem serving (h : Sheltered loose all db M m) :
    ∃ r olds records, Serving loose all db M m r olds records ∧ db.Single olds := by
  obtain ⟨m', r, olds, records, hserving, hsingle⟩ := h.service
  have hsame := hserving.attached.recorded.current
  rw [h.current] at hsame
  obtain rfl := currentText_injective (Option.some.inj hsame)
  exact ⟨r, olds, records, hserving, hsingle⟩

theorem perform (h : Sheltered loose all db M m) (hgranted : action.Granted db) :
    Endures steady M (db.perform action)
      (fun _ M' => Shelters m M' ∧ M'.dir.lookup .current = M.dir.lookup .current)
      fun M' => Entered M →
        Weathers loose (fun past => past = all ∨ past = action.record db all) M' := by
  obtain ⟨r, olds, records, hserving, hsingle⟩ := h.serving
  have htended : ∀ {trace : List (Event FileName)}, (∀ e ∈ trace, Tends ⟨.manifest m, true⟩ e) →
      Shelters m (M.run trace) ∧ (M.run trace).dir.lookup .current = M.dir.lookup .current := by
    intro trace htrace
    have honly := @Medium.run_only _ _ M _ trace fun e he => (htrace e he).within
    exact ⟨h.shelters.tended htrace, (honly _ (by simp)).1⟩
  have hcrash : ∀ {past : List Entry → Prop} {trace : List (Event FileName)},
      Outlasts loose past (M.run trace) → (∀ e ∈ trace, Tends ⟨.manifest m, true⟩ e) →
      Entered M → Weathers loose past (M.run trace) := by
    intro past trace houtlasts htrace hentered
    obtain ⟨hshelters, hcurrent⟩ := htended htrace
    exact houtlasts.weathers (hcurrent.trans h.current) hshelters (hentered.tended htrace)
  cases action with
  | write type key value =>
    exact hserving.write_shelters h.shelters h.sync hgranted.1 key value hgranted.2
  | flushMemTable =>
    refine Endures.bind ((flushMemTable_makes db M).weaken (fun _ _ hQ => hQ)
      fun M' hsame hentered => ?_) ?_
    · rw [hsame]
      exact (hserving.outlasts (Or.inl rfl)).weathers h.current h.shelters hentered
    · intro db' M' hmakes
      exact Endures.ret ⟨hmakes.shelters h.shelters, (hmakes.only _ (by simp)).1⟩
  | compactRange =>
    have hcompact : Endures steady M db.compactRange _
        (Outlasts loose fun past => past = all ∨ past = all) := h.service.compactRange (Or.inl rfl)
    refine Endures.bind ((hcompact.and_works (compactRange_tends hserving.descriptor)).weaken
      (fun _ _ hQ => hQ) ?_) ?_
    · rintro _ ⟨houtlasts, trace, rfl, htrace⟩
      exact hcrash houtlasts htrace
    · rintro result _ ⟨_, trace, rfl, htrace, _⟩
      exact Endures.ret (htended htrace)
  | backgroundCompaction =>
    have hround : Endures steady M db.backgroundCompaction _
        (Outlasts loose fun past => past = all ∨ past = all) :=
      h.service.backgroundCompaction (Or.inl rfl)
    refine Endures.bind ((hround.and_works (backgroundCompaction_tends hserving.descriptor)).weaken
      (fun _ _ hQ => hQ) ?_) ?_
    · rintro _ ⟨houtlasts, trace, rfl, htrace⟩
      exact hcrash houtlasts htrace
    · rintro db' _ ⟨_, trace, rfl, htrace, _⟩
      exact Endures.ret (htended htrace)

theorem did (h : Sheltered loose all db M m) (hgranted : action.Granted db) {fate : List Outcome}
    {status : Status} {after : Machine FileName} {trace : List (Event FileName)}
    (hexit : db.perform action (machineOn M.dir fate) = .done (some (status, db')) after trace)
    (hsteady : ∀ e ∈ trace, steady.events e) :
    Sheltered loose (action.record db all) db' (M.run trace) m := by
  obtain ⟨_, hshelters, hcurrent⟩ := (h.perform hgranted).done hexit rfl rfl hsteady
  obtain ⟨_, ⟨hnone, _⟩ | ⟨_, hsome, _, hservice⟩⟩ :=
    (h.service.perform hgranted).done hexit rfl rfl hsteady
  · cases hnone
  · cases hsome
    refine ⟨hservice, hcurrent.trans h.current, hshelters, ?_⟩
    rw [(DBImpl.perform_turned hexit).options]
    exact h.sync

end Sheltered

theorem Stands.no_others (h : Stands all dir) (text : Bytes) : dir.lookup (.other text) = none := by
  rcases h with ⟨hbare, _⟩ | ⟨_, _, _, _, _, _, hintact⟩
  · exact hbare _ (by simp)
  · exact hintact.known text

section Process

variable (hstands : Stands all start) (hseq : InSequence all)

include hstands hseq in
theorem Powered.sheltered (h : Powered steady.events options start db written M)
    (hsync : options.sync = true) :
    ∃ loose m, Sheltered loose (all ++ written) db M m ∧ InSequence (all ++ written) := by
  induction h with
  | @opened fate db after trace hexit hsteady =>
    obtain ⟨loose, hservice⟩ := hstands.opened hseq hexit hsteady
    have hworks := openDB_signed options (machineOn start fate) (Medium.settled start) rfl
    rw [hexit] at hworks
    obtain ⟨_, hopens, hsigned⟩ := hworks
    obtain ⟨hsigns, hoptions⟩ := hsigned db rfl
    rw [List.append_nil]
    obtain ⟨m, r, olds, records, hserving, hsingle⟩ := hservice
    refine ⟨loose, m, ⟨⟨m, r, olds, records, hserving, hsingle⟩,
      hserving.attached.recorded.current, ⟨fun n => ?_, fun n hn => ?_, fun text => ?_⟩, ?_⟩, hseq⟩
    · exact Medium.run_unwritten (fun e he hconcerns => (hopens e he _ hconcerns).2 n rfl) rfl
    · have honly := @Medium.run_only _ _ (Medium.settled start) (fun name => name ≠ .manifest n)
        trace fun e he name hconcerns hname => by
          obtain ⟨w, hw, hfile⟩ := hsigns e he n (hname ▸ hconcerns)
          rw [hserving.descriptor] at hw
          cases hw
          cases hfile
          exact hn rfl
      exact honly.safe ⟨rfl, rfl⟩ fun hne => hne rfl
    · have honly := @Medium.run_only _ _ (Medium.settled start) (fun name => name ≠ .other text)
        trace fun e he name hconcerns => (hopens e he name hconcerns).1 text
      have hnone : (Medium.settled start).Absent (.other text) :=
        ⟨hstands.no_others text, fun _ hb => (List.not_mem_nil hb).elim⟩
      exact hnone.only honly fun hne => hne rfl
    · rw [hoptions]
      exact hsync
  | @did _ _ _ _ action _ _ _ _ _ hgranted hexit hsteady ih =>
    obtain ⟨loose, m, hsheltered, hordered⟩ := ih
    rw [← Action.record_append]
    exact ⟨loose, m, hsheltered.did hgranted hexit hsteady,
      hsheltered.service.inSequence hordered action⟩

include hstands hseq in
theorem Powered.flush_entered (h : Powered steady.events options start db written M)
    (himm : db.imm.isSome)
    {fate : List Outcome} {status : Status} {after : Machine FileName}
    {trace : List (Event FileName)}
    (hexit : db.perform .backgroundCompaction (machineOn M.dir fate) =
      .done (some (status, db')) after trace)
    (hsteady : ∀ e ∈ trace, steady.events e) : Entered (M.run trace) := by
  obtain ⟨loose, ⟨m, r, olds, records, hserving, _⟩, _⟩ := h.inService hstands hseq
  obtain ⟨_, _, front, back, hround, hlast, rfl⟩ := Sys.split_bind_done hexit
  cases hlast
  rw [List.append_nil] at hsteady ⊢
  have hworks := backgroundCompaction_tends hserving.descriptor (machineOn M.dir fate) M rfl
  rw [hround] at hworks
  intro n
  left
  exact Medium.run_entered (fun e he => (hworks.2.1 e he).within)
    (backgroundCompaction_synced hserving himm hround hsteady) (by simp)

end Process

/-! A loss of power. -/

/-- The medium when the power is lost, between two actions or at any call of one, where before
the action no log with bytes in it was missing in the directory on the medium. -/
inductive CutOff (options : Options) (start : Dir) :
    List Entry → List Entry → Medium FileName → Prop
  | between {db : DBImpl} {written : List Entry} {M : Medium FileName}
      (hrun : Powered steady.events options start db written M) (hentered : Entered M) :
      CutOff options start written written M
  | during {db : DBImpl} {written : List Entry} {M : Medium FileName} {action : Action}
      {fate : List Outcome} {left : Dir} {trace : List (Event FileName)}
      (hrun : Powered steady.events options start db written M) (hentered : Entered M)
      (hgranted : action.Granted db)
      (hexit : db.perform action (machineOn M.dir fate) = .killed left trace)
      (hsteady : ∀ e ∈ trace, steady.events e) :
      CutOff options start written (action.record db written) (M.run trace)

theorem CutOff.weathers {acknowledged issued past begun : List Entry}
    (h : CutOff options start written begun M) (hstands : Stands past start)
    (hbetween : Between acknowledged issued past) (hsync : options.sync = true) :
    ∃ loose, Weathers loose (Between (acknowledged ++ written) (issued ++ begun)) M := by
  cases h with
  | between hrun hentered =>
    obtain ⟨loose, m, hsheltered, hordered⟩ := hrun.sheltered hstands hbetween.ordered hsync
    obtain ⟨r, olds, records, hserving, _⟩ := hsheltered.serving
    refine ⟨loose, (hserving.outlasts ?_).weathers hsheltered.current hsheltered.shelters hentered⟩
    exact hbetween.extend hordered (fun _ he => he) fun _ he => he
  | @during db _ _ action _ _ _ hrun hentered hgranted hexit hsteady =>
    obtain ⟨loose, m, hsheltered, hordered⟩ := hrun.sheltered hstands hbetween.ordered hsync
    obtain ⟨_, hweathers⟩ := (hsheltered.perform hgranted).killed hexit rfl rfl hsteady
    refine ⟨loose, fun lost hlost => ?_⟩
    obtain ⟨_, hpast, hrecovers⟩ := hweathers hentered lost hlost
    refine ⟨_, ?_, hrecovers⟩
    rcases hpast with rfl | rfl
    · exact hbetween.extend hordered (fun _ he => he) (action.subset_record db written)
    · have hrecorded := hsheltered.service.inSequence hordered action
      rw [Action.record_append] at hrecorded ⊢
      exact hbetween.extend hrecorded (action.subset_record db written) fun _ he => he

/-- With `Options::sync`: where no log with acknowledged writes is missing in the directory on
the medium, the next opening gets them all back, and perhaps the write that was under way,
whatever the medium keeps of the rest. -/
theorem synced_writes_outlast_power_loss (acknowledged issued : List Entry) (start : Dir)
    (hlived : Lived acknowledged issued start) (options : Options) (hsync : options.sync = true)
    (written begun : List Entry) (M : Medium FileName) (h : CutOff options start written begun M)
    (lost : Dir) (hlost : M.Leaves lost) (later : Options) (hexists : later.errorIfExists = false)
    (fate : List Outcome)
    (hcalls : ∀ e ∈ (openDB later (machineOn lost fate)).trace, steady.events e ∧ ¬ e.Fatal) :
    ∃ past db after trace, Between (acknowledged ++ written) (issued ++ begun) past ∧
      openDB later (machineOn lost fate) = .done (.ok, some db) after trace ∧
      ∀ key, db.get after.dir (fun _ => none) key = response (mapOf past key) := by
  obtain ⟨past, hstands, hbetween⟩ := hlived.stands
  obtain ⟨loose, hweathers⟩ := h.weathers hstands hbetween hsync
  obtain ⟨history, hhistory, m, torn, r, v, logs, hintact⟩ := hweathers lost hlost
  have hfaults : steady.faults (machineOn lost fate).faults := rfl
  obtain ⟨result, after, trace, hexit, _, db, rfl, _, _, hservice⟩ :=
    (openDB_endures (M := Medium.settled lost) hintact (fun _ _ => ⟨rfl, rfl⟩)
      hhistory.ordered.distinct hexists).completes rfl hfaults id hcalls
  exact ⟨history, db, after, trace, hhistory, hexit, hservice.get hhistory.ordered after.dir⟩

def syncedTables : Options := { tinyTables with sync := true }

/-- Two writes, of which the first one is flushed, and then a write for which the memtable is
switched. The power is lost when three bytes of it are in the new log. -/
def cutInNewLog : Option (Bool × List Entry × List Entry) := do
  let (db, written, M) ← poweredBy syncedTables ∅ [firstPut, secondPut]
  let last : Action := .write kTypeDeletion [97] []
  match db.perform .backgroundCompaction (machineOn M.dir []) with
  | .done (some (_, db')) _ flush =>
    match db'.perform last (machineOn (M.run flush).dir [.ok, .kill 3]) with
    | .killed _ trace =>
      let opening := openDB syncedTables (machineOn ((M.run flush).run trace).dir [])
      return (db.imm.isSome && steadyTrace flush && steadyTrace trace &&
        flawlessTrace opening.trace && decide (last.Granted db'), written, last.record db' written)
    | _ => none
  | _ => none

def cutInNewLogBegun : List Entry := firstWrites ++ [⟨[97], 3, kTypeDeletion, []⟩]

set_option maxRecDepth 8192 in
theorem cutInNewLog_cutOff : ∃ M, CutOff syncedTables ∅ firstWrites cutInNewLogBegun M ∧
    M.Leaves M.dir ∧ ∀ e ∈ (openDB syncedTables (machineOn M.dir [])).trace,
      steady.events e ∧ ¬ e.Fatal := by
  have hplay : cutInNewLog = some (true, firstWrites, cutInNewLogBegun) := by decide +kernel
  simp only [cutInNewLog, Option.bind_eq_bind, Option.bind_eq_some_iff] at hplay
  obtain ⟨⟨db, written, M⟩, hfirst, hplay⟩ := hplay
  have hpowered := powered_of_poweredBy hfirst
  have hstands : Stands [] ∅ := Or.inl ⟨bare_empty, rfl⟩
  split at hplay
  · rename_i status db' after flush hflush
    split at hplay
    · rename_i left trace hkilled
      simp only [Option.pure_def, Option.some.injEq, Prod.mk.injEq, Bool.and_eq_true,
        decide_eq_true_eq] at hplay
      obtain ⟨⟨⟨⟨⟨himm, hsteady⟩, hsteady'⟩, hopening⟩, hgranted⟩, rfl, hbegun⟩ := hplay
      have hflushed := steady_of_steadyTrace hsteady
      have hentered := hpowered.flush_entered hstands List.Pairwise.nil himm hflush hflushed
      have hround : Action.backgroundCompaction.Granted db := trivial
      have hlast := hpowered.did hround hflush hflushed
      have hcut := CutOff.during hlast hentered hgranted hkilled (steady_of_steadyTrace hsteady')
      have hrecord : Action.backgroundCompaction.record db firstWrites = firstWrites := rfl
      rw [hrecord, hbegun] at hcut
      exact ⟨_, hcut, ((hpowered.trailing.run flush).run trace).leaves,
        steady_of_flawlessTrace hopening⟩
    · cases hplay
  · cases hplay

theorem synced_writes_outlast_power_loss_cutInNewLog : ∃ M past db after trace,
    CutOff syncedTables ∅ firstWrites cutInNewLogBegun M ∧
      Between firstWrites cutInNewLogBegun past ∧
      openDB syncedTables (machineOn M.dir []) = .done (.ok, some db) after trace ∧
      ∀ key, db.get after.dir (fun _ => none) key = response (mapOf past key) := by
  obtain ⟨M, hcut, hleaves, hcalls⟩ := cutInNewLog_cutOff
  obtain ⟨past, db, after, trace, hreopens⟩ :=
    synced_writes_outlast_power_loss [] [] ∅ (.new bare_empty)
    syncedTables rfl _ _ M hcut M.dir hleaves syncedTables rfl [] hcalls
  exact ⟨M, past, db, after, trace, hcut, hreopens⟩

theorem leaves_erase {M : Medium FileName} {lost : Dir} {name : FileName} (h : M.Leaves lost)
    (hnone : none ∈ M.former name) : M.Leaves (lost.erase name) := by
  intro other
  by_cases hname : other = name
  · subst hname
    exact ⟨none, List.mem_cons_of_mem _ hnone, AList.lookup_erase _ _⟩
  · rw [AList.lookup_erase_ne hname]
    exact h other

/-- The first write of a new database, and an opening without the log that it is in. -/
def lostWithLog : Option (Bool × List Entry × Status × Bytes) := do
  let (_, written, M) ← poweredBy syncedTables ∅ [firstPut]
  match openDB syncedTables (machineOn (M.dir.erase (.log 3)) []) with
  | .done (.ok, some db) after _ =>
    return (decide (none ∈ M.former (.log 3)), written, db.get after.dir (fun _ => none) [97])
  | _ => none

set_option maxRecDepth 8192 in
/-- The log of an acknowledged write has no entry in the directory on the medium. -/
theorem synced_put_lost_with_log : ∃ M lost db after trace,
    Interrupted steady.events syncedTables ∅ [⟨[97], 1, kTypeValue, [49]⟩]
      [⟨[97], 1, kTypeValue, [49]⟩] M ∧
      M.Leaves lost ∧
      openDB syncedTables (machineOn lost []) = .done (.ok, some db) after trace ∧
      db.get after.dir (fun _ => none) [97] = (.notFound "", []) := by
  have hplay : lostWithLog = some (true, [⟨[97], 1, kTypeValue, [49]⟩], .notFound "", []) := by
    decide +kernel
  simp only [lostWithLog, Option.bind_eq_bind, Option.bind_eq_some_iff] at hplay
  obtain ⟨⟨_, written, M⟩, hfirst, hplay⟩ := hplay
  have hpowered := powered_of_poweredBy hfirst
  split at hplay
  · rename_i db after trace hexit
    simp only [Option.pure_def, Option.some.injEq, Prod.mk.injEq, decide_eq_true_eq] at hplay
    obtain ⟨hnone, rfl, hget⟩ := hplay
    exact ⟨M, _, db, after, trace, .between hpowered, leaves_erase hpowered.trailing.leaves hnone,
      hexit, hget⟩
  · cases hplay

end Strata

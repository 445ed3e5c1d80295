import Strata.DBImpl
import Strata.Durable
import Strata.WalFailures

/-! The steps of an open database, whatever becomes of their calls. Everything
but `Put`, `Delete` and the switch of the memtable leaves the logs alone, and
nothing but a write moves `LastSequence`. -/
namespace Strata

open Library System

def OutsideLogs : Event FileName → Prop := Event.Within fun name => ∀ number, name ≠ .log number

theorem outsideLogs_of_ofFile {name : FileName} (hname : ∀ number, name ≠ .log number)
    {e : Event FileName} (h : ofFile name e) : OutsideLogs e := by
  intro other hconcerns
  rw [h other hconcerns]
  exact hname

theorem outsideLogs_of_ofTables {least : Nat} {e : Event FileName} (h : ofTables least e) :
    OutsideLogs e := by
  intro other hconcerns
  obtain ⟨number, _, rfl⟩ := h other hconcerns
  intro log hlog
  cases hlog

namespace WalWriter

theorem new_works (name : FileName) :
    Works (ofFile name) (WalWriter.new name) fun w _ => w.filename = name := by
  apply Works.bind (Works.openAppend fun _ _ hname => hname.symm)
  intro opened front _
  exact Works.ret rfl

theorem appendRecord_works (w : WalWriter) (e : Entry) (sync : Bool) :
    Works (ofFile w.filename) (w.appendRecord e sync) fun _ _ => True := by
  unfold WalWriter.appendRecord
  split
  · exact Works.ret trivial
  · apply Works.bind (Works.append fun _ _ _ hname => hname.symm)
    intro header front _
    split
    · exact Works.ret trivial
    · apply Works.bind (Works.append fun _ _ _ hname => hname.symm)
      intro payload front' _
      split
      · exact Works.ret trivial
      · split
        · unfold WalWriter.sync
          split
          · exact Works.ret trivial
          · apply Works.bind (Works.sync fun _ _ hname => hname.symm)
            intro synced front'' _
            split
            · exact Works.ret trivial
            · exact Works.ret trivial
        · exact Works.ret trivial

end WalWriter

theorem outsideLogs_syncDirectory (outcome : Outcome) :
    OutsideLogs ⟨.syncDirectory, outcome⟩ := by
  intro name hconcerns
  cases hconcerns

theorem setCurrentFile_works (number : Nat) :
    Works OutsideLogs (setCurrentFile number) fun _ _ => True := by
  have htmp : ∀ log, FileName.currentTmp ≠ .log log := fun log h => nomatch h
  have hcurrent : ∀ log, FileName.current ≠ .log log := fun log h => nomatch h
  unfold setCurrentFile
  apply Works.bind (Works.openTrunc fun _ name hname => hname ▸ htmp)
  intro opened _ _
  split
  · exact Works.ret trivial
  apply Works.bind (Works.append fun _ _ name hname => hname ▸ htmp)
  intro written _ _
  split
  · exact Works.ret trivial
  apply Works.bind (Works.sync fun _ name hname => hname ▸ htmp)
  intro synced _ _
  split
  · exact Works.ret trivial
  apply Works.bind (Works.rename fun _ name hname =>
    hname.elim (fun h => h ▸ htmp) fun h => h ▸ hcurrent)
  intro renamed _ _
  split
  · exact Works.ret trivial
  · exact (syncDirectory_works outsideLogs_syncDirectory).weaken fun _ _ _ => trivial

namespace VersionSet

variable {vs : VersionSet} {edit : VersionEdit}

def Described (vs : VersionSet) : Prop :=
  ∀ w, vs.descriptorLog = some w → ∃ number, w.filename = .manifest number

/-- What becomes of the counters while edits without a sequence are logged and numbers are
taken. -/
structure Continues (vs vs' : VersionSet) : Prop where
  lastSequence : vs'.lastSequence = vs.lastSequence
  next : vs.nextFileNumber ≤ vs'.nextFileNumber
  described : vs'.Described

theorem Continues.trans {vs' vs'' : VersionSet} (h : vs.Continues vs') (h' : vs'.Continues vs'') :
    vs.Continues vs'' :=
  ⟨h'.lastSequence.trans h.lastSequence, h.next.trans h'.next, h'.described⟩

theorem Described.outside (h : vs.Described) {w : WalWriter} (hw : vs.descriptorLog = some w) :
    ∀ log, w.filename ≠ .log log := by
  obtain ⟨number, hname⟩ := h w hw
  intro log hlog
  rw [hname] at hlog
  cases hlog

theorem openDescriptor_works (h : vs.Described) :
    Works OutsideLogs vs.openDescriptor fun result _ => vs.Continues result.2 := by
  unfold openDescriptor
  split
  · exact Works.ret ⟨rfl, le_refl _, h⟩
  · rename_i hnone
    have hnew : ∀ number, Described { vs with
        nextFileNumber := vs.nextFileNumber + 1, manifestFileNumber := number } := by
      intro number w hw
      simp only [hnone] at hw
      cases hw
    have hmanifest : ∀ log, FileName.manifest vs.nextFileNumber ≠ .log log :=
      fun log hlog => by cases hlog
    simp only [newFileNumber]
    apply Works.bind ((WalWriter.new_works _).within fun _ => outsideLogs_of_ofFile hmanifest)
    rintro w _ ⟨hname, _⟩
    have houtside : ∀ log, w.filename ≠ .log log := by
      rw [hname]
      exact hmanifest
    apply Works.bind ((w.appendRecord_works _ _).within fun _ => outsideLogs_of_ofFile houtside)
    intro status _ _
    split
    · exact Works.ret ⟨rfl, Nat.le_succ _, hnew _⟩
    apply Works.bind (setCurrentFile_works _)
    intro status' _ _
    split
    · exact Works.ret ⟨rfl, Nat.le_succ _, hnew _⟩
    · apply Works.ret
      refine ⟨rfl, Nat.le_succ _, ?_⟩
      intro w' hw'
      cases hw'
      exact ⟨_, hname⟩

theorem logAndApply_works (h : vs.Described) :
    Works OutsideLogs (vs.logAndApply edit) fun result _ =>
      (edit.lastSequence = none → vs.Continues result.2) ∧ result.2.Described ∧
        vs.nextFileNumber ≤ result.2.nextFileNumber := by
  unfold logAndApply
  simp only
  split
  · exact Works.stuck
  · apply Works.bind (Works.readDir (P := fun _ _ => True) fun _ => trivial)
    intro dir _ _
    apply Works.bind (Works.readFaults (P := fun _ _ => True) fun _ => trivial)
    intro faults _ _
    apply Works.bind (openDescriptor_works h)
    rintro ⟨status, vs'⟩ _ hopened
    simp only at hopened ⊢
    split
    · rename_i w hsome
      apply Works.bind ((w.appendRecord_works _ _).within fun _ =>
        outsideLogs_of_ofFile (hopened.described.outside hsome))
      intro status' _ _
      split
      · exact Works.ret ⟨fun _ => hopened, hopened.described, hopened.next⟩
      · apply Works.ret
        refine ⟨fun hnone => ⟨?_, hopened.next, hopened.described⟩, hopened.described, hopened.next⟩
        simp only [completeEdit, hnone, Option.getD_none, Option.getD_some]
    · exact Works.ret ⟨fun _ => hopened, hopened.described, hopened.next⟩

end VersionSet

def VersionSet.Advances (vs vs' : VersionSet) : Prop :=
  ∃ next, vs.nextFileNumber ≤ next ∧ vs' = { vs with nextFileNumber := next }

namespace VersionSet.Advances

variable {vs vs' vs'' : VersionSet}

theorem refl (vs : VersionSet) : vs.Advances vs := ⟨_, le_refl _, rfl⟩

theorem trans (h : vs.Advances vs') (h' : vs'.Advances vs'') : vs.Advances vs'' := by
  obtain ⟨next, hle, rfl⟩ := h
  obtain ⟨next', hle', rfl⟩ := h'
  exact ⟨next', le_trans hle hle', rfl⟩

theorem newFileNumber (vs : VersionSet) : vs.Advances vs.newFileNumber.2 :=
  ⟨_, Nat.le_succ _, rfl⟩

theorem continues (h : vs.Advances vs') (hdescribed : vs.Described) : vs.Continues vs' := by
  obtain ⟨next, hle, rfl⟩ := h
  exact ⟨rfl, hle, hdescribed⟩

end VersionSet.Advances

theorem writeLevel0Table_advances (options : Options) (vs : VersionSet) (mem : Memtable) :
    Works (fun _ => True) (writeLevel0Table options vs mem) fun result _ => vs.Advances result.2 := by
  have hnew := VersionSet.Advances.newFileNumber vs
  unfold writeLevel0Table
  apply Works.bind ((SSTableBuilder.new_works _).within fun _ _ => trivial)
  rintro b _ ⟨hname, _⟩
  apply Works.bind ((SSTableBuilder.addAll_works _ hname).within fun _ _ => trivial)
  rintro b' _ ⟨hname', _⟩
  apply Works.bind ((SSTableBuilder.finish_works hname').within fun _ _ => trivial)
  rintro ⟨status, b''⟩ _ _
  simp only
  split
  · exact Works.ret hnew
  · apply Works.bind (Works.readDir (P := fun _ _ => True) fun _ => trivial)
    intro dir _ _
    apply Works.bind (Works.readFaults (P := fun _ _ => True) fun _ => trivial)
    intro faults _ _
    split
    · exact Works.ret hnew
    · apply Works.bind (syncDirectory_works fun _ => trivial)
      intro synced _ _
      exact Works.ret hnew

namespace CompactionState

variable {options : Options} {c : Compaction} {st : CompactionState}

theorem finishOutputFile_advances : Works (fun _ => True) (st.finishOutputFile options)
    fun result _ => result.2.versions = st.versions := by
  unfold finishOutputFile
  split
  · exact Works.ret rfl
  · simp only
    split
    · exact Works.ret rfl
    · apply Works.bind ((SSTableBuilder.finish_works rfl).within fun _ _ => trivial)
      rintro ⟨status, b⟩ _ _
      simp only
      split
      · exact Works.ret rfl
      · apply Works.bind (Works.readDir (P := fun _ _ => True) fun _ => trivial)
        intro dir _ _
        apply Works.bind (Works.readFaults (P := fun _ _ => True) fun _ => trivial)
        intro faults _ _
        split
        · exact Works.ret rfl
        · exact Works.ret rfl

theorem ensureOutputFile_advances : Works (fun _ => True) st.ensureOutputFile
    fun result _ => st.versions.Advances result.2.versions := by
  unfold ensureOutputFile
  split
  · exact Works.ret (.refl _)
  · apply Works.bind ((SSTableBuilder.new_works _).within fun _ _ => trivial)
    intro b _ _
    exact Works.ret (.newFileNumber _)

theorem step_advances (e : Entry) : Works (fun _ => True) (st.step options c e)
    fun result _ => st.versions.Advances result.2.versions := by
  unfold step
  split
  · exact Works.ret (.refl _)
  · extract_lets st'
    split
    · exact Works.ret (.refl _)
    · apply Works.bind ensureOutputFile_advances
      rintro ⟨b, st''⟩ _ hensured
      simp only at hensured ⊢
      apply Works.bind ((SSTableBuilder.add_works rfl e).within fun _ _ => trivial)
      intro b' _ _
      split
      · apply finishOutputFile_advances.weaken
        intro result _ hsame
        rw [hsame]
        exact hensured
      · exact Works.ret hensured

theorem loop_advances (fuel : Nat) (it : MergingIterator TwoLevelIterator) :
    Works (fun _ => True) (loop options c fuel it st)
      fun result _ => st.versions.Advances result.2.versions := by
  induction fuel generalizing it st with
  | zero => exact Works.stuck
  | succ fuel ih =>
    unfold loop
    split
    · exact Works.ret (.refl _)
    · apply Works.bind (step_advances it.entry)
      rintro ⟨status, st'⟩ _ hstep
      simp only at hstep ⊢
      split
      · exact Works.ret hstep
      · apply (ih it.next).weaken
        intro result _ hrest
        exact hstep.trans hrest

end CompactionState

namespace Compaction

variable {options : Options} {vs : VersionSet} {c : Compaction}

def leftVersions : Except (Status × VersionSet) (VersionSet × List FileMetaData) → VersionSet
  | .error (_, versions) => versions
  | .ok (versions, _) => versions

theorem writeOutputs_advances : Works (fun _ => True) (c.writeOutputs options vs)
    fun result _ => vs.Advances (leftVersions result) := by
  unfold writeOutputs
  apply Works.bind (Works.readDir (P := fun _ _ => True) fun _ => trivial)
  intro dir _ _
  apply Works.bind (Works.readFaults (P := fun _ _ => True) fun _ => trivial)
  intro faults _ _
  split
  · exact Works.ret (.refl _)
  · split
    · exact Works.ret (.refl _)
    · apply Works.bind (CompactionState.loop_advances _ _)
      rintro ⟨status, st⟩ _ hloop
      simp only at hloop ⊢
      split
      · exact Works.ret hloop
      · apply Works.bind CompactionState.finishOutputFile_advances
        rintro ⟨status', st'⟩ _ hsame
        simp only at hsame ⊢
        rw [hsame]
        split
        · exact Works.ret hloop
        · exact Works.ret hloop

theorem edit_lastSequence (outputs : List FileMetaData) :
    (c.edit outputs).lastSequence = none := by
  obtain ⟨deleted, hedit⟩ := c.edit_eq outputs
  rw [hedit]

theorem outsideLogs_table {S : FileName → Prop} (hS : ∀ name, S name → ∃ n, name = .table n)
    {e : Event FileName} (h : e.Within S) : OutsideLogs e := by
  intro name hconcerns log hlog
  obtain ⟨number, htable⟩ := hS name (h name hconcerns)
  rw [htable] at hlog
  cases hlog

theorem installOutputs_works (h : vs.Described) (outputs : List FileMetaData) :
    Works OutsideLogs (c.installOutputs vs outputs) fun result _ => vs.Continues result.2 := by
  unfold installOutputs
  apply Works.bind (syncDirectory_works outsideLogs_syncDirectory)
  intro status _ _
  apply Works.bind (VersionSet.logAndApply_works h)
  rintro ⟨status', vs'⟩ _ ⟨hcontinues, _⟩
  have hdone := hcontinues (edit_lastSequence outputs)
  simp only at hdone ⊢
  split
  · exact Works.ret hdone
  · apply Works.bind ((unlinkTables_works c.inputs).within fun _ =>
      outsideLogs_table fun _ hinput => hinput.elim fun f hf => ⟨f.number, hf.2⟩)
    intro _ _ _
    apply Works.bind (syncDirectory_works outsideLogs_syncDirectory)
    intro status'' _ _
    exact Works.ret hdone

theorem doCompaction_works (h : vs.Described) :
    Works OutsideLogs (doCompaction options vs c) fun result _ => vs.Continues result.2 := by
  rw [doCompaction_eq]
  apply Works.bind (((writeOutputs_works options vs c).within fun _ =>
    outsideLogs_of_ofTables).and writeOutputs_advances)
  rintro result _ ⟨_, hadvances⟩
  have hcontinues := hadvances.continues h
  cases result with
  | error stopped => exact Works.ret hcontinues
  | ok written =>
    apply (installOutputs_works hcontinues.described written.2).weaken
    intro result _ hdone
    exact hcontinues.trans hdone

end Compaction

namespace DBImpl

variable {db : DBImpl}

/-- The log and `LastSequence` are as they were. -/
structure Carries (db db' : DBImpl) : Prop where
  walWriter : db'.walWriter = db.walWriter
  logFileNumber : db'.logFileNumber = db.logFileNumber
  versions : db.versions.Continues db'.versions

theorem Carries.refl (h : db.versions.Described) : db.Carries db :=
  ⟨rfl, rfl, rfl, le_refl _, h⟩

theorem Carries.trans {db' db'' : DBImpl} (h : db.Carries db') (h' : db'.Carries db'') :
    db.Carries db'' :=
  ⟨h'.walWriter.trans h.walWriter, h'.logFileNumber.trans h.logFileNumber,
    h.versions.trans h'.versions⟩

theorem flushImmutable_works (h : db.versions.Described) :
    Works OutsideLogs db.flushImmutable fun result _ => db.Carries result.2 := by
  unfold flushImmutable
  split
  · exact Works.ret (.refl h)
  · rename_i index _
    have htable : ∀ log, FileName.table db.versions.nextFileNumber ≠ .log log :=
      fun log hlog => by cases hlog
    apply Works.bind (((writeLevel0Table_works db.options db.versions (db.memtable index)).within
      fun _ => outsideLogs_of_ofFile htable).and (writeLevel0Table_advances _ _ _))
    rintro ⟨table, vs⟩ _ ⟨_, hadvances⟩
    have hcontinues := hadvances.continues h
    simp only at hcontinues ⊢
    split
    · exact Works.ret ⟨rfl, rfl, hcontinues⟩
    · apply Works.bind (VersionSet.logAndApply_works hcontinues.described)
      rintro ⟨status, vs'⟩ _ ⟨hdone, _⟩
      exact Works.ret ⟨rfl, rfl, hcontinues.trans (hdone rfl)⟩

theorem majorCompaction_works (h : db.versions.Described) :
    Works OutsideLogs db.majorCompaction fun result _ => db.Carries result.2 := by
  unfold majorCompaction
  split
  · exact Works.ret (.refl h)
  · apply Works.bind (Compaction.doCompaction_works h)
    rintro ⟨status, vs⟩ _ hdone
    exact Works.ret ⟨rfl, rfl, hdone⟩

theorem removeObsoleteFiles_works (db : DBImpl) :
    Works OutsideLogs db.removeObsoleteFiles fun _ _ => True := by
  unfold removeObsoleteFiles
  apply Works.bind (Works.readDir (P := fun _ _ => True) fun _ => trivial)
  intro dir _ _
  apply ((removeFiles_works _ _).within ?_).weaken fun _ _ _ => trivial
  intro e he name hconcerns log hlog
  obtain ⟨_, number, hnumber, _⟩ := he name hconcerns
  rw [hlog] at hnumber
  cases hnumber

theorem backgroundCompaction_works (h : db.versions.Described) :
    Works OutsideLogs db.backgroundCompaction fun db' _ => db.Carries db' := by
  unfold backgroundCompaction
  apply Works.bind (flushImmutable_works h)
  rintro ⟨status, db₁⟩ _ hflush
  apply Works.bind (majorCompaction_works hflush.versions.described)
  rintro ⟨status', db₂⟩ _ hcompact
  apply Works.bind (removeObsoleteFiles_works db₂)
  intro _ _ _
  exact Works.ret (hflush.trans hcompact)

theorem compactRange_works (h : db.versions.Described) :
    Works OutsideLogs db.compactRange fun result _ => db.Carries result.2 := by
  unfold compactRange
  split
  · exact Works.ret (.refl h)
  · apply Works.bind (Compaction.doCompaction_works h)
    rintro ⟨status, vs⟩ _ hdone
    apply Works.bind (removeObsoleteFiles_works _)
    intro _ _ _
    exact Works.ret ⟨rfl, rfl, hdone⟩

end DBImpl

def logBytes (dir : Dir) (number : Nat) : Bytes := (dir.lookup (.log number)).getD []

def LogsKept (dir dir' : Dir) : Prop := ∀ number, logBytes dir' number = logBytes dir number

/-- These bytes are new at the end of this log, and the others are as they were. -/
structure LogGrows (number : Nat) (left : Bytes) (dir dir' : Dir) : Prop where
  others : ∀ other, other ≠ number → logBytes dir' other = logBytes dir other
  grown : logBytes dir' number = logBytes dir number ++ left

theorem LogsKept.grows {dir dir' dir'' : Dir} (h : LogsKept dir dir') {number : Nat} {left : Bytes}
    (hgrows : LogGrows number left dir' dir'') : LogGrows number left dir dir'' := by
  refine ⟨fun other hne => (hgrows.others other hne).trans (h other), ?_⟩
  rw [hgrows.grown, h number]

/-- What an append of the record can leave: some of it, and all of it or nothing if it
returned OK. An append to a file that was removed leaves nothing in the directory. -/
structure LeftOf (e : Entry) (status : Status) (left : Bytes) : Prop where
  part : left <+: walFrame e
  whole : status = .ok → left = walFrame e ∨ left = []

theorem logsKept_touch (number : Nat) (dir : Dir) : LogsKept dir (touch dir (.log number)) := by
  intro other
  by_cases heq : other = number
  · rw [heq, logBytes, lookup_touch_self]
    rfl
  · rw [logBytes, lookup_touch_other (by simpa using heq), logBytes]

theorem logGrows_nil (number : Nat) (dir : Dir) : LogGrows number [] dir dir :=
  ⟨fun _ _ => rfl, (List.append_nil _).symm⟩

theorem logGrows_extend {number : Nat} {dir : Dir} {old : Bytes}
    (hfile : dir.lookup (.log number) = some old) (left : Bytes) :
    LogGrows number left dir (extend dir (.log number) left) := by
  constructor
  · intro other hne
    rw [logBytes, lookup_extend_other (by simpa using hne), logBytes]
  · rw [logBytes, lookup_extend_self hfile, logBytes, hfile]
    rfl

theorem appendRecord_grows {w : WalWriter} {number : Nat} (hname : w.filename = .log number)
    (e : Entry) (sync : Bool) (dir : Dir) :
    Runs Assume.any dir (w.appendRecord e sync)
      (fun status after => ∃ left, LeftOf e status left ∧ LogGrows number left dir after)
      fun _ => True := by
  have hnothing : ∀ status, LeftOf e status [] := fun _ => ⟨List.nil_prefix, fun _ => Or.inr rfl⟩
  cases hopened : w.opened with
  | false =>
    refine Runs.weaken (appendRecord_closed hopened e sync) ?_ fun _ h => h
    rintro status after ⟨_, rfl⟩
    exact ⟨[], hnothing _, logGrows_nil _ _⟩
  | true =>
    refine Runs.weaken (appendRecord_outcome hopened e sync) ?_ fun _ h => h
    rintro status after ⟨left, ⟨hpart, _⟩, rfl, hwhole⟩
    rw [hname]
    cases hfile : dir.lookup (.log number) with
    | none =>
      have hsame : extend dir (.log number) left = dir := by simp [extend, hfile]
      rw [hsame]
      exact ⟨[], hnothing _, logGrows_nil _ _⟩
    | some old => exact ⟨left, ⟨hpart, fun hok => Or.inl (hwhole hok)⟩, logGrows_extend hfile left⟩

namespace DBImpl

variable {db : DBImpl} {dir : Dir}

structure Logging (db : DBImpl) : Prop where
  walWriter : db.walWriter.filename = .log db.logFileNumber
  below : db.logFileNumber < db.versions.nextFileNumber
  described : db.versions.Described

theorem Carries.logging {db' : DBImpl} (hcarries : db.Carries db') (h : db.Logging) :
    db'.Logging := by
  refine ⟨?_, ?_, hcarries.versions.described⟩
  · rw [hcarries.walWriter, hcarries.logFileNumber]
    exact h.walWriter
  · rw [hcarries.logFileNumber]
    exact lt_of_lt_of_le h.below hcarries.versions.next

theorem switchMemtable_logs (h : db.Logging) :
    Runs Assume.any dir db.switchMemtable
      (fun db' after => db'.Logging ∧ db'.logFileNumber = db.versions.nextFileNumber ∧
        db'.versions.lastSequence = db.versions.lastSequence ∧ LogsKept dir after)
      fun _ => True := by
  unfold switchMemtable
  simp only [VersionSet.newFileNumber]
  refine Runs.bind (M := fun w after => w.filename = .log db.versions.nextFileNumber ∧
    LogsKept dir after) ?_ ?_
  · unfold WalWriter.new
    refine Runs.bind (Runs.call (Q := fun _ after => LogsKept dir after)
      (fun _ => logsKept_touch _ _) (fun _ _ _ => rfl) fun _ _ => trivial) ?_
    intro opened after hsame
    exact Runs.ret ⟨rfl, hsame⟩
  · rintro w after ⟨hname, hsame⟩
    exact Runs.ret ⟨⟨hname, Nat.lt_succ_self _, h.described⟩, rfl, rfl, hsame⟩

def logToWrite (db : DBImpl) : Nat :=
  if db.active.approximateMemoryUsage < db.options.writeBufferSize then db.logFileNumber
  else db.versions.nextFileNumber

theorem Logging.le_logToWrite (h : db.Logging) : db.logFileNumber ≤ db.logToWrite := by
  unfold logToWrite
  split
  · exact le_refl _
  · exact le_of_lt h.below

theorem makeRoomForWrite_logs (h : db.Logging) :
    Runs Assume.any dir db.makeRoomForWrite
      (fun room after => ∀ db', room = some db' → db'.Logging ∧
        db'.logFileNumber = db.logToWrite ∧
        db'.versions.lastSequence = db.versions.lastSequence ∧ LogsKept dir after)
      fun _ => True := by
  unfold makeRoomForWrite logToWrite
  split
  · apply Runs.ret
    rintro db' ⟨⟩
    exact ⟨h, rfl, rfl, fun _ => rfl⟩
  · split
    · apply Runs.ret
      rintro db' ⟨⟩
    · refine Runs.bind (switchMemtable_logs h) ?_
      intro db' after hswitched
      apply Runs.ret
      rintro db'' ⟨⟩
      exact hswitched

theorem write_logs (h : db.Logging) (type : ValueType) (key : Key) (value : Bytes) :
    Runs Assume.any dir (db.write type key value)
      (fun result after => ∀ status db', result = some (status, db') → db'.Logging ∧
        db'.logFileNumber = db.logToWrite ∧
        db.versions.lastSequence ≤ db'.versions.lastSequence ∧
        (status = .ok → db'.versions.lastSequence = db.versions.lastSequence + 1) ∧
        ∃ left, LeftOf ⟨key, db.versions.lastSequence + 1, type, value⟩ status left ∧
          LogGrows db.logToWrite left dir after) fun _ => True := by
  unfold write
  refine Runs.bind (makeRoomForWrite_logs h) ?_
  intro room middle hroom
  cases room with
  | none =>
    apply Runs.ret
    rintro status db' ⟨⟩
  | some db₁ =>
    obtain ⟨hlogging, hnumber, hlast, hsame⟩ := hroom db₁ rfl
    rw [← hnumber, ← hlast]
    refine Runs.bind (appendRecord_grows hlogging.walWriter _ _ _) ?_
    rintro status after ⟨left, hleft, hgrows⟩
    split
    · rename_i hfailed
      apply Runs.ret
      rintro status' db' ⟨⟩
      refine ⟨hlogging, rfl, le_refl _, ?_, left, hleft, hsame.grows hgrows⟩
      rintro rfl
      cases hfailed
    · rename_i hok
      have hstatus : status = .ok := by
        by_contra hne
        exact hok (by simp [Status.isOk_eq_false.mpr hne])
      rw [hstatus] at hleft
      apply Runs.ret
      rintro status' db' ⟨⟩
      rw [VersionSet.setLastSequence_eq]
      exact ⟨⟨hlogging.walWriter, hlogging.below, hlogging.described⟩, rfl, Nat.le_max_left _ _,
        fun _ => Nat.max_eq_right (Nat.le_succ _), left, hleft, hsame.grows hgrows⟩

theorem flushMemTable_logs (h : db.Logging) :
    Runs Assume.any dir db.flushMemTable
      (fun db' after => db'.Logging ∧ db.logFileNumber ≤ db'.logFileNumber ∧
        db'.versions.lastSequence = db.versions.lastSequence ∧ LogsKept dir after)
      fun _ => True := by
  unfold flushMemTable
  split
  · refine Runs.weaken (switchMemtable_logs h) ?_ fun _ h => h
    rintro db' after ⟨hlogging, hnumber, hlast, hsame⟩
    exact ⟨hlogging, hnumber ▸ le_of_lt h.below, hlast, hsame⟩
  · exact Runs.ret ⟨h, le_refl _, rfl, fun _ => rfl⟩

end DBImpl

/-! Opening a database. -/

theorem VersionSet.described_new : VersionSet.new.Described := fun _ hw => nomatch hw

theorem VersionSet.recover_described {vs vs' : VersionSet} (h : vs.Described) {dir : Dir}
    {faults : Faults} {status : Status} (hrecover : vs.recover dir faults = some (status, vs')) :
    vs'.Described := by
  unfold recover at hrecover
  split at hrecover
  · cases hrecover
    exact h
  · split at hrecover
    · cases hrecover
      exact h
    · simp only at hrecover
      split at hrecover
      · cases hrecover
      · cases hrecover
        exact h
      · split at hrecover
        · cases hrecover
        · cases hrecover
          exact h

theorem recoverVersions_described (options : Options) :
    Works (fun _ => True) (recoverVersions options) fun result _ => result.2.Described := by
  unfold recoverVersions
  apply Works.bind (Works.readDir (P := fun _ _ => True) fun _ => trivial)
  intro dir _ _
  apply Works.bind (Works.readFaults (P := fun _ _ => True) fun _ => trivial)
  intro faults _ _
  split
  · split
    · exact Works.ret VersionSet.described_new
    · apply ((VersionSet.logAndApply_works VersionSet.described_new).within
        fun _ _ => trivial).weaken
      rintro result _ ⟨⟨_, hdescribed, _⟩, _⟩
      exact hdescribed
  · split
    · exact Works.ret VersionSet.described_new
    · split
      · exact Works.stuck
      · rename_i result hrecover
        exact Works.ret (VersionSet.recover_described VersionSet.described_new hrecover)

theorem setLastSequence_described {vs : VersionSet} (h : vs.Described) (seq : Nat) :
    (vs.setLastSequence seq).Described := by
  rw [VersionSet.setLastSequence_eq]
  exact h

theorem replayLog_described (options : Options) {vs : VersionSet} (h : vs.Described) (number : Nat) :
    Works (fun _ => True) (replayLog options vs number) fun result _ => result.2.Described := by
  unfold replayLog
  apply Works.bind (Works.readDir (P := fun _ _ => True) fun _ => trivial)
  intro dir _ _
  apply Works.bind (Works.readFaults (P := fun _ _ => True) fun _ => trivial)
  intro faults _ _
  simp only
  split
  · exact Works.stuck
  · split
    · apply Works.bind (writeLevel0Table_advances _ _ _)
      rintro ⟨table, vs'⟩ _ hadvances
      have hdescribed := (hadvances.continues (setLastSequence_described h _)).described
      simp only at hdescribed ⊢
      split
      · exact Works.ret hdescribed
      · apply Works.bind ((VersionSet.logAndApply_works hdescribed).within fun _ _ => trivial)
        rintro ⟨status, vs''⟩ _ ⟨⟨_, hlogged, _⟩, _⟩
        simp only at hlogged ⊢
        split
        · exact Works.ret hlogged
        · apply Works.bind (Works.unlink fun _ => trivial)
          intro _ _ _
          exact Works.ret hlogged
    · apply Works.bind (Works.unlink fun _ => trivial)
      intro _ _ _
      exact Works.ret (setLastSequence_described h _)

theorem replayLogs_described (options : Options) (numbers : List Nat) {vs : VersionSet}
    (h : vs.Described) :
    Works (fun _ => True) (replayLogs options vs numbers) fun result _ => result.2.Described := by
  induction numbers generalizing vs with
  | nil => exact Works.ret h
  | cons number rest ih =>
    unfold replayLogs
    apply Works.bind (replayLog_described options h number)
    rintro ⟨status, vs'⟩ _ hreplayed
    simp only at hreplayed ⊢
    split
    · exact Works.ret hreplayed
    · exact ih hreplayed

theorem openDB_logging (options : Options) :
    Works (fun _ => True) (openDB options) fun result _ =>
      ∀ db, result.2 = some db → db.Logging := by
  unfold openDB
  apply Works.bind (Works.openAppend fun _ => trivial)
  intro locked _ _
  split
  · exact Works.ret fun db hdb => by cases hdb
  apply Works.bind (recoverVersions_described options)
  rintro ⟨status, vs⟩ _ hrecovered
  simp only at hrecovered ⊢
  split
  · exact Works.ret fun db hdb => by cases hdb
  apply Works.bind (Works.readDir (P := fun _ _ => True) fun _ => trivial)
  intro dir _ _
  split
  · exact Works.stuck
  apply Works.bind (replayLogs_described options _ hrecovered)
  rintro ⟨status', vs'⟩ _ hreplayed
  simp only at hreplayed ⊢
  split
  · exact Works.ret fun db hdb => by cases hdb
  unfold startLog
  simp only [VersionSet.newFileNumber]
  apply Works.bind ((WalWriter.new_works _).within fun _ _ => trivial)
  rintro w _ ⟨hname, _⟩
  have hnumbered : VersionSet.Described { vs' with nextFileNumber := vs'.nextFileNumber + 1 } :=
    hreplayed
  apply Works.bind ((VersionSet.logAndApply_works hnumbered).within fun _ _ => trivial)
  rintro ⟨status'', vs''⟩ _ ⟨⟨_, hdescribed, hnext⟩, _⟩
  simp only at hdescribed hnext ⊢
  split
  · exact Works.ret fun db hdb => by cases hdb
  · apply Works.ret
    rintro db ⟨⟩
    exact ⟨hname, hnext, hdescribed⟩

/-! Histories. -/

/-- What the threads of one process do, each under `mutex_`. -/
inductive Action where
  | write (type : ValueType) (key : Key) (value : Bytes)
  | flushMemTable
  | compactRange
  | backgroundCompaction
  deriving DecidableEq, Repr

structure Store where
  db : DBImpl
  machine : Machine FileName

def Step (before : Store) (action : Action) (after : Store) : Prop :=
  match action with
  | .write type key value => ∃ status trace, before.db.write type key value before.machine =
      .done (some (status, after.db)) after.machine trace
  | .flushMemTable => ∃ trace, before.db.flushMemTable before.machine =
      .done after.db after.machine trace
  | .compactRange => ∃ status trace, before.db.compactRange before.machine =
      .done (status, after.db) after.machine trace
  | .backgroundCompaction => ∃ trace, before.db.backgroundCompaction before.machine =
      .done after.db after.machine trace

def Store.act (store : Store) : Action → Option Store
  | .write type key value =>
    match store.db.write type key value store.machine with
    | .done (some (_, db)) machine _ => some ⟨db, machine⟩
    | _ => none
  | .flushMemTable =>
    match store.db.flushMemTable store.machine with
    | .done db machine _ => some ⟨db, machine⟩
    | _ => none
  | .compactRange =>
    match store.db.compactRange store.machine with
    | .done (_, db) machine _ => some ⟨db, machine⟩
    | _ => none
  | .backgroundCompaction =>
    match store.db.backgroundCompaction store.machine with
    | .done db machine _ => some ⟨db, machine⟩
    | _ => none

def Store.actAll (store : Store) (actions : List Action) : Option Store :=
  actions.foldlM Store.act store

structure Transition where
  before : Store
  action : Action
  after : Store

inductive History : Store → List Transition → Store → Prop
  | start (store : Store) : History store [] store
  | step {first last next : Store} {front : List Transition} {action : Action}
      (hfront : History first front last) (hstep : Step last action next) :
      History first (front ++ [⟨last, action, next⟩]) next

end Strata

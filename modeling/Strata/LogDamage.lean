import Strata.Level0

/-! Opening a database with a damaged log. The replay loop stops at the first
record that cannot be read, writes what it has, and removes the log. -/
namespace Strata

open Library System

def logReading (dir : Dir) (faults : Faults) (number : Nat) : List Entry × ReadEnd :=
  (WalReader.new (dir.lookup (.log number)) (faults (.log number))).readAll

/-- The reading of the log ends in an error, not at a clean or a torn end. -/
def LogDamaged (dir : Dir) (faults : Faults) (number : Nat) : Prop :=
  (dir.lookup (.log number)).isSome ∧
    ∃ ended, (logReading dir faults number).2 = .status ended ∧ ended.isNotFound = false

def manifestLogNumber (dir : Dir) (faults : Faults) : Option Nat :=
  if (dir.lookup .current).isNone then some 0
  else
    match VersionSet.new.recover dir faults with
    | some (.ok, vs) => some vs.logNumber
    | _ => none

/-- The manifest that `CURRENT` names has the record of the edit. -/
def HasRecord (dir : Dir) (edit : VersionEdit) : Prop :=
  ∃ m bytes, dir.lookup .current = some (currentText m) ∧ dir.lookup (.manifest m) = some bytes ∧
    walFrame (VersionSet.manifestEntry edit) <:+: bytes

def InLevel0 (options : Options) (dir : Dir) (records : List Entry) : Prop :=
  ∃ edit f, HasRecord dir edit ∧ (0, f) ∈ edit.newFiles ∧ dir.lookup (.table f.number) =
    some (layoutOf options (records.foldl Memtable.add .new).entries).image

/-- The log was read to a clean or a torn end, and its records are in a table. -/
def LogAccepted (options : Options) (machine : Machine FileName) (after : Dir) (number : Nat) :
    Prop :=
  (∃ msg, (logReading machine.dir machine.faults number).2 = .status (.notFound msg)) ∧
    ((logReading machine.dir machine.faults number).1 = [] ∨
      InLevel0 options after (logReading machine.dir machine.faults number).1)

/-- A damaged log from the manifest's log number on makes the open fail and is left as it is.
The open returns OK only with every log from that number on accepted, and it leaves the logs
below alone. The lock file is there before the manifest is read. -/
def LogsChecked (options : Options) (machine : Machine FileName) : Prop :=
  ∀ status db after trace, openDB options machine = .done (status, db) after trace →
    ∀ least, manifestLogNumber (touch machine.dir .lock) machine.faults = some least →
      ∀ number, (machine.dir.lookup (.log number)).isSome →
        (least ≤ number → LogDamaged machine.dir machine.faults number →
          status ≠ .ok ∧ after.dir.lookup (.log number) = machine.dir.lookup (.log number)) ∧
        (status = .ok → least ≤ number → LogAccepted options machine after.dir number) ∧
        (number < least → after.dir.lookup (.log number) = machine.dir.lookup (.log number))

def Refused (options : Options) (dir : Dir) : Prop :=
  if (dir.lookup .current).isNone then options.createIfMissing = false
  else options.errorIfExists = true

def TableRejected (options : Options) (records : List Entry) : Prop :=
  records ≠ [] ∧ ∃ status,
    openWritten options (records.foldl Memtable.add .new).entries none 0 = .error status

theorem openWritten_number (options : Options) (es : List Entry) (number : Nat) :
    openWritten options es none number =
      (openWritten options es none 0).map fun r => { r with fileNumber := number } := by
  unfold openWritten SSTableReader.openTable
  simp only [bind, Except.bind, pure, Except.pure, throw, throwThe, MonadExceptOf.throw]
  repeat' split
  all_goals rfl

/-! What opening does when no call fails, as far as the logs go. -/

def SameLogs (before after : Dir) : Prop :=
  ∀ number, after.lookup (.log number) = before.lookup (.log number)

theorem SameLogs.trans {a b c : Dir} (hab : SameLogs a b) (hbc : SameLogs b c) : SameLogs a c :=
  fun number => (hbc number).trans (hab number)

theorem SameLogs.logReading {before after : Dir} (h : SameLogs before after) (faults : Faults)
    (number : Nat) : logReading after faults number = Strata.logReading before faults number := by
  unfold Strata.logReading
  rw [h number]

/-- The manifest in use, if there is one, is open, and it is the one that `CURRENT` names. -/
def VersionSet.InUse (vs : VersionSet) (dir : Dir) : Prop :=
  ∀ w, vs.descriptorLog = some w → w.opened = true ∧ ∃ m bytes, w.filename = .manifest m ∧
    dir.lookup .current = some (currentText m) ∧ dir.lookup (.manifest m) = some bytes

/-- What an opening goes on to do: manifests only grow, tables have new numbers, and with a
manifest in use `CURRENT` stays. -/
structure VersionSet.Onward (vs : VersionSet) (dir : Dir) (vs' : VersionSet) (after : Dir) :
    Prop where
  next : vs.nextFileNumber ≤ vs'.nextFileNumber
  manifests : ∀ m bytes, dir.lookup (.manifest m) = some bytes →
    ∃ more, after.lookup (.manifest m) = some (bytes ++ more)
  tables : ∀ n < vs.nextFileNumber, after.lookup (.table n) = dir.lookup (.table n)
  current : vs.descriptorLog.isSome → vs'.descriptorLog.isSome ∧
    after.lookup .current = dir.lookup .current

variable {dir middle after : Dir} {faults : Faults} {vs vs' vs'' : VersionSet}

namespace VersionSet.Onward

theorem of_lookup (hnext : vs.nextFileNumber ≤ vs'.nextFileNumber)
    (hdescriptor : vs.descriptorLog.isSome → vs'.descriptorLog.isSome)
    (hmanifests : ∀ m, after.lookup (.manifest m) = dir.lookup (.manifest m))
    (htables : ∀ n < vs.nextFileNumber, after.lookup (.table n) = dir.lookup (.table n))
    (hcurrent : after.lookup .current = dir.lookup .current) : vs.Onward dir vs' after :=
  ⟨hnext, fun m bytes hbytes => ⟨[], by rw [hmanifests, hbytes, List.append_nil]⟩, htables,
    fun hsome => ⟨hdescriptor hsome, hcurrent⟩⟩

theorem trans (h : vs.Onward dir vs' middle) (h' : vs'.Onward middle vs'' after) :
    vs.Onward dir vs'' after := by
  refine ⟨h.next.trans h'.next, fun m bytes hbytes => ?_, fun n hn => ?_, fun hsome => ?_⟩
  · obtain ⟨more, hmore⟩ := h.manifests m bytes hbytes
    obtain ⟨last, hlast⟩ := h'.manifests m _ hmore
    exact ⟨more ++ last, by rw [hlast, List.append_assoc]⟩
  · rw [h'.tables n (lt_of_lt_of_le hn h.next), h.tables n hn]
  · obtain ⟨hsome', hcurrent⟩ := h.current hsome
    obtain ⟨hsome'', hcurrent'⟩ := h'.current hsome'
    exact ⟨hsome'', hcurrent'.trans hcurrent⟩

end VersionSet.Onward

theorem HasRecord.onward {edit : VersionEdit} (h : HasRecord dir edit) (hsome : vs.descriptorLog.isSome)
    (honward : vs.Onward dir vs' after) : HasRecord after edit := by
  obtain ⟨m, bytes, hcurrent, hbytes, front, back, rfl⟩ := h
  obtain ⟨more, hmore⟩ := honward.manifests m _ hbytes
  exact ⟨m, _, (honward.current hsome).2.trans hcurrent, hmore, front, back ++ more, by simp⟩

def VersionSet.Stored (vs : VersionSet) (options : Options) (dir : Dir) (records : List Entry) :
    Prop :=
  vs.descriptorLog.isSome ∧ ∃ edit f, HasRecord dir edit ∧ (0, f) ∈ edit.newFiles ∧
    f.number < vs.nextFileNumber ∧ dir.lookup (.table f.number) =
      some (layoutOf options (records.foldl Memtable.add .new).entries).image

theorem VersionSet.Stored.onward {options : Options} {records : List Entry}
    (h : vs.Stored options dir records) (honward : vs.Onward dir vs' after) :
    vs'.Stored options after records := by
  obtain ⟨hsome, edit, f, hrecorded, hmem, hnumber, htable⟩ := h
  exact ⟨(honward.current hsome).1, edit, f, hrecorded.onward hsome honward, hmem,
    lt_of_lt_of_le hnumber honward.next, (honward.tables _ hnumber).trans htable⟩

theorem VersionSet.Stored.inLevel0 {options : Options} {records : List Entry}
    (h : vs.Stored options dir records) : InLevel0 options dir records := by
  obtain ⟨_, edit, f, hrecorded, hmem, _, htable⟩ := h
  exact ⟨edit, f, hrecorded, hmem, htable⟩

theorem VersionSet.Switched.sameLogs {more : Bytes} {left : Dir} (h : vs.Switched dir more left) :
    SameLogs dir left := by
  intro number
  rw [h.1 _ (by simp) (by simp), lookup_extend_other (by simp), lookup_touch_other (by simp)]

structure VersionSet.Logged (vs : VersionSet) (edit : VersionEdit) (dir : Dir) (vs' : VersionSet)
    (after : Dir) : Prop where
  inUse : vs'.InUse after
  onward : vs.Onward dir vs' after
  descriptor : vs'.descriptorLog.isSome
  recorded : HasRecord after (vs.completeEdit edit)
  sameLogs : SameLogs dir after

theorem logAndApply_calm {edit : VersionEdit} (hopen : vs.InUse dir)
    (hlevels : ∀ item ∈ edit.newFiles, item.1 < kNumLevels) :
    Runs (Assume.calm faults) dir (vs.logAndApply edit)
      (fun result after => result.1 = .ok ∧
        result.2.logNumber = edit.logNumber.getD vs.logNumber ∧ vs.Logged edit dir result.2 after)
      fun _ => True := by
  cases hdescriptor : vs.descriptorLog with
  | some w =>
    obtain ⟨hopened, m, bytes, hname, hcurrent, hbytes⟩ := hopen w hdescriptor
    apply (VersionSet.logAndApply_append (Assume.calm_noFail faults) hdescriptor hopened hlevels
      fun _ _ => trivial).weaken _ fun _ h => h
    rintro ⟨status, vs'⟩ after ⟨hstatus, ⟨seen, _, rfl⟩, rfl, _⟩
    have hother : ∀ name, name ≠ .manifest m →
        (extend dir w.filename (vs.editFrame edit)).lookup name = dir.lookup name :=
      fun name hne => lookup_extend_other (by rwa [hname])
    have hgrown : (extend dir w.filename (vs.editFrame edit)).lookup (.manifest m) =
        some (bytes ++ vs.editFrame edit) := by
      rw [hname]
      exact lookup_extend_self hbytes
    have hsome : (vs.applied edit dir seen).descriptorLog = some w := hdescriptor
    refine ⟨hstatus, rfl, ⟨fun w' hw' => ?_, ⟨le_refl _, fun n old hold => ?_, fun n _ => ?_, fun _ => ?_⟩,
      by rw [hsome]; rfl, ⟨m, _, ?_, hgrown, bytes, [], by rw [List.append_nil]; rfl⟩, fun n => ?_⟩⟩
    · obtain rfl := Option.some.inj (hsome.symm.trans hw')
      exact ⟨hopened, m, _, hname, (hother _ (by simp)).trans hcurrent, hgrown⟩
    · by_cases hn : n = m
      · subst hn
        rw [hbytes, Option.some.injEq] at hold
        exact ⟨_, hold ▸ hgrown⟩
      · exact ⟨[], by rw [hother _ (by simpa using hn), hold, List.append_nil]⟩
    · exact hother _ (by simp)
    · exact ⟨by rw [hsome]; rfl, hother _ (by simp)⟩
    · exact (hother _ (by simp)).trans hcurrent
    · exact hother _ (by simp)
  | none =>
    apply (VersionSet.logAndApply_create (Assume.calm_noFail faults) hdescriptor hlevels
      (fun _ _ => trivial) fun _ _ _ _ _ => trivial).weaken _ fun _ h => h
    rintro ⟨status, vs'⟩ after ⟨hstatus, ⟨seen, _, rfl⟩, hswitched, _⟩
    have hmade : after.lookup (.manifest vs.nextFileNumber) =
        some ((dir.lookup (.manifest vs.nextFileNumber)).getD [] ++
          (vs.snapshotFrame ++ vs.editFrame edit)) := by
      rw [hswitched.1 _ (by simp) (by simp), lookup_extend_self lookup_touch_self]
    have hother : ∀ name, name ≠ .current → name ≠ .currentTmp →
        name ≠ .manifest vs.nextFileNumber → after.lookup name = dir.lookup name := by
      intro name hcurrent htmp hne
      rw [hswitched.1 _ hcurrent htmp, lookup_extend_other hne, lookup_touch_other hne]
    refine ⟨hstatus, rfl, ⟨fun w hw => ?_, ⟨Nat.le_succ _, fun n old hold => ?_, fun n _ => ?_,
      fun hsome => ?_⟩, rfl, ⟨_, _, hswitched.2, hmade, ?_⟩, hswitched.sameLogs⟩⟩
    · obtain rfl := Option.some.inj hw
      exact ⟨rfl, _, _, rfl, hswitched.2, hmade⟩
    · by_cases hn : n = vs.nextFileNumber
      · subst hn
        rw [hold] at hmade
        exact ⟨_, hmade⟩
      · exact ⟨[], by rw [hother _ (by simp) (by simp) (by simpa using hn), hold, List.append_nil]⟩
    · exact hother _ (by simp) (by simp) (by simp)
    · rw [hdescriptor] at hsome
      cases hsome
    · rw [← List.append_assoc]
      exact (List.suffix_append _ _).isInfix

theorem unlinkLog_calm (number : Nat) :
    Runs (Assume.calm faults) dir (do
        let _ ← Sys.unlink (FileName.log number)
        return (Status.ok, vs))
      (fun result after => result = (.ok, vs) ∧ after = dir.erase (.log number)) fun _ => True := by
  refine Runs.bind (Runs.call_ok (Q := fun _ after => after = dir.erase (.log number))
    (Assume.calm_noFail faults _) (fun _ => rfl) fun _ => trivial) ?_
  rintro done after rfl
  exact Runs.ret ⟨rfl, rfl⟩

theorem VersionSet.Onward.erase_log (vs : VersionSet) (dir : Dir) (number : Nat) :
    vs.Onward dir vs (dir.erase (.log number)) :=
  .of_lookup (le_refl _) (fun h => h) (fun _ => AList.lookup_erase_ne (by simp))
    (fun _ _ => AList.lookup_erase_ne (by simp)) (AList.lookup_erase_ne (by simp))

theorem VersionSet.InUse.erase_log (h : vs.InUse dir) (number : Nat) :
    vs.InUse (dir.erase (.log number)) := by
  intro w hw
  obtain ⟨hopened, m, bytes, hname, hcurrent, hbytes⟩ := h w hw
  refine ⟨hopened, m, bytes, hname, ?_, ?_⟩
  · rw [AList.lookup_erase_ne (by simp), hcurrent]
  · rw [AList.lookup_erase_ne (by simp), hbytes]

structure VersionSet.Replays (vs : VersionSet) (options : Options) (faults : Faults) (dir : Dir)
    (number : Nat) (vs' : VersionSet) (after : Dir) : Prop where
  inUse : vs'.InUse after
  onward : vs.Onward dir vs' after
  defined : (logReading dir faults number).2 ≠ .undefined
  stored : (logReading dir faults number).1 ≠ [] →
    vs'.Stored options after (logReading dir faults number).1
  erased : SameLogs (dir.erase (.log number)) after

/-- A log whose table opens is removed, however its reading ended; a log whose
table does not open stops the replay. -/
theorem replayLog_calm (htables : ∀ n, faults (.table n) = none) (options : Options)
    (hopen : vs.InUse dir) (number : Nat) :
    Runs (Assume.calm faults) dir (replayLog options vs number)
      (fun result after =>
        (TableRejected options (logReading dir faults number).1 →
          result.1 ≠ .ok ∧ SameLogs dir after) ∧
        (¬ TableRejected options (logReading dir faults number).1 →
          result.1 = .ok ∧ vs.Replays options faults dir number result.2 after))
      fun _ => True := by
  unfold replayLog
  refine Runs.bind (Runs.readDir (Q := fun seen now => seen = dir ∧ now = dir) ⟨rfl, rfl⟩) ?_
  rintro seen now ⟨rfl, rfl⟩
  refine Runs.bind (Runs.readFaults (Q := fun seen last => seen = faults ∧ last = now)
    fun seen hseen => ⟨hseen, rfl⟩) ?_
  rintro seen last ⟨rfl, rfl⟩
  cases hreading : logReading last seen number with | mk records ending =>
  rw [logReading] at hreading
  rw [hreading]
  simp only
  by_cases hending : ending = .undefined
  · rw [if_pos hending]
    exact Runs.stuck trivial
  rw [if_neg hending, VersionSet.setLastSequence_eq, Memtable.count_foldl_add]
  generalize hvs : ({ vs with lastSequence := _ } : VersionSet) = vs₁
  have hopen₁ : vs₁.InUse last := by
    subst hvs
    exact hopen
  have honward₁ : vs.Onward last vs₁ last := by
    subst hvs
    exact .of_lookup (le_refl _) (fun h => h) (fun _ => rfl) (fun _ _ => rfl) rfl
  by_cases hrecords : records = []
  · rw [if_neg (by simp [hrecords])]
    apply (unlinkLog_calm number).weaken _ fun _ h => h
    rintro result after ⟨rfl, rfl⟩
    refine ⟨fun hrejected => absurd hrecords hrejected.1, fun _ => ⟨rfl, hopen₁.erase_log number,
      honward₁.trans (.erase_log _ _ _), ?_, ?_, fun _ => rfl⟩⟩
    · rwa [logReading, hreading]
    · rw [logReading, hreading]
      exact fun hne => absurd hrecords hne
  · rw [if_pos (List.length_pos_of_ne_nil hrecords)]
    refine Runs.bind (writeLevel0Table_ok (Assume.calm_noFail seen) options _ _ trivial
      fun _ => trivial) ?_
    rintro ⟨table, versions⟩ after ⟨rfl, rfl, _, _, faults, hfaults, htable⟩
    obtain rfl : faults = seen := hfaults
    rw [htables, openWritten_number] at htable
    have hother : ∀ name, name ≠ .table vs₁.nextFileNumber → (last.insert (.table vs₁.nextFileNumber)
        (layoutOf options (records.foldl Memtable.add .new).entries).image).lookup name =
          last.lookup name := fun name hname => lookup_insert_other hname
    cases hresult : openWritten options (records.foldl Memtable.add .new).entries none 0 with
    | error status =>
      simp only [hresult, Except.map] at htable
      subst htable
      refine Runs.ret ⟨fun _ => ⟨?_, fun n => hother _ (by simp)⟩, fun hnot =>
        absurd ⟨hrecords, status, hresult⟩ hnot⟩
      rintro rfl
      exact SSTableReader.openTable_ne_ok _ _ _ _ hresult
    | ok reader =>
      simp only [hresult, Except.map] at htable
      subst htable
      have hnot : ¬ TableRejected options records := by
        rintro ⟨_, status, herror⟩
        rw [hresult] at herror
        cases herror
      have hopen₂ : VersionSet.InUse { vs₁ with nextFileNumber := vs₁.nextFileNumber + 1 }
          (last.insert (.table vs₁.nextFileNumber)
            (layoutOf options (records.foldl Memtable.add .new).entries).image) := by
        intro w hw
        obtain ⟨hopened, m, bytes, hname, hcurrent, hbytes⟩ := hopen₁ w hw
        exact ⟨hopened, m, bytes, hname, (hother _ (by simp)).trans hcurrent,
          (hother _ (by simp)).trans hbytes⟩
      refine Runs.bind (logAndApply_calm hopen₂ (by simp [VersionEdit.addFile])) ?_
      rintro ⟨status, vs₂⟩ logged ⟨rfl, _, hlogged⟩
      apply (unlinkLog_calm number).weaken _ fun _ h => h
      rintro result after ⟨rfl, rfl⟩
      have hbuilt : vs₁.Onward last { vs₁ with nextFileNumber := vs₁.nextFileNumber + 1 }
          (last.insert (.table vs₁.nextFileNumber)
            (layoutOf options (records.foldl Memtable.add .new).entries).image) := by
        refine .of_lookup (Nat.le_succ _) (fun h => h) (fun _ => hother _ (by simp))
          (fun n hn => hother _ ?_) (hother _ (by simp))
        simpa using hn.ne
      have honward₂ : vs.Onward last vs₂ logged := (honward₁.trans hbuilt).trans hlogged.onward
      refine ⟨fun hrejected => absurd hrejected hnot, fun _ => ⟨rfl, hlogged.inUse.erase_log number,
        honward₂.trans (.erase_log _ _ _), ?_, ?_, fun n => ?_⟩⟩
      · rwa [logReading, hreading]
      · rw [logReading, hreading]
        intro _
        refine VersionSet.Stored.onward ⟨hlogged.descriptor, _,
          writtenFile options (records.foldl Memtable.add .new).entries vs₁.nextFileNumber
            { reader with fileNumber := vs₁.nextFileNumber }, hlogged.recorded, ?_, ?_, ?_⟩
          (.erase_log vs₂ logged number)
        · simp [VersionSet.completeEdit, VersionEdit.addFile]
        · exact lt_of_lt_of_le (Nat.lt_succ_self _) hlogged.onward.next
        · exact (hlogged.onward.tables _ (Nat.lt_succ_self _)).trans (lookup_insert_self _ _ _)
      · by_cases hn : n = number
        · subst hn
          rw [AList.lookup_erase, AList.lookup_erase]
        · rw [AList.lookup_erase_ne (by simpa using hn), AList.lookup_erase_ne (by simpa using hn),
            hlogged.sameLogs n, hother _ (by simp)]

theorem not_rejected_missing {options : Options} {number : Nat}
    (h : dir.lookup (.log number) = none) :
    ¬ TableRejected options (logReading dir faults number).1 := by
  rintro ⟨hne, _⟩
  apply hne
  rw [logReading, h]
  rfl

/-- The replay stops at the first log whose table does not open. The logs in
front of it are gone, it and the logs behind it are as they were. -/
structure Replayed (options : Options) (faults : Faults) (numbers : List Nat) (before : Dir)
    (status : Status) (vs : VersionSet) (after : Dir) : Prop where
  gone : ∀ w, before.lookup (.log w) = none → after.lookup (.log w) = none
  removed : ∀ w ∈ numbers,
    (∀ n ∈ numbers, n ≤ w → ¬ TableRejected options (logReading before faults n).1) →
    after.lookup (.log w) = none
  kept : ∀ w, (∃ n ∈ numbers, n ≤ w ∧ TableRejected options (logReading before faults n).1) →
    status ≠ .ok ∧ after.lookup (.log w) = before.lookup (.log w)
  others : ∀ w, w ∉ numbers → after.lookup (.log w) = before.lookup (.log w)
  done : (∀ n ∈ numbers, ¬ TableRejected options (logReading before faults n).1) → status = .ok
  accepted : status = .ok → vs.InUse after ∧ ∀ w ∈ numbers,
    (logReading before faults w).2 ≠ .undefined ∧
      ((logReading before faults w).1 ≠ [] → vs.Stored options after (logReading before faults w).1)

theorem Replayed.cons {options : Options} {number : Nat} {rest : List Nat} {status : Status}
    (hleast : ∀ n ∈ rest, number ≤ n)
    (haccepted : ¬ TableRejected options (logReading dir faults number).1)
    (hfirst : vs.Replays options faults dir number vs' middle)
    (honward : status = .ok → vs'.Onward middle vs'' after)
    (h : Replayed options faults rest middle status vs'' after) :
    Replayed options faults (number :: rest) dir status vs'' after := by
  have hself : middle.lookup (.log number) = none := by
    rw [hfirst.erased number, AList.lookup_erase]
  have hother : ∀ n, n ≠ number → middle.lookup (.log n) = dir.lookup (.log n) := by
    intro n hn
    rw [hfirst.erased n, AList.lookup_erase_ne (by simpa using hn)]
  have hreading : ∀ n, n ≠ number → logReading middle faults n = logReading dir faults n := by
    intro n hn
    rw [logReading, logReading, hother n hn]
  have hrejected : ∀ n, TableRejected options (logReading middle faults n).1 ↔
      TableRejected options (logReading dir faults n).1 := by
    intro n
    by_cases hn : n = number
    · subst hn
      exact ⟨fun h => absurd h (not_rejected_missing hself), fun h => absurd h haccepted⟩
    · rw [hreading n hn]
  constructor
  · intro w hw
    by_cases hn : w = number
    · subst hn
      exact h.gone w hself
    · exact h.gone w (by rw [hother w hn, hw])
  · intro w hw hnone
    by_cases hn : w = number
    · subst hn
      exact h.gone w hself
    · have hrest := (List.mem_cons.mp hw).resolve_left hn
      apply h.removed w hrest
      intro n hmem hle hreject
      exact hnone n (List.mem_cons_of_mem _ hmem) hle ((hrejected n).mp hreject)
  · rintro w ⟨n, hmem, hle, hreject⟩
    have hn : n ≠ number := by
      rintro rfl
      exact haccepted hreject
    have hrest := (List.mem_cons.mp hmem).resolve_left hn
    have hw : w ≠ number := by
      have := hleast n hrest
      omega
    rw [← hother w hw]
    exact h.kept w ⟨n, hrest, hle, (hrejected n).mpr hreject⟩
  · intro w hw
    rw [List.mem_cons, not_or] at hw
    rw [h.others w hw.2, hother w hw.1]
  · intro hnone
    apply h.done
    intro n hmem hreject
    exact hnone n (List.mem_cons_of_mem _ hmem) ((hrejected n).mp hreject)
  · intro hok
    obtain ⟨hopen, hrest⟩ := h.accepted hok
    refine ⟨hopen, fun w hw => ?_⟩
    by_cases hn : w = number
    · subst hn
      exact ⟨hfirst.defined, fun hne => (hfirst.stored hne).onward (honward hok)⟩
    · rw [← hreading w hn]
      exact hrest w ((List.mem_cons.mp hw).resolve_left hn)

theorem replayLogs_calm (htables : ∀ n, faults (.table n) = none) (options : Options)
    (hopen : vs.InUse dir) (numbers : List Nat) (hsorted : numbers.Pairwise (· ≤ ·)) :
    Runs (Assume.calm faults) dir (replayLogs options vs numbers)
      (fun result after => Replayed options faults numbers dir result.1 result.2 after ∧
        (result.1 = .ok → vs.Onward dir result.2 after)) fun _ => True := by
  induction numbers generalizing vs dir with
  | nil =>
    unfold replayLogs
    refine Runs.ret ⟨⟨fun _ h => h, by simp, by simp, fun _ _ => rfl, fun _ => rfl,
      fun _ => ⟨hopen, by simp⟩⟩, fun _ => ?_⟩
    exact .of_lookup (le_refl _) (fun h => h) (fun _ => rfl) (fun _ _ => rfl) rfl
  | cons number rest ih =>
    obtain ⟨hleast, hrest⟩ := List.pairwise_cons.mp hsorted
    unfold replayLogs
    refine Runs.bind (replayLog_calm htables options hopen number) ?_
    rintro ⟨status, versions⟩ middle ⟨hrejected, haccepted⟩
    by_cases hreject : TableRejected options (logReading dir faults number).1
    · obtain ⟨hstatus, hsame⟩ := hrejected hreject
      have hbad : (!status.isOk) = true := by
        cases status <;> simp_all [Status.isOk]
      simp only [hbad, ↓reduceIte]
      refine Runs.ret ⟨⟨fun w hw => by rw [hsame w, hw], ?_, ?_, fun w _ => hsame w, ?_,
        fun hok => absurd hok hstatus⟩, fun hok => absurd hok hstatus⟩
      · intro w hw hnone
        have hle : number ≤ w := by
          rcases List.mem_cons.mp hw with rfl | hw
          · exact le_refl _
          · exact hleast w hw
        exact absurd hreject (hnone number (by simp) hle)
      · intro w _
        exact ⟨hstatus, hsame w⟩
      · intro hnone
        exact absurd hreject (hnone number (by simp))
    · obtain ⟨hstatus, hreplays⟩ := haccepted hreject
      simp only at hstatus
      subst hstatus
      apply (ih hreplays.inUse hrest).weaken _ fun _ h => h
      rintro ⟨status, versions'⟩ after ⟨hreplayed, honward⟩
      exact ⟨hreplayed.cons hleast hreject hreplays honward,
        fun hok => hreplays.onward.trans (honward hok)⟩

theorem VersionSet.recover_descriptor {status : Status} {after : VersionSet}
    (h : vs.recover dir faults = some (status, after)) :
    after.descriptorLog = vs.descriptorLog := by
  unfold VersionSet.recover at h
  simp only at h
  repeat' split at h
  all_goals cases h
  all_goals rfl

theorem recoverVersions_calm (options : Options) :
    Runs (Assume.calm faults) dir (recoverVersions options)
      (fun result after => SameLogs dir after ∧ result.2.InUse after ∧
        (result.1 = .ok → ¬ Refused options dir ∧
          manifestLogNumber dir faults = some result.2.logNumber) ∧
        (result.1 ≠ .ok → Refused options dir ∨ manifestLogNumber dir faults = none))
      fun _ => True := by
  have hnew : ∀ dir, VersionSet.new.InUse dir := fun dir w hw => by cases hw
  unfold recoverVersions
  refine Runs.bind (Runs.readDir (Q := fun seen now => seen = dir ∧ now = dir) ⟨rfl, rfl⟩) ?_
  rintro seen now ⟨rfl, rfl⟩
  refine Runs.bind (Runs.readFaults (Q := fun seen last => seen = faults ∧ last = now)
    fun seen hseen => ⟨hseen, rfl⟩) ?_
  rintro faults last ⟨rfl, rfl⟩
  by_cases hmissing : (last.lookup .current).isNone = true
  · rw [if_pos hmissing]
    by_cases hcreate : options.createIfMissing = true
    · simp only [hcreate, Bool.not_true, Bool.false_eq_true, ↓reduceIte]
      apply (logAndApply_calm (hnew _) (by simp [newDatabaseEdit])).weaken _ fun _ h => h
      rintro ⟨status, versions⟩ after ⟨rfl, hlog, hlogged⟩
      have hzero : versions.logNumber = 0 := hlog
      refine ⟨hlogged.sameLogs, hlogged.inUse, fun _ => ⟨?_, ?_⟩, fun hbad => absurd rfl hbad⟩
      · simp [Refused, hmissing, hcreate]
      · simp [manifestLogNumber, hmissing, hzero]
    · simp only [hcreate, Bool.not_false, ↓reduceIte]
      refine Runs.ret ⟨fun _ => rfl, hnew _, fun hok => (nomatch hok), fun _ => Or.inl ?_⟩
      simpa [Refused, hmissing] using hcreate
  · rw [if_neg hmissing]
    by_cases hexists : options.errorIfExists = true
    · rw [if_pos hexists]
      refine Runs.ret ⟨fun _ => rfl, hnew _, fun hok => (nomatch hok), fun _ => Or.inl ?_⟩
      simp [Refused, hmissing, hexists]
    · rw [if_neg hexists]
      cases hrecover : VersionSet.new.recover last faults with
      | none => exact Runs.stuck trivial
      | some result =>
        obtain ⟨status, versions⟩ := result
        have hdescriptor := VersionSet.recover_descriptor hrecover
        refine Runs.ret ⟨fun _ => rfl, fun w hw => ?_, ?_, ?_⟩
        · rw [hdescriptor] at hw
          cases hw
        · rintro rfl
          exact ⟨by simp [Refused, hmissing, hexists], by simp [manifestLogNumber, hmissing, hrecover]⟩
        · intro hbad
          refine Or.inr ?_
          rw [manifestLogNumber, if_neg hmissing, hrecover]
          cases status <;> simp_all

theorem startLog_calm (options : Options) (hopen : vs.InUse dir) :
    Runs (Assume.calm faults) dir (startLog options vs)
      (fun result after => result.1 = .ok ∧ (∃ vs', vs.Onward dir vs' after) ∧
        ∀ n, (dir.lookup (.log n)).isSome → after.lookup (.log n) = dir.lookup (.log n))
      fun _ => True := by
  have hother : ∀ name, name ≠ .log vs.nextFileNumber →
      (touch dir (.log vs.nextFileNumber)).lookup name = dir.lookup name :=
    fun name hname => lookup_touch_other hname
  unfold startLog
  simp only [VersionSet.newFileNumber]
  refine Runs.bind (openAppend_ok (Assume.calm_noFail faults) _ trivial) ?_
  rintro writer after ⟨rfl, rfl, _⟩
  have hopen₁ : VersionSet.InUse { vs with nextFileNumber := vs.nextFileNumber + 1 }
      (touch dir (.log vs.nextFileNumber)) := by
    intro w hw
    obtain ⟨hopened, m, bytes, hname, hcurrent, hbytes⟩ := hopen w hw
    exact ⟨hopened, m, bytes, hname, (hother _ (by simp)).trans hcurrent,
      (hother _ (by simp)).trans hbytes⟩
  have honward₁ : vs.Onward dir { vs with nextFileNumber := vs.nextFileNumber + 1 }
      (touch dir (.log vs.nextFileNumber)) :=
    .of_lookup (Nat.le_succ _) (fun h => h) (fun _ => hother _ (by simp))
      (fun _ _ => hother _ (by simp)) (hother _ (by simp))
  refine Runs.bind (logAndApply_calm hopen₁ (by simp)) ?_
  rintro ⟨status, versions⟩ last ⟨rfl, _, hlogged⟩
  refine Runs.ret ⟨rfl, ⟨_, honward₁.trans hlogged.onward⟩, fun n hn => ?_⟩
  rw [hlogged.sameLogs n]
  by_cases hnext : n = vs.nextFileNumber
  · subst hnext
    obtain ⟨bytes, hbytes⟩ := Option.isSome_iff_exists.mp hn
    rw [lookup_touch_self, hbytes, Option.getD_some]
  · exact hother _ (by simpa using hnext)

theorem mem_logFiles {least : Nat} {names : List FileName} {numbers : List Nat}
    (h : logFiles least names = some numbers) :
    numbers.Pairwise (· ≤ ·) ∧ (∀ n ∈ numbers, least ≤ n) ∧
      ∀ n, .log n ∈ names → least ≤ n → n ∈ numbers := by
  unfold logFiles at h
  simp only at h
  split at h
  · cases h
  obtain rfl := Option.some.inj h
  refine ⟨List.pairwise_insertionSort _ _, fun n hn => ?_, fun n hn hle => ?_⟩
  · simpa using (List.mem_filter.mp ((List.mem_insertionSort _).mp hn)).2
  · rw [List.mem_insertionSort, List.mem_filter]
    refine ⟨?_, by simpa using hle⟩
    rw [List.mem_filterMap]
    exact ⟨some n, List.mem_filterMap.mpr ⟨.log n, hn, rfl⟩, rfl⟩

theorem openDB_refused {options : Options} (h : Refused options dir) :
    Runs (Assume.under faults) dir (openDB options) (fun result _ => result.2 = none)
      fun _ => True := by
  unfold openDB
  refine Runs.bind (Runs.call (Q := fun opened after => opened = true → after = touch dir .lock)
    (fun _ _ => rfl) (fun _ _ hopened => nomatch hopened) fun _ _ => trivial) ?_
  intro opened after hopened
  cases opened with
  | false => exact Runs.ret rfl
  | true =>
    obtain rfl := hopened rfl
    have hversions : Runs (Assume.under faults) (touch dir .lock) (recoverVersions options)
        (fun result _ => result.1.isOk = false) fun _ => True := by
      unfold recoverVersions
      refine Runs.bind (Runs.readDir (Q := fun seen now => seen = touch dir .lock ∧
        now = touch dir .lock) ⟨rfl, rfl⟩) ?_
      rintro seen now ⟨rfl, rfl⟩
      refine Runs.bind (Runs.readFaults (Q := fun _ _ => True) fun _ _ => trivial) ?_
      intro _ _ _
      unfold Refused at h
      rw [lookup_touch_other (by simp)]
      split at h
      · rename_i hmissing
        rw [if_pos hmissing, h]
        exact Runs.ret rfl
      · rename_i hthere
        rw [if_neg hthere, if_pos h]
        exact Runs.ret rfl
    refine Runs.bind hversions ?_
    rintro ⟨status, versions⟩ _ hstatus
    simp only at hstatus ⊢
    rw [hstatus]
    exact Runs.ret rfl

section Options

variable {options : Options} {machine after : Machine FileName} {status : Status} {db : DBImpl}
  {trace : List (Event FileName)}
  (hexit : openDB options machine = .done (status, some db) after trace)

include hexit in
theorem not_refused_of_opened : ¬ Refused options machine.dir := by
  intro hrefused
  obtain ⟨_, hnone⟩ := (openDB_refused hrefused).done (rfl : machine.faults = machine.faults) hexit
    fun _ _ => trivial
  cases hnone

include hexit in
theorem createIfMissing_of_opened (hnone : machine.dir.lookup .current = none) :
    options.createIfMissing = true := by
  have hopens := not_refused_of_opened hexit
  simpa [Refused, hnone] using hopens

include hexit in
theorem errorIfExists_of_opened {text : Bytes} (hsome : machine.dir.lookup .current = some text) :
    options.errorIfExists = false := by
  have hopens := not_refused_of_opened hexit
  simpa [Refused, hsome] using hopens

end Options

/-- What `DB::Open` did to the logs, by how far it came. -/
inductive Opened (options : Options) (faults : Faults) (dir : Dir) (status : Status)
    (after : Dir) : Prop
  | early (hbad : status ≠ .ok) (hsame : SameLogs dir after)
      (hwhy : Refused options dir ∨ manifestLogNumber (touch dir .lock) faults = none)
  | replayed (least : Nat) (numbers : List Nat) (hopens : ¬ Refused options dir)
      (hleast : manifestLogNumber (touch dir .lock) faults = some least)
      (hbounds : ∀ n ∈ numbers, least ≤ n)
      (hall : ∀ n, (dir.lookup (.log n)).isSome → least ≤ n → n ∈ numbers) (left : Dir)
      (vs : VersionSet) (hreplayed : Replayed options faults numbers dir status vs left)
      (hleft : status ≠ .ok → after = left)
      (honward : status = .ok → (∃ vs', vs.Onward left vs' after) ∧
        ∀ n, (left.lookup (.log n)).isSome → after.lookup (.log n) = left.lookup (.log n))

theorem openDB_calm (htables : ∀ n, faults (.table n) = none) (options : Options) :
    Runs (Assume.calm faults) dir (openDB options)
      (fun result after => Opened options faults dir result.1 after) fun _ => True := by
  have hnofail := Assume.calm_noFail faults
  have hlogs : SameLogs dir (touch dir .lock) := fun n => lookup_touch_other (by simp)
  have hrefused : Refused options (touch dir .lock) ↔ Refused options dir := by
    unfold Refused
    rw [lookup_touch_other (by simp)]
  unfold openDB
  refine Runs.bind (Runs.call_ok (Q := fun opened after => opened = true ∧
    after = touch dir .lock) (hnofail _) (fun _ => ⟨rfl, rfl⟩) fun _ => trivial) ?_
  rintro opened after ⟨rfl, rfl⟩
  refine Runs.bind (recoverVersions_calm options) ?_
  rintro ⟨status, versions⟩ middle ⟨hsame, hopen, hok, hbad⟩
  simp only [hrefused] at hok hbad
  have hsame' := hlogs.trans hsame
  cases hstatus : status.isOk with
  | false =>
    have hne : status ≠ .ok := by
      rintro rfl
      cases hstatus
    simp only [hstatus]
    exact Runs.ret (.early hne hsame' (hbad hne))
  | true =>
    have heq : status = .ok := by
      cases status <;> simp_all [Status.isOk]
    obtain ⟨hopens, hleast⟩ := hok heq
    simp only [hstatus, Bool.not_true, Bool.false_eq_true, ↓reduceIte]
    refine Runs.bind (Runs.readDir (Q := fun seen now => seen = middle ∧ now = middle)
      ⟨rfl, rfl⟩) ?_
    rintro seen now ⟨rfl, rfl⟩
    cases hfiles : logFiles versions.logNumber now.keys with
    | none => exact Runs.stuck trivial
    | some numbers =>
      obtain ⟨hsorted, hbounds, hall⟩ := mem_logFiles hfiles
      have hpresent : ∀ n, (dir.lookup (.log n)).isSome → versions.logNumber ≤ n →
          n ∈ numbers := by
        intro n hn hle
        rw [← hsame' n, AList.lookup_isSome] at hn
        exact hall n (AList.mem_keys.mp hn) hle
      simp only
      refine Runs.bind (replayLogs_calm htables options hopen numbers hsorted) ?_
      rintro ⟨status, versions'⟩ left ⟨hreplayed, _⟩
      -- the logs that the replay saw are those of the directory it was given
      have hreplayed' : Replayed options faults numbers dir status versions' left := by
        obtain ⟨hgone, hremoved, hkept, hothers, hdone, haccepted⟩ := hreplayed
        simp only [hsame'.logReading, hsame' _] at hgone hremoved hkept hothers hdone haccepted
        exact ⟨hgone, hremoved, hkept, hothers, hdone, haccepted⟩
      cases hend : status.isOk with
      | false =>
        have hne : status ≠ .ok := by
          rintro rfl
          cases hend
        simp only [Bool.not_false, ↓reduceIte]
        exact Runs.ret (.replayed _ numbers hopens hleast hbounds hpresent left versions' hreplayed'
          (fun _ => rfl) fun hok => absurd hok hne)
      | true =>
        have hok' : status = .ok := by
          cases status <;> simp_all [Status.isOk]
        subst hok'
        simp only [Bool.not_true, Bool.false_eq_true, ↓reduceIte]
        apply (startLog_calm options (hreplayed.accepted rfl).1).weaken _ fun _ h => h
        rintro ⟨result, db⟩ last ⟨hresult, honward, hstays⟩
        simp only at hresult
        subst hresult
        exact .replayed _ numbers hopens hleast hbounds hpresent left versions' hreplayed'
          (fun hne => absurd rfl hne) fun _ => ⟨honward, hstays⟩

theorem notFound_of_not_damaged {number : Nat} (hpresent : (dir.lookup (.log number)).isSome)
    (hdefined : (logReading dir faults number).2 ≠ .undefined)
    (hsound : ¬ LogDamaged dir faults number) :
    ∃ msg, (logReading dir faults number).2 = .status (.notFound msg) := by
  cases hend : (logReading dir faults number).2 with
  | undefined => exact absurd hend hdefined
  | status ended =>
    cases ended with
    | notFound msg => exact ⟨msg, rfl⟩
    | _ => exact absurd ⟨hpresent, _, hend, rfl⟩ hsound

/-- A database whose manifest has the log number 3, with this file as log 3. -/
def oneLog (bytes : Bytes) : Dir :=
  let edit : VersionEdit := { logNumber := some 3, nextFileNumber := some 4, lastSequence := some 0 }
  (((∅ : Dir).insert .current (manifestName 2 ++ [10])).insert (.manifest 2)
    (walFrame (VersionSet.manifestEntry edit))).insert (.log 3) bytes

theorem lookup_oneLog (bytes : Bytes) {number : Nat} (h : number ≠ 3) :
    (oneLog bytes).lookup (.log number) = none := by
  unfold oneLog
  rw [lookup_insert_other (by simpa using h), lookup_insert_other (by simp),
    lookup_insert_other (by simp)]
  rfl

def firstRecord : Entry := ⟨[97], 1, kTypeValue, [1]⟩

def secondRecord : Entry := ⟨[98], 2, kTypeValue, [2]⟩

def tornLog : Machine FileName :=
  ⟨oneLog (walFrame firstRecord ++ (walFrame secondRecord).take 11), fun _ => none, []⟩

def overwrittenLog : Machine FileName :=
  ⟨oneLog ((walFrame firstRecord).set 12 7 ++ walFrame secondRecord), fun _ => none, []⟩

theorem overwrittenLog_reading : logReading overwrittenLog.dir overwrittenLog.faults 3 =
    ([], .status (.corruption "WAL CRC mismatch in middle of log file")) := by decide +kernel

theorem overwrittenLog_damaged : LogDamaged overwrittenLog.dir overwrittenLog.faults 3 :=
  ⟨by decide, _, congrArg Prod.snd overwrittenLog_reading, rfl⟩

theorem overwrittenLog_current : (overwrittenLog.dir.lookup .current).isNone = false := by decide +kernel

set_option maxRecDepth 2000 in
theorem overwrittenLog_least :
    manifestLogNumber (touch overwrittenLog.dir .lock) overwrittenLog.faults = some 3 := by decide +kernel

theorem logsChecked_returns {options : Options} {machine : Machine FileName}
    (h : (openDB options machine).returns
      (fun _ _ trace => trace.all fun e => e.outcome = .ok) = true) :
    ∃ result after trace, openDB options machine = .done result after trace ∧
      ∀ e ∈ trace, e.outcome = .ok := by
  obtain ⟨result, after, trace, hexit, hcalm⟩ := Exit.of_returns h
  exact ⟨result, after, trace, hexit, by simpa using hcalm⟩

end Strata

import Strata.LogDamage
import Strata.ManifestOutcomes
import Strata.Opening
import Strata.Sequences

/-! The log numbers of a recovery. File numbers come from one counter that is stored only
with an edit. A recovery takes the logs from the directory, whatever their numbers are, and
the number of its own log from the counter. -/
namespace Strata

open Library System

/-! `Recover` with the assertion of `LogAndApply`. -/

def VersionSet.Asserts (vs : VersionSet) (edit : VersionEdit) : Prop :=
  ∀ n ∈ edit.logNumber, vs.logNumber ≤ n

instance (vs : VersionSet) (edit : VersionEdit) : Decidable (vs.Asserts edit) :=
  inferInstanceAs (Decidable (∀ n ∈ edit.logNumber, vs.logNumber ≤ n))

def VersionSet.assertedLogAndApply (vs : VersionSet) (edit : VersionEdit) :
    Prog (Status × VersionSet) :=
  if vs.Asserts edit then vs.logAndApply edit else Sys.stuck

section Programs

variable (apply : VersionSet → VersionEdit → Prog (Status × VersionSet)) (options : Options)

/-- `replayLog`, with this for `LogAndApply`. -/
def replayLogWith (versions : VersionSet) (number : Nat) : Prog (Status × VersionSet) := do
  let dir ← Sys.readDir
  let faults ← Sys.readFaults
  let (records, ending) :=
    (WalReader.new (dir.lookup (.log number)) (faults (.log number))).readAll
  if ending = .undefined then
    Sys.stuck
  else
    let mem := records.foldl Memtable.add .new
    let versions := versions.setLastSequence
      (records.foldl (fun seq e => max seq e.seq) versions.lastSequence)
    if mem.count > 0 then
      let (table, versions) ← writeLevel0Table options versions mem
      match table with
      | .error status => return (status, versions)
      | .ok file =>
        let edit := { ({} : VersionEdit).addFile 0 file with logNumber := some number }
        let (status, versions) ← apply versions edit
        if !status.isOk then
          return (status, versions)
        let _ ← Sys.unlink (.log number)
        return (.ok, versions)
    else
      let _ ← Sys.unlink (.log number)
      return (.ok, versions)

def replayLogsWith : VersionSet → List Nat → Prog (Status × VersionSet)
  | versions, [] => pure (.ok, versions)
  | versions, number :: rest => do
    let (status, versions) ← replayLogWith apply options versions number
    if !status.isOk then
      return (status, versions)
    replayLogsWith versions rest

def recoverVersionsWith : Prog (Status × VersionSet) := do
  let dir ← Sys.readDir
  let faults ← Sys.readFaults
  if (dir.lookup .current).isNone then
    if !options.createIfMissing then
      return (.invalidArgument "Database does not exist and create_if_missing is false", .new)
    apply VersionSet.new newDatabaseEdit
  else if options.errorIfExists then
    return (.invalidArgument "Database exists and error_if_exists is true", .new)
  else
    match VersionSet.new.recover dir faults with
    | none => Sys.stuck
    | some result => return result

/-- `Recover` up to the point where it takes the number of its new log, with the numbers of
the logs that it replays. -/
def recoverLogsWith : Prog (Status × VersionSet × List Nat) := do
  if !(← Sys.openAppend .lock) then
    return (.ioError "Database is locked by another process", .new, [])
  let (status, versions) ← recoverVersionsWith apply options
  if !status.isOk then
    return (status, versions, [])
  let dir ← Sys.readDir
  match logFiles versions.logNumber dir.keys with
  | none => Sys.stuck
  | some numbers =>
    let (status, versions) ← replayLogsWith apply options versions numbers
    return (status, versions, numbers)

end Programs

def recoverLogs (options : Options) : Prog (Status × VersionSet × List Nat) :=
  recoverLogsWith VersionSet.logAndApply options

theorem replayLogWith_eq (options : Options) :
    replayLogWith VersionSet.logAndApply options = replayLog options := rfl

theorem replayLogsWith_eq (options : Options) (versions : VersionSet) (numbers : List Nat) :
    replayLogsWith VersionSet.logAndApply options versions numbers =
      replayLogs options versions numbers := by
  induction numbers generalizing versions with
  | nil => rfl
  | cons number rest ih =>
    rw [replayLogsWith, replayLogs, replayLogWith_eq]
    congr 1
    funext result
    simp only [ih]

theorem openDB_eq_recoverLogs (options : Options) :
    openDB options = (recoverLogs options >>= fun result =>
      if !result.1.isOk then pure (result.1, none) else startLog options result.2.1) := by
  rw [recoverLogs, recoverLogsWith, Sys.bind_assoc]
  unfold openDB
  congr 1
  funext opened
  cases opened with
  | false => exact (Sys.pure_bind _ _).symm
  | true =>
    simp only [Bool.not_true, Bool.false_eq_true, ↓reduceIte]
    rw [Sys.bind_assoc]
    congr 1
    funext result
    obtain ⟨status, versions⟩ := result
    simp only
    split
    · rename_i hbad
      rw [Sys.pure_bind]
      simp only [hbad, ↓reduceIte]
    · rw [Sys.bind_assoc]
      congr 1
      funext dir
      cases logFiles versions.logNumber dir.keys with
      | none => rfl
      | some numbers =>
        simp only
        rw [Sys.bind_assoc]
        simp only [replayLogsWith_eq, Sys.pure_bind]

/-! What a replay takes from the counter, whatever becomes of its calls. -/

namespace SSTableBuilder

variable {dir : Dir} {options : Options}

theorem new_any (name : FileName) :
    Runs Assume.any dir (SSTableBuilder.new name) (fun _ _ => True) fun _ => True := by
  refine Runs.bind Runs.call_any fun opened after _ => ?_
  exact Runs.ret trivial

theorem writeRawBlock_any (b : SSTableBuilder) (contents : Bytes) :
    Runs Assume.any dir (b.writeRawBlock contents) (fun _ _ => True) fun _ => True := by
  refine Runs.bind Runs.call_any fun cut after _ => ?_
  cases cut with
  | some written => exact Runs.ret trivial
  | none =>
    refine Runs.bind Runs.call_any fun cut after _ => ?_
    cases cut with
    | some written => exact Runs.ret trivial
    | none => exact Runs.ret trivial

theorem flushBlock_any (b : SSTableBuilder) :
    Runs Assume.any dir b.flushBlock (fun _ _ => True) fun _ => True := by
  unfold flushBlock
  split
  · exact Runs.ret trivial
  · refine Runs.bind (writeRawBlock_any b _) ?_
    rintro ⟨status, handle, b'⟩ after _
    simp only
    split
    · exact Runs.ret trivial
    · exact Runs.ret trivial

theorem add_any (b : SSTableBuilder) (e : Entry) :
    Runs Assume.any dir (b.add options e) (fun _ _ => True) fun _ => True := by
  unfold add
  split
  · exact Runs.ret trivial
  · extract_lets b'
    split
    · exact flushBlock_any b'
    · exact Runs.ret trivial

theorem addAll_any (b : SSTableBuilder) (es : List Entry) :
    Runs Assume.any dir (b.addAll options es) (fun _ _ => True) fun _ => True := by
  induction es generalizing b dir with
  | nil => exact Runs.ret trivial
  | cons e rest ih => exact Runs.bind (add_any b e) fun b' after _ => ih b'

theorem finish_any (b : SSTableBuilder) :
    Runs Assume.any dir (b.finish options) (fun _ _ => True) fun _ => True := by
  unfold finish
  split
  · exact Runs.ret trivial
  · refine Runs.bind (flushBlock_any b) fun b₁ after₁ _ => ?_
    refine Runs.bind (writeRawBlock_any b₁ _) ?_
    rintro ⟨status₂, filterHandle, b₂⟩ after₂ _
    simp only
    split
    · exact Runs.ret trivial
    refine Runs.bind (writeRawBlock_any _ _) ?_
    rintro ⟨status₃, indexHandle, b₃⟩ after₃ _
    simp only
    split
    · exact Runs.ret trivial
    refine Runs.bind Runs.call_any fun cut after₄ _ => ?_
    cases cut with
    | some written => exact Runs.ret trivial
    | none =>
      refine Runs.bind Runs.call_any fun synced after₅ _ => ?_
      cases synced with
      | true => exact Runs.ret trivial
      | false => exact Runs.ret trivial

end SSTableBuilder

section Counting

variable {dir : Dir} {faults : Faults} {vs : VersionSet} {edit : VersionEdit}

theorem writeLevel0Table_counts (options : Options) (vs : VersionSet) (mem : Memtable) :
    Runs Assume.any dir (writeLevel0Table options vs mem)
      (fun result after => result.2 = { vs with nextFileNumber := vs.nextFileNumber + 1 } ∧
        result.1 ≠ .error .ok ∧ SameLogs dir after) fun _ => True := by
  have hruns : Runs Assume.any dir (writeLevel0Table options vs mem)
      (fun result _ => result.2 = { vs with nextFileNumber := vs.nextFileNumber + 1 } ∧
        result.1 ≠ .error .ok) fun _ => True := by
    unfold writeLevel0Table
    refine Runs.bind (SSTableBuilder.new_any _) fun b₁ after₁ _ => ?_
    refine Runs.bind (SSTableBuilder.addAll_any b₁ _) fun b₂ after₂ _ => ?_
    refine Runs.bind (SSTableBuilder.finish_any b₂) ?_
    rintro ⟨status, b₃⟩ after₃ _
    simp only
    split
    · rename_i hbad
      refine Runs.ret ⟨rfl, fun hok => ?_⟩
      cases hok
      cases hbad
    refine Runs.bind (Runs.readDir (Q := fun _ _ => True) trivial) fun seen after₄ _ => ?_
    refine Runs.bind (Runs.readFaults (Q := fun _ _ => True) fun _ _ => trivial)
      fun faults after₅ _ => ?_
    split
    · rename_i status' herror
      refine Runs.ret ⟨rfl, fun hok => ?_⟩
      cases hok
      exact SSTableReader.openTable_ne_ok _ _ _ _ herror
    · refine Runs.bind syncDirectory_any fun synced after₆ _ => ?_
      exact Runs.ret ⟨rfl, fun hok => nomatch hok⟩
  apply ((writeLevel0Table_works options vs mem).frame hruns).weaken _ fun _ h => h
  rintro result after ⟨⟨hversions, hstatus⟩, hsame⟩
  exact ⟨hversions, hstatus, fun number => hsame _ (by simp)⟩

theorem VersionSet.Snapshotting.sameLogs {left : Dir} (h : vs.Snapshotting dir left) :
    SameLogs dir left := by
  rcases h with rfl | ⟨torn, _, hsame, _⟩
  · exact fun _ => rfl
  · intro number
    rw [hsame _ (by simp) (by simp), lookup_extend_other (by simp), lookup_touch_other (by simp)]

def VersionSet.DescriptorOpen (vs : VersionSet) : Prop :=
  ∀ w, vs.descriptorLog = some w → w.opened = true ∧ ∃ number, w.filename = .manifest number

def VersionSet.manifestDue (vs : VersionSet) : Nat := if vs.descriptorLog.isNone then 1 else 0

theorem logAndApply_counts (hopen : vs.DescriptorOpen)
    (hlevels : ∀ item ∈ edit.newFiles, item.1 < kNumLevels) :
    Runs Assume.any dir (vs.logAndApply edit)
      (fun result after => SameLogs dir after ∧ (result.1 = .ok → result.2.DescriptorOpen ∧
        result.2.manifestDue = 0 ∧ result.2.nextFileNumber = vs.nextFileNumber + vs.manifestDue ∧
        result.2.logNumber = edit.logNumber.getD vs.logNumber)) fun _ => True := by
  cases hdescriptor : vs.descriptorLog with
  | some w =>
    obtain ⟨hopened, number, hname⟩ := hopen w hdescriptor
    apply (VersionSet.logAndApply_append_outcome hdescriptor hopened hlevels).weaken _ fun _ h => h
    rintro ⟨status, vs'⟩ after ⟨left, _, rfl, hcases⟩
    refine ⟨fun n => lookup_extend_other (by simp [hname]), fun hok => ?_⟩
    rcases hcases with ⟨_, _, seen, rfl⟩ | ⟨hbad, _⟩
    · refine ⟨hopen, ?_, ?_, rfl⟩
      · simp [VersionSet.manifestDue, VersionSet.applied, hdescriptor]
      · simp [VersionSet.manifestDue, VersionSet.applied, hdescriptor]
    · exact absurd hok hbad
  | none =>
    apply (VersionSet.logAndApply_create_outcome hdescriptor hlevels).weaken _ fun _ h => h
    rintro ⟨status, vs'⟩ after (⟨hbad, _, hafter⟩ | ⟨left, _, hswitched, hcases⟩)
    · refine ⟨?_, fun hok => absurd hok hbad⟩
      exact hafter.elim VersionSet.Snapshotting.sameLogs VersionSet.Switched.sameLogs
    · refine ⟨hswitched.sameLogs, fun hok => ?_⟩
      rcases hcases with ⟨_, _, seen, rfl⟩ | ⟨hbad, _⟩
      · refine ⟨fun w hw => ?_, rfl, ?_, rfl⟩
        · obtain rfl := Option.some.inj hw
          exact ⟨rfl, _, rfl⟩
        · simp [VersionSet.manifestDue, VersionSet.applied, VersionSet.withDescriptor,
            VersionSet.numbered, hdescriptor]
      · exact absurd hok hbad

theorem unlinkLog_counts (number : Nat) (versions : VersionSet) :
    Runs (Assume.under faults) dir (do
        let _ ← Sys.unlink (FileName.log number)
        return (Status.ok, versions))
      (fun result after => result = (.ok, versions) ∧
        ∀ n, n ≠ number → after.lookup (.log n) = dir.lookup (.log n)) fun _ => True := by
  refine Runs.bind (Runs.call (Q := fun _ after =>
    ∀ n, n ≠ number → after.lookup (.log n) = dir.lookup (.log n)) (fun _ n hn => ?_)
    (fun _ _ _ _ => rfl) fun _ _ => trivial) fun done after hafter => Runs.ret ⟨rfl, hafter⟩
  exact AList.lookup_erase_ne (by simpa using hn)

structure Taken (records : List Entry) (number : Nat) (vs vs' : VersionSet) : Prop where
  descriptor : vs'.DescriptorOpen
  empty : records = [] → vs'.nextFileNumber = vs.nextFileNumber ∧
    vs'.logNumber = vs.logNumber ∧ vs'.manifestDue = vs.manifestDue
  filled : records ≠ [] → vs'.nextFileNumber = vs.nextFileNumber + 1 + vs.manifestDue ∧
    vs'.logNumber = number ∧ vs'.manifestDue = 0

theorem replayLog_counts (options : Options) (hopen : vs.DescriptorOpen) (number : Nat) :
    Runs (Assume.under faults) dir (replayLog options vs number)
      (fun result after => (∀ n, n ≠ number → after.lookup (.log n) = dir.lookup (.log n)) ∧
        (result.1 = .ok → Taken (logReading dir faults number).1 number vs result.2))
      fun _ => True := by
  unfold replayLog
  refine Runs.bind (Runs.readDir (Q := fun seen now => seen = dir ∧ now = dir) ⟨rfl, rfl⟩) ?_
  rintro seen now ⟨rfl, rfl⟩
  refine Runs.bind (Runs.readFaults (Q := fun seen last => seen = faults ∧ last = now)
    fun seen hseen => ⟨hseen, rfl⟩) ?_
  rintro seen last ⟨rfl, rfl⟩
  rw [logReading]
  generalize (WalReader.new (last.lookup (.log number)) (seen (.log number))).readAll = reading
  obtain ⟨records, ending⟩ := reading
  simp only
  split
  · exact Runs.stuck trivial
  rw [VersionSet.setLastSequence_eq, Memtable.count_foldl_add]
  generalize hvs : ({ vs with lastSequence := _ } : VersionSet) = vs₁
  have hopen₁ : vs₁.DescriptorOpen := by
    subst hvs
    exact hopen
  have hdue : vs₁.manifestDue = vs.manifestDue := by
    subst hvs
    rfl
  have hnext : vs₁.nextFileNumber = vs.nextFileNumber := by rw [← hvs]
  have hlog : vs₁.logNumber = vs.logNumber := by rw [← hvs]
  split
  · rename_i hfilled
    have hne : records ≠ [] := List.ne_nil_of_length_pos hfilled
    refine Runs.bind (writeLevel0Table_counts options vs₁ _).of_any ?_
    rintro ⟨table, vs₂⟩ after₂ ⟨hvs₂, herror₂, hsame₂⟩
    simp only at hvs₂ herror₂ ⊢
    have hopen₂ : vs₂.DescriptorOpen := by
      rw [hvs₂]
      exact hopen₁
    split
    · refine Runs.ret ⟨fun n _ => hsame₂ n, fun hok => ?_⟩
      simp only at hok
      exact absurd (congrArg Except.error hok) herror₂
    · refine Runs.bind (logAndApply_counts hopen₂ (by simp [VersionEdit.addFile])).of_any ?_
      rintro ⟨status, vs₃⟩ after₃ ⟨hsame₃, hok₃⟩
      simp only at hok₃ ⊢
      split
      · rename_i hbad
        exact Runs.ret ⟨fun n _ => (hsame₃ n).trans (hsame₂ n),
          fun hok => absurd hok (Status.ne_ok hbad)⟩
      · rename_i hgood
        obtain ⟨hopen₃, hdue₃, hnext₃, hlog₃⟩ := hok₃ (Status.eq_ok hgood)
        apply (unlinkLog_counts number vs₃).weaken _ fun _ h => h
        rintro result after₄ ⟨rfl, hothers⟩
        refine ⟨fun n hn => ?_, fun _ => ?_⟩
        · rw [hothers n hn, hsame₃ n, hsame₂ n]
        · refine ⟨hopen₃, fun hnil => absurd hnil hne, fun _ => ⟨?_, hlog₃, hdue₃⟩⟩
          have hdue₂ : vs₂.manifestDue = vs.manifestDue := by
            rw [hvs₂]
            exact hdue
          rw [hnext₃, hdue₂, hvs₂, ← hnext]
  · rename_i hempty
    have hnil : records = [] := by
      cases records with
      | nil => rfl
      | cons e rest => exact absurd (Nat.succ_pos _) hempty
    apply (unlinkLog_counts number vs₁).weaken _ fun _ h => h
    rintro result after₄ ⟨rfl, hothers⟩
    exact ⟨hothers, fun _ => ⟨hopen₁, fun _ => ⟨hnext, hlog, hdue⟩, fun hne => absurd hnil hne⟩⟩

def filledLogs (dir : Dir) (faults : Faults) (numbers : List Nat) : Nat :=
  numbers.countP fun n => (logReading dir faults n).1 ≠ []

/-- The number behind a replay that began at `next`: one for the table of each log that has a
record, and one for the manifest with the first of them. -/
def numberBehind (next manifest filled : Nat) : Nat :=
  next + filled + if filled > 0 then manifest else 0

theorem filledLogs_congr {left : Dir} {numbers : List Nat}
    (h : ∀ n ∈ numbers, left.lookup (.log n) = dir.lookup (.log n)) :
    filledLogs left faults numbers = filledLogs dir faults numbers := by
  apply List.countP_congr
  intro n hn
  rw [logReading, h n hn, logReading]

/-- What a replay takes from the counter, and the log number it ends with. -/
structure TakenAll (filled : Nat) (numbers : List Nat) (vs vs' : VersionSet) : Prop where
  descriptor : vs'.DescriptorOpen
  next : vs'.nextFileNumber = numberBehind vs.nextFileNumber vs.manifestDue filled
  log : vs'.logNumber = vs.logNumber ∨ vs'.logNumber ∈ numbers

theorem Taken.cons {records : List Entry} {number filled : Nat} {rest : List Nat}
    {vs₁ vs₂ : VersionSet} (h : Taken records number vs vs₁) (hrest : TakenAll filled rest vs₁ vs₂) :
    TakenAll (filled + if records ≠ [] then 1 else 0) (number :: rest) vs vs₂ := by
  have hnext := hrest.next
  unfold numberBehind at hnext
  by_cases hrecords : records = []
  · obtain ⟨hnext₁, hlog₁, hdue₁⟩ := h.empty hrecords
    refine ⟨hrest.descriptor, ?_, ?_⟩
    · rw [if_neg (not_not.mpr hrecords), hnext, hnext₁, hdue₁]
      rfl
    · rw [← hlog₁]
      exact hrest.log.imp_right (List.mem_cons_of_mem number)
  · obtain ⟨hnext₁, hlog₁, hdue₁⟩ := h.filled hrecords
    refine ⟨hrest.descriptor, ?_, Or.inr ?_⟩
    · rw [if_pos hrecords, hnext, hnext₁, hdue₁, numberBehind, if_pos (Nat.succ_pos filled)]
      split <;> omega
    · rcases hrest.log with hsame | hmem
      · rw [hsame, hlog₁]
        exact List.mem_cons_self
      · exact List.mem_cons_of_mem number hmem

theorem replayLogs_counts (options : Options) (hopen : vs.DescriptorOpen) {numbers : List Nat}
    (hnodup : numbers.Nodup) :
    Runs (Assume.under faults) dir (replayLogs options vs numbers)
      (fun result _ => result.1 = .ok →
        TakenAll (filledLogs dir faults numbers) numbers vs result.2) fun _ => True := by
  induction numbers generalizing vs dir with
  | nil => exact Runs.ret fun _ => ⟨hopen, rfl, Or.inl rfl⟩
  | cons number rest ih =>
    obtain ⟨hnot, hrest⟩ := List.nodup_cons.mp hnodup
    unfold replayLogs
    refine Runs.bind (replayLog_counts options hopen number) ?_
    rintro ⟨status, vs₁⟩ middle ⟨hothers, htaken⟩
    simp only at htaken ⊢
    split
    · rename_i hbad
      exact Runs.ret fun hok => absurd hok (Status.ne_ok hbad)
    · rename_i hgood
      have htaken₁ := htaken (Status.eq_ok hgood)
      apply (ih htaken₁.descriptor hrest).weaken _ fun _ h => h
      intro result after hall hok
      have hsame : filledLogs middle faults rest = filledLogs dir faults rest := by
        apply filledLogs_congr
        intro n hn
        apply hothers
        rintro rfl
        exact hnot hn
      have hcons := htaken₁.cons (hsame ▸ hall hok)
      rw [filledLogs, List.countP_cons]
      simpa [filledLogs] using hcons

/-- What `Recover` starts from: the next file number, the log number, and the numbers that a
manifest takes later. -/
def recoveredNumbers (dir : Dir) (faults : Faults) : Option (Nat × Nat × Nat) :=
  if (dir.lookup .current).isNone then some (3, 0, 0)
  else
    match VersionSet.new.recover dir faults with
    | some (.ok, versions) => some (versions.nextFileNumber, versions.logNumber, 1)
    | _ => none

def SameListing (dir after : Dir) : Prop :=
  SameLogs dir after ∧ ∀ text, after.lookup (.other text) = dir.lookup (.other text)

theorem recoverVersions_counts (options : Options) :
    Runs (Assume.under faults) dir (recoverVersions options)
      (fun result after => result.1 = .ok → SameListing dir after ∧ result.2.DescriptorOpen ∧
        recoveredNumbers dir faults =
          some (result.2.nextFileNumber, result.2.logNumber, result.2.manifestDue))
      fun _ => True := by
  unfold recoverVersions
  refine Runs.bind (Runs.readDir (Q := fun seen now => seen = dir ∧ now = dir) ⟨rfl, rfl⟩) ?_
  rintro seen now ⟨rfl, rfl⟩
  refine Runs.bind (Runs.readFaults (Q := fun seen last => seen = faults ∧ last = now)
    fun seen hseen => ⟨hseen, rfl⟩) ?_
  rintro faults last ⟨rfl, rfl⟩
  by_cases hmissing : (last.lookup .current).isNone = true
  · rw [if_pos hmissing, recoveredNumbers, if_pos hmissing]
    split
    · exact Runs.ret fun hok => by cases hok
    · apply (VersionSet.logAndApply_create_outcome rfl (by simp [newDatabaseEdit])).weaken _
        fun _ h => h
      rintro ⟨status, versions⟩ after (⟨hbad, _⟩ | ⟨left, _, hswitched, hcases⟩) hok
      · exact absurd hok hbad
      rcases hcases with ⟨_, _, seen, rfl⟩ | ⟨hbad, _⟩
      · refine ⟨⟨hswitched.sameLogs, fun text => ?_⟩, fun w hw => ?_, rfl⟩
        · rw [hswitched.1 _ (by simp) (by simp), lookup_extend_other (by simp),
            lookup_touch_other (by simp)]
        · obtain rfl := Option.some.inj hw
          exact ⟨rfl, _, rfl⟩
      · exact absurd hok hbad
  · rw [if_neg hmissing, recoveredNumbers, if_neg hmissing]
    split
    · exact Runs.ret fun hok => by cases hok
    · cases hrecover : VersionSet.new.recover last faults with
      | none => exact Runs.stuck trivial
      | some result =>
        obtain ⟨status, versions⟩ := result
        refine Runs.ret fun hok => ?_
        simp only at hok
        subst hok
        have hdescriptor : versions.descriptorLog = none := VersionSet.recover_descriptor hrecover
        refine ⟨⟨fun _ => rfl, fun _ => rfl⟩, fun w hw => ?_, ?_⟩
        · rw [hdescriptor] at hw
          cases hw
        · simp [VersionSet.manifestDue, hdescriptor]

def OwnNames (dir : Dir) : Prop := ∀ text, dir.lookup (.other text) = none

theorem SameListing.logFiles {after : Dir} (h : SameListing dir after) (hown : OwnNames dir)
    {least : Nat} {numbers : List Nat} (hfiles : logFiles least after.keys = some numbers) :
    numbers.Perm (ownLogs dir least) := by
  have hknown : ∀ text, .other text ∉ after.keys := by
    intro text hmem
    have hsome := AList.lookup_isSome.mpr (AList.mem_keys.mpr hmem)
    rw [h.2, hown] at hsome
    cases hsome
  rw [logFiles_own hknown] at hfiles
  cases hfiles
  apply (List.perm_insertionSort _ _).trans
  apply (List.perm_ext_iff_of_nodup (nodup_ownLogs after least) (nodup_ownLogs dir least)).mpr
  intro n
  rw [mem_ownLogs, mem_ownLogs, h.1 n]

/-- A recovery up to its own log: what it started from, and what it took. -/
structure Counted (dir : Dir) (faults : Faults) (versions : VersionSet) (numbers : List Nat)
    (next least manifest : Nat) : Prop where
  start : recoveredNumbers dir faults = some (next, least, manifest)
  logs : numbers.Perm (ownLogs dir least)
  behind : versions.nextFileNumber =
    numberBehind next manifest (filledLogs dir faults (ownLogs dir least))
  log : versions.logNumber = least ∨ versions.logNumber ∈ numbers
  descriptor : versions.DescriptorOpen

theorem recoverLogs_counts (options : Options) (hown : OwnNames dir) :
    Runs (Assume.under faults) dir (recoverLogs options)
      (fun result _ => result.1 = .ok → ∃ next least manifest,
        Counted (touch dir .lock) faults result.2.1 result.2.2 next least manifest)
      fun _ => True := by
  have hlock : OwnNames (touch dir .lock) := by
    intro text
    rw [lookup_touch_other (by simp), hown]
  rw [recoverLogs, recoverLogsWith]
  refine Runs.bind (Runs.call (Q := fun opened after => opened = true → after = touch dir .lock)
    (fun _ _ => rfl) (fun _ _ hopened => nomatch hopened) fun _ _ => trivial) ?_
  intro opened after hopened
  cases opened with
  | false => exact Runs.ret fun hok => nomatch hok
  | true =>
    obtain rfl := hopened rfl
    refine Runs.bind (recoverVersions_counts options) ?_
    rintro ⟨status, vs⟩ after hrecovered
    simp only at hrecovered ⊢
    split
    · rename_i hbad
      exact Runs.ret fun hok => absurd hok (Status.ne_ok hbad)
    rename_i hgood
    obtain ⟨hlisting, hopen, hstart⟩ := hrecovered (Status.eq_ok hgood)
    refine Runs.bind (Runs.readDir (Q := fun seen now => seen = after ∧ now = after) ⟨rfl, rfl⟩) ?_
    rintro seen now ⟨rfl, rfl⟩
    cases hfiles : logFiles vs.logNumber now.keys with
    | none => exact Runs.stuck trivial
    | some numbers =>
      have hperm := hlisting.logFiles hlock hfiles
      simp only [replayLogsWith_eq]
      refine Runs.bind (replayLogs_counts options hopen
        (hperm.nodup_iff.mpr (nodup_ownLogs _ _))) ?_
      rintro ⟨status', vs'⟩ last htaken
      refine Runs.ret fun hok => ⟨_, _, _, hstart, hperm, ?_, (htaken hok).log,
        (htaken hok).descriptor⟩
      have hfilled : filledLogs now faults numbers =
          filledLogs (touch dir .lock) faults (ownLogs (touch dir .lock) vs.logNumber) := by
        rw [filledLogs_congr fun n _ => hlisting.1 n]
        exact hperm.countP_eq _
      rw [(htaken hok).next, hfilled]

end Counting

/-! The assertion. -/

theorem assertedLogAndApply_eq {vs : VersionSet} {edit : VersionEdit} (h : vs.Asserts edit) :
    vs.assertedLogAndApply edit = vs.logAndApply edit := if_pos h

section Asserted

variable {options : Options} {vs : VersionSet} {machine : Machine FileName}

theorem replayLog_asserted {number : Nat} (hlog : vs.logNumber ≤ number) :
    replayLogWith VersionSet.assertedLogAndApply options vs number machine =
      replayLog options vs number machine := by
  rw [← replayLogWith_eq, replayLogWith, replayLogWith]
  apply Sys.bind_congr rfl
  intro dir after₁ _ _
  apply Sys.bind_congr rfl
  intro faults after₂ _ _
  generalize (WalReader.new (dir.lookup (.log number)) (faults (.log number))).readAll = reading
  obtain ⟨records, ending⟩ := reading
  by_cases hending : ending = .undefined
  · simp only [if_pos hending]
  simp only [if_neg hending]
  by_cases hcount : (records.foldl Memtable.add .new).count > 0
  swap
  · simp only [if_neg hcount]
  simp only [if_pos hcount]
  apply Sys.bind_congr rfl
  rintro ⟨table, versions⟩ after₃ trace hwritten
  cases table with
  | error status => rfl
  | ok file =>
    -- the table has changed nothing but the next file number
    have hversions := ((writeLevel0Table_counts options _ _).done_any hwritten).1
    simp only at hversions ⊢
    rw [assertedLogAndApply_eq]
    intro n hn
    obtain rfl := Option.some.inj hn
    rw [hversions, VersionSet.setLastSequence_eq]
    exact hlog

theorem replayLogs_asserted {numbers : List Nat} (hopen : vs.DescriptorOpen)
    (hsorted : numbers.Pairwise (· ≤ ·)) (hlog : ∀ n ∈ numbers, vs.logNumber ≤ n) :
    replayLogsWith VersionSet.assertedLogAndApply options vs numbers machine =
      replayLogsWith VersionSet.logAndApply options vs numbers machine := by
  induction numbers generalizing vs machine with
  | nil => rfl
  | cons number rest ih =>
    obtain ⟨hfirst, hrest⟩ := List.pairwise_cons.mp hsorted
    rw [replayLogsWith, replayLogsWith, replayLogWith_eq]
    apply Sys.bind_congr (replayLog_asserted (hlog number (by simp)))
    rintro ⟨status, vs'⟩ after trace hexit
    by_cases hbad : (!status.isOk) = true
    · simp only [if_pos hbad]
    simp only [if_neg hbad]
    obtain ⟨_, _, htaken⟩ := (replayLog_counts options hopen number).done rfl hexit
      fun _ _ => trivial
    have htaken' := htaken (Status.eq_ok hbad)
    apply ih htaken'.descriptor hrest
    intro n hn
    by_cases hrecords : (logReading machine.dir machine.faults number).1 = []
    · rw [(htaken'.empty hrecords).2.1]
      exact hlog n (by simp [hn])
    · rw [(htaken'.filled hrecords).2.1]
      exact hfirst n hn

theorem recoverVersions_asserted :
    recoverVersionsWith VersionSet.assertedLogAndApply options = recoverVersions options := by
  have hnew : VersionSet.new.Asserts newDatabaseEdit := by decide
  have hplain : recoverVersions options = recoverVersionsWith VersionSet.logAndApply options := rfl
  rw [hplain]
  unfold recoverVersionsWith
  simp only [assertedLogAndApply_eq hnew]

theorem recoverLogs_asserted (options : Options) (machine : Machine FileName) :
    recoverLogsWith VersionSet.assertedLogAndApply options machine =
      recoverLogs options machine := by
  rw [recoverLogs, recoverLogsWith, recoverLogsWith]
  apply Sys.bind_congr rfl
  intro opened after₁ _ _
  cases opened with
  | false => rfl
  | true =>
    simp only [Bool.not_true, Bool.false_eq_true, ↓reduceIte]
    apply Sys.bind_congr (congrFun recoverVersions_asserted after₁)
    rintro ⟨status, vs⟩ after₂ trace hexit
    by_cases hbad : (!status.isOk) = true
    · simp only [if_pos hbad]
    simp only [if_neg hbad]
    obtain ⟨_, hrecovered⟩ := (recoverVersions_counts options).done rfl hexit fun _ _ => trivial
    obtain ⟨_, hopen, _⟩ := hrecovered (Status.eq_ok hbad)
    apply Sys.bind_congr rfl
    intro dir after₃ _ _
    cases hfiles : logFiles vs.logNumber dir.keys with
    | none => rfl
    | some numbers =>
      obtain ⟨hsorted, hbounds, _⟩ := mem_logFiles hfiles
      exact Sys.bind_congr (replayLogs_asserted hopen hsorted hbounds) fun _ _ _ _ => rfl

end Asserted

/-- The number that the recovery takes for its own log is no less than the recorded one and
above every log of the directory that it replays. -/
def LogsBelow (dir : Dir) (faults : Faults) (next least manifest : Nat) : Prop :=
  least ≤ numberBehind next manifest (filledLogs dir faults (ownLogs dir least)) ∧
    ∀ n ∈ ownLogs dir least,
      n < numberBehind next manifest (filledLogs dir faults (ownLogs dir least))

/-- The assertion of the last edit, that of the new log, and the new log above the others. -/
structure NewLogAbove (versions : VersionSet) (numbers : List Nat) : Prop where
  asserts : versions.newFileNumber.2.Asserts { logNumber := some versions.newFileNumber.1 }
  above : ∀ n ∈ numbers, n < versions.newFileNumber.1

theorem Counted.newLogAbove_iff {dir : Dir} {faults : Faults} {versions : VersionSet}
    {numbers : List Nat} {next least manifest : Nat}
    (h : Counted dir faults versions numbers next least manifest) :
    NewLogAbove versions numbers ↔ LogsBelow dir faults next least manifest := by
  have hleast : ∀ n ∈ numbers, least ≤ n := fun n hn => (mem_ownLogs.mp (h.logs.mem_iff.mp hn)).2
  unfold LogsBelow
  rw [← h.behind]
  constructor
  · intro hnew
    have habove : ∀ n ∈ numbers, n < versions.nextFileNumber := hnew.above
    refine ⟨?_, fun n hn => habove n (h.logs.mem_iff.mpr hn)⟩
    rcases h.log with hsame | hmem
    · exact hsame ▸ hnew.asserts _ rfl
    · exact le_trans (hleast _ hmem) (le_of_lt (habove _ hmem))
  · rintro ⟨hnumber, hlogs⟩
    have habove : ∀ n ∈ numbers, n < versions.nextFileNumber := fun n hn =>
      hlogs n (h.logs.mem_iff.mp hn)
    refine ⟨fun n hn => ?_, habove⟩
    obtain rfl := Option.some.inj hn
    rcases h.log with hsame | hmem
    · exact le_of_eq_of_le hsame hnumber
    · exact le_of_lt (habove _ hmem)

theorem startLog_logNumber {options : Options} {versions : VersionSet}
    (hopen : versions.DescriptorOpen) {machine after : Machine FileName} {db : DBImpl}
    {trace : List (Event FileName)}
    (hexit : startLog options versions machine = .done (.ok, some db) after trace) :
    db.versions.logNumber = versions.newFileNumber.1 := by
  have hruns : Runs Assume.any machine.dir (startLog options versions)
      (fun result _ => ∀ db, result = (.ok, some db) →
        db.versions.logNumber = versions.newFileNumber.1) fun _ => True := by
    unfold startLog
    simp only [VersionSet.newFileNumber]
    refine Runs.bind (Runs.bind Runs.call_any fun opened after₀ _ => Runs.ret trivial)
      fun writer after₁ (_ : True) => ?_
    refine Runs.bind (logAndApply_counts hopen (by simp)) ?_
    rintro ⟨status, versions'⟩ after₂ ⟨_, hok⟩
    simp only at hok ⊢
    split
    · exact Runs.ret fun db hdb => by cases hdb
    · rename_i hgood
      obtain ⟨_, _, _, hlog⟩ := hok (Status.eq_ok hgood)
      refine Runs.ret fun db hdb => ?_
      cases hdb
      exact hlog
  exact hruns.done_any hexit db rfl

/-- Whatever fails: no assertion fails while logs are replayed, and where the recovery comes to
its own log the count of the filled logs decides about the last one, and about the order of the
numbers. A later recovery starts from the number of that log. -/
theorem recovery_log_numbers (options : Options) (machine : Machine FileName)
    (hown : OwnNames machine.dir) :
    openDB options = (recoverLogs options >>= fun result =>
      if !result.1.isOk then pure (result.1, none) else startLog options result.2.1) ∧
    recoverLogsWith VersionSet.assertedLogAndApply options machine = recoverLogs options machine ∧
      ∀ versions numbers after trace,
        recoverLogs options machine = .done (.ok, versions, numbers) after trace →
        (∃ next least manifest,
          recoveredNumbers (touch machine.dir .lock) machine.faults = some (next, least, manifest) ∧
          (NewLogAbove versions numbers ↔
            LogsBelow (touch machine.dir .lock) machine.faults next least manifest)) ∧
        ∀ db last more, startLog options versions after = .done (.ok, some db) last more →
          db.versions.logNumber = versions.newFileNumber.1 := by
  refine ⟨openDB_eq_recoverLogs options, recoverLogs_asserted options machine,
    fun versions numbers after trace hexit => ?_⟩
  obtain ⟨_, hcounted⟩ := (recoverLogs_counts options hown).done rfl hexit fun _ _ => trivial
  obtain ⟨next, least, manifest, h⟩ := hcounted rfl
  exact ⟨⟨next, least, manifest, h.start, h.newLogAbove_iff⟩,
    fun db last more hstart => startLog_logNumber h.descriptor hstart⟩

def ownNames (dir : Dir) : Bool :=
  dir.keys.all fun name => match name with
    | .other _ => false
    | _ => true

theorem ownNames_sound {dir : Dir} (h : ownNames dir = true) : OwnNames dir := by
  intro text
  rw [AList.lookup_eq_none, AList.mem_keys]
  intro hmem
  cases List.all_eq_true.mp h _ hmem

/-- Each flush of a small memtable fails with its last call, and each write goes to a new
log. -/
def failedFlushes (flushes : Nat) : Option Store := do
  let flush : List Outcome := [.ok, .ok, .ok, .fail 0]
  let put : Action := .write kTypeValue [97] [49]
  let store ← newStore { writeBufferSize := 1 }
    (List.replicate 19 .ok ++ (List.replicate flushes flush).flatten)
  store.actAll (put :: put :: (List.replicate flushes [.backgroundCompaction, put]).flatten)

/-- The next process replays exactly `logs` and gives its own log the number `own`. -/
def recoversTo (store : Store) (logs : List Nat) (own : Nat) : Bool :=
  ownNames store.machine.dir && (recoverLogs {} store.machine).returns fun result _ _ =>
    result.1 = .ok && result.2.2 = logs && result.2.1.newFileNumber.1 = own &&
      result.2.1.logNumber = logs.foldl max 0

theorem of_recoversTo {store : Store} {logs : List Nat} {own : Nat}
    (h : recoversTo store logs own = true) : OwnNames store.machine.dir ∧
      ∃ versions after trace,
        recoverLogs {} store.machine = .done (.ok, versions, logs) after trace ∧
        versions.newFileNumber.1 = own ∧ versions.logNumber = logs.foldl max 0 := by
  obtain ⟨hown, hreturns⟩ := Bool.and_eq_true_iff.mp h
  obtain ⟨⟨status, versions, numbers⟩, after, trace, hexit, hchecks⟩ := Exit.of_returns hreturns
  simp only [Bool.and_eq_true, decide_eq_true_eq] at hchecks
  obtain ⟨⟨⟨rfl, rfl⟩, hnext⟩, hlog⟩ := hchecks
  exact ⟨ownNames_sound hown, versions, after, trace, hexit, hnext, hlog⟩

set_option maxRecDepth 8192 in
/-- After two failed flushes the counter is still ahead of the four logs. -/
theorem recovery_log_numbers_twoFailedFlushes : ∃ store next least manifest,
    failedFlushes 2 = some store ∧ OwnNames store.machine.dir ∧
      recoveredNumbers (touch store.machine.dir .lock) store.machine.faults =
        some (next, least, manifest) ∧
      LogsBelow (touch store.machine.dir .lock) store.machine.faults next least manifest ∧
      ∃ versions after trace,
        recoverLogs {} store.machine = .done (.ok, versions, [3, 4, 6, 8]) after trace ∧
        NewLogAbove versions [3, 4, 6, 8] := by
  have htest : (do
      let store ← failedFlushes 2
      return recoversTo store [3, 4, 6, 8] 9) = some true := by
    decide +kernel
  simp only [Option.bind_eq_bind, Option.bind_eq_some_iff, Option.pure_def,
    Option.some.injEq] at htest
  obtain ⟨store, hstore, htest⟩ := htest
  obtain ⟨hown, versions, after, trace, hexit, hnext, hlog⟩ := of_recoversTo htest
  obtain ⟨_, _, hnumbers⟩ := recovery_log_numbers {} store.machine hown
  obtain ⟨⟨next, least, manifest, hstart, hiff⟩, _⟩ := hnumbers versions _ after trace hexit
  have hnew : NewLogAbove versions [3, 4, 6, 8] := by
    refine ⟨fun number hnumber => ?_, fun number hmem => ?_⟩
    · obtain rfl := Option.some.inj hnumber
      change versions.logNumber ≤ _
      rw [hlog, hnext]
      decide
    · rw [hnext]
      revert number
      decide
  exact ⟨store, next, least, manifest, hstore, hown, hstart, hiff.mp hnew, versions, after, trace,
    hexit, hnew⟩

set_option maxRecDepth 8192 in
/-- After four failed flushes the next process replays log 12, records its number and gives its
own log the number 11. -/
theorem failed_flushes_outrun_counter : ∃ store versions after trace,
    failedFlushes 4 = some store ∧ OwnNames store.machine.dir ∧
      recoverLogs {} store.machine = .done (.ok, versions, [3, 4, 6, 8, 10, 12]) after trace ∧
      versions.newFileNumber.1 = 11 ∧
      ¬ versions.newFileNumber.2.Asserts { logNumber := some versions.newFileNumber.1 } := by
  have htest : (do
      let store ← failedFlushes 4
      return recoversTo store [3, 4, 6, 8, 10, 12] 11) = some true := by
    decide +kernel
  simp only [Option.bind_eq_bind, Option.bind_eq_some_iff, Option.pure_def,
    Option.some.injEq] at htest
  obtain ⟨store, hstore, htest⟩ := htest
  obtain ⟨hown, versions, after, trace, hexit, hnext, hlog⟩ := of_recoversTo htest
  refine ⟨store, versions, after, trace, hstore, hown, hexit, hnext, fun hasserts => ?_⟩
  have hle : versions.logNumber ≤ versions.newFileNumber.1 := hasserts _ rfl
  rw [hlog, hnext] at hle
  revert hle
  decide

end Strata

import Strata.Attached
import Strata.WalFailures

/-! Logging an edit, whatever becomes of its calls. Each of them may fail part
way; the bytes of a failed write stay in the file. -/
namespace Strata

open Library System

variable {assume : Assume FileName} {dir : Dir}

theorem appendRecord_any (w : WalWriter) (e : Entry) (sync : Bool) :
    Runs Assume.any dir (w.appendRecord e sync) (fun _ _ => True) fun _ => True := by
  unfold WalWriter.appendRecord
  split
  · exact Runs.ret trivial
  · refine Runs.bind Runs.call_any fun header after _ => ?_
    split
    · exact Runs.ret trivial
    · refine Runs.bind Runs.call_any fun payload after _ => ?_
      split
      · exact Runs.ret trivial
      · split
        · unfold WalWriter.sync
          split
          · exact Runs.ret trivial
          · refine Runs.bind Runs.call_any fun synced after _ => ?_
            split <;> exact Runs.ret trivial
        · exact Runs.ret trivial

theorem syncDirectory_any : Runs Assume.any dir syncDirectory (fun _ _ => True) fun _ => True := by
  unfold syncDirectory
  refine Runs.bind Runs.call_any fun synced after _ => ?_
  split <;> exact Runs.ret trivial

theorem setCurrentFile_any (number : Nat) :
    Runs Assume.any dir (setCurrentFile number) (fun _ _ => True) fun _ => True := by
  unfold setCurrentFile
  refine Runs.bind Runs.call_any fun opened after _ => ?_
  split
  · exact Runs.ret trivial
  refine Runs.bind Runs.call_any fun written after _ => ?_
  split
  · exact Runs.ret trivial
  refine Runs.bind Runs.call_any fun synced after _ => ?_
  split
  · exact Runs.ret trivial
  refine Runs.bind Runs.call_any fun renamed after _ => ?_
  split
  · exact Runs.ret trivial
  · exact syncDirectory_any

theorem syncDirectory_outcome :
    Runs assume dir syncDirectory (fun _ after => after = dir) fun _ => True := by
  unfold syncDirectory
  refine Runs.bind (Runs.call (Q := fun _ after => after = dir) (fun _ => rfl) (fun _ _ => rfl)
    fun _ _ => trivial) ?_
  rintro synced after rfl
  cases synced
  · exact Runs.ret rfl
  · exact Runs.ret rfl

theorem setCurrentFile_outcome (number : Nat) :
    Runs assume dir (setCurrentFile number)
      (fun status after => SameButCurrent dir after ∧
        (status ≠ .ok ∧ after.lookup .current = dir.lookup .current ∨
          after.lookup .current = some (currentText number))) fun _ => True := by
  have hother : ∀ (bytes : Bytes) (name : FileName), name ≠ .currentTmp →
      (dir.insert .currentTmp bytes).lookup name = dir.lookup name := fun bytes name hne =>
    lookup_insert_other hne
  have htmp : ∀ bytes, SameButCurrent dir (dir.insert .currentTmp bytes) ∧
      (dir.insert .currentTmp bytes).lookup .current = dir.lookup .current := fun bytes =>
    ⟨fun name _ hne => hother bytes name hne, hother bytes _ (by simp)⟩
  have hfailed : ∀ (msg : String) (after : Dir), SameButCurrent dir after ∧
      after.lookup .current = dir.lookup .current → SameButCurrent dir after ∧
        (Status.ioError msg ≠ .ok ∧ after.lookup .current = dir.lookup .current ∨
          after.lookup .current = some (currentText number)) :=
    fun _ _ h => ⟨h.1, Or.inl ⟨by simp, h.2⟩⟩
  unfold setCurrentFile
  refine Runs.bind (Runs.call (Q := fun opened after => opened = true ∧
      after = dir.insert FileName.currentTmp ([] : Bytes) ∨ opened = false ∧ after = dir)
    (fun _ => Or.inl ⟨rfl, rfl⟩) (fun _ _ => Or.inr ⟨rfl, rfl⟩) fun _ _ => trivial) ?_
  rintro opened after (⟨rfl, rfl⟩ | ⟨rfl, rfl⟩)
  swap
  · exact Runs.ret (hfailed _ _ ⟨fun _ _ _ => rfl, rfl⟩)
  refine Runs.bind (Runs.call (Q := fun cut after => ∃ bytes,
      after = dir.insert FileName.currentTmp bytes ∧ (cut = none → bytes = currentText number))
    (fun _ => ⟨_, extend_insert _ _ _ _, fun _ => rfl⟩)
    (fun _ _ => ⟨_, extend_insert _ _ _ _, by simp⟩) fun _ _ => trivial) ?_
  rintro cut after ⟨bytes, rfl, hcut⟩
  cases cut with
  | some cut => exact Runs.ret (hfailed _ _ (htmp bytes))
  | none =>
    cases hcut rfl
    refine Runs.bind (Runs.call (Q := fun _ after =>
        after = dir.insert FileName.currentTmp (currentText number)) (fun _ => rfl) (fun _ _ => rfl)
      fun _ _ => trivial) ?_
    rintro synced after rfl
    cases synced with
    | false => exact Runs.ret (hfailed _ _ (htmp _))
    | true =>
      have hmoved : SameButCurrent dir (move (dir.insert .currentTmp (currentText number))
          .currentTmp .current) := by
        intro name hcurrent htmpName
        rw [lookup_move_other htmpName hcurrent, hother _ _ htmpName]
      have hcurrent : (move (dir.insert .currentTmp (currentText number)) .currentTmp
          .current).lookup .current = some (currentText number) :=
        lookup_move_target (lookup_insert_self _ _ _)
      refine Runs.bind (Runs.call (Q := fun renamed after => renamed = true ∧
          SameButCurrent dir after ∧ after.lookup .current = some (currentText number) ∨
          renamed = false ∧ after = dir.insert FileName.currentTmp (currentText number))
        (fun _ => Or.inl ⟨rfl, hmoved, hcurrent⟩) (fun _ _ => Or.inr ⟨rfl, rfl⟩)
        fun _ _ => trivial) ?_
      rintro renamed after (⟨rfl, hsame, hnamed⟩ | ⟨rfl, rfl⟩)
      · refine Runs.weaken syncDirectory_outcome ?_ fun _ h => h
        rintro status last rfl
        exact ⟨hsame, Or.inr hnamed⟩
      · exact Runs.ret (hfailed _ _ (htmp _))

namespace VersionSet

variable {vs : VersionSet} {edit : VersionEdit}

structure SameState (before after : VersionSet) : Prop where
  current : after.current = before.current
  logNumber : after.logNumber = before.logNumber
  lastSequence : after.lastSequence = before.lastSequence

theorem openDescriptor_any (vs : VersionSet) :
    Runs Assume.any dir vs.openDescriptor
      (fun result _ => (result.1 = .ok → result.2.descriptorLog ≠ none) ∧ vs.SameState result.2)
      fun _ => True := by
  have herror : ∀ {status : Status} {vs' : VersionSet}, (!status.isOk) = true → status = .ok →
      vs'.descriptorLog ≠ none := by
    rintro status vs' hbad rfl
    cases hbad
  unfold VersionSet.openDescriptor
  split
  · rename_i hsome
    exact Runs.ret ⟨fun _ => by simp [hsome], rfl, rfl, rfl⟩
  · refine Runs.bind (M := fun _ _ => True)
      (Runs.bind Runs.call_any fun _ _ _ => Runs.ret trivial) fun writer after _ => ?_
    refine Runs.bind (appendRecord_any _ _ _) fun status after _ => ?_
    split
    · rename_i hbad
      exact Runs.ret ⟨herror hbad, rfl, rfl, rfl⟩
    refine Runs.bind (setCurrentFile_any _) fun status after _ => ?_
    split
    · rename_i hbad
      exact Runs.ret ⟨herror hbad, rfl, rfl, rfl⟩
    · exact Runs.ret ⟨fun _ => by simp, rfl, rfl, rfl⟩

theorem logAndApply_any (vs : VersionSet) {edit : VersionEdit}
    (hlevels : ∀ item ∈ edit.newFiles, item.1 < kNumLevels) :
    Runs Assume.any dir (vs.logAndApply edit) (fun result _ => (result.1 = .ok →
        ∃ faults, result.2.current = vs.installEdit (vs.completeEdit edit) dir faults) ∧
      (result.1 ≠ .ok → vs.SameState result.2)) fun _ => True := by
  unfold VersionSet.logAndApply
  simp only [levels_in_range vs hlevels, Bool.false_eq_true, ↓reduceIte]
  refine Runs.bind (Runs.readDir (Q := fun seen after => seen = dir ∧ after = dir) ⟨rfl, rfl⟩) ?_
  rintro seen after ⟨rfl, rfl⟩
  refine Runs.bind (Runs.readFaults (Q := fun _ _ => True) fun _ _ => trivial) ?_
  intro faults now _
  refine Runs.bind (openDescriptor_any vs) fun result last hresult => ?_
  obtain ⟨status, vs'⟩ := result
  obtain ⟨hopened, hsame⟩ := hresult
  simp only at hopened hsame ⊢
  split
  · refine Runs.bind (appendRecord_any _ _ _) fun status' _ _ => ?_
    split
    · rename_i hbad
      exact Runs.ret ⟨fun hok => absurd hok (Status.isOk_eq_false.mp (by simpa using hbad)),
        fun _ => hsame⟩
    · exact Runs.ret ⟨fun _ => ⟨faults, rfl⟩, fun herror => absurd rfl herror⟩
  · rename_i hnot
    refine Runs.ret ⟨fun hok => ?_, fun _ => hsame⟩
    obtain ⟨writer, hwriter⟩ := Option.ne_none_iff_exists'.mp (hopened hok)
    exact absurd hwriter (hnot writer hok)

theorem openDescriptor_outcome (hnone : vs.descriptorLog = none) :
    Runs assume dir vs.openDescriptor
      (fun result after => result = (.ok, vs.withDescriptor) ∧ vs.Switched dir [] after ∨
        result.1 ≠ .ok ∧ result.2 = vs.numbered ∧
          (vs.Snapshotting dir after ∨ vs.Switched dir [] after)) fun _ => True := by
  have hcurrent : ∀ bytes, (extend (touch dir (.manifest vs.nextFileNumber))
      (.manifest vs.nextFileNumber) bytes).lookup .current = dir.lookup .current := by
    intro bytes
    rw [lookup_extend_other (by simp), lookup_touch_other (by simp)]
  unfold openDescriptor
  simp only [hnone, newFileNumber]
  refine Runs.bind (M := fun w after => w = ⟨.manifest vs.nextFileNumber, true⟩ ∧
    after = touch dir (.manifest vs.nextFileNumber) ∨
    w = ⟨.manifest vs.nextFileNumber, false⟩ ∧ after = dir) ?_ ?_
  · unfold WalWriter.new
    refine Runs.bind (Runs.call (Q := fun opened after => opened = true ∧
      after = touch dir (.manifest vs.nextFileNumber) ∨ opened = false ∧ after = dir)
      (fun _ => Or.inl ⟨rfl, rfl⟩) (fun _ _ => Or.inr ⟨rfl, rfl⟩) fun _ _ => trivial) ?_
    rintro opened after (⟨rfl, rfl⟩ | ⟨rfl, rfl⟩)
    · exact Runs.ret (Or.inl ⟨rfl, rfl⟩)
    · exact Runs.ret (Or.inr ⟨rfl, rfl⟩)
  rintro writer after (⟨rfl, rfl⟩ | ⟨rfl, rfl⟩)
  swap
  · refine Runs.bind (appendRecord_closed rfl _ _) ?_
    rintro status after ⟨hstatus, rfl⟩
    have hfalse := Status.isOk_eq_false.mpr hstatus
    simp only [hfalse, Bool.not_false, ↓reduceIte]
    exact Runs.ret (Or.inr ⟨hstatus, by simp [numbered, hnone], Or.inl (Or.inl rfl)⟩)
  refine Runs.bind (appendRecord_outcome rfl _ _) ?_
  rintro status after ⟨left, hleaves, rfl, hwhole⟩
  have hsnapshotting : vs.Snapshotting dir (extend (touch dir (.manifest vs.nextFileNumber))
      (.manifest vs.nextFileNumber) left) :=
    Or.inr ⟨left, hleaves.1, fun _ _ _ => rfl, hcurrent left⟩
  by_cases hstatus : status = .ok
  swap
  · have hfalse := Status.isOk_eq_false.mpr hstatus
    simp only [hfalse, Bool.not_false, ↓reduceIte]
    exact Runs.ret (Or.inr ⟨hstatus, by simp [numbered, hnone], Or.inl hsnapshotting⟩)
  cases hwhole hstatus
  subst hstatus
  simp only [Status.isOk_ok, Bool.not_true, Bool.false_eq_true, ↓reduceIte]
  refine Runs.bind (setCurrentFile_outcome vs.nextFileNumber) ?_
  rintro status after ⟨hsame, hcases⟩
  have hswitched : after.lookup .current = some (currentText vs.nextFileNumber) →
      vs.Switched dir [] after := by
    intro hnamed
    refine ⟨?_, hnamed⟩
    rw [List.append_nil]
    exact hsame
  by_cases hstatus : status = .ok
  · subst hstatus
    rcases hcases with ⟨herror, _⟩ | hnamed
    · exact absurd rfl herror
    · exact Runs.ret (Or.inl ⟨rfl, hswitched hnamed⟩)
  · have hfalse := Status.isOk_eq_false.mpr hstatus
    simp only [hfalse, Bool.not_false, ↓reduceIte]
    refine Runs.ret (Or.inr ⟨hstatus, by simp [numbered, hnone], ?_⟩)
    rcases hcases with ⟨_, hold⟩ | hnamed
    · exact Or.inl (Or.inr ⟨_, List.prefix_refl _, hsame, hold.trans (hcurrent _)⟩)
    · exact Or.inr (hswitched hnamed)

theorem logAndApply_append_outcome {w : WalWriter} (hsome : vs.descriptorLog = some w)
    (hopened : w.opened = true) (hlevels : ∀ item ∈ edit.newFiles, item.1 < kNumLevels) :
    Runs assume dir (vs.logAndApply edit)
      (fun result after => ∃ left,
        Leaves assume w.filename (manifestEntry (vs.completeEdit edit)) left ∧
        after = extend dir w.filename left ∧
        (result.1 = .ok ∧ left = vs.editFrame edit ∧
            (∃ faults, result.2 = vs.applied edit dir faults) ∨
          result.1 ≠ .ok ∧ result.2 = vs)) fun _ => True := by
  unfold logAndApply
  simp only [levels_in_range vs hlevels, Bool.false_eq_true, ↓reduceIte]
  refine Runs.bind (Runs.readDir (Q := fun seen after => seen = dir ∧ after = dir) ⟨rfl, rfl⟩) ?_
  rintro seen after ⟨rfl, rfl⟩
  refine Runs.bind (Runs.readFaults (Q := fun _ now => now = after) fun _ _ => rfl) ?_
  rintro faults now rfl
  refine Runs.bind (M := fun result last => result = (.ok, vs) ∧ last = now) ?_ ?_
  · unfold openDescriptor
    simp only [hsome]
    exact Runs.ret ⟨rfl, rfl⟩
  · rintro result last ⟨rfl, rfl⟩
    simp only [hsome]
    refine Runs.bind (appendRecord_outcome hopened _ _) ?_
    rintro status after' ⟨left, hleaves, rfl, hwhole⟩
    by_cases hstatus : status = .ok
    · subst hstatus
      refine Runs.ret ⟨left, hleaves, rfl, Or.inl ⟨rfl, hwhole rfl, faults, ?_⟩⟩
      simp only [applied, hsome]
      rfl
    · simp only [Status.isOk_eq_false.mpr hstatus, Bool.not_false, ↓reduceIte]
      exact Runs.ret ⟨left, hleaves, rfl, Or.inr ⟨hstatus, rfl⟩⟩

theorem logAndApply_create_outcome (hnone : vs.descriptorLog = none)
    (hlevels : ∀ item ∈ edit.newFiles, item.1 < kNumLevels) :
    Runs assume dir (vs.logAndApply edit)
      (fun result after =>
        result.1 ≠ .ok ∧ result.2 = vs.numbered ∧
          (vs.Snapshotting dir after ∨ vs.Switched dir [] after) ∨
        ∃ left, Leaves assume (.manifest vs.nextFileNumber)
            (manifestEntry (vs.completeEdit edit)) left ∧ vs.Switched dir left after ∧
          (result.1 = .ok ∧ left = vs.editFrame edit ∧
              (∃ faults, result.2 = (vs.applied edit dir faults).withDescriptor) ∨
            result.1 ≠ .ok ∧ result.2 = vs.withDescriptor)) fun _ => True := by
  unfold logAndApply
  simp only [levels_in_range vs hlevels, Bool.false_eq_true, ↓reduceIte]
  refine Runs.bind (Runs.readDir (Q := fun seen after => seen = dir ∧ after = dir) ⟨rfl, rfl⟩) ?_
  rintro seen after ⟨rfl, rfl⟩
  refine Runs.bind (Runs.readFaults (Q := fun _ now => now = after) fun _ _ => rfl) ?_
  rintro faults now rfl
  refine Runs.bind (openDescriptor_outcome hnone) ?_
  rintro ⟨status, vs'⟩ after (⟨heq, hswitched⟩ | ⟨hstatus, rfl, hafter⟩)
  · cases heq
    simp only [withDescriptor]
    refine Runs.bind (appendRecord_outcome rfl _ _) ?_
    rintro status last ⟨left, hleaves, rfl, hwhole⟩
    by_cases hstatus : status = .ok
    · subst hstatus
      exact Runs.ret (Or.inr ⟨left, hleaves, Switched.extend hswitched left, Or.inl ⟨rfl, hwhole rfl,
        faults, rfl⟩⟩)
    · simp only [Status.isOk_eq_false.mpr hstatus, Bool.not_false, ↓reduceIte]
      exact Runs.ret (Or.inr ⟨left, hleaves, Switched.extend hswitched left, Or.inr ⟨hstatus, rfl⟩⟩)
  · cases status with
    | ok => exact absurd rfl hstatus
    | _ => exact Runs.ret (Or.inl ⟨by simp, rfl, hafter⟩)

end VersionSet

end Strata

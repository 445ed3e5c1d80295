import Strata.VersionSet

/-! Recovery from a damaged manifest. `Recover` stops at the first record that
cannot be read and installs what it has gathered, whatever ended the reading, and
it takes the levels it finds in the records for indices of its array. -/
namespace Strata

open Library System VersionSet

def manifestEnding (dir : Dir) (faults : Faults) (line : Bytes) : ReadEnd :=
  (manifestReader dir faults line).readAll.2

/-- OK only behind a manifest that was opened and read to its end, and a reading that ended
in an error makes `Recover` return one and install nothing. Where the source has no defined
meaning it may return OK, and it need not return at all. -/
def ManifestChecked (vs : VersionSet) (dir : Dir) (faults : Faults) : Prop :=
  ((vs.recover dir faults = none ∨ ∃ after, vs.recover dir faults = some (.ok, after)) →
    ∃ line msg, currentLine dir faults = some line ∧
      (manifestReader dir faults line).opened = true ∧
      manifestEnding dir faults line = .status (.notFound msg)) ∧
  ∀ line ended, currentLine dir faults = some line → line ≠ [] →
    manifestEnding dir faults line = .status ended → ended.isNotFound = false →
    ∃ status after, vs.recover dir faults = some (status, after) ∧ status ≠ .ok ∧
      after.current = vs.current ∧ after.nextFileNumber = vs.nextFileNumber ∧
      after.lastSequence = vs.lastSequence ∧ after.logNumber = vs.logNumber

/-- The reading of the manifest that `CURRENT` names does not end in NotFound, and no record
in front of that makes the replay return an error. A manifest that cannot be opened is one
of these. -/
def EndsInError (dir : Dir) (faults : Faults) : Prop :=
  ∃ line, currentLine dir faults = some line ∧ line ≠ [] ∧
    (∀ error, replayEdits {} (manifestReader dir faults line).readAll.1 ≠ some (.error error)) ∧
    ∀ msg, manifestEnding dir faults line ≠ .status (.notFound msg)

theorem readAll_closed {r : WalReader} (h : r.opened = false) :
    r.readAll = ([], .status (.ioError "WAL file is not open")) := by
  have hread : r.readRecord true = .stop (.ioError "WAL file is not open") r := by
    simp [WalReader.readRecord, h]
  exact readAll_stop hread

theorem replayEdits_error {r : Recovery} {records : List Entry} {error : Status}
    (h : replayEdits r records = some (.error error)) : error ≠ .ok := by
  induction records generalizing r with
  | nil => cases h
  | cons record rest ih =>
    unfold replayEdits at h
    cases hdecode : VersionEdit.decodeFrom record.value with
    | error e =>
      simp only [hdecode, Option.some.injEq, Except.error.injEq] at h
      subst h
      obtain ⟨msg, rfl⟩ := VersionEdit.decodeFrom_error hdecode
      simp
    | ok edit =>
      simp only [hdecode] at h
      split at h
      · cases h
      · exact ih h

theorem recover_eq (vs : VersionSet) {dir : Dir} {faults : Faults} {line : Bytes}
    (hline : currentLine dir faults = some line) (hne : line ≠ []) :
    vs.recover dir faults =
      match replayEdits {} (manifestReader dir faults line).readAll.1 with
      | none => none
      | some (.error status) => some (status, vs)
      | some (.ok r) =>
        match manifestEnding dir faults line with
        | .undefined => none
        | .status _ => some (.ok, vs.install dir faults r) := by
  rw [VersionSet.recover, hline]
  simp only [if_neg hne]
  rfl

theorem endsInError_accepted (vs : VersionSet) {dir : Dir} {faults : Faults}
    (h : EndsInError dir faults) :
    vs.recover dir faults = none ∨ ∃ after, vs.recover dir faults = some (.ok, after) := by
  obtain ⟨line, hline, hne, hreplay, _⟩ := h
  rw [recover_eq vs hline hne]
  cases hresult : replayEdits {} (manifestReader dir faults line).readAll.1 with
  | none => exact Or.inl rfl
  | some result =>
    cases result with
    | error error => exact absurd hresult (hreplay error)
    | ok r =>
      cases hend : manifestEnding dir faults line with
      | undefined => exact Or.inl rfl
      | status ended => exact Or.inr ⟨_, rfl⟩

theorem opened_of_notFound {dir : Dir} {faults : Faults} {line : Bytes} {msg : String}
    (h : manifestEnding dir faults line = .status (.notFound msg)) :
    (manifestReader dir faults line).opened = true := by
  by_contra hclosed
  rw [manifestEnding, readAll_closed (Bool.eq_false_iff.mpr hclosed)] at h
  cases h

/-- Damage to the manifest is reported exactly where a record in front of it already makes
the replay return an error. -/
theorem manifestChecked_iff (vs : VersionSet) (dir : Dir) (faults : Faults) :
    ManifestChecked vs dir faults ↔ ¬ EndsInError dir faults := by
  constructor
  · rintro ⟨hread, _⟩ hend
    obtain ⟨line, msg, hline, _, hfound⟩ := hread (endsInError_accepted vs hend)
    obtain ⟨line', hline', _, _, hnot⟩ := hend
    rw [hline, Option.some.injEq] at hline'
    exact hnot msg (hline' ▸ hfound)
  · intro hnot
    have hstops : ∀ line, currentLine dir faults = some line → line ≠ [] →
        (∃ error, replayEdits {} (manifestReader dir faults line).readAll.1 =
          some (.error error)) ∨ ∃ msg, manifestEnding dir faults line = .status (.notFound msg) := by
      intro line hline hne
      by_contra hneither
      rw [not_or, not_exists, not_exists] at hneither
      exact hnot ⟨line, hline, hne, hneither.1, hneither.2⟩
    constructor
    · intro haccepts
      cases hline : currentLine dir faults with
      | none => simp [VersionSet.recover, hline] at haccepts
      | some line =>
        by_cases hne : line = []
        · simp [VersionSet.recover, hline, hne] at haccepts
        · rcases hstops line hline hne with ⟨error, herror⟩ | ⟨msg, hfound⟩
          · rw [recover_eq vs hline hne, herror] at haccepts
            rcases haccepts with hnone | ⟨after, hok⟩
            · cases hnone
            · cases hok
              exact absurd rfl (replayEdits_error herror)
          · exact ⟨line, msg, rfl, opened_of_notFound hfound, hfound⟩
    · intro line ended hline hne hend hbad
      rcases hstops line hline hne with ⟨error, herror⟩ | ⟨msg, hfound⟩
      · refine ⟨error, vs, ?_, replayEdits_error herror, rfl, rfl, rfl, rfl⟩
        rw [recover_eq vs hline hne, herror]
      · rw [hfound, ReadEnd.status.injEq] at hend
        rw [← hend] at hbad
        cases hbad

def damagedManifest : Dir :=
  let first := manifestEntry { nextFileNumber := some 9, lastSequence := some 7 }
  let second := manifestEntry { logNumber := some 8 }
  ((∅ : Dir).insert .current (manifestName 2 ++ [10])).insert (.manifest 2)
    ((walFrame first).set 8 7 ++ walFrame second)

/-- The first record fails its checksum in the middle of the file, and
`Recover` returns OK with the file counter of a new database. -/
theorem damaged_manifest_accepted :
    ¬ ∀ (vs : VersionSet) (dir : Dir) (faults : Faults), ManifestChecked vs dir faults := by
  intro h
  have hread : (manifestReader damagedManifest (fun _ => none) (manifestName 2)).readAll =
      ([], .status (.corruption "WAL CRC mismatch in middle of log file")) := by decide +kernel
  obtain ⟨status, after, hrecover, hbad, _⟩ := (h .new damagedManifest fun _ => none).2
    (manifestName 2) _ (by decide +kernel) (by decide) (by rw [manifestEnding, hread]) rfl
  rw [recover_eq .new (by decide +kernel) (show manifestName 2 ≠ [] by decide), manifestEnding,
    hread] at hrecover
  cases hrecover
  exact hbad rfl

/-! A level is a 32-bit field of a record. Nothing checks it before the file is
added at that index. -/

def decodedEdits : List Entry → List VersionEdit
  | [] => []
  | record :: rest =>
    match VersionEdit.decodeFrom record.value with
    | .error _ => []
    | .ok edit => edit :: decodedEdits rest

def addedLevels (records : List Entry) : List Nat :=
  (decodedEdits records).flatMap fun edit => edit.newFiles.map Prod.fst

def Undecodable (record : Entry) : Prop :=
  ∃ error, VersionEdit.decodeFrom record.value = .error error

def NamesOtherLevel (record : Entry) : Prop :=
  ∃ edit, VersionEdit.decodeFrom record.value = .ok edit ∧
    ∃ level ∈ edit.newFiles.map Prod.fst ++ edit.deletedFiles.map Prod.fst, kNumLevels ≤ level

def LevelsChecked (vs : VersionSet) (dir : Dir) (faults : Faults) : Prop :=
  ∀ line, currentLine dir faults = some line → line ≠ [] →
    let records := (manifestReader dir faults line).readAll.1
    replayEdits {} records ≠ none ∧ ∀ record ∈ records, NamesOtherLevel record →
      ∃ msg after, vs.recover dir faults = some (.corruption msg, after)

def LevelsInRange (dir : Dir) (faults : Faults) : Prop :=
  ∀ line, currentLine dir faults = some line → line ≠ [] →
    let records := (manifestReader dir faults line).readAll.1
    (∀ level ∈ addedLevels records, level < kNumLevels) ∧
      ((∀ record ∈ records, ¬ NamesOtherLevel record) ∨ ∃ record ∈ records, Undecodable record)

theorem decodedEdits_cons {record : Entry} {edit : VersionEdit}
    (h : VersionEdit.decodeFrom record.value = .ok edit) (rest : List Entry) :
    decodedEdits (record :: rest) = edit :: decodedEdits rest := by
  rw [decodedEdits, h]

theorem replayEdits_eq_none (r : Recovery) (records : List Entry) :
    replayEdits r records = none ↔ ∃ level ∈ addedLevels records, kNumLevels ≤ level := by
  induction records generalizing r with
  | nil => simp [replayEdits, addedLevels, decodedEdits]
  | cons record rest ih =>
    rw [replayEdits]
    cases hdecode : VersionEdit.decodeFrom record.value with
    | error error => simp [addedLevels, decodedEdits, hdecode]
    | ok edit =>
      have hadded : addedLevels (record :: rest) =
          edit.newFiles.map Prod.fst ++ addedLevels rest := by
        rw [addedLevels, decodedEdits_cons hdecode, List.flatMap_cons]
        rfl
      simp only [hadded, List.mem_append]
      by_cases houtside : (edit.newFiles.any fun item => item.1 ≥ kNumLevels) = true
      · rw [if_pos houtside]
        obtain ⟨item, hitem, hlarge⟩ := List.any_eq_true.mp houtside
        exact iff_of_true rfl
          ⟨item.1, Or.inl (List.mem_map_of_mem hitem), of_decide_eq_true hlarge⟩
      · rw [if_neg houtside, ih]
        constructor
        · rintro ⟨level, hlevel, hlarge⟩
          exact ⟨level, Or.inr hlevel, hlarge⟩
        · rintro ⟨level, hlevel | hlevel, hlarge⟩
          · obtain ⟨item, hitem, rfl⟩ := List.mem_map.mp hlevel
            exact absurd (List.any_eq_true.mpr ⟨item, hitem, decide_eq_true hlarge⟩) houtside
          · exact ⟨level, hlevel, hlarge⟩

theorem replayEdits_defined {r : Recovery} {records : List Entry}
    (h : replayEdits r records ≠ none) :
    ((∃ record ∈ records, Undecodable record) ∧
        ∃ msg, replayEdits r records = some (.error (.corruption msg))) ∨
      ((∀ record ∈ records, ¬ Undecodable record) ∧
        ∃ last, replayEdits r records = some (.ok last)) := by
  induction records generalizing r with
  | nil =>
    right
    exact ⟨fun _ hmem => (List.not_mem_nil hmem).elim, r, rfl⟩
  | cons record rest ih =>
    rw [replayEdits] at h ⊢
    cases hdecode : VersionEdit.decodeFrom record.value with
    | error error =>
      left
      obtain ⟨msg, rfl⟩ := VersionEdit.decodeFrom_error hdecode
      exact ⟨⟨record, by simp, _, hdecode⟩, msg, rfl⟩
    | ok edit =>
      simp only [hdecode] at h ⊢
      by_cases houtside : (edit.newFiles.any fun item => item.1 ≥ kNumLevels) = true
      · rw [if_pos houtside] at h
        exact absurd rfl h
      rw [if_neg houtside] at h ⊢
      rcases ih h with ⟨⟨bad, hmem, hbad⟩, hreplay⟩ | ⟨hgood, hreplay⟩
      · left
        exact ⟨⟨bad, List.mem_cons_of_mem record hmem, hbad⟩, hreplay⟩
      · right
        refine ⟨fun other hother => ?_, hreplay⟩
        rcases List.mem_cons.mp hother with rfl | hother
        · rintro ⟨error, herror⟩
          rw [hdecode] at herror
          cases herror
        · exact hgood other hother

/-- The levels of a manifest are checked exactly if there is nothing to check: an added file
at another level is an index outside the array, and a removal there is let through unless the
replay fails at a record that does not decode. -/
theorem levelsChecked_iff (vs : VersionSet) (dir : Dir) (faults : Faults) :
    LevelsChecked vs dir faults ↔ LevelsInRange dir faults := by
  apply forall_congr'
  intro line
  apply forall_congr'
  intro hline
  apply forall_congr'
  intro hne
  simp only
  have hinside : replayEdits {} (manifestReader dir faults line).readAll.1 ≠ none ↔
      ∀ level ∈ addedLevels (manifestReader dir faults line).readAll.1, level < kNumLevels := by
    rw [ne_eq, replayEdits_eq_none]
    push Not
    rfl
  rw [hinside]
  apply and_congr_right
  intro hadded
  have hrecover := recover_eq vs hline hne
  rcases replayEdits_defined (hinside.mpr hadded) with ⟨hbad, msg, hreplay⟩ | ⟨hgood, last, hreplay⟩
  · rw [hreplay] at hrecover
    exact iff_of_true (fun _ _ _ => ⟨msg, vs, hrecover⟩) (Or.inr hbad)
  -- the replay went through, so `Recover` does not return a corruption
  · constructor
    · intro hreport
      refine Or.inl fun record hmem hother => ?_
      obtain ⟨msg, after, hcorruption⟩ := hreport record hmem hother
      rw [hrecover, hreplay] at hcorruption
      simp only at hcorruption
      split at hcorruption <;> cases hcorruption
    · rintro (hnone | ⟨record, hmem, hbad⟩)
      · exact fun record hmem hother => absurd hother (hnone record hmem)
      · exact absurd hbad (hgood record hmem)

def deepEdit : VersionEdit := { newFiles := [(7, ⟨3, 0, [], [], none⟩)] }

def deepManifest : Dir :=
  ((∅ : Dir).insert .current (manifestName 2 ++ [10])).insert (.manifest 2)
    (walFrame (manifestEntry deepEdit))

set_option maxRecDepth 4096 in
theorem level_outside_array :
    ¬ ∀ (vs : VersionSet) (dir : Dir) (faults : Faults), LevelsChecked vs dir faults := by
  intro h
  have hread : (manifestReader deepManifest (fun _ => none) (manifestName 2)).readAll.1 =
      [manifestEntry deepEdit] := by decide +kernel
  have hlevels : addedLevels [manifestEntry deepEdit] = [7] := by decide +kernel
  have hchecked := h .new deepManifest (fun _ => none) (manifestName 2) (by decide +kernel)
    (by decide)
  simp only [hread] at hchecked
  exact hchecked.1 ((replayEdits_eq_none _ _).mpr ⟨7, by rw [hlevels]; simp, by decide⟩)

end Strata

import Strata.ManifestOutcomes

/-! A version set over its calls, and what a later `Recover` makes of the manifest
they leave. The two are separate pieces of code: one applies edits in memory, the
other replays a snapshot and the edits behind it. -/
namespace Strata

open Library System VersionSet VersionEdit

/-- A version set, the directory it works on, and what the last edit it logged
recorded there: the last sequence number and the file counter in force. -/
structure Stage where
  vs : VersionSet
  dir : Dir
  last : Option (Nat × Nat)

def VersionSet.filesAfter (vs : VersionSet) (edit : VersionEdit) (level : Fin kNumLevels) :
    List FileMetaData :=
  (vs.current.files level).filter (fun f => (level.val, f.number) ∉ edit.deletedFiles) ++
    (edit.newFiles.filter fun item => item.1 = level.val).map Prod.snd

structure VersionSet.Accepts (vs : VersionSet) (edit : VersionEdit) : Prop where
  storable : Storable edit
  fresh : ∀ item ∈ edit.newFiles, ∀ f ∈ vs.current.allFiles, f.number ≠ item.2.number
  distinct : (edit.newFiles.map fun item => item.2.number).Nodup
  keys : ∀ level, level ≠ 0 → ((vs.filesAfter edit level).map FileMetaData.smallestKey).Nodup

/-- The edits that callers log. Only the first of all may set the file counter. -/
structure Stage.Admits (s : Stage) (edit : VersionEdit) : Prop extends s.vs.Accepts edit where
  size : (s.vs.completeEdit edit).encodeTo.length ≤ kMaxRecordSize
  nextFileNumber : edit.nextFileNumber = none ∨ s.last = none
  logNumber : ∀ n, edit.logNumber = some n → s.vs.logNumber ≤ n
  lastSequence : ∀ n, edit.lastSequence = some n → s.vs.lastSequence ≤ n

/-- What happens between the edits: counters move on, and files that are neither
`CURRENT` nor a manifest come and go. -/
inductive Stage.Idle : Stage → Stage → Prop where
  | newFileNumber (s : Stage) : Idle s { s with vs := s.vs.newFileNumber.2 }
  | setLastSequence (s : Stage) (seq : Nat) (hseq : seq < 2 ^ 64) :
    Idle s { s with vs := s.vs.setLastSequence seq }
  | elsewhere (s : Stage) (dir : Dir) (hcurrent : dir.lookup .current = s.dir.lookup .current)
    (hmanifests : ∀ n, dir.lookup (.manifest n) = s.dir.lookup (.manifest n)) :
    Idle s { s with dir := dir }

/-- The stages of a directory without a manifest, under calls of `LogAndApply`
that return OK and meet the condition, and under `Recover` in a new version set. -/
inductive Logged (holds : VersionSet → VersionEdit → Prop) : Stage → Prop where
  | start (dir : Dir) (hnone : ∀ n, dir.lookup (.manifest n) = none) :
    Logged holds ⟨.new, dir, none⟩
  | idle {s s' : Stage} (before : Logged holds s) (step : s.Idle s') : Logged holds s'
  | logAndApply {s : Stage} {edit : VersionEdit} {machine after : Machine FileName}
    {vs : VersionSet} {trace : List (Event FileName)} (before : Logged holds s)
    (hadmits : s.Admits edit) (hholds : holds s.vs edit) (hdir : machine.dir = s.dir)
    (hrun : s.vs.logAndApply edit machine = .done (.ok, vs) after trace) :
    Logged holds ⟨vs, after.dir,
      some ((s.vs.completeEdit edit).lastSequence.getD 0, vs.nextFileNumber)⟩
  | recover {s : Stage} {vs : VersionSet} (before : Logged holds s) (hlast : s.last ≠ none)
    (hrun : VersionSet.new.recover s.dir (fun _ => none) = some (.ok, vs)) :
    Logged holds { s with vs := vs }

/-- A version set recovered from the stage's directory is the one of the stage. -/
structure Stage.Replays (s : Stage) (seq next : Nat) (vs : VersionSet) : Prop where
  files : ∀ level, (vs.current.files level).map bare = (s.vs.current.files level).map bare
  logNumber : vs.logNumber = s.vs.logNumber
  lastSequence : vs.lastSequence = seq
  nextFileNumber : next ≤ vs.nextFileNumber
  numbers : ∀ f ∈ vs.current.allFiles, f.number < vs.nextFileNumber

def Stage.Agrees (s : Stage) : Prop :=
  ∀ seq next, s.last = some (seq, next) → ∃ vs,
    VersionSet.new.recover s.dir (fun _ => none) = some (.ok, vs) ∧ s.Replays seq next vs

structure VersionSet.RecordsFit (vs : VersionSet) (edit : VersionEdit) : Prop where
  next : vs.nextFileNumber + 1 < 2 ^ 64
  edit : (walPayload (manifestEntry (vs.completeEdit edit))).length ≤ kMaxRecordSize
  snapshot : vs.descriptorLog = none →
    (walPayload (manifestEntry vs.numbered.snapshotEdit)).length ≤ kMaxRecordSize

/-! The files stay in the one order that sorting can give. -/

theorem pairwise_strict {α β : Type} {files : List α} (key : α → β) {R : β → β → Prop}
    (hsorted : files.Pairwise fun a b => R (key a) (key b)) (hnodup : (files.map key).Nodup) :
    files.Pairwise fun a b => R (key a) (key b) ∧ key a ≠ key b :=
  hsorted.and (List.pairwise_map.mp hnodup)

namespace VersionSet

variable {vs : VersionSet} {edit : VersionEdit}

theorem perm_filesAfter (vs : VersionSet) (edit : VersionEdit) (dir : Dir) (faults : Faults)
    (level : Fin kNumLevels) {α : Type} (field : FileMetaData → α)
    (hfield : ∀ f, field (f.withReader dir faults) = field f) :
    (((vs.installEdit (vs.completeEdit edit) dir faults).files level).map field).Perm
      ((vs.filesAfter edit level).map field) := by
  refine ((perm_installEdit vs (vs.completeEdit edit) dir faults level).map field).trans ?_
  rw [filesAfter, List.map_append, List.map_append, List.map_map, List.map_map]
  have hsame : (field ∘ fun item : Nat × FileMetaData => item.2.withReader dir faults) =
      field ∘ Prod.snd := by
    funext item
    exact hfield item.2
  rw [hsame]
  exact List.Perm.refl _

theorem Accepts.numbers (h : vs.Accepts edit) (harranged : Arranged vs.current) :
    ((vs.filesAfter edit 0).map FileMetaData.number).Nodup := by
  rw [filesAfter, List.map_append, List.nodup_append]
  refine ⟨?_, ?_, ?_⟩
  · have hnodup : ((vs.current.files 0).map FileMetaData.number).Nodup :=
      List.pairwise_map.mpr (harranged.level0.imp fun hlt => Nat.ne_of_gt hlt)
    exact hnodup.sublist (List.filter_sublist.map _)
  · rw [List.map_map]
    exact h.distinct.sublist (List.filter_sublist.map _)
  · intro a ha b hb
    obtain ⟨f, hf, rfl⟩ := List.mem_map.mp ha
    obtain ⟨g, hg, rfl⟩ := List.mem_map.mp hb
    obtain ⟨item, hitem, rfl⟩ := List.mem_map.mp hg
    exact h.fresh item (List.mem_filter.mp hitem).1 f
      (Version.mem_allFiles.mpr ⟨0, (List.mem_filter.mp hf).1⟩)

theorem Accepts.arranged (h : vs.Accepts edit) (harranged : Arranged vs.current) (dir : Dir)
    (faults : Faults) : Arranged (vs.installEdit (vs.completeEdit edit) dir faults) := by
  constructor
  · have hnodup := (perm_filesAfter vs edit dir faults 0 FileMetaData.number
      fun _ => rfl).nodup_iff.mpr (h.numbers harranged)
    refine (pairwise_strict (R := fun a b => b ≤ a) _ (Version.sort_descending _) hnodup).imp ?_
    intro a b hab
    omega
  · intro level hlevel
    have hnodup := (perm_filesAfter vs edit dir faults level FileMetaData.smallestKey
      fun _ => rfl).nodup_iff.mpr (h.keys level hlevel)
    refine (pairwise_strict _ (Version.sort_ascending _ hlevel) hnodup).imp ?_
    intro a b hab
    exact lt_of_le_of_ne hab.1 hab.2

end VersionSet

structure Stage.Sound (s : Stage) : Prop where
  arranged : Arranged s.vs.current
  files : ∀ f ∈ s.vs.current.allFiles, f.number + 1 < 2 ^ 64 ∧ f.fileSize < 2 ^ 64
  lastSequence : s.vs.lastSequence < 2 ^ 64
  logNumber : s.vs.logNumber < 2 ^ 64
  manifests : ∀ n, s.dir.lookup (.manifest n) ≠ none → n < s.vs.nextFileNumber

/-- The manifest that `CURRENT` names gives back the version of the stage. -/
structure Stage.Kept (s : Stage) (number : Nat) (torn : Bytes) (r : Recovery) : Prop where
  recorded : Recorded s.dir number torn r
  lists : r.Lists s.vs.current
  logNum : r.logNum = s.vs.logNumber
  descriptor : ∀ w, s.vs.descriptorLog = some w → w = ⟨.manifest number, true⟩

namespace Stage

variable {s s' : Stage} {edit : VersionEdit} {number : Nat} {torn : Bytes} {r : Recovery}

theorem Sound.encodable (h : s.Sound) (hnext : s.vs.nextFileNumber + 1 < 2 ^ 64) :
    s.vs.Encodable := ⟨hnext, h.lastSequence, h.logNumber, h.files⟩

theorem Sound.idle (h : s.Sound) (step : s.Idle s') : s'.Sound := by
  cases step with
  | newFileNumber =>
    exact { h with manifests := fun n hn => Nat.lt_succ_of_lt (h.manifests n hn) }
  | setLastSequence seq hseq =>
    have hlast := h.lastSequence
    rw [setLastSequence_eq]
    exact { h with lastSequence := max_lt hlast hseq }
  | elsewhere dir hcurrent hmanifests =>
    exact { h with manifests := fun n hn => h.manifests n (hmanifests n ▸ hn) }

theorem Kept.idle (h : s.Kept number torn r) (step : s.Idle s') : s'.Kept number torn r := by
  cases step with
  | newFileNumber => exact { h with }
  | setLastSequence seq hseq =>
    rw [setLastSequence_eq]
    exact { h with }
  | elsewhere dir hcurrent hmanifests =>
    exact { h with recorded := h.recorded.of_lookup hcurrent (hmanifests number) }

theorem Sound.install (h : s.Sound) (haccepts : s.vs.Accepts edit) (dir : Dir) (faults : Faults) :
    ∀ f ∈ (s.vs.installEdit (s.vs.completeEdit edit) dir faults).allFiles,
      f.number + 1 < 2 ^ 64 ∧ f.fileSize < 2 ^ 64 := by
  intro f hf
  obtain ⟨level, hlevel⟩ := Version.mem_allFiles.mp hf
  rcases mem_installEdit.mp hlevel with ⟨hold, _⟩ | ⟨item, hitem, _, rfl⟩
  · exact h.files f (Version.mem_allFiles.mpr ⟨level, hold⟩)
  · exact (haccepts.storable.newFiles item hitem).2

theorem Admits.lastSequence_le (h : s.Admits edit) :
    s.vs.lastSequence ≤ edit.lastSequence.getD s.vs.lastSequence := by
  cases hfield : edit.lastSequence with
  | none => exact le_refl _
  | some n => exact h.lastSequence n hfield

theorem Sound.applied (h : s.Sound) (haccepts : s.vs.Accepts edit) {vs : VersionSet} {dir after : Dir}
    {faults : Faults} {last : Option (Nat × Nat)}
    (hcurrent : vs.current = s.vs.installEdit (s.vs.completeEdit edit) dir faults)
    (hlogNumber : vs.logNumber = edit.logNumber.getD s.vs.logNumber)
    (hlastSequence : vs.lastSequence = edit.lastSequence.getD s.vs.lastSequence)
    (hmanifests : ∀ n, after.lookup (.manifest n) ≠ none → n < vs.nextFileNumber) :
    Sound ⟨vs, after, last⟩ := by
  constructor
  · rw [hcurrent]
    exact haccepts.arranged h.arranged dir faults
  · rw [hcurrent]
    exact h.install haccepts dir faults
  · rw [hlastSequence]
    cases hfield : edit.lastSequence with
    | none => exact h.lastSequence
    | some n => exact haccepts.storable.lastSequence n hfield
  · rw [hlogNumber]
    cases hfield : edit.logNumber with
    | none => exact h.logNumber
    | some n => exact haccepts.storable.logNumber n hfield
  · exact hmanifests

theorem manifests_extend {bound : Nat}
    (h : ∀ n, s.dir.lookup (.manifest n) ≠ none → n < bound) (number : Nat) (bytes : Bytes) :
    ∀ n, (extend s.dir (.manifest number) bytes).lookup (.manifest n) ≠ none → n < bound := by
  intro n hn
  apply h n
  unfold extend at hn
  split at hn
  · rename_i old hold
    by_cases hsame : n = number
    · rw [hsame, hold]
      simp
    · rwa [lookup_insert_other (by simpa using hsame)] at hn
  · exact hn

theorem manifests_switched {bound : Nat} {more : Bytes} {after : Dir}
    (h : ∀ n, s.dir.lookup (.manifest n) ≠ none → n < bound) (hnext : s.vs.nextFileNumber < bound)
    (hswitched : s.vs.Switched s.dir more after) :
    ∀ n, after.lookup (.manifest n) ≠ none → n < bound := by
  intro n hn
  by_cases hsame : n = s.vs.nextFileNumber
  · rwa [hsame]
  · have hne : FileName.manifest n ≠ .manifest s.vs.nextFileNumber := by simpa using hsame
    rw [hswitched.1 _ (by simp) (by simp), lookup_extend_other hne, lookup_touch_other hne] at hn
    exact h n hn

theorem Sound.exists_created (h : s.Sound) (hfit : s.vs.RecordsFit edit)
    (hnone : s.vs.descriptorLog = none) {left : Bytes} {after : Dir}
    (hswitched : s.vs.Switched s.dir left after) :
    ∃ r, Recorded after s.vs.nextFileNumber left r ∧ r.Lists s.vs.current ∧
      s.vs.nextFileNumber + 1 ≤ r.maxFileNum ∧
      (∀ f ∈ s.vs.current.allFiles, f.number < r.maxFileNum) ∧
      r.maxSeq = s.vs.lastSequence ∧ r.logNum = s.vs.logNumber := by
  obtain ⟨r, hafter, hlists, hleast, _, hnumbers, hmaxSeq, hlogNum⟩ :=
    (h.encodable hfit.next).exists_snapshot (hfit.snapshot hnone)
  have hfresh : (s.dir.lookup (.manifest s.vs.nextFileNumber)).getD [] = [] := by
    by_contra hne
    have hsome : s.dir.lookup (.manifest s.vs.nextFileNumber) ≠ none := by
      intro hnone'
      exact hne (by rw [hnone']; rfl)
    exact absurd (h.manifests _ hsome) (lt_irrefl _)
  exact ⟨r, hswitched.recorded hfresh (hfit.snapshot hnone) hafter, hlists, hleast, hnumbers,
    hmaxSeq, hlogNum⟩

theorem Sound.exists_logged (h : s.Sound) (haccepts : s.vs.Accepts edit)
    (hfit : s.vs.RecordsFit edit) {after : Dir}
    (hrecorded : Recorded after number (s.vs.editFrame edit) r) (hlists : r.Lists s.vs.current)
    (hlogNum : r.logNum = s.vs.logNumber) (dir : Dir) (faults : Faults) :
    ∃ r', Recorded after number [] r' ∧ r.After (s.vs.completeEdit edit) r' ∧
      r'.Lists (s.vs.installEdit (s.vs.completeEdit edit) dir faults) ∧
      r'.logNum = edit.logNumber.getD s.vs.logNumber := by
  have hnext := hfit.next
  obtain ⟨r', hafter⟩ := haccepts.storable.exists_after (by omega) h.lastSequence hfit.edit r
  refine ⟨r', hrecorded.after hafter hfit.edit, hafter, hafter.lists hlists dir faults, ?_⟩
  rw [hafter.logNum, hlogNum]
  rfl

/-- The recovered counters: the file counter is past every number in use. -/
structure Counted (s : Stage) (next : Nat) (r : Recovery) : Prop where
  maxSeq : r.maxSeq ≤ s.vs.lastSequence
  next : next ≤ r.maxFileNum
  files : ∀ f ∈ s.vs.current.allFiles, f.number < r.maxFileNum
  manifests : ∀ n, s.dir.lookup (.manifest n) ≠ none → n < r.maxFileNum

structure Intact (s : Stage) : Prop extends Sound s where
  unmade : s.last = none → s.vs.descriptorLog = none
  kept : ∀ seq next, s.last = some (seq, next) → ∃ number r,
    s.Kept number [] r ∧ s.Counted next r ∧ r.maxSeq = seq

theorem Counted.idle {next : Nat} (h : s.Counted next r) (step : s.Idle s') :
    s'.Counted next r := by
  cases step with
  | newFileNumber => exact { h with }
  | setLastSequence seq hseq =>
    rw [setLastSequence_eq]
    exact { h with maxSeq := le_trans h.maxSeq (le_max_left _ _) }
  | elsewhere dir hcurrent hmanifests =>
    exact { h with manifests := fun n hn => h.manifests n (hmanifests n ▸ hn) }

theorem Intact.idle (h : s.Intact) (step : s.Idle s') : s'.Intact := by
  have hlast : s'.last = s.last := by cases step <;> rfl
  have hdescriptor : s'.vs.descriptorLog = s.vs.descriptorLog := by
    cases step with
    | setLastSequence seq hseq => rw [setLastSequence_eq]
    | _ => rfl
  refine { h.toSound.idle step with unmade := ?_, kept := ?_ }
  · rw [hlast, hdescriptor]
    exact h.unmade
  · rw [hlast]
    intro seq next hsome
    obtain ⟨number, r, hkept, hcounted, hmaxSeq⟩ := h.kept seq next hsome
    exact ⟨number, r, hkept.idle step, hcounted.idle step, hmaxSeq⟩

theorem Counted.files_after {r' : Recovery} (hafter : r.After (s.vs.completeEdit edit) r')
    (hfiles : ∀ f ∈ s.vs.current.allFiles, f.number < r.maxFileNum) (dir : Dir) (faults : Faults) :
    ∀ f ∈ (s.vs.installEdit (s.vs.completeEdit edit) dir faults).allFiles,
      f.number < r'.maxFileNum := by
  intro f hf
  obtain ⟨level, hlevel⟩ := Version.mem_allFiles.mp hf
  rcases mem_installEdit.mp hlevel with ⟨hold, _⟩ | ⟨item, hitem, _, rfl⟩
  · exact lt_of_lt_of_le (hfiles f (Version.mem_allFiles.mpr ⟨level, hold⟩))
      (le_trans (le_max_left _ _) hafter.least)
  · exact hafter.numbers item hitem

theorem Admits.maxSeq_after (h : s.Admits edit) {r' : Recovery}
    (hafter : r.After (s.vs.completeEdit edit) r') (hmaxSeq : r.maxSeq ≤ s.vs.lastSequence) :
    r'.maxSeq = edit.lastSequence.getD s.vs.lastSequence := by
  rw [hafter.maxSeq]
  exact max_eq_right (le_trans hmaxSeq h.lastSequence_le)

theorem Intact.logAndApply (h : s.Intact) (hadmits : s.Admits edit) (hfit : s.vs.RecordsFit edit)
    {machine after : Machine FileName} {vs : VersionSet} {trace : List (Event FileName)}
    (hdir : machine.dir = s.dir)
    (hrun : s.vs.logAndApply edit machine = .done (.ok, vs) after trace) :
    Intact ⟨vs, after.dir, some ((s.vs.completeEdit edit).lastSequence.getD 0,
      vs.nextFileNumber)⟩ := by
  have hlevels : ∀ item ∈ edit.newFiles, item.1 < kNumLevels := fun item hitem =>
    (hadmits.storable.newFiles item hitem).1
  cases hdescriptor : s.vs.descriptorLog with
  | some w =>
    -- a manifest is open, so an edit was logged and the counter is filled in
    obtain ⟨⟨seq, next⟩, hlast⟩ : ∃ last, s.last = some last := by
      cases hlast : s.last with
      | none => cases (h.unmade hlast).symm.trans hdescriptor
      | some last => exact ⟨last, rfl⟩
    obtain ⟨number, r, hkept, hcounted, _⟩ := h.kept seq next hlast
    obtain rfl := hkept.descriptor w hdescriptor
    obtain ⟨left, _, hafter, ⟨_, rfl, faults, rfl⟩ | ⟨herror, _⟩⟩ :=
      (logAndApply_append_outcome hdescriptor rfl hlevels).done_any hrun
    swap
    · exact absurd rfl herror
    rw [hdir] at hafter
    obtain ⟨r', hrecorded, hreplay, hlists, hlogNum⟩ := h.exists_logged hadmits.toAccepts hfit
      (hkept.recorded.extend _) hkept.lists hkept.logNum machine.dir faults
    have hmaxSeq := hadmits.maxSeq_after hreplay hcounted.maxSeq
    have hgrow : r.maxFileNum ≤ r'.maxFileNum := le_trans (le_max_left _ _) hreplay.least
    have hnext : s.vs.nextFileNumber ≤ r'.maxFileNum := by
      refine le_trans ?_ (le_trans (le_max_right _ _) hreplay.least)
      rcases hadmits.nextFileNumber with hfield | hnone
      · simp [completeEdit, hfield]
      · cases hnone.symm.trans hlast
    have hmanifests := manifests_extend hcounted.manifests number (s.vs.editFrame edit)
    have hsound : ∀ last, Sound ⟨s.vs.applied edit machine.dir faults,
        extend s.dir (.manifest number) (s.vs.editFrame edit), last⟩ := fun last =>
      h.toSound.applied hadmits.toAccepts rfl rfl rfl (manifests_extend h.manifests number _)
    rw [hafter]
    refine { hsound _ with unmade := by simp, kept := ?_ }
    rintro _ _ ⟨⟩
    exact ⟨number, r', ⟨hrecorded, hlists, hlogNum, hkept.descriptor⟩,
      ⟨le_of_eq hmaxSeq, hnext, Counted.files_after hreplay hcounted.files _ _,
        fun n hn => lt_of_lt_of_le (hmanifests n hn) hgrow⟩, hmaxSeq⟩
  | none =>
    obtain ⟨herror, _⟩ | ⟨left, _, hswitched, ⟨_, rfl, faults, rfl⟩ | ⟨herror, _⟩⟩ :=
      (logAndApply_create_outcome hdescriptor hlevels).done_any hrun
    · exact absurd rfl herror
    swap
    · exact absurd rfl herror
    rw [hdir] at hswitched
    obtain ⟨r, hcreated, hlists, hleast, hfiles, hmaxSeq, hlogNum⟩ :=
      h.exists_created hfit hdescriptor hswitched
    obtain ⟨r', hrecorded, hreplay, hlists', hlogNum'⟩ := h.exists_logged hadmits.toAccepts hfit
      hcreated hlists hlogNum machine.dir faults
    have hmaxSeq' := hadmits.maxSeq_after hreplay (le_of_eq hmaxSeq)
    have hgrow : r.maxFileNum ≤ r'.maxFileNum := le_trans (le_max_left _ _) hreplay.least
    have hmanifests : ∀ n, after.dir.lookup (.manifest n) ≠ none → n < s.vs.nextFileNumber + 1 :=
      manifests_switched (fun n hn => Nat.lt_succ_of_lt (h.manifests n hn)) (Nat.lt_succ_self _)
        hswitched
    have hsound : ∀ last, Sound ⟨(s.vs.applied edit machine.dir faults).withDescriptor, after.dir,
        last⟩ := fun last => h.toSound.applied hadmits.toAccepts rfl rfl rfl hmanifests
    refine { hsound _ with unmade := by simp, kept := ?_ }
    rintro _ _ ⟨⟩
    refine ⟨s.vs.nextFileNumber, r', ⟨hrecorded, hlists', hlogNum', ?_⟩,
      ⟨le_of_eq hmaxSeq', le_trans hleast hgrow, Counted.files_after hreplay hfiles _ _,
        fun n hn => lt_of_lt_of_le (hmanifests n hn) (le_trans hleast hgrow)⟩, hmaxSeq'⟩
    rintro w ⟨⟩
    rfl

theorem Kept.files_install (h : s.Kept number torn r) (harranged : Arranged s.vs.current)
    (vs : VersionSet) (level : Fin kNumLevels) :
    (vs.install s.dir (fun _ => none) r).current.files level =
      (s.vs.current.files level).map fun f => (bare f).withReader s.dir fun _ => none := by
  change (r.version.sort.files level).map _ = _
  rw [sort_files h.lists harranged, List.map_map]
  rfl

theorem Kept.mem_install (h : s.Kept number torn r) (harranged : Arranged s.vs.current)
    {vs : VersionSet} {f : FileMetaData}
    (hf : f ∈ (vs.install s.dir (fun _ => none) r).current.allFiles) :
    ∃ g ∈ s.vs.current.allFiles, f.number = g.number ∧ f.fileSize = g.fileSize := by
  obtain ⟨level, hlevel⟩ := Version.mem_allFiles.mp hf
  rw [h.files_install harranged] at hlevel
  obtain ⟨g, hg, rfl⟩ := List.mem_map.mp hlevel
  exact ⟨g, Version.mem_allFiles.mpr ⟨level, hg⟩, rfl, rfl⟩

theorem Kept.arranged_install (h : s.Kept number torn r) (harranged : Arranged s.vs.current)
    (vs : VersionSet) : Arranged (vs.install s.dir (fun _ => none) r).current := by
  constructor
  · rw [h.files_install harranged, List.pairwise_map]
    exact harranged.level0
  · intro level hlevel
    rw [h.files_install harranged, List.pairwise_map]
    exact harranged.deeper level hlevel

theorem Kept.recover (h : s.Kept number torn r) (htorn : TornTail torn) :
    VersionSet.new.recover s.dir (fun _ => none) =
      some (.ok, VersionSet.new.install s.dir (fun _ => none) r) :=
  h.recorded.recover htorn _

theorem Counted.install {next : Nat} (h : s.Counted next r) (hkept : s.Kept number [] r)
    (vs : VersionSet) : (vs.install s.dir (fun _ => none) r).nextFileNumber = r.maxFileNum := by
  obtain ⟨_, hbytes, _⟩ := hkept.recorded.manifest
  have hpositive : r.maxFileNum > 0 :=
    Nat.zero_lt_of_lt (h.manifests number (by rw [hbytes]; simp))
  simp [VersionSet.install, hpositive]

theorem Intact.agrees (h : s.Intact) : s.Agrees := by
  intro seq next hlast
  obtain ⟨number, r, hkept, hcounted, hmaxSeq⟩ := h.kept seq next hlast
  refine ⟨_, hkept.recover (tornTail_short (by simp)), ?_, hkept.logNum, hmaxSeq, ?_, ?_⟩
  · intro level
    rw [hkept.files_install h.arranged, List.map_map]
    rfl
  · rw [hcounted.install hkept]
    exact hcounted.next
  · intro f hf
    obtain ⟨g, hg, hnumber, _⟩ := hkept.mem_install h.arranged hf
    rw [hcounted.install hkept, hnumber]
    exact hcounted.files g hg

theorem Intact.recover (h : s.Intact) (hlast : s.last ≠ none) {vs : VersionSet}
    (hrun : VersionSet.new.recover s.dir (fun _ => none) = some (.ok, vs)) :
    Intact { s with vs := vs } := by
  obtain ⟨⟨seq, next⟩, hsome⟩ := Option.ne_none_iff_exists'.mp hlast
  obtain ⟨number, r, hkept, hcounted, hmaxSeq⟩ := h.kept seq next hsome
  have heq := hkept.recover (tornTail_short (by simp))
  obtain rfl : VersionSet.new.install s.dir (fun _ => none) r = vs := by
    rw [heq] at hrun
    exact congrArg Prod.snd (Option.some.inj hrun)
  have hcounter := hcounted.install hkept VersionSet.new
  have hfiles : ∀ f ∈ (VersionSet.new.install s.dir (fun _ => none) r).current.allFiles,
      f.number < r.maxFileNum := by
    intro f hf
    obtain ⟨g, hg, hnumber, _⟩ := hkept.mem_install h.arranged hf
    rw [hnumber]
    exact hcounted.files g hg
  refine
    { arranged := hkept.arranged_install h.arranged _
      files := ?_
      lastSequence := lt_of_le_of_lt hcounted.maxSeq h.lastSequence
      logNumber := ?_
      manifests := ?_
      unmade := fun _ => rfl
      kept := ?_ }
  · intro f hf
    obtain ⟨g, hg, hnumber, hsize⟩ := hkept.mem_install h.arranged hf
    rw [hnumber, hsize]
    exact h.files g hg
  · change r.logNum < 2 ^ 64
    rw [hkept.logNum]
    exact h.logNumber
  · intro n hn
    rw [hcounter]
    exact hcounted.manifests n hn
  · intro seq' next' hlast'
    cases hsome.symm.trans hlast'
    refine ⟨number, r, ⟨hkept.recorded, ?_, rfl, by rintro w ⟨⟩⟩,
      ⟨le_refl _, hcounted.next, hfiles, hcounted.manifests⟩, hmaxSeq⟩
    intro level
    rw [hkept.files_install h.arranged, List.map_map]
    exact hkept.lists level

theorem intact_start (dir : Dir) (hnone : ∀ n, dir.lookup (.manifest n) = none) :
    Intact ⟨.new, dir, none⟩ where
  arranged := ⟨List.Pairwise.nil, fun _ _ => List.Pairwise.nil⟩
  files := by
    intro f hf
    obtain ⟨level, hlevel⟩ := Version.mem_allFiles.mp hf
    cases hlevel
  lastSequence := Nat.two_pow_pos 64
  logNumber := Nat.two_pow_pos 64
  manifests := fun n hn => absurd (hnone n) hn
  unmade := fun _ => rfl
  kept := by simp

end Stage

theorem Logged.intact {s : Stage} (h : Logged VersionSet.RecordsFit s) : s.Intact := by
  induction h with
  | start dir hnone => exact Stage.intact_start dir hnone
  | idle _ step ih => exact ih.idle step
  | logAndApply _ hadmits hfit hdir hrun ih => exact ih.logAndApply hadmits hfit hdir hrun
  | recover _ hlast hrun ih => exact ih.recover hlast hrun

/-- Over any number of calls and generations, a manifest all of whose records the
reader takes back gives the version set it was written by. -/
theorem manifest_replay_agrees {s : Stage} (h : Logged VersionSet.RecordsFit s) : s.Agrees :=
  h.intact.agrees

theorem logAndApply_returns (vs : VersionSet) (edit : VersionEdit) (dir : Dir)
    (hlevels : ∀ item ∈ edit.newFiles, item.1 < kNumLevels)
    (hopened : ∀ w, vs.descriptorLog = some w → w.opened = true) :
    ∃ vs' after trace, vs.logAndApply edit ⟨dir, fun _ => none, []⟩ =
      .done (.ok, vs') after trace := by
  unfold logAndApply
  simp only [levels_in_range vs hlevels, Bool.false_eq_true, ↓reduceIte]
  obtain ⟨current, next, number, seq, log, descriptor⟩ := vs
  cases descriptor with
  | none => exact ⟨_, _, _, rfl⟩
  | some w =>
    obtain ⟨filename, opened⟩ := w
    obtain rfl : opened = true := hopened _ rfl
    exact ⟨_, _, _, rfl⟩

/-- The first edit of a new version set: it sets every number and adds three files. -/
def firstEdit : VersionEdit where
  logNumber := some 1
  nextFileNumber := some 10
  lastSequence := some 500
  newFiles := [(0, ⟨3, 1024, ascii ['a', 'p', 'p', 'l', 'e'], ascii ['b', 'a', 'n', 'a', 'n', 'a'],
      none⟩), (0, ⟨4, 2048, ascii ['c', 'a', 'r', 'r', 'o', 't'], ascii ['d', 'a', 't', 'e'], none⟩),
    (1, ⟨5, 4096, ascii ['e', 'g', 'g'], ascii ['f', 'i', 'g'], none⟩)]

theorem admits_firstEdit (dir : Dir) : Stage.Admits ⟨.new, dir, none⟩ firstEdit where
  storable := by
    refine ⟨?_, ?_, ?_, nofun, by decide⟩
    · rintro n ⟨⟩
      decide
    · rintro n ⟨⟩
      decide
    · rintro n ⟨⟩
      decide
  size := by
    change (VersionSet.new.completeEdit firstEdit).encodeTo.length ≤ kMaxRecordSize
    decide +kernel
  fresh := by
    intro item _ f hf
    obtain ⟨level, hlevel⟩ := Version.mem_allFiles.mp hf
    cases hlevel
  distinct := by decide
  keys := by
    change ∀ level, level ≠ 0 →
      ((VersionSet.new.filesAfter firstEdit level).map FileMetaData.smallestKey).Nodup
    decide
  nextFileNumber := Or.inr rfl
  logNumber := fun _ _ => Nat.zero_le _
  lastSequence := fun _ _ => Nat.zero_le _

theorem manifest_replay_agrees_firstEdit :
    ∃ vs after trace, VersionSet.new.logAndApply firstEdit ⟨∅, fun _ => none, []⟩ =
        .done (.ok, vs) after trace ∧
      Stage.Agrees ⟨vs, after.dir, some (500, vs.nextFileNumber)⟩ := by
  obtain ⟨vs, after, trace, hrun⟩ := logAndApply_returns .new firstEdit ∅ (by decide) nofun
  exact ⟨vs, after, trace, hrun, manifest_replay_agrees (.logAndApply (.start ∅ fun _ => rfl)
    (admits_firstEdit ∅) ⟨by decide, by decide +kernel, fun _ => by decide +kernel⟩ rfl hrun)⟩

theorem Logged.mono {s : Stage} {P Q : VersionSet → VersionEdit → Prop}
    (himp : ∀ vs edit, P vs edit → Q vs edit) (h : Logged P s) : Logged Q s := by
  induction h with
  | start dir hnone => exact .start dir hnone
  | idle _ step ih => exact .idle ih step
  | logAndApply _ hadmits hholds hdir hrun ih =>
    exact .logAndApply ih hadmits (himp _ _ hholds) hdir hrun
  | recover _ hlast hrun ih => exact .recover ih hlast hrun

/-! A snapshot lists every file of the version, so it can be larger than any
edit that was logged. -/

def keyFile (number : Nat) (key : Key) : FileMetaData := ⟨number, 1, key, key, none⟩

def addFileEdit (number : Nat) (key : Key) : VersionEdit := { newFiles := [(0, keyFile number key)] }

theorem perm_addFileEdit (vs : VersionSet) (number : Nat) (key : Key) (dir : Dir) (faults : Faults)
    (level : Fin kNumLevels) :
    (((vs.installEdit (vs.completeEdit (addFileEdit number key)) dir faults).files level).map
      bare).Perm ((vs.current.files level).map bare ++
        if level = 0 then [keyFile number key] else []) := by
  refine (perm_filesAfter vs (addFileEdit number key) dir faults level bare fun _ => rfl).trans ?_
  by_cases hlevel : level = 0
  · subst hlevel
    simp [filesAfter, addFileEdit, keyFile, bare]
  · have hval : ¬ 0 = level.val := fun h => hlevel (Fin.ext h.symm)
    simp [filesAfter, addFileEdit, hlevel, hval]

theorem length_snapshot (vs : VersionSet) {files : Fin kNumLevels → List FileMetaData}
    (h : ∀ level, ((vs.current.files level).map bare).Perm (files level)) :
    vs.snapshotEdit.encodeTo.length = 47 + ((List.finRange kNumLevels).flatMap fun level =>
      (files level).flatMap fun f => encodeNew (level.val, f)).length := by
  have hlevel : ∀ level, (((vs.current.files level).map fun f => (level.val, f)).flatMap
      encodeNew).length = ((files level).flatMap fun f => encodeNew (level.val, f)).length := by
    intro level
    rw [List.flatMap_map, ← ((h level).flatMap_right _).length_eq, List.flatMap_map]
    rfl
  have hfiles : (vs.snapshotEdit.newFiles.flatMap encodeNew).length =
      ((List.finRange kNumLevels).flatMap fun level =>
        (files level).flatMap fun f => encodeNew (level.val, f)).length := by
    rw [snapshotEdit, List.flatMap_assoc, List.length_flatMap, List.length_flatMap]
    simp only [hlevel]
  have hcomparator : (encodeComparator vs.snapshotEdit.comparatorName).length = 20 := rfl
  have hnumber : ∀ tag n, (encodeNumber tag (some n)).length = 9 := by simp [encodeNumber]
  rw [encodeTo, List.length_append, List.length_append, List.length_append, List.length_append,
    List.length_append, hfiles, hcomparator]
  simp only [snapshotEdit, hnumber, List.flatMap_nil, List.length_nil]
  omega

theorem recover_oversize {vs : VersionSet} {dir after : Dir} {more : Bytes}
    (hswitched : vs.Switched dir more after)
    (hfresh : dir.lookup (.manifest vs.nextFileNumber) = none)
    (hlarge : kMaxRecordSize < (walPayload (manifestEntry vs.numbered.snapshotEdit)).length)
    (hlen : (walPayload (manifestEntry vs.numbered.snapshotEdit)).length < 2 ^ 32) :
    VersionSet.new.recover after (fun _ => none) =
      some (.ok, VersionSet.new.install after (fun _ => none) {}) := by
  have hbytes : after.lookup (.manifest vs.nextFileNumber) = some (vs.snapshotFrame ++ more) := by
    rw [hswitched.1 _ (by simp) (by simp), lookup_extend_self lookup_touch_self, hfresh]
    rfl
  have hread : ∃ status next, WalReader.readRecord ⟨true, vs.snapshotFrame ++ more, 0⟩ true =
      .stop status next := by
    rw [snapshotFrame, walFrame, List.append_assoc, readRecord_header _ _ _ _ hlen, if_pos hlarge]
    split
    · exact ⟨_, _, rfl⟩
    · exact ⟨_, _, rfl⟩
  obtain ⟨status, next, hstop⟩ := hread
  exact recover_named hswitched.2 hbytes (readAll_stop hstop) rfl _

theorem accepts_addFileEdit {vs : VersionSet} {number : Nat} (key : Key)
    (hnumber : number + 1 < 2 ^ 64) (hfresh : ∀ f ∈ vs.current.allFiles, f.number ≠ number)
    (hdeeper : ∀ level, level ≠ 0 → vs.current.files level = []) :
    vs.Accepts (addFileEdit number key) where
  storable := by
    refine ⟨by simp [addFileEdit], by simp [addFileEdit], by simp [addFileEdit],
      by simp [addFileEdit], fun item hitem => ?_⟩
    obtain rfl := List.mem_singleton.mp hitem
    exact ⟨Nat.succ_pos 6, hnumber, Nat.one_lt_two_pow (by decide)⟩
  fresh := by
    intro item hitem f hf
    obtain rfl := List.mem_singleton.mp hitem
    exact hfresh f hf
  distinct := List.nodup_singleton _
  keys := by
    intro level hlevel
    have hval : ¬ 0 = level.val := fun h => hlevel (Fin.ext h.symm)
    simp [filesAfter, addFileEdit, hdeeper level hlevel, hval]

theorem admits_addFileEdit {s : Stage} {number : Nat} {key : Key} (hnumber : number + 1 < 2 ^ 64)
    (hkey : key.length = 2 ^ 24) (hfresh : ∀ f ∈ s.vs.current.allFiles, f.number ≠ number)
    (hdeeper : ∀ level, level ≠ 0 → s.vs.current.files level = []) :
    s.Admits (addFileEdit number key) :=
  { accepts_addFileEdit key hnumber hfresh hdeeper with
    size := by
      simp [completeEdit, addFileEdit, encodeTo, encodeNew, encodeString, encodeComparator,
        encodeNumber, keyFile, hkey, kMaxRecordSize]
    nextFileNumber := Or.inl rfl
    logNumber := by simp [addFileEdit]
    lastSequence := by simp [addFileEdit] }

theorem logAndApply_installs {vs vs' : VersionSet} {edit : VersionEdit}
    {machine after : Machine FileName} {trace : List (Event FileName)}
    (hlevels : ∀ item ∈ edit.newFiles, item.1 < kNumLevels)
    (hopened : ∀ w, vs.descriptorLog = some w → w.opened = true)
    (hrun : vs.logAndApply edit machine = .done (.ok, vs') after trace) :
    (∃ faults, vs'.current = vs.installEdit (vs.completeEdit edit) machine.dir faults) ∧
      vs'.nextFileNumber ≤ vs.nextFileNumber + 1 ∧
      ∃ filename, vs'.descriptorLog = some ⟨filename, true⟩ := by
  cases hdescriptor : vs.descriptorLog with
  | some w =>
    obtain ⟨left, _, _, ⟨_, _, faults, rfl⟩ | ⟨herror, _⟩⟩ :=
      (logAndApply_append_outcome hdescriptor (hopened w hdescriptor) hlevels).done_any hrun
    · have hwriter : w = ⟨w.filename, true⟩ := by
        rw [← hopened w hdescriptor]
      exact ⟨⟨faults, rfl⟩, Nat.le_succ _, w.filename, by rw [← hwriter]; exact hdescriptor⟩
    · exact absurd rfl herror
  | none =>
    obtain ⟨herror, _⟩ | ⟨left, _, _, ⟨_, _, faults, rfl⟩ | ⟨herror, _⟩⟩ :=
      (logAndApply_create_outcome hdescriptor hlevels).done_any hrun
    · exact absurd rfl herror
    · exact ⟨⟨faults, rfl⟩, le_refl _, _, rfl⟩
    · exact absurd rfl herror

def Stage.Holds (s : Stage) (files : List FileMetaData) : Prop :=
  ∀ level, ((s.vs.current.files level).map bare).Perm (if level = 0 then files else [])

theorem Stage.Holds.deeper {s : Stage} {files : List FileMetaData} (h : s.Holds files)
    (level : Fin kNumLevels) (hlevel : level ≠ 0) : s.vs.current.files level = [] := by
  have hperm := h level
  rw [if_neg hlevel] at hperm
  exact List.map_eq_nil_iff.mp hperm.eq_nil

theorem Stage.Holds.number {s : Stage} {files : List FileMetaData} (h : s.Holds files)
    {f : FileMetaData} (hf : f ∈ s.vs.current.allFiles) : ∃ g ∈ files, f.number = g.number := by
  obtain ⟨level, hlevel⟩ := Version.mem_allFiles.mp hf
  by_cases hzero : level = 0
  · have hperm := h level
    rw [if_pos hzero] at hperm
    exact ⟨bare f, hperm.mem_iff.mp (List.mem_map_of_mem hlevel), rfl⟩
  · rw [h.deeper level hzero] at hlevel
    cases hlevel

theorem exists_addFile {s : Stage} {files : List FileMetaData} (number : Nat) {key : Key}
    (h : Logged VersionSet.RecordsFit s) (hholds : s.Holds files) (hnumber : number + 1 < 2 ^ 64)
    (hkey : key.length = 2 ^ 24) (hfresh : ∀ f ∈ files, f.number ≠ number)
    (hopened : ∀ w, s.vs.descriptorLog = some w → w.opened = true)
    (hfit : s.vs.RecordsFit (addFileEdit number key)) :
    ∃ s', Logged VersionSet.RecordsFit s' ∧ s'.Holds (files ++ [keyFile number key]) ∧
      s'.last ≠ none ∧ s'.vs.nextFileNumber ≤ s.vs.nextFileNumber + 1 ∧
      ∃ filename, s'.vs.descriptorLog = some ⟨filename, true⟩ := by
  have hadmits : s.Admits (addFileEdit number key) := by
    refine admits_addFileEdit hnumber hkey ?_ hholds.deeper
    intro f hf
    obtain ⟨g, hg, hsame⟩ := hholds.number hf
    rw [hsame]
    exact hfresh g hg
  have hlevels : ∀ item ∈ (addFileEdit number key).newFiles, item.1 < kNumLevels := fun item hitem =>
    (hadmits.storable.newFiles item hitem).1
  obtain ⟨vs', after, trace, hrun⟩ := logAndApply_returns s.vs _ s.dir hlevels hopened
  obtain ⟨⟨faults, hcurrent⟩, hnext, hdescriptor⟩ := logAndApply_installs hlevels hopened hrun
  refine ⟨_, .logAndApply h hadmits hfit rfl hrun, ?_, by simp, hnext, hdescriptor⟩
  intro level
  have hperm := (perm_addFileEdit s.vs number key s.dir faults level).trans
    ((hholds level).append_right _)
  rw [← hcurrent] at hperm
  by_cases hzero : level = 0
  · simpa [hzero] using hperm
  · simpa [hzero] using hperm

theorem length_addFile_payload (vs : VersionSet) (number : Nat) {key : Key}
    (hkey : key.length = 2 ^ 24) :
    (walPayload (manifestEntry (vs.completeEdit (addFileEdit number key)))).length ≤
      kMaxRecordSize := by
  rw [length_walPayload]
  simp [manifestEntry, completeEdit, addFileEdit, encodeTo, encodeNew, encodeString,
    encodeComparator, encodeNumber, keyFile, hkey, kMaxRecordSize, ascii]

theorem length_snapshot_payload {vs : VersionSet} {files : List FileMetaData}
    (h : ∀ level, ((vs.current.files level).map bare).Perm (if level = 0 then files else [])) :
    (walPayload (manifestEntry vs.numbered.snapshotEdit)).length =
      78 + (files.flatMap fun f => encodeNew (0, f)).length := by
  have hlevels : List.finRange kNumLevels = [0, 1, 2, 3, 4, 5, 6] := by decide
  have hvalue : (manifestEntry vs.numbered.snapshotEdit).value =
    vs.numbered.snapshotEdit.encodeTo := rfl
  have hkey : (manifestEntry vs.numbered.snapshotEdit).userKey.length = 14 := rfl
  rw [length_walPayload, hvalue, hkey, length_snapshot vs.numbered h, hlevels]
  simp
  omega

theorem admits_empty {s : Stage} {files : List FileMetaData} (h : s.Holds files) :
    s.Admits {} where
  storable := ⟨nofun, nofun, nofun, nofun, nofun⟩
  size := by simp [completeEdit, encodeTo, encodeComparator, encodeNumber, kMaxRecordSize]
  fresh := nofun
  distinct := List.nodup_nil
  keys := by
    intro level hlevel
    simp [filesAfter, h.deeper level hlevel]
  nextFileNumber := Or.inl rfl
  logNumber := nofun
  lastSequence := nofun

theorem Logged.forgets {s : Stage} {files : List FileMetaData}
    (h : Logged VersionSet.RecordsFit s) (hlast : s.last ≠ none) (hholds : s.Holds files)
    (hlarge : kMaxRecordSize < 78 + (files.flatMap fun f => encodeNew (0, f)).length)
    (hlen : 78 + (files.flatMap fun f => encodeNew (0, f)).length < 2 ^ 32) :
    ∃ s', Logged (fun _ _ => True) s' ∧ ¬ s'.Agrees := by
  obtain ⟨⟨seq, next⟩, hsome⟩ := Option.ne_none_iff_exists'.mp hlast
  obtain ⟨number, r, hkept, _⟩ := h.intact.kept seq next hsome
  have hrecover := hkept.recover (tornTail_short (by simp))
  have hrecovered := Logged.recover h hlast hrecover
  generalize hvs : VersionSet.new.install s.dir (fun _ => none) r = vs at hrecover hrecovered
  have hnone : vs.descriptorLog = none := by
    rw [← hvs]
    rfl
  have hholds' : Stage.Holds { s with vs := vs } files := by
    intro level
    rw [← hvs, hkept.files_install h.intact.arranged, List.map_map]
    exact hholds level
  have hfresh : s.dir.lookup (.manifest vs.nextFileNumber) = none := by
    by_contra hne
    exact absurd (hrecovered.intact.manifests _ hne) (lt_irrefl _)
  obtain ⟨vs', after, trace, hrun⟩ := logAndApply_returns vs {} s.dir (by simp)
    (by rw [hnone]; exact nofun)
  refine ⟨_, .logAndApply (hrecovered.mono fun _ _ _ => trivial) (admits_empty hholds') trivial rfl
    hrun, fun hagrees => ?_⟩
  obtain ⟨fresh, hagain, hreplays⟩ := hagrees _ _ rfl
  obtain ⟨herror, _⟩ | ⟨left, _, hswitched, _⟩ :=
    (logAndApply_create_outcome hnone (by simp)).done_any hrun
  · exact herror rfl
  have hlength := length_snapshot_payload hholds'
  rw [recover_oversize hswitched hfresh (by rw [hlength]; exact hlarge)
    (by rw [hlength]; exact hlen)] at hagain
  cases hagain
  obtain ⟨⟨faults, hcurrent⟩, _⟩ := logAndApply_installs (by simp) (by rw [hnone]; exact nofun) hrun
  have hperm : ((vs'.current.files 0).map bare).Perm files := by
    rw [hcurrent]
    refine (perm_filesAfter vs {} s.dir faults 0 bare fun _ => rfl).trans ?_
    simpa [filesAfter] using hholds' 0
  rw [← hreplays.files 0] at hperm
  rw [show files = [] from hperm.symm.eq_nil] at hlarge
  exact absurd hlarge (by decide)

/-- Two files with keys of 16 MiB are logged and recovered, and the next edit
writes a snapshot of more than 64 MiB: the manifest then gives an empty version. -/
theorem oversize_snapshot_forgets : ¬ ∀ s, Logged (fun _ _ => True) s → s.Agrees := by
  intro hclaim
  have hlarge : ∀ key : Key, key.length = 2 ^ 24 → False := by
    intro key hkey
    have hstart : Logged VersionSet.RecordsFit ⟨.new, ∅, none⟩ := .start ∅ fun _ => rfl
    have hempty : Stage.Holds ⟨.new, ∅, none⟩ [] := by
      intro level
      split
      · exact List.Perm.nil
      · exact List.Perm.nil
    obtain ⟨s₁, h₁, hholds₁, _, hnext₁, filename₁, hdescriptor₁⟩ := exists_addFile 10 hstart
      hempty (by decide) hkey (by simp) (by rintro w ⟨⟩)
      ⟨by decide, length_addFile_payload _ _ hkey, fun _ => by
        rw [length_snapshot_payload hempty]
        decide⟩
    obtain ⟨s₂, h₂, hholds₂, hlast₂, _⟩ := exists_addFile 11 h₁ hholds₁ (by decide) hkey
      (by simp [keyFile])
      (by
        intro w hw
        cases hdescriptor₁.symm.trans hw
        rfl)
      ⟨lt_of_le_of_lt (Nat.succ_le_succ hnext₁) (by decide), length_addFile_payload _ _ hkey,
        fun hnone => by cases hdescriptor₁.symm.trans hnone⟩
    have hlength : (([] ++ [keyFile 10 key] ++ [keyFile 11 key]).flatMap fun f =>
        encodeNew (0, f)).length = 2 ^ 26 + 58 := by
      simp [encodeNew, encodeString, keyFile, hkey]
    obtain ⟨s₃, h₃, hfails⟩ := h₂.forgets hlast₂ hholds₂ (by rw [hlength]; decide)
      (by rw [hlength]; decide)
    exact hfails (hclaim s₃ h₃)
  exact hlarge (List.replicate (2 ^ 24) 0) List.length_replicate

end Strata

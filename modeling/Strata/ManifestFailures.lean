import Strata.ManifestReplay

/-! Calls of `LogAndApply` of which some fail. An error changes nothing in
memory, but the bytes it leaves stay in the manifest, and the descriptor that
wrote them stays open. -/
namespace Strata

open Library System VersionSet VersionEdit

/-- The stages that calls on one version set lead to, whatever they return. What
the last call that returned OK recorded is kept over those that failed. -/
inductive Attempted (holds : Stage → VersionEdit → Status → List (Event FileName) → Prop)
    (start : Stage) : Stage → Prop where
  | start : Attempted holds start start
  | idle {s s' : Stage} (before : Attempted holds start s) (step : s.Idle s') :
    Attempted holds start s'
  | logAndApply {s : Stage} {edit : VersionEdit} {machine after : Machine FileName}
    {status : Status} {vs : VersionSet} {trace : List (Event FileName)}
    (before : Attempted holds start s) (haccepts : s.vs.Accepts edit)
    (hfit : s.vs.RecordsFit edit) (hdir : machine.dir = s.dir)
    (hrun : s.vs.logAndApply edit machine = .done (status, vs) after trace)
    (hholds : holds s edit status trace) :
    Attempted holds start ⟨vs, after.dir, if status = .ok then
      some ((s.vs.completeEdit edit).lastSequence.getD 0, vs.nextFileNumber) else s.last⟩

/-- `Recover` gives back the version that the last call returning OK installed. -/
def Stage.Restores (s : Stage) : Prop :=
  s.last ≠ none → ∃ vs, VersionSet.new.recover s.dir (fun _ => none) = some (.ok, vs) ∧
    (∀ level, (vs.current.files level).map bare = (s.vs.current.files level).map bare) ∧
    vs.logNumber = s.vs.logNumber

/-- The reader gets to the plain end of the file that the open descriptor appends
to: no call has left a part of a record there. -/
def Stage.Clean (s : Stage) : Prop :=
  ∀ w, s.vs.descriptorLog = some w →
    (WalReader.new (s.dir.lookup w.filename) none).readAll.2 = .status (.notFound "EOF")

def VersionSet.Unwritten (vs : VersionSet) (edit : VersionEdit) (e : Event FileName) : Prop :=
  ∀ name offset, e.call = .append name offset (walPayload (manifestEntry (vs.completeEdit edit))) →
    ∃ n < (walPayload (manifestEntry (vs.completeEdit edit))).length, e.outcome = .fail n

/-- Every call starts behind whole records, and one that fails does not complete
its own. -/
def CutShort (s : Stage) (edit : VersionEdit) (status : Status)
    (trace : List (Event FileName)) : Prop :=
  s.Clean ∧ (status ≠ .ok → ∀ e ∈ trace, s.vs.Unwritten edit e)

def PartOfRecord (torn : Bytes) : Prop :=
  ∃ e : Entry, e.Fits ∧ torn <+: walFrame e ∧ torn.length < (walFrame e).length

namespace PartOfRecord

theorem nil : PartOfRecord [] := by
  refine ⟨manifestEntry {}, ⟨by decide, by decide⟩, List.nil_prefix, ?_⟩
  rw [length_walFrame]
  exact Nat.lt_of_lt_of_le (Nat.succ_pos 7) (Nat.le_add_right _ _)

theorem tornTail {torn : Bytes} (h : PartOfRecord torn) : TornTail torn := by
  obtain ⟨e, hfits, hpart, hshort⟩ := h
  exact tornTail_part hpart hshort (lt_of_le_of_lt hfits.2 (by decide))

end PartOfRecord

def unwritten (vs : VersionSet) (edit : VersionEdit) : Assume FileName :=
  ⟨fun _ => True, vs.Unwritten edit, False⟩

theorem Leaves.part {vs : VersionSet} {edit : VersionEdit} {name : FileName} {left : Bytes}
    (h : Leaves (unwritten vs edit) name (manifestEntry (vs.completeEdit edit)) left)
    (hfit : vs.RecordsFit edit) : PartOfRecord left := by
  refine ⟨_, ⟨Nat.two_pow_pos 64, hfit.edit⟩, h.1, lt_of_le_of_ne h.1.length_le fun hlength => ?_⟩
  obtain ⟨offset, outcome, hevent, houtcome⟩ := h.2 (h.1.eq_of_length hlength)
  obtain ⟨n, hn, hfail⟩ := hevent name offset rfl
  simp only at hfail
  subst hfail
  rcases houtcome with hok | ⟨k, hk, hsame⟩
  · cases hok
  · cases hsame
    omega

/-- What holds of a version set and its directory between calls that may fail. -/
structure Stage.Guarded (s : Stage) : Prop extends Sound s where
  kept : s.last ≠ none ∨ s.vs.descriptorLog ≠ none → ∃ number torn r,
    s.Kept number torn r ∧ PartOfRecord torn ∧ (s.vs.descriptorLog = none → torn = [])

namespace Stage

variable {s s' : Stage} {edit : VersionEdit} {number : Nat} {torn : Bytes} {r : Recovery}

theorem Intact.guarded (h : s.Intact) : s.Guarded := by
  refine { h.toSound with kept := fun hmade => ?_ }
  have hlast : s.last ≠ none := by
    rcases hmade with hlast | hdescriptor
    · exact hlast
    · exact fun hnone => hdescriptor (h.unmade hnone)
  obtain ⟨⟨seq, next⟩, hsome⟩ := Option.ne_none_iff_exists'.mp hlast
  obtain ⟨number, r, hkept, _⟩ := h.kept seq next hsome
  exact ⟨number, [], r, hkept, PartOfRecord.nil, fun _ => rfl⟩

theorem Guarded.idle (h : s.Guarded) (step : s.Idle s') : s'.Guarded := by
  have hlast : s'.last = s.last := by cases step <;> rfl
  have hdescriptor : s'.vs.descriptorLog = s.vs.descriptorLog := by
    cases step with
    | setLastSequence seq hseq => rw [setLastSequence_eq]
    | _ => rfl
  refine { h.toSound.idle step with kept := ?_ }
  rw [hlast, hdescriptor]
  intro hmade
  obtain ⟨number, torn, r, hkept, hrest⟩ := h.kept hmade
  exact ⟨number, torn, r, hkept.idle step, hrest⟩

theorem Guarded.restores (h : s.Guarded) : s.Restores := by
  intro hlast
  obtain ⟨number, torn, r, hkept, hpart, _⟩ := h.kept (Or.inl hlast)
  refine ⟨_, hkept.recover hpart.tornTail, fun level => ?_, hkept.logNum⟩
  rw [hkept.files_install h.arranged, List.map_map]
  rfl

theorem Guarded.clean (h : s.Guarded) (hclean : s.Clean) {w : WalWriter}
    (hsome : s.vs.descriptorLog = some w) : ∃ number r, w = ⟨.manifest number, true⟩ ∧
      s.Kept number [] r := by
  obtain ⟨number, torn, r, hkept, ⟨e, hfits, hpart, hshort⟩, _⟩ :=
    h.kept (Or.inr (by rw [hsome]; simp))
  obtain rfl := hkept.descriptor w hsome
  obtain ⟨records, hbytes, hrecords, _⟩ := hkept.recorded.manifest
  have hend := hclean _ hsome
  rw [hbytes, WalReader.new, readAll_frames _ _ _ hrecords] at hend
  obtain rfl := eq_nil_of_ending hpart hshort (lt_of_le_of_lt hfits.2 (by decide)) hend
  exact ⟨number, r, rfl, hkept⟩

theorem Sound.unchanged (h : s.Sound) {vs : VersionSet} {after : Dir} {last : Option (Nat × Nat)}
    (hsame : s.vs.SameState vs)
    (hmanifests : ∀ n, after.lookup (.manifest n) ≠ none → n < vs.nextFileNumber) :
    Sound ⟨vs, after, last⟩ := by
  constructor
  · rw [hsame.current]
    exact h.arranged
  · rw [hsame.current]
    exact h.files
  · rw [hsame.lastSequence]
    exact h.lastSequence
  · rw [hsame.logNumber]
    exact h.logNumber
  · exact hmanifests

theorem manifests_snapshotting {after : Dir} (h : s.Sound)
    (hsnapshot : s.vs.Snapshotting s.dir after) :
    ∀ n, after.lookup (.manifest n) ≠ none → n < s.vs.nextFileNumber + 1 := by
  intro n hn
  rcases hsnapshot with rfl | ⟨part, _, hsame, _⟩
  · exact Nat.lt_succ_of_lt (h.manifests n hn)
  · by_cases hnext : n = s.vs.nextFileNumber
    · omega
    · have hne : FileName.manifest n ≠ .manifest s.vs.nextFileNumber := by simpa using hnext
      rw [hsame _ (by simp) (by simp), lookup_extend_other hne, lookup_touch_other hne] at hn
      exact Nat.lt_succ_of_lt (h.manifests n hn)

theorem Guarded.created (h : s.Guarded) (hfit : s.vs.RecordsFit edit)
    (hnone : s.vs.descriptorLog = none) {left : Bytes} {after : Dir} {vs : VersionSet}
    (hswitched : s.vs.Switched s.dir left after) (hsame : s.vs.SameState vs)
    (hnext : vs.nextFileNumber = s.vs.nextFileNumber + 1)
    (hdescriptor : ∀ w, vs.descriptorLog = some w → w = ⟨.manifest s.vs.nextFileNumber, true⟩)
    (hpart : PartOfRecord left) (hwhole : vs.descriptorLog = none → left = []) :
    Guarded ⟨vs, after, s.last⟩ := by
  obtain ⟨r, hrecorded, hlists, _, _, _, hlogNum⟩ := h.exists_created hfit hnone hswitched
  have hmanifests : ∀ n, after.lookup (.manifest n) ≠ none → n < vs.nextFileNumber := by
    rw [hnext]
    exact manifests_switched (fun n hn => Nat.lt_succ_of_lt (h.manifests n hn))
      (Nat.lt_succ_self _) hswitched
  refine { h.toSound.unchanged hsame hmanifests with kept := fun _ => ⟨s.vs.nextFileNumber, left, r,
    ⟨hrecorded, ?_, hlogNum.trans hsame.logNumber.symm, hdescriptor⟩, hpart, hwhole⟩ }
  rw [hsame.current]
  exact hlists

theorem Guarded.abandoned (h : s.Guarded) (hnone : s.vs.descriptorLog = none) {after : Dir}
    (hsnapshot : s.vs.Snapshotting s.dir after) : Guarded ⟨s.vs.numbered, after, s.last⟩ := by
  have hsound : Sound ⟨s.vs.numbered, after, s.last⟩ :=
    h.toSound.unchanged ⟨rfl, rfl, rfl⟩ (manifests_snapshotting h.toSound hsnapshot)
  refine { hsound with kept := fun hmade => ?_ }
  obtain ⟨number, torn, r, hkept, hpart, hwhole⟩ := h.kept hmade
  obtain rfl := hwhole hnone
  obtain ⟨_, hbytes, _⟩ := hkept.recorded.manifest
  have hlt : number < s.vs.nextFileNumber := h.manifests number (by rw [hbytes]; simp)
  exact ⟨number, [], r, ⟨hsnapshot.recorded hkept.recorded (Nat.ne_of_lt hlt), hkept.lists,
    hkept.logNum, hkept.descriptor⟩, hpart, fun _ => rfl⟩

section Call

variable {machine after : Machine FileName} {status : Status} {vs : VersionSet}
  {trace : List (Event FileName)} (h : s.Guarded) (haccepts : s.vs.Accepts edit)
  (hfit : s.vs.RecordsFit edit) (hdir : machine.dir = s.dir)
  (hrun : s.vs.logAndApply edit machine = .done (status, vs) after trace)

include h haccepts hfit hdir hrun

theorem Guarded.logAndApply_ok (hclean : s.Clean) (hok : status = .ok)
    (last : Option (Nat × Nat)) : Guarded ⟨vs, after.dir, last⟩ := by
  subst hok
  have hlevels : ∀ item ∈ edit.newFiles, item.1 < kNumLevels := fun item hitem =>
    (haccepts.storable.newFiles item hitem).1
  cases hdescriptor : s.vs.descriptorLog with
  | some w =>
    obtain ⟨number, r, rfl, hkept⟩ := h.clean hclean hdescriptor
    obtain ⟨left, _, hafter, ⟨_, rfl, faults, rfl⟩ | ⟨herror, _⟩⟩ :=
      (logAndApply_append_outcome hdescriptor rfl hlevels).done_any hrun
    swap
    · exact absurd rfl herror
    rw [hdir] at hafter
    obtain ⟨r', hrecorded, _, hlists, hlogNum⟩ := h.exists_logged haccepts hfit
      (hkept.recorded.extend _) hkept.lists hkept.logNum machine.dir faults
    have hsound : Sound ⟨s.vs.applied edit machine.dir faults,
        extend s.dir (.manifest number) (s.vs.editFrame edit), last⟩ :=
      h.toSound.applied haccepts rfl rfl rfl (manifests_extend h.manifests number _)
    rw [hafter]
    exact { hsound with kept := fun _ => ⟨number, [], r',
      ⟨hrecorded, hlists, hlogNum, hkept.descriptor⟩, PartOfRecord.nil, fun _ => rfl⟩ }
  | none =>
    obtain ⟨herror, _⟩ | ⟨left, _, hswitched, ⟨_, rfl, faults, rfl⟩ | ⟨herror, _⟩⟩ :=
      (logAndApply_create_outcome hdescriptor hlevels).done_any hrun
    · exact absurd rfl herror
    swap
    · exact absurd rfl herror
    rw [hdir] at hswitched
    obtain ⟨r, hcreated, hlists, _, _, _, hlogNum⟩ := h.exists_created hfit hdescriptor hswitched
    obtain ⟨r', hrecorded, _, hlists', hlogNum'⟩ := h.exists_logged haccepts hfit hcreated hlists
      hlogNum machine.dir faults
    have hmanifests : ∀ n, after.dir.lookup (.manifest n) ≠ none → n < s.vs.nextFileNumber + 1 :=
      manifests_switched (fun n hn => Nat.lt_succ_of_lt (h.manifests n hn)) (Nat.lt_succ_self _)
        hswitched
    have hsound : Sound ⟨(s.vs.applied edit machine.dir faults).withDescriptor, after.dir, last⟩ :=
      h.toSound.applied haccepts rfl rfl rfl hmanifests
    refine { hsound with kept := fun _ => ⟨s.vs.nextFileNumber, [], r',
      ⟨hrecorded, hlists', hlogNum', ?_⟩, PartOfRecord.nil, fun _ => rfl⟩ }
    rintro w ⟨⟩
    rfl

/-- A call that fails leaves the manifest that was in use, with at most a part of
a record behind it, or a new one with the same version. -/
theorem Guarded.logAndApply_failed (hclean : s.Clean) (herror : status ≠ .ok)
    (hcut : ∀ e ∈ trace, s.vs.Unwritten edit e) : Guarded ⟨vs, after.dir, s.last⟩ := by
  have hlevels : ∀ item ∈ edit.newFiles, item.1 < kNumLevels := fun item hitem =>
    (haccepts.storable.newFiles item hitem).1
  cases hdescriptor : s.vs.descriptorLog with
  | some w =>
    obtain ⟨number, r, rfl, hkept⟩ := h.clean hclean hdescriptor
    have hruns : Runs (unwritten s.vs edit) machine.dir _ _ _ :=
      logAndApply_append_outcome hdescriptor rfl hlevels
    obtain ⟨_, left, hleaves, hafter, ⟨hok, _⟩ | ⟨_, rfl⟩⟩ := hruns.done trivial hrun hcut
    · exact absurd hok herror
    rw [hdir] at hafter
    have hsound : Sound ⟨s.vs, extend s.dir (.manifest number) left, s.last⟩ :=
      h.toSound.unchanged ⟨rfl, rfl, rfl⟩ (manifests_extend h.manifests number _)
    rw [hafter]
    refine { hsound with kept := fun _ => ⟨number, left, r, ⟨hkept.recorded.extend _, hkept.lists,
      hkept.logNum, hkept.descriptor⟩, hleaves.part hfit, fun hnone => ?_⟩ }
    cases hdescriptor.symm.trans hnone
  | none =>
    have hruns : Runs (unwritten s.vs edit) machine.dir _ _ _ :=
      logAndApply_create_outcome hdescriptor hlevels
    obtain ⟨_, ⟨_, rfl, hafter⟩ | ⟨left, hleaves, hswitched, ⟨hok, _⟩ | ⟨_, rfl⟩⟩⟩ :=
      hruns.done trivial hrun hcut
    · rw [hdir] at hafter
      rcases hafter with hsnapshot | hswitched
      · exact h.abandoned hdescriptor hsnapshot
      · refine h.created hfit hdescriptor hswitched ⟨rfl, rfl, rfl⟩ rfl ?_ PartOfRecord.nil
          fun _ => rfl
        intro w hw
        cases hdescriptor.symm.trans hw
    · exact absurd hok herror
    · rw [hdir] at hswitched
      refine h.created hfit hdescriptor hswitched ⟨rfl, rfl, rfl⟩ rfl ?_ (hleaves.part hfit) nofun
      rintro w ⟨⟩
      rfl

end Call

end Stage

theorem Attempted.guarded {start s : Stage} (hstart : Logged VersionSet.RecordsFit start)
    (h : Attempted CutShort start s) : s.Guarded := by
  induction h with
  | start => exact hstart.intact.guarded
  | idle _ step ih => exact ih.idle step
  | logAndApply _ haccepts hfit hdir hrun hholds ih =>
    split
    · rename_i hok
      exact ih.logAndApply_ok haccepts hfit hdir hrun hholds.1 hok _
    · rename_i herror
      exact ih.logAndApply_failed haccepts hfit hdir hrun hholds.1 herror (hholds.2 herror)

theorem logAndApply_error {vs vs' : VersionSet} {edit : VersionEdit}
    {machine after : Machine FileName} {status : Status} {trace : List (Event FileName)}
    (hrun : vs.logAndApply edit machine = .done (status, vs') after trace) (herror : status ≠ .ok) :
    vs.SameState vs' := by
  by_cases hlevels : ∀ item ∈ edit.newFiles, item.1 < kNumLevels
  · exact ((logAndApply_any vs hlevels).done_any hrun).2 herror
  · have hany : (vs.completeEdit edit).newFiles.any (fun item => item.1 ≥ kNumLevels) = true := by
      simpa [completeEdit] using hlevels
    unfold VersionSet.logAndApply at hrun
    simp only [hany, ↓reduceIte] at hrun
    cases hrun

/-- An error leaves the version set as it was. The manifest gives back the version
of the last call that returned OK, provided that every call found whole records
only and that no failing call completed its own. -/
theorem failed_edit_leaves_version (start s : Stage) :
    (∀ (vs vs' : VersionSet) (edit : VersionEdit) (machine after : Machine FileName)
        (status : Status) (trace : List (Event FileName)),
      vs.logAndApply edit machine = .done (status, vs') after trace → status ≠ .ok →
        vs.SameState vs') ∧
    (Logged VersionSet.RecordsFit start → Attempted CutShort start s → s.Restores) :=
  ⟨fun _ _ _ _ _ _ _ hrun herror => logAndApply_error hrun herror,
    fun hstart h => (h.guarded hstart).restores⟩

/-! Calls of a few small edits. -/

def Stage.call (s : Stage) (edit : VersionEdit) (fate : List Outcome) : Stage :=
  match s.vs.logAndApply edit ⟨s.dir, fun _ => none, fate⟩ with
  | .done (status, vs) after _ => ⟨vs, after.dir, if status = .ok then
      some ((s.vs.completeEdit edit).lastSequence.getD 0, vs.nextFileNumber) else s.last⟩
  | _ => s

/-- The call is an append that stops before the last byte of the record, or one
of other data. -/
def cutsShort (payload : Bytes) (e : Event FileName) : Bool :=
  match e.call with
  | .append _ _ data => data.length ≠ payload.length ||
      match e.outcome with
      | .fail n => n < payload.length
      | _ => false
  | _ => true

theorem unwritten_of_cutsShort {vs : VersionSet} {edit : VersionEdit} {e : Event FileName}
    (h : cutsShort (walPayload (manifestEntry (vs.completeEdit edit))) e = true) :
    vs.Unwritten edit e := by
  intro name offset hcall
  unfold cutsShort at h
  rw [hcall] at h
  cases houtcome : e.outcome with
  | fail n =>
    simp only [houtcome, ne_eq, not_true_eq_false, decide_false, Bool.false_or,
      decide_eq_true_eq] at h
    exact ⟨n, h, rfl⟩
  | _ => simp [houtcome] at h

theorem Attempted.call {holds : Stage → VersionEdit → Status → List (Event FileName) → Prop}
    {start s : Stage} {edit : VersionEdit} {fate : List Outcome}
    (test : Status × VersionSet → Dir → List (Event FileName) → Bool)
    (before : Attempted holds start s) (haccepts : s.vs.Accepts edit)
    (hfit : s.vs.RecordsFit edit)
    (hreturns : (s.vs.logAndApply edit ⟨s.dir, fun _ => none, fate⟩).returns test = true)
    (hholds : ∀ result dir trace, test result dir trace = true → holds s edit result.1 trace) :
    Attempted holds start (s.call edit fate) := by
  obtain ⟨⟨status, vs⟩, after, trace, hrun, htest⟩ := Exit.of_returns hreturns
  have hstage : s.call edit fate = ⟨vs, after.dir, if status = .ok then
      some ((s.vs.completeEdit edit).lastSequence.getD 0, vs.nextFileNumber) else s.last⟩ := by
    unfold Stage.call
    rw [hrun]
  rw [hstage]
  exact .logAndApply before haccepts hfit rfl hrun (hholds _ _ _ htest)

def smallEdit (number : Nat) : VersionEdit := addFileEdit number [97]

def emptyStage : Stage := ⟨.new, ∅, none⟩

def firstStage : Stage := emptyStage.call (smallEdit 10) []

/-- The append of a second file stops behind the first byte of the payload. -/
def tornStage : Stage := firstStage.call (smallEdit 11) [.ok, .fail 1]

def lastStage : Stage := tornStage.call (smallEdit 12) []

theorem logged_emptyStage : Logged VersionSet.RecordsFit emptyStage := .start ∅ fun _ => rfl

theorem attempted_firstStage
    {holds : Stage → VersionEdit → Status → List (Event FileName) → Prop}
    (hholds : ∀ trace, holds emptyStage (smallEdit 10) .ok trace) :
    Attempted holds emptyStage firstStage := by
  refine Attempted.call (fun result _ _ => result.1 = .ok) .start
    (accepts_addFileEdit _ (by decide) (by decide) (by decide))
    ⟨by decide, by decide +kernel, fun _ => by decide +kernel⟩ (by decide +kernel) ?_
  intro result dir trace htest
  rw [of_decide_eq_true htest]
  exact hholds trace

theorem attempted_tornStage
    {holds : Stage → VersionEdit → Status → List (Event FileName) → Prop}
    (before : Attempted holds emptyStage firstStage)
    (hholds : ∀ status trace, (∀ e ∈ trace, firstStage.vs.Unwritten (smallEdit 11) e) →
      holds firstStage (smallEdit 11) status trace) :
    Attempted holds emptyStage tornStage := by
  refine Attempted.call (fun _ _ trace => trace.all (cutsShort (walPayload (manifestEntry
      (firstStage.vs.completeEdit (smallEdit 11)))))) before
    (accepts_addFileEdit _ (by decide) (by decide +kernel) (by decide +kernel))
    ⟨by decide +kernel, by decide +kernel, fun hnone => absurd hnone (by decide +kernel)⟩
    (by decide +kernel) ?_
  intro result dir trace htest
  apply hholds
  intro e he
  exact unwritten_of_cutsShort (List.all_eq_true.mp htest e he)

set_option maxRecDepth 10000 in
/-- A file is added, and the append of another one fails in the middle. -/
theorem failed_edit_leaves_version_tornStage : tornStage.last ≠ none ∧ tornStage.Restores := by
  refine ⟨by decide +kernel,
    (failed_edit_leaves_version emptyStage tornStage).2 logged_emptyStage ?_⟩
  refine attempted_tornStage (attempted_firstStage fun _ => ⟨?_, fun herror => absurd rfl herror⟩)
    fun _ _ hcut => ⟨?_, fun _ => hcut⟩
  · rintro w ⟨⟩
  · intro w hw
    have hwriter : firstStage.vs.descriptorLog = some ⟨.manifest 2, true⟩ := by decide +kernel
    cases hwriter.symm.trans hw
    decide +kernel

set_option maxRecDepth 10000 in
/-- The failed call leaves nine bytes in the manifest, and the record of the next
one, which returns OK, stands behind them where no reader finds it. -/
theorem torn_edit_hides_next :
    ¬ ∀ start s, Logged VersionSet.RecordsFit start →
      Attempted (fun _ _ _ _ => True) start s → s.Restores := by
  intro h
  have hlast : Attempted (fun _ _ _ _ => True) emptyStage lastStage :=
    Attempted.call (fun _ _ _ => true)
      (attempted_tornStage (attempted_firstStage fun _ => trivial) fun _ _ _ => trivial)
      (accepts_addFileEdit _ (by decide) (by decide +kernel) (by decide +kernel))
      ⟨by decide +kernel, by decide +kernel, fun hnone => absurd hnone (by decide +kernel)⟩
      (by decide +kernel) fun _ _ _ _ => trivial
  obtain ⟨vs, hrecover, hfiles, _⟩ := h emptyStage lastStage logged_emptyStage hlast
    (by decide +kernel)
  have hread : (VersionSet.new.recover lastStage.dir fun _ => none).map
      (fun result => (result.2.current.files 0).map FileMetaData.number) = some [10] := by
    decide +kernel
  have hcurrent : (lastStage.vs.current.files 0).map FileMetaData.number = [12, 10] := by
    decide +kernel
  rw [hrecover, Option.map_some] at hread
  have hnumbers := congrArg (List.map FileMetaData.number) (hfiles 0)
  rw [List.map_map, List.map_map] at hnumbers
  have hsame : (vs.current.files 0).map FileMetaData.number =
    (lastStage.vs.current.files 0).map FileMetaData.number := hnumbers
  rw [Option.some.inj hread, hcurrent] at hsame
  cases hsame

end Strata

import Strata.Recovery
import Strata.Stack

/-! The directory of a store and the version set of the process that works on
it: what they have in common, and how logging an edit changes both. -/
namespace Strata

open Library System Layers

/-- No call fails, every write keeps to the limits and every read succeeds. A
kill may come at any call. -/
def steady : Assume FileName :=
  ⟨fun faults => faults = fun _ => none,
    fun e => (∀ n, e.outcome ≠ .fail n) ∧ WithinLimits e.call, False⟩

/-- No call fails, and a write may have any size. -/
def unlimited (e : Event FileName) : Prop := ∀ n, e.outcome ≠ .fail n

theorem unlimited_of_ok {trace : List (Event FileName)} (h : ∀ e ∈ trace, e.outcome = .ok) :
    ∀ e ∈ trace, unlimited e := by
  intro e he n hfail
  rw [h e he] at hfail
  cases hfail

theorem steady_noFail : steady.NoFail := fun _ n h => h.1 n rfl

theorem steady_limited : Limited steady := fun _ h => h.2

theorem steady_tables (options : Options) :
    Tables steady options (fun e => e.seq < 2 ^ 64) False :=
  Tables.of_limited steady_noFail steady_limited fun _ hfaults _ => by rw [hfaults]

/-- Two directories that differ at most in the manifests and in `CURRENT`. -/
def OnlyManifests (before after : Dir) : Prop :=
  ∀ name, name ≠ .current → name ≠ .currentTmp → (∀ n, name ≠ .manifest n) →
    after.lookup name = before.lookup name

namespace OnlyManifests

variable {before after : Dir}

theorem refl (dir : Dir) : OnlyManifests dir dir := fun _ _ _ _ => rfl

theorem extend (h : OnlyManifests before after) (number : Nat) (bytes : Bytes) :
    OnlyManifests before (extend after (.manifest number) bytes) := by
  intro name hcurrent htmp hmanifest
  rw [lookup_extend_other (hmanifest number), h name hcurrent htmp hmanifest]

theorem touch (h : OnlyManifests before after) (number : Nat) :
    OnlyManifests before (touch after (.manifest number)) := by
  intro name hcurrent htmp hmanifest
  rw [lookup_touch_other (hmanifest number), h name hcurrent htmp hmanifest]

theorem sameButCurrent (h : OnlyManifests before after) {last : Dir}
    (hsame : SameButCurrent after last) : OnlyManifests before last := by
  intro name hcurrent htmp hmanifest
  rw [hsame name hcurrent htmp, h name hcurrent htmp hmanifest]

theorem log (h : OnlyManifests before after) (n : Nat) :
    after.lookup (.log n) = before.lookup (.log n) :=
  h _ (by simp) (by simp) (by simp)

theorem table (h : OnlyManifests before after) (n : Nat) :
    after.lookup (.table n) = before.lookup (.table n) :=
  h _ (by simp) (by simp) (by simp)

theorem other (h : OnlyManifests before after) (text : Bytes) :
    after.lookup (.other text) = before.lookup (.other text) :=
  h _ (by simp) (by simp) (by simp)

end OnlyManifests

namespace VersionSet

variable {vs : VersionSet} {dir left : Dir} {m : Nat} {torn : Bytes} {r : Recovery}
  {edit : VersionEdit} {C : Dir → Prop}

theorem Switched.onlyManifests {more : Bytes} (h : vs.Switched dir more left) :
    OnlyManifests dir left :=
  (((OnlyManifests.refl dir).touch _).extend _ _).sameButCurrent h.1

theorem Snapshotting.onlyManifests (h : vs.Snapshotting dir left) : OnlyManifests dir left := by
  rcases h with rfl | ⟨part, _, hsame, _⟩
  · exact OnlyManifests.refl _
  · exact (((OnlyManifests.refl dir).touch _).extend _ part).sameButCurrent hsame

theorem Snapshotting.recorded (h : vs.Snapshotting dir left) (hrecorded : Recorded dir m torn r)
    (hm : m ≠ vs.nextFileNumber) : Recorded left m torn r := by
  rcases h with rfl | ⟨part, _, hsame, hcurrent⟩
  · exact hrecorded
  · apply hrecorded.of_lookup hcurrent
    have hne : FileName.manifest m ≠ .manifest vs.nextFileNumber := by simpa using hm
    rw [hsame _ (by simp) (by simp), lookup_extend_other hne, lookup_touch_other hne]

/-- No manifest has content at a number that a recovery would give out again. -/
def Recovery.Fresh (r : Recovery) (dir : Dir) : Prop :=
  ∀ n, r.maxFileNum ≤ n → (dir.lookup (.manifest n)).getD [] = []

/-- A version set and the directory it works on: the manifest gives back the
version. -/
structure Attached (vs : VersionSet) (dir : Dir) (m : Nat) (torn : Bytes) (r : Recovery) :
    Prop where
  recorded : Recorded dir m torn r
  tail : TornTail torn
  lists : r.Lists vs.current
  logNum : r.logNum = vs.logNumber
  descriptor : vs.descriptorLog = none ∨ vs.descriptorLog = some ⟨.manifest m, true⟩ ∧ torn = []
  manifest : m < r.maxFileNum
  next : r.maxFileNum ≤ vs.nextFileNumber
  maxSeq : r.maxSeq ≤ vs.lastSequence
  bounded : vs.Bounded
  fresh : r.Fresh dir

/-- A directory that a kill leaves while an edit is logged: it gives back the
version there was or the one with the edit. -/
structure Amending (vs : VersionSet) (edit : VersionEdit) (dir : Dir) (m : Nat) (r : Recovery)
    (left : Dir) (m' : Nat) (torn' : Bytes) (r' : Recovery) : Prop where
  recorded : Recorded left m' torn' r'
  tail : TornTail torn'
  manifest : m' < r'.maxFileNum
  maxFileNum : r.maxFileNum ≤ r'.maxFileNum ∧ r'.maxFileNum ≤ 2 ^ 63
  maxSeq : r.maxSeq ≤ r'.maxSeq ∧ r'.maxSeq ≤ vs.lastSequence
  which : r'.Lists vs.current ∧ r'.logNum = vs.logNumber ∨
    r'.Lists (vs.installEdit (vs.completeEdit edit) dir fun _ => none) ∧
      r'.logNum = edit.logNumber.getD vs.logNumber ∧ vs.nextFileNumber ≤ r'.maxFileNum ∧
      r'.maxSeq = vs.lastSequence
  frame : OnlyManifests dir left
  others : vs.descriptorLog ≠ none → ∀ n, n ≠ m →
    left.lookup (.manifest n) = dir.lookup (.manifest n)

structure Amended (vs : VersionSet) (edit : VersionEdit) (dir : Dir)
    (result : Status × VersionSet) (after : Dir) (m' : Nat) (r' : Recovery) : Prop where
  status : result.1 = .ok
  attached : result.2.Attached after m' [] r'
  current : result.2.current = vs.installEdit (vs.completeEdit edit) dir fun _ => none
  descriptor : result.2.descriptorLog = some ⟨.manifest m', true⟩
  logNumber : result.2.logNumber = edit.logNumber.getD vs.logNumber
  lastSequence : result.2.lastSequence = vs.lastSequence
  next : vs.nextFileNumber ≤ result.2.nextFileNumber
  saved : r'.maxFileNum = result.2.nextFileNumber ∧ r'.maxSeq = vs.lastSequence
  frame : OnlyManifests dir after

theorem Bounded.install (h : vs.Bounded) (hedit : vs.Loggable edit) {next : Nat}
    (hnext : vs.nextFileNumber ≤ next) (hlimit : next ≤ 2 ^ 63) (dir : Dir)
    (descriptor : Option WalWriter) (number : Nat) :
    ({ vs with
        current := vs.installEdit (vs.completeEdit edit) dir fun _ => none
        nextFileNumber := next
        manifestFileNumber := number
        logNumber := edit.logNumber.getD vs.logNumber
        descriptorLog := descriptor } : VersionSet).Bounded := by
  have hfiles : ∀ f ∈ (vs.installEdit (vs.completeEdit edit) dir fun _ => none).allFiles,
      f.number < vs.nextFileNumber ∧ f.fileSize < 2 ^ 64 := by
    intro f hf
    obtain ⟨level, hf⟩ := Version.mem_allFiles.mp hf
    rcases mem_installEdit.mp hf with ⟨hf, _⟩ | ⟨item, hitem, _, rfl⟩
    · have hmem := Version.mem_allFiles.mpr ⟨level, hf⟩
      exact ⟨h.numbers f hmem, h.sizes f hmem⟩
    · exact (hedit.newFiles item hitem).2
  constructor
  · exact hlimit
  · exact h.lastSequence
  · change edit.logNumber.getD vs.logNumber < 2 ^ 63
    cases hlog : edit.logNumber with
    | none => exact h.logNumber
    | some n => exact hedit.logNumber n hlog
  · exact fun f hf => lt_of_lt_of_le (hfiles f hf).1 hnext
  · exact fun f hf => (hfiles f hf).2

section Logging

variable (h : vs.Attached dir m torn r) (hedit : vs.Loggable edit)
  (hcrash : ∀ left m' torn' r', Amending vs edit dir m r left m' torn' r' → C left)

include h hedit in
theorem Attached.amending (hwhole : torn = []) {part : Bytes}
    (hpart : WholeOrTorn (manifestEntry (vs.completeEdit edit)) part) :
    ∃ torn' r', Amending vs edit dir m r (extend dir (.manifest m) part) m torn' r' := by
  subst hwhole
  have hnext := h.bounded.next
  have hcounters := h.next
  have hseq := h.maxSeq
  have hothers : ∀ bytes n, n ≠ m →
      (extend dir (.manifest m) bytes).lookup (.manifest n) = dir.lookup (.manifest n) :=
    fun bytes n hn => lookup_extend_other (by simpa using hn)
  rcases hpart with htail | ⟨rfl, hsmall⟩
  · exact ⟨part, r, h.recorded.extend part, htail, h.manifest, ⟨le_refl _, by omega⟩,
      ⟨le_refl _, h.maxSeq⟩, Or.inl ⟨h.lists, h.logNum⟩, (OnlyManifests.refl dir).extend _ _,
      fun _ => hothers part⟩
  · obtain ⟨r', hafter, hmaxFile, hmaxSeq, hlogNum⟩ := hedit.exists_after h.bounded hsmall r
    rw [Nat.max_eq_right hcounters] at hmaxFile
    rw [Nat.max_eq_right hseq] at hmaxSeq
    have hmanifest := h.manifest
    refine ⟨[], r', (h.recorded.extend _).after hafter hsmall, tornTail_short (by simp),
      by omega, ⟨by omega, by omega⟩, ⟨by omega, by omega⟩, Or.inr ⟨hafter.lists h.lists _ _, ?_,
      by omega, hmaxSeq⟩, (OnlyManifests.refl dir).extend _ _, fun _ => hothers _⟩
    rw [hlogNum, h.logNum]

include h hedit in
theorem Attached.amended (hsome : vs.descriptorLog = some ⟨.manifest m, true⟩)
    (hwhole : torn = [])
    (hsmall : (walPayload (manifestEntry (vs.completeEdit edit))).length ≤ kMaxRecordSize) :
    ∃ r', Amended vs edit dir (.ok, vs.applied edit dir fun _ => none)
      (extend dir (.manifest m) (vs.editFrame edit)) m r' := by
  subst hwhole
  have hnext := h.bounded.next
  have hcounters := h.next
  have hseq := h.maxSeq
  obtain ⟨r', hafter, hmaxFile, hmaxSeq, hlogNum⟩ := hedit.exists_after h.bounded hsmall r
  rw [Nat.max_eq_right hcounters] at hmaxFile
  rw [Nat.max_eq_right hseq] at hmaxSeq
  have hmanifest := h.manifest
  have hlast : (vs.applied edit dir fun _ => none).lastSequence = vs.lastSequence := by
    simp [applied, hedit.lastSequence]
  have hbounded : (vs.applied edit dir fun _ => none).Bounded := by
    have hinstalled := h.bounded.install hedit (le_refl _) hnext dir vs.descriptorLog
      vs.manifestFileNumber
    simpa [applied, hedit.lastSequence] using hinstalled
  refine ⟨r', rfl, ⟨(h.recorded.extend _).after hafter hsmall, tornTail_short (by simp),
    hafter.lists h.lists _ _, by rw [hlogNum, h.logNum]; rfl, Or.inr ⟨hsome, rfl⟩, by omega,
    le_of_eq hmaxFile, by rw [hlast]; omega, hbounded, fun n hn => ?_⟩, rfl, hsome, rfl, hlast,
    le_refl _, ⟨hmaxFile, hmaxSeq⟩, (OnlyManifests.refl dir).extend _ _⟩
  have hne : FileName.manifest n ≠ .manifest m := by simp; omega
  rw [lookup_extend_other hne]
  exact h.fresh n (by omega)

include h hedit hcrash in
theorem logAndApply_attached_append (hsome : vs.descriptorLog = some ⟨.manifest m, true⟩)
    (hwhole : torn = []) :
    Runs steady dir (vs.logAndApply edit)
      (fun result after => ∃ m' r', Amended vs edit dir result after m' r') C := by
  refine Runs.weaken (logAndApply_append steady_noFail hsome rfl
    (fun item hitem => (hedit.newFiles item hitem).1) fun part hpart => ?_) ?_ fun _ h => h
  · obtain ⟨torn', r', ham⟩ := h.amending hedit hwhole (hpart.wholeOrTorn steady_limited)
    exact hcrash _ m torn' r' ham
  · rintro ⟨status, vs'⟩ after ⟨hstatus, ⟨faults, hfaults, hvs⟩, rfl, offset, hcall⟩
    obtain rfl : faults = fun _ => none := hfaults
    simp only at hstatus hvs
    subst hstatus hvs
    obtain ⟨r', ham⟩ := h.amended hedit hsome hwhole (steady_limited _ hcall).1
    exact ⟨m, r', ham⟩

include h hedit hcrash in
theorem logAndApply_attached_create (hnone : vs.descriptorLog = none) :
    Runs steady dir (vs.logAndApply edit)
      (fun result after => ∃ m' r', Amended vs edit dir result after m' r') C := by
  have hnext := h.bounded.next
  have hcounters := h.next
  have hseq := h.maxSeq
  have hmanifest := h.manifest
  have hfresh := h.fresh _ h.next
  have hcreated : SnapshotCall steady vs → vs.nextFileNumber + 1 ≤ 2 ^ 63 ∧
      (walPayload (manifestEntry vs.numbered.snapshotEdit)).length ≤ kMaxRecordSize := by
    rintro ⟨hcreate, offset, happend⟩
    have hnumber : vs.nextFileNumber < 2 ^ 63 := steady_limited _ hcreate
    exact ⟨hnumber, (steady_limited _ happend).1⟩
  refine Runs.weaken (logAndApply_create steady_noFail hnone
    (fun item hitem => (hedit.newFiles item hitem).1) (fun left hleft => ?_)
    fun part left hcall hpart hleft => ?_) ?_ fun _ h => h
  · exact hcrash left m torn r ⟨hleft.recorded h.recorded (by omega), h.tail, h.manifest,
      ⟨le_refl _, by omega⟩, ⟨le_refl _, h.maxSeq⟩, Or.inl ⟨h.lists, h.logNum⟩,
      hleft.onlyManifests, fun hsome => absurd hnone hsome⟩
  · obtain ⟨hlimit, hsnapshot⟩ := hcreated hcall
    obtain ⟨r₁, hfirst, hlists, hmaxFile, hmaxSeq, hlogNum⟩ := snapshot_after h.bounded hsnapshot
    have hrecorded := hleft.recorded hfresh hsnapshot hfirst
    rcases hpart.wholeOrTorn steady_limited with htail | ⟨rfl, hsmall⟩
    · exact hcrash left _ part r₁ ⟨hrecorded, htail, by omega, ⟨by omega, by omega⟩,
        ⟨by omega, by omega⟩, Or.inl ⟨hlists, hlogNum⟩, hleft.onlyManifests,
        fun hsome => absurd hnone hsome⟩
    · obtain ⟨r₂, hafter, hmaxFile', hmaxSeq', hlogNum'⟩ := hedit.exists_after h.bounded hsmall r₁
      rw [Nat.max_eq_left (by omega)] at hmaxFile'
      rw [Nat.max_eq_left (by omega)] at hmaxSeq'
      exact hcrash left _ [] r₂ ⟨hrecorded.after hafter hsmall, tornTail_short (by simp), by omega,
        ⟨by omega, by omega⟩, ⟨by omega, by omega⟩, Or.inr ⟨hafter.lists hlists _ _,
        by rw [hlogNum', hlogNum], by omega, by omega⟩, hleft.onlyManifests,
        fun hsome => absurd hnone hsome⟩
  · rintro ⟨status, vs'⟩ after ⟨hstatus, ⟨faults, hfaults, hvs⟩, hswitched, hcall, offset, hlogged⟩
    obtain rfl : faults = fun _ => none := hfaults
    simp only at hstatus hvs
    subst hstatus hvs
    obtain ⟨hlimit, hsnapshot⟩ := hcreated hcall
    have hsmall : (walPayload (manifestEntry (vs.completeEdit edit))).length ≤ kMaxRecordSize :=
      (steady_limited _ hlogged).1
    obtain ⟨r₁, hfirst, hlists, hmaxFile, hmaxSeq, hlogNum⟩ := snapshot_after h.bounded hsnapshot
    obtain ⟨r₂, hafter, hmaxFile', hmaxSeq', hlogNum'⟩ := hedit.exists_after h.bounded hsmall r₁
    rw [Nat.max_eq_left (by omega)] at hmaxFile'
    rw [Nat.max_eq_left (by omega)] at hmaxSeq'
    have hrecorded := (hswitched.recorded hfresh hsnapshot hfirst).after hafter hsmall
    have hlast : (vs.applied edit dir fun _ => none).withDescriptor.lastSequence =
        vs.lastSequence := by
      simp [applied, withDescriptor, numbered, hedit.lastSequence]
    have hbounded : (vs.applied edit dir fun _ => none).withDescriptor.Bounded := by
      have hinstalled := h.bounded.install hedit (Nat.le_succ _) hlimit dir
        (some ⟨.manifest vs.nextFileNumber, true⟩) vs.nextFileNumber
      simpa [applied, withDescriptor, numbered, hedit.lastSequence] using hinstalled
    have hmax : r₂.maxFileNum = vs.nextFileNumber + 1 := hmaxFile'.trans hmaxFile
    refine ⟨vs.nextFileNumber, r₂, rfl, ⟨hrecorded, tornTail_short (by simp),
      hafter.lists hlists _ _, by rw [hlogNum', hlogNum]; rfl, Or.inr ⟨rfl, rfl⟩, by omega,
      le_of_eq hmax, by rw [hlast]; omega, hbounded, fun n hn => ?_⟩, rfl, rfl, rfl, hlast,
      Nat.le_succ _, ⟨hmax, by omega⟩, hswitched.onlyManifests⟩
    have hne : FileName.manifest n ≠ .manifest vs.nextFileNumber := by simp; omega
    rw [hswitched.1 _ (by simp) (by simp), lookup_extend_other hne, lookup_touch_other hne]
    exact h.fresh n (by omega)

include h hedit hcrash in
/-- Logging an edit: the directory gives back the version there was until it
gives back the one with the edit. -/
theorem logAndApply_attached : Runs steady dir (vs.logAndApply edit)
    (fun result after => ∃ m' r', Amended vs edit dir result after m' r') C := by
  rcases h.descriptor with hnone | ⟨hsome, hwhole⟩
  · exact logAndApply_attached_create h hedit hcrash hnone
  · exact logAndApply_attached_append h hedit hcrash hsome hwhole

end Logging

end VersionSet

end Strata

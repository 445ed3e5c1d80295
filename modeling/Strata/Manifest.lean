import Strata.Library.PowerLoss
import Strata.TableWriter
import Strata.VersionSet

/-! Logging an edit, when no call fails: what each step leaves in the directory,
and what a kill between or inside the calls leaves there. -/
namespace Strata

open Library System

variable {assume : Assume FileName} {dir : Dir} {C : Dir → Prop} {M : Medium FileName}
  {D : Medium FileName → Prop}

/-- What a kill leaves of a record: no more than the header, or more once its
payload is being written. -/
def Torn (assume : Assume FileName) (name : FileName) (e : Entry) (torn : Bytes) : Prop :=
  torn <+: walFrame e ∧ (torn.length ≤ 8 ∨
    ∃ offset outcome, assume.events ⟨.append name offset (walPayload e), outcome⟩)

def WholeOrTorn (e : Entry) (part : Bytes) : Prop :=
  TornTail part ∨ part = walFrame e ∧ (walPayload e).length ≤ kMaxRecordSize

theorem Torn.wholeOrTorn (hlimited : Limited assume) {name : FileName} {e : Entry} {torn : Bytes}
    (h : Torn assume name e torn) : WholeOrTorn e torn := by
  rcases h.2 with hshort | ⟨offset, outcome, hevent⟩
  · exact Or.inl (tornTail_short hshort)
  · have hpayload : (walPayload e).length ≤ kMaxRecordSize := (hlimited _ hevent).1
    by_cases hpart : torn.length < (walFrame e).length
    · exact Or.inl (tornTail_part h.1 hpart (lt_of_le_of_lt hpayload (by decide)))
    · exact Or.inr ⟨h.1.eq_of_length_le (not_lt.mp hpart), hpayload⟩

theorem torn_header {name : FileName} {e : Entry} {tail : Bytes}
    (h : tail <+: walHeader (walPayload e)) : Torn assume name e tail :=
  ⟨h.trans (List.prefix_append _ _), Or.inl (le_of_le_of_eq h.length_le (length_walHeader _))⟩

theorem torn_or_zeros {name : FileName} {e : Entry} {part tail : Bytes}
    (hpart : part <+: walPayload e)
    (hevent : ∃ offset outcome, assume.events ⟨.append name offset (walPayload e), outcome⟩)
    (h : Persists [walHeader (walPayload e), part] tail) :
    Torn assume name e tail ∨ ∃ later, tail = List.replicate 8 0 ++ later := by
  rcases h with ⟨n, rfl⟩ | ⟨later, hlater, rfl | ⟨_, rfl⟩⟩
  · exact Or.inl (torn_header (List.take_prefix _ _))
  · have hfront : later <+: walPayload e := (Persists.single hlater).trans hpart
    exact Or.inl ⟨(List.prefix_append_right_inj _).mpr hfront, Or.inr hevent⟩
  · exact Or.inr ⟨later, by rw [length_walHeader]⟩

/-- A record is being appended to a file: what a kill leaves of it, and what a loss
of power does. -/
structure Appending (assume : Assume FileName) (M : Medium FileName) (name : FileName) (e : Entry)
    (M' : Medium FileName) : Prop where
  dir : ∃ torn, Torn assume name e torn ∧ M'.dir = extend M.dir name torn ∧
    (M.writes name = [] → (M'.writes name).flatten = torn)
  former : M'.former = M.former
  only : Medium.Only (fun other => other = name) M M'
  persists : M.writes name = [] → ∀ tail, Persists (M'.writes name) tail →
    Torn assume name e tail ∨ ∃ later, tail = List.replicate 8 0 ++ later

theorem Appending.header (M : Medium FileName) (name : FileName) (e : Entry) (n : Nat) :
    Appending assume M name e (M.write name ((walHeader (walPayload e)).take n)) := by
  have hwrites : M.writes name = [] →
      (M.write name ((walHeader (walPayload e)).take n)).writes name =
        [(walHeader (walPayload e)).take n] := by
    intro hnone
    simp [Medium.write, hnone]
  constructor
  · refine ⟨(walHeader (walPayload e)).take n, torn_header (List.take_prefix _ _), rfl, ?_⟩
    intro hnone
    rw [hwrites hnone]
    simp
  · rfl
  · exact (Medium.write_only M name _).mono fun _ => Eq.symm
  · intro hnone tail htail
    rw [hwrites hnone] at htail
    exact Or.inl (torn_header ((Persists.single htail).trans (List.take_prefix _ _)))

theorem Appending.payload (M : Medium FileName) {name : FileName} {e : Entry} {part : Bytes}
    (hpart : part <+: walPayload e)
    (hevent : ∃ offset outcome, assume.events ⟨.append name offset (walPayload e), outcome⟩) :
    Appending assume M name e ((M.write name (walHeader (walPayload e))).write name part) := by
  have hwrites : M.writes name = [] →
      ((M.write name (walHeader (walPayload e))).write name part).writes name =
        [walHeader (walPayload e), part] := by
    intro hnone
    simp [Medium.write, hnone]
  constructor
  · refine ⟨walHeader (walPayload e) ++ part, ⟨?_, Or.inr hevent⟩, extend_extend _ _ _ _, ?_⟩
    · exact (List.prefix_append_right_inj _).mpr hpart
    · intro hnone
      rw [hwrites hnone]
      simp
  · rfl
  · exact ((Medium.write_only M name _).trans (Medium.write_only _ name part)).mono fun _ => Eq.symm
  · intro hnone tail htail
    rw [hwrites hnone] at htail
    exact torn_or_zeros hpart hevent htail

theorem Appending.lost {M' : Medium FileName} {name : FileName} {e : Entry} {old : Bytes} {lost : Dir}
    (h : Appending assume M name e M') (hlimited : Limited assume) (hsafe : M.Safe name)
    (hold : M.dir.lookup name = some old) (hlost : lost = M'.dir ∨ M'.Leaves lost) :
    ∃ part, lost.lookup name = some (old ++ part) ∧ WholeOrTorn e part := by
  obtain ⟨torn, htorn, hdir, hwrites⟩ := h.dir
  have hdata : M'.dir.lookup name = some (old ++ torn) := by
    rw [hdir, lookup_extend_self hold]
  rcases hlost with rfl | hleaves
  · exact ⟨torn, hdata, htorn.wholeOrTorn hlimited⟩
  · rw [← hwrites hsafe.writes] at hdata
    obtain ⟨tail, hpersists, hlookup⟩ := hleaves.grown (by rw [h.former, hsafe.former]) hdata
    refine ⟨tail, hlookup, ?_⟩
    rcases h.persists hsafe.writes tail hpersists with htail | ⟨later, rfl⟩
    · exact htail.wholeOrTorn hlimited
    · exact Or.inl (tornTail_zeros later)

theorem appendRecord_endures (hnofail : assume.NoFail) {w : WalWriter} (hopened : w.opened = true)
    (e : Entry) (sync : Bool) :
    Endures assume M (w.appendRecord e sync)
      (fun status M' => status = .ok ∧ M'.dir = extend M.dir w.filename (walFrame e) ∧
        M'.former = M.former ∧ (sync = true → M'.writes w.filename = []) ∧
        Medium.Only (fun other => other = w.filename) M M' ∧
        ∃ offset, assume.calls (.append w.filename offset (walPayload e)))
      (Appending assume M w.filename e) := by
  have hwhole : Medium.Only (fun other => other = w.filename) M
      ((M.write w.filename (walHeader (walPayload e))).write w.filename (walPayload e)) :=
    ((Medium.write_only M _ _).trans (Medium.write_only _ _ _)).mono fun _ => Eq.symm
  unfold WalWriter.appendRecord
  rw [if_neg (by simp [hopened])]
  refine Endures.bind (Endures.call_ok (hnofail _) rfl (fun _ => rfl)
    fun n _ => Appending.header M _ e n) ?_
  rintro cut M₁ ⟨rfl, rfl, _⟩
  refine Endures.bind (Endures.call_ok (hnofail _) rfl (fun _ => rfl)
    fun n hkill => Appending.payload M (List.take_prefix n _) ⟨_, _, hkill⟩) ?_
  rintro cut M₂ ⟨rfl, rfl, hcall⟩
  cases sync with
  | false => exact Endures.ret ⟨rfl, extend_extend _ _ _ _, rfl, by simp, hwhole, _, hcall⟩
  | true =>
    simp only [WalWriter.sync, hopened]
    refine Endures.bind (Endures.call_ok (hnofail _) rfl (fun _ => rfl)
      fun _ _ => Appending.payload M (List.prefix_refl _) ⟨_, _, hcall⟩) ?_
    rintro synced M₃ ⟨rfl, rfl, _⟩
    refine Endures.ret ⟨rfl, extend_extend _ _ _ _, rfl, fun _ => ?_, ?_, _, hcall⟩
    · exact Function.update_self _ _ _
    · exact hwhole.trans ((Medium.perform_only _ (.sync w.filename)).mono fun _ => Eq.symm)

theorem openAppend_endures (hnofail : assume.NoFail) (name : FileName) (hcrash : D M) :
    Endures assume M (WalWriter.new name)
      (fun w M' => w = ⟨name, true⟩ ∧ M' = M.perform (.openAppend name) ∧
        assume.calls (.openAppend name)) D := by
  refine Endures.bind (Endures.call_ok (hnofail _) (M.perform_openAppend name) (fun _ => rfl)
    fun _ _ => hcrash) ?_
  rintro opened M' ⟨rfl, rfl, hcall⟩
  exact Endures.ret ⟨rfl, rfl, hcall⟩

theorem openAppend_ok (hnofail : assume.NoFail) (name : FileName) (hcrash : C dir) :
    Runs assume dir (WalWriter.new name)
      (fun w after => w = ⟨name, true⟩ ∧ after = touch dir name ∧ assume.calls (.openAppend name))
      C := by
  apply Endures.runs (m := .settled dir)
  apply (openAppend_endures (D := fun M' => C M'.dir) hnofail name hcrash).weaken _ fun _ h => h
  rintro w M' ⟨rfl, rfl, hcall⟩
  exact ⟨rfl, Medium.perform_openAppend _ _, hcall⟩

theorem syncDirectory_endures (hnofail : assume.NoFail) (hcrash : D M) :
    Endures assume M syncDirectory
      (fun status M' => status = .ok ∧ M' = M.perform .syncDirectory) D := by
  refine Endures.bind (Endures.call_ok (hnofail _) rfl (fun _ => rfl) fun _ _ => hcrash) ?_
  rintro synced M' ⟨rfl, rfl, _⟩
  exact Endures.ret ⟨rfl, rfl⟩

theorem syncDirectory_ok (hnofail : assume.NoFail) (hcrash : C dir) :
    Runs assume dir syncDirectory (fun status after => status = .ok ∧ after = dir) C := by
  apply Endures.runs (m := .settled dir)
  apply (syncDirectory_endures (D := fun M' => C M'.dir) hnofail hcrash).weaken _ fun _ h => h
  rintro status M' ⟨rfl, rfl⟩
  exact ⟨rfl, rfl⟩

/-- `CURRENT` as `SetCurrentFile` leaves it. -/
def currentText (number : Nat) : Bytes := manifestName number ++ [10]

/-- Two directories that differ at most in `CURRENT` and its temporary file. -/
def SameButCurrent (before after : Dir) : Prop :=
  ∀ name, name ≠ .current → name ≠ .currentTmp → after.lookup name = before.lookup name

theorem setCurrentFile_endures (hnofail : assume.NoFail) (number : Nat)
    (hbefore : ∀ M', SameButCurrent M.dir M'.dir →
      M'.dir.lookup .current = M.dir.lookup .current → D M')
    (hbehind : ∀ M', SameButCurrent M.dir M'.dir →
      M'.dir.lookup .current = some (currentText number) → D M') :
    Endures assume M (setCurrentFile number)
      (fun status M' => status = .ok ∧ SameButCurrent M.dir M'.dir ∧
        M'.dir.lookup .current = some (currentText number) ∧ M'.former = (fun _ => []) ∧
        M'.writes .current = [] ∧
        Medium.Only (fun name => name = .current ∨ name = .currentTmp) M M') D := by
  have hother : ∀ (bytes : Bytes) (name : FileName), name ≠ .currentTmp →
      (M.dir.insert .currentTmp bytes).lookup name = M.dir.lookup name := fun bytes name hne =>
    lookup_insert_other hne
  have htmp : ∀ M' bytes, M'.dir = M.dir.insert .currentTmp bytes → D M' := by
    intro M' bytes hdir
    apply hbefore
    · intro name _ hne
      rw [hdir, hother bytes name hne]
    · rw [hdir, hother bytes _ (by simp)]
  unfold setCurrentFile
  refine Endures.bind (Endures.call_ok (hnofail _) rfl (fun _ => rfl)
    fun _ _ => hbefore M (fun _ _ _ => rfl) rfl) ?_
  rintro opened M₁ ⟨rfl, hcreate, _⟩
  have hdir₁ : M₁.dir = M.dir.insert FileName.currentTmp ([] : Bytes) := by rw [hcreate]; rfl
  have hgrown : ∀ data, extend M₁.dir .currentTmp data = M.dir.insert .currentTmp data := by
    intro data
    rw [hdir₁, extend_insert, List.nil_append]
  refine Endures.bind (Endures.call_ok (hnofail _) rfl (fun _ => rfl)
    fun n _ => htmp _ _ (hgrown _)) ?_
  rintro cut M₂ ⟨rfl, hwrite, _⟩
  have hdir₂ : M₂.dir = M.dir.insert .currentTmp (currentText number) := by
    rw [hwrite]
    exact hgrown _
  refine Endures.bind (Endures.call_ok (hnofail _) rfl (fun _ => rfl)
    fun n _ => htmp _ _ hdir₂) ?_
  rintro synced M₃ ⟨rfl, hsync, _⟩
  have hdir₃ : M₃.dir = M.dir.insert .currentTmp (currentText number) := by
    rw [hsync]
    exact hdir₂
  have hwrites : M₃.writes .currentTmp = [] := by
    rw [hsync]
    exact M₂.sync_writes _
  refine Endures.bind (Endures.call_ok (hnofail _) (M₃.perform_rename _ _) (fun _ => rfl)
    fun n _ => htmp _ _ hdir₃) ?_
  rintro renamed M₄ ⟨rfl, hrename, _⟩
  have hsource : M₃.dir.lookup .currentTmp = some (currentText number) := by
    rw [hdir₃, lookup_insert_self]
  have hdir₄ : M₄.dir = move M₃.dir .currentTmp .current := by
    rw [hrename]
    exact M₃.perform_rename _ _
  have hsame : SameButCurrent M.dir M₄.dir := by
    intro name hcurrent htmpName
    rw [hdir₄, lookup_move_other htmpName hcurrent, hdir₃, hother _ _ htmpName]
  have hnamed : M₄.dir.lookup .current = some (currentText number) := by
    rw [hdir₄]
    exact lookup_move_target hsource
  have hsafe : M₄.writes .current = [] := by
    rw [hrename]
    exact (Medium.rename_writes hsource _).trans hwrites
  have honly₁ : Medium.Only (fun name => name = .current ∨ name = .currentTmp) M M₁ := by
    rw [hcreate]
    exact (Medium.Only.refl _ M).perform fun _ hname => Or.inr hname.symm
  have honly₂ : Medium.Only (fun name => name = .current ∨ name = .currentTmp) M M₂ := by
    rw [hwrite]
    exact honly₁.perform fun _ hname => Or.inr hname.symm
  have honly₃ : Medium.Only (fun name => name = .current ∨ name = .currentTmp) M M₃ := by
    rw [hsync]
    exact honly₂.perform fun _ hname => Or.inr hname.symm
  have honly : Medium.Only (fun name => name = .current ∨ name = .currentTmp) M M₄ := by
    rw [hrename]
    exact honly₃.perform fun _ hname => hname.symm.imp Eq.symm Eq.symm
  refine (syncDirectory_endures hnofail (hbehind M₄ hsame hnamed)).weaken ?_ fun _ h => h
  rintro status M₅ ⟨rfl, rfl⟩
  exact ⟨rfl, hsame, hnamed, rfl, hsafe, honly.perform fun _ hname => hname.elim⟩

namespace VersionSet

def numbered (vs : VersionSet) : VersionSet :=
  { vs with nextFileNumber := vs.nextFileNumber + 1, manifestFileNumber := vs.nextFileNumber }

def snapshotFrame (vs : VersionSet) : Bytes := walFrame (manifestEntry vs.numbered.snapshotEdit)

/-- The directory with part of the new manifest written and `CURRENT` as it was. -/
def Snapshotting (vs : VersionSet) (dir left : Dir) : Prop :=
  left = dir ∨ ∃ torn, torn <+: vs.snapshotFrame ∧
    SameButCurrent (extend (touch dir (.manifest vs.nextFileNumber))
      (.manifest vs.nextFileNumber) torn) left ∧
    left.lookup .current = dir.lookup .current

/-- The directory with `CURRENT` switched to the new manifest, behind whose
snapshot `more` is written. -/
def Switched (vs : VersionSet) (dir : Dir) (more : Bytes) (left : Dir) : Prop :=
  SameButCurrent (extend (touch dir (.manifest vs.nextFileNumber))
      (.manifest vs.nextFileNumber) (vs.snapshotFrame ++ more)) left ∧
    left.lookup .current = some (currentText vs.nextFileNumber)

theorem Switched.extend {vs : VersionSet} {left : Dir} (h : vs.Switched dir [] left)
    (bytes : Bytes) :
    vs.Switched dir bytes (extend left (.manifest vs.nextFileNumber) bytes) := by
  obtain ⟨hsame, hnamed⟩ := h
  rw [List.append_nil] at hsame
  refine ⟨?_, by rw [lookup_extend_other (by simp)]; exact hnamed⟩
  intro name hcurrent htmp
  rw [← extend_extend]
  by_cases hname : name = .manifest vs.nextFileNumber
  · subst hname
    have hold := hsame _ hcurrent htmp
    rw [lookup_extend_self lookup_touch_self] at hold
    rw [lookup_extend_self hold, lookup_extend_self (lookup_extend_self lookup_touch_self)]
  · rw [lookup_extend_other hname, lookup_extend_other hname, hsame name hcurrent htmp]

structure SnapshotCall (assume : Assume FileName) (vs : VersionSet) : Prop where
  create : assume.calls (.openAppend (.manifest vs.nextFileNumber))
  append : ∃ offset, assume.calls (.append (.manifest vs.nextFileNumber) offset
    (walPayload (manifestEntry vs.numbered.snapshotEdit)))

structure Settles (number : Nat) (M M' : Medium FileName) : Prop where
  former : M'.former = fun _ => []
  current : M'.writes .current = []
  manifest : M'.writes (.manifest number) = []
  only : Medium.Only
    (fun name => name = .current ∨ name = .currentTmp ∨ name = .manifest number) M M'

theorem openDescriptor_endures (hnofail : assume.NoFail) {vs : VersionSet}
    (hnone : vs.descriptorLog = none) (hbefore : ∀ M', vs.Snapshotting M.dir M'.dir → D M')
    (hbehind : ∀ M', SnapshotCall assume vs → vs.Switched M.dir [] M'.dir → D M') :
    Endures assume M vs.openDescriptor
      (fun result M' => result = (.ok, { vs.numbered with
          descriptorLog := some ⟨.manifest vs.nextFileNumber, true⟩ }) ∧
        vs.Switched M.dir [] M'.dir ∧ SnapshotCall assume vs ∧ Settles vs.nextFileNumber M M') D := by
  have hcurrent : ∀ bytes, (extend (touch M.dir (.manifest vs.nextFileNumber))
      (.manifest vs.nextFileNumber) bytes).lookup .current = M.dir.lookup .current := by
    intro bytes
    rw [lookup_extend_other (by simp), lookup_touch_other (by simp)]
  have hswitched : ∀ left, SameButCurrent (extend (touch M.dir (.manifest vs.nextFileNumber))
      (.manifest vs.nextFileNumber) vs.snapshotFrame) left →
      left.lookup .current = some (currentText vs.nextFileNumber) → vs.Switched M.dir [] left := by
    intro left hsame hnamed
    refine ⟨?_, hnamed⟩
    rwa [List.append_nil]
  unfold openDescriptor
  simp only [hnone, newFileNumber]
  refine Endures.bind (openAppend_endures hnofail _ (hbefore M (Or.inl rfl))) ?_
  rintro writer M₁ ⟨rfl, htouch, hcreate⟩
  have hdir₁ : M₁.dir = touch M.dir (.manifest vs.nextFileNumber) := by
    rw [htouch]
    exact M.perform_openAppend _
  have honly₁ : Medium.Only (fun name => name = .current ∨ name = .currentTmp ∨
      name = .manifest vs.nextFileNumber) M M₁ := by
    rw [htouch]
    exact (Medium.Only.refl _ M).perform fun _ hname => Or.inr (Or.inr hname.symm)
  refine Endures.bind ((appendRecord_endures hnofail rfl _ true).weaken (fun _ _ h => h) ?_) ?_
  · rintro M' ⟨⟨torn, htorn, hdir, _⟩, _, _, _⟩
    rw [hdir₁] at hdir
    refine hbefore M' (Or.inr ⟨torn, htorn.1, fun _ _ _ => ?_, ?_⟩)
    · rw [hdir]
    · rw [hdir, hcurrent]
  rintro status M₂ ⟨rfl, hdir₂, hformer, hwrites, honly₂, happend⟩
  rw [hdir₁] at hdir₂
  refine Endures.bind (setCurrentFile_endures hnofail vs.nextFileNumber ?_ ?_) ?_
  · intro M' hsame hold
    rw [hdir₂] at hsame hold
    exact hbefore M' (Or.inr ⟨vs.snapshotFrame, List.prefix_refl _, hsame,
      hold.trans (hcurrent _)⟩)
  · intro M' hsame hnamed
    rw [hdir₂] at hsame
    exact hbehind M' ⟨hcreate, happend⟩ (hswitched _ hsame hnamed)
  · rintro status M₃ ⟨rfl, hsame, hnamed, hformer₃, hwrites₃, honly₃⟩
    rw [hdir₂] at hsame
    refine Endures.ret ⟨rfl, hswitched _ hsame hnamed, ⟨hcreate, happend⟩, hformer₃, hwrites₃, ?_, ?_⟩
    · rw [(honly₃ (.manifest vs.nextFileNumber) (by simp)).2.1]
      exact hwrites rfl
    · apply (honly₁.trans (honly₂.mono fun _ hname => Or.inr (Or.inr hname))).trans
      exact honly₃.mono fun _ hname => hname.imp_right Or.inl

def applied (vs : VersionSet) (edit : VersionEdit) (dir : Dir) (faults : Faults) : VersionSet :=
  { vs with
    current := vs.installEdit (vs.completeEdit edit) dir faults
    logNumber := edit.logNumber.getD vs.logNumber
    lastSequence := edit.lastSequence.getD vs.lastSequence }

def withDescriptor (vs : VersionSet) : VersionSet :=
  { vs.numbered with descriptorLog := some ⟨.manifest vs.nextFileNumber, true⟩ }

def editFrame (vs : VersionSet) (edit : VersionEdit) : Bytes :=
  walFrame (manifestEntry (vs.completeEdit edit))

def LoggedCall (assume : Assume FileName) (vs : VersionSet) (edit : VersionEdit)
    (name : FileName) : Prop :=
  ∃ offset, assume.calls (.append name offset (walPayload (manifestEntry (vs.completeEdit edit))))

variable {vs : VersionSet} {edit : VersionEdit}

theorem levels_in_range (vs : VersionSet) (hlevels : ∀ item ∈ edit.newFiles, item.1 < kNumLevels) :
    (vs.completeEdit edit).newFiles.any (fun item => item.1 ≥ kNumLevels) = false := by
  simpa [completeEdit] using hlevels

theorem logAndApply_append_endures (hnofail : assume.NoFail) {w : WalWriter}
    (hsome : vs.descriptorLog = some w) (hopened : w.opened = true)
    (hlevels : ∀ item ∈ edit.newFiles, item.1 < kNumLevels) :
    Endures assume M (vs.logAndApply edit)
      (fun result M' => result.1 = .ok ∧
        (∃ faults, assume.faults faults ∧ result.2 = vs.applied edit M.dir faults) ∧
        M'.dir = extend M.dir w.filename (vs.editFrame edit) ∧
        LoggedCall assume vs edit w.filename ∧ M'.former = M.former ∧ M'.writes w.filename = [] ∧
        Medium.Only (fun other => other = w.filename) M M')
      (Appending assume M w.filename (manifestEntry (vs.completeEdit edit))) := by
  unfold logAndApply
  simp only [levels_in_range vs hlevels, Bool.false_eq_true, ↓reduceIte]
  refine Endures.bind (Endures.readDir (Q := fun seen M' => seen = M.dir ∧ M' = M) ⟨rfl, rfl⟩) ?_
  rintro seen M₁ ⟨rfl, rfl⟩
  refine Endures.bind (Endures.readFaults (Q := fun faults M' => assume.faults faults ∧ M' = M₁)
    fun faults hfaults => ⟨hfaults, rfl⟩) ?_
  rintro faults M₂ ⟨hfaults, rfl⟩
  refine Endures.bind (M := fun result M' => result = (.ok, vs) ∧ M' = M₂) ?_ ?_
  · unfold openDescriptor
    simp only [hsome]
    exact Endures.ret ⟨rfl, rfl⟩
  · rintro result M₃ ⟨rfl, rfl⟩
    simp only [hsome]
    refine Endures.bind (appendRecord_endures hnofail hopened _ true) ?_
    rintro status M' ⟨rfl, hdir, hformer, hwrites, honly, hcall⟩
    refine Endures.ret ⟨rfl, ⟨faults, hfaults, ?_⟩, hdir, hcall, hformer, hwrites rfl, honly⟩
    simp only [applied, hsome]
    rfl

theorem logAndApply_append (hnofail : assume.NoFail) {w : WalWriter}
    (hsome : vs.descriptorLog = some w) (hopened : w.opened = true)
    (hlevels : ∀ item ∈ edit.newFiles, item.1 < kNumLevels)
    (hcrash : ∀ torn, Torn assume w.filename (manifestEntry (vs.completeEdit edit)) torn →
      C (extend dir w.filename torn)) :
    Runs assume dir (vs.logAndApply edit)
      (fun result after => result.1 = .ok ∧
        (∃ faults, assume.faults faults ∧ result.2 = vs.applied edit dir faults) ∧
        after = extend dir w.filename (vs.editFrame edit) ∧
        LoggedCall assume vs edit w.filename) C := by
  apply Endures.runs (m := .settled dir)
  apply (logAndApply_append_endures hnofail hsome hopened hlevels).weaken
  · rintro result M' ⟨hstatus, hversions, hdir, hcall, _⟩
    exact ⟨hstatus, hversions, hdir, hcall⟩
  · rintro M' ⟨⟨torn, htorn, hdir, _⟩, _, _, _⟩
    rw [hdir]
    exact hcrash torn htorn

theorem logAndApply_create_endures (hnofail : assume.NoFail) (hnone : vs.descriptorLog = none)
    (hlevels : ∀ item ∈ edit.newFiles, item.1 < kNumLevels)
    (hbefore : ∀ M', vs.Snapshotting M.dir M'.dir → D M')
    (hbehind : ∀ torn M', SnapshotCall assume vs → Torn assume (.manifest vs.nextFileNumber)
      (manifestEntry (vs.completeEdit edit)) torn → vs.Switched M.dir torn M'.dir → D M') :
    Endures assume M (vs.logAndApply edit)
      (fun result M' => result.1 = .ok ∧
        (∃ faults, assume.faults faults ∧
          result.2 = (vs.applied edit M.dir faults).withDescriptor) ∧
        vs.Switched M.dir (vs.editFrame edit) M'.dir ∧ SnapshotCall assume vs ∧
        LoggedCall assume vs edit (.manifest vs.nextFileNumber) ∧
        Settles vs.nextFileNumber M M') D := by
  unfold logAndApply
  simp only [levels_in_range vs hlevels, Bool.false_eq_true, ↓reduceIte]
  refine Endures.bind (Endures.readDir (Q := fun seen M' => seen = M.dir ∧ M' = M) ⟨rfl, rfl⟩) ?_
  rintro seen M₁ ⟨rfl, rfl⟩
  refine Endures.bind (Endures.readFaults (Q := fun faults M' => assume.faults faults ∧ M' = M₁)
    fun faults hfaults => ⟨hfaults, rfl⟩) ?_
  rintro faults M₂ ⟨hfaults, rfl⟩
  refine Endures.bind (openDescriptor_endures hnofail hnone hbefore
    fun M' hcall h => hbehind [] M' hcall ⟨List.nil_prefix, Or.inl (by simp)⟩ h) ?_
  rintro result M₃ ⟨rfl, hswitched, hsnapshot, hformer, hcurrent, _, honly⟩
  simp only
  refine Endures.bind ((appendRecord_endures hnofail rfl _ true).weaken (fun _ _ h => h) ?_) ?_
  · rintro M' ⟨⟨torn, htorn, hdir, _⟩, _, _, _⟩
    exact hbehind torn M' hsnapshot htorn (hdir ▸ hswitched.extend torn)
  rintro status M₄ ⟨rfl, hdir, hformer₄, hwrites, honly₄, hcall⟩
  refine Endures.ret ⟨rfl, ⟨faults, hfaults, rfl⟩, hdir ▸ hswitched.extend _, hsnapshot, hcall,
    hformer₄.trans hformer, ?_, hwrites rfl, ?_⟩
  · rw [(honly₄ .current (by simp)).2.1]
    exact hcurrent
  · exact honly.trans (honly₄.mono fun _ hname => Or.inr (Or.inr hname))

theorem logAndApply_create (hnofail : assume.NoFail) (hnone : vs.descriptorLog = none)
    (hlevels : ∀ item ∈ edit.newFiles, item.1 < kNumLevels)
    (hbefore : ∀ left, vs.Snapshotting dir left → C left)
    (hbehind : ∀ torn left, SnapshotCall assume vs → Torn assume (.manifest vs.nextFileNumber)
      (manifestEntry (vs.completeEdit edit)) torn → vs.Switched dir torn left → C left) :
    Runs assume dir (vs.logAndApply edit)
      (fun result after => result.1 = .ok ∧
        (∃ faults, assume.faults faults ∧
          result.2 = (vs.applied edit dir faults).withDescriptor) ∧
        vs.Switched dir (vs.editFrame edit) after ∧ SnapshotCall assume vs ∧
        LoggedCall assume vs edit (.manifest vs.nextFileNumber)) C := by
  apply Endures.runs (m := .settled dir)
  apply (logAndApply_create_endures (D := fun M' => C M'.dir) hnofail hnone hlevels
    (fun M' => hbefore M'.dir) fun torn M' => hbehind torn M'.dir).weaken _ fun _ h => h
  rintro result M' ⟨hstatus, hversions, hswitched, hsnapshot, hcall, _⟩
  exact ⟨hstatus, hversions, hswitched, hsnapshot, hcall⟩

end VersionSet

end Strata

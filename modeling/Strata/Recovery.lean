import Mathlib.Data.List.TakeWhile
import Strata.CompactionRun
import Strata.EditCodec
import Strata.Manifest

/-! What a manifest gives back: the files of the version it was written for,
the counters, and where the logs begin. -/
namespace Strata

open Library System Layers

/-! `CURRENT` names a manifest by its decimal number. -/

theorem mem_decimal {number : Nat} {byte : UInt8} (h : byte ∈ decimal number) :
    ∃ d < 10, byte = UInt8.ofNat (48 + d) := by
  simp only [decimal, List.mem_append, List.mem_replicate, List.mem_map, List.mem_reverse] at h
  rcases h with ⟨_, rfl⟩ | ⟨d, hd, rfl⟩
  · exact ⟨0, by decide, rfl⟩
  · exact ⟨d, Nat.digits_lt_base (by decide) hd, rfl⟩

theorem isDigit_decimal {number : Nat} {byte : UInt8} (h : byte ∈ decimal number) :
    isDigit byte = true := by
  obtain ⟨d, hd, rfl⟩ := mem_decimal h
  interval_cases d <;> rfl

theorem foldl_digits (digits : List Nat) (hdigits : ∀ d ∈ digits, d < 10) :
    (digits.reverse.map fun d => UInt8.ofNat (48 + d)).foldl
      (fun value byte => 10 * value + (byte.toNat - 48)) 0 = Nat.ofDigits 10 digits := by
  induction digits with
  | nil => rfl
  | cons d rest ih =>
    have hd : d < 10 := hdigits d (by simp)
    have hvalue : (UInt8.ofNat (48 + d)).toNat - 48 = d := by
      rw [UInt8.toNat_ofNat', Nat.mod_eq_of_lt (by omega)]
      omega
    rw [List.reverse_cons, List.map_append, List.foldl_append,
      ih fun x hx => hdigits x (by simp [hx])]
    simp only [List.map_cons, List.map_nil, List.foldl_cons, List.foldl_nil, hvalue,
      Nat.ofDigits_cons]
    omega

theorem digitsValue_decimal (number : Nat) : digitsValue (decimal number) = number := by
  have hzeros : ∀ count, (List.replicate count (48 : UInt8)).foldl
      (fun value byte => 10 * value + (byte.toNat - 48)) 0 = 0 := by
    intro count
    induction count with
    | zero => rfl
    | succ count ih => rw [List.replicate_succ, List.foldl_cons]; exact ih
  rw [digitsValue, decimal, List.foldl_append, hzeros,
    foldl_digits _ fun d hd => Nat.digits_lt_base (by decide) hd, Nat.ofDigits_digits]

theorem byte_manifestName {number : Nat} {byte : UInt8} (h : byte ∈ manifestName number) :
    byte ≠ 0 ∧ byte ≠ 10 := by
  have hword : ∀ byte ∈ ascii ['M', 'A', 'N', 'I', 'F', 'E', 'S', 'T', '-'],
      byte ≠ (0 : UInt8) ∧ byte ≠ 10 := by decide +kernel
  rcases List.mem_append.mp h with h | h
  · exact hword byte h
  · obtain ⟨d, hd, rfl⟩ := mem_decimal h
    interval_cases d <;> decide

theorem skipDots_manifestName (number : Nat) :
    skipDots ((manifestName number).takeWhile fun byte => byte ≠ 0) = manifestName number := by
  rw [List.takeWhile_eq_self_iff.mpr fun byte hbyte => by simpa using (byte_manifestName hbyte).1]
  rfl

theorem resolve_manifestName (number : Nat) : resolve (manifestName number) = .manifest number := by
  have hfilter : (manifestName number).filter isDigit = decimal number := by
    rw [manifestName, List.filter_append, List.filter_eq_self.mpr fun _ h => isDigit_decimal h]
    rfl
  have hhead : ∀ (suffix : Bytes), decimal number ++ suffix ≠ manifestName number := by
    intro suffix heq
    cases hdecimal : decimal number with
    | nil =>
      have hlen : 6 ≤ (decimal number).length := by
        simp only [decimal, List.length_append, List.length_replicate]
        omega
      simp [hdecimal] at hlen
    | cons byte rest =>
      have hdigit : isDigit byte = true := isDigit_decimal (hdecimal ▸ List.mem_cons_self)
      have hbyte : byte = 77 := by
        have h := congrArg List.head? heq
        rw [hdecimal] at h
        exact Option.some.inj h
      rw [hbyte] at hdigit
      exact absurd hdigit (by decide)
  have hfirst : ∀ text : Bytes, text.head? ≠ some 77 → text ≠ manifestName number := by
    rintro text hne rfl
    exact hne rfl
  unfold resolve
  simp only [skipDots_manifestName, hfilter, digitsValue_decimal]
  rw [List.find?_cons_of_neg, List.find?_cons_of_neg, List.find?_cons_of_neg,
    List.find?_cons_of_neg, List.find?_cons_of_neg, List.find?_cons_of_pos]
  · rfl
  · exact decide_eq_true rfl
  · exact mt of_decide_eq_true (hhead _)
  · exact mt of_decide_eq_true (hhead _)
  · exact mt of_decide_eq_true (hfirst _ (by decide))
  · exact mt of_decide_eq_true (hfirst _ (by decide))
  · exact mt of_decide_eq_true (hfirst _ (by decide))

theorem currentText_injective {m n : Nat} (h : currentText m = currentText n) : m = n := by
  have hname : manifestName m = manifestName n := List.append_cancel_right h
  have hresolve := congrArg resolve hname
  rw [resolve_manifestName, resolve_manifestName] at hresolve
  cases hresolve
  rfl

theorem currentLine_currentText {dir : Dir} {number : Nat}
    (h : dir.lookup .current = some (currentText number)) :
    VersionSet.currentLine dir (fun _ => none) = some (manifestName number) := by
  have hbytes : ∀ byte ∈ manifestName number, decide (byte ≠ (10 : UInt8)) = true :=
    fun byte hbyte => decide_eq_true (byte_manifestName hbyte).2
  rw [VersionSet.currentLine, h]
  simp only [Option.map_some, currentText]
  rw [List.takeWhile_append_of_pos hbytes]
  simp

namespace VersionEdit

theorem length_le_flatMap {α : Type} {items : List α} (encode : α → Bytes) {item : α}
    (h : item ∈ items) : (encode item).length ≤ (items.flatMap encode).length := by
  obtain ⟨before, after, rfl⟩ := List.append_of_mem h
  simp only [List.flatMap_append, List.flatMap_cons, List.length_append]
  omega

theorem length_encodeNew_le {edit : VersionEdit} {item : Nat × FileMetaData}
    (h : item ∈ edit.newFiles) : (encodeNew item).length ≤ edit.encodeTo.length := by
  have hle := length_le_flatMap encodeNew h
  simp only [encodeTo, List.length_append]
  omega

theorem fileFits {edit : VersionEdit} (hsmall : edit.encodeTo.length < 2 ^ 32)
    {item : Nat × FileMetaData} (h : item ∈ edit.newFiles) (hlevel : item.1 < kNumLevels)
    (hnumber : item.2.number < 2 ^ 64) (hsize : item.2.fileSize < 2 ^ 64) : FileFits item := by
  have hlength := length_encodeNew_le h
  have hlevels : kNumLevels = 7 := rfl
  simp only [encodeNew, encodeString, List.length_cons, List.length_append, length_encodeFixed32,
    length_encodeFixed64] at hlength
  exact ⟨by omega, hnumber, hsize, by omega, by omega⟩

end VersionEdit

namespace VersionSet

open VersionEdit

theorem replayEdits_append {r r' : Recovery} {records : List Entry}
    (h : replayEdits r records = some (.ok r')) (more : List Entry) :
    replayEdits r (records ++ more) = replayEdits r' more := by
  induction records generalizing r with
  | nil =>
    obtain rfl : r = r' := by simpa [replayEdits] using h
    rfl
  | cons record rest ih =>
    rw [replayEdits] at h
    rw [List.cons_append, replayEdits]
    cases hdecode : VersionEdit.decodeFrom record.value with
    | error status => simp [hdecode] at h
    | ok edit =>
      simp only [hdecode] at h ⊢
      split at h
      · cases h
      · rename_i hlevels
        rw [if_neg hlevels]
        exact ih h

theorem foldl_addNew {items : List (Nat × FileMetaData)} {r : Recovery}
    (h : ∀ item ∈ items, item.2.number + 1 < 2 ^ 64) :
    ∃ top, items.foldl Recovery.addNew r =
        { r with version := r.version.addFiles items, maxFileNum := top } ∧
      r.maxFileNum ≤ top ∧ (∀ item ∈ items, item.2.number < top) ∧
      ((∀ item ∈ items, item.2.number < r.maxFileNum) → top = r.maxFileNum) := by
  induction items generalizing r with
  | nil => exact ⟨r.maxFileNum, rfl, le_refl _, by simp, fun _ => rfl⟩
  | cons item rest ih =>
    have hitem := h item (by simp)
    have hcounter : r.maxFileNum ≤ (r.addNew item).maxFileNum ∧
        item.2.number < (r.addNew item).maxFileNum ∧
        (item.2.number < r.maxFileNum → (r.addNew item).maxFileNum = r.maxFileNum) := by
      simp only [Recovery.addNew]
      split
      · rw [Nat.mod_eq_of_lt hitem]
        omega
      · omega
    obtain ⟨hold, hhere, hsame⟩ := hcounter
    obtain ⟨top, heq, hle, hrest, htop⟩ :=
      ih (r := r.addNew item) fun other hother => h other (by simp [hother])
    refine ⟨top, ?_, le_trans hold hle, ?_, ?_⟩
    · rw [List.foldl_cons, heq]
      rfl
    · intro other hother
      rcases List.mem_cons.mp hother with rfl | hother
      · exact lt_of_lt_of_le hhere hle
      · exact hrest other hother
    · intro hbelow
      have hkept := hsame (hbelow item (by simp))
      rw [htop fun other hother => hkept ▸ hbelow other (by simp [hother]), hkept]

structure Recovery.After (r : Recovery) (edit : VersionEdit) (r' : Recovery) : Prop where
  replay : replayEdits r [manifestEntry edit] = some (.ok r')
  files : ∀ level, r'.version.files level =
    ((r.version.files level).filter fun f => (level.val, f.number) ∉ edit.deletedFiles) ++
      (edit.newFiles.filter fun item => item.1 = level.val).map fun item => bare item.2
  least : max r.maxFileNum (edit.nextFileNumber.getD 0) ≤ r'.maxFileNum
  numbers : ∀ item ∈ edit.newFiles, item.2.number < r'.maxFileNum
  maxFileNum : (∀ item ∈ edit.newFiles,
      item.2.number < max r.maxFileNum (edit.nextFileNumber.getD 0)) →
    r'.maxFileNum = max r.maxFileNum (edit.nextFileNumber.getD 0)
  maxSeq : r'.maxSeq = max r.maxSeq (edit.lastSequence.getD 0)
  logNum : r'.logNum = edit.logNumber.getD r.logNum

theorem Recovery.exists_after (r : Recovery) {edit : VersionEdit} (hfit : edit.FieldsFit)
    (hlevels : ∀ item ∈ edit.newFiles, item.1 < kNumLevels)
    (hnumbers : ∀ item ∈ edit.newFiles, item.2.number + 1 < 2 ^ 64) :
    ∃ r', r.After edit r' := by
  obtain ⟨deleted, hdecode, hdeleted⟩ := decodeFrom_encodeTo hfit
  have hany : ((edit.decoded deleted).newFiles.any fun item => item.1 ≥ kNumLevels) = false := by
    simpa [decoded] using hlevels
  have hbare : ∀ P : Nat → Prop, (∀ item ∈ (edit.decoded deleted).newFiles, P item.2.number) ↔
      ∀ item ∈ edit.newFiles, P item.2.number := by
    intro P
    simp only [decoded, List.forall_mem_map]
    rfl
  obtain ⟨top, hfold, hleast, hbelow, hsame⟩ := foldl_addNew
    (r := { version := r.version.removeFiles deleted
            maxFileNum := max r.maxFileNum (edit.nextFileNumber.getD 0)
            maxSeq := max r.maxSeq (edit.lastSequence.getD 0)
            logNum := edit.logNumber.getD r.logNum })
    ((hbare fun n => n + 1 < 2 ^ 64).mpr hnumbers)
  have happly : r.apply (edit.decoded deleted) =
      ⟨(r.version.removeFiles deleted).addFiles (edit.decoded deleted).newFiles, top,
        max r.maxSeq (edit.lastSequence.getD 0), edit.logNumber.getD r.logNum⟩ := hfold
  refine ⟨r.apply (edit.decoded deleted), ?_, fun level => ?_, ?_, ?_, ?_, ?_, ?_⟩
  · unfold replayEdits
    rw [show (manifestEntry edit).value = edit.encodeTo from rfl, hdecode]
    simp only [hany, Bool.false_eq_true, ↓reduceIte]
    rfl
  · rw [happly]
    simp only [Version.files_addFiles, Version.removeFiles, decoded, List.filter_map, List.map_map,
      hdeleted]
    rfl
  · rw [happly]
    exact hleast
  · rw [happly]
    exact (hbare fun n => n < top).mp hbelow
  · rw [happly]
    exact fun h => hsame ((hbare fun n =>
      n < max r.maxFileNum (edit.nextFileNumber.getD 0)).mpr h)
  · rw [happly]
  · rw [happly]

def Recovery.Lists (r : Recovery) (v : Version) : Prop :=
  ∀ level, (r.version.files level).Perm ((v.files level).map bare)

theorem Recovery.After.lists {r r' : Recovery} {vs : VersionSet} {edit : VersionEdit}
    (h : r.After edit r') (hlists : r.Lists vs.current) (dir : Dir) (faults : Faults) :
    r'.Lists (vs.installEdit edit dir faults) := by
  intro level
  have hold : ((r.version.files level).filter fun f => (level.val, f.number) ∉ edit.deletedFiles).Perm
      (((vs.current.files level).filter fun f =>
        (level.val, f.number) ∉ edit.deletedFiles).map bare) := by
    have hfilter := (hlists level).filter fun f => (level.val, f.number) ∉ edit.deletedFiles
    rw [List.filter_map] at hfilter
    exact hfilter
  have hinstall := (perm_installEdit vs edit dir faults level).map bare
  rw [List.map_append, List.map_map] at hinstall
  rw [h.files level]
  exact (hold.append_right _).trans hinstall.symm

/-- The files of every level in the one order that sorting them can give. -/
structure Arranged (v : Version) : Prop where
  level0 : (v.files 0).Pairwise fun a b => b.number < a.number
  deeper : ∀ level, level ≠ 0 → (v.files level).Pairwise fun a b => a.smallestKey < b.smallestKey

theorem arranged_of_good {v : Version} {loose : Prop} (h : v.Good loose) : Arranged v := by
  refine ⟨h.level0, fun level hlevel => ?_⟩
  refine (List.Pairwise.and_mem.mp (h.disjoint hlevel)).imp ?_
  intro a b hab
  exact lt_of_le_of_lt (h.sound level a hab.1).smallest_le_largest hab.2.2

theorem eq_of_sorted {le lt : FileMetaData → FileMetaData → Prop} {sorted files : List FileMetaData}
    (hperm : sorted.Perm (files.map bare)) (hsorted : sorted.Pairwise le)
    (hfiles : files.Pairwise lt) (hbare : ∀ a b, le (bare a) (bare b) ↔ le a b)
    (hlt : ∀ a b, lt a b ↔ le a b ∧ ¬ le b a) : sorted = files.map bare := by
  refine hperm.eq_of_pairwise ?_ hsorted ?_
  · intro a b ha hb hab hba
    obtain ⟨x, hx, rfl⟩ := List.mem_map.mp (hperm.mem_iff.mp ha)
    obtain ⟨y, hy, rfl⟩ := List.mem_map.mp hb
    rw [hbare] at hab hba
    by_cases hne : x = y
    · rw [hne]
    · have : Std.Symm fun x y => lt x y ∨ lt y x := ⟨fun _ _ => Or.symm⟩
      have heither : files.Pairwise fun x y => lt x y ∨ lt y x := hfiles.imp Or.inl
      have hor := heither.forall hx hy hne
      rcases hor with hlt' | hlt'
      · exact absurd hba ((hlt x y).mp hlt').2
      · exact absurd hab ((hlt y x).mp hlt').2
  · rw [List.pairwise_map]
    exact hfiles.imp fun {a b} h => (hbare a b).mpr ((hlt a b).mp h).1

theorem sort_files {r : Recovery} {v : Version} (hlists : r.Lists v) (harranged : Arranged v)
    (level : Fin kNumLevels) : r.version.sort.files level = (v.files level).map bare := by
  have hperm := (Version.perm_sort r.version level).trans (hlists level)
  by_cases hlevel : level = 0
  · subst hlevel
    refine eq_of_sorted hperm (Version.sort_descending _) harranged.level0 (fun _ _ => Iff.rfl) ?_
    intro a b
    omega
  · refine eq_of_sorted hperm (Version.sort_ascending _ hlevel) (harranged.deeper level hlevel)
      (fun _ _ => Iff.rfl) ?_
    intro a b
    exact lt_iff_le_not_ge

theorem install_current {r : Recovery} {v : Version} {loose : Prop} (vs : VersionSet)
    (hlists : r.Lists v) (hgood : v.Good loose) {dir : Dir} (hstored : ∀ f ∈ v.allFiles, f.Stored dir) :
    (vs.install dir (fun _ => none) r).current = v := by
  have hopened : ∀ f ∈ v.allFiles, (bare f).withReader dir (fun _ => none) = f := by
    intro f hf
    obtain ⟨reader, hreader, hopen⟩ := hstored f hf
    have hbare : (bare f).openReader dir (fun _ => none) = .ok reader := hopen
    rw [FileMetaData.withReader, hbare, Except.toOption, ← hreader]
    rfl
  refine congrArg Version.mk (funext fun level => ?_)
  rw [sort_files hlists (arranged_of_good hgood), List.map_map]
  exact (List.map_congr_left fun f hf =>
    hopened f (Version.mem_allFiles.mpr ⟨level, hf⟩)).trans (List.map_id _)

theorem recover_named {dir : Dir} {number : Nat} {bytes : Bytes} {records : List Entry}
    {status : Status} {r : Recovery} (hcurrent : dir.lookup .current = some (currentText number))
    (hbytes : dir.lookup (.manifest number) = some bytes)
    (hread : WalReader.readAll ⟨true, bytes, 0⟩ = (records, .status status))
    (hreplay : replayEdits {} records = some (.ok r)) (vs : VersionSet) :
    vs.recover dir (fun _ => none) = some (.ok, vs.install dir (fun _ => none) r) := by
  have hreader : manifestReader dir (fun _ => none) (manifestName number) = ⟨true, bytes, 0⟩ := by
    rw [manifestReader, resolve_manifestName, hbytes]
    rfl
  have hname : manifestName number ≠ [] := by simp [manifestName, ascii]
  unfold VersionSet.recover
  simp only [currentLine_currentText hcurrent, if_neg hname, hreader, hread, hreplay]

/-- `CURRENT` names a manifest whose records, in front of a torn tail, give the
recovery. -/
structure Recorded (dir : Dir) (number : Nat) (torn : Bytes) (r : Recovery) : Prop where
  current : dir.lookup .current = some (currentText number)
  manifest : ∃ records, dir.lookup (.manifest number) = some (walFrames records ++ torn) ∧
    (∀ e ∈ records, e.Fits) ∧ replayEdits {} records = some (.ok r)

namespace Recorded

variable {dir : Dir} {number : Nat} {torn : Bytes} {r : Recovery}

theorem recover (h : Recorded dir number torn r) (htorn : TornTail torn) (vs : VersionSet) :
    vs.recover dir (fun _ => none) = some (.ok, vs.install dir (fun _ => none) r) := by
  obtain ⟨records, hbytes, hfits, hreplay⟩ := h.manifest
  obtain ⟨status, hread⟩ := readAll_torn hfits htorn
  exact recover_named h.current hbytes hread hreplay vs

theorem of_lookup (h : Recorded dir number torn r) {left : Dir}
    (hcurrent : left.lookup .current = dir.lookup .current)
    (hmanifest : left.lookup (.manifest number) = dir.lookup (.manifest number)) :
    Recorded left number torn r := by
  refine ⟨hcurrent.trans h.current, ?_⟩
  rw [hmanifest]
  exact h.manifest

theorem extend (h : Recorded dir number [] r) (torn : Bytes) :
    Recorded (extend dir (.manifest number) torn) number torn r := by
  obtain ⟨records, hbytes, hrest⟩ := h.manifest
  rw [List.append_nil] at hbytes
  refine ⟨?_, records, lookup_extend_self hbytes, hrest⟩
  rw [lookup_extend_other (by simp)]
  exact h.current

theorem after {edit : VersionEdit} {r' : Recovery}
    (h : Recorded dir number (walFrame (manifestEntry edit)) r) (hafter : r.After edit r')
    (hsmall : (walPayload (manifestEntry edit)).length ≤ kMaxRecordSize) :
    Recorded dir number [] r' := by
  obtain ⟨records, hbytes, hfits, hreplay⟩ := h.manifest
  refine ⟨h.current, records ++ [manifestEntry edit], ?_, ?_, ?_⟩
  · rw [hbytes, walFrames_append, walFrames_singleton, List.append_nil]
  · intro e he
    rcases List.mem_append.mp he with he | he
    · exact hfits e he
    · rw [List.mem_singleton.mp he]
      exact ⟨by simp [manifestEntry], hsmall⟩
  · rw [replayEdits_append hreplay]
    exact hafter.replay

end Recorded

theorem filter_levels (v : Version) (level : Fin kNumLevels) :
    (((List.finRange kNumLevels).flatMap fun l => (v.files l).map fun f => (l.val, f)).filter
      fun item => item.1 = level.val) = (v.files level).map fun f => (level.val, f) := by
  have hone : ∀ l : Fin kNumLevels, ((v.files l).map fun f => (l.val, f)).filter
      (fun item => decide (item.1 = level.val)) =
      if l = level then (v.files level).map fun f => (level.val, f) else [] := by
    intro l
    by_cases hl : l = level
    · subst hl
      simp
    · have hval : l.val ≠ level.val := fun h => hl (Fin.ext h)
      simp [List.filter_map, hl, Function.comp_def, hval]
  obtain ⟨before, after, hsplit⟩ := List.append_of_mem (List.mem_finRange level)
  have hnodup := List.nodup_finRange kNumLevels
  rw [hsplit, List.nodup_append, List.nodup_cons] at hnodup
  obtain ⟨_, ⟨hafter, _⟩, hbefore⟩ := hnodup
  have hnone : ∀ levels : List (Fin kNumLevels), level ∉ levels →
      (levels.flatMap fun l => if l = level then (v.files level).map fun f => (level.val, f)
        else []) = [] := by
    intro levels hlevels
    rw [List.flatMap_eq_nil_iff]
    intro l hl
    rw [if_neg]
    rintro rfl
    exact hlevels hl
  rw [List.filter_flatMap]
  simp only [hone]
  rw [hsplit, List.flatMap_append, List.flatMap_cons, hnone before fun hl =>
    hbefore level hl level (by simp) rfl, hnone after hafter]
  simp

theorem length_encodeTo_lt {edit : VersionEdit}
    (hsmall : (walPayload (manifestEntry edit)).length ≤ kMaxRecordSize) :
    edit.encodeTo.length < 2 ^ 32 := by
  rw [length_walPayload] at hsmall
  have hvalue : (manifestEntry edit).value.length = edit.encodeTo.length := rfl
  have hlimit : kMaxRecordSize < 2 ^ 32 := by decide
  omega

structure Encodable (vs : VersionSet) : Prop where
  next : vs.nextFileNumber + 1 < 2 ^ 64
  lastSequence : vs.lastSequence < 2 ^ 64
  logNumber : vs.logNumber < 2 ^ 64
  files : ∀ f ∈ vs.current.allFiles, f.number + 1 < 2 ^ 64 ∧ f.fileSize < 2 ^ 64

theorem Encodable.exists_snapshot {vs : VersionSet} (h : vs.Encodable)
    (hsmall : (walPayload (manifestEntry vs.numbered.snapshotEdit)).length ≤ kMaxRecordSize) :
    ∃ r, ({} : Recovery).After vs.numbered.snapshotEdit r ∧ r.Lists vs.current ∧
      vs.nextFileNumber + 1 ≤ r.maxFileNum ∧
      ((∀ f ∈ vs.current.allFiles, f.number < vs.nextFileNumber) →
        r.maxFileNum = vs.nextFileNumber + 1) ∧
      (∀ f ∈ vs.current.allFiles, f.number < r.maxFileNum) ∧
      r.maxSeq = vs.lastSequence ∧ r.logNum = vs.logNumber := by
  have hnew : vs.numbered.snapshotEdit.newFiles =
    (List.finRange kNumLevels).flatMap fun l => (vs.current.files l).map fun f => (l.val, f) := rfl
  have hmem : ∀ item ∈ vs.numbered.snapshotEdit.newFiles,
      item.1 < kNumLevels ∧ item.2 ∈ vs.current.allFiles := by
    intro item hitem
    obtain ⟨level, _, hlevel⟩ := List.mem_flatMap.mp hitem
    obtain ⟨f, hf, rfl⟩ := List.mem_map.mp hlevel
    exact ⟨level.isLt, Version.mem_allFiles.mpr ⟨level, hf⟩⟩
  have hfit : vs.numbered.snapshotEdit.FieldsFit := by
    constructor
    · rintro text ⟨⟩
      decide
    · rintro n ⟨⟩
      exact h.logNumber
    · rintro n ⟨⟩
      exact h.next
    · rintro n ⟨⟩
      exact h.lastSequence
    · intro file hfile
      cases hfile
    · intro item hitem
      obtain ⟨hlevel, hfile⟩ := hmem item hitem
      obtain ⟨hnumber, hsize⟩ := h.files _ hfile
      exact fileFits (length_encodeTo_lt hsmall) hitem hlevel (by omega) hsize
  obtain ⟨r, hafter⟩ := Recovery.exists_after {} hfit (fun item hitem => (hmem item hitem).1)
    fun item hitem => (h.files _ (hmem item hitem).2).1
  have hcounter : max ({} : Recovery).maxFileNum
      (vs.numbered.snapshotEdit.nextFileNumber.getD 0) = vs.nextFileNumber + 1 := Nat.zero_max _
  refine ⟨r, hafter, fun level => ?_, ?_, ?_, ?_, ?_, ?_⟩
  · rw [hafter.files level, hnew, filter_levels vs.current level, List.map_map]
    exact List.Perm.refl _
  · rw [← hcounter]
    exact hafter.least
  · intro hbelow
    rw [hafter.maxFileNum, hcounter]
    intro item hitem
    rw [hcounter]
    exact Nat.lt_succ_of_lt (hbelow _ (hmem item hitem).2)
  · intro f hf
    obtain ⟨level, hlevel⟩ := Version.mem_allFiles.mp hf
    apply hafter.numbers (level.val, f)
    rw [hnew]
    exact List.mem_flatMap.mpr ⟨level, List.mem_finRange level, List.mem_map_of_mem hlevel⟩
  · rw [hafter.maxSeq]
    exact Nat.zero_max _
  · rw [hafter.logNum]
    rfl

/-- The fields of an edit are those of its type, at the levels there are. -/
structure Storable (edit : VersionEdit) : Prop where
  logNumber : ∀ n, edit.logNumber = some n → n < 2 ^ 64
  nextFileNumber : ∀ n, edit.nextFileNumber = some n → n < 2 ^ 64
  lastSequence : ∀ n, edit.lastSequence = some n → n < 2 ^ 64
  deletedFiles : ∀ file ∈ edit.deletedFiles, file.1 < kNumLevels ∧ file.2 < 2 ^ 64
  newFiles : ∀ item ∈ edit.newFiles,
    item.1 < kNumLevels ∧ item.2.number + 1 < 2 ^ 64 ∧ item.2.fileSize < 2 ^ 64

theorem length_comparator_le {edit : VersionEdit} {text : Bytes}
    (h : edit.comparatorName = some text) : text.length ≤ edit.encodeTo.length := by
  simp only [encodeTo, h, encodeComparator, encodeString, List.length_append, List.length_cons]
  omega

theorem Storable.exists_after {edit : VersionEdit} (h : Storable edit) {vs : VersionSet}
    (hnext : vs.nextFileNumber < 2 ^ 64) (hseq : vs.lastSequence < 2 ^ 64)
    (hsmall : (walPayload (manifestEntry (vs.completeEdit edit))).length ≤ kMaxRecordSize)
    (r : Recovery) : ∃ r', r.After (vs.completeEdit edit) r' := by
  have hfit : (vs.completeEdit edit).FieldsFit := by
    constructor
    · intro text htext
      exact lt_of_le_of_lt (length_comparator_le htext) (length_encodeTo_lt hsmall)
    · exact h.logNumber
    · rintro n ⟨⟩
      cases hfield : edit.nextFileNumber with
      | none => exact hnext
      | some number => exact h.nextFileNumber number hfield
    · rintro n ⟨⟩
      cases hfield : edit.lastSequence with
      | none => exact hseq
      | some number => exact h.lastSequence number hfield
    · intro file hfile
      obtain ⟨hlevel, hnumber⟩ := h.deletedFiles file hfile
      exact ⟨lt_trans hlevel (by decide), hnumber⟩
    · intro item hitem
      obtain ⟨hlevel, hnumber, hsize⟩ := h.newFiles item hitem
      exact fileFits (length_encodeTo_lt hsmall) hitem hlevel (by omega) hsize
  exact r.exists_after hfit (fun item hitem => (h.newFiles item hitem).1)
    fun item hitem => (h.newFiles item hitem).2.1

/-- The counters and the files of a version set fit into the fields of a record. -/
structure Bounded (vs : VersionSet) : Prop where
  next : vs.nextFileNumber ≤ 2 ^ 63
  lastSequence : vs.lastSequence < 2 ^ 64
  logNumber : vs.logNumber < 2 ^ 63
  numbers : ∀ f ∈ vs.current.allFiles, f.number < vs.nextFileNumber
  sizes : ∀ f ∈ vs.current.allFiles, f.fileSize < 2 ^ 64

theorem Bounded.encodable {vs : VersionSet} (h : vs.Bounded) : vs.Encodable := by
  have hnext := h.next
  have hlog := h.logNumber
  refine ⟨by omega, h.lastSequence, by omega, fun f hf => ⟨?_, h.sizes f hf⟩⟩
  have hnumber := h.numbers f hf
  omega

theorem snapshot_after {vs : VersionSet} (h : vs.Bounded)
    (hsmall : (walPayload (manifestEntry vs.numbered.snapshotEdit)).length ≤ kMaxRecordSize) :
    ∃ r, ({} : Recovery).After vs.numbered.snapshotEdit r ∧ r.Lists vs.current ∧
      r.maxFileNum = vs.nextFileNumber + 1 ∧ r.maxSeq = vs.lastSequence ∧
      r.logNum = vs.logNumber := by
  obtain ⟨r, hafter, hlists, _, hmaxFile, _, hmaxSeq, hlogNum⟩ := h.encodable.exists_snapshot hsmall
  exact ⟨r, hafter, hlists, hmaxFile h.numbers, hmaxSeq, hlogNum⟩

structure Loggable (vs : VersionSet) (edit : VersionEdit) : Prop where
  comparatorName : edit.comparatorName = none
  nextFileNumber : edit.nextFileNumber = none
  lastSequence : edit.lastSequence = none
  logNumber : ∀ n, edit.logNumber = some n → n < 2 ^ 63
  deletedFiles : ∀ file ∈ edit.deletedFiles, file.1 < kNumLevels ∧ file.2 < vs.nextFileNumber
  newFiles : ∀ item ∈ edit.newFiles,
    item.1 < kNumLevels ∧ item.2.number < vs.nextFileNumber ∧ item.2.fileSize < 2 ^ 64

theorem Loggable.storable {vs : VersionSet} {edit : VersionEdit} (h : vs.Loggable edit)
    (hnext : vs.nextFileNumber ≤ 2 ^ 63) : Storable edit := by
  constructor
  · intro n hn
    exact lt_trans (h.logNumber n hn) (by decide)
  · intro n hn
    cases h.nextFileNumber.symm.trans hn
  · intro n hn
    cases h.lastSequence.symm.trans hn
  · intro file hfile
    obtain ⟨hlevel, hnumber⟩ := h.deletedFiles file hfile
    exact ⟨hlevel, by omega⟩
  · intro item hitem
    obtain ⟨hlevel, hnumber, hsize⟩ := h.newFiles item hitem
    exact ⟨hlevel, by omega, hsize⟩

theorem Loggable.exists_after {vs : VersionSet} {edit : VersionEdit} (h : vs.Loggable edit)
    (hbounded : vs.Bounded) (hsmall : (walPayload (manifestEntry (vs.completeEdit edit))).length ≤
      kMaxRecordSize) (r : Recovery) :
    ∃ r', r.After (vs.completeEdit edit) r' ∧
      r'.maxFileNum = max r.maxFileNum vs.nextFileNumber ∧
      r'.maxSeq = max r.maxSeq vs.lastSequence ∧ r'.logNum = edit.logNumber.getD r.logNum := by
  have hnext := hbounded.next
  have hnextField : (vs.completeEdit edit).nextFileNumber = some vs.nextFileNumber := by
    simp [completeEdit, h.nextFileNumber]
  have hseqField : (vs.completeEdit edit).lastSequence = some vs.lastSequence := by
    simp [completeEdit, h.lastSequence]
  obtain ⟨r', hafter⟩ := (h.storable hnext).exists_after (by omega) hbounded.lastSequence hsmall r
  refine ⟨r', hafter, ?_, ?_, hafter.logNum⟩
  · rw [hafter.maxFileNum, hnextField, Option.getD_some]
    intro item hitem
    rw [hnextField]
    exact lt_of_lt_of_le (h.newFiles item hitem).2.1 (le_max_right _ _)
  · rw [hafter.maxSeq, hseqField, Option.getD_some]

theorem Switched.recorded {vs : VersionSet} {dir left : Dir} {more : Bytes} {r : Recovery}
    (h : vs.Switched dir more left)
    (hfresh : (dir.lookup (.manifest vs.nextFileNumber)).getD [] = [])
    (hsmall : (walPayload (manifestEntry vs.numbered.snapshotEdit)).length ≤ kMaxRecordSize)
    (hafter : ({} : Recovery).After vs.numbered.snapshotEdit r) :
    Recorded left vs.nextFileNumber more r := by
  obtain ⟨hsame, hnamed⟩ := h
  refine ⟨hnamed, [manifestEntry vs.numbered.snapshotEdit], ?_, ?_, hafter.replay⟩
  · rw [hsame _ (by simp) (by simp), lookup_extend_self lookup_touch_self, hfresh,
      walFrames_singleton]
    rfl
  · intro e he
    rw [List.mem_singleton.mp he]
    exact ⟨by simp [manifestEntry], hsmall⟩

end VersionSet

/-! The edit of a compaction. -/

namespace Compaction

open VersionSet

variable {c : Compaction} {vs : VersionSet} {outputs : List FileMetaData} {next : Nat}

theorem edit_loggable (hcovers : c.Covers vs.current) (hbounded : vs.Bounded)
    (hnext : vs.nextFileNumber ≤ next)
    (houtputs : ∀ f ∈ outputs, f.number < next ∧ f.fileSize < 2 ^ 64) :
    ({ vs with nextFileNumber := next } : VersionSet).Loggable (c.edit outputs) := by
  obtain ⟨deleted, hedit⟩ := c.edit_eq outputs
  have hinput : ∀ {level f}, c.Takes level f → level.val < kNumLevels ∧ f.number < next := by
    intro level f htakes
    have hmem := Version.mem_allFiles.mpr ⟨level, hcovers.mem_files htakes⟩
    exact ⟨level.isLt, lt_of_lt_of_le (hbounded.numbers f hmem) hnext⟩
  constructor
  · rw [hedit]
  · rw [hedit]
  · rw [hedit]
  · intro n hn
    rw [hedit] at hn
    cases hn
  · intro file hfile
    simp only [edit, foldl_addFile, mem_foldl_deleteFile, List.not_mem_nil, false_or] at hfile
    rcases hfile with ⟨f, hf, rfl⟩ | ⟨f, hf, rfl⟩
    · exact hinput (Or.inl ⟨rfl, hf⟩)
    · exact hinput (Or.inr ⟨rfl, hf⟩)
  · intro item hitem
    rw [newFiles_edit] at hitem
    obtain ⟨f, hf, rfl⟩ := List.mem_map.mp hitem
    exact ⟨c.target.isLt, houtputs f hf⟩

theorem logNumber_edit (c : Compaction) (outputs : List FileMetaData) :
    (c.edit outputs).logNumber = none := by
  obtain ⟨deleted, hedit⟩ := c.edit_eq outputs
  rw [hedit]

end Compaction

end Strata

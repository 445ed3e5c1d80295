import Strata.Attached

/-! The directory of a store: its tables and its logs beside the manifest, and
what each kind of step makes of them. -/
namespace Strata

open Library System Layers VersionSet

variable {loose : Prop} {dir left : Dir} {r r' : Recovery} {v v' : Version}
  {logs newer : List (Nat × List Entry)} {f : FileMetaData}

theorem FileMetaData.Stored.of_lookup (h : f.Stored dir)
    (hsame : left.lookup (.table f.number) = dir.lookup (.table f.number)) : f.Stored left := by
  obtain ⟨reader, hreader, hopen⟩ := h
  exact ⟨reader, hreader, hsame.symm ▸ hopen⟩

/-- A log file: whole records, and behind them what a kill left of another. -/
structure LogFile (dir : Dir) (number : Nat) (records : List Entry) : Prop where
  small : number < 2 ^ 63
  fits : ∀ e ∈ records, e.Fits
  bytes : ∃ torn, dir.lookup (.log number) = some (walFrames records ++ torn) ∧ TornTail torn

theorem LogFile.of_lookup {number : Nat} {records : List Entry} (h : LogFile dir number records)
    (hsame : left.lookup (.log number) = dir.lookup (.log number)) :
    LogFile left number records :=
  ⟨h.small, h.fits, hsame.symm ▸ h.bytes⟩

/-- What a directory holds of a version and of the logs over it, the oldest log
first: the logs from the recorded number on, and no others. -/
structure Holds (loose : Prop) (dir : Dir) (r : Recovery) (v : Version)
    (logs : List (Nat × List Entry)) : Prop where
  stacked : Stacked loose (logs.map Prod.snd) v
  stored : ∀ f ∈ v.allFiles, f.Stored dir
  numbers : ∀ f ∈ v.allFiles, f.number < r.maxFileNum
  seqs : ∀ f ∈ v.allFiles, ∀ e ∈ f.entries, e.seq ≤ r.maxSeq
  ascending : logs.Pairwise fun a b => a.1 < b.1
  listed : ∀ log ∈ logs, r.logNum ≤ log.1 ∧ LogFile dir log.1 log.2
  counted : ∀ n, r.logNum ≤ n → (dir.lookup (.log n)).isSome → ∃ log ∈ logs, log.1 = n
  stale : ∀ n, r.maxFileNum ≤ n → (dir.lookup (.log n)).isSome → r.logNum ≤ n
  known : ∀ text, dir.lookup (.other text) = none

namespace Holds

variable (h : Holds loose dir r v logs)

include h in
theorem frame (hlogs : ∀ n, left.lookup (.log n) = dir.lookup (.log n))
    (htables : ∀ f ∈ v.allFiles, left.lookup (.table f.number) = dir.lookup (.table f.number))
    (hother : ∀ text, left.lookup (.other text) = dir.lookup (.other text)) :
    Holds loose left r v logs := by
  constructor
  · exact h.stacked
  · exact fun f hf => (h.stored f hf).of_lookup (htables f hf)
  · exact h.numbers
  · exact h.seqs
  · exact h.ascending
  · exact fun log hlog => ⟨(h.listed log hlog).1, (h.listed log hlog).2.of_lookup (hlogs log.1)⟩
  · intro n hn hsome
    rw [hlogs] at hsome
    exact h.counted n hn hsome
  · intro n hn hsome
    rw [hlogs] at hsome
    exact h.stale n hn hsome
  · intro text
    rw [hother]
    exact h.known text

include h in
theorem onlyManifests (hframe : OnlyManifests dir left) : Holds loose left r v logs :=
  h.frame hframe.log (fun f _ => hframe.table f.number) hframe.other

include h in
theorem onlyTables {least : Nat} (hleast : r.maxFileNum ≤ least)
    (hframe : OnlyTables least dir left) : Holds loose left r v logs := by
  apply h.frame
  · exact fun n => hframe _ (by simp)
  · intro f hf
    apply hframe
    rintro number hnumber heq
    have hlt := h.numbers f hf
    have hsame : f.number = number := by simpa using heq
    omega
  · exact fun text => hframe _ (by simp)

include h in
theorem grow (hmax : r.maxFileNum ≤ r'.maxFileNum) (hseq : r.maxSeq ≤ r'.maxSeq)
    (hlogNum : r'.logNum = r.logNum) : Holds loose dir r' v logs := by
  constructor
  · exact h.stacked
  · exact h.stored
  · exact fun f hf => lt_of_lt_of_le (h.numbers f hf) hmax
  · exact fun f hf e he => le_trans (h.seqs f hf e he) hseq
  · exact h.ascending
  · rw [hlogNum]
    exact h.listed
  · rw [hlogNum]
    exact h.counted
  · intro n hn hsome
    rw [hlogNum]
    exact h.stale n (le_trans hmax hn) hsome
  · exact h.known

include h in
theorem mono {looser : Prop} (himp : loose → looser) : Holds looser dir r v logs :=
  { h with stacked := h.stacked.mono himp }

include h in
theorem with_version (hstacked : Stacked loose (logs.map Prod.snd) v')
    (hfiles : ∀ f ∈ v'.allFiles, f.Stored dir ∧ f.number < r.maxFileNum ∧
      ∀ e ∈ f.entries, e.seq ≤ r.maxSeq) : Holds loose dir r v' logs :=
  { h with
    stacked := hstacked
    stored := fun f hf => (hfiles f hf).1
    numbers := fun f hf => (hfiles f hf).2.1
    seqs := fun f hf => (hfiles f hf).2.2 }

end Holds

structure Disk (loose : Prop) (dir : Dir) (m : Nat) (torn : Bytes) (r : Recovery) (v : Version)
    (logs : List (Nat × List Entry)) : Prop extends Holds loose dir r v logs where
  recorded : Recorded dir m torn r
  tail : TornTail torn
  lists : r.Lists v
  manifest : m < r.maxFileNum
  maxFileNum : r.maxFileNum ≤ 2 ^ 63
  maxSeq : r.maxSeq < 2 ^ 64
  logNum : r.logNum < 2 ^ 63

def SameManifests (before after : Dir) : Prop :=
  after.lookup .current = before.lookup .current ∧
    ∀ n, after.lookup (.manifest n) = before.lookup (.manifest n)

theorem OnlyTables.sameManifests {least : Nat} (h : OnlyTables least dir left) :
    SameManifests dir left :=
  ⟨h _ (by simp), fun n => h _ (by simp)⟩

theorem VersionSet.Recovery.Fresh.of_same (h : r.Fresh dir) (hsame : SameManifests dir left) :
    r.Fresh left := by
  intro n hn
  rw [hsame.2]
  exact h n hn

namespace VersionSet.Attached

variable {vs : VersionSet} {m : Nat} {torn : Bytes} (h : vs.Attached dir m torn r)

include h in
theorem of_same (hsame : SameManifests dir left) : vs.Attached left m torn r :=
  { h with
    recorded := h.recorded.of_lookup hsame.1 (hsame.2 m)
    fresh := h.fresh.of_same hsame }

include h in
theorem advance {next seq : Nat} (hnext : vs.nextFileNumber ≤ next) (hlimit : next ≤ 2 ^ 63)
    (hseq : vs.lastSequence ≤ seq) (hsmall : seq < 2 ^ 64) :
    ({ vs with nextFileNumber := next, lastSequence := seq } : VersionSet).Attached dir m torn r :=
  { h with
    next := le_trans h.next hnext
    maxSeq := le_trans h.maxSeq hseq
    bounded := { h.bounded with
      next := hlimit
      lastSequence := hsmall
      numbers := fun f hf => lt_of_lt_of_le (h.bounded.numbers f hf) hnext } }

include h in
theorem disk (hholds : Holds loose dir r vs.current logs) :
    Disk loose dir m torn r vs.current logs := by
  have hnext := h.bounded.next
  have hcounters := h.next
  constructor
  · exact hholds
  · exact h.recorded
  · exact h.tail
  · exact h.lists
  · exact h.manifest
  · omega
  · exact lt_of_le_of_lt h.maxSeq h.bounded.lastSequence
  · rw [h.logNum]
    exact h.bounded.logNumber

end VersionSet.Attached

def Leads (vs : VersionSet) (edit : VersionEdit) (dir : Dir) (loose : Prop)
    (logs : List (Nat × List Entry)) : Prop :=
  ∀ r' : Recovery, vs.nextFileNumber ≤ r'.maxFileNum → r'.maxSeq = vs.lastSequence →
    r'.logNum = edit.logNumber.getD vs.logNumber →
    Holds loose dir r' (vs.installEdit (vs.completeEdit edit) dir fun _ => none) logs

section Amending

variable {vs : VersionSet} {m m' : Nat} {torn torn' : Bytes} {edit : VersionEdit}
  (ham : Amending vs edit dir m r left m' torn' r') (h : vs.Attached dir m torn r)

include ham h in
theorem VersionSet.Amending.old (hholds : Holds loose dir r vs.current logs)
    (hwhich : r'.Lists vs.current ∧ r'.logNum = vs.logNumber) :
    Disk loose left m' torn' r' vs.current logs := by
  obtain ⟨hlists, hlogNum⟩ := hwhich
  have hsmall : r'.maxSeq < 2 ^ 64 := lt_of_le_of_lt ham.maxSeq.2 h.bounded.lastSequence
  refine ⟨?_, ham.recorded, ham.tail, hlists, ham.manifest, ham.maxFileNum.2, hsmall, ?_⟩
  · exact (hholds.grow ham.maxFileNum.1 ham.maxSeq.1 (hlogNum.trans h.logNum.symm)).onlyManifests
      ham.frame
  · rw [hlogNum]
    exact h.bounded.logNumber

include ham h in
theorem VersionSet.Amending.new (hedit : vs.Loggable edit) (hleads : Leads vs edit dir loose newer)
    (hwhich : r'.Lists (vs.installEdit (vs.completeEdit edit) dir fun _ => none) ∧
      r'.logNum = edit.logNumber.getD vs.logNumber ∧ vs.nextFileNumber ≤ r'.maxFileNum ∧
      r'.maxSeq = vs.lastSequence) :
    Disk loose left m' torn' r' (vs.installEdit (vs.completeEdit edit) dir fun _ => none) newer := by
  obtain ⟨hlists, hlogNum, hnext, hmaxSeq⟩ := hwhich
  have hsmall : r'.maxSeq < 2 ^ 64 := lt_of_le_of_lt ham.maxSeq.2 h.bounded.lastSequence
  refine ⟨?_, ham.recorded, ham.tail, hlists, ham.manifest, ham.maxFileNum.2, hsmall, ?_⟩
  · exact (hleads r' hnext hmaxSeq hlogNum).onlyManifests ham.frame
  · rw [hlogNum]
    cases hlog : edit.logNumber with
    | none => exact h.bounded.logNumber
    | some n => exact hedit.logNumber n hlog

include ham h in
theorem VersionSet.Amending.fresh (hsome : vs.descriptorLog ≠ none) : r'.Fresh left := by
  intro n hn
  have hm := h.manifest
  have hgrow := ham.maxFileNum.1
  rw [ham.others hsome n (by omega)]
  exact h.fresh n (by omega)

end Amending

theorem VersionSet.Amended.holds {vs : VersionSet} {edit : VersionEdit} {looser : Prop}
    {result : Status × VersionSet} {after : Dir} {m' : Nat}
    (ham : Amended vs edit dir result after m' r') (hleads : Leads vs edit dir looser newer) :
    Holds looser after r' result.2.current newer := by
  rw [ham.current]
  apply (hleads r' (ham.saved.1 ▸ ham.next) ham.saved.2 _).onlyManifests ham.frame
  rw [ham.attached.logNum, ham.logNumber]

end Strata

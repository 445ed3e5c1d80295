import Strata.DBImpl
import Strata.Manifest

/-! The Level 0 table that a memtable becomes. -/
namespace Strata

open Library System

variable {assume : Assume FileName} {dir : Dir} {C : Dir → Prop}

/-- When no call fails the table holds the entries of the memtable, and what is
left to go wrong is opening it. -/
theorem writeLevel0Table_ok (hnofail : assume.NoFail) (options : Options) (vs : VersionSet)
    (mem : Memtable) (hcrash : C dir)
    (hpart : ∀ bytes, C (dir.insert (.table vs.nextFileNumber) bytes)) :
    Runs assume dir (writeLevel0Table options vs mem)
      (fun result after => result.2 = { vs with nextFileNumber := vs.nextFileNumber + 1 } ∧
        after = dir.insert (.table vs.nextFileNumber) (layoutOf options mem.entries).image ∧
        assume.calls (.create (.table vs.nextFileNumber)) ∧
        SSTableBuilder.Wrote assume (.table vs.nextFileNumber) (layoutOf options mem.entries) ∧
        ∃ faults : Faults, assume.faults faults ∧
          result.1 = (openWritten options mem.entries (faults (.table vs.nextFileNumber))
            vs.nextFileNumber).map (writtenFile options mem.entries vs.nextFileNumber)) C := by
  unfold writeLevel0Table
  simp only [VersionSet.newFileNumber]
  refine Runs.bind (SSTableBuilder.new_writing options (hnofail.file _) hcrash) ?_
  rintro builder after ⟨hname, hcreate, hwriting⟩
  refine Runs.bind (SSTableBuilder.addAll_writing (hnofail.file _) mem.entries hwriting (hname ▸ hpart)) ?_
  rintro full middle ⟨hname', hfull⟩
  rw [List.nil_append] at hfull
  refine Runs.bind (SSTableBuilder.finish_ok (hnofail.file _) hfull (by rw [hname', hname]; exact hpart)) ?_
  rintro ⟨status, done⟩ last ⟨rfl, hsize, hsmallest, hlargest, rfl, hwrote⟩
  rw [hname', hname] at hwrote ⊢
  simp only at hsize hsmallest hlargest
  simp only [Status.isOk, Bool.not_true, Bool.false_eq_true, ↓reduceIte]
  refine Runs.bind (Runs.readDir (Q := fun seen now => seen = dir.insert
    (.table vs.nextFileNumber) (layoutOf options mem.entries).image ∧ now = seen) ⟨rfl, rfl⟩) ?_
  rintro seen now ⟨rfl, rfl⟩
  refine Runs.bind (Runs.readFaults (Q := fun faults now => assume.faults faults ∧
    now = dir.insert (.table vs.nextFileNumber) (layoutOf options mem.entries).image)
    fun faults hfaults => ⟨hfaults, rfl⟩) ?_
  rintro faults now ⟨hfaults, rfl⟩
  simp only [lookup_insert_self, hsize]
  cases hopen : openWritten options mem.entries (faults (.table vs.nextFileNumber))
      vs.nextFileNumber with
  | error status =>
    rw [openWritten] at hopen
    simp only [hopen]
    exact Runs.ret ⟨rfl, rfl, hcreate, hwrote, faults, hfaults, by rw [openWritten, hopen]; rfl⟩
  | ok reader =>
    rw [openWritten] at hopen
    simp only [hopen]
    refine Runs.bind (syncDirectory_ok hnofail (hpart _)) ?_
    rintro status now ⟨rfl, rfl⟩
    refine Runs.ret ⟨rfl, rfl, hcreate, hwrote, faults, hfaults, ?_⟩
    rw [openWritten, hopen]
    simp only [SSTableBuilder.metaData, hsize, hsmallest, hlargest]
    rfl

end Strata

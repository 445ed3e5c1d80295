import Strata.Sources

/-! What edits do to the files of a version, and how an edit goes through a
manifest and back. -/
namespace Strata

open Library System Layers Memtable

namespace Version

variable {v : Version} {loose : Prop} {level : Fin kNumLevels} {f : FileMetaData}

theorem files_addFiles (v : Version) (items : List (Nat × FileMetaData)) (level : Fin kNumLevels) :
    (v.addFiles items).files level =
      v.files level ++ (items.filter fun item => item.1 = level.val).map Prod.snd := by
  induction items generalizing v with
  | nil => simp [addFiles]
  | cons item rest ih =>
    have hstep : v.addFiles (item :: rest) = (v.pushFile item.1 item.2).addFiles rest := rfl
    rw [hstep, ih]
    by_cases hlevel : level.val = item.1
    · simp [pushFile, hlevel]
    · have hlevel' : ¬ item.1 = level.val := fun h => hlevel h.symm
      simp [pushFile, hlevel, hlevel']

theorem perm_sort (v : Version) (level : Fin kNumLevels) :
    (v.sort.files level).Perm (v.files level) := by
  simp only [sort]
  split
  · exact List.perm_insertionSort _ _
  · exact List.perm_insertionSort _ _

theorem Sane.of_perm {v' : Version} (h : v.Sane loose)
    (hperm : ∀ level, (v'.files level).Perm (v.files level)) : v'.Sane loose := by
  have hmem : ∀ level f, f ∈ v'.files level → f ∈ v.files level := fun level f hf =>
    (hperm level).mem_iff.mp hf
  constructor
  · exact fun level f hf => h.sound level f (hmem _ _ hf)
  · exact fun level => (hperm level).nodup_iff.mpr (h.nodup level)
  · exact fun i j x hx y hy => h.unique i j x (hmem _ _ hx) y (hmem _ _ hy)
  · exact fun level hlevel x hx y hy => h.apart level hlevel x (hmem _ _ hx) y (hmem _ _ hy)
  · exact fun x hx y hy => h.recent0 x (hmem _ _ hx) y (hmem _ _ hy)
  · exact fun i j hij x hx y hy => h.recent i j hij x (hmem _ _ hx) y (hmem _ _ hy)
  · exact fun i j x hx y hy => h.distinct i j x (hmem _ _ hx) y (hmem _ _ hy)

theorem sort_descending (v : Version) :
    (v.sort.files 0).Pairwise fun a b => b.number ≤ a.number := by
  have : Std.Total fun a b : FileMetaData => b.number ≤ a.number :=
    ⟨fun a b => Nat.le_total b.number a.number⟩
  have : IsTrans FileMetaData fun a b => b.number ≤ a.number :=
    ⟨fun _ _ _ hab hbc => Nat.le_trans hbc hab⟩
  exact List.pairwise_insertionSort _ _

theorem sort_ascending (v : Version) (hlevel : level ≠ 0) :
    (v.sort.files level).Pairwise fun a b => a.smallestKey ≤ b.smallestKey := by
  have : Std.Total fun a b : FileMetaData => a.smallestKey ≤ b.smallestKey :=
    ⟨fun a b => le_total a.smallestKey b.smallestKey⟩
  have : IsTrans FileMetaData fun a b => a.smallestKey ≤ b.smallestKey :=
    ⟨fun _ _ _ hab hbc => le_trans hab hbc⟩
  simp only [sort, if_neg hlevel]
  exact List.pairwise_insertionSort _ _

theorem Sane.sort (h : v.Sane loose) : v.sort.Good loose :=
  { h.of_perm (perm_sort v) with
    descending := sort_descending v
    ascending := fun _ hlevel => sort_ascending v hlevel }

end Version

theorem mem_insertDeleted {file x : Nat × Nat} {deleted : List (Nat × Nat)} :
    x ∈ insertDeleted file deleted ↔ x = file ∨ x ∈ deleted := by
  induction deleted with
  | nil => simp [insertDeleted]
  | cons first rest ih =>
    unfold insertDeleted
    split
    · rename_i heq
      simp [heq]
    · split
      · simp
      · rw [List.mem_cons, ih, List.mem_cons]
        exact or_left_comm

theorem FileMetaData.withReader_some {f : FileMetaData} {r : SSTableReader}
    (h : f.reader = some r) (dir : Dir) (faults : Faults) : f.withReader dir faults = f := by
  have hopen : f.openReader dir faults = .ok r := by rw [openReader, h]
  rw [withReader, hopen, Except.toOption, ← h]

theorem FileMetaData.Sound.withReader {f : FileMetaData} (h : f.Sound) (dir : Dir)
    (faults : Faults) : f.withReader dir faults = f := by
  obtain ⟨r, hreader, _⟩ := h.reader
  exact withReader_some hreader dir faults

namespace VersionSet

variable {vs : VersionSet} {edit : VersionEdit} {dir : Dir} {faults : Faults} {loose : Prop}

theorem perm_installEdit (vs : VersionSet) (edit : VersionEdit) (dir : Dir) (faults : Faults)
    (level : Fin kNumLevels) : ((vs.installEdit edit dir faults).files level).Perm
      ((vs.current.files level).filter (fun f => (level.val, f.number) ∉ edit.deletedFiles) ++
        ((edit.newFiles.filter fun item => item.1 = level.val).map fun item =>
          item.2.withReader dir faults)) := by
  refine (Version.perm_sort _ level).trans ?_
  rw [Version.files_addFiles, List.filter_map, List.map_map]
  exact List.Perm.refl _

theorem mem_installEdit {level : Fin kNumLevels} {f : FileMetaData} :
    f ∈ (vs.installEdit edit dir faults).files level ↔
      (f ∈ vs.current.files level ∧ (level.val, f.number) ∉ edit.deletedFiles) ∨
        ∃ item ∈ edit.newFiles, item.1 = level.val ∧ item.2.withReader dir faults = f := by
  rw [(perm_installEdit vs edit dir faults level).mem_iff]
  simp [and_assoc]

theorem installEdit_good (h : (vs.installEdit edit dir faults).Sane loose) :
    (vs.installEdit edit dir faults).Good loose :=
  { h with
    descending := Version.sort_descending _
    ascending := fun _ hlevel => Version.sort_ascending _ hlevel }

end VersionSet

end Strata

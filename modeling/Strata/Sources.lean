import Strata.Library.Layers
import Strata.Merge
import Strata.VersionSet

/-! The store as layers of entries: what a file holds, which versions are in
order, and what a lookup in a version answers. -/
namespace Strata

open Library System Layers Memtable

instance : Ranked Entry Key := ⟨Entry.userKey, Entry.seq, fun e => e.type = kTypeDeletion⟩

theorem topFirst_of_sorted {es : List Entry} (h : Sorted es) : TopFirst es := by
  refine h.imp fun {a b} hnot (hkey : a.userKey = b.userKey) => ?_
  change b.seq ≤ a.seq
  by_contra hlt
  exact hnot (Or.inr ⟨hkey.symm, by omega⟩)

/-! A table's reader shows its entries. -/

theorem Layout.Valid.length_le {l : Layout} {es : List Entry} (h : l.Valid es) :
    es.length ≤ l.image.length := by
  have hblocks : ∀ blocks : List DataBlock, (∀ b ∈ blocks, IsBlock b.1 b.2) →
      (blocks.map Prod.snd).flatten.length ≤ (bodyOf blocks).length := by
    intro blocks hall
    induction blocks with
    | nil => simp
    | cons b rest ih =>
      have hlen := (hall b (by simp)).length_le
      have hrest := ih fun b hb => hall b (by simp [hb])
      simp only [List.map_cons, List.flatten_cons, List.length_append, Layout.bodyOf_cons,
        length_sealBlock]
      omega
  have hbody := hblocks l.blocks fun b hb => (h.blocks b hb).1
  have himage := l.length_image
  rw [← h.entries] at hbody
  omega

theorem SSTableReader.Serves.entries_eq {r : SSTableReader} {es : List Entry} (h : r.Serves es) :
    r.entries = es := by
  refine collect_yields h.yields ?_
  obtain ⟨l, number, hvalid, rfl⟩ := h
  have hlen := hvalid.length_le
  have hsquare := Nat.le_mul_self l.image.length
  change es.length ≤ l.image.length * l.image.length + 1
  omega

theorem SSTableReader.Serves.sorted {r : SSTableReader} {es : List Entry} (h : r.Serves es) :
    Sorted es := by
  obtain ⟨l, number, hvalid, rfl⟩ := h
  exact hvalid.sorted

def FileMetaData.entries (f : FileMetaData) : List Entry :=
  (f.reader.map SSTableReader.entries).getD []

structure FileMetaData.Sound (f : FileMetaData) : Prop where
  reader : ∃ r, f.reader = some r ∧ r.Serves f.entries
  smallest : f.smallestKey = firstKey f.entries
  largest : f.largestKey = lastKey f.entries
  types : ∀ e ∈ f.entries, e.HasType

namespace FileMetaData

variable {f : FileMetaData}

theorem entries_of_serves {r : SSTableReader} {es : List Entry} (hreader : f.reader = some r)
    (h : r.Serves es) : f.entries = es := by
  simp [entries, hreader, h.entries_eq]

theorem Sound.sorted (h : f.Sound) : Sorted f.entries := by
  obtain ⟨r, _, hserves⟩ := h.reader
  exact hserves.sorted

theorem Sound.smallest_le (h : f.Sound) {e : Entry} (he : e ∈ f.entries) :
    f.smallestKey ≤ e.userKey := by
  have hkeys := keysSorted_of_sorted h.sorted
  rw [h.smallest]
  cases hes : f.entries with
  | nil =>
    rw [hes] at he
    cases he
  | cons first rest =>
    rw [hes] at he hkeys
    rcases List.mem_cons.mp he with rfl | he
    · exact le_refl _
    · exact (List.pairwise_cons.mp hkeys).1 e he

theorem Sound.le_largest (h : f.Sound) {e : Entry} (he : e ∈ f.entries) :
    e.userKey ≤ f.largestKey := by
  rw [h.largest]
  exact le_lastKey (keysSorted_of_sorted h.sorted) he

theorem Sound.smallest_le_largest (h : f.Sound) : f.smallestKey ≤ f.largestKey := by
  by_cases hempty : f.entries = []
  · rw [h.smallest, h.largest, hempty]
    exact le_refl _
  · obtain ⟨e, he⟩ := List.exists_mem_of_ne_nil _ hempty
    exact le_trans (h.smallest_le he) (h.le_largest he)

theorem Sound.find_none (h : f.Sound) {key : Key}
    (hrange : key < f.smallestKey ∨ f.largestKey < key) : find key f.entries = none := by
  rw [Layers.find_none]
  rintro x hx rfl
  rcases hrange with hlt | hlt
  · exact absurd (h.smallest_le hx) (not_le.mpr hlt)
  · exact absurd (h.le_largest hx) (not_le.mpr hlt)

theorem Sound.openReader (h : f.Sound) (dir : Dir) (faults : Faults) :
    ∃ r, f.openReader dir faults = .ok r ∧ r.Serves f.entries := by
  obtain ⟨r, hreader, hserves⟩ := h.reader
  exact ⟨r, by rw [FileMetaData.openReader, hreader], hserves⟩

end FileMetaData

namespace Version

variable {dir : Dir} {faults : Faults} {key : Key} {seq : Nat}

def Visible (key : Key) (seq : Nat) (files : List FileMetaData) : Prop :=
  ∀ f ∈ files, ∀ e ∈ f.entries, e.userKey = key → e.seq ≤ seq

def sources (files : List FileMetaData) : List (List Entry) := files.map FileMetaData.entries

theorem sources_append (left right : List FileMetaData) :
    sources (left ++ right) = sources left ++ sources right := List.map_append

theorem getFile_sound {f : FileMetaData} (h : f.Sound)
    (hseq : ∀ e ∈ f.entries, e.userKey = key → e.seq ≤ seq) :
    getFile dir faults key seq f = lookupOf (find key f.entries) := by
  obtain ⟨r, hopen, hserves⟩ := h.openReader dir faults
  rw [getFile, hopen]
  exact hserves.get hseq h.types

theorem lookupOf_append (left right : List (List Entry)) (key : Key) :
    lookupOf (firstHit (left ++ right) key) =
      (lookupOf (firstHit left key)).orElse (lookupOf (firstHit right key)) := by
  simp only [firstHit, List.findSome?_append]
  cases left.findSome? (find key) with
  | none => rfl
  | some e =>
    simp only [Option.some_or, lookupOf]
    split <;> rfl

/-- For this key the file answers like the list of entries, which lie in its range. -/
structure Answers (dir : Dir) (faults : Faults) (key : Key) (seq : Nat) (f : FileMetaData)
    (es : List Entry) : Prop where
  file : getFile dir faults key seq f = lookupOf (find key es)
  outside : key < f.smallestKey ∨ f.largestKey < key → find key es = none

theorem answers_sound {f : FileMetaData} (h : f.Sound)
    (hseq : ∀ e ∈ f.entries, e.userKey = key → e.seq ≤ seq) :
    Answers dir faults key seq f f.entries :=
  ⟨getFile_sound h hseq, h.find_none⟩

variable {files : List FileMetaData} {contents : FileMetaData → List Entry}

theorem getLevel0_eq (h : ∀ f ∈ files, Answers dir faults key seq f (contents f)) :
    getLevel0 dir faults key seq files = lookupOf (firstHit (files.map contents) key) := by
  induction files with
  | nil => rfl
  | cons f rest ih =>
    have hf := h f (by simp)
    have hrest := ih fun g hg => h g (by simp [hg])
    have hsplit : firstHit ((f :: rest).map contents) key =
        firstHit ([contents f] ++ rest.map contents) key := rfl
    have hone : firstHit [contents f] key = find key (contents f) := by
      simp [firstHit]
    rw [hsplit, lookupOf_append, hone]
    unfold getLevel0
    split
    · rename_i hrange
      rw [hf.outside hrange, hrest]
      rfl
    · rw [hf.file, hrest]

def Disjoint (files : List FileMetaData) : Prop :=
  files.Pairwise fun a b => a.largestKey < b.smallestKey

theorem compareFile_eq {index : Nat} (hlt : index < files.length) :
    compareFile files key index = .eq ↔
      files[index].smallestKey ≤ key ∧ key ≤ files[index].largestKey := by
  have hget : files.getD index default = files[index] := by simp [hlt]
  unfold compareFile
  simp only [hget]
  by_cases hbelow : files[index].largestKey < key
  · simp [hbelow]
  · by_cases habove : key < files[index].smallestKey
    · simp [hbelow, habove]
    · simp only [hbelow, habove, ↓reduceIte, true_iff]
      exact ⟨not_lt.mp habove, not_lt.mp hbelow⟩

theorem compareFile_other (h : ∀ f ∈ files, f.smallestKey ≤ f.largestKey)
    (hdisjoint : Disjoint files) {hit : Nat} (hlt : hit < files.length)
    (hrange : files[hit].smallestKey ≤ key ∧ key ≤ files[hit].largestKey) {i : Nat}
    (hi : i < files.length) :
    (i < hit → compareFile files key i = .lt) ∧ (hit < i → compareFile files key i = .gt) := by
  have hget : files.getD i default = files[i] := by simp [hi]
  have hpair := List.pairwise_iff_getElem.mp hdisjoint
  unfold compareFile
  simp only [hget]
  refine ⟨fun hbefore => ?_, fun hafter => ?_⟩
  · rw [if_pos (lt_of_lt_of_le (hpair i hit hi hlt hbefore) hrange.1)]
  · have habove := lt_of_le_of_lt hrange.2 (hpair hit i hlt hi hafter)
    have hrange' := h _ (List.getElem_mem hi)
    rw [if_neg (not_lt.mpr (le_of_lt (lt_of_lt_of_le habove hrange'))), if_pos habove]

theorem getLevel_eq (h : ∀ f ∈ files, Answers dir faults key seq f (contents f))
    (hranges : ∀ f ∈ files, f.smallestKey ≤ f.largestKey) (hdisjoint : Disjoint files) :
    getLevel dir faults key seq files = lookupOf (firstHit (files.map contents) key) := by
  have hout : ∀ i (hi : i < files.length), compareFile files key i ≠ .eq →
      find key (contents files[i]) = none := by
    intro i hi hne
    apply (h _ (List.getElem_mem hi)).outside
    by_contra hrange
    rw [not_or, not_lt, not_lt] at hrange
    exact hne ((compareFile_eq hi).mpr hrange)
  have hlast : (files.length : Int) - 1 < (files.length : Nat) := by omega
  unfold getLevel
  cases hsearch : Search.searchHit (compareFile files key) files.length 0 (files.length - 1) with
  | none =>
    have hnone : firstHit (files.map contents) key = none := by
      rw [firstHit, List.findSome?_eq_none_iff]
      intro es hes
      obtain ⟨f, hf, rfl⟩ := List.mem_map.mp hes
      obtain ⟨i, hi, rfl⟩ := List.mem_iff_getElem.mp hf
      apply hout i hi
      intro heq
      have hother := fun j hj => compareFile_other hranges hdisjoint hi
        ((compareFile_eq hi).mp heq) (i := j) hj
      obtain ⟨index, hfound⟩ := Search.searchHit_complete
        (fun j hj => by rw [(hother j (by omega)).1 hj]; simp)
        (fun j hj (hlt : j < files.length) => by rw [(hother j hlt).2 hj]; simp) heq files.length 0
        (files.length - 1) (by omega) hlast (by omega) (by omega)
      rw [hsearch] at hfound
      cases hfound
    rw [hnone]
    rfl
  | some index =>
    obtain ⟨hlt, heq⟩ := Search.searchHit_sound files.length 0 (files.length - 1) (le_refl 0)
      hlast hsearch
    have hother := fun j hj => compareFile_other hranges hdisjoint hlt
      ((compareFile_eq hlt).mp heq) (i := j) hj
    have hget : files.getD index default = files[index] := by simp [hlt]
    have hmem := List.getElem_mem hlt
    simp only [hget, (h _ hmem).file]
    congr 1
    -- every other file of the level answers nothing
    have hsplit : files.map contents = (files.take index).map contents ++
        ([contents files[index]] ++ (files.drop (index + 1)).map contents) := by
      have hfiles : files = files.take index ++ files[index] :: files.drop (index + 1) := by
        rw [← List.drop_eq_getElem_cons hlt, List.take_append_drop]
      calc files.map contents
          = (files.take index ++ files[index] :: files.drop (index + 1)).map contents :=
            congrArg (List.map contents) hfiles
        _ = _ := by simp only [List.map_append, List.map_cons, List.singleton_append]
    have hnone : ∀ part : List FileMetaData, (∀ f ∈ part, find key (contents f) = none) →
        (part.map contents).findSome? (find key) = none := by
      intro part hpart
      rw [List.findSome?_eq_none_iff]
      intro es hes
      obtain ⟨f, hf, rfl⟩ := List.mem_map.mp hes
      exact hpart f hf
    rw [hsplit, firstHit, List.findSome?_append, List.findSome?_append, hnone, hnone]
    · simp
    · intro f hf
      obtain ⟨i, hi, rfl⟩ := List.mem_iff_getElem.mp hf
      rw [List.length_drop] at hi
      rw [List.getElem_drop]
      apply hout _ (by omega)
      rw [(hother (index + 1 + i) (by omega)).2 (by omega)]
      simp
    · intro f hf
      obtain ⟨i, hi, rfl⟩ := List.mem_iff_getElem.mp hf
      rw [List.length_take] at hi
      rw [List.getElem_take]
      apply hout _ (by omega)
      rw [(hother i (by omega)).1 (by omega)]
      simp

theorem getLevels_eq {levels : List (List FileMetaData)}
    (h : ∀ files ∈ levels, (∀ f ∈ files, Answers dir faults key seq f (contents f)) ∧
      (∀ f ∈ files, f.smallestKey ≤ f.largestKey) ∧ Disjoint files) :
    getLevels dir faults key seq levels =
      lookupOf (firstHit (levels.flatten.map contents) key) := by
  induction levels with
  | nil => rfl
  | cons files rest ih =>
    obtain ⟨hfiles, hranges, hdisjoint⟩ := h files (by simp)
    rw [getLevels, getLevel_eq hfiles hranges hdisjoint, ih fun files hfiles =>
      h files (by simp [hfiles]), List.flatten_cons, List.map_append, lookupOf_append]

theorem allFiles_eq (v : Version) : v.allFiles = v.files 0 ++ v.deeper.flatten := by
  rw [allFiles, deeper, ← List.flatMap_def]
  rfl

theorem mem_allFiles {v : Version} {f : FileMetaData} :
    f ∈ v.allFiles ↔ ∃ level, f ∈ v.files level := by
  simp [allFiles]

theorem mem_deeper {v : Version} {files : List FileMetaData} (h : files ∈ v.deeper) :
    ∃ level, level ≠ 0 ∧ files = v.files level := by
  obtain ⟨level, hlevel, rfl⟩ := List.mem_map.mp h
  refine ⟨level, ?_, rfl⟩
  rintro rfl
  exact absurd hlevel (by decide)

theorem get_eq {v : Version} (h : ∀ f ∈ v.allFiles, Answers dir faults key seq f (contents f))
    (hlevels : ∀ level, level ≠ 0 →
      (∀ f ∈ v.files level, f.smallestKey ≤ f.largestKey) ∧ Disjoint (v.files level)) :
    v.get dir faults key seq = lookupOf (firstHit (v.allFiles.map contents) key) := by
  have hfiles : ∀ level, ∀ f ∈ v.files level, Answers dir faults key seq f (contents f) :=
    fun level f hf => h f (mem_allFiles.mpr ⟨level, hf⟩)
  rw [allFiles_eq, List.map_append, lookupOf_append, Version.get, getLevel0_eq (hfiles 0),
    getLevels_eq]
  intro files hdeeper
  obtain ⟨level, hlevel, rfl⟩ := mem_deeper hdeeper
  exact ⟨hfiles level, hlevels level hlevel⟩

/-- What holds of the files of a version in whatever order its levels list them. -/
structure Sane (loose : Prop) (v : Version) : Prop where
  sound : ∀ level, ∀ f ∈ v.files level, f.Sound
  nodup : ∀ level, (v.files level).Nodup
  unique : ∀ i j, ∀ x ∈ v.files i, ∀ y ∈ v.files j, x.number = y.number → i = j ∧ x = y
  apart : ∀ level, level ≠ 0 → ∀ x ∈ v.files level, ∀ y ∈ v.files level, x ≠ y →
    x.largestKey < y.smallestKey ∨ y.largestKey < x.smallestKey
  recent0 : ∀ x ∈ v.files 0, ∀ y ∈ v.files 0, y.number < x.number →
    Newer loose x.entries y.entries
  recent : ∀ i j, i < j → ∀ x ∈ v.files i, ∀ y ∈ v.files j, Newer loose x.entries y.entries
  distinct : ∀ i j, ∀ x ∈ v.files i, ∀ y ∈ v.files j, ∀ a ∈ x.entries, ∀ b ∈ y.entries,
    a.userKey = b.userKey → a.seq = b.seq → a = b

structure Good (loose : Prop) (v : Version) : Prop extends Sane loose v where
  descending : (v.files 0).Pairwise fun a b => b.number ≤ a.number
  ascending : ∀ level, level ≠ 0 → (v.files level).Pairwise fun a b => a.smallestKey ≤ b.smallestKey

variable {v : Version} {loose : Prop}

theorem Good.level0 (h : v.Good loose) : (v.files 0).Pairwise fun a b => b.number < a.number := by
  have hpair := (List.Pairwise.and_mem.mp h.descending).and (h.nodup 0)
  refine hpair.imp fun {a b} ⟨⟨ha, hb, hle⟩, hne⟩ => ?_
  rcases Nat.lt_or_eq_of_le hle with hlt | heq
  · exact hlt
  · exact absurd (h.unique 0 0 b hb a ha heq).2.symm hne

theorem Good.disjoint (h : v.Good loose) {level : Fin kNumLevels} (hlevel : level ≠ 0) :
    Disjoint (v.files level) := by
  have hpair := (List.Pairwise.and_mem.mp (h.ascending level hlevel)).and (h.nodup level)
  refine hpair.imp fun {a b} ⟨⟨ha, hb, hle⟩, hne⟩ => ?_
  rcases h.apart level hlevel a ha b hb hne with hlt | hlt
  · exact hlt
  · have hrange := (h.sound level b hb).smallest_le_largest
    exact absurd (lt_of_le_of_lt (le_trans hle hrange) hlt) (lt_irrefl _)

theorem newer_of_apart {x y : FileMetaData} (hx : x.Sound) (hy : y.Sound)
    (h : x.largestKey < y.smallestKey) : Newer loose x.entries y.entries := by
  intro a ha b hb hkey
  have hlt := lt_of_le_of_lt (hx.le_largest ha) (lt_of_lt_of_le h (hy.smallest_le hb))
  exact absurd hkey (ne_of_lt hlt)

theorem Good.recency (h : v.Good loose) : (sources v.allFiles).Pairwise (Newer loose) := by
  rw [sources, List.pairwise_map, allFiles, List.pairwise_flatMap]
  constructor
  · intro level _
    by_cases hlevel : level = 0
    · subst hlevel
      exact (List.Pairwise.and_mem.mp h.level0).imp fun {a b} ⟨ha, hb, hlt⟩ => h.recent0 a ha b hb hlt
    · exact (List.Pairwise.and_mem.mp (h.disjoint hlevel)).imp fun {a b} ⟨ha, hb, hlt⟩ =>
        newer_of_apart (h.sound level a ha) (h.sound level b hb) hlt
  · exact (List.pairwise_lt_finRange kNumLevels).imp fun {i j} hij x hx y hy => h.recent i j hij x hx y hy

theorem Sane.mem_entries {e : Entry} : e ∈ (sources v.allFiles).flatten ↔
    ∃ level, ∃ f ∈ v.files level, e ∈ f.entries := by
  rw [List.mem_flatten]
  constructor
  · rintro ⟨es, hes, he⟩
    obtain ⟨f, hf, rfl⟩ := List.mem_map.mp hes
    obtain ⟨level, hlevel⟩ := mem_allFiles.mp hf
    exact ⟨level, f, hlevel, he⟩
  · rintro ⟨level, f, hf, he⟩
    exact ⟨f.entries, List.mem_map_of_mem (mem_allFiles.mpr ⟨level, hf⟩), he⟩

theorem Sane.distinct_entries (h : v.Sane loose) : Distinct (sources v.allFiles).flatten := by
  intro a ha b hb hkey hrank
  obtain ⟨i, x, hx, ha⟩ := mem_entries.mp ha
  obtain ⟨j, y, hy, hb⟩ := mem_entries.mp hb
  exact h.distinct i j x hx y hy a ha b hb hkey hrank

theorem Good.ordered (h : v.Good loose) : Ordered loose (sources v.allFiles) := by
  refine ⟨fun source hsource => ?_, h.recency⟩
  obtain ⟨f, hf, rfl⟩ := List.mem_map.mp hsource
  obtain ⟨level, hlevel⟩ := mem_allFiles.mp hf
  exact topFirst_of_sorted (h.sound level f hlevel).sorted

theorem get_sound (h : v.Good loose) (hseq : Visible key seq v.allFiles) :
    v.get dir faults key seq = lookupOf (firstHit (sources v.allFiles) key) := by
  apply get_eq
  · intro f hf
    obtain ⟨level, hlevel⟩ := mem_allFiles.mp hf
    exact answers_sound (h.sound level f hlevel) (hseq f hf)
  · intro level hlevel
    exact ⟨fun f hf => (h.sound level f hf).smallest_le_largest, h.disjoint hlevel⟩

end Version

end Strata

import Strata.TableLookup
import Strata.WrittenVersions

/-! A lookup in a version against a search through all entries of all its files. -/
namespace Strata

open Library System Layers Memtable

/-- The table can be read and holds these entries: the reader the file has, or the one that
opening it gives, is that of a table of them whose blocks are all within the limit. The
filter is the table's, or none. -/
structure FileMetaData.Readable (dir : Dir) (faults : Faults) (f : FileMetaData)
    (es : List Entry) : Prop where
  reader : ∃ (l : Layout) (number : Nat) (filter : Bytes), l.Valid es ∧
    (filter = l.filter ∨ filter = []) ∧
    f.openReader dir faults = .ok { l.reader number with filterData := filter }
  types : ∀ e ∈ es, e.HasType

namespace Version

/-- The structural invariant of a version whose files hold these entries. -/
structure Structured (dir : Dir) (faults : Faults) (contents : FileMetaData → List Entry)
    (v : Version) : Prop where
  readable : ∀ f ∈ v.allFiles, f.Readable dir faults (contents f)
  inside : ∀ f ∈ v.allFiles, ∀ e ∈ contents f,
    f.smallestKey ≤ e.userKey ∧ e.userKey ≤ f.largestKey
  descending : (v.files 0).Pairwise fun a b => b.number < a.number
  ranges : ∀ level, level ≠ 0 → ∀ f ∈ v.files level, f.smallestKey ≤ f.largestKey
  ascending : ∀ level, level ≠ 0 →
    (v.files level).Pairwise fun a b => a.smallestKey ≤ b.smallestKey
  disjoint : ∀ level, level ≠ 0 → (v.files level).Pairwise fun a b =>
    a.largestKey < b.smallestKey ∨ b.largestKey < a.smallestKey
  recent0 : ∀ x ∈ v.files 0, ∀ y ∈ v.files 0, y.number < x.number →
    ∀ a ∈ contents x, ∀ b ∈ contents y, a.userKey = b.userKey → b.seq < a.seq
  recent : ∀ i j, i < j → ∀ x ∈ v.files i, ∀ y ∈ v.files j,
    ∀ a ∈ contents x, ∀ b ∈ contents y, a.userKey = b.userKey → b.seq < a.seq

variable {dir : Dir} {faults : Faults} {contents : FileMetaData → List Entry} {v : Version}

def allEntries (contents : FileMetaData → List Entry) (v : Version) : List Entry :=
  (v.allFiles.map contents).flatten

theorem mem_allEntries {e : Entry} :
    e ∈ v.allEntries contents ↔ ∃ f ∈ v.allFiles, e ∈ contents f := by
  simp [allEntries]

theorem Structured.levels (h : v.Structured dir faults contents) {level : Fin kNumLevels}
    (hlevel : level ≠ 0) : Disjoint (v.files level) := by
  have hpairs := List.Pairwise.and_mem.mp ((h.ascending level hlevel).and (h.disjoint level hlevel))
  apply hpairs.imp
  rintro a b ⟨_, hb, hle, hlt | hlt⟩
  · exact hlt
  · have hrange := h.ranges level hlevel b hb
    exact absurd (lt_of_le_of_lt (le_trans hle hrange) hlt) (lt_irrefl _)

theorem Structured.answers (h : v.Structured dir faults contents) {f : FileMetaData}
    (hf : f ∈ v.allFiles) {key : Key} {seq : Nat} (hseq : ∀ e ∈ contents f, e.seq ≤ seq) :
    Answers dir faults key seq f (contents f) := by
  obtain ⟨l, number, filter, hvalid, hfilter, hopen⟩ := (h.readable f hf).reader
  constructor
  · rw [getFile, hopen]
    exact Layout.get_visible hvalid.opens (h.readable f hf).types number hfilter
      (fun e he _ => hseq e he) fun b hb => (hvalid.blocks b (List.mem_of_find?_eq_some hb)).2.2
  · intro hrange
    rw [Layers.find_none]
    rintro e he rfl
    obtain ⟨hsmallest, hlargest⟩ := h.inside f hf e he
    rcases hrange with hlt | hlt
    · exact absurd hsmallest (not_le.mpr hlt)
    · exact absurd hlargest (not_le.mpr hlt)

theorem Structured.ordered (h : v.Structured dir faults contents) :
    Ordered False (v.allFiles.map contents) := by
  have hnewer : ∀ x y : FileMetaData,
      (∀ a ∈ contents x, ∀ b ∈ contents y, a.userKey = b.userKey → b.seq < a.seq) →
      Newer False (contents x) (contents y) := by
    intro x y hxy a ha b hb hkey
    exact ⟨a, ha, rfl, (hxy a ha b hb hkey).le, Or.inl rfl⟩
  constructor
  · intro source hsource
    obtain ⟨f, hf, rfl⟩ := List.mem_map.mp hsource
    obtain ⟨l, _, _, hvalid, _⟩ := (h.readable f hf).reader
    exact topFirst_of_sorted hvalid.sorted
  · rw [List.pairwise_map, allFiles, List.pairwise_flatMap]
    constructor
    · intro level _
      by_cases hlevel : level = 0
      · subst hlevel
        apply (List.Pairwise.and_mem.mp h.descending).imp
        rintro x y ⟨hx, hy, hlt⟩
        exact hnewer x y (h.recent0 x hx y hy hlt)
      -- files of one deeper level have no key in common
      · apply (List.Pairwise.and_mem.mp (h.levels hlevel)).imp
        rintro x y ⟨hx, hy, hlt⟩
        apply hnewer
        intro a ha b hb hkey
        have ha' := (h.inside x (mem_allFiles.mpr ⟨level, hx⟩) a ha).2
        have hb' := (h.inside y (mem_allFiles.mpr ⟨level, hy⟩) b hb).1
        exact absurd hkey (ne_of_lt (lt_of_le_of_lt ha' (lt_of_lt_of_le hlt hb')))
    · apply (List.pairwise_lt_finRange kNumLevels).imp
      intro i j hij x hx y hy
      exact hnewer x y (h.recent i j hij x hx y hy)

/-- `Get` answers with the newest of all entries for the key, and with nothing exactly if
no file has the key. -/
theorem get_is_newest_of_all (v : Version) (dir : Dir) (faults : Faults)
    (contents : FileMetaData → List Entry) (h : v.Structured dir faults contents) (key : Key)
    (seq : Nat) (hseq : ∀ e ∈ v.allEntries contents, e.seq ≤ seq) :
    AnswersSnapshot (v.allEntries contents) key seq (v.get dir faults key seq) ∧
      (v.get dir faults key seq = .absent ↔
        ∀ f ∈ v.allFiles, ∀ e ∈ contents f, e.userKey ≠ key) := by
  have hget : v.get dir faults key seq = lookupOf (firstHit (v.allFiles.map contents) key) := by
    apply get_eq
    · intro f hf
      exact h.answers hf fun e he => hseq e (mem_allEntries.mpr ⟨f, hf, he⟩)
    · intro level hlevel
      exact ⟨h.ranges level hlevel, h.levels hlevel⟩
  have hnone : firstHit (v.allFiles.map contents) key = none ↔
      ∀ e ∈ v.allEntries contents, e.userKey ≠ key := firstHit_none
  rw [hget]
  constructor
  · cases hhit : firstHit (v.allFiles.map contents) key with
    | none =>
      right
      exact ⟨fun e he hkey => absurd hkey (hnone.mp hhit e he), rfl⟩
    | some e =>
      left
      obtain ⟨hmem, hkey, htop⟩ := firstHit_top h.ordered hhit
      exact ⟨e, ⟨hmem, hkey, hseq e hmem, fun x hx hxkey _ => htop x hx hxkey⟩, rfl⟩
  · rw [Layout.lookupOf_eq_absent, hnone]
    constructor
    · intro hall f hf e he
      exact hall e (mem_allEntries.mpr ⟨f, hf, he⟩)
    · intro hall e he
      obtain ⟨f, hf, he⟩ := mem_allEntries.mp he
      exact hall f hf e he

/-! Tables in a directory that no one has opened yet. -/

def unopened (options : Options) (t : WrittenTable) : FileMetaData :=
  { t.file options with reader := none }

section Unopened

variable {options : Options} {tables : List WrittenTable}
  (horder : tables.Pairwise WrittenTable.InFrontOf)

include horder in
theorem structured_ofTables (hfits : ∀ t ∈ tables, t.Fits options)
    (hstored : ∀ t ∈ tables,
      dir.lookup (.table t.number) = some (layoutOf options t.entries).image)
    (hreads : ∀ number, faults (.table number) = none) :
    (ofTables (unopened options) tables).Structured dir faults (contentsOf tables) := by
  have hcontents : ∀ t ∈ tables, contentsOf tables (unopened options t) = t.entries :=
    fun t ht => contentsOf_eq horder ht rfl
  constructor
  case readable =>
    intro f hf
    obtain ⟨level, hf⟩ := mem_allFiles.mp hf
    obtain ⟨t, ht, _, rfl⟩ := mem_ofTables.mp hf
    rw [hcontents t ht]
    refine ⟨⟨_, t.number, _, (hfits t ht).valid, Or.inl rfl, ?_⟩, fun e he =>
      ((hfits t ht).2.1 e he).2⟩
    rw [FileMetaData.openReader]
    simp only [unopened, WrittenTable.file, writtenFile, hstored t ht, hreads]
    exact Layout.openTable_image (hfits t ht).valid.opens t.number
  case inside =>
    intro f hf e he
    obtain ⟨level, hf⟩ := mem_allFiles.mp hf
    obtain ⟨t, ht, _, rfl⟩ := mem_ofTables.mp hf
    obtain ⟨hsound, hentries⟩ := (hfits t ht).sound
    rw [hcontents t ht, ← hentries] at he
    exact ⟨hsound.smallest_le he, hsound.le_largest he⟩
  case descending =>
    apply pairwise_ofTables horder
    intro t _ u _ ht hu hfront
    exact hfront.number_lt ht hu
  case ranges =>
    intro level _ f hf
    obtain ⟨t, ht, _, rfl⟩ := mem_ofTables.mp hf
    exact (hfits t ht).sound.1.smallest_le_largest
  case ascending =>
    intro level hlevel
    apply pairwise_ofTables horder
    intro t ht u _ htlevel hulevel hfront
    have hrange := (hfits t ht).sound.1.smallest_le_largest
    exact (lt_of_le_of_lt hrange (hfront.lastKey_lt htlevel hulevel hlevel)).le
  case disjoint =>
    intro level hlevel
    apply pairwise_ofTables horder
    intro t _ u _ htlevel hulevel hfront
    exact Or.inl (hfront.lastKey_lt htlevel hulevel hlevel)
  case recent0 =>
    intro x hx y hy hlt a ha b hb hkey
    obtain ⟨t, ht, ht0, rfl⟩ := mem_ofTables.mp hx
    obtain ⟨u, hu, hu0, rfl⟩ := mem_ofTables.mp hy
    rw [hcontents t ht] at ha
    rw [hcontents u hu] at hb
    rcases WrittenTable.trichotomy horder ht hu with rfl | hfront | hfront
    · exact absurd hlt (lt_irrefl _)
    · exact hfront.2.2.2 a ha b hb hkey
    · exact absurd hlt (lt_asymm (hfront.number_lt hu0 ht0))
  case recent =>
    intro i j hij x hx y hy a ha b hb hkey
    obtain ⟨t, ht, rfl, rfl⟩ := mem_ofTables.mp hx
    obtain ⟨u, hu, rfl, rfl⟩ := mem_ofTables.mp hy
    rw [hcontents t ht] at ha
    rw [hcontents u hu] at hb
    rcases WrittenTable.trichotomy horder ht hu with rfl | hfront | hfront
    · exact absurd hij (lt_irrefl _)
    · exact hfront.2.2.2 a ha b hb hkey
    · exact absurd hfront.1 (not_le.mpr hij)

end Unopened

set_option maxRecDepth 4000 in
/-- The key is in the second of three files of level 1, and below that in an older version. -/
theorem get_is_newest_of_all_sixTables :
    AnswersSnapshot
        ((ofTables (unopened eagerOptions) sixTables).allEntries (contentsOf sixTables)) [101] 9
        ((ofTables (unopened eagerOptions) sixTables).get (storedDir eagerOptions sixTables)
          (fun _ => none) [101] 9) ∧
      ((ofTables (unopened eagerOptions) sixTables).get (storedDir eagerOptions sixTables)
          (fun _ => none) [101] 9 = .absent ↔
        ∀ f ∈ (ofTables (unopened eagerOptions) sixTables).allFiles, ∀ e ∈ contentsOf sixTables f,
          e.userKey ≠ [101]) := by
  apply get_is_newest_of_all _ _ _ (contentsOf sixTables)
  · exact structured_ofTables sixTables_ordered sixTables_fit (by decide +kernel) fun _ => rfl
  · decide +kernel

end Version

end Strata
